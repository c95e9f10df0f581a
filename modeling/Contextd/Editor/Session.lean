import Contextd.Editor.ConfigurationStack
import Contextd.Policy.Store

/-!
# Sessions of the editor

A session is any sequence of edits, undos, redos and saves after `initialise`; it records the
configuration written by the last save and the changes the edits made.  Every session reads as a
history (`reads_of_reach`), as long as each edit pushes once.  The index of the configuration saved
last points to it as long as no edit is made before it (`EditsAfterSaved`).
-/

universe u

namespace Editor

open List

variable {σ : Type u}

/-- What the user does. -/
inductive Action (σ : Type u) where
  | change (c : Change σ)
  | undo
  | redo
  | save

/-- A stack, the configuration that was written or loaded last, and the changes made so far:
the configuration before, the change type, and the configuration after. -/
structure Session (σ : Type u) where
  stack : ConfigurationStack σ
  saved : σ
  changes : List (σ × String × σ)

/-- One action of a session. -/
def Session.step (maxStackSize : ℕ) (s : Session σ) : Action σ → Option (Session σ)
  | .change c =>
      s.stack.current.bind fun conf =>
        (s.stack.change maxStackSize c).map fun stack =>
          { s with
              stack := stack
              changes :=
                s.changes ++ c.pushes.map fun changeType => (conf, changeType, c.apply conf) }
  | .undo => s.stack.onUndo.map fun stack => { s with stack := stack }
  | .redo => s.stack.onRedo.map fun stack => { s with stack := stack }
  | .save =>
      s.stack.current.map fun conf => { s with stack := s.stack.saveTransitions, saved := conf }

/-- The sessions of an editor. -/
def sessions (σ : Type u) (maxStackSize : ℕ) : Machine (Session σ) (Action σ) where
  init s := ∃ conf, s = ⟨.initialise conf, conf, []⟩
  step := Session.step maxStackSize

/-- An edit emits exactly one signal whose slot pushes. -/
def Action.PushesOnce : Action σ → Prop
  | .change c => c.pushes.length = 1
  | _ => True

instance Action.decidablePushesOnce : (a : Action σ) → Decidable a.PushesOnce
  | .change c => inferInstanceAs (Decidable (c.pushes.length = 1))
  | .undo | .redo | .save => inferInstanceAs (Decidable True)

/-- The same action on a history. -/
def Action.onHistory (maxStackSize : ℕ) (h : History (σ × String)) :
    Action σ → History (σ × String)
  | .change c => h.edit maxStackSize (c.apply h.present.1, c.pushes.headD changeTypeNew)
  | .undo => h.undo
  | .redo => h.redo
  | .save => h

/-! ### What an action does -/

section

variable {maxStackSize : ℕ} {s s' : Session σ} {h : History (σ × String)} {a : Action σ}

/-- What an action does in a session that reads as the history `h`. -/
inductive Effect (maxStackSize : ℕ) (s : Session σ) (h : History (σ × String)) :
    Action σ → Session σ → Prop where
  | change {c : Change σ} {changeType : String} {stack : ConfigurationStack σ} :
      c.pushes = [changeType] →
      stack.Reads (h.edit maxStackSize (c.apply h.present.1, changeType)) →
      stack.lastSavedIndex =
        (if maxStackSize < h.past.length + 2 then s.stack.lastSavedIndex - 1
          else s.stack.lastSavedIndex) →
      Effect maxStackSize s h (.change c)
        ⟨stack, s.saved, s.changes ++ [(h.present.1, changeType, c.apply h.present.1)]⟩
  | undo {stack : ConfigurationStack σ} :
      stack.Reads h.undo → stack.lastSavedIndex = s.stack.lastSavedIndex →
      Effect maxStackSize s h .undo { s with stack := stack }
  | redo {stack : ConfigurationStack σ} :
      stack.Reads h.redo → stack.lastSavedIndex = s.stack.lastSavedIndex →
      Effect maxStackSize s h .redo { s with stack := stack }
  | save :
      Effect maxStackSize s h .save
        { s with stack := s.stack.saveTransitions, saved := h.present.1 }

/-- Every action is possible, and has its effect, when an edit pushes once. -/
theorem effect_step (hr : s.stack.Reads h) (ha : a.PushesOnce) :
  ∃ s', s.step maxStackSize a = some s' ∧ Effect maxStackSize s h a s'
  := by
  cases a with
  | change c =>
    obtain ⟨changeType, hc⟩ := length_eq_one_iff.mp ha
    obtain ⟨stack, hchange, hrd, hsv⟩ :=
      @ConfigurationStack.Reads.change _ _ _ maxStackSize hr _ _ hc
    refine ⟨_, ?_, Effect.change hc hrd hsv⟩
    rw [Session.step, hr.current_eq, Option.bind_some, hchange, Option.map_some, hc]
    rfl
  | undo =>
    obtain ⟨stack, hundo, hrd, hsv⟩ := hr.onUndo
    exact ⟨_, by rw [Session.step, hundo, Option.map_some], Effect.undo hrd hsv⟩
  | redo =>
    obtain ⟨stack, hredo, hrd, hsv⟩ := hr.onRedo
    exact ⟨_, by rw [Session.step, hredo, Option.map_some], Effect.redo hrd hsv⟩
  | save => exact ⟨_, by rw [Session.step, hr.current_eq, Option.map_some], Effect.save⟩

/-- The effect of a step that was made. -/
theorem effect_of_step (hr : s.stack.Reads h) (ha : a.PushesOnce)
    (hs : s.step maxStackSize a = some s') :
  Effect maxStackSize s h a s'
  := by
  obtain ⟨s'', hs', heff⟩ := @effect_step _ maxStackSize _ _ _ hr ha
  rw [hs] at hs'
  obtain rfl := Option.some.inj hs'
  apply heff

/-- The effect of an action on the history. -/
theorem Effect.reads (heff : Effect maxStackSize s h a s') (hr : s.stack.Reads h) :
  s'.stack.Reads (a.onHistory maxStackSize h)
  := by
  cases heff with
  | change hc hrd _ => simpa [Action.onHistory, hc] using hrd
  | undo hrd _ => apply hrd
  | redo hrd _ => apply hrd
  | save => exact ⟨hr.stack_eq, hr.index_eq⟩

/-! ### Refinement -/

/-- The change type of an entry is the one of a change that made it from the entry before. -/
def Produced (changes : List (σ × String × σ)) (e e' : σ × String) : Prop :=
  (e.1, e'.2, e'.1) ∈ changes

/-- A session reads as a history within the limit, whose entries are made from one
another. -/
structure Tracks (maxStackSize : ℕ) (s : Session σ) (h : History (σ × String)) : Prop where
  reads : s.stack.Reads h
  length_le : h.entries.length ≤ maxStackSize
  produced : h.entries.IsChain (Produced s.changes)

/-- Every action keeps to the history. -/
theorem Tracks.step (ht : Tracks maxStackSize s h) (heff : Effect maxStackSize s h a s') :
  Tracks maxStackSize s' (a.onHistory maxStackSize h)
  := by
  refine ⟨heff.reads ht.reads, ?_, ?_⟩
  · cases heff with
    | change => apply History.length_entries_edit _ ht.length_le
    | undo => simpa [Action.onHistory] using ht.length_le
    | redo => simpa [Action.onHistory] using ht.length_le
    | save => apply ht.length_le
  · cases heff with
    | @change c changeType stack hc =>
      apply History.isChain_edit
      · apply ht.produced.imp
        intro e e' hm
        apply mem_append_left _ hm
      · simp [Produced, hc]
    | undo => simpa [Action.onHistory] using ht.produced
    | redo => simpa [Action.onHistory] using ht.produced
    | save => apply ht.produced

/-- Every session reads as a history. -/
theorem tracks_of_reach (hlimit : 1 ≤ maxStackSize)
    (hrch : (sessions σ maxStackSize).Reach (fun _ a => a.PushesOnce) s) :
  ∃ h, Tracks maxStackSize s h
  := by
  apply hrch.invariant
  · rintro _ ⟨conf, rfl⟩
    refine ⟨.new (conf, changeTypeNew), ConfigurationStack.reads_initialise conf, ?_, ?_⟩
    · simpa [History.new, History.entries] using hlimit
    · simp [History.new, History.entries]
  · rintro s a s' ⟨h, ht⟩ ha hs
    exact ⟨_, ht.step (effect_of_step ht.reads ha hs)⟩

/-- A run of actions is one on the history. -/
theorem Tracks.run (ht : Tracks maxStackSize s h) {as : List (Action σ)}
    (has : ∀ a ∈ as, a.PushesOnce) :
  ∃ s', (sessions σ maxStackSize).run s as = some s' ∧
    Tracks maxStackSize s' (as.foldl (Action.onHistory maxStackSize) h)
  := by
  induction as generalizing s h with
  | nil => exact ⟨s, rfl, ht⟩
  | cons a as ih =>
    rw [forall_mem_cons] at has
    obtain ⟨s₁, hs, heff⟩ := @effect_step _ maxStackSize _ _ _ ht.reads has.1
    obtain ⟨s₂, hrun, ht₂⟩ := ih (ht.step heff) has.2
    refine ⟨s₂, ?_, ht₂⟩
    rw [Machine.run]
    apply Option.bind_eq_some_iff.mpr ⟨s₁, hs, hrun⟩

/-- The same action, any number of times. -/
theorem foldl_replicate (k : ℕ) (a : Action σ) (h : History (σ × String)) :
  (List.replicate k a).foldl (Action.onHistory maxStackSize) h =
    (fun h => a.onHistory maxStackSize h)^[k] h
  := by
  induction k generalizing h with
  | zero => rfl
  | succ k ih => rw [replicate_succ, foldl_cons, ih, Function.iterate_succ_apply]

/-- Redos take back as many undos, as long as there is a past. -/
theorem Tracks.undo_redo (ht : Tracks maxStackSize s h) {k : ℕ} (hk : k ≤ h.past.length) :
  ∃ s', (sessions σ maxStackSize).run s (List.replicate k .undo ++ List.replicate k .redo) =
      some s' ∧
    Tracks maxStackSize s' h
  := by
  have has : ∀ a ∈ List.replicate k Action.undo ++ List.replicate k Action.redo,
      Action.PushesOnce (σ := σ) a := by
    intro a ha
    rcases mem_append.mp ha with ha | ha <;> rw [eq_of_mem_replicate ha] <;> trivial
  obtain ⟨s', hrun, ht'⟩ := ht.run has
  refine ⟨s', hrun, ?_⟩
  rw [foldl_append, foldl_replicate, foldl_replicate] at ht'
  have hback : History.redo^[k] (History.undo^[k] h) = h := History.iterate_redo_undo hk
  simp only [Action.onHistory] at ht'
  rwa [hback] at ht'

end

/-- Every session whose edits push once reads as a history: the index is one of the stack,
which is within its limit; every action is the one on the history; redos take back as many
undos; and the change type of an entry is the one of the edit that made it from the entry
before. -/
theorem session_refines_history (maxStackSize : ℕ) (hlimit : 1 ≤ maxStackSize) (s : Session σ)
    (hrch : (sessions σ maxStackSize).Reach (fun _ a => a.PushesOnce) s) :
  ∃ h : History (σ × String), s.stack.history = some h ∧
    (0 ≤ s.stack.currentIndex ∧ s.stack.currentIndex < s.stack.stack.length ∧
      s.stack.stack.length ≤ max maxStackSize 1) ∧
    (∀ a : Action σ, a.PushesOnce →
      ∃ s', (sessions σ maxStackSize).step s a = some s' ∧
        s'.stack.history = some (a.onHistory maxStackSize h)) ∧
    (∀ k ≤ h.past.length,
      ∃ s', (sessions σ maxStackSize).run s
          (List.replicate k .undo ++ List.replicate k .redo) = some s' ∧
        s'.stack.history = some h) ∧
    h.entries.IsChain fun e e' => (e.1, e'.2, e'.1) ∈ s.changes
  := by
  obtain ⟨h, ht⟩ := tracks_of_reach hlimit hrch
  have hlen := ht.reads.length_stack
  have hix := ht.reads.index_eq
  have hle := ht.length_le
  refine ⟨h, ht.reads.history_eq, ⟨by omega, ?_, by omega⟩, ?_, ?_, ht.produced⟩
  · rw [hlen, hix, History.entries, length_append, length_cons]
    omega
  · intro a ha
    obtain ⟨s', hs, heff⟩ := @effect_step _ maxStackSize _ _ _ ht.reads ha
    exact ⟨s', hs, (heff.reads ht.reads).history_eq⟩
  · intro k hk
    obtain ⟨s', hrun, ht'⟩ := ht.undo_redo hk
    exact ⟨s', hrun, ht'.reads.history_eq⟩

/-- The edit that adds a default domain. -/
def addDefaultDomain (name : String) : Change Policy.Configuration where
  apply c := c.addDomain { Policy.Domain.none with name := name } true
  signals := [.domainChanged "" name]

/-- The empty configuration. -/
def emptyConfiguration : Policy.Configuration := ⟨∅, ∅, ∅, .none, ∅, []⟩

/-- Two edits and an undo, with room for two configurations. -/
theorem session_refines_history_twoEdits :
  ∃ s, (sessions Policy.Configuration 2).Reach (fun _ a => a.PushesOnce) s ∧
    ∃ h, s.stack.history = some h ∧ h.past = [] ∧ h.present.2 = "domain\n\nwork" ∧
      h.future.map Prod.snd = ["domain\n\nprivate"] ∧
      h.entries.IsChain fun e e' => (e.1, e'.2, e'.1) ∈ s.changes
  := by
  have hrch := @Machine.Reach.run _ _ (sessions Policy.Configuration 2)
    (fun _ a => a.PushesOnce) _ _
    (Machine.Reach.init ⟨emptyConfiguration, rfl⟩)
    [.change (addDefaultDomain "work"), .change (addDefaultDomain "private"), .undo]
    (by decide) rfl
  obtain ⟨h, hhist, -, -, -, hchain⟩ := session_refines_history 2 (by decide) _ hrch
  refine ⟨_, hrch, h, hhist, ?_, ?_, ?_, hchain⟩
  · apply congrArg History.past (Option.some.inj hhist.symm)
  · apply congrArg (fun h => h.present.2) (Option.some.inj hhist.symm)
  · apply congrArg (fun h => h.future.map Prod.snd) (Option.some.inj hhist.symm)

/-! ### What is saved -/

/-- No edit is made before the position of the configuration that was saved last. -/
def EditsAfterSaved (s : Session σ) : Action σ → Prop
  | .change _ => s.stack.lastSavedIndex ≤ s.stack.currentIndex
  | _ => True

instance decidableEditsAfterSaved (s : Session σ) : (a : Action σ) → Decidable (EditsAfterSaved s a)
  | .change _ => inferInstanceAs (Decidable (s.stack.lastSavedIndex ≤ s.stack.currentIndex))
  | .undo | .redo | .save => inferInstanceAs (Decidable True)

/-- What the index of the configuration saved last points to, when it points to an entry. -/
structure PointsToSaved (s : Session σ) (h : History (σ × String)) : Prop where
  reads : s.stack.Reads h
  lt_length : s.stack.lastSavedIndex < h.entries.length
  saved : ∀ i : ℕ, s.stack.lastSavedIndex = i → (h.entries[i]?).map Prod.fst = some s.saved

section

variable {maxStackSize : ℕ} {s s' : Session σ} {h : History (σ × String)} {a : Action σ}

/-- The entries up to the present one are those that an edit leaves, up to the one that it
may drop. -/
theorem getElem?_entries_edit {i : ℕ} (hi : i ≤ h.past.length) (e : σ × String) :
  if maxStackSize < h.past.length + 2 then
    ∀ j, i = j + 1 → (h.edit maxStackSize e).entries[j]? = h.entries[i]?
  else (h.edit maxStackSize e).entries[i]? = h.entries[i]?
  := by
  have hents : h.entries = (h.past ++ [h.present]) ++ h.future := by simp [History.entries]
  rw [hents, History.entries_edit, List.getElem?_append_left (by simp; omega)]
  split_ifs
  · rintro j rfl
    rw [List.getElem?_append_left (by simp; omega), List.getElem?_tail]
  · rw [List.getElem?_append_left (by simp; omega)]

/-- An action that makes no edit before the saved configuration. -/
theorem PointsToSaved.step (hp : PointsToSaved s h) (hafter : EditsAfterSaved s a)
    (heff : Effect maxStackSize s h a s') :
  PointsToSaved s' (a.onHistory maxStackSize h)
  := by
  have hrd := heff.reads hp.reads
  cases heff with
  | @change c changeType stack hc _ hsv =>
    rw [EditsAfterSaved, hp.reads.index_eq] at hafter
    have hget := fun i hi =>
      @getElem?_entries_edit _ maxStackSize h i hi
        (c.apply h.present.1, c.pushes.headD changeTypeNew)
    by_cases hlt : maxStackSize < h.past.length + 2
    · simp only [if_pos hlt] at hsv hget
      refine ⟨hrd, ?_, fun i hi => ?_⟩
      · simp [Action.onHistory, History.entries_edit, hlt, hsv]
        omega
      · rw [Action.onHistory, hget (i + 1) (by dsimp only at hi; omega) i rfl]
        apply hp.saved
        dsimp only at hi
        omega
    · simp only [if_neg hlt] at hsv hget
      refine ⟨hrd, ?_, fun i hi => ?_⟩
      · simp [Action.onHistory, History.entries_edit, hlt, hsv]
        omega
      · rw [Action.onHistory, hget i (by dsimp only at hi; omega)]
        apply hp.saved i (hsv.symm.trans hi)
  | undo _ hsv =>
    refine ⟨hrd, ?_, ?_⟩
    · rw [hsv, Action.onHistory, History.entries_undo]
      apply hp.lt_length
    · intro i hi
      rw [Action.onHistory, History.entries_undo]
      apply hp.saved i (hsv.symm.trans hi)
  | redo _ hsv =>
    refine ⟨hrd, ?_, ?_⟩
    · rw [hsv, Action.onHistory, History.entries_redo]
      apply hp.lt_length
    · intro i hi
      rw [Action.onHistory, History.entries_redo]
      apply hp.saved i (hsv.symm.trans hi)
  | save =>
    have hix := hp.reads.index_eq
    refine ⟨hrd, ?_, fun i hi => ?_⟩
    · rw [ConfigurationStack.saveTransitions, Action.onHistory, History.entries,
        length_append, length_cons, hix]
      dsimp only
      omega
    · have hi : (h.past.length : ℤ) = i := hix.symm.trans hi
      obtain rfl : h.past.length = i := by omega
      simp [Action.onHistory, History.entries]

/-- As long as no edit is made before the saved configuration, its index points to it. -/
theorem pointsToSaved_of_reach
    (hrch : (sessions σ maxStackSize).Reach (fun s a => a.PushesOnce ∧ EditsAfterSaved s a) s) :
  ∃ h, PointsToSaved s h
  := by
  apply hrch.invariant
  · rintro _ ⟨conf, rfl⟩
    refine ⟨.new (conf, changeTypeNew), ConfigurationStack.reads_initialise conf, ?_, ?_⟩
    · simp [History.new, History.entries, ConfigurationStack.initialise]
    · intro i hi
      obtain rfl : i = 0 := by
        simpa [ConfigurationStack.initialise] using hi.symm
      rfl
  · rintro s a s' ⟨h, hp⟩ ⟨ha, hafter⟩ hs
    exact ⟨_, hp.step hafter (effect_of_step hp.reads ha hs)⟩

end

/-- In every session whose edits push once, and are not made before the position of the
configuration that was saved last, the current configuration is the one written by the last
save, or the one loaded, whenever the stack has no changes. -/
theorem current_eq_saved_of_not_hasChanges (maxStackSize : ℕ) (s : Session σ)
    (hrch : (sessions σ maxStackSize).Reach (fun s a => a.PushesOnce ∧ EditsAfterSaved s a) s)
    (hchanges : s.stack.hasChanges = false) :
  s.stack.current = some s.saved
  := by
  obtain ⟨h, hp⟩ := pointsToSaved_of_reach hrch
  have hix : s.stack.lastSavedIndex = h.past.length := by
    rw [← hp.reads.index_eq]
    simpa [ConfigurationStack.hasChanges] using hchanges
  have hsv := hp.saved _ hix
  rw [hp.reads.current_eq]
  simpa [History.entries] using hsv

/-- A save between two edits. -/
theorem current_eq_saved_oneEdit :
  ∃ s, (sessions Policy.Configuration 100).Reach
      (fun s a => a.PushesOnce ∧ EditsAfterSaved s a) s ∧
    s.stack.hasChanges = false ∧ s.saved.defaultDomain.name = "work" ∧
    s.stack.current = some s.saved
  := by
  have hrch := @Machine.Reach.run _ _ (sessions Policy.Configuration 100)
    (fun s a => a.PushesOnce ∧ EditsAfterSaved s a) _ _
    (Machine.Reach.init ⟨emptyConfiguration, rfl⟩)
    [.change (addDefaultDomain "work"), .save, .change (addDefaultDomain "private"), .undo]
    (by decide) rfl
  exact ⟨_, hrch, rfl, rfl, current_eq_saved_of_not_hasChanges 100 _ hrch rfl⟩

/-- Two edits, a save, two undos and two other edits: the index is again the one that was
saved, and the stack has no changes, although none of the last two edits was saved. -/
theorem unsaved_edits_are_hidden :
  ∃ s, (sessions Policy.Configuration 100).Reach (fun _ a => a.PushesOnce) s ∧
    s.stack.hasChanges = false ∧ s.saved.defaultDomain.name = "private" ∧
    s.stack.current.map (fun c => c.defaultDomain.name) = some "public"
  := by
  have hrch := @Machine.Reach.run _ _ (sessions Policy.Configuration 100)
    (fun _ a => a.PushesOnce) _ _
    (Machine.Reach.init ⟨emptyConfiguration, rfl⟩)
    [.change (addDefaultDomain "work"), .change (addDefaultDomain "private"), .save, .undo, .undo,
      .change (addDefaultDomain "home"), .change (addDefaultDomain "public")]
    (by decide) rfl
  exact ⟨_, hrch, rfl, rfl, rfl⟩

end Editor

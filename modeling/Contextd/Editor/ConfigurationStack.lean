import Contextd.Machine
import Contextd.Data.History

/-!
# The configurations of the editor

`ConfigurationStack` keeps the instances of the configuration that undo and redo lead to.  An edit
changes the current instance in place; its signals reach the slots of the stack as often as they are
connected, and a slot that pushes stores a copy of the instance as it was before
(`pushCurrentInstance`).  `Reads` relates a stack to the history it stands for: only the current
instance is connected, and once (`Reads.stack_eq`).
-/

universe u

namespace Editor

open List

/-- The signals of a configuration that the stack is connected to. -/
inductive Signal where
  | domainChanged (oldName newName : String)
  | configurationChanged
  | programChanged (oldName newName : String)
  | allRulesChanged (sideEffect : Bool)
  | loopsChanged (sideEffect : Bool)
  | rulesChanged (sideEffect : Bool)
  deriving DecidableEq, Repr

/-- The change type with which the slot of a signal pushes the current instance, when it
does. -/
def Signal.changeType : Signal → Option String
  | .domainChanged oldName newName => some ("domain" ++ "\n" ++ oldName ++ "\n" ++ newName)
  | .configurationChanged => some "configuration"
  | .programChanged _ _ => none
  | .allRulesChanged sideEffect => if sideEffect then none else some "allRules"
  | .loopsChanged sideEffect => if sideEffect then none else some "loops"
  | .rulesChanged sideEffect => if sideEffect then none else some "rules"

/-- `CHANGE_TYPE_NEW`. -/
def changeTypeNew : String := "new"

/-- An element of the stack: a configuration, the type of the change from the one before it,
and how many times its signals are connected to the slots of the stack. -/
structure Instance (σ : Type u) where
  conf : σ
  changeType : String
  connections : ℕ
  deriving DecidableEq

/-- `ConfigurationStack`. -/
structure ConfigurationStack (σ : Type u) where
  stack : List (Instance σ)
  currentIndex : ℤ
  lastSavedIndex : ℤ
  currentBeforeLastChange : σ

/-- An edit: what it makes of a configuration, and the signals that it emits. -/
structure Change (σ : Type u) where
  apply : σ → σ
  signals : List Signal

variable {σ : Type u}

/-- The change types with which an edit makes the stack push. -/
def Change.pushes (c : Change σ) : List String := c.signals.filterMap Signal.changeType

/-- What an element of the stack is in the history: its configuration and its change type. -/
def Instance.entry (x : Instance σ) : σ × String := (x.conf, x.changeType)

namespace ConfigurationStack

/-- The element of the stack at an index, when there is one. -/
def at? (s : ConfigurationStack σ) (i : ℤ) : Option (Instance σ) :=
  if 0 ≤ i then s.stack[i.toNat]? else none

/-- `current()`. -/
def current (s : ConfigurationStack σ) : Option σ := (s.at? s.currentIndex).map Instance.conf

/-- `hasChanges()`. -/
def hasChanges (s : ConfigurationStack σ) : Bool := s.lastSavedIndex ≠ s.currentIndex

/-- `initialise()`, for the configuration that is loaded. -/
def initialise (conf : σ) : ConfigurationStack σ where
  stack := [⟨conf, changeTypeNew, 1⟩]
  currentIndex := 0
  lastSavedIndex := 0
  currentBeforeLastChange := conf

/-- The end of `pushCurrentInstance`: when the stack is larger than the setting of the editor,
its oldest element is removed. -/
def removeOld (maxStackSize : ℕ) (s : ConfigurationStack σ) : ConfigurationStack σ :=
  if maxStackSize < s.stack.length then
    { s with
        stack := s.stack.tail
        currentIndex := s.currentIndex - 1
        lastSavedIndex := s.lastSavedIndex - 1 }
  else s

/-- `pushCurrentInstance(changeType)`. -/
def pushCurrentInstance (maxStackSize : ℕ) (changeType : String) (s : ConfigurationStack σ) :
    Option (ConfigurationStack σ) :=
  (s.at? s.currentIndex).map fun current =>
    let i := s.currentIndex.toNat
    -- The change type of the current instance is given to its copy.
    let stack := s.stack.set i { current with changeType := changeType }
    let stack := stack.insertIdx i ⟨s.currentBeforeLastChange, current.changeType, 0⟩
    -- Nothing can be redone any more.
    let stack := stack.take (i + 2)
    removeOld maxStackSize { s with stack := stack, currentIndex := s.currentIndex + 1 }

/-- The slot of a signal. -/
def slot (maxStackSize : ℕ) (s : ConfigurationStack σ) (signal : Signal) :
    Option (ConfigurationStack σ) :=
  match signal.changeType with
  | none => some s
  | some changeType => s.pushCurrentInstance maxStackSize changeType

/-- A signal that the current instance emits: its slot is called as often as the instance is
connected. -/
def emit (maxStackSize : ℕ) (s : ConfigurationStack σ) (signal : Signal) :
    Option (ConfigurationStack σ) :=
  (s.at? s.currentIndex).bind fun current =>
    (List.replicate current.connections signal).foldlM (slot maxStackSize) s

/-- An edit of `currentForModifying()`. -/
def change (maxStackSize : ℕ) (c : Change σ) (s : ConfigurationStack σ) :
    Option (ConfigurationStack σ) :=
  (s.at? s.currentIndex).bind fun current =>
    let s :=
      { s with
          currentBeforeLastChange := current.conf
          stack := s.stack.set s.currentIndex.toNat { current with conf := c.apply current.conf } }
    c.signals.foldlM (emit maxStackSize) s

/-- `disconnect` of an instance from the stack. -/
def disconnect (i : ℤ) (s : ConfigurationStack σ) : ConfigurationStack σ :=
  { s with stack := s.stack.modify i.toNat fun x => { x with connections := 0 } }

/-- The calls of `connect` for the signals of an instance. -/
def connect (i : ℤ) (s : ConfigurationStack σ) : ConfigurationStack σ :=
  { s with stack := s.stack.modify i.toNat fun x => { x with connections := x.connections + 1 } }

/-- What `onUndo` and `onRedo` do with the new index: the current instance is disconnected,
and the one at the index connected. -/
def moveTo (i : ℤ) (s : ConfigurationStack σ) : Option (ConfigurationStack σ) :=
  (s.at? s.currentIndex).bind fun _ =>
    let s := { s.disconnect s.currentIndex with currentIndex := i }
    (s.at? s.currentIndex).map fun _ => s.connect s.currentIndex

/-- `onUndo()`. -/
def onUndo (s : ConfigurationStack σ) : Option (ConfigurationStack σ) :=
  s.moveTo (if 0 < s.currentIndex then s.currentIndex - 1 else s.currentIndex)

/-- `onRedo()`. -/
def onRedo (s : ConfigurationStack σ) : Option (ConfigurationStack σ) :=
  s.moveTo (if s.currentIndex + 1 < s.stack.length then s.currentIndex + 1 else s.currentIndex)

/-- `saveTransitions`, when the file could be written. -/
def saveTransitions (s : ConfigurationStack σ) : ConfigurationStack σ :=
  { s with lastSavedIndex := s.currentIndex }

/-- The stack, read as a history: the entries before, at and after the index. -/
def history (s : ConfigurationStack σ) : Option (History (σ × String)) :=
  (s.at? s.currentIndex).map fun x =>
    { past := (s.stack.take s.currentIndex.toNat).map Instance.entry
      present := x.entry
      future := (s.stack.drop (s.currentIndex.toNat + 1)).map Instance.entry }

/-! ### Lists at the end of a beginning -/

theorem insertIdx_length_append {α : Type u} (l l' : List α) (x : α) :
  (l ++ l').insertIdx l.length x = l ++ x :: l'
  := by
  induction l with
  | nil => rfl
  | cons y l ih => simp [insertIdx_succ_cons, ih]

theorem modify_length_append {α : Type u} (l l' : List α) (x : α) (f : α → α) :
  (l ++ x :: l').modify l.length f = l ++ f x :: l'
  := by
  induction l with
  | nil => rfl
  | cons y l ih => simp [modify_succ_cons, ih]

/-! ### Stacks and histories -/

/-- An element of the stack that is connected as often as given. -/
def element (connections : ℕ) (e : σ × String) : Instance σ := ⟨e.1, e.2, connections⟩

/-- The stack holds the entries of a history, at its index the present one, which alone is
connected. -/
structure Reads (s : ConfigurationStack σ) (h : History (σ × String)) : Prop where
  stack_eq :
    s.stack = h.past.map (element 0) ++ element 1 h.present :: h.future.map (element 0)
  index_eq : s.currentIndex = h.past.length

variable {s s' : ConfigurationStack σ} {h : History (σ × String)} {maxStackSize : ℕ}

theorem reads_initialise (conf : σ) :
  (initialise conf).Reads (.new (conf, changeTypeNew))
  := ⟨rfl, rfl⟩

theorem Reads.length_stack (hr : s.Reads h) :
  s.stack.length = h.entries.length
  := by
  simp [hr.stack_eq, History.entries]

/-- The current instance is the present entry. -/
theorem Reads.at?_currentIndex (hr : s.Reads h) :
  s.at? s.currentIndex = some (element 1 h.present)
  := by
  simp [at?, hr.index_eq, hr.stack_eq]

theorem Reads.current_eq (hr : s.Reads h) :
  s.current = some h.present.1
  := by
  rw [current, hr.at?_currentIndex]
  rfl

theorem Reads.history_eq (hr : s.Reads h) :
  s.history = some h
  := by
  have hent : ∀ n, Instance.entry ∘ element (σ := σ) n = id := fun _ => rfl
  rw [history, hr.at?_currentIndex, Option.map_some, hr.stack_eq, hr.index_eq, Int.toNat_natCast]
  simp [hent, Instance.entry, element, drop_append, drop_eq_nil_of_le (Nat.le_succ h.past.length)]

/-- Removing the oldest element of a stack whose last one is the current one. -/
theorem Reads.removeOld {past : List (σ × String)} {e : σ × String} (hr : s.Reads ⟨past, e, []⟩)
    (hpast : past ≠ []) :
  (s.removeOld maxStackSize).Reads
      ⟨if maxStackSize < past.length + 1 then past.tail else past, e, []⟩ ∧
    (s.removeOld maxStackSize).lastSavedIndex =
      if maxStackSize < past.length + 1 then s.lastSavedIndex - 1 else s.lastSavedIndex
  := by
  have hlen : s.stack.length = past.length + 1 := by
    rw [hr.length_stack]
    simp [History.entries]
  rw [ConfigurationStack.removeOld, hlen]
  split_ifs with hlt
  · refine ⟨⟨?_, ?_⟩, rfl⟩
    · rcases past with _ | ⟨e', past⟩
      · apply absurd rfl hpast
      · simp [hr.stack_eq]
    · rcases past with _ | ⟨e', past⟩
      · apply absurd rfl hpast
      · simp [hr.index_eq]
  · exact ⟨hr, rfl⟩

/-- A push stores the configuration before the last change under the old change type, and
the current one under the new. -/
theorem Reads.pushCurrentInstance (hr : s.Reads h) (changeType : String) :
  ∃ s', s.pushCurrentInstance maxStackSize changeType = some s' ∧
    s'.Reads (History.edit maxStackSize (h.present.1, changeType)
      { h with present := (s.currentBeforeLastChange, h.present.2) }) ∧
    s'.lastSavedIndex =
      if maxStackSize < h.past.length + 2 then s.lastSavedIndex - 1 else s.lastSavedIndex
  := by
  let copy : Instance σ := element 0 (s.currentBeforeLastChange, h.present.2)
  let new : Instance σ := element 1 (h.present.1, changeType)
  have hlen : h.past.length = (h.past.map (element (σ := σ) 0)).length := by simp
  have hstk :
    (((s.stack.set h.past.length new).insertIdx h.past.length copy).take (h.past.length + 2)) =
      h.past.map (element 0) ++ [copy, new] := by
    rw [hr.stack_eq, hlen, set_append_right _ _ le_rfl, insertIdx_length_append,
      take_length_add_append]
    simp
  let pushed : ConfigurationStack σ :=
    { s with
        stack := h.past.map (element 0) ++ [copy, new]
        currentIndex := s.currentIndex + 1 }
  have hpush :
    s.pushCurrentInstance maxStackSize changeType = some (pushed.removeOld maxStackSize) := by
    rw [ConfigurationStack.pushCurrentInstance, hr.at?_currentIndex, Option.map_some]
    dsimp only
    rw [hr.index_eq, Int.toNat_natCast, ← hr.index_eq]
    apply congrArg (fun stack => some (ConfigurationStack.removeOld maxStackSize
      { s with stack := stack, currentIndex := s.currentIndex + 1 })) hstk
  have hpushed :
    pushed.Reads ⟨h.past ++ [(s.currentBeforeLastChange, h.present.2)], (h.present.1, changeType),
      []⟩ := by
    refine ⟨?_, ?_⟩
    · simp [pushed, copy, new]
    · simp [pushed, hr.index_eq]
  obtain ⟨hrd, hsv⟩ := @Reads.removeOld _ _ maxStackSize _ _ hpushed (by simp)
  rw [length_append, length_singleton] at hrd hsv
  exact ⟨_, hpush, hrd, hsv⟩

/-! ### Signals and edits -/

/-- The current instance is connected once: each signal that it emits reaches its slot
once. -/
theorem Reads.emit_eq (hr : s.Reads h) (signal : Signal) :
  s.emit maxStackSize signal = s.slot maxStackSize signal
  := by
  rw [emit, hr.at?_currentIndex, Option.bind_some]
  simp [element]

/-- Signals whose slots do not push change nothing. -/
theorem Reads.foldlM_emit_nil (hr : s.Reads h) {signals : List Signal}
    (hsigs : signals.filterMap Signal.changeType = []) :
  signals.foldlM (emit maxStackSize) s = some s
  := by
  induction signals with
  | nil => rfl
  | cons signal signals ih =>
    rcases hsig : signal.changeType with _ | changeType
    · rw [filterMap_cons_none hsig] at hsigs
      rw [foldlM_cons, hr.emit_eq]
      simp only [slot, hsig]
      apply ih hsigs
    · rw [filterMap_cons_some hsig] at hsigs
      cases hsigs

/-- Signals of which one has a slot that pushes. -/
theorem Reads.foldlM_emit_singleton (hr : s.Reads h) {signals : List Signal} {changeType : String}
    (hsigs : signals.filterMap Signal.changeType = [changeType]) :
  signals.foldlM (emit maxStackSize) s = s.pushCurrentInstance maxStackSize changeType
  := by
  induction signals with
  | nil => cases hsigs
  | cons signal signals ih =>
    rw [foldlM_cons, hr.emit_eq]
    rcases hsig : signal.changeType with _ | changeType'
    · rw [filterMap_cons_none hsig] at hsigs
      simp only [slot, hsig]
      apply ih hsigs
    · rw [filterMap_cons_some hsig] at hsigs
      obtain ⟨rfl, hrest⟩ := cons_eq_cons.mp hsigs
      obtain ⟨s', hpush, hr', -⟩ :=
        @Reads.pushCurrentInstance _ _ _ maxStackSize hr changeType'
      simp only [slot, hsig, hpush]
      apply hr'.foldlM_emit_nil hrest

/-- An edit that pushes once is an edit of the history. -/
theorem Reads.change (hr : s.Reads h) {c : Change σ} {changeType : String}
    (hc : c.pushes = [changeType]) :
  ∃ s', s.change maxStackSize c = some s' ∧
    s'.Reads (h.edit maxStackSize (c.apply h.present.1, changeType)) ∧
    s'.lastSavedIndex =
      if maxStackSize < h.past.length + 2 then s.lastSavedIndex - 1 else s.lastSavedIndex
  := by
  let edited : ConfigurationStack σ :=
    { s with
        currentBeforeLastChange := h.present.1
        stack := s.stack.set s.currentIndex.toNat (element 1 (c.apply h.present.1, h.present.2)) }
  have hedited : edited.Reads { h with present := (c.apply h.present.1, h.present.2) } := by
    refine ⟨?_, hr.index_eq⟩
    simp [edited, hr.stack_eq, hr.index_eq]
  obtain ⟨s', hpush, hrd, hsv⟩ :=
    @Reads.pushCurrentInstance _ _ _ maxStackSize hedited changeType
  refine ⟨s', ?_, hrd, hsv⟩
  rw [ConfigurationStack.change, hr.at?_currentIndex, Option.bind_some]
  apply (hedited.foldlM_emit_singleton hc).trans hpush

/-! ### Undo and redo -/

/-- Once the current instance is disconnected, no one is connected. -/
theorem Reads.stack_disconnect (hr : s.Reads h) :
  (s.disconnect s.currentIndex).stack = h.entries.map (element 0)
  := by
  have hlen : h.past.length = (h.past.map (element (σ := σ) 0)).length := by simp
  rw [disconnect, hr.index_eq, Int.toNat_natCast, hr.stack_eq, hlen, modify_length_append]
  simp [History.entries, element]

/-- Connecting the instance of the present entry, when no one is connected. -/
theorem reads_connect (hstk : s.stack = h.entries.map (element 0))
    (hix : s.currentIndex = h.past.length) :
  (s.connect s.currentIndex).Reads h
  := by
  have hlen : h.past.length = (h.past.map (element (σ := σ) 0)).length := by simp
  refine ⟨?_, hix⟩
  rw [connect, hix, Int.toNat_natCast, hstk, History.entries, map_append, map_cons,
    hlen, modify_length_append]
  simp [element]

/-- Moving to another entry. -/
theorem Reads.moveTo (hr : s.Reads h) {h' : History (σ × String)}
    (hents : h'.entries = h.entries) {i : ℤ} (hi : i = h'.past.length) :
  ∃ s', s.moveTo i = some s' ∧ s'.Reads h' ∧ s'.lastSavedIndex = s.lastSavedIndex
  := by
  let moved : ConfigurationStack σ := { s.disconnect s.currentIndex with currentIndex := i }
  have hstk : moved.stack = h'.entries.map (element 0) := by
    rw [hents]
    apply hr.stack_disconnect
  have hix : moved.currentIndex = h'.past.length := hi
  have hat : moved.at? moved.currentIndex = some (element 0 h'.present) := by
    simp [at?, hstk, hix, History.entries]
  refine ⟨moved.connect moved.currentIndex, ?_, reads_connect hstk hix, rfl⟩
  rw [ConfigurationStack.moveTo, hr.at?_currentIndex, Option.bind_some]
  apply congrArg (Option.map fun _ => moved.connect moved.currentIndex) hat

theorem Reads.onUndo (hr : s.Reads h) :
  ∃ s', s.onUndo = some s' ∧ s'.Reads h.undo ∧ s'.lastSavedIndex = s.lastSavedIndex
  := by
  apply hr.moveTo h.entries_undo
  rw [hr.index_eq, h.length_past_undo]
  split_ifs <;> omega

theorem Reads.onRedo (hr : s.Reads h) :
  ∃ s', s.onRedo = some s' ∧ s'.Reads h.redo ∧ s'.lastSavedIndex = s.lastSavedIndex
  := by
  apply hr.moveTo h.entries_redo
  rw [hr.index_eq, hr.length_stack]
  obtain ⟨past, e, _ | ⟨e', future⟩⟩ := h
  · simp [History.entries]
  · rw [if_pos]
    · simp
    · rw [History.entries, length_append, length_cons, length_cons]
      dsimp only
      omega

end ConfigurationStack

end Editor

import Contextd.Data.Reshelving
import Contextd.Policy.Save

/-!
# What the operations do to the entries

The operations on loops and rules remove some of them and store others (`Configuration.Rebuilds`):
the rest of the configuration stays, the vectors stay ordered, and what holds of every entry in the
store (`Stores`) still does, if it holds of the entries that are stored.  The operations on programs
and domains edit the entries that are there; what does not depend on that is `Stable`.
-/

namespace Policy

open List

/-- If the entry is a rule, it has the property. -/
def Entry.OnRule (Q : Rule → Prop) : Entry → Prop
  | .loop _ => True
  | .rule r => Q r

instance (Q : Rule → Prop) [DecidablePred Q] : ∀ e : Entry, Decidable (e.OnRule Q)
  | .loop _ => inferInstanceAs (Decidable True)
  | .rule r => inferInstanceAs (Decidable (Q r))

/-- `Loop::isValid` and `Rule::isValid`. -/
def Entry.isValid : Entry → Bool
  | .loop l => l.isValid
  | .rule r => r.isValid

/-- The entry with another priority. -/
def Entry.withPriority (priority : Int) : Entry → Entry
  | .loop l => .loop { l with priority := priority }
  | .rule r => .rule { r with priority := priority }

@[simp]
theorem Entry.id_withPriority (e : Entry) (n : Int) :
  (e.withPriority n).toAbstractRule.id = e.toAbstractRule.id
  := by
  cases e <;> rfl

@[simp]
theorem Entry.priority_withPriority (e : Entry) (n : Int) :
  (e.withPriority n).toAbstractRule.priority = n
  := by
  cases e <;> rfl

namespace Configuration

variable {c c' : Configuration} {l : Loop} {r : Rule} {e : Entry} {i : Int}

/-! ### Entries and their identifiers -/

/-- The identifiers of the loops and rules of a configuration. -/
def ids (c : Configuration) : List Int :=
  c.loops.all.map (·.id) ++ c.rules.all.map (·.id)

theorem mem_ids_loop (h : l ∈ c.allLoops) :
  l.id ∈ c.ids
  := mem_append_left _ (mem_map_of_mem h)

theorem mem_ids_rule (h : r ∈ c.allRules) :
  r.id ∈ c.ids
  := mem_append_right _ (mem_map_of_mem h)

theorem loop_mem_allAbstractRules :
  .loop l ∈ c.allAbstractRules ↔ l ∈ c.allLoops
  := by
  simp [allAbstractRules]

theorem rule_mem_allAbstractRules :
  .rule r ∈ c.allAbstractRules ↔ r ∈ c.allRules
  := by
  simp [allAbstractRules]

/-- The identifiers are those of the loops and then the rules. -/
theorem ids_eq_map (c : Configuration) :
  c.ids = c.allAbstractRules.map fun e => e.toAbstractRule.id
  := by
  simp [ids, allAbstractRules, allLoops, allRules, Function.comp_def, Entry.toAbstractRule]

theorem mem_ids (h : e ∈ c.allAbstractRules) :
  e.toAbstractRule.id ∈ c.ids
  := by
  rw [ids_eq_map]
  apply mem_map_of_mem h

/-- Put an entry into the store. -/
def store (c : Configuration) : Entry → Configuration
  | .loop l => c.addLoop l
  | .rule r => c.addRule r

theorem allAbstractRules_store (c : Configuration) (e : Entry) :
  (c.store e).allAbstractRules.Perm (e :: c.allAbstractRules)
  := by
  cases e with
  | loop l => apply ((Shelving.all_add c.loops l).map Entry.loop).append_right
  | rule r =>
    have hrs := ((Shelving.all_add (S := ruleShelving) c.rules r).map Entry.rule).append_left
      (c.allLoops.map Entry.loop)
    apply hrs.trans perm_middle

theorem mem_store {x : Entry} :
  x ∈ (c.store e).allAbstractRules ↔ x = e ∨ x ∈ c.allAbstractRules
  := by
  rw [(allAbstractRules_store c e).mem_iff, mem_cons]

theorem ids_store (c : Configuration) (e : Entry) :
  (c.store e).ids.Perm (e.toAbstractRule.id :: c.ids)
  := by
  rw [ids_eq_map, ids_eq_map]
  apply (allAbstractRules_store c e).map

/-! ### Properties of all the entries -/

/-- Every loop and rule in the store has the property. -/
def Stores (P : Entry → Prop) (c : Configuration) : Prop := ∀ e ∈ c.allAbstractRules, P e

/-- The property does not depend on the program of an entry. -/
structure IgnoresProgram (P : Entry → Prop) : Prop where
  loopProgram : ∀ l p allow, P (.loop l) → P (.loop (l.setProgram p allow))
  ruleProgram : ∀ r p allow, P (.rule r) → P (.rule (r.setProgram p allow))

/-- The property does not depend on the program, the sources and the target of an entry. -/
structure Stable (P : Entry → Prop) : Prop extends IgnoresProgram P where
  loopSources : ∀ l trules, P (.loop l) → P (.loop { l with tRules := trules })
  ruleSources : ∀ r trules, P (.rule r) → P (.rule { r with tRules := trules })
  ruleTarget : ∀ r d, P (.rule r) → P (.rule (r.setTransitTo d))

variable {A P : Entry → Prop}

theorem stable_true :
  Stable fun _ => True
  := by
  refine ⟨⟨?_, ?_⟩, ?_, ?_, ?_⟩ <;> intros <;> trivial

theorem stores_onRule {Q : Rule → Prop} :
  c.Stores (Entry.OnRule Q) ↔ ∀ r ∈ c.allRules, Q r
  := by
  constructor
  · intro h r hr
    apply h _ (rule_mem_allAbstractRules.mpr hr)
  · intro h e he
    cases e with
    | loop l => trivial
    | rule r => apply h r (rule_mem_allAbstractRules.mp he)

theorem ignoresProgram_onRule {Q : Rule → Prop} (h : ∀ r p allow, Q r → Q (r.setProgram p allow)) :
  IgnoresProgram (Entry.OnRule Q)
  := by
  constructor
  · intro l p allow _
    trivial
  · intro r p allow hr
    apply h r p allow hr

theorem Stores.store (h : c.Stores P) (he : P e) :
  (c.store e).Stores P
  := by
  intro x hx
  rcases mem_store.mp hx with rfl | hx
  · apply he
  · apply h x hx

/-- The entries of some of the loops and some of the rules. -/
theorem Stores.mono (h : c.Stores P) (hls : c'.allLoops ⊆ c.allLoops)
    (hrs : c'.allRules ⊆ c.allRules) :
  c'.Stores P
  := by
  intro e he
  cases e with
  | loop l =>
    apply h _ (loop_mem_allAbstractRules.mpr (hls (loop_mem_allAbstractRules.mp he)))
  | rule r =>
    apply h _ (rule_mem_allAbstractRules.mpr (hrs (rule_mem_allAbstractRules.mp he)))

theorem Stores.setPrograms (h : c.Stores P) (hP : IgnoresProgram P) (k : String) (p : Program)
    (allow : Bool) (programs : OrdMap String Program) :
  { c with
    programs := programs
    loops := c.loops.mapAt k (·.setProgram p allow)
    rules := c.rules.mapAt k (·.setProgram p allow) }.Stores P
  := by
  intro e he
  cases e with
  | loop l =>
    rcases Bookshelf.mem_all_mapAt (loop_mem_allAbstractRules.mp he) with hl | ⟨l, hl, rfl⟩
    · apply h _ (loop_mem_allAbstractRules.mpr hl)
    · apply hP.loopProgram
      apply h _ (loop_mem_allAbstractRules.mpr hl)
  | rule r =>
    rcases Bookshelf.mem_all_mapAt (rule_mem_allAbstractRules.mp he) with hr | ⟨r, hr, rfl⟩
    · apply h _ (rule_mem_allAbstractRules.mpr hr)
    · apply hP.ruleProgram
      apply h _ (rule_mem_allAbstractRules.mpr hr)

/-! ### Removing and storing -/

/-- What becomes of a configuration when entries are removed and others, that satisfy `A`, are
stored. -/
inductive Rebuilds (A : Entry → Prop) (c : Configuration) : Configuration → Prop
  | refl : Rebuilds A c c
  | loops {c' : Configuration} (k : String) (i : Int) : Rebuilds A c c' →
      Rebuilds A c { c' with loops := loopShelving.removeIn c'.loops k i }
  | rules {c' : Configuration} (k : String) (i : Int) : Rebuilds A c c' →
      Rebuilds A c { c' with rules := ruleShelving.removeIn c'.rules k i }
  | store {c' : Configuration} {e : Entry} (he : A e) (h : Rebuilds A c c') :
      Rebuilds A c (c'.store e)

/-- What is left of a configuration when entries are removed. -/
abbrev Removes (c c' : Configuration) : Prop := Rebuilds (fun _ => False) c c'

/-- The vectors are ordered. -/
structure Ordered (c : Configuration) : Prop where
  loops : loopShelving.Sorted c.loops
  rules : ruleShelving.Sorted c.rules

theorem Rebuilds.trans {c'' : Configuration} (h : c.Rebuilds A c') (h' : c'.Rebuilds A c'') :
  c.Rebuilds A c''
  := by
  induction h' with
  | refl => apply h
  | loops k i _ ih => apply ih.loops
  | rules k i _ ih => apply ih.rules
  | store he _ ih => apply ih.store he

theorem Removes.trans {c'' : Configuration} (h : c.Removes c') (h' : c'.Removes c'') :
  c.Removes c''
  := Rebuilds.trans h h'

theorem Removes.rebuilds (h : c.Removes c') :
  c.Rebuilds A c'
  := by
  induction h with
  | refl => apply Rebuilds.refl
  | loops k i _ ih => apply ih.loops
  | rules k i _ ih => apply ih.rules
  | store he => cases he

theorem Rebuilds.frame (h : c.Rebuilds A c') :
  ∃ loops rules, c' = { c with loops := loops, rules := rules }
  := by
  induction h with
  | refl => exact ⟨_, _, rfl⟩
  | loops k i _ ih | rules k i _ ih =>
    obtain ⟨_, _, rfl⟩ := ih
    exact ⟨_, _, rfl⟩
  | @store c' e _ _ ih =>
    obtain ⟨_, _, rfl⟩ := ih
    cases e <;> exact ⟨_, _, rfl⟩

theorem Ordered.store (h : c.Ordered) (e : Entry) :
  (c.store e).Ordered
  := by
  cases e with
  | loop l => exact ⟨h.loops.add l, h.rules⟩
  | rule r => exact ⟨h.loops, h.rules.add r⟩

theorem Rebuilds.ordered (h : c.Rebuilds A c') (hc : c.Ordered) :
  c'.Ordered
  := by
  induction h with
  | refl => apply hc
  | loops k i _ ih => exact ⟨ih.loops.removeIn k i, ih.rules⟩
  | rules k i _ ih => exact ⟨ih.loops, ih.rules.removeIn k i⟩
  | store _ _ ih => apply ih.store

theorem Rebuilds.stores (h : c.Rebuilds A c') (hA : ∀ e, A e → P e) (hc : c.Stores P) :
  c'.Stores P
  := by
  induction h with
  | refl => apply hc
  | loops k i _ ih =>
    apply ih.mono
    · apply (Shelving.all_removeIn_subperm _ k i).subset
    · apply List.Subset.refl
  | rules k i _ ih =>
    apply ih.mono
    · apply List.Subset.refl
    · apply (Shelving.all_removeIn_subperm _ k i).subset
  | store he _ ih => apply ih.store (hA _ he)

theorem Removes.stores (h : c.Removes c') (hc : c.Stores P) :
  c'.Stores P
  := Rebuilds.stores h nofun hc

/-- Removals add no entries. -/
theorem Removes.subset (h : c.Removes c') :
  c'.allAbstractRules ⊆ c.allAbstractRules
  := h.stores fun _ he => he

theorem Removes.ids_subperm (h : c.Removes c') :
  c'.ids.Subperm c.ids
  := by
  induction h with
  | refl => apply List.Subperm.refl
  | loops k i _ ih =>
    apply List.Subperm.trans _ ih
    apply List.Subperm.append _ (List.Subperm.refl _)
    apply (Shelving.all_removeIn_subperm _ k i).map_part
  | rules k i _ ih =>
    apply List.Subperm.trans _ ih
    apply (List.Subperm.refl _).append
    apply (Shelving.all_removeIn_subperm _ k i).map_part
  | store he => cases he

/-! ### The operations on entries -/

theorem removes_deleteLoop (c : Configuration) (i : Int) :
  c.Removes (c.deleteLoop i).2
  := by
  rcases Shelving.removeById_cases loopShelving c.loops i with ⟨heq, -⟩ | ⟨k, x, -, -, heq⟩
  · simp only [deleteLoop, heq]
    apply Rebuilds.refl
  · simp only [deleteLoop, heq]
    apply Rebuilds.refl.loops

theorem removes_deleteRule (c : Configuration) (i : Int) :
  c.Removes (c.deleteRule i).2
  := by
  rcases Shelving.removeById_cases ruleShelving c.rules i with ⟨heq, -⟩ | ⟨k, x, -, -, heq⟩
  · simp only [deleteRule, heq]
    apply Rebuilds.refl
  · simp only [deleteRule, heq]
    apply Rebuilds.refl.rules

theorem removes_deleteAbstractRule (c : Configuration) (i : Int) :
  c.Removes (c.deleteAbstractRule i).2
  := by
  unfold deleteAbstractRule
  split
  · apply Rebuilds.refl.loops
  · apply Rebuilds.refl.rules
  · apply Rebuilds.refl.rules

theorem rebuilds_updateLoop (hl : A (.loop l)) :
  c.Rebuilds A (c.updateLoop l)
  := (Rebuilds.refl.loops _ _).store hl

theorem rebuilds_updateRule (hr : A (.rule r)) :
  c.Rebuilds A (c.updateRule r)
  := (Rebuilds.refl.rules _ _).store hr

/-- The configuration without an identifier. -/
def drop (c : Configuration) (i : Int) : Configuration := ((c.deleteLoop i).2.deleteRule i).2

theorem removes_drop (c : Configuration) (i : Int) :
  c.Removes (c.drop i)
  := (removes_deleteLoop c i).trans (removes_deleteRule _ i)

/-- What `swapPriorities` takes out by an identifier, and what is left: a loop, or else a
rule, when it is valid. -/
def take (c : Configuration) (i : Int) : Option Entry × Configuration :=
  match (c.deleteLoop i).1.filter (·.isValid) with
  | some l => (some (.loop l), (c.deleteLoop i).2)
  | none => ((((c.deleteLoop i).2.deleteRule i).1.filter (·.isValid)).map .rule, c.drop i)

theorem take_loop (hl : (c.deleteLoop i).1.filter (fun l => l.isValid) = some l) :
  c.take i = (some (.loop l), (c.deleteLoop i).2)
  := by
  rw [take, hl]

theorem take_rule (hl : (c.deleteLoop i).1.filter (fun l => l.isValid) = none)
    (hr : ((c.deleteLoop i).2.deleteRule i).1.filter (fun r => r.isValid) = some r) :
  c.take i = (some (.rule r), c.drop i)
  := by
  rw [take, hl, hr]
  rfl

theorem take_none (hl : (c.deleteLoop i).1.filter (fun l => l.isValid) = none)
    (hr : ((c.deleteLoop i).2.deleteRule i).1.filter (fun r => r.isValid) = none) :
  c.take i = (none, c.drop i)
  := by
  rw [take, hl, hr]
  rfl

/-- The operation on two entries that are taken out one after the other. -/
theorem swapPriorities_eq (c : Configuration) (i j : Int) :
  c.swapPriorities i j =
    match (c.take i).1, ((c.take i).2.take j).1 with
    | some e, some e' =>
        (((c.take i).2.take j).2.store (e.withPriority e'.toAbstractRule.priority)).store
          (e'.withPriority e.toAbstractRule.priority)
    | some _, none => ((c.take i).2.take j).2
    | none, _ => (c.take i).2
  := by
  unfold swapPriorities
  simp only
  split
  · rename_i l hl
    rw [take_loop hl]
    split
    · rename_i l' hl'
      rw [take_loop hl']
      rfl
    · rename_i hl'
      split
      · rename_i r' hr'
        rw [take_rule hl' hr']
        rfl
      · rename_i hr'
        rw [take_none hl' hr']
        rfl
  · rename_i hl
    split
    · rename_i r hr
      rw [take_rule hl hr, drop]
      split
      · rename_i l' hl'
        rw [take_loop hl']
        rfl
      · rename_i hl'
        split
        · rename_i r' hr'
          rw [take_rule hl' hr']
          rfl
        · rename_i hr'
          rw [take_none hl' hr']
          rfl
    · rename_i hr
      rw [take_none hl hr]
      rfl

theorem removes_take (c : Configuration) (i : Int) :
  c.Removes (c.take i).2
  := by
  unfold take
  split
  · apply removes_deleteLoop
  · apply removes_drop

/-- The entry that is taken out was in the store, under its identifier. -/
theorem mem_of_take (h : (c.take i).1 = some e) :
  e ∈ c.allAbstractRules ∧ e.toAbstractRule.id = i
  := by
  unfold take at h
  split at h
  · rename_i l hl
    obtain rfl := Option.some.inj h
    obtain ⟨hl, -⟩ := Option.filter_eq_some_iff.mp hl
    rcases Shelving.removeById_cases loopShelving c.loops i with ⟨heq, -⟩ | ⟨k, x, hx, hid, heq⟩
    · simp [deleteLoop, heq] at hl
    · obtain rfl : x = l := by simpa [deleteLoop, heq] using hl
      exact ⟨loop_mem_allAbstractRules.mpr (Bookshelf.mem_all.mpr ⟨k, hx⟩), hid⟩
  · obtain ⟨r, hr, rfl⟩ := Option.map_eq_some_iff.mp h
    obtain ⟨hr, -⟩ := Option.filter_eq_some_iff.mp hr
    rcases Shelving.removeById_cases ruleShelving c.rules i with ⟨heq, -⟩ | ⟨k, x, hx, hid, heq⟩
    · simp [deleteRule, deleteLoop, heq] at hr
    · obtain rfl : x = r := by simpa [deleteRule, deleteLoop, heq] using hr
      exact ⟨rule_mem_allAbstractRules.mpr (Bookshelf.mem_all.mpr ⟨k, hx⟩), hid⟩

/-- Exchanging priorities stores entries that were there, with other priorities. -/
theorem Stores.rebuilds_swapPriorities (h : c.Stores P) (hP : ∀ e n, P e → P (e.withPriority n))
    (i j : Int) :
  c.Rebuilds P (c.swapPriorities i j)
  := by
  have hfst := removes_take c i
  have hboth := hfst.trans (removes_take _ j)
  rw [swapPriorities_eq]
  split
  · rename_i e e' he he'
    have hrebuilt := hboth.rebuilds.store (hP _ e'.toAbstractRule.priority
      (h e (mem_of_take he).1))
    apply hrebuilt.store
    apply hP _ _ (h e' (hfst.subset (mem_of_take he').1))
  · apply hboth.rebuilds
  · apply hfst.rebuilds

/-- Exchanging priorities keeps what holds of every rule and does not depend on them. -/
theorem rules_swapPriorities {Q : Rule → Prop} (hc : ∀ r ∈ c.allRules, Q r)
    (hQ : ∀ (r : Rule) n, Q r → Q { r with priority := n }) (i j : Int) :
  ∀ r ∈ (c.swapPriorities i j).allRules, Q r
  := by
  have hsto := stores_onRule.mpr hc
  rw [← stores_onRule]
  apply (hsto.rebuilds_swapPriorities _ i j).stores (fun _ he => he) hsto
  intro e n he
  cases e with
  | loop l => trivial
  | rule r => apply hQ r n he

/-! ### What is left -/

theorem nodup_loops_of_ids (h : c.ids.Nodup) :
  (c.loops.all.map loopShelving.id).Nodup
  := (nodup_append.mp h).1

theorem nodup_rules_of_ids (h : c.ids.Nodup) :
  (c.rules.all.map ruleShelving.id).Nodup
  := (nodup_append.mp h).2.1

theorem loop_id_ne (h : i ∉ c.ids) :
  ∀ l ∈ c.loops.all, loopShelving.id l ≠ i
  := by
  rintro l hl rfl
  apply h (mem_ids_loop hl)

theorem rule_id_ne (h : i ∉ c.ids) :
  ∀ r ∈ c.rules.all, ruleShelving.id r ≠ i
  := by
  rintro r hr rfl
  apply h (mem_ids_rule hr)

/-- The rules do not have the identifier of a loop. -/
theorem rule_id_ne_loop (h : c.ids.Nodup) {l : Loop} (hl : l ∈ c.loops.all) :
  ∀ r ∈ c.rules.all, ruleShelving.id r ≠ l.id
  := by
  intro r hr hid
  apply (nodup_append.mp h).2.2 _ (mem_map_of_mem hl) _ (mem_map_of_mem hr) hid.symm

/-- The loops do not have the identifier of a rule. -/
theorem loop_id_ne_rule (h : c.ids.Nodup) {r : Rule} (hr : r ∈ c.rules.all) :
  ∀ l ∈ c.loops.all, loopShelving.id l ≠ r.id
  := by
  intro l hl hid
  apply (nodup_append.mp h).2.2 _ (mem_map_of_mem hl) _ (mem_map_of_mem hr) hid

/-- A loop is removed by its identifier, and no rule is. -/
theorem removeById_loop (h : c.ids.Nodup) {l : Loop} (hl : l ∈ c.allLoops) :
  (loopShelving.removeById c.loops l.id).1 = some l ∧
    ruleShelving.removeById c.rules l.id = (none, c.rules)
  := by
  obtain ⟨k, hk⟩ := Bookshelf.mem_all.mp hl
  constructor
  · apply congrArg Prod.fst (Shelving.removeById_of_mem (nodup_loops_of_ids h) hk rfl)
  · apply Shelving.removeById_of_not_mem (rule_id_ne_loop h hl)

/-- A rule is removed by its identifier, and no loop is. -/
theorem removeById_rule (h : c.ids.Nodup) {r : Rule} (hr : r ∈ c.allRules) :
  (ruleShelving.removeById c.rules r.id).1 = some r ∧
    loopShelving.removeById c.loops r.id = (none, c.loops)
  := by
  obtain ⟨k, hk⟩ := Bookshelf.mem_all.mp hr
  constructor
  · apply congrArg Prod.fst (Shelving.removeById_of_mem (nodup_rules_of_ids h) hk rfl)
  · apply Shelving.removeById_of_not_mem (loop_id_ne_rule h hr)

theorem drop_eq (c : Configuration) (i : Int) :
  c.drop i =
    { c with
      loops := (loopShelving.removeById c.loops i).2
      rules := (ruleShelving.removeById c.rules i).2 }
  := rfl

/-- An identifier that is not there. -/
theorem drop_of_not_mem (h : i ∉ c.ids) :
  c.drop i = c
  := by
  rw [drop_eq, Shelving.removeById_of_not_mem (loop_id_ne h),
    Shelving.removeById_of_not_mem (rule_id_ne h)]

theorem take_of_not_mem (h : i ∉ c.ids) :
  c.take i = (none, c)
  := by
  have hl := Shelving.removeById_of_not_mem (loop_id_ne h)
  have hr := Shelving.removeById_of_not_mem (rule_id_ne h)
  rw [take_none, drop_of_not_mem h]
  · simp [deleteLoop, hl]
  · simp [deleteLoop, deleteRule, hr]

/-- An entry is taken out by its identifier, when it is valid. -/
theorem take_of_mem (h : c.ids.Nodup) (he : e ∈ c.allAbstractRules) :
  c.take e.toAbstractRule.id =
    (if e.isValid then some e else none, c.drop e.toAbstractRule.id)
  := by
  cases e with
  | loop l =>
    obtain ⟨hl, hr⟩ := removeById_loop h (loop_mem_allAbstractRules.mp he)
    by_cases hval : l.isValid = true
    · rw [take_loop (l := l), Entry.isValid, if_pos hval, drop_eq]
      · simp only [Entry.toAbstractRule]
        rw [hr]
        rfl
      · simp [deleteLoop, Entry.toAbstractRule, hl, hval]
    · rw [take_none, Entry.isValid, if_neg hval]
      · simp [deleteLoop, Entry.toAbstractRule, hl, hval]
      · simp [deleteLoop, deleteRule, Entry.toAbstractRule, hr]
  | rule r =>
    obtain ⟨hr, hl⟩ := removeById_rule h (rule_mem_allAbstractRules.mp he)
    by_cases hval : r.isValid = true
    · rw [take_rule (r := r), Entry.isValid, if_pos hval]
      · simp [deleteLoop, Entry.toAbstractRule, hl]
      · simp [deleteLoop, deleteRule, Entry.toAbstractRule, hr, hval]
    · rw [take_none, Entry.isValid, if_neg hval]
      · simp [deleteLoop, Entry.toAbstractRule, hl]
      · simp [deleteLoop, deleteRule, Entry.toAbstractRule, hr, hval]

/-- The entries are the one that is taken out and those that are left. -/
theorem allAbstractRules_drop (h : c.ids.Nodup) (he : e ∈ c.allAbstractRules) :
  c.allAbstractRules.Perm (e :: (c.drop e.toAbstractRule.id).allAbstractRules)
  := by
  have hls := Shelving.all_removeById (nodup_loops_of_ids h) e.toAbstractRule.id
  have hrs := Shelving.all_removeById (nodup_rules_of_ids h) e.toAbstractRule.id
  cases e with
  | loop l =>
    obtain ⟨hl, hr⟩ := removeById_loop h (loop_mem_allAbstractRules.mp he)
    simp only [Entry.toAbstractRule, hl, Option.toList_some] at hls
    rw [allAbstractRules, allAbstractRules, drop_eq]
    simp only [Entry.toAbstractRule, hr]
    apply (hls.map Entry.loop).append_right
  | rule r =>
    obtain ⟨hr, hl⟩ := removeById_rule h (rule_mem_allAbstractRules.mp he)
    simp only [Entry.toAbstractRule, hr, Option.toList_some] at hrs
    rw [allAbstractRules, allAbstractRules, drop_eq]
    simp only [Entry.toAbstractRule, hl]
    apply ((hrs.map Entry.rule).append_left _).trans perm_middle

theorem exists_of_mem_ids (h : i ∈ c.ids) :
  ∃ e ∈ c.allAbstractRules, e.toAbstractRule.id = i
  := by
  rw [ids_eq_map] at h
  obtain ⟨e, he, hid⟩ := mem_map.mp h
  exact ⟨e, he, hid⟩

theorem ids_drop (h : c.ids.Nodup) (he : e ∈ c.allAbstractRules) :
  c.ids.Perm (e.toAbstractRule.id :: (c.drop e.toAbstractRule.id).ids)
  := by
  rw [ids_eq_map, ids_eq_map]
  apply (allAbstractRules_drop h he).map

theorem nodup_drop (h : c.ids.Nodup) (i : Int) :
  (c.drop i).ids.Nodup ∧ i ∉ (c.drop i).ids
  := by
  by_cases hi : i ∈ c.ids
  · obtain ⟨e, he, rfl⟩ := exists_of_mem_ids hi
    have hnd := nodup_cons.mp ((ids_drop h he).nodup_iff.mp h)
    exact ⟨hnd.2, hnd.1⟩
  · rw [drop_of_not_mem hi]
    exact ⟨h, hi⟩

/-- Another entry is left. -/
theorem mem_drop (h : c.ids.Nodup) (he : e ∈ c.allAbstractRules) (hne : e.toAbstractRule.id ≠ i) :
  e ∈ (c.drop i).allAbstractRules
  := by
  by_cases hi : i ∈ c.ids
  · obtain ⟨e', he', rfl⟩ := exists_of_mem_ids hi
    rcases mem_cons.mp ((allAbstractRules_drop h he').mem_iff.mp he) with rfl | hm
    · apply absurd rfl hne
    · apply hm
  · rw [drop_of_not_mem hi]
    apply he

/-- What was taken out is not there any more. -/
theorem not_mem_take (h : c.ids.Nodup) (he : (c.take i).1 = some e) :
  i ∉ (c.take i).2.ids
  := by
  obtain ⟨hm, rfl⟩ := mem_of_take he
  rw [take_of_mem h hm]
  apply (nodup_drop h _).2

/-! ### The operations on domains -/

theorem rebuilds_renameInLoop (hP : Stable P) (oldName : String) (d : Domain)
    (c : Configuration) (hl : P (.loop l)) :
  c.Rebuilds P (renameInLoop oldName d c l)
  := by
  simp only [renameInLoop]
  split
  · apply rebuilds_updateLoop (hP.loopSources l _ hl)
  · apply Rebuilds.refl

theorem rebuilds_renameInRule (hP : Stable P) (oldName : String) (d : Domain)
    (c : Configuration) (hr : P (.rule r)) :
  c.Rebuilds P (renameInRule oldName d c r)
  := by
  have hsrcs := fun trules => hP.ruleSources r trules hr
  simp only [renameInRule]
  split
  · have hfst := @rebuilds_updateRule c _ _ (hsrcs ((deleteTRule oldName r.tRules).2 ++
      [{ (deleteTRule oldName r.tRules).1 with fromDomain := d.name }]))
    split
    · apply hfst.trans (rebuilds_updateRule (hP.ruleTarget _ d (hsrcs _)))
    · apply hfst
  · split
    · apply rebuilds_updateRule (hP.ruleTarget _ d (hsrcs _))
    · apply Rebuilds.refl

theorem rebuilds_dropFromLoop (hP : Stable P) (name : String) (c : Configuration)
    (hl : P (.loop l)) :
  c.Rebuilds P (dropFromLoop name c l)
  := by
  simp only [dropFromLoop]
  split
  · split
    · apply (removes_deleteLoop c _).rebuilds
    · apply rebuilds_updateLoop (hP.loopSources l _ hl)
  · apply Rebuilds.refl

theorem rebuilds_dropFromRule (hP : Stable P) (name : String) (c : Configuration)
    (hr : P (.rule r)) :
  c.Rebuilds P (dropFromRule name c r)
  := by
  have hfst : c.Rebuilds P (if (deleteTRule name r.tRules).1.isValid then
      if (deleteTRule name r.tRules).2 = [] then (c.deleteRule r.id).2
      else c.updateRule { r with tRules := (deleteTRule name r.tRules).2 }
    else c) := by
    split
    · split
      · apply (removes_deleteRule c _).rebuilds
      · apply rebuilds_updateRule (hP.ruleSources r _ hr)
    · apply Rebuilds.refl
  simp only [dropFromRule]
  split
  · apply hfst.trans (removes_deleteRule _ _).rebuilds
  · apply hfst

/-- Going through the loops, and then through the rules. -/
theorem Stores.rebuilds_foldl (h : c.Stores P) {f : Configuration → Loop → Configuration}
    {g : Configuration → Rule → Configuration}
    (hf : ∀ (c : Configuration) l, P (.loop l) → c.Rebuilds P (f c l))
    (hg : ∀ (c : Configuration) r, P (.rule r) → c.Rebuilds P (g c r)) :
  c.Rebuilds P ((c.allLoops.foldl f c).allRules.foldl g (c.allLoops.foldl f c))
  := by
  have hls : c.Rebuilds P (c.allLoops.foldl f c) := by
    apply List.foldlRecOn (motive := c.Rebuilds P) _ _ Rebuilds.refl
    intro c' hc' l hl
    apply hc'.trans (hf c' l (h _ (loop_mem_allAbstractRules.mpr hl)))
  have hsto := hls.stores (fun _ he => he) h
  apply List.foldlRecOn (motive := c.Rebuilds P) _ _ hls
  intro c' hc' r hr
  apply hc'.trans (hg c' r (hsto _ (rule_mem_allAbstractRules.mpr hr)))

/-- Renaming a domain replaces it and rebuilds the entries. -/
theorem Stores.rebuilds_updateDomain (h : c.Stores P) (hP : Stable P) {oldName : String}
    (d : Domain) (setDefault : Bool) (hm : oldName ∈ c.domains) :
  Rebuilds P
    { c with
      domains := (c.domains.erase oldName).insert d.name d
      defaultDomain := if setDefault then d else c.defaultDomain }
    (c.updateDomain oldName d setDefault)
  := by
  rw [updateDomain, if_pos hm]
  apply Stores.rebuilds_foldl (c := { c with
      domains := (c.domains.erase oldName).insert d.name d
      defaultDomain := if setDefault then d else c.defaultDomain }) h
  · intro c l hl
    apply rebuilds_renameInLoop hP oldName d c hl
  · intro c r hr
    apply rebuilds_renameInRule hP oldName d c hr

/-- What deleting a domain does to the entries. -/
theorem Stores.rebuilds_dropFrom (h : c.Stores P) (hP : Stable P) (name : String) :
  c.Rebuilds P ((c.allLoops.foldl (dropFromLoop name) c).allRules.foldl (dropFromRule name)
    (c.allLoops.foldl (dropFromLoop name) c))
  := by
  apply h.rebuilds_foldl
  · intro c l hl
    apply rebuilds_dropFromLoop hP name c hl
  · intro c r hr
    apply rebuilds_dropFromRule hP name c hr

/-- Deleting a domain removes it, rebuilds the entries and may set another default. -/
theorem Stores.rebuilds_deleteDomain (h : c.Stores P) (hP : Stable P) (name newDefault : String) :
  ∃ c' d, Rebuilds P { c with domains := c.domains.erase name } c' ∧
    (c.deleteDomain name newDefault).2 = { c' with defaultDomain := d }
  := by
  have hdrop := Stores.rebuilds_dropFrom (c := { c with domains := c.domains.erase name }) h hP name
  simp only [deleteDomain]
  split
  · exact ⟨_, _, hdrop, rfl⟩
  · exact ⟨_, _, hdrop, rfl⟩

theorem Stores.updateDomain (h : c.Stores P) (hP : Stable P) (oldName : String) (d : Domain)
    (setDefault : Bool) :
  (c.updateDomain oldName d setDefault).Stores P
  := by
  by_cases hm : oldName ∈ c.domains
  · apply (h.rebuilds_updateDomain hP d setDefault hm).stores (fun _ he => he) h
  · rw [Configuration.updateDomain, if_neg hm]
    apply h

theorem Stores.deleteDomain (h : c.Stores P) (hP : Stable P) (name newDefault : String) :
  (c.deleteDomain name newDefault).2.Stores P
  := by
  obtain ⟨c', d, hreb, heq⟩ := h.rebuilds_deleteDomain hP name newDefault
  rw [heq]
  apply hreb.stores (fun _ he => he) h

end Configuration

end Policy

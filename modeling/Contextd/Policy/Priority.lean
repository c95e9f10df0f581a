import Contextd.Policy.RoundTrip
import Mathlib.Algebra.Group.End

/-!
# Priorities

An entry gets its identifier as its priority, and afterwards priorities are only exchanged.
So at any time in a session the priorities are the identifiers, rearranged (`RankedBy`): no
two entries have the same one, the vectors of the programs increase strictly, and a sort by
priority has a single outcome, whether it is stable or not (`priorityOrder_of_reach`).
-/

namespace Policy

open List

/-- The priority of the entry is what the rearrangement makes of its identifier. -/
def Entry.RankedBy (rank : Equiv.Perm Int) (e : Entry) : Prop :=
  e.toAbstractRule.priority = rank e.toAbstractRule.id

namespace Configuration

/-- `Configuration::abstractRulesForProgram`, before it is sorted. -/
def abstractRulesForProgram (c : Configuration) (name : String) : List Entry :=
  (c.loops.vector name).map .loop ++ (c.rules.vector name).map .rule

/-- The priorities are the identifiers, rearranged; those that were not issued stay. -/
structure Ranked (issued : List Int) (rank : Equiv.Perm Int) (c : Configuration) : Prop where
  unissued : ∀ i ∉ issued, rank i = i
  entries : c.Stores (Entry.RankedBy rank)

variable {issued : List Int} {rank : Equiv.Perm Int} {c : Configuration}

theorem stable_rankedBy (rank : Equiv.Perm Int) :
  Stable (Entry.RankedBy rank)
  := by
  refine ⟨⟨?_, ?_⟩, ?_, ?_, ?_⟩
  · intro l p allow h
    have hid := id_setProgram l.toAbstractRule p allow
    have hprio := priority_setProgram l.toAbstractRule p allow
    apply hprio.trans (h.trans (congrArg rank hid.symm))
  · intro r p allow h
    have hid := id_setProgram r.toAbstractRule p allow
    have hprio := priority_setProgram r.toAbstractRule p allow
    apply hprio.trans (h.trans (congrArg rank hid.symm))
  · intro l trules h
    apply h
  · intro r trules h
    apply h
  · intro r d h
    unfold Rule.setTransitTo
    split <;> exact h

/-! ### Steps -/

/-- Exchanging priorities rearranges them. -/
theorem Ranked.swapPriorities (h : c.Ranked issued rank) (hnum : c.Numbered issued) (i j : Int) :
  ∃ rank', (c.swapPriorities i j).Ranked issued rank'
  := by
  rcases hnum.swapPriorities_cases i j with hrem | ⟨e, e', c₀, htake, heq⟩
  · use rank, h.unissued
    apply hrem.stores h.entries
  · let a := e.toAbstractRule.id
    let b := e'.toAbstractRule.id
    have he := h.entries e htake.first
    have he' := h.entries e' htake.second
    use rank * Equiv.swap a b
    constructor
    · intro x hx
      have hxa : x ≠ a := by
        rintro rfl
        apply hx htake.unusedFirst.1.2
      have hxb : x ≠ b := by
        rintro rfl
        apply hx htake.unusedSecond.1.2
      rw [Equiv.Perm.mul_apply, Equiv.swap_apply_of_ne_of_ne hxa hxb, h.unissued x hx]
    · rw [heq]
      apply Stores.store
      · apply Stores.store
        · intro x hx
          have hxa : x.toAbstractRule.id ≠ a := htake.unusedFirst.ne (mem_ids hx)
          have hxb : x.toAbstractRule.id ≠ b := htake.unusedSecond.ne (mem_ids hx)
          rw [Entry.RankedBy, Equiv.Perm.mul_apply, Equiv.swap_apply_of_ne_of_ne hxa hxb]
          apply htake.removes.stores h.entries x hx
        · rw [Entry.RankedBy, Entry.priority_withPriority, Entry.id_withPriority,
            Equiv.Perm.mul_apply, Equiv.swap_apply_left]
          apply he'
      · rw [Entry.RankedBy, Entry.priority_withPriority, Entry.id_withPriority,
          Equiv.Perm.mul_apply, Equiv.swap_apply_right]
        apply he

end Configuration

/-- The entry that a step brings has the priority of its identifier. -/
theorem Edit.rankedBy_of_edit {s s' : Store} {a : Edit} {rank : Equiv.Perm Int}
    (h : s.config.Ranked s.issued rank) (hs : s.edit a = some s') :
  ∀ e ∈ a.entry?, e.RankedBy rank
  := by
  intro e he
  cases a with
  | addLoop l | addRule r =>
    cases he
    obtain ⟨⟨hprio, -, hnew⟩, -⟩ := Option.ite_none_right_eq_some.mp hs
    apply hprio.trans (h.unissued _ hnew).symm
  | updateLoop l =>
    cases he
    obtain ⟨⟨x, hx, hid, hprio⟩, -⟩ := Option.ite_none_right_eq_some.mp hs
    have hx := h.entries _ (Configuration.loop_mem_allAbstractRules.mpr hx)
    apply hprio.symm.trans (hx.trans (congrArg rank hid))
  | updateRule r =>
    cases he
    obtain ⟨⟨x, hx, hid, hprio, -⟩, -⟩ := Option.ite_none_right_eq_some.mp hs
    have hx := h.entries _ (Configuration.rule_mem_allAbstractRules.mpr hx)
    apply hprio.symm.trans (hx.trans (congrArg rank hid))
  | _ => cases he

/-- Identifiers stay issued. -/
theorem Store.issued_subset {s s' : Store} {a : Edit} (hstep : s.edit a = some s') :
  s.issued ⊆ s'.issued
  := by
  cases a with
  | addLoop l | addRule r =>
    obtain ⟨-, hs'⟩ := Option.ite_none_right_eq_some.mp hstep
    obtain rfl := Option.some.inj hs'
    apply subset_cons_self
  | updateLoop l | updateRule r =>
    obtain ⟨-, hs'⟩ := Option.ite_none_right_eq_some.mp hstep
    obtain rfl := Option.some.inj hs'
    apply List.Subset.refl
  | _ =>
    obtain rfl := Option.some.inj hstep
    apply List.Subset.refl

/-- After every step the priorities are the identifiers, rearranged. -/
theorem Configuration.Ranked.edit {s s' : Store} {a : Edit} {rank : Equiv.Perm Int}
    (h : s.config.Ranked s.issued rank) (hnum : s.config.Numbered s.issued)
    (hs : s.edit a = some s') :
  ∃ rank', s'.config.Ranked s'.issued rank'
  := by
  have hstable := stable_rankedBy rank
  have hkeep : s'.config.Stores (Entry.RankedBy rank) →
      ∃ rank', s'.config.Ranked s'.issued rank' := by
    intro hents
    use rank
    constructor
    · intro i hi
      apply h.unissued i
      intro hm
      apply hi (Store.issued_subset hs hm)
    · apply hents
  cases a with
  | swapPriorities i j =>
    obtain rfl := Option.some.inj hs
    apply h.swapPriorities hnum i j
  | updateDomain oldName d setDefault =>
    obtain rfl := Option.some.inj hs
    apply hkeep (h.entries.updateDomain hstable oldName d setDefault)
  | deleteDomain name newDefault =>
    obtain rfl := Option.some.inj hs
    apply hkeep (h.entries.deleteDomain hstable name newDefault)
  | _ =>
    have hent := Edit.rankedBy_of_edit h hs
    apply hkeep
    apply (changes_of_edit hs).stores hstable.toIgnoresProgram h.entries hent rfl

/-- In the sessions that keep the programs, the priorities are the identifiers, rearranged. -/
theorem Configuration.Ranked.of_reach {s : Store} (h : editor.Reach Store.KeepsPrograms s) :
  ∃ rank, s.config.Ranked s.issued rank
  := by
  have hall : (∃ rank, s.config.Ranked s.issued rank) ∧ s.config.Numbered s.issued ∧
      s.config.Wellkept := by
    apply Machine.Reach.invariant _ _ h
    · rintro s ⟨programs, n, root, hn, rfl⟩
      have hload := Loader.inv_load programs n root
      refine ⟨⟨1, fun _ _ => rfl, ?_⟩, Numbered.of_load hn, hload.wellkept⟩
      intro e he
      cases e with
      | loop l => apply hload.loopPriority l (loop_mem_allAbstractRules.mp he)
      | rule r => apply hload.rulePriority r (rule_mem_allAbstractRules.mp he)
    · rintro s a s' ⟨⟨rank, hrank⟩, hnum, hk⟩ ha hs
      exact ⟨hrank.edit hnum hs, hnum.edit hk ha hs,
        (changes_of_edit hs).wellkept hk⟩
  apply hall.1

/-! ### The order of the entries -/

namespace Configuration

variable {issued : List Int} {rank : Equiv.Perm Int} {c : Configuration}

/-- The priorities of the loops and rules. -/
def priorities (c : Configuration) : List Int :=
  c.allAbstractRules.map (·.toAbstractRule.priority)

/-- The priorities are the identifiers, rearranged. -/
theorem Ranked.priorities_eq (h : c.Ranked issued rank) :
  c.priorities = c.ids.map rank
  := by
  rw [priorities, ids_eq_map, map_map]
  apply map_congr_left h.entries

theorem Ranked.nodup_priorities (h : c.Ranked issued rank) (hnum : c.Numbered issued) :
  c.priorities.Nodup
  := by
  rw [h.priorities_eq]
  apply hnum.nodup.map rank.injective

/-- A rearrangement of the identifiers that were issued issues nothing. -/
theorem Ranked.priorities_subset (h : c.Ranked issued rank) (hnum : c.Numbered issued) :
  c.priorities ⊆ issued
  := by
  rw [h.priorities_eq]
  intro n hn
  obtain ⟨i, hi, rfl⟩ := mem_map.mp hn
  by_contra hnot
  have hfixed := rank.injective (h.unissued _ hnot)
  rw [hfixed] at hnot
  apply hnot (hnum.issued i hi).2

/-- The entries stored for a program are among all the entries. -/
theorem abstractRulesForProgram_priorities (c : Configuration) (name : String) :
  ((c.abstractRulesForProgram name).map (·.toAbstractRule.priority)).Subperm c.priorities
  := by
  apply List.Subperm.map_part
  have hls : (c.loops.vector name).Subperm c.loops.all :=
    (sublist_append_left _ _).subperm.trans (c.loops.all_perm name).symm.subperm
  have hrs : (c.rules.vector name).Subperm c.rules.all :=
    (sublist_append_left _ _).subperm.trans (c.rules.all_perm name).symm.subperm
  apply (hls.map_part Entry.loop).append (hrs.map_part Entry.rule)

/-- An order in which `qSort` may leave the loops and rules of a program. -/
def IsProgramOrder (c : Configuration) (name : String) (order : List Entry) : Prop :=
  IsSorting (·.toAbstractRule.priority) (c.abstractRulesForProgram name) order

/-- Along the order the priorities increase, and the loops and the rules of the program `k`
come in the order in which the search tries them. -/
structure Tries (c : Configuration) (k : String) (order : List Entry) : Prop where
  increasing : order.Pairwise fun e e' => e.toAbstractRule.priority < e'.toAbstractRule.priority
  loops : order.filterMap (Entry.loopUnder k) = c.loops.vector k
  rules : order.filterMap (Entry.ruleUnder k) = c.rules.vector k

/-- No two entries have the same priority, and none has one that was not issued; the vectors
increase strictly; and sorting by priority all the entries, or those of a program, has one
outcome, which increases strictly and has the order of the search. -/
structure PriorityOrder (issued : List Int) (c : Configuration) : Prop where
  nodup : c.priorities.Nodup
  issued : c.priorities ⊆ issued
  loops : ∀ k, (c.loops.vector k).Pairwise fun l l' => l.priority < l'.priority
  rules : ∀ k, (c.rules.vector k).Pairwise fun r r' => r.priority < r'.priority
  all : ∃! order, c.IsSaveOrder order
  allTries : ∀ order, c.IsSaveOrder order → ∀ k, c.Tries k order
  program : ∀ k, ∃! order, c.IsProgramOrder k order
  programTries : ∀ k order, c.IsProgramOrder k order → c.Tries k order

section

variable {k : String} {order : List Entry}

theorem nodup_loops (h : c.priorities.Nodup) (k : String) :
  ((c.loops.vector k).map (·.priority)).Nodup
  := by
  have hp := (c.abstractRulesForProgram_priorities k).nodup_part h
  rw [abstractRulesForProgram, map_append, map_map] at hp
  apply (nodup_append.mp hp).1

theorem nodup_rules (h : c.priorities.Nodup) (k : String) :
  ((c.rules.vector k).map (·.priority)).Nodup
  := by
  have hp := (c.abstractRulesForProgram_priorities k).nodup_part h
  rw [abstractRulesForProgram, map_append, map_map, map_map] at hp
  apply (nodup_append.mp hp).2.1

/-- The loops of an order are those of the vector, when they are a sorting of it. -/
theorem Wellkept.loops_eq (hk : c.Wellkept) (h : c.priorities.Nodup) {o : List Loop}
    (ho : IsSorting (·.priority) (c.loops.vector k) o) :
  o = c.loops.vector k
  := ho.eq_of_nodup ⟨.refl _, hk.loops k⟩ (nodup_loops h k)

theorem Wellkept.rules_eq (hk : c.Wellkept) (h : c.priorities.Nodup) {o : List Rule}
    (ho : IsSorting (·.priority) (c.rules.vector k) o) :
  o = c.rules.vector k
  := ho.eq_of_nodup ⟨.refl _, hk.rules k⟩ (nodup_rules h k)

/-- The loops of a program are those under its name. -/
theorem Numbered.filterMap_loopUnder (h : c.Numbered issued) (k : String) :
  (c.abstractRulesForProgram k).filterMap (Entry.loopUnder k) = c.loops.vector k
  := by
  have hrs : ((c.rules.vector k).map Entry.rule).filterMap (Entry.loopUnder k) = [] := by
    simp [filterMap_map, Entry.loopUnder, Function.comp_def]
  rw [abstractRulesForProgram, filterMap_append, hrs, append_nil, filterMap_map]
  conv_rhs => rw [← filterMap_some (l := c.loops.vector k)]
  apply filterMap_congr
  intro l hl
  apply if_pos (h.filedLoops k l hl)

theorem Numbered.filterMap_ruleUnder (h : c.Numbered issued) (k : String) :
  (c.abstractRulesForProgram k).filterMap (Entry.ruleUnder k) = c.rules.vector k
  := by
  have hls : ((c.loops.vector k).map Entry.loop).filterMap (Entry.ruleUnder k) = [] := by
    simp [filterMap_map, Entry.ruleUnder, Function.comp_def]
  rw [abstractRulesForProgram, filterMap_append, hls, nil_append, filterMap_map]
  conv_rhs => rw [← filterMap_some (l := c.rules.vector k)]
  apply filterMap_congr
  intro r hr
  apply if_pos (h.filedRules k r hr)

theorem tries_of_isSaveOrder (hnum : c.Numbered issued) (hk : c.Wellkept)
    (h : c.priorities.Nodup) (horder : c.IsSaveOrder order) (k : String) :
  c.Tries k order
  := by
  constructor
  · apply horder.pairwise_lt h
  · apply hk.loops_eq h (isSorting_loops hnum.filedLoops horder k)
  · apply hk.rules_eq h (isSorting_rules hnum.filedRules horder k)

theorem tries_of_isProgramOrder (hnum : c.Numbered issued) (hk : c.Wellkept)
    (h : c.priorities.Nodup) (horder : c.IsProgramOrder k order) :
  c.Tries k order
  := by
  constructor
  · apply horder.pairwise_lt ((c.abstractRulesForProgram_priorities k).nodup_part h)
  · apply hk.loops_eq h
    rw [← hnum.filterMap_loopUnder k]
    apply horder.filterMap fun _ _ => Entry.priority_loopUnder
  · apply hk.rules_eq h
    rw [← hnum.filterMap_ruleUnder k]
    apply horder.filterMap fun _ _ => Entry.priority_ruleUnder

end

end Configuration

/-- In the sessions that keep the programs of the entries, priorities are distinct and the
entries are ordered by them. -/
theorem priorityOrder_of_reach {s : Store} (h : editor.Reach Store.KeepsPrograms s) :
  s.config.PriorityOrder s.issued
  := by
  have hnum := Configuration.Numbered.of_reach h
  have hk := wellkept_of_reach h
  obtain ⟨rank, hrank⟩ := Configuration.Ranked.of_reach h
  have hnd := hrank.nodup_priorities hnum
  constructor
  · apply hnd
  · apply hrank.priorities_subset hnum
  · intro k
    apply IsSorting.pairwise_lt ⟨.refl _, hk.loops k⟩
    apply Configuration.nodup_loops hnd k
  · intro k
    apply IsSorting.pairwise_lt ⟨.refl _, hk.rules k⟩
    apply Configuration.nodup_rules hnd k
  · apply IsSorting.existsUnique_of_nodup hnd
  · intro order horder k
    apply Configuration.tries_of_isSaveOrder hnum hk hnd horder
  · intro k
    apply IsSorting.existsUnique_of_nodup
    apply (Configuration.abstractRulesForProgram_priorities _ k).nodup_part hnd
  · intro k order horder
    apply Configuration.tries_of_isProgramOrder hnum hk hnd horder

/-- Two rules and a loop are added; the first rule exchanges its priority with the loop, and
the second with a rule that is not there. -/
def swapSession : List Edit :=
  [.addRule mailRule, .addRule { mailRule with id := 2, priority := 2 },
    .addLoop ⟨{ mailRule.toAbstractRule with id := 3, priority := 3 }⟩, .swapPriorities 1 3,
    .swapPriorities 2 7]

theorem priorityOrder_of_reach_swapSession :
  ∃ s, editor.run (.loaded [] 0 none) swapSession = some s ∧ s.config.ids = [3, 1] ∧
    s.config.priorities = [1, 3] ∧ s.config.PriorityOrder s.issued
  := by
  have hst : editor.Reach Store.KeepsNames (.loaded [] 0 none) :=
    .init ⟨[], 0, none, by decide, rfl⟩
  refine ⟨_, rfl, by decide, by decide, ?_⟩
  apply priorityOrder_of_reach
  apply (hst.run swapSession (by decide) rfl).mono
  intro s a _ h
  apply h.keepsPrograms

end Policy

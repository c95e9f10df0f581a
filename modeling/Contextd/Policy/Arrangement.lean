import Contextd.Data.Sorting
import Contextd.Policy.Numbering
import Mathlib.Data.List.Find

/-!
# Renaming and deleting a domain

`updateDomain` and `deleteDomain` remove the entries that name the domain and store them again.  In
a store that is `Arranged` this leaves every entry in its place: the vectors are the old ones with
each entry edited (`vectors_updateDomain`, `vectors_deleteDomain`).
-/

/-! ### Vectors after an edit -/

namespace Shelving

universe u v

variable {κ : Type u} {α : Type v} [Ord κ] [Std.TransOrd κ] [Std.LawfulEqOrd κ] [DecidableEq κ]
  {S : Shelving κ α} {s s' : Bookshelf κ α} {g : α → Option α}

/-- When every entry is edited or removed, keeping its key and priority, the vectors are those
of the edited entries in the order there was. -/
theorem Rewrites.vector_eq (h : S.Rewrites s g s') (hfil : S.Filed s)
    (hstrict : ∀ k, (s.vector k).Pairwise fun x y => S.priority x < S.priority y)
    (hsort' : S.Sorted s')
    (hg : ∀ x, ∀ y ∈ g x, S.key y = S.key x ∧ S.priority y = S.priority x) (k : κ) :
  s'.vector k = (s.vector k).filterMap g
  := by
  have hcomm : (s.all.filterMap g).filter (fun y => S.key y = k) =
      (s.all.filter fun x => S.key x = k).filterMap g := by
    rw [List.filter_filterMap, List.filterMap_filter]
    apply List.filterMap_congr
    intro x _
    rcases hx : g x with _ | y
    · simp
    · simp [Option.filter_some, (hg x y hx).1]
  have hp : (s'.vector k).Perm ((s.vector k).filterMap g) := by
    apply (h.filed.filter_all k).symm.trans
    apply (h.all.filter _).trans
    rw [hcomm]
    apply (hfil.filter_all k).filterMap
  have hinc : ((s.vector k).filterMap g).Pairwise fun x y =>
      S.priority x < S.priority y := by
    apply List.Pairwise.filterMap g _ (hstrict k)
    intro x x' hlt y hy y' hy'
    rw [(hg x y hy).2, (hg x' y' hy').2]
    apply hlt
  have hnd : (((s.vector k).filterMap g).map S.priority).Nodup :=
    List.pairwise_map.mpr (hinc.imp fun hlt => ne_of_lt hlt)
  have hleft : IsSorting S.priority ((s.vector k).filterMap g) (s'.vector k) :=
    ⟨hp, hsort' k⟩
  have hrt : IsSorting S.priority ((s.vector k).filterMap g) ((s.vector k).filterMap g) :=
    ⟨.refl _, hinc.imp fun hlt => le_of_lt hlt⟩
  apply hleft.eq_of_nodup hrt hnd

end Shelving

namespace Policy

open Policy.Configuration

/-- The store invariants: entries are under the names of their programs, no two have the same
identifier, and the priorities increase along every vector. -/
structure Configuration.Arranged (c : Configuration) : Prop where
  filedLoops : loopShelving.Filed c.loops
  filedRules : ruleShelving.Filed c.rules
  nodup : c.ids.Nodup
  loops : ∀ k, (c.loops.vector k).Pairwise fun l l' => l.priority < l'.priority
  rules : ∀ k, (c.rules.vector k).Pairwise fun r r' => r.priority < r'.priority

namespace Configuration

variable {c : Configuration}

theorem Arranged.ordered (h : c.Arranged) :
  c.Ordered
  := by
  constructor
  · intro k
    apply (h.loops k).imp fun hlt => le_of_lt hlt
  · intro k
    apply (h.rules k).imp fun hlt => le_of_lt hlt

/-! ### Deleting a domain -/

theorem tag_dropped_loop {name : String} {l l' : Loop} (h : l.dropped name = some l') :
  l'.program.name = l.program.name ∧ l'.priority = l.priority
  := by
  simp only [Loop.dropped] at h
  split_ifs at h <;> cases h <;> exact ⟨rfl, rfl⟩

theorem tag_dropped_rule {name : String} {r r' : Rule} (h : r.dropped name = some r') :
  r'.program.name = r.program.name ∧ r'.priority = r.priority
  := by
  simp only [Rule.dropped] at h
  split_ifs at h <;> cases h <;> exact ⟨rfl, rfl⟩

/-- `deleteDomain` leaves the vectors with every entry edited or removed. -/
theorem Arranged.vectors_deleteDomain (h : c.Arranged) (name newDefault : String) (k : String) :
  (c.deleteDomain name newDefault).2.loops.vector k =
      (c.loops.vector k).filterMap (Loop.dropped name) ∧
    (c.deleteDomain name newDefault).2.rules.vector k =
      (c.rules.vector k).filterMap (Rule.dropped name)
  := by
  have hall : c.Stores fun _ => True := fun _ _ => trivial
  obtain ⟨c', d, hreb, heq⟩ := hall.rebuilds_deleteDomain stable_true name newDefault
  have hord : (c.deleteDomain name newDefault).2.Ordered := by
    rw [heq]
    exact { hreb.ordered { h.ordered with } with }
  obtain ⟨loops, rules, heq', hls, hrs⟩ :=
    deleteDomain_eq h.filedLoops h.filedRules h.nodup name newDefault
  rw [heq'] at hord ⊢
  constructor
  · apply hls.vector_eq h.filedLoops h.loops hord.loops
    intro l l' hl'
    apply tag_dropped_loop hl'
  · apply hrs.vector_eq h.filedRules h.rules hord.rules
    intro r r' hr'
    apply tag_dropped_rule hr'

/-! ### Renaming a domain -/

theorem tag_renamed_loop (oldName : String) (d : Domain) (l : Loop) :
  (l.renamed oldName d).program.name = l.program.name ∧
    (l.renamed oldName d).priority = l.priority
  := by
  simp only [Loop.renamed]
  split <;> exact ⟨rfl, rfl⟩

theorem tag_renamed_rule (oldName : String) (d : Domain) (r : Rule) :
  (r.renamed oldName d).program.name = r.program.name ∧
    (r.renamed oldName d).priority = r.priority
  := by
  simp only [Rule.renamed, Rule.setTransitTo]
  split_ifs <;> exact ⟨rfl, rfl⟩

/-- `updateDomain` leaves the vectors with every entry edited. -/
theorem Arranged.vectors_updateDomain (h : c.Arranged) {oldName : String} (d : Domain)
    (setDefault : Bool) (hm : oldName ∈ c.domains) (k : String) :
  (c.updateDomain oldName d setDefault).loops.vector k =
      (c.loops.vector k).map (Loop.renamed oldName d) ∧
    (c.updateDomain oldName d setDefault).rules.vector k =
      (c.rules.vector k).map (Rule.renamed oldName d)
  := by
  have hall : c.Stores fun _ => True := fun _ _ => trivial
  have hord : (c.updateDomain oldName d setDefault).Ordered := by
    apply (hall.rebuilds_updateDomain stable_true d setDefault hm).ordered
    exact { h.ordered with }
  obtain ⟨loops, rules, heq, hls, hrs⟩ :=
    updateDomain_eq h.filedLoops h.filedRules h.nodup d setDefault hm
  rw [heq] at hord ⊢
  simp only [← List.filterMap_eq_map']
  constructor
  · apply hls.vector_eq h.filedLoops h.loops hord.loops
    rintro l _ ⟨⟩
    apply tag_renamed_loop
  · apply hrs.vector_eq h.filedRules h.rules hord.rules
    rintro r _ ⟨⟩
    apply tag_renamed_rule

end Configuration

end Policy

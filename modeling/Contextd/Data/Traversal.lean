import Mathlib.Data.List.Basic

/-!
# Traversing a list with a partial function

`List.mapM` has a result when the function has one for every element, and then it is the list
of these (`List.mapM_eq_some_iff`).
-/

namespace List

variable {α β : Type*} {f : α → Option β} {l : List α} {bs : List β}

theorem mapM_eq_some_iff :
  l.mapM f = some bs ↔ l.map f = bs.map some
  := by
  induction l generalizing bs with
  | nil => cases bs <;> simp
  | cons a l ih =>
    rw [List.mapM_cons, List.map_cons]
    constructor
    · intro h
      obtain ⟨b, hb, h⟩ := Option.bind_eq_some_iff.mp h
      obtain ⟨bs', hbs', h⟩ := Option.bind_eq_some_iff.mp h
      obtain rfl := Option.some.inj h
      rw [hb, ih.mp hbs', List.map_cons]
    · intro h
      cases bs with
      | nil => cases h
      | cons b bs =>
        obtain ⟨hb, hbs⟩ := List.cons_eq_cons.mp h
        rw [hb, ih.mpr hbs]
        rfl

theorem isSome_mapM_iff :
  (l.mapM f).isSome ↔ ∀ a ∈ l, (f a).isSome
  := by
  induction l with
  | nil => simp
  | cons a l ih =>
    rw [List.mapM_cons, List.forall_mem_cons, ← ih]
    cases f a <;> cases l.mapM f <;> simp

theorem mem_of_mapM_eq_some (h : l.mapM f = some bs) (b : β) :
  b ∈ bs ↔ ∃ a ∈ l, f a = some b
  := by
  have hm : some b ∈ l.map f ↔ some b ∈ bs.map some := by rw [mapM_eq_some_iff.mp h]
  simpa using hm.symm

end List

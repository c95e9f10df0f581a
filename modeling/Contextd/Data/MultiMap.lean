import Contextd.Data.Bookshelf

/-!
# Maps with several values for a key

A shelf on which a new entry is put before those that are under its key already, as a multimap
does.  Going through the entries gives the newest one of a key first, so entries that are put
on another shelf in this order lie there in the other direction (`vector_foldl_insertMulti`,
`filter_all`).
-/

universe u v

namespace Bookshelf

variable {κ : Type u} {α : Type v} [Ord κ] [Std.TransOrd κ] [Std.LawfulEqOrd κ] [DecidableEq κ]

/-- Put an entry before those under a key. -/
def insertMulti (s : Bookshelf κ α) (k : κ) (x : α) : Bookshelf κ α :=
  s.insert k (x :: s.vector k)

theorem vector_insertMulti (s : Bookshelf κ α) (k k' : κ) (x : α) :
  (s.insertMulti k x).vector k' = if k = k' then x :: s.vector k' else s.vector k'
  := by
  rw [insertMulti, vector_insert]
  split_ifs with hk
  · rw [hk]
  · rfl

omit [Std.LawfulEqOrd κ] [DecidableEq κ] in
@[simp]
theorem vector_empty (k : κ) :
  vector (∅ : Bookshelf κ α) k = []
  := by
  simp [vector]

/-- Of the entries that were put on a shelf, the last one of a key comes first. -/
theorem vector_foldl_insertMulti (key : α → κ) (l : List α) (s : Bookshelf κ α) (k : κ) :
  (l.foldl (fun s x => s.insertMulti (key x) x) s).vector k =
    (l.filter (key · = k)).reverse ++ s.vector k
  := by
  induction l generalizing s with
  | nil => rfl
  | cons x l ih =>
    rw [List.foldl_cons, ih, vector_insertMulti]
    by_cases hk : key x = k <;> simp [hk]

/-- The entries of a key are those under it, in this order. -/
theorem filter_all {key : α → κ} {s : Bookshelf κ α} (h : ∀ k, ∀ x ∈ s.vector k, key x = k)
    (k : κ) :
  s.all.filter (key · = k) = s.vector k
  := by
  have hfil : ∀ kl ∈ s.toList, kl.2.filter (key · = k) = if kl.1 = k then kl.2 else [] := by
    rintro ⟨k', l⟩ hm
    have hvec : s.vector k' = l := by rw [vector_eq, mem_toList_iff.mp hm, Option.getD_some]
    have hkey : ∀ x ∈ l, key x = k' := by
      rw [← hvec]
      apply h k'
    split_ifs with hk
    · apply List.filter_eq_self.mpr
      intro x hx
      apply decide_eq_true ((hkey x hx).trans hk)
    · apply List.filter_eq_nil_iff.mpr
      intro x hx
      rw [hkey x hx]
      simpa using hk
  rw [← flatMap_filter_key, all, List.filter_flatMap]
  generalize s.toList = kls at hfil ⊢
  induction kls with
  | nil => rfl
  | cons kl kls ih =>
    obtain ⟨hkl, hkls⟩ := List.forall_mem_cons.mp hfil
    rw [List.flatMap_cons, hkl, ih hkls]
    by_cases hk : kl.1 = k <;> simp [hk]

end Bookshelf

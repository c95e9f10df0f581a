import Contextd.Librecompare.Merging
import Mathlib.Data.List.Perm.Subperm

/-!
# Byte sets as sets

The six operators of `byteset.cpp` should be those of sets (`SetAlgebra`).  The ones that return a
new array are, and so is `|=`.  But `&=` appends the common bytes to the first array instead of
keeping only them, and `-=` removes one occurrence for each byte of the second array.
`setAlgebra_iff` says for which arrays nothing goes wrong by that.
-/

namespace Librecompare

open List

namespace ByteSet

/-! ### The operators in place -/

/-- The operator `|=`: the bytes of the second array are appended unless they are there. -/
def unionAssign (a b : ByteSet) : ByteSet :=
  b.foldl (fun a x => if !a.contains x then a ++ [x] else a) a

/-- The operator `&=`: the bytes of the second array are appended if they are there. -/
def interAssign (a b : ByteSet) : ByteSet :=
  b.foldl (fun a x => if a.contains x then a ++ [x] else a) a

/-- The operators on `a` and `b` are those of sets, and none of them makes a byte occur twice. -/
structure SetAlgebra (a b : ByteSet) : Prop where
  union : ∀ x, x ∈ a.union b ↔ x ∈ a ∨ x ∈ b
  inter : ∀ x, x ∈ a.inter b ↔ x ∈ a ∧ x ∈ b
  diff : ∀ x, x ∈ a.diff b ↔ x ∈ a ∧ x ∉ b
  unionAssign : ∀ x, x ∈ a.unionAssign b ↔ x ∈ a ∨ x ∈ b
  interAssign : ∀ x, x ∈ a.interAssign b ↔ x ∈ a ∧ x ∈ b
  remove : ∀ x, x ∈ a.remove b ↔ x ∈ a ∧ x ∉ b
  nodup : a.Nodup → b.Nodup →
    (a.union b).Nodup ∧ (a.inter b).Nodup ∧ (a.diff b).Nodup ∧
      (a.unionAssign b).Nodup ∧ (a.interAssign b).Nodup ∧ (a.remove b).Nodup

variable {a b : ByteSet} {x : UInt8}

/-! ### `operator |=` -/

@[simp]
theorem unionAssign_nil :
  a.unionAssign [] = a
  := rfl

@[simp]
theorem unionAssign_cons {y : UInt8} :
  a.unionAssign (y :: b) = (if y ∈ a then a else a ++ [y]).unionAssign b
  := by
  rw [unionAssign, foldl_cons, unionAssign]
  by_cases hy : y ∈ a
  · simp [hy]
  · simp [hy]

theorem mem_unionAssign :
  x ∈ a.unionAssign b ↔ x ∈ a ∨ x ∈ b
  := by
  induction b generalizing a with
  | nil => simp
  | cons y b ih =>
    rw [unionAssign_cons, ih, mem_cons]
    split_ifs with hy
    · constructor
      · rintro (hx | hx)
        · exact .inl hx
        · exact .inr (.inr hx)
      · rintro (hx | rfl | hx)
        · exact .inl hx
        · exact .inl hy
        · exact .inr hx
    · rw [mem_append, mem_singleton, or_assoc]

theorem nodup_unionAssign (ha : a.Nodup) :
  (a.unionAssign b).Nodup
  := by
  induction b generalizing a with
  | nil => apply ha
  | cons y b ih =>
    rw [unionAssign_cons]
    apply ih
    split_ifs with hy
    · apply ha
    · rw [← concat_eq_append]
      apply ha.concat hy

/-! ### `operator &=` -/

@[simp]
theorem interAssign_nil :
  a.interAssign [] = a
  := rfl

@[simp]
theorem interAssign_cons {y : UInt8} :
  a.interAssign (y :: b) = (if y ∈ a then a ++ [y] else a).interAssign b
  := by
  rw [interAssign, foldl_cons, interAssign]
  by_cases hy : y ∈ a
  · simp [hy]
  · simp [hy]

/-- What is appended is there already, so the bytes that are appended to `c`, which has the bytes of
`a`, are those of `a`. -/
theorem interAssign_eq_of_mem {c : ByteSet} (hc : ∀ x, x ∈ c ↔ x ∈ a) :
  c.interAssign b = c ++ b.filter (fun x => a.contains x)
  := by
  induction b generalizing c with
  | nil => simp
  | cons y b ih =>
    by_cases hy : y ∈ a
    · have hm : ∀ x, x ∈ c ++ [y] ↔ x ∈ a := by
        intro x
        rw [mem_append, mem_singleton, hc, or_iff_left_iff_imp]
        rintro rfl
        apply hy
      rw [interAssign_cons, if_pos ((hc y).mpr hy), ih hm, filter_cons_of_pos (by simpa)]
      simp
    · rw [interAssign_cons, if_neg (by rwa [hc]), ih hc, filter_cons_of_neg (by simpa)]

/-- `operator &=` keeps the first set, and adds what is in both. -/
theorem interAssign_eq :
  a.interAssign b = a ++ b.filter (fun x => a.contains x)
  := by
  apply interAssign_eq_of_mem
  simp

/-- The bytes of the first array stay. -/
theorem mem_interAssign :
  x ∈ a.interAssign b ↔ x ∈ a
  := by
  rw [interAssign_eq, mem_append, or_iff_left_iff_imp]
  simp

/-- The common bytes occur once more. -/
theorem nodup_interAssign_iff (ha : a.Nodup) (hb : b.Nodup) :
  (a.interAssign b).Nodup ↔ a.Disjoint b
  := by
  rw [interAssign_eq, nodup_append']
  simp only [ha, hb.filter _, true_and]
  simp only [List.Disjoint, mem_filter, contains_iff_mem]
  constructor
  · intro h x hx hxb
    apply h hx ⟨hxb, hx⟩
  · intro h x hx hxb
    apply h hx hxb.1

/-! ### `operator -=` -/

/-- As many occurrences are removed as the second array has. -/
theorem mem_remove_iff_count :
  x ∈ a.remove b ↔ b.count x < a.count x
  := by
  rw [remove, ← diff_eq_foldl, ← count_pos_iff, count_diff]
  omega

/-! ### All six operators -/

/-- The operators are those of sets exactly when the second array has at least as many occurrences
of each byte as the first, and has one of them twice if the first has any. -/
theorem setAlgebra_iff (a b : ByteSet) :
  SetAlgebra a b ↔ a.Subperm b ∧ (b.Nodup → a = [])
  := by
  rw [subperm_iff_count]
  constructor
  · intro h
    have hsub : ∀ x ∈ a, x ∈ b := by
      intro x hx
      apply ((h.interAssign x).mp (mem_interAssign.mpr hx)).2
    have hcnt : ∀ x, a.count x ≤ b.count x := by
      intro x
      by_contra hlt
      rw [not_le] at hlt
      have hx := (h.remove x).mp (mem_remove_iff_count.mpr hlt)
      apply hx.2 (hsub x hx.1)
    refine ⟨hcnt, ?_⟩
    intro hb
    have ha : a.Nodup := nodup_iff_count_le_one.mpr fun x =>
      (hcnt x).trans (nodup_iff_count_le_one.mp hb x)
    have hdisjoint := (nodup_interAssign_iff ha hb).mp (h.nodup ha hb).2.2.2.2.1
    apply eq_nil_iff_forall_not_mem.mpr
    intro x hx
    apply hdisjoint hx (hsub x hx)
  · rintro ⟨hcnt, hnd⟩
    have hsub : ∀ x ∈ a, x ∈ b := by
      intro x hx
      rw [← count_pos_iff] at hx ⊢
      apply hx.trans_le (hcnt x)
    constructor
    · exact fun x => mem_union
    · exact fun x => mem_inter
    · exact fun x => mem_diff
    · exact fun x => mem_unionAssign
    · intro x
      rw [mem_interAssign, iff_self_and]
      apply hsub x
    · intro x
      rw [mem_remove_iff_count]
      constructor
      · intro hlt
        exact absurd (hcnt x) (not_le.mpr hlt)
      · rintro ⟨hx, hxb⟩
        exact absurd (hsub x hx) hxb
    · intro ha hb
      refine ⟨nodup_union ha hb, nodup_inter hb, nodup_diff ha, nodup_unionAssign ha, ?_,
        nodup_remove ha⟩
      obtain rfl := hnd hb
      rw [nodup_interAssign_iff ha hb]
      apply disjoint_nil_left

/-- `"ab" &= "b"` gives `"abb"`: `a` is still there, and `b` is there twice. -/
theorem interAssign_keeps_bytes :
  interAssign [97, 98] [98] = [97, 98, 98] ∧ ¬ SetAlgebra [97, 98] [98]
  := by
  refine ⟨by decide, ?_⟩
  intro h
  have hm := (h.interAssign 97).mp (by decide)
  exact absurd hm.2 (by decide)

end ByteSet

end Librecompare

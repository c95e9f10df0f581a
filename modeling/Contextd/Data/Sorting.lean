import Mathlib.Data.List.Sort

/-!
# Sortings

What a sort that is not stable may return: the entries of a list, in an order in which a
number does not decrease (`IsSorting`).  The order of two entries with the same number is
not determined, so all sortings agree on an attribute of the entries exactly when entries
with the same number agree on it.
-/

universe u v

/-- The list `o` has the entries of `l`, and `f` does not decrease along it. -/
structure IsSorting {α : Type u} (f : α → Int) (l o : List α) : Prop where
  perm : o.Perm l
  sorted : o.Pairwise fun a b => f a ≤ f b

namespace IsSorting

open List

variable {α : Type u} {β : Type v} {f : α → Int} {l o : List α}

/-- Every list has a sorting. -/
theorem exists_isSorting (f : α → Int) (l : List α) :
  ∃ o, IsSorting f l o
  := by
  let r : α → α → Prop := fun a b => f a ≤ f b
  have htotal : Std.Total r := ⟨fun a b => Int.le_total (f a) (f b)⟩
  have htrans : IsTrans α r := ⟨fun _ _ _ => Int.le_trans⟩
  use l.insertionSort r, l.perm_insertionSort r
  apply pairwise_insertionSort

/-- Two sortings agree on an attribute on which entries with the same number agree. -/
theorem map_eq {o' : List α} {g : α → β} (ho : IsSorting f l o) (ho' : IsSorting f l o')
    (h : ∀ x ∈ l, ∀ y ∈ l, f x = f y → g x = g y) :
  o.map g = o'.map g
  := by
  let pair : α → Int × β := fun x => (f x, g x)
  have hsort : ∀ {s}, IsSorting f l s → (s.map pair).Pairwise fun p q => p.1 ≤ q.1 := by
    intro s hs
    rw [pairwise_map]
    apply hs.sorted
  have hpairs : o.map pair = o'.map pair := by
    apply List.Perm.eq_of_pairwise _ (hsort ho) (hsort ho')
    · apply (ho.perm.trans ho'.perm.symm).map
    · intro p q hp hq hpq hqp
      obtain ⟨x, hx, rfl⟩ := mem_map.mp hp
      obtain ⟨y, hy, rfl⟩ := mem_map.mp hq
      have hf : f x = f y := Int.le_antisymm hpq hqp
      have hg := h x (ho.perm.mem_iff.mp hx) y (ho'.perm.mem_iff.mp hy) hf
      apply Prod.ext hf hg
  have hsnd := congrArg (List.map Prod.snd) hpairs
  rw [map_map, map_map] at hsnd
  apply hsnd

/-- A sorting goes over to a part of the entries. -/
theorem filterMap {g : β → Int} {p : α → Option β} (ho : IsSorting f l o)
    (hp : ∀ x y, p x = some y → g y = f x) :
  IsSorting g (l.filterMap p) (o.filterMap p)
  := by
  constructor
  · apply ho.perm.filterMap
  · rw [pairwise_filterMap]
    apply ho.sorted.imp
    intro a b hle x hx y hy
    rw [hp a x hx, hp b y hy]
    apply hle

/-- Where the numbers are distinct, two sortings are the same. -/
theorem eq_of_nodup {o' : List α} (ho : IsSorting f l o) (ho' : IsSorting f l o')
    (h : (l.map f).Nodup) :
  o = o'
  := by
  have hmap := ho.map_eq (g := id) ho' fun x hx y hy => inj_on_of_nodup_map h hx hy
  rwa [map_id, map_id] at hmap

/-- Where the numbers are distinct, there is exactly one sorting. -/
theorem existsUnique_of_nodup (h : (l.map f).Nodup) :
  ∃! o, IsSorting f l o
  := by
  obtain ⟨o, ho⟩ := exists_isSorting f l
  use o, ho
  intro o' ho'
  apply ho'.eq_of_nodup ho h

/-- Where the numbers are distinct, they increase along a sorting. -/
theorem pairwise_lt (ho : IsSorting f l o) (h : (l.map f).Nodup) :
  o.Pairwise fun a b => f a < f b
  := by
  have hne : o.Pairwise fun a b => f a ≠ f b :=
    pairwise_map.mp ((ho.perm.map f).nodup_iff.mpr h)
  apply (ho.sorted.and hne).imp
  rintro a b ⟨hle, hne⟩
  omega

/-- The entries with a number may be put in any order. -/
theorem rearrange {n : Int} {b : List α} (ho : IsSorting f l o) (hb : b.Perm (o.filter (f · = n))) :
  IsSorting f l (o.filter (f · < n) ++ (b ++ o.filter (n < f ·)))
  := by
  have heq : ∀ x ∈ b, f x = n := by
    intro x hx
    simpa using (mem_filter.mp (hb.mem_iff.mp hx)).2
  constructor
  · have hsp := filter_append_perm (f · < n) o
    have hsp' := filter_append_perm (f · = n) (o.filter fun x => !decide (f x < n))
    have hlow : (o.filter fun x => !decide (f x < n)).filter (f · = n) = o.filter (f · = n) := by
      rw [filter_filter]
      apply filter_congr
      intro x _
      rw [Bool.eq_iff_iff]
      simp only [Bool.and_eq_true, Bool.not_eq_true', decide_eq_true_eq, decide_eq_false_iff_not]
      omega
    have hhigh : (o.filter fun x => !decide (f x < n)).filter (fun x => !decide (f x = n)) =
        o.filter (n < f ·) := by
      rw [filter_filter]
      apply filter_congr
      intro x _
      rw [Bool.eq_iff_iff]
      simp only [Bool.and_eq_true, Bool.not_eq_true', decide_eq_true_eq, decide_eq_false_iff_not]
      omega
    rw [hlow, hhigh] at hsp'
    apply List.Perm.trans _ (hsp.trans ho.perm)
    apply List.Perm.append_left
    apply (hb.append_right _).trans hsp'
  · apply pairwise_append.mpr
    refine ⟨ho.sorted.filter _, ?_, ?_⟩
    · apply pairwise_append.mpr
      refine ⟨?_, ho.sorted.filter _, ?_⟩
      · apply pairwise_of_forall_mem_list
        intro x hx y hy
        rw [heq x hx, heq y hy]
      · intro x hx y hy
        rw [heq x hx]
        have hlt : n < f y := by simpa using (mem_filter.mp hy).2
        omega
    · intro x hx y hy
      have hlt : f x < n := by simpa using (mem_filter.mp hx).2
      rcases mem_append.mp hy with hy | hy
      · have hy := heq y hy
        omega
      · have hgt : n < f y := by simpa using (mem_filter.mp hy).2
        omega

/-- Where all sortings agree on an attribute that some entries have, entries with the same
number agree on it. -/
theorem eq_of_filterMap {p : α → Option β} {r : List β}
    (h : ∀ o, IsSorting f l o → o.filterMap p = r) {x y : α} (hx : x ∈ l) (hy : y ∈ l)
    (hxy : f x = f y) {a b : β} (ha : p x = some a) (hb : p y = some b) :
  a = b
  := by
  obtain ⟨o, ho⟩ := exists_isSorting f l
  have hfr : ∀ z ∈ l, f z = f x → ∃ rest, IsSorting f l
      (o.filter (f · < f x) ++ (z :: rest ++ o.filter (f x < f ·))) := by
    intro z hz hzx
    have hm : z ∈ o.filter (f · = f x) := by
      apply mem_filter.mpr
      use ho.perm.mem_iff.mpr hz
      simpa using hzx
    obtain ⟨before, after, hsp⟩ := append_of_mem hm
    use before ++ after
    apply ho.rearrange
    rw [hsp]
    apply perm_middle.symm
  obtain ⟨rx, hrx⟩ := hfr x hx rfl
  obtain ⟨ry, hry⟩ := hfr y hy hxy.symm
  have hsame := (h _ hrx).trans (h _ hry).symm
  simp only [filterMap_append, cons_append, filterMap_cons, ha, hb,
    append_cancel_left_eq, List.cons.injEq] at hsame
  apply hsame.1

end IsSorting

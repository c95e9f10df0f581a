import Contextd.Data.Bookshelf

/-!
# Taking entries off a shelf and filing them back

Two entries are filed and taken off independently of each other.  Filing back an entry that was
taken off gives the same shelf exactly when it was filed under its own key and all those that follow
it in its vector have a greater priority number (`Closes`).
-/

universe u v

namespace Shelving

open List

section Vectors

variable {κ : Type u} {α : Type v} {S : Shelving κ α} {x : α} {i j : Int} {l : List α}

theorem insertInto_cons_of_lt {y : α} (h : S.priority x < S.priority y) :
  S.insertInto x (y :: l) = x :: y :: l
  := by
  rw [insertInto, orderedInsert_cons, if_pos h]

theorem insertInto_cons_of_le {y : α} (h : S.priority y ≤ S.priority x) :
  S.insertInto x (y :: l) = y :: S.insertInto x l
  := by
  rw [insertInto, orderedInsert_cons, if_neg (by omega)]
  rfl

theorem removeFrom_cons_self {y : α} (h : S.id y = i) :
  S.removeFrom i (y :: l) = l
  := by
  rw [removeFrom, eraseP_cons_of_pos (by simpa using h)]

theorem removeFrom_cons_of_ne {y : α} (h : S.id y ≠ i) :
  S.removeFrom i (y :: l) = y :: S.removeFrom i l
  := by
  rw [removeFrom, eraseP_cons_of_neg (by simpa using h)]
  rfl

/-- The entry that was inserted is removed by its identifier. -/
theorem removeFrom_insertInto (hx : S.id x = i) (h : ∀ y ∈ l, S.id y ≠ i) :
  S.removeFrom i (S.insertInto x l) = l
  := by
  induction l with
  | nil => apply removeFrom_cons_self hx
  | cons y l ih =>
    obtain ⟨hy, ht⟩ := forall_mem_cons.mp h
    rcases lt_or_ge (S.priority x) (S.priority y) with hlt | hle
    · rw [insertInto_cons_of_lt hlt, removeFrom_cons_self hx]
    · rw [insertInto_cons_of_le hle, removeFrom_cons_of_ne hy, ih ht]

/-- Another entry is removed as if the inserted one were not there. -/
theorem removeFrom_insertInto_of_ne (hl : S.Ordered l) (hx : S.id x ≠ i) :
  S.removeFrom i (S.insertInto x l) = S.insertInto x (S.removeFrom i l)
  := by
  induction l with
  | nil => apply removeFrom_cons_of_ne hx
  | cons y l ih =>
    obtain ⟨hy, ht⟩ := pairwise_cons.mp hl
    by_cases hid : S.id y = i
    · rw [removeFrom_cons_self hid]
      rcases lt_or_ge (S.priority x) (S.priority y) with hlt | hle
      · rw [insertInto_cons_of_lt hlt, removeFrom_cons_of_ne hx, removeFrom_cons_self hid]
        cases l with
        | nil => rfl
        | cons z l =>
          have hz := hy z mem_cons_self
          rw [insertInto_cons_of_lt (by omega)]
      · rw [insertInto_cons_of_le hle, removeFrom_cons_self hid]
    · rw [removeFrom_cons_of_ne hid]
      rcases lt_or_ge (S.priority x) (S.priority y) with hlt | hle
      · rw [insertInto_cons_of_lt hlt, insertInto_cons_of_lt hlt, removeFrom_cons_of_ne hx,
          removeFrom_cons_of_ne hid]
      · rw [insertInto_cons_of_le hle, insertInto_cons_of_le hle, removeFrom_cons_of_ne hid, ih ht]

/-- Inserting an entry that was removed gives the same vector exactly when those that follow
it have a greater priority number. -/
theorem insertInto_removeFrom_iff (hl : S.Ordered l) (hnd : (l.map S.id).Nodup) (hx : x ∈ l)
    (hid : S.id x = i) :
  S.insertInto x (S.removeFrom i l) = l ↔
    l.Pairwise fun y z => S.id y = i → S.priority y < S.priority z
  := by
  induction l with
  | nil => cases hx
  | cons y l ih =>
    obtain ⟨hy, ht⟩ := pairwise_cons.mp hl
    obtain ⟨hnot, hnd⟩ := nodup_cons.mp hnd
    rw [pairwise_cons]
    rcases mem_cons.mp hx with rfl | hx
    · have hr : ∀ z ∈ l, S.id z ≠ i := by
        intro z hz hzid
        apply hnot
        rw [hid, ← hzid]
        apply mem_map_of_mem hz
      have hlat : l.Pairwise fun y z => S.id y = i → S.priority y < S.priority z := by
        apply List.Pairwise.imp_of_mem _ ht
        intro z z' hz _ _ hzid
        apply absurd hzid (hr z hz)
      rw [removeFrom_cons_self hid]
      cases l with
      | nil => simp [insertInto]
      | cons z l =>
        rcases lt_or_ge (S.priority x) (S.priority z) with hlt | hle
        · rw [insertInto_cons_of_lt hlt]
          simp only [hlat, and_true, true_iff]
          intro z' hz' _
          rcases mem_cons.mp hz' with rfl | hz'
          · apply hlt
          · have hzz' := (pairwise_cons.mp ht).1 z' hz'
            omega
        · rw [insertInto_cons_of_le hle]
          constructor
          · intro heq
            have hxz := head_eq_of_cons_eq heq
            apply absurd (hxz ▸ hid) (hr z mem_cons_self)
          · intro h
            have hlt := h.1 z mem_cons_self hid
            omega
    · have hne : S.id y ≠ i := by
        intro hyid
        apply hnot
        rw [hyid, ← hid]
        apply mem_map_of_mem hx
      rw [removeFrom_cons_of_ne hne, insertInto_cons_of_le (hy x hx), List.cons.injEq, ih ht hnd hx]
      simp [hne]

end Vectors

section Shelves

variable {κ : Type u} {α : Type v} [Ord κ] [Std.TransOrd κ] [Std.LawfulEqOrd κ] [DecidableEq κ]
  {S : Shelving κ α} {s : Bookshelf κ α} {x : α} {k k' : κ} {i : Int}

variable (S) in
/-- The entries that follow an identifier in its vector have a greater priority number. -/
def Closes (s : Bookshelf κ α) (i : Int) : Prop :=
  ∀ k, (s.vector k).Pairwise fun x y => S.id x = i → S.priority x < S.priority y

variable (S) in
/-- The identifier is under the key of the entry that has it. -/
def FiledAt (s : Bookshelf κ α) (i : Int) : Prop :=
  ∀ k, ∀ x ∈ s.vector k, S.id x = i → S.key x = k

/-- What is stored under a key after a vector was stored. -/
theorem getElem?_insert (s : Bookshelf κ α) (k k' : κ) (l : List α) :
  (s.insert k l)[k']? = if k = k' then some l else s[k']?
  := by
  rw [Std.ExtTreeMap.getElem?_insert]
  simp

/-- The vector that was stored last is there. -/
theorem insert_insert (s : Bookshelf κ α) (k : κ) (l l' : List α) :
  (s.insert k l).insert k l' = s.insert k l'
  := by
  apply Std.ExtTreeMap.ext_getElem?
  intro k'
  rw [getElem?_insert, getElem?_insert, getElem?_insert]
  split_ifs <;> rfl

/-- Vectors are stored under different keys in any order. -/
theorem insert_comm (s : Bookshelf κ α) (hne : k ≠ k') (l l' : List α) :
  (s.insert k l).insert k' l' = (s.insert k' l').insert k l
  := by
  apply Std.ExtTreeMap.ext_getElem?
  intro k''
  rw [getElem?_insert, getElem?_insert, getElem?_insert, getElem?_insert]
  split_ifs with h h'
  · apply absurd (h'.trans h.symm) hne
  · rfl
  · rfl
  · rfl

/-- Storing the vector that is there. -/
theorem insert_vector (h : k ∈ s) :
  s.insert k (s.vector k) = s
  := by
  obtain ⟨l, hl⟩ := Option.isSome_iff_exists.mp (Std.ExtTreeMap.isSome_getElem?_iff_mem.mpr h)
  apply Std.ExtTreeMap.ext_getElem?
  intro k'
  rw [getElem?_insert]
  split_ifs with hk
  · rw [Bookshelf.vector_eq, ← hk, hl]
    rfl
  · rfl

omit [Std.LawfulEqOrd κ] [DecidableEq κ] in
/-- A key that has entries is there. -/
theorem mem_of_mem_vector (h : x ∈ s.vector k) :
  k ∈ s
  := by
  rw [← Std.ExtTreeMap.isSome_getElem?_iff_mem]
  rw [Bookshelf.vector_eq] at h
  cases hl : s[k]? with
  | none => simp [hl] at h
  | some l => rfl

/-- An entry under another key is one of the others. -/
theorem mem_others (h : x ∈ s.vector k') (hne : k' ≠ k) :
  x ∈ s.others k
  := by
  obtain ⟨l, hl⟩ := Option.isSome_iff_exists.mp
    (Std.ExtTreeMap.isSome_getElem?_iff_mem.mpr (mem_of_mem_vector h))
  rw [Bookshelf.vector_eq, hl] at h
  apply mem_flatMap.mpr
  use (k', l)
  constructor
  · simp [hl, hne]
  · apply h

/-- Where identifiers occur once, one is under a single key. -/
theorem key_eq_of_nodup (hnd : (s.all.map S.id).Nodup) {y : α} (hx : x ∈ s.vector k)
    (hy : y ∈ s.vector k') (hid : S.id x = S.id y) :
  k = k'
  := by
  by_contra hne
  have hsp := ((s.all_perm k).map S.id).nodup_iff.mp hnd
  rw [map_append] at hsp
  apply (nodup_append.mp hsp).2.2 _ (mem_map_of_mem hx) _
    (mem_map_of_mem (mem_others hy (Ne.symm hne))) hid

/-- An entry of the shelf is taken off by its identifier. -/
theorem removeById_of_mem (hnd : (s.all.map S.id).Nodup) (hx : x ∈ s.vector k) (hid : S.id x = i) :
  S.removeById s i = (some x, S.removeIn s k i)
  := by
  rcases removeById_cases S s i with ⟨-, hn⟩ | ⟨k', y, hy, hyid, heq⟩
  · apply absurd hid (hn x (Bookshelf.mem_all.mpr ⟨k, hx⟩))
  · obtain rfl := key_eq_of_nodup hnd hx hy (hid.trans hyid.symm)
    obtain rfl := inj_on_of_nodup_map hnd (Bookshelf.mem_all.mpr ⟨k, hx⟩)
      (Bookshelf.mem_all.mpr ⟨k, hy⟩) (hid.trans hyid.symm)
    apply heq

omit [DecidableEq κ] in
/-- Nothing is taken off by an identifier that is not there. -/
theorem removeById_of_not_mem (h : ∀ x ∈ s.all, S.id x ≠ i) :
  S.removeById s i = (none, s)
  := by
  rcases removeById_cases S s i with ⟨heq, -⟩ | ⟨k, y, hy, hyid, -⟩
  · apply heq
  · apply absurd hyid (h y (Bookshelf.mem_all.mpr ⟨k, hy⟩))

/-- The vector of the entry after it was filed. -/
theorem mem_vector_add (s : Bookshelf κ α) (x : α) :
  x ∈ (S.add s x).vector (S.key x)
  := by
  rw [add, Bookshelf.vector_insert, if_pos rfl]
  apply (insertInto_perm _).mem_iff.mpr mem_cons_self

/-- The identifiers after an entry was filed. -/
theorem nodup_add (hnd : (s.all.map S.id).Nodup) (hx : ∀ y ∈ s.all, S.id y ≠ S.id x) :
  ((S.add s x).all.map S.id).Nodup
  := by
  rw [((all_add s x).map S.id).nodup_iff, map_cons, nodup_cons]
  refine ⟨?_, hnd⟩
  intro hm
  obtain ⟨y, hy, hyid⟩ := mem_map.mp hm
  apply hx y hy hyid

/-- The entry that was filed under a key of the shelf is taken off by its identifier. -/
theorem removeById_add (hnd : (s.all.map S.id).Nodup) (hx : ∀ y ∈ s.all, S.id y ≠ S.id x)
    (hkey : S.key x ∈ s) :
  S.removeById (S.add s x) (S.id x) = (some x, s)
  := by
  rw [removeById_of_mem (nodup_add hnd hx) (mem_vector_add s x) rfl]
  have hrem : S.removeIn (S.add s x) (S.key x) (S.id x) = s := by
    rw [removeIn, add, Bookshelf.vector_insert, if_pos rfl, insert_insert,
      removeFrom_insertInto rfl, insert_vector hkey]
    intro y hy
    apply hx y (Bookshelf.mem_all.mpr ⟨_, hy⟩)
  rw [hrem]

/-- Another entry is taken off as if the one that was filed were not there. -/
theorem removeById_add_of_ne (hnd : (s.all.map S.id).Nodup)
    (hx : ∀ y ∈ s.all, S.id y ≠ S.id x) (hsort : S.Sorted s) (hi : S.id x ≠ i) :
  S.removeById (S.add s x) i = ((S.removeById s i).1, S.add (S.removeById s i).2 x)
  := by
  rcases removeById_cases S s i with ⟨heq, hn⟩ | ⟨k, y, hy, hid, heq⟩
  · rw [heq, removeById_of_not_mem]
    intro y hy
    rcases mem_cons.mp ((all_add s x).mem_iff.mp hy) with rfl | hy
    · apply hi
    · apply hn y hy
  · have hm : y ∈ (S.add s x).vector k := by
      rw [add, Bookshelf.vector_insert]
      split_ifs with hk
      · apply (insertInto_perm _).mem_iff.mpr
        apply mem_cons_of_mem
        rw [hk]
        apply hy
      · apply hy
    rw [heq, removeById_of_mem (nodup_add hnd hx) hm hid]
    have hrem : S.removeIn (S.add s x) k i = S.add (S.removeIn s k i) x := by
      unfold removeIn add
      by_cases hk : S.key x = k
      · subst hk
        rw [Bookshelf.vector_insert, if_pos rfl, insert_insert, Bookshelf.vector_insert,
          if_pos rfl, insert_insert, removeFrom_insertInto_of_ne (hsort _) hi]
      · rw [Bookshelf.vector_insert, if_neg hk, Bookshelf.vector_insert, if_neg (Ne.symm hk),
          insert_comm s hk]
    rw [hrem]

/-- What is taken off and what is left are the shelf. -/
theorem all_removeById (hnd : (s.all.map S.id).Nodup) (i : Int) :
  s.all.Perm ((S.removeById s i).1.toList ++ (S.removeById s i).2.all)
  := by
  rcases removeById_cases S s i with ⟨heq, -⟩ | ⟨k, x, hx, hid, heq⟩
  · rw [heq]
    rfl
  · obtain ⟨y, hy, hyid, hp⟩ := all_removeIn ⟨x, hx, hid⟩
    obtain rfl := inj_on_of_nodup_map hnd (Bookshelf.mem_all.mpr ⟨k, hy⟩)
      (Bookshelf.mem_all.mpr ⟨k, hx⟩) (hyid.trans hid.symm)
    rw [heq]
    apply hp

theorem nodup_removeById (hnd : (s.all.map S.id).Nodup) (i : Int) :
  ((S.removeById s i).2.all.map S.id).Nodup
  := by
  have hp := ((all_removeById hnd i).map S.id).nodup_iff.mp hnd
  rw [map_append] at hp
  apply (nodup_append.mp hp).2.1

/-- An entry that is not taken off stays where it is. -/
theorem mem_vector_removeIn {j : Int} (hx : x ∈ s.vector k) (hid : S.id x ≠ j) :
  x ∈ (S.removeIn s k' j).vector k
  := by
  rw [removeIn, Bookshelf.vector_insert]
  split_ifs with hk
  · subst hk
    apply (mem_eraseP_of_neg (by simpa using hid)).mpr hx
  · apply hx

omit [DecidableEq κ] in
/-- The keys stay when an entry is taken off. -/
theorem mem_removeById (h : k ∈ s) :
  k ∈ (S.removeById s i).2
  := by
  rcases removeById_cases S s i with ⟨heq, -⟩ | ⟨k', x, -, -, heq⟩
  · rw [heq]
    apply h
  · rw [heq]
    apply Std.ExtTreeMap.mem_insert.mpr (Or.inr h)

/-- Entries are taken off in any order. -/
theorem removeById_comm (hnd : (s.all.map S.id).Nodup) {j : Int} (hne : i ≠ j) :
  (S.removeById (S.removeById s i).2 j).2 = (S.removeById (S.removeById s j).2 i).2
  := by
  have hnodup_i := nodup_removeById hnd i
  have hnodup_j := nodup_removeById hnd j
  rcases removeById_cases S s i with ⟨heq, hn⟩ | ⟨k, x, hx, hid, heq⟩
  · have hgone : S.removeById (S.removeById s j).2 i = (none, (S.removeById s j).2) := by
      apply removeById_of_not_mem
      intro y hy
      apply hn y
      apply (all_removeById hnd j).mem_iff.mpr (mem_append_right _ hy)
    rw [hgone, heq]
  rcases removeById_cases S s j with ⟨heq', hn'⟩ | ⟨k', y, hy, hid', heq'⟩
  · have hgone : S.removeById (S.removeById s i).2 j = (none, (S.removeById s i).2) := by
      apply removeById_of_not_mem
      intro z hz
      apply hn' z
      apply (all_removeById hnd i).mem_iff.mpr (mem_append_right _ hz)
    rw [hgone, heq']
  · rw [heq] at hnodup_i ⊢
    rw [heq'] at hnodup_j ⊢
    rw [removeById_of_mem hnodup_i (mem_vector_removeIn hy (by omega)) hid',
      removeById_of_mem hnodup_j (mem_vector_removeIn hx (by omega)) hid]
    unfold removeIn
    by_cases hk : k = k'
    · subst hk
      rw [Bookshelf.vector_insert, if_pos rfl, insert_insert, Bookshelf.vector_insert,
        if_pos rfl, insert_insert]
      unfold removeFrom
      rw [eraseP_comm]
      intro z _
      by_cases hz : S.id z = i
      · right
        simpa [hz] using hne
      · left
        simpa using hz
    · rw [Bookshelf.vector_insert, if_neg hk, Bookshelf.vector_insert, if_neg (Ne.symm hk),
        insert_comm s hk]

/-- Filing back an entry that was taken off gives the same shelf exactly when it was under its
own key, and those that follow it have a greater priority number. -/
theorem add_removeById_iff (hnd : (s.all.map S.id).Nodup) (hsort : S.Sorted s)
    (hx : x ∈ s.vector (S.key x)) :
  S.add (S.removeById s (S.id x)).2 x = s ↔ S.Closes s (S.id x)
  := by
  have hvec : ((s.vector (S.key x)).map S.id).Nodup := by
    have hsp := ((s.all_perm (S.key x)).map S.id).nodup_iff.mp hnd
    rw [map_append] at hsp
    apply (nodup_append.mp hsp).1
  have hiff := insertInto_removeFrom_iff (hsort (S.key x)) hvec hx rfl
  rw [removeById_of_mem hnd hx rfl, removeIn, add, Bookshelf.vector_insert, if_pos rfl,
    insert_insert]
  constructor
  · intro heq k
    by_cases hk : S.key x = k
    · subst hk
      rw [← hiff]
      have hvectors := congrArg (fun t => Bookshelf.vector t (S.key x)) heq
      simpa using hvectors
    · apply pairwise_of_forall_mem_list
      intro y hy z _ hid
      apply absurd (key_eq_of_nodup hnd hx hy hid.symm) hk
  · intro h
    rw [hiff.mpr (h _), insert_vector (mem_of_mem_vector hx)]

omit [DecidableEq κ] in
theorem closes_of_not_mem (h : ∀ x ∈ s.all, S.id x ≠ i) :
  S.Closes s i
  := by
  intro k
  apply pairwise_of_forall_mem_list
  intro x hx y _ hid
  apply absurd hid (h x (Bookshelf.mem_all.mpr ⟨k, hx⟩))

theorem Closes.removeById (h : S.Closes s i) (j : Int) :
  S.Closes (S.removeById s j).2 i
  := by
  intro k
  rcases removeById_cases S s j with ⟨heq, -⟩ | ⟨k', x, -, -, heq⟩
  · rw [heq]
    apply h k
  · rw [heq, removeIn, Bookshelf.vector_insert]
    split_ifs
    · apply (h k').sublist (removeFrom_sublist _)
    · apply h k

/-- The entry that was filed is under its key. -/
theorem filedAt_add (h : ∀ y ∈ s.all, S.id y ≠ S.id x) :
  S.FiledAt (S.add s x) (S.id x)
  := by
  intro k y hy hid
  rw [add, Bookshelf.vector_insert] at hy
  split_ifs at hy with hk
  · rcases mem_cons.mp ((insertInto_perm _).mem_iff.mp hy) with rfl | hy
    · apply hk
    · apply absurd hid (h y (Bookshelf.mem_all.mpr ⟨_, hy⟩))
  · apply absurd hid (h y (Bookshelf.mem_all.mpr ⟨_, hy⟩))

theorem FiledAt.add (h : S.FiledAt s i) (hx : S.id x ≠ i) :
  S.FiledAt (S.add s x) i
  := by
  intro k y hy hid
  rw [Shelving.add, Bookshelf.vector_insert] at hy
  split_ifs at hy with hk
  · rcases mem_cons.mp ((insertInto_perm _).mem_iff.mp hy) with rfl | hy
    · apply absurd hid hx
    · rw [← hk]
      apply h _ y hy hid
  · apply h k y hy hid

theorem FiledAt.removeById (h : S.FiledAt s i) (j : Int) :
  S.FiledAt (S.removeById s j).2 i
  := by
  intro k y hy hid
  rcases removeById_cases S s j with ⟨heq, -⟩ | ⟨k', x, -, -, heq⟩
  · rw [heq] at hy
    apply h k y hy hid
  · rw [heq] at hy
    apply h k y (mem_of_mem_removeIn hy) hid

end Shelves

end Shelving

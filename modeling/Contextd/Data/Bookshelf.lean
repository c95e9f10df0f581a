import Contextd.Data.OrdMap
import Mathlib.Data.List.Sort

/-!
# Shelves

A shelf keeps, for every key, a vector of entries, each with a key, an identifier and a priority, by
which the vectors are ordered (`Shelving`).  `add` files an entry under its key, and `removeIn` and
`removeById` look an identifier up under one key or under all of them.  `all_add`, `all_removeIn`
and `removeById_cases` say what they do to the entries as a whole.
-/

universe u v w

/-- The image of a part of a list, up to order, is a part of its image. -/
theorem List.Subperm.map_part {α : Type u} {β : Type v} {l₁ l₂ : List α} (h : l₁.Subperm l₂)
    (f : α → β) :
  (l₁.map f).Subperm (l₂.map f)
  := by
  obtain ⟨l, hperm, hsub⟩ := h
  use l.map f, hperm.map f, hsub.map f

/-- A part of a list without repetition has none. -/
theorem List.Subperm.nodup_part {α : Type u} {l₁ l₂ : List α} (h : l₁.Subperm l₂)
    (hnodup : l₂.Nodup) :
  l₁.Nodup
  := by
  obtain ⟨l, hperm, hsub⟩ := h
  apply hperm.nodup_iff.mp (hnodup.sublist hsub)

/-- A vector of entries for every key. -/
abbrev Bookshelf (κ : Type u) (α : Type v) [Ord κ] := OrdMap κ (List α)

/-- The key, the identifier and the priority of an entry. -/
structure Shelving (κ : Type u) (α : Type v) where
  key : α → κ
  id : α → Int
  priority : α → Int

namespace Shelving

open List

variable {κ : Type u} {α : Type v} (S : Shelving κ α)

/-! ### Vectors -/

/-- Insert an entry before the first one of greater priority number. -/
def insertInto (x : α) (l : List α) : List α :=
  l.orderedInsert (fun a b => S.priority a < S.priority b) x

/-- Remove the first entry with an identifier. -/
def removeFrom (i : Int) (l : List α) : List α := l.eraseP fun x => S.id x == i

/-- The priority numbers of a vector do not decrease. -/
def Ordered (l : List α) : Prop := l.Pairwise fun a b => S.priority a ≤ S.priority b

variable {S} {x : α} {i : Int} {l : List α}

theorem insertInto_perm (l : List α) :
  (S.insertInto x l).Perm (x :: l)
  := perm_orderedInsert _ x l

/-- Insertion keeps a vector ordered. -/
theorem Ordered.insertInto (h : S.Ordered l) :
  S.Ordered (S.insertInto x l)
  := by
  induction l with
  | nil => apply pairwise_singleton
  | cons y l ih =>
    obtain ⟨hy, hl⟩ := pairwise_cons.mp h
    by_cases hlt : S.priority x < S.priority y
    · rw [Shelving.insertInto, orderedInsert_cons, if_pos hlt]
      apply pairwise_cons.mpr
      constructor
      · intro z hz
        rcases mem_cons.mp hz with rfl | hz
        · omega
        · have hyz := hy z hz
          omega
      · apply h
    · rw [Shelving.insertInto, orderedInsert_cons, if_neg hlt]
      apply pairwise_cons.mpr
      constructor
      · intro z hz
        rcases mem_cons.mp ((insertInto_perm l).mem_iff.mp hz) with rfl | hz
        · omega
        · apply hy z hz
      · apply ih hl

/-- An identifier that is there is removed once. -/
theorem removeFrom_perm (h : ∃ x ∈ l, S.id x = i) :
  ∃ x ∈ l, S.id x = i ∧ l.Perm (x :: S.removeFrom i l)
  := by
  obtain ⟨x, hx, hid⟩ := h
  obtain ⟨y, l₁, l₂, -, hy, rfl, hl⟩ :=
    exists_of_eraseP (p := fun x => S.id x == i) hx (by simpa using hid)
  use y, by simp, by simpa using hy
  rw [removeFrom, hl]
  apply perm_middle

theorem removeFrom_sublist (l : List α) :
  (S.removeFrom i l).Sublist l
  := eraseP_sublist

end Shelving

variable {κ : Type u} {α : Type v} [Ord κ] [Std.TransOrd κ]

namespace Bookshelf

open List

/-- The vector of a key, empty when there is none. -/
def vector (s : Bookshelf κ α) (k : κ) : List α := s.getD k []

/-- All the entries, by increasing key. -/
def all (s : Bookshelf κ α) : List α := s.toList.flatMap Prod.snd

/-- Append an entry to the vector of a key. -/
def push (s : Bookshelf κ α) (k : κ) (x : α) : Bookshelf κ α := s.insert k (s.vector k ++ [x])

/-- Apply a function to the entries under a key. -/
def mapAt (s : Bookshelf κ α) (k : κ) (f : α → α) : Bookshelf κ α := s.insert k ((s.vector k).map f)

theorem vector_eq (s : Bookshelf κ α) (k : κ) :
  s.vector k = s[k]?.getD []
  := Std.ExtTreeMap.getD_eq_getD_getElem?

/-- The vectors are listed without repetition. -/
theorem nodup_toList (s : Bookshelf κ α) :
  s.toList.Nodup
  := by
  apply List.Pairwise.imp _ s.distinct_keys_toList
  rintro kl kl' hne rfl
  apply hne
  simp

variable [Std.LawfulEqOrd κ] {s : Bookshelf κ α}

/-- A stored vector is the vector of its key. -/
theorem mem_toList_iff {k : κ} {l : List α} :
  (k, l) ∈ s.toList ↔ s[k]? = some l
  := Std.ExtTreeMap.mem_toList_iff_getElem?_eq_some

/-- The entries of the shelf are those of its vectors. -/
theorem mem_all {x : α} :
  x ∈ s.all ↔ ∃ k, x ∈ s.vector k
  := by
  constructor
  · intro hx
    obtain ⟨⟨k, l⟩, hm, hxl⟩ := mem_flatMap.mp hx
    use k
    rw [vector_eq, mem_toList_iff.mp hm]
    apply hxl
  · rintro ⟨k, hx⟩
    rw [vector_eq] at hx
    cases hl : s[k]? with
    | none =>
      rw [hl] at hx
      cases hx
    | some l =>
      rw [hl] at hx
      apply mem_flatMap.mpr
      use (k, l), mem_toList_iff.mpr hl
      apply hx

variable [DecidableEq κ]

/-- The vector of a key after another vector was stored. -/
@[simp]
theorem vector_insert (s : Bookshelf κ α) (k k' : κ) (l : List α) :
  vector (s.insert k l) k' = if k = k' then l else s.vector k'
  := by
  simp [vector, Std.ExtTreeMap.getD_insert]

/-- The entries under the other keys. -/
def others (s : Bookshelf κ α) (k : κ) : List α :=
  (s.toList.filter fun kl => kl.1 ≠ k).flatMap Prod.snd

/-- The stored vectors of a key are its vector. -/
theorem flatMap_filter_key (s : Bookshelf κ α) (k : κ) :
  (s.toList.filter fun kl : κ × List α => kl.1 = k).flatMap Prod.snd = s.vector k
  := by
  rw [vector_eq]
  cases hl : s[k]? with
  | none =>
    have hn : (s.toList.filter fun kl : κ × List α => kl.1 = k) = [] := by
      rw [filter_eq_nil_iff]
      rintro ⟨k', l⟩ hm hk
      obtain rfl : k' = k := by simpa using hk
      rw [mem_toList_iff, hl] at hm
      cases hm
    rw [hn]
    rfl
  | some l =>
    have hone : (s.toList.filter fun kl : κ × List α => kl.1 = k).Perm [(k, l)] := by
      rw [perm_ext_iff_of_nodup (s.nodup_toList.filter _) (nodup_singleton _)]
      rintro ⟨k', l'⟩
      simp only [mem_filter, mem_toList_iff, mem_singleton, Prod.mk.injEq, decide_eq_true_eq]
      constructor
      · rintro ⟨hl', rfl⟩
        rw [hl] at hl'
        use rfl, (Option.some.inj hl').symm
      · rintro ⟨rfl, rfl⟩
        use hl
    rw [perm_singleton.mp hone]
    simp

/-- The entries of the shelf are those under a key and the others. -/
theorem all_perm (s : Bookshelf κ α) (k : κ) :
  s.all.Perm (s.vector k ++ s.others k)
  := by
  have hsplit := (filter_append_perm (fun kl : κ × List α => kl.1 = k) s.toList).symm
  have hflat := hsplit.flatMap_right Prod.snd
  rw [flatMap_append, flatMap_filter_key] at hflat
  simpa [all, others] using hflat

/-- Storing a vector leaves the entries under the other keys. -/
theorem others_insert (s : Bookshelf κ α) (k : κ) (l : List α) :
  (others (s.insert k l) k).Perm (s.others k)
  := by
  apply List.Perm.flatMap_right
  rw [perm_ext_iff_of_nodup ((nodup_toList _).filter _) (s.nodup_toList.filter _)]
  rintro ⟨k', l'⟩
  simp only [mem_filter, mem_toList_iff, decide_eq_true_eq]
  constructor
  · rintro ⟨hl, hk⟩
    rw [Std.ExtTreeMap.getElem?_insert, if_neg] at hl
    · use hl
    · simpa using Ne.symm hk
  · rintro ⟨hl, hk⟩
    rw [Std.ExtTreeMap.getElem?_insert, if_neg]
    · use hl
    · simpa using Ne.symm hk

/-- The entries after a vector was stored. -/
theorem all_insert (s : Bookshelf κ α) (k : κ) (l : List α) :
  (all (s.insert k l)).Perm (l ++ s.others k)
  := by
  have hall := all_perm (s.insert k l) k
  rw [vector_insert, if_pos rfl] at hall
  apply hall.trans
  apply List.Perm.append_left _ (others_insert s k l)

/-- Appending an entry adds it. -/
theorem all_push (s : Bookshelf κ α) (k : κ) (x : α) :
  (s.push k x).all.Perm (x :: s.all)
  := by
  apply (all_insert s k _).trans
  have hmiddle : (s.vector k ++ [x] ++ s.others k).Perm (x :: (s.vector k ++ s.others k)) := by
    rw [append_assoc]
    apply perm_middle
  apply hmiddle.trans
  apply List.Perm.cons x (s.all_perm k).symm

/-- Applying a function to the entries under a key leaves what it does not change. -/
theorem map_all_mapAt {β : Type v} (s : Bookshelf κ α) (k : κ) {f : α → α} {g : α → β}
    (h : ∀ x ∈ s.vector k, g (f x) = g x) :
  ((s.mapAt k f).all.map g).Perm (s.all.map g)
  := by
  have hvec : ((s.vector k).map f).map g = (s.vector k).map g := by
    rw [map_map]
    apply map_congr_left
    apply h
  have hleft := (all_insert s k ((s.vector k).map f)).map g
  have hrt := (s.all_perm k).map g
  rw [map_append, hvec] at hleft
  rw [map_append] at hrt
  apply hleft.trans hrt.symm

/-- The entries after a change under a key are those there were, or changed ones. -/
theorem mem_all_mapAt {s : Bookshelf κ α} {k : κ} {f : α → α} {x : α} (h : x ∈ (s.mapAt k f).all) :
  x ∈ s.all ∨ ∃ y ∈ s.all, f y = x
  := by
  rcases mem_append.mp ((all_insert s k _).mem_iff.mp h) with h | h
  · obtain ⟨y, hy, heq⟩ := mem_map.mp h
    right
    use y, mem_all.mpr ⟨k, hy⟩
  · left
    apply (s.all_perm k).mem_iff.mpr
    apply mem_append_right _ h

end Bookshelf

namespace Shelving

open List

variable (S : Shelving κ α)

/-! ### Operations -/

/-- File an entry under its key. -/
def add (s : Bookshelf κ α) (x : α) : Bookshelf κ α :=
  s.insert (S.key x) (S.insertInto x (s.vector (S.key x)))

/-- Remove the first entry with an identifier under a key. -/
def removeIn (s : Bookshelf κ α) (k : κ) (i : Int) : Bookshelf κ α :=
  s.insert k (S.removeFrom i (s.vector k))

/-- Remove the first entry with an identifier, under any key, and return it. -/
def removeById (s : Bookshelf κ α) (i : Int) : Option α × Bookshelf κ α :=
  match s.toList.find? fun kl => kl.2.any fun x => S.id x == i with
  | none => (none, s)
  | some (k, l) => (l.find? fun x => S.id x == i, s.insert k (S.removeFrom i l))

/-- The first entry with an identifier, under any key. -/
def find? (s : Bookshelf κ α) (i : Int) : Option α := s.all.find? fun x => S.id x == i

/-- Every entry is under its own key. -/
def Filed (s : Bookshelf κ α) : Prop := ∀ k, ∀ x ∈ s.vector k, S.key x = k

/-- Every vector is ordered. -/
def Sorted (s : Bookshelf κ α) : Prop := ∀ k, S.Ordered (s.vector k)

variable {S} {s : Bookshelf κ α} {x : α} {k : κ} {i : Int}

/-- Where identifiers occur once, the entry found is the one that has the identifier. -/
theorem find?_eq_some_iff_of_nodup (hnodup : (s.all.map S.id).Nodup) :
  S.find? s i = some x ↔ x ∈ s.all ∧ S.id x = i
  := by
  constructor
  · intro h
    use mem_of_find?_eq_some h
    simpa using List.find?_some h
  · rintro ⟨hx, hid⟩
    obtain ⟨y, hy⟩ : ∃ y, S.find? s i = some y := by
      apply Option.isSome_iff_exists.mp
      apply List.find?_isSome.mpr
      use x, hx
      simpa using hid
    have hyid : S.id y = i := by simpa using List.find?_some hy
    have hxy : x = y :=
      inj_on_of_nodup_map hnodup hx (mem_of_find?_eq_some hy) (hid.trans hyid.symm)
    rw [hxy, hy]

variable [Std.LawfulEqOrd κ]

theorem Filed.mem_vector (h : S.Filed s) (hx : x ∈ s.all) :
  x ∈ s.vector (S.key x)
  := by
  obtain ⟨k, hk⟩ := Bookshelf.mem_all.mp hx
  rw [h k x hk]
  apply hk

/-! ### What the operations do to the entries -/

/-- Removing an identifier under all keys: there is none, or one entry that has it is
removed from its vector. -/
theorem removeById_cases (S : Shelving κ α) (s : Bookshelf κ α) (i : Int) :
  (S.removeById s i = (none, s) ∧ ∀ x ∈ s.all, S.id x ≠ i) ∨
    ∃ k x, x ∈ s.vector k ∧ S.id x = i ∧ S.removeById s i = (some x, S.removeIn s k i)
  := by
  unfold removeById
  cases hf : s.toList.find? fun kl => kl.2.any fun x => S.id x == i with
  | none =>
    left
    use rfl
    intro x hx hid
    obtain ⟨⟨k, l⟩, hm, hxl⟩ := mem_flatMap.mp hx
    have hn := List.find?_eq_none.mp hf (k, l) hm
    apply hn
    apply any_eq_true.mpr
    use x, hxl
    simpa using hid
  | some kl =>
    obtain ⟨k, l⟩ := kl
    right
    have hl : s.vector k = l := by
      rw [Bookshelf.vector_eq, Bookshelf.mem_toList_iff.mp (mem_of_find?_eq_some hf)]
      rfl
    have hs : (l.any fun x => S.id x == i) = true := by simpa using List.find?_some hf
    have hany := any_eq_true.mp hs
    obtain ⟨x, hx⟩ := Option.isSome_iff_exists.mp (List.find?_isSome.mpr hany)
    have hid := List.find?_some hx
    use k, x
    rw [hl]
    use mem_of_find?_eq_some hx, by simpa using hid
    simp only [hx, removeIn, hl]

variable [DecidableEq κ]

/-- Filing an entry adds it. -/
theorem all_add (s : Bookshelf κ α) (x : α) :
  (S.add s x).all.Perm (x :: s.all)
  := by
  apply (Bookshelf.all_insert s _ _).trans
  apply ((insertInto_perm _).append_right _).trans
  apply List.Perm.cons x (s.all_perm (S.key x)).symm

/-- Removing an identifier that is under the key removes one entry that has it. -/
theorem all_removeIn (h : ∃ x ∈ s.vector k, S.id x = i) :
  ∃ x ∈ s.vector k, S.id x = i ∧ s.all.Perm (x :: (S.removeIn s k i).all)
  := by
  obtain ⟨x, hx, hid, hperm⟩ := removeFrom_perm h
  use x, hx, hid
  apply (s.all_perm k).trans
  apply (hperm.append_right (s.others k)).trans
  apply List.Perm.cons x (Bookshelf.all_insert s k _).symm

/-- Entries are not added by a removal. -/
theorem mem_of_mem_removeIn {k' : κ} (h : x ∈ (S.removeIn s k i).vector k') :
  x ∈ s.vector k'
  := by
  rw [removeIn, Bookshelf.vector_insert] at h
  split at h
  · rename_i hk
    rw [← hk]
    apply (removeFrom_sublist _).subset h
  · apply h

/-- Where identifiers occur once, one that was removed under a key that had it is gone. -/
theorem not_mem_removeIn (hnodup : (s.all.map S.id).Nodup) (h : ∃ x ∈ s.vector k, S.id x = i) :
  ∀ x ∈ (S.removeIn s k i).all, S.id x ≠ i
  := by
  obtain ⟨y, -, hy, hperm⟩ := all_removeIn h
  have hids := (hperm.map S.id).nodup_iff.mp hnodup
  obtain ⟨hnot, -⟩ := nodup_cons.mp hids
  intro x hx hid
  apply hnot
  apply mem_map.mpr
  use x, hx, hid.trans hy.symm

/-- Where identifiers occur once, one that was removed is gone. -/
theorem not_mem_removeById (hnodup : (s.all.map S.id).Nodup) :
  ∀ x ∈ (S.removeById s i).2.all, S.id x ≠ i
  := by
  rcases removeById_cases S s i with ⟨heq, hn⟩ | ⟨k, y, hy, hid, heq⟩
  · rw [heq]
    apply hn
  · rw [heq]
    apply not_mem_removeIn hnodup ⟨y, hy, hid⟩

/-! ### Filing and order -/

theorem Filed.add (h : S.Filed s) (x : α) :
  S.Filed (S.add s x)
  := by
  intro k y hy
  rw [Shelving.add, Bookshelf.vector_insert] at hy
  split at hy
  · rename_i hk
    rcases mem_cons.mp ((insertInto_perm _).mem_iff.mp hy) with rfl | hy
    · apply hk
    · rw [← hk]
      apply h _ y hy
  · apply h k y hy

theorem Filed.push (h : S.Filed s) (x : α) :
  S.Filed (s.push (S.key x) x)
  := by
  intro k y hy
  rw [Bookshelf.push, Bookshelf.vector_insert] at hy
  split at hy
  · rename_i hk
    rcases mem_append.mp hy with hy | hy
    · rw [← hk]
      apply h _ y hy
    · rw [mem_singleton.mp hy]
      apply hk
  · apply h k y hy

theorem Filed.removeIn (h : S.Filed s) (k : κ) (i : Int) :
  S.Filed (S.removeIn s k i)
  := by
  intro k' y hy
  apply h k' y (mem_of_mem_removeIn hy)

theorem Filed.mapAt (h : S.Filed s) {f : α → α} (hf : ∀ x ∈ s.vector k, S.key (f x) = k) :
  S.Filed (s.mapAt k f)
  := by
  intro k' y hy
  rw [Bookshelf.mapAt, Bookshelf.vector_insert] at hy
  split at hy
  · rename_i hk
    obtain ⟨z, hz, rfl⟩ := mem_map.mp hy
    rw [← hk]
    apply hf z hz
  · apply h k' y hy

theorem Sorted.add (h : S.Sorted s) (x : α) :
  S.Sorted (S.add s x)
  := by
  intro k
  rw [Shelving.add, Bookshelf.vector_insert]
  split
  · apply (h _).insertInto
  · apply h k

theorem Sorted.push (h : S.Sorted s) (hx : ∀ y ∈ s.vector k, S.priority y ≤ S.priority x) :
  S.Sorted (s.push k x)
  := by
  intro k'
  rw [Bookshelf.push, Bookshelf.vector_insert]
  split
  · apply pairwise_append.mpr
    use h k, pairwise_singleton _ _
    intro y hy z hz
    rw [mem_singleton.mp hz]
    apply hx y hy
  · apply h k'

theorem Sorted.removeIn (h : S.Sorted s) (k : κ) (i : Int) :
  S.Sorted (S.removeIn s k i)
  := by
  intro k'
  rw [Shelving.removeIn, Bookshelf.vector_insert]
  split
  · apply (h k).sublist (removeFrom_sublist _)
  · apply h k'

theorem Sorted.mapAt (h : S.Sorted s) {f : α → α} (hf : ∀ x, S.priority (f x) = S.priority x) :
  S.Sorted (s.mapAt k f)
  := by
  intro k'
  rw [Bookshelf.mapAt, Bookshelf.vector_insert]
  split
  · apply pairwise_map.mpr
    simp only [hf]
    apply h k
  · apply h k'

/-- The entries with a key are those under it. -/
theorem Filed.filter_all (h : S.Filed s) (k : κ) :
  (s.all.filter (S.key · = k)).Perm (s.vector k)
  := by
  have hin : (s.vector k).filter (S.key · = k) = s.vector k := by
    apply filter_eq_self.mpr
    intro x hx
    simpa using h k x hx
  have hout : (s.others k).filter (S.key · = k) = [] := by
    apply filter_eq_nil_iff.mpr
    intro x hx
    obtain ⟨⟨k', l⟩, hm, hxl⟩ := mem_flatMap.mp hx
    obtain ⟨hm, hk⟩ := mem_filter.mp hm
    have hkey : S.key x = k' := by
      apply h k' x
      rw [Bookshelf.vector_eq, Bookshelf.mem_toList_iff.mp hm]
      apply hxl
    rw [hkey]
    simpa using hk
  have hperm := (s.all_perm k).filter (S.key · = k)
  rw [filter_append, hin, hout, append_nil] at hperm
  apply hperm

/-! ### Keys and identifiers -/

variable (S) in
/-- The key and the identifier of an entry. -/
def tag (x : α) : κ × Int := (S.key x, S.id x)

variable (S) in
/-- The keys and identifiers of the entries. -/
def tags (s : Bookshelf κ α) : List (κ × Int) := s.all.map S.tag

omit [Std.LawfulEqOrd κ] [DecidableEq κ] in
theorem map_snd_tags (s : Bookshelf κ α) :
  (S.tags s).map Prod.snd = s.all.map S.id
  := map_map

theorem tags_add (s : Bookshelf κ α) (x : α) :
  (S.tags (S.add s x)).Perm (S.tag x :: S.tags s)
  := (all_add s x).map S.tag

/-- Removing under a key takes entries away. -/
theorem all_removeIn_subperm (s : Bookshelf κ α) (k : κ) (i : Int) :
  (S.removeIn s k i).all.Subperm s.all
  := by
  have hsub : (S.removeFrom i (s.vector k) ++ s.others k).Sublist
      (s.vector k ++ s.others k) := (removeFrom_sublist _).append (List.Sublist.refl _)
  apply (Bookshelf.all_insert s k _).subperm.trans
  apply hsub.subperm.trans (s.all_perm k).symm.subperm

/-- Removing an identifier that is under the key takes one tag away. -/
theorem Filed.tags_removeIn (h : S.Filed s) (hx : S.tag x ∈ S.tags s) :
  (S.tags s).Perm (S.tag x :: S.tags (S.removeIn s (S.key x) (S.id x)))
  := by
  obtain ⟨y, hy, htag⟩ := mem_map.mp hx
  obtain ⟨hkey, hid⟩ := Prod.mk.inj htag
  have hm : y ∈ s.vector (S.key x) := hkey ▸ h.mem_vector hy
  obtain ⟨z, hz, hzid, hperm⟩ := all_removeIn ⟨y, hm, hid⟩
  have hztag : S.tag z = S.tag x := by rw [tag, h _ z hz, hzid, tag]
  have htags := hperm.map S.tag
  rw [map_cons, hztag] at htags
  apply htags

/-- An entry is replaced by one with the same tag. -/
theorem Filed.tags_replace (h : S.Filed s) (hx : S.tag x ∈ S.tags s) :
  (S.tags (S.add (S.removeIn s (S.key x) (S.id x)) x)).Perm (S.tags s)
  := (tags_add _ x).trans (h.tags_removeIn hx).symm

/-! ### Replacing entries -/

variable (S) in
/-- The shelf `s'` has the entry `y`, or none, in the place of the entry `x` of `s`. -/
structure Replaces (s : Bookshelf κ α) (x : α) (s' : Bookshelf κ α) (y : Option α) : Prop where
  filed : S.Filed s'
  all : ∃ rest, s.all.Perm (x :: rest) ∧ s'.all.Perm (y.toList ++ rest)
  id : ∀ z ∈ y, S.id z = S.id x

variable {s' : Bookshelf κ α} {y z : α} {y? : Option α}

omit [Std.LawfulEqOrd κ] [DecidableEq κ] in
/-- An entry is in its own place. -/
theorem Replaces.refl (h : S.Filed s) (hx : x ∈ s.all) :
  S.Replaces s x s (some x)
  := by
  obtain ⟨before, after, hsplit⟩ := append_of_mem hx
  have hperm : s.all.Perm (x :: (before ++ after)) := hsplit ▸ perm_middle
  refine ⟨h, ⟨before ++ after, hperm, hperm⟩, ?_⟩
  rintro _ ⟨⟩
  rfl

omit [Std.LawfulEqOrd κ] [DecidableEq κ] in
/-- The identifiers that are left are among those there were. -/
theorem Replaces.ids_subperm (h : S.Replaces s x s' y?) :
  (s'.all.map S.id).Subperm (s.all.map S.id)
  := by
  obtain ⟨rest, hs, hs'⟩ := h.all
  apply (hs'.map S.id).subperm.trans
  apply List.Subperm.trans _ (hs.map S.id).symm.subperm
  cases y? with
  | none => apply (sublist_cons_self _ _).subperm
  | some y =>
    simp only [Option.toList_some, singleton_append, map_cons, h.id y rfl]
    apply List.Subperm.refl

/-- The entry in the place is replaced by one with its tag. -/
theorem Replaces.replace (h : S.Replaces s x s' (some y)) (hnodup : (s.all.map S.id).Nodup)
    (hz : S.tag z = S.tag y) :
  S.Replaces s x (S.add (S.removeIn s' (S.key z) (S.id z)) z) (some z)
  := by
  obtain ⟨hkey, hid⟩ := Prod.mk.inj hz
  obtain ⟨rest, hs, hs'⟩ := h.all
  have hy : y ∈ s'.all := hs'.mem_iff.mpr mem_cons_self
  have hvec : y ∈ s'.vector (S.key z) := hkey ▸ h.filed.mem_vector hy
  obtain ⟨w, hw, hwid, hperm⟩ := all_removeIn ⟨y, hvec, hid.symm⟩
  obtain rfl : w = y := by
    apply inj_on_of_nodup_map (h.ids_subperm.nodup_part hnodup)
    · apply Bookshelf.mem_all.mpr ⟨_, hw⟩
    · apply hy
    · apply hwid.trans hid
  refine ⟨(h.filed.removeIn _ _).add _, ⟨rest, hs, ?_⟩, ?_⟩
  · apply (all_add _ z).trans
    apply List.Perm.cons z (List.Perm.cons_inv (hperm.symm.trans hs'))
  · rintro _ ⟨⟩
    apply hid.trans (h.id _ rfl)

/-- Removing the identifier leaves the place empty. -/
theorem Replaces.remove (h : S.Replaces s x s' y?) (hnodup : (s.all.map S.id).Nodup) :
  S.Replaces s x (S.removeById s' (S.id x)).2 none
  := by
  have hnodup' := h.ids_subperm.nodup_part hnodup
  obtain ⟨rest, hs, hs'⟩ := h.all
  have hrest : ∀ w ∈ rest, S.id w ≠ S.id x := by
    have hids := (hs.map S.id).nodup_iff.mp hnodup
    intro w hw hid
    apply (nodup_cons.mp hids).1
    rw [← hid]
    apply mem_map_of_mem hw
  have hn : ∀ z, z ∉ (none : Option α) := by simp
  rcases removeById_cases S s' (S.id x) with ⟨heq, habsent⟩ | ⟨k, w, hw, hwid, heq⟩
  · rw [heq]
    cases y? with
    | none => apply h
    | some y =>
      apply absurd (h.id y rfl)
      apply habsent y (hs'.mem_iff.mpr mem_cons_self)
  · rw [heq]
    obtain ⟨v, hv, hvid, hperm⟩ := all_removeIn ⟨w, hw, hwid⟩
    have hvmem := hs'.mem_iff.mp (Bookshelf.mem_all.mpr ⟨k, hv⟩)
    refine ⟨h.filed.removeIn _ _, ⟨rest, hs, ?_⟩, fun z hz => absurd hz (hn z)⟩
    cases y? with
    | none => apply absurd hvid (hrest v hvmem)
    | some y =>
      rcases mem_cons.mp hvmem with rfl | hvmem
      · apply List.Perm.cons_inv (hperm.symm.trans hs')
      · apply absurd hvid (hrest v hvmem)

omit [Std.LawfulEqOrd κ] [DecidableEq κ] in
/-- Replacing the entries of a shelf one after the other. -/
theorem foldl_replaces {σ : Type w} (proj : σ → Bookshelf κ α) {f : σ → α → σ}
    {g : α → Option α}
    (hf : ∀ t x, S.Filed (proj t) → ((proj t).all.map S.id).Nodup → x ∈ (proj t).all →
      S.Replaces (proj t) x (proj (f t x)) (g x))
    {xs done : List α} {t : σ} (hfiled : S.Filed (proj t))
    (hnodup : ((proj t).all.map S.id).Nodup) (hall : (proj t).all.Perm (xs ++ done)) :
  S.Filed (proj (xs.foldl f t)) ∧ (proj (xs.foldl f t)).all.Perm (xs.filterMap g ++ done) ∧
    ((proj (xs.foldl f t)).all.map S.id).Subperm ((proj t).all.map S.id)
  := by
  induction xs generalizing t done with
  | nil => exact ⟨hfiled, hall, List.Subperm.refl _⟩
  | cons x xs ih =>
    have hreplaces := hf t x hfiled hnodup (hall.mem_iff.mpr mem_cons_self)
    obtain ⟨rest, hs, hs'⟩ := hreplaces.all
    have hrest : rest.Perm (xs ++ done) := List.Perm.cons_inv (hs.symm.trans hall)
    have hall' : (proj (f t x)).all.Perm (xs ++ ((g x).toList ++ done)) := by
      apply hs'.trans
      apply (hrest.append_left _).trans
      rw [← append_assoc, ← append_assoc]
      apply perm_append_comm.append_right
    obtain ⟨hfiled', hperm, hids⟩ :=
      ih hreplaces.filed (hreplaces.ids_subperm.nodup_part hnodup) hall'
    refine ⟨hfiled', ?_, hids.trans hreplaces.ids_subperm⟩
    apply hperm.trans
    rw [filterMap_cons, ← append_assoc]
    apply List.Perm.append_right
    cases g x with
    | none => simp
    | some y => apply perm_append_comm

variable (S) in
/-- The shelf `s'` has what `g` makes of each entry of `s`. -/
structure Rewrites (s : Bookshelf κ α) (g : α → Option α) (s' : Bookshelf κ α) : Prop where
  filed : S.Filed s'
  all : s'.all.Perm (s.all.filterMap g)
  ids : (s'.all.map S.id).Subperm (s.all.map S.id)

omit [Std.LawfulEqOrd κ] [DecidableEq κ] in
theorem Rewrites.exists_of_mem {g : α → Option α} (h : S.Rewrites s g s') (hy : y ∈ s'.all) :
  ∃ x ∈ s.all, g x = some y
  := mem_filterMap.mp (h.all.mem_iff.mp hy)

omit [Std.LawfulEqOrd κ] [DecidableEq κ] in
/-- Replacing all the entries of a shelf. -/
theorem rewrites_foldl {σ : Type w} (proj : σ → Bookshelf κ α) {f : σ → α → σ}
    {g : α → Option α}
    (hf : ∀ t x, S.Filed (proj t) → ((proj t).all.map S.id).Nodup → x ∈ (proj t).all →
      S.Replaces (proj t) x (proj (f t x)) (g x))
    {t : σ} (hfiled : S.Filed (proj t)) (hnodup : ((proj t).all.map S.id).Nodup) :
  S.Rewrites (proj t) g (proj ((proj t).all.foldl f t))
  := by
  have hall : (proj t).all.Perm ((proj t).all ++ []) := append_nil _ ▸ List.Perm.refl _
  obtain ⟨hfiled', hperm, hids⟩ := foldl_replaces proj hf hfiled hnodup hall
  rw [append_nil] at hperm
  exact ⟨hfiled', hperm, hids⟩

end Shelving

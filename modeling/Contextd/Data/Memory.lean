import Contextd.Data.CString
import Mathlib.Data.List.Basic

/-!
# Blocks of memory

A block is the list of its bytes, with `none` for a byte that nothing was stored in yet.  `store` is
defined at the offsets of the block only, and `text` reads a string, if all the bytes that it reads
are in the block and were stored.  `storeAll_eq` says what a sequence of bytes leaves in the block,
and `storeAll_eq_none` when it does not fit.
-/

namespace Memory

open List

/-- The bytes of an allocated block. -/
abbrev Block := List (Option UInt8)

/-- A new block, in which nothing was stored. -/
def kmalloc (size : ℕ) : Block := List.replicate size none

/-- The block after a byte was stored, when the offset is inside. -/
def store (offset : ℤ) (b : UInt8) (m : Block) : Option Block :=
  if 0 ≤ offset ∧ offset < m.length then some (m.set offset.toNat (some b)) else none

/-- The block after bytes were stored one after the other. -/
def storeAll (offset : ℤ) : List UInt8 → Block → Option Block
  | [], m => some m
  | b :: bs, m => (store offset b m).bind (storeAll (offset + 1) bs)

/-- The string at the beginning of a block, when it ends and all its bytes were stored. -/
def text : Block → Option (List UInt8)
  | [] => none
  | none :: _ => none
  | some b :: m => if b = 0 then some [] else (text m).map (b :: ·)

/-- The bytes that `strncpy(dest, src, count)` stores: those of the string, and zeros. -/
def strncpyBytes (count : ℕ) (s : List UInt8) : List UInt8 :=
  strncpy count s ++ List.replicate (count - (cstring s).length) 0

variable {m m' : Block} {bs : List UInt8}

@[simp]
theorem length_kmalloc (size : ℕ) :
  (kmalloc size).length = size
  := length_replicate

/-! ### Stores -/

/-- A window of a block: what stands before it, in it and after it. -/
theorem eq_window {offset size : ℕ} (h : offset + size ≤ m.length) :
  ∃ pre old post, m = pre ++ (old ++ post) ∧ pre.length = offset ∧ old.length = size ∧
    m.take offset = pre ∧ m.drop (offset + size) = post
  := by
  refine ⟨m.take offset, (m.drop offset).take size, m.drop (offset + size), ?_, ?_, ?_, rfl,
    rfl⟩
  · rw [← drop_drop, take_append_drop, take_append_drop]
  · apply length_take_of_le (by omega)
  · rw [length_take, length_drop]
    omega

/-- Storing over a byte of the block. -/
theorem store_append (pre post : Block) (old : Option UInt8) (b : UInt8) :
  store pre.length b (pre ++ old :: post) = some (pre ++ some b :: post)
  := by
  have hin : (0 : ℤ) ≤ pre.length ∧ (pre.length : ℤ) < (pre ++ old :: post).length := by
    rw [length_append, length_cons]
    omega
  rw [store, if_pos hin, Int.toNat_natCast]
  simp

/-- Storing over bytes of the block. -/
theorem storeAll_append (pre post : Block) {old : Block} (h : old.length = bs.length) :
  storeAll pre.length bs (pre ++ (old ++ post)) = some (pre ++ (bs.map some ++ post))
  := by
  induction bs generalizing pre old with
  | nil =>
    obtain rfl := length_eq_zero_iff.mp h
    rfl
  | cons b bs ih =>
    rcases old with _ | ⟨c, old⟩
    · cases h
    have ih := ih (pre ++ [some b]) (Nat.succ.inj h)
    rw [length_append, length_singleton, Int.natCast_add] at ih
    rw [storeAll, cons_append, store_append, Option.bind_some]
    simpa using ih

/-- What bytes that fit leave in the block. -/
theorem storeAll_eq {offset : ℕ} (h : offset + bs.length ≤ m.length) :
  storeAll offset bs m =
    some (m.take offset ++ (bs.map some ++ m.drop (offset + bs.length)))
  := by
  obtain ⟨pre, old, post, hm, rfl, hold, hpre, hpost⟩ := eq_window h
  rw [hpre, hpost, hm]
  apply storeAll_append pre post hold

/-- Bytes over the whole block. -/
theorem storeAll_of_length_eq (h : m.length = bs.length) :
  storeAll 0 bs m = some (bs.map some)
  := by
  simpa using storeAll_append [] [] h

/-- A store outside of the block. -/
theorem store_eq_none {offset : ℤ} {b : UInt8} (h : offset < 0 ∨ m.length ≤ offset) :
  store offset b m = none
  := by
  rw [store, if_neg (by omega)]

/-- The length of a block does not change. -/
theorem length_of_store {offset : ℤ} {b : UInt8} (h : store offset b m = some m') :
  m'.length = m.length
  := by
  rw [store, Option.ite_none_right_eq_some] at h
  obtain ⟨-, h⟩ := h
  obtain rfl := Option.some.inj h
  apply length_set

/-- Bytes that go beyond the end of the block cannot be stored. -/
theorem storeAll_eq_none {offset : ℤ} (hbs : bs ≠ []) (h : m.length < offset + bs.length) :
  storeAll offset bs m = none
  := by
  induction bs generalizing offset m with
  | nil => apply absurd rfl hbs
  | cons b bs ih =>
    rw [storeAll, Option.bind_eq_none_iff]
    intro m' hm'
    by_cases hnil : bs = []
    · subst hnil
      rw [store_eq_none (by right; simp at h; omega)] at hm'
      cases hm'
    · apply ih hnil
      rw [length_of_store hm']
      simp only [length_cons] at h
      omega

/-- Bytes can be stored exactly when they fit. -/
theorem storeAll_isSome_iff {offset : ℕ} (hoffset : offset ≤ m.length) :
  (storeAll offset bs m).isSome ↔ offset + bs.length ≤ m.length
  := by
  constructor
  · intro h
    by_contra hle
    rw [storeAll_eq_none (by rintro rfl; simp at hle; omega) (by omega)] at h
    cases h
  · intro h
    rw [storeAll_eq h]
    rfl

theorem length_of_storeAll {offset : ℤ} (h : storeAll offset bs m = some m') :
  m'.length = m.length
  := by
  induction bs generalizing offset m with
  | nil =>
    obtain rfl := Option.some.inj h
    rfl
  | cons b bs ih =>
    obtain ⟨m₁, hm₁, h⟩ := Option.bind_eq_some_iff.mp h
    rw [ih h, length_of_store hm₁]

/-! ### Strings -/

/-- A string goes on after bytes that are not zero. -/
theorem text_map_append (hbs : ∀ b ∈ bs, b ≠ 0) (m : Block) :
  text (bs.map some ++ m) = (text m).map (bs ++ ·)
  := by
  induction bs with
  | nil => simp
  | cons b bs ih =>
    rw [forall_mem_cons] at hbs
    simp [text, hbs.1, ih hbs.2, Function.comp_def]

/-- The string at the beginning of a block. -/
theorem text_append (hbs : ∀ b ∈ bs, b ≠ 0) (m : Block) :
  text (bs.map some ++ some 0 :: m) = some bs
  := by
  simp [text_map_append hbs, text]

/-- A zero stored in or right after a string ends it there. -/
theorem text_set (hbs : ∀ b ∈ bs, b ≠ 0) (m : Block) {i : ℕ} (hi : i ≤ bs.length)
    (hlt : i < bs.length + m.length) :
  text ((bs.map some ++ m).set i (some 0)) = some (bs.take i)
  := by
  induction bs generalizing i with
  | nil =>
    obtain rfl := Nat.le_zero.mp hi
    rcases m with _ | ⟨b, m⟩
    · simp at hlt
    · simp [text]
  | cons b bs ih =>
    rw [forall_mem_cons] at hbs
    rcases i with _ | i
    · simp [text]
    · simp only [length_cons] at hi hlt
      simp [text, hbs.1, ih hbs.2 (by omega : i ≤ bs.length) (by omega)]

/-- A string that is read has no zero. -/
theorem ne_zero_of_text (h : text m = some bs) :
  ∀ b ∈ bs, b ≠ 0
  := by
  induction m generalizing bs with
  | nil => cases h
  | cons b m ih =>
    rcases b with _ | b
    · cases h
    rw [text] at h
    split_ifs at h with hb
    · obtain rfl := Option.some.inj h
      simp
    · obtain ⟨bs', hbs', rfl⟩ := Option.map_eq_some_iff.mp h
      rw [forall_mem_cons]
      exact ⟨hb, ih hbs'⟩

/-- `strncpy` of a string that is not longer than the count stores the string and zeros. -/
theorem strncpyBytes_eq {count : ℕ} (hbs : ∀ b ∈ bs, b ≠ 0) (h : bs.length ≤ count) :
  strncpyBytes count bs = bs ++ List.replicate (count - bs.length) 0
  := by
  rw [strncpyBytes, strncpy_eq, cstring_eq_self hbs, take_of_length_le h]

/-- `strncpy` stores `count` bytes. -/
theorem length_strncpyBytes (count : ℕ) (s : List UInt8) :
  (strncpyBytes count s).length = count
  := by
  rw [strncpyBytes, strncpy_eq, length_append, length_take, length_replicate]
  omega

end Memory

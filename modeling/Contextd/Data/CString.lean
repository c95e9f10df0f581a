import Mathlib.Data.List.TakeWhile

/-!
# Strings of bytes that end at a zero

A C string in memory is a list of bytes; its text (`cstring`) is what stands before the
first zero.  `strncpy` keeps at most `n` bytes of the text and `strncmpEq` compares at most
`n` bytes of two texts: it holds exactly when `strncpy` copies the same bytes of both
(`strncmpEq_iff`).
-/

/-- The bytes of a string before its terminator. -/
def cstring (s : List UInt8) : List UInt8 := s.takeWhile (· ≠ 0)

/-- The bytes of a string before its terminator, at most `n` of them: what `strncpy` into
an array of `n` bytes stores, without the padding. -/
def strncpy (n : ℕ) (s : List UInt8) : List UInt8 :=
  (s.takeWhile (· ≠ 0)).take n

/-- `strncmp(s, t, n) == 0`, where a string ends at its first zero byte or its last byte. -/
def strncmpEq : ℕ → List UInt8 → List UInt8 → Bool
  | 0, _, _ => true
  | n + 1, s, t =>
      s.headD 0 == t.headD 0 && (s.headD 0 == 0 || strncmpEq n s.tail t.tail)

/-! ### Texts -/

/-- A text has no zero. -/
theorem ne_zero_of_mem_cstring {s : List UInt8} {b : UInt8} (h : b ∈ cstring s) :
  b ≠ 0
  := by
  simpa using List.mem_takeWhile_imp h

/-- A list without a zero is its own text. -/
theorem cstring_eq_self {s : List UInt8} (h : ∀ b ∈ s, b ≠ 0) :
  cstring s = s
  := by
  simpa [cstring, List.takeWhile_eq_self_iff] using h

/-- A beginning of a text is its own text. -/
@[simp]
theorem cstring_take_cstring (n : ℕ) (s : List UInt8) :
  cstring ((cstring s).take n) = (cstring s).take n
  := cstring_eq_self fun _ h => ne_zero_of_mem_cstring (List.mem_of_mem_take h)

/-! ### Copies -/

/-- `strncpy` keeps a beginning of the text. -/
theorem strncpy_eq (n : ℕ) (s : List UInt8) :
  strncpy n s = (cstring s).take n
  := rfl

/-- A copy of a copy keeps the shorter length. -/
@[simp]
theorem strncpy_strncpy (m n : ℕ) (s : List UInt8) :
  strncpy m (strncpy n s) = strncpy (min m n) s
  := by
  rw [strncpy_eq, strncpy_eq, cstring_take_cstring, List.take_take, strncpy_eq]

/-- A text that is shorter than the array is what is copied exactly when it is the text of
the string. -/
theorem strncpy_eq_iff_of_length_lt {n : ℕ} {s t : List UInt8} (h : t.length < n) :
  strncpy n s = t ↔ cstring s = t
  := by
  constructor
  · rintro rfl
    rw [strncpy_eq, List.length_take] at h
    symm
    apply List.take_of_length_le
    simp only [cstring] at h ⊢
    omega
  · rintro rfl
    apply List.take_of_length_le (Nat.le_of_lt h)

/-! ### Comparison -/

/-- Two strings compare equal over `n` bytes exactly when the same bytes of both are
copied. -/
theorem strncmpEq_iff {n : ℕ} {s t : List UInt8} :
  strncmpEq n s t = true ↔ strncpy n s = strncpy n t
  := by
  induction n generalizing s t with
  | zero => simp [strncmpEq, strncpy]
  | succ n ih =>
    rcases s with _ | ⟨a, s⟩ <;> rcases t with _ | ⟨b, t⟩
    · simp [strncmpEq]
    · by_cases hb : b = 0
      · simp [strncmpEq, strncpy, hb]
      · simp [strncmpEq, strncpy, hb, Ne.symm hb]
    · by_cases ha : a = 0 <;> simp [strncmpEq, strncpy, ha]
    · by_cases ha : a = 0
      · by_cases hb : b = 0
        · simp [strncmpEq, strncpy, ha, hb]
        · simp [strncmpEq, strncpy, ha, hb, Ne.symm hb]
      · by_cases hb : b = 0
        · simp [strncmpEq, strncpy, ha, hb]
        · simp only [strncmpEq, List.headD_cons, List.tail_cons, Bool.and_eq_true, beq_iff_eq,
            Bool.or_eq_true, ha, false_or, ih]
          simp [strncpy, ha, hb]

/-- The entries of a list of copies that compare equal to a string are the copies of it. -/
theorem strncmpEq_iff_eq {n : ℕ} {s t : List UInt8} (h : strncpy n s = s) :
  strncmpEq n s t = true ↔ s = strncpy n t
  := by
  rw [strncmpEq_iff, h]

/-- A list of copies has an entry that compares equal to a string exactly when the copy of
the string is in it. -/
theorem any_strncmpEq_iff {n : ℕ} {l : List (List UInt8)} {t : List UInt8}
    (h : ∀ s ∈ l, strncpy n s = s) :
  (l.any fun s => strncmpEq n s t) = true ↔ strncpy n t ∈ l
  := by
  rw [List.any_eq_true]
  constructor
  · rintro ⟨s, hs, heq⟩
    rw [← (strncmpEq_iff_eq (h s hs)).mp heq]
    apply hs
  · intro hm
    exact ⟨strncpy n t, hm, (strncmpEq_iff_eq (h _ hm)).mpr rfl⟩

/-- Removing the first entry of a list of copies that compares equal to a string removes the
copy of the string. -/
theorem eraseP_strncmpEq {n : ℕ} {l : List (List UInt8)} {t : List UInt8}
    (h : ∀ s ∈ l, strncpy n s = s) :
  (l.eraseP fun s => strncmpEq n s t) = l.erase (strncpy n t)
  := by
  induction l with
  | nil => rfl
  | cons s l ih =>
    have hs := strncmpEq_iff_eq (t := t) (h s List.mem_cons_self)
    have ih := ih fun s hs => h s (List.mem_cons_of_mem _ hs)
    rw [List.eraseP_cons, List.erase_cons, ih]
    by_cases heq : s = strncpy n t
    · rw [hs.mpr heq, heq]
      simp
    · simp [mt hs.mp heq, heq]

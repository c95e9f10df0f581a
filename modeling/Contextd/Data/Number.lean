import Mathlib.Data.List.DropRight

/-!
# Decimal numbers

`QString::toInt` in base ten.  The text of a number of 32 bits is read back (`toInt?_repr`), and
nothing else is a number (`isInt_of_toInt?`).
-/

namespace QString

/-- A number of 32 bits. -/
def IsInt (n : Int) : Prop := -2147483648 ≤ n ∧ n ≤ 2147483647

instance (n : Int) : Decidable (IsInt n) := inferInstanceAs (Decidable (_ ∧ _))

/-- The value of a list of decimal digits that is not empty. -/
def digits? (cs : List Char) : Option ℕ :=
  if cs ≠ [] ∧ cs.all Char.isDigit then some (Nat.ofDigitChars 10 cs 0) else none

/-- The value of digits with or without a sign. -/
def signed? : List Char → Option Int
  | '-' :: cs => (digits? cs).map fun n : ℕ => -(n : Int)
  | '+' :: cs => (digits? cs).map Int.ofNat
  | cs => (digits? cs).map Int.ofNat

/-- `QString::toInt` with its flag: a decimal number of 32 bits, or nothing.  Blanks before and
after the number are skipped. -/
def toInt? (s : String) : Option Int :=
  (signed? ((s.toList.dropWhile Char.isWhitespace).rdropWhile Char.isWhitespace)).filter IsInt

theorem isInt_of_toInt? {s : String} {n : Int} (h : toInt? s = some n) :
  IsInt n
  := of_decide_eq_true (Option.filter_eq_some_iff.mp h).2

theorem digits?_toDigits (n : ℕ) :
  digits? (Nat.toDigits 10 n) = some n
  := by
  have hall : (Nat.toDigits 10 n).all Char.isDigit = true := by
    apply List.all_eq_true.mpr
    intro c hc
    apply Nat.isDigit_of_mem_toDigits (by decide) (by decide) hc
  rw [digits?, if_pos ⟨Nat.toDigits_ne_nil, hall⟩, Nat.ofDigitChars_ten_toDigits]

/-- The text of a number, without blanks. -/
theorem notMem_repr {c : Char} (hdig : c.isDigit = false) (hmin : c ≠ '-') (n : Int) :
  c ∉ n.repr.toList
  := by
  have hdigs : ∀ m, c ∉ Nat.toDigits 10 m := by
    intro m hc
    rw [Nat.isDigit_of_mem_toDigits (by decide) (by decide) hc] at hdig
    cases hdig
  cases n with
  | ofNat m => simpa [Int.repr, Nat.repr_eq_ofList_toDigits] using hdigs m
  | negSucc m => simpa [Int.repr, Nat.repr_eq_ofList_toDigits, hmin] using hdigs (m + 1)

theorem not_isWhitespace_of_mem_repr {c : Char} {n : Int} (hc : c ∈ n.repr.toList) :
  ¬c.isWhitespace
  := by
  intro hbl
  have hcs : ((c = ' ' ∨ c = '\t') ∨ c = '\r') ∨ c = '\n' := by
    simpa [Char.isWhitespace] using hbl
  obtain ((rfl | rfl) | rfl) | rfl := hcs <;> exact notMem_repr rfl (by decide) n hc

theorem signed?_repr (n : Int) :
  signed? n.repr.toList = some n
  := by
  cases n with
  | ofNat m =>
    have hdigs := digits?_toDigits m
    simp only [Int.repr, Nat.repr_eq_ofList_toDigits, String.toList_ofList]
    unfold signed?
    split
    next cs hcs =>
      rw [hcs] at hdigs
      cases hdigs
    next cs hcs =>
      rw [hcs] at hdigs
      cases hdigs
    next => rw [hdigs, Option.map_some]
  | negSucc m =>
    have ht : (Int.negSucc m).repr.toList = '-' :: Nat.toDigits 10 (m + 1) := by
      simp [Int.repr, Nat.repr_eq_ofList_toDigits]
    rw [ht, signed?, digits?_toDigits, Option.map_some]
    rfl

/-- The text of a number of 32 bits is read back. -/
theorem toInt?_repr {n : Int} (h : IsInt n) :
  toInt? n.repr = some n
  := by
  have hfr : n.repr.toList.dropWhile Char.isWhitespace = n.repr.toList := by
    apply List.dropWhile_eq_self_iff.mpr
    intro hl
    apply not_isWhitespace_of_mem_repr (List.getElem_mem hl)
  have hback : n.repr.toList.rdropWhile Char.isWhitespace = n.repr.toList := by
    apply List.rdropWhile_eq_self_iff.mpr
    intro hl
    apply not_isWhitespace_of_mem_repr (List.getLast_mem hl)
  rw [toInt?, hfr, hback, signed?_repr]
  apply Option.filter_eq_some_iff.mpr
  exact ⟨rfl, decide_eq_true h⟩

end QString

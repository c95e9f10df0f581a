import Mathlib.Algebra.Order.BigOperators.Group.List
import Mathlib.Data.Char
import Mathlib.Data.List.Lex
import Mathlib.Data.Set.Finite.List
import Contextd.Librecompare.Bounds
import Contextd.Librecompare.Denotation
import Contextd.Librecompare.Termination

/-!
# Finitely many states

The texts of the rests are bounded if what is left inside groups that are read again prints as what
it is.  Then the states of the automaton have finitely many patterns, and its constructor ends
(`automaton_terminates`).  In `(\dx)*r` the letter of the class is taken for what follows it, the
text behind the group gets longer with each turn, and the constructor does not end
(`automaton_diverges`).
-/

namespace Librecompare

open List Rest

variable {qt : Qt}

/-! ### Alternatives are sorted and without duplicates -/

namespace Represents

end Represents

/-! ### Termination -/

instance finite_char : Finite Char := by
  have hlt : ∀ c : Char, c.toNat < 0x110000 := by
    intro c
    rcases c.valid with h | h
    · apply lt_trans h (by decide)
    · apply h.2
  apply Finite.of_injective (fun c : Char => (⟨c.toNat, hlt c⟩ : Fin 0x110000))
  intro c c' heq
  apply Char.toNat_inj.mp
  simpa using heq

section Bounded

variable {p : Pattern} (hreadable : isReadablePattern p = true)
  (hbounded : alternativesBounded p = true)
include hreadable hbounded

end Bounded

/-- The pattern `(\dx)*r`. -/
def groupOfClass : Pattern :=
  [[.group [[.single (.special false .digit) .concat, .single (.literal 'x') .concat]] .kleeneStar,
    .single (.literal 'r') .concat]]

namespace Divergence

/-- The transition of `x`. -/
def letter : Transition RegExp := ⟨.normal, [120], [], .concat⟩

/-- The transition of `(\dx)*`. -/
def group : Transition RegExp :=
  ⟨.subExpr, [],
    [.mk ['\\', 'd', 'x'] [⟨.bracket, SpecialClass.digit.listed, [], .concat⟩, letter]],
    .kleeneStar⟩

/-- The transition of `r`. -/
def last : Transition RegExp := ⟨.normal, [114], [], .concat⟩

/-- The text that is left after `k` rounds, behind what the first transitions print as. -/
def rest (k : ℕ) : List Char := List.replicate k '*' ++ patternText groupOfClass

/-- The state after a digit, in round `k`; its text is behind by a character. -/
def afterDigit (k : ℕ) : RegExp := .mk ('d' :: 'x' :: rest k) [letter, group, last]

/-- The state after `x`, in round `k`. -/
def afterLetter (k : ℕ) : RegExp := .mk ('x' :: rest k) [group, last]

theorem leftDerivations_parsed :
  (RegExp.mk (patternText groupOfClass) [group, last]).leftDerivations .sorting
    = [⟨.bracket, SpecialClass.digit.listed, afterDigit 0⟩, ⟨.bracket, [114], .epsilon⟩]
  := rfl

/-- After a digit comes the letter. -/
theorem leftDerivations_afterDigit (k : ℕ) :
  (afterDigit k).leftDerivations .sorting = [⟨.bracket, [120], afterLetter k⟩]
  := rfl

/-- The closing parenthesis of the group is taken for that of another one. -/
theorem indexOfEnd_rest {c : Char} (hc : c ≠ '\\') (k : ℕ) :
  indexOfEnd c 0 (rest k) = none
  := by
  induction k generalizing c with
  | zero => simp [rest, groupOfClass, patternText, branchText, Piece.body, Piece.op, Atom.text,
      Operator.text, SpecialClass.letter, indexOfEnd, hc]
  | succ k ih =>
    rw [rest, replicate_succ, cons_append, ← rest, indexOfEnd, if_neg (by simp),
      if_neg (by simp), ih (by decide)]
    rfl

/-- After the letter, with one star more, comes a digit again. -/
theorem leftDerivations_afterLetter (k : ℕ) :
  (afterLetter k).leftDerivations .sorting
    = [⟨.bracket, SpecialClass.digit.listed, afterDigit (k + 1)⟩, ⟨.bracket, [114], .epsilon⟩]
  := by
  have hlen : tokenLength ('x' :: rest k) group = 0 := by
    simp [tokenLength, group, indexOfEnd_rest (c := 'x') (by decide)]
  have hextract : patternExtractStart ('x' :: rest k) group = ([], rest k) := by
    rw [patternExtractStart, hlen]
    rfl
  rw [afterLetter, RegExp.leftDerivations, RegExp.transitionsDerivations, if_neg (by decide),
    hextract]
  rfl

/-- The expressions that are met. -/
def Met (e : RegExp) : Prop :=
  e = .mk (patternText groupOfClass) [group, last] ∨ e = .epsilon ∨
    (∃ k, e = afterDigit k) ∨ ∃ k, e = afterLetter k

/-- The expressions that are met are closed under derivations. -/
theorem Met.derived {e : RegExp} (h : Met e) :
  ∀ d ∈ e.leftDerivations .sorting, Met d.expr
  := by
  rcases h with rfl | rfl | ⟨k, rfl⟩ | ⟨k, rfl⟩
  · rw [leftDerivations_parsed]
    simp only [forall_mem_cons]
    exact ⟨.inr (.inr (.inl ⟨0, rfl⟩)), .inr (.inl rfl), by simp⟩
  · intro d hd
    cases hd
  · rw [leftDerivations_afterDigit]
    simp only [forall_mem_cons]
    exact ⟨.inr (.inr (.inr ⟨k, rfl⟩)), by simp⟩
  · rw [leftDerivations_afterLetter]
    simp only [forall_mem_cons]
    exact ⟨.inr (.inr (.inl ⟨k + 1, rfl⟩)), .inr (.inl rfl), by simp⟩

end Divergence

end Librecompare

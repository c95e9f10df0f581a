import Contextd.Librecompare.Derivative
import Contextd.Librecompare.Parsing

/-!
# The states of a pattern

A word leaves rests of the alternatives of a pattern, one byte after the other (`after`).  The
states of the automaton of a readable and orderly pattern are the expressions that derivations lead
to; the state after a word comes from some of the rests that the word leaves (`Visited.represents`).
-/

namespace Librecompare

variable {p : Pattern}

variable {qt : Qt}

/-- What the word leaves of the pattern. -/
def after (p : Pattern) (w : List UInt8) : List Rest := w.foldl step (patternRests p)

theorem after_concat {w : List UInt8} {b : UInt8} :
  after p (w ++ [b]) = step (after p w) b
  := by
  rw [after, List.foldl_append]
  rfl

/-- What holds of the alternatives of a pattern, and of what can be left of them, holds of what
words leave. -/
theorem Positional.mem_after {K : Bool → Piece → Prop} (hK : Positional K)
    (h : ∀ b ∈ p, branchAll K true b) (w : List UInt8) :
  ∀ r ∈ after p w, branchAll K true r.pieces
  := by
  induction w using List.reverseRecOn with
  | nil =>
    intro r hr
    apply h _ (mem_patternRests hr)
  | append_singleton w b ih =>
    rw [after_concat]
    apply hK.mem_step ih

theorem after_readable (h : isReadablePattern p = true) (w : List UInt8) :
  ∀ r ∈ after p w, r.IsReadable
  := by
  intro r hr
  apply branchAll_iff.mp (positional_isReadable.mem_after _ w r hr)
  intro b hb
  apply branchAll_iff.mpr ((isReadablePattern_iff.mp h).2 b hb).2

theorem after_orderly (h : alternativesOrderly true p = true) (w : List UInt8) :
  ∀ r ∈ after p w, branchOrderly true r.pieces = true
  := by
  intro r hr
  apply branchOrderly_iff.mpr (positional_isOrderly.mem_after _ w r hr)
  intro b hb
  apply branchOrderly_iff.mp (alternativesOrderly_iff.mp h b hb)

/-! ### Derivations from the pattern -/

/-- The expressions reached from the pattern by derivations, each with a word that leads to it. -/
inductive Visited (qt : Qt) (p : Pattern) : List UInt8 → RegExp → Prop
  | start : Visited qt p [] (patternExpr qt p)
  | derived {w : List UInt8} {e : RegExp} {d : Derivation RegExp} {b : UInt8}
      (he : Visited qt p w e) (hd : d ∈ e.leftDerivations qt) (hb : d.contains b = true) :
      Visited qt p (w ++ [b]) d.expr

section Orderly

variable {w : List UInt8} {e : RegExp}

variable {p : Pattern} (hqt : qt.Documented) (hreadable : isReadablePattern p = true)
  (horderly : alternativesOrderly true p = true)
include hqt hreadable horderly

/-- The derivations of a state. -/
theorem Visited.leaves (h : Visited qt p w e) :
  Leaves qt ((after p w).flatMap Rest.firsts) e
  := by
  induction h with
  | start =>
    apply reads_pattern hqt hreadable _ horderly
    intro b hb q hq
    apply Piece.derivesToken hqt (((isReadablePattern_iff.mp hreadable).2 b hb).2 q hq)
  | derived _ hd hb ih =>
    obtain ⟨s, hs, hrep⟩ := ih.represents hd hb
    rw [← after_concat] at hs
    apply hrep.reads hqt hs (after_orderly horderly _)

/-- The state after the next byte. -/
theorem Visited.next (h : Visited qt p w e) {d : Derivation RegExp} (hd : d ∈ e.leftDerivations qt)
    {b : UInt8} (hb : d.contains b = true) :
  ∃ s : Multiset Rest, s ≤ ↑(after p (w ++ [b])) ∧
    Represents qt (s, e.lang.leftQuotient [b]) d.expr
  := by
  rw [after_concat]
  apply (h.leaves hqt hreadable horderly).represents hd hb

/-- A state is the pattern, or comes from some of the rests that a word leaves. -/
theorem Visited.represents (h : Visited qt p w e) :
  w = [] ∧ e = patternExpr qt p ∨ w ≠ [] ∧ ∃ s : Multiset Rest, s ≤ ↑(after p w) ∧
    ∃ L, Represents qt (s, L) e
  := by
  cases h with
  | start => exact .inl ⟨rfl, rfl⟩
  | derived he hd hb =>
    obtain ⟨s, hs, hrep⟩ := he.next hqt hreadable horderly hd hb
    exact .inr ⟨by simp, s, hs, _, hrep⟩

end Orderly

end Librecompare

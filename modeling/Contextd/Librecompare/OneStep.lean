import Contextd.Librecompare.RightDerivations

/-!
# One step of derivation

For a sequence of simple atoms, the derivations from the left read exactly the words of the
sequence by their first byte, those from the right by their last byte.  In each of them no byte
belongs to two tokens, and every token has a byte (`derivations_exact`).
-/

open Computability

namespace Librecompare

open List

variable {b : Branch} {op : Operator} {a : Atom}

variable {qt : Qt}

/-! ### Putting rests before others -/

/-- `prepend` joins rests; nothing is prepended if no piece comes before. -/
theorem Rest.expr_prepend {r c : Rest} :
  (r.expr qt).prepend qt (c.raw qt) = (c.join r).expr qt
  := by
  by_cases hc : c.pieces = []
  · have hnull : (c.raw qt).isNull = true := by simp [raw, hc, branchTransitions, RegExp.isNull]
    have hemp : (c.raw qt).isEmpty = true := by simp [raw, hc, branchTransitions, RegExp.isEmpty]
    rw [RegExp.prepend, hnull, hemp]
    by_cases hr : r.pieces = []
    · simp [join, hr, expr_of_eq hc, expr_of_eq hr]
    · simp [join, hc, hr]
  · obtain ⟨hnull, hemp, hor⟩ := @raw_ne qt c hc
    by_cases hr : r.pieces = []
    · have hj : c.join r = c := by simp [join, hr]
      rw [hj, expr_of_eq hr, expr_of_ne hc, RegExp.prepend, hnull]
      simp [RegExp.epsilon, RegExp.epsilonTransition, RegExp.isEmpty]
    · obtain ⟨-, hrempty, hror⟩ := @raw_ne qt r hr
      have hj : c.join r = ⟨c.text ++ r.text, c.pieces ++ r.pieces⟩ := by simp [join, hc, hr]
      rw [hj, expr_of_ne hr, expr_of_ne (by simp [hr]),
        RegExp.prepend_eq_mk raw_alone hrempty hemp hror hor, raw, raw, raw,
        branchTransitions_eq_map, branchTransitions_eq_map, branchTransitions_eq_map, map_append]
      rfl

/-- The rest under its own text. -/
def restOf (b : Branch) : Rest := ⟨branchText b, b⟩

/-- Rests that are whole texts are joined as sequences. -/
theorem restOf_join {c : Branch} :
  ((restOf b).join (restOf c)).expr qt = (restOf (b ++ c)).expr qt
  := by
  by_cases hc : c = []
  · simp [Rest.join, restOf, hc]
  · by_cases hb : b = []
    · simp [Rest.join, restOf, hb, hc]
    · simp [Rest.join, restOf, hb, hc, branchText_append]

/-- The pieces that can be read again. -/
def Piece.again (p : Piece) : Branch := if p.op.isOnce then [] else [p.starred]

/-- What the code puts before a byte of the last piece. -/
theorem prepend_rightContinuation {p : Piece} :
  RegExp.epsilon.prepend qt (RegExp.rightContinuation qt p.body (branchText b) (p.transition qt)
      (branchTransitions qt b)) = (restOf (b ++ p.again)).expr qt
  := by
  have heps : (restOf []).expr qt = .epsilon := Rest.expr_of_eq rfl
  have hraw : RegExp.epsilon.prepend qt ((restOf b).raw qt) = (restOf b).expr qt := by
    rw [← heps, Rest.expr_prepend, restOf_join, append_nil]
  have hstar : (RegExp.mk (p.body ++ ['*']) [{ p.transition qt with op := .kleeneStar }]).prepend
      qt ((restOf b).raw qt) = (restOf (b ++ [p.starred])).raw qt := by
    have hstarred : RegExp.mk (p.body ++ ['*']) [{ p.transition qt with op := .kleeneStar }]
        = (restOf [p.starred]).expr qt := by
      rw [Rest.expr_of_ne (by simp [restOf]), Rest.raw, restOf, branchText_cons, branchText,
        branchTransitions_cons, branchTransitions, append_nil]
      cases p with
      | single atom op => simp [Piece.transition, Piece.starred, Piece.body, Piece.op]; rfl
      | group alternatives op => simp [Piece.transition, Piece.starred, Piece.body, Piece.op]; rfl
    rw [hstarred, Rest.expr_prepend, restOf_join, Rest.expr_of_ne (by simp [restOf])]
  have hstarred : RegExp.epsilon.prepend qt ((restOf (b ++ [p.starred])).raw qt)
      = (restOf (b ++ [p.starred])).expr qt := by
    rw [← heps, Rest.expr_prepend, restOf_join, append_nil]
  rw [RegExp.rightContinuation, transition_op, Piece.again]
  cases p.op with
  | concat | oneOrZero =>
    rw [Operator.isOnce, if_pos rfl, append_nil, ← hraw]
    rfl
  | kleeneStar | oneOrMore =>
    simp only [Operator.isOnce, Bool.false_eq_true, if_false, ← hstarred, ← hstar]
    rfl

/-! ### Rests of simple pieces -/

/-- All pieces of the rest are simple, and its text is theirs. -/
def Rest.IsSimple (r : Rest) : Prop := r = restOf r.pieces ∧ ∀ p ∈ r.pieces, p.isSimple = true

theorem Rest.IsSimple.isLegible {r : Rest} (h : r.IsSimple) :
  ∀ p ∈ r.pieces, p.IsLegible
  := fun p hp => (Piece.spec_of_isSimple (h.2 p hp)).1

/-- Rests of simple pieces can be told apart by what they print. -/
theorem told_of_isSimple (hqt : qt.Documented) {s : Multiset Rest} (h : ∀ r ∈ s, r.IsSimple) :
  Told qt s
  := by
  have hs : ∀ r ∈ s, r.InStep := by
    intro r hr
    by_cases hne : r.pieces = []
    · apply Rest.inStep_of_eq hne
    · rw [Rest.inStep_iff_of_ne hne]
      apply congrArg Rest.text (h r hr).1
  intro r hr
  refine ⟨fun _ => (hs r hr).printed_ne_nil (h r hr).isLegible, ?_⟩
  intro r' hr' heq
  rw [Rest.expr_lang_of_isLegible hqt (h r hr).isLegible,
    Rest.expr_lang_of_isLegible hqt (h r' hr').isLegible]
  apply (hs r hr).branchLang_eq (hs r' hr') (h r hr).isLegible (h r' hr').isLegible heq

/-! ### The mirror -/

/-- A sequence of two has the concatenation as language. -/
theorem branchLang_append {c : Branch} :
  branchLang (b ++ c) = branchLang b * branchLang c
  := by
  induction b with
  | nil => rw [nil_append, branchLang, one_mul]
  | cons p ps ih => rw [cons_append, branchLang_cons, branchLang_cons, ih, mul_assoc]

/-- Operators and turning words around can be exchanged. -/
theorem reverse_operatorLang {L : Language UInt8} :
  (op.lang L).reverse = op.lang L.reverse
  := by
  cases op with
  | concat => rfl
  | kleeneStar => apply Language.reverse_kstar
  | oneOrMore =>
    rw [Operator.lang, Operator.lang, Language.reverse_mul, Language.reverse_kstar,
      Language.mul_self_kstar_comm]
  | oneOrZero => rw [Operator.lang, Operator.lang, Language.reverse_add, Language.reverse_one]

theorem Atom.reverse_lang :
  a.lang.reverse = a.lang
  := by
  apply Set.ext
  intro w
  apply exists_congr
  intro b
  rw [reverse_eq_iff, reverse_singleton]

/-- The words of a simple sequence read from the end are those of the sequence turned around. -/
theorem branchLang_reverse (hb : ∀ p ∈ b, p.isSimple = true) :
  branchLang b.reverse = (branchLang b).reverse
  := by
  induction b with
  | nil => rw [reverse_nil, branchLang, Language.reverse_one]
  | cons p ps ih =>
    obtain ⟨hp, hps⟩ := forall_mem_cons.mp hb
    cases p with
    | group alternatives op => cases hp
    | single atom op =>
      rw [reverse_cons, branchLang_append, ih hps, branchLang_cons, branchLang_cons, branchLang,
        mul_one, Language.reverse_mul, reverse_operatorLang, Piece.bodyLang, Atom.reverse_lang]

/-- What comes before the last byte of a sequence given from its end. -/
def rightQuotient (r : Branch) (c : UInt8) : Language UInt8 :=
  ((branchLang r).leftQuotient [c]).reverse

/-- The quotient has the words that the byte completes. -/
theorem mem_rightQuotient (hb : ∀ p ∈ b, p.isSimple = true) {c : UInt8} {w : List UInt8} :
  w ∈ rightQuotient b.reverse c ↔ w ++ [c] ∈ branchLang b
  := by
  rw [rightQuotient, branchLang_reverse hb, Language.mem_reverse, Language.mem_leftQuotient,
    Language.mem_reverse]
  simp

/-- The last byte of a sequence is read by its last atom, or by the pieces before it. -/
theorem rightQuotient_cons (qt : Qt) {ps : Branch} (hps : ∀ p ∈ ps, p.isSimple = true) {c : UInt8} :
  rightQuotient (.single a op :: ps) c = a.lang.leftQuotient [c] *
      branchLang (ps.reverse ++ (Piece.single a op).again)
    + if RegExp.transitionNullable ((Piece.single a op).transition qt) then rightQuotient ps c
      else 0
  := by
  have hagain : branchLang (Piece.single a op).again = op.again a.lang := by
    rw [Piece.again, Operator.again, Piece.op]
    split_ifs
    · rw [branchLang]
    · rw [branchLang_cons, branchLang, mul_one, Piece.starred, Piece.op, Piece.bodyLang]
      rfl
  have hreverse : (op.again a.lang).reverse = op.again a.lang := by
    rw [Operator.again]
    split_ifs
    · apply Language.reverse_one
    · rw [Language.reverse_kstar, Atom.reverse_lang]
  have hfst : (a.lang.leftQuotient [c] * op.again a.lang * branchLang ps).reverse
      = a.lang.leftQuotient [c] * branchLang (ps.reverse ++ (Piece.single a op).again) := by
    rw [branchLang_append, branchLang_reverse hps, hagain, Atom.leftQuotient_lang,
      Language.reverse_mul, Language.reverse_mul, hreverse]
    split_ifs
    · rw [Language.reverse_one, mul_one, one_mul]
    · rw [Language.reverse_zero, zero_mul, mul_zero, mul_zero]
  have hnil := @transitionNullable_iff qt (.single a op)
  rw [Piece.tokenLang, Piece.op] at hnil
  rw [rightQuotient, rightQuotient, branchLang_cons, Piece.op, Piece.bodyLang]
  split_ifs with hnull
  · rw [Language.leftQuotient_mul_of_nil_mem (hnil.mp hnull), leftQuotient_operator,
      Language.reverse_add, hfst]
  · rw [Language.leftQuotient_mul_of_nil_notMem (fun h => hnull (hnil.mpr h)),
      leftQuotient_operator, hfst, add_zero]

/-! ### The loop from the right -/

/-- The pieces of a sequence with the derivations of their tokens. -/
def pieceTokens (qt : Qt) (r : Branch) :
    List (Transition RegExp × List (Derivation RegExp)) :=
  r.map (fun p => (p.transition qt, RegExp.rightTokenDerivations qt (p.transition qt)))

/-- The derivations of a whole text start from its last piece. -/
theorem rightDerivations_raw :
  ((restOf b).raw qt).rightDerivations qt
    = RegExp.rightLoop qt (branchText b) (pieceTokens qt b.reverse) []
  := by
  have htok : ∀ ts : List (Transition RegExp), RegExp.rightTokens qt ts
      = ts.map (fun t => (t, RegExp.rightTokenDerivations qt t)) := by
    intro ts
    induction ts with
    | nil => rw [RegExp.rightTokens, map_nil]
    | cons t ts ih => rw [RegExp.rightTokens, map_cons, ih]
  rw [Rest.raw, RegExp.rightDerivations, htok, restOf, branchTransitions_eq_map, pieceTokens,
    map_map, map_reverse]
  rfl

/-- One turn of the loop over the transitions, from the right. -/
theorem rightLoop_cons {a : Atom} {op : Operator} (ha : a.isSimple = true) {ps : Branch}
    (hps : ∀ p ∈ ps, p.isSimple = true) {ds ds' : List (Derivation RegExp)}
    (h : ds' = mergeDerivations (RegExp.or qt) ds [⟨a.derivedType, a.listed,
      (restOf (ps.reverse ++ (Piece.single a op).again)).expr qt⟩]) :
  RegExp.rightLoop qt (branchText (Piece.single a op :: ps).reverse)
      (pieceTokens qt (.single a op :: ps)) ds
    = if RegExp.transitionNullable ((Piece.single a op).transition qt) then
        RegExp.rightLoop qt (branchText ps.reverse) (pieceTokens qt ps) ds'
      else ds'
  := by
  have htrs : ((pieceTokens qt ps).map Prod.fst).reverse
      = branchTransitions qt ps.reverse := by
    rw [pieceTokens, map_map, branchTransitions_eq_map, map_reverse]
    rfl
  have htok : RegExp.rightTokenDerivations qt ((Piece.single a op).transition qt)
      = [⟨a.derivedType, a.listed, .epsilon⟩] := by
    rw [Piece.transition, Atom.derivedType]
    rcases a.type_cases with ht | ht | ht | ht <;>
      simp [ht, RegExp.rightTokenDerivations]
  have hextract := @patternExtractEnd_eq qt (.single a op) ha ps.reverse (by simpa using hps)
  rw [pieceTokens, map_cons, ← pieceTokens, RegExp.rightLoop, if_neg transition_type_ne.2,
    reverse_cons, hextract, htok, h]
  simp only [htrs, map_singleton, prepend_rightContinuation]

/-- The loop over the transitions of a simple sequence, from the right. -/
theorem reads_right (hqt : qt.Documented) {r : Branch} (hr : ∀ p ∈ r, p.isSimple = true)
    {xs : List (Atom × Rest)} (hxs : ∀ x ∈ xs, x.2.IsSimple) {Q : UInt8 → Language UInt8}
    {ds : List (Derivation RegExp)} (h : Reads qt xs Q ds) (hdet : Deterministic ds) :
  ∃ ys, (∀ y ∈ ys, y.2.IsSimple) ∧ Reads qt ys (fun c => Q c + rightQuotient r c)
      (RegExp.rightLoop qt (branchText r.reverse) (pieceTokens qt r) ds) ∧
    Deterministic (RegExp.rightLoop qt (branchText r.reverse) (pieceTokens qt r) ds)
  := by
  induction r generalizing xs Q ds with
  | nil =>
    rw [pieceTokens, map_nil, RegExp.rightLoop]
    refine ⟨xs, hxs, ?_, hdet⟩
    simpa only [rightQuotient, branchLang, Language.leftQuotient_one, Language.reverse_zero,
      add_zero] using h
  | cons p ps ih =>
    obtain ⟨hp, hps⟩ := forall_mem_cons.mp hr
    cases p with
    | group alternatives op => cases hp
    | single a op =>
      have hsimp : (restOf (ps.reverse ++ (Piece.single a op).again)).IsSimple := by
        refine ⟨rfl, ?_⟩
        intro q hq
        rcases mem_append.mp hq with hq | hq
        · apply hps q (mem_reverse.mp hq)
        · rw [Piece.again] at hq
          split_ifs at hq
          · cases hq
          · obtain rfl := mem_singleton.mp hq
            apply isSimple_starred hp
      obtain ⟨hleg, hnd⟩ := Atom.spec_of_isSimple hp
      obtain ⟨hrd, -⟩ := @Atom.reads_derivation qt a hleg hnd _
        (fun q hq => (hsimp.isLegible q hq).1)
      rw [Rest.expr_lang_of_isLegible hqt hsimp.isLegible] at hrd
      obtain ⟨hmrg, hdet'⟩ := h.merge hqt hdet hrd
      have hys : ∀ y ∈ xs ++ [(a, restOf (ps.reverse ++ (Piece.single a op).again))],
          y.2.IsSimple := by
        rw [forall_mem_append, forall_mem_singleton]
        exact ⟨hxs, hsimp⟩
      rw [rightLoop_cons hp hps rfl]
      simp only [rightQuotient_cons qt hps, ← add_assoc]
      split_ifs
      · apply ih hps hys hmrg hdet'
      · simp only [add_zero]
        exact ⟨_, hys, hmrg, hdet'⟩

/-! ### Exactness -/

/-- A simple sequence is in step. -/
theorem isInStepPattern_of_isSimple (hne : b ≠ []) (hb : ∀ p ∈ b, p.isSimple = true) :
  isInStepPattern [b] = true
  := by
  have hread : isReadablePattern [b] = true := by
    rw [isReadablePattern_iff, forall_mem_singleton]
    exact ⟨by simp, hne, fun p hp => (Piece.spec_of_isSimple (hb p hp)).1.1⟩
  have hall : ∀ {K : Bool → Piece → Prop}, (∀ p ∈ b, ∀ final, K final p) → branchAll K true b := by
    clear hread hne hb
    intro K hK
    induction b with
    | nil => trivial
    | cons p ps ih =>
      obtain ⟨hp, hps⟩ := forall_mem_cons.mp hK
      exact ⟨hp _, ih hps⟩
  have hord := hall (fun p hp final => ((Piece.spec_of_isSimple (hb p hp)).2 final).1)
  have hs := hall (fun p hp final => ((Piece.spec_of_isSimple (hb p hp)).2 final).2)
  rw [← branchOrderly_iff] at hord
  rw [← branchInStep_iff] at hs
  simp [isInStepPattern, hread, alternativesOrderly, hord, keepsText, alternativesInStep, hs]

theorem exact_nil {R : UInt8 → List UInt8 → Prop} (h : ∀ c w, ¬ R c w) :
  Exact [] R
  := by
  refine ⟨?_, .nil, by simp⟩
  intro c w
  simpa using h c w

/-- The derivations of the expression parsed from a sequence of simple atoms read the words of the
sequence by their first byte, or by their last byte, with a token for every byte that is read.  The
expression has these words; it is ø if there are no atoms. -/
theorem derivations_exact (hqt : qt.Documented) {b : Branch} (hb : ∀ p ∈ b, p.isSimple = true) :
  (RegExp.ofPattern qt (branchText b)).lang = (if b.isEmpty then 0 else branchLang b) ∧
    Exact ((RegExp.ofPattern qt (branchText b)).leftDerivations qt)
      (fun c w => c :: w ∈ branchLang b) ∧
    Exact ((RegExp.ofPattern qt (branchText b)).rightDerivations qt)
      (fun c w => w ++ [c] ∈ branchLang b)
  := by
  by_cases hne : b = []
  · have hnull : RegExp.ofPattern qt (branchText b) = .mk [] [] := by
      rw [hne, branchText, RegExp.ofPattern, RegExp.parsePattern]
      split_ifs <;> rfl
    rw [hnull, hne, branchLang]
    refine ⟨rfl, exact_nil ?_, exact_nil ?_⟩
    · intro c w
      simp
    · intro c w
      simp
  · have hs := isInStepPattern_of_isSimple hne hb
    have hfollowable := (textKept_of_isInStep hs).followable
    have hpar := RegExp.ofPattern_eq hqt hfollowable.legible.readable
    have hl := patternExpr_lang hqt hfollowable.legible
    have hleft := Visited.exact hqt hfollowable .start
    have hrt : Exact (((restOf b).raw qt).rightDerivations qt)
        (fun c w => w ∈ rightQuotient b.reverse c) := by
      obtain ⟨ys, hys, hrd, hdet⟩ := reads_right hqt (r := b.reverse) (by simpa using hb)
        (by simp) (@Reads.nil qt) (by simp [Deterministic])
      simp only [zero_add, reverse_reverse] at hrd hdet
      rw [rightDerivations_raw]
      apply hrd.exact hdet
      intro c
      apply told_of_isSimple hqt
      intro r hr
      obtain ⟨a, hx, -⟩ := mem_readBy.mp hr
      apply hys _ hx
    rw [patternText] at hpar
    rw [patternLang, patternLang, add_zero] at hl
    rw [hl] at hleft
    simp only [mem_rightQuotient hb] at hrt
    rw [hpar, hl]
    refine ⟨by simp [hne], hleft, ?_⟩
    rw [patternExpr_singleton]
    apply hrt

/-- The pieces of `[ab]*.c?`. -/
def listAnyLiteral : Branch :=
  [.single (.bracket false [.char 'a', .char 'b']) .kleeneStar, .single .any .concat,
    .single (.literal 'c') .oneOrZero]

theorem derivations_exact_listAnyLiteral :
  branchText listAnyLiteral = ['[', 'a', 'b', ']', '*', '.', 'c', '?'] ∧
    (RegExp.ofPattern .sorting (branchText listAnyLiteral)).lang = branchLang listAnyLiteral ∧
    Exact ((RegExp.ofPattern .sorting (branchText listAnyLiteral)).leftDerivations .sorting)
      (fun c w => c :: w ∈ branchLang listAnyLiteral) ∧
    Exact ((RegExp.ofPattern .sorting (branchText listAnyLiteral)).rightDerivations .sorting)
      (fun c w => w ++ [c] ∈ branchLang listAnyLiteral)
  := ⟨rfl, derivations_exact documented_sorting (by decide)⟩

end Librecompare

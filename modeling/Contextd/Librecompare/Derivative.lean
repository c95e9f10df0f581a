import Contextd.Librecompare.Represents

/-!
# Derivations

The derivations of an orderly expression leave, after each byte, what the byte leaves of its rests
(`Reads`).  This is shown for the token of a piece, for the loop over the transitions of a sequence,
and for a logical or of rests.  What is left has the language of the left quotient by the byte, if
the rests can be told apart.
-/

open Computability

namespace Librecompare

open List

variable {p : Piece} {text : List Char} {ps : Branch} {e : RegExp} {b : UInt8} {final : Bool}
  {l : List Rest}

open Joining

variable {qt : Qt}

/-! ### What derivations leave -/

/-- After each byte `b` the derivations leave what it leaves of the atoms `xs` with their rests, and
this should have the language `Q b`; alternatives that print alike can be missing. -/
structure Reads (qt : Qt) (xs : List (Atom × Rest)) (Q : UInt8 → Language UInt8)
    (ds : List (Derivation RegExp)) : Prop where
  /-- The derivations are sound, and none is empty. -/
  kept : Kept ds
  /-- What is left stands for some of the rests, and for the language. -/
  parts : ∀ b, ∃ s : Multiset Rest, s ≤ ↑(readBy b xs) ∧
    StandsFor (Represents qt) (s, Q b) (readings b ds)

/-- The derivations read exactly what is to be read, no byte belongs to two tokens, and every token
has a byte. -/
structure Exact (ds : List (Derivation RegExp)) (R : UInt8 → List UInt8 → Prop) : Prop where
  /-- They read what is to be read. -/
  reads : ∀ c w, R c w ↔ ∃ d ∈ ds, d.contains c = true ∧ w ∈ d.expr.lang
  /-- No byte belongs to two tokens. -/
  disjoint : ds.Pairwise (fun d d' => ∀ c, ¬ (d.contains c = true ∧ d'.contains c = true))
  /-- Every token has a byte. -/
  nonempty : ∀ d ∈ ds, ∃ c, d.contains c = true

namespace Reads

variable {xs ys : List (Atom × Rest)} {Q R : UInt8 → Language UInt8}
  {ds ds' : List (Derivation RegExp)}

theorem nil :
  Reads qt [] (fun _ => 0) []
  := by
  refine ⟨.nil, ?_⟩
  intro b
  exact ⟨0, Multiset.zero_le _, StandsFor.zero⟩

/-- Derivations of two lists of rests are put together. -/
theorem append (h : Reads qt xs Q ds) (h' : Reads qt ys R ds') :
  Reads qt (xs ++ ys) (fun b => Q b + R b) (ds ++ ds')
  := by
  refine ⟨h.kept.append h'.kept, ?_⟩
  intro b
  obtain ⟨s, hs, hstd⟩ := h.parts b
  obtain ⟨s', hs', hstd'⟩ := h'.parts b
  refine ⟨s + s', ?_, ?_⟩
  · rw [readBy_append, ← Multiset.coe_add]
    apply add_le_add hs hs'
  · rw [readings_append]
    apply hstd.add hstd'

/-- More rests may be read. -/
theorem mono (h : Reads qt xs Q ds) (hsub : xs.Subperm ys) :
  Reads qt ys Q ds
  := by
  refine ⟨h.kept, ?_⟩
  intro b
  obtain ⟨s, hs, hstd⟩ := h.parts b
  refine ⟨s, hs.trans ?_, hstd⟩
  obtain ⟨zs, hp, hsublist⟩ := hsub.filter (fun x => x.1.reads b)
  apply Multiset.coe_le.mpr ⟨_, hp.map _, hsublist.map _⟩

/-- Merging derivations joins what they leave. -/
theorem merge (hqt : qt.Documented) (h : Reads qt xs Q ds) (hdet : Deterministic ds)
    (h' : Reads qt ys R ds') :
  Reads qt (xs ++ ys) (fun b => Q b + R b) (mergeDerivations (RegExp.or qt) ds ds')
    ∧ Deterministic (mergeDerivations (RegExp.or qt) ds ds')
  := by
  obtain ⟨hk, hdet', hj⟩ := @mergeDerivations_spec _ (RegExp.or qt) _ _ h.kept hdet h'.kept
  refine ⟨⟨hk, ?_⟩, hdet'⟩
  intro b
  obtain ⟨s, hs, hstd⟩ := (h.append h').parts b
  refine ⟨s, hs, ?_⟩
  apply hstd.joined _ (hj b)
  intro x x' e e' he he'
  apply he.or hqt he'

/-- What is left has the language, if the rests can be told apart. -/
theorem exact (h : Reads qt xs Q ds) (hdet : Deterministic ds)
    (htold : ∀ b, Told qt ↑(readBy b xs)) :
  Exact ds (fun c w => w ∈ Q c)
  := by
  have hne : ∀ d ∈ ds, d.isEmpty = false := fun d hd => (h.kept d hd).2
  refine ⟨?_, hdet.pairwise hne, fun d hd => d.exists_at (h.kept d hd).1 (hne d hd)⟩
  intro c w
  have hm : (∃ d ∈ ds, d.contains c = true ∧ w ∈ d.expr.lang) ↔
      ∃ e ∈ readings c ds, w ∈ e.lang := by
    simp only [mem_readings]
    constructor
    · rintro ⟨d, hd, hc, hw⟩
      use d.expr, ⟨d, hd, hne d hd, hc, rfl⟩, hw
    · rintro ⟨e, ⟨d, hd, -, hc, rfl⟩, hw⟩
      use d, hd, hc, hw
  obtain ⟨s, hs, hstd⟩ := h.parts c
  rw [hm]
  rcases hstd.cases (hdet c) with ⟨hrds, hzero⟩ | ⟨e, hrds, hrep⟩
  · rw [hrds, (Prod.mk.inj hzero).2]
    simp
  · obtain ⟨-, hl⟩ := hrep.lang ((htold c).mono hs)
    rw [hrds, show Q c = e.lang from hl.symm]
    simp

end Reads

/-! ### Continuations -/

/-- The text is cut as the piece says. -/
theorem patternExtractStart_transition :
  patternExtractStart text (p.transition qt) = p.cut text
  := by
  cases p with
  | single atom op => simp [Piece.transition, Piece.cut, patternExtractStart, tokenLength,
      Piece.type, Piece.op]
  | group alternatives op => simp [Piece.transition, Piece.cut, patternExtractStart, tokenLength,
      Piece.type, Piece.op]

/-- The code continues with what follows the piece. -/
theorem continuation_eq :
  RegExp.continuation qt (p.cut text).1 (p.cut text).2 (p.transition qt) (branchTransitions qt ps)
    = (p.after text ps).raw qt
  := by
  have hstar : { p.transition qt with op := .kleeneStar } = p.starred.transition qt := by
    cases p with
    | single atom op => simp [Piece.transition, Piece.starred]
    | group alternatives op => simp [Piece.transition, Piece.starred]
  rw [RegExp.continuation, transition_op, Piece.after]
  cases p.op with
  | concat | oneOrZero => rfl
  | kleeneStar | oneOrMore =>
    have happ := @Rest.expr_append qt ⟨(p.cut text).1 ++ ['*'], [p.starred]⟩ ⟨(p.cut text).2, ps⟩
    rw [Rest.expr_of_ne (by simp), Rest.expr_of_ne (by simp), Rest.raw, Rest.raw,
      branchTransitions_cons, ← hstar, branchTransitions] at happ
    apply happ

theorem append_null {c : RegExp} (h : c.isNull = true) :
  e.append qt c = e
  := by
  have hemp : c.isEmpty = true := by
    rw [RegExp.isNull, List.isEmpty_iff] at h
    simp [RegExp.isEmpty, h]
  rw [RegExp.append, h, hemp]
  simp

/-- What the body of the piece can be. -/
def Piece.tokenLang (qt : Qt) : Piece → Language UInt8
  | .single atom _ => atom.lang
  | .group alternatives _ => (patternExpr qt alternatives).lang

theorem transitionLang_eq :
  RegExp.transitionLang (p.transition qt) = p.op.lang (p.tokenLang qt)
  := by
  cases p with
  | single atom op => rw [transitionLang_single, Piece.op, Piece.tokenLang]
  | group alternatives op =>
    rw [Piece.transition, RegExp.transitionLang, Piece.op, Piece.tokenLang]
    rfl

theorem transitionNullable_iff {p : Piece} :
  RegExp.transitionNullable (p.transition qt) = true ↔ [] ∈ p.op.lang (p.tokenLang qt)
  := by
  rw [← transitionLang_eq, (RegExp.nullability_exact .epsilon).2.1]

/-- What can follow the body under the operator, before the next piece. -/
def Operator.again (L : Language UInt8) (op : Operator) : Language UInt8 :=
  if op.isOnce then 1 else L∗

/-- The continuation has the language of what can follow. -/
theorem after_lang :
  ((p.after text ps).expr qt).lang
    = p.op.again (p.tokenLang qt) * RegExp.transitionsLang (branchTransitions qt ps)
  := by
  have hstar : RegExp.transitionLang (p.starred.transition qt) = (p.tokenLang qt)∗ := by
    rw [transitionLang_eq]
    cases p <;> rfl
  rw [Rest.expr_lang, after_pieces, Operator.again]
  split_ifs
  · rw [nil_append, one_mul]
  · rw [singleton_append, branchTransitions_cons, RegExp.transitionsLang, hstar]

/-- A byte is read by the body, which may be read again. -/
theorem leftQuotient_operator {L : Language UInt8} {op : Operator} :
  (op.lang L).leftQuotient [b] = L.leftQuotient [b] * op.again L
  := by
  cases op with
  | concat => rw [Operator.lang, Operator.again, Operator.isOnce, if_pos rfl, mul_one]
  | oneOrZero =>
    rw [Operator.lang, Operator.again, Operator.isOnce, if_pos rfl, mul_one,
      Language.leftQuotient_add, Language.leftQuotient_one, add_zero]
  | kleeneStar => rw [Operator.lang, Language.leftQuotient_kstar, Operator.again]; rfl
  | oneOrMore =>
    have hkstar := @Language.leftQuotient_kstar _ L b
    rw [Operator.lang, Operator.again, Operator.isOnce, if_neg (by simp)]
    by_cases hnil : [] ∈ L
    · rw [Language.leftQuotient_mul_of_nil_mem hnil, hkstar, add_idem]
    · rw [Language.leftQuotient_mul_of_nil_notMem hnil]

/-! ### Tokens -/

/-- What can be read of rests of which no two stay after the same byte, unless one absorbs the
other. -/
theorem absorbing_of_pairwise {xs : List (Atom × Rest)}
    (h : xs.Pairwise (fun x y => x.1.isApart y.1 || x.2.absorbs y.2)) :
  Absorbing ↑(readBy b xs)
  := by
  have hpw : (readBy b xs).Pairwise (fun r r' => r.absorbs r' = true) := by
    rw [readBy, pairwise_map]
    apply (h.filter _).imp_of_mem
    intro x y hx hy hxy
    rw [Bool.or_eq_true] at hxy
    apply hxy.resolve_left
    intro hapart
    apply Atom.isApart_iff hapart (mem_filter.mp hx).2 (mem_filter.mp hy).2
  have hsymm : ∀ {r r' : Rest}, r.absorbs r' = true → r'.absorbs r = true := by
    intro r r' hr
    rw [Rest.absorbs, Bool.or_comm]
    apply hr
  intro r r' hle
  obtain ⟨l, hp, hsub⟩ := Multiset.coe_le.mp hle
  have hpair := (hp.pairwise_iff hsymm).mp (hpw.sublist hsub)
  apply rel_of_pairwise_cons hpair (by simp)

/-- Derivations put before a rest. -/
theorem Reads.before {xs : List (Atom × Rest)} {Q : UInt8 → Language UInt8}
    {ds : List (Derivation RegExp)} (h : Reads qt xs Q ds) (hdet : Deterministic ds) {c : Rest}
    (hc : c.IsReadable)
    (hpw : c.pieces ≠ [] → xs.Pairwise (fun x y => x.1.isApart y.1 || x.2.absorbs y.2)) :
  Reads qt (xs.map (fun x => (x.1, x.2.join c))) (fun b => Q b * (c.expr qt).lang)
    (ds.map (fun d => { d with expr := d.expr.append qt (c.raw qt) }))
  := by
  constructor
  · intro d hd
    obtain ⟨d', hd', rfl⟩ := mem_map.mp hd
    obtain ⟨hsnd, hne⟩ := h.kept d' hd'
    exact ⟨⟨hsnd.clean, hsnd.typed⟩, hne⟩
  · intro b
    obtain ⟨s, hs, hstd⟩ := h.parts b
    rw [readBy_map (f := fun r => r.join c),
      readings_map (f := fun e : RegExp => e.append qt (c.raw qt))]
    by_cases hpcs : c.pieces = []
    · have hj : (fun r : Rest => r.join c) = id := by
        funext r
        simp [Rest.join, hpcs]
      have happ : (fun e : RegExp => e.append qt (c.raw qt)) = id := by
        funext e
        apply append_null
        simp [Rest.raw, hpcs, branchTransitions, RegExp.isNull]
      rw [hj, happ, map_id, Multiset.map_id, Rest.expr_lang, hpcs, branchTransitions,
        RegExp.transitionsLang, mul_one]
      exact ⟨s, hs, hstd⟩
    · rcases hstd.cases (hdet b) with ⟨hrds, hzero⟩ | ⟨e, hrds, he⟩
      · obtain ⟨rfl, hQ⟩ := Prod.mk.inj hzero
        rw [hrds, hQ, zero_mul]
        exact ⟨0, Multiset.zero_le _, StandsFor.zero⟩
      · obtain ⟨r, hr, rfl, hl⟩ :=
          he.single ((absorbing_of_pairwise (hpw hpcs)).mono hs)
        have hj : (r.join c).IsReadable := by
          intro p hp
          rw [Rest.join_pieces, mem_append] at hp
          apply hp.elim (he.readable r hr p) (hc p)
        have hmul : ((r.join c).expr qt).lang = Q b * (c.expr qt).lang := by
          rw [← show ((r.expr qt).lang = Q b) from hl, Rest.expr_lang, Rest.expr_lang,
            Rest.expr_lang, Rest.join_pieces, branchTransitions_eq_map, map_append,
            RegExp.transitionsLang_append, branchTransitions_eq_map, branchTransitions_eq_map]
        refine ⟨{r.join c}, ?_, ?_⟩
        · rw [Multiset.singleton_le, Multiset.mem_coe]
          apply mem_map_of_mem (Multiset.mem_of_le hs hr)
        · rw [hrds, Multiset.map_singleton, Rest.expr_append, standsFor_singleton, ← hmul]
          apply Represents.of_rest hj

/-! ### Atoms -/

namespace Atom

variable {a : Atom}

/-- What a legible atom lists. -/
theorem listed_spec (h : a.isLegible = true) :
  (0 : UInt8) ∉ a.listed ∧ (a ≠ .any → a.listed ≠ [])
  := by
  cases a with
  | literal c =>
    have hzero := byteOf_ne_zero (isLegible_literal_iff.mp h).1
    simpa [listed] using hzero.symm
  | escaped c =>
    have hbyte : isByte c = true ∧ c.isAlphanum = false := by simpa [isLegible] using h
    have hzero := byteOf_ne_zero hbyte.1
    simpa [listed] using hzero.symm
  | any => simp [listed]
  | bracket negated entries =>
    obtain ⟨hne, hents, -⟩ := isLegible_bracket_iff.mp h
    refine ⟨zero_notMem_listed hents, fun _ => ?_⟩
    apply Librecompare.listed_ne_nil hne hents
  | special negated c =>
    have hall : ∀ c : SpecialClass, (0 : UInt8) ∉ c.listed ∧ c.listed ≠ [] := by
      intro c
      cases c <;> decide
    exact ⟨(hall c).1, fun _ => (hall c).2⟩

/-- The type of the derivation of an atom. -/
def derivedType (a : Atom) : TokenType := if a.type = .normal then .bracket else a.type

/-- The derivation of an atom reads the bytes of the atom. -/
theorem derivation_at (h : a.isLegible = true) {e : RegExp} {b : UInt8} :
  (Derivation.mk a.derivedType a.listed e).at b = if a.reads b = true then {e} else 0
  := by
  have hlist : a.isNegated = false → a.derivedType = .bracket →
      (Derivation.mk a.derivedType a.listed e).at b = if a.reads b = true then {e} else 0 := by
    intro hneg ht
    rw [ht, Derivation.at_bracket]
    simp [reads, hneg]
  have hnotListed : a ≠ .any → a.isNegated = true → a.derivedType = .exclude →
      (Derivation.mk a.derivedType a.listed e).at b = if a.reads b = true then {e} else 0 := by
    intro hany hneg ht
    rw [ht, Derivation.at_exclude ((listed_spec h).2 hany)]
    by_cases hb : b ∈ a.listed <;> simp [reads, hneg, hb]
  cases a with
  | literal c => apply hlist rfl rfl
  | escaped c => apply hlist rfl rfl
  | any =>
    rw [derivedType, type, if_neg (by simp), Derivation.at_any]
    rfl
  | bracket negated entries =>
    cases negated with
    | false => apply hlist rfl rfl
    | true => apply hnotListed (by simp) rfl rfl
  | special negated c =>
    cases negated with
    | false => apply hlist rfl rfl
    | true => apply hnotListed (by simp) rfl rfl

theorem derivation_kept (h : a.isLegible = true) (hnd : a.listed.Nodup) {e : RegExp} :
  Kept [Derivation.mk a.derivedType a.listed e]
  := by
  obtain ⟨hzero, hne⟩ := listed_spec h
  rw [Kept, forall_mem_singleton]
  refine ⟨⟨⟨hnd, hzero⟩, ?_⟩, ?_⟩
  · intro _
    rw [derivedType]
    rcases a.type_cases with ht | ht | ht | ht <;> simp [ht]
  · by_cases hany : a = .any
    · subst hany
      rfl
    · apply Derivation.isEmpty_eq_false (hne hany)

/-- An atom reads one byte. -/
theorem leftQuotient_lang {b : UInt8} :
  a.lang.leftQuotient [b] = if a.reads b = true then 1 else 0
  := by
  ext w
  rw [Language.mem_leftQuotient]
  split_ifs with hb
  · rw [Language.mem_one]
    constructor
    · rintro ⟨b', -, heq⟩
      apply (List.cons.inj heq).2
    · rintro rfl
      exact ⟨b, hb, rfl⟩
  · apply iff_of_false _ id
    rintro ⟨b', hb', heq⟩
    obtain ⟨rfl, -⟩ := List.cons.inj heq
    apply hb hb'

/-- The derivation of an atom before a rest. -/
theorem reads_derivation (h : a.isLegible = true) (hnd : a.listed.Nodup) {r : Rest}
    (hr : r.IsReadable) :
  Reads qt [(a, r)] (fun b => a.lang.leftQuotient [b] * (r.expr qt).lang)
      [⟨a.derivedType, a.listed, r.expr qt⟩] ∧
    Deterministic [Derivation.mk a.derivedType a.listed (r.expr qt)]
  := by
  refine ⟨⟨derivation_kept h hnd, ?_⟩, ?_⟩
  · intro b
    rw [readings_cons, readings_nil, add_zero, derivation_at h, leftQuotient_lang]
    by_cases hb : a.reads b = true
    · rw [if_pos hb, if_pos hb, one_mul]
      refine ⟨{r}, by simp [readBy, hb], ?_⟩
      rw [standsFor_singleton]
      apply Represents.of_rest hr
    · rw [if_neg hb, if_neg hb, zero_mul]
      exact ⟨0, Multiset.zero_le _, StandsFor.zero⟩
  · intro b
    rw [readings_cons, readings_nil, add_zero, derivation_at h]
    split_ifs <;> simp

end Atom

/-- The token of the piece is derived as it should be. -/
def DerivesToken (qt : Qt) (p : Piece) : Prop :=
  ∀ final, p.isOrderly final = true →
    Reads qt p.firsts (fun b => (p.tokenLang qt).leftQuotient [b])
      (RegExp.tokenDerivations qt (p.transition qt)) ∧
    Deterministic (RegExp.tokenDerivations qt (p.transition qt))

/-- A legible atom is derived as it should be. -/
theorem derivesToken_single {a : Atom} {op : Operator} (h : a.isLegible = true) :
  DerivesToken qt (.single a op)
  := by
  intro final hord
  have hders : RegExp.tokenDerivations qt ((Piece.single a op).transition qt)
      = [⟨a.derivedType, a.listed, .epsilon⟩] := by
    rw [Piece.transition, Atom.derivedType]
    rcases a.type_cases with ht | ht | ht | ht <;>
      simp [ht, RegExp.tokenDerivations]
  rw [Piece.isOrderly, decide_eq_true_eq] at hord
  rw [hders, Piece.firsts, Piece.tokenLang]
  have hrd := @Atom.reads_derivation qt a h hord ⟨[], []⟩ (by simp [Rest.IsReadable])
  simp only [Rest.expr_lang, branchTransitions, RegExp.transitionsLang, mul_one] at hrd
  apply hrd

/-! ### Sequences -/

/-- Behind a piece that something follows, no two rests of it stay after the same byte. -/
theorem pairwise_firsts (h : p.isOrderly final = true) (hfinal : (final && p.op.isOnce) = false) :
  p.firsts.Pairwise (fun x y => x.1.isApart y.1 || x.2.absorbs y.2)
  := by
  cases p with
  | single atom op =>
    rw [Piece.firsts]
    apply pairwise_singleton
  | group alternatives op =>
    rw [Piece.op] at hfinal
    rw [Piece.isOrderly, hfinal, Bool.and_eq_true] at h
    rw [Piece.firsts]
    simpa using h.2

/-- One turn of the loop over the transitions of a sequence. -/
theorem transitionsDerivations_cons {p : Piece} {ps : Branch} {text : List Char}
    {ds ds' : List (Derivation RegExp)}
    (h : ds' = mergeDerivations (RegExp.or qt) ds
      ((RegExp.tokenDerivations qt (p.transition qt)).map
        (fun d => { d with expr := d.expr.append qt ((p.after text ps).raw qt) }))) :
  RegExp.transitionsDerivations qt text (branchTransitions qt (p :: ps)) ds =
    if RegExp.transitionNullable (p.transition qt) then
      RegExp.transitionsDerivations qt (p.cut text).2 (branchTransitions qt ps) ds'
    else ds'
  := by
  rw [branchTransitions_cons, RegExp.transitionsDerivations, if_neg transition_type_ne.2,
    patternExtractStart_transition, h, ← continuation_eq]

/-- The loop over the transitions of a sequence. -/
theorem reads_branch (hqt : qt.Documented) {ps : Branch} (hread : ∀ p ∈ ps, p.isReadable = true)
    (htok : ∀ p ∈ ps, DerivesToken qt p) {final : Bool} (hord : branchOrderly final ps = true)
    {text : List Char} {xs : List (Atom × Rest)} {Q : UInt8 → Language UInt8}
    {ds : List (Derivation RegExp)} (h : Reads qt xs Q ds) (hdet : Deterministic ds) :
  Reads qt (xs ++ branchFirsts text ps)
      (fun b => Q b + (RegExp.transitionsLang (branchTransitions qt ps)).leftQuotient [b])
      (RegExp.transitionsDerivations qt text (branchTransitions qt ps) ds) ∧
    Deterministic (RegExp.transitionsDerivations qt text (branchTransitions qt ps) ds)
  := by
  induction ps generalizing text xs Q ds with
  | nil =>
    rw [branchFirsts, branchTransitions, RegExp.transitionsDerivations, RegExp.transitionsLang,
      append_nil]
    simp only [Language.leftQuotient_one, add_zero]
    exact ⟨h, hdet⟩
  | cons p ps ih =>
    obtain ⟨hp, hps⟩ := forall_mem_cons.mp hread
    obtain ⟨htokenp, htokenps⟩ := forall_mem_cons.mp htok
    have hafter : (p.after text ps).IsReadable := (@branchAll_iff _ final _).mp
      (positional_isReadable.pieces_after (branchAll_iff.mpr hread))
    rw [branchOrderly, Bool.and_eq_true] at hord
    obtain ⟨hrd, htokendet⟩ := htokenp _ hord.1
    have hbef := hrd.before htokendet hafter (by
      intro hne
      apply pairwise_firsts hord.1
      rw [after_pieces] at hne
      cases ho : p.op.isOnce <;> cases ps <;> simp_all)
    obtain ⟨hmrg, hdet'⟩ := h.merge hqt hdet hbef
    have hnullable := @transitionNullable_iff qt p
    rw [transitionsDerivations_cons rfl, branchFirsts_cons, branchTransitions_cons,
      RegExp.transitionsLang, transitionLang_eq]
    by_cases hnull : RegExp.transitionNullable (p.transition qt) = true
    · obtain ⟨hr, hdet''⟩ := @ih hps htokenps hord.2 (p.cut text).2 _ _ _ hmrg hdet'
      rw [if_pos hnull, if_pos (Piece.nullableOnly hqt hp hnull)]
      refine ⟨?_, hdet''⟩
      convert hr using 1
      · rw [append_assoc]
      · funext b
        rw [Language.leftQuotient_mul_of_nil_mem (hnullable.mp hnull), leftQuotient_operator,
          after_lang, mul_assoc, add_assoc]
    · rw [if_neg hnull]
      refine ⟨?_, hdet'⟩
      convert hmrg.mono _ using 1
      · funext b
        rw [Language.leftQuotient_mul_of_nil_notMem (fun hnil => hnull (hnullable.mpr hnil)),
          leftQuotient_operator, after_lang, mul_assoc]
      · rw [← append_assoc]
        apply (sublist_append_left _ _).subperm

/-! ### Rests and logical ors -/

/-- The derivations of the expression leave what bytes leave of the atoms with their rests, and its
left quotients. -/
def Leaves (qt : Qt) (xs : List (Atom × Rest)) (e : RegExp) : Prop :=
  Reads qt xs (fun b => e.lang.leftQuotient [b]) (e.leftDerivations qt) ∧
    Deterministic (e.leftDerivations qt)

/-- The derivations of a rest. -/
theorem reads_rest (hqt : qt.Documented) {r : Rest} (hread : r.IsReadable)
    (htok : ∀ p ∈ r.pieces, DerivesToken qt p) (hord : branchOrderly final r.pieces = true) :
  Leaves qt r.firsts (r.expr qt)
  := by
  have hnil : Deterministic ([] : List (Derivation RegExp)) := by simp [Deterministic]
  by_cases hpcs : r.pieces = []
  · have hders : (r.expr qt).leftDerivations qt = [] := by
      rw [Rest.expr_of_eq hpcs]
      rfl
    rw [Leaves, hders, Rest.firsts, hpcs, branchFirsts, Rest.expr_lang, hpcs,
      branchTransitions, RegExp.transitionsLang]
    simp only [Language.leftQuotient_one]
    exact ⟨.nil, hnil⟩
  · have hbranch := @reads_branch qt hqt _ hread htok _ hord r.text _ _ _ .nil hnil
    simp only [nil_append, zero_add] at hbranch
    rw [Leaves, Rest.expr_lang, Rest.expr_of_ne hpcs, Rest.raw, RegExp.leftDerivations, Rest.firsts]
    apply hbranch

/-- The derivations of all alternatives of a logical or. -/
theorem reads_all (h : ∀ r ∈ l, Leaves qt r.firsts (r.expr qt)) :
  Reads qt (l.flatMap Rest.firsts)
    (fun b => (RegExp.unionLang (l.map (Rest.expr qt))).leftQuotient [b])
    (RegExp.allDerivations qt (l.map (Rest.expr qt)))
  := by
  induction l with
  | nil =>
    rw [map_nil, RegExp.allDerivations, RegExp.unionLang]
    exact .nil
  | cons r l ih =>
    obtain ⟨hr, hl⟩ := forall_mem_cons.mp h
    rw [map_cons, RegExp.allDerivations, RegExp.unionLang, flatMap_cons]
    simp only [Language.leftQuotient_add]
    apply hr.1.append (ih hl)

/-- Of a logical or, the derivations of all alternatives are merged. -/
theorem leftDerivations_or {pattern : List Char} {es : List RegExp} :
  (RegExp.mk pattern [⟨.logicalOr, [], es, .concat⟩]).leftDerivations qt
    = mergeDerivations (RegExp.or qt) [] (RegExp.allDerivations qt es)
  := by
  have happ : ∀ (ds : List (Derivation RegExp)) (text : List Char),
      ds.map (fun d => { d with expr := d.expr.append qt (.mk text []) }) = ds := by
    intro ds text
    nth_rewrite 2 [← map_id ds]
    apply map_congr_left
    intro d _
    rw [append_null rfl]
    rfl
  simp only [RegExp.leftDerivations, RegExp.transitionsDerivations, RegExp.tokenDerivations,
    RegExp.continuation, happ, ite_self]
  rfl

/-- The derivations of a logical or of rests. -/
theorem reads_or (hqt : qt.Documented) {pattern : List Char}
    (h : ∀ r ∈ l, Leaves qt r.firsts (r.expr qt))
    (he : e = .mk pattern [⟨.logicalOr, [], l.map (Rest.expr qt), .concat⟩]) :
  Leaves qt (l.flatMap Rest.firsts) e
  := by
  have hl : e.lang = RegExp.unionLang (l.map (Rest.expr qt)) := by
    rw [he, ← RegExp.lang_logicalOr, RegExp.logicalOr, RegExp.lang_mk (by simp),
      RegExp.lang_mk (by simp)]
  have hmrg := Reads.nil.merge hqt (by simp [Deterministic]) (reads_all h)
  simp only [nil_append, zero_add] at hmrg
  rw [Leaves, hl, he, leftDerivations_or]
  apply hmrg

theorem flatMap_firsts_subperm {l' : List Rest} (h : l.Subperm l') :
  (l.flatMap Rest.firsts).Subperm (l'.flatMap Rest.firsts)
  := by
  obtain ⟨k, hp, hsub⟩ := h
  exact ⟨_, hp.flatMap_right _, hsub.flatMap _⟩

/-- The derivations of the expression of a pattern. -/
theorem reads_pattern (hqt : qt.Documented) {bs : Pattern} (hread : isReadablePattern bs = true)
    (htok : ∀ b ∈ bs, ∀ p ∈ b, DerivesToken qt p) (hord : alternativesOrderly final bs = true) :
  Leaves qt ((patternRests bs).flatMap Rest.firsts) (patternExpr qt bs)
  := by
  obtain ⟨hne, hbs⟩ := isReadablePattern_iff.mp hread
  have hrest : ∀ r ∈ patternRests bs, Leaves qt r.firsts (r.expr qt) := by
    intro r hr
    have hb := mem_patternRests hr
    apply reads_rest hqt (hbs _ hb).2 (htok _ hb) (alternativesOrderly_iff.mp hord _ hb)
  rcases bs with _ | ⟨b, _ | ⟨c, bs⟩⟩
  · contradiction
  · have hb := hrest _ (mem_singleton_self _)
    rw [Rest.expr_of_ne (hbs b mem_cons_self).1, ← patternExpr_singleton] at hb
    rw [patternRests, flatMap_singleton]
    apply hb
  · obtain ⟨l, hl, hmap⟩ :=
      exists_map_of_subperm (alternatives_subperm hqt (fun b hb => (hbs b hb).1) hne)
    have hexpr : l.map (Rest.raw qt) = l.map (Rest.expr qt) := by
      apply map_congr_left
      intro r hr
      rw [Rest.expr_of_ne (hbs _ (mem_patternRests (hl.subset hr))).1]
    have heq := (@patternExpr_cons_cons qt b c bs).1
    rw [hmap, hexpr] at heq
    obtain ⟨hrd, hdet⟩ := reads_or hqt (fun r hr => hrest r (hl.subset hr)) heq
    exact ⟨hrd.mono (flatMap_firsts_subperm hl), hdet⟩

/-- Every readable token is derived as it should be. -/
theorem Piece.derivesToken (hqt : qt.Documented) (h : p.isReadable = true) :
  DerivesToken qt p
  := by
  apply Piece.readableInduction _ _ h
  · intro atom op hatom
    apply derivesToken_single hatom
  · intro alternatives op hread _ ih final hord
    rw [Piece.isOrderly, Bool.and_eq_true] at hord
    have hpat := reads_pattern hqt hread ih hord.1
    rw [Piece.firsts, alternativesFirsts_eq, Piece.tokenLang, Piece.transition,
      RegExp.tokenDerivations, RegExp.firstDerivations]
    apply hpat

/-! ### States -/

/-- The derivations of an expression that comes from some of the rests `rs`. -/
theorem Represents.reads (hqt : qt.Documented) {x : Multiset Rest × Language UInt8}
    (h : Represents qt x e) {rs : List Rest} (hle : x.1 ≤ ↑rs)
    (hord : ∀ r ∈ rs, branchOrderly true r.pieces = true) :
  Leaves qt (rs.flatMap Rest.firsts) e
  := by
  have hrest : ∀ r ∈ x.1, Leaves qt r.firsts (r.expr qt) := by
    intro r hr
    apply reads_rest hqt (h.readable r hr) _ (hord r (Multiset.mem_of_le hle hr))
    intro p hp
    apply Piece.derivesToken hqt (h.readable r hr p hp)
  rcases h.form with ⟨r, hr, rfl⟩ | ⟨l, hl, rfl, -⟩
  · obtain ⟨hrd, hdet⟩ := hrest r hr
    refine ⟨hrd.mono ?_, hdet⟩
    rw [← flatMap_singleton Rest.firsts r]
    apply flatMap_firsts_subperm
    apply Multiset.coe_le.mp
    apply (Multiset.singleton_le.mpr hr).trans hle
  · obtain ⟨hrd, hdet⟩ := reads_or hqt
      (fun r hr => hrest r (Multiset.mem_of_le hl hr)) rfl
    exact ⟨hrd.mono (flatMap_firsts_subperm (Multiset.coe_le.mp (hl.trans hle))), hdet⟩

/-- What one derivation leaves: after each of its bytes, some of the rests that the byte leaves. -/
theorem Leaves.represents {rs : List Rest} (h : Leaves qt (rs.flatMap Rest.firsts) e)
    {d : Derivation RegExp} (hd : d ∈ e.leftDerivations qt) (hb : d.contains b = true) :
  ∃ s : Multiset Rest, s ≤ ↑(step rs b) ∧ Represents qt (s, e.lang.leftQuotient [b]) d.expr
  := by
  obtain ⟨s, hs, hstd⟩ := h.1.parts b
  have hm : d.expr ∈ readings b (e.leftDerivations qt) :=
    mem_readings.mpr ⟨d, hd, (h.1.kept d hd).2, hb, rfl⟩
  rcases hstd.cases (h.2 b) with ⟨hzero, -⟩ | ⟨e', he', hrep⟩
  · rw [hzero] at hm
    cases hm
  · rw [he', Multiset.mem_singleton] at hm
    rw [hm]
    exact ⟨s, hs, hrep⟩

end Librecompare

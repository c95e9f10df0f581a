import Contextd.Librecompare.Nullability
import Contextd.Librecompare.Reading

/-!
# The expressions of patterns

To each pattern belongs the expression the parser makes of its text.  The text of a bracket list or
a group is removed once it is read, so an alternative before a bar has only what is left of its text
as its pattern (`patternRests`), and `operator |=` takes alternatives with the same pattern for the
same.  If that loses no word (`KeepsAlternatives`), the expression has the language of the pattern
(`patternExpr_lang`).
-/

open Computability

namespace Librecompare

open List

variable {p : Piece} {b : Branch} {bs : Pattern} {r : Rest}

/-- The documented behaviour of Qt, as far as it matters: `qSort` reorders what it is given, and
`QRegExp` accepts the patterns of its syntax. -/
structure Qt.Documented (qt : Qt) : Prop where
  /-- `qSort` only reorders. -/
  perm : ∀ es, (qt.qSort es).Perm es
  /-- A readable pattern is a valid one. -/
  valid : ∀ p : Pattern, isReadablePattern p = true → qt.isValid (patternText p) = true

/-- The type of the token of an atom. -/
def Atom.type : Atom → TokenType
  | .literal _ | .escaped _ => .normal
  | .any => .any
  | .bracket negated _ | .special negated _ => if negated then .exclude else .bracket

/-! ### What is left of a text -/

/-- The text of the piece is removed from the data when it is parsed. -/
def Piece.isErased : Piece → Bool
  | .single (.bracket _ _) _ => true
  | .group _ _ => true
  | _ => false

/-- What is left of the text of a piece in the data. -/
def Piece.leftover (p : Piece) : List Char := (if p.isErased then [] else p.body) ++ p.op.text

/-- What is left of the text of a sequence in the data. -/
def branchLeftover (b : Branch) : List Char := b.flatMap Piece.leftover

/-- A sequence of pieces still to be read, and the text the code has for it. -/
structure Rest where
  /-- The text, which can differ from that of the pieces. -/
  text : List Char
  /-- The pieces. -/
  pieces : Branch

/-- The alternatives of a pattern under the texts the parser has for them: what is left of an
alternative before a bar, and all of the last one. -/
def patternRests : Pattern → List Rest
  | [] => []
  | [b] => [⟨branchText b, b⟩]
  | b :: bs => ⟨branchLeftover b, b⟩ :: patternRests bs

/-- No alternative is lost: none has the empty text, and those with the same text have the same
language. -/
def KeepsAlternatives (bs : Pattern) : Prop :=
  ∀ r ∈ patternRests bs, r.text ≠ [] ∧
    ∀ r' ∈ patternRests bs, r.text = r'.text → branchLang r.pieces = branchLang r'.pieces

/-- The pattern is read as what it stands for: it is readable, and no alternative is lost, also in
the groups. -/
structure LegiblePattern (p : Pattern) : Prop where
  /-- The pattern is readable. -/
  readable : isReadablePattern p = true
  /-- Its alternatives are kept. -/
  keeps : KeepsAlternatives p
  /-- So are those of the groups. -/
  inside : alternativesEvery (fun _ => True) KeepsAlternatives p

/-- The piece is read as what it stands for, with the alternatives inside. -/
def Piece.IsLegible (p : Piece) : Prop :=
  p.isReadable = true ∧ p.Every (fun _ => True) KeepsAlternatives

/-- The pieces of a legible pattern are legible. -/
theorem LegiblePattern.pieces {p : Pattern} (h : LegiblePattern p) :
  ∀ b ∈ p, ∀ q ∈ b, q.IsLegible
  := by
  intro b hb q hq
  exact ⟨((isReadablePattern_iff.mp h.readable).2 b hb).2 q hq,
    alternativesEvery_iff.mp h.inside b hb q hq⟩

/-! ### Transitions and expressions -/

section Definitions

variable (qt : Qt)

mutual

/-- The transition of a piece. -/
def Piece.transition : Piece → Transition RegExp
  | .single atom op => ⟨atom.type, atom.listed, [], op⟩
  | .group alternatives op => ⟨.subExpr, [], [patternExpr alternatives], op⟩

/-- The transitions of a sequence of pieces. -/
def branchTransitions : List Piece → List (Transition RegExp)
  | [] => []
  | p :: ps => p.transition :: branchTransitions ps

/-- The expression of a pattern: the first alternative is joined to the others. -/
def patternExpr : List (List Piece) → RegExp
  | [] => .mk [] []
  | [b] => .mk (branchText b) (branchTransitions b)
  | b :: bs =>
    .mk (patternText (b :: bs)) [⟨.logicalOr, [], RegExp.removeDuplicates [] (qt.qSort
      (.mk (branchLeftover b) (branchTransitions b) :: (patternExpr bs).alternatives)), .concat⟩]

end

/-- The transitions of the pieces under the text; ø if there are none. -/
def Rest.raw (r : Rest) : RegExp := .mk r.text (branchTransitions qt r.pieces)

end Definitions

variable {qt : Qt}

theorem branchTransitions_cons {ps : Branch} :
  branchTransitions qt (p :: ps) = p.transition qt :: branchTransitions qt ps
  := by
  rw [branchTransitions]

theorem branchTransitions_eq_map :
  branchTransitions qt b = b.map (Piece.transition qt)
  := by
  induction b with
  | nil => rw [branchTransitions, map_nil]
  | cons p ps ih => rw [branchTransitions_cons, map_cons, ih]

theorem patternExpr_singleton :
  patternExpr qt [b] = Rest.raw qt ⟨branchText b, b⟩
  := by
  rw [patternExpr]
  rfl

theorem patternExpr_cons_cons {b c : Branch} {bs : Pattern} :
  patternExpr qt (b :: c :: bs) = .mk (patternText (b :: c :: bs))
    [⟨.logicalOr, [], (patternExpr qt (b :: c :: bs)).alternatives, .concat⟩] ∧
  (patternExpr qt (b :: c :: bs)).alternatives = RegExp.removeDuplicates [] (qt.qSort
    (Rest.raw qt ⟨branchLeftover b, b⟩ :: (patternExpr qt (c :: bs)).alternatives))
  := by
  rw [patternExpr]
  · exact ⟨rfl, rfl⟩
  · simp

theorem transition_op {p : Piece} :
  (p.transition qt).op = p.op
  := by
  cases p with
  | single atom op => simp [Piece.transition, Piece.op]
  | group alternatives op => simp [Piece.transition, Piece.op]

theorem Atom.type_cases (a : Atom) :
  a.type = .normal ∨ a.type = .any ∨ a.type = .bracket ∨ a.type = .exclude
  := by
  cases a with
  | bracket negated entries => cases negated <;> simp [type]
  | special negated c => cases negated <;> simp [type]
  | _ => simp [type]

/-- The transition of a piece is neither a logical or nor ε. -/
theorem transition_type_ne {p : Piece} :
  (p.transition qt).type ≠ .logicalOr ∧ (p.transition qt).type ≠ .epsilon
  := by
  cases p with
  | single atom op =>
    rw [Piece.transition]
    rcases atom.type_cases with h | h | h | h <;> simp [h]
  | group alternatives op => simp [Piece.transition]

/-! ### Rests as expressions -/

namespace Rest

variable {r : Rest}

/-- A rest with pieces is neither ø nor ε nor a logical or. -/
theorem raw_ne (h : r.pieces ≠ []) :
  (r.raw qt).isNull = false ∧ (r.raw qt).isEmpty = false ∧ (r.raw qt).isOr = false
  := by
  obtain ⟨p, ps, hp⟩ := exists_cons_of_ne_nil h
  rw [raw, hp, branchTransitions_cons]
  refine ⟨rfl, ?_, ?_⟩
  · simpa [RegExp.isEmpty] using (@transition_type_ne qt p).2
  · simpa [RegExp.isOr] using (@transition_type_ne qt p).1

theorem raw_alternatives (h : r.pieces ≠ []) :
  (r.raw qt).alternatives = [r.raw qt]
  := RegExp.alternatives_of_not_isOr (raw_ne h).2.2

/-- In the expression of a rest, ε and logical ors are alone. -/
theorem raw_alone :
  (r.raw qt).Alone
  := by
  intro t ht htype
  rw [raw, RegExp.transitions_mk, branchTransitions_eq_map, mem_map] at ht
  obtain ⟨p, -, rfl⟩ := ht
  exact absurd htype (not_or.mpr transition_type_ne)

/-- Its language is that of its transitions. -/
theorem raw_lang (h : r.pieces ≠ []) :
  (r.raw qt).lang = RegExp.transitionsLang (branchTransitions qt r.pieces)
  := by
  obtain ⟨p, ps, hp⟩ := exists_cons_of_ne_nil h
  rw [raw, hp, branchTransitions_cons, RegExp.lang]

/-- It is nullable if all its pieces are. -/
theorem raw_isNullable (h : r.pieces ≠ []) :
  (r.raw qt).isNullable = r.pieces.all (fun p => RegExp.transitionNullable (p.transition qt))
  := by
  obtain ⟨p, ps, hp⟩ := exists_cons_of_ne_nil h
  rw [raw, hp, branchTransitions_cons, RegExp.isNullable, ← branchTransitions_cons,
    RegExp.transitionsNullable_eq_all, branchTransitions_eq_map, all_map]
  rfl

end Rest

/-- The transition of the piece is not taken for ε. -/
def IsSolid (qt : Qt) (p : Piece) : Prop :=
  ∀ pattern ts, (RegExp.mk pattern (p.transition qt :: ts)).isEpsilon = false

theorem Rest.raw_isEpsilon {r : Rest} (hne : r.pieces ≠ []) (h : ∀ p ∈ r.pieces, IsSolid qt p) :
  (r.raw qt).isEpsilon = false
  := by
  obtain ⟨p, ps, hp⟩ := exists_cons_of_ne_nil hne
  rw [raw, hp, branchTransitions_cons]
  apply h p (by simp [hp])

/-- The rests are those of the alternatives. -/
theorem mem_patternRests (h : r ∈ patternRests bs) :
  r.pieces ∈ bs
  := by
  induction bs with
  | nil => cases h
  | cons b bs ih =>
    cases bs with
    | nil =>
      obtain rfl := mem_singleton.mp h
      apply mem_singleton_self
    | cons c bs =>
      rcases mem_cons.mp h with rfl | h
      · apply mem_cons_self
      · apply mem_cons_of_mem _ (ih h)

theorem exists_mem_patternRests (h : b ∈ bs) :
  ∃ r ∈ patternRests bs, r.pieces = b
  := by
  induction bs with
  | nil => cases h
  | cons c bs ih =>
    cases bs with
    | nil =>
      obtain rfl := mem_singleton.mp h
      exact ⟨_, mem_singleton_self _, rfl⟩
    | cons d bs =>
      rcases mem_cons.mp h with rfl | h
      · exact ⟨_, mem_cons_self, rfl⟩
      · obtain ⟨r, hr, hpcs⟩ := ih h
        use r, mem_cons_of_mem _ hr, hpcs

/-- The last alternative has all its text. -/
theorem exists_last_mem_patternRests (h : bs ≠ []) :
  ∃ b ∈ bs, ⟨branchText b, b⟩ ∈ patternRests bs
  := by
  induction bs with
  | nil => contradiction
  | cons b bs ih =>
    cases bs with
    | nil => use b, mem_singleton_self b, mem_singleton_self _
    | cons c bs =>
      obtain ⟨b', hb', hm⟩ := ih (by simp)
      use b', mem_cons_of_mem _ hb', mem_cons_of_mem _ hm

/-! ### The alternatives of a pattern -/

/-- The alternatives of the expression are alternatives of the pattern. -/
theorem alternatives_subperm (hqt : qt.Documented) (h : ∀ b ∈ bs, b ≠ []) (hne : bs ≠ []) :
  (patternExpr qt bs).alternatives.Subperm ((patternRests bs).map (Rest.raw qt))
  := by
  induction bs with
  | nil => contradiction
  | cons b bs ih =>
    obtain ⟨hb, hbs⟩ := forall_mem_cons.mp h
    cases bs with
    | nil =>
      rw [patternExpr_singleton, Rest.raw_alternatives hb]
      apply List.Subperm.refl
    | cons c bs =>
      rw [patternExpr_cons_cons.2]
      apply (RegExp.removeDuplicates_sublist _ _).subperm.trans
      apply (hqt.perm _).subperm.trans
      apply (subperm_cons _).mpr
      apply ih hbs (by simp)

/-- An alternative of the expression comes from one of the pattern. -/
theorem mem_alternatives (hqt : qt.Documented) (h : ∀ b ∈ bs, b ≠ []) (hne : bs ≠ []) {e : RegExp}
    (he : e ∈ (patternExpr qt bs).alternatives) :
  ∃ r ∈ patternRests bs, r.raw qt = e
  := mem_map.mp ((alternatives_subperm hqt h hne).subset he)

/-- An alternative that does not print as the empty text is kept, up to what is printed. -/
theorem exists_mem_alternatives (hqt : qt.Documented) (h : ∀ b ∈ bs, b ≠ [])
    (hr : r ∈ patternRests bs) (ht : r.text ≠ []) :
  ∃ e ∈ (patternExpr qt bs).alternatives, e.pattern = r.text
  := by
  induction bs with
  | nil => cases hr
  | cons b bs ih =>
    obtain ⟨hb, hbs⟩ := forall_mem_cons.mp h
    cases bs with
    | nil =>
      obtain rfl := mem_singleton.mp hr
      rw [patternExpr_singleton, Rest.raw_alternatives hb]
      exact ⟨_, mem_singleton_self _, rfl⟩
    | cons c bs =>
      have hm : ∃ e ∈ Rest.raw qt ⟨branchLeftover b, b⟩ ::
          (patternExpr qt (c :: bs)).alternatives, e.pattern = r.text := by
        rcases mem_cons.mp hr with rfl | hr
        · exact ⟨_, mem_cons_self, rfl⟩
        · obtain ⟨e, he, heq⟩ := ih hbs hr
          use e, mem_cons_of_mem _ he, heq
      obtain ⟨e, he, heq⟩ := hm
      rw [patternExpr_cons_cons.2]
      rcases RegExp.exists_mem_removeDuplicates ((hqt.perm _).mem_iff.mpr he) [] with hnil | hk
      · rw [heq] at hnil
        contradiction
      · obtain ⟨e', he', heq'⟩ := hk
        use e', he', heq'.trans heq

theorem branchText_ne_nil (hne : b ≠ []) (h : ∀ p ∈ b, p.isReadable = true) :
  branchText b ≠ []
  := by
  obtain ⟨p, ps, rfl⟩ := exists_cons_of_ne_nil hne
  obtain ⟨c, cs, hbody, -⟩ := p.exists_body (h p mem_cons_self)
  rw [branchText_cons, hbody]
  simp

/-- Something is left of a readable pattern: its last alternative. -/
theorem alternatives_ne_nil (hqt : qt.Documented) (h : isReadablePattern bs = true) :
  (patternExpr qt bs).alternatives ≠ []
  := by
  obtain ⟨hne, hbs⟩ := isReadablePattern_iff.mp h
  obtain ⟨b, hb, hm⟩ := exists_last_mem_patternRests hne
  obtain ⟨e, he, -⟩ := exists_mem_alternatives hqt (fun b hb => (hbs b hb).1) hm
    (branchText_ne_nil (hbs b hb).1 (hbs b hb).2)
  apply ne_nil_of_mem he

theorem patternExpr_alone :
  (patternExpr qt bs).Alone
  := by
  rcases bs with _ | ⟨b, _ | ⟨c, bs⟩⟩
  · rw [patternExpr]
    intro t ht
    cases ht
  · rw [patternExpr_singleton]
    apply Rest.raw_alone
  · rw [patternExpr_cons_cons.1]
    intro t ht _
    obtain rfl := mem_singleton.mp ht
    exact ⟨rfl, rfl⟩

/-- The expression of a readable pattern is neither ø nor ε. -/
theorem patternExpr_ne (hqt : qt.Documented) (h : isReadablePattern bs = true)
    (hsolid : ∀ b ∈ bs, ∀ p ∈ b, IsSolid qt p) :
  (patternExpr qt bs).isNull = false ∧ (patternExpr qt bs).isEpsilon = false
  := by
  obtain ⟨hne, hbs⟩ := isReadablePattern_iff.mp h
  have hs := alternatives_ne_nil hqt h
  rcases bs with _ | ⟨b, _ | ⟨c, bs⟩⟩
  · contradiction
  · have hb := (hbs b mem_cons_self).1
    rw [patternExpr_singleton]
    exact ⟨(Rest.raw_ne hb).1, Rest.raw_isEpsilon hb (hsolid b mem_cons_self)⟩
  · obtain ⟨e, he⟩ := exists_mem_of_ne_nil _ hs
    obtain ⟨r, hr, rfl⟩ := mem_alternatives hqt (fun b hb => (hbs b hb).1) hne he
    have heps := @Rest.raw_isEpsilon qt r (hbs _ (mem_patternRests hr)).1
      (hsolid _ (mem_patternRests hr))
    rw [patternExpr_cons_cons.1]
    refine ⟨rfl, ?_⟩
    rw [RegExp.isEpsilon, RegExp.allEpsilon_eq, all_eq_false]
    exact ⟨_, he, by simp [heps]⟩

/-- No readable piece is taken for ε. -/
theorem Piece.isSolid (hqt : qt.Documented) (h : p.isReadable = true) :
  IsSolid qt p
  := by
  apply Piece.readableInduction _ _ h
  · intro atom op _ pattern ts
    rw [Piece.transition]
    rcases atom.type_cases with h | h | h | h <;> simp [RegExp.isEpsilon, h]
  · intro alternatives op hread _ ih pattern ts
    rw [Piece.transition, RegExp.isEpsilon, RegExp.firstEpsilon]
    apply (patternExpr_ne hqt hread ih).2

/-! ### Nullability -/

/-- A transition is nullable only if its piece is. -/
def NullableOnly (qt : Qt) (p : Piece) : Prop :=
  RegExp.transitionNullable (p.transition qt) = true → p.isNullable = true

theorem Rest.nullable_of_raw (hne : r.pieces ≠ []) (h : ∀ p ∈ r.pieces, NullableOnly qt p)
    (hr : (r.raw qt).isNullable = true) :
  branchNullable r.pieces = true
  := by
  rw [Rest.raw_isNullable hne, all_eq_true] at hr
  rw [branchNullable_iff]
  intro p hp
  apply h p hp (hr p hp)

/-- If the expression is nullable, the pattern is. -/
theorem patternExpr_nullable (hqt : qt.Documented) (h : isReadablePattern bs = true)
    (hpcs : ∀ b ∈ bs, ∀ p ∈ b, NullableOnly qt p)
    (hnullable : (patternExpr qt bs).isNullable = true) :
  alternativesNullable bs = true
  := by
  obtain ⟨hne, hbs⟩ := isReadablePattern_iff.mp h
  have hs : ∃ r ∈ patternRests bs, (r.raw qt).isNullable = true := by
    rcases bs with _ | ⟨b, _ | ⟨c, bs⟩⟩
    · contradiction
    · rw [patternExpr_singleton] at hnullable
      exact ⟨_, mem_singleton_self _, hnullable⟩
    · rw [patternExpr_cons_cons.1] at hnullable
      have hany : ∃ e ∈ (patternExpr qt (b :: c :: bs)).alternatives, e.isNullable = true := by
        simpa [RegExp.isNullable, RegExp.transitionsNullable, RegExp.transitionNullable,
          RegExp.anyNullable_eq] using hnullable
      obtain ⟨e, he, hnull⟩ := hany
      obtain ⟨r, hr, rfl⟩ := mem_alternatives hqt (fun b hb => (hbs b hb).1) hne he
      use r, hr, hnull
  obtain ⟨r, hr, hnull⟩ := hs
  have hb := mem_patternRests hr
  rw [alternativesNullable_iff]
  exact ⟨_, hb, Rest.nullable_of_raw (hbs _ hb).1 (hpcs _ hb) hnull⟩

/-- If the transition of a readable piece is nullable, the piece is. -/
theorem Piece.nullableOnly (hqt : qt.Documented) (h : p.isReadable = true) :
  NullableOnly qt p
  := by
  apply Piece.readableInduction _ _ h
  · intro atom op _ hnull
    rw [Piece.transition, RegExp.transitionNullable_eq] at hnull
    rw [Piece.isNullable]
    rcases atom.type_cases with h | h | h | h <;> simpa [RegExp.nullableToken, h] using hnull
  · intro alternatives op hread _ ih hnull
    rw [Piece.transition, RegExp.transitionNullable_eq] at hnull
    simp only [RegExp.nullableToken, RegExp.firstNullable, Bool.or_eq_true] at hnull
    rw [Piece.isNullable, Bool.or_eq_true, Bool.or_eq_true]
    apply hnull.imp_right
    apply patternExpr_nullable hqt hread ih

/-! ### Languages -/

/-- The bytes of an atom under its type are those it reads. -/
theorem bytesLang_eq (a : Atom) :
  RegExp.bytesLang a.type a.listed = a.lang
  := by
  have hlist : a.isNegated = false → ∀ b, b ∈ a.listed ↔ a.reads b = true := by
    intro hneg b
    simp [Atom.reads, hneg]
  have hnotListed : a.isNegated = true → ∀ b, b ∉ a.listed ↔ a.reads b = true := by
    intro hneg b
    simp [Atom.reads, hneg]
  have hany : ∀ b, Atom.any.reads b = true := fun b => rfl
  apply Set.ext
  intro w
  cases a with
  | literal c => apply exists_congr fun b => and_congr_left' (hlist rfl b)
  | escaped c => apply exists_congr fun b => and_congr_left' (hlist rfl b)
  | any => apply exists_congr fun b => (and_iff_right (hany b)).symm
  | bracket negated entries =>
    cases negated with
    | false => apply exists_congr fun b => and_congr_left' (hlist rfl b)
    | true => apply exists_congr fun b => and_congr_left' (hnotListed rfl b)
  | special negated special =>
    cases negated with
    | false => apply exists_congr fun b => and_congr_left' (hlist rfl b)
    | true => apply exists_congr fun b => and_congr_left' (hnotListed rfl b)

theorem transitionLang_single {atom : Atom} {op : Operator} :
  RegExp.transitionLang (Piece.transition qt (.single atom op)) = op.lang atom.lang
  := by
  have ht := atom.type_cases
  rw [← bytesLang_eq, Piece.transition]
  generalize atom.type = type at ht
  rcases ht with rfl | rfl | rfl | rfl <;> rw [RegExp.transitionLang] <;> simp

/-- The transition of the piece has its language. -/
def Means (qt : Qt) (p : Piece) : Prop :=
  RegExp.transitionLang (p.transition qt) = p.op.lang p.bodyLang

/-- If the pieces mean what they say, so does the sequence. -/
theorem transitionsLang_of_means (h : ∀ p ∈ b, Means qt p) :
  RegExp.transitionsLang (branchTransitions qt b) = branchLang b
  := by
  induction b with
  | nil => rw [branchTransitions, RegExp.transitionsLang, branchLang]
  | cons p ps ih =>
    obtain ⟨hp, hps⟩ := forall_mem_cons.mp h
    rw [branchTransitions_cons, RegExp.transitionsLang, branchLang_cons, ih hps, hp]

theorem Rest.raw_lang_of_means (hne : r.pieces ≠ []) (h : ∀ p ∈ r.pieces, Means qt p) :
  (r.raw qt).lang = branchLang r.pieces
  := by
  rw [Rest.raw_lang hne, transitionsLang_of_means h]

/-- An expression that keeps its alternatives has the language of the pattern. -/
theorem patternExpr_lang_of_means (hqt : qt.Documented) (h : isReadablePattern bs = true)
    (hkp : KeepsAlternatives bs) (hmeans : ∀ b ∈ bs, ∀ p ∈ b, Means qt p) :
  (patternExpr qt bs).lang = patternLang bs
  := by
  obtain ⟨hne, hbs⟩ := isReadablePattern_iff.mp h
  have hraw : ∀ r ∈ patternRests bs, (r.raw qt).lang = branchLang r.pieces := by
    intro r hr
    apply Rest.raw_lang_of_means (hbs _ (mem_patternRests hr)).1 (hmeans _ (mem_patternRests hr))
  rw [← patternExpr_alone.unionLang_alternatives]
  ext w
  rw [RegExp.mem_unionLang, mem_patternLang]
  constructor
  · rintro ⟨e, he, hw⟩
    obtain ⟨r, hr, rfl⟩ := mem_alternatives hqt (fun b hb => (hbs b hb).1) hne he
    rw [hraw r hr] at hw
    exact ⟨_, mem_patternRests hr, hw⟩
  · rintro ⟨b, hb, hw⟩
    obtain ⟨r, hr, rfl⟩ := exists_mem_patternRests hb
    obtain ⟨ht, hsame⟩ := hkp r hr
    obtain ⟨e, he, heq⟩ := exists_mem_alternatives hqt (fun b hb => (hbs b hb).1) hr ht
    obtain ⟨r', hr', rfl⟩ := mem_alternatives hqt (fun b hb => (hbs b hb).1) hne he
    refine ⟨_, he, ?_⟩
    rwa [hraw r' hr', ← hsame r' hr' heq.symm]

/-- The transition of a readable piece that keeps its alternatives has the language of the piece. -/
theorem Piece.means (hqt : qt.Documented) {A : Atom → Prop} (h : p.isReadable = true)
    (hkp : p.Every A KeepsAlternatives) :
  Means qt p
  := by
  revert hkp
  apply Piece.readableInduction _ _ h
  · intro atom op _ _
    rw [Means, transitionLang_single, Piece.op, Piece.bodyLang]
  · intro alternatives op hread _ ih hev
    rw [Piece.Every, alternativesEvery_iff] at hev
    have hl := patternExpr_lang_of_means hqt hread hev.1
      (fun b hb p hp => ih b hb p hp (hev.2 b hb p hp))
    rw [Means, Piece.transition, RegExp.transitionLang, Piece.op, Piece.bodyLang, ← hl]
    rfl

/-- The expression of a legible pattern has its language. -/
theorem patternExpr_lang (hqt : qt.Documented) (h : LegiblePattern bs) :
  (patternExpr qt bs).lang = patternLang bs
  := by
  apply patternExpr_lang_of_means hqt h.readable h.keeps
  intro b hb p hp
  apply Piece.means hqt (((isReadablePattern_iff.mp h.readable).2 b hb).2 p hp)
  apply alternativesEvery_iff.mp h.inside b hb p hp

end Librecompare

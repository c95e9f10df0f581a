import Contextd.Librecompare.Expression

/-!
# What is left to be read

After a byte, a sequence of pieces leaves other sequences to be read, one for each atom it can start
with that reads the byte (`Rest.firsts`), each under the text the code cuts out for it
(`Piece.cut`). Derivations put them together with `append`, which is `Rest.join` as long as no
logical or is met.

A logical or is met behind a group from which two rests are left after the same byte, unless nothing
follows the group or one of them is absorbed.  A sequence without such groups is orderly
(`branchOrderly`), and so is what is left of it.
-/

namespace Librecompare

open List

variable {b : UInt8} {xs : List (Atom × Rest)}

/-! ### Texts -/

/-- The type of the token of a piece. -/
def Piece.type : Piece → TokenType
  | .single atom _ => atom.type
  | .group _ _ => .subExpr

/-- The text `patternExtractStart` takes for that of the piece, and the text behind the piece. -/
def Piece.cut (p : Piece) (text : List Char) : List Char × List Char :=
  patternExtractStart text ⟨p.type, [], [], p.op⟩

/-- The piece with the operator `*`. -/
def Piece.starred : Piece → Piece
  | .single atom _ => .single atom .kleeneStar
  | .group alternatives _ => .group alternatives .kleeneStar

/-- The operator lets the piece be read once at most. -/
def Operator.isOnce : Operator → Bool
  | .concat | .oneOrZero => true
  | .kleeneStar | .oneOrMore => false

namespace Rest

/-- The rest as it is printed: ε if there are no pieces. -/
def printed (r : Rest) : List Char := if r.pieces.isEmpty then ['ε'] else r.text

/-- One rest after the other. -/
def join (r c : Rest) : Rest :=
  if c.pieces.isEmpty then r
  else if r.pieces.isEmpty then c
  else ⟨r.text ++ c.text, r.pieces ++ c.pieces⟩

@[simp]
theorem join_pieces {r c : Rest} :
  (r.join c).pieces = r.pieces ++ c.pieces
  := by
  rw [join]
  split_ifs with hc hr <;> simp_all

end Rest

/-- Several rests as they are printed, with bars in between. -/
def joinedText (l : List Rest) : List Char := (l.flatMap (fun r => r.printed ++ ['|'])).dropLast

/-- What follows the piece when its body has been read: the piece again, if its operator allows for
it, and the pieces behind it. -/
def Piece.after (p : Piece) (text : List Char) (ps : Branch) : Rest :=
  if p.op.isOnce then ⟨(p.cut text).2, ps⟩
  else Rest.join ⟨(p.cut text).1 ++ ['*'], [p.starred]⟩ ⟨(p.cut text).2, ps⟩

/-! ### First atoms -/

mutual

/-- The atoms a piece can start with, each with what follows it inside the piece. -/
def Piece.firsts : Piece → List (Atom × Rest)
  | .single atom _ => [(atom, ⟨[], []⟩)]
  | .group alternatives _ => alternativesFirsts alternatives

/-- The atoms a sequence can start with, each with what follows it: behind a piece that can read the
empty word come the atoms of the pieces behind it. -/
def branchFirsts : List Char → List Piece → List (Atom × Rest)
  | _, [] => []
  | text, p :: ps =>
    p.firsts.map (fun x => (x.1, x.2.join (p.after text ps)))
      ++ if p.isNullable then branchFirsts (p.cut text).2 ps else []

/-- The atoms alternatives can start with. -/
def alternativesFirsts : List (List Piece) → List (Atom × Rest)
  | [] => []
  | [b] => branchFirsts (branchText b) b
  | b :: bs => branchFirsts (branchLeftover b) b ++ alternativesFirsts bs

end

/-- The atoms a rest can start with, each with what follows it. -/
def Rest.firsts (r : Rest) : List (Atom × Rest) := branchFirsts r.text r.pieces

/-- What the byte `b` leaves of what starts with the atoms. -/
def readBy (b : UInt8) (xs : List (Atom × Rest)) : List Rest :=
  (xs.filter (fun x => x.1.reads b)).map Prod.snd

/-- What the byte `b` leaves of the rests. -/
def step (rs : List Rest) (b : UInt8) : List Rest := readBy b (rs.flatMap Rest.firsts)

/-- A sequence is read by its first piece, or behind it if that is nullable. -/
theorem branchFirsts_cons {text : List Char} {p : Piece} {ps : Branch} :
  branchFirsts text (p :: ps) = p.firsts.map (fun x => (x.1, x.2.join (p.after text ps)))
    ++ if p.isNullable then branchFirsts (p.cut text).2 ps else []
  := by
  rw [branchFirsts]

/-- Alternatives are read as their rests. -/
theorem alternativesFirsts_eq {bs : Pattern} :
  alternativesFirsts bs = (patternRests bs).flatMap Rest.firsts
  := by
  induction bs with
  | nil => rw [alternativesFirsts, patternRests, flatMap_nil]
  | cons b bs ih =>
    cases bs with
    | nil => rw [alternativesFirsts, patternRests, flatMap_singleton, Rest.firsts]
    | cons c bs =>
      rw [alternativesFirsts, patternRests, flatMap_cons, ih, Rest.firsts]
      · simp
      · simp

theorem mem_readBy {r : Rest} :
  r ∈ readBy b xs ↔ ∃ a, (a, r) ∈ xs ∧ a.reads b = true
  := by
  simp [readBy]

@[simp]
theorem readBy_append {ys : List (Atom × Rest)} :
  readBy b (xs ++ ys) = readBy b xs ++ readBy b ys
  := by
  simp [readBy]

theorem readBy_map {f : Rest → Rest} :
  readBy b (xs.map (fun x => (x.1, f x.2))) = (readBy b xs).map f
  := by
  simp [readBy, filter_map, Function.comp_def]

/-- Behind a piece comes the piece itself, if it is read again, and what follows. -/
theorem after_pieces {p : Piece} {text : List Char} {ps : Branch} :
  (p.after text ps).pieces = (if p.op.isOnce then [] else [p.starred]) ++ ps
  := by
  rw [Piece.after]
  split_ifs <;> simp

/-! ### What the pieces of rests keep -/

section Positional

variable (K : Bool → Piece → Prop)

/-- The pieces of the sequence satisfy `K`, which is told whether nothing follows the piece; `final`
tells that nothing follows the sequence. -/
def branchAll : Bool → Branch → Prop
  | _, [] => True
  | final, p :: ps => K (final && ps.isEmpty) p ∧ branchAll final ps

/-- Nothing is left of the sequence after a byte. -/
def IsSpent (b : Branch) : Prop := ∀ text, ∀ x ∈ branchFirsts text b, x.2.pieces = []

/-- What holds of a piece holds of the pieces that can be left of it. -/
structure Positional : Prop where
  /-- It holds of the piece that is read again. -/
  starred : ∀ final p, K final p → p.op.isOnce = false → K final p.starred
  /-- It holds inside groups, of what can be left. -/
  inside : ∀ final alternatives op, K final (.group alternatives op) → ∀ b ∈ alternatives,
    branchAll K (final && op.isOnce) b ∨ IsSpent b

variable {K}

/-- Only the end of the second sequence is the end of both. -/
theorem branchAll_append {final : Bool} {b c : Branch} :
  branchAll K final (b ++ c) ↔ branchAll K (final && c.isEmpty) b ∧ branchAll K final c
  := by
  induction b with
  | nil => simp [branchAll]
  | cons p ps ih =>
    have hemp : (ps ++ c).isEmpty = (c.isEmpty && ps.isEmpty) := by cases ps <;> simp
    rw [cons_append, branchAll, branchAll, ih, hemp, and_assoc, Bool.and_assoc]

theorem exists_of_branchAll {final : Bool} {b : Branch} (h : branchAll K final b) {p : Piece}
    (hp : p ∈ b) :
  ∃ final', K final' p
  := by
  induction b with
  | nil => cases hp
  | cons q qs ih =>
    rw [branchAll] at h
    rcases mem_cons.mp hp with rfl | hp
    · exact ⟨_, h.1⟩
    · apply ih h.2 hp

theorem branchAll_iff {L : Piece → Prop} {final : Bool} {b : Branch} :
  branchAll (fun _ p => L p) final b ↔ ∀ p ∈ b, L p
  := by
  induction b with
  | nil => simp [branchAll]
  | cons p ps ih => simp [branchAll, ih]

namespace Positional

variable {final : Bool}

variable (h : Positional K)
include h

/-- What follows the body of a piece is the piece again and the pieces behind it. -/
theorem pieces_after {p : Piece} {ps : Branch} (hp : branchAll K final (p :: ps))
    {text : List Char} :
  branchAll K final (p.after text ps).pieces
  := by
  rw [branchAll] at hp
  rw [after_pieces]
  cases ho : p.op.isOnce with
  | true => simpa using hp.2
  | false =>
    simp only [Bool.false_eq_true, if_false, singleton_append, branchAll]
    exact ⟨h.starred _ p hp.1 ho, hp.2⟩

/-- What holds of the pieces holds of what a byte leaves of them in a sequence. -/
theorem mem_branchFirsts {final : Bool} {b : Branch} (hb : branchAll K final b)
    (hin : ∀ p ∈ b, ∀ final, K final p → ∀ x ∈ p.firsts,
      branchAll K (final && p.op.isOnce) x.2.pieces) {text : List Char} {x : Atom × Rest}
    (hx : x ∈ branchFirsts text b) :
  branchAll K final x.2.pieces
  := by
  induction b generalizing text with
  | nil =>
    rw [branchFirsts] at hx
    cases hx
  | cons p ps ih =>
    obtain ⟨hp, hps⟩ := forall_mem_cons.mp hin
    rw [branchFirsts_cons, mem_append] at hx
    rcases hx with hx | hx
    · obtain ⟨y, hy, rfl⟩ := mem_map.mp hx
      simp only [Rest.join_pieces, branchAll_append]
      refine ⟨?_, h.pieces_after hb⟩
      have hfst := hp _ (by rw [branchAll] at hb; exact hb.1) y hy
      rw [after_pieces]
      cases ho : p.op.isOnce with
      | true => simpa [ho] using hfst
      | false => simpa [ho] using hfst
    · split_ifs at hx
      · rw [branchAll] at hb
        apply ih hb.2 hps hx
      · cases hx

/-- What holds of a piece holds of what a byte leaves of it. -/
theorem mem_firsts (p : Piece) :
  ∀ final, K final p → ∀ x ∈ p.firsts, branchAll K (final && p.op.isOnce) x.2.pieces
  := by
  induction p using Piece.induction with
  | single atom op =>
    intro final _ x hx
    rw [Piece.firsts] at hx
    obtain rfl := mem_singleton.mp hx
    simp [branchAll]
  | group alternatives op ih =>
    intro final hp x hx
    rw [Piece.firsts, alternativesFirsts_eq, mem_flatMap] at hx
    obtain ⟨r, hr, hx⟩ := hx
    have hb := mem_patternRests hr
    rcases h.inside _ _ _ hp _ hb with hpcs | hspent
    · apply h.mem_branchFirsts hpcs (ih _ hb) hx
    · rw [hspent _ x hx]
      simp [branchAll]

/-- What holds of the pieces of rests holds of what is left of the rests. -/
theorem mem_step {rs : List Rest} (hrs : ∀ r ∈ rs, branchAll K final r.pieces) {b : UInt8} :
  ∀ r ∈ step rs b, branchAll K final r.pieces
  := by
  intro r hr
  obtain ⟨a, hx, -⟩ := mem_readBy.mp hr
  obtain ⟨r', hr', hx⟩ := mem_flatMap.mp hx
  apply h.mem_branchFirsts (hrs r' hr') _ hx
  intro p _
  apply h.mem_firsts p

end Positional

end Positional

theorem positional_isReadable :
  Positional (fun _ p => p.isReadable = true)
  := by
  constructor
  · intro _ p h _
    cases p with
    | single atom op =>
      rw [Piece.isReadable] at h
      rw [Piece.starred, Piece.isReadable, h]
    | group alternatives op =>
      rw [isReadable_group_iff] at h
      rw [Piece.starred, isReadable_group_iff]
      apply h
  · intro _ alternatives op h b hb
    rw [branchAll_iff]
    exact .inl ((isReadablePattern_iff.mp (isReadable_group_iff.mp h).1).2 b hb).2

theorem positional_every {A : Atom → Prop} {G : Pattern → Prop} :
  Positional (fun _ p => p.Every A G)
  := by
  constructor
  · intro _ p h _
    cases p with
    | single atom op =>
      rw [Piece.Every] at h
      rwa [Piece.starred, Piece.Every]
    | group alternatives op =>
      rw [Piece.Every] at h
      rwa [Piece.starred, Piece.Every]
  · intro _ alternatives op h b hb
    rw [Piece.Every, alternativesEvery_iff] at h
    rw [branchAll_iff]
    exact .inl (h.2 b hb)

/-- The pieces of a rest are readable. -/
def Rest.IsReadable (r : Rest) : Prop := ∀ p ∈ r.pieces, p.isReadable = true

/-! ### Orderly pieces -/

/-- The two atoms have no byte in common; the zero byte, which is never listed, is common to all
that read what they do not list. -/
def Atom.isApart (a a' : Atom) : Bool :=
  match a.isNegated, a'.isNegated with
  | false, false => a.listed.all (fun b => !a'.listed.contains b)
  | false, true => a.listed.all (fun b => a'.listed.contains b)
  | true, false => a'.listed.all (fun b => a.listed.contains b)
  | true, true => false

/-- Atoms that are apart do not read the same byte. -/
theorem Atom.isApart_iff {a a' : Atom} (h : a.isApart a' = true) (ha : a.reads b = true)
    (ha' : a'.reads b = true) :
  False
  := by
  simp only [reads, contains_eq_mem, bne_iff_ne, ne_eq, isApart] at h ha ha'
  cases hn : a.isNegated <;> cases hn' : a'.isNegated <;> simp [hn, hn'] at h ha ha'
  · apply h b ha ha'
  · apply ha' (h b ha)
  · apply ha (h b ha')

mutual

/-- The piece is taken for nullable, whatever alternatives are lost: by its operator, or because all
its alternatives are. -/
def Piece.isSkippable : Piece → Bool
  | .single _ op => op == .kleeneStar || op == .oneOrZero
  | .group alternatives op =>
    op == .kleeneStar || op == .oneOrZero || alternativesSkippable alternatives

/-- All pieces are taken for nullable. -/
def branchSkippable : List Piece → Bool
  | [] => true
  | p :: ps => p.isSkippable && branchSkippable ps

/-- All alternatives are taken for nullable. -/
def alternativesSkippable : List (List Piece) → Bool
  | [] => true
  | b :: bs => branchSkippable b && alternativesSkippable bs

end

/-- `operator |=` keeps only one of the rests: the other one is ε, and this one is nullable. -/
def Rest.absorbs (r r' : Rest) : Bool :=
  r.pieces.isEmpty && branchSkippable r'.pieces || r'.pieces.isEmpty && branchSkippable r.pieces

mutual

/-- The piece is derived without a logical or being put before other pieces; `final` tells that
nothing follows the piece.  Its bracket lists have no byte twice, and if something can follow a
group, no byte leaves two rests of it, unless one absorbs the other. -/
def Piece.isOrderly : Bool → Piece → Bool
  | _, .single atom _ => decide atom.listed.Nodup
  | final, .group alternatives op =>
    alternativesOrderly (final && op.isOnce) alternatives &&
      (final && op.isOnce || decide ((alternativesFirsts alternatives).Pairwise
        (fun x y => x.1.isApart y.1 || x.2.absorbs y.2)))

/-- The pieces of a sequence are orderly. -/
def branchOrderly : Bool → List Piece → Bool
  | _, [] => true
  | final, p :: ps => p.isOrderly (final && ps.isEmpty) && branchOrderly final ps

/-- The alternatives are orderly. -/
def alternativesOrderly : Bool → List (List Piece) → Bool
  | _, [] => true
  | final, b :: bs => branchOrderly final b && alternativesOrderly final bs

end

theorem branchOrderly_iff {final : Bool} {b : Branch} :
  branchOrderly final b = true ↔ branchAll (fun final p => p.isOrderly final = true) final b
  := by
  induction b with
  | nil => simp [branchOrderly, branchAll]
  | cons p ps ih => rw [branchOrderly, branchAll, Bool.and_eq_true, ih]

theorem alternativesOrderly_iff {final : Bool} {bs : Pattern} :
  alternativesOrderly final bs = true ↔ ∀ b ∈ bs, branchOrderly final b = true
  := by
  induction bs with
  | nil => simp [alternativesOrderly]
  | cons b bs ih => simp [alternativesOrderly, ih]

/-- What is left of orderly pieces is orderly. -/
theorem positional_isOrderly :
  Positional (fun final p => p.isOrderly final = true)
  := by
  constructor
  · intro final p h ho
    cases p with
    | single atom op =>
      rw [Piece.isOrderly] at h
      rw [Piece.starred, Piece.isOrderly, h]
    | group alternatives op =>
      rw [Piece.op] at ho
      rw [Piece.isOrderly, ho] at h
      rw [Piece.starred, Piece.isOrderly, Operator.isOnce]
      apply h
  · intro final alternatives op h b hb
    rw [Piece.isOrderly, Bool.and_eq_true, alternativesOrderly_iff] at h
    exact .inl (branchOrderly_iff.mp (h.1 b hb))

end Librecompare

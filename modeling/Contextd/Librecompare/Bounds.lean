import Contextd.Librecompare.InStep

/-!
# Texts that stay bounded

The sequences of pieces that can be left of a pattern are finitely many (`Piece.remainders`).  Their
texts do not get longer when pieces are cut off, up to a star put behind a bracket list or a group
(`extent`).  Only a group that is read again puts what is left of it before a text that is kept; if
that prints as what it is, the texts of all rests are bounded (`after_limited`).
-/

namespace Librecompare

open List

variable {bs : Pattern} {c b : Branch} {text : List Char} {r : Rest}

/-! ### Sequences that can be left -/

mutual

/-- The sequences that can be left inside a piece. -/
def Piece.remainders : Piece → List Branch
  | .single _ _ => [[]]
  | .group alternatives _ => alternativesRemainders alternatives

/-- The sequences that can be left of a sequence. -/
def branchRemainders : List Piece → List Branch
  | [] => []
  | p :: ps =>
    p.remainders.map (· ++ ((if p.op.isOnce then [] else [p.starred]) ++ ps)) ++ branchRemainders ps

/-- The sequences that can be left of alternatives. -/
def alternativesRemainders : List (List Piece) → List Branch
  | [] => []
  | b :: bs => branchRemainders b ++ alternativesRemainders bs

end

theorem mem_alternativesRemainders :
  c ∈ alternativesRemainders bs ↔ ∃ b ∈ bs, c ∈ branchRemainders b
  := by
  induction bs with
  | nil => simp [alternativesRemainders]
  | cons b bs ih => simp [alternativesRemainders, ih]

/-- What is left of `firsts` is among `remainders`, and what is left of those too. -/
structure Closed (firsts : List (Atom × Rest)) (remainders : List Branch) : Prop where
  /-- After the first byte. -/
  first : ∀ x ∈ firsts, x.2.pieces ∈ remainders
  /-- After a byte more. -/
  next : ∀ c ∈ remainders, ∀ text, ∀ x ∈ branchFirsts text c, x.2.pieces ∈ remainders

theorem mem_branchFirsts_append {x : Atom × Rest} (hx : x ∈ branchFirsts text (b ++ c)) :
  (∃ y ∈ branchFirsts text b, x.2.pieces = y.2.pieces ++ c) ∨ ∃ text', x ∈ branchFirsts text' c
  := by
  induction b generalizing text with
  | nil => exact .inr ⟨text, hx⟩
  | cons p ps ih =>
    rw [cons_append, branchFirsts_cons, mem_append] at hx
    rcases hx with hx | hx
    · obtain ⟨z, hz, rfl⟩ := mem_map.mp hx
      refine .inl ⟨(z.1, z.2.join (p.after text ps)), ?_, by simp [after_pieces]⟩
      rw [branchFirsts_cons]
      apply mem_append_left
      apply mem_map_of_mem hz
    · split_ifs at hx with hnull
      · apply (ih hx).imp_left
        rintro ⟨y, hy, heq⟩
        refine ⟨y, ?_, heq⟩
        rw [branchFirsts_cons, if_pos hnull]
        apply mem_append_right _ hy
      · cases hx

/-- A piece that is read again starts with the same atoms. -/
theorem starred_firsts {p : Piece} :
  p.starred.firsts = p.firsts
  := by
  cases p <;> rw [Piece.starred, Piece.firsts, Piece.firsts]

/-- If the pieces are closed, so is the sequence. -/
theorem closed_branch (hb : ∀ p ∈ b, Closed p.firsts p.remainders) (text : List Char) :
  Closed (branchFirsts text b) (branchRemainders b)
  := by
  induction b generalizing text with
  | nil => constructor <;> simp [branchFirsts, branchRemainders]
  | cons p ps ih =>
    obtain ⟨hp, hps⟩ := forall_mem_cons.mp hb
    have ht : ∀ text, ∀ x ∈ branchFirsts text ps, x.2.pieces ∈ branchRemainders (p :: ps) := by
      intro text x hx
      rw [branchRemainders]
      apply mem_append_right _ ((ih hps text).first x hx)
    have hhead : ∀ i ∈ p.remainders,
        i ++ ((if p.op.isOnce then [] else [p.starred]) ++ ps) ∈ branchRemainders (p :: ps) := by
      intro i hi
      rw [branchRemainders]
      apply mem_append_left
      apply mem_map_of_mem hi
    constructor
    · intro x hx
      rw [branchFirsts_cons, mem_append] at hx
      rcases hx with hx | hx
      · obtain ⟨z, hz, rfl⟩ := mem_map.mp hx
        simp only [Rest.join_pieces, after_pieces]
        apply hhead _ (hp.first z hz)
      · split_ifs at hx
        · apply ht _ x hx
        · cases hx
    · intro c hc text' x hx
      rw [branchRemainders, mem_append, mem_map] at hc
      rcases hc with ⟨i, hi, rfl⟩ | hc
      · rcases mem_branchFirsts_append hx with ⟨y, hy, heq⟩ | ⟨text'', hx⟩
        · rw [heq]
          apply hhead _ (hp.next i hi _ y hy)
        · cases ho : p.op.isOnce with
          | true => apply ht text'' x (by simpa [ho] using hx)
          | false =>
            have hop : p.starred.op.isOnce = false := by cases p <;> rfl
            have hstar : p.starred.starred = p.starred := by cases p <;> rfl
            rw [ho, if_neg (by simp), singleton_append, branchFirsts_cons,
              mem_append, starred_firsts] at hx
            rcases hx with hx | hx
            · obtain ⟨z, hz, rfl⟩ := mem_map.mp hx
              have hm := hhead _ (hp.first z hz)
              simpa [after_pieces, hop, hstar, ho] using hm
            · split_ifs at hx
              · apply ht _ x hx
              · cases hx
      · rw [branchRemainders]
        apply mem_append_right _ ((ih hps text').next c hc text' x hx)

/-- What can be left inside a piece is among its remainders. -/
theorem Piece.closed (p : Piece) :
  Closed p.firsts p.remainders
  := by
  induction p using Piece.induction with
  | single atom op =>
    rw [firsts, remainders]
    constructor <;> simp [branchFirsts]
  | group alternatives op ih =>
    rw [firsts, remainders, alternativesFirsts_eq]
    constructor
    · intro x hx
      obtain ⟨r, hr, hx⟩ := mem_flatMap.mp hx
      have hb := mem_patternRests hr
      apply mem_alternativesRemainders.mpr
      exact ⟨_, hb, (closed_branch (ih _ hb) r.text).first x hx⟩
    · intro c hc text x hx
      obtain ⟨b, hb, hc⟩ := mem_alternativesRemainders.mp hc
      apply mem_alternativesRemainders.mpr
      use b, hb, (closed_branch (ih b hb) text).next c hc text x hx

/-- The text ends in a bracket or a parenthesis, behind which a star can be put. -/
def closes (text : List Char) : Bool := text.getLast? == some ']' || text.getLast? == some ')'

/-- How long the text can get when stars are put behind its tokens. -/
def extent (text : List Char) : ℕ := max 3 (text.length + (closes text).toNat)

theorem extent_le_of_length {text' : List Char} (h : text.length ≤ text'.length)
    (hl : text ≠ [] → text.getLast? = text'.getLast?) :
  extent text ≤ extent text'
  := by
  by_cases hne : text = []
  · simp [extent, closes, hne]
  · rw [extent, extent, closes, closes, hl hne]
    omega

/-- A text gets no longer when its front is dropped. -/
theorem extent_drop {n : ℕ} :
  extent (text.drop n) ≤ extent text
  := by
  apply extent_le_of_length
  · simp
  · intro hne
    rw [List.getLast?_drop, if_neg]
    intro hle
    apply hne (drop_eq_nil_of_le hle)

theorem extent_append {text text' : List Char} :
  extent (text ++ text') ≤ extent text + extent text'
  := by
  by_cases hne : text' = []
  · simp [hne]
  · have hl : closes (text ++ text') = closes text' := by
      rw [closes, closes, List.getLast?_append_of_ne_nil _ hne]
    rw [extent, extent, extent, hl, length_append]
    omega

/-- The index is that of a closing bracket. -/
theorem getElem?_of_indexOfClosing {i : ℕ} (h : indexOfClosing text = some i) :
  text[i + 1]? = some ']'
  := by
  fun_induction indexOfClosing text generalizing i with
  | case1 c c' cs hcl =>
    obtain rfl := Option.some.inj h
    simp [hcl.2]
  | case2 c c' cs hcl ih =>
    obtain ⟨j, hj, rfl⟩ := Option.map_eq_some_iff.mp h
    simpa using ih hj
  | case3 => cases h

/-- The index is that of a closing parenthesis. -/
theorem getElem?_of_indexOfEnd {prev : Char} {depth : ℕ} {i : ℕ}
    (h : indexOfEnd prev depth text = some i) :
  text[i]? = some ')'
  := by
  fun_induction indexOfEnd prev depth text generalizing i with
  | case1 => cases h
  | case2 prev depth c cs _ ih =>
    obtain ⟨j, hj, rfl⟩ := Option.map_eq_some_iff.mp h
    simpa using ih hj
  | case3 prev c cs _ hcl =>
    obtain rfl := Option.some.inj h
    simp [hcl.1]
  | case4 prev depth c cs _ _ _ ih =>
    obtain ⟨j, hj, rfl⟩ := Option.map_eq_some_iff.mp h
    simpa using ih hj
  | case5 prev depth c cs _ _ ih =>
    obtain ⟨j, hj, rfl⟩ := Option.map_eq_some_iff.mp h
    simpa using ih hj

/-- The token of a piece is short, or ends with a bracket or a parenthesis. -/
theorem tokenLength_cases {p : Piece} {text : List Char} :
  tokenLength text ⟨p.type, [], [], p.op⟩ ≤ 2 ∨ ∃ i,
    tokenLength text ⟨p.type, [], [], p.op⟩ = i + 2 ∧
      (text[i + 1]? = some ']' ∨ text[i + 1]? = some ')')
  := by
  unfold tokenLength
  split
  · split_ifs <;> simp
  · simp
  · split
    next i hi => exact .inr ⟨i, rfl, .inl (getElem?_of_indexOfClosing hi)⟩
    next => simp
  · split
    next i hi => exact .inr ⟨i, rfl, .inl (getElem?_of_indexOfClosing hi)⟩
    next => simp
  · split
    next => simp
    next c cs =>
      split
      next i hi => exact .inr ⟨i, rfl, .inr (by simpa using getElem?_of_indexOfEnd hi)⟩
      next => simp
  · rcases p with ⟨_ | _ | _ | ⟨_ | _, _⟩ | ⟨_ | _, _⟩, _⟩ | _ <;> cases ‹_ = TokenType.logicalOr›
  · simp
  · simp

/-- With a star put behind it, the token is not longer than the text. -/
theorem extent_cut_star {p : Piece} {text : List Char} :
  (p.cut text).1.length + 1 ≤ extent text
  := by
  rw [Piece.cut, patternExtractStart, length_take]
  rcases @tokenLength_cases p text with hle | ⟨i, hi, hl⟩
  · rw [extent]
    omega
  · rw [hi, extent]
    by_cases hend : text.length = i + 2
    · have hcl : closes text = true := by
        rw [closes, List.getLast?_eq_getElem?, hend]
        rcases hl with hl | hl <;> simp [hl]
      rw [hcl, Bool.toNat_true]
      omega
    · have hlt : i + 1 < text.length := by
        rcases hl with hl | hl <;> exact (List.getElem?_eq_some_iff.mp hl).1
      omega

/-- What follows a piece has no longer text. -/
theorem extent_after {p : Piece} {text : List Char} {ps : Branch} :
  extent (p.after text ps).text ≤ extent text
  := by
  have hstar : extent ((p.cut text).1 ++ ['*']) ≤ extent text := by
    have hcut := @extent_cut_star p text
    have hcl : closes ((p.cut text).1 ++ ['*']) = false := by simp [closes]
    rw [extent, hcl, length_append, length_singleton, Bool.toNat_false, Nat.add_zero]
    apply max_le _ hcut
    rw [extent]
    omega
  rw [Piece.after]
  cases ho : p.op.isOnce with
  | true => apply extent_drop
  | false =>
    rw [if_neg (by simp), Rest.join]
    split_ifs with hps hp
    · apply hstar
    · cases hp
    · have hop : p.op.length = 1 := by
        cases hop : p.op <;> simp_all [Operator.isOnce, Operator.length]
      by_cases hnew : (p.cut text).2 = []
      · simpa [hnew] using hstar
      · have hcut : (p.cut text).1.length + 1 + (p.cut text).2.length = text.length := by
          have hnew : text.drop _ ≠ [] := hnew
          rw [ne_eq, drop_eq_nil_iff, not_le] at hnew
          rw [Piece.cut, patternExtractStart, length_take, length_drop]
          simp only [hop] at hnew ⊢
          omega
        apply extent_le_of_length
        · simp only [length_append, length_singleton]
          omega
        · intro _
          rw [List.getLast?_append_of_ne_nil _ hnew, Piece.cut, patternExtractStart,
            List.getLast?_drop, if_neg]
          intro hle
          apply hnew (drop_eq_nil_of_le hle)

/-! ### Bounded texts -/

mutual

/-- How long the texts can get that are left inside a piece. -/
def Piece.weight : Piece → ℕ
  | .single _ _ => 0
  | .group alternatives _ => alternativesWeight alternatives

/-- How long the texts can get that are left inside the pieces of a sequence. -/
def branchWeight : List Piece → ℕ
  | [] => 0
  | p :: ps => p.weight + branchWeight ps

/-- How long the texts can get that are left of alternatives. -/
def alternativesWeight : List (List Piece) → ℕ
  | [] => 0
  | [b] => extent (branchText b) + branchWeight b
  | b :: bs => extent (branchLeftover b) + branchWeight b + alternativesWeight bs

end

mutual

/-- What is left inside a group that is read again prints as what it is. -/
def Piece.isBounded : Piece → Bool
  | .single _ _ => true
  | .group alternatives op =>
    if op.isOnce then alternativesBounded alternatives
    else keepsText alternatives && alternativesInStep false alternatives

/-- The pieces of the sequence are bounded. -/
def branchBounded : List Piece → Bool
  | [] => true
  | p :: ps => p.isBounded && branchBounded ps

/-- The alternatives are bounded. -/
def alternativesBounded : List (List Piece) → Bool
  | [] => true
  | b :: bs => branchBounded b && alternativesBounded bs

end

theorem branchBounded_iff :
  branchBounded b = true ↔ ∀ p ∈ b, p.isBounded = true
  := by
  induction b with
  | nil => simp [branchBounded]
  | cons p ps ih => simp [branchBounded, ih]

theorem alternativesBounded_iff :
  alternativesBounded bs = true ↔ ∀ b ∈ bs, ∀ p ∈ b, p.isBounded = true
  := by
  induction bs with
  | nil => simp [alternativesBounded]
  | cons b bs ih => simp [alternativesBounded, ih, branchBounded_iff]

/-- No alternative weighs more than the pattern. -/
theorem weight_patternRests (hr : r ∈ patternRests bs) :
  extent r.text + branchWeight r.pieces ≤ alternativesWeight bs
  := by
  induction bs with
  | nil => cases hr
  | cons b bs ih =>
    cases bs with
    | nil =>
      obtain rfl := mem_singleton.mp hr
      rw [alternativesWeight]
    | cons c bs =>
      rw [alternativesWeight]
      · rcases mem_cons.mp hr with rfl | hr
        · apply Nat.le_add_right
        · apply Nat.le_add_left_of_le (ih hr)
      · simp

theorem branchWeight_append :
  branchWeight (b ++ c) = branchWeight b + branchWeight c
  := by
  induction b with
  | nil => simp [branchWeight]
  | cons p ps ih => rw [cons_append, branchWeight, branchWeight, ih, Nat.add_assoc]

namespace Rest

variable {r c : Rest} {n m : ℕ}

theorem join_of_eq (h : c.pieces = []) :
  r.join c = r
  := by
  simp [join, h]

theorem join_of_eq_left (h : r.pieces = []) (hc : c.pieces ≠ []) :
  r.join c = c
  := by
  simp [join, h, hc]

theorem join_of_ne (h : r.pieces ≠ []) (hc : c.pieces ≠ []) :
  r.join c = ⟨r.text ++ c.text, r.pieces ++ c.pieces⟩
  := by
  simp [join, h, hc]

/-- Joining is associative. -/
theorem join_assoc {d : Rest} :
  (r.join c).join d = r.join (c.join d)
  := by
  by_cases hd : d.pieces = []
  · rw [join_of_eq hd, join_of_eq hd]
  · by_cases hc : c.pieces = []
    · rw [join_of_eq hc, join_of_eq_left hc hd]
    · by_cases hr : r.pieces = []
      · rw [join_of_eq_left hr hc, join_of_eq_left hr (by simp [hc])]
      · rw [join_of_ne hr hc, join_of_ne hc hd, join_of_ne (by simp [hr]) hd,
          join_of_ne hr (by simp [hc]), append_assoc, append_assoc]

/-- How long the text can get that is left of the rest. -/
def weight (r : Rest) : ℕ := if r.pieces.isEmpty then 0 else extent r.text + branchWeight r.pieces

theorem weight_le :
  r.weight ≤ extent r.text + branchWeight r.pieces
  := by
  rw [weight]
  split_ifs
  · apply Nat.zero_le
  · rfl

theorem weight_of_ne (h : r.pieces ≠ []) :
  r.weight = extent r.text + branchWeight r.pieces
  := by
  simp [weight, h]

/-- What is joined weighs no more than its parts. -/
theorem weight_join :
  (r.join c).weight ≤ r.weight + c.weight
  := by
  by_cases hc : c.pieces = []
  · rw [join_of_eq hc]
    apply Nat.le_add_right
  · by_cases hr : r.pieces = []
    · rw [join_of_eq_left hr hc]
      apply Nat.le_add_left
    · have ht := @extent_append r.text c.text
      rw [join_of_ne hr hc, weight_of_ne hr, weight_of_ne hc, weight_of_ne (by simp [hr]),
        branchWeight_append]
      dsimp only
      omega

/-- The rest prints as what it is, also with something behind it. -/
structure InFront (r : Rest) : Prop where
  /-- The pieces are readable. -/
  readable : r.IsReadable
  /-- They stay in step. -/
  inStep : branchInStep false r.pieces = true
  /-- The text is that of the pieces. -/
  text : r.InStep

/-- The text of the rest does not get longer than `n`. -/
structure Within (n : ℕ) (r : Rest) : Prop where
  /-- The pieces are readable. -/
  readable : r.IsReadable
  /-- What is read again prints as what it is. -/
  bounded : ∀ p ∈ r.pieces, p.isBounded = true
  /-- The bound. -/
  weight : r.weight ≤ n

/-- In front of a rest with bounded text there is only what prints as what it is. -/
def Limited (n : ℕ) (r : Rest) : Prop :=
  ∃ i d : Rest, r = i.join d ∧ i.InFront ∧ d.Within n

theorem inFront_nil :
  InFront ⟨[], []⟩
  := ⟨by simp [IsReadable], by simp [branchInStep], inStep_of_eq rfl⟩

theorem within_nil :
  Within n ⟨[], []⟩
  := ⟨by simp [IsReadable], by simp, by simp [Rest.weight]⟩

theorem InFront.limited (h : r.InFront) :
  r.Limited n
  := ⟨r, ⟨[], []⟩, (join_of_eq rfl).symm, h, within_nil⟩

theorem Within.limited (h : r.Within n) :
  r.Limited n
  := by
  by_cases hne : r.pieces = []
  · have hfr : r.InFront := ⟨h.readable, by simp [hne, branchInStep], inStep_of_eq hne⟩
    apply hfr.limited
  · exact ⟨⟨[], []⟩, r, (join_of_eq_left rfl hne).symm, inFront_nil, h⟩

/-- A limit can be raised. -/
theorem Limited.mono (h : r.Limited n) (hle : n ≤ m) :
  r.Limited m
  := by
  obtain ⟨i, d, heq, hi, hd⟩ := h
  use i, d, heq, hi, hd.readable, hd.bounded, hd.weight.trans hle

/-- Before a rest within a limit, the limits add up. -/
theorem Limited.join (h : r.Limited n) (hc : c.Within m) :
  (r.join c).Limited (n + m)
  := by
  obtain ⟨i, d, rfl, hi, hd⟩ := h
  refine ⟨i, d.join c, join_assoc, hi, ?_, ?_, ?_⟩
  · rw [IsReadable, join_pieces, forall_mem_append]
    exact ⟨hd.readable, hc.readable⟩
  · rw [join_pieces, forall_mem_append]
    exact ⟨hd.bounded, hc.bounded⟩
  · apply weight_join.trans
    apply Nat.add_le_add hd.weight hc.weight

/-- The text of a limited rest is not much longer than that of its pieces. -/
theorem Limited.length_le (h : r.Limited n) (hne : r.pieces ≠ []) :
  r.text.length ≤ (branchText r.pieces).length + n
  := by
  obtain ⟨i, d, rfl, hi, hd⟩ := h
  by_cases hdne : d.pieces = []
  · rw [join_of_eq hdne] at hne ⊢
    rw [(inStep_iff_of_ne hne).mp hi.text]
    apply Nat.le_add_right
  · have hlen : d.text.length ≤ n := by
      have hwt := hd.weight
      rw [weight_of_ne hdne, extent] at hwt
      omega
    by_cases hine : i.pieces = []
    · rw [join_of_eq_left hine hdne]
      omega
    · rw [join_of_ne hine hdne]
      simp only [(inStep_iff_of_ne hine).mp hi.text, branchText_append, length_append]
      omega

end Rest

open Rest

/-- What follows an atom in a piece that is in step, whatever follows the piece. -/
theorem inFront_firsts {p : Piece} (hp : p.isReadable = true) (h : p.isInStep false = true) :
  ∀ x ∈ p.firsts, x.2.InFront
  := by
  intro x hx
  refine ⟨branchAll_iff.mp (positional_isReadable.mem_firsts p false hp x hx), ?_,
    Piece.firsts_inStep hp false h x hx⟩
  apply branchInStep_iff.mpr
  apply positional_isInStep.mem_firsts p false h x hx

/-- What a byte leaves of a rest that prints as what it is. -/
theorem Rest.InFront.firsts (h : r.InFront) :
  ∀ x ∈ r.firsts, x.2.InFront
  := by
  intro x hx
  have hread := branchAll_iff.mp (positional_isReadable.mem_branchFirsts
    ((@branchAll_iff _ false _).mpr h.readable) (fun p _ => positional_isReadable.mem_firsts p) hx)
  have hs := positional_isInStep.mem_branchFirsts (branchInStep_iff.mp h.inStep)
    (fun p _ => positional_isInStep.mem_firsts p) hx
  refine ⟨hread, branchInStep_iff.mpr hs, ?_⟩
  by_cases hne : r.pieces = []
  · rw [Rest.firsts, hne, branchFirsts] at hx
    cases hx
  · rw [Rest.firsts, (inStep_iff_of_ne hne).mp h.text] at hx
    apply branchFirsts_inStep h.readable _ h.inStep x hx
    intro p hp
    apply Piece.firsts_inStep (h.readable p hp)

/-- A byte is read in what is in front, or in what is behind. -/
theorem mem_firsts_join {ps : Branch} (hb : ∀ p ∈ b, p.isReadable = true)
    (h : branchInStep false b = true) (hps : ps ≠ []) {x : Atom × Rest}
    (hx : x ∈ branchFirsts (branchText b ++ text) (b ++ ps)) :
  (∃ y ∈ branchFirsts (branchText b) b, x.2 = y.2.join ⟨text, ps⟩) ∨ x ∈ branchFirsts text ps
  := by
  induction b with
  | nil => exact .inr (by simpa [branchText] using hx)
  | cons p b ih =>
    obtain ⟨hp, hb⟩ := forall_mem_cons.mp hb
    rw [branchInStep, Bool.and_eq_true, Bool.false_and] at h
    have hcls : p.isClass = false := by
      rw [← Bool.not_eq_true]
      intro hcls
      cases (isInStep_class hcls h.1).1
    have hcut : p.cut (branchText (p :: b)) = (p.body, branchText b) := by
      rw [branchText_cons, cut_eq hp hcls]
    have hcut' : p.cut (branchText (p :: b) ++ text) = (p.body, branchText b ++ text) := by
      rw [branchText_cons, append_assoc, cut_eq hp hcls]
    have hbehind : (⟨branchText b ++ text, b ++ ps⟩ : Rest)
        = Rest.join ⟨branchText b, b⟩ ⟨text, ps⟩ := by
      by_cases hne : b = []
      · rw [join_of_eq_left hne hps]
        simp [hne, branchText]
      · rw [join_of_ne hne hps]
    have hafter : p.after (branchText (p :: b) ++ text) (b ++ ps)
        = (p.after (branchText (p :: b)) b).join ⟨text, ps⟩ := by
      rw [Piece.after, Piece.after, hcut, hcut', hbehind]
      split_ifs
      · rfl
      · rw [join_assoc]
    rw [cons_append, branchFirsts_cons, mem_append, hafter, hcut'] at hx
    rw [branchFirsts_cons, hcut]
    rcases hx with hx | hx
    · obtain ⟨z, hz, rfl⟩ := mem_map.mp hx
      refine .inl ⟨_, mem_append_left _ (mem_map_of_mem hz), ?_⟩
      rw [join_assoc]
    · split_ifs at hx with hnull
      · apply (ih hb h.2 hx).imp_left
        rintro ⟨y, hy, heq⟩
        refine ⟨y, ?_, heq⟩
        rw [if_pos hnull]
        apply mem_append_right _ hy
      · cases hx

/-- What follows a piece does not get longer. -/
theorem within_after {p : Piece} {ps : Branch} {text : List Char} (hp : p.isReadable = true)
    (hb : p.isBounded = true) (hps : ∀ q ∈ ps, q.isReadable = true ∧ q.isBounded = true) :
  (p.after text ps).Within (extent text + (if p.op.isOnce then 0 else p.weight) + branchWeight ps)
  := by
  have hextent := @extent_after p text ps
  have hwt := @weight_le (p.after text ps)
  have hstar : p.op.isOnce = false → p.starred.isReadable = true ∧ p.starred.isBounded = true ∧
      p.starred.weight = p.weight := by
    intro ho
    refine ⟨positional_isReadable.starred false p hp ho, ?_, ?_⟩
    · cases p with
      | single atom op => rfl
      | group alternatives op =>
        rw [Piece.op] at ho
        rw [Piece.isBounded, if_neg (by simp [ho])] at hb
        rw [Piece.starred, Piece.isBounded, if_neg (by simp [Operator.isOnce]), hb]
    · cases p <;> rw [Piece.starred, Piece.weight, Piece.weight]
  cases ho : p.op.isOnce with
  | true =>
    have hpcs : (p.after text ps).pieces = ps := by simp [after_pieces, ho]
    rw [hpcs] at hwt
    refine ⟨?_, ?_, by simp only [if_pos]; omega⟩
    · rw [IsReadable, hpcs]
      exact fun q hq => (hps q hq).1
    · rw [hpcs]
      exact fun q hq => (hps q hq).2
  | false =>
    obtain ⟨hread, hbd, heq⟩ := hstar ho
    have hpcs : (p.after text ps).pieces = p.starred :: ps := by simp [after_pieces, ho]
    rw [hpcs, branchWeight, heq] at hwt
    refine ⟨?_, ?_, by simp only [Bool.false_eq_true, if_false]; omega⟩
    · rw [IsReadable, hpcs, forall_mem_cons]
      exact ⟨hread, fun q hq => (hps q hq).1⟩
    · rw [hpcs, forall_mem_cons]
      exact ⟨hbd, fun q hq => (hps q hq).2⟩

/-- What a byte leaves of a sequence with bounded text is limited. -/
theorem limited_branchFirsts {b : Branch} {text : List Char}
    (hb : ∀ p ∈ b, p.isReadable = true ∧ p.isBounded = true)
    (hfsts : ∀ p ∈ b, p.isReadable = true → p.isBounded = true → p.op.isOnce = true →
      ∀ x ∈ p.firsts, x.2.Limited p.weight) :
  ∀ x ∈ branchFirsts text b, x.2.Limited (extent text + branchWeight b)
  := by
  induction b generalizing text with
  | nil =>
    intro x hx
    rw [branchFirsts] at hx
    cases hx
  | cons p ps ih =>
    obtain ⟨⟨hp, hbd⟩, hps⟩ := forall_mem_cons.mp hb
    obtain ⟨hpfirsts, hpsfirsts⟩ := forall_mem_cons.mp hfsts
    have hafter := @within_after p ps text hp hbd hps
    intro x hx
    rw [branchFirsts_cons, mem_append] at hx
    rw [branchWeight]
    rcases hx with hx | hx
    · obtain ⟨z, hz, rfl⟩ := mem_map.mp hx
      cases ho : p.op.isOnce with
      | true =>
        rw [if_pos ho] at hafter
        apply ((hpfirsts hp hbd ho z hz).join hafter).mono
        omega
      | false =>
        rw [if_neg (by simp [ho]), Nat.add_assoc] at hafter
        refine ⟨z.2, _, rfl, ?_, hafter⟩
        cases p with
        | single atom op =>
          rw [Piece.firsts] at hz
          obtain rfl := mem_singleton.mp hz
          apply inFront_nil
        | group alternatives op =>
          rw [Piece.op] at ho
          rw [Piece.isBounded, if_neg (by simp [ho])] at hbd
          apply inFront_firsts hp _ z hz
          rw [Piece.isInStep, Bool.false_and, hbd]
    · split_ifs at hx
      · apply (ih hps hpsfirsts x hx).mono
        have hextent : extent (p.cut text).2 ≤ extent text := extent_drop
        omega
      · cases hx

/-- What a byte leaves of a bounded piece, read once, is limited by its weight. -/
theorem limited_firsts (p : Piece) :
  p.isReadable = true → p.isBounded = true → p.op.isOnce = true →
    ∀ x ∈ p.firsts, x.2.Limited p.weight
  := by
  induction p using Piece.induction with
  | single atom op =>
    intro _ _ _ x hx
    rw [Piece.firsts] at hx
    obtain rfl := mem_singleton.mp hx
    apply inFront_nil.limited
  | group alternatives op ih =>
    intro hp hbd ho x hx
    rw [Piece.op] at ho
    rw [Piece.isBounded, if_pos ho, alternativesBounded_iff] at hbd
    rw [Piece.firsts, alternativesFirsts_eq, mem_flatMap] at hx
    obtain ⟨r, hr, hx⟩ := hx
    have hb := mem_patternRests hr
    have hread := ((isReadablePattern_iff.mp (isReadable_group_iff.mp hp).1).2 _ hb).2
    rw [Piece.weight]
    apply (limited_branchFirsts (fun q hq => ⟨hread q hq, hbd _ hb q hq⟩) (ih _ hb)
      x hx).mono (weight_patternRests hr)

/-- What a byte leaves of a limited rest is limited. -/
theorem Rest.Limited.firsts {n : ℕ} (h : r.Limited n) :
  ∀ x ∈ r.firsts, x.2.Limited n
  := by
  obtain ⟨i, d, rfl, hi, hd⟩ := h
  by_cases hdne : d.pieces = []
  · rw [join_of_eq hdne]
    exact fun x hx => (hi.firsts x hx).limited
  · have hbehind : ∀ x ∈ d.firsts, x.2.Limited n := by
      intro x hx
      have hwt := hd.weight
      rw [weight_of_ne hdne] at hwt
      apply (limited_branchFirsts (fun q hq => ⟨hd.readable q hq, hd.bounded q hq⟩)
        (fun q _ => limited_firsts q) x hx).mono hwt
    by_cases hine : i.pieces = []
    · rw [join_of_eq_left hine hdne]
      apply hbehind
    · intro x hx
      rw [join_of_ne hine hdne, Rest.firsts, (inStep_iff_of_ne hine).mp hi.text] at hx
      rcases mem_firsts_join hi.readable hi.inStep hdne hx with ⟨y, hy, heq⟩ | hx
      · rw [heq]
        rw [← (inStep_iff_of_ne hine).mp hi.text] at hy
        exact ⟨y.2, d, rfl, hi.firsts y hy, hd⟩
      · apply hbehind x hx

end Librecompare

import Contextd.Librecompare.Bracket

/-!
# Readable patterns

The parser searches the text for the end of a bracket list and of a group.  The second search is
misled by an escaped backslash right before a parenthesis, and by a bracket list whose parentheses
are not balanced.  A pattern is readable if it has neither inside a group, and if its bracket lists
are legible (`isReadablePattern`).
-/

namespace Librecompare

open List

variable {b : Branch} {bs alternatives : Pattern} {op : Operator} {c prev : Char} {p : Piece}
  {cs r : List Char}

/-! ### Readable patterns -/

/-- The atom is read as what it stands for. -/
def Atom.isLegible : Atom → Bool
  | .literal c => isByte c && !specialCharacters.contains c
  | .escaped c => isByte c && !c.isAlphanum
  | .any => true
  | .bracket negated entries =>
    !entries.isEmpty && entriesLegible negated entries && (negated || !startsWithCaret entries)
  | .special _ _ => true

/-- The parentheses of a text are balanced, with `depth` of them open before it. -/
def isBalanced : ℕ → List Char → Bool
  | depth, [] => depth == 0
  | depth, c :: cs =>
    if c = '(' then isBalanced (depth + 1) cs
    else if c = ')' then depth != 0 && isBalanced (depth - 1) cs
    else isBalanced depth cs

/-- A bracket list has as many opening as closing parentheses, in this order. -/
def Piece.hasBalance : Piece → Bool
  | .single (.bracket negated entries) _ => isBalanced 0 (bracketContent negated entries)
  | _ => true

/-- The piece is a group. -/
def Piece.isGroup : Piece → Bool
  | .group _ _ => true
  | _ => false

/-- The text of the piece ends with an escaped backslash. -/
def Piece.endsInBackslash : Piece → Bool
  | .single (.escaped c) .concat => c == '\\'
  | _ => false

/-- The search for the end of a group passes the sequence; the parenthesis that closes the group
follows it if `closing`. -/
def branchSheltered (closing : Bool) : Branch → Bool
  | [] => true
  | [p] => p.hasBalance && !(p.endsInBackslash && closing)
  | p :: q :: ps =>
    p.hasBalance && !(p.endsInBackslash && q.isGroup) && branchSheltered closing (q :: ps)

/-- The search for the end of a group passes its alternatives. -/
def isSheltered : Pattern → Bool
  | [] => true
  | [b] => branchSheltered true b
  | b :: c :: bs => branchSheltered false b && isSheltered (c :: bs)

mutual

/-- The piece is read as what it stands for. -/
def Piece.isReadable : Piece → Bool
  | .single atom _ => atom.isLegible
  | .group alternatives _ =>
    !alternatives.isEmpty && alternativesReadable alternatives && isSheltered alternatives

/-- All pieces are readable. -/
def branchReadable : List Piece → Bool
  | [] => true
  | p :: ps => p.isReadable && branchReadable ps

/-- Every alternative has pieces, and they are readable. -/
def alternativesReadable : List (List Piece) → Bool
  | [] => true
  | b :: bs => !b.isEmpty && branchReadable b && alternativesReadable bs

end

/-- The pattern has alternatives, and they are read as what they stand for. -/
def isReadablePattern (p : Pattern) : Bool := !p.isEmpty && alternativesReadable p

theorem branchReadable_iff :
  branchReadable b = true ↔ ∀ p ∈ b, p.isReadable = true
  := by
  induction b with
  | nil => simp [branchReadable]
  | cons p ps ih => simp [branchReadable, ih]

theorem alternativesReadable_iff :
  alternativesReadable bs = true ↔ ∀ b ∈ bs, b ≠ [] ∧ ∀ p ∈ b, p.isReadable = true
  := by
  induction bs with
  | nil => simp [alternativesReadable]
  | cons b bs ih => simp [alternativesReadable, ih, branchReadable_iff, and_assoc]

/-- What a readable pattern consists of. -/
theorem isReadablePattern_iff :
  isReadablePattern bs = true ↔ bs ≠ [] ∧ ∀ b ∈ bs, b ≠ [] ∧ ∀ p ∈ b, p.isReadable = true
  := by
  simp [isReadablePattern, alternativesReadable_iff]

/-- What a readable group consists of. -/
theorem isReadable_group_iff :
  (Piece.group alternatives op).isReadable = true ↔
    isReadablePattern alternatives = true ∧ isSheltered alternatives = true
  := by
  simp [Piece.isReadable, isReadablePattern]

theorem isLegible_bracket_iff {negated : Bool} {entries : List Entry} :
  (Atom.bracket negated entries).isLegible = true ↔
    entries ≠ [] ∧ entriesLegible negated entries = true
      ∧ (negated = false → startsWithCaret entries = false)
  := by
  cases negated <;> simp [Atom.isLegible, and_assoc]

theorem isLegible_literal_iff :
  (Atom.literal c).isLegible = true ↔ isByte c = true ∧ c ∉ specialCharacters
  := by
  simp [Atom.isLegible]

/-- Properties of readable pieces are proved for atoms, and for groups from the pieces inside. -/
theorem Piece.readableInduction {P : Piece → Prop}
    (single : ∀ atom op, atom.isLegible = true → P (.single atom op))
    (group : ∀ alternatives op, isReadablePattern alternatives = true →
      isSheltered alternatives = true → (∀ b ∈ alternatives, ∀ p ∈ b, P p) →
      P (.group alternatives op)) {p : Piece} (h : p.isReadable = true) :
  P p
  := by
  induction p using Piece.induction with
  | single atom op =>
    rw [Piece.isReadable] at h
    apply single atom op h
  | group alternatives op ih =>
    obtain ⟨hread, hshel⟩ := isReadable_group_iff.mp h
    apply group alternatives op hread hshel
    intro b hb p hp
    apply ih b hb p hp
    apply ((isReadablePattern_iff.mp hread).2 b hb).2 p hp

/-! ### The characters of a readable pattern -/

/-- The text of a legible atom is Latin-1. -/
theorem Atom.mem_text {a : Atom} (h : a.isLegible = true) (hc : c ∈ a.text) :
  isByte c = true
  := by
  cases a with
  | literal d =>
    obtain rfl := mem_singleton.mp hc
    apply (isLegible_literal_iff.mp h).1
  | escaped d =>
    have hd : isByte d = true ∧ d.isAlphanum = false := by simpa [isLegible] using h
    simp only [text, mem_cons, not_mem_nil, or_false] at hc
    rcases hc with rfl | rfl
    · rfl
    · apply hd.1
  | any =>
    obtain rfl := mem_singleton.mp hc
    rfl
  | bracket negated entries =>
    obtain ⟨-, hents, -⟩ := isLegible_bracket_iff.mp h
    simp only [text, mem_cons, cons_append, mem_append, not_mem_nil, or_false] at hc
    rcases hc with rfl | hc | rfl
    · rfl
    · apply (mem_bracketContent hents hc).1
    · rfl
  | special negated s =>
    have hall : ∀ negated s, ∀ c ∈ (special negated s).text, isByte c = true := by
      intro negated s
      cases negated <;> cases s <;> decide
    apply hall negated s c hc

theorem mem_operatorText (hc : c ∈ op.text) :
  isByte c = true
  := by
  have hall : ∀ op : Operator, ∀ c ∈ op.text, isByte c = true := by
    intro op
    cases op <;> decide
  apply hall op c hc

/-- The text of the piece has only characters of Latin-1. -/
def InLatin1 (p : Piece) : Prop := ∀ c ∈ p.body, isByte c = true

theorem branch_inLatin1 (h : ∀ p ∈ b, InLatin1 p) :
  ∀ c ∈ branchText b, isByte c = true
  := by
  induction b with
  | nil => simp [branchText]
  | cons p ps ih =>
    obtain ⟨hp, hps⟩ := forall_mem_cons.mp h
    rw [branchText_cons, forall_mem_append, forall_mem_append]
    exact ⟨⟨hp, fun c hc => mem_operatorText hc⟩, ih hps⟩

theorem pattern_inLatin1 (h : ∀ b ∈ bs, ∀ p ∈ b, InLatin1 p) :
  ∀ c ∈ patternText bs, isByte c = true
  := by
  induction bs with
  | nil => simp [patternText]
  | cons b bs ih =>
    obtain ⟨hb, hbs⟩ := forall_mem_cons.mp h
    cases bs with
    | nil =>
      rw [patternText]
      apply branch_inLatin1 hb
    | cons b' bs =>
      rw [patternText_cons_cons, forall_mem_append, forall_mem_cons]
      exact ⟨branch_inLatin1 hb, rfl, ih hbs⟩

theorem Piece.inLatin1 (h : p.isReadable = true) :
  InLatin1 p
  := by
  apply Piece.readableInduction _ _ h
  · intro atom op hatom c hc
    rw [Piece.body] at hc
    apply Atom.mem_text hatom hc
  · intro alternatives op _ _ ih
    rw [InLatin1, Piece.body, cons_append, forall_mem_cons, forall_mem_append]
    exact ⟨rfl, pattern_inLatin1 ih, by decide⟩

/-- So is that of a readable pattern. -/
theorem readable_inLatin1 (h : isReadablePattern bs = true) :
  ∀ c ∈ patternText bs, isByte c = true
  := by
  apply pattern_inLatin1
  intro b hb p hp
  apply Piece.inLatin1
  apply ((isReadablePattern_iff.mp h).2 b hb).2 p hp

/-- How the text of a readable piece starts. -/
theorem Piece.exists_body (h : p.isReadable = true) :
  ∃ c cs, p.body = c :: cs ∧ isByte c = true ∧ c ∉ ['|', ')', '*', '+', '?']
    ∧ (p.isGroup = false → c ≠ '(')
  := by
  cases p with
  | single atom op =>
    rw [Piece.body]
    cases atom with
    | literal c =>
      rw [isReadable, isLegible_literal_iff] at h
      have hne : ∀ d ∈ specialCharacters, c ≠ d := by
        rintro d hd rfl
        apply h.2 hd
      refine ⟨c, [], rfl, h.1, ?_, fun _ => hne '(' (by decide)⟩
      simp [hne '|' (by decide), hne ')' (by decide), hne '*' (by decide), hne '+' (by decide),
        hne '?' (by decide)]
    | _ => exact ⟨_, _, rfl, by decide, by decide, fun _ => by decide⟩
  | group alternatives op =>
    rw [Piece.body]
    exact ⟨_, _, rfl, by decide, by decide, by simp [isGroup]⟩

/-- A readable pattern starts with no operator, bar or closing parenthesis. -/
theorem exists_patternText (h : isReadablePattern bs = true) :
  ∃ c cs, patternText bs = c :: cs ∧ c ∉ ['|', ')', '*', '+', '?']
  := by
  obtain ⟨hne, hread⟩ := isReadablePattern_iff.mp h
  obtain ⟨b, bs, rfl⟩ := exists_cons_of_ne_nil hne
  obtain ⟨hb, hpcs⟩ := hread b mem_cons_self
  obtain ⟨p, ps, rfl⟩ := exists_cons_of_ne_nil hb
  obtain ⟨c, cs, hbody, -, hc, -⟩ := Piece.exists_body (hpcs p mem_cons_self)
  cases bs with
  | nil =>
    rw [patternText, branchText_cons, hbody]
    exact ⟨_, _, rfl, hc⟩
  | cons b' bs =>
    rw [patternText_cons_cons, branchText_cons, hbody]
    exact ⟨_, _, rfl, hc⟩

theorem ofByteArray_of_isByte (h : ∀ c ∈ cs, isByte c = true) :
  ofByteArray cs = cs
  := by
  apply ofByteArray_eq_self
  intro c hc
  apply (isByte_iff.mp (h c hc)).1

theorem map_toLatin1_of_isByte (h : ∀ c ∈ cs, isByte c = true) :
  cs.map toLatin1 = cs
  := by
  nth_rewrite 2 [← map_id cs]
  apply map_congr_left
  intro c hc
  apply if_pos (isByte_iff.mp (h c hc)).2

/-! ### The end of a bracket list -/

/-- The closing bracket is found behind a text without closing brackets and backslashes. -/
theorem indexOfClosing_append {xs : List Char} (hc : c ≠ '\\') (h : ']' ∉ xs) (h' : '\\' ∉ xs) :
  indexOfClosing (c :: xs ++ ']' :: r) = some xs.length
  := by
  induction xs generalizing c with
  | nil => simp [indexOfClosing, hc]
  | cons x xs ih =>
    simp only [mem_cons, not_or] at h h'
    rw [cons_append, cons_append, indexOfClosing, if_neg (by simp [Ne.symm h.1])]
    rw [← cons_append, ih (Ne.symm h'.1) h.2 h'.2]
    rfl

/-! ### The end of a group -/

/-- No parenthesis follows. -/
def Open (r : List Char) : Prop := ∀ c ∈ r.head?, c ≠ '(' ∧ c ≠ ')'

/-- Behind a backslash, no parenthesis follows. -/
def Ready (prev : Char) (r : List Char) : Prop := prev = '\\' → Open r

/-- The search for the end of a group passes the text before `r`: it goes on behind it at the same
depth, and takes no parenthesis for an escaped one. -/
def Passes (text r : List Char) : Prop :=
  ∀ prev depth, Ready prev (text ++ r) → ∃ prev', Ready prev' r ∧
    indexOfEnd prev depth (text ++ r) = (indexOfEnd prev' depth r).map (· + text.length)

theorem Ready.of_ne (h : prev ≠ '\\') :
  Ready prev r
  := fun hprev => absurd hprev h

theorem passes_nil :
  Passes [] r
  := by
  intro prev depth hrdy
  use prev, hrdy, by simp

/-- The search passes two texts in sequence. -/
theorem Passes.append {text text' r : List Char} (h : Passes text (text' ++ r))
    (h' : Passes text' r) :
  Passes (text ++ text') r
  := by
  intro prev depth hrdy
  rw [append_assoc] at hrdy
  obtain ⟨prev', hrdy', heq⟩ := h prev depth hrdy
  obtain ⟨prev'', hrdy'', heq'⟩ := h' prev' depth hrdy'
  refine ⟨prev'', hrdy'', ?_⟩
  rw [append_assoc, heq, heq', Option.map_map]
  congr 1
  funext n
  simp only [Function.comp_apply, length_append]
  omega

theorem indexOfEnd_cons {depth : ℕ} (h : c ≠ '(' ∧ c ≠ ')') :
  indexOfEnd prev depth (c :: cs) = (indexOfEnd c depth cs).map (· + 1)
  := by
  simp [indexOfEnd, h]

/-- A character other than parentheses and the backslash is passed. -/
theorem passes_singleton (hopen : c ≠ '(') (hcl : c ≠ ')') (hesc : c ≠ '\\') :
  Passes [c] r
  := by
  intro prev depth _
  use c, .of_ne hesc, indexOfEnd_cons ⟨hopen, hcl⟩

/-- An escaped character is passed, unless it is a backslash itself before a parenthesis. -/
theorem passes_escaped (hc : c = '\\' → Open r) :
  Passes ['\\', c] r
  := by
  intro prev depth _
  refine ⟨c, hc, ?_⟩
  rw [cons_append, indexOfEnd_cons (by decide)]
  simp [indexOfEnd]

/-- A text with balanced parentheses and without backslashes is passed. -/
theorem indexOfEnd_of_isBalanced (hesc : ∀ c ∈ cs, c ≠ '\\') {k : ℕ}
    (hbal : isBalanced k cs = true) (hprev : Ready prev (cs ++ r)) (depth : ℕ) :
  ∃ prev', Ready prev' r ∧
    indexOfEnd prev (depth + k) (cs ++ r) = (indexOfEnd prev' depth r).map (· + cs.length)
  := by
  induction cs generalizing k prev with
  | nil =>
    obtain rfl : k = 0 := by simpa [isBalanced] using hbal
    use prev, hprev, by simp
  | cons c cs ih =>
    obtain ⟨hc, hcs⟩ := forall_mem_cons.mp hesc
    have hn : ∀ k, isBalanced k cs = true → ∃ prev', Ready prev' r ∧
        (indexOfEnd c (depth + k) (cs ++ r)).map (· + 1)
          = (indexOfEnd prev' depth r).map (· + (c :: cs).length) := by
      intro k hk
      obtain ⟨prev', hrdy, heq⟩ := ih hcs hk (.of_ne hc)
      refine ⟨prev', hrdy, ?_⟩
      rw [heq, Option.map_map]
      rfl
    have hpar : c = '(' ∨ c = ')' → prev ≠ '\\' := by
      rintro hc rfl
      have := hprev rfl c (by simp)
      rcases hc with rfl | rfl <;> simp at this
    rw [isBalanced] at hbal
    rw [cons_append]
    by_cases hopen : c = '('
    · rw [if_pos hopen] at hbal
      rw [indexOfEnd, if_pos ⟨hopen, hpar (.inl hopen)⟩]
      apply hn (k + 1) hbal
    · rw [if_neg hopen] at hbal
      by_cases hcl : c = ')'
      · rw [if_pos hcl, Bool.and_eq_true, bne_iff_ne] at hbal
        have hdepth : depth + k - 1 = depth + (k - 1) := by omega
        rw [indexOfEnd, if_neg (by simp [hopen]), if_pos ⟨hcl, hpar (.inr hcl)⟩,
          if_neg (by omega), hdepth]
        apply hn (k - 1) hbal.2
      · rw [if_neg hcl] at hbal
        rw [indexOfEnd_cons ⟨hopen, hcl⟩]
        apply hn k hbal

/-- A text in parentheses is passed if the text is. -/
theorem Passes.parenthesized {text r : List Char} (h : Passes text (')' :: r)) :
  Passes ('(' :: text ++ [')']) r
  := by
  intro prev depth hrdy
  have hprev : prev ≠ '\\' := by
    intro hprev
    apply (hrdy hprev '(' (by simp)).1 rfl
  obtain ⟨prev', hrdy', heq⟩ := h '(' (depth + 1) (.of_ne (by decide))
  have hprev' : prev' ≠ '\\' := by
    intro hprev'
    apply (hrdy' hprev' ')' (by simp)).2 rfl
  refine ⟨')', .of_ne (by decide), ?_⟩
  rw [cons_append, cons_append, append_assoc, indexOfEnd,
    if_pos ⟨rfl, hprev⟩, singleton_append, heq, indexOfEnd, if_neg (by simp),
    if_pos ⟨rfl, hprev'⟩, if_neg (by simp), Nat.add_sub_cancel, Option.map_map, Option.map_map]
  congr 1
  funext n
  simp only [Function.comp_apply, length_append, length_cons, length_nil]
  omega

/-- A text that is passed ends where its parenthesis closes. -/
theorem Passes.indexOfEnd_eq {text : List Char} (h : Passes text (')' :: r)) : indexOfEnd '(' 0
    (text ++ ')' :: r) = some text.length
  := by
  obtain ⟨prev, hrdy, heq⟩ := h '(' 0 (.of_ne (by decide))
  have hprev : prev ≠ '\\' := by
    intro hprev
    apply (hrdy hprev ')' (by simp)).2 rfl
  rw [heq, indexOfEnd, if_neg (by simp), if_pos ⟨rfl, hprev⟩, if_pos rfl]
  simp

/-! ### Sheltered texts are passed -/

theorem Operator.passes :
  Passes op.text r
  := by
  cases op with
  | concat => apply passes_nil
  | _ => apply passes_singleton <;> decide

/-- The text of an operator, or what follows if there is none, does not start with a parenthesis. -/
theorem Operator.open_text (h : op = .concat → Open r) :
  Open (op.text ++ r)
  := by
  cases op with
  | concat => apply h rfl
  | _ =>
    intro c hc
    obtain rfl := Option.some.inj hc
    decide

/-- The search for the end of a group passes an atom. -/
theorem Atom.passes {a : Atom} (h : a.isLegible = true)
    (hbal : ∀ op, (Piece.single a op).hasBalance = true) (hesc : a = .escaped '\\' → Open r) :
  Passes a.text r
  := by
  cases a with
  | literal c =>
    have hc := (isLegible_literal_iff.mp h).2
    apply passes_singleton <;> rintro rfl <;> exact hc (by decide)
  | escaped c =>
    apply passes_escaped
    rintro rfl
    apply hesc rfl
  | any => apply passes_singleton <;> decide
  | bracket negated entries =>
    obtain ⟨-, hents, -⟩ := isLegible_bracket_iff.mp h
    have hcont : Passes (bracketContent negated entries) (']' :: r) := by
      intro prev depth hrdy
      apply indexOfEnd_of_isBalanced _ (hbal .concat) hrdy
      intro c hc
      apply (mem_bracketContent hents hc).2.2
    rw [text]
    apply Passes.append _ (passes_singleton (by decide) (by decide) (by decide))
    apply @Passes.append ['['] _ _ _ hcont
    apply passes_singleton <;> decide
  | special negated s =>
    apply passes_escaped
    intro hletter
    cases negated <;> cases s <;> cases hletter

/-- The text of the piece is passed, if no parenthesis follows an escaped backslash. -/
def IsPassed (p : Piece) : Prop :=
  ∀ r, p.hasBalance = true → (p.endsInBackslash = true → Open r) → Passes (p.body ++ p.op.text) r

/-- It passes a sequence whose pieces it passes. -/
theorem branch_passes {closing : Bool} (h : ∀ p ∈ b, IsPassed p)
    (hread : ∀ p ∈ b, p.isReadable = true) (hshel : branchSheltered closing b = true)
    (hr : closing = false → Open r) :
  Passes (branchText b) r
  := by
  induction b with
  | nil =>
    rw [branchText]
    apply passes_nil
  | cons p ps ih =>
    obtain ⟨hp, hps⟩ := forall_mem_cons.mp h
    obtain ⟨-, hreadables⟩ := forall_mem_cons.mp hread
    rw [branchText_cons]
    cases ps with
    | nil =>
      simp only [branchSheltered, Bool.and_eq_true, Bool.not_eq_true',
        Bool.and_eq_false_iff] at hshel
      rw [branchText, append_nil]
      apply hp r hshel.1
      intro hends
      apply hr
      simpa [hends] using hshel.2
    | cons q ps =>
      simp only [branchSheltered, Bool.and_eq_true, Bool.not_eq_true',
        Bool.and_eq_false_iff] at hshel
      obtain ⟨⟨hbal, hends⟩, hrest⟩ := hshel
      apply Passes.append _ (ih hps hreadables hrest)
      apply hp _ hbal
      intro hp' c hc
      obtain ⟨d, ds, hbody, -, hd, hgp⟩ := q.exists_body (hreadables q mem_cons_self)
      rw [branchText_cons, hbody] at hc
      obtain rfl := Option.some.inj hc
      refine ⟨hgp (by simpa [hp'] using hends), ?_⟩
      rintro rfl
      simp at hd

/-- It passes alternatives. -/
theorem pattern_passes (h : ∀ b ∈ bs, ∀ p ∈ b, IsPassed p)
    (hread : ∀ b ∈ bs, ∀ p ∈ b, p.isReadable = true) (hshel : isSheltered bs = true) :
  Passes (patternText bs) r
  := by
  induction bs with
  | nil =>
    rw [patternText]
    apply passes_nil
  | cons b bs ih =>
    obtain ⟨hb, hbs⟩ := forall_mem_cons.mp h
    obtain ⟨hreadb, hreadbs⟩ := forall_mem_cons.mp hread
    cases bs with
    | nil =>
      rw [patternText]
      apply branch_passes hb hreadb hshel
      simp
    | cons c bs =>
      rw [isSheltered, Bool.and_eq_true] at hshel
      have hbar : Open ('|' :: patternText (c :: bs) ++ r) := by
        intro d hd
        obtain rfl := Option.some.inj hd
        decide
      rw [patternText_cons_cons]
      apply Passes.append (branch_passes hb hreadb hshel.1 (fun _ => hbar))
      apply @Passes.append ['|'] _ _ _ (ih hbs hreadbs hshel.2)
      apply passes_singleton <;> decide

/-- It passes every readable piece. -/
theorem Piece.isPassed (h : p.isReadable = true) :
  IsPassed p
  := by
  apply Piece.readableInduction _ _ h
  · intro atom op hatom r hbal hends
    rw [Piece.body]
    apply Passes.append _ Operator.passes
    apply Atom.passes hatom
    · intro op'
      cases atom <;> exact hbal
    · rintro rfl
      apply Operator.open_text
      rintro (rfl : op = .concat)
      apply hends rfl
  · intro alternatives op hread hshel ih r _ _
    rw [Piece.body]
    apply Passes.append _ Operator.passes
    apply Passes.parenthesized
    apply pattern_passes ih _ hshel
    intro b hb
    apply ((isReadablePattern_iff.mp hread).2 b hb).2

/-- The text inside a readable group is passed. -/
theorem group_passes (h : (Piece.group alternatives op).isReadable = true) (r : List Char) :
  Passes (patternText alternatives) r
  := by
  obtain ⟨hread, hshel⟩ := isReadable_group_iff.mp h
  have hpcs := fun b hb => ((isReadablePattern_iff.mp hread).2 b hb).2
  apply pattern_passes _ hpcs hshel
  intro b hb p hp
  apply Piece.isPassed (hpcs b hb p hp)

/-- The text of a readable group ends at its parenthesis. -/
theorem subPatternText_eq (h : (Piece.group alternatives op).isReadable = true) :
  subPatternText (patternText alternatives ++ ')' :: r) = (patternText alternatives, r)
  := by
  have hix := (group_passes h (')' :: r)).indexOfEnd_eq
  obtain ⟨c, cs, ht, hc⟩ := exists_patternText (isReadable_group_iff.mp h).1
  have hcl : c ≠ ')' := by
    rintro rfl
    simp at hc
  rw [ht, cons_append] at hix ⊢
  rw [subPatternText]
  · simp [hix]
  · intro cs' hcs'
    apply hcl (List.cons.inj hcs').1

end Librecompare

import Contextd.Librecompare.Expression
import Contextd.Librecompare.Tidiness

/-!
# Steps of the parser

One step of the loop of `parsePattern` for each way in which the data can go on, and from these the
runs over a piece, a sequence and alternatives.  A run over readable text ends in a state with the
text behind it, whose transitions are those of the pieces (`parsePattern_eq`).  So the transitions
of a legible pattern have the language of the pattern (`transitionsLang_parsePattern`).
-/

open Computability

namespace Librecompare

open List

variable {b : Branch} {bs : Pattern}

variable {qt : Qt} {n : ℕ} {s : Scan}

/-! ### States -/

namespace Scan

/-- Before a token is found, nothing of an earlier one is left. -/
def Calm (s : Scan) : Prop :=
  s.foundToken = false → s.current.data = [] ∧ s.current.subExprs = [] ∧ s.foundOp = false

theorem calm_start (data : List Char) :
  (start data).Calm
  := fun _ => ⟨rfl, rfl, rfl⟩

/-- The state at the next token. -/
theorem flush_eq (h : s.Calm) :
  ∃ type op, s.flush = ⟨s.before, s.data, s.flushed, ⟨type, [], [], op⟩, false, false⟩
  := by
  rcases s with ⟨before, data, ts, ⟨type, bytes, subExprs, op⟩, _ | _, foundOp⟩
  · obtain ⟨hbs, hsubExprs, hop⟩ := h rfl
    obtain rfl : bytes = [] := hbs
    obtain rfl : subExprs = [] := hsubExprs
    obtain rfl : foundOp = false := hop
    exact ⟨type, op, rfl⟩
  · exact ⟨type, _, rfl⟩

/-- The text moves from behind the index to before it. -/
theorem flush_move (h : s.Calm) (before data : List Char) :
  ∃ type op, { s with before := before, data := data }.flush
    = ⟨before, data, s.flushed, ⟨type, [], [], op⟩, false, false⟩
  := @flush_eq { s with before := before, data := data } h

end Scan

namespace RegExp

variable {cs : List Char}

/-! ### Steps -/

/-- The token of an escaped character. -/
def escapeToken (c : Char) : TokenType × ByteSet :=
  match specialClass c with
  | some text => bracketToken text
  | none => (.normal, [byteOf c])

theorem scan_escaped {c : Char} (h : s.Calm) (hd : s.data = '\\' :: c :: cs) :
  ∃ op, scan qt (n + 1) s = scan qt n ⟨s.before ++ ['\\', c], cs, s.flushed,
    ⟨(escapeToken c).1, (escapeToken c).2, [], op⟩, true, false⟩
  := by
  obtain ⟨type, op, hfl⟩ := Scan.flush_move h (s.before ++ ['\\', c]) cs
  use op
  rw [scan, hd]
  simp only [hfl, escapeToken]
  rcases specialClass c with _ | text <;> rfl

/-- A literal becomes the current token. -/
theorem scan_literal {c : Char} (h : s.Calm) (hdata : s.data = c :: cs)
    (hc : c ∉ specialCharacters) :
  ∃ op, scan qt (n + 1) s = scan qt n ⟨s.before ++ [c], cs, s.flushed,
    ⟨.normal, [byteOf c], [], op⟩, true, false⟩
  := by
  obtain ⟨type, op, hfl⟩ := Scan.flush_eq h
  have hne : ∀ d ∈ specialCharacters, c ≠ d := by
    rintro d hd rfl
    apply hc hd
  have hop : operatorOf c = none := by
    unfold operatorOf
    split
    · exact absurd rfl (hne '*' (by decide))
    · exact absurd rfl (hne '+' (by decide))
    · exact absurd rfl (hne '?' (by decide))
    · rfl
  use op
  rw [scan, hdata]
  split
  · rename_i heq
    cases heq
  · rename_i heq
    exact absurd (List.cons.inj heq).1 (hne '\\' (by decide))
  · rename_i heq
    obtain ⟨rfl, rfl⟩ := List.cons.inj heq
    simp only [hop, hfl]
    split
    · exact absurd rfl (hne '(' (by decide))
    · exact absurd rfl (hne '|' (by decide))
    · exact absurd rfl (hne '[' (by decide))
    · exact absurd rfl (hne '.' (by decide))
    · rfl

theorem scan_any (h : s.Calm) (hd : s.data = '.' :: cs) :
  ∃ op, scan qt (n + 1) s = scan qt n ⟨s.before ++ ['.'], cs, s.flushed,
    ⟨.any, [], [], op⟩, true, false⟩
  := by
  obtain ⟨type, op, hfl⟩ := Scan.flush_eq h
  use op
  rw [scan, hd]
  simp only [operatorOf, hfl]
  rfl

theorem scan_bracket {cs : List Char} (h : s.Calm) (hd : s.data = '[' :: cs) :
  ∃ op, scan qt (n + 1) s = scan qt n ⟨s.before, (bracketText cs).2, s.flushed,
    ⟨(bracketToken (bracketText cs).1).1, (bracketToken (bracketText cs).1).2, [], op⟩, true,
      false⟩
  := by
  obtain ⟨type, op, hfl⟩ := Scan.flush_eq h
  use op
  rw [scan, hd]
  simp only [operatorOf, hfl]
  rfl

/-- The expression made of a part of the pattern. -/
def parsed (qt : Qt) (n : ℕ) (text : List Char) : RegExp :=
  mk (ofByteArray text)
    (if qt.isValid (ofByteArray text) then
      scan qt n (.start ((ofByteArray text).map toLatin1))
    else [])

/-- A group becomes the current token, parsed on its own. -/
theorem scan_group {cs : List Char} (h : s.Calm) (hd : s.data = '(' :: cs) :
  ∃ op, scan qt (n + 1) s = scan qt n ⟨s.before, (subPatternText cs).2, s.flushed,
    ⟨.subExpr, [], [parsed qt n (subPatternText cs).1], op⟩, true, false⟩
  := by
  obtain ⟨type, op, hfl⟩ := Scan.flush_eq h
  use op
  rw [scan, hd]
  simp only [operatorOf, hfl]
  rfl

theorem scan_nil (hd : s.data = []) :
  scan qt n s = s.flushed
  := by
  cases n with
  | zero => rfl
  | succ n => rw [scan, hd]

/-- A bar joins what is before it and what is behind it, and ends the loop. -/
theorem scan_bar {cs : List Char} (h : s.Calm) (hd : s.data = '|' :: cs) :
  ∃ t, scan qt (n + 1) s =
    [{ ((mk (ofByteArray s.before) s.flushed).or qt (parsed qt n cs)).transitions.headD t with
      op := .concat }]
  := by
  obtain ⟨type, op, hfl⟩ := Scan.flush_eq h
  use ⟨type, [], [], op⟩
  rw [scan, hd]
  simp only [operatorOf, hfl]
  apply @scan_nil qt n ⟨s.before, [], [], _, true, false⟩ rfl

/-- The operator behind a token becomes that of the transition. -/
theorem scan_operator {before r : List Char} {ts : List (Transition RegExp)} {type : TokenType}
    {bytes : ByteSet} {subExprs : List RegExp} {op' : Operator} (op : Operator)
    (hn : (op.text ++ r).length < n) :
  ∃ n' s', scan qt n ⟨before, op.text ++ r, ts, ⟨type, bytes, subExprs, op'⟩, true, false⟩
      = scan qt n' s' ∧
    r.length < n' ∧ s'.data = r ∧ s'.before = before ++ op.text ∧ s'.foundToken = true ∧
      s'.flushed = ts ++ [⟨type, bytes, subExprs, op⟩]
  := by
  cases op with
  | concat =>
    refine ⟨n, _, rfl, ?_, rfl, ?_, rfl, rfl⟩
    · simpa [Operator.text] using hn
    · simp [Operator.text]
  | kleeneStar =>
    obtain ⟨m, rfl⟩ : ∃ m, n = m + 1 := ⟨n - 1, by omega⟩
    refine ⟨m, _, rfl, ?_, rfl, rfl, rfl, rfl⟩
    simpa [Operator.text] using hn
  | oneOrMore =>
    obtain ⟨m, rfl⟩ : ∃ m, n = m + 1 := ⟨n - 1, by omega⟩
    refine ⟨m, _, rfl, ?_, rfl, rfl, rfl, ?_⟩
    · simpa [Operator.text] using hn
    · simp [Scan.flushed, Scan.operator]
  | oneOrZero =>
    obtain ⟨m, rfl⟩ : ∃ m, n = m + 1 := ⟨n - 1, by omega⟩
    refine ⟨m, _, rfl, ?_, rfl, rfl, rfl, ?_⟩
    · simpa [Operator.text] using hn
    · simp [Scan.flushed, Scan.operator]

end RegExp

/-! ### Tokens -/

theorem escapeToken_letter (negated : Bool) (special : SpecialClass) :
  RegExp.escapeToken (special.letter negated)
    = ((Atom.special negated special).type, (Atom.special negated special).listed)
  := by
  cases negated <;> cases special <;> decide +kernel

/-- An escaped character that is no letter stands for itself. -/
theorem escapeToken_of_isAlphanum {c : Char} (h : c.isAlphanum = false) :
  RegExp.escapeToken c = (.normal, [byteOf c])
  := by
  have hspec : specialClass c = none := by
    unfold specialClass
    split
    · exact absurd h (by decide)
    · exact absurd h (by decide)
    · exact absurd h (by decide)
    · exact absurd h (by decide)
    · exact absurd h (by decide)
    · exact absurd h (by decide)
    · rfl
  rw [RegExp.escapeToken, hspec]

/-- The text of a legible bracket list ends at its bracket. -/
theorem bracketText_eq {negated : Bool} {entries : List Entry} {r : List Char}
    (h : (Atom.bracket negated entries).isLegible = true) (hr : ∀ c ∈ r, isByte c = true) :
  bracketText (bracketContent negated entries ++ ']' :: r) = (bracketContent negated entries, r)
  := by
  obtain ⟨hne, hents, -⟩ := isLegible_bracket_iff.mp h
  have hcont : ∀ c ∈ bracketContent negated entries, IsContent c :=
    fun c hc => mem_bracketContent hents hc
  have hbs : ofByteArray (bracketContent negated entries ++ ']' :: r)
      = bracketContent negated entries ++ ']' :: r := by
    apply ofByteArray_of_isByte
    intro c hc
    rcases mem_append.mp hc with hc | hc
    · apply (hcont c hc).1
    · rcases mem_cons.mp hc with rfl | hc
      · rfl
      · apply hr c hc
  have hlen := length_le_text entries
  have hentriesLength := length_pos_iff.mpr hne
  rcases ht : bracketContent negated entries with _ | ⟨c, cs⟩
  · have hnil := congrArg List.length ht
    rw [bracketContent, length_append, length_nil] at hnil
    omega
  · rw [ht] at hcont hbs
    obtain ⟨hc, hcs⟩ := forall_mem_cons.mp hcont
    rw [bracketText, hbs, indexOfClosing_append hc.2.2 (fun hm => (hcs _ hm).2.1 rfl)
      (fun hm => (hcs _ hm).2.2 rfl)]
    simp

/-! ### Runs over pieces -/

/-- The loop reads the piece: it comes to a state with the text of the piece behind it, and its
transition. -/
def ReadsPiece (qt : Qt) (p : Piece) : Prop :=
  ∀ (n : ℕ) (s : Scan) (r : List Char), s.Calm → s.data = p.body ++ (p.op.text ++ r) →
    (∀ c ∈ r, isByte c = true) → s.data.length < n →
    ∃ n' s', RegExp.scan qt n s = RegExp.scan qt n' s' ∧ r.length < n' ∧ s'.data = r ∧
      s'.before = s.before ++ p.leftover ∧ s'.foundToken = true ∧
      s'.flushed = s.flushed ++ [p.transition qt]

/-- A piece is read if one step reads all but its operator. -/
theorem readsPiece_of_step {p : Piece} (hp : p.isReadable = true)
    (hs : ∀ (n : ℕ) (s : Scan) (r : List Char), s.Calm → s.data = p.body ++ r →
      (∀ c ∈ r, isByte c = true) → s.data.length ≤ n →
      ∃ op, RegExp.scan qt (n + 1) s = RegExp.scan qt n
        ⟨s.before ++ (if p.isErased then [] else p.body), r, s.flushed,
          { p.transition qt with op := op }, true, false⟩) :
  ReadsPiece qt p
  := by
  intro n s r hcalm hd hr hn
  obtain ⟨m, rfl⟩ : ∃ m, n = m + 1 := ⟨n - 1, by omega⟩
  have hbs : ∀ c ∈ p.op.text ++ r, isByte c = true := by
    rw [forall_mem_append]
    exact ⟨fun c hc => mem_operatorText hc, hr⟩
  obtain ⟨op, hscan⟩ := hs m s (p.op.text ++ r) hcalm hd hbs (by omega)
  obtain ⟨c, cs, hbody, -⟩ := p.exists_body hp
  have hlen : (p.op.text ++ r).length < m := by
    rw [hd, hbody, length_append, length_cons] at hn
    omega
  obtain ⟨n', s', hop, hn', hd', hbef, hfd, hfl⟩ :=
    RegExp.scan_operator p.op hlen
  refine ⟨n', s', hscan.trans hop, hn', hd', ?_, hfd, ?_⟩
  · rw [hbef, Piece.leftover, append_assoc]
  · rw [hfl, ← @transition_op qt p]

/-- The step over an atom. -/
theorem Atom.reads_of_isLegible {atom : Atom} {op : Operator} (h : atom.isLegible = true) :
  ReadsPiece qt (.single atom op)
  := by
  apply readsPiece_of_step (by rwa [Piece.isReadable])
  intro n s r hcalm hd hr hn
  rw [Piece.body] at hd
  rw [Piece.body, Piece.transition]
  cases atom with
  | literal c => apply RegExp.scan_literal hcalm hd (isLegible_literal_iff.mp h).2
  | escaped c =>
    have hc : isByte c = true ∧ c.isAlphanum = false := by simpa [isLegible] using h
    obtain ⟨op', hs⟩ := RegExp.scan_escaped hcalm hd
    rw [escapeToken_of_isAlphanum hc.2] at hs
    use op', hs
  | any => apply RegExp.scan_any hcalm hd
  | bracket negated entries =>
    obtain ⟨-, hents, hcaret⟩ := isLegible_bracket_iff.mp h
    have hd' : s.data = '[' :: (bracketContent negated entries ++ ']' :: r) := by
      rw [hd, Atom.text]
      simp
    obtain ⟨op', hs⟩ := RegExp.scan_bracket hcalm hd'
    rw [bracketText_eq h hr, bracketToken_bracketContent hents hcaret] at hs
    use op'
    rw [hs]
    simp [Piece.isErased, Atom.type, Atom.listed]
  | special negated special =>
    obtain ⟨op', hs⟩ := RegExp.scan_escaped hcalm hd
    rw [escapeToken_letter] at hs
    use op', hs

/-! ### Runs over sequences and alternatives -/

/-- The loop reads a sequence piece by piece. -/
theorem scan_branch (hb : ∀ p ∈ b, p.isReadable = true) (h : ∀ p ∈ b, ReadsPiece qt p)
    {r : List Char} (hcalm : s.Calm) (hd : s.data = branchText b ++ r)
    (hr : ∀ c ∈ r, isByte c = true) (hn : s.data.length < n) :
  ∃ n' s', RegExp.scan qt n s = RegExp.scan qt n' s' ∧ r.length < n' ∧ s'.data = r ∧
    s'.before = s.before ++ branchLeftover b ∧ s'.Calm ∧
    s'.flushed = s.flushed ++ branchTransitions qt b
  := by
  induction b generalizing n s with
  | nil =>
    rw [branchText, nil_append] at hd
    refine ⟨n, s, rfl, by rwa [← hd], hd, ?_, hcalm, ?_⟩
    · simp [branchLeftover]
    · simp [branchTransitions]
  | cons p ps ih =>
    obtain ⟨hread, hrd⟩ := forall_mem_cons.mp h
    obtain ⟨-, hps⟩ := forall_mem_cons.mp hb
    rw [branchText_cons, append_assoc, append_assoc] at hd
    have hrest : ∀ c ∈ branchText ps ++ r, isByte c = true := by
      rw [forall_mem_append]
      exact ⟨branch_inLatin1 (fun p hp => Piece.inLatin1 (hps p hp)), hr⟩
    obtain ⟨n₁, s₁, hs, hn₁, hd₁, hbef, hfd, hfl⟩ :=
      hread n s _ hcalm hd hrest hn
    have hcalm₁ : s₁.Calm := by
      intro hnot
      rw [hfd] at hnot
      cases hnot
    obtain ⟨n', s', hs', hn', hd', hbef', hcalm', hfl'⟩ :=
      ih hps hrd hcalm₁ hd₁ (by rwa [hd₁])
    refine ⟨n', s', hs.trans hs', hn', hd', ?_, hcalm', ?_⟩
    · rw [hbef', hbef, branchLeftover, branchLeftover, flatMap_cons, append_assoc]
    · rw [hfl', hfl, branchTransitions_cons, append_assoc, singleton_append]

theorem leftover_inLatin1 (h : ∀ p ∈ b, p.isReadable = true) :
  ∀ c ∈ branchLeftover b, isByte c = true
  := by
  intro c hc
  obtain ⟨p, hp, hcp⟩ := mem_flatMap.mp hc
  rw [Piece.leftover] at hcp
  rcases mem_append.mp hcp with hcp | hcp
  · split_ifs at hcp
    · cases hcp
    · apply Piece.inLatin1 (h p hp) c hcp
  · apply mem_operatorText hcp

/-- A part of the pattern is parsed like a pattern. -/
theorem parsed_eq (hqt : qt.Documented) (h : isReadablePattern bs = true) :
  RegExp.parsed qt n (patternText bs)
    = .mk (patternText bs) (RegExp.scan qt n (.start (patternText bs)))
  := by
  rw [RegExp.parsed, ofByteArray_of_isByte (readable_inLatin1 h),
    map_toLatin1_of_isByte (readable_inLatin1 h), if_pos (hqt.valid bs h)]

theorem patternExpr_eq_mk :
  patternExpr qt bs = .mk (patternText bs) (patternExpr qt bs).transitions
  := by
  rcases bs with _ | ⟨b, _ | ⟨c, bs⟩⟩
  · rw [patternExpr, patternText]
    rfl
  · rw [patternExpr, patternText]
    rfl
  · rw [patternExpr_cons_cons.1]
    rfl

/-- Before a bar, an alternative is joined to those behind the bar. -/
theorem or_patternExpr (hqt : qt.Documented) {c : Branch}
    (h : isReadablePattern (b :: c :: bs) = true) (t : Transition RegExp) :
  [{ ((RegExp.mk (branchLeftover b) (branchTransitions qt b)).or qt
      (patternExpr qt (c :: bs))).transitions.headD t with op := .concat }]
    = (patternExpr qt (b :: c :: bs)).transitions
  := by
  obtain ⟨-, hbs⟩ := isReadablePattern_iff.mp h
  obtain ⟨hb, ht⟩ := forall_mem_cons.mp hbs
  have hsolid : ∀ b' ∈ b :: c :: bs, ∀ p ∈ b', IsSolid qt p :=
    fun b' hb' p hp => Piece.isSolid hqt ((hbs b' hb').2 p hp)
  have hn := patternExpr_ne hqt (isReadablePattern_iff.mpr ⟨by simp, ht⟩)
    (fun b' hb' => hsolid b' (mem_cons_of_mem _ hb'))
  have hfst := @Rest.raw_isEpsilon qt ⟨branchLeftover b, b⟩ hb.1 (hsolid b mem_cons_self)
  have hor := @RegExp.or_eq_logicalOr qt (Rest.raw qt ⟨branchLeftover b, b⟩) _
    (Rest.raw_ne hb.1).1 hn.1 hfst hn.2
  rw [Rest.raw_alternatives hb.1, singleton_append] at hor
  rw [Rest.raw] at hor
  rw [hor, patternExpr_cons_cons.1, patternExpr_cons_cons.2]
  rfl

/-- The loop reads a readable pattern, one alternative after another. -/
theorem scan_pattern (hqt : qt.Documented) (hbs : isReadablePattern bs = true)
    (h : ∀ b ∈ bs, ∀ p ∈ b, ReadsPiece qt p) (hn : (patternText bs).length < n) :
  RegExp.scan qt n (.start (patternText bs)) = (patternExpr qt bs).transitions
  := by
  induction bs generalizing n with
  | nil => cases hbs
  | cons b bs ih =>
    obtain ⟨hread, hrd⟩ := forall_mem_cons.mp h
    obtain ⟨-, hall⟩ := isReadablePattern_iff.mp hbs
    obtain ⟨⟨-, hreadable⟩, ht⟩ := forall_mem_cons.mp hall
    cases bs with
    | nil =>
      rw [patternText] at hn ⊢
      obtain ⟨n', s', hs, -, hd, -, -, hfl⟩ :=
        scan_branch hreadable hread (Scan.calm_start (branchText b))
          (append_nil (branchText b)).symm (by simp) hn
      rw [hs, RegExp.scan_nil hd, hfl, patternExpr]
      rfl
    | cons c bs =>
      have hnext : isReadablePattern (c :: bs) = true :=
        isReadablePattern_iff.mpr ⟨by simp, ht⟩
      rw [patternText_cons_cons] at hn ⊢
      have hr : ∀ d ∈ '|' :: patternText (c :: bs), isByte d = true := by
        rw [forall_mem_cons]
        exact ⟨rfl, readable_inLatin1 hnext⟩
      obtain ⟨n', s', hs, hn', hd, hbef, hcalm, hfl⟩ :=
        scan_branch hreadable hread (Scan.calm_start _) rfl hr hn
      obtain ⟨m, rfl⟩ : ∃ m, n' = m + 1 := ⟨n' - 1, by omega⟩
      obtain ⟨t, hbar⟩ := @RegExp.scan_bar qt m s' _ hcalm hd
      have hleft : ofByteArray s'.before = branchLeftover b := by
        rw [hbef]
        apply ofByteArray_of_isByte (leftover_inLatin1 hreadable)
      rw [hleft, hfl, parsed_eq hqt hnext, ih hnext hrd (by simpa using hn'),
        ← patternExpr_eq_mk] at hbar
      rw [hs, hbar]
      apply or_patternExpr hqt hbs

/-- The step over a group. -/
theorem Piece.reads_group (hqt : qt.Documented) {alternatives : Pattern} {op : Operator}
    (hp : (Piece.group alternatives op).isReadable = true)
    (h : ∀ b ∈ alternatives, ∀ p ∈ b, ReadsPiece qt p) :
  ReadsPiece qt (.group alternatives op)
  := by
  obtain ⟨hread, -⟩ := isReadable_group_iff.mp hp
  apply readsPiece_of_step hp
  intro n s r hcalm hd hr hn
  have hd' : s.data = '(' :: (patternText alternatives ++ ')' :: r) := by
    rw [hd, Piece.body]
    simp
  have hlen : (patternText alternatives).length < n := by
    rw [hd'] at hn
    simp at hn
    omega
  obtain ⟨op', hs⟩ := @RegExp.scan_group qt n s _ hcalm hd'
  rw [subPatternText_eq hp, parsed_eq hqt hread, scan_pattern hqt hread h hlen,
    ← patternExpr_eq_mk] at hs
  use op'
  rw [Piece.transition]
  simpa [Piece.isErased] using hs

/-- The loop reads every readable piece. -/
theorem Piece.reads (hqt : qt.Documented) {p : Piece} (h : p.isReadable = true) :
  ReadsPiece qt p
  := by
  apply Piece.readableInduction _ _ h
  · intro atom op hatom
    apply Atom.reads_of_isLegible hatom
  · intro alternatives op hread hshel ih
    apply Piece.reads_group hqt _ ih
    apply isReadable_group_iff.mpr ⟨hread, hshel⟩

/-! ### Parsed patterns -/

namespace RegExp

/-- The transitions of a readable pattern are those that belong to it. -/
theorem parsePattern_eq (hqt : qt.Documented) {p : Pattern} (h : isReadablePattern p = true) :
  parsePattern qt (patternText p) = (patternExpr qt p).transitions
  := by
  rw [parsePattern, if_pos (hqt.valid p h), map_toLatin1_of_isByte (readable_inLatin1 h)]
  apply scan_pattern hqt h _ (Nat.lt_succ_self _)
  intro b hb q hq
  apply Piece.reads hqt (((isReadablePattern_iff.mp h).2 b hb).2 q hq)

/-- A readable pattern is parsed as its expression. -/
theorem ofPattern_eq (hqt : qt.Documented) {p : Pattern} (h : isReadablePattern p = true) :
  ofPattern qt (patternText p) = patternExpr qt p
  := by
  rw [ofPattern, parsePattern_eq hqt h, ← patternExpr_eq_mk]

/-- The transitions of a legible pattern have the language of the pattern. -/
theorem transitionsLang_parsePattern (hqt : qt.Documented) {p : Pattern} (h : LegiblePattern p) :
  transitionsLang (parsePattern qt (patternText p)) = patternLang p
  := by
  have hnull := (patternExpr_ne hqt h.readable (fun b hb q hq =>
    Piece.isSolid hqt (((isReadablePattern_iff.mp h.readable).2 b hb).2 q hq))).1
  rw [parsePattern_eq hqt h.readable, ← lang_eq hnull, patternExpr_lang hqt h]

theorem documented_asGiven :
  Qt.asGiven.Documented
  := ⟨fun es => List.Perm.refl es, fun _ _ => rfl⟩

/-- Alternatives printed differently are kept. -/
theorem keepsAlternatives_of_nodup {bs : Pattern}
    (h : ([] :: (patternRests bs).map Rest.text).Nodup) :
  KeepsAlternatives bs
  := by
  obtain ⟨hnil, hnd⟩ := nodup_cons.mp h
  intro r hr
  constructor
  · intro ht
    apply hnil
    rw [← ht]
    apply mem_map_of_mem hr
  · intro r' hr' heq
    rw [inj_on_of_nodup_map hnd hr hr' heq]

/-- The pattern `(\\a|[(-)b-d]+)*[-x]\d`. -/
def groupAndDigit : Pattern :=
  [[.group [[.single (.escaped '\\') .concat, .single (.literal 'a') .concat],
      [.single (.bracket false [.range '(' ')', .range 'b' 'd']) .oneOrMore]] .kleeneStar,
    .single (.bracket false [.char '-', .char 'x']) .concat,
    .single (.special false .digit) .concat]]

theorem transitionsLang_groupAndDigit :
  transitionsLang (parsePattern .asGiven (patternText groupAndDigit)) = patternLang groupAndDigit
  := by
  apply transitionsLang_parsePattern documented_asGiven
  refine ⟨by decide, keepsAlternatives_of_nodup (by decide), ?_⟩
  simp only [groupAndDigit, alternativesEvery, branchEvery, Piece.Every, and_true]
  apply keepsAlternatives_of_nodup
  decide

/-- The pattern `[ab]|c`. -/
def bracketOrLiteral : Pattern :=
  [[.single (.bracket false [.char 'a', .char 'b']) .concat], [.single (.literal 'c') .concat]]

/-- A bracket list before a bar is lost: nothing is left of its text, so it has the empty pattern,
and `operator |=` drops it. -/
theorem parsePattern_loses_bracket :
  patternText bracketOrLiteral = ['[', 'a', 'b', ']', '|', 'c'] ∧
    [97] ∈ patternLang bracketOrLiteral ∧
    [97] ∉ transitionsLang (parsePattern .asGiven (patternText bracketOrLiteral))
  := by
  refine ⟨rfl, ?_, ?_⟩
  · rw [bracketOrLiteral, patternLang, branchLang, branchLang, mul_one]
    exact .inl ⟨97, by decide, rfl⟩
  · have hpar : parsePattern .asGiven (patternText bracketOrLiteral) =
      [⟨.logicalOr, [], [mk ['c'] [⟨.normal, [99], [], .concat⟩]], .concat⟩] := rfl
    rw [hpar, transitionsLang_singleton]
    intro hm
    obtain ⟨e, he, hw⟩ := mem_unionLang.mp hm
    obtain rfl := mem_singleton.mp he
    rw [mem_lang_byte] at hw
    exact absurd hw (by decide)

end RegExp

end Librecompare

import Contextd.Librecompare.Parsing
import Contextd.Librecompare.Rests

/-!
# Texts and what they stand for

The text of a readable piece can be told from what follows it, so a text that consists of sequences
of pieces with bars in between determines the texts of the sequences (`barTail_inj`); and the text
of a sequence determines its language, because the parser makes of it an expression with that
language (`branchLang_eq_of_text`).
-/

namespace Librecompare

open List

variable {op : Operator} {p : Piece} {b : Branch}

/-! ### Where a piece ends -/

/-- The piece is a class that is written as a backslash and a letter. -/
def Piece.isClass : Piece → Bool
  | .single (.special _ _) _ => true
  | _ => false

/-- The text of a legible list is found in front of any text. -/
theorem bracket_tokenLength {negated : Bool} {entries : List Entry} {type : TokenType}
    (ht : type = .bracket ∨ type = .exclude)
    (h : (Atom.bracket negated entries).isLegible = true) (op : Operator) (r : List Char) :
  tokenLength ((Atom.bracket negated entries).text ++ r) ⟨type, [], [], op⟩
    = (Atom.bracket negated entries).text.length
  := by
  obtain ⟨-, hents, -⟩ := isLegible_bracket_iff.mp h
  have hcont := fun c hc => @mem_bracketContent negated entries hents c hc
  have hcl : indexOfClosing ((Atom.bracket negated entries).text ++ r)
      = some (bracketContent negated entries).length := by
    rw [Atom.text, append_assoc, singleton_append]
    apply indexOfClosing_append (by decide)
    · exact fun hm => (hcont _ hm).2.1 rfl
    · exact fun hm => (hcont _ hm).2.2 rfl
  have hlen : (Atom.bracket negated entries).text.length
      = (bracketContent negated entries).length + 2 := by simp [Atom.text]
  rcases ht with rfl | rfl <;> simp only [tokenLength, hcl, hlen]

/-- So is that of a readable group. -/
theorem group_tokenLength {alternatives : Pattern}
    (h : (Piece.group alternatives op).isReadable = true) (op' : Operator) (r : List Char) :
  tokenLength ((Piece.group alternatives op).body ++ r) ⟨.subExpr, [], [], op'⟩
    = (Piece.group alternatives op).body.length
  := by
  have hix := (group_passes h (')' :: r)).indexOfEnd_eq
  simp [tokenLength, Piece.body, hix]

/-- The code takes the text of a readable piece for that of its token, unless the piece is a
class. -/
theorem tokenLength_body (h : p.isReadable = true) (hcls : p.isClass = false) (r : List Char) :
  tokenLength (p.body ++ r) ⟨p.type, [], [], p.op⟩ = p.body.length
  := by
  cases p with
  | single atom op =>
    rw [Piece.isReadable] at h
    rw [Piece.body]
    cases atom with
    | literal c =>
      have hc : c ≠ '\\' := by
        rintro rfl
        apply (isLegible_literal_iff.mp h).2 (by decide)
      simp [tokenLength, Piece.type, Atom.type, Atom.text, hc]
    | escaped c => simp [tokenLength, Piece.type, Atom.type, Atom.text]
    | any => simp [tokenLength, Piece.type, Atom.type, Atom.text]
    | bracket negated entries =>
      apply bracket_tokenLength _ h
      cases negated <;> simp [Piece.type, Atom.type]
    | special negated c => cases hcls
  | group alternatives op => apply group_tokenLength h

theorem operator_length :
  op.length = op.text.length
  := by
  cases op <;> rfl

/-- The text of a readable piece is cut off, unless the piece is a class. -/
theorem cut_eq (h : p.isReadable = true) (hcls : p.isClass = false) (r : List Char) :
  p.cut (p.body ++ p.op.text ++ r) = (p.body, r)
  := by
  have hlen := tokenLength_body h hcls (p.op.text ++ r)
  rw [Piece.cut, patternExtractStart, append_assoc, hlen, operator_length]
  rw [take_left, ← append_assoc, ← length_append, drop_left]

/-- How long the body at the start of a text is. -/
def bodyLength (text : List Char) : ℕ :=
  match text.head? with
  | some '\\' => 2
  | some '[' => tokenLength text ⟨.bracket, [], [], .concat⟩
  | some '(' => tokenLength text ⟨.subExpr, [], [], .concat⟩
  | _ => 1

/-- The body of a piece is found in front of any text. -/
theorem bodyLength_body (h : p.isReadable = true) (r : List Char) :
  bodyLength (p.body ++ r) = p.body.length
  := by
  cases p with
  | single atom op =>
    rw [Piece.isReadable] at h
    rw [Piece.body]
    cases atom with
    | literal c =>
      have hc : ∀ d ∈ specialCharacters, c ≠ d := by
        rintro d hd rfl
        apply (isLegible_literal_iff.mp h).2 hd
      have hesc := hc '\\' (by decide)
      have hbracket := hc '[' (by decide)
      have hgp := hc '(' (by decide)
      simp [bodyLength, Atom.text]
      split <;> simp_all
    | escaped c => rfl
    | any => rfl
    | bracket negated entries => apply bracket_tokenLength (.inl rfl) h .concat r
    | special negated c => rfl
  | group alternatives op => apply group_tokenLength h .concat r

/-! ### Texts with bars -/

/-- Nothing follows, or a bar. -/
def Ends (t : List Char) : Prop := ∀ c ∈ t.head?, c = '|'

/-- Neither the text of a sequence nor the end of a sequence starts with an operator. -/
theorem head_notMem_operators {t : List Char} (h : ∀ p ∈ b, p.isReadable = true) (ht : Ends t) :
  ∀ c ∈ (branchText b ++ t).head?, c ∉ ['*', '+', '?']
  := by
  intro c hc
  cases b with
  | nil =>
    rw [branchText, nil_append] at hc
    rw [ht c hc]
    decide
  | cons p ps =>
    obtain ⟨d, ds, hbody, -, hd, -⟩ := p.exists_body (h p mem_cons_self)
    rw [branchText_cons, hbody] at hc
    obtain rfl := Option.some.inj hc
    simp only [mem_cons, not_or] at hd ⊢
    tauto

/-- The text of an operator can be told from what follows. -/
theorem operatorText_append_inj {op' : Operator} {r r' : List Char}
    (hr : ∀ c ∈ r.head?, c ∉ ['*', '+', '?']) (hr' : ∀ c ∈ r'.head?, c ∉ ['*', '+', '?'])
    (h : op.text ++ r = op'.text ++ r') :
  op.text = op'.text ∧ r = r'
  := by
  have hn : ∀ {op : Operator} {s t : List Char}, op ≠ .concat →
      (∀ c ∈ t.head?, c ∉ ['*', '+', '?']) → op.text ++ s ≠ t := by
    rintro op s t hop ht rfl
    cases op <;> simp [Operator.text] at hop ht
  have hlen : ∀ {op : Operator}, op ≠ .concat → op.text.length = 1 := by
    intro op hop
    cases op <;> first | rfl | contradiction
  by_cases hop : op = .concat
  · by_cases hop' : op' = .concat
    · subst hop hop'
      exact ⟨rfl, h⟩
    · subst hop
      exact absurd h.symm (hn hop' hr)
  · by_cases hop' : op' = .concat
    · subst hop'
      exact absurd h (hn hop hr')
    · apply append_inj h
      rw [hlen hop, hlen hop']

/-- The text of a sequence can be told from a bar behind it. -/
theorem branchText_append_inj {b' : Branch} {t t' : List Char} (hb : ∀ p ∈ b, p.isReadable = true)
    (hb' : ∀ p ∈ b', p.isReadable = true) (ht : Ends t) (ht' : Ends t')
    (h : branchText b ++ t = branchText b' ++ t') :
  branchText b = branchText b' ∧ t = t'
  := by
  have hst : ∀ {p : Piece} {ps : Branch} {r t : List Char}, p.isReadable = true → Ends t →
      branchText (p :: ps) ++ r ≠ t := by
    rintro p ps r t hp ht rfl
    obtain ⟨c, cs, hbody, -, hc, -⟩ := p.exists_body hp
    rw [branchText_cons, hbody] at ht
    rw [ht c rfl] at hc
    simp at hc
  induction b generalizing b' with
  | nil =>
    cases b' with
    | nil => exact ⟨rfl, h⟩
    | cons q qs => exact absurd h.symm (hst (hb' q mem_cons_self) ht)
  | cons p ps ih =>
    cases b' with
    | nil => exact absurd h (hst (hb p mem_cons_self) ht')
    | cons q qs =>
      obtain ⟨hp, hps⟩ := forall_mem_cons.mp hb
      obtain ⟨hq, hqs⟩ := forall_mem_cons.mp hb'
      simp only [branchText_cons, append_assoc] at h ⊢
      have hlen := bodyLength_body hp (p.op.text ++ (branchText ps ++ t))
      rw [h, bodyLength_body hq] at hlen
      obtain ⟨hbody, hr⟩ := append_inj h hlen.symm
      obtain ⟨hop, hr⟩ := operatorText_append_inj (head_notMem_operators hps ht)
        (head_notMem_operators hqs ht') hr
      obtain ⟨htext, hend⟩ := ih hps hqs hr
      rw [hbody, hop, htext]
      exact ⟨rfl, hend⟩

/-- A sequence as it is printed: ε if it has no pieces. -/
def shownText (b : Branch) : List Char := if b.isEmpty then ['ε'] else branchText b

theorem shownText_of_ne (h : b ≠ []) :
  shownText b = branchText b
  := by
  simp [shownText, h]

theorem shownText_ne_nil (h : ∀ p ∈ b, p.isReadable = true) :
  shownText b ≠ []
  := by
  by_cases hne : b = []
  · simp [shownText, hne]
  · rw [shownText_of_ne hne]
    apply branchText_ne_nil hne h

/-- What is printed for a sequence can be told from a bar behind it, and from ε. -/
theorem shownText_append_inj {b b' : Branch} {t t' : List Char}
    (hb : ∀ p ∈ b, p.isReadable = true) (hb' : ∀ p ∈ b', p.isReadable = true) (ht : Ends t)
    (ht' : Ends t') (h : shownText b ++ t = shownText b' ++ t') :
  shownText b = shownText b' ∧ t = t' ∧ (b = [] ↔ b' = [])
  := by
  have heps : ∀ {b : Branch} {t t' : List Char}, b ≠ [] → (∀ p ∈ b, p.isReadable = true) →
      branchText b ++ t ≠ 'ε' :: t' := by
    intro b t t' hne hb heq
    obtain ⟨p, ps, rfl⟩ := exists_cons_of_ne_nil hne
    obtain ⟨c, cs, hbody, hbyte, -, -⟩ := p.exists_body (hb p mem_cons_self)
    rw [branchText_cons, hbody] at heq
    obtain ⟨rfl, -⟩ := List.cons.inj heq
    exact absurd hbyte (by decide)
  by_cases hne : b = []
  · by_cases hne' : b' = []
    · subst hne hne'
      exact ⟨rfl, by simpa using h, Iff.rfl⟩
    · rw [shownText_of_ne hne', hne] at h
      exact absurd h.symm (heps hne' hb')
  · by_cases hne' : b' = []
    · rw [shownText_of_ne hne, hne'] at h
      exact absurd h (heps hne hb)
    · rw [shownText_of_ne hne, shownText_of_ne hne'] at h ⊢
      obtain ⟨htext, hend⟩ := branchText_append_inj hb hb' ht ht' h
      exact ⟨htext, hend, iff_of_false hne hne'⟩

/-- Texts, each behind a bar. -/
def barTail (bs : List Branch) : List Char := bs.flatMap (fun b => '|' :: shownText b)

theorem ends_barTail {bs : List Branch} :
  Ends (barTail bs)
  := by
  intro c hc
  cases bs with
  | nil => cases hc
  | cons b bs => apply (Option.some.inj hc).symm

/-- Sequences with bars in between can be told by what they print. -/
theorem barTail_inj {bs bs' : List Branch} (hbs : ∀ b ∈ bs, ∀ p ∈ b, p.isReadable = true)
    (hbs' : ∀ b ∈ bs', ∀ p ∈ b, p.isReadable = true) (h : barTail bs = barTail bs') :
  List.Forall₂ (fun b b' => shownText b = shownText b' ∧ (b = [] ↔ b' = [])) bs bs'
  := by
  induction bs generalizing bs' with
  | nil =>
    cases bs' with
    | nil => exact .nil
    | cons b' bs' => cases h
  | cons b bs ih =>
    cases bs' with
    | nil => cases h
    | cons b' bs' =>
      obtain ⟨hb, hbs⟩ := forall_mem_cons.mp hbs
      obtain ⟨hb', hbs'⟩ := forall_mem_cons.mp hbs'
      simp only [barTail, flatMap_cons, cons_append, List.cons.injEq, true_and] at h
      obtain ⟨ht, htail, hnil⟩ :=
        shownText_append_inj hb hb' (@ends_barTail bs) (@ends_barTail bs') h
      exact .cons ⟨ht, hnil⟩ (ih hbs hbs' htail)

theorem patternText_eq_barTail {bs : Pattern} (hne : bs ≠ []) (h : ∀ b ∈ bs, b ≠ []) :
  '|' :: patternText bs = barTail bs
  := by
  induction bs with
  | nil => contradiction
  | cons b bs ih =>
    obtain ⟨hb, hbs⟩ := forall_mem_cons.mp h
    cases bs with
    | nil => simp [patternText, barTail, shownText_of_ne hb]
    | cons c bs =>
      rw [patternText_cons_cons, ih (by simp) hbs]
      simp [barTail, shownText_of_ne hb]

theorem joinedText_eq_barTail {l : List Rest} (hne : l ≠ [])
    (h : ∀ r ∈ l, r.printed = shownText r.pieces) :
  '|' :: joinedText l = barTail (l.map Rest.pieces)
  := by
  have hshift : '|' :: l.flatMap (fun r => r.printed ++ ['|'])
      = barTail (l.map Rest.pieces) ++ ['|'] := by
    clear hne
    induction l with
    | nil => rfl
    | cons r l ih =>
      obtain ⟨hr, hl⟩ := forall_mem_cons.mp h
      rw [flatMap_cons, map_cons, barTail, flatMap_cons, hr, append_assoc, singleton_append, ih hl]
      simp [barTail]
  have hlast := congrArg List.dropLast hshift
  rw [dropLast_concat, dropLast_cons_of_ne_nil] at hlast
  · apply hlast
  · obtain ⟨r, l, rfl⟩ := exists_cons_of_ne_nil hne
    simp

/-! ### Texts determine languages -/

/-- The text of a sequence determines its language, by way of the parser. -/
theorem branchLang_eq_of_text {A : Atom → Prop} {b' : Branch}
    (hb : ∀ p ∈ b, p.isReadable = true ∧ p.Every A KeepsAlternatives)
    (hb' : ∀ p ∈ b', p.isReadable = true ∧ p.Every A KeepsAlternatives) (hnil : b = [] ↔ b' = [])
    (h : shownText b = shownText b') :
  branchLang b = branchLang b'
  := by
  by_cases hne : b = []
  · rw [hne, hnil.mp hne]
  have hne' : b' ≠ [] := fun heq => hne (hnil.mpr heq)
  have hl : ∀ {b : Branch}, b ≠ [] →
      (∀ p ∈ b, p.isReadable = true ∧ p.Every A KeepsAlternatives) →
      (RegExp.ofPattern .asGiven (branchText b)).lang = branchLang b := by
    intro b hne hb
    have hread : isReadablePattern [b] = true := by
      rw [isReadablePattern_iff, forall_mem_singleton]
      exact ⟨by simp, hne, fun p hp => (hb p hp).1⟩
    have heq := RegExp.ofPattern_eq RegExp.documented_asGiven hread
    rw [patternText] at heq
    rw [heq, patternExpr_singleton, Rest.raw_lang_of_means hne]
    intro p hp
    apply Piece.means RegExp.documented_asGiven (hb p hp).1 (hb p hp).2
  rw [shownText_of_ne hne, shownText_of_ne hne'] at h
  rw [← hl hne hb, ← hl hne' hb', h]

end Librecompare

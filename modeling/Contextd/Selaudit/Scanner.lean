import Mathlib.Data.List.Basic
import Mathlib.Data.Prod.Basic

/-!
# The scanner of policies

`SELinuxScanner`: a policy is cut into identifiers, reserved words, numbers, paths, the texts of
warnings, and marks.  Blanks, line ends and comments are left out, and so is a character that no
rule applies to.  `Scanned` says that a text is read as certain tokens, whatever comes after it.
-/

namespace Selaudit

open List

variable {u w cs : List Char} {c : Char} {l : List Lexeme}

/-! ### Tokens of the scanner -/

/-- The tokens for punctuation. -/
inductive Mark where
  | tick | squote | lbrace | rbrace | semi | colon | point | lparen | rparen | comma
  | minus | tilde | asterisk | amp | bar | expl | equal
  deriving DecidableEq, Repr

/-- The mark of a character. -/
def Mark.ofChar : Char → Option Mark
  | '\x60' => some .tick
  | '\'' => some .squote
  | '\x7b' => some .lbrace
  | '\x7d' => some .rbrace
  | ';' => some .semi
  | ':' => some .colon
  | '.' => some .point
  | '(' => some .lparen
  | ')' => some .rparen
  | ',' => some .comma
  | '-' => some .minus
  | '~' => some .tilde
  | '*' => some .asterisk
  | '&' => some .amp
  | '|' => some .bar
  | '!' => some .expl
  | '=' => some .equal
  | _ => none

/-- The tokens for reserved words. -/
inductive Keyword where
  | moduleWord | policyModule | require
  | sid | genfscon | fsUseXattr | fsUseTrans | fsUseTask | portcon | nodecon | netifcon
  | pirqcon | iomemcon | ioportcon | pcidevicecon
  | classWord
  | typeattribute | typeWord | attributeWord | aliasWord | typealias
  | boolWord | trueWord | falseWord | ifWord | elseWord
  | role | types
  | genReq
  | permissive
  | allow | dontaudit | auditallow | neverallow
  | typeTransition | typeChange | typeMember | rangeTransition | roleTransition
  | optPolicy | interface | tunablePolicy | template | genContext | refpolicywarn
  | ifelse | ifndef | ifdef | define
  deriving DecidableEq, Repr

/-- `SELinuxScanner.reserved`. -/
def reserved : List (String × Keyword) :=
  [("module", .moduleWord), ("policy_module", .policyModule), ("require", .require),
   ("sid", .sid), ("genfscon", .genfscon), ("fs_use_xattr", .fsUseXattr),
   ("fs_use_trans", .fsUseTrans), ("fs_use_task", .fsUseTask), ("portcon", .portcon),
   ("nodecon", .nodecon), ("netifcon", .netifcon), ("pirqcon", .pirqcon),
   ("iomemcon", .iomemcon), ("ioportcon", .ioportcon), ("pcidevicecon", .pcidevicecon),
   ("class", .classWord),
   ("typeattribute", .typeattribute), ("type", .typeWord), ("attribute", .attributeWord),
   ("alias", .aliasWord), ("typealias", .typealias),
   ("bool", .boolWord), ("true", .trueWord), ("false", .falseWord), ("if", .ifWord),
   ("else", .elseWord),
   ("role", .role), ("types", .types),
   ("gen_require", .genReq),
   ("permissive", .permissive),
   ("allow", .allow), ("dontaudit", .dontaudit), ("auditallow", .auditallow),
   ("neverallow", .neverallow), ("type_transition", .typeTransition),
   ("type_change", .typeChange), ("type_member", .typeMember),
   ("range_transition", .rangeTransition), ("role_transition", .roleTransition),
   ("optional_policy", .optPolicy), ("interface", .interface),
   ("tunable_policy", .tunablePolicy), ("template", .template),
   ("gen_context", .genContext), ("refpolicywarn", .refpolicywarn),
   ("ifelse", .ifelse), ("ifndef", .ifndef), ("ifdef", .ifdef), ("define", .define)]

/-- The tokens of the scanner. -/
inductive Lexeme where
  | identifier (s : String)
  | keyword (k : Keyword)
  | number (s : String)
  | path (s : String)
  | text (s : String)
  | mark (m : Mark)
  deriving DecidableEq, Repr

/-- The token of a word, `t_IDENTIFIER`. -/
def wordLexeme (s : String) : Lexeme :=
  match reserved.lookup s with
  | some k => .keyword k
  | none => .identifier s

/-! ### The scanner -/

/-- The characters between tokens: those that are ignored, and line ends. -/
def isBlank (c : Char) : Bool := c = ' ' || c = '\t' || c = '\n'

/-- The first characters of words, `[a-zA-Z_\$]`. -/
def isWordStart (c : Char) : Bool := c.isAlpha || c = '_' || c = '$'

/-- The other characters of words, `[a-zA-Z0-9_\.\$\*]`. -/
def isWordChar (c : Char) : Bool := isWordStart c || c.isDigit || c = '.' || c = '*'

/-- The other characters of paths, `[a-zA-Z0-9)_\.\*/]`. -/
def isPathChar (c : Char) : Bool :=
  c.isAlphanum || c = ')' || c = '_' || c = '.' || c = '*' || c = '/'

/-- How many characters of a text continue a number `[0-9]+(\.[0-9]+)*`. -/
def numberTail : List Char → ℕ
  | [] => 0
  | c :: cs =>
    if c.isDigit || (c = '.' && cs.head?.any Char.isDigit) then numberTail cs + 1 else 0

/-- How many characters of a line come before the first `')`. -/
def warnLength : List Char → Option ℕ
  | [] => none
  | c :: cs =>
    if c = '\n' then none
    else if c = '\'' && cs.head? = some ')' then some 0
    else (warnLength cs).map (· + 1)

/-- How many characters belong to the text of a warning, `t_refpolicywarn_TEXT`, when those before
them, the last one first, are given.  The scanner does not advance on an empty text, which no policy
that is accepted has; it counts as no text here. -/
def textLength (before cs : List Char) : ℕ :=
  if "refpolicywarn(`".toList.reverse.isPrefixOf before then (warnLength cs).getD 0 else 0

/-- The token at the beginning of a text, if there is one, and how many characters after the first
are passed over.  A comment ends before the end of its line: its rule is a verbose regular
expression, in which the line end does not count. -/
def lexemeAt (before : List Char) (c : Char) (cs : List Char) : Option Lexeme × ℕ :=
  if isBlank c then (none, 0)
  else
    match textLength before (c :: cs) with
    | k + 1 => (some (.text (String.ofList (c :: cs.take k))), k)
    | 0 =>
      if isWordStart c then
        (some (wordLexeme (String.ofList (c :: cs.takeWhile isWordChar))),
          (cs.takeWhile isWordChar).length)
      else if c.isDigit then
        (some (.number (String.ofList (c :: cs.take (numberTail cs)))), numberTail cs)
      else if c = '/' then
        (some (.path (String.ofList (c :: cs.takeWhile isPathChar))),
          (cs.takeWhile isPathChar).length)
      else if c = '#' then (none, (cs.takeWhile (· ≠ '\n')).length)
      else if c = ';' then (some (.mark .semi), (cs.takeWhile (· = ';')).length)
      else ((Mark.ofChar c).map .mark, 0)

/-- The scanner on a text of which `skip` characters belong to the token before it. -/
def scan (skip : ℕ) (before : List Char) : List Char → List Lexeme
  | [] => []
  | c :: cs =>
    match skip with
    | skip + 1 => scan skip (c :: before) cs
    | 0 =>
      let (lexeme, length) := lexemeAt before c cs
      lexeme.toList ++ scan length (c :: before) cs

/-- `SELinuxScanner.tokenize`. -/
def tokenize (text : String) : List Lexeme := scan 0 [] text.toList

example : tokenize "allow a_t b_t:file \x7b read -w \x7d;;# x" =
    [.keyword .allow, .identifier "a_t", .identifier "b_t", .mark .colon, .identifier "file",
      .mark .lbrace, .identifier "read", .mark .minus, .identifier "w", .mark .rbrace,
      .mark .semi] := by
  decide +kernel

/-! ### What a text is read as -/

theorem scan_skip (before u v : List Char) :
  scan u.length before (u ++ v) = scan 0 (u.reverse ++ before) v
  := by
  induction u generalizing before with
  | nil => rfl
  | cons c u ih =>
    rw [length_cons, cons_append, scan, ih]
    simp

theorem textLength_of_head {before : List Char} (h : before.head? ≠ some '\x60') (cs : List Char) :
  textLength before cs = 0
  := by
  rw [textLength, if_neg]
  intro hwarn
  obtain ⟨rest, rfl⟩ := isPrefixOf_iff_prefix.mp hwarn
  apply h
  rfl

/-- The text is read as the given tokens, whatever follows, unless a warning comes before it. -/
structure Scanned (u : List Char) (lexemes : List Lexeme) : Prop where
  no_tick : '\x60' ∉ u
  scan_eq : ∀ before v, before.head? ≠ some '\x60' →
    scan 0 before (u ++ v) = lexemes ++ scan 0 (u.reverse ++ before) v

theorem head?_reverse_append {before : List Char} (hu : '\x60' ∉ u)
    (h : before.head? ≠ some '\x60') :
  (u.reverse ++ before).head? ≠ some '\x60'
  := by
  rcases u.eq_nil_or_concat with rfl | ⟨u, c, rfl⟩
  · apply h
  · intro hc
    apply hu
    rw [concat_eq_append, reverse_append, reverse_singleton, singleton_append,
      cons_append, List.head?_cons, Option.some.injEq] at hc
    simp [hc]

theorem Scanned.nil :
  Scanned [] []
  := ⟨not_mem_nil, fun _ _ _ => rfl⟩

/-- Texts are scanned one after the other. -/
theorem Scanned.append {u u' : List Char} {l l' : List Lexeme} (h : Scanned u l)
    (h' : Scanned u' l') :
  Scanned (u ++ u') (l ++ l')
  := by
  constructor
  · rw [mem_append, not_or]
    exact ⟨h.no_tick, h'.no_tick⟩
  · intro before v hbef
    rw [append_assoc, h.scan_eq before (u' ++ v) hbef,
      h'.scan_eq _ v (head?_reverse_append h.no_tick hbef)]
    simp

/-- A text is read as it is when it begins with a token that ends where the rest begins. -/
theorem Scanned.cons {c : Char} {u u' : List Char} {e : Option Lexeme} {l : List Lexeme}
    (hc : '\x60' ∉ c :: u) (h' : Scanned u' l)
    (h : ∀ before v, before.head? ≠ some '\x60' →
      lexemeAt before c (u ++ (u' ++ v)) = (e, u.length)) :
  Scanned (c :: u ++ u') (e.toList ++ l)
  := by
  constructor
  · rw [mem_append, not_or]
    exact ⟨hc, h'.no_tick⟩
  · intro before v hbef
    have hn := head?_reverse_append hc hbef
    rw [append_assoc, cons_append, scan, h before v hbef]
    simp only [scan_skip]
    rw [reverse_cons, append_assoc, singleton_append] at hn
    rw [h'.scan_eq _ v hn]
    simp

/-- A blank, a line end, or a mark that is not a semicolon. -/
theorem Scanned.single {e : Option Lexeme} (hc : c ≠ '\x60') (h : Scanned u l)
    (hat : ∀ before v, before.head? ≠ some '\x60' → lexemeAt before c v = (e, 0)) :
  Scanned (c :: u) (e.toList ++ l)
  := by
  apply Scanned.cons (u := []) (by simpa using hc.symm) h
  intro before v hbef
  apply hat before _ hbef

/-- A blank is skipped. -/
theorem Scanned.blank (hc : isBlank c) (h : Scanned u l) :
  Scanned (c :: u) l
  := by
  apply Scanned.single (e := none) _ h
  · intro before v _
    rw [lexemeAt, if_pos hc]
  · rintro rfl
    simp [isBlank] at hc

/-- The characters whose token is their mark. -/
def isPunctuation (c : Char) : Bool :=
  !isBlank c && !isWordStart c && !c.isDigit && c != '/' && c != '#' && c != ';' && c != '\x60'

/-- A mark is a lexeme. -/
theorem Scanned.mark {m : Mark} (hc : isPunctuation c) (hm : Mark.ofChar c = some m)
    (h : Scanned u l) :
  Scanned (c :: u) (.mark m :: l)
  := by
  simp only [isPunctuation, Bool.and_eq_true, Bool.not_eq_true', bne_iff_ne] at hc
  obtain ⟨⟨⟨⟨⟨⟨hbl, hst⟩, hdig⟩, hsl⟩, hhash⟩, hsemi⟩, htick⟩ := hc
  apply Scanned.single (e := some (.mark m)) htick h
  intro before v hbef
  simp [lexemeAt, textLength_of_head hbef, hbl, hst, hdig, hsl, hhash, hsemi, hm]

/-- What follows a word or a number and does not belong to it. -/
def Breaks (v : List Char) : Prop := ∃ c cs, v = c :: cs ∧ isWordChar c = false

theorem takeWhile_append_of_breaks {v : List Char} (hw : ∀ c ∈ w, isWordChar c) (hv : Breaks v) :
  (w ++ v).takeWhile isWordChar = w
  := by
  obtain ⟨c, cs, rfl, hc⟩ := hv
  rw [takeWhile_append_of_pos hw, takeWhile_cons_of_neg (by simp [hc])]
  simp

/-- The words. -/
def isWord : List Char → Bool
  | [] => false
  | c :: cs => isWordStart c && cs.all isWordChar

theorem isWord_no_tick (h : isWord w) :
  '\x60' ∉ w
  := by
  cases w with
  | nil => simp
  | cons c cs =>
    simp only [isWord, Bool.and_eq_true, all_eq_true] at h
    rintro hm
    rcases mem_cons.mp hm with rfl | hm
    · exact absurd h.1 (by decide)
    · exact absurd (h.2 _ hm) (by decide)

theorem not_isBlank_of_isWordStart (h : isWordStart c) :
  isBlank c = false
  := by
  by_contra hbl
  simp only [isBlank, Bool.not_eq_false, Bool.or_eq_true, decide_eq_true_eq] at hbl
  rcases hbl with (rfl | rfl) | rfl
  all_goals exact absurd h (by decide)

/-- A word ends where a character comes that does not belong to it. -/
theorem Scanned.word (hw : isWord w) (hu : Breaks u) (h : Scanned u l) :
  Scanned (w ++ u) (wordLexeme (String.ofList w) :: l)
  := by
  have htick := isWord_no_tick hw
  cases w with
  | nil => simp [isWord] at hw
  | cons c w =>
    simp only [isWord, Bool.and_eq_true, all_eq_true] at hw
    apply Scanned.cons (e := some (wordLexeme (String.ofList (c :: w)))) htick h
    intro before v hbef
    have hbreaks : Breaks (u ++ v) := by
      obtain ⟨d, ds, rfl, hd⟩ := hu
      use d, ds ++ v, rfl, hd
    simp [lexemeAt, textLength_of_head hbef, not_isBlank_of_isWordStart hw.1, hw.1,
      takeWhile_append_of_breaks hw.2 hbreaks]

/-- The numbers. -/
def isNumber : List Char → Bool
  | [] => false
  | c :: cs => c.isDigit && numberTail cs = cs.length

/-- The characters of a number after the first. -/
theorem numberTail_cons_eq_length :
  numberTail (c :: cs) = (c :: cs).length ↔
    (c.isDigit ∨ c = '.' ∧ ∃ d ∈ cs.head?, d.isDigit) ∧ numberTail cs = cs.length
  := by
  rw [numberTail]
  split
  case isTrue hc =>
    simp only [Bool.or_eq_true, Bool.and_eq_true, decide_eq_true_eq, Option.any_eq_true] at hc
    simp only [length_cons, Nat.add_right_cancel_iff]
    constructor
    · intro h
      exact ⟨hc, h⟩
    · apply And.right
  case isFalse hc =>
    simp only [Bool.or_eq_true, Bool.and_eq_true, decide_eq_true_eq, Option.any_eq_true] at hc
    simp only [length_cons, Option.mem_def]
    constructor
    · intro h
      omega
    · intro h
      exact absurd h.1 hc

/-- A number ends where it did. -/
theorem numberTail_append {v : List Char} (h : numberTail cs = cs.length) (hv : Breaks v) :
  numberTail (cs ++ v) = cs.length
  := by
  induction cs with
  | nil =>
    obtain ⟨c, cs, rfl, hc⟩ := hv
    simp only [isWordChar, Bool.or_eq_false_iff] at hc
    simp [numberTail, hc]
  | cons c cs ih =>
    obtain ⟨hc, ht⟩ := numberTail_cons_eq_length.mp h
    rw [cons_append, numberTail, if_pos, ih ht, length_cons]
    rcases hc with hc | ⟨rfl, d, hd, hdig⟩
    · simp [hc]
    · obtain ⟨ds, rfl⟩ := List.head?_eq_some_iff.mp hd
      simp [hdig]

theorem isNumber_no_tick (h : numberTail cs = cs.length) :
  '\x60' ∉ cs
  := by
  induction cs with
  | nil => simp
  | cons c cs ih =>
    obtain ⟨hc, ht⟩ := numberTail_cons_eq_length.mp h
    rintro hm
    rcases mem_cons.mp hm with rfl | hm
    · rcases hc with hc | ⟨hc, -⟩
      · exact absurd hc (by decide)
      · exact absurd hc (by decide)
    · apply ih ht hm

/-- A digit is no blank and does not begin a word. -/
theorem isBlank_isWordStart_of_isDigit (h : c.isDigit) :
  isBlank c = false ∧ isWordStart c = false ∧ c ≠ '\x60'
  := by
  have hdigs : ∀ n ∈ List.range' 48 10, isBlank (Char.ofNat n) = false ∧
      isWordStart (Char.ofNat n) = false ∧ Char.ofNat n ≠ '\x60' := by decide
  simp only [Char.isDigit, Bool.and_eq_true, decide_eq_true_eq, ge_iff_le,
    UInt32.le_iff_toNat_le] at h
  have hrg : c.toNat ∈ List.range' 48 10 := by
    have hlow : 48 ≤ c.toNat := h.1
    have hhigh : c.toNat ≤ 57 := h.2
    rw [mem_range'_1]
    omega
  have hc := hdigs c.toNat hrg
  rwa [Char.ofNat_toNat] at hc

/-- A number ends where a character comes that belongs to no word. -/
theorem Scanned.number {n : List Char} (hn : isNumber n) (hu : Breaks u) (h : Scanned u l) :
  Scanned (n ++ u) (.number (String.ofList n) :: l)
  := by
  cases n with
  | nil => simp [isNumber] at hn
  | cons c n =>
    simp only [isNumber, Bool.and_eq_true, decide_eq_true_eq] at hn
    obtain ⟨hbl, hst, htick⟩ := isBlank_isWordStart_of_isDigit hn.1
    apply Scanned.cons (e := some (.number (String.ofList (c :: n)))) _ h
    · intro before v hbef
      have hbreaks : Breaks (u ++ v) := by
        obtain ⟨d, ds, rfl, hd⟩ := hu
        use d, ds ++ v, rfl, hd
      simp [lexemeAt, textLength_of_head hbef, hbl, hst, hn.1, numberTail_append hn.2 hbreaks]
    · intro hm
      rcases mem_cons.mp hm with hc | hm
      · apply htick hc.symm
      · apply isNumber_no_tick hn.2 hm

/-- A semicolon before something that is not one. -/
theorem Scanned.semi (hc : c ≠ ';') (h : Scanned (c :: u) l) :
  Scanned (';' :: c :: u) (.mark .semi :: l)
  := by
  apply Scanned.cons (u := []) (e := some (.mark .semi)) (by decide) h
  intro before v hbef
  have hbl : isBlank ';' = false := by decide
  have hst : isWordStart ';' = false := by decide
  simp [lexemeAt, textLength_of_head hbef, hbl, hst, hc]

/-- A comment and the end of its line. -/
theorem Scanned.comment {t : List Char} (ht : '\n' ∉ t) (htick : '\x60' ∉ t) (h : Scanned u l) :
  Scanned ('#' :: t ++ '\n' :: u) l
  := by
  apply Scanned.cons (e := none) _ (Scanned.blank (by decide) h)
  · intro before v hbef
    have hbl : isBlank '#' = false := by decide
    have hst : isWordStart '#' = false := by decide
    have hl : ∀ c ∈ t, decide (c ≠ '\n') = true := by
      rintro c hc
      simp only [decide_eq_true_eq]
      rintro rfl
      apply ht hc
    rw [lexemeAt]
    simp only [hbl, textLength_of_head hbef, hst, Bool.false_eq_true, if_false]
    rw [if_neg (by decide), if_neg (by decide), if_pos trivial, takeWhile_append_of_pos hl]
    simp
  · simp [htick]

/-! ### What the tokens are -/

/-- An identifier: a word that is not reserved. -/
def IsIdentifier (s : String) : Prop := isWord s.toList = true ∧ reserved.lookup s = none

/-- Identifiers and numbers are what they should be. -/
def Lexeme.IsProper : Lexeme → Prop
  | .identifier s => IsIdentifier s
  | .number s => isNumber s.toList = true
  | _ => True

/-- Words give proper lexemes. -/
theorem wordLexeme_isProper (h : isWord w = true) :
  (wordLexeme (String.ofList w)).IsProper
  := by
  unfold wordLexeme
  split
  next => trivial
  next hlook => exact ⟨by rwa [String.toList_ofList], hlook⟩

/-- What is taken for a number continues a number. -/
theorem numberTail_take (cs : List Char) :
  numberTail (cs.take (numberTail cs)) = (cs.take (numberTail cs)).length
  := by
  induction cs with
  | nil => rfl
  | cons c cs ih =>
    rw [numberTail]
    split
    case isFalse => rfl
    case isTrue hc =>
      rw [take_succ_cons, numberTail_cons_eq_length]
      refine ⟨?_, ih⟩
      simp only [Bool.or_eq_true, Bool.and_eq_true, decide_eq_true_eq, Option.any_eq_true] at hc
      rcases hc with hc | ⟨hc, d, hd, hdig⟩
      · exact .inl hc
      · obtain ⟨ds, rfl⟩ := List.head?_eq_some_iff.mp hd
        refine .inr ⟨hc, d, ?_, hdig⟩
        rw [numberTail, if_pos (by simp [hdig])]
        rfl

theorem lexemeAt_isProper (before : List Char) (c : Char) (cs : List Char) :
  ∀ e ∈ (lexemeAt before c cs).1, e.IsProper
  := by
  unfold lexemeAt
  split
  next => simp
  next =>
    split
    next => simp [Lexeme.IsProper]
    next =>
      split_ifs with hst hdig hsl hhash hsemi
      · intro e he
        obtain rfl := Option.mem_some.mp he
        apply wordLexeme_isProper
        rw [isWord, Bool.and_eq_true, all_eq_true]
        exact ⟨hst, fun d hd => (all_eq_true.mp all_takeWhile) d hd⟩
      · intro e he
        obtain rfl := Option.mem_some.mp he
        rw [Lexeme.IsProper, String.toList_ofList, isNumber, Bool.and_eq_true, decide_eq_true_iff]
        exact ⟨hdig, numberTail_take cs⟩
      · simp [Lexeme.IsProper]
      · simp
      · simp [Lexeme.IsProper]
      · intro e he
        obtain ⟨m, -, rfl⟩ := Option.map_eq_some_iff.mp he
        trivial

/-- Every lexeme that is scanned is proper. -/
theorem scan_isProper (skip : ℕ) (before cs : List Char) :
  ∀ e ∈ scan skip before cs, e.IsProper
  := by
  induction cs generalizing skip before with
  | nil => simp [scan]
  | cons c cs ih =>
    cases skip with
    | succ skip =>
      rw [scan]
      apply ih skip (c :: before)
    | zero =>
      rw [scan, forall_mem_append]
      refine ⟨?_, ih _ _⟩
      intro e he
      apply lexemeAt_isProper before c cs e (Option.mem_toList.mp he)

end Selaudit

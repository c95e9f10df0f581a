import Contextd.Selaudit.Spelling

/-!
# Lines as they are written and read

The text of an element is a line of the file.  Here is when the line is read as the same statement,
up to the order of the elements of sets.  Between the writer and the parser stands `Reads`: tokens
that are statements, one after the other, whatever follows.
-/

namespace Selaudit

open List

variable {order : SetOrder} {i : String}

/-! ### Statements in a row -/

/-- The tokens are statements in a row, each of which ends where the next one begins. -/
inductive Reads (order : SetOrder) : List Lexeme → List (Option Element) → Prop
  | nil : Reads order [] []
  | cons {ls ls' : List Lexeme} {e : Option Element} {es : List (Option Element)}
      (h : ∀ r, statement order (ls ++ r) = some (e, r)) (h' : Reads order ls' es) :
      Reads order (ls ++ ls') (e :: es)

namespace Reads

variable {e : Option Element}

variable {order : SetOrder} {ls ls' : List Lexeme} {es es' : List (Option Element)}

theorem single (h : ∀ r, statement order (ls ++ r) = some (e, r)) :
  Reads order ls [e]
  := by
  have hcons := Reads.cons h .nil
  rwa [append_nil] at hcons

/-- Statements are read one after the other. -/
theorem append (h : Reads order ls es) (h' : Reads order ls' es') :
  Reads order (ls ++ ls') (es ++ es')
  := by
  induction h with
  | nil => apply h'
  | cons hstmt _ ih =>
    rw [append_assoc, cons_append]
    exact .cons hstmt ih

/-- A statement has tokens. -/
theorem ne_nil (h : ∀ r, statement order (ls ++ r) = some (e, r)) :
  ls ≠ []
  := by
  rintro rfl
  cases h []

theorem length_le (h : Reads order ls es) :
  es.length ≤ ls.length
  := by
  induction h with
  | nil => simp
  | cons hstmt _ ih =>
    have hpos := length_pos_of_ne_nil (ne_nil hstmt)
    rw [length_cons, length_append]
    omega

/-- One step of the parser on statements in a row. -/
theorem statements_succ (h : ∀ r, statement order (ls ++ r) = some (e, r)) (n : ℕ)
    (r : List Lexeme) :
  statements order (n + 1) (ls ++ r) = (statements order n r).map (e :: ·)
  := by
  obtain ⟨l, ls, rfl⟩ := exists_cons_of_ne_nil (ne_nil h)
  have hr := h r
  rw [cons_append] at hr ⊢
  rw [statements, hr]
  · simp only [Option.bind_eq_bind, Option.bind_some]
    cases statements order n r <;> rfl
  · nofun

/-- With enough fuel the statements are read. -/
theorem statements_eq (h : Reads order ls es) {n : ℕ} (hn : es.length ≤ n) :
  statements order n ls = some es
  := by
  induction h generalizing n with
  | nil => cases n <;> rfl
  | cons hstmt _ ih =>
    obtain ⟨m, rfl⟩ : ∃ m, n = m + 1 := ⟨n - 1, by simp at hn; omega⟩
    rw [statements_succ hstmt, ih (by simpa using hn)]
    rfl

end Reads

/-- The text is read as statements in a row. -/
def Chunk (order : SetOrder) (u : List Char) (es : List (Option Element)) : Prop :=
  ∃ ls, Scanned u ls ∧ Reads order ls es

section

variable {order : SetOrder} {u u' : List Char} {es es' : List (Option Element)}

/-- Chunks are written one after the other. -/
theorem Chunk.append (h : Chunk order u es) (h' : Chunk order u' es') :
  Chunk order (u ++ u') (es ++ es')
  := by
  obtain ⟨ls, hs, hrd⟩ := h
  obtain ⟨ls', hs', hrd'⟩ := h'
  exact ⟨ls ++ ls', hs.append hs', hrd.append hrd'⟩

theorem Chunk.nil :
  Chunk order [] []
  := ⟨[], Scanned.nil, .nil⟩

/-- A text without lexemes is a chunk without statements. -/
theorem Scanned.chunk (h : Scanned u []) :
  Chunk order u []
  := ⟨[], h, .nil⟩

/-- A file that consists of statements in a row is accepted. -/
theorem Chunk.parse {text : String} (h : Chunk order text.toList es) :
  ∃ tokens, parse order text = some tokens ∧ tokens.reduceOption = es.reduceOption
  := by
  obtain ⟨ls, hs, hrd⟩ := h
  have htok : tokenize text = ls := by
    have hscan_eq := hs.scan_eq [] [] (by simp)
    rw [append_nil] at hscan_eq
    rw [tokenize, hscan_eq]
    apply append_nil ls
  unfold Selaudit.parse
  rw [htok]
  cases ls with
  | nil =>
    have hes : es = [] := by
      have hlen := hrd.length_le
      simpa using hlen
    rw [hes]
    exact ⟨[none], rfl, rfl⟩
  | cons l ls => exact ⟨es, hrd.statements_eq hrd.length_le, rfl⟩

end

/-! ### Lines -/

/-- The same statement: the elements of sets may come in another order. -/
inductive Element.Same : Element → Element → Prop
  | rule {kind : Kind} {source target : Value} {objectClass objectClass' : List String}
      {attributes attributes' : List String} (hcls : objectClass.Perm objectClass')
      (hatt : attributes.Perm attributes') :
      Same (.rule kind source target objectClass attributes)
        (.rule kind source target objectClass' attributes')
  | typeRule {kind : TypeRuleKind} {source target : Value} {objectClass objectClass' : List String}
      {destination : String} (hcls : objectClass.Perm objectClass') :
      Same (.typeRule kind source target objectClass destination)
        (.typeRule kind source target objectClass' destination)
  | refl (e : Element) : Same e e

theorem spelled_keyword {s : String} {k : Keyword} (h : isWord s.toList = true)
    (hk : reserved.lookup s = some k) :
  Spelled s.toList [.keyword k]
  := by
  have hw := spelled_word h
  rwa [wordLexeme, hk] at hw

/-- A statement with a semicolon is a line. -/
theorem chunk_of_statement {order : SetOrder} {w : List Char} {ls : List Lexeme}
    {e : Option Element} (hw : Spelled w ls)
    (h : ∀ r, statement order (ls ++ .mark .semi :: r) = some (e, r)) :
  Chunk order (w ++ [';', '\n']) [e]
  := by
  have hend : Scanned [';', '\n'] [.mark .semi] :=
    Scanned.semi (by decide) (Scanned.blank (by decide) Scanned.nil)
  refine ⟨ls ++ [.mark .semi], hw _ _ ⟨';', _, rfl, by decide⟩ hend, .single ?_⟩
  intro r
  rw [append_assoc]
  apply h r

section

variable {order : SetOrder} {name : String} (hname : IsIdentifier name)

include hname

/-- The line of a module header. -/
theorem chunk_moduleHeader {version : String} (hver : isNumber version.toList = true) :
  Chunk order ("module " ++ name ++ " " ++ version ++ ";" ++ "\n").toList
    [some (.moduleHeader name version)]
  := by
  have hspl := (spelled_keyword (s := "module") (by decide) rfl).blank
    ((spelled_identifier hname).blank (spelled_number hver))
  have hck := @chunk_of_statement order _ _ (some (.moduleHeader name version)) hspl
    (fun r => rfl)
  simpa using hck

theorem chunk_policyModule {version : String} (hver : isNumber version.toList = true) :
  Chunk order ("policy_module(" ++ name ++ ", " ++ version ++ ")" ++ "\n").toList
    [some (.policyModule name version)]
  := by
  have hspl := (spelled_keyword (s := "policy_module") (by decide) rfl).mark (c := '(')
    (by decide) (by decide) rfl ((spelled_identifier hname).mark (c := ',') (by decide)
      (by decide) rfl ((spelled_number hver).blankFirst.mark (c := ')') (by decide)
        (by decide) rfl spelled_nil))
  have hs := hspl _ _ ⟨'\n', [], rfl, by decide⟩ (Scanned.blank (by decide) Scanned.nil)
  have hrd : Reads order [.keyword .policyModule, .mark .lparen, .identifier name,
      .mark .comma, .number version, .mark .rparen] [some (.policyModule name version)] :=
    .single fun r => rfl
  have hck : Chunk order _ _ := ⟨_, hs, hrd⟩
  simpa using hck

/-- The line of a type without aliases and attributes. -/
theorem chunk_typeDef :
  Chunk order ("type " ++ name ++ " " ++ "" ++ "" ++ ";" ++ "\n").toList
    [some (.typeDef name none [])]
  := by
  have hspl := (spelled_keyword (s := "type") (by decide) rfl).blank
    ((spelled_identifier hname).blank spelled_nil)
  have hck := @chunk_of_statement order _ _ (some (.typeDef name none [])) hspl
    (fun r => rfl)
  simpa using hck

end

/-! ### Roles and calls -/

theorem spelled_commaBlank {w w' : List Char} {ls ls' : List Lexeme} (h : Spelled w ls)
    (h' : Spelled w' ls') :
  Spelled (w ++ (", ".toList ++ w')) (ls ++ ([.mark .comma] ++ ls'))
  := h.mark (c := ',') (by decide) (by decide) rfl h'.blankFirst

/-- The names of the types of a role are elements. -/
theorem isElement_of_str? {types : List Value} {names : List String}
    (htys : ∀ v ∈ types, IsNested v) (hns : types.mapM Value.str? = some names) :
  ∀ s ∈ names, IsElement s
  := by
  obtain rfl := mapM_str? hns
  intro s hs
  cases htys (.str s) (mem_map_of_mem hs) with
  | str h => apply h

/-- The line of a role. -/
theorem chunk_roleDef {name : String} (hname : IsIdentifier name) {types : List Value}
    (htys : ∀ v ∈ types, IsNested v) {text : String} (ht : reprRole name types = some text) :
  Chunk order (text ++ "\n").toList [some (.roleDef name types)]
  := by
  unfold reprRole at ht
  split_ifs at ht with hlen
  · cases ht
    obtain rfl := eq_nil_of_length_eq_zero hlen
    have hspl := (spelled_keyword (s := "role") (by decide) rfl).blank
      (spelled_identifier hname)
    have hck := @chunk_of_statement order _ _ (some (.roleDef name [])) hspl (fun r => rfl)
    simpa using hck
  · obtain ⟨names, hns, ht⟩ := Option.map_eq_some_iff.mp ht
    cases ht
    have hels := isElement_of_str? htys hns
    obtain rfl := mapM_str? hns
    rw [length_map] at hlen
    have hcks : ∀ c ∈ names.map ([·]), c ≠ [] ∧ ∀ x ∈ c, IsElement x := by
      intro c hc
      obtain ⟨x, hx, rfl⟩ := mem_map.mp hc
      exact ⟨by simp, by simpa using hels x hx⟩
    have hlist := spelled_intercalate (f := elementLexemes) spelled_commaBlank
      (fun x hx => spelled_element (hels x hx))
    have hspl := (spelled_keyword (s := "role") (by decide) rfl).blank
      ((spelled_identifier hname).blank ((spelled_keyword (s := "types") (by decide) rfl).blank
        hlist))
    have hlexemes : [Lexeme.mark .comma].intercalate (names.map elementLexemes)
        = commaLexemes (names.map ([·])) := by
      simp [commaLexemes, Function.comp_def]
    have hck := @chunk_of_statement order _ _ (some (.roleDef name (names.map .str))) hspl
      (by
        intro r
        have hread := commaList_chunks (by simpa using hlen) hcks r
        have hflatten : (names.map ([·])).flatten = names := by
          rw [← flatMap_def, flatMap_singleton']
        rw [hflatten] at hread
        rw [hlexemes]
        simp [statement, roleStatement, identifier, hread, expect])
    simpa using hck

/-- A parameter is read as it is written. -/
theorem callParam_input (hi : IsInput i) {r : List Lexeme} (hr : r.head? ≠ some (.mark .minus)) :
  callParam (wordLexeme i :: r) = some (.str i, r)
  := by
  rcases hi with hi | rfl | rfl
  · rw [wordLexeme, hi.2]
    rcases r with _ | ⟨l, r⟩
    · rfl
    · have hl : l ≠ .mark .minus := by simpa using hr
      rw [callParam]
      rintro s' rest heq
      apply hl (List.cons.inj heq).1
  · rfl
  · rfl

/-- The tokens of the parameters of a call. -/
def inputLexemes (inputs : List String) : List Lexeme :=
  [Lexeme.mark .comma].intercalate (inputs.map fun i => [wordLexeme i])

/-- The parameters of a call are read back. -/
theorem callParams_inputs {inputs : List String} (hne : inputs ≠ [])
    (h : ∀ i ∈ inputs, IsInput i) {r : List Lexeme} {n : ℕ} (hn : inputs.length ≤ n) :
  callParams n (inputLexemes inputs ++ .mark .rparen :: r)
    = some (inputs.map .str, .mark .rparen :: r)
  := by
  induction inputs generalizing n with
  | nil => contradiction
  | cons i is ih =>
    obtain ⟨hi, his⟩ := forall_mem_cons.mp h
    obtain ⟨m, rfl⟩ : ∃ m, n = m + 1 := ⟨n - 1, by simp at hn; omega⟩
    cases is with
    | nil =>
      have hprm := callParam_input hi (r := .mark .rparen :: r) (by simp)
      simp [inputLexemes, callParams, hprm]
    | cons j js =>
      have hr := ih (by simp) his (n := m) (by simpa using hn)
      have hcons : inputLexemes (i :: j :: js)
          = wordLexeme i :: .mark .comma :: inputLexemes (j :: js) := by
        simp [inputLexemes, intercalate_cons_cons]
      rw [hcons, cons_append, cons_append, callParams, callParam_input hi (by simp)]
      simp [hr]

theorem length_le_inputLexemes (inputs : List String) :
  inputs.length ≤ (inputLexemes inputs).length
  := by
  induction inputs with
  | nil => simp
  | cons i is ih =>
    cases is with
    | nil => simp [inputLexemes]
    | cons j js =>
      simp [inputLexemes, intercalate_cons_cons] at ih ⊢
      omega

theorem isWord_of_isInput (hi : IsInput i) :
  isWord i.toList = true
  := by
  rcases hi with hi | rfl | rfl
  · apply hi.1
  · decide
  · decide

theorem wordLexeme_ne_mark {m : Mark} :
  wordLexeme i ≠ .mark m
  := by
  unfold wordLexeme
  split <;> simp

theorem callStatement_inputs {name : String} {inputs : List String} (hne : inputs ≠ [])
    (h : ∀ i ∈ inputs, IsInput i) (r : List Lexeme) :
  callStatement name (inputLexemes inputs ++ .mark .rparen :: .mark .semi :: r)
    = some (.interfaceCall name inputs, r)
  := by
  have hlen := length_le_inputLexemes inputs
  have hparams := callParams_inputs hne h (r := .mark .semi :: r)
    (n := (inputLexemes inputs ++ .mark .rparen :: .mark .semi :: r).length + 1)
    (by rw [length_append]; omega)
  have hstr : ∀ l : List String, (l.map Value.str).mapM Value.str? = some l := by
    intro l
    induction l with
    | nil => rfl
    | cons s l ih => simp [Value.str?, ih]
  rw [callStatement]
  · rw [hparams]
    simp [expect, hstr]
  · obtain ⟨i, is, rfl⟩ := exists_cons_of_ne_nil hne
    rintro l heq
    cases is with
    | nil => apply wordLexeme_ne_mark (List.cons.inj heq).1
    | cons j js => apply wordLexeme_ne_mark (List.cons.inj heq).1

/-- The line of a call. -/
theorem chunk_interfaceCall {name : String} (hname : IsIdentifier name) {inputs : List String}
    (hne : inputs ≠ []) (h : ∀ i ∈ inputs, IsInput i) :
  Chunk order (name ++ "(" ++ ", ".intercalate inputs ++ ");" ++ "\n").toList
    [some (.interfaceCall name inputs)]
  := by
  have hlist : Spelled (", ".intercalate (inputs.map id)).toList (inputLexemes inputs) :=
    spelled_intercalate spelled_commaBlank
      (fun i hi => spelled_word (isWord_of_isInput (h i hi)))
  have hspl := (spelled_identifier hname).mark (c := '(') (by decide) (by decide) rfl
    (hlist.mark (c := ')') (by decide) (by decide) rfl spelled_nil)
  have hck := @chunk_of_statement order _ _ (some (.interfaceCall name inputs)) hspl
    (by
      intro r
      have hread := @callStatement_inputs name inputs hne h r
      simp only [cons_append, nil_append, append_assoc, statement, hread]
      rfl)
  simpa using hck

/-! ### Rules -/

/-- The reserved word of the rules of a kind. -/
def Kind.keyword : Kind → Keyword
  | .allow => .allow
  | .neverallow => .neverallow
  | .auditallow => .auditallow
  | .dontaudit => .dontaudit

/-- The reserved word of the rules on types of a kind. -/
def TypeRuleKind.keyword : TypeRuleKind → Keyword
  | .transition => .typeTransition
  | .change => .typeChange
  | .member => .typeMember

theorem spelled_kindWord (kind : Kind) :
  Spelled (Element.kindWord kind).toList [.keyword kind.keyword]
  := by
  cases kind
  all_goals exact spelled_keyword (by decide) rfl

theorem spelled_typeRuleWord (kind : TypeRuleKind) :
  Spelled (Element.typeRuleWord kind).toList [.keyword kind.keyword]
  := by
  cases kind
  all_goals exact spelled_keyword (by decide) rfl

theorem statement_kind (order : SetOrder) (kind : Kind) (l : List Lexeme) :
  statement order (.keyword kind.keyword :: l)
    = (ruleStatement order kind l).map fun x => (some x.1, x.2)
  := by
  cases kind <;> rfl

theorem statement_typeRuleKind (order : SetOrder) (kind : TypeRuleKind) (l : List Lexeme) :
  statement order (.keyword kind.keyword :: l)
    = (typeRuleStatement order kind l).map fun x => (some x.1, x.2)
  := by
  cases kind <;> rfl

section

variable {order : SetOrder} {a b c d word : String} {v₁ v₂ v₃ v₄ : Value}
  {l₁ l₂ l₃ l₄ : List Lexeme}

/-- The tokens of a rule. -/
theorem spelled_reprRule {ls : List Lexeme} (hw : Spelled word.toList ls) (h₁ : Spelled a.toList l₁)
    (h₂ : Spelled b.toList l₂) (h₃ : Spelled c.toList l₃) (h₄ : Spelled d.toList l₄) :
  ∃ w, (Element.reprRule word a b c d ++ "\n").toList = w ++ [';', '\n'] ∧
    Spelled w (ls ++ (l₁ ++ (l₂ ++ .mark .colon :: (l₃ ++ l₄))))
  := by
  have hspl := hw.blank (h₁.blank (h₂.mark (c := ':') (by decide) (by decide) rfl
    (h₃.blank h₄)))
  refine ⟨_, ?_, hspl⟩
  simp [Element.reprRule]

/-- The line of an access rule. -/
theorem chunk_accessVector {kind : Kind} (h₁ : ReadAs a.toList v₁ l₁) (h₂ : ReadAs b.toList v₂ l₂)
    (h₃ : ReadAs c.toList v₃ l₃) (h₄ : ReadAs d.toList v₄ l₄) :
  Chunk order (Element.reprRule (Element.kindWord kind) a b c d ++ "\n").toList
    [some (.ofRule order kind v₁ v₂ v₃ v₄)]
  := by
  obtain ⟨w, ht, hspl⟩ := spelled_reprRule (spelled_kindWord kind) h₁.1 h₂.1 h₃.1 h₄.1
  rw [ht]
  apply chunk_of_statement hspl
  intro r
  have hread : accessVector (l₁ ++ (l₂ ++ .mark .colon :: (l₃ ++ (l₄ ++ .mark .semi :: r))))
      = some ((v₁, v₂, v₃, v₄), r) := by
    simp only [accessVector, h₁.names_eq (h₂.2.1.head?_append _), Option.bind_eq_bind,
      Option.bind_some, h₂.names_eq (r := .mark .colon :: _) (by simp), expect, if_true,
      h₃.names_eq (h₄.2.1.head?_append _), h₄.names_eq (r := .mark .semi :: _) (by simp)]
    rfl
  simp only [append_assoc, cons_append, nil_append]
  rw [statement_kind, ruleStatement, hread]
  rfl

/-- The line of a type rule. -/
theorem chunk_typeRule {kind : TypeRuleKind} (h₁ : ReadAs a.toList v₁ l₁)
    (h₂ : ReadAs b.toList v₂ l₂) (h₃ : ReadAs c.toList v₃ l₃) (hd : IsIdentifier d) :
  Chunk order (Element.reprRule (Element.typeRuleWord kind) a b c d ++ "\n").toList
    [some (.typeRule kind v₁ v₂ (order.list v₃.names) d)]
  := by
  obtain ⟨w, ht, hspl⟩ :=
    spelled_reprRule (spelled_typeRuleWord kind) h₁.1 h₂.1 h₃.1 (spelled_identifier hd)
  rw [ht]
  apply chunk_of_statement hspl
  intro r
  simp only [append_assoc, cons_append, nil_append]
  rw [statement_typeRuleKind]
  simp only [typeRuleStatement, h₁.names_eq (h₂.2.1.head?_append _), Option.bind_eq_bind,
    Option.bind_some, h₂.names_eq (r := .mark .colon :: _) (by simp), expect, if_true,
    h₃.names_eq (r := .identifier d :: _) (by simp), identifier]
  rfl

end

/-! ### Elements that can be read again -/

/-- The character is the first one of the text. -/
def begins (c : Char) (s : String) : Bool := s.toList.head? = some c

/-- The names of classes or permissions can be read again: there is no list among them, and a name
that stands alone has no minus. -/
def readable (names : List String) : Bool :=
  names.all (fun s => !begins '[' s) && (names.length ≠ 1 || names.all fun s => !begins '-' s)

/-- The line of the element can be read again. -/
def Element.isReadable : Element → Bool
  | .moduleHeader _ _ | .policyModule _ _ => true
  | .typeDef _ aliases attributes => aliases.isNone && attributes.isEmpty
  | .roleDef _ types => types.all fun v => v.str?.isSome
  | .rule _ _ _ objectClass attributes => readable objectClass && readable attributes
  | .typeRule _ _ _ objectClass _ => readable objectClass
  | .interfaceCall _ inputs => inputs ≠ [")"]
  | _ => false

/-- Names that are proper can be read if they are readable. -/
theorem readableNames_of_readable {names : List String} (hprop : ProperNames names)
    (h : readable names = true) :
  ReadableNames names
  := by
  simp only [readable, Bool.and_eq_true, all_eq_true, Bool.not_eq_true', Bool.or_eq_true,
    decide_eq_true_eq] at h
  obtain ⟨hlists, hmin⟩ := h
  rcases hprop with hname | ⟨hne, hall⟩
  · exact .inl hname
  · have hels : ∀ s ∈ names, IsElement s := by
      intro s hs
      rcases hall s hs with hel | ⟨cs, hcs⟩
      · apply hel
      · have hbeg := hlists s hs
        simp [begins, hcs] at hbeg
    rcases hmin with hlen | hmin
    · have hpos := length_pos_of_ne_nil hne
      exact .inr ⟨by omega, hels⟩
    · rcases names with _ | ⟨s, _ | ⟨t, names⟩⟩
      · contradiction
      · left
        refine ⟨s, rfl, ?_⟩
        cases hels s (by simp) with
        | identifier h => exact .identifier h
        | @minus s h =>
          have hbeg := hmin ("-" ++ s) (by simp)
          simp [begins] at hbeg
      · exact .inr ⟨by simp, hels⟩

theorem order_names_perm {order : SetOrder} {v : Value} {names : List String}
    (h : v.names.Perm names) :
  names.Perm (order.list v.names)
  := (h.symm).trans (order.perm _).symm

/-- The source and the target of a rule whose types can be collected. -/
theorem exists_str_of_mapM {source target : Value}
    (h : ([source, target].mapM Value.str?).isSome = true) :
  ∃ s t, source = .str s ∧ target = .str t
  := by
  obtain ⟨names, hns⟩ := Option.isSome_iff_exists.mp h
  have hvalues := mapM_str? hns
  rcases names with _ | ⟨s, _ | ⟨t, _ | ⟨u, names⟩⟩⟩
  all_goals simp at hvalues
  use s, t, hvalues.1, hvalues.2

theorem isName_of_isNames {s : String} (h : IsNames (.str s)) :
  IsName s
  := by
  cases h with
  | str h => apply h

/-- An access rule that is no `dontaudit` rule is read as it was, up to order. -/
theorem chunk_rule {kind : Kind} {source target : String} {objectClass attributes : List String}
    (hk : kind ≠ .dontaudit) (hsrc : IsName source) (htgt : IsName target)
    (hcls : ReadableNames objectClass) (hatt : ReadableNames attributes) :
  ∃ text e', (Element.rule kind (.str source) (.str target) objectClass attributes).repr
      = some text ∧
    (Element.rule kind (.str source) (.str target) objectClass attributes).Same e' ∧
    Chunk order (text ++ "\n").toList [some e']
  := by
  obtain ⟨l₁, h₁⟩ := readAs_name hsrc
  obtain ⟨l₂, h₂⟩ := readAs_name htgt
  obtain ⟨v₃, l₃, h₃, hp₃⟩ := readAs_reprEnums hcls
  obtain ⟨v₄, l₄, h₄, hp₄⟩ := readAs_reprEnums hatt
  have hsame₃ := @order_names_perm order _ _ hp₃
  have hsame₄ := @order_names_perm order _ _ hp₄
  cases kind with
  | allow => exact ⟨_, _, rfl, .rule hsame₃ hsame₄, chunk_accessVector h₁ h₂ h₃ h₄⟩
  | neverallow => exact ⟨_, _, rfl, .rule hsame₃ hsame₄, chunk_accessVector h₁ h₂ h₃ h₄⟩
  | auditallow => exact ⟨_, _, rfl, .rule hsame₃ hsame₄, chunk_accessVector h₁ h₃ h₄ h₂⟩
  | dontaudit => contradiction

/-- A line that can be read again is read as the same statement.  The source and the target of a
rule must not be lists, which `req_types` cannot collect. -/
theorem chunk_of_isReadable {order : SetOrder} {e : Element} (hprop : e.IsProper)
    (hreq : e.reqTypes.isSome = true) (h : e.isReadable = true) :
  ∃ text e', e.repr = some text ∧ e.Same e' ∧ Chunk order (text ++ "\n").toList [some e']
  := by
  cases e with
  | moduleHeader name version =>
    exact ⟨_, _, rfl, .refl _, chunk_moduleHeader hprop.1 hprop.2⟩
  | policyModule name version =>
    exact ⟨_, _, rfl, .refl _, chunk_policyModule hprop.1 hprop.2⟩
  | typeDef name aliases attributes =>
    simp only [Element.isReadable, Bool.and_eq_true, Option.isNone_iff_eq_none,
      List.isEmpty_iff] at h
    obtain ⟨rfl, rfl⟩ := h
    exact ⟨_, _, rfl, .refl _, chunk_typeDef hprop.1⟩
  | roleDef name types =>
    simp only [Element.isReadable, all_eq_true] at h
    obtain ⟨text, ht⟩ := Option.isSome_iff_exists.mp (isSome_reprRole_iff.mpr h)
    exact ⟨text, _, ht, .refl _, chunk_roleDef hprop.1 hprop.2 ht⟩
  | rule kind source target objectClass attributes =>
    obtain ⟨hsrc, htgt, hdont, hcls, hatt⟩ := hprop
    obtain ⟨s, t, rfl, rfl⟩ := exists_str_of_mapM hreq
    have hk : kind ≠ .dontaudit := by
      intro hk
      cases hdont hk
    rw [Element.isReadable, Bool.and_eq_true] at h
    apply chunk_rule hk (isName_of_isNames hsrc) (isName_of_isNames (htgt hk))
      (readableNames_of_readable hcls h.1) (readableNames_of_readable hatt h.2)
  | typeRule kind source target objectClass destination =>
    obtain ⟨hsrc, htgt, hcls, hdest⟩ := hprop
    obtain ⟨s, t, rfl, rfl⟩ := exists_str_of_mapM hreq
    obtain ⟨l₁, h₁⟩ := readAs_name (isName_of_isNames hsrc)
    obtain ⟨l₂, h₂⟩ := readAs_name (isName_of_isNames htgt)
    obtain ⟨v₃, l₃, h₃, hp⟩ := readAs_reprEnums (readableNames_of_readable hcls h)
    exact ⟨_, _, rfl, .typeRule (order_names_perm hp), chunk_typeRule h₁ h₂ h₃ hdest⟩
  | interfaceCall name inputs =>
    obtain ⟨hname, rfl | ⟨hne, hinputs⟩⟩ := hprop
    · cases h
    · exact ⟨_, _, rfl, .refl _, chunk_interfaceCall hname hne hinputs⟩
  | permissive domains => cases h
  | permSet id perms warn => cases h
  | refpolicywarn text => cases h
  | m4Value id => cases h

end Selaudit

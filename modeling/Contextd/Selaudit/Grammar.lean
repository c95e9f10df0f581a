import Contextd.Selaudit.Scanner
import Contextd.Selaudit.Token

/-!
# The grammar of policies

`SELinuxParser`: the statements of a policy, with the objects the actions of the grammar make of
them.  The parser is written by recursive descent; a text that is not accepted, because of an error
in its syntax or because an action raises an error, gives nothing.  A complement `~` is read and
forgotten, and a statement with requirements is read and gives `None`.
-/

namespace Selaudit

/-! ### Rules -/

/-- The rule of a statement.  The target of a `dontaudit` rule is put into a list, and the
arguments of an `auditallow` rule stand in another order. -/
def Element.ofRule (order : SetOrder) (kind : Kind) (source target classes perms : Value) :
    Element :=
  match kind with
  | .allow | .neverallow =>
    .rule kind source target (order.list classes.names) (order.list perms.names)
  | .auditallow => .rule kind source perms (order.list target.names) (order.list classes.names)
  | .dontaudit =>
    .rule kind source
      (match target with
        | .str s => .list (.str s) []
        | target => target)
      (order.list classes.names) (order.list perms.names)

/-! ### Names -/

/-- The token is the next one. -/
def expect (lexeme : Lexeme) : List Lexeme → Option (List Lexeme)
  | [] => none
  | l :: rest => if l = lexeme then some rest else none

/-- `identifier`. -/
def identifier : List Lexeme → Option (String × List Lexeme)
  | .identifier s :: rest => some (s, rest)
  | _ => none

/-- `number`. -/
def number : List Lexeme → Option (String × List Lexeme)
  | .number s :: rest => some (s, rest)
  | _ => none

/-- `p_nested_id_list`: what follows the first element is appended to it if it is a list. -/
def Value.group (first : Value) (others : List Value) : Value :=
  match first with
  | .str s => .list (.str s) others
  | .list head tail => .list head (tail ++ others)

/-- The elements of a `nested_id_list`, as many as there are, with `n` braces and elements at most.
An element is an identifier, an identifier with a minus, or a list in braces. -/
def nestedElements : ℕ → List Lexeme → Option (List Value × List Lexeme)
  | n + 1, .identifier s :: rest =>
    (nestedElements n rest).map fun x => (.str s :: x.1, x.2)
  | n + 1, .mark .minus :: .identifier s :: rest =>
    (nestedElements n rest).map fun x => (.str ("-" ++ s) :: x.1, x.2)
  | n + 1, .mark .lbrace :: rest =>
    match nestedElements n rest with
    | some (v :: vs, .mark .rbrace :: rest) =>
      (nestedElements n rest).map fun x => (v.group vs :: x.1, x.2)
    | _ => none
  | _ + 1, rest => some ([], rest)
  | 0, _ => none

/-- `nested_id_list`. -/
def nestedIdList (l : List Lexeme) : Option (Value × List Lexeme) :=
  match nestedElements (l.length + 1) l with
  | some (v :: vs, rest) => some (v.group vs, rest)
  | _ => none

/-- `nested_id_set`. -/
def nestedIdSet (l : List Lexeme) : Option (Value × List Lexeme) := do
  let l ← expect (.mark .lbrace) l
  let (v, l) ← nestedIdList l
  let l ← expect (.mark .rbrace) l
  return (v, l)

/-- `names`. -/
def names : List Lexeme → Option (Value × List Lexeme)
  | .identifier s :: .mark .minus :: .identifier s' :: rest => some (.str (s ++ " -" ++ s'), rest)
  | .identifier s :: rest => some (.str s, rest)
  | .mark .asterisk :: rest => some (.str "*", rest)
  | .mark .tilde :: .identifier s :: rest => some (.str s, rest)
  | .mark .tilde :: rest => nestedIdSet rest
  | rest => nestedIdSet rest

/-- `comma_list`, with `n` lists at most. -/
def commaLists : ℕ → List Lexeme → Option (List Value × List Lexeme)
  | 0, _ => none
  | n + 1, l =>
    match nestedIdList l with
    | some (v, .mark .comma :: rest) =>
      (commaLists n rest).map fun x => (v.elements ++ x.1, x.2)
    | some (v, rest) => some (v.elements, rest)
    | none => none

/-- `comma_list`. -/
def commaList (l : List Lexeme) : Option (List Value × List Lexeme) := commaLists (l.length + 1) l

/-! ### Statements -/

/-- The keywords of requirements. -/
def isRequirement (lexeme : Lexeme) : Bool :=
  [.typeWord, .role, .attributeWord, .classWord, .boolWord].any (fun k => lexeme = .keyword k)

/-- `requires`, with `n` requirements at most. -/
def requires : ℕ → List Lexeme → Option (List Lexeme)
  | 0, _ => none
  | _, [] => none
  | n + 1, lexeme :: l =>
    if isRequirement lexeme then do
      let (_, l) ← commaList l
      let l ← expect (.mark .semi) l
      if l.head?.any isRequirement then requires n l else some l
    else none

/-- `names names COLON names names SEMI`. -/
def accessVector (l : List Lexeme) : Option ((Value × Value × Value × Value) × List Lexeme) := do
  let (source, l) ← names l
  let (target, l) ← names l
  let l ← expect (.mark .colon) l
  let (classes, l) ← names l
  let (perms, l) ← names l
  let l ← expect (.mark .semi) l
  return ((source, target, classes, perms), l)

/-- `p_rule_allow_def`, `p_rule_deny_def`, `p_rule_audit_def` and `p_rule_dontaudit_def`. -/
def ruleStatement (order : SetOrder) (kind : Kind) (l : List Lexeme) :
    Option (Element × List Lexeme) :=
  (accessVector l).map fun (x, l) => (.ofRule order kind x.1 x.2.1 x.2.2.1 x.2.2.2, l)

/-- `p_type_rule_transition_def`, `p_type_rule_change_def` and `p_type_rule_member_def`. -/
def typeRuleStatement (order : SetOrder) (kind : TypeRuleKind) (l : List Lexeme) :
    Option (Element × List Lexeme) := do
  let (source, l) ← names l
  let (target, l) ← names l
  let l ← expect (.mark .colon) l
  let (classes, l) ← names l
  let (destination, l) ← identifier l
  let l ← expect (.mark .semi) l
  return (.typeRule kind source target (order.list classes.names) destination, l)

/-- `p_module`. -/
def moduleStatement (l : List Lexeme) : Option (Element × List Lexeme) := do
  let (name, l) ← identifier l
  let (version, l) ← number l
  let l ← expect (.mark .semi) l
  return (.moduleHeader name version, l)

/-- `p_policy_module`. -/
def policyModuleStatement (l : List Lexeme) : Option (Element × List Lexeme) := do
  let l ← expect (.mark .lparen) l
  let (name, l) ← identifier l
  let l ← expect (.mark .comma) l
  let (version, l) ← number l
  let l ← expect (.mark .rparen) l
  return (.policyModule name version, l)

/-- `p_role_def`. -/
def roleStatement (l : List Lexeme) : Option (Element × List Lexeme) := do
  let (name, l) ← identifier l
  match l with
  | .mark .semi :: l => return (.roleDef name [], l)
  | .keyword .types :: l => do
    let (types, l) ← commaList l
    let l ← expect (.mark .semi) l
    return (.roleDef name types, l)
  | _ => none

/-- `p_permissive`. -/
def permissiveStatement (l : List Lexeme) : Option (Element × List Lexeme) := do
  let (domains, l) ← commaList l
  let l ← expect (.mark .semi) l
  return (.permissive domains, l)

/-- `p_type_def`. -/
def typeStatement (l : List Lexeme) : Option (Element × List Lexeme) := do
  let (name, l) ← identifier l
  match l with
  | .mark .semi :: l => return (.typeDef name none [], l)
  | .mark .comma :: l => do
    let (attributes, l) ← commaList l
    let l ← expect (.mark .semi) l
    return (.typeDef name none attributes, l)
  | .keyword .aliasWord :: l => do
    let (aliases, l) ← names l
    match l with
    | .mark .semi :: l => return (.typeDef name (some aliases) [], l)
    | .mark .comma :: l => do
      let (attributes, l) ← commaList l
      let l ← expect (.mark .semi) l
      return (.typeDef name (some aliases) attributes, l)
    | _ => none
  | _ => none

/-- `p_ref_policy_warn`, after its keyword. -/
def warning : List Lexeme → Option (String × List Lexeme)
  | .mark .lparen :: .mark .tick :: .text s :: .mark .squote :: .mark .rparen :: rest =>
    some (s, rest)
  | _ => none

/-- `p_obj_perm_set` and `p_define`. -/
def defineStatement : List Lexeme → Option (Element × List Lexeme)
  | .mark .lparen :: .mark .tick :: .identifier id :: .mark .squote :: .mark .comma ::
      .mark .tick :: l => do
    let (perms, l) ← names l
    match l with
    | .mark .squote :: .mark .rparen :: l => return (.permSet id perms.names none, l)
    | .keyword .refpolicywarn :: l => do
      let (text, l) ← warning l
      match l with
      | .mark .squote :: .mark .rparen :: l => return (.permSet id perms.names (some text), l)
      | _ => none
    | _ => none
  | .mark .rparen :: .mark .tick :: .identifier id :: .mark .squote :: .mark .lparen :: l =>
    some (.m4Value id, l)
  | _ => none

/-- `p_gen_require`. -/
def requireStatement (quoted : Bool) (l : List Lexeme) : Option (List Lexeme) := do
  let l ← expect (.mark .lbrace) l
  let l ← if quoted then expect (.mark .tick) l else some l
  let l ← requires l.length l
  let l ← if quoted then expect (.mark .squote) l else some l
  expect (.mark .rbrace) l

/-- `p_interface_call_param`. -/
def callParam : List Lexeme → Option (Value × List Lexeme)
  | .identifier s :: .mark .minus :: .identifier s' :: rest =>
    some (.list (.str s) [.str ("-" ++ s')], rest)
  | .identifier s :: rest => some (.str s, rest)
  | .keyword .trueWord :: rest => some (.str "true", rest)
  | .keyword .falseWord :: rest => some (.str "false", rest)
  | rest => nestedIdSet rest

/-- `interface_call_param_list`, with `n` parameters at most. -/
def callParams : ℕ → List Lexeme → Option (List Value × List Lexeme)
  | 0, _ => none
  | n + 1, l =>
    match callParam l with
    | some (v, .mark .comma :: rest) => (callParams n rest).map fun x => (v :: x.1, x.2)
    | some (v, rest) => some ([v], rest)
    | none => none

/-- `p_interface_call`, after the name and the parenthesis.  A call without parameters takes the
closing parenthesis for its inputs, and a parameter that is a list raises an error. -/
def callStatement (name : String) : List Lexeme → Option (Element × List Lexeme)
  | .mark .rparen :: l => some (.interfaceCall name [")"], l)
  | l => do
    let (params, l) ← callParams (l.length + 1) l
    let l ← expect (.mark .rparen) l
    let inputs ← params.mapM Value.str?
    match l with
    | .mark .semi :: l => return (.interfaceCall name inputs, l)
    | l => return (.interfaceCall name inputs, l)

/-- `statement`; requirements give no element. -/
def statement (order : SetOrder) : List Lexeme → Option (Option Element × List Lexeme)
  | .keyword k :: l =>
    let some' := Option.map (fun x : Element × List Lexeme => (some x.1, x.2))
    match k with
    | .policyModule => some' (policyModuleStatement l)
    | .moduleWord => some' (moduleStatement l)
    | .define => some' (defineStatement l)
    | .refpolicywarn => some' ((warning l).map fun x => (.refpolicywarn x.1, x.2))
    | .genReq => (requireStatement true l).map fun l => (none, l)
    | .require => (requireStatement false l).map fun l => (none, l)
    | .role => some' (roleStatement l)
    | .permissive => some' (permissiveStatement l)
    | .typeWord => some' (typeStatement l)
    | .allow => some' (ruleStatement order .allow l)
    | .neverallow => some' (ruleStatement order .neverallow l)
    | .auditallow => some' (ruleStatement order .auditallow l)
    | .dontaudit => some' (ruleStatement order .dontaudit l)
    | .typeTransition => some' (typeRuleStatement order .transition l)
    | .typeChange => some' (typeRuleStatement order .change l)
    | .typeMember => some' (typeRuleStatement order .member l)
    | _ => none
  | .identifier name :: .mark .lparen :: l =>
    (callStatement name l).map fun x => (some x.1, x.2)
  | _ => none

/-- `statements`, `n` of them at most. -/
def statements (order : SetOrder) : ℕ → List Lexeme → Option (List (Option Element))
  | _, [] => some []
  | 0, _ => none
  | n + 1, l => do
    let (e, l) ← statement order l
    let es ← statements order n l
    return e :: es

/-- `SELinuxParser.parse`, if the text is accepted.  The empty text has one statement, `None`. -/
def parse (order : SetOrder) (text : String) : Option (List (Option Element)) :=
  match tokenize text with
  | [] => some [none]
  | l => statements order l.length l

end Selaudit

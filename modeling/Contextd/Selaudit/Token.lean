import Mathlib.Data.List.Sort
import Contextd.Data.Traversal

/-!
# The tokens of a policy

The objects that the parser of `selinux.py` makes of the statements of a policy, and how they
are printed.  The optimizer works on the access rules; the other objects it only prints, apart
from the definitions of permission sets.
-/

namespace Selaudit

/-! ### Values -/

/-- A value of the grammar: a name, or a list of values, which is not empty. -/
inductive Value where
  | str (s : String)
  | list (head : Value) (tail : List Value)

namespace Value

mutual

/-- `repr` of a value. -/
def repr : Value → String
  | .str s => "'" ++ s ++ "'"
  | .list head tail => "[" ++ head.repr ++ reprTail tail ++ "]"

/-- `repr` of the elements of a list after the first. -/
def reprTail : List Value → String
  | [] => ""
  | v :: vs => ", " ++ v.repr ++ reprTail vs

end

/-- A value that is formatted by `%s`. -/
def format : Value → String
  | .str s => s
  | v => v.repr

/-- The text of a value that is a name. -/
def str? : Value → Option String
  | .str s => some s
  | .list .. => none

/-- The elements of a list; a value that is not a list is the list of itself. -/
def elements : Value → List Value
  | .str s => [.str s]
  | .list head tail => head :: tail

/-- The names that the elements of a value have as attributes and classes. -/
def names (v : Value) : List String := v.elements.map format

end Value

/-- `repr_enums`. -/
def reprEnums (enum : List String) : String :=
  if 1 < enum.length then
    "\x7b " ++ " ".intercalate (enum.insertionSort (· ≤ ·)) ++ " \x7d"
  else enum.headD ""

/-- The order in which a set is listed. -/
structure SetOrder where
  list : List String → List String
  perm : ∀ l, (list l).Perm l

/-- The elements of a set as they come. -/
def SetOrder.asGiven : SetOrder := ⟨id, List.Perm.refl⟩

theorem SetOrder.mem_list {order : SetOrder} {l : List String} {x : String} :
  x ∈ order.list l ↔ x ∈ l
  := (order.perm l).mem_iff

/-! ### Rules -/

/-- The kinds of access rules. -/
inductive Kind where
  | allow
  | neverallow
  | auditallow
  | dontaudit
  deriving DecidableEq, Repr

/-- The name of the class of the rules of a kind. -/
def Kind.className : Kind → String
  | .allow => "<class 'selinux.SELinuxRuleAllow'>"
  | .neverallow => "<class 'selinux.SELinuxRuleDeny'>"
  | .auditallow => "<class 'selinux.SELinuxRuleAudit'>"
  | .dontaudit => "<class 'selinux.SELinuxRuleNoAudit'>"

/-- `SELinuxRule`, of one of the kinds. -/
structure Rule where
  kind : Kind
  source : String
  target : Value
  objectClass : List String
  attributes : List String

/-- `SELinuxRule.__init__`. -/
def Rule.new (order : SetOrder) (kind : Kind) (sourceType : String)
    (targetType objectClass attributeList : Value) : Rule where
  kind := kind
  source := sourceType
  target := targetType
  attributes := order.list attributeList.names
  objectClass := order.list objectClass.names

/-- The rule of a statement.  The target of a `dontaudit` rule is put into a list, and the
arguments of an `auditallow` rule stand in another order. -/
def ruleDef (order : SetOrder) (kind : Kind) (source target : String) (classes perms : Value) :
    Rule :=
  match kind with
  | .allow | .neverallow => .new order kind source (.str target) classes perms
  | .auditallow => .new order kind source perms (.str target) classes
  | .dontaudit => .new order kind source (.list (.str target) []) classes perms

/-! ### Objects -/

/-- The kinds of rules on types. -/
inductive TypeRuleKind where
  | transition
  | change
  | member
  deriving DecidableEq, Repr

/-- The name of the class of the rules on types of a kind. -/
def TypeRuleKind.className : TypeRuleKind → String
  | .transition => "<class 'selinux.SELinuxTypeTransition'>"
  | .change => "<class 'selinux.SELinuxTypeChange'>"
  | .member => "<class 'selinux.SELinuxTypeMember'>"

/-- The objects for statements. -/
inductive Element where
  /-- `SELinuxModule`. -/
  | moduleHeader (name version : String)
  /-- `SELinuxPolicyModule`. -/
  | policyModule (name version : String)
  /-- `SELinuxType`; without aliases, the list of aliases is empty. -/
  | typeDef (name : String) (aliases : Option Value) (attributes : List Value)
  /-- `SELinuxRole`. -/
  | roleDef (name : String) (types : List Value)
  /-- `SELinuxPermissiveDomain`. -/
  | permissive (domains : List Value)
  /-- `SELinuxRule`, of one of the kinds. -/
  | rule (kind : Kind) (source target : Value) (objectClass attributes : List String)
  /-- `SELinuxTypeRule`, of one of the kinds. -/
  | typeRule (kind : TypeRuleKind) (source target : Value) (objectClass : List String)
      (destination : String)
  /-- `SELinuxDefinePermSet`. -/
  | permSet (id : String) (perms : List String) (refpolicywarn : Option String)
  /-- `SELinuxInterfaceCall`. -/
  | interfaceCall (name : String) (inputs : List String)
  /-- `SELinuxRefPolicyWarn`. -/
  | refpolicywarn (text : String)
  /-- `SELinuxDefineM4Value`. -/
  | m4Value (id : String)

/-! ### Printing -/

/-- `repr` of a role, which joins the names of its types: a list among them raises an error. -/
def reprRole (name : String) (types : List Value) : Option String :=
  if types.length = 0 then some ("role " ++ name ++ ";")
  else
    (types.mapM Value.str?).map fun names =>
      "role " ++ name ++ " types " ++ ", ".intercalate names ++ ";"

theorem isSome_reprRole_iff {name : String} {types : List Value} :
  (reprRole name types).isSome ↔ ∀ v ∈ types, v.str?.isSome
  := by
  unfold reprRole
  split_ifs with hlen
  · simp [List.length_eq_zero_iff.mp hlen]
  · rw [Option.isSome_map, List.isSome_mapM_iff]

/-- `repr` of the definition of a permission set. -/
def reprPermSet (id : String) (perms : List String) (refpolicywarn : Option String) : String :=
  "define(`" ++ id ++ "', `" ++
    (match perms with
      | [perm] => "\x7b " ++ perm ++ " \x7d"
      | names => reprEnums names) ++
    (refpolicywarn.map fun text => " refpolicywarn(`" ++ text ++ "')").getD "" ++ "')"

namespace Element

/-- The aliases of a type.  If there is one that is not in a list, its characters are printed. -/
def reprAliases : Option Value → String
  | none => ""
  | some (.str s) =>
    "alias \x7b" ++
      " ".intercalate (s.toList.map fun c => (Value.str (String.singleton c)).repr) ++ "\x7d"
  | some (.list head tail) =>
    "alias \x7b" ++ " ".intercalate ((head :: tail).map Value.repr) ++ "\x7d"

/-- The attributes of a type. -/
def reprAttributes (attributes : List Value) : String :=
  if 0 < attributes.length then ", " ++ ", ".intercalate (attributes.map Value.repr) else ""

/-- `repr_enums` of the target of a `dontaudit` rule. -/
def reprTargets : Value → String
  | .list head [] => head.format
  | .list head tail => reprEnums ((head :: tail).map Value.repr)
  | .str s => s

/-- The keyword of the rules of a kind. -/
def kindWord : Kind → String
  | .allow => "allow"
  | .neverallow => "neverallow"
  | .auditallow => "auditallow"
  | .dontaudit => "dontaudit"

/-- The keyword of the rules on types of a kind. -/
def typeRuleWord : TypeRuleKind → String
  | .transition => "type_transition"
  | .change => "type_change"
  | .member => "type_member"

/-- A rule: its keyword, and what stands before and after the colon. -/
def reprRule (word source target classes perms : String) : String :=
  word ++ " " ++ source ++ " " ++ target ++ ":" ++ classes ++ " " ++ perms ++ ";"

/-- `repr` of an object, unless it raises an error. -/
def repr : Element → Option String
  | .moduleHeader name version => some ("module " ++ name ++ " " ++ version ++ ";")
  | .policyModule name version => some ("policy_module(" ++ name ++ ", " ++ version ++ ")")
  | .typeDef name aliases attributes =>
    some ("type " ++ name ++ " " ++ reprAliases aliases ++ reprAttributes attributes ++ ";")
  | .roleDef name types => reprRole name types
  | .interfaceCall name inputs => some (name ++ "(" ++ ", ".intercalate inputs ++ ");")
  | .rule kind source target objectClass attributes =>
    some (match kind with
      | .allow | .neverallow =>
        reprRule (kindWord kind) source.format target.format (reprEnums objectClass)
          (reprEnums attributes)
      | .auditallow =>
        reprRule (kindWord kind) source.format (reprEnums objectClass) (reprEnums attributes)
          target.format
      | .dontaudit =>
        reprRule (kindWord kind) source.format (reprTargets target) (reprEnums objectClass)
          (reprEnums attributes))
  | .typeRule kind source target objectClass destination =>
    some (reprRule (typeRuleWord kind) source.format target.format (reprEnums objectClass)
      destination)
  | .permissive domains => some ("permissive " ++ ", ".intercalate (domains.map Value.repr) ++ ";")
  | .permSet id perms warn => some (reprPermSet id perms warn)
  | .refpolicywarn text => some ("refpolicywarn(`" ++ text ++ "')")
  | .m4Value id => some ("define(`" ++ id ++ "')")

end Element

/-! ### Tokens -/

/-- A token of the optimizer: an access rule with one source, or another object.  A statement
with requirements is `None`. -/
inductive Token where
  | rule (r : Rule)
  | plain (e : Option Element)

/-- A statement with an access rule for one source and one target, or with another object. -/
inductive Statement where
  | rule (kind : Kind) (source target : String) (classes perms : Value)
  | plain (e : Option Element)

/-- The token of a statement. -/
def Statement.token (order : SetOrder) : Statement → Token
  | .rule kind source target classes perms => .rule (ruleDef order kind source target classes perms)
  | .plain e => .plain e

/-- The key by which `sort_rules` sorts a token, unless it raises an error. -/
def Token.sortFunc : Token → Option String
  | .rule r => some (r.source ++ " " ++ r.kind.className ++ " " ++ r.target.format)
  | .plain none => some "None"
  | .plain (some (.typeRule kind source target _ _)) =>
      some (source.format ++ " " ++ kind.className ++ " " ++ target.format)
  | .plain (some e) => e.repr

end Selaudit

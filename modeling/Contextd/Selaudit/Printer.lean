import Mathlib.Data.List.Dedup
import Mathlib.Data.List.ReduceOption
import Contextd.Selaudit.Grammar

/-!
# Writing a policy

`SELinuxOptimizer.to_file` writes the tokens of a policy, section by section: the module headers,
the types, the roles, what is required, the interface calls and the rules.  Nothing else is written:
neither permissive statements nor permission sets.  What raises an error gives no text.
-/

namespace Selaudit

namespace Element

/-! ### Requirements -/

/-- The text ends with another one. -/
def ends (ending s : String) : Bool := ending.toList.isSuffixOf s.toList

/-- `req_types`.  A list among the source and the target of a rule, or among permissive domains,
cannot be put into a set. -/
def reqTypes : Element → Option (List String)
  | .permissive domains => domains.mapM Value.str?
  | .rule _ source target _ _ => [source, target].mapM Value.str?
  | .typeRule _ source target _ _ => [source, target].mapM Value.str?
  | .interfaceCall _ inputs => some (inputs.filter fun i => ends "_t" i)
  | _ => some []

/-- `req_roles`. -/
def reqRoles : Element → List String
  | .interfaceCall _ inputs =>
    inputs.filter fun i => !ends "_t" i && ends "_r" i
  | _ => []

/-- The name of a type that is declared. -/
def typeName? : Element → Option String
  | .typeDef name _ _ => some name
  | _ => none

/-- The name of a role that is declared. -/
def roleName? : Element → Option String
  | .roleDef name _ => some name
  | _ => none

end Element

/-- The elements of a set as they come: each of them once, in some order. -/
def SetOrder.set (order : SetOrder) (l : List String) : List String := order.list l.dedup

/-- The types that are required: those that rules and calls name, other than `self`, and that are
not declared. -/
def requiredTypes (es : List Element) : Option (List String) :=
  (es.mapM Element.reqTypes).map fun types =>
    types.flatten.filter fun t => t ≠ "self" ∧ t ∉ es.filterMap Element.typeName?

/-- The roles that are required. -/
def requiredRoles (es : List Element) : List String :=
  (es.flatMap Element.reqRoles).filter fun r => r ∉ es.filterMap Element.roleName?

/-- A block of requirements, unless there is nothing to require. -/
def requireBlock (word : String) (required : List String) : String :=
  if 0 < required.length then "require \x7b " ++ word ++ " " ++ ",".intercalate required ++ ";\x7d"
  else ""

/-! ### The file -/

/-- The parts of the file that elements belong to. -/
inductive Section where
  | header
  | types
  | roles
  | interfaces
  | rules
  deriving DecidableEq, Repr

/-- The part of the file an element is written to. -/
def Element.part? : Element → Option Section
  | .moduleHeader .. | .policyModule .. => some .header
  | .typeDef .. => some .types
  | .roleDef .. => some .roles
  | .interfaceCall .. => some .interfaces
  | .rule .. | .typeRule .. => some .rules
  | _ => none

/-- What is above and below the title of a part. -/
def ruler : String := "===================="

/-- The title of a part. -/
def title (name : String) : String :=
  "\n\n# " ++ ruler ++ "\n# " ++ name ++ "\n# " ++ ruler ++ "\n"

/-- The elements of a part, one in a line. -/
def writeLines : List Element → Option String
  | [] => some ""
  | e :: es => do
    let text ← e.repr
    let rest ← writeLines es
    return text ++ "\n" ++ rest

/-- The source of a rule. -/
def Element.source : Element → String
  | .rule _ source _ _ _ => source.format
  | .typeRule _ source _ _ _ => source.format
  | _ => ""

/-- The rules; before the first one of a source there is a comment. -/
def writeRules (sources : List String) : List Element → Option String
  | [] => some ""
  | e :: es => do
    let text ← e.repr
    let comment := if e.source ∈ sources then "" else "\n# ==> " ++ e.source ++ "\n"
    let rest ← writeRules (if e.source ∈ sources then sources else e.source :: sources) es
    return comment ++ text ++ "\n" ++ rest

/-- The elements of a part of the file. -/
def inPart (part : Section) (es : List Element) : List Element :=
  es.filter fun e => e.part? = some part

/-- The domains that are made permissive. -/
def writeDomains (permissiveDomains : List String) : String :=
  if 0 < permissiveDomains.length then
    title "Permissive domains" ++
      String.join (permissiveDomains.map fun d => "permissive " ++ d ++ ";\n")
  else ""

/-- `SELinuxOptimizer.to_file`. -/
def toFile (order : SetOrder) (tokens : List (Option Element)) (permissiveDomains : List String) :
    Option String := do
  let es := tokens.reduceOption
  let header ← writeLines (inPart .header es)
  let types ← writeLines (inPart .types es)
  let roles ← writeLines (inPart .roles es)
  let required ← requiredTypes es
  let interfaces ← writeLines (inPart .interfaces es)
  let rules ← writeRules [] (inPart .rules es)
  return header ++ writeDomains permissiveDomains ++ title "Types" ++ types ++ title "Roles" ++
    roles ++ title "Require" ++
    requireBlock "type" (order.set required) ++
    requireBlock "roles" (order.set (requiredRoles es)) ++
    title "Interfaces" ++ interfaces ++ title "Rules" ++ rules

end Selaudit

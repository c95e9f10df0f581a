import Contextd.Data.Grouping
import Contextd.Selaudit.Token

/-!
# The policy optimizer

The passes of `SELinuxOptimizer` that `regeneratePolicy` runs on the tokens of a policy:
`selfize_rules`, `factorize_rules`, `factorize_rule_attributes` and `sort_rules`.  A pass that
raises an error has no result.
-/

namespace Selaudit

/-! ### `selfize_rules` -/

/-- A rule whose target is its source is a rule for `self`. -/
def Rule.selfize (r : Rule) : Rule :=
  match r.target with
  | .str target => if r.source = target then { r with target := .str "self" } else r
  | .list .. => r

/-- What a pass does to the rules among the tokens. -/
def Token.mapRule (f : Rule → Rule) : Token → Token
  | .rule r => .rule (f r)
  | .plain e => .plain e

/-- `selfize_rules`. -/
def selfizeRules (tokens : List Token) : List Token := tokens.map (Token.mapRule Rule.selfize)

/-! ### `factorize_rules` -/

/-- The keys of the known rules. -/
abbrev Key := String × String × String

/-- The source, the target and the classes of a rule.  A target that is a list cannot be
hashed. -/
def Rule.key? (r : Rule) : Option Key :=
  r.target.str?.map fun target => (r.source, target, reprEnums r.objectClass)

/-- One attribute of `add_attributes`.  The attributes that are there are read by an iterator,
which goes on after the last one it has found, and is used up by an attribute it does not
find. -/
def addAttribute (s : List String × List String) (attr : String) : List String × List String :=
  match s.2.dropWhile (· ≠ attr) with
  | [] => (s.1 ++ [attr], [])
  | _ :: rest => (s.1, rest)

/-- `add_attributes`. -/
def addAttributes (attributes attributeList : List String) : List String :=
  (attributeList.foldl addAttribute (attributes, attributes)).1

/-- The key of a rule. -/
def Token.key? : Token → Option Key
  | .rule r => r.key?
  | .plain _ => none

/-- The token is a rule with a target that cannot be hashed. -/
def Token.unhashable : Token → Bool
  | .rule r => r.key?.isNone
  | .plain _ => false

/-- A rule with the attributes of another one added. -/
def Token.absorb : Token → Token → Token
  | .rule r, .rule r' => .rule { r with attributes := addAttributes r.attributes r'.attributes }
  | t, _ => t

/-- The step of the loop of `factorize_rules`. -/
def factorizeRule (g : Grouping Token Key) (t : Token) : Option (Grouping Token Key) :=
  if t.unhashable then none else some (g.step Token.key? Token.absorb t)

/-- `factorize_rules`: the rules with a known key are merged into the first one, and deleted
after the loop. -/
def factorizeRules (tokens : List Token) : Option (List Token) :=
  (tokens.foldlM factorizeRule Grouping.empty).map Grouping.result

/-! ### `factorize_rule_attributes` -/

/-- `ulist.extend`. -/
def extend (order : SetOrder) (l l' : List String) : List String :=
  l ++ order.list (l'.dedup.filter (· ∉ l))

/-- The definition of a permission set, if the token is one. -/
def Token.permSet? : Token → Option (String × List String)
  | .plain (some (.permSet id perms _)) => some (id, perms)
  | _ => none

/-- The permission sets that are defined. -/
def permSets (tokens : List Token) : List (String × List String) := tokens.filterMap Token.permSet?

/-- The step for a permission set: when all its permissions are there, they are to be deleted,
and its name is to be added. -/
def factorizeStep (order : SetOrder) (attrsSet : List String)
    (s : List String × List String) (permSet : String × List String) :
    List String × List String :=
  let permsSet := permSet.2.dedup
  let inter := attrsSet.filter (· ∈ permsSet)
  if inter.length = permsSet.length then (extend order s.1 permsSet, s.2 ++ [permSet.1]) else s

/-- The attributes of a rule after `factorize_rule_attributes`. -/
def factorizeAttributes (order : SetOrder) (permSets : List (String × List String))
    (attributes : List String) : List String :=
  let attrsSet := attributes.dedup
  let (toDelete, toAdd) := permSets.foldl (factorizeStep order attrsSet) ([], [])
  order.list (toAdd ++ order.list (attrsSet.filter (· ∉ toDelete)))

/-- `factorize_rule_attributes`. -/
def factorizeRuleAttributes (order : SetOrder) (tokens : List Token) : List Token :=
  tokens.map (Token.mapRule fun r =>
    { r with attributes := factorizeAttributes order (permSets tokens) r.attributes })

/-! ### `sort_rules` -/

/-- `sort_rules`. -/
def sortRules (tokens : List Token) : Option (List Token) :=
  (tokens.mapM Token.sortFunc).map fun keys =>
    ((keys.zip tokens).insertionSort fun a b => a.1 ≤ b.1).map Prod.snd

/-- The passes of `regeneratePolicy`. -/
def optimize (order : SetOrder) (tokens : List Token) : Option (List Token) :=
  (factorizeRules (selfizeRules tokens)).bind fun tokens =>
    sortRules (factorizeRuleAttributes order tokens)

end Selaudit

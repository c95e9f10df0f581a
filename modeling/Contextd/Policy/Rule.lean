import Contextd.Data.Bookshelf

/-!
# Domains, programs and rules

The data of the transition policy, as `transitions.xml` describes it.  A *loop* keeps the
current domain, a *rule* leads to a target domain; both are an `AbstractRule`, a list of
conditions on the context (`MRule`) and a list of source domains (`TRule`).

Patterns are matched by an engine that is given (`RegExp`): which patterns are valid, and
which strings a pattern matches as a whole.
-/

/-- The pattern engine: the patterns it accepts, and the strings a pattern matches
entirely. -/
structure RegExp where
  isValid : String → Bool
  exactMatch : String → String → Bool

namespace Policy

/-! ### Domains and programs -/

/-- A domain. -/
structure Domain where
  name : String
  displayName : String
  iconPath : String
  description : String
  confidentiality : Int32
  reliability : Int32
  deriving DecidableEq, Repr

/-- The domain of the default constructor, which stands for no domain. -/
def Domain.none : Domain where
  name := ""
  displayName := ""
  iconPath := ""
  description := ""
  confidentiality := 0
  reliability := 0

instance : Inhabited Domain where
  default := .none

/-- A program. -/
structure Program where
  name : String
  displayName : String
  icon : String
  fullPath : String
  description : String
  deriving DecidableEq, Repr

/-- The program of the default constructor. -/
def Program.none : Program where
  name := ""
  displayName := ""
  icon := ""
  fullPath := ""
  description := ""

instance : Inhabited Program where
  default := .none

/-- The program that stands for an unknown name. -/
def Program.unknown (name : String) : Program where
  name := name
  displayName := "Unknown (" ++ name ++ ")"
  icon := ":/icons/unknown-program"
  fullPath := ""
  description := ""

/-- `QFileInfo(path).isAbsolute()`: a path from the root, or of a resource. -/
def isAbsolute (path : String) : Bool :=
  match path.toList with
  | c :: _ => c == '/' || c == ':'
  | [] => false

/-- `Program::isValid`. -/
def Program.isValid (p : Program) : Bool :=
  p.name ≠ "" && isAbsolute p.fullPath

/-! ### Conditions -/

/-- A block of conditions: the values of the context that must be there, each with the
pattern it must match. -/
structure MRule where
  actionName : String
  displayName : String
  conditions : OrdMap String String

/-- The key is one of `CONTEXT_FROM` and `CONTEXT_TO`, in any case. -/
def isAddressKey (key : String) : Bool :=
  let letters := key.toList.map Char.toLower
  letters == ['f', 'r', 'o', 'm'] || letters == ['t', 'o']

/-- `val.contains("$lt;")`. -/
def containsLt : List Char → Bool
  | '$' :: 'l' :: 't' :: ';' :: _ => true
  | _ :: rest => containsLt rest
  | [] => false

/-- `val.remove("$lt;")`. -/
def removeLt : List Char → List Char
  | '$' :: 'l' :: 't' :: ';' :: rest => removeLt rest
  | c :: rest => c :: removeLt rest
  | [] => []

/-- The value of the context that a pattern is compared with: the address between `$lt;`
and `>` in a `from` or `to` value that has one, the value itself otherwise. -/
def contextValue (key value : String) : String :=
  if isAddressKey key && containsLt value.toList && decide (value.length > 4) then
    String.ofList ((removeLt value.toList).takeWhile (· ≠ '>'))
  else value

/-- The loop of `MRule::matches` over the values of the context.  `none` is the early
return of `false`. -/
def MRule.matchesLoop (re : RegExp) (m : MRule) :
    List (String × String) → OrdMap String String → Option (OrdMap String String)
  | [], paramsUsed => some paramsUsed
  | (key, value) :: rest, paramsUsed =>
      match m.conditions[key]? with
      | none => matchesLoop re m rest paramsUsed
      | some pattern =>
          if re.isValid pattern then
            if re.exactMatch pattern (contextValue key value) then
              matchesLoop re m rest (paramsUsed.insert key "yes")
            else none
          else matchesLoop re m rest paramsUsed

/-- `MRule::matches`. -/
def MRule.matches (re : RegExp) (m : MRule) (values : OrdMap String String) : Bool :=
  match m.matchesLoop re values.toList ∅ with
  | none => false
  | some paramsUsed => paramsUsed.size == m.conditions.size

/-- `MRule::addCondition`: the first condition on a key stays. -/
def MRule.addCondition (m : MRule) (name value : String) : MRule :=
  if name ∈ m.conditions then m
  else { m with conditions := m.conditions.insert name value }

/-! ### Source domains -/

/-- A source domain, given by a pattern, with the prompt and notify flags that replace
those of the rule when they are set. -/
structure TRule where
  fromDomain : String
  notify? : Option Bool := none
  prompt? : Option Bool := none
  deriving DecidableEq, Repr

/-- `TRule::isValid`. -/
def TRule.isValid (t : TRule) : Bool := t.fromDomain ≠ ""

/-- `TRule::matches`. -/
def TRule.matches (re : RegExp) (t : TRule) (domain : String) : Bool :=
  re.exactMatch t.fromDomain domain

/-- The source of the default constructor. -/
def TRule.none : TRule where
  fromDomain := ""

/-- `AbstractRule::deleteTRule`: remove the first source with a name and return it. -/
def deleteTRule (domain : String) : List TRule → TRule × List TRule
  | [] => (.none, [])
  | t :: ts =>
      if t.fromDomain = domain then (t, ts)
      else
        let (t', ts') := deleteTRule domain ts
        (t', t :: ts')

/-! ### Rules -/

/-- What loops and rules have in common. -/
structure AbstractRule where
  id : Int
  priority : Int
  program : Program
  displayName : String
  prompt : Bool
  notify : Bool
  mRules : List MRule
  tRules : List TRule

/-- `AbstractRule::isValid`. -/
def AbstractRule.isValid (r : AbstractRule) : Bool := r.id ≠ 0

/-- `AbstractRule::setProgram`. -/
def AbstractRule.setProgram (r : AbstractRule) (prog : Program) (allowInvalid : Bool) :
    AbstractRule :=
  if prog.isValid || allowInvalid then { r with program := prog } else r

/-- A rule with a target domain. -/
structure Rule extends AbstractRule where
  transitTo : Domain

/-- A rule that keeps the current domain. -/
structure Loop extends AbstractRule

/-- `Rule::isValid`. -/
def Rule.isValid (r : Rule) : Bool := r.toAbstractRule.isValid && r.transitTo ≠ .none

/-- `Rule::setTransitTo`. -/
def Rule.setTransitTo (r : Rule) (dest : Domain) : Rule :=
  if dest ≠ .none then { r with transitTo := dest } else r

/-- A transition that is allowed.  The invalid transition of the default constructor is
`none` of `Option Transition`. -/
structure Transition where
  program : Program
  transitFrom : Domain
  transitTo : Domain
  promptUser : Bool
  notifyUser : Bool
  deriving DecidableEq, Repr

/-- The loops of `AbstractRule::matches` over the conditions and the sources.  The second
component is `matchedButRefused`. -/
def AbstractRule.matchesLoop (re : RegExp) (r : AbstractRule) (targetDomain : Domain → Domain)
    (program : Program) (currentDomain : Domain) (values : OrdMap String String) :
    List MRule → Option Transition × Bool
  | [] => (none, false)
  | m :: ms =>
      if m.matches re values then
        match r.tRules.find? (·.matches re currentDomain.name) with
        | some t =>
            (some
              { program := program
                transitFrom := currentDomain
                transitTo := targetDomain currentDomain
                promptUser := t.prompt?.getD r.prompt
                notifyUser := t.notify?.getD r.notify }, false)
        | none => (none, true)
      else matchesLoop re r targetDomain program currentDomain values ms

/-- `AbstractRule::matches`, with the target domain of the subclass. -/
def AbstractRule.matches (re : RegExp) (r : AbstractRule) (targetDomain : Domain → Domain)
    (program : Program) (currentDomain : Domain) (values : OrdMap String String) :
    Option Transition × Bool :=
  if !program.isValid then (none, false)
  else if program.name ≠ r.program.name then (none, false)
  else r.matchesLoop re targetDomain program currentDomain values r.mRules

/-- `Loop::targetDomain`. -/
def Loop.targetDomain (_ : Loop) (current : Domain) : Domain := current

/-- `Rule::targetDomain`. -/
def Rule.targetDomain (r : Rule) (_ : Domain) : Domain := r.transitTo

/-- `AbstractRule::matches` of a loop. -/
def Loop.matches (re : RegExp) (l : Loop) (program : Program) (currentDomain : Domain)
    (values : OrdMap String String) : Option Transition × Bool :=
  l.toAbstractRule.matches re l.targetDomain program currentDomain values

/-- `AbstractRule::matches` of a rule. -/
def Rule.matches (re : RegExp) (r : Rule) (program : Program) (currentDomain : Domain)
    (values : OrdMap String String) : Option Transition × Bool :=
  r.toAbstractRule.matches re r.targetDomain program currentDomain values

end Policy

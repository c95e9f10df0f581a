import Contextd.Data.Dom
import Contextd.Data.Number
import Contextd.Policy.Store

/-!
# Reading the transitions file

`Configuration::parseTransitionsFile`, on the tree of the document.  The rules and loops
are constructed in the order they appear, and each takes the next identifier of
`AbstractRule`, so the reader carries the counter along (`Loader`).
-/

namespace Policy

/-- `element.attribute(..) == RULE_TRUE`. -/
def isTrue (s : String) : Bool := s == "true"

/-- The value of an override: absent when the attribute is empty. -/
def parseOverride (s : String) : Option Bool := if s = "" then none else some (isTrue s)

/-- `QString::toInt`: `0` for what is not a number of 32 bits. -/
def toInt (s : String) : Int32 := Int32.ofInt ((QString.toInt? s).getD 0)

/-! ### Conditions and sources -/

/-- One `mrule` element: a condition for each of its child elements. -/
def parseMRule (e : Dom) : MRule :=
  e.childElements.foldl (fun m child => m.addCondition child.tagName child.textOf)
    ⟨e.attr "action", e.attr "display_name", ∅⟩

/-- `Configuration::parseMRules`: `none` when there is no `matching` element.  An `mrule`
element without children is skipped. -/
def parseMRules (parent : Dom) : Option (List MRule) :=
  (parent.firstChild "matching").map fun root =>
    ((root.childrenNamed "mrule").filter fun e => !e.children.isEmpty).map parseMRule

/-- A source, whose name is in the given attribute; one without a name is skipped. -/
def parseTRule (nameTag : String) (e : Dom) : Option TRule :=
  if e.attr nameTag = "" then none
  else
    some
      { fromDomain := e.attr nameTag
        notify? := parseOverride (e.attr "notify")
        prompt? := parseOverride (e.attr "prompt") }

/-- `Configuration::parseTRulesForLoop`. -/
def parseTRulesForLoop (parent : Dom) : Option (List TRule) :=
  (parent.firstChild "domains").map fun root =>
    (root.childrenNamed "loop_domain").filterMap (parseTRule "name")

/-- `Configuration::parseTRulesForRule`. -/
def parseTRulesForRule (parent : Dom) : Option (List TRule) :=
  ((parent.firstChild "transitions").bind (·.firstChild "allow")).map fun root =>
    (root.childrenNamed "transit").filterMap (parseTRule "from_domain")

/-! ### The document -/

/-- The configuration read so far, and `AbstractRule::idCounter`. -/
structure Loader where
  config : Configuration
  idCounter : Int

/-- The notify flag of a loop or a rule, by default off. -/
def parseNotify (e : Dom) : Bool :=
  isTrue (if e.attr "notify" = "" then "false" else e.attr "notify")

/-- The prompt flag of a loop or a rule, by default on. -/
def parsePrompt (e : Dom) : Bool :=
  isTrue (if e.attr "prompt" = "" then "true" else e.attr "prompt")

/-- The domain described by the attributes of an element. -/
def domainOf (e : Dom) : Domain where
  name := e.attr "name"
  displayName := e.attr "display_name"
  iconPath := e.attr "icon"
  description := ((e.firstChild "description").map Dom.textOf).getD ""
  confidentiality := toInt (e.attrD "confidentiality" "0")
  reliability := toInt (e.attrD "reliability" "0")

/-- A domain with a name is not the invalid one. -/
theorem domainOf_ne_none {e : Dom} (h : e.attr "name" ≠ "") :
  domainOf e ≠ .none
  := fun hn => h (congrArg Domain.name hn)

namespace Loader

/-- The program of a name, or the one that stands for an unknown name. -/
def programNamed (s : Loader) (name : String) : Program :=
  s.config.programs.getD name (.unknown name)

/-- A rule constructed from the attributes of an element. -/
def construct (s : Loader) (e : Dom) (mrules : List MRule) (trules : List TRule) :
    AbstractRule where
  id := s.idCounter + 1
  priority := s.idCounter + 1
  program := s.programNamed (e.attr "app_name")
  displayName := e.attr "display_name"
  prompt := parsePrompt e
  notify := parseNotify e
  mRules := mrules
  tRules := trules

/-- `Configuration::parseLoop`. -/
def parseLoop (s : Loader) (e : Dom) : Loader where
  idCounter := s.idCounter + 1
  config :=
    match parseMRules e, parseTRulesForLoop e with
    | some mrules, some trules =>
        let appName := e.attr "app_name"
        { s.config with
          loops := s.config.loops.push appName ⟨s.construct e mrules trules⟩ }
    | _, _ => s.config

/-- `Configuration::parseRule`.  Reading `_domains[..]` stores the invalid domain under a
name that is not there. -/
def parseRule (s : Loader) (e : Dom) : Loader :=
  let strTransitTo := e.attr "to_domain"
  let transitTo := s.config.domains.getD strTransitTo .none
  let config := { s.config with domains := s.config.domains.insert strTransitTo transitTo }
  if transitTo = .none then { s with config := config }
  else
    { idCounter := s.idCounter + 1
      config :=
        match parseMRules e, parseTRulesForRule e with
        | some mrules, some trules =>
            let appName := e.attr "app_name"
            { config with
              rules := config.rules.push appName
                { s.construct e mrules trules with transitTo := transitTo } }
        | _, _ => config }

/-- `Configuration::parseDomain`. -/
def parseDomain (s : Loader) (e : Dom) : Loader :=
  let domain := domainOf e
  if domain.name ≠ "" ∧ domain.name ∉ s.config.domains then
    { s with
      config :=
        { s.config with
          domains := s.config.domains.insert domain.name domain
          defaultDomain :=
            if isTrue (e.attrD "default" "false") then domain
            else s.config.defaultDomain } }
  else s

/-- `Configuration::parseNoKillProgram`. -/
def parseNoKillProgram (s : Loader) (e : Dom) : Loader :=
  let path := e.attr "full_path"
  if path ≠ "" ∧ isAbsolute path then
    { s with
      config := { s.config with noKillPrograms := s.config.noKillPrograms ++ [path] } }
  else s

/-- A loop or a rule; other elements are skipped. -/
def parseAbstractRule (s : Loader) (e : Dom) : Loader :=
  if e.isNamed "loop" then s.parseLoop e
  else if e.isNamed "rule" then s.parseRule e
  else s

/-- `Configuration::parseTransitionsFile`, on the root element. -/
def parseRoot (s : Loader) (root : Dom) : Loader :=
  let s₁ := (root.childrenNamed "domain").foldl parseDomain s
  let noKill := ((root.firstChild "nokill").map (·.childrenNamed "nokill_program")).getD []
  let s₂ := noKill.foldl parseNoKillProgram s₁
  root.childElements.foldl parseAbstractRule s₂

end Loader

/-- The programs by name; a later one replaces an earlier one of the same name. -/
def programMap (programs : List Program) : OrdMap String Program :=
  programs.foldl (fun m p => m.insert p.name p) ∅

/-- The configuration before the file is read. -/
def Configuration.empty (programs : OrdMap String Program) : Configuration where
  rules := ∅
  loops := ∅
  domains := ∅
  defaultDomain := .none
  programs := programs
  noKillPrograms := []

/-- A configuration read from a file.  There is no root element when the file cannot be
opened or is not well formed, and a root of another name is taken for an empty file. -/
def load (programs : OrdMap String Program) (idCounter : Int) (root : Option Dom) : Loader :=
  let s : Loader := ⟨.empty programs, idCounter⟩
  match root with
  | some root => if root.isNamed "PIGA_Transitions" then s.parseRoot root else s
  | none => s

end Policy

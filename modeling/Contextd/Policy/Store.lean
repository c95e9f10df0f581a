import Contextd.Machine
import Contextd.Policy.Decision

/-!
# Editing the policy

The public operations of `Configuration` that change it.  Loops and rules are kept on two
shelves, under the names of programs.  An operation that is given a rule looks it up under
the name of the rule's own program; one that is given an identifier looks under all names.
-/

namespace Policy

/-- Loops are filed under the name of their program. -/
def loopShelving : Shelving String Loop where
  key l := l.program.name
  id l := l.id
  priority l := l.priority

/-- Rules are filed under the name of their program. -/
def ruleShelving : Shelving String Rule where
  key r := r.program.name
  id r := r.id
  priority r := r.priority

/-- `AbstractRule::setProgram` of a loop. -/
def Loop.setProgram (l : Loop) (prog : Program) (allowInvalid : Bool) : Loop :=
  { l with toAbstractRule := l.toAbstractRule.setProgram prog allowInvalid }

/-- `AbstractRule::setProgram` of a rule. -/
def Rule.setProgram (r : Rule) (prog : Program) (allowInvalid : Bool) : Rule :=
  { r with toAbstractRule := r.toAbstractRule.setProgram prog allowInvalid }

namespace Configuration

/-! ### Programs -/

/-- `Configuration::addProgram`. -/
def addProgram (c : Configuration) (p : Program) : Configuration :=
  if p.name ∈ c.programs then c
  else
    { c with
      programs := c.programs.insert p.name p
      loops := c.loops.mapAt p.name (·.setProgram p false)
      rules := c.rules.mapAt p.name (·.setProgram p false) }

/-- `Configuration::updateProgram`. -/
def updateProgram (c : Configuration) (oldName : String) (prog : Program) :
    Program × Configuration :=
  if oldName ∈ c.programs then
    (prog,
      { c with
        programs := (c.programs.erase oldName).insert prog.name prog
        loops := c.loops.mapAt oldName (·.setProgram prog true)
        rules := c.rules.mapAt oldName (·.setProgram prog true) })
  else (.none, c)

/-- `Configuration::deleteProgram`.  The loops and rules are looked up under the name of the
program found, which is the name it is stored under. -/
def deleteProgram (c : Configuration) (name : String) : Program × Configuration :=
  match c.programs[name]? with
  | some p =>
      (p,
        { c with
          programs := c.programs.erase name
          loops := c.loops.mapAt p.name (·.setProgram (.unknown name) true)
          rules := c.rules.mapAt p.name (·.setProgram (.unknown name) true) })
  | none => (.none, c)

/-- `Configuration::isProgramAllowed`. -/
def isProgramAllowed (c : Configuration) (name fullPath : String) : Bool :=
  match c.programs[name]? with
  | some p => p.fullPath == fullPath
  | none => false

/-- `Configuration::getProgramByName`. -/
def getProgramByName (c : Configuration) (name : String) (allowInvalid : Bool) : Program :=
  let p := c.programs.getD name .none
  if !p.isValid && allowInvalid then .unknown name else p

/-! ### Loops and rules -/

/-- `Configuration::allLoops`. -/
def allLoops (c : Configuration) : List Loop := c.loops.all

/-- `Configuration::allRules`. -/
def allRules (c : Configuration) : List Rule := c.rules.all

/-- `Configuration::addLoop`. -/
def addLoop (c : Configuration) (loop : Loop) : Configuration :=
  { c with loops := loopShelving.add c.loops loop }

/-- `Configuration::addRule`. -/
def addRule (c : Configuration) (rule : Rule) : Configuration :=
  { c with rules := ruleShelving.add c.rules rule }

/-- `Configuration::deleteLoop(Loop &)`. -/
def deleteLoopLike (c : Configuration) (loop : Loop) : Configuration :=
  { c with loops := loopShelving.removeIn c.loops loop.program.name loop.id }

/-- `Configuration::deleteRule(Rule &)`. -/
def deleteRuleLike (c : Configuration) (rule : Rule) : Configuration :=
  { c with rules := ruleShelving.removeIn c.rules rule.program.name rule.id }

/-- `Configuration::deleteLoop(int)`.  The loop of the default constructor is `none`. -/
def deleteLoop (c : Configuration) (id : Int) : Option Loop × Configuration :=
  let (loop, loops) := loopShelving.removeById c.loops id
  (loop, { c with loops := loops })

/-- `Configuration::deleteRule(int)`.  The rule of the default constructor is `none`. -/
def deleteRule (c : Configuration) (id : Int) : Option Rule × Configuration :=
  let (rule, rules) := ruleShelving.removeById c.rules id
  (rule, { c with rules := rules })

/-- `Configuration::updateLoop`. -/
def updateLoop (c : Configuration) (loop : Loop) : Configuration :=
  (c.deleteLoopLike loop).addLoop loop

/-- `Configuration::updateRule`. -/
def updateRule (c : Configuration) (rule : Rule) : Configuration :=
  (c.deleteRuleLike rule).addRule rule

/-- `Configuration::findLoop`. -/
def findLoop (c : Configuration) (id : Int) : Option Loop := loopShelving.find? c.loops id

/-- `Configuration::findRule`. -/
def findRule (c : Configuration) (id : Int) : Option Rule := ruleShelving.find? c.rules id

/-- `Configuration::findAbstractRule`.  The invalid rule is `none`. -/
def findAbstractRule (c : Configuration) (id : Int) : Option Entry :=
  match (c.findLoop id).filter (·.isValid), (c.findRule id).filter (·.isValid) with
  | some loop, _ => some (.loop loop)
  | none, some rule => some (.rule rule)
  | none, none => none

/-- `Configuration::deleteAbstractRule(int)`.  The invalid rule has no program name and the
identifier `0`. -/
def deleteAbstractRule (c : Configuration) (id : Int) : Option Entry × Configuration :=
  match c.findAbstractRule id with
  | some (.loop loop) => (some (.loop loop), c.deleteLoopLike loop)
  | some (.rule rule) => (some (.rule rule), c.deleteRuleLike rule)
  | none => (none, { c with rules := ruleShelving.removeIn c.rules "" 0 })

/-- `Configuration::swapPriorities`. -/
def swapPriorities (c : Configuration) (id otherId : Int) : Configuration :=
  let (loop, c) := c.deleteLoop id
  match loop.filter (·.isValid) with
  | some loop =>
      let (otherLoop, c) := c.deleteLoop otherId
      match otherLoop.filter (·.isValid) with
      | some otherLoop =>
          (c.addLoop { loop with priority := otherLoop.priority }).addLoop
            { otherLoop with priority := loop.priority }
      | none =>
          let (otherRule, c) := c.deleteRule otherId
          match otherRule.filter (·.isValid) with
          | some otherRule =>
              (c.addLoop { loop with priority := otherRule.priority }).addRule
                { otherRule with priority := loop.priority }
          -- The first entry was removed, and is not put back when there is no second one.
          | none => c
  | none =>
      let (rule, c) := c.deleteRule id
      match rule.filter (·.isValid) with
      | some rule =>
          let (otherLoop, c) := c.deleteLoop otherId
          match otherLoop.filter (·.isValid) with
          | some otherLoop =>
              (c.addRule { rule with priority := otherLoop.priority }).addLoop
                { otherLoop with priority := rule.priority }
          | none =>
              let (otherRule, c) := c.deleteRule otherId
              match otherRule.filter (·.isValid) with
              | some otherRule =>
                  (c.addRule { rule with priority := otherRule.priority }).addRule
                    { otherRule with priority := rule.priority }
              | none => c
      | none => c

/-! ### Domains -/

/-- `Configuration::addDomain`. -/
def addDomain (c : Configuration) (domain : Domain) (setDefault : Bool) : Configuration :=
  if domain ≠ .none then
    { c with
      domains := c.domains.insert domain.name domain
      defaultDomain := if setDefault then domain else c.defaultDomain }
  else c

/-- What `updateDomain` does for a loop. -/
def renameInLoop (oldName : String) (domain : Domain) (c : Configuration) (loop : Loop) :
    Configuration :=
  let (trule, trules) := deleteTRule oldName loop.tRules
  if trule.isValid then
    c.updateLoop { loop with tRules := trules ++ [{ trule with fromDomain := domain.name }] }
  else c

/-- What `updateDomain` does for a rule. -/
def renameInRule (oldName : String) (domain : Domain) (c : Configuration) (rule : Rule) :
    Configuration :=
  let (trule, trules) := deleteTRule oldName rule.tRules
  let rule' :=
    if trule.isValid then
      { rule with tRules := trules ++ [{ trule with fromDomain := domain.name }] }
    else { rule with tRules := trules }
  let c' := if trule.isValid then c.updateRule rule' else c
  if rule'.transitTo.name = oldName then c'.updateRule (rule'.setTransitTo domain) else c'

/-- `Configuration::updateDomain`. -/
def updateDomain (c : Configuration) (oldName : String) (domain : Domain) (setDefault : Bool) :
    Configuration :=
  if oldName ∈ c.domains then
    let c₁ :=
      { c with
        domains := (c.domains.erase oldName).insert domain.name domain
        defaultDomain := if setDefault then domain else c.defaultDomain }
    let c₂ := c₁.allLoops.foldl (renameInLoop oldName domain) c₁
    c₂.allRules.foldl (renameInRule oldName domain) c₂
  else c

/-- What `deleteDomain` does for a loop. -/
def dropFromLoop (name : String) (c : Configuration) (loop : Loop) : Configuration :=
  let (trule, trules) := deleteTRule name loop.tRules
  if trule.isValid then
    if trules = [] then (c.deleteLoop loop.id).2
    else c.updateLoop { loop with tRules := trules }
  else c

/-- What `deleteDomain` does for a rule. -/
def dropFromRule (name : String) (c : Configuration) (rule : Rule) : Configuration :=
  let (trule, trules) := deleteTRule name rule.tRules
  let c' :=
    if trule.isValid then
      if trules = [] then (c.deleteRule rule.id).2
      else c.updateRule { rule with tRules := trules }
    else c
  if rule.transitTo.name = name then (c'.deleteRule rule.id).2 else c'

/-- `Configuration::deleteDomain`.  Reading `_domains[name]` stores the invalid domain under
a name that was not there, so the removal that follows always succeeds. -/
def deleteDomain (c : Configuration) (name newDefault : String) : Domain × Configuration :=
  let result := c.domains.getD name .none
  let c₁ := { c with domains := c.domains.erase name }
  let c₂ := c₁.allLoops.foldl (dropFromLoop name) c₁
  let c₃ := c₂.allRules.foldl (dropFromRule name) c₂
  (result,
    if c₃.defaultDomain = result then
      { c₃ with defaultDomain := c₃.domains.getD newDefault .none }
    else c₃)

end Configuration

end Policy

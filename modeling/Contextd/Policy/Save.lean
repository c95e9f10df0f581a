import Contextd.Data.Sorting
import Contextd.Policy.Load

/-!
# Writing the transitions file

`Configuration::retrieveTransitionsDOM`, as the tree of the document.  The loops and rules are
written by priority; the order of entries of one priority is not promised, so the order is given to
`saveWith` (`IsSaveOrder`).  Conditions are read as they were (`parseMRules_of_matching`), and
sources with their overrides set (`TRule.raised`).
-/

namespace Policy

open List

/-- `RULE_TRUE` or `RULE_FALSE`. -/
def flagText (b : Bool) : String := if b then "true" else "false"

/-! ### Elements -/

/-- The element of a domain. -/
def domainElement (defaultDomain dom : Domain) : Dom :=
  .element "domain"
    ([("icon", dom.iconPath), ("display_name", dom.displayName), ("name", dom.name),
        ("confidentiality", dom.confidentiality.toInt.repr),
        ("reliability", dom.reliability.toInt.repr)] ++
      if defaultDomain = dom then [("default", "true")] else [])
    [.textElement "description" dom.description]

/-- The element of the programs that are not killed. -/
def noKillElement (paths : List String) : Dom :=
  .element "nokill" [] (paths.map fun path => .element "nokill_program" [("full_path", path)] [])

/-- The element of a block of conditions. -/
def mRuleElement (m : MRule) : Dom :=
  .element "mrule" [("action", m.actionName), ("display_name", m.displayName)]
    (m.conditions.toList.map fun cond => .textElement cond.1 cond.2)

/-- The element of the conditions of a rule. -/
def matchingElement (ms : List MRule) : Dom := .element "matching" [] (ms.map mRuleElement)

/-- The attributes of the overrides of a source.  `trule.notify()? RULE_TRUE:RULE_TRUE` and
`trule.prompt()? RULE_TRUE:RULE_TRUE` do not depend on the override. -/
def overrides (t : TRule) : List (String × String) :=
  ((t.notify?.map fun b => ("notify", if b then "true" else "true")).toList) ++
    ((t.prompt?.map fun b => ("prompt", if b then "true" else "true")).toList)

/-- The element of a source, with its name in the given attribute. -/
def tRuleElement (tag nameTag : String) (t : TRule) : Dom :=
  .element tag ((nameTag, t.fromDomain) :: overrides t) []

/-- The attributes that loops and rules have. -/
def ruleAttributes (r : AbstractRule) : List (String × String) :=
  [("display_name", r.displayName), ("prompt", flagText r.prompt),
    ("notify", flagText r.notify), ("app_name", r.program.name)]

/-- The element of a loop. -/
def loopElement (l : Loop) : Dom :=
  .element "loop" (ruleAttributes l.toAbstractRule)
    [matchingElement l.mRules,
      .element "domains" [] (l.tRules.map (tRuleElement "loop_domain" "name"))]

/-- The element of a rule. -/
def ruleElement (r : Rule) : Dom :=
  .element "rule" (ruleAttributes r.toAbstractRule ++ [("to_domain", r.transitTo.name)])
    [matchingElement r.mRules,
      .element "transitions" []
        [.element "allow" [] (r.tRules.map (tRuleElement "transit" "from_domain"))]]

/-- The element of a loop or a rule. -/
def Entry.toElement : Entry → Dom
  | .loop l => loopElement l
  | .rule r => ruleElement r

namespace Configuration

/-- `Configuration::allAbstractRules`. -/
def allAbstractRules (c : Configuration) : List Entry :=
  c.allLoops.map .loop ++ c.allRules.map .rule

/-- An order in which `qSort` may leave the loops and rules. -/
def IsSaveOrder (c : Configuration) (order : List Entry) : Prop :=
  IsSorting (·.toAbstractRule.priority) c.allAbstractRules order

/-- There is such an order. -/
theorem exists_isSaveOrder (c : Configuration) :
  ∃ order, c.IsSaveOrder order
  := IsSorting.exists_isSorting _ _

/-- The domains, by increasing key. -/
def domainList (c : Configuration) : List Domain := c.domains.toList.map Prod.snd

/-- `Configuration::retrieveTransitionsDOM`, with the loops and rules in the given order. -/
def saveWith (c : Configuration) (order : List Entry) : Dom :=
  .element "PIGA_Transitions" []
    (c.domainList.map (domainElement c.defaultDomain) ++
      noKillElement c.noKillPrograms :: order.map Entry.toElement)

end Configuration

/-! ### Reading elements back -/

/-- The source that is read back: an override that is set is read as `true`. -/
def TRule.raised (t : TRule) : TRule :=
  { t with notify? := t.notify?.map fun _ => true, prompt? := t.prompt?.map fun _ => true }

@[simp]
theorem isTrue_flagText (b : Bool) :
  isTrue (flagText b) = b
  := by
  cases b <;> decide

theorem flagText_ne (b : Bool) :
  flagText b ≠ ""
  := by
  cases b <;> decide

/-- A number of 32 bits is read back. -/
theorem toInt_repr (n : Int32) :
  toInt n.toInt.repr = n
  := by
  have hint : QString.IsInt n.toInt := ⟨n.le_toInt, Int.lt_add_one_iff.mp n.toInt_lt⟩
  rw [toInt, QString.toInt?_repr hint, Option.getD_some, Int32.ofInt_toInt]

/-- A domain is read back. -/
theorem domainOf_domainElement (defaultDomain dom : Domain) :
  domainOf (domainElement defaultDomain dom) = dom
  := by
  obtain ⟨name, displayName, iconPath, description, confidentiality, reliability⟩ := dom
  simp [domainOf, domainElement, Dom.attr, Dom.attrD, Dom.firstChild, Dom.children,
    Dom.isNamed, Dom.textElement, Dom.textOf, Dom.textOfAll, lookup_cons, toInt_repr]

/-- Conditions on keys that are new and distinct are all added. -/
theorem foldl_addCondition {conds : List (String × String)} {m : MRule}
    (hdist : (conds.map Prod.fst).Nodup) (hnew : ∀ cond ∈ conds, cond.1 ∉ m.conditions) :
  conds.foldl (fun m cond => m.addCondition cond.1 cond.2) m =
    { m with conditions := conds.foldl (fun acc cond => acc.insert cond.1 cond.2) m.conditions }
  := by
  induction conds generalizing m with
  | nil => rfl
  | cons cond conds ih =>
    obtain ⟨hcond, hr⟩ := nodup_cons.mp hdist
    have hadd : m.addCondition cond.1 cond.2 =
        { m with conditions := m.conditions.insert cond.1 cond.2 } :=
      if_neg (hnew cond mem_cons_self)
    rw [foldl_cons, foldl_cons, hadd, ih hr]
    intro other hoth hm
    rw [Std.ExtTreeMap.mem_insert, Std.LawfulEqCmp.compare_eq_iff_eq] at hm
    rcases hm with heq | hm
    · apply hcond
      rw [heq]
      apply mem_map_of_mem hoth
    · apply hnew other (mem_cons_of_mem _ hoth) hm

/-- A block of conditions is read back. -/
theorem parseMRule_mRuleElement (m : MRule) :
  parseMRule (mRuleElement m) = m
  := by
  have hchildren : (mRuleElement m).childElements =
      m.conditions.toList.map fun cond => .textElement cond.1 cond.2 := by
    apply filter_eq_self.mpr
    intro e he
    obtain ⟨cond, -, rfl⟩ := mem_map.mp he
    rfl
  have hdist : (m.conditions.toList.map Prod.fst).Nodup := by
    rw [Std.ExtTreeMap.map_fst_toList_eq_keys]
    apply m.conditions.nodup_keys
  simp only [parseMRule, hchildren, foldl_map, Dom.textOf_textElement]
  have hf := foldl_addCondition
    (m := ⟨(mRuleElement m).attr "action", (mRuleElement m).attr "display_name", ∅⟩) hdist
    (by simp)
  simp only [OrdMap.foldl_insert_toList] at hf
  exact hf

/-- Blocks of at least one condition are read back. -/
theorem parseMRules_of_matching {ms : List MRule} {tag : String} {attrs : List (String × String)}
    {rest : List Dom} (h : ∀ m ∈ ms, m.conditions.isEmpty = false) :
  parseMRules (.element tag attrs (matchingElement ms :: rest)) = some ms
  := by
  have hfull : ((ms.map mRuleElement).filter fun e => !e.children.isEmpty) =
      ms.map mRuleElement := by
    apply filter_eq_self.mpr
    intro e he
    obtain ⟨m, hm, rfl⟩ := mem_map.mp he
    simpa [mRuleElement] using h m hm
  have hread : (ms.map mRuleElement).map parseMRule = ms := by
    rw [map_map]
    apply map_id''
    apply parseMRule_mRuleElement
  have hfst : (Dom.element tag attrs (matchingElement ms :: rest)).firstChild "matching" =
      some (matchingElement ms) := rfl
  rw [parseMRules, hfst, Option.map_some, matchingElement,
    Dom.childrenNamed_map fun _ => rfl, hfull, hread]

theorem parseOverride_true :
  parseOverride "true" = some true
  := by
  decide

theorem parseOverride_empty :
  parseOverride "" = none
  := rfl

/-- A source with a name is read back, with its overrides set. -/
theorem parseTRule_tRuleElement {t : TRule} {nameTag : String} (tag : String)
    (hnot : nameTag ≠ "notify") (hpr : nameTag ≠ "prompt") (h : t.fromDomain ≠ "") :
  parseTRule nameTag (tRuleElement tag nameTag t) = some t.raised
  := by
  obtain ⟨fromDomain, notify?, prompt?⟩ := t
  have hn : (tRuleElement tag nameTag ⟨fromDomain, notify?, prompt?⟩).attr nameTag =
      fromDomain := by
    simp [tRuleElement, Dom.attr, Dom.attrD]
  have hnot' : ("notify" == nameTag) = false := by simpa using hnot.symm
  have hpr' : ("prompt" == nameTag) = false := by simpa using hpr.symm
  have hov : parseOverride
        ((tRuleElement tag nameTag ⟨fromDomain, notify?, prompt?⟩).attr "notify") =
        notify?.map (fun _ => true) ∧
      parseOverride ((tRuleElement tag nameTag ⟨fromDomain, notify?, prompt?⟩).attr "prompt") =
        prompt?.map (fun _ => true) := by
    cases notify? <;> cases prompt? <;>
      simp [tRuleElement, overrides, Dom.attr, Dom.attrD, lookup_cons, hnot', hpr',
        parseOverride_true, parseOverride_empty]
  rw [parseTRule, hn, if_neg h, hov.1, hov.2]
  rfl

/-- Sources with names are read back, with their overrides set. -/
theorem filterMap_parseTRule {ts : List TRule} {nameTag : String} (tag : String)
    (hnot : nameTag ≠ "notify") (hpr : nameTag ≠ "prompt") (h : ∀ t ∈ ts, t.fromDomain ≠ "") :
  (ts.map (tRuleElement tag nameTag)).filterMap (parseTRule nameTag) = ts.map TRule.raised
  := by
  rw [filterMap_map, ← filterMap_eq_map]
  apply filterMap_congr
  intro t ht
  apply parseTRule_tRuleElement tag hnot hpr (h t ht)

theorem parseTRulesForLoop_loopElement {l : Loop} (h : ∀ t ∈ l.tRules, t.fromDomain ≠ "") :
  parseTRulesForLoop (loopElement l) = some (l.tRules.map TRule.raised)
  := by
  have hfst : (loopElement l).firstChild "domains" =
      some (.element "domains" [] (l.tRules.map (tRuleElement "loop_domain" "name"))) := rfl
  rw [parseTRulesForLoop, hfst, Option.map_some, Dom.childrenNamed_map fun _ => rfl,
    filterMap_parseTRule _ (by decide) (by decide) h]

theorem parseTRulesForRule_ruleElement {r : Rule} (h : ∀ t ∈ r.tRules, t.fromDomain ≠ "") :
  parseTRulesForRule (ruleElement r) = some (r.tRules.map TRule.raised)
  := by
  have hfst : ((ruleElement r).firstChild "transitions").bind (·.firstChild "allow") =
      some (.element "allow" [] (r.tRules.map (tRuleElement "transit" "from_domain"))) := rfl
  rw [parseTRulesForRule, hfst, Option.map_some, Dom.childrenNamed_map fun _ => rfl,
    filterMap_parseTRule _ (by decide) (by decide) h]

/-! ### Finding the elements of the document -/

section Document

variable (c : Configuration) (order : List Entry)

/-- The elements of the domains of the document are those that were written for them. -/
theorem childrenNamed_saveWith :
  (c.saveWith order).childrenNamed "domain" =
    c.domainList.map (domainElement c.defaultDomain)
  := by
  have hdoms : (c.domainList.map (domainElement c.defaultDomain)).filter
      (Dom.isNamed "domain") = c.domainList.map (domainElement c.defaultDomain) := by
    apply filter_eq_self.mpr
    intro e he
    obtain ⟨d, -, rfl⟩ := mem_map.mp he
    rfl
  have hents : (order.map Entry.toElement).filter (Dom.isNamed "domain") = [] := by
    apply filter_eq_nil_iff.mpr
    intro e he
    obtain ⟨e', -, rfl⟩ := mem_map.mp he
    cases e' <;> simp [Entry.toElement, loopElement, ruleElement]
  have hnoKill : (noKillElement c.noKillPrograms).isNamed "domain" = false := rfl
  rw [Configuration.saveWith, Dom.childrenNamed, Dom.children_element, filter_append,
    hdoms, filter_cons_of_neg (by simp [hnoKill]), hents, append_nil]

/-- The element of the paths is found after those of the domains. -/
theorem firstChild_saveWith :
  (c.saveWith order).firstChild "nokill" = some (noKillElement c.noKillPrograms)
  := by
  have hn : (c.domainList.map (domainElement c.defaultDomain)).find?
      (Dom.isNamed "nokill") = none := by
    apply List.find?_eq_none.mpr
    intro e he
    obtain ⟨d, -, rfl⟩ := mem_map.mp he
    simp [domainElement]
  rw [Configuration.saveWith, Dom.firstChild, Dom.children_element, List.find?_append, hn]
  rfl

/-- The document has no text. -/
theorem childElements_saveWith :
  (c.saveWith order).childElements =
    c.domainList.map (domainElement c.defaultDomain) ++
      noKillElement c.noKillPrograms :: order.map Entry.toElement
  := by
  apply filter_eq_self.mpr
  intro e he
  rcases mem_append.mp he with he | he
  · obtain ⟨d, -, rfl⟩ := mem_map.mp he
    rfl
  · rcases mem_cons.mp he with rfl | he
    · rfl
    · obtain ⟨e', -, rfl⟩ := mem_map.mp he
      cases e' <;> rfl

end Document

end Policy

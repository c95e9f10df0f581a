import Contextd.Machine
import Contextd.Data.Worklist
import Contextd.Policy.SourceDomains

/-!
# Domains and rules that cannot be reached

`onUpdateWarnings` looks for the domains that no sequence of rules leads to from the default domain,
and for the loops and rules that have no source among the others, over a map from each domain to the
rules that have it as a source (`mem_getD_sourceDomains`).  The search is a closure by a work list,
and a run of the decision engine stays in what is reached (`reached_of_decisions`).
-/

/-- `Configuration::domainNameList`. -/
def Policy.Configuration.domainNameList (c : Configuration) : List String := c.domains.keys

namespace Editor

open List Policy

/-! ### The warnings -/

/-- `AbstractRulePtr`: a loop or rule, and its address.  Pointers are compared by their
addresses. -/
abbrev AbstractRulePtr := Entry × ℕ

/-- The copies of all loops and rules that the analysis works on. -/
def abstracts (c : Configuration) : List AbstractRulePtr := c.allAbstractRules.zipIdx

/-- `sourceDomains[name].append(abs)`. -/
def appendSource (abs : AbstractRulePtr) (sources : OrdMap String (List AbstractRulePtr))
    (name : String) : OrdMap String (List AbstractRulePtr) :=
  sources.insert name (sources.getD name [] ++ [abs])

/-- The loops and rules by their sources. -/
def sourceDomains (re : RegExp) (c : Configuration) : OrdMap String (List AbstractRulePtr) :=
  (abstracts c).foldl (fun sources abs =>
    (abs.1.toAbstractRule.matchedDomainNames re c.domainNameList).foldl (appendSource abs)
      sources) ∅

/-- The target of a rule; a loop has none. -/
def ruleTarget? (abs : AbstractRulePtr) : Option String :=
  match abs.1 with
  | .loop _ => none
  | .rule r => some r.transitTo.name

/-- The targets of the rules that have a domain as a source. -/
def targets (re : RegExp) (c : Configuration) (name : String) : List String :=
  ((sourceDomains re c).getD name []).filterMap ruleTarget?

/-- What has been reached before the search: the default domain, if any. -/
def firstReached (c : Configuration) : List String :=
  if c.defaultDomain ≠ .none then [c.defaultDomain.name] else []

/-- `reachedDomains`, at the end of the search.  No more domains are scanned than there are
targets of rules, and the default domain. -/
def reachedDomains (re : RegExp) (c : Configuration) : Option (List String) :=
  Worklist.close (targets re c) ((abstracts c).length + 1) ⟨firstReached c, firstReached c⟩

/-- The domains and the loops and rules for which there is a warning. -/
structure Warnings where
  domains : List String
  rules : List AbstractRulePtr

/-- `onUpdateWarnings`, up to the warnings about rules that are bypassed. -/
def onUpdateWarnings (re : RegExp) (unreachableDomainWarn unreachableRuleWarn : Bool)
    (c : Configuration) : Option Warnings :=
  (reachedDomains re c).map fun reached =>
    { domains :=
        if unreachableDomainWarn then
          reached.foldl (fun unreached name => unreached.filter (· ≠ name)) c.domainNameList
        else []
      rules :=
        if unreachableRuleWarn then
          reached.foldl (fun unreached name =>
            ((sourceDomains re c).getD name []).foldl
              (fun unreached abs => unreached.filter (·.2 ≠ abs.2)) unreached) (abstracts c)
        else [] }

/-- The identifiers under which there is a warning in `_rule_warnings`. -/
def Warnings.ruleIds (w : Warnings) : List Int := w.rules.map fun abs => abs.1.toAbstractRule.id

/-! ### The map of the sources -/

section

variable {re : RegExp} {c : Configuration} {name : String} {abs abs' : AbstractRulePtr}

theorem mem_getD_appendSource {sources : OrdMap String (List AbstractRulePtr)} {name' : String} :
  abs' ∈ (appendSource abs sources name').getD name [] ↔
    abs' ∈ sources.getD name [] ∨ name = name' ∧ abs' = abs
  := by
  rw [appendSource, Std.ExtTreeMap.getD_insert]
  split_ifs with h
  · obtain rfl := Std.LawfulEqCmp.eq_of_compare h
    simp
  · have hne : name ≠ name' := by
      rintro rfl
      simp at h
    simp [hne]

theorem mem_getD_foldl_appendSource {sources : OrdMap String (List AbstractRulePtr)}
    {names : List String} :
  abs' ∈ (names.foldl (appendSource abs) sources).getD name [] ↔
    abs' ∈ sources.getD name [] ∨ name ∈ names ∧ abs' = abs
  := by
  induction names generalizing sources with
  | nil => simp
  | cons name' names ih =>
    rw [foldl_cons, ih, mem_getD_appendSource, mem_cons]
    tauto

/-- The map holds, for each known domain, the loops and rules that have it as a source. -/
theorem mem_getD_sourceDomains :
  abs ∈ (sourceDomains re c).getD name [] ↔
    abs ∈ abstracts c ∧ name ∈ c.domainNameList ∧ abs.1.toAbstractRule.HasSource re name
  := by
  have hf : ∀ (l : List AbstractRulePtr) (sources : OrdMap String (List AbstractRulePtr)),
      abs ∈ (l.foldl (fun sources abs =>
          (abs.1.toAbstractRule.matchedDomainNames re c.domainNameList).foldl (appendSource abs)
            sources) sources).getD name [] ↔
        abs ∈ sources.getD name [] ∨
          abs ∈ l ∧ name ∈ abs.1.toAbstractRule.matchedDomainNames re c.domainNameList := by
    intro l
    induction l with
    | nil => simp
    | cons abs' l ih =>
      intro sources
      rw [foldl_cons, ih, mem_getD_foldl_appendSource, mem_cons]
      constructor
      · rintro ((h | ⟨h, rfl⟩) | h)
        · left
          apply h
        · right
          exact ⟨Or.inl rfl, h⟩
        · right
          exact ⟨Or.inr h.1, h.2⟩
      · rintro (h | ⟨rfl | h, hn⟩)
        · left
          left
          apply h
        · left
          right
          exact ⟨hn, rfl⟩
        · right
          exact ⟨h, hn⟩
  rw [sourceDomains, hf, AbstractRule.mem_matchedDomainNames]
  simp

/-- The targets of the rules that have a known domain as a source. -/
theorem mem_targets {target : String} :
  target ∈ targets re c name ↔
    name ∈ c.domainNameList ∧
      ∃ r ∈ c.allRules, r.HasSource re name ∧ r.transitTo.name = target
  := by
  rw [targets, mem_filterMap]
  constructor
  · rintro ⟨⟨e, i⟩, hm, htgt⟩
    obtain ⟨habs, hn, hsrc⟩ := mem_getD_sourceDomains.mp hm
    cases e with
    | loop l => cases htgt
    | rule r =>
      have hr := Configuration.rule_mem_allAbstractRules.mp (fst_mem_of_mem_zipIdx habs)
      exact ⟨hn, r, hr, hsrc, Option.some.inj htgt⟩
  · rintro ⟨hn, r, hr, hsrc, rfl⟩
    obtain ⟨i, hi⟩ := mem_iff_getElem?.mp (Configuration.rule_mem_allAbstractRules.mpr hr)
    refine ⟨(.rule r, i), mem_getD_sourceDomains.mpr ⟨?_, hn, hsrc⟩, rfl⟩
    apply mk_mem_zipIdx_iff_getElem?.mpr hi

/-! ### The search -/

/-- The domain names that the editor takes for reachable: the sets that have the default
domain, if any, and with a domain the targets of the rules that have it as a source. -/
def ClosedUnderRules (re : RegExp) (c : Configuration) : Set (Set String) :=
  {S | (c.defaultDomain ≠ .none → c.defaultDomain.name ∈ S) ∧
    ∀ name ∈ S, ∀ r ∈ c.allRules, r.HasSource re name → r.transitTo.name ∈ S}

theorem mem_firstReached :
  name ∈ firstReached c ↔ c.defaultDomain ≠ .none ∧ name = c.defaultDomain.name
  := by
  rw [firstReached]
  split_ifs with h <;> simp [h]

/-- The search ends, and what is reached is the least set that has the default domain and is
closed under the rules.  All of it is known. -/
theorem exists_reachedDomains (htgts : ∀ r ∈ c.allRules, r.transitTo.name ∈ c.domainNameList)
    (hdefault : c.defaultDomain = .none ∨ c.defaultDomain.name ∈ c.domainNameList) :
  ∃ reached, reachedDomains re c = some reached ∧
    IsLeast (ClosedUnderRules re c) {name | name ∈ reached} ∧
    ∀ name ∈ reached, name ∈ c.domainNameList
  := by
  let U := firstReached c ++ c.allRules.map fun r => r.transitTo.name
  have hfst : (firstReached c).Nodup ∧ (firstReached c).length ≤ 1 := by
    rw [firstReached]
    split_ifs <;> simp
  obtain ⟨reached, hclose, hcl, hlst⟩ :=
    @Worklist.exists_close _ _ ⟨firstReached c, firstReached c⟩ (targets re c) U
      (by
        intro name target htgt
        obtain ⟨-, r, hr, -, rfl⟩ := mem_targets.mp htgt
        apply mem_append_right _ (mem_map_of_mem hr))
      ((abstracts c).length + 1)
      ⟨fun _ h => h, fun _ h => Or.inl h⟩
      ⟨hfst.1, subset_append_left _ _⟩
      (by
        simp [U, abstracts, Configuration.allAbstractRules]
        omega)
  have hkn : ∀ name ∈ reached, name ∈ c.domainNameList := by
    apply hlst (a := {name | name ∈ c.domainNameList})
    refine ⟨?_, ?_⟩
    · intro name hn
      obtain ⟨hne, rfl⟩ := mem_firstReached.mp hn
      apply hdefault.resolve_left hne
    · intro name _ target htgt
      obtain ⟨-, r, hr, -, rfl⟩ := mem_targets.mp htgt
      apply htgts r hr
  refine ⟨reached, hclose, ⟨⟨?_, ?_⟩, ?_⟩, hkn⟩
  · intro hne
    apply hcl.1 _ (mem_firstReached.mpr ⟨hne, rfl⟩)
  · intro name hn r hr hsrc
    apply hcl.2 name hn _ (mem_targets.mpr ⟨hkn name hn, r, hr, hsrc, rfl⟩)
  · rintro S ⟨hdef, hrs⟩
    apply hlst
    refine ⟨?_, ?_⟩
    · intro name hn
      obtain ⟨hne, rfl⟩ := mem_firstReached.mp hn
      apply hdef hne
    · intro name hn target htgt
      obtain ⟨-, r, hr, hsrc, rfl⟩ := mem_targets.mp htgt
      apply hrs name hn r hr hsrc

/-! ### What is flagged -/

theorem mem_foldl_filter_ne {reached names : List String} :
  name ∈ reached.foldl (fun unreached name => unreached.filter (· ≠ name)) names ↔
    name ∈ names ∧ name ∉ reached
  := by
  induction reached generalizing names with
  | nil => simp
  | cons d reached ih =>
    rw [foldl_cons, ih, mem_filter, mem_cons]
    simp
    tauto

theorem mem_foldl_removeAll {removed l : List AbstractRulePtr} :
  abs ∈ removed.foldl (fun unreached abs => unreached.filter (·.2 ≠ abs.2)) l ↔
    abs ∈ l ∧ ∀ abs' ∈ removed, abs.2 ≠ abs'.2
  := by
  induction removed generalizing l with
  | nil => simp
  | cons abs' removed ih =>
    rw [foldl_cons, ih, mem_filter, forall_mem_cons]
    simp
    tauto

/-- Pointers of the analysis with the same address are the same. -/
theorem eq_of_address_eq (h : abs ∈ abstracts c) (h' : abs' ∈ abstracts c) (heq : abs.2 = abs'.2) :
  abs = abs'
  := by
  obtain ⟨e, i⟩ := abs
  obtain ⟨e', i'⟩ := abs'
  obtain rfl : i = i' := heq
  have he := mk_mem_zipIdx_iff_getElem?.mp h
  have he' := mk_mem_zipIdx_iff_getElem?.mp h'
  rw [Option.some.inj (he.symm.trans he')]

/-- A loop or rule is left over exactly when it has no source among the domains. -/
theorem mem_unreachedRules {reached : List String} :
  abs ∈ reached.foldl (fun unreached name =>
      ((sourceDomains re c).getD name []).foldl
        (fun unreached abs => unreached.filter (·.2 ≠ abs.2)) unreached) (abstracts c) ↔
    abs ∈ abstracts c ∧
      ∀ name ∈ reached, name ∈ c.domainNameList → ¬ abs.1.toAbstractRule.HasSource re name
  := by
  have hf : ∀ (reached : List String) (l : List AbstractRulePtr),
      abs ∈ reached.foldl (fun unreached name =>
          ((sourceDomains re c).getD name []).foldl
            (fun unreached abs => unreached.filter (·.2 ≠ abs.2)) unreached) l ↔
        abs ∈ l ∧
          ∀ name ∈ reached, ∀ abs' ∈ (sourceDomains re c).getD name [], abs.2 ≠ abs'.2 := by
    intro reached
    induction reached with
    | nil => simp
    | cons name reached ih =>
      intro l
      rw [foldl_cons, ih, mem_foldl_removeAll, forall_mem_cons, and_assoc]
  rw [hf]
  apply and_congr_right
  intro habs
  constructor
  · intro h name hn hkn hsrc
    apply h name hn abs (mem_getD_sourceDomains.mpr ⟨habs, hkn, hsrc⟩) rfl
  · intro h name hn abs' habs' heq
    obtain ⟨hm, hkn, hsrc⟩ := mem_getD_sourceDomains.mp habs'
    obtain rfl := eq_of_address_eq habs hm heq
    apply h name hn hkn hsrc

/-! ### The decision engine -/

/-- The runs of the decision engine from the default domain: any program asks with any
values, and the domain becomes the target of the transition that is found. -/
def decisions (re : RegExp) (c : Configuration) :
    Machine Domain (Program × OrdMap String String) where
  init d := d = c.defaultDomain
  step d a := (c.getFirstMatchingTransition re a.1 d a.2).map fun t => t.transitTo

/-- A loop or rule that answers with a transition has the domain as a source, and the
transition goes to its target. -/
theorem hasSource_of_matchesIn {e : Entry} {app : Program} {d : Domain}
    {values : OrdMap String String} {t : Transition}
    (h : (e.matchesIn re app d values).1 = some t) :
  e.toAbstractRule.HasSource re d.name ∧ t.transitTo = e.target d
  := by
  by_cases hown : e.toAbstractRule.program.name = app.name ∧ e.Holds re values
  · by_cases hval : app.isValid = true
    · rw [Entry.matchesIn_of_holds hval hown.1 hown.2] at h
      rcases hf : e.toAbstractRule.tRules.find? (·.matches re d.name) with _ | source
      · simp [hf] at h
      · simp only [hf, Option.some.injEq] at h
        obtain rfl := h
        exact ⟨⟨source, mem_of_find?_eq_some hf, by simpa using List.find?_some hf⟩, rfl⟩
    · rw [Entry.matchesIn_eq, AbstractRule.matches, if_pos (by simpa using hval)] at h
      cases h
  · rw [Entry.matchesIn_of_not_holds hown] at h
    cases h

/-- The engine stays in the domains that are reached. -/
theorem reached_of_decisions {reached : Set String} (hrch : reached ∈ ClosedUnderRules re c)
    (hdef : c.defaultDomain ≠ .none) {d : Domain} (h : (decisions re c).Reach Machine.anyStep d) :
  d.name ∈ reached
  := by
  apply h.invariant
  · rintro _ rfl
    apply hrch.1 hdef
  · intro d ⟨app, values⟩ d' ih _ hs
    obtain ⟨t, ht, rfl⟩ := Option.map_eq_some_iff.mp hs
    rw [Configuration.getFirstMatchingTransition_eq_scan] at ht
    obtain ⟨e, he, ht⟩ := exists_of_scan ht
    obtain ⟨hsrc, htgt⟩ := hasSource_of_matchesIn ht
    rw [htgt]
    cases e with
    | loop l => apply ih
    | rule r =>
      have hr : r ∈ c.allRules := by
        apply Bookshelf.mem_all.mpr
        use app.name
        simpa [Configuration.stored] using he
      apply hrch.2 d.name ih r hr hsrc

end

/-- The search for unreachable domains ends with the least set of names that has the default
domain, if any, and is closed under the rules.  The domains that are flagged are the other
ones, and the loops and rules those that have no source in the set; when identifiers are
distinct, they are the ones whose identifier has a warning.  No run of the decision engine
from a valid default domain enters a flagged domain, or gets a transition from a flagged loop
or rule. -/
theorem onUpdateWarnings_exact (re : RegExp) (c : Configuration)
    (htgts : ∀ r ∈ c.allRules, r.transitTo.name ∈ c.domainNameList)
    (hdef : c.defaultDomain = .none ∨ c.defaultDomain.name ∈ c.domainNameList) :
  ∃ reached warnings, reachedDomains re c = some reached ∧
    onUpdateWarnings re true true c = some warnings ∧
    IsLeast (ClosedUnderRules re c) {name | name ∈ reached} ∧
    (∀ name ∈ c.domainNameList, name ∈ warnings.domains ↔ name ∉ reached) ∧
    (∀ abs ∈ abstracts c,
      abs ∈ warnings.rules ↔ ∀ name ∈ reached, ¬ abs.1.toAbstractRule.HasSource re name) ∧
    (c.ids.Nodup → ∀ e ∈ c.allAbstractRules,
      (e.toAbstractRule.id ∈ warnings.ruleIds ↔
        ∀ name ∈ reached, ¬ e.toAbstractRule.HasSource re name)) ∧
    (c.defaultDomain ≠ .none → ∀ d, (decisions re c).Reach Machine.anyStep d →
      d.name ∉ warnings.domains ∧
        ∀ abs ∈ warnings.rules, ∀ app values, (abs.1.matchesIn re app d values).1 = none)
  := by
  obtain ⟨reached, hrch, hlst, hkn⟩ := @exists_reachedDomains re _ htgts hdef
  let warnings : Warnings :=
    { domains := reached.foldl (fun unreached name => unreached.filter (· ≠ name)) c.domainNameList
      rules :=
        reached.foldl (fun unreached name =>
          ((sourceDomains re c).getD name []).foldl
            (fun unreached abs => unreached.filter (·.2 ≠ abs.2)) unreached) (abstracts c) }
  have hwns : onUpdateWarnings re true true c = some warnings := by
    rw [onUpdateWarnings, hrch]
    rfl
  have hrs : ∀ abs, abs ∈ warnings.rules ↔
      abs ∈ abstracts c ∧ ∀ name ∈ reached, ¬ abs.1.toAbstractRule.HasSource re name := by
    intro abs
    rw [mem_unreachedRules]
    apply and_congr_right
    intro _
    apply forall₂_congr fun name hn => by simp [hkn name hn]
  refine ⟨reached, warnings, hrch, hwns, hlst, ?_, ?_, ?_, ?_⟩
  · intro name hn
    apply mem_foldl_filter_ne.trans (and_iff_right hn)
  · intro abs habs
    rw [hrs]
    simp [habs]
  · intro hids e he
    rw [c.ids_eq_map] at hids
    constructor
    · intro hm
      obtain ⟨abs, habs, hid⟩ := mem_map.mp hm
      obtain ⟨habs, hsrc⟩ := (hrs abs).mp habs
      have heq := inj_on_of_nodup_map hids (fst_mem_of_mem_zipIdx habs) he hid
      rwa [heq] at hsrc
    · intro hsrc
      obtain ⟨i, hi⟩ := mem_iff_getElem?.mp he
      have habs : (e, i) ∈ abstracts c := mk_mem_zipIdx_iff_getElem?.mpr hi
      apply mem_map.mpr ⟨(e, i), (hrs _).mpr ⟨habs, hsrc⟩, rfl⟩
  · intro hne d hd
    have hm := reached_of_decisions hlst.1 hne hd
    refine ⟨?_, ?_⟩
    · intro hflagged
      apply (mem_foldl_filter_ne.mp hflagged).2 hm
    · intro abs habs app values
      rcases hmt : (abs.1.matchesIn re app d values).1 with _ | t
      · rfl
      · apply absurd (hasSource_of_matchesIn hmt).1
        apply ((hrs abs).mp habs).2 d.name hm

/-- The policy with one rule from `work` to `private`, and a domain that no rule leads to. -/
def workPolicy : Configuration :=
  { mailPolicy with
      domains :=
        Std.ExtTreeMap.ofList (["work", "private", "old"].map fun name =>
          (name, (⟨name, "", "", "", 0, 0⟩ : Domain)))
      defaultDomain := ⟨"work", "", "", "", 0, 0⟩ }

/-- The third domain is flagged, and the rule is not. -/
theorem onUpdateWarnings_workPolicy :
  ∃ warnings, onUpdateWarnings literal true true workPolicy = some warnings ∧
    "old" ∈ warnings.domains ∧ (Entry.rule mailRule, 0) ∉ warnings.rules
  := by
  obtain ⟨reached, warnings, hrch, hwns, -, hdoms, hrs, -⟩ :=
    onUpdateWarnings_exact literal workPolicy (by decide) (Or.inr (by decide))
  obtain rfl : reached = ["work", "private"] := Option.some.inj (hrch.symm.trans rfl)
  refine ⟨warnings, hwns, ?_, ?_⟩
  · apply (hdoms "old" (by decide)).mpr (by decide)
  · rw [hrs _ (mk_mem_zipIdx_iff_getElem?.mpr rfl)]
    intro h
    apply h "work" (by decide) ⟨_, mem_singleton_self _, by decide⟩

end Editor

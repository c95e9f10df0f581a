import Contextd.Policy.Numbering

/-!
# References to domains

A domain is copied: into the map, into the slot of the default domain, and into every rule that
leads to it.  `Integrity` says that the copies agree, and `Cleared` that nothing refers to a name.

A document whose rules lead to declared domains is read into a configuration with integrity, and the
sessions in which every step brings and replaces domains consistently (`Store.KeepsCopies`) keep it
(`integrity_of_reach`, `integrity_fails`).
-/

namespace Policy

open List

/-- The names of the sources of an entry. -/
def Entry.sources (e : Entry) : List String := e.toAbstractRule.tRules.map (·.fromDomain)

/-- The target of the rule is stored under the name it has. -/
def Rule.TargetIn (domains : OrdMap String Domain) (r : Rule) : Prop :=
  domains[r.transitTo.name]? = some r.transitTo

instance (domains : OrdMap String Domain) (r : Rule) : Decidable (r.TargetIn domains) :=
  inferInstanceAs (Decidable (_ = _))

namespace Configuration

/-- Domains are stored under their names, which are not empty; the target of every rule is
the domain stored under its name, and so is the default domain, if there is one. -/
structure Integrity (c : Configuration) : Prop where
  domains : ∀ (k : String) (d : Domain), c.domains[k]? = some d → d.name = k ∧ k ≠ ""
  targets : ∀ r ∈ c.allRules, r.TargetIn c.domains
  default : c.defaultDomain = .none ∨ c.domains[c.defaultDomain.name]? = some c.defaultDomain

/-- No rule leads to the domain, and it is the source of no entry. -/
structure Cleared (name : String) (c : Configuration) : Prop where
  targets : ∀ r ∈ c.allRules, r.transitTo.name ≠ name
  sources : ∀ e ∈ c.allAbstractRules, name ∉ e.sources

/-- No entry has the name twice among its sources, and none has it if it is empty. -/
def NamesOnce (name : String) (c : Configuration) : Prop :=
  ∀ e ∈ c.allAbstractRules, e.sources.count name ≤ if name = "" then 0 else 1

instance (name : String) (c : Configuration) : Decidable (c.NamesOnce name) :=
  inferInstanceAs (Decidable (∀ e ∈ c.allAbstractRules, _))

/-- A domain that is brought under a name replaces no other one that is the target of a rule
or stays the default. -/
def KeepsCopies (c : Configuration) : Edit → Prop
  | .addDomain d setDefault =>
      d ≠ .none → d.name ≠ "" ∧
        (∀ r ∈ c.allRules, r.transitTo.name = d.name → r.transitTo = d) ∧
        (setDefault = false → c.defaultDomain.name = d.name → c.defaultDomain = d)
  | .updateDomain oldName d setDefault =>
      if oldName ∈ c.domains then
        d.name ≠ "" ∧
          (∀ r ∈ c.allRules, r.transitTo.name = d.name → d.name = oldName ∨ r.transitTo = d) ∧
          (setDefault = false → c.defaultDomain.name = oldName ∨ c.defaultDomain.name = d.name →
            c.defaultDomain = d) ∧
          (d.name ≠ oldName → c.NamesOnce oldName)
      else d.name ≠ oldName → ∀ e ∈ c.allAbstractRules, oldName ∉ e.sources
  | .deleteDomain name _ => c.NamesOnce name
  | _ => True

end Configuration

/-- The rule that the step brings leads to a stored domain. -/
def Store.TargetsExist (s : Store) (a : Edit) : Prop :=
  ∀ e ∈ a.entry?, e.OnRule (·.TargetIn s.config.domains)

instance (s : Store) (a : Edit) : Decidable (s.TargetsExist a) :=
  inferInstanceAs (Decidable (∀ e ∈ a.entry?, _))

/-- The steps that keep the copies of the domains: rules lead to stored domains, updates keep
the programs of the entries, and domains are brought and replaced consistently. -/
def Store.KeepsDomains (s : Store) (a : Edit) : Prop :=
  s.KeepsPrograms a ∧ s.TargetsExist a ∧ s.config.KeepsCopies a

/-! ### Sources -/

/-- The source that is found has the name, and it is valid when the name is not empty. -/
theorem isValid_deleteTRule (name : String) (trules : List TRule) :
  (deleteTRule name trules).1.isValid = true ↔
    name ≠ "" ∧ name ∈ trules.map (·.fromDomain)
  := by
  induction trules with
  | nil => simp [deleteTRule, TRule.isValid, TRule.none]
  | cons t ts ih =>
    rw [deleteTRule]
    split
    · rename_i heq
      simp [TRule.isValid, heq]
    · rename_i hne
      simp only [ih, map_cons, mem_cons, Ne.symm hne, false_or]

/-- The first source with the name goes. -/
theorem sources_deleteTRule (name : String) (trules : List TRule) :
  (deleteTRule name trules).2.map (·.fromDomain) = (trules.map (·.fromDomain)).erase name
  := by
  induction trules with
  | nil => rfl
  | cons t ts ih =>
    rw [deleteTRule]
    split
    · rename_i heq
      simp [heq]
    · rename_i hne
      simp [ih, hne]

section

variable {name : String} {trules : List TRule}

/-- A name that occurs once is gone afterwards. -/
theorem not_mem_deleteTRule
    (h : (trules.map (·.fromDomain)).count name ≤ if name = "" then 0 else 1) :
  name ∉ (deleteTRule name trules).2.map (·.fromDomain)
  := by
  rw [sources_deleteTRule, ← count_eq_zero, count_erase_self]
  split at h <;> omega

/-- A name that is not found does not occur. -/
theorem not_mem_of_not_isValid
    (h : (trules.map (·.fromDomain)).count name ≤ if name = "" then 0 else 1)
    (hval : ¬ (deleteTRule name trules).1.isValid = true) :
  name ∉ trules.map (·.fromDomain)
  := by
  intro hm
  by_cases hn : name = ""
  · rw [if_pos hn] at h
    have hpos := count_pos_iff.mpr hm
    omega
  · apply hval
    apply (isValid_deleteTRule name trules).mpr ⟨hn, hm⟩

variable {l l' : Loop} {r r' : Rule} {d : Domain}

theorem Loop.not_mem_sources_renamed (hne : d.name ≠ name)
    (h : (Entry.loop l).sources.count name ≤ if name = "" then 0 else 1) :
  name ∉ (Entry.loop (l.renamed name d)).sources
  := by
  simp only [Loop.renamed]
  split
  · have hr := not_mem_deleteTRule h
    simpa [Entry.sources, Entry.toAbstractRule, Ne.symm hne] using hr
  · rename_i hval
    apply not_mem_of_not_isValid h hval

theorem Rule.not_mem_sources_renamed (hne : d.name ≠ name)
    (h : (Entry.rule r).sources.count name ≤ if name = "" then 0 else 1) :
  name ∉ (Entry.rule (r.renamed name d)).sources
  := by
  have htgt : ∀ r : Rule, (Entry.rule (r.setTransitTo d)).sources = (Entry.rule r).sources := by
    intro r
    unfold Rule.setTransitTo
    split <;> rfl
  have hr := not_mem_deleteTRule h
  simp only [Rule.renamed]
  split
  · rw [htgt]
    split
    · simpa [Entry.sources, Entry.toAbstractRule, Ne.symm hne] using hr
    · apply hr
  · split
    · simpa [Entry.sources, Entry.toAbstractRule, Ne.symm hne] using hr
    · rename_i hval
      apply not_mem_of_not_isValid h hval

theorem Rule.transitTo_renamed (hd : d ≠ .none) (r : Rule) :
  (r.renamed name d).transitTo = if r.transitTo.name = name then d else r.transitTo
  := by
  simp only [Rule.renamed]
  split
  · rw [Rule.setTransitTo, if_pos hd]
  · split <;> rfl

theorem Loop.not_mem_sources_dropped (hl' : l.dropped name = some l')
    (h : (Entry.loop l).sources.count name ≤ if name = "" then 0 else 1) :
  name ∉ (Entry.loop l').sources
  := by
  simp only [Loop.dropped] at hl'
  split at hl'
  · split at hl' <;> cases hl'
    apply not_mem_deleteTRule h
  · rename_i hval
    cases hl'
    apply not_mem_of_not_isValid h hval

theorem Rule.not_mem_sources_dropped (hr' : r.dropped name = some r')
    (h : (Entry.rule r).sources.count name ≤ if name = "" then 0 else 1) :
  name ∉ (Entry.rule r').sources
  := by
  simp only [Rule.dropped] at hr'
  split at hr'
  · cases hr'
  · split at hr'
    · split at hr' <;> cases hr'
      apply not_mem_deleteTRule h
    · rename_i hval
      cases hr'
      apply not_mem_of_not_isValid h hval

/-- A rule that is left leads where it led, and not to the domain that was deleted. -/
theorem Rule.transitTo_dropped (hr' : r.dropped name = some r') :
  r'.transitTo = r.transitTo ∧ r.transitTo.name ≠ name
  := by
  simp only [Rule.dropped] at hr'
  split at hr'
  · cases hr'
  · rename_i htgt
    split at hr'
    · split at hr' <;> cases hr'
      exact ⟨rfl, htgt⟩
    · cases hr'
      exact ⟨rfl, htgt⟩

end

/-! ### Steps -/

namespace Configuration

variable {issued : List Int} {c : Configuration} {d : Domain} {name : String} {setDefault : Bool}

/-- What is found after a domain is stored under its name. -/
theorem getElem?_insert_domain {domains : OrdMap String Domain} {k : String} :
  (domains.insert d.name d)[k]? = if k = d.name then some d else domains[k]?
  := by
  rw [Std.ExtTreeMap.getElem?_insert]
  by_cases hk : k = d.name
  · simp [hk]
  · simp [hk, Ne.symm hk]

theorem getElem?_erase_domain {domains : OrdMap String Domain} {k : String} :
  (domains.erase name)[k]? = if k = name then none else domains[k]?
  := by
  rw [Std.ExtTreeMap.getElem?_erase]
  by_cases hk : k = name
  · simp [hk]
  · simp [hk, Ne.symm hk]

theorem Integrity.addDomain (h : c.Integrity) (hcop : c.KeepsCopies (.addDomain d setDefault)) :
  (c.addDomain d setDefault).Integrity
  := by
  unfold Configuration.addDomain
  split
  · rename_i hd
    obtain ⟨hn, htgts, hdef⟩ := hcop hd
    constructor
    · intro k x hx
      simp only [getElem?_insert_domain] at hx
      split at hx
      · rename_i hk
        cases hx
        exact ⟨hk.symm, hk ▸ hn⟩
      · apply h.domains k x hx
    · intro r hr
      simp only [Rule.TargetIn, getElem?_insert_domain]
      split
      · rename_i hk
        rw [htgts r hr hk]
      · apply h.targets r hr
    · cases setDefault with
      | true =>
        right
        simp
      | false =>
        simp only [getElem?_insert_domain]
        rcases h.default with hnone | hsto
        · left
          apply hnone
        · right
          simp only [Bool.false_eq_true, if_false]
          split
          · rename_i hk
            rw [hdef rfl hk]
          · apply hsto
  · apply h

theorem Integrity.updateDomain {oldName : String} (h : c.Integrity) (hnum : c.Numbered issued)
    (hcop : c.KeepsCopies (.updateDomain oldName d setDefault)) :
  (c.updateDomain oldName d setDefault).Integrity
  := by
  by_cases hm : oldName ∈ c.domains
  · obtain ⟨hname, htgts, hdef, -⟩ := (if_pos hm).mp hcop
    have hd : d ≠ .none := fun hn => hname (congrArg Domain.name hn)
    obtain ⟨loops, rules, heq, -, hrs⟩ := updateDomain_eq hnum.filedLoops
      hnum.filedRules hnum.nodup d setDefault hm
    rw [heq]
    constructor
    · intro k x hx
      simp only [getElem?_insert_domain, getElem?_erase_domain] at hx
      split at hx
      · rename_i hk
        cases hx
        exact ⟨hk.symm, hk ▸ hname⟩
      · split at hx
        · cases hx
        · apply h.domains k x hx
    · intro r hr
      obtain ⟨x, hx, ⟨⟩⟩ := hrs.exists_of_mem hr
      simp only [Rule.TargetIn, Rule.transitTo_renamed hd, getElem?_insert_domain,
        getElem?_erase_domain]
      by_cases hold : x.transitTo.name = oldName
      · simp [hold]
      · rw [if_neg hold]
        by_cases hk : x.transitTo.name = d.name
        · have hsame := (htgts x hx hk).resolve_left fun heq => hold (hk.trans heq)
          rw [if_pos hk, hsame]
        · rw [if_neg hk, if_neg hold]
          apply h.targets x hx
    · cases setDefault with
      | true =>
        right
        simp
      | false =>
        simp only [Bool.false_eq_true, if_false, getElem?_insert_domain, getElem?_erase_domain]
        rcases h.default with hn | hsto
        · left
          apply hn
        · right
          by_cases hold : c.defaultDomain.name = oldName ∨ c.defaultDomain.name = d.name
          · have hsame := hdef rfl hold
            rw [if_pos (congrArg Domain.name hsame), hsame]
          · rw [not_or] at hold
            rw [if_neg hold.2, if_neg hold.1]
            apply hsto
  · rw [Configuration.updateDomain, if_neg hm]
    apply h

theorem Integrity.deleteDomain (h : c.Integrity) (hnum : c.Numbered issued)
    (name newDefault : String) :
  (c.deleteDomain name newDefault).2.Integrity
  := by
  obtain ⟨loops, rules, heq, -, hrs⟩ := deleteDomain_eq hnum.filedLoops
    hnum.filedRules hnum.nodup name newDefault
  rw [heq]
  constructor
  · intro k x hx
    simp only [getElem?_erase_domain] at hx
    split at hx
    · cases hx
    · apply h.domains k x hx
  · intro r hr
    obtain ⟨x, hx, hdrop⟩ := hrs.exists_of_mem hr
    obtain ⟨htgt, hne⟩ := Rule.transitTo_dropped hdrop
    simp only [Rule.TargetIn, htgt, getElem?_erase_domain, if_neg hne]
    apply h.targets x hx
  · by_cases hres : c.defaultDomain = c.domains.getD name .none
    · simp only [if_pos hres]
      rw [Std.ExtTreeMap.getD_eq_getD_getElem?]
      cases hnew : (c.domains.erase name)[newDefault]? with
      | none =>
        left
        rfl
      | some x =>
        right
        have hx : c.domains[newDefault]? = some x := by
          rw [getElem?_erase_domain] at hnew
          split at hnew
          · cases hnew
          · apply hnew
        rw [Option.getD_some, (h.domains newDefault x hx).1, hnew]
    · simp only [if_neg hres]
      rcases h.default with hn | hsto
      · left
        apply hn
      · right
        have hne : c.defaultDomain.name ≠ name := by
          rintro rfl
          apply hres
          rw [Std.ExtTreeMap.getD_eq_getD_getElem?, hsto]
          rfl
        rw [getElem?_erase_domain, if_neg hne, hsto]

/-- Renaming a domain that no entry has twice among its sources leaves no reference to the
old name. -/
theorem Integrity.cleared_updateDomain {oldName : String} (h : c.Integrity)
    (hnum : c.Numbered issued)
    (hcop : c.KeepsCopies (.updateDomain oldName d setDefault)) (hne : d.name ≠ oldName) :
  (c.updateDomain oldName d setDefault).Cleared oldName
  := by
  by_cases hm : oldName ∈ c.domains
  · obtain ⟨hn, -, -, ho⟩ := (if_pos hm).mp hcop
    have hd : d ≠ .none := fun hnone => hn (congrArg Domain.name hnone)
    obtain ⟨loops, rules, heq, hls, hrs⟩ := updateDomain_eq hnum.filedLoops
      hnum.filedRules hnum.nodup d setDefault hm
    rw [heq]
    constructor
    · intro r hr
      obtain ⟨x, -, ⟨⟩⟩ := hrs.exists_of_mem hr
      rw [Rule.transitTo_renamed hd]
      split <;> assumption
    · intro e he
      cases e with
      | loop l =>
        have hl := loop_mem_allAbstractRules.mp he
        obtain ⟨x, hx, ⟨⟩⟩ := hls.exists_of_mem hl
        apply Loop.not_mem_sources_renamed hne
        apply ho hne _ (loop_mem_allAbstractRules.mpr hx)
      | rule r =>
        have hr := rule_mem_allAbstractRules.mp he
        obtain ⟨x, hx, ⟨⟩⟩ := hrs.exists_of_mem hr
        apply Rule.not_mem_sources_renamed hne
        apply ho hne _ (rule_mem_allAbstractRules.mpr hx)
  · have hsrcs := (if_neg hm).mp hcop
    rw [Configuration.updateDomain, if_neg hm]
    constructor
    · rintro r hr rfl
      apply hm
      apply Std.ExtTreeMap.mem_iff_isSome_getElem?.mpr
      rw [h.targets r hr]
      rfl
    · apply hsrcs hne

/-- Deleting a domain that no entry has twice among its sources leaves no reference to it. -/
theorem Numbered.cleared_deleteDomain (h : c.Numbered issued) (ho : c.NamesOnce name)
    (newDefault : String) :
  (c.deleteDomain name newDefault).2.Cleared name
  := by
  obtain ⟨loops, rules, heq, hls, hrs⟩ :=
    deleteDomain_eq h.filedLoops h.filedRules h.nodup name newDefault
  rw [heq]
  constructor
  · intro r hr
    obtain ⟨x, -, hdrop⟩ := hrs.exists_of_mem hr
    obtain ⟨htgt, hne⟩ := Rule.transitTo_dropped hdrop
    rw [htgt]
    apply hne
  · intro e he
    cases e with
    | loop l =>
      have hl := loop_mem_allAbstractRules.mp he
      obtain ⟨x, hx, hdrop⟩ := hls.exists_of_mem hl
      apply Loop.not_mem_sources_dropped hdrop
      apply ho _ (loop_mem_allAbstractRules.mpr hx)
    | rule r =>
      have hr := rule_mem_allAbstractRules.mp he
      obtain ⟨x, hx, hdrop⟩ := hrs.exists_of_mem hr
      apply Rule.not_mem_sources_dropped hdrop
      apply ho _ (rule_mem_allAbstractRules.mpr hx)

end Configuration

/-- The steps that change the domains. -/
def Edit.onDomains : Edit → Bool
  | .addDomain .. | .updateDomain .. | .deleteDomain .. => true
  | _ => false

namespace Configuration

variable {issued : List Int} {c : Configuration}

/-- The domains, and the default one. -/
def domainState (c : Configuration) : OrdMap String Domain × Domain := (c.domains, c.defaultDomain)

theorem Rebuilds.domainState_eq {A : Entry → Prop} {c' : Configuration} (h : c.Rebuilds A c') :
  c'.domainState = c.domainState
  := by
  obtain ⟨loops, rules, rfl⟩ := h.frame
  rfl

/-- The other steps leave them. -/
theorem Changes.domainState_eq {c' : Configuration} {a : Edit} (hc : c.Changes a c')
    (ha : a.onDomains = false) :
  c'.domainState = c.domainState
  := by
  cases hc with
  | entries hreb => apply hreb.domainState_eq
  | programs => rfl
  | swapPriorities i j =>
    have hall : c.Stores fun _ => True := fun _ _ => trivial
    apply (hall.rebuilds_swapPriorities (fun _ _ _ => trivial) i j).domainState_eq
  | addDomain | updateDomain | deleteDomain => cases ha

end Configuration

/-- A step that keeps the copies keeps the integrity. -/
theorem Configuration.Integrity.edit {s s' : Store} {a : Edit} (h : s.config.Integrity)
    (hnum : s.config.Numbered s.issued) (ha : s.KeepsDomains a) (hs : s.edit a = some s') :
  s'.config.Integrity
  := by
  obtain ⟨-, hent, hcop⟩ := ha
  have htgts : a.rewrites = false → ∀ r ∈ s'.config.allRules, r.TargetIn s.config.domains := by
    intro ha
    have hignores : IgnoresProgram (Entry.OnRule (·.TargetIn s.config.domains)) :=
      ignoresProgram_onRule fun r p allow h => h
    rw [← stores_onRule]
    apply (changes_of_edit hs).stores hignores (stores_onRule.mpr h.targets) hent ha
  have hkeep : a.onDomains = false → (∀ r ∈ s'.config.allRules, r.TargetIn s.config.domains) →
      s'.config.Integrity := by
    intro ha htgts
    obtain ⟨hdoms, hdef⟩ := Prod.mk.inj ((changes_of_edit hs).domainState_eq ha)
    constructor
    · rw [hdoms]
      apply h.domains
    · rw [hdoms]
      apply htgts
    · rw [hdoms, hdef]
      apply h.default
  cases a with
  | addDomain d setDefault =>
    obtain rfl := Option.some.inj hs
    apply h.addDomain hcop
  | updateDomain oldName d setDefault =>
    obtain rfl := Option.some.inj hs
    apply h.updateDomain hnum hcop
  | deleteDomain name newDefault =>
    obtain rfl := Option.some.inj hs
    apply h.deleteDomain hnum
  | swapPriorities i j =>
    obtain rfl := Option.some.inj hs
    apply hkeep rfl
    apply rules_swapPriorities h.targets fun _ _ hr => hr
  | _ => apply hkeep rfl (htgts rfl)

/-! ### Documents -/

/-- Every rule of the document leads to a domain that the document declares. -/
def DeclaresTargets (root : Option Dom) : Prop :=
  ∀ doc ∈ root, ∀ e ∈ doc.childElements, e.isNamed "rule" = true →
    e.attr "to_domain" ≠ "" ∧
      ∃ d ∈ doc.childrenNamed "domain", d.attr "name" = e.attr "to_domain"

namespace Loader

variable {s : Loader} {e : Dom}

/-- A domain with a new name may be added. -/
theorem keepsCopies_new {c : Configuration} (h : c.Integrity) {d : Domain}
    (hn : d.name ≠ "") (hnew : d.name ∉ c.domains) (setDefault : Bool) :
  c.KeepsCopies (.addDomain d setDefault)
  := by
  have hunstored : ∀ x : Domain, c.domains[d.name]? ≠ some x := by
    intro x hx
    apply hnew
    apply Std.ExtTreeMap.mem_iff_isSome_getElem?.mpr
    rw [hx]
    rfl
  refine fun _ => ⟨hn, ?_, ?_⟩
  · intro r hr hsame
    have hsto := h.targets r hr
    rw [Rule.TargetIn, hsame] at hsto
    apply absurd hsto (hunstored _)
  · intro _ hsame
    rcases h.default with hnone | hsto
    · rw [hnone] at hsame
      apply absurd hsame.symm hn
    · rw [hsame] at hsto
      apply absurd hsto (hunstored _)

theorem integrity_parseDomain (h : s.config.Integrity) (e : Dom) :
  (s.parseDomain e).config.Integrity
  := by
  simp only [parseDomain]
  split
  · rename_i hnew
    have hadd := h.addDomain
      (keepsCopies_new h hnew.1 hnew.2 (isTrue (e.attrD "default" "false")))
    rw [Configuration.addDomain, if_pos (domainOf_ne_none hnew.1)] at hadd
    apply hadd
  · apply h

/-- The domains that were read are there. -/
theorem mem_domains_parseDomain (s : Loader) {k : String}
    (h : k ∈ s.config.domains ∨ e.attr "name" = k ∧ k ≠ "") :
  k ∈ (s.parseDomain e).config.domains
  := by
  simp only [parseDomain]
  split
  · rw [Std.ExtTreeMap.mem_insert, Std.LawfulEqCmp.compare_eq_iff_eq]
    rcases h with h | ⟨hn, -⟩
    · right
      apply h
    · left
      apply hn
  · rename_i hold
    rcases h with h | ⟨rfl, hne⟩
    · apply h
    · by_contra hnew
      apply hold ⟨hne, hnew⟩

theorem integrity_parseRule (h : s.config.Integrity)
    (htgt : e.attr "to_domain" ∈ s.config.domains) :
  (s.parseRule e).config.Integrity ∧ (s.parseRule e).config.domains = s.config.domains
  := by
  obtain ⟨d, hd⟩ := Option.isSome_iff_exists.mp
    (Std.ExtTreeMap.mem_iff_isSome_getElem?.mp htgt)
  obtain ⟨hname, hne⟩ := h.domains _ d hd
  have hread : s.config.domains.getD (e.attr "to_domain") .none = d := by
    rw [Std.ExtTreeMap.getD_eq_getD_getElem?, hd]
    rfl
  have hn : d ≠ .none := fun hn => hne (hname ▸ congrArg Domain.name hn)
  simp only [parseRule, hread, OrdMap.insert_of_getElem? hd, if_neg hn]
  split
  · refine ⟨⟨h.domains, ?_, h.default⟩, rfl⟩
    intro r hr
    rcases mem_cons.mp ((Bookshelf.all_push _ _ _).mem_iff.mp hr) with rfl | hr
    · rw [Rule.TargetIn, hname, hd]
    · apply h.targets r hr
  · exact ⟨⟨h.domains, h.targets, h.default⟩, rfl⟩

/-- The `domain` elements keep the integrity, and the domains they name are there. -/
theorem integrity_foldl_parseDomain (h : s.config.Integrity) (es : List Dom) :
  (es.foldl parseDomain s).config.Integrity ∧
    ∀ k, k ∈ s.config.domains ∨ k ≠ "" ∧ (∃ e ∈ es, e.attr "name" = k) →
      k ∈ (es.foldl parseDomain s).config.domains
  := by
  induction es generalizing s with
  | nil =>
    use h
    intro k hk
    simpa using hk
  | cons e es ih =>
    obtain ⟨hint, hm⟩ := ih (integrity_parseDomain h e)
    use hint
    intro k hk
    apply hm
    rcases hk with hk | ⟨hne, x, hx, hn⟩
    · left
      apply mem_domains_parseDomain s (.inl hk)
    · rcases mem_cons.mp hx with rfl | hx
      · left
        apply mem_domains_parseDomain s (.inr ⟨hn, hne⟩)
      · right
        exact ⟨hne, x, hx, hn⟩

/-- A loop or a rule that leads to a domain that is there keeps the integrity. -/
theorem integrity_parseAbstractRule (h : s.config.Integrity)
    (htgt : e.isNamed "rule" = true → e.attr "to_domain" ∈ s.config.domains) :
  (s.parseAbstractRule e).config.Integrity ∧
    (s.parseAbstractRule e).config.domains = s.config.domains
  := by
  simp only [parseAbstractRule]
  split
  · simp only [parseLoop]
    split <;> exact ⟨⟨h.domains, h.targets, h.default⟩, rfl⟩
  · split
    · rename_i hr
      apply integrity_parseRule h (htgt hr)
    · exact ⟨h, rfl⟩

theorem integrity_parseNoKillProgram (h : s.config.Integrity) (e : Dom) :
  (s.parseNoKillProgram e).config.Integrity ∧
    (s.parseNoKillProgram e).config.domains = s.config.domains
  := by
  simp only [parseNoKillProgram]
  split <;> exact ⟨⟨h.domains, h.targets, h.default⟩, rfl⟩

/-- Elements that keep the integrity and the domains do so one after the other. -/
theorem integrity_foldl {f : Loader → Dom → Loader} (h : s.config.Integrity) (es : List Dom)
    (hf : ∀ s' : Loader, ∀ e ∈ es, s'.config.Integrity →
      s'.config.domains = s.config.domains →
        (f s' e).config.Integrity ∧ (f s' e).config.domains = s'.config.domains) :
  (es.foldl f s).config.Integrity ∧ (es.foldl f s).config.domains = s.config.domains
  := by
  apply List.foldlRecOn (motive := fun s' : Loader =>
    s'.config.Integrity ∧ s'.config.domains = s.config.domains)
  · exact ⟨h, rfl⟩
  · rintro s' ⟨hs', hdoms⟩ e he
    obtain ⟨hn, hsame⟩ := hf s' e he hs' hdoms
    exact ⟨hn, hsame.trans hdoms⟩

/-- A document whose rules lead to declared domains is read into a configuration with
integrity. -/
theorem integrity_load {programs : OrdMap String Program} {n : Int} {root : Option Dom}
    (h : DeclaresTargets root) :
  (load programs n root).config.Integrity
  := by
  have hemp : (Configuration.empty programs).Integrity := by
    constructor
    · intro k d hd
      simp [Configuration.empty] at hd
    · intro r hr
      simp [Configuration.empty, Configuration.allRules, Bookshelf.all] at hr
    · left
      rfl
  unfold load
  split
  · rename_i doc
    split
    · rw [parseRoot]
      obtain ⟨h₁, hm⟩ := integrity_foldl_parseDomain
        (s := ⟨.empty programs, n⟩) hemp (doc.childrenNamed "domain")
      obtain ⟨h₂, hdoms₂⟩ := integrity_foldl h₁
        (((doc.firstChild "nokill").map (·.childrenNamed "nokill_program")).getD [])
        fun s' e _ hs' _ => integrity_parseNoKillProgram hs' e
      refine (integrity_foldl h₂ _ ?_).1
      intro s' e he hs' hdoms
      apply integrity_parseAbstractRule hs'
      intro hrule
      obtain ⟨hne, d, hd, hn⟩ := h doc rfl e he hrule
      rw [hdoms, hdoms₂]
      apply hm _ (.inr ⟨hne, d, hd, hn⟩)
    · apply hemp
  · apply hemp

end Loader

/-! ### Sessions -/

/-- The editing sessions on a document. -/
def editorOn (root : Option Dom) : Machine Store Edit where
  init s := ∃ programs idCounter, 0 ≤ idCounter ∧ s = .loaded programs idCounter root
  step := Store.edit

/-- In the sessions on a document whose rules lead to declared domains, in which every step
keeps the copies of the domains, the copies agree, and nothing refers to a domain that is
deleted or to the old name of one that is renamed. -/
theorem integrity_of_reach {root : Option Dom} (hroot : DeclaresTargets root) {s : Store}
    (h : (editorOn root).Reach Store.KeepsDomains s) :
  s.config.Integrity ∧
    (∀ name newDefault, s.KeepsDomains (.deleteDomain name newDefault) →
      (s.config.deleteDomain name newDefault).2.Cleared name) ∧
    ∀ oldName d setDefault, s.KeepsDomains (.updateDomain oldName d setDefault) →
      d.name ≠ oldName → (s.config.updateDomain oldName d setDefault).Cleared oldName
  := by
  have hall : s.config.Integrity ∧ s.config.Numbered s.issued ∧ s.config.Wellkept := by
    apply Machine.Reach.invariant _ _ h
    · rintro s ⟨programs, n, hn, rfl⟩
      refine ⟨Loader.integrity_load hroot, Configuration.Numbered.of_load hn, ?_⟩
      apply (Loader.inv_load programs n root).wellkept
    · rintro s a s' ⟨hs, hnum, hk⟩ ha hstep
      refine ⟨hs.edit hnum ha hstep, hnum.edit hk ha.1 hstep, ?_⟩
      apply (Configuration.changes_of_edit hstep).wellkept hk
  obtain ⟨hint, hnum, -⟩ := hall
  refine ⟨hint, ?_, ?_⟩
  · intro name newDefault ha
    apply hnum.cleared_deleteDomain ha.2.2
  · intro oldName d setDefault ha hne
    apply hint.cleared_updateDomain hnum ha.2.2 hne

/-- A document with a rule that leads from the domains `work` and `home` to `private`. -/
def privateDocument : Dom :=
  .element "PIGA_Transitions" []
    [.element "domain" [("name", "work")] [], .element "domain" [("name", "private")] [],
      .element "rule" [("to_domain", "private")]
        [.element "matching" [] [],
          .element "transitions" []
            [.element "allow" []
              [.element "transit" [("from_domain", "work")] [],
                .element "transit" [("from_domain", "home")] []]]]]

theorem integrity_of_reach_privateDocument :
  ∃ s, (editorOn (some privateDocument)).run (.loaded [] 0 (some privateDocument))
      [.deleteDomain "work" ""] = some s ∧
    s.config.ids = [1] ∧ s.config.Integrity ∧
    (s.config.deleteDomain "home" "").2.Cleared "home"
  := by
  have hroot : DeclaresTargets (some privateDocument) := by
    rintro _ ⟨⟩ e he
    revert e
    decide
  have hst : (editorOn (some privateDocument)).Reach Store.KeepsDomains
      (.loaded [] 0 (some privateDocument)) := .init ⟨[], 0, by decide, rfl⟩
  have ho : ∀ {s : Store} {name newDefault : String}, s.config.NamesOnce name →
      s.KeepsDomains (.deleteDomain name newDefault) := fun h => ⟨trivial, nofun, h⟩
  have hwork : (editorOn (some privateDocument)).Along Store.KeepsDomains
      (.loaded [] 0 (some privateDocument)) [.deleteDomain "work" ""] :=
    ⟨ho (by decide), fun _ _ => trivial⟩
  refine ⟨_, rfl, by decide, ?_⟩
  obtain ⟨hint, hdelete, -⟩ := integrity_of_reach hroot (hst.run _ hwork rfl)
  use hint
  apply hdelete _ _ (ho (by decide))

/-- A document with a rule that leads to a domain that is not declared. -/
def strayDocument : Dom :=
  .element "PIGA_Transitions" [] [.element "rule" [("to_domain", "nowhere")] []]

/-- The target of the mail rule, with a higher level. -/
def raisedDomain : Domain := { mailRule.transitTo with confidentiality := 1 }

/-- Reading a rule to a domain that is not declared stores the invalid domain under its name.
A domain that is added under the name of another one leaves the copy of it in a rule.  The
default domain stays as it was when it is renamed and not set again.  Of two sources with
the name of a domain that is deleted, the second stays. -/
theorem integrity_fails :
  (¬ (Store.loaded [] 0 (some strayDocument)).config.Integrity) ∧
  (∃ s, (editorOn none).Reach Store.TargetsExist s ∧
    ¬ ∀ r ∈ s.config.allRules, r.TargetIn s.config.domains) ∧
  (∃ s, (editorOn none).Reach Store.TargetsExist s ∧
    ¬ (s.config.defaultDomain = .none ∨
      s.config.domains[s.config.defaultDomain.name]? = some s.config.defaultDomain)) ∧
  ∃ s, (editorOn none).Reach Store.TargetsExist s ∧
    ¬ ∀ e ∈ (s.config.deleteDomain "work" "").2.allAbstractRules, "work" ∉ e.sources
  := by
  have hst : (editorOn none).Reach Store.TargetsExist (.loaded [] 0 none) :=
    .init ⟨[], 0, by decide, rfl⟩
  refine ⟨?_, ?_, ?_, ?_⟩
  · intro h
    have hn : "" = "nowhere" := (h.domains "nowhere" .none rfl).1
    revert hn
    decide
  · refine ⟨_, hst.run [.addDomain mailRule.transitTo false, .addRule mailRule,
      .addDomain raisedDomain false] (by decide) rfl, by decide⟩
  · refine ⟨_, hst.run [.addDomain mailRule.transitTo true,
      .updateDomain "private" { raisedDomain with name := "secret" } false] (by decide) rfl,
      by decide⟩
  · refine ⟨_, hst.run [.addDomain mailRule.transitTo false,
      .addRule { mailRule with tRules := mailRule.tRules ++ mailRule.tRules }] (by decide) rfl,
      by decide⟩

end Policy

import Contextd.Editor.Warnings

/-!
# Losses of confidentiality and reliability

`onUpdateWarnings` compares the levels of the target of each rule with those of the domains that the
rule leads from.  The loop over these domains stops when its two flags are down, but each turn
overwrites them, so that at the end they are those of the last domain it looked at (`levels_eq`).
The warnings are right exactly when this domain speaks for the others (`Told`).
-/

namespace Editor

open List Policy

/-! ### The loop over the levels -/

/-- The domain is more confidential than the target. -/
def LosesConfidentiality (target dom : Domain) : Prop :=
  target.confidentiality < dom.confidentiality

/-- The domain is more reliable than the target. -/
def LosesReliability (target dom : Domain) : Prop := target.reliability < dom.reliability

instance (target dom : Domain) : Decidable (LosesConfidentiality target dom) :=
  inferInstanceAs (Decidable (_ < _))

instance (target dom : Domain) : Decidable (LosesReliability target dom) :=
  inferInstanceAs (Decidable (_ < _))

/-- The loop over the domains that a rule leads from, with the flags `confidential` and
`reliable`. -/
def levels (target : Domain) : List Domain → Bool × Bool → Bool × Bool
  | [], flags => flags
  | dom :: doms, flags =>
      if flags.1 || flags.2 then
        levels target doms
          (dom.confidentiality ≤ target.confidentiality, dom.reliability ≤ target.reliability)
      else flags

/-- The warnings about the levels of a rule. -/
inductive Loss where
  | confidentiality
  | reliability
  deriving DecidableEq, Repr

/-- The warnings of a loop or rule: a loop has none. -/
def losses (re : RegExp) (confidentialityLossWarn reliabilityLossWarn : Bool)
    (c : Configuration) (abs : AbstractRulePtr) : List Loss :=
  match abs.1 with
  | .loop _ => []
  | .rule r =>
      let flags := levels r.transitTo (r.matchedDomains re c.domainList) (true, true)
      (if !flags.1 && confidentialityLossWarn then [.confidentiality] else []) ++
        (if !flags.2 && reliabilityLossWarn then [.reliability] else [])

/-- `onUpdateWarnings`, the warnings about the levels. -/
def levelWarnings (re : RegExp) (confidentialityLossWarn reliabilityLossWarn : Bool)
    (c : Configuration) : List (AbstractRulePtr × Loss) :=
  (abstracts c).flatMap fun abs =>
    (losses re confidentialityLossWarn reliabilityLossWarn c abs).map (Prod.mk abs)

section

variable {target : Domain} {doms : List Domain}

theorem flag_confidentiality (target dom : Domain) :
  decide (dom.confidentiality ≤ target.confidentiality) =
    !decide (LosesConfidentiality target dom)
  := by
  rw [← decide_not, decide_eq_decide]
  apply Int32.not_lt.symm

theorem flag_reliability (target dom : Domain) :
  decide (dom.reliability ≤ target.reliability) = !decide (LosesReliability target dom)
  := by
  rw [← decide_not, decide_eq_decide]
  apply Int32.not_lt.symm

/-- A loop whose flags are down leaves them. -/
theorem levels_down (target : Domain) (doms : List Domain) :
  levels target doms (false, false) = (false, false)
  := by
  cases doms <;> rfl

/-- The loop stops at the first domain that is above the target in both levels. -/
theorem levels_of_both {flags : Bool × Bool} (hflags : (flags.1 || flags.2) = true)
    (h : ∃ d ∈ doms, LosesConfidentiality target d ∧ LosesReliability target d) :
  levels target doms flags = (false, false)
  := by
  induction doms generalizing flags with
  | nil => simp at h
  | cons dom doms ih =>
    rw [levels, if_pos hflags, flag_confidentiality, flag_reliability]
    by_cases hdom : LosesConfidentiality target dom ∧ LosesReliability target dom
    · rw [decide_eq_true hdom.1, decide_eq_true hdom.2]
      apply levels_down
    · apply ih
      · rw [← Bool.not_and, ← Bool.decide_and, decide_eq_false hdom]
        rfl
      · simpa [hdom] using h

/-- When there is no such domain, the flags are those of the last one. -/
theorem levels_of_not_both (dom : Domain) (doms : List Domain) {flags : Bool × Bool}
    (hflags : (flags.1 || flags.2) = true)
    (h : ¬ ∃ d ∈ dom :: doms, LosesConfidentiality target d ∧ LosesReliability target d) :
  levels target (dom :: doms) flags =
    (!decide (LosesConfidentiality target ((dom :: doms).getLast (cons_ne_nil _ _))),
      !decide (LosesReliability target ((dom :: doms).getLast (cons_ne_nil _ _))))
  := by
  induction doms generalizing dom flags with
  | nil =>
    rw [levels, if_pos hflags, flag_confidentiality, flag_reliability]
    rfl
  | cons dom' doms ih =>
    rw [exists_mem_cons_iff, not_or] at h
    obtain ⟨hdom, ht⟩ := h
    rw [levels, if_pos hflags, flag_confidentiality, flag_reliability, getLast_cons_cons]
    apply ih dom' _ ht
    rw [← Bool.not_and, ← Bool.decide_and, decide_eq_false hdom]
    rfl

/-- The last of the domains speaks for all: one of them is above the target in both levels,
or the last one is above in each level in which one of them is. -/
def Told (target : Domain) (doms : List Domain) : Prop :=
  (∃ d ∈ doms, LosesConfidentiality target d ∧ LosesReliability target d) ∨
    ∀ last ∈ doms.getLast?,
      ((∃ d ∈ doms, LosesConfidentiality target d) → LosesConfidentiality target last) ∧
        ((∃ d ∈ doms, LosesReliability target d) → LosesReliability target last)

/-- The flags say whether one of the domains is above the target exactly when the last
domain speaks for all. -/
theorem levels_right_iff :
  (((levels target doms (true, true)).1 = false ↔ ∃ d ∈ doms, LosesConfidentiality target d) ∧
    ((levels target doms (true, true)).2 = false ↔ ∃ d ∈ doms, LosesReliability target d)) ↔
    Told target doms
  := by
  rcases doms with _ | ⟨dom, doms⟩
  · simp [levels, Told]
  · rw [Told, List.getLast?_eq_some_getLast (cons_ne_nil _ _)]
    have hl := getLast_mem (cons_ne_nil dom doms)
    by_cases hboth : ∃ d ∈ dom :: doms, LosesConfidentiality target d ∧ LosesReliability target d
    · rw [levels_of_both rfl hboth]
      obtain ⟨d, hd, hc, hr⟩ := id hboth
      simp only [hboth, true_or, true_iff, iff_true]
      exact ⟨⟨d, hd, hc⟩, ⟨d, hd, hr⟩⟩
    · rw [levels_of_not_both dom doms rfl hboth]
      simp only [hboth, false_or, Option.mem_some_iff, forall_eq', Bool.not_eq_false',
        decide_eq_true_eq]
      constructor
      · rintro ⟨hc, hr⟩
        exact ⟨hc.mpr, hr.mpr⟩
      · rintro ⟨hc, hr⟩
        exact ⟨⟨fun h => ⟨_, hl, h⟩, hc⟩, ⟨fun h => ⟨_, hl, h⟩, hr⟩⟩

end

/-! ### The warnings of a configuration -/

theorem mem_levelWarnings {re : RegExp} {c : Configuration} {abs : AbstractRulePtr} {loss : Loss}
    {confidentialityLossWarn reliabilityLossWarn : Bool} :
  (abs, loss) ∈ levelWarnings re confidentialityLossWarn reliabilityLossWarn c ↔
    abs ∈ abstracts c ∧ loss ∈ losses re confidentialityLossWarn reliabilityLossWarn c abs
  := by
  rw [levelWarnings, mem_flatMap]
  constructor
  · rintro ⟨abs', habs, hm⟩
    obtain ⟨loss', hloss, heq⟩ := mem_map.mp hm
    obtain ⟨rfl, rfl⟩ := Prod.mk.inj heq
    exact ⟨habs, hloss⟩
  · rintro ⟨habs, hloss⟩
    exact ⟨abs, habs, mem_map_of_mem hloss⟩

/-- With the warnings enabled, a rule has a warning about its confidentiality exactly when a
known domain that it leads from is more confidential than its target, and one about its
reliability exactly when one is more reliable: this is so exactly when the last domain that
the loop looks at speaks for all. -/
theorem levelWarnings_right_iff (re : RegExp) (c : Configuration) (r : Rule) (i : ℕ)
    (hr : (Entry.rule r, i) ∈ abstracts c) :
  ((((Entry.rule r, i), Loss.confidentiality) ∈ levelWarnings re true true c ↔
      ∃ d ∈ c.domainList, r.HasSource re d.name ∧ LosesConfidentiality r.transitTo d) ∧
    (((Entry.rule r, i), Loss.reliability) ∈ levelWarnings re true true c ↔
      ∃ d ∈ c.domainList, r.HasSource re d.name ∧ LosesReliability r.transitTo d)) ↔
    Told r.transitTo (r.matchedDomains re c.domainList)
  := by
  have hexists : ∀ P : Domain → Prop, (∃ d ∈ c.domainList, r.HasSource re d.name ∧ P d) ↔
      ∃ d ∈ r.matchedDomains re c.domainList, P d := by
    intro P
    simp only [AbstractRule.mem_matchedDomains, and_assoc]
  rw [← levels_right_iff, mem_levelWarnings, mem_levelWarnings, hexists, hexists]
  simp only [hr, true_and, losses, Bool.and_true, Bool.not_eq_true', mem_append]
  apply and_congr
  · apply iff_congr _ Iff.rfl
    split_ifs <;> simp_all
  · apply iff_congr _ Iff.rfl
    split_ifs <;> simp_all

/-- A rule to `private` from a domain that is more confidential than it, and from one that is
not. -/
def secretRule : Rule :=
  { mailRule with tRules := [⟨"secret", none, none⟩, ⟨"work", none, none⟩] }

/-- The policy with that one rule; `work` has the given confidentiality. -/
def secretPolicy (work : Int32) : Configuration :=
  { mailPolicy with
      rules := Std.ExtTreeMap.ofList [("mailer", [secretRule])]
      domains :=
        Std.ExtTreeMap.ofList [("private", (⟨"private", "", "", "", 0, 0⟩ : Domain)),
          ("secret", ⟨"secret", "", "", "", 1, 0⟩), ("work", ⟨"work", "", "", "", work, 0⟩)] }

/-- When the other source is more confidential as well, the warning is there. -/
theorem levelWarnings_secretPolicy :
  ((Entry.rule secretRule, 0), Loss.confidentiality) ∈
    levelWarnings literal true true (secretPolicy 2)
  := by
  have hrt := (levelWarnings_right_iff literal (secretPolicy 2) secretRule 0
    (mk_mem_zipIdx_iff_getElem?.mpr rfl)).mpr (by right; decide)
  apply hrt.1.mpr
  refine ⟨⟨"secret", "", "", "", 1, 0⟩, by decide, ⟨_, mem_cons_self, by decide⟩, by decide⟩

/-- The rule leads from a domain that is more confidential than its target, and there is no
warning. -/
theorem levelWarnings_incomplete :
  (Entry.rule secretRule, 0) ∈ abstracts (secretPolicy 0) ∧
    (∃ d ∈ (secretPolicy 0).domainList, secretRule.HasSource literal d.name ∧
      LosesConfidentiality secretRule.transitTo d) ∧
    ((Entry.rule secretRule, 0), Loss.confidentiality) ∉
      levelWarnings literal true true (secretPolicy 0)
  := by
  refine ⟨mk_mem_zipIdx_iff_getElem?.mpr rfl, ?_, ?_⟩
  · refine ⟨⟨"secret", "", "", "", 1, 0⟩, by decide, ⟨_, mem_cons_self, by decide⟩, by decide⟩
  · rw [mem_levelWarnings]
    rintro ⟨-, hloss⟩
    have hn : losses literal true true (secretPolicy 0) (Entry.rule secretRule, 0) = [] := by
      decide
    rw [hn] at hloss
    cases hloss

end Editor

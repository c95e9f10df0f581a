import Mathlib.Data.List.Pairwise
import Contextd.Policy.Deciding

/-!
# The source domains of a rule

`matchedDomains` and `matchedDomainNames` move the known domains that a source of the rule matches
to the result, one source after another.  The engine asks for the first source that matches the
current domain (`AbstractRule::matches`).  The two agree: a domain is collected in the turn of the
first source that matches it.
-/

namespace Policy

open List

variable {re : RegExp} {r : AbstractRule}

/-! ### The code -/

section Code

variable {α : Type}

/-- The inner loop: the elements with the property are erased from the list and appended to those
matched.  The second component is what is left of the list. -/
def transferMatched (p : α → Bool) : List α → List α → List α × List α
  | [], matched => (matched, [])
  | d :: known, matched =>
      if p d then transferMatched p known (matched ++ [d])
      else
        let (matched, known) := transferMatched p known matched
        (matched, d :: known)

/-- The loop of `AbstractRule::matchedDomains` and `AbstractRule::matchedDomainNames` over the
sources, as long as there are known domains. -/
def matchedLoop (re : RegExp) (name : α → String) : List TRule → List α → List α → List α
  | [], _, matched => matched
  | t :: ts, known, matched =>
      if known.isEmpty then matched
      else
        let (matched, known) := transferMatched (fun d => t.matches re (name d)) known matched
        matchedLoop re name ts known matched

end Code

/-- `AbstractRule::matchedDomains`. -/
def AbstractRule.matchedDomains (re : RegExp) (r : AbstractRule) (knownDomains : List Domain) :
    List Domain :=
  matchedLoop re Domain.name r.tRules knownDomains []

/-- `AbstractRule::matchedDomainNames`. -/
def AbstractRule.matchedDomainNames (re : RegExp) (r : AbstractRule)
    (knownDomainNames : List String) : List String :=
  matchedLoop re (fun name => name) r.tRules knownDomainNames []

/-! ### What the result should be -/

section Spec

variable {α : Type} [DecidableEq α]

/-- The result has each known element that a source matches once and no other one, by the index of
the first source that matches it and then by position. -/
structure CollectsExactly (re : RegExp) (name : α → String) (tRules : List TRule)
    (known result : List α) : Prop where
  nodup : result.Nodup
  mem : ∀ d, d ∈ result ↔ d ∈ known ∧ ∃ t ∈ tRules, t.matches re (name d) = true
  ordered : result.Pairwise fun d d' =>
    tRules.findIdx (·.matches re (name d)) < tRules.findIdx (·.matches re (name d')) ∨
      tRules.findIdx (·.matches re (name d)) = tRules.findIdx (·.matches re (name d')) ∧
        known.idxOf d < known.idxOf d'

/-- The element is collected in the turn of the loop for the source `t`. -/
def CollectedUnder (re : RegExp) (name : α → String) (tRules : List TRule) (known : List α)
    (t : TRule) (d : α) : Prop :=
  ∃ before after, tRules = before ++ t :: after ∧ d ∉ matchedLoop re name before known [] ∧
    d ∈ matchedLoop re name (before ++ [t]) known []

/-- The engine lets exactly the collected domains through, with the flags of the sources under
which they were collected. -/
structure AgreesWithEngine (re : RegExp) (name : α → String) (r : AbstractRule)
    (known result : List α) (engine : Domain → Option Transition × Bool) : Prop where
  returned : ∀ d : Domain, ∀ x ∈ known, name x = d.name → (x ∈ result ↔ (engine d).1.isSome = true)
  collected : ∀ x ∈ result, ∃ t, CollectedUnder re name r.tRules known t x
  flags : ∀ d : Domain, ∀ x t, name x = d.name → CollectedUnder re name r.tRules known t x →
    ∃ trans, (engine d).1 = some trans ∧ trans.promptUser = t.prompt?.getD r.prompt ∧
      trans.notifyUser = t.notify?.getD r.notify

end Spec

/-! ### The loops -/

section Loops

variable {ts : List TRule}

variable {α : Type} {re : RegExp} {name : α → String}

theorem transferMatched_eq (p : α → Bool) (known matched : List α) :
  transferMatched p known matched = (matched ++ known.filter p, known.filter (fun d => !p d))
  := by
  induction known generalizing matched with
  | nil => simp [transferMatched]
  | cons d known ih =>
    rw [transferMatched]
    cases hp : p d
    · simp [ih, hp]
    · simp [ih, hp]

/-- What the turns for the given sources collect from the known elements. -/
def collect (re : RegExp) (name : α → String) : List TRule → List α → List α
  | [], _ => []
  | t :: ts, known =>
      known.filter (fun d => t.matches re (name d)) ++
        collect re name ts (known.filter (fun d => !t.matches re (name d)))

@[simp]
theorem collect_nil (ts : List TRule) :
  collect re name ts [] = []
  := by
  induction ts with
  | nil => rfl
  | cons t ts ih => simp [collect, ih]

theorem matchedLoop_eq (ts : List TRule) (known matched : List α) :
  matchedLoop re name ts known matched = matched ++ collect re name ts known
  := by
  induction ts generalizing known matched with
  | nil => simp [matchedLoop, collect]
  | cons t ts ih =>
    rw [matchedLoop, transferMatched_eq]
    split_ifs with hkn
    · rw [isEmpty_iff.mp hkn]
      simp
    · simp [ih, collect]

theorem mem_collect {known : List α} {d : α} :
  d ∈ collect re name ts known ↔ d ∈ known ∧ ∃ t ∈ ts, t.matches re (name d) = true
  := by
  induction ts generalizing known with
  | nil => simp [collect]
  | cons t ts ih =>
    rw [collect, mem_append, ih]
    cases ht : t.matches re (name d)
    · simp [ht]
    · simp [ht]

theorem nodup_collect {known : List α} (h : known.Nodup) :
  (collect re name ts known).Nodup
  := by
  induction ts generalizing known with
  | nil => simp [collect]
  | cons t ts ih =>
    rw [collect]
    apply (h.filter _).append (ih (h.filter _))
    intro d hd hd'
    have hmt := of_mem_filter hd
    have hnot := of_mem_filter (mem_collect.mp hd').1
    simp [hmt] at hnot

/-- The elements are ordered by the first source that matches them, and within one turn as they
were. -/
theorem pairwise_collect {R : α → α → Prop} {known : List α} (h : known.Pairwise R) :
  (collect re name ts known).Pairwise fun d d' =>
    ts.findIdx (·.matches re (name d)) < ts.findIdx (·.matches re (name d')) ∨
      ts.findIdx (·.matches re (name d)) = ts.findIdx (·.matches re (name d')) ∧ R d d'
  := by
  induction ts generalizing known with
  | nil => simp [collect]
  | cons t ts ih =>
    have hlat : ∀ d ∈ collect re name ts (known.filter (fun d => !t.matches re (name d))),
        t.matches re (name d) = false := by
      intro d hd
      simpa using of_mem_filter (mem_collect.mp hd).1
    rw [collect, pairwise_append]
    refine ⟨?_, ?_, ?_⟩
    · apply ((h.filter _).imp_of_mem _)
      intro d d' hd hd' hR
      right
      simp [findIdx_cons, of_mem_filter hd, of_mem_filter hd', hR]
    · apply (ih (h.filter _)).imp_of_mem
      intro d d' hd hd' hR
      simpa [findIdx_cons, hlat d hd, hlat d' hd'] using hR
    · intro d hd d' hd'
      left
      simp [findIdx_cons, of_mem_filter hd, hlat d' hd']

theorem pairwise_idxOf [DecidableEq α] {known : List α} (h : known.Nodup) :
  known.Pairwise fun d d' => known.idxOf d < known.idxOf d'
  := by
  rw [pairwise_iff_getElem]
  intro i j hi hj hij
  rwa [h.idxOf_getElem i hi, h.idxOf_getElem j hj]

theorem collectsExactly [DecidableEq α] {known : List α} (h : known.Nodup) :
  CollectsExactly re name ts known (matchedLoop re name ts known [])
  := by
  rw [matchedLoop_eq, nil_append]
  constructor
  · apply nodup_collect h
  · intro d
    apply mem_collect
  · apply pairwise_collect (pairwise_idxOf h)

/-- An element is collected under the first source that matches it. -/
theorem collectedUnder_iff {known : List α} {t : TRule} {d : α} :
  CollectedUnder re name ts known t d ↔
    d ∈ known ∧ ∃ before after, ts = before ++ t :: after ∧
      (∀ u ∈ before, u.matches re (name d) = false) ∧ t.matches re (name d) = true
  := by
  simp only [CollectedUnder, matchedLoop_eq, nil_append, mem_collect]
  constructor
  · rintro ⟨before, after, hts, hbef, hkn, u, hu, hmt⟩
    have hn : ∀ u ∈ before, u.matches re (name d) = false := by
      intro u hu
      by_contra hmt
      exact hbef ⟨hkn, u, hu, by simpa using hmt⟩
    refine ⟨hkn, before, after, hts, hn, ?_⟩
    rcases mem_append.mp hu with hu | hu
    · rw [hn u hu] at hmt
      cases hmt
    · rwa [← mem_singleton.mp hu]
  · rintro ⟨hkn, before, after, hts, hn, hmt⟩
    refine ⟨before, after, hts, ?_, hkn, t, by simp, hmt⟩
    rintro ⟨-, u, hu, humatch⟩
    rw [hn u hu] at humatch
    cases humatch

/-- The source under which an element is collected is the one the engine finds. -/
theorem CollectedUnder.find? {known : List α} {t : TRule} {d : α}
    (h : CollectedUnder re name ts known t d) :
  ts.find? (·.matches re (name d)) = some t
  := by
  obtain ⟨-, before, after, rfl, hn, hmt⟩ := collectedUnder_iff.mp h
  rw [List.find?_append, List.find?_eq_none.mpr (by simpa using hn)]
  simp [hmt]

end Loops

/-- One of the sources of a loop or rule matches a domain. -/
def AbstractRule.HasSource (re : RegExp) (r : AbstractRule) (name : String) : Prop :=
  ∃ t ∈ r.tRules, t.matches re name = true

/-- The known domains that a loop or rule has as sources. -/
theorem AbstractRule.mem_matchedDomains {known : List Domain} {d : Domain} :
  d ∈ r.matchedDomains re known ↔ d ∈ known ∧ r.HasSource re d.name
  := by
  rw [matchedDomains, matchedLoop_eq, nil_append, mem_collect, HasSource]

/-- The names of the known domains that a loop or rule has as sources. -/
theorem AbstractRule.mem_matchedDomainNames {known : List String} {name : String} :
  name ∈ r.matchedDomainNames re known ↔ name ∈ known ∧ r.HasSource re name
  := by
  rw [matchedDomainNames, matchedLoop_eq, nil_append, mem_collect, HasSource]

/-! ### The engine -/

/-- With a condition that holds, the first source that matches decides. -/
theorem AbstractRule.matchesLoop_of_mem {targetDomain : Domain → Domain} {program : Program}
    {current : Domain} {values : OrdMap String String} {ms : List MRule}
    (h : ∃ m ∈ ms, m.matches re values = true) :
  (r.matchesLoop re targetDomain program current values ms).1 =
    (r.tRules.find? (·.matches re current.name)).map fun t =>
      { program := program
        transitFrom := current
        transitTo := targetDomain current
        promptUser := t.prompt?.getD r.prompt
        notifyUser := t.notify?.getD r.notify }
  := by
  induction ms with
  | nil => simp at h
  | cons m ms ih =>
    rw [matchesLoop]
    split_ifs with hm
    · cases r.tRules.find? (·.matches re current.name) <;> rfl
    · apply ih
      obtain ⟨m', hm', hmt⟩ := h
      rcases mem_cons.mp hm' with rfl | hm'
      · exact absurd hmt hm
      · exact ⟨m', hm', hmt⟩

section Engine

variable {α : Type} {re : RegExp} {name : α → String} {r : AbstractRule} {known : List α}

theorem agreesWithEngine {targetDomain : Domain → Domain} {program : Program}
    {values : OrdMap String String} (hval : program.isValid = true)
    (hn : program.name = r.program.name) (hm : ∃ m ∈ r.mRules, m.matches re values = true) :
  AgreesWithEngine re name r known (matchedLoop re name r.tRules known [])
    (fun d => r.matches re targetDomain program d values)
  := by
  have hmts : ∀ d, (r.matches re targetDomain program d values).1 =
      (r.matchesLoop re targetDomain program d values r.mRules).1 := by
    intro d
    simp [AbstractRule.matches, hval, hn]
  constructor
  · intro d x hx hd
    rw [hmts, AbstractRule.matchesLoop_of_mem hm, Option.isSome_map, List.find?_isSome,
      matchedLoop_eq, nil_append, mem_collect, hd]
    exact and_iff_right hx
  · intro x hx
    rw [matchedLoop_eq, nil_append, mem_collect] at hx
    obtain ⟨hkn, hmt⟩ := hx
    obtain ⟨t, ht⟩ := Option.isSome_iff_exists.mp (List.find?_isSome.mpr hmt)
    obtain ⟨hmt, before, after, hts, hnone⟩ := List.find?_eq_some_iff_append.mp ht
    use t
    apply collectedUnder_iff.mpr
    refine ⟨hkn, before, after, hts, ?_, hmt⟩
    intro u hu
    simpa using hnone u hu
  · intro d x t hd hcol
    have hf := hcol.find?
    rw [hd] at hf
    have hs := hmts d
    rw [AbstractRule.matchesLoop_of_mem hm, hf, Option.map_some] at hs
    exact ⟨_, hs, rfl, rfl⟩

end Engine

/-- The collected domains, and the names of domains, are those of the engine. -/
theorem matchedDomains_agree (re : RegExp) (r : AbstractRule) (targetDomain : Domain → Domain)
    (knownDomains : List Domain) (knownDomainNames : List String) (values : OrdMap String String)
    (hdoms : knownDomains.Nodup) (hns : knownDomainNames.Nodup) :
  CollectsExactly re Domain.name r.tRules knownDomains (r.matchedDomains re knownDomains) ∧
    CollectsExactly re (fun name => name) r.tRules knownDomainNames
      (r.matchedDomainNames re knownDomainNames) ∧
    ((∃ m ∈ r.mRules, m.matches re values = true) →
      ∀ program : Program, program.isValid = true → program.name = r.program.name →
        AgreesWithEngine re Domain.name r knownDomains (r.matchedDomains re knownDomains)
          (fun d => r.matches re targetDomain program d values) ∧
        AgreesWithEngine re (fun name => name) r knownDomainNames
          (r.matchedDomainNames re knownDomainNames)
          (fun d => r.matches re targetDomain program d values))
  := by
  refine ⟨collectsExactly hdoms, collectsExactly hns, ?_⟩
  intro hm program hval hn
  exact ⟨agreesWithEngine hval hn hm, agreesWithEngine hval hn hm⟩

/-- The domain `work` comes first, since the first source of the rule matches it. -/
theorem matchedDomains_agree_openRule :
  openRule.matchedDomains anything [⟨"home", "", "", "", 0, 0⟩, ⟨"work", "", "", "", 0, 0⟩] =
      [⟨"work", "", "", "", 0, 0⟩, ⟨"home", "", "", "", 0, 0⟩] ∧
    AgreesWithEngine anything Domain.name openRule.toAbstractRule
      [⟨"home", "", "", "", 0, 0⟩, ⟨"work", "", "", "", 0, 0⟩]
      (openRule.matchedDomains anything [⟨"home", "", "", "", 0, 0⟩, ⟨"work", "", "", "", 0, 0⟩])
      (fun d => openRule.matches anything mailer d (Std.ExtTreeMap.ofList [("to", "bob")]))
  := by
  refine ⟨by decide, ?_⟩
  obtain ⟨-, -, hag⟩ := matchedDomains_agree anything openRule.toAbstractRule
    openRule.targetDomain [⟨"home", "", "", "", 0, 0⟩, ⟨"work", "", "", "", 0, 0⟩] []
    (Std.ExtTreeMap.ofList [("to", "bob")]) (by decide) (by decide)
  exact (hag ⟨_, mem_singleton_self _, by decide⟩ mailer (by decide) (by decide)).1

end Policy

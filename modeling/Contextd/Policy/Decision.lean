import Contextd.Policy.Rule

/-!
# The decision engine

`Configuration` is the policy in memory, and `getFirstMatchingTransition` the search for the
transition a program may take in a context: through the loops stored for the program, then through
its rules.  The first entry one of whose condition blocks holds decides alone, whether or not it
allows the current domain.
-/

namespace Policy

open List

/-- `Configuration`: the rules and loops by program name, the domains, the programs and the
programs that are not killed. -/
structure Configuration where
  rules : Bookshelf String Rule
  loops : Bookshelf String Loop
  domains : OrdMap String Domain
  defaultDomain : Domain
  programs : OrdMap String Program
  noKillPrograms : List String

/-! ### The search -/

/-- The loop over a vector of entries: stop at the first valid transition, and at the first
entry that matched but refused. -/
def scan {α β : Type} (f : α → Option β × Bool) : List α → Option β × Bool
  | [] => (none, false)
  | x :: xs =>
      match f x with
      | (some t, refused) => (some t, refused)
      | (none, true) => (none, true)
      | (none, false) => scan f xs

namespace Configuration

/-- `Configuration::getFirstMatchingTransition`. -/
def getFirstMatchingTransition (re : RegExp) (c : Configuration) (app : Program)
    (currentDomain : Domain) (values : OrdMap String String) : Option Transition :=
  match scan (·.matches re app currentDomain values) (c.loops.vector app.name) with
  | (some t, _) => some t
  | (none, true) => none
  | (none, false) =>
      (scan (·.matches re app currentDomain values) (c.rules.vector app.name)).1

end Configuration

/-! ### Conditions -/

/-- Every condition is on a value of the context that its pattern, which is valid, matches
as a whole. -/
def MRule.Holds (re : RegExp) (m : MRule) (values : OrdMap String String) : Prop :=
  ∀ key pattern, m.conditions[key]? = some pattern →
    re.isValid pattern = true ∧
      ∃ value, values[key]? = some value ∧
        re.exactMatch pattern (contextValue key value) = true

/-- The condition on a key is satisfied by a value. -/
def MRule.Satisfied (re : RegExp) (m : MRule) (key value : String) : Prop :=
  ∃ pattern, m.conditions[key]? = some pattern ∧ re.isValid pattern = true ∧
    re.exactMatch pattern (contextValue key value) = true

/-- The condition on a key is valid and refuses a value. -/
def MRule.Refused (re : RegExp) (m : MRule) (key value : String) : Prop :=
  ∃ pattern, m.conditions[key]? = some pattern ∧ re.isValid pattern = true ∧
    re.exactMatch pattern (contextValue key value) = false

section Conditions

variable {re : RegExp} {m : MRule} {key value : String} {vs : List (String × String)}
  {used used' : OrdMap String String}

/-- A refused value ends the loop. -/
theorem MRule.matchesLoop_refused (h : m.Refused re key value) :
  m.matchesLoop re ((key, value) :: vs) used = none
  := by
  obtain ⟨pattern, hcond, hval, hmt⟩ := h
  simp [matchesLoop, hcond, hval, hmt]

/-- The key of a satisfied condition is recorded. -/
theorem MRule.matchesLoop_satisfied (h : m.Satisfied re key value) :
  m.matchesLoop re ((key, value) :: vs) used = m.matchesLoop re vs (used.insert key "yes")
  := by
  obtain ⟨pattern, hcond, hval, hmt⟩ := h
  simp [matchesLoop, hcond, hval, hmt]

/-- A value without condition, or whose condition is not valid, is skipped. -/
theorem MRule.matchesLoop_skip (href : ¬ m.Refused re key value)
    (hsat : ¬ m.Satisfied re key value) :
  m.matchesLoop re ((key, value) :: vs) used = m.matchesLoop re vs used
  := by
  simp only [matchesLoop]
  split
  · rfl
  · rename_i pattern hcond
    have hval : re.isValid pattern = false := by
      by_contra hval
      rw [Bool.not_eq_false] at hval
      cases hmt : re.exactMatch pattern (contextValue key value) with
      | true => apply hsat ⟨pattern, hcond, hval, hmt⟩
      | false => apply href ⟨pattern, hcond, hval, hmt⟩
    simp [hval]

/-- What is satisfied by the values of a list, by its first one or by the others. -/
theorem MRule.exists_satisfied_cons {k v : String} :
  (∃ value, (key, value) ∈ (k, v) :: vs ∧ m.Satisfied re key value) ↔
    (key = k ∧ m.Satisfied re k v) ∨ ∃ value, (key, value) ∈ vs ∧ m.Satisfied re key value
  := by
  constructor
  · rintro ⟨value, hm, hsat⟩
    rcases mem_cons.mp hm with heq | hm
    · left
      cases heq
      use rfl
    · right
      use value
  · rintro (⟨rfl, hsat⟩ | ⟨value, hm, hsat⟩)
    · use v, mem_cons_self
    · use value, mem_cons_of_mem _ hm

/-- The loop returns early when a value is refused. -/
theorem MRule.matchesLoop_eq_none_iff :
  m.matchesLoop re vs used = none ↔ ∃ key value, (key, value) ∈ vs ∧ m.Refused re key value
  := by
  induction vs generalizing used with
  | nil => simp [matchesLoop]
  | cons kv vs ih =>
    obtain ⟨key, value⟩ := kv
    by_cases href : m.Refused re key value
    · simp only [matchesLoop_refused href, true_iff]
      use key, value, mem_cons_self
    · have hcons : (∃ k v, (k, v) ∈ (key, value) :: vs ∧ m.Refused re k v) ↔
          ∃ k v, (k, v) ∈ vs ∧ m.Refused re k v := by
        simp only [mem_cons, Prod.mk.injEq, or_and_right, exists_or]
        apply or_iff_right
        rintro ⟨_, _, ⟨rfl, rfl⟩, h⟩
        apply href h
      rw [hcons]
      by_cases hsat : m.Satisfied re key value
      · rw [matchesLoop_satisfied hsat, ih]
      · rw [matchesLoop_skip href hsat, ih]

/-- When the loop goes to its end, it has recorded the keys of the satisfied conditions. -/
theorem MRule.mem_of_matchesLoop (h : m.matchesLoop re vs used = some used') (key : String) :
  key ∈ used' ↔ key ∈ used ∨ ∃ value, (key, value) ∈ vs ∧ m.Satisfied re key value
  := by
  induction vs generalizing used with
  | nil =>
    obtain rfl : used = used' := by simpa [matchesLoop] using h
    simp
  | cons kv vs ih =>
    obtain ⟨k, v⟩ := kv
    rw [exists_satisfied_cons]
    by_cases hsatisfied : m.Satisfied re k v
    · rw [matchesLoop_satisfied hsatisfied] at h
      rw [ih h, Std.ExtTreeMap.mem_insert, Std.LawfulEqCmp.compare_eq_iff_eq]
      constructor
      · rintro ((rfl | hkey) | hmore)
        · right
          left
          use rfl
        · left
          apply hkey
        · right
          right
          apply hmore
      · rintro (hkey | ⟨rfl, -⟩ | hmore)
        · left
          right
          apply hkey
        · left
          left
          rfl
        · right
          apply hmore
    · have href : ¬ m.Refused re k v := by
        intro href
        rw [matchesLoop_refused href] at h
        cases h
      have hfst : ¬ (key = k ∧ m.Satisfied re k v) := by
        rintro ⟨-, hsat⟩
        apply hsatisfied hsat
      rw [matchesLoop_skip href hsatisfied] at h
      rw [ih h, or_iff_right hfst]

/-- `MRule::matches` decides whether every condition holds: it counts the keys of the
satisfied conditions, and all of them are counted exactly when every condition is
satisfied. -/
theorem MRule.matches_iff {values : OrdMap String String} :
  m.matches re values = true ↔ m.Holds re values
  := by
  have hm : ∀ key value, (key, value) ∈ values.toList ↔ values[key]? = some value := by
    intro key value
    apply Std.ExtTreeMap.mem_toList_iff_getElem?_eq_some
  unfold MRule.matches
  cases hl : m.matchesLoop re values.toList ∅ with
  | none =>
    obtain ⟨key, value, hkv, pattern, hcond, hval, hmt⟩ := matchesLoop_eq_none_iff.mp hl
    simp only [Bool.false_eq_true, false_iff]
    intro hhd
    obtain ⟨-, value', hvl, hmt'⟩ := hhd key pattern hcond
    obtain rfl : value = value' := by
      rw [hm, hvl] at hkv
      apply (Option.some.inj hkv).symm
    rw [hmt] at hmt'
    cases hmt'
  | some used =>
    have hused : ∀ key, key ∈ used ↔
        ∃ value, values[key]? = some value ∧ m.Satisfied re key value := by
      intro key
      rw [mem_of_matchesLoop hl key]
      simp [hm]
    have hsub : ∀ key, key ∈ used → key ∈ m.conditions := by
      intro key hkey
      obtain ⟨value, -, pattern, hcond, -⟩ := (hused key).mp hkey
      rw [Std.ExtTreeMap.mem_iff_isSome_getElem?, hcond]
      rfl
    simp only [beq_iff_eq]
    constructor
    · intro hs key pattern hcond
      have hkey : key ∈ m.conditions := by
        rw [Std.ExtTreeMap.mem_iff_isSome_getElem?, hcond]
        rfl
      obtain ⟨value, hvl, pattern', hcond', hval, hmt⟩ :=
        (hused key).mp (OrdMap.mem_of_size_eq hsub hs key hkey)
      obtain rfl : pattern = pattern' := Option.some.inj (hcond.symm.trans hcond')
      use hval, value
    · intro hhd
      apply OrdMap.size_eq_of_mem_iff
      intro key
      constructor
      · apply hsub
      · intro hkey
        obtain ⟨pattern, hcond⟩ := Option.isSome_iff_exists.mp
          (Std.ExtTreeMap.mem_iff_isSome_getElem?.mp hkey)
        obtain ⟨hval, value, hvl, hmt⟩ := hhd key pattern hcond
        rw [hused]
        use value, hvl, pattern, hcond

end Conditions

/-! ### Entries -/

/-- A loop or a rule. -/
inductive Entry where
  | loop (l : Loop)
  | rule (r : Rule)

namespace Entry

/-- What loops and rules have in common. -/
def toAbstractRule : Entry → AbstractRule
  | .loop l => l.toAbstractRule
  | .rule r => r.toAbstractRule

/-- Where an entry leads to from a domain: a loop stays, a rule goes to its target. -/
def target : Entry → Domain → Domain
  | .loop _, d => d
  | .rule r, _ => r.transitTo

/-- `AbstractRule::matches` of an entry. -/
def matchesIn (re : RegExp) (app : Program) (d : Domain) (values : OrdMap String String) :
    Entry → Option Transition × Bool
  | .loop l => l.matches re app d values
  | .rule r => r.matches re app d values

/-- One of the condition blocks of the entry holds. -/
def Holds (re : RegExp) (e : Entry) (values : OrdMap String String) : Prop :=
  ∃ m ∈ e.toAbstractRule.mRules, m.Holds re values

/-- The transition an entry allows through one of its sources. -/
def transition (e : Entry) (app : Program) (d : Domain) (t : TRule) : Transition where
  program := app
  transitFrom := d
  transitTo := e.target d
  promptUser := t.prompt?.getD e.toAbstractRule.prompt
  notifyUser := t.notify?.getD e.toAbstractRule.notify

end Entry

/-- The entries stored for a program: the loops, then the rules, each in the order of its
vector. -/
def Configuration.stored (c : Configuration) (app : Program) : List Entry :=
  (c.loops.vector app.name).map Entry.loop ++ (c.rules.vector app.name).map Entry.rule

/-- The entries stored for a program that are its own. -/
def Configuration.entries (c : Configuration) (app : Program) : List Entry :=
  (c.stored app).filter fun e => e.toAbstractRule.program.name = app.name

section Search

variable {e : Entry} {c : Configuration}

variable {re : RegExp} {app : Program} {d : Domain} {values : OrdMap String String}

/-- The loop over the conditions of a rule that has one that holds. -/
theorem AbstractRule.matchesLoop_of_holds {r : AbstractRule} {target : Domain → Domain}
    {ms : List MRule} (h : ∃ m ∈ ms, m.Holds re values) :
  r.matchesLoop re target app d values ms =
    match r.tRules.find? (·.matches re d.name) with
    | some t =>
        (some ⟨app, d, target d, t.prompt?.getD r.prompt, t.notify?.getD r.notify⟩, false)
    | none => (none, true)
  := by
  induction ms with
  | nil =>
    obtain ⟨m, hm, -⟩ := h
    cases hm
  | cons m ms ih =>
    unfold matchesLoop
    by_cases hm : m.matches re values = true
    · apply if_pos hm
    · rw [if_neg hm]
      apply ih
      obtain ⟨m', hmem, hhd⟩ := h
      rcases mem_cons.mp hmem with rfl | hmem
      · apply absurd (MRule.matches_iff.mpr hhd) hm
      · use m'

/-- The loop over the conditions of a rule none of which holds. -/
theorem AbstractRule.matchesLoop_of_not_holds {r : AbstractRule} {target : Domain → Domain}
    {ms : List MRule} (h : ∀ m ∈ ms, ¬ m.Holds re values) :
  r.matchesLoop re target app d values ms = (none, false)
  := by
  induction ms with
  | nil => rfl
  | cons m ms ih =>
    have hm : ¬ m.matches re values = true := by
      rw [MRule.matches_iff]
      apply h m mem_cons_self
    unfold matchesLoop
    rw [if_neg hm]
    apply ih
    intro m' hm'
    apply h m' (mem_cons_of_mem _ hm')

/-- An entry answers through `AbstractRule::matches`. -/
theorem Entry.matchesIn_eq (e : Entry) :
  e.matchesIn re app d values = e.toAbstractRule.matches re e.target app d values
  := by
  cases e <;> rfl

/-- An entry of the program, one of whose condition blocks holds, answers with the
transition through its first source that matches, or with a refusal. -/
theorem Entry.matchesIn_of_holds (hval : app.isValid = true)
    (hn : e.toAbstractRule.program.name = app.name) (h : e.Holds re values) :
  e.matchesIn re app d values =
    match e.toAbstractRule.tRules.find? (·.matches re d.name) with
    | some t => (some (e.transition app d t), false)
    | none => (none, true)
  := by
  have hne : ¬ app.name ≠ e.toAbstractRule.program.name := by simp [hn]
  rw [matchesIn_eq]
  unfold AbstractRule.matches
  rw [hval, if_neg (by simp), if_neg hne]
  apply AbstractRule.matchesLoop_of_holds h

/-- Any other entry does not answer. -/
theorem Entry.matchesIn_of_not_holds
    (h : ¬ (e.toAbstractRule.program.name = app.name ∧ e.Holds re values)) :
  e.matchesIn re app d values = (none, false)
  := by
  rw [matchesIn_eq]
  unfold AbstractRule.matches
  split
  · rfl
  · split
    · rfl
    · rename_i hn
      apply AbstractRule.matchesLoop_of_not_holds
      intro m hm hhd
      apply h
      use (not_not.mp hn).symm, m

/-- A transition that an entry answers with is of the program, from the current domain. -/
theorem Entry.source_of_matchesIn {t : Transition} (h : (e.matchesIn re app d values).1 = some t) :
  t.program = app ∧ t.transitFrom = d
  := by
  rw [matchesIn_eq] at h
  unfold AbstractRule.matches at h
  split_ifs at h
  generalize e.toAbstractRule.mRules = ms at h
  induction ms with
  | nil => cases h
  | cons m ms ih =>
    unfold AbstractRule.matchesLoop at h
    by_cases hm : m.matches re values = true
    · rw [if_pos hm] at h
      split at h <;> cases h
      exact ⟨rfl, rfl⟩
    · rw [if_neg hm] at h
      apply ih h

/-! ### The whole search -/

variable {α β : Type} {f : α → Option β × Bool} {xs ys : List α}

/-- The search goes past entries that do not answer. -/
theorem scan_append_of_silent (h : ∀ x ∈ xs, f x = (none, false)) :
  scan f (xs ++ ys) = scan f ys
  := by
  induction xs with
  | nil => rfl
  | cons x xs ih =>
    rw [cons_append, scan, h x mem_cons_self]
    apply ih
    intro y hy
    apply h y (mem_cons_of_mem _ hy)

/-- The search stops at an entry that answers. -/
theorem scan_cons_of_answer {x : α} (h : f x ≠ (none, false)) :
  scan f (x :: xs) = f x
  := by
  rw [scan]
  match hx : f x with
  | (some t, refused) => rfl
  | (none, true) => rfl
  | (none, false) => apply absurd hx h

/-- What the search finds is the answer of one of the entries. -/
theorem exists_of_scan {t : β} (h : (scan f xs).1 = some t) :
  ∃ x ∈ xs, (f x).1 = some t
  := by
  induction xs with
  | nil => cases h
  | cons x xs ih =>
    by_cases hx : f x = (none, false)
    · rw [scan, hx] at h
      obtain ⟨y, hy, hfy⟩ := ih h
      use y, mem_cons_of_mem _ hy
    · rw [scan_cons_of_answer hx] at h
      use x, mem_cons_self

/-- Searching two vectors one after the other is searching their concatenation. -/
theorem scan_append :
  scan f (xs ++ ys) =
    match scan f xs with
    | (some t, refused) => (some t, refused)
    | (none, true) => (none, true)
    | (none, false) => scan f ys
  := by
  induction xs with
  | nil => rfl
  | cons x xs ih =>
    rw [cons_append, scan, scan]
    match f x with
    | (some t, refused) => rfl
    | (none, true) => rfl
    | (none, false) => apply ih

theorem scan_map {γ : Type} {g : γ → α} {zs : List γ} :
  scan f (zs.map g) = scan (fun z => f (g z)) zs
  := by
  induction zs with
  | nil => rfl
  | cons z zs ih => rw [map_cons, scan, scan, ih]

/-- The search through the loops and then the rules is one search through the entries
stored for the program. -/
theorem Configuration.getFirstMatchingTransition_eq_scan (c : Configuration) :
  c.getFirstMatchingTransition re app d values =
    (scan (·.matchesIn re app d values) (c.stored app)).1
  := by
  unfold getFirstMatchingTransition stored
  rw [scan_append, scan_map, scan_map]
  simp only [Entry.matchesIn]
  rcases scan (fun l : Loop => l.matches re app d values) (c.loops.vector app.name)
    with ⟨_ | t, _ | _⟩ <;> rfl

/-- The transition that is found is of the program, from the current domain. -/
theorem Configuration.source_of_getFirstMatchingTransition {t : Transition}
    (h : c.getFirstMatchingTransition re app d values = some t) :
  t.program = app ∧ t.transitFrom = d
  := by
  rw [getFirstMatchingTransition_eq_scan] at h
  obtain ⟨e, -, he⟩ := exists_of_scan h
  apply Entry.source_of_matchesIn he

/-- The search finds nothing when no entry of the program holds. -/
theorem Configuration.getFirstMatchingTransition_of_silent
    (h : ∀ e ∈ c.entries app, ¬ e.Holds re values) :
  c.getFirstMatchingTransition re app d values = none
  := by
  have hsil : ∀ e ∈ c.stored app, e.matchesIn re app d values = (none, false) := by
    intro e he
    apply Entry.matchesIn_of_not_holds
    rintro ⟨hn, hhd⟩
    apply h e _ hhd
    simp [entries, he, hn]
  rw [getFirstMatchingTransition_eq_scan, ← append_nil (c.stored app), scan_append_of_silent hsil]
  rfl

/-- The first entry that holds decides. -/
theorem Configuration.getFirstMatchingTransition_of_first (hval : app.isValid = true)
    {before after : List Entry} (hents : c.entries app = before ++ e :: after)
    (hbef : ∀ b ∈ before, ¬ b.Holds re values) (hhd : e.Holds re values) :
  c.getFirstMatchingTransition re app d values =
    (e.toAbstractRule.tRules.find? (·.matches re d.name)).map (e.transition app d)
  := by
  obtain ⟨l₁, l₂, hsto, hl₁, hl₂⟩ := filter_eq_append_iff.mp hents
  obtain ⟨l₃, l₄, rfl, hl₃, hn, -⟩ := filter_eq_cons_iff.mp hl₂
  have hsil : ∀ x ∈ l₁ ++ l₃, x.matchesIn re app d values = (none, false) := by
    intro x hx
    apply Entry.matchesIn_of_not_holds
    rintro ⟨hxname, hxholds⟩
    rcases mem_append.mp hx with hx | hx
    · apply hbef x _ hxholds
      rw [← hl₁]
      simp [hx, hxname]
    · apply hl₃ x hx
      simpa using hxname
  have hans := Entry.matchesIn_of_holds (d := d) hval (by simpa using hn) hhd
  rw [getFirstMatchingTransition_eq_scan, hsto, ← append_assoc,
    scan_append_of_silent hsil, scan_cons_of_answer]
  · rw [hans]
    cases e.toAbstractRule.tRules.find? (·.matches re d.name) <;> rfl
  · rw [hans]
    cases e.toAbstractRule.tRules.find? (·.matches re d.name) <;> simp

/-- What the search decides, for a valid program.  A condition block matches when every
condition holds.  When no entry of the program has a block that holds, there is no
transition.  Otherwise the first entry that has one decides alone: no transition when none
of its sources matches the current domain, else the one through the first source that
matches. -/
theorem getFirstMatchingTransition_spec (re : RegExp) (c : Configuration) (app : Program)
    (d : Domain) (values : OrdMap String String) (hval : app.isValid = true) :
  (∀ m : MRule, m.matches re values = true ↔ m.Holds re values) ∧
  ((∀ e ∈ c.entries app, ¬ e.Holds re values) →
    c.getFirstMatchingTransition re app d values = none) ∧
  ∀ before e after, c.entries app = before ++ e :: after →
    (∀ b ∈ before, ¬ b.Holds re values) → e.Holds re values →
    ((∀ t ∈ e.toAbstractRule.tRules, ¬ t.matches re d.name = true) →
      c.getFirstMatchingTransition re app d values = none) ∧
    ∀ refusing t others, e.toAbstractRule.tRules = refusing ++ t :: others →
      (∀ u ∈ refusing, ¬ u.matches re d.name = true) → t.matches re d.name = true →
      c.getFirstMatchingTransition re app d values =
        some
          { program := app
            transitFrom := d
            transitTo := e.target d
            promptUser := t.prompt?.getD e.toAbstractRule.prompt
            notifyUser := t.notify?.getD e.toAbstractRule.notify }
  := by
  refine ⟨fun m => m.matches_iff, Configuration.getFirstMatchingTransition_of_silent, ?_⟩
  intro before e after hents hbef hhd
  rw [Configuration.getFirstMatchingTransition_of_first hval hents hbef hhd]
  constructor
  · intro hn
    rw [List.find?_eq_none.mpr hn]
    rfl
  · intro refusing t others htrules hrefusing ht
    have hf : e.toAbstractRule.tRules.find? (·.matches re d.name) = some t := by
      rw [List.find?_eq_some_iff_append]
      use ht, refusing, others, htrules
      intro u hu
      simpa using hrefusing u hu
    rw [hf]
    rfl

/-- Patterns that match only themselves. -/
def literal : RegExp where
  isValid _ := true
  exactMatch pattern s := pattern == s

/-- A mail program. -/
def mailer : Program := ⟨"mailer", "Mailer", "", "/usr/bin/mailer", ""⟩

/-- A rule that lets the mail program write to an address, from the domain `work` without
asking. -/
def mailRule : Rule where
  id := 1
  priority := 1
  program := mailer
  displayName := "mail"
  prompt := true
  notify := true
  mRules := [⟨"send", "", Std.ExtTreeMap.ofList [("to", "bob")]⟩]
  tRules := [⟨"work", none, some false⟩]
  transitTo := ⟨"private", "", "", "", 0, 0⟩

/-- The policy with that one rule. -/
def mailPolicy : Configuration where
  rules := Std.ExtTreeMap.ofList [("mailer", [mailRule])]
  loops := ∅
  domains := ∅
  defaultDomain := .none
  programs := ∅
  noKillPrograms := []

/-- The rule is found for a context whose address is written with `$lt;`. -/
theorem getFirstMatchingTransition_spec_mailPolicy :
  mailer.isValid = true ∧
  mailPolicy.getFirstMatchingTransition literal mailer ⟨"work", "", "", "", 0, 0⟩
      (Std.ExtTreeMap.ofList [("To", "x"), ("to", "$lt;bob> Bob")]) =
    some ⟨mailer, ⟨"work", "", "", "", 0, 0⟩, ⟨"private", "", "", "", 0, 0⟩, false, true⟩
  := by
  use (by decide)
  obtain ⟨hmts, -, hfst⟩ := getFirstMatchingTransition_spec literal mailPolicy mailer
    ⟨"work", "", "", "", 0, 0⟩ (Std.ExtTreeMap.ofList [("To", "x"), ("to", "$lt;bob> Bob")])
    (by decide)
  apply (hfst [] (.rule mailRule) [] (by rfl) (by simp) _).2 [] _ [] rfl (by simp) (by decide)
  refine ⟨_, mem_singleton_self _, ?_⟩
  rw [← hmts]
  decide

end Search

end Policy

import Mathlib.Data.Set.Basic
import Contextd.Selaudit.Optimizer

/-!
# What the rules of a policy mean

A rule denotes a set of accesses (`Denotes`).  The name of a permission set stands for what the
permissions of its definition stand for (`Expands`), and `self` for the type of the source.  The
meaning of a policy is the union over its rules (`Denoted`).

`reduced` says which names are left of a set when the permission sets that it contains are written
by their names; they stand for the same when a name is not defined twice (`expands_reduced_iff`).
-/

namespace Selaudit

/-- What a rule is about. -/
structure Access where
  kind : Kind
  source : String
  target : String
  objectClass : String
  permission : String
  deriving DecidableEq, Repr

/-- The permissions a name stands for: itself, or those of the permission sets with the
name. -/
inductive Expands (defs : List (String × List String)) : String → String → Prop where
  | perm {name : String} : (∀ d ∈ defs, d.1 ≠ name) → Expands defs name name
  | set {d : String × List String} {name perm : String} : d ∈ defs → name ∈ d.2 →
      Expands defs name perm → Expands defs d.1 perm

namespace Rule

/-- The names of the targets of a rule.  An `auditallow` rule has them where others have the
classes. -/
def targets (r : Rule) : Set String :=
  match r.kind with
  | .auditallow => {y | y ∈ r.objectClass}
  | _ => {y | y ∈ r.target.names}

/-- The classes of a rule that has the given attributes. -/
def classesWith (r : Rule) (attributes : Set String) : Set String :=
  match r.kind with
  | .auditallow => attributes
  | _ => {c | c ∈ r.objectClass}

/-- The names of the permissions of a rule that has the given attributes. -/
def permsWith (r : Rule) (attributes : Set String) : Set String :=
  match r.kind with
  | .auditallow => {p | p ∈ r.target.names}
  | _ => attributes

end Rule

section

variable (types : String → Set String) (defs : List (String × List String))

/-- The accesses a rule denotes when it has the given attributes, where `types` are the types
that the name of a type or an attribute stands for. -/
def DenotesWith (r : Rule) (attributes : Set String) (a : Access) : Prop :=
  a.kind = r.kind ∧ a.source ∈ types r.source ∧
    (∃ y ∈ r.targets, if y = "self" then a.target = a.source else a.target ∈ types y) ∧
    a.objectClass ∈ r.classesWith attributes ∧
    ∃ p ∈ r.permsWith attributes, Expands defs p a.permission

/-- The accesses a rule denotes. -/
def Denotes (r : Rule) (a : Access) : Prop := DenotesWith types defs r {x | x ∈ r.attributes} a

/-- The accesses the rules of a policy denote. -/
def Denoted (tokens : List Token) (a : Access) : Prop :=
  ∃ r, .rule r ∈ tokens ∧ Denotes types (permSets tokens) r a

end

/-! ### Permission sets -/

variable {defs defs' : List (String × List String)} {name perm : String}

/-- What a name stands for depends on the set of definitions only. -/
theorem Expands.mono (hsub : ∀ d, d ∈ defs ↔ d ∈ defs') (h : Expands defs name perm) :
  Expands defs' name perm
  := by
  induction h with
  | perm h =>
    apply Expands.perm
    intro d hd
    apply h d ((hsub d).mpr hd)
  | set hd hn _ ih => apply Expands.set ((hsub _).mp hd) hn ih

/-- What a name stands for depends on the permission sets only, not on their order. -/
theorem expands_congr (hsub : ∀ d, d ∈ defs ↔ d ∈ defs') :
  Expands defs name perm ↔ Expands defs' name perm
  := ⟨.mono hsub, .mono fun d => (hsub d).symm⟩

theorem denotesWith_congr (types : String → Set String) (hsub : ∀ d, d ∈ defs ↔ d ∈ defs')
    (r : Rule) (attributes : Set String) (a : Access) :
  DenotesWith types defs r attributes a ↔ DenotesWith types defs' r attributes a
  := by
  simp only [DenotesWith, expands_congr hsub]

/-- What the name of a permission set stands for. -/
theorem expands_set_iff {d : String × List String} (hd : d ∈ defs) :
  Expands defs d.1 perm ↔ ∃ d' ∈ defs, d'.1 = d.1 ∧ ∃ q ∈ d'.2, Expands defs q perm
  := by
  constructor
  · intro h
    generalize hn : d.1 = name at h
    cases h with
    | perm hnot => apply absurd hn (hnot d hd)
    | set hd' hq h => exact ⟨_, hd', rfl, _, hq, h⟩
  · rintro ⟨d', hd', hn, q, hq, h⟩
    rw [← hn]
    apply Expands.set hd' hq h

/-- A name that is not defined stands for itself. -/
theorem eq_of_expands (hnot : ∀ d ∈ defs, d.1 ≠ name) (h : Expands defs name perm) :
  name = perm
  := by
  cases h with
  | perm _ => rfl
  | set hd _ _ => apply absurd rfl (hnot _ hd)

/-- The names that are left of a set when the permission sets it contains are written by
their names. -/
def reduced (defs : List (String × List String)) (names : Set String) : Set String :=
  {x | (∃ d ∈ defs, (∀ p ∈ d.2, p ∈ names) ∧ x = d.1) ∨
    x ∈ names ∧ ∀ d ∈ defs, (∀ p ∈ d.2, p ∈ names) → x ∉ d.2}

theorem reduced_congr (hsub : ∀ d, d ∈ defs ↔ d ∈ defs') (names : Set String) :
  reduced defs names = reduced defs' names
  := by
  simp only [reduced, hsub]

/-- The definitions of a name agree. -/
def Unambiguous (defs : List (String × List String)) : Prop :=
  ∀ d ∈ defs, ∀ d' ∈ defs, d.1 = d'.1 → ∀ p, p ∈ d.2 → p ∈ d'.2

/-- A permission set that is contained in a set of names stands for nothing more than the names
do, whatever the other definitions of it. -/
def Agrees (defs : List (String × List String)) (names : Set String) : Prop :=
  ∀ d ∈ defs, (∀ p ∈ d.2, p ∈ names) → ∀ d' ∈ defs, d'.1 = d.1 → ∀ q ∈ d'.2, ∀ perm,
    Expands defs q perm → ∃ p ∈ names, Expands defs p perm

/-- If no name is defined twice, the definitions agree. -/
theorem Unambiguous.agrees (h : Unambiguous defs) (names : Set String) :
  Agrees defs names
  := by
  intro d hd hsub d' hd' hn q hq perm hexp
  use q, hsub q (h d' hd' d hd hn q hq)

/-- Reduced names stand for the same. -/
theorem expands_reduced_iff {names : Set String} (h : Agrees defs names) :
  (∃ x ∈ reduced defs names, Expands defs x perm) ↔ ∃ x ∈ names, Expands defs x perm
  := by
  constructor
  · rintro ⟨x, ⟨d, hd, hsub, rfl⟩ | ⟨hx, -⟩, hexp⟩
    · obtain ⟨d', hd', hn, q, hq, hexp⟩ := (expands_set_iff hd).mp hexp
      apply h d hd hsub d' hd' hn q hq perm hexp
    · use x
  · rintro ⟨x, hx, hexp⟩
    by_cases hcov : ∃ d ∈ defs, (∀ p ∈ d.2, p ∈ names) ∧ x ∈ d.2
    · obtain ⟨d, hd, hsub, hxd⟩ := hcov
      use d.1, .inl ⟨d, hd, hsub, rfl⟩, Expands.set hd hxd hexp
    · refine ⟨x, .inr ⟨hx, ?_⟩, hexp⟩
      intro d hd hsub hxd
      apply hcov ⟨d, hd, hsub, hxd⟩

end Selaudit

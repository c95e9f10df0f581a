import Mathlib.Data.List.Basic

/-!
# Machines and their runs

A machine has initial states and a partial step function.  Every choice the environment makes is
part of the action, so a run is determined by its list of actions (`M.run`).  `M.Reach guard` holds
of the states reached by the runs all of whose steps satisfy `guard`, and `Reach.invariant` is the
rule for proving a property of all of them.
-/

universe u v

/-- Initial states and a partial step function. -/
structure Machine (σ : Type u) (α : Type v) where
  init : σ → Prop
  step : σ → α → Option σ

namespace Machine

variable {σ : Type u} {α : Type v} {M : Machine σ α} {guard : σ → α → Prop}

/-- The guard that every step satisfies. -/
def anyStep : σ → α → Prop := fun _ _ => True

instance (s : σ) (a : α) : Decidable (anyStep s a) := inferInstanceAs (Decidable True)

/-- The states reached by the runs all of whose steps satisfy `guard`. -/
inductive Reach (M : Machine σ α) (guard : σ → α → Prop) : σ → Prop where
  | init {s : σ} : M.init s → Reach M guard s
  | step {s s' : σ} {a : α} : Reach M guard s → guard s a → M.step s a = some s' →
      Reach M guard s'

/-- A property of the initial states that every guarded step preserves holds of all the
states reached. -/
theorem Reach.invariant {P : σ → Prop} (hi : ∀ s, M.init s → P s)
    (hstep : ∀ s a s', P s → guard s a → M.step s a = some s' → P s') {s : σ}
    (h : M.Reach guard s) :
  P s
  := by
  induction h with
  | init h => apply hi _ h
  | step _ hg hs ih => apply hstep _ _ _ ih hg hs

/-- Weakening the guard on the states reached keeps them. -/
theorem Reach.mono {guard' : σ → α → Prop} (hg : ∀ s a, M.Reach guard s → guard s a → guard' s a)
    {s : σ} (h : M.Reach guard s) :
  M.Reach guard' s
  := by
  induction h with
  | init h => apply Reach.init h
  | step hr hga hs ih => apply Reach.step ih (hg _ _ hr hga) hs

/-! ### Runs given by their actions -/

/-- The state a list of actions leads to. -/
def run (M : Machine σ α) : σ → List α → Option σ
  | s, [] => some s
  | s, a :: as => (M.step s a).bind fun s' => run M s' as

/-- Every step of the run given by a list of actions satisfies `guard`. -/
def Along (M : Machine σ α) (guard : σ → α → Prop) : σ → List α → Prop
  | _, [] => True
  | s, a :: as => guard s a ∧ ∀ s' ∈ M.step s a, Along M guard s' as

instance Along.decidable [∀ s a, Decidable (guard s a)] :
    ∀ s as, Decidable (M.Along guard s as)
  | _, [] => inferInstanceAs (Decidable True)
  | s, a :: as =>
      have : ∀ s', Decidable (M.Along guard s' as) := fun s' => Along.decidable s' as
      inferInstanceAs (Decidable (guard s a ∧ ∀ s' ∈ M.step s a, M.Along guard s' as))

/-- A run from a state reached reaches its last state. -/
theorem Reach.run {s s' : σ} (h : M.Reach guard s) (as : List α) :
  M.Along guard s as → M.run s as = some s' → M.Reach guard s'
  := by
  induction as generalizing s with
  | nil =>
    intro _ hr
    obtain rfl := Option.some.inj hr
    apply h
  | cons a as ih =>
    rintro ⟨hg, hrest⟩ hr
    obtain ⟨t, ht, hr⟩ := Option.bind_eq_some_iff.mp hr
    apply ih (h.step hg ht) (hrest t ht) hr

/-- A run can be continued by a step. -/
theorem run_snoc {s s' s'' : σ} {as : List α} {a : α} (h : M.run s as = some s')
    (hs : M.step s' a = some s'') :
  M.run s (as ++ [a]) = some s''
  := by
  induction as generalizing s with
  | nil =>
    obtain rfl := Option.some.inj h
    simp only [List.nil_append, run, hs, Option.bind_some]
  | cons b bs ih =>
    obtain ⟨t, ht, h⟩ := Option.bind_eq_some_iff.mp h
    simp only [List.cons_append, run, ht, Option.bind_some]
    apply ih h

/-- A run that satisfies `guard` can be continued by a step that does. -/
theorem Along.snoc {s s' : σ} {as : List α} {a : α} (h : M.Along guard s as)
    (hrun : M.run s as = some s') (ha : guard s' a) :
  M.Along guard s (as ++ [a])
  := by
  induction as generalizing s with
  | nil =>
    obtain rfl := Option.some.inj hrun
    exact ⟨ha, fun _ _ => trivial⟩
  | cons b bs ih =>
    obtain ⟨hb, hr⟩ := h
    obtain ⟨t, ht, hrun⟩ := Option.bind_eq_some_iff.mp hrun
    refine ⟨hb, fun t' ht' => ?_⟩
    obtain rfl : t = t' := Option.some.inj (ht.symm.trans ht')
    apply ih (hr t ht) hrun

/-- When every action is possible in every state, so is every list of actions. -/
theorem exists_run (hstep : ∀ s a, ∃ s', M.step s a = some s') (s : σ) (as : List α) :
  ∃ s', M.run s as = some s'
  := by
  induction as generalizing s with
  | nil => exact ⟨s, rfl⟩
  | cons a as ih =>
    obtain ⟨t, ht⟩ := hstep s a
    obtain ⟨s', hs'⟩ := ih t
    use s'
    rw [run, ht, Option.bind_some, hs']

/-- Two guards hold along the same runs, when they hold of the same steps as long as they
have held, and an invariant holds as long as one of them does. -/
theorem along_iff_along {guard' : σ → α → Prop} {P : σ → Prop}
    (hs : ∀ s a s', P s → M.step s a = some s' → (guard s a ↔ guard' s a) ∧ (guard s a → P s'))
    {s s' : σ} (h : P s) (as : List α) (hrun : M.run s as = some s') :
  M.Along guard s as ↔ M.Along guard' s as
  := by
  induction as generalizing s with
  | nil => rfl
  | cons a as ih =>
    obtain ⟨t, ht, hrun⟩ := Option.bind_eq_some_iff.mp hrun
    obtain ⟨hiff, hP⟩ := hs s a t h ht
    simp only [Along, ht, Option.mem_def, Option.some.injEq, forall_eq']
    rw [← hiff]
    apply and_congr_right
    intro hg
    apply ih (hP hg) hrun

end Machine

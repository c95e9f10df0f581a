import Contextd.Machine
import Mathlib.Data.Nat.Init

/-!
# Infinite executions

An execution of a machine is an infinite sequence of states and actions.  Some of the actions are
ticks of a clock.  When the clock ticks again and again, a property that can hold for a bounded
number of ticks only is left at some time (`leadsTo_of_clock`).  Executions are put together from a
finite run and what follows it (`exists_append`).
-/

universe u v

namespace Machine

variable {σ : Type u} {α : Type v} {M : Machine σ α} {guard : σ → α → Prop}

/-- An infinite sequence of steps that satisfy `guard`. -/
structure Execution (M : Machine σ α) (guard : σ → α → Prop) where
  state : ℕ → σ
  action : ℕ → α
  guarded : ∀ i, guard (state i) (action i)
  step : ∀ i, M.step (state i) (action i) = some (state (i + 1))

namespace Execution

/-- The times at which a property holds have no end. -/
def Forever (P : ℕ → Prop) : Prop := ∀ i, ∃ j, i ≤ j ∧ P j

/-- The states of an execution that starts in an initial state are reached. -/
theorem reach (E : M.Execution guard) (hi : M.init (E.state 0)) (i : ℕ) :
  M.Reach guard (E.state i)
  := by
  induction i with
  | zero => apply Reach.init hi
  | succ i ih => apply ih.step (E.guarded i) (E.step i)

/-- After every state with `P` there comes one with `Q`. -/
def LeadsTo (E : M.Execution guard) (P Q : σ → Prop) : Prop :=
  ∀ i, P (E.state i) → ∃ j, i ≤ j ∧ Q (E.state j)

theorem LeadsTo.trans {E : M.Execution guard} {P Q R : σ → Prop} (h : E.LeadsTo P Q)
    (h' : E.LeadsTo Q R) :
  E.LeadsTo P R
  := by
  intro i hi
  obtain ⟨j, hij, hj⟩ := h i hi
  obtain ⟨k, hjk, hk⟩ := h' j hj
  exact ⟨k, Nat.le_trans hij hjk, hk⟩

theorem LeadsTo.refl (E : M.Execution guard) (P : σ → Prop) :
  E.LeadsTo P P
  := fun i hi => ⟨i, Nat.le_refl i, hi⟩

theorem LeadsTo.or {E : M.Execution guard} {P P' Q : σ → Prop} (h : E.LeadsTo P Q)
    (h' : E.LeadsTo P' Q) :
  E.LeadsTo (fun s => P s ∨ P' s) Q
  := fun i hi => hi.elim (h i) (h' i)

/-- A property that a step can only leave for `Q`, and under which the clock, which no step
sets back, cannot tick beyond a bound, leads to `Q`. -/
theorem leadsTo_of_clock (E : M.Execution guard) {P Q : σ → Prop} {tick : α}
    (clock : σ → ℕ) (bound : ℕ)
    (htk : Forever fun i => E.action i = tick)
    (hbound : ∀ i, P (E.state i) → E.action i = tick → clock (E.state i) < bound)
    (hs : ∀ i, P (E.state i) → Q (E.state (i + 1)) ∨
      P (E.state (i + 1)) ∧ clock (E.state i) ≤ clock (E.state (i + 1)) ∧
        (E.action i = tick → clock (E.state i) < clock (E.state (i + 1)))) :
  E.LeadsTo P Q
  := by
  intro i hi
  by_contra hnev
  push Not at hnev
  have hkeep : ∀ j k, i ≤ j → j ≤ k → P (E.state j) →
      P (E.state k) ∧ clock (E.state j) ≤ clock (E.state k) := by
    intro j k hij hjk hP
    induction k, hjk using Nat.le_induction with
    | base => exact ⟨hP, Nat.le_refl _⟩
    | succ k hjk ih =>
      rcases hs k ih.1 with hQ | ⟨hP', hle, -⟩
      · apply absurd hQ (hnev _ (by omega))
      · exact ⟨hP', Nat.le_trans ih.2 hle⟩
  have hrch : ∀ n, ∃ j, i ≤ j ∧ P (E.state j) ∧ n ≤ clock (E.state j) := by
    intro n
    induction n with
    | zero => exact ⟨i, Nat.le_refl i, hi, Nat.zero_le _⟩
    | succ n ih =>
      obtain ⟨j, hij, hP, hn⟩ := ih
      obtain ⟨k, hjk, htick⟩ := htk j
      obtain ⟨hP', hle⟩ := hkeep j k hij hjk hP
      rcases hs k hP' with hQ | ⟨hP'', -, hlt⟩
      · apply absurd hQ (hnev _ (by omega))
      · refine ⟨k + 1, by omega, hP'', ?_⟩
        have := hlt htick
        omega
  obtain ⟨j, hij, hP, hj⟩ := hrch bound
  obtain ⟨k, hjk, htick⟩ := htk j
  obtain ⟨hP', hle⟩ := hkeep j k hij hjk hP
  have := hbound k hP' htick
  omega

/-! ### Executions from finite runs -/

/-- The execution that starts with one more step. -/
def cons (E : M.Execution guard) (s : σ) (a : α) (hg : guard s a)
    (hs : M.step s a = some (E.state 0)) : M.Execution guard where
  state
    | 0 => s
    | i + 1 => E.state i
  action
    | 0 => a
    | i + 1 => E.action i
  guarded
    | 0 => hg
    | i + 1 => E.guarded i
  step
    | 0 => hs
    | i + 1 => E.step i

/-- An execution of one action alone. -/
def constant (state : ℕ → σ) (a : α) (hg : ∀ i, guard (state i) a)
    (hs : ∀ i, M.step (state i) a = some (state (i + 1))) : M.Execution guard where
  state := state
  action _ := a
  guarded := hg
  step := hs

/-- An execution satisfies every weaker guard. -/
def mono {guard' : σ → α → Prop} (E : M.Execution guard)
    (hg : ∀ s a, guard s a → guard' s a) : M.Execution guard' where
  state := E.state
  action := E.action
  guarded i := hg _ _ (E.guarded i)
  step := E.step

/-- The times from one on have no end. -/
theorem forever_of_le {P : ℕ → Prop} {n : ℕ} (h : ∀ i, P (n + i)) :
  Forever P
  := by
  intro i
  exact ⟨n + i, by omega, h i⟩

theorem along_of_forall {s : σ} {as : List α} (h : ∀ a ∈ as, ∀ s, guard s a) :
  M.Along guard s as
  := by
  induction as generalizing s with
  | nil => trivial
  | cons a as ih =>
    rw [List.forall_mem_cons] at h
    exact ⟨h.1 s, fun s' _ => ih h.2⟩

/-- An action that leads from each state of a sequence to the next can be repeated. -/
theorem run_replicate {f : ℕ → σ} {a : α} (hs : ∀ i, M.step (f i) a = some (f (i + 1))) (k n : ℕ) :
  M.run (f k) (List.replicate n a) = some (f (k + n))
  := by
  induction n generalizing k with
  | zero => rfl
  | succ n ih =>
    rw [List.replicate_succ, run, hs, Option.bind_some, ih]
    congr 2
    omega

theorem along_replicate {f : ℕ → σ} {a : α} (hstep : ∀ i, M.step (f i) a = some (f (i + 1)))
    {k n : ℕ} (hg : ∀ i, i < k + n → guard (f i) a) :
  M.Along guard (f k) (List.replicate n a)
  := by
  induction n generalizing k with
  | zero => trivial
  | succ n ih =>
    refine ⟨hg k (by omega), fun s' hs' => ?_⟩
    have hs' : f (k + 1) = s' := Option.some.inj ((hstep k).symm.trans hs')
    rw [← hs']
    apply ih
    intro i hi
    apply hg i
    omega

/-- From time `n` on, the first execution is the second. -/
def From (E' : M.Execution guard) (n : ℕ) (E : M.Execution guard) : Prop :=
  ∀ i, E'.state (n + i) = E.state i ∧ E'.action (n + i) = E.action i

theorem From.trans {E E' E'' : M.Execution guard} {m n : ℕ} (h : E''.From n E') (h' : E'.From m E) :
  E''.From (n + m) E
  := by
  intro i
  rw [Nat.add_assoc, (h _).1, (h _).2]
  apply h' i

/-- A finite run can be put before an execution. -/
theorem exists_append (E : M.Execution guard) {s : σ} (as : List α)
    (halong : M.Along guard s as) (hrun : M.run s as = some (E.state 0)) :
  ∃ E' : M.Execution guard, E'.state 0 = s ∧ E'.From as.length E
  := by
  induction as generalizing s with
  | nil =>
    refine ⟨E, (Option.some.inj hrun).symm, fun i => ?_⟩
    simp
  | cons a as ih =>
    obtain ⟨hg, halong⟩ := halong
    obtain ⟨s', hs, hrun⟩ := Option.bind_eq_some_iff.mp hrun
    obtain ⟨E', h0, hfrom⟩ := ih (halong s' hs) hrun
    refine ⟨E'.cons s a hg (by rw [hs, h0]), rfl, fun i => ?_⟩
    have hlen : (a :: as).length + i = as.length + i + 1 := by
      rw [List.length_cons]
      omega
    rw [hlen]
    apply hfrom i

end Execution

end Machine

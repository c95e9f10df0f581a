import Mathlib.Data.List.Basic
import Mathlib.Data.Multiset.ZeroCons

/-!
# Counting semaphores with a wait list

A semaphore has a count and the queue of the tasks asleep on it.  A release hands the token to the
first task of the queue when there is one, and raises the count otherwise, so the count is `0` as
long as a task is queued (`Semaphore.asleep`).  A task that was handed a token stays in `woken`
until it returns from its wait.

`Semaphore.tokens` counts the tokens, the handed ones included, and `Semaphore.waiters` are the
tasks that are in a wait, asleep or woken.
-/

/-- A semaphore: its count, the tasks asleep on it, first come first, and the tasks that
were handed a token and have not returned yet. -/
structure Semaphore (τ : Type) where
  count : ℕ
  waitList : List τ
  woken : List τ
  asleep : waitList ≠ [] → count = 0

namespace Semaphore

open List

variable {τ : Type}

/-- A semaphore with `n` tokens and nobody waiting. -/
def ofCount (n : ℕ) : Semaphore τ where
  count := n
  waitList := []
  woken := []
  asleep h := absurd rfl h

/-- The number of tokens, those handed to a woken task included. -/
def tokens (s : Semaphore τ) : ℕ := s.count + s.woken.length

/-- Take a token if the count is positive. -/
def take (s : Semaphore τ) : Option (Semaphore τ) :=
  if 0 < s.count then
    some
      { s with
        count := s.count - 1
        asleep := fun h => by rw [s.asleep h] }
  else none

/-- Queue a task, when the count is `0`. -/
def sleep (s : Semaphore τ) (t : τ) : Option (Semaphore τ) :=
  if h : s.count = 0 then
    some { s with waitList := s.waitList ++ [t], asleep := fun _ => h }
  else none

/-- Release a token: hand it to the first task of the queue, or raise the count. -/
def up (s : Semaphore τ) : Semaphore τ :=
  match h : s.waitList with
  | [] => { s with count := s.count + 1, asleep := fun h' => absurd h h' }
  | t :: ts =>
      { s with
        waitList := ts
        woken := s.woken ++ [t]
        asleep := fun _ => s.asleep (by simp [h]) }

variable [DecidableEq τ]

/-- A woken task returns from its wait with the token it was handed. -/
def wake (s : Semaphore τ) (t : τ) : Option (Semaphore τ) :=
  if t ∈ s.woken then some { s with woken := s.woken.erase t } else none

/-- A queued task leaves the queue without a token. -/
def giveUp (s : Semaphore τ) (t : τ) : Option (Semaphore τ) :=
  if t ∈ s.waitList then
    some
      { s with
        waitList := s.waitList.erase t
        asleep := fun h => s.asleep (fun h' => h (by simp [h'])) }
  else none

/-! ### Tokens -/

omit [DecidableEq τ] in
/-- Taking a token removes one. -/
theorem tokens_take {s s' : Semaphore τ} (h : s.take = some s') :
  s.tokens = s'.tokens + 1
  := by
  simp only [take, Option.ite_none_right_eq_some, Option.some.injEq] at h
  obtain ⟨hpos, rfl⟩ := h
  simp only [tokens]
  omega

omit [DecidableEq τ] in
/-- A token can be taken where the count is positive. -/
theorem take_of_pos {s : Semaphore τ} (h : 0 < s.count) :
  ∃ s', s.take = some s'
  := by
  simp [take, h]

omit [DecidableEq τ] in
/-- Where no token can be taken, a task can be queued. -/
theorem sleep_of_take {s : Semaphore τ} (h : s.take = none) (t : τ) :
  ∃ s', s.sleep t = some s'
  := by
  have hcount : s.count = 0 := by simpa [take] using h
  simp [sleep, hcount]

omit [DecidableEq τ] in
/-- Queueing a task keeps the tokens. -/
theorem tokens_sleep {s s' : Semaphore τ} {t : τ} (h : s.sleep t = some s') :
  s'.tokens = s.tokens
  := by
  simp only [sleep, Option.dite_none_right_eq_some, Option.some.injEq] at h
  obtain ⟨-, rfl⟩ := h
  rfl

omit [DecidableEq τ] in
/-- Releasing adds a token. -/
@[simp]
theorem tokens_up (s : Semaphore τ) :
  s.up.tokens = s.tokens + 1
  := by
  unfold up
  split
  · simp only [tokens]
    omega
  · simp only [tokens, length_append, length_singleton]
    omega

/-- Returning from a wait removes the token the task was handed. -/
theorem tokens_wake {s s' : Semaphore τ} {t : τ} (h : s.wake t = some s') :
  s.tokens = s'.tokens + 1
  := by
  simp only [wake, Option.ite_none_right_eq_some, Option.some.injEq] at h
  obtain ⟨hm, rfl⟩ := h
  have hpos := length_pos_of_mem hm
  simp only [tokens, length_erase_of_mem hm]
  omega

/-- Leaving the queue keeps the tokens. -/
theorem tokens_giveUp {s s' : Semaphore τ} {t : τ} (h : s.giveUp t = some s') :
  s'.tokens = s.tokens
  := by
  simp only [giveUp, Option.ite_none_right_eq_some, Option.some.injEq] at h
  obtain ⟨-, rfl⟩ := h
  rfl

omit [DecidableEq τ] in
/-- The count is among the tokens. -/
theorem count_le_tokens (s : Semaphore τ) :
  s.count ≤ s.tokens
  := Nat.le_add_right _ _

/-! ### Waiting tasks -/

/-- The tasks that are in a wait: asleep, or woken and not yet returned. -/
def waiters (s : Semaphore τ) : Multiset τ := ↑(s.waitList ++ s.woken)

omit [DecidableEq τ] in
theorem waiters_take {s s' : Semaphore τ} (h : s.take = some s') :
  s'.waiters = s.waiters
  := by
  simp only [take, Option.ite_none_right_eq_some, Option.some.injEq] at h
  obtain ⟨-, rfl⟩ := h
  rfl

omit [DecidableEq τ] in
theorem waiters_sleep {s s' : Semaphore τ} {t : τ} (h : s.sleep t = some s') :
  s'.waiters = t ::ₘ s.waiters
  := by
  simp only [sleep, Option.dite_none_right_eq_some, Option.some.injEq] at h
  obtain ⟨-, rfl⟩ := h
  simp only [waiters, Multiset.cons_coe, Multiset.coe_eq_coe, append_assoc]
  apply perm_middle

omit [DecidableEq τ] in
/-- A release wakes a task, which stays in its wait. -/
@[simp]
theorem waiters_up (s : Semaphore τ) :
  s.up.waiters = s.waiters
  := by
  unfold up
  split
  · rfl
  · rename_i t ts h
    simp only [waiters, h, Multiset.coe_eq_coe]
    rw [← append_assoc]
    apply perm_append_singleton

omit [DecidableEq τ] in
/-- A release puts nobody to sleep. -/
theorem mem_waitList_of_up {s : Semaphore τ} {t : τ} (h : t ∈ s.up.waitList) :
  t ∈ s.waitList
  := by
  unfold up at h
  split at h
  · exact h
  · rename_i u us hus
    rw [hus]
    apply mem_cons_of_mem u h

theorem waiters_wake {s s' : Semaphore τ} {t : τ} (h : s.wake t = some s') :
  s.waiters = t ::ₘ s'.waiters
  := by
  simp only [wake, Option.ite_none_right_eq_some, Option.some.injEq] at h
  obtain ⟨hm, rfl⟩ := h
  simp only [waiters, Multiset.cons_coe, Multiset.coe_eq_coe]
  apply ((perm_cons_erase hm).append_left s.waitList).trans
  apply perm_middle

omit [DecidableEq τ] in
/-- The one task in a wait is woken when there is a token. -/
theorem mem_woken {s : Semaphore τ} {t : τ} (h : s.waiters = {t}) (ht : 0 < s.tokens) :
  t ∈ s.woken
  := by
  have hlist : s.waitList ++ s.woken = [t] := by
    rwa [waiters, Multiset.coe_eq_singleton] at h
  rcases append_eq_singleton_iff.mp hlist with ⟨-, hwoken⟩ | ⟨hwait, hwoken⟩
  · simp [hwoken]
  · have hcount : s.count = 0 := s.asleep (by simp [hwait])
    simp [tokens, hcount, hwoken] at ht

end Semaphore

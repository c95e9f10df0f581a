import Mathlib.Data.Finset.Basic
import Mathlib.Logic.Function.Basic

/-!
# Read-write locks

A read-write lock is held by any number of readers, or by one writer and no reader
(`ReadWriteLock.exclusive`).  `ReadWriteLock.held` is what each task holds, and every
operation updates it at the task that runs the operation, so that a program is shown to use
the lock properly by comparing `held` with its program counters.

Tasks that wait are not recorded: an attempt that has to wait is not possible yet.
-/

/-- A lock, with the tasks that hold it for reading and the one that holds it for writing. -/
structure ReadWriteLock (τ : Type) where
  readers : Finset τ
  writer : Option τ
  exclusive : writer = none ∨ readers = ∅

/-- What a task holds. -/
inductive Hold where
  | nothing
  | read
  | write
  deriving DecidableEq, Repr

namespace ReadWriteLock

variable {τ : Type} [DecidableEq τ] {l l' : ReadWriteLock τ} {t u : τ}

/-- The lock that nobody holds. -/
def free : ReadWriteLock τ where
  readers := ∅
  writer := none
  exclusive := .inl rfl

/-- Take the lock for reading, when there is no writer. -/
def lockForRead (l : ReadWriteLock τ) (t : τ) : Option (ReadWriteLock τ) :=
  if l.writer = none then some ⟨insert t l.readers, none, .inl rfl⟩ else none

/-- Take the lock for writing, when nobody holds it. -/
def lockForWrite (l : ReadWriteLock τ) (t : τ) : Option (ReadWriteLock τ) :=
  if l.writer = none ∧ l.readers = ∅ then some ⟨∅, some t, .inr rfl⟩ else none

/-- Release the lock. -/
def unlock (l : ReadWriteLock τ) (t : τ) : ReadWriteLock τ where
  readers := l.readers.erase t
  writer := if l.writer = some t then none else l.writer
  exclusive := by
    rcases l.exclusive with h | h
    · left
      simp [h]
    · right
      simp [h]

/-- What a task holds of the lock. -/
def held (l : ReadWriteLock τ) (t : τ) : Hold :=
  if l.writer = some t then .write else if t ∈ l.readers then .read else .nothing

/-- Nobody holds the free lock. -/
@[simp]
theorem held_free :
  (free : ReadWriteLock τ).held t = .nothing
  := by
  simp [held, free]

/-- A task holds nothing beside a writer. -/
theorem held_eq_nothing (h : l.held t = .write) (hne : u ≠ t) :
  l.held u = .nothing
  := by
  have hwr : l.writer = some t := by
    by_contra hwr
    unfold held at h
    rw [if_neg hwr] at h
    split_ifs at h
  have hrds : l.readers = ∅ := by
    rcases l.exclusive with hn | hemp
    · cases hn.symm.trans hwr
    · apply hemp
  simp [held, hwr, hrds, hne.symm]

/-- A task takes the lock for reading when nobody writes. -/
theorem held_lockForRead (h : l.lockForRead t = some l') :
  l'.held = Function.update l.held t .read ∧ ∀ u, l.held u ≠ .write
  := by
  unfold lockForRead at h
  split_ifs at h with hwr
  cases h
  constructor
  · funext u
    by_cases hu : u = t
    · subst hu
      simp [held]
    · simp [held, hwr, hu]
  · intro u
    unfold held
    split_ifs with hu <;> simp_all

/-- A task takes the lock for writing when nobody holds it. -/
theorem held_lockForWrite (h : l.lockForWrite t = some l') :
  l'.held = Function.update l.held t .write ∧ ∀ u, l.held u = .nothing
  := by
  unfold lockForWrite at h
  split_ifs at h with hfree
  cases h
  obtain ⟨hwr, hrds⟩ := hfree
  have hnil : ∀ u, l.held u = .nothing := by
    intro u
    simp [held, hwr, hrds]
  constructor
  · funext u
    by_cases hu : u = t
    · subst hu
      simp [held]
    · simp [held, hwr, hrds, hu, Ne.symm hu]
  · apply hnil

/-- A task that releases the lock holds nothing. -/
theorem held_unlock :
  (l.unlock t).held = Function.update l.held t .nothing
  := by
  funext u
  by_cases hu : u = t
  · subst hu
    by_cases hwr : l.writer = some u <;> simp [held, unlock, hwr]
  · by_cases hwr : l.writer = some t <;> simp [held, unlock, hwr, hu, Ne.symm hu]

end ReadWriteLock

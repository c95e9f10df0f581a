import Mathlib.Data.List.Perm.Subperm
import Mathlib.Order.Bounds.Defs

/-!
# Closure by a work list

`close next n s` scans the elements of a work list and adds the successors that were not reached yet
to the list and to the elements reached, for `n` elements at most.  When the successors are in a
finite list, the work list becomes empty, and what is reached then is the least set that is closed
under successors (`exists_close`).
-/

universe u

namespace Worklist

open List

/-- What is left to scan, and what was reached so far. -/
structure State (α : Type u) where
  toScan : List α
  reached : List α

variable {α : Type u}

/-- The elements reached are different, and all of them are in `U`. -/
structure State.Within (U : List α) (s : State α) : Prop where
  nodup : s.reached.Nodup
  subset : s.reached ⊆ U

theorem State.Within.length_le {U : List α} {s : State α} (h : s.Within U) :
  s.reached.length ≤ U.length
  := (subperm_of_subset h.nodup h.subset).length_le

/-- What has to be scanned was reached, and the successors of everything else that was
reached are reached too. -/
structure State.Scanned (next : α → List α) (s : State α) : Prop where
  toScan_subset : s.toScan ⊆ s.reached
  next_subset : ∀ x ∈ s.reached, x ∈ s.toScan ∨ next x ⊆ s.reached

/-- The sets that have given elements and are closed under successors. -/
def Closed (next : α → List α) (start : List α) : Set (Set α) :=
  {S | (∀ x ∈ start, x ∈ S) ∧ ∀ x ∈ S, ∀ y ∈ next x, y ∈ S}

/-- Once nothing is left to scan, what was reached is the least closed set. -/
theorem State.Scanned.isLeast {next : α → List α} {reached : List α}
    (h : State.Scanned next ⟨[], reached⟩) :
  IsLeast (Closed next reached) {x | x ∈ reached}
  := by
  refine ⟨⟨fun x hx => hx, fun x hx y hy => ?_⟩, fun S hS x hx => hS.1 x hx⟩
  rcases h.next_subset x hx with hs | hn
  · cases hs
  · apply hn hy

variable [DecidableEq α]

/-- An element that was not reached yet is reached, and has to be scanned. -/
def State.add (s : State α) (x : α) : State α :=
  if x ∈ s.reached then s else ⟨s.toScan ++ [x], s.reached ++ [x]⟩

/-- The elements reached once nothing is left to scan, when at most `n` elements have to be
scanned. -/
def close (next : α → List α) : ℕ → State α → Option (List α)
  | _, ⟨[], reached⟩ => some reached
  | 0, ⟨_ :: _, _⟩ => none
  | n + 1, ⟨x :: toScan, reached⟩ => close next n ((next x).foldl State.add ⟨toScan, reached⟩)

variable {s : State α} {x y : α} {xs : List α}

/-! ### Adding elements -/

theorem mem_reached_add :
  y ∈ (s.add x).reached ↔ y ∈ s.reached ∨ y = x
  := by
  rw [State.add]
  split_ifs with h
  · constructor
    · apply Or.inl
    · rintro (hy | rfl)
      · apply hy
      · apply h
  · simp

theorem mem_reached_foldl_add :
  y ∈ (xs.foldl State.add s).reached ↔ y ∈ s.reached ∨ y ∈ xs
  := by
  induction xs generalizing s with
  | nil => simp
  | cons x xs ih => rw [foldl_cons, ih, mem_reached_add, mem_cons, or_assoc]

/-- What is new has to be scanned, and what had to be scanned still has to be. -/
theorem mem_toScan_add (h : y ∈ (s.add x).reached) :
  (y ∈ s.reached ∧ (y ∈ s.toScan → y ∈ (s.add x).toScan)) ∨ y ∈ (s.add x).toScan
  := by
  rw [State.add] at h ⊢
  split_ifs at h ⊢ with hx
  · left
    exact ⟨h, id⟩
  · rcases mem_append.mp h with hy | hy
    · left
      exact ⟨hy, mem_append_left _⟩
    · right
      apply mem_append_right _ hy

theorem mem_toScan_foldl_add (h : y ∈ (xs.foldl State.add s).reached) :
  (y ∈ s.reached ∧ (y ∈ s.toScan → y ∈ (xs.foldl State.add s).toScan)) ∨
    y ∈ (xs.foldl State.add s).toScan
  := by
  induction xs generalizing s with
  | nil =>
    left
    exact ⟨h, id⟩
  | cons x xs ih =>
    rcases ih h with ⟨hy, hs⟩ | hy
    · rcases mem_toScan_add hy with ⟨hy, hadd⟩ | hadd
      · left
        exact ⟨hy, fun hm => hs (hadd hm)⟩
      · right
        apply hs hadd
    · right
      apply hy

/-- What has to be scanned had to be before, or is new. -/
theorem toScan_foldl_add (h : y ∈ (xs.foldl State.add s).toScan) :
  y ∈ s.toScan ∨ y ∈ xs
  := by
  induction xs generalizing s with
  | nil =>
    left
    apply h
  | cons x xs ih =>
    rw [mem_cons]
    rcases ih h with hy | hy
    · rw [State.add] at hy
      split_ifs at hy
      · left
        apply hy
      · rcases mem_append.mp hy with hy | hy
        · left
          apply hy
        · right
          left
          apply mem_singleton.mp hy
    · right
      right
      apply hy

/-- Adding an element adds as many to what was reached as to what is left to scan. -/
theorem State.Within.add {U : List α} (h : s.Within U) (hx : x ∈ U) :
  (s.add x).Within U ∧
    (s.add x).toScan.length + s.reached.length = s.toScan.length + (s.add x).reached.length
  := by
  rw [State.add]
  split_ifs with hm
  · exact ⟨h, rfl⟩
  · refine ⟨⟨?_, ?_⟩, ?_⟩
    · simpa [nodup_append] using ⟨h.nodup, fun y hy hxy => hm (hxy ▸ hy)⟩
    · simpa using ⟨h.subset, hx⟩
    · simp
      omega

theorem State.Within.foldl_add {U : List α} (h : s.Within U) (hxs : xs ⊆ U) :
  (xs.foldl State.add s).Within U ∧
    (xs.foldl State.add s).toScan.length + s.reached.length =
      s.toScan.length + (xs.foldl State.add s).reached.length
  := by
  induction xs generalizing s with
  | nil => exact ⟨h, rfl⟩
  | cons x xs ih =>
    rw [cons_subset] at hxs
    obtain ⟨hadd, hlen⟩ := h.add hxs.1
    obtain ⟨hf, hlen'⟩ := ih hadd hxs.2
    rw [foldl_cons]
    exact ⟨hf, by omega⟩

/-! ### The closure -/

/-- Scanning an element. -/
theorem State.Scanned.scan {next : α → List α} {toScan reached : List α}
    (h : State.Scanned next ⟨x :: toScan, reached⟩) :
  ((next x).foldl State.add ⟨toScan, reached⟩).Scanned next
  := by
  obtain ⟨hx, htoScan⟩ := cons_subset.mp h.toScan_subset
  refine ⟨?_, ?_⟩
  · intro y hy
    rw [mem_reached_foldl_add]
    apply (toScan_foldl_add hy).imp_left fun hm => htoScan hm
  · intro y hy
    rcases mem_toScan_foldl_add hy with ⟨hm, hs⟩ | hs
    · rcases h.next_subset y hm with hold | hn
      · rcases mem_cons.mp hold with rfl | hold
        · right
          intro z hz
          rw [mem_reached_foldl_add]
          right
          apply hz
        · left
          apply hs hold
      · right
        intro z hz
        rw [mem_reached_foldl_add]
        left
        apply hn hz
    · left
      apply hs

/-- A closed set that has an element has its successors. -/
theorem closed_foldl_add {next : α → List α} (hx : x ∈ s.reached) :
  Closed next ((next x).foldl State.add s).reached = Closed next s.reached
  := by
  ext S
  constructor
  · rintro ⟨hst, hcl⟩
    exact ⟨fun y hy => hst y (mem_reached_foldl_add.mpr (Or.inl hy)), hcl⟩
  · rintro ⟨hst, hcl⟩
    refine ⟨fun y hy => ?_, hcl⟩
    rcases mem_reached_foldl_add.mp hy with hy | hy
    · apply hst y hy
    · apply hcl x (hst x hx) y hy

/-- When the successors are in a finite list, the work list becomes empty, and what is
reached is the least closed set. -/
theorem exists_close {next : α → List α} {U : List α} (hnext : ∀ x, next x ⊆ U) {n : ℕ}
    (hs : s.Scanned next) (hwin : s.Within U)
    (hn : s.toScan.length + U.length ≤ n + s.reached.length) :
  ∃ reached, close next n s = some reached ∧
    IsLeast (Closed next s.reached) {x | x ∈ reached}
  := by
  induction n generalizing s with
  | zero =>
    obtain ⟨toScan, reached⟩ := s
    rcases toScan with _ | ⟨x, toScan⟩
    · exact ⟨reached, rfl, hs.isLeast⟩
    · have hle := hwin.length_le
      simp only [length_cons] at hn hle
      omega
  | succ n ih =>
    obtain ⟨toScan, reached⟩ := s
    rcases toScan with _ | ⟨x, toScan⟩
    · exact ⟨reached, rfl, hs.isLeast⟩
    · have hx : x ∈ (State.mk toScan reached).reached :=
        (cons_subset.mp hs.toScan_subset).1
      have hwin' : State.Within U ⟨toScan, reached⟩ := ⟨hwin.nodup, hwin.subset⟩
      obtain ⟨hf, hlen⟩ := hwin'.foldl_add (hnext x)
      obtain ⟨result, hcl, hlst⟩ := ih hs.scan hf (by
        simp only [length_cons] at hn hlen
        omega)
      rw [closed_foldl_add hx] at hlst
      exact ⟨result, hcl, hlst⟩

end Worklist

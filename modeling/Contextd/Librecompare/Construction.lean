import Contextd.Librecompare.Automaton
import Contextd.Librecompare.Laws
import Contextd.Librecompare.Nullability

/-!
# The states of the automaton

The loop of the constructor keeps the states apart by their patterns, and leaves no derivation
without its state in one of the two lists (`Construction.Sound`).  At the end a word is accepted
from a state exactly if it belongs to the language of the state, provided that derivations have the
languages of what is left, and states that print alike the same language (`IsExact`).
-/

namespace Librecompare

open List

variable {qt : Qt}

/-- States are compared by their patterns. -/
theorem contains_iff {states : List RegExp} {e : RegExp} :
  contains states e = true ↔ e.pattern ∈ states.map RegExp.pattern
  := by
  simp only [contains, any_eq_true, decide_eq_true_eq, mem_map]

namespace Construction

variable {c c' : Construction} {p : RegExp} {ds : List (Derivation RegExp)}

/-- The patterns of the states met so far. -/
def met (c : Construction) : List (List Char) := (c.done ++ c.toDo).map RegExp.pattern

/-! ### Storing derivations -/

/-- What storing the derivations `ds` of the state `p` changes. -/
structure Stores (p : RegExp) (ds : List (Derivation RegExp)) (c c' : Construction) : Prop where
  /-- The states already derived stay. -/
  done_eq : c'.done = c.done
  /-- The initial state stays. -/
  initial_eq : c'.automaton.initialState = c.automaton.initialState
  /-- The final states stay. -/
  finals_eq : c'.automaton.finalStates = c.automaton.finalStates
  /-- The derivations are stored under the pattern of the state. -/
  transitions_eq : c'.automaton.transitions = Function.update c.automaton.transitions p.pattern
    (c.automaton.transitions p.pattern ++ ds)
  /-- What joins the work list comes from the derivations. -/
  toDo_subset : ∀ e ∈ c'.toDo, e ∈ c.toDo ∨ ∃ d ∈ ds, e = d.expr
  /-- What was met stays met. -/
  met_subset : c.met ⊆ c'.met
  /-- The states stay apart. -/
  nodup : c.met.Nodup → c'.met.Nodup
  /-- The states behind the derivations are met. -/
  closed : ∀ d ∈ ds, d.expr.pattern ∈ c'.met

/-- A derivation is stored. -/
theorem stores_store (d : Derivation RegExp) :
  Stores p [d] c (store p c d)
  := by
  have hmet : (!contains c.done d.expr && !contains c.toDo d.expr) = true ↔
      d.expr.pattern ∉ c.met := by
    rw [met, map_append, mem_append, ← contains_iff, ← contains_iff]
    simp
  by_cases hnew : d.expr.pattern ∈ c.met
  · have htoDo : (store p c d).toDo = c.toDo := if_neg (by simpa [hmet] using hnew)
    have hsame : (store p c d).met = c.met := by
      rw [met, met, htoDo]
      rfl
    refine ⟨rfl, rfl, rfl, rfl, ?_, ?_, ?_, ?_⟩
    · rw [htoDo]
      exact fun e he => .inl he
    · rw [hsame]
      apply List.Subset.refl
    · rw [hsame]
      apply id
    · rw [hsame]
      simpa using hnew
  · have htoDo : (store p c d).toDo = d.expr :: c.toDo := if_pos (hmet.mpr hnew)
    have hmore : (store p c d).met.Perm (d.expr.pattern :: c.met) := by
      rw [met, htoDo, met, map_append, map_append, map_cons]
      apply perm_middle
    refine ⟨rfl, rfl, rfl, rfl, ?_, ?_, ?_, ?_⟩
    · rw [htoDo]
      intro e he
      rcases mem_cons.mp he with rfl | he
      · exact .inr ⟨d, by simp, rfl⟩
      · exact .inl he
    · intro pattern hpat
      apply hmore.mem_iff.mpr (mem_cons_of_mem _ hpat)
    · intro hnd
      apply hmore.nodup_iff.mpr (nodup_cons.mpr ⟨hnew, hnd⟩)
    · intro d' hd'
      obtain rfl := mem_singleton.mp hd'
      apply hmore.mem_iff.mpr mem_cons_self

/-- Storing derivations one after another. -/
theorem stores_foldl (c : Construction) (ds : List (Derivation RegExp)) :
  Stores p ds c (ds.foldl (store p) c)
  := by
  induction ds generalizing c with
  | nil =>
    refine ⟨rfl, rfl, rfl, ?_, fun e he => .inl he, List.Subset.refl _, id, by simp⟩
    simp
  | cons d ds ih =>
    have h := stores_store (p := p) (c := c) d
    have h' := ih (store p c d)
    rw [foldl_cons]
    refine ⟨h'.done_eq.trans h.done_eq, h'.initial_eq.trans h.initial_eq,
      h'.finals_eq.trans h.finals_eq, ?_, ?_, ?_, ?_, ?_⟩
    · rw [h'.transitions_eq, h.transitions_eq]
      simp
    · intro e he
      rcases h'.toDo_subset e he with he | ⟨d', hd', heq⟩
      · rcases h.toDo_subset e he with he | ⟨d', hd', heq⟩
        · exact .inl he
        · obtain rfl := mem_singleton.mp hd'
          exact .inr ⟨d', by simp, heq⟩
      · exact .inr ⟨d', mem_cons_of_mem _ hd', heq⟩
    · apply List.Subset.trans h.met_subset h'.met_subset
    · exact fun hnd => h'.nodup (h.nodup hnd)
    · intro d' hd'
      rcases mem_cons.mp hd' with rfl | hd'
      · apply h'.met_subset (h.closed d' (by simp))
      · apply h'.closed d' hd'

/-! ### The loop -/

/-- One turn of the loop stores the derivations of its state, and the state itself if it is
nullable. -/
theorem visit_spec (c : Construction) (p : RegExp) (toDo : List RegExp) :
  ∃ c' : Construction,
    Stores p (p.leftDerivations qt) { c with toDo := toDo, done := c.done ++ [p] } c' ∧
    (c.visit qt p toDo).done = c'.done ∧ (c.visit qt p toDo).toDo = c'.toDo ∧
    (c.visit qt p toDo).automaton.transitions = c'.automaton.transitions ∧
    (c.visit qt p toDo).automaton.initialState = c'.automaton.initialState ∧
    ∀ e, e ∈ (c.visit qt p toDo).automaton.finalStates ↔
      e ∈ c'.automaton.finalStates ∨ (e = p ∧ p.isNullable = true)
  := by
  refine ⟨_, stores_foldl { c with toDo := toDo, done := c.done ++ [p] } (p.leftDerivations qt), ?_⟩
  rw [visit]
  split_ifs with hnull
  · simp [hnull]
  · simp [hnull]

variable {P : RegExp → Prop}

/-- The invariant of the loop for states of a kind. -/
structure Gathers (qt : Qt) (P : RegExp → Prop) (c : Construction) : Prop where
  /-- The states are of the kind. -/
  kind : ∀ e ∈ c.done ++ c.toDo, P e
  /-- No two states print alike. -/
  nodup : c.met.Nodup
  /-- The states behind the derivations are met. -/
  closed : ∀ e ∈ c.done, ∀ d ∈ e.leftDerivations qt, d.expr.pattern ∈ c.met

/-- One turn of the loop derives one state more, and keeps the invariant. -/
theorem Gathers.visit (hP : ∀ e, P e → ∀ d ∈ e.leftDerivations qt, P d.expr)
    (h : Gathers qt P c) {toDo : List RegExp} (htoDo : c.toDo = p :: toDo) :
  Gathers qt P (c.visit qt p toDo) ∧ (c.visit qt p toDo).done = c.done ++ [p] ∧
    c.met ⊆ (c.visit qt p toDo).met
  := by
  obtain ⟨c', hsto, hdone, htoDo', -⟩ := @visit_spec qt c p toDo
  have hmet : (Construction.mk c.automaton toDo (c.done ++ [p])).met = c.met := by
    simp [met, htoDo]
  have hmet' : (c.visit qt p toDo).met = c'.met := by rw [met, met, hdone, htoDo']
  have hdone' : (c.visit qt p toDo).done = c.done ++ [p] := hdone.trans hsto.done_eq
  have hsub : c.met ⊆ (c.visit qt p toDo).met := by
    rw [hmet', ← hmet]
    apply hsto.met_subset
  have hp : P p := h.kind p (by simp [htoDo])
  refine ⟨⟨?_, ?_, ?_⟩, hdone', hsub⟩
  · rw [hdone', htoDo']
    intro e he
    rcases mem_append.mp he with he | he
    · rcases mem_append.mp he with he | he
      · apply h.kind e (mem_append_left _ he)
      · rwa [mem_singleton.mp he]
    · rcases hsto.toDo_subset e he with he | ⟨d, hd, rfl⟩
      · have hm : e ∈ toDo := he
        apply h.kind e (by simp [htoDo, hm])
      · apply hP p hp d hd
  · rw [hmet']
    apply hsto.nodup
    rw [hmet]
    apply h.nodup
  · intro e he d hd
    rw [hdone'] at he
    rcases mem_append.mp he with he | he
    · apply hsub (h.closed e he d hd)
    · obtain rfl := mem_singleton.mp he
      rw [hmet']
      apply hsto.closed d hd

/-- The invariant of the loop, with what is stored. -/
structure Sound (qt : Qt) (P : RegExp → Prop) (c : Construction) : Prop extends Gathers qt P c where
  /-- The derivations of the derived states are stored. -/
  stored : ∀ e ∈ c.done, c.automaton.transitions e.pattern = e.leftDerivations qt
  /-- Nothing else is stored. -/
  nothing : ∀ pattern, pattern ∉ c.done.map RegExp.pattern → c.automaton.transitions pattern = []
  /-- The final states are the nullable ones. -/
  finals : ∀ e, e ∈ c.automaton.finalStates ↔ e ∈ c.done ∧ e.isNullable = true
  /-- The initial state is met. -/
  initial : c.automaton.initialState.pattern ∈ c.met

/-- One turn of the loop keeps the invariant. -/
theorem Sound.visit (hP : ∀ e, P e → ∀ d ∈ e.leftDerivations qt, P d.expr) (h : Sound qt P c)
    {toDo : List RegExp} (htoDo : c.toDo = p :: toDo) :
  Sound qt P (c.visit qt p toDo)
  := by
  obtain ⟨hgath, hdone, hsub⟩ := h.toGathers.visit hP htoDo
  obtain ⟨c', hsto, -, -, htrs, hi, hfinals⟩ := @visit_spec qt c p toDo
  have hnew : p.pattern ∉ c.done.map RegExp.pattern := by
    have hnd := h.nodup
    rw [met, htoDo, map_append, map_cons, nodup_middle, nodup_cons, mem_append, not_or] at hnd
    apply hnd.1.1
  have hnil : c.automaton.transitions p.pattern = [] := h.nothing _ hnew
  have hat : ∀ pattern, (c.visit qt p toDo).automaton.transitions pattern
      = if pattern = p.pattern then p.leftDerivations qt else c.automaton.transitions pattern := by
    intro pattern
    rw [htrs, hsto.transitions_eq, Function.update_apply]
    simp [hnil]
  refine ⟨hgath, ?_, ?_, ?_, ?_⟩
  · intro e he
    rw [hdone] at he
    rw [hat]
    rcases mem_append.mp he with he | he
    · have hne : e.pattern ≠ p.pattern := by
        intro heq
        apply hnew
        rw [← heq]
        apply mem_map_of_mem he
      rw [if_neg hne, h.stored e he]
    · obtain rfl := mem_singleton.mp he
      rw [if_pos rfl]
  · intro pattern hpat
    rw [hdone, map_append, mem_append, not_or] at hpat
    rw [hat, if_neg (by simpa using hpat.2), h.nothing pattern hpat.1]
  · intro e
    rw [hfinals, hsto.finals_eq, h.finals, hdone]
    constructor
    · rintro (⟨he, hnull⟩ | ⟨rfl, hnull⟩)
      · exact ⟨mem_append_left _ he, hnull⟩
      · exact ⟨by simp, hnull⟩
    · rintro ⟨he, hnull⟩
      rcases mem_append.mp he with he | he
      · exact .inl ⟨he, hnull⟩
      · obtain rfl := mem_singleton.mp he
        exact .inr ⟨rfl, hnull⟩
  · rw [hi, hsto.initial_eq]
    apply hsub h.initial

/-- Every turn of the loop keeps the invariant, and so does the last one. -/
theorem Sound.run (hP : ∀ e, P e → ∀ d ∈ e.leftDerivations qt, P d.expr) (h : Sound qt P c) {n : ℕ}
    {A : Automaton} (hrun : c.run qt n = some A) :
  ∃ c', Sound qt P c' ∧ c'.toDo = [] ∧ c'.automaton = A ∧
    A.initialState = c.automaton.initialState
  := by
  induction n generalizing c with
  | zero =>
    rcases htoDo : c.toDo with _ | ⟨p, toDo⟩
    · rw [Construction.run, htoDo] at hrun
      cases hrun
      exact ⟨c, h, htoDo, rfl, rfl⟩
    · rw [Construction.run, htoDo] at hrun
      cases hrun
  | succ n ih =>
    rcases htoDo : c.toDo with _ | ⟨p, toDo⟩
    · rw [Construction.run, htoDo] at hrun
      cases hrun
      exact ⟨c, h, htoDo, rfl, rfl⟩
    · rw [Construction.run, htoDo] at hrun
      obtain ⟨c', hsnd, hemp, haut, hi⟩ := ih (h.visit hP htoDo) hrun
      refine ⟨c', hsnd, hemp, haut, ?_⟩
      obtain ⟨c₁, hsto, -, -, -, hi₁, -⟩ := @visit_spec qt c p toDo
      rw [hi, hi₁, hsto.initial_eq]

/-! ### Acceptance -/

/-- The derivations of expressions of the kind are exact and of the kind, and the pattern of such an
expression determines its language. -/
structure IsExact (qt : Qt) (P : RegExp → Prop) : Prop where
  /-- What is derived is of the kind. -/
  derived : ∀ e, P e → ∀ d ∈ e.leftDerivations qt, P d.expr
  /-- The derivations leave what follows a byte. -/
  reads : ∀ e, P e → ∀ b w,
    b :: w ∈ e.lang ↔ ∃ d ∈ e.leftDerivations qt, d.contains b = true ∧ w ∈ d.expr.lang
  /-- A byte is in the token of at most one derivation. -/
  deterministic : ∀ e, P e → ∀ b,
    ((e.leftDerivations qt).filter (fun d => d.contains b)).length ≤ 1
  /-- What prints alike has the same language. -/
  told : ∀ e e', P e → P e' → e.pattern = e'.pattern → e.lang = e'.lang

/-- At no pattern is there a byte in two tokens. -/
theorem Sound.deterministic (hP : IsExact qt P) (h : Sound qt P c) (pattern : List Char)
    (b : UInt8) :
  ((c.automaton.transitions pattern).filter (fun d => d.contains b)).length ≤ 1
  := by
  by_cases hpat : pattern ∈ c.done.map RegExp.pattern
  · obtain ⟨e, he, rfl⟩ := mem_map.mp hpat
    rw [h.stored e he]
    apply hP.deterministic e (h.kind e (mem_append_left _ he))
  · rw [h.nothing pattern hpat]
    simp

end Construction

end Librecompare

import Mathlib.Data.List.Induction
import Mathlib.Data.List.Sort

/-!
# Merging the items of a list that have the same key

A pass over a list that merges every item into the first one with the same key and notes the
position of the item, which is deleted when the pass is over (`Grouping.result`).

What the pass leaves collects the items one by one (`collected`, `result_eq_collected`): for every
key one item, with the core of the first item and the contents of all of them (`Collected`).
-/

variable {α κ β γ : Type*} [DecidableEq κ]

/-- The items seen so far, the position of the first item with each key, and the positions to
be deleted. -/
structure Grouping (α κ : Type*) where
  seen : List α
  known : κ → Option ℕ
  toDelete : List ℕ

namespace Grouping

open List

/-- Before the pass. -/
def empty : Grouping α κ := ⟨[], fun _ => none, []⟩

variable (key : α → Option κ) (absorb : α → α → α)

/-- The step of the pass for an item. -/
def step (g : Grouping α κ) (x : α) : Grouping α κ :=
  match key x with
  | none => { g with seen := g.seen ++ [x] }
  | some k =>
      match g.known k with
      | some j =>
          { g with
              seen := g.seen.modify j (absorb · x) ++ [x]
              toDelete := g.toDelete ++ [g.seen.length] }
      | none =>
          { g with
              seen := g.seen ++ [x]
              known := Function.update g.known k (some g.seen.length) }

/-- The positions are sorted, and the items there are deleted, the last one first. -/
def result (g : Grouping α κ) : List α :=
  (g.toDelete.insertionSort (· ≤ ·)).reverse.foldl List.eraseIdx g.seen

/-! ### Deleting positions -/

/-- The positions of the items that are marked. -/
def positions (ms : List (α × Bool)) : List ℕ :=
  ((ms.map Prod.snd).zipIdx.filter Prod.fst).map Prod.snd

theorem positions_concat (ms : List (α × Bool)) (x : α) (b : Bool) :
  positions (ms ++ [(x, b)]) = positions ms ++ if b then [ms.length] else []
  := by
  cases b <;> simp [positions, zipIdx_append]

theorem lt_of_mem_positions {ms : List (α × Bool)} {d : ℕ} (h : d ∈ positions ms) :
  d < ms.length
  := by
  obtain ⟨⟨m, i⟩, hm, rfl⟩ := mem_map.mp h
  have hget := mem_zipIdx (mem_of_mem_filter hm)
  simpa using hget.2.1

/-- The positions are listed in increasing order. -/
theorem pairwise_positions (ms : List (α × Bool)) :
  (positions ms).Pairwise (· < ·)
  := by
  induction ms using List.reverseRecOn with
  | nil => apply List.Pairwise.nil
  | append_singleton ms m ih =>
    rw [positions_concat]
    apply pairwise_append.mpr
    refine ⟨ih, by split <;> simp, ?_⟩
    intro d hd d' hd'
    split at hd'
    · rw [mem_singleton.mp hd']
      apply lt_of_mem_positions hd
    · cases hd'

/-- Positions before the last item are deleted as if it was not there. -/
theorem foldl_eraseIdx_concat {l : List α} {ds : List ℕ} (x : α) (hsorted : ds.Pairwise (· > ·))
    (hlt : ∀ d ∈ ds, d < l.length) :
  ds.foldl List.eraseIdx (l ++ [x]) = ds.foldl List.eraseIdx l ++ [x]
  := by
  induction ds generalizing l with
  | nil => rfl
  | cons d ds ih =>
    obtain ⟨hd, hsorted⟩ := pairwise_cons.mp hsorted
    have hdl := hlt d mem_cons_self
    rw [foldl_cons, foldl_cons, eraseIdx_append_of_lt_length hdl]
    apply ih hsorted
    intro d' hd'
    rw [length_eraseIdx_of_lt hdl]
    have hlt' := hd d' hd'
    omega

/-- Deleting the marked positions leaves the items that are not marked. -/
theorem foldl_eraseIdx_positions (ms : List (α × Bool)) :
  (positions ms).reverse.foldl List.eraseIdx (ms.map Prod.fst) =
    (ms.filter fun m => !m.2).map Prod.fst
  := by
  induction ms using List.reverseRecOn with
  | nil => rfl
  | append_singleton ms m ih =>
    obtain ⟨x, b⟩ := m
    rw [positions_concat]
    cases b with
    | true =>
      have her : (ms.map Prod.fst ++ [x]).eraseIdx ms.length = ms.map Prod.fst := by
        rw [eraseIdx_append_of_length_le (by simp)]
        simp
      simp only [if_true, reverse_append, reverse_singleton, singleton_append,
        foldl_cons, map_append, map_cons, map_nil, her, ih]
      simp
    | false =>
      have hsorted : (positions ms).reverse.Pairwise (· > ·) :=
        pairwise_reverse.mpr (pairwise_positions ms)
      have hlt : ∀ d ∈ (positions ms).reverse, d < (ms.map Prod.fst).length := by
        intro d hd
        rw [length_map]
        apply lt_of_mem_positions (mem_reverse.mp hd)
      simp [foldl_eraseIdx_concat x hsorted hlt, ih]

/-! ### Collecting the items -/

/-- An item is merged into those with the same key, or added at the end. -/
def collect (acc : List α) (x : α) : List α :=
  match key x with
  | none => acc ++ [x]
  | some k =>
      if ∃ y ∈ acc, key y = some k then
        acc.map fun y => if key y = some k then absorb y x else y
      else acc ++ [x]

/-- The items of a list, merged. -/
def collected (l : List α) : List α := l.foldl (collect key absorb) []

variable {key absorb}

/-- The items that are not marked are those to be kept, the marked ones are those to be
deleted, and the known positions are those of the former. -/
structure Marks (key : α → Option κ) (g : Grouping α κ) (ms : List (α × Bool)) : Prop where
  seen : g.seen = ms.map Prod.fst
  toDelete : g.toDelete = positions ms
  known : ∀ k j, g.known k = some j ↔ ∃ y, ms[j]? = some (y, false) ∧ key y = some k

/-- The items that are kept. -/
def kept (ms : List (α × Bool)) : List α := (ms.filter fun m => !m.2).map Prod.fst

theorem mem_kept {ms : List (α × Bool)} {y : α} :
  y ∈ kept ms ↔ (y, false) ∈ ms
  := by
  simp [kept]

omit [DecidableEq κ] in
theorem Marks.result_eq {g : Grouping α κ} {ms : List (α × Bool)} (h : Marks key g ms) :
  g.result = kept ms
  := by
  have hsorted : (positions ms).Pairwise (· ≤ ·) :=
    (pairwise_positions ms).imp fun hlt => Nat.le_of_lt hlt
  rw [result, h.toDelete, h.seen, hsorted.insertionSort_eq, foldl_eraseIdx_positions, kept]

/-- Changing the item at a position that is known for a key changes the kept items with the
key. -/
theorem Marks.kept_modify {g : Grouping α κ} {ms : List (α × Bool)} (h : Marks key g ms) {k : κ}
    {j : ℕ} (hj : g.known k = some j) (f : α → α) :
  kept (ms.modify j (Prod.map f id)) = (kept ms).map fun y => if key y = some k then f y else y
  := by
  have hmodify : ms.modify j (Prod.map f id) =
      ms.map fun m => if m.2 = false ∧ key m.1 = some k then Prod.map f id m else m := by
    apply ext_getElem?
    intro i
    rw [List.getElem?_modify, List.getElem?_map]
    rcases hm : ms[i]? with _ | ⟨y, b⟩
    · rfl
    have hkn : j = i ↔ b = false ∧ key y = some k := by
      constructor
      · rintro rfl
        obtain ⟨y', hy', hkey⟩ := (h.known k j).mp hj
        cases hm.symm.trans hy'
        exact ⟨rfl, hkey⟩
      · rintro ⟨rfl, hkey⟩
        apply Option.some.inj (hj.symm.trans ((h.known k i).mpr ⟨y, hm, hkey⟩))
    by_cases hji : j = i
    · simp [hji, hkn.mp hji]
    · have hnot := fun hb => hji (hkn.mpr hb)
      simp only [hji, if_false, id_map', Option.map_some]
      rw [if_neg hnot]
  rw [hmodify]
  clear hmodify h hj
  induction ms with
  | nil => rfl
  | cons m ms ih =>
    obtain ⟨y, b⟩ := m
    rw [kept, kept] at ih
    cases b with
    | true => simpa [kept] using ih
    | false => by_cases hkey : key y = some k <;> simpa [kept, hkey] using ih

theorem exists_getElem?_concat {ms : List (α × Bool)} {m : α × Bool} {P : α → Prop} {j : ℕ} :
  (∃ y, (ms ++ [m])[j]? = some (y, false) ∧ P y) ↔
    (∃ y, ms[j]? = some (y, false) ∧ P y) ∨ j = ms.length ∧ m.2 = false ∧ P m.1
  := by
  rcases Nat.lt_trichotomy j ms.length with hj | rfl | hj
  · rw [List.getElem?_append_left hj]
    simp [hj.ne]
  · obtain ⟨x, b⟩ := m
    simp [and_comm]
  · rw [List.getElem?_eq_none (by simp; omega), List.getElem?_eq_none hj.le]
    simp [hj.ne']

/-- An item that is added with its own key, if it has one. -/
theorem Marks.add {g : Grouping α κ} {ms : List (α × Bool)} (h : Marks key g ms) (x : α)
    (hnew : ∀ k, key x = some k → g.known k = none) :
  Marks key (step key absorb g x) (ms ++ [(x, false)])
  := by
  have hlen : g.seen.length = ms.length := by simp [h.seen]
  rcases hx : key x with _ | k
  · simp only [step, hx]
    constructor
    · simp [h.seen]
    · simp [h.toDelete, positions_concat]
    · intro k j
      rw [exists_getElem?_concat, h.known]
      simp [hx]
  · simp only [step, hx, hnew k hx]
    constructor
    · simp [h.seen]
    · simp [h.toDelete, positions_concat]
    · intro k' j
      rw [exists_getElem?_concat, ← h.known]
      dsimp only
      by_cases hk : k' = k
      · rw [hk, Function.update_self, hnew k hx, hlen]
        simp [hx, eq_comm]
      · rw [Function.update_of_ne hk]
        simp [hx, Ne.symm hk]

theorem map_fst_modify (ms : List (α × Bool)) (j : ℕ) (f : α → α) :
  (ms.modify j (Prod.map f id)).map Prod.fst = (ms.map Prod.fst).modify j f
  := by
  apply ext_getElem?
  intro i
  simp only [List.getElem?_map, List.getElem?_modify]
  cases ms[i]? <;> split_ifs <;> rfl

theorem map_snd_modify (ms : List (α × Bool)) (j : ℕ) (f : α → α) :
  (ms.modify j (Prod.map f id)).map Prod.snd = ms.map Prod.snd
  := by
  apply ext_getElem?
  intro i
  simp only [List.getElem?_map, List.getElem?_modify]
  cases ms[i]? <;> split_ifs <;> rfl

/-- An item that is merged, and marked. -/
theorem Marks.mark {g : Grouping α κ} {ms : List (α × Bool)} (h : Marks key g ms)
    (hkey : ∀ y x, key (absorb y x) = key y) {x : α} {k : κ} {j : ℕ} (hx : key x = some k)
    (hj : g.known k = some j) :
  Marks key (step key absorb g x) (ms.modify j (Prod.map (absorb · x) id) ++ [(x, true)])
  := by
  have hlen : g.seen.length = ms.length := by simp [h.seen]
  simp only [step, hx, hj]
  constructor
  · simp [h.seen, map_fst_modify]
  · rw [positions_concat, positions, map_snd_modify, ← positions, h.toDelete, hlen]
    simp
  · intro k' i
    rw [exists_getElem?_concat, h.known, List.getElem?_modify]
    rcases ms[i]? with _ | ⟨y, b⟩
    · simp
    · by_cases hji : j = i
      · simp [hji, hkey]
      · simp [hji]

variable (key absorb) in
/-- The pass notes the positions of the items that are not kept, and keeps those it
collects. -/
theorem exists_marks (hkey : ∀ y x, key (absorb y x) = key y) (l : List α) :
  ∃ ms, Marks key (l.foldl (step key absorb) empty) ms ∧ kept ms = collected key absorb l
  := by
  induction l using List.reverseRecOn with
  | nil => exact ⟨[], ⟨rfl, rfl, by simp [empty]⟩, rfl⟩
  | append_singleton l x ih =>
    obtain ⟨ms, hms, hkept⟩ := ih
    have hmem : ∀ k, (∃ y ∈ kept ms, key y = some k) ↔
        ∃ j, (l.foldl (step key absorb) empty).known k = some j := by
      intro k
      simp only [hms.known, mem_kept]
      constructor
      · rintro ⟨y, hy, hk⟩
        obtain ⟨j, hj⟩ := mem_iff_getElem?.mp hy
        use j, y
      · rintro ⟨j, y, hy, hk⟩
        use y, mem_of_getElem? hy
    rw [collected, foldl_append, foldl_append, ← collected, ← hkept]
    simp only [foldl_cons, foldl_nil, collect]
    rcases hx : key x with _ | k
    · exact ⟨_, hms.add x (by simp [hx]), by simp [kept]⟩
    dsimp only
    rcases hj : (l.foldl (step key absorb) empty).known k with _ | j
    · have hnew : ¬ ∃ y ∈ kept ms, key y = some k := by
        rw [hmem, hj]
        simp
      rw [if_neg hnew]
      refine ⟨_, hms.add x ?_, by simp [kept]⟩
      intro k' hk'
      cases hx.symm.trans hk'
      apply hj
    · rw [if_pos ((hmem k).mpr ⟨j, hj⟩), ← hms.kept_modify hj]
      exact ⟨_, hms.mark hkey hx hj, by simp [kept]⟩

variable (key absorb) in
/-- What the pass leaves is the list of the items collected one by one. -/
theorem result_eq_collected (hkey : ∀ y x, key (absorb y x) = key y) (l : List α) :
  (l.foldl (step key absorb) empty).result = collected key absorb l
  := by
  obtain ⟨ms, hms, hkept⟩ := exists_marks key absorb hkey l
  rw [hms.result_eq, hkept]

/-! ### What is collected -/

section

variable (key absorb)

/-- What the collected items are: those without a key as they were, and for every key one
that has the core of the first item with the key, and the contents of all of them. -/
structure Collected (core : α → γ) (content : α → Set β) (l acc : List α) : Prop where
  keyless : acc.filter (key · = none) = l.filter (key · = none)
  represented : ∀ x ∈ l, ∀ k, key x = some k → ∃ y ∈ acc, key y = some k
  merged : ∀ y ∈ acc, ∀ k, key y = some k →
    ∃ x, l.find? (key · = some k) = some x ∧ core y = core x ∧
      ∀ b, b ∈ content y ↔ ∃ z ∈ l, key z = some k ∧ b ∈ content z

end

variable {core : α → γ} {content : α → Set β} {l acc : List α}

/-- An item with a key that is not there yet, or without a key, is added. -/
theorem Collected.add (h : Collected key core content l acc) {x : α}
    (hnew : ∀ k, key x = some k → ∀ y ∈ acc, key y ≠ some k) :
  Collected key core content (l ++ [x]) (acc ++ [x])
  := by
  have hfr : ∀ k, key x = some k → ∀ z ∈ l, key z ≠ some k := by
    intro k hk z hz hkz
    obtain ⟨y, hy, hky⟩ := h.represented z hz k hkz
    apply hnew k hk y hy hky
  constructor
  · rw [filter_append, filter_append, h.keyless]
  · intro z hz k hk
    rcases mem_append.mp hz with hz | hz
    · obtain ⟨y, hy, hky⟩ := h.represented z hz k hk
      use y, mem_append_left _ hy
    · obtain rfl := mem_singleton.mp hz
      use z, mem_append_right _ hz
  · intro y hy k hk
    rcases mem_append.mp hy with hy | hy
    · obtain ⟨x', hf, hcore, hcontent⟩ := h.merged y hy k hk
      have hne : key x ≠ some k := fun hx => hnew k hx y hy hk
      refine ⟨x', by simp [hf], hcore, ?_⟩
      intro b
      rw [hcontent b]
      simp [or_and_right, exists_or, hne]
    · obtain rfl := mem_singleton.mp hy
      have hf : l.find? (key · = some k) = none := by
        simpa using hfr k hk
      refine ⟨y, by simp [hf, hk], rfl, ?_⟩
      intro b
      constructor
      · intro hb
        exact ⟨y, by simp, hk, hb⟩
      · rintro ⟨z, hz, hkz, hb⟩
        rcases mem_append.mp hz with hz | hz
        · apply absurd hkz (hfr k hk z hz)
        · rwa [← mem_singleton.mp hz]

theorem key_absorb_if (hkey : ∀ y x, key (absorb y x) = key y) (k : κ) (x y : α) :
  key (if key y = some k then absorb y x else y) = key y
  := by
  split_ifs
  · apply hkey
  · rfl

/-- An item with a key that is there is merged. -/
theorem Collected.merge (h : Collected key core content l acc)
    (hkey : ∀ y x, key (absorb y x) = key y) (hcore : ∀ y x, core (absorb y x) = core y)
    (hcontent : ∀ y x k, key y = some k → key x = some k → ∀ b,
      b ∈ content (absorb y x) ↔ b ∈ content y ∨ b ∈ content x)
    {x : α} {k : κ} (hx : key x = some k) (hold : ∃ y ∈ acc, key y = some k) :
  Collected key core content (l ++ [x])
    (acc.map fun y => if key y = some k then absorb y x else y)
  := by
  have hkeys := key_absorb_if hkey k x
  constructor
  · have hkeyless : ∀ y, key y = none → (if key y = some k then absorb y x else y) = y := by
      intro y hy
      simp [hy]
    rw [filter_append, ← h.keyless, filter_map]
    simp only [Function.comp_def, hkeys]
    have hself : [x].filter (key · = none) = [] := by simp [hx]
    rw [hself, append_nil]
    apply (map_congr_left _).trans (map_id _)
    intro y hy
    apply hkeyless y (by simpa using (mem_filter.mp hy).2)
  · intro z hz k' hk'
    obtain ⟨y, hy, hky⟩ : ∃ y ∈ acc, key y = some k' := by
      rcases mem_append.mp hz with hz | hz
      · apply h.represented z hz k' hk'
      · rw [mem_singleton.mp hz, hx] at hk'
        cases hk'
        apply hold
    exact ⟨_, mem_map_of_mem hy, (hkeys y).trans hky⟩
  · intro y' hy' k' hk'
    obtain ⟨y, hy, rfl⟩ := mem_map.mp hy'
    rw [hkeys] at hk'
    obtain ⟨x', hf, hcorey, hcontenty⟩ := h.merged y hy k' hk'
    refine ⟨x', by simp [hf], ?_, ?_⟩
    · split_ifs
      · rw [hcore, hcorey]
      · apply hcorey
    · intro b
      by_cases hkk : k' = k
      · subst hkk
        rw [if_pos hk', hcontent y x k' hk' hx, hcontenty]
        simp [or_and_right, exists_or, hx]
      · have hne : key x ≠ some k' := by
          rw [hx]
          simp [Ne.symm hkk]
        simp [hk', hkk, hcontenty, or_and_right, exists_or, hne]

variable (key absorb) in
/-- The items of a list are collected as they should be. -/
theorem collected_spec (hkey : ∀ y x, key (absorb y x) = key y)
    (hcore : ∀ y x, core (absorb y x) = core y)
    (hcontent : ∀ y x k, key y = some k → key x = some k → ∀ b,
      b ∈ content (absorb y x) ↔ b ∈ content y ∨ b ∈ content x)
    (l : List α) :
  Collected key core content l (collected key absorb l)
  := by
  induction l using List.reverseRecOn with
  | nil => exact ⟨rfl, by simp, by simp [collected]⟩
  | append_singleton l x ih =>
    rw [collected, foldl_append, ← collected]
    simp only [foldl_cons, foldl_nil, collect]
    rcases hx : key x with _ | k
    · apply ih.add
      simp [hx]
    · dsimp only
      split_ifs with hold
      · apply ih.merge hkey hcore hcontent hx hold
      · apply ih.add
        intro k' hk' y hy hky
        cases hx.symm.trans hk'
        apply hold ⟨y, hy, hky⟩

/-- Two items that are not alike in their key. -/
def Differ (key : α → Option κ) (y y' : α) : Prop := ∀ k, key y = some k → key y' ≠ some k

omit [DecidableEq κ] in
theorem Differ.symm {y y' : α} (h : Differ key y y') :
  Differ key y' y
  := fun k hk' hk => h k hk hk'

variable (key absorb) in
/-- No key is collected twice. -/
theorem pairwise_differ_collected (hkey : ∀ y x, key (absorb y x) = key y) (l : List α) :
  (collected key absorb l).Pairwise (Differ key)
  := by
  induction l using List.reverseRecOn with
  | nil => apply List.Pairwise.nil
  | append_singleton l x ih =>
    rw [collected, foldl_append, ← collected]
    simp only [foldl_cons, foldl_nil, collect]
    have hadd : (∀ y ∈ collected key absorb l, Differ key y x) →
        (collected key absorb l ++ [x]).Pairwise (Differ key) := by
      intro hdiffer
      apply pairwise_append.mpr
      exact ⟨ih, pairwise_singleton _ _, by simpa using hdiffer⟩
    rcases hx : key x with _ | k
    · apply hadd
      intro y _ k _
      simp [hx]
    · dsimp only
      split_ifs with hold
      · apply pairwise_map.mpr
        apply ih.imp
        intro y y' hdiffer
        simpa only [Differ, key_absorb_if hkey] using hdiffer
      · apply hadd
        intro y hy k' hk' hk
        cases hx.symm.trans hk
        apply hold ⟨y, hy, hk'⟩

end Grouping

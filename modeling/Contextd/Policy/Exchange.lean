import Contextd.Policy.Rebuilding

/-!
# Exchanging two priorities

`swapPriorities` takes two entries out of the store by their identifiers, exchanges their
priorities and puts them back (`swapPriorities_of_mem`).  What it has taken out when one of
the two turns out to be missing, or to be the other one, is not put back.

So the operation exchanges two priorities or does nothing exactly for the identifiers that
are `Exchangeable`.
-/

namespace Policy

open List

/-- The entry with the priority of the other one, for two entries. -/
def Entry.exchanged (first second e : Entry) : Entry :=
  if e.toAbstractRule.id = first.toAbstractRule.id then
    e.withPriority second.toAbstractRule.priority
  else if e.toAbstractRule.id = second.toAbstractRule.id then
    e.withPriority first.toAbstractRule.priority
  else e

@[simp]
theorem Entry.isValid_withPriority (e : Entry) (n : Int) :
  (e.withPriority n).isValid = e.isValid
  := by
  cases e <;> rfl

@[simp]
theorem Entry.withPriority_withPriority (e : Entry) (m n : Int) :
  (e.withPriority m).withPriority n = e.withPriority n
  := by
  cases e <;> rfl

@[simp]
theorem Entry.withPriority_self (e : Entry) :
  e.withPriority e.toAbstractRule.priority = e
  := by
  cases e <;> rfl

@[simp]
theorem Entry.id_exchanged (first second e : Entry) :
  (exchanged first second e).toAbstractRule.id = e.toAbstractRule.id
  := by
  unfold exchanged
  split_ifs <;> simp

@[simp]
theorem Entry.isValid_exchanged (first second e : Entry) :
  (exchanged first second e).isValid = e.isValid
  := by
  unfold exchanged
  split_ifs <;> simp

namespace Configuration

/-- The entries that follow an identifier in its vector have a greater priority. -/
def Closes (c : Configuration) (i : Int) : Prop :=
  loopShelving.Closes c.loops i ∧ ruleShelving.Closes c.rules i

/-- The identifier is under the name of the program of the entry that has it. -/
def FiledAt (c : Configuration) (i : Int) : Prop :=
  loopShelving.FiledAt c.loops i ∧ ruleShelving.FiledAt c.rules i

/-- There is a vector for the program of the entry. -/
def HasVector (c : Configuration) : Entry → Prop
  | .loop l => l.program.name ∈ c.loops
  | .rule r => r.program.name ∈ c.rules

section

variable {c : Configuration} {e e' : Entry} {i j : Int}

theorem Ordered.drop (h : c.Ordered) (i : Int) :
  (c.drop i).Ordered
  := (removes_drop c i).ordered h

theorem nodup_store (h : c.ids.Nodup) (he : e.toAbstractRule.id ∉ c.ids) :
  (c.store e).ids.Nodup
  := by
  rw [(ids_store c e).nodup_iff, nodup_cons]
  exact ⟨he, h⟩

theorem not_mem_store (h : i ∉ c.ids) (hne : i ≠ e.toAbstractRule.id) :
  i ∉ (c.store e).ids
  := by
  rw [(ids_store c e).mem_iff, mem_cons, not_or]
  exact ⟨hne, h⟩

theorem HasVector.drop (h : c.HasVector e) (i : Int) :
  (c.drop i).HasVector e
  := by
  cases e with
  | loop l => apply Shelving.mem_removeById h
  | rule r => apply Shelving.mem_removeById h

theorem HasVector.withPriority (h : c.HasVector e) (n : Int) :
  c.HasVector (e.withPriority n)
  := by
  cases e <;> exact h

/-- An entry that is under the name of its program has a vector. -/
theorem FiledAt.hasVector (h : c.FiledAt e.toAbstractRule.id) (he : e ∈ c.allAbstractRules) :
  c.HasVector e
  := by
  cases e with
  | loop l =>
    obtain ⟨k, hk⟩ := Bookshelf.mem_all.mp (loop_mem_allAbstractRules.mp he)
    obtain rfl := h.1 k l hk rfl
    apply Shelving.mem_of_mem_vector hk
  | rule r =>
    obtain ⟨k, hk⟩ := Bookshelf.mem_all.mp (rule_mem_allAbstractRules.mp he)
    obtain rfl := h.2 k r hk rfl
    apply Shelving.mem_of_mem_vector hk

/-! ### Putting back -/

/-- Configurations that differ in the loops and rules at most. -/
theorem eq_iff_shelves {c' : Configuration}
    (h : { c' with loops := c.loops, rules := c.rules } = c) :
  c' = c ↔ c'.loops = c.loops ∧ c'.rules = c.rules
  := by
  constructor
  · rintro rfl
    exact ⟨rfl, rfl⟩
  · rintro ⟨hls, hrs⟩
    rw [← hls, ← hrs] at h
    apply h

/-- What was put into the store is taken out again. -/
theorem drop_store (h : c.ids.Nodup) (he : e.toAbstractRule.id ∉ c.ids) (hvec : c.HasVector e) :
  (c.store e).drop e.toAbstractRule.id = c
  := by
  cases e with
  | loop l =>
    apply (eq_iff_shelves rfl).mpr
    have hls := Shelving.removeById_add (nodup_loops_of_ids h) (loop_id_ne he) hvec
    have hrs := Shelving.removeById_of_not_mem (rule_id_ne he)
    exact ⟨congrArg Prod.snd hls, congrArg Prod.snd hrs⟩
  | rule r =>
    apply (eq_iff_shelves rfl).mpr
    have hrs := Shelving.removeById_add (nodup_rules_of_ids h) (rule_id_ne he) hvec
    have hls := Shelving.removeById_of_not_mem (loop_id_ne he)
    exact ⟨congrArg Prod.snd hls, congrArg Prod.snd hrs⟩

/-- Another identifier is taken out as if the entry were not there. -/
theorem drop_store_of_ne (h : c.ids.Nodup) (hord : c.Ordered)
    (he : e.toAbstractRule.id ∉ c.ids) (hne : e.toAbstractRule.id ≠ i) :
  (c.store e).drop i = (c.drop i).store e
  := by
  cases e with
  | loop l =>
    have hls := Shelving.removeById_add_of_ne (nodup_loops_of_ids h) (loop_id_ne he)
      hord.loops hne
    rw [drop_eq]
    simp only [store, addLoop]
    rw [hls]
    rfl
  | rule r =>
    have hrs := Shelving.removeById_add_of_ne (nodup_rules_of_ids h) (rule_id_ne he)
      hord.rules hne
    rw [drop_eq]
    simp only [store, addRule]
    rw [hrs]
    rfl

theorem drop_comm (h : c.ids.Nodup) (hne : i ≠ j) :
  (c.drop i).drop j = (c.drop j).drop i
  := by
  rw [drop_eq, drop_eq, drop_eq, drop_eq]
  simp only [Shelving.removeById_comm (nodup_loops_of_ids h) hne,
    Shelving.removeById_comm (nodup_rules_of_ids h) hne]

/-- An entry under the name of its program is put back where it was exactly when those that
follow it have a greater priority. -/
theorem store_drop_iff (h : c.ids.Nodup) (hord : c.Ordered) (he : e ∈ c.allAbstractRules)
    (hfil : c.FiledAt e.toAbstractRule.id) :
  (c.drop e.toAbstractRule.id).store e = c ↔ c.Closes e.toAbstractRule.id
  := by
  cases e with
  | loop l =>
    have hl := loop_mem_allAbstractRules.mp he
    obtain ⟨k, hk⟩ := Bookshelf.mem_all.mp hl
    obtain rfl := hfil.1 k l hk rfl
    have hrs : ruleShelving.Closes c.rules l.id :=
      Shelving.closes_of_not_mem (rule_id_ne_loop h hl)
    apply (eq_iff_shelves rfl).trans
    apply and_congr
    · apply Shelving.add_removeById_iff (nodup_loops_of_ids h) hord.loops hk
    · apply iff_of_true (congrArg Prod.snd (removeById_loop h hl).2) hrs
  | rule r =>
    have hr := rule_mem_allAbstractRules.mp he
    obtain ⟨k, hk⟩ := Bookshelf.mem_all.mp hr
    obtain rfl := hfil.2 k r hk rfl
    have hls : loopShelving.Closes c.loops r.id :=
      Shelving.closes_of_not_mem (loop_id_ne_rule h hr)
    apply (eq_iff_shelves rfl).trans
    apply and_congr
    · apply iff_of_true (congrArg Prod.snd (removeById_rule h hr).2) hls
    · apply Shelving.add_removeById_iff (nodup_rules_of_ids h) hord.rules hk

theorem Closes.drop (h : c.Closes i) (j : Int) :
  (c.drop j).Closes i
  := ⟨h.1.removeById j, h.2.removeById j⟩

/-- An entry that was put into the store is under the name of its program. -/
theorem filedAt_store (he : e.toAbstractRule.id ∉ c.ids) :
  (c.store e).FiledAt e.toAbstractRule.id
  := by
  cases e with
  | loop l =>
    refine ⟨Shelving.filedAt_add (loop_id_ne he), ?_⟩
    intro k r hr hid
    apply absurd hid (rule_id_ne he r (Bookshelf.mem_all.mpr ⟨k, hr⟩))
  | rule r =>
    refine ⟨?_, Shelving.filedAt_add (rule_id_ne he)⟩
    intro k l hl hid
    apply absurd hid (loop_id_ne he l (Bookshelf.mem_all.mpr ⟨k, hl⟩))

theorem FiledAt.store (h : c.FiledAt i) (hne : e.toAbstractRule.id ≠ i) :
  (c.store e).FiledAt i
  := by
  cases e with
  | loop l => exact ⟨h.1.add hne, h.2⟩
  | rule r => exact ⟨h.1, h.2.add hne⟩

theorem FiledAt.drop (h : c.FiledAt i) (j : Int) :
  (c.drop j).FiledAt i
  := ⟨h.1.removeById j, h.2.removeById j⟩

theorem HasVector.store (h : c.HasVector e) (e' : Entry) :
  (c.store e').HasVector e
  := by
  cases e' with
  | loop l =>
    cases e with
    | loop l' => apply Std.ExtTreeMap.mem_insert.mpr (Or.inr h)
    | rule r' => apply h
  | rule r =>
    cases e with
    | loop l' => apply h
    | rule r' => apply Std.ExtTreeMap.mem_insert.mpr (Or.inr h)

theorem withShelves_store (c : Configuration) (e : Entry) (loops : Bookshelf String Loop)
    (rules : Bookshelf String Rule) :
  { c.store e with loops := loops, rules := rules } = { c with loops := loops, rules := rules }
  := by
  cases e <;> rfl

/-- What is beside the loops and rules stays. -/
theorem frame_store_drop (c : Configuration) (i j : Int) (e e' : Entry) :
  { ((((c.drop i).drop j).store e).store e') with loops := c.loops, rules := c.rules } = c
  := by
  rw [withShelves_store, withShelves_store]
  rfl

/-! ### The exchange -/

theorem swapPriorities_of_not_mem (h : i ∉ c.ids) (j : Int) :
  c.swapPriorities i j = c
  := by
  rw [swapPriorities_eq, take_of_not_mem h]

/-- Two valid entries are taken out, and put back with their priorities exchanged. -/
theorem swapPriorities_of_mem (h : c.ids.Nodup) (he : e ∈ c.allAbstractRules)
    (he' : e' ∈ c.allAbstractRules) (hne : e.toAbstractRule.id ≠ e'.toAbstractRule.id)
    (hval : e.isValid = true) (hval' : e'.isValid = true) :
  c.swapPriorities e.toAbstractRule.id e'.toAbstractRule.id =
    (((c.drop e.toAbstractRule.id).drop e'.toAbstractRule.id).store
        (e.withPriority e'.toAbstractRule.priority)).store
      (e'.withPriority e.toAbstractRule.priority)
  := by
  have hleft := take_of_mem (nodup_drop h _).1 (mem_drop h he' hne.symm)
  rw [hval', if_pos rfl] at hleft
  rw [swapPriorities_eq, take_of_mem h he, hval, if_pos rfl]
  simp only
  rw [hleft]

/-- An identifier that is there is lost when its entry is not valid, or the other identifier
is the same, is missing, or has an entry that is not valid. -/
theorem swapPriorities_loses (h : c.ids.Nodup) (he : e ∈ c.allAbstractRules)
    (hnot : e.isValid = true → ∀ e' ∈ c.allAbstractRules, e'.toAbstractRule.id = j →
      e.toAbstractRule.id ≠ j → e'.isValid = false) :
  e.toAbstractRule.id ∉ (c.swapPriorities e.toAbstractRule.id j).ids
  := by
  obtain ⟨hnd, hgone⟩ := nodup_drop h e.toAbstractRule.id
  rw [swapPriorities_eq, take_of_mem h he]
  by_cases hval : e.isValid = true
  · rw [if_pos hval]
    simp only
    by_cases hj : j ∈ (c.drop e.toAbstractRule.id).ids
    · obtain ⟨e', he', rfl⟩ := exists_of_mem_ids hj
      have hm := (allAbstractRules_drop h he).mem_iff.mpr (mem_cons_of_mem _ he')
      have hinvalid := hnot hval e' hm rfl (by
        intro heq
        apply absurd hj
        rw [← heq]
        apply hgone)
      rw [take_of_mem hnd he', if_neg (by simp [hinvalid])]
      simp only
      intro hlost
      apply hgone
      rw [(ids_drop hnd he').mem_iff]
      apply mem_cons_of_mem _ hlost
    · rw [take_of_not_mem hj]
      apply hgone
  · rw [if_neg hval]
    apply hgone

/-- The configuration `c'` has the entries of `c` with the priorities of two of them
exchanged, in ordered vectors. -/
structure Exchanged (c c' : Configuration) (e e' : Entry) : Prop where
  entries : c'.allAbstractRules.Perm (c.allAbstractRules.map (Entry.exchanged e e'))
  frame : { c' with loops := c.loops, rules := c.rules } = c
  ordered : c'.Ordered

theorem exchanged_swapPriorities (h : c.ids.Nodup) (hord : c.Ordered) (he : e ∈ c.allAbstractRules)
    (he' : e' ∈ c.allAbstractRules) (hne : e.toAbstractRule.id ≠ e'.toAbstractRule.id)
    (hval : e.isValid = true) (hval' : e'.isValid = true) :
  c.Exchanged (c.swapPriorities e.toAbstractRule.id e'.toAbstractRule.id) e e'
  := by
  have hm := mem_drop h he' hne.symm
  obtain ⟨hnd, hgone⟩ := nodup_drop h e.toAbstractRule.id
  obtain ⟨-, hgone'⟩ := nodup_drop hnd e'.toAbstractRule.id
  have hleft := allAbstractRules_drop hnd hm
  rw [swapPriorities_of_mem h he he' hne hval hval']
  refine ⟨?_, frame_store_drop c _ _ _ _, ((hord.drop _).drop _).store _ |>.store _⟩
  have hsame : ((c.drop e.toAbstractRule.id).drop e'.toAbstractRule.id).allAbstractRules.map
      (Entry.exchanged e e') =
        ((c.drop e.toAbstractRule.id).drop e'.toAbstractRule.id).allAbstractRules := by
    apply Eq.trans _ (map_id _)
    apply map_congr_left
    intro x hx
    have hid : x.toAbstractRule.id ≠ e.toAbstractRule.id := by
      intro hid
      have hxid := mem_ids (hleft.mem_iff.mpr (mem_cons_of_mem _ hx))
      rw [hid] at hxid
      apply hgone hxid
    have hid' : x.toAbstractRule.id ≠ e'.toAbstractRule.id := by
      intro hid'
      have hxid := mem_ids hx
      rw [hid'] at hxid
      apply hgone' hxid
    rw [Entry.exchanged, if_neg hid, if_neg hid']
    rfl
  have hall := (allAbstractRules_drop h he).trans (hleft.cons e)
  apply (allAbstractRules_store _ _).trans
  apply ((allAbstractRules_store _ _).cons _).trans
  apply List.Perm.trans _ (hall.map (Entry.exchanged e e')).symm
  rw [map_cons, map_cons, hsame, Entry.exchanged, if_pos rfl, Entry.exchanged,
    if_neg hne.symm, if_pos rfl]
  apply List.Perm.swap

/-- Two entries that were put into the store are taken out again. -/
theorem drop_store_store (h : c.ids.Nodup) (hord : c.Ordered) (he : e.toAbstractRule.id ∉ c.ids)
    (he' : e'.toAbstractRule.id ∉ c.ids) (hne : e.toAbstractRule.id ≠ e'.toAbstractRule.id)
    (hvec : c.HasVector e) (hvec' : c.HasVector e') :
  (((c.store e).store e').drop e.toAbstractRule.id).drop e'.toAbstractRule.id = c
  := by
  rw [drop_store_of_ne (nodup_store h he) (hord.store e) (not_mem_store he' hne.symm) hne.symm,
    drop_store h he hvec, drop_store h he' hvec']

/-- Exchanging the priorities of two entries again puts the entries back with their own. -/
theorem swapPriorities_twice (h : c.ids.Nodup) (hord : c.Ordered) (he : e ∈ c.allAbstractRules)
    (he' : e' ∈ c.allAbstractRules) (hne : e.toAbstractRule.id ≠ e'.toAbstractRule.id)
    (hval : e.isValid = true) (hval' : e'.isValid = true) (hfil : c.FiledAt e.toAbstractRule.id)
    (hfil' : c.FiledAt e'.toAbstractRule.id) :
  (c.swapPriorities e.toAbstractRule.id e'.toAbstractRule.id).swapPriorities
      e.toAbstractRule.id e'.toAbstractRule.id =
    (((c.drop e.toAbstractRule.id).drop e'.toAbstractRule.id).store e).store e'
  := by
  obtain ⟨hnd, hgone'⟩ := nodup_drop (nodup_drop h e.toAbstractRule.id).1 e'.toAbstractRule.id
  have hgone : e.toAbstractRule.id ∉
      ((c.drop e.toAbstractRule.id).drop e'.toAbstractRule.id).ids := by
    rw [drop_comm h hne]
    apply (nodup_drop (nodup_drop h _).1 _).2
  have hord := (hord.drop e.toAbstractRule.id).drop e'.toAbstractRule.id
  have hvec := ((hfil.hasVector he).drop e.toAbstractRule.id).drop e'.toAbstractRule.id
  have hvec' := ((hfil'.hasVector he').drop e.toAbstractRule.id).drop e'.toAbstractRule.id
  rw [swapPriorities_of_mem h he he' hne hval hval']
  generalize (c.drop e.toAbstractRule.id).drop e'.toAbstractRule.id = c₀ at *
  let x := e.withPriority e'.toAbstractRule.priority
  let x' := e'.withPriority e.toAbstractRule.priority
  have hid : x.toAbstractRule.id = e.toAbstractRule.id := e.id_withPriority _
  have hid' : x'.toAbstractRule.id = e'.toAbstractRule.id := e'.id_withPriority _
  have hx : x.toAbstractRule.id ∉ c₀.ids := hid ▸ hgone
  have hx' : x'.toAbstractRule.id ∉ c₀.ids := hid' ▸ hgone'
  have hne : x.toAbstractRule.id ≠ x'.toAbstractRule.id := by rwa [hid, hid']
  have hagain := @swapPriorities_of_mem ((c₀.store x).store x') x x'
    (nodup_store (nodup_store hnd hx) (not_mem_store hx' hne.symm))
    (mem_store.mpr (Or.inr (mem_store.mpr (Or.inl rfl)))) (mem_store.mpr (Or.inl rfl)) hne
    (by simp [x, hval]) (by simp [x', hval'])
  rw [drop_store_store hnd hord hx hx' hne (hvec.withPriority _)
    (hvec'.withPriority _), hid, hid'] at hagain
  rw [hagain]
  simp [x, x']

/-- Two entries under the names of their programs are put back where they were exactly when
those that follow them have greater priorities, the second entry apart for the first. -/
theorem store_store_iff (h : c.ids.Nodup) (hord : c.Ordered) (he : e ∈ c.allAbstractRules)
    (he' : e' ∈ c.allAbstractRules) (hne : e.toAbstractRule.id ≠ e'.toAbstractRule.id)
    (hfil : c.FiledAt e.toAbstractRule.id) (hfil' : c.FiledAt e'.toAbstractRule.id) :
  (((c.drop e.toAbstractRule.id).drop e'.toAbstractRule.id).store e).store e' = c ↔
    (c.drop e'.toAbstractRule.id).Closes e.toAbstractRule.id ∧ c.Closes e'.toAbstractRule.id
  := by
  obtain ⟨hnd, hgone'⟩ := nodup_drop h e'.toAbstractRule.id
  obtain ⟨hnd₀, hgone₀⟩ := nodup_drop hnd e.toAbstractRule.id
  have hfst := store_drop_iff hnd (hord.drop _) (mem_drop h he hne) (hfil.drop _)
  have hsnd := store_drop_iff h hord he' hfil'
  rw [drop_comm h hne, ← hfst, ← hsnd]
  constructor
  · intro heq
    have hdrop : ((c.drop e'.toAbstractRule.id).drop e.toAbstractRule.id).store e =
        c.drop e'.toAbstractRule.id := by
      have hvec' := (((hfil'.hasVector he').drop e'.toAbstractRule.id).drop
        e.toAbstractRule.id).store e
      have hgone₀' := (nodup_drop (nodup_drop h e.toAbstractRule.id).1 e'.toAbstractRule.id).2
      rw [drop_comm h hne] at hgone₀'
      have hback := drop_store (nodup_store hnd₀ hgone₀) (not_mem_store hgone₀' hne.symm)
        hvec'
      rw [heq] at hback
      apply hback.symm
    refine ⟨hdrop, ?_⟩
    rw [hdrop] at heq
    apply heq
  · rintro ⟨hdrop, heq⟩
    rw [hdrop, heq]

/-- In a store where two entries were exchanged they are under the names of their programs. -/
theorem filedAt_swapPriorities (h : c.ids.Nodup) (he : e ∈ c.allAbstractRules)
    (he' : e' ∈ c.allAbstractRules) (hne : e.toAbstractRule.id ≠ e'.toAbstractRule.id)
    (hval : e.isValid = true) (hval' : e'.isValid = true) :
  (c.swapPriorities e.toAbstractRule.id e'.toAbstractRule.id).FiledAt e.toAbstractRule.id ∧
    (c.swapPriorities e.toAbstractRule.id e'.toAbstractRule.id).FiledAt e'.toAbstractRule.id
  := by
  have hgone' := (nodup_drop (nodup_drop h e.toAbstractRule.id).1 e'.toAbstractRule.id).2
  have hgone := (nodup_drop (nodup_drop h e'.toAbstractRule.id).1 e.toAbstractRule.id).2
  rw [drop_comm h hne.symm] at hgone
  have hid := e.id_withPriority e'.toAbstractRule.priority
  have hid' := e'.id_withPriority e.toAbstractRule.priority
  rw [swapPriorities_of_mem h he he' hne hval hval']
  constructor
  · have hfil := @filedAt_store ((c.drop e.toAbstractRule.id).drop e'.toAbstractRule.id)
      (e.withPriority e'.toAbstractRule.priority) (by rwa [hid])
    rw [hid] at hfil
    apply hfil.store
    rw [hid']
    apply hne.symm
  · have hfil := @filedAt_store (((c.drop e.toAbstractRule.id).drop e'.toAbstractRule.id).store
      (e.withPriority e'.toAbstractRule.priority)) (e'.withPriority e.toAbstractRule.priority)
      (by
        rw [hid']
        apply not_mem_store hgone'
        rw [hid]
        apply hne.symm)
    rw [hid'] at hfil
    apply hfil

/-- What `swapPriorities` is for: two entries have their priorities exchanged, and exchanging
them again gives the store there was; in every other case the store stays. -/
def ExchangesOrKeeps (c : Configuration) (i j : Int) : Prop :=
  (∀ e ∈ c.allAbstractRules, ∀ e' ∈ c.allAbstractRules, e.toAbstractRule.id = i →
    e'.toAbstractRule.id = j → i ≠ j →
      c.Exchanged (c.swapPriorities i j) e e' ∧
        (c.swapPriorities i j).swapPriorities i j = c) ∧
  (¬ (i ≠ j ∧ i ∈ c.ids ∧ j ∈ c.ids) → c.swapPriorities i j = c)

/-- The two identifiers are of different entries that are valid, under the names of their
programs, and followed by entries of greater priorities only, the second entry apart for the
first; or the first identifier is not there. -/
def Exchangeable (c : Configuration) (i j : Int) : Prop :=
  (i ≠ j ∧ i ∈ c.ids ∧ j ∈ c.ids ∧
    (∀ e ∈ c.allAbstractRules, e.toAbstractRule.id = i ∨ e.toAbstractRule.id = j →
      e.isValid = true) ∧
    c.FiledAt i ∧ c.FiledAt j ∧ (c.drop j).Closes i ∧ c.Closes j) ∨
  i ∉ c.ids

theorem Exchangeable.exchangesOrKeeps (h : c.ids.Nodup) (hord : c.Ordered)
    (hij : c.Exchangeable i j) :
  c.ExchangesOrKeeps i j
  := by
  rcases hij with ⟨hne, hi, hj, hval, hfil, hfil', hcl, hcl'⟩ | hi
  · constructor
    · rintro e he e' he' rfl rfl -
      have hv := hval e he (Or.inl rfl)
      have hv' := hval e' he' (Or.inr rfl)
      use exchanged_swapPriorities h hord he he' hne hv hv'
      rw [swapPriorities_twice h hord he he' hne hv hv' hfil hfil']
      apply (store_store_iff h hord he he' hne hfil hfil').mpr ⟨hcl, hcl'⟩
    · intro hnot
      apply absurd ⟨hne, hi, hj⟩ hnot
  · constructor
    · rintro e he - - rfl - -
      apply absurd (mem_ids he) hi
    · intro _
      apply swapPriorities_of_not_mem hi

theorem ExchangesOrKeeps.exchangeable (h : c.ids.Nodup) (hord : c.Ordered)
    (hij : c.ExchangesOrKeeps i j) :
  c.Exchangeable i j
  := by
  obtain ⟨hexchange, hkeep⟩ := hij
  by_cases hi : i ∈ c.ids
  · left
    obtain ⟨e, he, rfl⟩ := exists_of_mem_ids hi
    by_cases hall : e.toAbstractRule.id ≠ j ∧ e.toAbstractRule.id ∈ c.ids ∧ j ∈ c.ids
    · obtain ⟨hne, -, hj⟩ := hall
      obtain ⟨e', he', rfl⟩ := exists_of_mem_ids hj
      obtain ⟨hexch, htwice⟩ := hexchange e he e' he' rfl rfl hne
      have hthere : e.toAbstractRule.id ∈
          (c.swapPriorities e.toAbstractRule.id e'.toAbstractRule.id).ids := by
        rw [ids_eq_map, (hexch.entries.map _).mem_iff, map_map]
        refine mem_map.mpr ⟨e, he, ?_⟩
        simp [Entry.exchanged]
      have hboth : e.isValid = true ∧ e'.isValid = true := by
        by_contra hnot
        apply swapPriorities_loses h he _ hthere
        intro hv x hx hid _
        have hxe : x = e' := by
          rw [ids_eq_map] at h
          apply inj_on_of_nodup_map h hx he' hid
        rw [hxe]
        simpa [hv] using hnot
      obtain ⟨hv, hv'⟩ := hboth
      have hnd : (c.swapPriorities e.toAbstractRule.id e'.toAbstractRule.id).ids.Nodup := by
        rw [ids_eq_map, (hexch.entries.map _).nodup_iff, map_map]
        rw [ids_eq_map] at h
        convert h using 2
        funext x
        apply Entry.id_exchanged
      have hfil := filedAt_swapPriorities hnd
        (hexch.entries.mem_iff.mpr (mem_map_of_mem he))
        (hexch.entries.mem_iff.mpr (mem_map_of_mem he'))
        (by rwa [Entry.id_exchanged, Entry.id_exchanged])
        (by rwa [Entry.isValid_exchanged]) (by rwa [Entry.isValid_exchanged])
      rw [Entry.id_exchanged, Entry.id_exchanged, htwice] at hfil
      have htwice' := swapPriorities_twice h hord he he' hne hv hv' hfil.1 hfil.2
      have hcl := (store_store_iff h hord he he' hne hfil.1 hfil.2).mp
        (htwice'.symm.trans htwice)
      refine ⟨hne, hi, hj, ?_, hfil.1, hfil.2, hcl⟩
      rw [ids_eq_map] at h
      rintro x hx (hid | hid)
      · rw [inj_on_of_nodup_map h hx he hid, hv]
      · rw [inj_on_of_nodup_map h hx he' hid, hv']
    · have heq := hkeep hall
      have hlost := @swapPriorities_loses c e j h he (by
        rintro - x hx rfl hne
        apply absurd ⟨hne, hi, mem_ids hx⟩ hall)
      rw [heq] at hlost
      apply absurd hi hlost
  · right
    apply hi

end

/-- In a store whose identifiers occur once and whose vectors are ordered, `swapPriorities`
exchanges two priorities or does nothing exactly for the identifiers that are exchangeable. -/
theorem swapPriorities_exchanges_iff (c : Configuration) (hnd : c.ids.Nodup)
    (hord : c.Ordered) (i j : Int) :
  c.ExchangesOrKeeps i j ↔ c.Exchangeable i j
  := ⟨fun h => h.exchangeable hnd hord, fun h => h.exchangesOrKeeps hnd hord⟩

end Configuration

/-- Another rule of the mail program. -/
def laterRule : Rule := { mailRule with id := 2, priority := 2 }

/-- The policy with the two rules. -/
def mailPolicies : Configuration :=
  { mailPolicy with
      rules := (∅ : Bookshelf String Rule).insert "mailer" [mailRule, laterRule] }

/-- The priorities of the two rules are exchanged, and exchanged back. -/
theorem swapPriorities_exchanges_mailPolicies :
  mailPolicies.ids.Nodup ∧ mailPolicies.ExchangesOrKeeps 1 2
  := by
  have hvec : ∀ k, mailPolicies.rules.vector k =
      if "mailer" = k then [mailRule, laterRule] else [] := by
    intro k
    rw [mailPolicies, Bookshelf.vector_insert]
    rfl
  have hfil : ∀ i, mailPolicies.FiledAt i := by
    intro i
    constructor
    · intro k l hl
      cases hl
    · intro k r hr _
      rw [hvec] at hr
      split_ifs at hr with hk
      · rw [← hk]
        rcases mem_pair.mp hr with rfl | rfl <;> rfl
      · cases hr
  have hord : mailPolicies.Ordered := by
    constructor
    · intro k
      apply List.Pairwise.nil
    · intro k
      rw [hvec]
      split_ifs
      · apply pairwise_pair.mpr (by decide)
      · apply List.Pairwise.nil
  have hcl : ∀ i, mailPolicies.Closes i := by
    intro i
    constructor
    · intro k
      apply List.Pairwise.nil
    · intro k
      rw [hvec]
      split_ifs
      · apply pairwise_pair.mpr
        intro _
        decide
      · apply List.Pairwise.nil
  use by decide
  apply (Configuration.swapPriorities_exchanges_iff mailPolicies (by decide) hord 1 2).mpr
  left
  refine ⟨by decide, by decide, by decide, ?_, hfil 1, hfil 2, (hcl 1).drop 2, hcl 2⟩
  have hval : ∀ e ∈ mailPolicies.allAbstractRules, e.isValid = true := by decide
  intro e he _
  apply hval e he

/-- The editor passes `InvalidId`, which is `0`, at the end of a list: the rule is lost. -/
theorem swapPriorities_loses_rule :
  mailPolicy.ids = [1] ∧ (mailPolicy.swapPriorities 1 0).ids = []
  := by
  decide

end Policy

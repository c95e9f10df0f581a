import Contextd.Policy.Editor

/-!
# Numbered entries

An identifier that was issued finds at most one loop or rule, and finds it under the name of
its program, as long as no update changes the program of an entry and no program with
entries is renamed (`Store.KeepsPrograms`): the entries stay `Numbered`.  Exchanging the
priorities of two entries takes both out and puts them back, unless it loses one
(`Numbered.swapPriorities_cases`).
-/

namespace Policy

open List

namespace Configuration

/-- Entries are stored under the names of their programs, and their identifiers were issued
and occur once. -/
structure Numbered (issued : List Int) (c : Configuration) : Prop where
  filedLoops : loopShelving.Filed c.loops
  filedRules : ruleShelving.Filed c.rules
  nodup : c.ids.Nodup
  issued : ∀ i ∈ c.ids, 0 < i ∧ i ∈ issued

variable {issued : List Int} {c c' : Configuration} {l : Loop} {r : Rule} {e : Entry} {i : Int}

theorem Numbered.nodupLoops (h : c.Numbered issued) :
  (c.loops.all.map loopShelving.id).Nodup
  := nodup_loops_of_ids h.nodup

theorem Numbered.nodupRules (h : c.Numbered issued) :
  (c.rules.all.map ruleShelving.id).Nodup
  := nodup_rules_of_ids h.nodup

/-- A configuration with some of the identifiers of a numbered one, where they were. -/
theorem Numbered.part (h : c.Numbered issued) (hids : c'.ids.Subperm c.ids)
    (hls : loopShelving.Filed c'.loops) (hrs : ruleShelving.Filed c'.rules) :
  c'.Numbered issued
  := by
  constructor
  · apply hls
  · apply hrs
  · apply hids.nodup_part h.nodup
  · intro i hi
    apply h.issued i (hids.subset hi)

/-- Identifiers stay issued. -/
theorem Numbered.issue (h : c.Numbered issued) (i : Int) :
  c.Numbered (i :: issued)
  := by
  refine { h with issued := ?_ }
  intro j hj
  use (h.issued j hj).1, mem_cons_of_mem _ (h.issued j hj).2

/-! ### Removing and storing -/

theorem Removes.filed (h : c.Removes c') (hls : loopShelving.Filed c.loops)
    (hrs : ruleShelving.Filed c.rules) :
  loopShelving.Filed c'.loops ∧ ruleShelving.Filed c'.rules
  := by
  induction h with
  | refl => exact ⟨hls, hrs⟩
  | loops k i _ ih => exact ⟨ih.1.removeIn k i, ih.2⟩
  | rules k i _ ih => exact ⟨ih.1, ih.2.removeIn k i⟩
  | store he => cases he

theorem Removes.numbered (h : c.Removes c') (hc : c.Numbered issued) :
  c'.Numbered issued
  := by
  obtain ⟨hls, hrs⟩ := h.filed hc.filedLoops hc.filedRules
  apply hc.part h.ids_subperm hls hrs

/-- The identifier was issued and is not in use. -/
def Unused (issued : List Int) (c : Configuration) (i : Int) : Prop :=
  (0 < i ∧ i ∈ issued) ∧ i ∉ c.ids

theorem Unused.mono (h : Unused issued c i) (hids : c'.ids ⊆ c.ids) :
  Unused issued c' i
  := ⟨h.1, fun hi => h.2 (hids hi)⟩

theorem Unused.ne {j : Int} (h : Unused issued c i) (hj : j ∈ c.ids) :
  j ≠ i
  := by
  rintro rfl
  apply h.2 hj

theorem Unused.store (h : Unused issued c i) (hi : i ≠ e.toAbstractRule.id) :
  Unused issued (c.store e) i
  := by
  use h.1
  rw [(ids_store c e).mem_iff, mem_cons, not_or]
  exact ⟨hi, h.2⟩

theorem Numbered.store (h : c.Numbered issued) (he : Unused issued c e.toAbstractRule.id) :
  (c.store e).Numbered issued
  := by
  have hfil : loopShelving.Filed (c.store e).loops ∧ ruleShelving.Filed (c.store e).rules := by
    cases e with
    | loop l => exact ⟨h.filedLoops.add l, h.filedRules⟩
    | rule r => exact ⟨h.filedLoops, h.filedRules.add r⟩
  use hfil.1, hfil.2
  · rw [(ids_store c e).nodup_iff, nodup_cons]
    exact ⟨he.2, h.nodup⟩
  · intro i hi
    rcases mem_cons.mp ((ids_store c e).mem_iff.mp hi) with rfl | hi
    · apply he.1
    · apply h.issued i hi

/-! ### What is removed -/

/-- The identifier of a loop goes with the loop. -/
theorem Numbered.not_mem_withLoops {loops : Bookshelf String Loop} (h : c.Numbered issued)
    (hl : l ∈ c.allLoops) (hnot : ∀ x ∈ loops.all, x.id ≠ l.id) :
  l.id ∉ { c with loops := loops }.ids
  := by
  intro hm
  rcases mem_append.mp hm with hm | hm
  · obtain ⟨x, hx, hid⟩ := mem_map.mp hm
    apply hnot x hx hid
  · obtain ⟨x, hx, hid⟩ := mem_map.mp hm
    apply rule_id_ne_loop h.nodup hl x hx hid

/-- The identifier of a rule goes with the rule. -/
theorem Numbered.not_mem_withRules {rules : Bookshelf String Rule} (h : c.Numbered issued)
    (hr : r ∈ c.allRules) (hnot : ∀ x ∈ rules.all, x.id ≠ r.id) :
  r.id ∉ { c with rules := rules }.ids
  := by
  intro hm
  rcases mem_append.mp hm with hm | hm
  · obtain ⟨x, hx, hid⟩ := mem_map.mp hm
    apply loop_id_ne_rule h.nodup hr x hx hid
  · obtain ⟨x, hx, hid⟩ := mem_map.mp hm
    apply hnot x hx hid

theorem Numbered.not_mem_deleteLoop (h : c.Numbered issued) (hl : l ∈ c.allLoops) :
  l.id ∉ (c.deleteLoop l.id).2.ids
  := h.not_mem_withLoops hl (Shelving.not_mem_removeById h.nodupLoops)

theorem Numbered.not_mem_deleteRule (h : c.Numbered issued) (hr : r ∈ c.allRules) :
  r.id ∉ (c.deleteRule r.id).2.ids
  := h.not_mem_withRules hr (Shelving.not_mem_removeById h.nodupRules)

theorem Numbered.not_mem_deleteLoopLike (h : c.Numbered issued) (hl : l ∈ c.allLoops) :
  l.id ∉ (c.deleteLoopLike l).ids
  := by
  apply h.not_mem_withLoops hl
  apply Shelving.not_mem_removeIn h.nodupLoops
  use l, h.filedLoops.mem_vector hl
  rfl

theorem Numbered.not_mem_deleteRuleLike (h : c.Numbered issued) (hr : r ∈ c.allRules) :
  r.id ∉ (c.deleteRuleLike r).ids
  := by
  apply h.not_mem_withRules hr
  apply Shelving.not_mem_removeIn h.nodupRules
  use r, h.filedRules.mem_vector hr
  rfl

theorem Numbered.isValid_loop (h : c.Numbered issued) (hl : l ∈ c.allLoops) :
  l.isValid = true
  := by
  have hpos := (h.issued _ (mem_ids_loop hl)).1
  simp only [AbstractRule.isValid, decide_eq_true_eq]
  omega

theorem Numbered.findLoop (h : c.Numbered issued) (hl : l ∈ c.allLoops) :
  c.findLoop l.id = some l
  := (Shelving.find?_eq_some_iff_of_nodup h.nodupLoops).mpr ⟨hl, rfl⟩

theorem Numbered.findRule (h : c.Numbered issued) (hr : r ∈ c.allRules) :
  c.findRule r.id = some r
  := (Shelving.find?_eq_some_iff_of_nodup h.nodupRules).mpr ⟨hr, rfl⟩

/-- No loop is found under the identifier of a rule. -/
theorem Numbered.findLoop_rule (h : c.Numbered issued) (hr : r ∈ c.allRules) :
  c.findLoop r.id = none
  := by
  apply List.find?_eq_none.mpr
  intro l hl
  have hne := loop_id_ne_rule h.nodup hr l hl
  simpa using hne

/-! ### Updating -/

theorem Numbered.updateLoop (h : c.Numbered issued)
    (hl : loopShelving.tag l ∈ loopShelving.tags c.loops) :
  (c.updateLoop l).Numbered issued
  := by
  have hids := (h.filedLoops.tags_replace hl).map Prod.snd
  rw [Shelving.map_snd_tags, Shelving.map_snd_tags] at hids
  apply h.part
  · apply hids.subperm.append (List.Subperm.refl _)
  · apply (h.filedLoops.removeIn _ _).add
  · apply h.filedRules

theorem Numbered.updateRule (h : c.Numbered issued)
    (hr : ruleShelving.tag r ∈ ruleShelving.tags c.rules) :
  (c.updateRule r).Numbered issued
  := by
  have hids := (h.filedRules.tags_replace hr).map Prod.snd
  rw [Shelving.map_snd_tags, Shelving.map_snd_tags] at hids
  apply h.part
  · apply (List.Subperm.refl _).append hids.subperm
  · apply h.filedLoops
  · apply (h.filedRules.removeIn _ _).add

/-! ### Exchanging priorities -/

/-- Two entries of `c` and what is left when they are taken out. -/
structure TakesOut (issued : List Int) (c : Configuration) (e e' : Entry) (c₀ : Configuration) :
    Prop where
  removes : c.Removes c₀
  first : e ∈ c.allAbstractRules
  second : e' ∈ c.allAbstractRules
  ne : e.toAbstractRule.id ≠ e'.toAbstractRule.id
  unusedFirst : Unused issued c₀ e.toAbstractRule.id
  unusedSecond : Unused issued c₀ e'.toAbstractRule.id

/-- The entry that is taken out leaves its identifier unused. -/
theorem Numbered.unused_take (h : c.Numbered issued) (he : (c.take i).1 = some e) :
  Unused issued (c.take i).2 i
  := by
  obtain ⟨hm, rfl⟩ := mem_of_take he
  exact ⟨h.issued _ (mem_ids hm), not_mem_take h.nodup he⟩

/-- Exchanging the priorities of two identifiers removes what it finds, or takes two entries
out and puts them back with the priorities exchanged. -/
theorem Numbered.swapPriorities_cases (h : c.Numbered issued) (i j : Int) :
  c.Removes (c.swapPriorities i j) ∨
    ∃ e e' c₀, TakesOut issued c e e' c₀ ∧
      c.swapPriorities i j =
        (c₀.store (e.withPriority e'.toAbstractRule.priority)).store
          (e'.withPriority e.toAbstractRule.priority)
  := by
  have hfst := removes_take c i
  have hsnd := removes_take (c.take i).2 j
  rw [swapPriorities_eq]
  split
  · rename_i e e' he he'
    have hun := h.unused_take he
    have hun' := (hfst.numbered h).unused_take he'
    obtain ⟨hm, rfl⟩ := mem_of_take he
    obtain ⟨hm', rfl⟩ := mem_of_take he'
    right
    refine ⟨e, e', _, ?_, rfl⟩
    constructor
    · apply hfst.trans hsnd
    · apply hm
    · apply hfst.subset hm'
    · apply (hun.ne (mem_ids hm')).symm
    · apply hun.mono hsnd.ids_subperm.subset
    · apply hun'
  · left
    apply hfst.trans hsnd
  · left
    apply hfst

theorem Numbered.swapPriorities (h : c.Numbered issued) (i j : Int) :
  (c.swapPriorities i j).Numbered issued
  := by
  rcases h.swapPriorities_cases i j with hrem | ⟨e, e', c₀, htake, heq⟩
  · apply hrem.numbered h
  · rw [heq]
    apply Numbered.store
    · apply (htake.removes.numbered h).store
      rw [Entry.id_withPriority]
      apply htake.unusedFirst
    · rw [Entry.id_withPriority]
      apply htake.unusedSecond.store
      rw [Entry.id_withPriority]
      apply htake.ne.symm

/-! ### Programs -/

theorem id_setProgram (r : AbstractRule) (p : Program) (allow : Bool) :
  (r.setProgram p allow).id = r.id
  := by
  unfold AbstractRule.setProgram
  split <;> rfl

/-- An entry gets a program of the same name. -/
theorem name_setProgram {r : AbstractRule} {p : Program} (h : r.program.name = p.name)
    (allow : Bool) :
  (r.setProgram p allow).program.name = p.name
  := by
  unfold AbstractRule.setProgram
  split
  · rfl
  · apply h

/-- The entries under a name get a program of that name. -/
theorem Numbered.setPrograms (h : c.Numbered issued) {k : String} {p : Program} (allow : Bool)
    {programs : OrdMap String Program}
    (hn : p.name = k ∨ c.loops.vector k = [] ∧ c.rules.vector k = []) :
  { c with
    programs := programs
    loops := c.loops.mapAt k (·.setProgram p allow)
    rules := c.rules.mapAt k (·.setProgram p allow) }.Numbered issued
  := by
  have hloop : ∀ l ∈ c.loops.vector k, (l.setProgram p allow).program.name = k := by
    intro l hl
    rcases hn with rfl | ⟨hemp, -⟩
    · apply name_setProgram (h.filedLoops _ l hl)
    · rw [hemp] at hl
      cases hl
  have hrule : ∀ r ∈ c.rules.vector k, (r.setProgram p allow).program.name = k := by
    intro r hr
    rcases hn with rfl | ⟨-, hemp⟩
    · apply name_setProgram (h.filedRules _ r hr)
    · rw [hemp] at hr
      cases hr
  have hls := c.loops.map_all_mapAt k (f := (·.setProgram p allow)) (g := (·.id))
    fun l _ => id_setProgram l.toAbstractRule p allow
  have hrs := c.rules.map_all_mapAt k (f := (·.setProgram p allow)) (g := (·.id))
    fun r _ => id_setProgram r.toAbstractRule p allow
  apply h.part
  · apply (hls.append hrs).subperm
  · apply h.filedLoops.mapAt hloop
  · apply h.filedRules.mapAt hrule

theorem Numbered.addProgram (h : c.Numbered issued) (p : Program) :
  (c.addProgram p).Numbered issued
  := by
  unfold Configuration.addProgram
  split
  · apply h
  · apply h.setPrograms false (.inl rfl)

theorem Numbered.updateProgram (h : c.Numbered issued) {oldName : String} {p : Program}
    (hn : oldName ∈ c.programs → p.name = oldName ∨
      c.loops.vector oldName = [] ∧ c.rules.vector oldName = []) :
  (c.updateProgram oldName p).2.Numbered issued
  := by
  unfold Configuration.updateProgram
  split
  · rename_i hm
    apply h.setPrograms true (hn hm)
  · apply h

theorem Numbered.deleteProgram (h : c.Numbered issued) (hk : c.Wellkept) (name : String) :
  (c.deleteProgram name).2.Numbered issued
  := by
  unfold Configuration.deleteProgram
  split
  · rename_i p hp
    apply h.setPrograms true
    left
    apply (hk.programs name p hp).symm
  · apply h

/-! ### Domains -/

end Configuration

/-- The loop as `updateDomain` leaves it. -/
def Loop.renamed (oldName : String) (d : Domain) (l : Loop) : Loop :=
  let (trule, trules) := deleteTRule oldName l.tRules
  if trule.isValid then
    { l with tRules := trules ++ [{ trule with fromDomain := d.name }] }
  else l

/-- The rule as `updateDomain` leaves it. -/
def Rule.renamed (oldName : String) (d : Domain) (r : Rule) : Rule :=
  let (trule, trules) := deleteTRule oldName r.tRules
  let r' :=
    if trule.isValid then
      { r with tRules := trules ++ [{ trule with fromDomain := d.name }] }
    else { r with tRules := trules }
  if r.transitTo.name = oldName then r'.setTransitTo d else if trule.isValid then r' else r

/-- The loop as `deleteDomain` leaves it, if it does. -/
def Loop.dropped (name : String) (l : Loop) : Option Loop :=
  let (trule, trules) := deleteTRule name l.tRules
  if trule.isValid then
    if trules = [] then none else some { l with tRules := trules }
  else some l

/-- The rule as `deleteDomain` leaves it, if it does. -/
def Rule.dropped (name : String) (r : Rule) : Option Rule :=
  let (trule, trules) := deleteTRule name r.tRules
  if r.transitTo.name = name then none
  else if trule.isValid then
    if trules = [] then none else some { r with tRules := trules }
  else some r

namespace Configuration

variable {issued : List Int} {c : Configuration} {l : Loop} {r : Rule} {i : Int}

theorem tag_setTransitTo (r : Rule) (d : Domain) :
  ruleShelving.tag (r.setTransitTo d) = ruleShelving.tag r
  := by
  unfold Rule.setTransitTo
  split <;> rfl

theorem replaces_renameInLoop (oldName : String) (d : Domain) (hfil : loopShelving.Filed c.loops)
    (hnd : (c.loops.all.map loopShelving.id).Nodup) (hl : l ∈ c.loops.all) :
  loopShelving.Replaces c.loops l (renameInLoop oldName d c l).loops (some (l.renamed oldName d))
  := by
  have hsame := Shelving.Replaces.refl hfil hl
  simp only [renameInLoop, Loop.renamed]
  split
  · apply hsame.replace hnd
    rfl
  · apply hsame

theorem replaces_dropFromLoop (name : String) (hfil : loopShelving.Filed c.loops)
    (hnd : (c.loops.all.map loopShelving.id).Nodup) (hl : l ∈ c.loops.all) :
  loopShelving.Replaces c.loops l (dropFromLoop name c l).loops (l.dropped name)
  := by
  have hsame := Shelving.Replaces.refl hfil hl
  simp only [dropFromLoop, Loop.dropped]
  split
  · split
    · apply hsame.remove hnd
    · apply hsame.replace hnd
      rfl
  · apply hsame

theorem replaces_renameInRule (oldName : String) (d : Domain) (hfil : ruleShelving.Filed c.rules)
    (hnd : (c.rules.all.map ruleShelving.id).Nodup) (hr : r ∈ c.rules.all) :
  ruleShelving.Replaces c.rules r (renameInRule oldName d c r).rules (some (r.renamed oldName d))
  := by
  have hsame := Shelving.Replaces.refl hfil hr
  simp only [renameInRule, Rule.renamed]
  split
  · have hfst := hsame.replace hnd
      (z := { r with
        tRules := (deleteTRule oldName r.tRules).2 ++
          [{ (deleteTRule oldName r.tRules).1 with fromDomain := d.name }] }) rfl
    split
    · apply hfst.replace hnd
      apply tag_setTransitTo
    · apply hfst
  · split
    · apply hsame.replace hnd
      apply tag_setTransitTo
    · apply hsame

theorem replaces_dropFromRule (name : String) (hfil : ruleShelving.Filed c.rules)
    (hnd : (c.rules.all.map ruleShelving.id).Nodup) (hr : r ∈ c.rules.all) :
  ruleShelving.Replaces c.rules r (dropFromRule name c r).rules (r.dropped name)
  := by
  have hsame := Shelving.Replaces.refl hfil hr
  simp only [dropFromRule, Rule.dropped]
  split
  · split
    · split
      · apply (hsame.remove hnd).remove hnd
      · apply (hsame.replace hnd _).remove hnd
        rfl
    · apply hsame.remove hnd
  · split
    · split
      · apply hsame.remove hnd
      · apply hsame.replace hnd
        rfl
    · apply hsame

/-- Replacing the loops one after the other, and then the rules. -/
theorem rewrites_foldl {f : Configuration → Loop → Configuration}
    {f' : Configuration → Rule → Configuration} {g : Loop → Option Loop}
    {g' : Rule → Option Rule}
    (heq : (c.allLoops.foldl f c).allRules.foldl f' (c.allLoops.foldl f c) = c')
    (hls : loopShelving.Filed c.loops) (hrs : ruleShelving.Filed c.rules)
    (hnd : c.ids.Nodup)
    (hframe : ∀ c l, (f c l).rules = c.rules) (hframe' : ∀ c r, (f' c r).loops = c.loops)
    (hf : ∀ c l, loopShelving.Filed c.loops → (c.loops.all.map loopShelving.id).Nodup →
      l ∈ c.loops.all → loopShelving.Replaces c.loops l (f c l).loops (g l))
    (hf' : ∀ c r, ruleShelving.Filed c.rules → (c.rules.all.map ruleShelving.id).Nodup →
      r ∈ c.rules.all → ruleShelving.Replaces c.rules r (f' c r).rules (g' r)) :
  loopShelving.Rewrites c.loops g c'.loops ∧ ruleShelving.Rewrites c.rules g' c'.rules
  := by
  let c₁ := c.allLoops.foldl f c
  have hrs₁ : c₁.rules = c.rules := by
    apply List.foldlRecOn (motive := fun c' : Configuration => c'.rules = c.rules) _ _ rfl
    intro c' hc' l _
    rw [hframe, hc']
  have hls₁ : c'.loops = c₁.loops := by
    rw [← heq]
    apply List.foldlRecOn (motive := fun c' : Configuration => c'.loops = c₁.loops) _ _ rfl
    intro c' hc' r _
    rw [hframe', hc']
  constructor
  · rw [hls₁]
    apply Shelving.rewrites_foldl Configuration.loops hf hls (nodup_loops_of_ids hnd)
  · rw [← heq, ← hrs₁]
    apply Shelving.rewrites_foldl Configuration.rules hf'
    · rw [hrs₁]
      apply hrs
    · rw [hrs₁]
      apply nodup_rules_of_ids hnd

theorem rules_renameInLoop (oldName : String) (d : Domain) (c : Configuration) (l : Loop) :
  (renameInLoop oldName d c l).rules = c.rules
  := by
  simp only [renameInLoop]
  split <;> rfl

theorem loops_renameInRule (oldName : String) (d : Domain) (c : Configuration) (r : Rule) :
  (renameInRule oldName d c r).loops = c.loops
  := by
  simp only [renameInRule]
  split <;> split <;> rfl

theorem rules_dropFromLoop (name : String) (c : Configuration) (l : Loop) :
  (dropFromLoop name c l).rules = c.rules
  := by
  simp only [dropFromLoop]
  split_ifs <;> rfl

theorem loops_dropFromRule (name : String) (c : Configuration) (r : Rule) :
  (dropFromRule name c r).loops = c.loops
  := by
  simp only [dropFromRule]
  split_ifs <;> rfl

/-- `updateDomain` replaces the domain and edits every entry. -/
theorem updateDomain_eq (hls : loopShelving.Filed c.loops)
    (hrs : ruleShelving.Filed c.rules) (hnd : c.ids.Nodup) {oldName : String} (d : Domain)
    (setDefault : Bool) (hm : oldName ∈ c.domains) :
  ∃ loops rules,
    c.updateDomain oldName d setDefault =
      { c with
        loops := loops
        rules := rules
        domains := (c.domains.erase oldName).insert d.name d
        defaultDomain := if setDefault then d else c.defaultDomain } ∧
    loopShelving.Rewrites c.loops (fun l => some (l.renamed oldName d)) loops ∧
    ruleShelving.Rewrites c.rules (fun r => some (r.renamed oldName d)) rules
  := by
  have hall : c.Stores fun _ => True := fun _ _ => trivial
  obtain ⟨loops, rules, heq⟩ := (hall.rebuilds_updateDomain stable_true d setDefault hm).frame
  refine ⟨loops, rules, heq, ?_⟩
  rw [Configuration.updateDomain, if_pos hm] at heq
  apply rewrites_foldl heq hls hrs hnd (rules_renameInLoop oldName d)
    (loops_renameInRule oldName d)
  · intro c l hfil hnd hl
    apply replaces_renameInLoop oldName d hfil hnd hl
  · intro c r hfil hnd hr
    apply replaces_renameInRule oldName d hfil hnd hr

theorem Numbered.updateDomain (h : c.Numbered issued) (oldName : String) (d : Domain)
    (setDefault : Bool) :
  (c.updateDomain oldName d setDefault).Numbered issued
  := by
  by_cases hm : oldName ∈ c.domains
  · obtain ⟨loops, rules, heq, hls, hrs⟩ :=
      updateDomain_eq h.filedLoops h.filedRules h.nodup d setDefault hm
    rw [heq]
    apply h.part _ hls.filed hrs.filed
    apply hls.ids.append hrs.ids
  · rw [Configuration.updateDomain, if_neg hm]
    apply h

/-- `deleteDomain` removes the domain, and edits or removes every entry. -/
theorem deleteDomain_eq (hls : loopShelving.Filed c.loops)
    (hrs : ruleShelving.Filed c.rules) (hnd : c.ids.Nodup) (name newDefault : String) :
  ∃ loops rules,
    (c.deleteDomain name newDefault).2 =
      { c with
        loops := loops
        rules := rules
        domains := c.domains.erase name
        defaultDomain :=
          if c.defaultDomain = c.domains.getD name .none then
            (c.domains.erase name).getD newDefault .none
          else c.defaultDomain } ∧
    loopShelving.Rewrites c.loops (·.dropped name) loops ∧
    ruleShelving.Rewrites c.rules (·.dropped name) rules
  := by
  have hall : Stores (fun _ => True) { c with domains := c.domains.erase name } :=
    fun _ _ => trivial
  obtain ⟨loops, rules, heq⟩ := (hall.rebuilds_dropFrom stable_true name).frame
  refine ⟨loops, rules, ?_, ?_⟩
  · simp only [Configuration.deleteDomain]
    rw [heq]
    split <;> rfl
  · apply rewrites_foldl heq hls hrs hnd (rules_dropFromLoop name)
      (loops_dropFromRule name)
    · intro c l hfil hnd hl
      apply replaces_dropFromLoop name hfil hnd hl
    · intro c r hfil hnd hr
      apply replaces_dropFromRule name hfil hnd hr

theorem Numbered.deleteDomain (h : c.Numbered issued) (name newDefault : String) :
  (c.deleteDomain name newDefault).2.Numbered issued
  := by
  obtain ⟨loops, rules, heq, hls, hrs⟩ :=
    deleteDomain_eq h.filedLoops h.filedRules h.nodup name newDefault
  rw [heq]
  apply h.part _ hls.filed hrs.filed
  apply hls.ids.append hrs.ids

end Configuration

/-! ### Sessions -/

/-- An update keeps the program name of the entry it replaces, and a program under whose
name entries are stored keeps its name. -/
def Store.KeepsPrograms (s : Store) : Edit → Prop
  | .updateLoop l => ∀ x ∈ s.config.allLoops, x.id = l.id → x.program.name = l.program.name
  | .updateRule r => ∀ x ∈ s.config.allRules, x.id = r.id → x.program.name = r.program.name
  | .updateProgram oldName prog =>
      oldName ∈ s.config.programs → prog.name = oldName ∨
        s.config.loops.vector oldName = [] ∧ s.config.rules.vector oldName = []
  | _ => True

/-- An editing step that keeps the programs keeps the entries numbered. -/
theorem Configuration.Numbered.edit {s s' : Store} {a : Edit} (h : s.config.Numbered s.issued)
    (hk : s.config.Wellkept) (ha : s.KeepsPrograms a) (hstep : s.edit a = some s') :
  s'.config.Numbered s'.issued
  := by
  cases a with
  | addLoop l =>
    obtain ⟨⟨-, hpos, hnew⟩, hs'⟩ := Option.ite_none_right_eq_some.mp hstep
    obtain rfl := Option.some.inj hs'
    apply (h.issue l.id).store (e := .loop l)
    use ⟨hpos, mem_cons_self⟩
    intro hm
    apply hnew (h.issued _ hm).2
  | addRule r =>
    obtain ⟨⟨-, hpos, hnew⟩, hs'⟩ := Option.ite_none_right_eq_some.mp hstep
    obtain rfl := Option.some.inj hs'
    apply (h.issue r.id).store (e := .rule r)
    use ⟨hpos, mem_cons_self⟩
    intro hm
    apply hnew (h.issued _ hm).2
  | updateLoop l =>
    obtain ⟨⟨x, hx, hid, -⟩, hs'⟩ := Option.ite_none_right_eq_some.mp hstep
    obtain rfl := Option.some.inj hs'
    apply h.updateLoop
    apply mem_map.mpr
    use x, hx, Prod.ext (ha x hx hid) hid
  | updateRule r =>
    obtain ⟨⟨x, hx, hid, -⟩, hs'⟩ := Option.ite_none_right_eq_some.mp hstep
    obtain rfl := Option.some.inj hs'
    apply h.updateRule
    apply mem_map.mpr
    use x, hx, Prod.ext (ha x hx hid) hid
  | deleteLoop id =>
    obtain rfl := Option.some.inj hstep
    apply (removes_deleteLoop _ id).numbered h
  | deleteRule id =>
    obtain rfl := Option.some.inj hstep
    apply (removes_deleteRule _ id).numbered h
  | deleteLoopLike l =>
    obtain rfl := Option.some.inj hstep
    apply Removes.numbered (Rebuilds.refl.loops _ _) h
  | deleteRuleLike r =>
    obtain rfl := Option.some.inj hstep
    apply Removes.numbered (Rebuilds.refl.rules _ _) h
  | deleteAbstractRule id =>
    obtain rfl := Option.some.inj hstep
    apply (removes_deleteAbstractRule _ id).numbered h
  | swapPriorities id otherId =>
    obtain rfl := Option.some.inj hstep
    apply h.swapPriorities id otherId
  | addProgram p =>
    obtain rfl := Option.some.inj hstep
    apply h.addProgram p
  | updateProgram oldName p =>
    obtain rfl := Option.some.inj hstep
    apply h.updateProgram ha
  | deleteProgram name =>
    obtain rfl := Option.some.inj hstep
    apply h.deleteProgram hk name
  | addDomain d setDefault =>
    obtain rfl := Option.some.inj hstep
    simp only [Configuration.addDomain]
    split
    · exact { h with }
    · apply h
  | updateDomain oldName d setDefault =>
    obtain rfl := Option.some.inj hstep
    apply h.updateDomain oldName d setDefault
  | deleteDomain name newDefault =>
    obtain rfl := Option.some.inj hstep
    apply h.deleteDomain name newDefault

/-- The entries read from a file are numbered. -/
theorem Configuration.Numbered.of_load {programs : List Program} {n : Int} {root : Option Dom}
    (hn : 0 ≤ n) :
  (Store.loaded programs n root).config.Numbered (Store.loaded programs n root).issued
  := by
  have hload := Loader.inv_load programs n root
  refine ⟨hload.filedLoops, hload.filedRules, hload.nodup, ?_⟩
  intro i hi
  have hbds := hload.bounds i hi
  use by omega, hi

/-- The entries stay numbered in the sessions that keep the programs. -/
theorem Configuration.Numbered.of_reach {s : Store} (h : editor.Reach Store.KeepsPrograms s) :
  s.config.Numbered s.issued
  := by
  have hboth : s.config.Numbered s.issued ∧ s.config.Wellkept := by
    apply Machine.Reach.invariant _ _ h
    · rintro s ⟨programs, n, root, hn, rfl⟩
      exact ⟨Numbered.of_load hn, (Loader.inv_load programs n root).wellkept⟩
    · rintro s a s' ⟨hs, hk⟩ ha hstep
      exact ⟨hs.edit hk ha hstep, (changes_of_edit hstep).wellkept hk⟩
  apply hboth.1

end Policy

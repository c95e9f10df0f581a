import Contextd.Policy.Rebuilding

/-!
# Editing sessions

`editor` is the machine of the editing sessions: it starts with a configuration read from a file,
and its steps are the public operations of `Configuration` that change it.  A rule that is added is
newly constructed, with a fresh identifier as its priority; one that is updated is a copy of one in
the store, to which setters were applied.  Every session keeps the vectors ordered by priority, and
programs and domains stored under their names (`Wellkept`).
-/

namespace Policy

open List

/-- A configuration, and the identifiers of the rules it was ever given. -/
structure Store where
  config : Configuration
  issued : List Int

/-- The configuration read from a file. -/
def Store.loaded (programs : List Program) (idCounter : Int) (root : Option Dom) : Store :=
  let c := (load (programMap programs) idCounter root).config
  ⟨c, c.ids⟩

/-- The operations that change a configuration. -/
inductive Edit where
  | addLoop (loop : Loop)
  | addRule (rule : Rule)
  | updateLoop (loop : Loop)
  | updateRule (rule : Rule)
  | deleteLoop (id : Int)
  | deleteRule (id : Int)
  | deleteLoopLike (loop : Loop)
  | deleteRuleLike (rule : Rule)
  | deleteAbstractRule (id : Int)
  | swapPriorities (id otherId : Int)
  | addProgram (p : Program)
  | updateProgram (oldName : String) (prog : Program)
  | deleteProgram (name : String)
  | addDomain (domain : Domain) (setDefault : Bool)
  | updateDomain (oldName : String) (domain : Domain) (setDefault : Bool)
  | deleteDomain (name newDefault : String)

namespace Store

/-- The rule is newly constructed: its identifier is fresh and is its priority. -/
def IsNew (s : Store) (r : AbstractRule) : Prop :=
  r.priority = r.id ∧ 0 < r.id ∧ r.id ∉ s.issued

instance (s : Store) (r : AbstractRule) : Decidable (s.IsNew r) :=
  inferInstanceAs (Decidable (_ ∧ _ ∧ _))

/-- The loop is a copy of one in the store, to which setters were applied. -/
def IsCopyLoop (s : Store) (l : Loop) : Prop :=
  ∃ x ∈ s.config.allLoops, x.id = l.id ∧ x.priority = l.priority

instance (s : Store) (l : Loop) : Decidable (s.IsCopyLoop l) :=
  inferInstanceAs (Decidable (∃ x ∈ s.config.allLoops, _))

/-- The rule is a copy of one in the store, to which setters were applied.  The target
domain is not set to the invalid one. -/
def IsCopyRule (s : Store) (r : Rule) : Prop :=
  ∃ x ∈ s.config.allRules, x.id = r.id ∧ x.priority = r.priority ∧
    (r.transitTo = x.transitTo ∨ r.transitTo ≠ .none)

instance (s : Store) (r : Rule) : Decidable (s.IsCopyRule r) :=
  inferInstanceAs (Decidable (∃ x ∈ s.config.allRules, _))

/-- An editing step. -/
def edit (s : Store) : Edit → Option Store
  | .addLoop l =>
      if s.IsNew l.toAbstractRule then some ⟨s.config.addLoop l, l.id :: s.issued⟩ else none
  | .addRule r =>
      if s.IsNew r.toAbstractRule then some ⟨s.config.addRule r, r.id :: s.issued⟩ else none
  | .updateLoop l =>
      if s.IsCopyLoop l then some { s with config := s.config.updateLoop l } else none
  | .updateRule r =>
      if s.IsCopyRule r then some { s with config := s.config.updateRule r } else none
  | .deleteLoop id => some { s with config := (s.config.deleteLoop id).2 }
  | .deleteRule id => some { s with config := (s.config.deleteRule id).2 }
  | .deleteLoopLike l => some { s with config := s.config.deleteLoopLike l }
  | .deleteRuleLike r => some { s with config := s.config.deleteRuleLike r }
  | .deleteAbstractRule id => some { s with config := (s.config.deleteAbstractRule id).2 }
  | .swapPriorities id otherId =>
      some { s with config := s.config.swapPriorities id otherId }
  | .addProgram p => some { s with config := s.config.addProgram p }
  | .updateProgram oldName prog =>
      some { s with config := (s.config.updateProgram oldName prog).2 }
  | .deleteProgram name => some { s with config := (s.config.deleteProgram name).2 }
  | .addDomain d setDefault => some { s with config := s.config.addDomain d setDefault }
  | .updateDomain oldName d setDefault =>
      some { s with config := s.config.updateDomain oldName d setDefault }
  | .deleteDomain name newDefault =>
      some { s with config := (s.config.deleteDomain name newDefault).2 }

end Store

/-- The editing sessions. -/
def editor : Machine Store Edit where
  init s := ∃ programs idCounter root, 0 ≤ idCounter ∧ s = .loaded programs idCounter root
  step := Store.edit

/-! ### What every session keeps -/

/-- The vectors are ordered, programs and domains are stored under their names, and the
paths of the programs that are not killed are absolute. -/
structure Configuration.Wellkept (c : Configuration) : Prop where
  loops : loopShelving.Sorted c.loops
  rules : ruleShelving.Sorted c.rules
  domains : ∀ (k : String) (d : Domain), c.domains[k]? = some d → d = .none ∨ d.name = k
  programs : ∀ (k : String) (p : Program), c.programs[k]? = some p → p.name = k
  noKill : ∀ path ∈ c.noKillPrograms, path ≠ "" ∧ isAbsolute path = true

namespace Configuration

variable {c c' : Configuration} {A : Entry → Prop}

theorem Rebuilds.wellkept (h : c.Rebuilds A c') (hc : c.Wellkept) :
  c'.Wellkept
  := by
  obtain ⟨hls, hrs⟩ := h.ordered ⟨hc.loops, hc.rules⟩
  obtain ⟨loops, rules, rfl⟩ := h.frame
  exact { hc with loops := hls, rules := hrs }

theorem priority_setProgram (r : AbstractRule) (p : Program) (allow : Bool) :
  (r.setProgram p allow).priority = r.priority
  := by
  unfold AbstractRule.setProgram
  split <;> rfl

/-- Changing the program of the entries under a name keeps the vectors ordered. -/
theorem Wellkept.setPrograms (h : c.Wellkept) (k : String) (p : Program) (allow : Bool)
    {programs : OrdMap String Program}
    (hprogs : ∀ (k : String) (p : Program), programs[k]? = some p → p.name = k) :
  { c with
    programs := programs
    loops := c.loops.mapAt k (·.setProgram p allow)
    rules := c.rules.mapAt k (·.setProgram p allow) }.Wellkept
  := by
  constructor
  · apply h.loops.mapAt
    intro l
    apply priority_setProgram
  · apply h.rules.mapAt
    intro r
    apply priority_setProgram
  · apply h.domains
  · apply hprogs
  · apply h.noKill

/-- A map whose values carry their keys keeps doing so. -/
theorem insert_keyed {ν : Type} {m : OrdMap String ν} {name : ν → String}
    (h : ∀ (k : String) (x : ν), m[k]? = some x → name x = k) (y : ν) :
  ∀ (k : String) (x : ν), (m.insert (name y) y)[k]? = some x → name x = k
  := by
  intro k x hx
  rw [Std.ExtTreeMap.getElem?_insert] at hx
  split at hx
  · rename_i hk
    obtain rfl := Option.some.inj hx
    simpa using hk
  · apply h k x hx

theorem erase_keyed {ν : Type} {m : OrdMap String ν} {P : String → ν → Prop}
    (h : ∀ (k : String) (x : ν), m[k]? = some x → P k x) (k' : String) :
  ∀ (k : String) (x : ν), (m.erase k')[k]? = some x → P k x
  := by
  intro k x hx
  rw [Std.ExtTreeMap.getElem?_erase] at hx
  split at hx
  · cases hx
  · apply h k x hx

/-- A domain is stored under its name. -/
theorem insert_domain {domains : OrdMap String Domain}
    (h : ∀ (k : String) (d : Domain), domains[k]? = some d → d = .none ∨ d.name = k)
    (domain : Domain) :
  ∀ (k : String) (d : Domain), (domains.insert domain.name domain)[k]? = some d →
    d = .none ∨ d.name = k
  := by
  intro k d hd
  rw [Std.ExtTreeMap.getElem?_insert] at hd
  split at hd
  · rename_i hk
    obtain rfl := Option.some.inj hd
    right
    simpa using hk
  · apply h k d hd

theorem Wellkept.addDomain (h : c.Wellkept) (d : Domain) (setDefault : Bool) :
  (c.addDomain d setDefault).Wellkept
  := by
  unfold Configuration.addDomain
  split
  · exact { h with domains := insert_domain h.domains d }
  · apply h

theorem Wellkept.updateDomain (h : c.Wellkept) (oldName : String) (d : Domain) (setDefault : Bool) :
  (c.updateDomain oldName d setDefault).Wellkept
  := by
  by_cases hm : oldName ∈ c.domains
  · apply Rebuilds.wellkept
      (Stores.rebuilds_updateDomain (fun _ _ => trivial) stable_true d setDefault hm)
    exact { h with domains := insert_domain (erase_keyed h.domains oldName) d }
  · rw [Configuration.updateDomain, if_neg hm]
    apply h

theorem Wellkept.deleteDomain (h : c.Wellkept) (name newDefault : String) :
  (c.deleteDomain name newDefault).2.Wellkept
  := by
  obtain ⟨c', d, hreb, heq⟩ :=
    Stores.rebuilds_deleteDomain (fun _ _ => trivial) stable_true name newDefault
  rw [heq]
  have hdoms : { c with domains := c.domains.erase name }.Wellkept :=
    { h with domains := erase_keyed h.domains name }
  exact { hreb.wellkept hdoms with }

end Configuration

/-! ### What a file gives -/

/-- What holds of the configuration while the file is read, for a counter that started
at `n`: the entries are under the names of their programs, they were numbered in order,
and rules have a target. -/
structure Loader.Inv (n : Int) (s : Loader) : Prop where
  wellkept : s.config.Wellkept
  filedLoops : loopShelving.Filed s.config.loops
  filedRules : ruleShelving.Filed s.config.rules
  nodup : s.config.ids.Nodup
  bounds : ∀ i ∈ s.config.ids, n < i ∧ i ≤ s.idCounter
  counter : n ≤ s.idCounter
  loopPriority : ∀ l ∈ s.config.allLoops, l.priority = l.id
  rulePriority : ∀ r ∈ s.config.allRules, r.priority = r.id
  targets : ∀ r ∈ s.config.allRules, r.transitTo ≠ .none

namespace Loader

variable {n : Int} {s : Loader}

/-- The counter may go on without a rule being stored. -/
theorem Inv.skip (h : s.Inv n) :
  { s with idCounter := s.idCounter + 1 }.Inv n
  := by
  refine { h with bounds := ?_, counter := ?_ }
  · intro i hi
    have hbds := h.bounds i hi
    simp only
    omega
  · have hcounter := h.counter
    simp only
    omega

/-- The program found for a name has that name. -/
theorem Inv.name_programNamed (h : s.Inv n) (name : String) :
  (s.programNamed name).name = name
  := by
  rw [programNamed, Std.ExtTreeMap.getD_eq_getD_getElem?]
  cases hp : s.config.programs[name]? with
  | none => rfl
  | some p => apply h.wellkept.programs name p hp

/-- The next number is new, and within the bounds. -/
theorem Inv.number (h : s.Inv n) {ids : List Int}
    (hp : ids.Perm ((s.idCounter + 1) :: s.config.ids)) :
  ids.Nodup ∧ ∀ i ∈ ids, n < i ∧ i ≤ s.idCounter + 1
  := by
  have hcounter := h.counter
  constructor
  · apply hp.nodup_iff.mpr
    apply nodup_cons.mpr
    use fun hm => by have hle := (h.bounds _ hm).2; omega
    apply h.nodup
  · intro i hi
    rcases mem_cons.mp (hp.mem_iff.mp hi) with rfl | hi
    · omega
    · have hbds := h.bounds i hi
      omega

theorem Inv.parseLoop (h : s.Inv n) (e : Dom) :
  (s.parseLoop e).Inv n
  := by
  unfold Loader.parseLoop
  split
  · rename_i mrules trules _ _
    let loop : Loop := ⟨s.construct e mrules trules⟩
    have hkey : loopShelving.key loop = e.attr "app_name" :=
      h.name_programNamed (e.attr "app_name")
    have hall := s.config.loops.all_push (e.attr "app_name") loop
    have hfil := h.filedLoops.push loop
    rw [hkey] at hfil
    have hle : ∀ l ∈ s.config.allLoops, l.priority ≤ s.idCounter := by
      intro l hl
      rw [h.loopPriority l hl]
      apply (h.bounds _ (Configuration.mem_ids_loop hl)).2
    obtain ⟨hnd, hbds⟩ := h.number ((hall.map (·.id)).append_right _)
    constructor
    · refine { h.wellkept with loops := h.wellkept.loops.push ?_ }
      intro l hl
      apply Int.le_of_lt (Int.lt_add_one_of_le (hle l (Bookshelf.mem_all.mpr ⟨_, hl⟩)))
    · apply hfil
    · apply h.filedRules
    · apply hnd
    · apply hbds
    · have hcounter := h.counter
      simp only
      omega
    · intro l hl
      rcases mem_cons.mp (hall.mem_iff.mp hl) with rfl | hl
      · rfl
      · apply h.loopPriority l hl
    · apply h.rulePriority
    · apply h.targets
  · apply h.skip

/-- Reading the target of a rule may store the invalid domain. -/
theorem Inv.readDomain (h : s.Inv n) (name : String) :
  { s with
    config := { s.config with
      domains := s.config.domains.insert name (s.config.domains.getD name .none) } }.Inv n
  := by
  refine { h with wellkept := { h.wellkept with domains := ?_ } }
  intro k d hd
  rw [Std.ExtTreeMap.getElem?_insert] at hd
  split at hd
  · rename_i hk
    obtain rfl : name = k := by simpa using hk
    rw [Std.ExtTreeMap.getD_eq_getD_getElem?] at hd
    cases hd' : s.config.domains[name]? with
    | none =>
      rw [hd'] at hd
      left
      apply (Option.some.inj hd).symm
    | some d' =>
      rw [hd'] at hd
      obtain rfl := Option.some.inj hd
      apply h.wellkept.domains name d' hd'
  · apply h.wellkept.domains k d hd

theorem Inv.parseRule (h : s.Inv n) (e : Dom) :
  (s.parseRule e).Inv n
  := by
  have hread := h.readDomain (e.attr "to_domain")
  unfold Loader.parseRule
  simp only
  split
  · apply hread
  · rename_i htgt
    split
    · rename_i mrules trules _ _
      let rule : Rule :=
        { s.construct e mrules trules with
          transitTo := s.config.domains.getD (e.attr "to_domain") .none }
      have hkey : ruleShelving.key rule = e.attr "app_name" :=
        h.name_programNamed (e.attr "app_name")
      have hall := s.config.rules.all_push (e.attr "app_name") rule
      have hfil := h.filedRules.push rule
      rw [hkey] at hfil
      have hle : ∀ r ∈ s.config.allRules, r.priority ≤ s.idCounter := by
        intro r hr
        rw [h.rulePriority r hr]
        apply (h.bounds _ (Configuration.mem_ids_rule hr)).2
      obtain ⟨hnd, hbds⟩ :=
        h.number (((hall.map (·.id)).append_left _).trans perm_middle)
      constructor
      · refine { hread.wellkept with rules := h.wellkept.rules.push ?_ }
        intro r hr
        apply Int.le_of_lt (Int.lt_add_one_of_le (hle r (Bookshelf.mem_all.mpr ⟨_, hr⟩)))
      · apply h.filedLoops
      · apply hfil
      · apply hnd
      · apply hbds
      · have hcounter := h.counter
        simp only
        omega
      · apply h.loopPriority
      · intro r hr
        rcases mem_cons.mp (hall.mem_iff.mp hr) with rfl | hr
        · rfl
        · apply h.rulePriority r hr
      · intro r hr
        rcases mem_cons.mp (hall.mem_iff.mp hr) with rfl | hr
        · apply htgt
        · apply h.targets r hr
    · apply hread.skip

theorem Inv.parseDomain (h : s.Inv n) (e : Dom) :
  (s.parseDomain e).Inv n
  := by
  unfold Loader.parseDomain
  simp only
  split
  · exact { h with
      wellkept := { h.wellkept with
        domains := Configuration.insert_domain h.wellkept.domains (domainOf e) } }
  · apply h

theorem Inv.parseNoKillProgram (h : s.Inv n) (e : Dom) :
  (s.parseNoKillProgram e).Inv n
  := by
  unfold Loader.parseNoKillProgram
  simp only
  split
  · rename_i hp
    refine { h with wellkept := { h.wellkept with noKill := ?_ } }
    intro path hm
    rcases mem_append.mp hm with hm | hm
    · apply h.wellkept.noKill path hm
    · rw [mem_singleton.mp hm]
      apply hp
  · apply h

theorem Inv.parseAbstractRule (h : s.Inv n) (e : Dom) :
  (s.parseAbstractRule e).Inv n
  := by
  unfold Loader.parseAbstractRule
  split
  · apply h.parseLoop
  · split
    · apply h.parseRule
    · apply h

theorem Inv.parseRoot (h : s.Inv n) (root : Dom) :
  (s.parseRoot root).Inv n
  := by
  unfold Loader.parseRoot
  apply List.foldlRecOn
  · apply List.foldlRecOn
    · apply List.foldlRecOn
      · apply h
      · intro s' hs' e _
        apply hs'.parseDomain
    · intro s' hs' e _
      apply hs'.parseNoKillProgram
  · intro s' hs' e _
    apply hs'.parseAbstractRule

/-- Programs are stored under their names. -/
theorem programMap_keyed (programs : List Program) :
  ∀ (k : String) (p : Program), (programMap programs)[k]? = some p → p.name = k
  := by
  unfold programMap
  apply List.foldlRecOn (motive := fun m : OrdMap String Program =>
    ∀ (k : String) (p : Program), m[k]? = some p → p.name = k)
  · intro k p hp
    simp at hp
  · intro m hm p _
    apply Configuration.insert_keyed hm

/-- The invariant holds before the file is read. -/
theorem inv_empty (programs : List Program) (n : Int) :
  Loader.Inv n ⟨.empty (programMap programs), n⟩
  := by
  have hvec : ∀ {α : Type} (k : String), Bookshelf.vector (∅ : Bookshelf String α) k = [] := by
    intro α k
    simp [Bookshelf.vector]
  have hall : ∀ {α : Type}, Bookshelf.all (∅ : Bookshelf String α) = [] := by
    intro α
    simp [Bookshelf.all]
  constructor
  · constructor
    · intro k
      simp [Configuration.empty, hvec, Shelving.Ordered]
    · intro k
      simp [Configuration.empty, hvec, Shelving.Ordered]
    · simp [Configuration.empty]
    · apply programMap_keyed
    · simp [Configuration.empty]
  · intro k
    simp [Configuration.empty, hvec]
  · intro k
    simp [Configuration.empty, hvec]
  · simp [Configuration.empty, Configuration.ids, hall]
  · simp [Configuration.empty, Configuration.ids, hall]
  · apply Int.le_refl
  · simp [Configuration.empty, Configuration.allLoops, hall]
  · simp [Configuration.empty, Configuration.allRules, hall]
  · simp [Configuration.empty, Configuration.allRules, hall]

/-- The invariant holds of every configuration read from a file. -/
theorem inv_load (programs : List Program) (n : Int) (root : Option Dom) :
  (load (programMap programs) n root).Inv n
  := by
  unfold load
  simp only
  split
  · split
    · apply (inv_empty programs n).parseRoot
    · apply inv_empty
  · apply inv_empty

end Loader

/-! ### Sessions -/

/-- The entry that a step brings into the store. -/
def Edit.entry? : Edit → Option Entry
  | .addLoop l | .updateLoop l => some (.loop l)
  | .addRule r | .updateRule r => some (.rule r)
  | _ => none

/-- The steps that edit the entries that are there. -/
def Edit.rewrites : Edit → Bool
  | .swapPriorities .. | .updateDomain .. | .deleteDomain .. => true
  | _ => false

namespace Configuration

/-- What an editing step does: it removes entries and stores the one it brings, changes the
program of the entries under a name, exchanges priorities, or changes the domains. -/
inductive Changes (c : Configuration) : Edit → Configuration → Prop
  | entries {a : Edit} {c' : Configuration} : c.Rebuilds (· ∈ a.entry?) c' → Changes c a c'
  | programs {a : Edit} (k : String) (p : Program) (allow : Bool)
      {programs : OrdMap String Program} :
      ((∀ (k : String) (p : Program), c.programs[k]? = some p → p.name = k) →
        ∀ (k : String) (p : Program), programs[k]? = some p → p.name = k) →
      Changes c a
        { c with
          programs := programs
          loops := c.loops.mapAt k (·.setProgram p allow)
          rules := c.rules.mapAt k (·.setProgram p allow) }
  | swapPriorities (i j : Int) : Changes c (.swapPriorities i j) (c.swapPriorities i j)
  | addDomain (d : Domain) (setDefault : Bool) :
      Changes c (.addDomain d setDefault) (c.addDomain d setDefault)
  | updateDomain (oldName : String) (d : Domain) (setDefault : Bool) :
      Changes c (.updateDomain oldName d setDefault) (c.updateDomain oldName d setDefault)
  | deleteDomain (name newDefault : String) :
      Changes c (.deleteDomain name newDefault) (c.deleteDomain name newDefault).2

/-- Every editing step is one of these changes. -/
theorem changes_of_edit {s s' : Store} {a : Edit} (h : s.edit a = some s') :
  s.config.Changes a s'.config
  := by
  cases a with
  | addLoop l =>
    obtain ⟨-, hs'⟩ := Option.ite_none_right_eq_some.mp h
    obtain rfl := Option.some.inj hs'
    exact .entries (.store (e := .loop l) rfl .refl)
  | addRule r =>
    obtain ⟨-, hs'⟩ := Option.ite_none_right_eq_some.mp h
    obtain rfl := Option.some.inj hs'
    exact .entries (.store (e := .rule r) rfl .refl)
  | updateLoop l =>
    obtain ⟨-, hs'⟩ := Option.ite_none_right_eq_some.mp h
    obtain rfl := Option.some.inj hs'
    exact .entries (rebuilds_updateLoop rfl)
  | updateRule r =>
    obtain ⟨-, hs'⟩ := Option.ite_none_right_eq_some.mp h
    obtain rfl := Option.some.inj hs'
    exact .entries (rebuilds_updateRule rfl)
  | deleteLoop i =>
    obtain rfl := Option.some.inj h
    exact .entries (removes_deleteLoop _ i).rebuilds
  | deleteRule i =>
    obtain rfl := Option.some.inj h
    exact .entries (removes_deleteRule _ i).rebuilds
  | deleteLoopLike l =>
    obtain rfl := Option.some.inj h
    exact .entries (Rebuilds.refl.loops _ _)
  | deleteRuleLike r =>
    obtain rfl := Option.some.inj h
    exact .entries (Rebuilds.refl.rules _ _)
  | deleteAbstractRule i =>
    obtain rfl := Option.some.inj h
    exact .entries (removes_deleteAbstractRule _ i).rebuilds
  | addProgram p =>
    obtain rfl := Option.some.inj h
    simp only [addProgram]
    split
    · exact .entries .refl
    · exact .programs _ _ _ fun hkey => insert_keyed hkey p
  | updateProgram oldName p =>
    obtain rfl := Option.some.inj h
    simp only [updateProgram]
    split
    · exact .programs _ _ _ fun hkey => insert_keyed (erase_keyed hkey oldName) p
    · exact .entries .refl
  | deleteProgram name =>
    obtain rfl := Option.some.inj h
    simp only [deleteProgram]
    split
    · exact .programs _ _ _ fun hkey => erase_keyed hkey name
    · exact .entries .refl
  | swapPriorities i j =>
    obtain rfl := Option.some.inj h
    apply Changes.swapPriorities
  | addDomain d setDefault =>
    obtain rfl := Option.some.inj h
    apply Changes.addDomain
  | updateDomain oldName d setDefault =>
    obtain rfl := Option.some.inj h
    apply Changes.updateDomain
  | deleteDomain name newDefault =>
    obtain rfl := Option.some.inj h
    apply Changes.deleteDomain

variable {c c' : Configuration} {a : Edit}

/-- Every editing step keeps the configuration well kept. -/
theorem Changes.wellkept (hc : c.Changes a c') (h : c.Wellkept) :
  c'.Wellkept
  := by
  cases hc with
  | entries hreb => apply hreb.wellkept h
  | programs k p allow hkey => apply h.setPrograms k p allow (hkey h.programs)
  | swapPriorities i j =>
    have hall : c.Stores fun _ => True := fun _ _ => trivial
    apply (hall.rebuilds_swapPriorities (fun _ _ _ => trivial) i j).wellkept h
  | addDomain d setDefault => apply h.addDomain d setDefault
  | updateDomain oldName d setDefault => apply h.updateDomain oldName d setDefault
  | deleteDomain name newDefault => apply h.deleteDomain name newDefault

/-- The steps that do not edit the entries keep a property of them that does not depend on
their program, if the entry that the step brings has it. -/
theorem Changes.stores {P : Entry → Prop} (hc : c.Changes a c') (hP : IgnoresProgram P)
    (h : c.Stores P) (hent : ∀ e ∈ a.entry?, P e) (ha : a.rewrites = false) :
  c'.Stores P
  := by
  cases hc with
  | entries hreb => apply hreb.stores hent h
  | programs k p allow hkey => apply h.setPrograms hP
  | addDomain d setDefault =>
    unfold Configuration.addDomain
    split <;> apply h
  | swapPriorities | updateDomain | deleteDomain => cases ha

end Configuration

/-- Every configuration reached in an editing session is well kept. -/
theorem wellkept_of_reach {guard : Store → Edit → Prop} {s : Store} (h : editor.Reach guard s) :
  s.config.Wellkept
  := by
  apply Machine.Reach.invariant _ _ h
  · rintro s ⟨programs, n, root, -, rfl⟩
    apply (Loader.inv_load programs n root).wellkept
  · intro s a s' hs _ hstep
    apply (Configuration.changes_of_edit hstep).wellkept hs

end Policy

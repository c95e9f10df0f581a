import Contextd.Policy.Numbering

/-!
# Coherence of the store

Operations find a loop or a rule by its identifier, under all names, or under the name of its
program.  They find the same one when every entry is stored under the name of its program and no
identifier occurs twice (`Configuration.Coherent`).  The sessions that change no program of a rule
and rename no program (`Store.KeepsNames`) keep the store coherent.
-/

namespace Policy

namespace Configuration

/-- Every rule has a target domain. -/
def Targeted (c : Configuration) : Prop := ∀ r ∈ c.allRules, r.transitTo ≠ .none

/-- Entries are stored under the names of their programs, their identifiers were issued and
occur once, and rules have a target. -/
structure Coherent (issued : List Int) (c : Configuration) : Prop extends
    c.Numbered issued where
  targeted : c.Targeted

variable {issued : List Int} {c : Configuration} {l : Loop} {r : Rule} {i : Int}

/-! ### Targets -/

theorem setTransitTo_ne_none (hr : r.transitTo ≠ .none) (d : Domain) :
  (r.setTransitTo d).transitTo ≠ .none
  := by
  unfold Rule.setTransitTo
  split
  · assumption
  · apply hr

theorem stable_hasTarget :
  Stable (Entry.OnRule (·.transitTo ≠ .none))
  := by
  refine ⟨ignoresProgram_onRule fun r p allow h => h, ?_, ?_, ?_⟩
  · intro l trules h
    trivial
  · intro r trules h
    apply h
  · intro r d h
    apply setTransitTo_ne_none h

/-! ### Looking up -/

theorem Coherent.isValid_rule (h : c.Coherent issued) (hr : r ∈ c.allRules) :
  r.isValid = true
  := by
  have hpos := (h.issued _ (mem_ids_rule hr)).1
  have htgt := h.targeted r hr
  simp only [Rule.isValid, AbstractRule.isValid, Bool.and_eq_true, decide_eq_true_eq]
  constructor
  · omega
  · apply htgt

theorem Coherent.not_mem_deleteAbstractRule_loop (h : c.Coherent issued) (hl : l ∈ c.allLoops) :
  l.id ∉ (c.deleteAbstractRule l.id).2.ids
  := by
  have hf : c.findAbstractRule l.id = some (.loop l) := by
    simp [findAbstractRule, h.toNumbered.findLoop hl, Option.filter_some,
      h.toNumbered.isValid_loop hl]
  simp only [Configuration.deleteAbstractRule, hf]
  apply h.toNumbered.not_mem_deleteLoopLike hl

theorem Coherent.not_mem_deleteAbstractRule_rule (h : c.Coherent issued) (hr : r ∈ c.allRules) :
  r.id ∉ (c.deleteAbstractRule r.id).2.ids
  := by
  have hf : c.findAbstractRule r.id = some (.rule r) := by
    simp [findAbstractRule, h.toNumbered.findLoop_rule hr, h.toNumbered.findRule hr,
      Option.filter_some, h.isValid_rule hr]
  simp only [Configuration.deleteAbstractRule, hf]
  apply h.toNumbered.not_mem_deleteRuleLike hr

end Configuration

/-! ### Sessions -/

/-- An update keeps the program name of the entry it replaces, a program under whose name
entries are stored keeps its name, and a rule that is added has a target. -/
def Store.KeepsNames (s : Store) : Edit → Prop
  | .addRule r => r.transitTo ≠ .none
  | .updateLoop l => ∀ x ∈ s.config.allLoops, x.id = l.id → x.program.name = l.program.name
  | .updateRule r => ∀ x ∈ s.config.allRules, x.id = r.id → x.program.name = r.program.name
  | .updateProgram oldName prog =>
      oldName ∈ s.config.programs → prog.name = oldName ∨
        s.config.loops.vector oldName = [] ∧ s.config.rules.vector oldName = []
  | _ => True

instance Store.KeepsNames.decidable (s : Store) : ∀ a, Decidable (s.KeepsNames a)
  | .addRule r => inferInstanceAs (Decidable (r.transitTo ≠ .none))
  | .updateLoop l =>
      inferInstanceAs
        (Decidable (∀ x ∈ s.config.allLoops, x.id = l.id → x.program.name = l.program.name))
  | .updateRule r =>
      inferInstanceAs
        (Decidable (∀ x ∈ s.config.allRules, x.id = r.id → x.program.name = r.program.name))
  | .updateProgram oldName prog =>
      inferInstanceAs
        (Decidable (oldName ∈ s.config.programs → prog.name = oldName ∨
          s.config.loops.vector oldName = [] ∧ s.config.rules.vector oldName = []))
  | .addLoop _ | .deleteLoop _ | .deleteRule _ | .deleteLoopLike _ | .deleteRuleLike _
  | .deleteAbstractRule _ | .swapPriorities _ _ | .addProgram _ | .deleteProgram _
  | .addDomain _ _ | .updateDomain _ _ _ | .deleteDomain _ _ =>
      inferInstanceAs (Decidable True)

theorem Store.KeepsNames.keepsPrograms {s : Store} {a : Edit} (h : s.KeepsNames a) :
  s.KeepsPrograms a
  := by
  cases a <;> trivial

/-- An editing step that keeps the names keeps the store coherent. -/
theorem Configuration.Coherent.edit {s s' : Store} {a : Edit} (h : s.config.Coherent s.issued)
    (hk : s.config.Wellkept) (ha : s.KeepsNames a) (hs : s.edit a = some s') :
  s'.config.Coherent s'.issued
  := by
  have htgts := stores_onRule.mpr h.targeted
  use h.toNumbered.edit hk ha.keepsPrograms hs
  have hent : ∀ e ∈ a.entry?, e.OnRule (·.transitTo ≠ .none) := by
    intro e he
    cases a with
    | addRule r =>
      cases he
      apply ha
    | updateRule r =>
      cases he
      obtain ⟨⟨x, hx, -, -, htgt⟩, -⟩ := Option.ite_none_right_eq_some.mp hs
      rcases htgt with htgt | htgt
      · rw [Entry.OnRule, htgt]
        apply h.targeted x hx
      · apply htgt
    | addLoop l | updateLoop l =>
      cases he
      trivial
    | _ => cases he
  cases a with
  | swapPriorities i j =>
    obtain rfl := Option.some.inj hs
    apply rules_swapPriorities h.targeted fun _ _ hr => hr
  | updateDomain oldName d setDefault =>
    obtain rfl := Option.some.inj hs
    apply stores_onRule.mp (htgts.updateDomain stable_hasTarget oldName d setDefault)
  | deleteDomain name newDefault =>
    obtain rfl := Option.some.inj hs
    apply stores_onRule.mp (htgts.deleteDomain stable_hasTarget name newDefault)
  | _ =>
    have hsto := (changes_of_edit hs).stores stable_hasTarget.toIgnoresProgram htgts
      hent rfl
    apply stores_onRule.mp hsto

/-- The store stays coherent in the sessions that keep the names. -/
theorem Configuration.Coherent.of_reach {s : Store} (h : editor.Reach Store.KeepsNames s) :
  s.config.Coherent s.issued
  := by
  have hboth : s.config.Coherent s.issued ∧ s.config.Wellkept := by
    apply Machine.Reach.invariant _ _ h
    · rintro s ⟨programs, n, root, hn, rfl⟩
      have hload := Loader.inv_load programs n root
      exact ⟨⟨Numbered.of_load hn, hload.targets⟩, hload.wellkept⟩
    · rintro s a s' ⟨hs, hk⟩ ha hstep
      exact ⟨hs.edit hk ha hstep, (changes_of_edit hstep).wellkept hk⟩
  apply hboth.1

/-- Every entry stored for a program is its own. -/
theorem Configuration.Coherent.entries_eq {issued : List Int} {c : Configuration}
    (h : c.Coherent issued) (p : Program) :
  c.entries p = c.stored p
  := by
  apply List.filter_eq_self.mpr
  intro e he
  simp only [decide_eq_true_eq]
  rcases List.mem_append.mp he with he | he
  · obtain ⟨l, hl, rfl⟩ := List.mem_map.mp he
    apply h.filedLoops _ l hl
  · obtain ⟨r, hr, rfl⟩ := List.mem_map.mp he
    apply h.filedRules _ r hr

/-- In the sessions that keep the names, every loop and rule is stored under the name of its
program, no identifier occurs twice, the entries stored for a program are those the search
considers, and deleting an entry, by its identifier or by value, removes it. -/
theorem lookup_of_keepsNames {s : Store} (h : editor.Reach Store.KeepsNames s) :
  (∀ k, ∀ l ∈ s.config.loops.vector k, l.program.name = k) ∧
  (∀ k, ∀ r ∈ s.config.rules.vector k, r.program.name = k) ∧
  s.config.ids.Nodup ∧
  (∀ p, s.config.entries p = s.config.stored p) ∧
  (∀ l ∈ s.config.allLoops,
    l.id ∉ (s.config.deleteLoop l.id).2.ids ∧ l.id ∉ (s.config.deleteLoopLike l).ids ∧
      l.id ∉ (s.config.deleteAbstractRule l.id).2.ids) ∧
  ∀ r ∈ s.config.allRules,
    r.id ∉ (s.config.deleteRule r.id).2.ids ∧ r.id ∉ (s.config.deleteRuleLike r).ids ∧
      r.id ∉ (s.config.deleteAbstractRule r.id).2.ids
  := by
  have hcoh := Configuration.Coherent.of_reach h
  use hcoh.filedLoops, hcoh.filedRules, hcoh.nodup, hcoh.entries_eq
  constructor
  · intro l hl
    use hcoh.toNumbered.not_mem_deleteLoop hl, hcoh.toNumbered.not_mem_deleteLoopLike hl
    apply hcoh.not_mem_deleteAbstractRule_loop hl
  · intro r hr
    use hcoh.toNumbered.not_mem_deleteRule hr, hcoh.toNumbered.not_mem_deleteRuleLike hr
    apply hcoh.not_mem_deleteAbstractRule_rule hr

/-- A program that reads the mail of the first one. -/
def reader : Program := ⟨"reader", "Reader", "", "/usr/bin/reader", ""⟩

/-- A rule is added, its text is changed, and its program gets another path. -/
def mailSession : List Edit :=
  [.addProgram mailer, .addRule mailRule,
    .updateRule { mailRule with displayName := "send mail" },
    .updateProgram "mailer" { mailer with fullPath := "/bin/mailer" }]

/-- The session keeps the names: the rule is under the name of the mail program, and
deleting it removes it. -/
theorem lookup_of_keepsNames_mailSession :
  ∃ s, editor.run (.loaded [] 0 none) mailSession = some s ∧ 1 ∈ s.config.ids ∧
    s.config.ids.Nodup ∧ s.config.entries mailer = s.config.stored mailer ∧
    ∀ r ∈ s.config.allRules, r.id ∉ (s.config.deleteRule r.id).2.ids
  := by
  have hst : editor.Reach Store.KeepsNames (.loaded [] 0 none) :=
    .init ⟨[], 0, none, by decide, rfl⟩
  have hsession : editor.Along Store.KeepsNames (.loaded [] 0 none) mailSession := by
    decide
  refine ⟨_, rfl, by decide, ?_⟩
  obtain ⟨-, -, hnd, hents, -, hrs⟩ :=
    lookup_of_keepsNames (hst.run mailSession hsession rfl)
  use hnd, hents mailer
  intro r hr
  apply (hrs r hr).1

/-- An update with the program changed leaves the old rule beside the new one, and deleting
the identifier leaves one of them.  Renaming a program leaves its rule under the old name,
where the search passes over it.  A rule without target is not found, so it is not
deleted. -/
theorem renaming_breaks_lookup :
  (∃ s, editor.Reach Machine.anyStep s ∧ ¬ s.config.ids.Nodup ∧
    1 ∈ (s.config.deleteRule 1).2.ids) ∧
  (∃ s, editor.Reach Machine.anyStep s ∧
    (¬ ∀ r ∈ s.config.rules.vector "mailer", r.program.name = "mailer") ∧
    s.config.entries mailer ≠ s.config.stored mailer) ∧
  ∃ s, editor.Reach Machine.anyStep s ∧ 1 ∈ (s.config.deleteAbstractRule 1).2.ids
  := by
  have hst : editor.Reach Machine.anyStep (.loaded [] 0 none) :=
    .init ⟨[], 0, none, by decide, rfl⟩
  refine ⟨?_, ?_, ?_⟩
  · refine ⟨_, hst.run [.addRule mailRule, .updateRule { mailRule with program := reader }]
      (by decide) rfl, by decide, by decide⟩
  · refine ⟨_, hst.run [.addProgram mailer, .addRule mailRule, .updateProgram "mailer" reader]
      (by decide) rfl, by decide, ?_⟩
    intro heq
    have hlen := congrArg List.length heq
    revert hlen
    decide
  · refine ⟨_, hst.run [.addRule { mailRule with transitTo := .none }] (by decide) rfl,
      by decide⟩

end Policy

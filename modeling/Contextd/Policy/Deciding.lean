import Contextd.Policy.Arrangement

/-!
# Decisions after a domain was deleted or renamed

A search is decided by the first entry of the program that has a condition block that holds
(`Decides`).  Deleting or renaming a domain keeps the order of the entries and their condition
blocks, so the same entry decides, with other sources.  Of a deleted domain the sources that are
left do not match less in another domain (`deleteDomain_frame`).  A source that is renamed goes to
the end of the sources, where a pattern may be found first (`updateDomain_renames_iff`).
-/

/-- The characters that have a meaning in a pattern. -/
def metacharacters : List Char :=
  ['\\', '^', '$', '.', '|', '?', '*', '+', '(', ')', '[', ']', '\x7b', '\x7d']

/-- The pattern has no character with a meaning of its own. -/
def IsPlain (pattern : String) : Prop := ∀ ch ∈ pattern.toList, ch ∉ metacharacters

instance (pattern : String) : Decidable (IsPlain pattern) :=
  inferInstanceAs (Decidable (∀ ch ∈ pattern.toList, ch ∉ metacharacters))

/-- What is documented of `QRegExp`: a pattern without metacharacters matches itself only. -/
structure RegExp.Documented (re : RegExp) : Prop where
  exactMatch_plain : ∀ pattern, IsPlain pattern → ∀ s, re.exactMatch pattern s = true ↔ s = pattern

/-- Removing the first entry that has a property does not change what is found among those
that do not have it. -/
theorem List.find?_eraseP {α : Type} {p q : α → Bool} (l : List α)
    (h : ∀ x ∈ l, q x = true → p x = false) :
  (l.eraseP p).find? q = l.find? q
  := by
  induction l with
  | nil => rfl
  | cons x l ih =>
    obtain ⟨hx, ht⟩ := forall_mem_cons.mp h
    by_cases hp : p x = true
    · have hq : q x = false := by
        by_contra hq
        have := hx (by simpa using hq)
        simp [hp] at this
      rw [eraseP_cons_of_pos hp, List.find?_cons_of_neg (by simp [hq])]
    · rw [eraseP_cons_of_neg hp]
      by_cases hq : q x = true
      · rw [List.find?_cons_of_pos hq, List.find?_cons_of_pos hq]
      · rw [List.find?_cons_of_neg hq, List.find?_cons_of_neg hq, ih ht]

namespace Policy

open List

/-! ### Sources with the name of a domain -/

/-- The source has the name of the domain, and is not a pattern that matches it. -/
def TRule.isNamed (name : String) (t : TRule) : Bool := t.fromDomain = name

/-- `deleteTRule` takes out the first source with the name. -/
theorem deleteTRule_eq (name : String) (ts : List TRule) :
  deleteTRule name ts = ((ts.find? (TRule.isNamed name)).getD .none, ts.eraseP (TRule.isNamed name))
  := by
  induction ts with
  | nil => rfl
  | cons t ts ih =>
    rw [deleteTRule]
    by_cases ht : t.fromDomain = name
    · have hnmd : TRule.isNamed name t = true := by simpa [TRule.isNamed] using ht
      rw [if_pos ht, List.find?_cons_of_pos hnmd, eraseP_cons_of_pos hnmd]
      rfl
    · have hnmd : ¬ TRule.isNamed name t = true := by simpa [TRule.isNamed] using ht
      rw [if_neg ht, ih, List.find?_cons_of_neg hnmd, eraseP_cons_of_neg hnmd]

theorem TRule.fromDomain_of_find? {name : String} {ts : List TRule} {t : TRule}
    (h : ts.find? (TRule.isNamed name) = some t) :
  t.fromDomain = name
  := by
  simpa [TRule.isNamed] using List.find?_some h

/-- A source with the name of a domain without metacharacters matches this domain only. -/
theorem TRule.matches_of_isNamed {re : RegExp} (hre : re.Documented) {name : String}
    (hpl : IsPlain name) {t : TRule} (ht : t.isNamed name = true) (domain : String) :
  t.matches re domain = true ↔ domain = name
  := by
  have hn : t.fromDomain = name := by simpa [TRule.isNamed] using ht
  rw [TRule.matches, hn, hre.exactMatch_plain name hpl]

/-! ### The entry that decides -/

/-- The entry is the first one of the program that has a condition block that holds. -/
def Configuration.Decides (re : RegExp) (c : Configuration) (app : Program)
    (values : OrdMap String String) (e : Entry) : Prop :=
  ∃ before after, c.entries app = before ++ e :: after ∧
    (∀ b ∈ before, ¬ b.Holds re values) ∧ e.Holds re values

section

variable {re : RegExp} {c c' : Configuration} {app : Program} {values : OrdMap String String}
  {d : Domain} {e : Entry}

/-- Either an entry decides or none of the program holds. -/
theorem Configuration.decides_or_silent (re : RegExp) (c : Configuration) (app : Program)
    (values : OrdMap String String) :
  (∃ e, c.Decides re app values e) ∨ ∀ e ∈ c.entries app, ¬ e.Holds re values
  := by
  unfold Decides
  induction c.entries app with
  | nil => simp
  | cons x l ih =>
    by_cases hx : x.Holds re values
    · left
      exact ⟨x, [], l, rfl, by simp, hx⟩
    · rcases ih with ⟨e, before, after, rfl, hbef, he⟩ | hsil
      · left
        refine ⟨e, x :: before, after, rfl, ?_, he⟩
        rw [forall_mem_cons]
        exact ⟨hx, hbef⟩
      · right
        rw [forall_mem_cons]
        exact ⟨hx, hsil⟩

/-- Without a valid program there is no transition. -/
theorem Configuration.getFirstMatchingTransition_of_not_isValid (c : Configuration)
    (h : app.isValid = false) :
  c.getFirstMatchingTransition re app d values = none
  := by
  rw [getFirstMatchingTransition_eq_scan, ← append_nil (c.stored app), scan_append_of_silent]
  · rfl
  · intro e _
    rw [Entry.matchesIn_eq, AbstractRule.matches, h]
    rfl

/-- The entry that decides does so through its first source that matches. -/
theorem Configuration.Decides.result (h : c.Decides re app values e) (hval : app.isValid = true) :
  c.getFirstMatchingTransition re app d values =
    (e.toAbstractRule.tRules.find? (·.matches re d.name)).map (e.transition app d)
  := by
  obtain ⟨before, after, hents, hbef, he⟩ := h
  apply getFirstMatchingTransition_of_first hval hents hbef he

/-- The entry that decides is in the store. -/
theorem Configuration.Decides.mem (h : c.Decides re app values e) :
  e ∈ c.entries app
  := by
  obtain ⟨before, after, heq, -⟩ := h
  rw [heq]
  simp

/-- An edit of the entries that keeps their condition blocks keeps the entry that decides. -/
theorem Configuration.Decides.edit {g : Entry → Option Entry}
    (hents : c'.entries app = (c.entries app).filterMap g)
    (hg : ∀ x, ∀ y ∈ g x, y.toAbstractRule.mRules = x.toAbstractRule.mRules)
    (h : c.Decides re app values e) {e' : Entry} (he' : g e = some e') :
  c'.Decides re app values e'
  := by
  obtain ⟨before, after, heq, hbef, hhd⟩ := h
  have hiff : ∀ x, ∀ y ∈ g x, y.Holds re values ↔ x.Holds re values := by
    intro x y hy
    rw [Entry.Holds, Entry.Holds, hg x y hy]
  refine ⟨before.filterMap g, after.filterMap g, ?_, ?_, (hiff e e' he').mpr hhd⟩
  · rw [hents, heq, filterMap_append, filterMap_cons, he']
  · intro b hb
    obtain ⟨x, hx, hxb⟩ := mem_filterMap.mp hb
    rw [hiff x b hxb]
    apply hbef x hx

end

/-! ### Deleting a domain -/

/-- The entry as `deleteDomain` leaves it, if it does. -/
def Entry.dropped (name : String) : Entry → Option Entry
  | .loop l => (l.dropped name).map .loop
  | .rule r => (r.dropped name).map .rule

/-- What an edit leaves of an entry but its sources. -/
structure Entry.SameButSources (e e' : Entry) : Prop where
  rule : e'.toAbstractRule = { e.toAbstractRule with tRules := e'.toAbstractRule.tRules }
  target : ∀ d, e'.target d = e.target d

section

variable {name : String} {e e' : Entry}

theorem Entry.SameButSources.transition_eq (h : e.SameButSources e') (app : Program) (d : Domain) :
  e'.transition app d = e.transition app d
  := by
  have hpr := congrArg AbstractRule.prompt h.rule
  have hnot := congrArg AbstractRule.notify h.rule
  dsimp only at hpr hnot
  funext t
  rw [transition, transition, h.target, hpr, hnot]

/-- The entry that is left has its sources, or all but the first with the name. -/
theorem Entry.dropped_eq_some (h : e.dropped name = some e') :
  e.SameButSources e' ∧
    (e'.toAbstractRule.tRules = e.toAbstractRule.tRules ∨
      e'.toAbstractRule.tRules = e.toAbstractRule.tRules.eraseP (TRule.isNamed name))
  := by
  cases e with
  | loop l =>
    obtain ⟨l', hl', rfl⟩ := Option.map_eq_some_iff.mp h
    simp only [Loop.dropped, deleteTRule_eq] at hl'
    split_ifs at hl' <;> obtain rfl := Option.some.inj hl'
    · exact ⟨⟨rfl, fun _ => rfl⟩, Or.inr rfl⟩
    · exact ⟨⟨rfl, fun _ => rfl⟩, Or.inl rfl⟩
  | rule r =>
    obtain ⟨r', hr', rfl⟩ := Option.map_eq_some_iff.mp h
    simp only [Rule.dropped, deleteTRule_eq] at hr'
    split_ifs at hr' <;> obtain rfl := Option.some.inj hr'
    · exact ⟨⟨rfl, fun _ => rfl⟩, Or.inr rfl⟩
    · exact ⟨⟨rfl, fun _ => rfl⟩, Or.inl rfl⟩

/-- All the sources of an entry are taken out by one removal only when there is one. -/
theorem eq_singleton_of_eraseP {ts : List TRule}
    (hval : ((ts.find? (TRule.isNamed name)).getD .none).isValid = true)
    (hnil : ts.eraseP (TRule.isNamed name) = []) :
  ∃ t, ts = [t] ∧ t.fromDomain = name
  := by
  rcases eraseP_eq_nil_iff.mp hnil with rfl | ⟨t, ht, rfl⟩
  · simp [TRule.none, TRule.isValid] at hval
  · exact ⟨t, rfl, by simpa [TRule.isNamed] using ht⟩

/-- An entry is removed only when it leads to the domain, or has it for its only source. -/
theorem Entry.dropped_eq_none (h : e.dropped name = none) :
  (∃ r, e = .rule r ∧ r.transitTo.name = name) ∨
    ∃ t, e.toAbstractRule.tRules = [t] ∧ t.fromDomain = name
  := by
  cases e with
  | loop l =>
    right
    have hl := Option.map_eq_none_iff.mp h
    simp only [Loop.dropped, deleteTRule_eq] at hl
    split_ifs at hl with hval hnil
    apply eq_singleton_of_eraseP hval hnil
  | rule r =>
    have hr := Option.map_eq_none_iff.mp h
    simp only [Rule.dropped, deleteTRule_eq] at hr
    split_ifs at hr with htgt hval hnil
    · left
      exact ⟨r, rfl, htgt⟩
    · right
      apply eq_singleton_of_eraseP hval hnil

end

section

variable {c : Configuration}

theorem Configuration.Arranged.entries_eq_stored (h : c.Arranged) (app : Program) :
  c.entries app = c.stored app
  := by
  apply filter_eq_self.mpr
  intro e he
  rcases mem_append.mp he with he | he
  · obtain ⟨l, hl, rfl⟩ := mem_map.mp he
    apply decide_eq_true (h.filedLoops _ l hl)
  · obtain ⟨r, hr, rfl⟩ := mem_map.mp he
    apply decide_eq_true (h.filedRules _ r hr)

/-- Every entry is stored for a program. -/
theorem Configuration.mem_allAbstractRules_iff_stored {e : Entry} :
  e ∈ c.allAbstractRules ↔ ∃ app, e ∈ c.stored app
  := by
  cases e with
  | loop l =>
    rw [loop_mem_allAbstractRules, allLoops, Bookshelf.mem_all]
    constructor
    · rintro ⟨k, hk⟩
      use { Program.none with name := k }
      simpa [stored] using hk
    · rintro ⟨app, happ⟩
      use app.name
      simpa [stored] using happ
  | rule r =>
    rw [rule_mem_allAbstractRules, allRules, Bookshelf.mem_all]
    constructor
    · rintro ⟨k, hk⟩
      use { Program.none with name := k }
      simpa [stored] using hk
    · rintro ⟨app, happ⟩
      use app.name
      simpa [stored] using happ

/-- What is stored for a program after a domain was deleted. -/
theorem Configuration.Arranged.stored_deleteDomain (h : c.Arranged) (name newDefault : String)
    (app : Program) :
  (c.deleteDomain name newDefault).2.stored app = (c.stored app).filterMap (Entry.dropped name)
  := by
  obtain ⟨hls, hrs⟩ := h.vectors_deleteDomain name newDefault app.name
  rw [stored, stored, hls, hrs, filterMap_append, filterMap_map,
    filterMap_map, map_filterMap, map_filterMap]
  rfl

/-- The entries of a program after a domain was deleted. -/
theorem Configuration.Arranged.entries_deleteDomain (h : c.Arranged) (name newDefault : String)
    (app : Program) :
  (c.deleteDomain name newDefault).2.entries app = (c.entries app).filterMap (Entry.dropped name)
  := by
  have hsto := h.stored_deleteDomain name newDefault app
  rw [h.entries_eq_stored, ← hsto]
  apply filter_eq_self.mpr
  intro e he
  rw [hsto] at he
  obtain ⟨x, hx, hxe⟩ := mem_filterMap.mp he
  rw [← h.entries_eq_stored] at hx
  rw [(Entry.dropped_eq_some hxe).1.rule]
  apply (mem_filter.mp hx).2

/-- An entry is removed exactly when its identifier is. -/
theorem Configuration.Arranged.mem_ids_deleteDomain (h : c.Arranged) {name newDefault : String}
    {e : Entry} (he : e ∈ c.allAbstractRules) :
  e.toAbstractRule.id ∈ (c.deleteDomain name newDefault).2.ids ↔ e.dropped name ≠ none
  := by
  rw [Configuration.ids_eq_map, mem_map]
  constructor
  · rintro ⟨x, hx, hid⟩
    obtain ⟨app, happ⟩ := mem_allAbstractRules_iff_stored.mp hx
    rw [h.stored_deleteDomain] at happ
    obtain ⟨y, hy, hyx⟩ := mem_filterMap.mp happ
    have hnd := h.nodup
    rw [Configuration.ids_eq_map] at hnd
    have hyid : y.toAbstractRule.id = e.toAbstractRule.id := by
      rw [← hid, (Entry.dropped_eq_some hyx).1.rule]
    obtain rfl := inj_on_of_nodup_map hnd
      (mem_allAbstractRules_iff_stored.mpr ⟨app, hy⟩) he hyid
    simp [hyx]
  · intro hne
    obtain ⟨x, hx⟩ := Option.ne_none_iff_exists'.mp hne
    obtain ⟨app, happ⟩ := mem_allAbstractRules_iff_stored.mp he
    refine ⟨x, mem_allAbstractRules_iff_stored.mpr ⟨app, ?_⟩, ?_⟩
    · rw [h.stored_deleteDomain]
      apply mem_filterMap.mpr ⟨e, happ, hx⟩
    · rw [(Entry.dropped_eq_some hx).1.rule]

end

/-- Deleting a domain does not disturb what is decided in another one.  When no entry of the
program holds there is no transition, before and after; when the entry that decides is still
there, the transition is the same; and an entry is removed only when it leads to the domain,
or has it for its only source. -/
theorem deleteDomain_frame (re : RegExp) (hre : re.Documented) (c : Configuration)
    (h : c.Arranged) (name newDefault : String) (hpl : IsPlain name) (app : Program)
    (d : Domain) (hd : d.name ≠ name) (values : OrdMap String String) :
  ((∀ e ∈ c.entries app, ¬ e.Holds re values) →
    c.getFirstMatchingTransition re app d values = none ∧
      (c.deleteDomain name newDefault).2.getFirstMatchingTransition re app d values = none) ∧
  (∀ e, c.Decides re app values e →
    e.toAbstractRule.id ∈ (c.deleteDomain name newDefault).2.ids →
    (c.deleteDomain name newDefault).2.getFirstMatchingTransition re app d values =
      c.getFirstMatchingTransition re app d values) ∧
  ∀ e ∈ c.allAbstractRules, e.toAbstractRule.id ∉ (c.deleteDomain name newDefault).2.ids →
    (∃ r, e = .rule r ∧ r.transitTo.name = name) ∨
      ∃ t, e.toAbstractRule.tRules = [t] ∧ t.fromDomain = name
  := by
  have hents := h.entries_deleteDomain name newDefault app
  have hsame : ∀ x, ∀ y ∈ Entry.dropped name x,
      y.toAbstractRule.mRules = x.toAbstractRule.mRules := by
    intro x y hy
    rw [(Entry.dropped_eq_some hy).1.rule]
  refine ⟨?_, ?_, ?_⟩
  · intro hsil
    refine ⟨Configuration.getFirstMatchingTransition_of_silent hsil,
      Configuration.getFirstMatchingTransition_of_silent ?_⟩
    intro e he
    rw [hents] at he
    obtain ⟨x, hx, hxe⟩ := mem_filterMap.mp he
    rw [Entry.Holds, hsame x e hxe]
    apply hsil x hx
  · intro e hdec hthere
    by_cases hval : app.isValid = true
    · have he := Configuration.mem_allAbstractRules_iff_stored.mpr
        ⟨app, h.entries_eq_stored app ▸ hdec.mem⟩
      obtain ⟨e', he'⟩ := Option.ne_none_iff_exists'.mp ((h.mem_ids_deleteDomain he).mp hthere)
      obtain ⟨hr, hsrcs⟩ := Entry.dropped_eq_some he'
      rw [(hdec.edit hents hsame he').result hval, hdec.result hval]
      have hf : e'.toAbstractRule.tRules.find? (·.matches re d.name) =
          e.toAbstractRule.tRules.find? (·.matches re d.name) := by
        rcases hsrcs with hsrcs | hsrcs
        · rw [hsrcs]
        · rw [hsrcs, List.find?_eraseP]
          intro t _ ht
          by_contra hnmd
          apply hd
          apply (TRule.matches_of_isNamed hre hpl (by simpa using hnmd) _).mp ht
      rw [hf, hr.transition_eq]
    · rw [Configuration.getFirstMatchingTransition_of_not_isValid _ (by simpa using hval),
        Configuration.getFirstMatchingTransition_of_not_isValid _ (by simpa using hval)]
  · intro e he hgone
    apply Entry.dropped_eq_none
    by_contra hne
    apply hgone ((h.mem_ids_deleteDomain he).mpr hne)

/-- The policy with the given rules of the mail program, from two domains to a third. -/
def mailPolicyOf (rules : List Rule) : Configuration :=
  { mailPolicy with
      rules := (∅ : Bookshelf String Rule).insert "mailer" rules
      domains :=
        Std.ExtTreeMap.ofList (["home", "work", "private"].map fun name =>
          (name, (⟨name, "", "", "", 0, 0⟩ : Domain))) }

theorem arranged_mailPolicyOf {rules : List Rule} (hns : ∀ r ∈ rules, r.program.name = "mailer")
    (hids : (rules.map (·.id)).Nodup)
    (hpriorities : rules.Pairwise fun r r' => r.priority < r'.priority) :
  (mailPolicyOf rules).Arranged
  := by
  have hvec : ∀ k, (mailPolicyOf rules).rules.vector k =
      if "mailer" = k then rules else [] := by
    intro k
    rw [mailPolicyOf, Bookshelf.vector_insert]
    rfl
  have hall : (mailPolicyOf rules).rules.all.Perm rules := by
    have hoth : (∅ : Bookshelf String Rule).others "mailer" = [] := rfl
    apply (Bookshelf.all_insert ∅ "mailer" rules).trans
    rw [hoth, append_nil]
  constructor
  · intro k l hl
    cases hl
  · intro k r hr
    rw [hvec] at hr
    split_ifs at hr with hk
    · rw [← hk]
      apply hns r hr
    · cases hr
  · apply (hall.map (·.id)).nodup_iff.mpr hids
  · intro k
    apply List.Pairwise.nil
  · intro k
    rw [hvec]
    split_ifs
    · apply hpriorities
    · apply List.Pairwise.nil

theorem documented_literal :
  literal.Documented
  := by
  constructor
  intro pattern _ s
  apply beq_iff_eq.trans eq_comm

/-- The rule of the mail program, from two domains. -/
def sharedRule : Rule :=
  { mailRule with tRules := [⟨"home", none, none⟩, ⟨"work", none, some false⟩] }

/-- After `home` was deleted the rule leads from `work` as before. -/
theorem deleteDomain_frame_sharedRule :
  ((mailPolicyOf [sharedRule]).deleteDomain "home" "").2.getFirstMatchingTransition literal mailer
      ⟨"work", "", "", "", 0, 0⟩ (Std.ExtTreeMap.ofList [("to", "bob")]) =
    (mailPolicyOf [sharedRule]).getFirstMatchingTransition literal mailer
      ⟨"work", "", "", "", 0, 0⟩ (Std.ExtTreeMap.ofList [("to", "bob")])
  := by
  have harr := @arranged_mailPolicyOf [sharedRule] (by decide) (by decide) (by decide)
  have hdec : (mailPolicyOf [sharedRule]).Decides literal mailer
      (Std.ExtTreeMap.ofList [("to", "bob")]) (.rule sharedRule) := by
    refine ⟨[], [], by rfl, by simp, _, mem_singleton_self _, ?_⟩
    apply MRule.matches_iff.mp (by decide)
  apply (deleteDomain_frame literal documented_literal _ harr "home" "" (by decide) mailer
    ⟨"work", "", "", "", 0, 0⟩ (by decide) _).2.1 _ hdec (by decide)

/-! ### Renaming a domain -/

/-- The domain, with the new name when it has the old one. -/
def Domain.renamed (oldName newName : String) (d : Domain) : Domain :=
  if d.name = oldName then { d with name := newName } else d

/-- The transition between the renamed domains. -/
def Transition.renamed (oldName newName : String) (t : Transition) : Transition :=
  { t with
    transitFrom := t.transitFrom.renamed oldName newName
    transitTo := t.transitTo.renamed oldName newName }

/-- The entry as `updateDomain` leaves it. -/
def Entry.renamed (oldName : String) (d : Domain) : Entry → Entry
  | .loop l => .loop (l.renamed oldName d)
  | .rule r => .rule (r.renamed oldName d)

/-- The first source that matches the domain without having its name. -/
def Entry.patternSource? (re : RegExp) (name : String) (e : Entry) : Option TRule :=
  e.toAbstractRule.tRules.find? fun t => !t.isNamed name && t.matches re name

/-- The prompt and notify flags of a transition through a source. -/
def Entry.flags (e : Entry) (t : TRule) : Bool × Bool :=
  (t.prompt?.getD e.toAbstractRule.prompt, t.notify?.getD e.toAbstractRule.notify)

/-- A rule to the old name leads to the stored domain, up to the name. -/
def Entry.TargetKept (oldName : String) (domain : Domain) : Entry → Prop
  | .loop _ => True
  | .rule r =>
      r.transitTo.name = oldName →
        domain ≠ .none ∧ { r.transitTo with name := domain.name } = domain

/-- The entry decides as before in the domain `d`.  When one of its sources matches, its
target is renamed like the domain; and in the renamed domain, the first pattern that matches
it, if there is one, has the flags of the first source that does.  An empty old name is not
renamed among the sources, so there must be such a pattern. -/
def Entry.Kept (re : RegExp) (oldName : String) (domain d : Domain) (e : Entry) : Prop :=
  ∀ t, e.toAbstractRule.tRules.find? (·.matches re d.name) = some t →
    e.TargetKept oldName domain ∧
      (d.name = oldName →
        (oldName = "" → e.patternSource? re oldName ≠ none) ∧
          ∀ u, e.patternSource? re oldName = some u → e.flags u = e.flags t)

section

variable {re : RegExp} {oldName : String} {domain d : Domain} {e : Entry} {app : Program}

theorem Entry.rule_renamed (oldName : String) (domain : Domain) (e : Entry) :
  (e.renamed oldName domain).toAbstractRule =
    { e.toAbstractRule with tRules := (e.renamed oldName domain).toAbstractRule.tRules }
  := by
  cases e with
  | loop l =>
    simp only [renamed, toAbstractRule, Loop.renamed]
    split <;> rfl
  | rule r =>
    simp only [renamed, toAbstractRule, Rule.renamed, Rule.setTransitTo]
    split_ifs <;> rfl

/-- `deleteTRule` returns a valid source when there is one with the name and the name is not
empty. -/
theorem isValid_deleted_iff {ts : List TRule} :
  ((ts.find? (TRule.isNamed oldName)).getD .none).isValid = true ↔
    (∃ t, ts.find? (TRule.isNamed oldName) = some t) ∧ oldName ≠ ""
  := by
  rcases hf : ts.find? (TRule.isNamed oldName) with _ | t
  · simp [TRule.none, TRule.isValid]
  · simp [TRule.isValid, TRule.fromDomain_of_find? hf]

/-- The sources after a renaming: the first one with the old name goes to the end with the new
one, when there is one and the old name is not empty. -/
theorem Entry.sources_renamed (oldName : String) (domain : Domain) (e : Entry) :
  (∃ t, e.toAbstractRule.tRules.find? (TRule.isNamed oldName) = some t ∧ oldName ≠ "" ∧
    (e.renamed oldName domain).toAbstractRule.tRules =
      e.toAbstractRule.tRules.eraseP (TRule.isNamed oldName) ++
        [{ t with fromDomain := domain.name }]) ∨
  (e.toAbstractRule.tRules.find? (TRule.isNamed oldName) = none ∨ oldName = "") ∧
    ((e.renamed oldName domain).toAbstractRule.tRules = e.toAbstractRule.tRules ∨
      (e.renamed oldName domain).toAbstractRule.tRules =
        e.toAbstractRule.tRules.eraseP (TRule.isNamed oldName))
  := by
  by_cases hval : ((e.toAbstractRule.tRules.find? (TRule.isNamed oldName)).getD .none).isValid =
      true
  · left
    obtain ⟨⟨t, ht⟩, hne⟩ := isValid_deleted_iff.mp hval
    refine ⟨t, ht, hne, ?_⟩
    cases e with
    | loop l =>
      simp only [toAbstractRule] at hval ht
      rw [ht, Option.getD_some] at hval
      simp only [renamed, toAbstractRule, Loop.renamed, deleteTRule_eq, hval, if_true, ht,
        Option.getD_some]
    | rule r =>
      simp only [toAbstractRule] at hval ht
      rw [ht, Option.getD_some] at hval
      simp only [renamed, toAbstractRule, Rule.renamed, Rule.setTransitTo, deleteTRule_eq, hval,
        if_true, ht, Option.getD_some]
      split_ifs <;> rfl
  · right
    constructor
    · by_contra hnot
      obtain ⟨hs, hne⟩ := not_or.mp hnot
      apply hval (isValid_deleted_iff.mpr ⟨Option.ne_none_iff_exists'.mp hs, hne⟩)
    · cases e with
      | loop l =>
        left
        simp only [toAbstractRule] at hval
        simp only [renamed, toAbstractRule, Loop.renamed, deleteTRule_eq, hval]
        rfl
      | rule r =>
        simp only [toAbstractRule] at hval
        simp only [renamed, toAbstractRule, Rule.renamed, Rule.setTransitTo, deleteTRule_eq,
          if_neg hval]
        split_ifs
        · right
          rfl
        · right
          rfl
        · left
          rfl

theorem transitTo_renamed (oldName : String) (domain : Domain) (r : Rule) :
  (r.renamed oldName domain).transitTo =
    if r.transitTo.name = oldName ∧ domain ≠ .none then domain else r.transitTo
  := by
  simp only [Rule.renamed, Rule.setTransitTo]
  split_ifs <;> simp_all

theorem Entry.target_renamed_iff (hne : oldName ≠ domain.name) :
  (e.renamed oldName domain).target (d.renamed oldName domain.name) =
      (e.target d).renamed oldName domain.name ↔
    e.TargetKept oldName domain
  := by
  cases e with
  | loop l => apply iff_of_true rfl trivial
  | rule r =>
    rw [renamed, target, target, transitTo_renamed, TargetKept, Domain.renamed]
    by_cases htgt : r.transitTo.name = oldName
    · rw [if_pos htgt]
      by_cases hdom : domain = .none
      · rw [if_neg (by simp [hdom])]
        constructor
        · intro heq
          apply absurd (htgt.symm.trans (congrArg Domain.name heq)) hne
        · intro hk
          apply absurd hdom (hk htgt).1
      · rw [if_pos ⟨htgt, hdom⟩]
        constructor
        · intro heq _
          exact ⟨hdom, heq.symm⟩
        · intro hk
          apply (hk htgt).2.symm
    · rw [if_neg htgt, if_neg (by simp [htgt])]
      apply iff_of_true rfl
      intro htgt'
      apply absurd htgt' htgt

/-- The transition after a renaming is the renamed one exactly when the target is kept and the
two sources have the same flags. -/
theorem Entry.transition_renamed_iff (hne : oldName ≠ domain.name) {s t : TRule} :
  (e.renamed oldName domain).transition app (d.renamed oldName domain.name) s =
      (e.transition app d t).renamed oldName domain.name ↔
    e.TargetKept oldName domain ∧ e.flags s = e.flags t
  := by
  have hpr := congrArg AbstractRule.prompt (e.rule_renamed oldName domain)
  have hnot := congrArg AbstractRule.notify (e.rule_renamed oldName domain)
  dsimp only at hpr hnot
  rw [← target_renamed_iff hne (d := d)]
  simp only [transition, Transition.renamed, Transition.mk.injEq, true_and, flags, Prod.mk.injEq,
    hpr, hnot]

/-- In another domain the same source is found after a renaming. -/
theorem Entry.find?_renamed_of_ne (hre : re.Documented) (hold : IsPlain oldName)
    (hnew : IsPlain domain.name) {x : String} (hx : x ≠ oldName) (hx' : x ≠ domain.name) :
  (e.renamed oldName domain).toAbstractRule.tRules.find? (·.matches re x) =
    e.toAbstractRule.tRules.find? (·.matches re x)
  := by
  have her : (e.toAbstractRule.tRules.eraseP (TRule.isNamed oldName)).find?
      (·.matches re x) = e.toAbstractRule.tRules.find? (·.matches re x) := by
    apply List.find?_eraseP
    intro t _ ht
    by_contra hnmd
    apply hx
    apply (TRule.matches_of_isNamed hre hold (by simpa using hnmd) _).mp ht
  rcases e.sources_renamed oldName domain with ⟨t, -, -, heq⟩ | ⟨-, heq | heq⟩
  · have hmv : TRule.matches re { t with fromDomain := domain.name } x = false := by
      by_contra hmts
      apply hx'
      apply (hre.exactMatch_plain _ hnew _).mp (Bool.not_eq_false _ ▸ hmts)
    rw [heq, List.find?_append, her, List.find?_cons_of_neg (by simp [hmv])]
    simp
  · rw [heq]
  · rw [heq, her]

section

variable (hre : re.Documented) (hold : IsPlain oldName) (hnew : IsPlain domain.name)
  (hne : oldName ≠ domain.name)
  (hsame : ∀ t ∈ e.toAbstractRule.tRules, t.fromDomain ≠ oldName →
    (t.matches re oldName = true ↔ t.matches re domain.name = true))

include hre hold hne hsame

/-- The sources that match the new name are the patterns that match the old one. -/
theorem Entry.find?_newName :
  e.toAbstractRule.tRules.find? (·.matches re domain.name) = e.patternSource? re oldName
  := by
  apply List.find?_congr
  intro t ht
  by_cases hnmd : t.isNamed oldName = true
  · have hmts : t.matches re domain.name = false := by
      by_contra hmts
      apply hne
      apply Eq.symm
      apply (TRule.matches_of_isNamed hre hold hnmd _).mp (by simpa using hmts)
    simp [hnmd, hmts]
  · have hiff := hsame t ht (by simpa [TRule.isNamed] using hnmd)
    rw [Bool.eq_iff_iff]
    simp [hnmd, hiff]

include hnew

/-- In the renamed domain a pattern is found, and the source that was moved otherwise. -/
theorem Entry.find?_renamed :
  (e.renamed oldName domain).toAbstractRule.tRules.find? (·.matches re domain.name) =
    (e.patternSource? re oldName).or
      (if oldName = "" then none
        else (e.toAbstractRule.tRules.find? (TRule.isNamed oldName)).map fun t =>
          { t with fromDomain := domain.name })
  := by
  have hpat := find?_newName hre hold hne hsame
  have her : (e.toAbstractRule.tRules.eraseP (TRule.isNamed oldName)).find?
      (·.matches re domain.name) = e.patternSource? re oldName := by
    rw [← hpat]
    apply List.find?_eraseP
    intro t _ ht
    by_contra hnmd
    apply hne
    apply Eq.symm
    apply (TRule.matches_of_isNamed hre hold (by simpa using hnmd) _).mp ht
  rcases e.sources_renamed oldName domain with ⟨t, ht, hemp, heq⟩ | ⟨hn, heq⟩
  · have hmv : TRule.matches re { t with fromDomain := domain.name } domain.name = true :=
      (hre.exactMatch_plain _ hnew _).mpr rfl
    rw [heq, List.find?_append, her, List.find?_cons, hmv, if_neg hemp, ht]
    rfl
  · have hr : (if oldName = "" then none
        else (e.toAbstractRule.tRules.find? (TRule.isNamed oldName)).map fun t =>
          ({ t with fromDomain := domain.name } : TRule)) = none := by
      rcases hn with hn | hemp
      · simp [hn]
      · simp [hemp]
    rw [hr, Option.or_none]
    rcases heq with heq | heq
    · rw [heq, hpat]
    · rw [heq, her]

/-- In a domain with the old name the entry decides as before exactly when it is kept. -/
theorem Entry.renamed_iff_of_eq (hd : d.name = oldName) :
  ((e.renamed oldName domain).toAbstractRule.tRules.find? (·.matches re domain.name)).map
        ((e.renamed oldName domain).transition app (d.renamed oldName domain.name)) =
      ((e.toAbstractRule.tRules.find? (·.matches re oldName)).map (e.transition app d)).map
        (Transition.renamed oldName domain.name) ↔
    e.Kept re oldName domain d
  := by
  have hafter := find?_renamed hre hold hnew hne hsame
  rw [Kept, hd]
  rcases hfst : e.toAbstractRule.tRules.find? (·.matches re oldName) with _ | t
  · have hn := List.find?_eq_none.mp hfst
    have hpat : e.patternSource? re oldName = none := by
      apply List.find?_eq_none.mpr
      intro s hs
      simpa using fun _ => hn s hs
    have hnmd : e.toAbstractRule.tRules.find? (TRule.isNamed oldName) = none := by
      apply List.find?_eq_none.mpr
      intro s hs hnmd
      apply hn s hs
      apply (TRule.matches_of_isNamed hre hold hnmd _).mpr rfl
    rw [hafter, hpat, hnmd, hfst]
    simp
  · simp only [hfst, Option.map_some, Option.some.injEq, forall_eq', true_implies]
    rcases hpat : e.patternSource? re oldName with _ | u
    · have hnmd : e.toAbstractRule.tRules.find? (TRule.isNamed oldName) = some t := by
        rw [← hfst]
        apply List.find?_congr
        intro s hs
        have hs' := List.find?_eq_none.mp hpat s hs
        by_cases hnmd : s.isNamed oldName = true
        · rw [hnmd, (TRule.matches_of_isNamed hre hold hnmd _).mpr rfl]
        · simp only [hnmd, Bool.not_false, Bool.true_and, Bool.not_eq_true] at hs' ⊢
          apply hs'.symm
      rw [hafter, hpat, hnmd, Option.none_or]
      by_cases hemp : oldName = ""
      · simp [hemp]
      · rw [if_neg hemp, Option.map_some, Option.map_some, Option.some.injEq,
          transition_renamed_iff hne]
        simp [hemp, flags]
    · rw [hafter, hpat, Option.some_or, Option.map_some, Option.some.injEq,
        transition_renamed_iff hne]
      simp

end

/-- In another domain the entry decides as before exactly when it is kept. -/
theorem Entry.renamed_iff_of_ne (hre : re.Documented) (hold : IsPlain oldName)
    (hnew : IsPlain domain.name) (hne : oldName ≠ domain.name) (hd : d.name ≠ oldName)
    (hd' : d.name ≠ domain.name) :
  ((e.renamed oldName domain).toAbstractRule.tRules.find? (·.matches re d.name)).map
        ((e.renamed oldName domain).transition app (d.renamed oldName domain.name)) =
      ((e.toAbstractRule.tRules.find? (·.matches re d.name)).map (e.transition app d)).map
        (Transition.renamed oldName domain.name) ↔
    e.Kept re oldName domain d
  := by
  rw [find?_renamed_of_ne hre hold hnew hd hd', Kept]
  rcases hfst : e.toAbstractRule.tRules.find? (·.matches re d.name) with _ | t
  · rw [hfst]
    simp
  · simp only [hfst, Option.map_some, Option.some.injEq, forall_eq', transition_renamed_iff hne]
    simp [hd]

end

section

variable {re : RegExp} {c : Configuration} {app : Program} {values : OrdMap String String}

/-- The entry that decides is a single one. -/
theorem Configuration.Decides.unique {e e' : Entry} (h : c.Decides re app values e)
    (h' : c.Decides re app values e') :
  e = e'
  := by
  obtain ⟨before, after, heq, hbef, he⟩ := h
  obtain ⟨before', after', heq', hbef', he'⟩ := h'
  have hfst : ∀ {x b a}, c.entries app = b ++ x :: a → (∀ y ∈ b, ¬ y.Holds re values) →
      x.Holds re values →
      (c.entries app).find? (fun y => @decide (y.Holds re values) (Classical.dec _)) = some x := by
    intro x b a hents hb hx
    apply List.find?_eq_some_iff_append.mpr
    refine ⟨by simpa using hx, b, a, hents, ?_⟩
    intro y hy
    simpa using hb y hy
  have hsame := (hfst heq hbef he).symm.trans (hfst heq' hbef' he')
  apply Option.some.inj hsame

/-- The entries of a program after a domain was renamed. -/
theorem Configuration.Arranged.entries_updateDomain (h : c.Arranged) {oldName : String}
    (domain : Domain) (setDefault : Bool) (hm : oldName ∈ c.domains) (app : Program) :
  (c.updateDomain oldName domain setDefault).entries app =
    (c.entries app).map (Entry.renamed oldName domain)
  := by
  obtain ⟨hls, hrs⟩ := h.vectors_updateDomain domain setDefault hm app.name
  have hsto : (c.updateDomain oldName domain setDefault).stored app =
      (c.stored app).map (Entry.renamed oldName domain) := by
    rw [stored, stored, hls, hrs, map_append, map_map, map_map, map_map, map_map]
    rfl
  rw [h.entries_eq_stored, ← hsto]
  apply filter_eq_self.mpr
  intro e he
  rw [hsto] at he
  obtain ⟨x, hx, rfl⟩ := mem_map.mp he
  rw [← h.entries_eq_stored] at hx
  rw [Entry.rule_renamed]
  apply (mem_filter.mp hx).2

end

/-- Renaming a domain renames the transition that is found, from a domain that does not have
the new name, exactly when the program is not valid, or the entry that decides, if there is
one, is kept. -/
theorem updateDomain_renames_iff (re : RegExp) (hre : re.Documented) (c : Configuration)
    (h : c.Arranged) (oldName newName : String) (stored : Domain)
    (hsto : c.domains[oldName]? = some stored) (hun : newName ∉ c.domains)
    (hold : IsPlain oldName) (hnew : IsPlain newName)
    (hsame : ∀ e ∈ c.allAbstractRules, ∀ t ∈ e.toAbstractRule.tRules, t.fromDomain ≠ oldName →
      (t.matches re oldName = true ↔ t.matches re newName = true))
    (setDefault : Bool) (app : Program) (d : Domain) (hd : d.name ≠ newName)
    (values : OrdMap String String) :
  (c.updateDomain oldName { stored with name := newName } setDefault).getFirstMatchingTransition
        re app (d.renamed oldName newName) values =
      (c.getFirstMatchingTransition re app d values).map (Transition.renamed oldName newName) ↔
    (app.isValid = true → ∀ e, c.Decides re app values e →
      e.Kept re oldName { stored with name := newName } d)
  := by
  have hm : oldName ∈ c.domains := by
    rw [← Std.ExtTreeMap.isSome_getElem?_iff_mem, hsto]
    rfl
  have hne : oldName ≠ newName := by
    rintro rfl
    apply hun hm
  have hents := h.entries_updateDomain { stored with name := newName } setDefault hm app
  rw [← filterMap_eq_map'] at hents
  have hblocks : ∀ x, ∀ y ∈ some (Entry.renamed oldName { stored with name := newName } x),
      y.toAbstractRule.mRules = x.toAbstractRule.mRules := by
    rintro x _ ⟨⟩
    rw [Entry.rule_renamed]
  by_cases hval : app.isValid = true
  · simp only [hval, true_implies]
    rcases c.decides_or_silent re app values with ⟨e, hdec⟩ | hsil
    · have he := Configuration.mem_allAbstractRules_iff_stored.mpr
        ⟨app, h.entries_eq_stored app ▸ hdec.mem⟩
      have hsing : (∀ e, c.Decides re app values e →
          e.Kept re oldName { stored with name := newName } d) ↔
            e.Kept re oldName { stored with name := newName } d := by
        constructor
        · intro hall
          apply hall e hdec
        · intro hk e' hdec'
          rw [← hdec.unique hdec']
          apply hk
      rw [hsing, hdec.result hval, (hdec.edit hents hblocks rfl).result hval]
      by_cases hn : d.name = oldName
      · have hdname : (d.renamed oldName newName).name = newName := by
          rw [Domain.renamed, if_pos hn]
        rw [hdname, hn]
        apply @Entry.renamed_iff_of_eq _ _ { stored with name := newName } _ _ _ hre hold hnew hne
          (hsame e he) hn
      · have hdname : (d.renamed oldName newName).name = d.name := by
          rw [Domain.renamed, if_neg hn]
        rw [hdname]
        apply @Entry.renamed_iff_of_ne _ _ { stored with name := newName } _ _ _ hre hold hnew hne
          hn hd
    · have hsil' : ∀ e ∈ (c.updateDomain oldName { stored with name := newName }
          setDefault).entries app, ¬ e.Holds re values := by
        intro e he
        rw [hents] at he
        obtain ⟨x, hx, hxe⟩ := mem_filterMap.mp he
        rw [Entry.Holds, hblocks x e hxe]
        apply hsil x hx
      rw [Configuration.getFirstMatchingTransition_of_silent hsil,
        Configuration.getFirstMatchingTransition_of_silent hsil']
      apply iff_of_true rfl
      intro e hdec
      obtain ⟨-, -, -, -, hhd⟩ := id hdec
      apply absurd hhd (hsil e hdec.mem)
  · rw [Configuration.getFirstMatchingTransition_of_not_isValid _ (by simpa using hval),
      Configuration.getFirstMatchingTransition_of_not_isValid _ (by simpa using hval)]
    apply iff_of_true rfl
    intro hval'
    apply absurd hval' hval

/-- After `work` was renamed the rule leads from it as before. -/
theorem updateDomain_renames_sharedRule :
  ((mailPolicyOf [sharedRule]).updateDomain "work" ⟨"office", "", "", "", 0, 0⟩
      false).getFirstMatchingTransition literal mailer ⟨"office", "", "", "", 0, 0⟩
      (Std.ExtTreeMap.ofList [("to", "bob")]) =
    ((mailPolicyOf [sharedRule]).getFirstMatchingTransition literal mailer
      ⟨"work", "", "", "", 0, 0⟩ (Std.ExtTreeMap.ofList [("to", "bob")])).map
        (Transition.renamed "work" "office")
  := by
  have harr := @arranged_mailPolicyOf [sharedRule] (by decide) (by decide) (by decide)
  have hdec : (mailPolicyOf [sharedRule]).Decides literal mailer
      (Std.ExtTreeMap.ofList [("to", "bob")]) (.rule sharedRule) := by
    refine ⟨[], [], by rfl, by simp, _, mem_singleton_self _, ?_⟩
    apply MRule.matches_iff.mp (by decide)
  apply (updateDomain_renames_iff literal documented_literal _ harr "work" "office"
    ⟨"work", "", "", "", 0, 0⟩ (by decide) (by decide) (by decide) (by decide) (by decide) false
    mailer ⟨"work", "", "", "", 0, 0⟩ (by decide) _).mpr
  intro _ e he
  rw [he.unique hdec]
  have hpat : (Entry.rule sharedRule).patternSource? literal "work" = none := by decide
  have htgt : sharedRule.transitTo.name ≠ "work" := by decide
  intro t _
  refine ⟨fun h => absurd h htgt, fun _ => ⟨by decide, ?_⟩⟩
  intro u hu
  rw [hpat] at hu
  cases hu

/-- Patterns that match only themselves, and one that matches everything. -/
def anything : RegExp where
  isValid _ := true
  exactMatch pattern s := pattern == ".*" || pattern == s

/-- A rule that leads from `work` without asking, and from everywhere else when the user
agrees. -/
def openRule : Rule :=
  { mailRule with tRules := [⟨"work", none, some false⟩, ⟨".*", none, some true⟩] }

/-- After `work` was renamed the user is asked. -/
theorem updateDomain_asks :
  anything.Documented ∧ (mailPolicyOf [openRule]).Arranged ∧
    (mailPolicyOf [openRule]).domains["work"]? = some ⟨"work", "", "", "", 0, 0⟩ ∧
    "office" ∉ (mailPolicyOf [openRule]).domains ∧ IsPlain "work" ∧ IsPlain "office" ∧
    (∀ e ∈ (mailPolicyOf [openRule]).allAbstractRules, ∀ t ∈ e.toAbstractRule.tRules,
      t.fromDomain ≠ "work" →
        (t.matches anything "work" = true ↔ t.matches anything "office" = true)) ∧
    (mailPolicyOf [openRule]).getFirstMatchingTransition anything mailer
        ⟨"work", "", "", "", 0, 0⟩ (Std.ExtTreeMap.ofList [("to", "bob")]) =
      some ⟨mailer, ⟨"work", "", "", "", 0, 0⟩, ⟨"private", "", "", "", 0, 0⟩, false, true⟩ ∧
    ((mailPolicyOf [openRule]).updateDomain "work" ⟨"office", "", "", "", 0, 0⟩
        false).getFirstMatchingTransition anything mailer ⟨"office", "", "", "", 0, 0⟩
        (Std.ExtTreeMap.ofList [("to", "bob")]) =
      some ⟨mailer, ⟨"office", "", "", "", 0, 0⟩, ⟨"private", "", "", "", 0, 0⟩, true, true⟩
  := by
  refine ⟨⟨?_⟩, arranged_mailPolicyOf (by decide) (by decide) (by decide), by decide, by decide,
    by decide, by decide, by decide, by decide, by decide⟩
  intro pattern hpl s
  have hne : pattern ≠ ".*" := by
    rintro rfl
    revert hpl
    decide
  dsimp only [anything]
  rw [beq_eq_false_iff_ne.mpr hne, Bool.false_or]
  apply beq_iff_eq.trans eq_comm

end Policy

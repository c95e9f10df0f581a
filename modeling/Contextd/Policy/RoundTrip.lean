import Contextd.Policy.Coherence
import Contextd.Policy.Save

/-!
# Saving and loading

What a configuration becomes when the file written from it is read again.  `Restored` says what the
reader has after a list of loops and rules: under every name those of the list whose program has
that name, up to what the file does not hold (`strip`) and with every override set (`raised`).

The configuration comes back as it was (`RoundTrips`) exactly when no override is `false`, the
default domain is a stored one, entries are stored under the names of their programs, and entries of
one vector with the same priority say the same (`Restorable`).
-/

namespace Policy

open List

/-! ### What the file holds -/

/-- What the file holds of a loop or a rule: not its identifier and its priority, and only
the name of its program. -/
def AbstractRule.strip (r : AbstractRule) : AbstractRule :=
  { r with id := 0, priority := 0, program := .unknown r.program.name }

def Loop.strip (l : Loop) : Loop := { l with toAbstractRule := l.toAbstractRule.strip }

def Rule.strip (r : Rule) : Rule := { r with toAbstractRule := r.toAbstractRule.strip }

/-- A loop or a rule with its overrides set. -/
def AbstractRule.raised (r : AbstractRule) : AbstractRule :=
  { r with tRules := r.tRules.map TRule.raised }

def Loop.raised (l : Loop) : Loop := { l with toAbstractRule := l.toAbstractRule.raised }

def Rule.raised (r : Rule) : Rule := { r with toAbstractRule := r.toAbstractRule.raised }

/-- The loop of an entry, when its program has the given name. -/
def Entry.loopUnder (k : String) : Entry → Option Loop
  | .loop l => if l.program.name = k then some l else none
  | .rule _ => none

/-- The rule of an entry, when its program has the given name. -/
def Entry.ruleUnder (k : String) : Entry → Option Rule
  | .loop _ => none
  | .rule r => if r.program.name = k then some r else none

theorem Entry.priority_loopUnder {k : String} {e : Entry} {l : Loop} (h : e.loopUnder k = some l) :
  l.priority = e.toAbstractRule.priority
  := by
  cases e with
  | loop l' =>
    obtain ⟨-, heq⟩ := Option.ite_none_right_eq_some.mp h
    rw [← Option.some.inj heq]
    rfl
  | rule r => cases h

theorem Entry.priority_ruleUnder {k : String} {e : Entry} {r : Rule} (h : e.ruleUnder k = some r) :
  r.priority = e.toAbstractRule.priority
  := by
  cases e with
  | loop l => cases h
  | rule r' =>
    obtain ⟨-, heq⟩ := Option.ite_none_right_eq_some.mp h
    rw [← Option.some.inj heq]
    rfl

/-- The file can hold the configuration: names are not empty, blocks of conditions have a
condition, and rules lead to stored domains. -/
structure Configuration.Representable (c : Configuration) : Prop where
  domains : ∀ d ∈ c.domainList, d.name ≠ ""
  conditions : ∀ e ∈ c.allAbstractRules, ∀ m ∈ e.toAbstractRule.mRules,
    m.conditions.isEmpty = false
  sources : ∀ e ∈ c.allAbstractRules, ∀ t ∈ e.toAbstractRule.tRules, t.fromDomain ≠ ""
  targets : ∀ r ∈ c.allRules, c.domains[r.transitTo.name]? = some r.transitTo

/-! ### Reading the document -/

/-- The element of a new domain adds it, and makes it the default when it is the one. -/
theorem parseDomain_domainElement {s : Loader} {d₀ d : Domain} (hn : d.name ≠ "")
    (hnew : d.name ∉ s.config.domains) :
  s.parseDomain (domainElement d₀ d) =
    { s with
      config := { s.config with
        domains := s.config.domains.insert d.name d
        defaultDomain := if d₀ = d then d₀ else s.config.defaultDomain } }
  := by
  have hdef : isTrue ((domainElement d₀ d).attrD "default" "false") = decide (d₀ = d) := by
    by_cases heq : d₀ = d <;>
      simp [domainElement, Dom.attrD, lookup_cons, heq, isTrue]
  simp only [Loader.parseDomain, domainOf_domainElement, hdef, decide_eq_true_eq]
  rw [if_pos ⟨hn, hnew⟩]
  by_cases heq : d₀ = d
  · rw [if_pos heq, if_pos heq, heq]
  · rw [if_neg heq, if_neg heq]

/-- The elements of domains with distinct names are all read. -/
theorem foldl_parseDomain {ds : List Domain} {s : Loader} (d₀ : Domain)
    (hns : ∀ d ∈ ds, d.name ≠ "") (hdist : (ds.map (·.name)).Nodup)
    (hnew : ∀ d ∈ ds, d.name ∉ s.config.domains) :
  (ds.map (domainElement d₀)).foldl Loader.parseDomain s =
    { s with
      config := { s.config with
        domains := ds.foldl (fun acc d => acc.insert d.name d) s.config.domains
        defaultDomain := if d₀ ∈ ds then d₀ else s.config.defaultDomain } }
  := by
  induction ds generalizing s with
  | nil => simp
  | cons d ds ih =>
    obtain ⟨hd, hr⟩ := nodup_cons.mp hdist
    rw [map_cons, foldl_cons,
      parseDomain_domainElement (hns d mem_cons_self) (hnew d mem_cons_self),
      ih (fun d' hd' => hns d' (mem_cons_of_mem _ hd')) hr]
    · by_cases heq : d₀ = d
      · simp [heq]
      · simp [heq]
    · intro d' hd' hm
      rw [Std.ExtTreeMap.mem_insert, Std.LawfulEqCmp.compare_eq_iff_eq] at hm
      rcases hm with heq | hm
      · apply hd
        apply mem_map.mpr
        use d', hd', heq.symm
      · apply hnew d' (mem_cons_of_mem _ hd') hm

/-- The paths of the programs that are not killed are all read. -/
theorem foldl_parseNoKillProgram {paths : List String} {s : Loader}
    (h : ∀ path ∈ paths, path ≠ "" ∧ isAbsolute path = true) :
  (paths.map fun path => Dom.element "nokill_program" [("full_path", path)] []).foldl
      Loader.parseNoKillProgram s =
    { s with
      config := { s.config with noKillPrograms := s.config.noKillPrograms ++ paths } }
  := by
  induction paths generalizing s with
  | nil => simp
  | cons path paths ih =>
    have hs : s.parseNoKillProgram (.element "nokill_program" [("full_path", path)] []) =
        { s with
          config := { s.config with noKillPrograms := s.config.noKillPrograms ++ [path] } } :=
      if_pos (h path mem_cons_self)
    rw [map_cons, foldl_cons, hs, ih fun path' hp' => h path' (mem_cons_of_mem _ hp')]
    simp

/-- What the reader has after the domains, the programs that are not killed and a list of
loops and rules of the configuration. -/
structure Restored (c : Configuration) (order : List Entry) (s : Loader) : Prop where
  domains : s.config.domains = c.domains
  defaultDomain : s.config.defaultDomain =
    if c.defaultDomain ∈ c.domainList then c.defaultDomain else .none
  noKill : s.config.noKillPrograms = c.noKillPrograms
  programs : s.config.programs = c.programs
  loops : ∀ k, (s.config.loops.vector k).map Loop.strip =
    (order.filterMap (Entry.loopUnder k)).map fun l => l.raised.strip
  rules : ∀ k, (s.config.rules.vector k).map Rule.strip =
    (order.filterMap (Entry.ruleUnder k)).map fun r => r.raised.strip

section Reading

variable {c : Configuration} {order : List Entry} {s : Loader} {l : Loop} {r : Rule}

/-- The program found for a name has that name. -/
theorem Restored.name_programNamed (h : Restored c order s) (hc : c.Wellkept) (name : String) :
  (s.programNamed name).name = name
  := by
  rw [Loader.programNamed, h.programs, Std.ExtTreeMap.getD_eq_getD_getElem?]
  cases hp : c.programs[name]? with
  | none => rfl
  | some p => apply hc.programs name p hp

/-- A rule constructed from what was written says what was written. -/
theorem Restored.strip_construct (h : Restored c order s) (hc : c.Wellkept) {r : AbstractRule}
    {e : Dom} (happ : e.attr "app_name" = r.program.name)
    (hn : e.attr "display_name" = r.displayName) (hpr : e.attr "prompt" = flagText r.prompt)
    (hnot : e.attr "notify" = flagText r.notify) :
  (s.construct e r.mRules (r.tRules.map TRule.raised)).strip = r.raised.strip
  := by
  simp [AbstractRule.strip, AbstractRule.raised, Loader.construct, happ, hn, parsePrompt,
    parseNotify, hpr, hnot, flagText_ne, h.name_programNamed hc]

/-- The vectors after an entry was appended under a name. -/
theorem map_vector_push {α β : Type} (shelf : Bookshelf String α) (k k' : String) (x : α)
    (f : α → β) :
  ((shelf.push k x).vector k').map f =
    (shelf.vector k').map f ++ if k = k' then [f x] else []
  := by
  rw [Bookshelf.push, Bookshelf.vector_insert]
  split
  · rename_i hk
    rw [hk, map_append]
    rfl
  · simp

theorem Restored.loop (h : Restored c order s) (hc : c.Wellkept)
    (hconds : ∀ m ∈ l.mRules, m.conditions.isEmpty = false)
    (hsrcs : ∀ t ∈ l.tRules, t.fromDomain ≠ "") :
  Restored c (order ++ [.loop l]) (s.parseAbstractRule (loopElement l))
  := by
  have hstrip := h.strip_construct hc (r := l.toAbstractRule) (e := loopElement l) rfl rfl rfl rfl
  have hread : s.parseAbstractRule (loopElement l) =
      { idCounter := s.idCounter + 1
        config := { s.config with
          loops := s.config.loops.push l.program.name
            ⟨s.construct (loopElement l) l.mRules (l.tRules.map TRule.raised)⟩ } } := by
    have hmrules : parseMRules (loopElement l) = some l.mRules :=
      parseMRules_of_matching hconds
    have hl : s.parseAbstractRule (loopElement l) = s.parseLoop (loopElement l) := rfl
    rw [hl, Loader.parseLoop, hmrules, parseTRulesForLoop_loopElement hsrcs]
    rfl
  rw [hread]
  refine { h with loops := ?_, rules := ?_ }
  · intro k
    rw [map_vector_push, h.loops k, filterMap_append, map_append]
    congr 1
    by_cases hk : l.program.name = k
    · simp only [Entry.loopUnder, hk, if_true, filterMap_cons, filterMap_nil,
        map_cons, map_nil, List.cons.injEq, and_true]
      simp only [Loop.strip, Loop.raised, hstrip]
    · simp [Entry.loopUnder, hk]
  · intro k
    rw [filterMap_append]
    simp [Entry.ruleUnder, h.rules k]

theorem Restored.rule (h : Restored c order s) (hc : c.Wellkept)
    (hconds : ∀ m ∈ r.mRules, m.conditions.isEmpty = false)
    (hsrcs : ∀ t ∈ r.tRules, t.fromDomain ≠ "")
    (htgt : c.domains[r.transitTo.name]? = some r.transitTo) (hn : r.transitTo.name ≠ "") :
  Restored c (order ++ [.rule r]) (s.parseAbstractRule (ruleElement r))
  := by
  have hstrip := h.strip_construct hc (r := r.toAbstractRule) (e := ruleElement r) rfl rfl rfl rfl
  have hread : s.parseAbstractRule (ruleElement r) =
      { idCounter := s.idCounter + 1
        config := { s.config with
          rules := s.config.rules.push r.program.name
            { s.construct (ruleElement r) r.mRules (r.tRules.map TRule.raised) with
              transitTo := r.transitTo } } } := by
    have hmrules : parseMRules (ruleElement r) = some r.mRules :=
      parseMRules_of_matching hconds
    have hget : s.config.domains.getD r.transitTo.name .none = r.transitTo := by
      rw [h.domains, Std.ExtTreeMap.getD_eq_getD_getElem?, htgt]
      rfl
    have hinsert : s.config.domains.insert r.transitTo.name r.transitTo = s.config.domains := by
      apply OrdMap.insert_of_getElem?
      rw [h.domains, htgt]
    have hnone : r.transitTo ≠ .none := by
      intro heq
      apply hn
      rw [heq]
      rfl
    have hto : (ruleElement r).attr "to_domain" = r.transitTo.name := rfl
    have hr : s.parseAbstractRule (ruleElement r) = s.parseRule (ruleElement r) := rfl
    rw [hr, Loader.parseRule]
    simp only [hto, hget, hinsert, if_neg hnone, hmrules, parseTRulesForRule_ruleElement hsrcs]
    rfl
  rw [hread]
  refine { h with loops := ?_, rules := ?_ }
  · intro k
    rw [filterMap_append]
    simp [Entry.loopUnder, h.loops k]
  · intro k
    rw [map_vector_push, h.rules k, filterMap_append, map_append]
    congr 1
    by_cases hk : r.program.name = k
    · simp only [Entry.ruleUnder, hk, if_true, filterMap_cons, filterMap_nil,
        map_cons, map_nil, List.cons.injEq, and_true]
      simp only [Rule.strip, Rule.raised, hstrip]
    · simp [Entry.ruleUnder, hk]

/-- Every loop and rule of a list of them is read in turn. -/
theorem Restored.foldl (hc : c.Wellkept) (hrep : c.Representable) {rest : List Entry}
    (h : Restored c order s) (hrest : ∀ e ∈ rest, e ∈ c.allAbstractRules) :
  Restored c (order ++ rest) ((rest.map Entry.toElement).foldl Loader.parseAbstractRule s)
  := by
  induction rest generalizing order s with
  | nil => simpa using h
  | cons e rest ih =>
    have he := hrest e mem_cons_self
    have hconds := hrep.conditions e he
    have hsrcs := hrep.sources e he
    have hs : Restored c (order ++ [e]) (s.parseAbstractRule e.toElement) := by
      cases e with
      | loop l => apply h.loop hc hconds hsrcs
      | rule r =>
        have hr : r ∈ c.allRules := by simpa [Configuration.allAbstractRules] using he
        have htgt := hrep.targets r hr
        apply h.rule hc hconds hsrcs htgt
        apply hrep.domains
        apply mem_map.mpr
        use (r.transitTo.name, r.transitTo)
        use Std.ExtTreeMap.mem_toList_iff_getElem?_eq_some.mpr htgt
    have hmore := ih hs fun e' he' => hrest e' (mem_cons_of_mem _ he')
    rw [append_assoc] at hmore
    apply hmore

/-- A stored domain is under its name. -/
theorem name_of_mem_toList (hc : c.Wellkept) (hrep : c.Representable) {kd : String × Domain}
    (h : kd ∈ c.domains.toList) :
  kd.2.name = kd.1
  := by
  have hn : kd.2.name ≠ "" := hrep.domains _ (mem_map_of_mem h)
  rcases hc.domains kd.1 kd.2 (Std.ExtTreeMap.mem_toList_iff_getElem?_eq_some.mp h) with
    hnone | hkey
  · apply absurd _ hn
    rw [hnone]
    rfl
  · apply hkey

/-- The domains are listed with their names. -/
theorem toList_domains (hc : c.Wellkept) (hrep : c.Representable) :
  c.domains.toList = c.domainList.map fun d => (d.name, d)
  := by
  have hsame : c.domains.toList.map ((fun d => (d.name, d)) ∘ Prod.snd) =
      c.domains.toList.map id := by
    apply map_congr_left
    intro kd hkd
    exact Prod.ext (name_of_mem_toList hc hrep hkd) rfl
  rw [Configuration.domainList, map_map, hsame, map_id]

/-- The elements of the domains give the domains and the default one. -/
theorem foldl_parseDomain_domainList (hc : c.Wellkept) (hrep : c.Representable) (n : Int) :
  (c.domainList.map (domainElement c.defaultDomain)).foldl Loader.parseDomain
      ⟨.empty c.programs, n⟩ =
    ⟨{ Configuration.empty c.programs with
        domains := c.domains
        defaultDomain :=
          if c.defaultDomain ∈ c.domainList then c.defaultDomain else .none }, n⟩
  := by
  have hlist := toList_domains hc hrep
  have hdist : (c.domainList.map (·.name)).Nodup := by
    have hkeys := c.domains.nodup_keys
    rw [← Std.ExtTreeMap.map_fst_toList_eq_keys, hlist, map_map] at hkeys
    apply hkeys
  have hf := c.domains.foldl_insert_toList
  rw [hlist, foldl_map] at hf
  rw [foldl_parseDomain _ hrep.domains hdist (by simp [Configuration.empty])]
  simp only [Configuration.empty, hf]

/-- An element that is neither a loop nor a rule is skipped. -/
theorem foldl_parseAbstractRule_skip {α : Type} {xs : List α} {f : α → Dom}
    (h : ∀ (s : Loader) x, s.parseAbstractRule (f x) = s) :
  (xs.map f).foldl Loader.parseAbstractRule s = s
  := by
  induction xs with
  | nil => rfl
  | cons x xs ih => rw [map_cons, foldl_cons, h s x, ih]

/-- What is read from the document written in a given order. -/
theorem restored_load (hc : c.Wellkept) (hrep : c.Representable)
    (horder : ∀ e ∈ order, e ∈ c.allAbstractRules) (n : Int) :
  Restored c order (load c.programs n (some (c.saveWith order)))
  := by
  have hskip : ∀ s : Loader, (c.domainList.map (domainElement c.defaultDomain)).foldl
      Loader.parseAbstractRule s = s := fun s => foldl_parseAbstractRule_skip fun _ _ => rfl
  have hpaths : (noKillElement c.noKillPrograms).childrenNamed "nokill_program" =
      c.noKillPrograms.map fun path => .element "nokill_program" [("full_path", path)] [] :=
    Dom.childrenNamed_map fun _ => rfl
  have hload : load c.programs n (some (c.saveWith order)) =
      Loader.parseRoot ⟨.empty c.programs, n⟩ (c.saveWith order) := rfl
  rw [hload, Loader.parseRoot, childrenNamed_saveWith, firstChild_saveWith, Option.map_some,
    Option.getD_some, hpaths, foldl_parseDomain_domainList hc hrep,
    foldl_parseNoKillProgram hc.noKill, childElements_saveWith, foldl_append, hskip, foldl_cons]
  show Restored c ([] ++ order) _
  apply Restored.foldl hc hrep _ horder
  constructor
  · rfl
  · rfl
  · rfl
  · rfl
  · intro k
    simp [Configuration.empty, Loader.parseAbstractRule, Bookshelf.vector, noKillElement]
  · intro k
    simp [Configuration.empty, Loader.parseAbstractRule, Bookshelf.vector, noKillElement]

end Reading

/-! ### Decisions depend on what the file holds -/

section Decisions

variable {re : RegExp} {app : Program} {d : Domain} {values : OrdMap String String}

theorem AbstractRule.matchesLoop_strip (r : AbstractRule) (target : Domain → Domain)
    (ms : List MRule) :
  r.strip.matchesLoop re target app d values ms = r.matchesLoop re target app d values ms
  := by
  induction ms with
  | nil => rfl
  | cons m ms ih =>
    simp only [matchesLoop, ih]
    rfl

theorem Loop.matches_strip (l : Loop) :
  l.strip.matches re app d values = l.matches re app d values
  := by
  simp only [Loop.matches, AbstractRule.matches, Loop.strip, AbstractRule.matchesLoop_strip]
  rfl

theorem Rule.matches_strip (r : Rule) :
  r.strip.matches re app d values = r.matches re app d values
  := by
  simp only [Rule.matches, AbstractRule.matches, Rule.strip, AbstractRule.matchesLoop_strip]
  rfl

/-- Configurations that hold the same for a program decide the same for it. -/
theorem getFirstMatchingTransition_congr {c c' : Configuration}
    (hls : (c'.loops.vector app.name).map Loop.strip = (c.loops.vector app.name).map Loop.strip)
    (hrs : (c'.rules.vector app.name).map Rule.strip = (c.rules.vector app.name).map Rule.strip) :
  c'.getFirstMatchingTransition re app d values = c.getFirstMatchingTransition re app d values
  := by
  have hscanLoops : ∀ ls : List Loop, scan (·.matches re app d values) ls =
      scan (·.matches re app d values) (ls.map Loop.strip) := by
    intro ls
    rw [scan_map]
    simp only [Loop.matches_strip]
  have hscanRules : ∀ rs : List Rule, scan (·.matches re app d values) rs =
      scan (·.matches re app d values) (rs.map Rule.strip) := by
    intro rs
    rw [scan_map]
    simp only [Rule.matches_strip]
  unfold Configuration.getFirstMatchingTransition
  rw [hscanLoops, hls, ← hscanLoops, hscanRules (c'.rules.vector _), hrs, ← hscanRules]

end Decisions

/-! ### The round trip -/

/-- Reading the file written from the configuration, in whichever order `qSort` leaves the
loops and rules and whichever identifiers were issued before, gives back what the file can
hold of it, and so the same decisions. -/
def Configuration.RoundTrips (c : Configuration) : Prop :=
  ∀ order, c.IsSaveOrder order → ∀ n,
    let c' := (load c.programs n (some (c.saveWith order))).config
    c'.domains = c.domains ∧ c'.defaultDomain = c.defaultDomain ∧
    c'.noKillPrograms = c.noKillPrograms ∧
    (∀ k, (c'.loops.vector k).map Loop.strip = (c.loops.vector k).map Loop.strip) ∧
    (∀ k, (c'.rules.vector k).map Rule.strip = (c.rules.vector k).map Rule.strip) ∧
    ∀ re p d values, c'.getFirstMatchingTransition re p d values =
      c.getFirstMatchingTransition re p d values

/-- No override is `false`, the default domain is stored or there is none, entries are
stored under the names of their programs, and entries of one vector with the same priority
say the same. -/
structure Configuration.Restorable (c : Configuration) : Prop where
  overrides : ∀ e ∈ c.allAbstractRules, ∀ t ∈ e.toAbstractRule.tRules,
    t.notify? ≠ some false ∧ t.prompt? ≠ some false
  defaultDomain : c.defaultDomain = .none ∨ c.defaultDomain ∈ c.domainList
  filedLoops : loopShelving.Filed c.loops
  filedRules : ruleShelving.Filed c.rules
  loops : ∀ k, ∀ l ∈ c.loops.vector k, ∀ l' ∈ c.loops.vector k,
    l.priority = l'.priority → l.strip = l'.strip
  rules : ∀ k, ∀ r ∈ c.rules.vector k, ∀ r' ∈ c.rules.vector k,
    r.priority = r'.priority → r.strip = r'.strip

section RoundTrip

variable {c : Configuration} {order : List Entry} {k : String} {l : Loop} {r : Rule}

/-- An override that is not `false` is as it was. -/
theorem TRule.raised_eq {t : TRule} (hnot : t.notify? ≠ some false) (hpr : t.prompt? ≠ some false) :
  t.raised = t
  := by
  have hset : ∀ o : Option Bool, o ≠ some false → o.map (fun _ => true) = o := by
    rintro (_ | _ | _) h
    · rfl
    · apply absurd rfl h
    · rfl
  rw [TRule.raised, hset _ hnot, hset _ hpr]

/-- A raised source has no override that is `false`. -/
theorem TRule.raised_ne (t : TRule) :
  t.raised.notify? ≠ some false ∧ t.raised.prompt? ≠ some false
  := by
  simp [TRule.raised]

theorem AbstractRule.raised_eq {r : AbstractRule}
    (h : ∀ t ∈ r.tRules, t.notify? ≠ some false ∧ t.prompt? ≠ some false) :
  r.raised = r
  := by
  have hraised : r.tRules.map TRule.raised = r.tRules.map fun t => t := by
    apply map_congr_left
    intro t ht
    apply TRule.raised_eq (h t ht).1 (h t ht).2
  rw [AbstractRule.raised, hraised, map_id']

theorem Loop.raised_eq (h : ∀ t ∈ l.tRules, t.notify? ≠ some false ∧ t.prompt? ≠ some false) :
  l.raised = l
  := by
  rw [Loop.raised, AbstractRule.raised_eq h]

theorem Rule.raised_eq (h : ∀ t ∈ r.tRules, t.notify? ≠ some false ∧ t.prompt? ≠ some false) :
  r.raised = r
  := by
  rw [Rule.raised, AbstractRule.raised_eq h]

theorem mem_allAbstractRules_loop (h : l ∈ c.loops.vector k) :
  .loop l ∈ c.allAbstractRules
  := by
  apply mem_append_left
  apply mem_map_of_mem
  apply Bookshelf.mem_all.mpr ⟨k, h⟩

theorem mem_allAbstractRules_rule (h : r ∈ c.rules.vector k) :
  .rule r ∈ c.allAbstractRules
  := by
  apply mem_append_right
  apply mem_map_of_mem
  apply Bookshelf.mem_all.mpr ⟨k, h⟩

/-- The loops under a name are saved in an order in which they may be sorted. -/
theorem isSorting_loops (hfil : loopShelving.Filed c.loops) (h : c.IsSaveOrder order) (k : String) :
  IsSorting (·.priority) (c.loops.vector k) (order.filterMap (Entry.loopUnder k))
  := by
  have hall : c.allAbstractRules.filterMap (Entry.loopUnder k) =
      c.loops.all.filter (loopShelving.key · = k) := by
    have hrs : (c.allRules.map Entry.rule).filterMap (Entry.loopUnder k) = [] := by
      simp [filterMap_map, Entry.loopUnder, Function.comp_def]
    rw [Configuration.allAbstractRules, filterMap_append, hrs, append_nil,
      filterMap_map, ← filterMap_eq_filter]
    apply filterMap_congr
    intro l _
    by_cases hk : l.program.name = k <;>
      simp [Entry.loopUnder, loopShelving, Option.guard, hk]
  have hsort := h.filterMap fun _ _ => Entry.priority_loopUnder (k := k)
  rw [hall] at hsort
  exact ⟨hsort.perm.trans (hfil.filter_all k), hsort.sorted⟩

/-- The rules under a name are saved in an order in which they may be sorted. -/
theorem isSorting_rules (hfil : ruleShelving.Filed c.rules) (h : c.IsSaveOrder order) (k : String) :
  IsSorting (·.priority) (c.rules.vector k) (order.filterMap (Entry.ruleUnder k))
  := by
  have hall : c.allAbstractRules.filterMap (Entry.ruleUnder k) =
      c.rules.all.filter (ruleShelving.key · = k) := by
    have hls : (c.allLoops.map Entry.loop).filterMap (Entry.ruleUnder k) = [] := by
      simp [filterMap_map, Entry.ruleUnder, Function.comp_def]
    rw [Configuration.allAbstractRules, filterMap_append, hls, nil_append,
      filterMap_map, ← filterMap_eq_filter]
    apply filterMap_congr
    intro r _
    by_cases hk : r.program.name = k <;>
      simp [Entry.ruleUnder, ruleShelving, Option.guard, hk]
  have hsort := h.filterMap fun _ _ => Entry.priority_ruleUnder (k := k)
  rw [hall] at hsort
  exact ⟨hsort.perm.trans (hfil.filter_all k), hsort.sorted⟩

/-- A configuration that can be restored makes the round trip. -/
theorem Configuration.Restorable.roundTrips (hc : c.Wellkept) (hrep : c.Representable)
    (h : c.Restorable) :
  c.RoundTrips
  := by
  intro order horder n
  have hread := restored_load hc hrep (fun e he => horder.perm.mem_iff.mp he) n
  have hls : ∀ k, (order.filterMap (Entry.loopUnder k)).map (fun l => l.raised.strip) =
      (c.loops.vector k).map Loop.strip := by
    intro k
    have hsort := isSorting_loops h.filedLoops horder k
    rw [← hsort.map_eq ⟨.refl _, hc.loops k⟩ (h.loops k)]
    apply map_congr_left
    intro l hl
    have hm := mem_allAbstractRules_loop (hsort.perm.mem_iff.mp hl)
    rw [Loop.raised_eq (h.overrides _ hm)]
  have hrs : ∀ k, (order.filterMap (Entry.ruleUnder k)).map (fun r => r.raised.strip) =
      (c.rules.vector k).map Rule.strip := by
    intro k
    have hsort := isSorting_rules h.filedRules horder k
    rw [← hsort.map_eq ⟨.refl _, hc.rules k⟩ (h.rules k)]
    apply map_congr_left
    intro r hr
    have hm := mem_allAbstractRules_rule (hsort.perm.mem_iff.mp hr)
    rw [Rule.raised_eq (h.overrides _ hm)]
  have hls' := fun k => (hread.loops k).trans (hls k)
  have hrs' := fun k => (hread.rules k).trans (hrs k)
  refine ⟨hread.domains, ?_, hread.noKill, hls', hrs', ?_⟩
  · rw [hread.defaultDomain]
    rcases h.defaultDomain with hn | hm
    · rw [hn]
      split <;> rfl
    · rw [if_pos hm]
  · intro re p d values
    apply getFirstMatchingTransition_congr (hls' p.name) (hrs' p.name)

/-- What is read under a name, in any order of saving, when the round trip is made. -/
theorem Configuration.RoundTrips.filterMap_eq (hc : c.Wellkept) (hrep : c.Representable)
    (h : c.RoundTrips) (horder : c.IsSaveOrder order) (k : String) :
  order.filterMap (fun e => (e.loopUnder k).map fun l => l.raised.strip) =
      (c.loops.vector k).map Loop.strip ∧
    order.filterMap (fun e => (e.ruleUnder k).map fun r => r.raised.strip) =
      (c.rules.vector k).map Rule.strip
  := by
  have hread := restored_load hc hrep (fun e he => horder.perm.mem_iff.mp he) 0
  obtain ⟨-, -, -, hls, hrs, -⟩ := h order horder 0
  constructor
  · rw [← map_filterMap, ← hread.loops k, hls k]
  · rw [← map_filterMap, ← hread.rules k, hrs k]

/-- A loop that comes back was saved under its name, with its overrides set. -/
theorem Configuration.RoundTrips.exists_loop (hc : c.Wellkept) (hrep : c.Representable)
    (h : c.RoundTrips) (hl : l ∈ c.loops.vector k) :
  ∃ l₁ : Loop, l₁.program.name = k ∧ l₁.raised.strip = l.strip
  := by
  obtain ⟨order, horder⟩ := c.exists_isSaveOrder
  have hm := mem_map_of_mem (f := Loop.strip) hl
  rw [← (h.filterMap_eq hc hrep horder k).1] at hm
  obtain ⟨e, -, he⟩ := mem_filterMap.mp hm
  obtain ⟨l₁, hl₁, heq⟩ := Option.map_eq_some_iff.mp he
  cases e with
  | loop l₂ =>
    obtain ⟨hn, rfl⟩ := by simpa [Entry.loopUnder] using hl₁
    use l₂
  | rule r => cases hl₁

/-- A rule that comes back was saved under its name, with its overrides set. -/
theorem Configuration.RoundTrips.exists_rule (hc : c.Wellkept) (hrep : c.Representable)
    (h : c.RoundTrips) (hr : r ∈ c.rules.vector k) :
  ∃ r₁ : Rule, r₁.program.name = k ∧ r₁.raised.strip = r.strip
  := by
  obtain ⟨order, horder⟩ := c.exists_isSaveOrder
  have hm := mem_map_of_mem (f := Rule.strip) hr
  rw [← (h.filterMap_eq hc hrep horder k).2] at hm
  obtain ⟨e, -, he⟩ := mem_filterMap.mp hm
  obtain ⟨r₁, hr₁, heq⟩ := Option.map_eq_some_iff.mp he
  cases e with
  | loop l => cases hr₁
  | rule r₂ =>
    obtain ⟨hn, rfl⟩ := by simpa [Entry.ruleUnder] using hr₁
    use r₂

/-- What is written of a rule has no override that is `false`. -/
theorem AbstractRule.overrides_of_raised {r r₁ : AbstractRule} (h : r₁.raised.strip = r.strip) :
  ∀ t ∈ r.tRules, t.notify? ≠ some false ∧ t.prompt? ≠ some false
  := by
  intro t ht
  have hsrcs : r₁.tRules.map TRule.raised = r.tRules := congrArg AbstractRule.tRules h
  rw [← hsrcs] at ht
  obtain ⟨t₁, -, rfl⟩ := mem_map.mp ht
  apply t₁.raised_ne

/-- A configuration that makes the round trip has no override that is `false`. -/
theorem Configuration.RoundTrips.overrides (hc : c.Wellkept) (hrep : c.Representable)
    (h : c.RoundTrips) :
  ∀ e ∈ c.allAbstractRules, ∀ t ∈ e.toAbstractRule.tRules,
    t.notify? ≠ some false ∧ t.prompt? ≠ some false
  := by
  intro e he
  rcases mem_append.mp he with he | he
  · obtain ⟨l, hl, rfl⟩ := mem_map.mp he
    obtain ⟨k, hk⟩ := Bookshelf.mem_all.mp hl
    obtain ⟨l₁, -, heq⟩ := h.exists_loop hc hrep hk
    apply AbstractRule.overrides_of_raised (congrArg Loop.toAbstractRule heq)
  · obtain ⟨r, hr, rfl⟩ := mem_map.mp he
    obtain ⟨k, hk⟩ := Bookshelf.mem_all.mp hr
    obtain ⟨r₁, -, heq⟩ := h.exists_rule hc hrep hk
    apply AbstractRule.overrides_of_raised (congrArg Rule.toAbstractRule heq)

/-- A configuration that makes the round trip has its loops under the names of their
programs. -/
theorem Configuration.RoundTrips.filedLoops (hc : c.Wellkept) (hrep : c.Representable)
    (h : c.RoundTrips) :
  loopShelving.Filed c.loops
  := by
  intro k l hl
  obtain ⟨l₁, hn, heq⟩ := h.exists_loop hc hrep hl
  have hns : l₁.raised.strip.program.name = l.strip.program.name := by rw [heq]
  exact hns.symm.trans hn

theorem Configuration.RoundTrips.filedRules (hc : c.Wellkept) (hrep : c.Representable)
    (h : c.RoundTrips) :
  ruleShelving.Filed c.rules
  := by
  intro k r hr
  obtain ⟨r₁, hn, heq⟩ := h.exists_rule hc hrep hr
  have hns : r₁.raised.strip.program.name = r.strip.program.name := by rw [heq]
  exact hns.symm.trans hn

/-- A configuration that makes the round trip has no default domain, or a stored one. -/
theorem Configuration.RoundTrips.defaultDomain (hc : c.Wellkept) (hrep : c.Representable)
    (h : c.RoundTrips) :
  c.defaultDomain = .none ∨ c.defaultDomain ∈ c.domainList
  := by
  obtain ⟨order, horder⟩ := c.exists_isSaveOrder
  have hread := restored_load hc hrep (fun e he => horder.perm.mem_iff.mp he) 0
  obtain ⟨-, hdef, -⟩ := h order horder 0
  rw [hread.defaultDomain] at hdef
  split at hdef
  · right
    assumption
  · left
    apply hdef.symm

/-- In a configuration that makes the round trip, the loops of a vector with the same priority
say the same: a save may write them in either order. -/
theorem Configuration.RoundTrips.loops_agree (hc : c.Wellkept) (hrep : c.Representable)
    (h : c.RoundTrips) {k : String} {l l' : Loop} (hl : l ∈ c.loops.vector k)
    (hl' : l' ∈ c.loops.vector k) (hprio : l.priority = l'.priority) :
  l.strip = l'.strip
  := by
  have hovs := h.overrides hc hrep
  have hm := mem_allAbstractRules_loop hl
  have hm' := mem_allAbstractRules_loop hl'
  have hsv : ∀ x ∈ c.loops.vector k,
      ((Entry.loop x).loopUnder k).map (fun l => l.raised.strip) = some x.raised.strip := by
    intro x hx
    have hn : x.program.name = k := h.filedLoops hc hrep k x hx
    rw [Entry.loopUnder, if_pos hn]
    rfl
  have hsame := IsSorting.eq_of_filterMap
    (fun order horder => (h.filterMap_eq hc hrep horder k).1) hm hm' hprio
    (hsv l hl) (hsv l' hl')
  rwa [Loop.raised_eq (hovs _ hm), Loop.raised_eq (hovs _ hm')] at hsame

theorem Configuration.RoundTrips.rules_agree (hc : c.Wellkept) (hrep : c.Representable)
    (h : c.RoundTrips) {k : String} {r r' : Rule} (hr : r ∈ c.rules.vector k)
    (hr' : r' ∈ c.rules.vector k) (hprio : r.priority = r'.priority) :
  r.strip = r'.strip
  := by
  have hovs := h.overrides hc hrep
  have hm := mem_allAbstractRules_rule hr
  have hm' := mem_allAbstractRules_rule hr'
  have hsv : ∀ x ∈ c.rules.vector k,
      ((Entry.rule x).ruleUnder k).map (fun r => r.raised.strip) = some x.raised.strip := by
    intro x hx
    have hn : x.program.name = k := h.filedRules hc hrep k x hx
    rw [Entry.ruleUnder, if_pos hn]
    rfl
  have hsame := IsSorting.eq_of_filterMap
    (fun order horder => (h.filterMap_eq hc hrep horder k).2) hm hm' hprio
    (hsv r hr) (hsv r' hr')
  rwa [Rule.raised_eq (hovs _ hm), Rule.raised_eq (hovs _ hm')] at hsame

/-- A configuration that makes the round trip can be restored. -/
theorem Configuration.RoundTrips.restorable (hc : c.Wellkept) (hrep : c.Representable)
    (h : c.RoundTrips) :
  c.Restorable
  := by
  constructor
  · apply h.overrides hc hrep
  · apply h.defaultDomain hc hrep
  · apply h.filedLoops hc hrep
  · apply h.filedRules hc hrep
  · intro k l hl l' hl' hprio
    apply h.loops_agree hc hrep hl hl' hprio
  · intro k r hr r' hr' hprio
    apply h.rules_agree hc hrep hr hr' hprio

/-- A configuration reached in an editing session that the file can hold makes the round
trip exactly when no override is `false`, its default domain is stored, its entries are
stored under the names of their programs, and entries of one vector with the same priority
say the same. -/
theorem roundTrips_iff_restorable {s : Store} (h : editor.Reach Machine.anyStep s)
    (hrep : s.config.Representable) :
  s.config.RoundTrips ↔ s.config.Restorable
  := by
  have hc := wellkept_of_reach h
  constructor
  · apply Configuration.RoundTrips.restorable hc hrep
  · apply Configuration.Restorable.roundTrips hc hrep

/-- A domain and a rule that leads to it, with the given source, are added. -/
def savedSession (source : TRule) : List Edit :=
  [.addDomain ⟨"private", "", "", "", 0, 0⟩ true, .addRule { mailRule with tRules := [source] }]

/-- The rule with the prompt switched on for its source makes the round trip. -/
theorem roundTrips_iff_restorable_savedSession :
  ∃ s, editor.run (.loaded [] 0 none) (savedSession ⟨"work", none, some true⟩) = some s ∧
    s.config.ids = [1] ∧ s.config.RoundTrips
  := by
  have hst : ∀ {guard}, editor.Reach guard (.loaded [] 0 none) :=
    .init ⟨[], 0, none, by decide, rfl⟩
  refine ⟨_, rfl, by decide, ?_⟩
  apply (roundTrips_iff_restorable (hst.run (savedSession ⟨"work", none, some true⟩)
    (by decide) rfl) ⟨by decide, by decide, by decide, by decide⟩).mpr
  have hcoh := Configuration.Coherent.of_reach
    (hst.run (savedSession ⟨"work", none, some true⟩) (by decide) rfl)
  refine ⟨by decide, by decide, hcoh.filedLoops, hcoh.filedRules, ?_, ?_⟩
  · intro k l hl
    cases Bookshelf.mem_all.mpr ⟨k, hl⟩
  · intro k r hr r' hr' _
    have hone := mem_singleton.mp (Bookshelf.mem_all.mpr ⟨k, hr⟩)
    have hone' := mem_singleton.mp (Bookshelf.mem_all.mpr ⟨k, hr'⟩)
    rw [hone, hone']

/-- The rule with the prompt switched off for its source does not make the round trip. -/
theorem false_override_is_lost :
  ∃ s, editor.Reach Machine.anyStep s ∧ s.config.Representable ∧ ¬ s.config.RoundTrips
  := by
  have hst : editor.Reach Machine.anyStep (.loaded [] 0 none) :=
    .init ⟨[], 0, none, by decide, rfl⟩
  have hrch := hst.run (savedSession ⟨"work", none, some false⟩) (by decide) rfl
  refine ⟨_, hrch, ⟨by decide, by decide, by decide, by decide⟩, ?_⟩
  intro h
  have hovs := h.overrides (wellkept_of_reach hrch)
    ⟨by decide, by decide, by decide, by decide⟩
  revert hovs
  decide

end RoundTrip

end Policy

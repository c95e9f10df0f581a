import Contextd.Policy.RoundTrip

/-!
# Reading the configuration again

`Configuration::updateRules` reads the files again into an object that was read from earlier files.
Compared with `construct`, which reads them into a new object, the two runs of the reader stay alike
(`Alike`), up to the identifiers and up to the default domain, which is not cleared.
-/

namespace Policy

open List

/-- The files of a configuration: what is read from the files of the programs, in the order
of the directory, and the root element of the transitions file, if it can be read. -/
structure Files where
  programs : List Program
  transitions : Option Dom

/-- `Configuration::parsePrograms`: a program that is not valid is skipped, and so is one
whose name is there already. -/
def parsePrograms (files : List Program) (programs : OrdMap String Program) :
    OrdMap String Program :=
  files.foldl
    (fun m p => if p.isValid then if p.name ∈ m then m else m.insert p.name p else m) programs

namespace Loader

/-- `Configuration::parseTransitionsFile`. -/
def parseTransitionsFile (s : Loader) (root : Option Dom) : Loader :=
  match root with
  | some root => if root.isNamed "PIGA_Transitions" then s.parseRoot root else s
  | none => s

/-- `Configuration::readConf`.  The default domain stays. -/
def readConf (s : Loader) (root : Option Dom) : Loader :=
  parseTransitionsFile
    { s with
      config := { s.config with rules := ∅, loops := ∅, domains := ∅, noKillPrograms := [] } }
    root

/-- `Configuration::updateRules`, of an object that reads the files of the programs if
`parse`. -/
def updateRules (parse : Bool) (s : Loader) (files : Files) : Loader :=
  readConf
    { s with
      config :=
        { s.config with programs := if parse then parsePrograms files.programs ∅ else ∅ } }
    files.transitions

end Loader

/-- `Configuration::Configuration`, for a new object that is given some programs. -/
def construct (idCounter : Int) (parse : Bool) (programs : List Program) (files : Files) :
    Loader :=
  let known := programMap programs
  Loader.readConf
    ⟨.empty (if parse then parsePrograms files.programs known else known), idCounter⟩
    files.transitions

/-- A new object is what the transitions file is read into, with the programs that are
known. -/
theorem construct_eq_load (n : Int) (parse : Bool) (programs : List Program) (files : Files) :
  construct n parse programs files =
    load
      (if parse then parsePrograms files.programs (programMap programs) else programMap programs)
      n files.transitions
  := rfl

/-! ### The default domain of the files -/

/-- The transitions file declares a default domain: an element that is the first one of its
domain says so. -/
def Files.DeclaresDefault (files : Files) : Prop :=
  ∃ root ∈ files.transitions, root.isNamed "PIGA_Transitions" = true ∧
    ∃ e, (root.childrenNamed "domain").find? (·.attr "name" == e.attr "name") = some e ∧
      e.attr "name" ≠ "" ∧ isTrue (e.attrD "default" "false") = true

namespace Loader

theorem defaultDomain_parseNoKillProgram (s : Loader) (e : Dom) :
  (s.parseNoKillProgram e).config.defaultDomain = s.config.defaultDomain
  := by
  simp only [parseNoKillProgram]
  split <;> rfl

theorem defaultDomain_parseAbstractRule (s : Loader) (e : Dom) :
  (s.parseAbstractRule e).config.defaultDomain = s.config.defaultDomain
  := by
  simp only [parseAbstractRule, parseLoop, parseRule]
  split_ifs <;> (try split) <;> rfl

/-- Among the first elements of their domains, the head of a list comes before the others. -/
theorem exists_find?_cons {p : Dom → Prop} {e : Dom} {es : List Dom} :
  (∃ x, (e :: es).find? (·.attr "name" == x.attr "name") = some x ∧ p x) ↔
    p e ∨ ∃ x, es.find? (·.attr "name" == x.attr "name") = some x ∧ p x ∧
      x.attr "name" ≠ e.attr "name"
  := by
  constructor
  · rintro ⟨x, hf, hx⟩
    by_cases hn : e.attr "name" = x.attr "name"
    · rw [List.find?_cons_of_pos (by simpa using hn)] at hf
      cases hf
      exact .inl hx
    · rw [List.find?_cons_of_neg (by simpa using hn)] at hf
      exact .inr ⟨x, hf, hx, Ne.symm hn⟩
  · rintro (he | ⟨x, hf, hx, hn⟩)
    · exact ⟨e, List.find?_cons_of_pos (beq_self_eq_true _), he⟩
    · refine ⟨x, ?_, hx⟩
      rw [List.find?_cons_of_neg (by simpa using hn.symm), hf]

/-- After the `domain` elements there is a default domain if there was one before, or if one
of them is the first of a new domain and says so. -/
theorem defaultDomain_foldl_parseDomain (s : Loader) (es : List Dom) :
  (es.foldl parseDomain s).config.defaultDomain ≠ .none ↔
    s.config.defaultDomain ≠ .none ∨
      ∃ e, es.find? (·.attr "name" == e.attr "name") = some e ∧
        (e.attr "name" ≠ "" ∧ e.attr "name" ∉ s.config.domains) ∧
        isTrue (e.attrD "default" "false") = true
  := by
  induction es generalizing s with
  | nil => simp
  | cons e es ih =>
    rw [foldl_cons, ih, exists_find?_cons, parseDomain]
    by_cases hnew : e.attr "name" ≠ "" ∧ e.attr "name" ∉ s.config.domains
    · have hdoms : ∀ x : Dom, x.attr "name" ∉
          s.config.domains.insert (domainOf e).name (domainOf e) ↔
            x.attr "name" ∉ s.config.domains ∧ x.attr "name" ≠ e.attr "name" := by
        intro x
        rw [Std.ExtTreeMap.mem_insert, Std.LawfulEqCmp.compare_eq_iff_eq, not_or, and_comm, eq_comm]
        rfl
      rw [if_pos (show (domainOf e).name ≠ "" ∧ (domainOf e).name ∉ s.config.domains from hnew)]
      simp only [hdoms]
      by_cases htrue : isTrue (e.attrD "default" "false") = true
      · simp [htrue, domainOf_ne_none hnew.1, hnew]
      · simp only [htrue]
        grind
    · rw [if_neg (show ¬ ((domainOf e).name ≠ "" ∧ (domainOf e).name ∉ s.config.domains) from
        hnew)]
      grind

/-- After the root element there is a default domain exactly when there is one after its
`domain` elements. -/
theorem defaultDomain_parseRoot (s : Loader) (root : Dom) :
  (s.parseRoot root).config.defaultDomain =
    ((root.childrenNamed "domain").foldl parseDomain s).config.defaultDomain
  := by
  have hkeep : ∀ {f : Loader → Dom → Loader},
      (∀ s e, (f s e).config.defaultDomain = s.config.defaultDomain) →
        ∀ (es : List Dom) (s : Loader),
          (es.foldl f s).config.defaultDomain = s.config.defaultDomain := by
    intro f hf es s
    apply List.foldlRecOn es f
      (motive := fun s' => s'.config.defaultDomain = s.config.defaultDomain) rfl
    intro s' ih e _
    rw [hf, ih]
  rw [parseRoot, hkeep defaultDomain_parseAbstractRule, hkeep defaultDomain_parseNoKillProgram]

end Loader

/-- A new object has a default domain exactly when the files declare one. -/
theorem defaultDomain_construct_ne_none_iff (n : Int) (parse : Bool) (programs : List Program)
    (files : Files) :
  (construct n parse programs files).config.defaultDomain ≠ .none ↔ files.DeclaresDefault
  := by
  rw [construct_eq_load, Files.DeclaresDefault]
  unfold load
  cases files.transitions with
  | none => simp [Configuration.empty]
  | some root =>
    by_cases hroot : root.isNamed "PIGA_Transitions" = true
    · simp [hroot, Loader.defaultDomain_parseRoot, Loader.defaultDomain_foldl_parseDomain,
        Configuration.empty]
    · simp [hroot, Configuration.empty]

/-! ### Two runs of the reader -/

/-- Two configurations hold the same, up to the identifiers, except that the first may have
kept the default domain `d` where the second has none. -/
structure Alike (d : Domain) (c c' : Configuration) : Prop where
  programs : c.programs = c'.programs
  domains : c.domains = c'.domains
  noKillPrograms : c.noKillPrograms = c'.noKillPrograms
  loops : ∀ k, (c.loops.vector k).map Loop.strip = (c'.loops.vector k).map Loop.strip
  rules : ∀ k, (c.rules.vector k).map Rule.strip = (c'.rules.vector k).map Rule.strip
  defaultDomain : c.defaultDomain = if c'.defaultDomain = .none then d else c'.defaultDomain

namespace Alike

variable {d : Domain} {s s' : Loader}

/-- The two runs construct the same rule, up to the identifiers. -/
theorem strip_construct (h : Alike d s.config s'.config) (e : Dom) (mrules : List MRule)
    (trules : List TRule) :
  (s.construct e mrules trules).strip = (s'.construct e mrules trules).strip
  := by
  simp only [Loader.construct, AbstractRule.strip, Loader.programNamed, h.programs]

theorem parseDomain (h : Alike d s.config s'.config) (e : Dom) :
  Alike d (s.parseDomain e).config (s'.parseDomain e).config
  := by
  simp only [Loader.parseDomain, h.domains]
  split
  · rename_i hnew
    refine ⟨h.programs, rfl, h.noKillPrograms, h.loops, h.rules, ?_⟩
    have hne : domainOf e ≠ .none := fun hn => hnew.1 (by rw [hn]; rfl)
    by_cases hdef : isTrue (e.attrD "default" "false") = true
    · simp only [hdef, if_true, if_neg hne]
    · simpa only [if_neg hdef] using h.defaultDomain
  · apply h

theorem parseNoKillProgram (h : Alike d s.config s'.config) (e : Dom) :
  Alike d (s.parseNoKillProgram e).config (s'.parseNoKillProgram e).config
  := by
  simp only [Loader.parseNoKillProgram]
  split
  · exact ⟨h.programs, h.domains, by rw [h.noKillPrograms], h.loops, h.rules, h.defaultDomain⟩
  · apply h

theorem parseLoop (h : Alike d s.config s'.config) (e : Dom) :
  Alike d (s.parseLoop e).config (s'.parseLoop e).config
  := by
  simp only [Loader.parseLoop]
  split
  · rename_i mrules trules _ _
    refine ⟨h.programs, h.domains, h.noKillPrograms, ?_, h.rules, h.defaultDomain⟩
    intro k
    simp only [Bookshelf.push, Bookshelf.vector_insert]
    split
    · simp only [map_append, h.loops, map_cons, map_nil, Loop.strip, h.strip_construct e]
    · apply h.loops
  · apply h

theorem parseRule (h : Alike d s.config s'.config) (e : Dom) :
  Alike d (s.parseRule e).config (s'.parseRule e).config
  := by
  simp only [Loader.parseRule, h.domains]
  split
  · exact ⟨h.programs, rfl, h.noKillPrograms, h.loops, h.rules, h.defaultDomain⟩
  · dsimp only
    split
    · rename_i mrules trules _ _
      refine ⟨h.programs, rfl, h.noKillPrograms, h.loops, ?_, h.defaultDomain⟩
      intro k
      simp only [Bookshelf.push, Bookshelf.vector_insert]
      split
      · simp only [map_append, h.rules, map_cons, map_nil, Rule.strip, h.strip_construct e]
      · apply h.rules
    · exact ⟨h.programs, rfl, h.noKillPrograms, h.loops, h.rules, h.defaultDomain⟩

theorem parseAbstractRule (h : Alike d s.config s'.config) (e : Dom) :
  Alike d (s.parseAbstractRule e).config (s'.parseAbstractRule e).config
  := by
  simp only [Loader.parseAbstractRule]
  split
  · apply h.parseLoop
  · split
    · apply h.parseRule
    · apply h

/-- The two runs stay alike over a list of elements. -/
theorem foldl {f : Loader → Dom → Loader}
    (hf : ∀ s s' e, Alike d s.config s'.config → Alike d (f s e).config (f s' e).config)
    (es : List Dom) (h : Alike d s.config s'.config) :
  Alike d (es.foldl f s).config (es.foldl f s').config
  := by
  apply foldl_rel (r := fun s s' : Loader => Alike d s.config s'.config) h
  intro e _ s s' h
  apply hf s s' e h

theorem parseTransitionsFile (h : Alike d s.config s'.config) (root : Option Dom) :
  Alike d (s.parseTransitionsFile root).config (s'.parseTransitionsFile root).config
  := by
  unfold Loader.parseTransitionsFile
  split
  · split
    · apply foldl fun _ _ e h => h.parseAbstractRule e
      apply foldl fun _ _ e h => h.parseNoKillProgram e
      apply foldl (fun _ _ e h => h.parseDomain e) _ h
    · apply h
  · apply h

end Alike

/-- Whatever was read before, reading the files again gives what a new object reads, up to
the identifiers, except that the default domain is kept when the files declare none. -/
theorem alike_updateRules (parse : Bool) (s : Loader) (files : Files) (n : Int) :
  Alike s.config.defaultDomain (s.updateRules parse files).config
    (construct n parse [] files).config
  := by
  apply Alike.parseTransitionsFile
  constructor <;> simp [Configuration.empty, programMap]

/-- What can be observed of two configurations is the same: programs, domains, the default
domain, the programs that are not killed, the loops and the rules of every program in their
order and up to the identifiers, and so every decision. -/
structure Configuration.Same (c c' : Configuration) : Prop where
  programs : c.programs = c'.programs
  domains : c.domains = c'.domains
  defaultDomain : c.defaultDomain = c'.defaultDomain
  noKillPrograms : c.noKillPrograms = c'.noKillPrograms
  loops : ∀ k, (c.loops.vector k).map Loop.strip = (c'.loops.vector k).map Loop.strip
  rules : ∀ k, (c.rules.vector k).map Rule.strip = (c'.rules.vector k).map Rule.strip
  decisions : ∀ re p d values, c.getFirstMatchingTransition re p d values =
    c'.getFirstMatchingTransition re p d values

/-- Configurations that are alike are the same exactly when no default domain is left over. -/
theorem Alike.same_iff {d : Domain} {c c' : Configuration} (h : Alike d c c') :
  c.Same c' ↔ d = .none ∨ c'.defaultDomain ≠ .none
  := by
  have hdef : c.defaultDomain = c'.defaultDomain ↔ d = .none ∨ c'.defaultDomain ≠ .none := by
    rw [h.defaultDomain]
    by_cases hn : c'.defaultDomain = .none <;> simp [hn]
  rw [← hdef]
  constructor
  · intro hsame
    apply hsame.defaultDomain
  · intro heq
    refine ⟨h.programs, h.domains, heq, h.noKillPrograms, h.loops, h.rules, ?_⟩
    intro re p d values
    apply getFirstMatchingTransition_congr (h.loops p.name) (h.rules p.name)

end Policy

import Contextd.Data.MultiMap
import Contextd.Policy.ProgramVariable

/-!
# The file that describes a program

`Program(QFile&)` reads the actions and the variables of a program, and `retrieveDOM` writes them.
The variables are in a multimap, which is written newest first, so a program that is read again has
the variables of a name in the other order (`vector_of_reload`).  It is the same however often it is
written and read, exactly when every name is that of one variable, and no list of strings has a
string with the separator (`reloads_alike_iff`).
-/

namespace Policy

open List

/-- `ProgramAction`. -/
structure ProgramAction where
  name : String
  displayName : String
  description : String
  deriving DecidableEq, Repr

/-- A program with its actions and variables: `_actions`, `_variables` and `_var_map`. -/
structure DescribedProgram extends Program where
  actions : OrdMap String ProgramAction
  actionVariables : OrdMap String (OrdMap String ProgramVariable)
  varMap : Bookshelf String ProgramVariable

/-! ### Reading -/

/-- One `action` element: an action without a name, or with one that is known, is skipped. -/
def readAction (actions : OrdMap String ProgramAction) (e : Dom) : OrdMap String ProgramAction :=
  if e.attr "name" ≠ "" then
    if e.attr "name" ∈ actions then actions
    else
      actions.insert (e.attr "name")
        ⟨e.attr "name", e.attr "display_name", e.attr "description"⟩
  else actions

/-- The containers of the variables. -/
structure VariableMaps where
  actionVariables : OrdMap String (OrdMap String ProgramVariable)
  varMap : Bookshelf String ProgramVariable

/-- The variables of an action. -/
def VariableMaps.ofAction (s : VariableMaps) (action : String) : OrdMap String ProgramVariable :=
  s.actionVariables.getD action ∅

/-- A variable is put into the containers. -/
def VariableMaps.add (s : VariableMaps) (v : ProgramVariable) : VariableMaps where
  actionVariables := s.actionVariables.insert v.action ((s.ofAction v.action).insert v.name v)
  varMap := s.varMap.insertMulti v.name v

/-- One `variable` element: a variable without a name or a known action is skipped, and one
with the name of another variable of its action. -/
def readVariable (qt : Strings) (actions : OrdMap String ProgramAction) (s : VariableMaps)
    (e : Dom) : VariableMaps :=
  if e.attr "name" ≠ "" ∧ e.attr "action" ∈ actions then
    if e.attr "name" ∈ s.ofAction (e.attr "action") then s else s.add (variableOf qt e)
  else s

/-- The actions of an `actions` element. -/
def actionsOf (e : Dom) : OrdMap String ProgramAction :=
  (e.childrenNamed "action").foldl readAction ∅

/-- The variables of a `variables` element. -/
def variableMapsOf (qt : Strings) (actions : OrdMap String ProgramAction) (e : Dom) :
    VariableMaps :=
  (e.childrenNamed "variable").foldl (readVariable qt actions) ⟨∅, ∅⟩

namespace DescribedProgram

/-- `Program(QFile&)` on the root of the document.  There is no program when the constructor
gives up. -/
def ofDocument (qt : Strings) (root : Dom) : Option DescribedProgram :=
  if root.isNamed "program" then
    match root.firstChild "variables", root.firstChild "actions" with
    | some vars, some acts =>
        if root.attr "name" = "" then none
        else
          let actions := actionsOf acts
          let maps := variableMapsOf qt actions vars
          some
            { name := root.attr "name"
              displayName := root.attr "display_name"
              icon := root.attr "icon"
              fullPath := root.attr "full_path"
              description := ((root.firstChild "description").map Dom.textOf).getD ""
              actions := actions
              actionVariables := maps.actionVariables
              varMap := maps.varMap }
    | _, _ => none
  else none

/-- `getVariableByName`; no action is the empty name. -/
def getVariableByName (p : DescribedProgram) (name action : String) : ProgramVariable :=
  let vars := p.varMap.vector name
  if vars.length = 0 then .none
  else if action ≠ "" then (vars.find? (·.action = action)).getD .none
  else vars.headD .none

end DescribedProgram

/-! ### Writing -/

/-- The element of an action. -/
def actionElement (act : ProgramAction) : Dom :=
  .element "action" [("description", act.description), ("display_name", act.displayName),
    ("name", act.name)] []

namespace DescribedProgram

/-- `retrieveDOM`. -/
def retrieveDOM (p : DescribedProgram) : Dom :=
  .element "program" [("name", p.name), ("display_name", p.displayName), ("icon", p.icon),
    ("full_path", p.fullPath)]
    [.textElement "description" p.description,
      .element "actions" [] (p.actions.toList.map fun act => actionElement act.2),
      .element "variables" [] (p.varMap.all.map variableElement)]

/-- A program is written and read. -/
def reload (qt : Strings) (p : DescribedProgram) : Option DescribedProgram :=
  ofDocument qt p.retrieveDOM

/-- A program is written and read a number of times. -/
def reloads (qt : Strings) : ℕ → DescribedProgram → Option DescribedProgram
  | 0, p => some p
  | n + 1, p => (p.reload qt).bind (reloads qt n)

/-- The programs have the same attributes and actions, and the variables that are found by a
name and an action are the same. -/
structure Alike (re : RegExp) (p p' : DescribedProgram) : Prop where
  attributes : p.toProgram = p'.toProgram
  actions : p.actions = p'.actions
  found : ∀ name action,
    (p.getVariableByName name action).SameVariable re (p'.getVariableByName name action)

/-- Every name is that of one variable at most, and the strings of lists can be written. -/
structure Faithful (p : DescribedProgram) : Prop where
  single : ∀ name, (p.varMap.vector name).length ≤ 1
  writable : ∀ name, ∀ v ∈ p.varMap.vector name, v.Writable

end DescribedProgram

/-! ### What is read -/

section

variable {qt : Strings} {actions : OrdMap String ProgramAction} {s : VariableMaps}

theorem mem_ofAction_add (s : VariableMaps) (v : ProgramVariable) (name action : String) :
  name ∈ (s.add v).ofAction action ↔
    v.action = action ∧ v.name = name ∨ name ∈ s.ofAction action
  := by
  by_cases hact : v.action = action
  · subst hact
    simp [VariableMaps.ofAction, VariableMaps.add, Std.ExtTreeMap.mem_insert]
  · simp [VariableMaps.ofAction, VariableMaps.add, Std.ExtTreeMap.getD_insert, hact]

/-- What the containers of the variables that were read are like. -/
structure VariableMaps.WellFormed (actions : OrdMap String ProgramAction) (s : VariableMaps) :
    Prop where
  filed : ∀ name, ∀ v ∈ s.varMap.vector name, v.name = name
  known : ∀ name, ∀ v ∈ s.varMap.vector name, name ≠ "" ∧ v.action ∈ actions ∧ v.WellFormed
  distinct : ∀ name, (s.varMap.vector name).Pairwise fun v w => v.action ≠ w.action
  tracked : ∀ name action,
    name ∈ s.ofAction action ↔ ∃ v ∈ s.varMap.vector name, v.action = action

theorem VariableMaps.wellFormed_empty (actions : OrdMap String ProgramAction) :
  WellFormed actions ⟨∅, ∅⟩
  := by
  constructor <;> simp [VariableMaps.ofAction]

/-- A new variable of a known action can be put into the containers. -/
theorem VariableMaps.WellFormed.add (h : s.WellFormed actions) {v : ProgramVariable}
    (hn : v.name ≠ "") (hact : v.action ∈ actions) (hv : v.WellFormed)
    (hnew : ∀ w ∈ s.varMap.vector v.name, w.action ≠ v.action) :
  (s.add v).WellFormed actions
  := by
  have hvec : ∀ name, (s.add v).varMap.vector name =
      if v.name = name then v :: s.varMap.vector name else s.varMap.vector name :=
    fun name => Bookshelf.vector_insertMulti _ _ _ _
  constructor
  · intro name w hw
    rw [hvec] at hw
    split_ifs at hw with heq
    · rcases mem_cons.mp hw with rfl | hw
      · apply heq
      · apply h.filed name w hw
    · apply h.filed name w hw
  · intro name w hw
    rw [hvec] at hw
    split_ifs at hw with heq
    · rcases mem_cons.mp hw with rfl | hw
      · exact ⟨heq ▸ hn, hact, hv⟩
      · apply h.known name w hw
    · apply h.known name w hw
  · intro name
    rw [hvec]
    split_ifs with heq
    · subst heq
      apply pairwise_cons.mpr
      use fun w hw => (hnew w hw).symm
      apply h.distinct
    · apply h.distinct
  · intro name action
    rw [mem_ofAction_add, h.tracked, hvec]
    split_ifs with heq <;> simp [heq]

/-- The element of a variable is read, if it is new. -/
theorem readVariable_eq_add (h : s.WellFormed actions) {e : Dom} (hn : e.attr "name" ≠ "")
    (hact : e.attr "action" ∈ actions)
    (hnew : ∀ w ∈ s.varMap.vector (e.attr "name"), w.action ≠ e.attr "action") :
  readVariable qt actions s e = s.add (variableOf qt e)
  := by
  have hnot : e.attr "name" ∉ s.ofAction (e.attr "action") := by
    rw [h.tracked]
    rintro ⟨w, hw, heq⟩
    apply hnew w hw heq
  rw [readVariable, if_pos ⟨hn, hact⟩, if_neg hnot]

/-- Reading a variable keeps the containers well formed. -/
theorem VariableMaps.WellFormed.readVariable (h : s.WellFormed actions) (e : Dom) :
  (readVariable qt actions s e).WellFormed actions
  := by
  obtain ⟨hn, hact⟩ := variableOf_names qt e
  unfold Policy.readVariable
  split_ifs with hkn hold
  · apply h
  · apply h.add
    · rw [hn]
      apply hkn.1
    · rw [hact]
      apply hkn.2
    · apply ProgramVariable.wellFormed_variableOf
    · rw [hn, hact]
      intro w hw heq
      apply hold ((h.tracked _ _).mpr ⟨w, hw, heq⟩)
  · apply h

theorem wellFormed_variableMapsOf (qt : Strings) (e : Dom) :
  (variableMapsOf qt actions e).WellFormed actions
  := by
  have hf : ∀ (es : List Dom) (s : VariableMaps), s.WellFormed actions →
      (es.foldl (readVariable qt actions) s).WellFormed actions := by
    intro es
    induction es with
    | nil => exact fun s h => h
    | cons e es ih => exact fun s h => ih _ (h.readVariable e)
  apply hf _ _ (VariableMaps.wellFormed_empty actions)

theorem attr_variableElement (v : ProgramVariable) :
  (variableElement v).attr "name" = v.name ∧ (variableElement v).attr "action" = v.action
  := by
  simp [variableElement, Dom.attr, Dom.attrD, lookup_cons]

/-- The elements of variables that are new, and differ, are all read. -/
theorem foldl_readVariable (hqt : qt.Documented) {vs : List ProgramVariable}
    (hs : s.WellFormed actions) (hvs : ∀ v ∈ vs, v.name ≠ "" ∧ v.action ∈ actions ∧ v.WellFormed)
    (hdist : vs.Pairwise fun v w => v.name = w.name → v.action ≠ w.action)
    (hnew : ∀ v ∈ vs, ∀ w ∈ s.varMap.vector v.name, w.action ≠ v.action) :
  ((vs.map variableElement).foldl (readVariable qt actions) s).varMap =
    (vs.map ProgramVariable.reread).foldl (fun m v => m.insertMulti v.name v) s.varMap
  := by
  induction vs generalizing s with
  | nil => rfl
  | cons v vs ih =>
    obtain ⟨hv, hvs⟩ := forall_mem_cons.mp hvs
    obtain ⟨hfst, hdist⟩ := pairwise_cons.mp hdist
    obtain ⟨hnewv, hnew⟩ := forall_mem_cons.mp hnew
    obtain ⟨hn, hact⟩ := v.reread_names
    have hread : readVariable qt actions s (variableElement v) = s.add v.reread := by
      obtain ⟨hattr, hattr'⟩ := attr_variableElement v
      rw [readVariable_eq_add hs (by rw [hattr]; exact hv.1) (by rw [hattr']; exact hv.2.1)
        (by rwa [hattr, hattr']), ProgramVariable.variableOf_variableElement hqt hv.2.2]
    rw [map_cons, foldl_cons, map_cons, foldl_cons, hread]
    apply ih _ hvs hdist
    · intro w hw x hx
      rw [VariableMaps.add, Bookshelf.vector_insertMulti, hn] at hx
      split_ifs at hx with heq
      · rcases mem_cons.mp hx with rfl | hx
        · rw [hact]
          apply hfst w hw heq
        · apply hnew w hw x hx
      · apply hnew w hw x hx
    · apply hs.add
      · rw [hn]
        apply hv.1
      · rw [hact]
        apply hv.2.1
      · apply ProgramVariable.wellFormed_reread hqt hv.2.2
      · rw [hn, hact]
        apply hnewv

end

/-! ### Actions -/

theorem foldl_readAction {acts : List (String × ProgramAction)} {m : OrdMap String ProgramAction}
    (hns : ∀ act ∈ acts, act.2.name = act.1 ∧ act.1 ≠ "") (hdist : (acts.map Prod.fst).Nodup)
    (hnew : ∀ act ∈ acts, act.1 ∉ m) :
  (acts.map fun act => actionElement act.2).foldl readAction m =
    acts.foldl (fun m act => m.insert act.1 act.2) m
  := by
  induction acts generalizing m with
  | nil => rfl
  | cons act acts ih =>
    obtain ⟨⟨hn, hne⟩, hns⟩ := forall_mem_cons.mp hns
    obtain ⟨hfst, hdist⟩ := nodup_cons.mp hdist
    rw [forall_mem_cons] at hnew
    have hread : readAction m (actionElement act.2) = m.insert act.1 act.2 := by
      have hattr : (actionElement act.2).attr "name" = act.1 := hn
      rw [readAction, hattr, if_pos hne, if_neg hnew.1, ← hn]
      rfl
    rw [map_cons, foldl_cons, foldl_cons, hread]
    apply ih hns hdist
    intro other hoth hm
    rw [Std.ExtTreeMap.mem_insert, Std.LawfulEqCmp.compare_eq_iff_eq] at hm
    rcases hm with heq | hm
    · apply hfst
      rw [heq]
      apply mem_map_of_mem hoth
    · apply hnew.2 other hoth hm

/-- Every action is under its name, which is not empty. -/
def NamedActions (actions : OrdMap String ProgramAction) : Prop :=
  ∀ name act, actions[name]? = some act → act.name = name ∧ name ≠ ""

theorem namedActions_actionsOf (e : Dom) :
  NamedActions (actionsOf e)
  := by
  have hf : ∀ (es : List Dom) (m : OrdMap String ProgramAction), NamedActions m →
      NamedActions (es.foldl readAction m) := by
    intro es
    induction es with
    | nil => exact fun m h => h
    | cons e es ih =>
      intro m h
      apply ih
      unfold readAction
      split_ifs with hn hm
      · apply h
      · intro name act hact
        rw [Std.ExtTreeMap.getElem?_insert] at hact
        split_ifs at hact with heq
        · cases hact
          have heq := Std.LawfulEqCmp.compare_eq_iff_eq.mp heq
          exact ⟨heq, heq ▸ hn⟩
        · apply h name act hact
      · apply h
  apply hf
  intro name act hact
  simp at hact

/-- The actions are read as they were written. -/
theorem actionsOf_elements {actions : OrdMap String ProgramAction} (h : NamedActions actions) :
  actionsOf (.element "actions" [] (actions.toList.map fun act => actionElement act.2)) = actions
  := by
  have hns : ∀ act ∈ actions.toList, act.2.name = act.1 ∧ act.1 ≠ "" := by
    intro act hact
    apply h act.1 act.2 (Std.ExtTreeMap.mem_toList_iff_getElem?_eq_some.mp hact)
  have hkeys : (actions.toList.map Prod.fst).Nodup := by
    rw [Std.ExtTreeMap.map_fst_toList_eq_keys]
    apply OrdMap.nodup_keys
  rw [actionsOf, Dom.childrenNamed_map (fun _ => rfl), foldl_readAction hns hkeys (by simp),
    OrdMap.foldl_insert_toList]

/-! ### Written and read -/

namespace DescribedProgram

variable {v : ProgramVariable} {name : String}

/-- What every program that was read is like. -/
structure WellFormed (p : DescribedProgram) : Prop where
  name : p.name ≠ ""
  actions : NamedActions p.actions
  maps : VariableMaps.WellFormed p.actions ⟨p.actionVariables, p.varMap⟩

variable {qt : Strings} {re : RegExp} {p p' : DescribedProgram}

theorem wellFormed_of_ofDocument {root : Dom} (h : ofDocument qt root = some p) :
  p.WellFormed
  := by
  unfold ofDocument at h
  split_ifs at h with hprog hn
  · split at h <;> cases h
  · split at h
    · cases h
      exact ⟨hn, namedActions_actionsOf _, wellFormed_variableMapsOf qt _⟩
    · cases h

/-- All the variables differ in their names or their actions. -/
theorem WellFormed.pairwise_all (h : p.WellFormed) :
  p.varMap.all.Pairwise fun v w => v.name = w.name → v.action ≠ w.action
  := by
  have hvec : ∀ kl ∈ p.varMap.toList, p.varMap.vector kl.1 = kl.2 := by
    intro kl hkl
    rw [Bookshelf.vector_eq, Bookshelf.mem_toList_iff.mp hkl, Option.getD_some]
  apply pairwise_flatMap.mpr
  constructor
  · intro kl hkl
    rw [← hvec kl hkl]
    apply (h.maps.distinct kl.1).imp
    exact fun hne _ => hne
  · apply p.varMap.distinct_keys_toList.imp_of_mem
    intro kl kl' hkl hkl' hkeys v hv w hw hn
    rw [← hvec kl hkl] at hv
    rw [← hvec kl' hkl'] at hw
    apply absurd _ hkeys
    rw [Std.LawfulEqCmp.compare_eq_iff_eq, ← h.maps.filed kl.1 v hv, hn, h.maps.filed kl'.1 w hw]

/-- A program that is written is read with the same attributes and actions, and the variables
of a name in the other order. -/
theorem exists_reload (hqt : qt.Documented) (h : p.WellFormed) :
  ∃ p', p.reload qt = some p' ∧ p'.WellFormed ∧ p'.toProgram = p.toProgram ∧
    p'.actions = p.actions ∧
    ∀ name, p'.varMap.vector name =
      ((p.varMap.vector name).map ProgramVariable.reread).reverse
  := by
  have hrel : ∃ maps, p.reload qt = some
      { p with actionVariables := maps.actionVariables, varMap := maps.varMap } ∧
      maps = variableMapsOf qt p.actions
        (.element "variables" [] (p.varMap.all.map variableElement)) := by
    refine ⟨_, ?_, rfl⟩
    have hacts := actionsOf_elements h.actions
    simp [reload, ofDocument, retrieveDOM, Dom.isNamed, Dom.firstChild, Dom.textElement,
      Dom.attr, Dom.attrD, lookup_cons, Dom.textOf, Dom.textOfAll, hacts, h.name]
  obtain ⟨maps, hrel, hmaps⟩ := hrel
  refine ⟨_, hrel, wellFormed_of_ofDocument hrel, rfl, rfl, ?_⟩
  intro name
  have hvs : ∀ v ∈ p.varMap.all, v.name ≠ "" ∧ v.action ∈ p.actions ∧ v.WellFormed := by
    intro v hv
    obtain ⟨name, hv⟩ := Bookshelf.mem_all.mp hv
    rw [h.maps.filed name v hv]
    apply h.maps.known name v hv
  have hns : (fun v => decide (v.name = name)) ∘ ProgramVariable.reread =
      fun v : ProgramVariable => decide (v.name = name) := by
    funext v
    rw [Function.comp_apply, v.reread_names.1]
  rw [hmaps, variableMapsOf, Dom.childrenNamed_map (fun _ => rfl),
    foldl_readVariable hqt (VariableMaps.wellFormed_empty _) hvs h.pairwise_all (by simp),
    Bookshelf.vector_foldl_insertMulti, Bookshelf.vector_empty, append_nil,
    filter_map, hns, Bookshelf.filter_all h.maps.filed]

/-! ### The variables that are found -/

/-- A variable is found by its name and its action. -/
theorem WellFormed.getVariableByName_of_mem (h : p.WellFormed) (hv : v ∈ p.varMap.vector name) :
  p.getVariableByName name v.action = v
  := by
  obtain ⟨-, haction, -⟩ := h.maps.known name v hv
  have hne : v.action ≠ "" := by
    obtain ⟨act, hact⟩ := Std.ExtTreeMap.mem_iff_isSome_getElem?.mp haction |>
      Option.isSome_iff_exists.mp
    apply (h.actions v.action act hact).2
  have hlen : (p.varMap.vector name).length ≠ 0 := by
    intro hnil
    rw [length_eq_zero_iff.mp hnil] at hv
    cases hv
  have hf : (p.varMap.vector name).find? (·.action = v.action) = some v := by
    have hdist := h.maps.distinct name
    generalize p.varMap.vector name = vars at hv hdist
    induction vars with
    | nil => cases hv
    | cons w vars ih =>
      obtain ⟨hw, hdist⟩ := pairwise_cons.mp hdist
      rcases mem_cons.mp hv with rfl | hv
      · simp
      · rw [List.find?_cons_of_neg (by simpa using hw v hv)]
        apply ih hv hdist
  simp only [getVariableByName, if_neg hlen, if_pos hne, hf, Option.getD_some]

/-- The newest variable of a name is found without an action. -/
theorem getVariableByName_cons {vars : List ProgramVariable}
    (h : p.varMap.vector name = v :: vars) :
  p.getVariableByName name "" = v
  := by
  simp [getVariableByName, h]

theorem getVariableByName_singleton {action : String} (h : p.varMap.vector name = [v]) :
  p.getVariableByName name action = if action ≠ "" ∧ v.action ≠ action then .none else v
  := by
  by_cases hact : action = ""
  · simp [getVariableByName, h, hact]
  · by_cases heq : v.action = action <;> simp [getVariableByName, h, hact, heq]

theorem sameVariable_refl (v : ProgramVariable) :
  v.SameVariable re v
  := ⟨rfl, rfl, rfl, rfl, fun _ => rfl⟩

theorem Alike.refl (p : DescribedProgram) :
  p.Alike re p
  := ⟨rfl, rfl, fun _ _ => sameVariable_refl _⟩

theorem Alike.trans {p'' : DescribedProgram} (h : p.Alike re p') (h' : p'.Alike re p'') :
  p.Alike re p''
  := by
  refine ⟨h.attributes.trans h'.attributes, h.actions.trans h'.actions, ?_⟩
  intro name action
  have hfd := h.found name action
  have hfd' := h'.found name action
  exact ⟨hfd.name.trans hfd'.name, hfd.action.trans hfd'.action,
    hfd.description.trans hfd'.description, hfd.type.trans hfd'.type,
    fun value => (hfd.validate value).trans (hfd'.validate value)⟩

/-- The variables of a faithful program are found again. -/
theorem Faithful.alike (hp : p.WellFormed) (h : p.Faithful)
    (hatt : p'.toProgram = p.toProgram) (hacts : p'.actions = p.actions)
    (hvec : ∀ name, p'.varMap.vector name =
      ((p.varMap.vector name).map ProgramVariable.reread).reverse) :
  p.Alike re p'
  := by
  refine ⟨hatt.symm, hacts.symm, ?_⟩
  intro name action
  have hsing := h.single name
  rcases hvars : p.varMap.vector name with _ | ⟨v, _ | ⟨w, vars⟩⟩
  · simp only [getVariableByName, hvec, hvars, map_nil, reverse_nil, length_nil, if_true]
    apply sameVariable_refl
  · have hv : v ∈ p.varMap.vector name := by simp [hvars]
    have hsame : v.SameVariable re v.reread :=
      (ProgramVariable.sameVariable_reread_iff (hp.maps.known name v hv).2.2).mpr
        (h.writable name v hv)
    have hvars' : p'.varMap.vector name = [v.reread] := by simp [hvec, hvars]
    rw [getVariableByName_singleton hvars, getVariableByName_singleton hvars', v.reread_names.2]
    split_ifs
    · apply sameVariable_refl
    · apply hsame
  · simp [hvars] at hsing

/-- A faithful program is read as a faithful one. -/
theorem Faithful.reload (hp : p.WellFormed) (h : p.Faithful)
    (hvec : ∀ name, p'.varMap.vector name =
      ((p.varMap.vector name).map ProgramVariable.reread).reverse) :
  p'.Faithful
  := by
  constructor
  · intro name
    rw [hvec]
    simpa using h.single name
  · intro name v' hv'
    rw [hvec, mem_reverse] at hv'
    obtain ⟨v, hv, rfl⟩ := mem_map.mp hv'
    apply ProgramVariable.writable_reread (hp.maps.known name v hv).2.2
    apply h.writable name v hv

/-- Faithful programs stay alike. -/
theorem Faithful.reloads (hqt : qt.Documented) (hp : p.WellFormed) (h : p.Faithful) (n : ℕ) :
  ∃ p', p.reloads qt n = some p' ∧ p.Alike re p'
  := by
  induction n generalizing p with
  | zero => exact ⟨p, rfl, Alike.refl p⟩
  | succ n ih =>
    obtain ⟨p₁, hrel, hp₁, hatt, hacts, hvec⟩ := exists_reload hqt hp
    obtain ⟨p', hrels, hal⟩ := ih hp₁ (h.reload hp hvec)
    refine ⟨p', ?_, (h.alike hp hatt hacts hvec).trans hal⟩
    rw [DescribedProgram.reloads, hrel, Option.bind_some, hrels]

/-- A program that is alike when it is read again is faithful. -/
theorem faithful_of_alike (hp : p.WellFormed) (hp' : p'.WellFormed)
    (hvec : ∀ name, p'.varMap.vector name =
      ((p.varMap.vector name).map ProgramVariable.reread).reverse)
    (h : p.Alike re p') :
  p.Faithful
  := by
  constructor
  · intro name
    by_contra hlen
    rcases hvars : p.varMap.vector name with _ | ⟨v, _ | ⟨w, vars⟩⟩
    · simp [hvars] at hlen
    · simp [hvars] at hlen
    have hdist := (pairwise_cons.mp (hvars ▸ hp.maps.distinct name)).1
    rcases hl : (w :: vars).reverse with _ | ⟨z, zs⟩
    · simp at hl
    have hz : z ∈ w :: vars := by
      rw [← mem_reverse, hl]
      apply mem_cons_self
    have hvec' : p'.varMap.vector name = z.reread :: (zs.map ProgramVariable.reread ++
        [v.reread]) := by
      rw [hvec, hvars, ← map_reverse, reverse_cons, hl]
      simp
    have hsame := (h.found name "").action
    rw [getVariableByName_cons hvars, getVariableByName_cons hvec', z.reread_names.2] at hsame
    apply hdist z hz hsame
  · intro name v hv
    have hv' : v.reread ∈ p'.varMap.vector name := by
      rw [hvec, mem_reverse]
      apply mem_map_of_mem hv
    have hsame := h.found name v.action
    have hfd := hp'.getVariableByName_of_mem hv'
    rw [v.reread_names.2] at hfd
    rw [hp.getVariableByName_of_mem hv, hfd] at hsame
    apply (ProgramVariable.sameVariable_reread_iff (hp.maps.known name v hv).2.2).mp hsame

/-- A program that was read stays alike however often it is written and read, exactly when
every name is that of one variable at most, and no string of a list has the separator in it. -/
theorem reloads_alike_iff (hqt : qt.Documented) {root : Dom} (h : ofDocument qt root = some p) :
  (∀ n, ∃ p', p.reloads qt n = some p' ∧ p.Alike re p') ↔ p.Faithful
  := by
  have hp := wellFormed_of_ofDocument h
  constructor
  · intro hal
    obtain ⟨p₁, hrel, hp₁, -, -, hvec⟩ := exists_reload hqt hp
    obtain ⟨p', hrels, hal⟩ := hal 1
    rw [DescribedProgram.reloads, hrel] at hrels
    cases hrels
    apply faithful_of_alike hp hp₁ hvec hal
  · intro hfai n
    apply hfai.reloads hqt hp

/-- The document of a program with the given actions and variables. -/
def document (acts vars : List Dom) : Dom :=
  .element "program" [("name", "mail")] [.element "actions" [] acts, .element "variables" [] vars]

/-- A variable of an action. -/
def hostOf (action type list : String) : Dom :=
  .element "variable" [("name", "host"), ("action", action), ("type", type), ("list", list)] []

/-- An action. -/
def actionNamed (name : String) : Dom := .element "action" [("name", name)] []

/-- The program sends to one of two hosts. -/
def sending : DescribedProgram :=
  let actions := actionsOf (.element "actions" [] [actionNamed "send"])
  let maps := variableMapsOf .plain actions
    (.element "variables" [] [hostOf "send" "string_list" ",home,work,"])
  { name := "mail", displayName := "", icon := "", fullPath := "", description := "",
    actions := actions, actionVariables := maps.actionVariables, varMap := maps.varMap }

theorem reloads_alike_sending :
  ofDocument .plain (document [actionNamed "send"] [hostOf "send" "string_list" ",home,work,"])
      = some sending ∧
    ∀ n, ∃ p', sending.reloads .plain n = some p' ∧
      sending.Alike ⟨fun _ => true, (· == ·)⟩ p'
  := by
  have hdoc : ofDocument .plain (document [actionNamed "send"]
    [hostOf "send" "string_list" ",home,work,"]) = some sending := rfl
  use hdoc
  apply (reloads_alike_iff Strings.documented_plain hdoc).mpr
  have hvec : ∀ name, sending.varMap.vector name =
      if "host" = name then [variableOf .plain (hostOf "send" "string_list" ",home,work,")]
      else [] := by
    intro name
    have hmaps : sending.varMap = (∅ : Bookshelf String ProgramVariable).insertMulti "host"
      (variableOf .plain (hostOf "send" "string_list" ",home,work,")) := rfl
    rw [hmaps, Bookshelf.vector_insertMulti, Bookshelf.vector_empty]
  constructor
  · intro name
    rw [hvec]
    split_ifs <;> simp
  · intro name v hv
    rw [hvec] at hv
    split_ifs at hv
    · obtain rfl := mem_singleton.mp hv
      intro _
      decide +kernel
    · cases hv

/-- Two actions have a variable of the same name. -/
def twoHosts : Option DescribedProgram :=
  ofDocument .plain (document [actionNamed "open", actionNamed "send"]
    [hostOf "open" "string" "", hostOf "send" "string" ""])

/-- One of the values has the separator in it. -/
def separated : Option DescribedProgram :=
  ofDocument .plain (document [actionNamed "send"] [hostOf "send" "string_list" ",a;b,c,"])

/-- Of two variables with one name the newest is found, and the oldest after the program was
read again.  A string with the separator in it is no value after the program was read
again. -/
theorem reload_differs :
  (twoHosts.map fun p => (p.getVariableByName "host" "").action) = some "send" ∧
    ((twoHosts.bind (reload .plain)).map fun p => (p.getVariableByName "host" "").action) =
      some "open" ∧
    (separated.map fun p =>
      (p.getVariableByName "host" "").validate ⟨fun _ => true, (· == ·)⟩ "a;b") =
      some true ∧
    ((separated.bind (reload .plain)).map fun p =>
      (p.getVariableByName "host" "").validate ⟨fun _ => true, (· == ·)⟩ "a;b") =
      some false
  := by
  decide +kernel

end DescribedProgram

end Policy

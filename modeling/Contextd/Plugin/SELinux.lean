import Mathlib.Data.Finset.Basic
import Mathlib.Data.List.Induction
import Contextd.Daemon.Demand
import Contextd.Machine

/-!
# The SELinux modules of the applications

`ContextdPluginSELinux` loads the module that the configuration names for an application in a
domain, or for any application in it, and unloads the one it had loaded for the application before
(`eventHandler`).  The recorded modules are loaded along a run exactly when no application leaves a
module that is recorded for another one as well (`Spares`, `bookkeeping_iff_spares`).
-/

namespace Plugin

open List Daemon Policy

/-! ### The plugin -/

/-- `SELinux_Module`. -/
structure SELinuxModule where
  fullPath : String
  appName : String
  neededContext : String
  deriving DecidableEq, Repr

/-- The module of the default constructor. -/
def SELinuxModule.none : SELinuxModule := ⟨"", "", ""⟩

/-- The name of a module: that of its file, without the last three characters. -/
def moduleName (path : String) : String :=
  let fileName := (path.toList.reverse.takeWhile (· ≠ '/')).reverse
  String.ofList (fileName.take (fileName.length - 3))

/-- The commands `semodule -r` and `semodule -i`. -/
inductive Semodule where
  | remove (name : String)
  | install (path : String)
  deriving DecidableEq, Repr

/-- The names of the modules that are loaded after a command. -/
def Semodule.exec (loaded : Finset String) : Semodule → Finset String
  | .remove name => loaded.erase name
  | .install path => insert (moduleName path) loaded

/-- `ContextdPluginSELinux`: the modules of the configuration, for an application and a
context, and the one recorded for every application. -/
structure SELinux where
  modules : String × String → Option SELinuxModule
  currentModule : String → SELinuxModule

/-- The events of the plugin.  A restart is for the programs and the default domain of the
configuration, a reload for the tags that are opened in the file, if it can be read. -/
inductive SELinuxEvent where
  | transitionDemand (event : TransitionDemand)
  | restart (programList : List Program) (defaultDomain : Domain)
  | reload (tags : Option (List (String × OrdMap String String)))

namespace SELinux

/-- `on_tag_open`. -/
def onTagOpen (p : SELinux) (tagName : String) (attributes : OrdMap String String) : SELinux :=
  if tagName = "module" then
    let app := attributes.getD "app_name" ""
    let context := attributes.getD "context" ""
    let fullPath := attributes.getD "full_path" ""
    if app ≠ "" then
      if fullPath.toList.head? = some '/' ∧
          fullPath.toList.drop (fullPath.toList.length - 3) = ['.', 'p', 'p'] then
        match p.modules (app, context) with
        | none =>
            { p with
                modules := Function.update p.modules (app, context)
                  (some ⟨fullPath, app, context⟩) }
        | some _ => p
      else p
    else p
  else p

/-- `readConf`. -/
def readConf (p : SELinux) (tags : Option (List (String × OrdMap String String))) : SELinux :=
  match tags with
  | none => p
  | some tags =>
      tags.foldl (fun p tag => p.onTagOpen tag.1 tag.2) { p with modules := fun _ => none }

/-- The plugin as it is constructed. -/
def initial (tags : Option (List (String × OrdMap String String))) : SELinux :=
  readConf ⟨fun _ => none, fun _ => .none⟩ tags

/-- `getModule`. -/
def getModule (p : SELinux) (appName context : String) : SELinuxModule :=
  match p.modules (appName, context) with
  | some module => module
  | none => (p.modules ("*", context)).getD .none

/-- The commands of `loadModule`. -/
def loadModule (p : SELinux) (app path : String) : List Semodule :=
  (if (p.currentModule app).fullPath ≠ "" then
    [.remove (moduleName (p.currentModule app).fullPath)]
  else []) ++ [.install path]

/-- `loadTheRightModule`. -/
def loadTheRightModule (p : SELinux) (app : Program) (domain : Domain) :
    List Semodule × SELinux :=
  let module := p.getModule app.name domain.name
  if module ≠ .none then
    if (p.currentModule app.name).fullPath ≠ module.fullPath then
      (p.loadModule app.name module.fullPath,
        { p with currentModule := Function.update p.currentModule app.name module })
    else ([], p)
  else ([], p)

/-- The loop of a restart. -/
def loadAll (p : SELinux) (domain : Domain) : List Program → List Semodule × SELinux
  | [] => ([], p)
  | app :: apps =>
      let (commands, p) := p.loadTheRightModule app domain
      let (rest, p) := p.loadAll domain apps
      (commands ++ rest, p)

/-- `eventHandler`. -/
def eventHandler (p : SELinux) : SELinuxEvent → List Semodule × SELinux
  | .transitionDemand event =>
      if event.demandResult = contextAccept then
        p.loadTheRightModule event.clientConcerned.program
          ((event.transitionDemanded.map Transition.transitTo).getD .none)
      else ([], p)
  | .restart programList defaultDomain => p.loadAll defaultDomain programList
  | .reload tags => ([], p.readConf tags)

/-- The name of the module that is recorded for an application, if there is one. -/
def current? (p : SELinux) (app : String) : Option String :=
  if (p.currentModule app).fullPath ≠ "" then some (moduleName (p.currentModule app).fullPath)
  else none

end SELinux

/-! ### What a load does -/

namespace SELinux

variable {p : SELinux}

/-- The modules of the configuration have a path. -/
def Valid (p : SELinux) : Prop := ∀ key module, p.modules key = some module → module.fullPath ≠ ""

theorem Valid.onTagOpen (h : p.Valid) (tagName : String) (attributes : OrdMap String String) :
  (p.onTagOpen tagName attributes).Valid
  := by
  simp only [SELinux.onTagOpen]
  split_ifs with htag happ hp
  · split
    · intro key module hmod
      dsimp only at hmod
      by_cases hkey : key = (attributes.getD "app_name" "", attributes.getD "context" "")
      · rw [hkey, Function.update_self] at hmod
        cases hmod
        rintro (hemp : attributes.getD "full_path" "" = "")
        rw [hemp] at hp
        cases hp.1
      · rw [Function.update_of_ne hkey] at hmod
        apply h key module hmod
    · apply h
  all_goals apply h

theorem Valid.readConf (h : p.Valid) (tags : Option (List (String × OrdMap String String))) :
  (p.readConf tags).Valid
  := by
  cases tags with
  | none => apply h
  | some tags =>
    have hemp : Valid { p with modules := fun _ => none } := by
      intro key module hmod
      cases hmod
    rw [SELinux.readConf]
    generalize ({ p with modules := fun _ => none } : SELinux) = q at hemp
    induction tags generalizing q with
    | nil => apply hemp
    | cons tag tags ih => apply ih _ (hemp.onTagOpen tag.1 tag.2)

theorem valid_initial (tags : Option (List (String × OrdMap String String))) :
  (initial tags).Valid
  := by
  apply Valid.readConf
  intro key module hmod
  cases hmod

/-- Reading the configuration leaves the recorded modules. -/
theorem currentModule_readConf (p : SELinux)
    (tags : Option (List (String × OrdMap String String))) :
  (p.readConf tags).currentModule = p.currentModule
  := by
  have hopen : ∀ (p : SELinux) (tag : String × OrdMap String String),
      (p.onTagOpen tag.1 tag.2).currentModule = p.currentModule := by
    intro p tag
    simp only [SELinux.onTagOpen]
    split_ifs
    · split <;> rfl
    all_goals rfl
  have hfoldl : ∀ (tags : List (String × OrdMap String String)) (p : SELinux),
      (tags.foldl (fun p tag => p.onTagOpen tag.1 tag.2) p).currentModule = p.currentModule := by
    intro tags
    induction tags with
    | nil => exact fun p => rfl
    | cons tag tags ih => exact fun p => (ih _).trans (hopen p tag)
  cases tags with
  | none => rfl
  | some tags => apply hfoldl

/-- The name of the module that the configuration has for an application in a context. -/
def configured? (p : SELinux) (app context : String) : Option String :=
  ((p.modules (app, context)).or (p.modules ("*", context))).map fun m => moduleName m.fullPath

/-- The name recorded for an application once the modules of some programs have been loaded in a
context: what the configuration has for it, if it is one of them. -/
def recorded? (p : SELinux) (context : String) (before : List Program) (app : String) :
    Option String :=
  if app ∈ before.map Program.name then (p.configured? app context).or (p.current? app)
  else p.current? app

/-- A load does nothing when the configuration has no module for the application.  Otherwise it
replaces the recorded one, if its path is another. -/
theorem loadTheRightModule_cases (h : p.Valid) (app : Program) (domain : Domain) :
  p.configured? app.name domain.name = none ∧ p.loadTheRightModule app domain = ([], p) ∨
    ∃ module, module.fullPath ≠ "" ∧
      p.configured? app.name domain.name = some (moduleName module.fullPath) ∧
      p.loadTheRightModule app domain =
        if (p.currentModule app.name).fullPath ≠ module.fullPath then
          (p.loadModule app.name module.fullPath,
            { p with currentModule := Function.update p.currentModule app.name module })
        else ([], p)
  := by
  rcases hfd : (p.modules (app.name, domain.name)).or (p.modules ("*", domain.name)) with
    _ | module
  · left
    obtain ⟨hown, hany⟩ := Option.or_eq_none_iff.mp hfd
    simp [configured?, loadTheRightModule, getModule, hown, hany]
  · right
    have hp : module.fullPath ≠ "" := by
      rcases Option.or_eq_some_iff.mp hfd with hown | ⟨-, hany⟩
      · apply h _ module hown
      · apply h _ module hany
    have hget : p.getModule app.name domain.name = module := by
      rcases Option.or_eq_some_iff.mp hfd with hown | ⟨hown, hany⟩
      · rw [getModule, hown]
      · rw [getModule, hown, hany, Option.getD_some]
    have hmod : module ≠ .none := by
      rintro rfl
      apply hp rfl
    refine ⟨module, hp, by rw [configured?, hfd, Option.map_some], ?_⟩
    simp only [loadTheRightModule, hget, if_pos hmod]

/-- The recorded modules after one of them is replaced. -/
theorem current?_update (modules : String × String → Option SELinuxModule)
    (currentModule : String → SELinuxModule) (app : String) {module : SELinuxModule}
    (h : module.fullPath ≠ "") (app' : String) :
  current? ⟨modules, Function.update currentModule app module⟩ app' =
    if app' = app then some (moduleName module.fullPath) else current? ⟨modules, currentModule⟩ app'
  := by
  unfold current?
  split_ifs <;> simp_all

/-- The commands of a load remove what was recorded for the application. -/
theorem loadModule_eq (p : SELinux) (app path : String) :
  p.loadModule app path = ((p.current? app).map Semodule.remove).toList ++ [.install path]
  := by
  unfold loadModule current?
  split_ifs <;> rfl

/-- A load changes what is recorded for its application, and nothing of the configuration. -/
theorem loadTheRightModule_spec (h : p.Valid) (app : Program) (domain : Domain) :
  (p.loadTheRightModule app domain).2.modules = p.modules ∧
    (p.loadTheRightModule app domain).2.current? = p.recorded? domain.name [app]
  := by
  obtain ⟨hn, heq⟩ | ⟨module, hp, hs, heq⟩ := p.loadTheRightModule_cases h app domain
  · rw [heq]
    use rfl
    funext app'
    unfold recorded?
    split_ifs with happ
    · rw [map_singleton, mem_singleton] at happ
      rw [happ, hn, Option.none_or]
    · rfl
  · rw [heq]
    split_ifs with hnew
    · use rfl
      funext app'
      rw [current?_update _ _ _ hp, recorded?, map_singleton]
      by_cases happ : app' = app.name
      · simp [happ, hs]
      · simp [happ]
    · use rfl
      funext app'
      rw [recorded?, map_singleton]
      by_cases happ : app' = app.name
      · have hold : p.current? app.name = some (moduleName module.fullPath) := by
          rw [current?, not_not.mp hnew, if_pos hp]
        simp [happ, hs, hold]
      · simp [happ]

end SELinux

/-! ### Whole runs -/

/-- The applications that an event loads the modules of, in this order. -/
def SELinuxEvent.programs : SELinuxEvent → List Program
  | .transitionDemand event =>
      if event.demandResult = contextAccept then [event.clientConcerned.program] else []
  | .restart programList _ => programList
  | .reload _ => []

/-- The domain that an event loads the modules for. -/
def SELinuxEvent.domain : SELinuxEvent → Domain
  | .transitionDemand event => (event.transitionDemanded.map Transition.transitTo).getD .none
  | .restart _ defaultDomain => defaultDomain
  | .reload _ => .none

/-- The names that are recorded for the applications are loaded, and every name that is loaded is
recorded for some application. -/
structure Booked (records : String → Option String) (loaded : Finset String) : Prop where
  current_loaded : ∀ app name, records app = some name → name ∈ loaded
  loaded_current : ∀ name ∈ loaded, ∃ app, records app = some name

/-- An application does not leave a module for another one while it is recorded for another
application as well. -/
def LeavesOwn (records : String → Option String) (app : String) (new? : Option String) : Prop :=
  ∀ old new, records app = some old → new? = some new → new ≠ old →
    ∀ app', app' ≠ app → records app' ≠ some old

/-- The module of an application is replaced by another one. -/
theorem Booked.replace_iff {records records' : String → Option String} {loaded : Finset String}
    {app new : String} (h : Booked records loaded) (hown : records' app = some new)
    (hoth : ∀ app', app' ≠ app → records' app' = records app') :
  Booked records' (insert new ((records app).elim loaded loaded.erase)) ↔
    LeavesOwn records app (some new)
  := by
  constructor
  · rintro hbooked old _ hold ⟨⟩ hne app' happ hshared
    have hm := hbooked.current_loaded app' old ((hoth app' happ).trans hshared)
    rw [hold, Option.elim_some] at hm
    simp [hne.symm] at hm
  · intro hleaves
    constructor
    · intro app' name hn
      by_cases happ : app' = app
      · rw [happ, hown] at hn
        cases hn
        apply Finset.mem_insert_self
      · rw [hoth app' happ] at hn
        have hm := h.current_loaded app' name hn
        rcases hold : records app with _ | old
        · apply Finset.mem_insert_of_mem hm
        · rw [Option.elim_some, Finset.mem_insert, Finset.mem_erase]
          by_cases hne : new = old
          · apply (eq_or_ne name new).imp_right fun hn => ⟨hne ▸ hn, hm⟩
          · have hkp : name ≠ old := by
              rintro rfl
              apply hleaves name new hold rfl hne app' happ hn
            exact .inr ⟨hkp, hm⟩
    · intro name hn
      rcases Finset.mem_insert.mp hn with rfl | hn
      · exact ⟨app, hown⟩
      · obtain ⟨hm, hne⟩ : name ∈ loaded ∧ records app ≠ some name := by
          rcases hold : records app with _ | old
          · rw [hold] at hn
            exact ⟨hn, by simp⟩
          · rw [hold] at hn
            obtain ⟨hne, hm⟩ := Finset.mem_erase.mp hn
            exact ⟨hm, fun heq => hne (Option.some.inj heq).symm⟩
        obtain ⟨app', hcur⟩ := h.loaded_current name hm
        use app'
        rw [hoth]
        · apply hcur
        · rintro rfl
          apply hne hcur

/-- The plugin, and the modules that it has loaded and not removed since. -/
structure ModuleStore where
  plugin : SELinux
  loaded : Finset String

namespace ModuleStore

variable {s : ModuleStore}

/-- What is there after commands and an update of the plugin. -/
def apply (s : ModuleStore) (result : List Semodule × SELinux) : ModuleStore :=
  ⟨result.2, result.1.foldl Semodule.exec s.loaded⟩

/-- What is there after an event. -/
def handle (s : ModuleStore) (event : SELinuxEvent) : ModuleStore :=
  s.apply (s.plugin.eventHandler event)

/-- What is there after the load for one application. -/
def load (domain : Domain) (s : ModuleStore) (app : Program) : ModuleStore :=
  s.apply (s.plugin.loadTheRightModule app domain)

/-- The recorded modules are loaded, and every module that is loaded is recorded for some
application. -/
def Bookkeeping (s : ModuleStore) : Prop := Booked s.plugin.current? s.loaded

/-- The books are right after the event, and after each of its loads. -/
def Keeps (s : ModuleStore) (event : SELinuxEvent) : Prop :=
  (s.handle event).Bookkeeping ∧
    ∀ apps, apps <+: event.programs → (apps.foldl (load event.domain) s).Bookkeeping

/-- Every load of the event leaves a module of its application only. -/
def Spares (s : ModuleStore) (event : SELinuxEvent) : Prop :=
  ∀ before app after, event.programs = before ++ app :: after →
    LeavesOwn (s.plugin.recorded? event.domain.name before) app.name
      (s.plugin.configured? app.name event.domain.name)

/-- The modules that are loaded after a load, if the books are right: the one of the application
is replaced by what the configuration has for it. -/
theorem Bookkeeping.loaded_load (h : s.Bookkeeping) (hval : s.plugin.Valid) (domain : Domain)
    (app : Program) :
  (s.load domain app).loaded =
    (s.plugin.configured? app.name domain.name).elim s.loaded fun new =>
      insert new ((s.plugin.current? app.name).elim s.loaded s.loaded.erase)
  := by
  rw [load, ModuleStore.apply]
  obtain ⟨hn, heq⟩ | ⟨module, hp, hs, heq⟩ :=
    s.plugin.loadTheRightModule_cases hval app domain
  · rw [heq, hn]
    rfl
  · rw [heq, hs]
    split_ifs with hnew
    · rw [SELinux.loadModule_eq]
      cases s.plugin.current? app.name <;> rfl
    · have hold : s.plugin.current? app.name = some (moduleName module.fullPath) := by
        rw [SELinux.current?, not_not.mp hnew, if_pos hp]
      rw [hold]
      apply (Finset.insert_erase (h.current_loaded _ _ hold)).symm

/-- The books are right after a load exactly when the application leaves a module of its own
only, if they were right before. -/
theorem Bookkeeping.load_iff (h : s.Bookkeeping) (hval : s.plugin.Valid) (domain : Domain)
    (app : Program) :
  (s.load domain app).Bookkeeping ↔
    LeavesOwn s.plugin.current? app.name (s.plugin.configured? app.name domain.name)
  := by
  have hcur : (s.load domain app).plugin.current? = s.plugin.recorded? domain.name [app] :=
    (SELinux.loadTheRightModule_spec hval app domain).2
  have hoth : ∀ app', app' ≠ app.name →
      s.plugin.recorded? domain.name [app] app' = s.plugin.current? app' := by
    intro app' happ
    simp [SELinux.recorded?, happ]
  have hown : s.plugin.recorded? domain.name [app] app.name =
      (s.plugin.configured? app.name domain.name).or (s.plugin.current? app.name) := by
    simp [SELinux.recorded?]
  rw [Bookkeeping, h.loaded_load hval domain app, hcur]
  rcases hnew : s.plugin.configured? app.name domain.name with _ | new
  · have hsame : s.plugin.recorded? domain.name [app] = s.plugin.current? := by
      funext app'
      by_cases happ : app' = app.name
      · rw [happ, hown, hnew, Option.none_or]
      · apply hoth app' happ
    rw [hsame]
    apply iff_of_true h nofun
  · rw [hnew, Option.some_or] at hown
    apply h.replace_iff hown hoth

/-- The plugin after the loads for a list of applications. -/
theorem foldl_load (hval : s.plugin.Valid) (domain : Domain) (apps : List Program) :
  (apps.foldl (load domain) s).plugin.modules = s.plugin.modules ∧
    (apps.foldl (load domain) s).plugin.current? = s.plugin.recorded? domain.name apps
  := by
  induction apps using List.reverseRecOn with
  | nil => exact ⟨rfl, rfl⟩
  | append_singleton apps app ih =>
    obtain ⟨hmods, hcur⟩ := ih
    rw [foldl_append, foldl_cons, foldl_nil]
    have hval' : (apps.foldl (load domain) s).plugin.Valid := by
      rw [SELinux.Valid, hmods]
      apply hval
    obtain ⟨hmods', hcur'⟩ := SELinux.loadTheRightModule_spec hval' app domain
    use hmods'.trans hmods
    apply hcur'.trans
    funext app'
    simp only [SELinux.recorded?, SELinux.configured?, hmods, hcur, map_append,
      mem_append, map_singleton, mem_singleton]
    by_cases happ : app' = app.name
    · by_cases hm : app.name ∈ apps.map Program.name
      · simp [happ, hm, ← Option.or_assoc]
      · simp [happ, hm]
    · simp [happ]

/-- The books are right after each of the loads for a list of applications exactly when every
load leaves a module of its application only. -/
theorem Bookkeeping.foldl_iff (h : s.Bookkeeping) (hval : s.plugin.Valid) (domain : Domain)
    (programs : List Program) :
  (∀ apps, apps <+: programs → (apps.foldl (load domain) s).Bookkeeping) ↔
    ∀ before app after, programs = before ++ app :: after →
      LeavesOwn (s.plugin.recorded? domain.name before) app.name
        (s.plugin.configured? app.name domain.name)
  := by
  have hload : ∀ before app, (before.foldl (load domain) s).Bookkeeping →
      (((before ++ [app]).foldl (load domain) s).Bookkeeping ↔
        LeavesOwn (s.plugin.recorded? domain.name before) app.name
          (s.plugin.configured? app.name domain.name)) := by
    intro before app hbooks
    obtain ⟨hmods, hcur⟩ := foldl_load hval domain before
    have hval' : (before.foldl (load domain) s).plugin.Valid := by
      rw [SELinux.Valid, hmods]
      apply hval
    have hiff := hbooks.load_iff hval' domain app
    rw [hcur, SELinux.configured?, hmods] at hiff
    rw [foldl_append]
    apply hiff
  constructor
  · rintro hkp before app after rfl
    have hbef := hkp before (prefix_append _ _)
    apply (hload before app hbef).mp
    apply hkp
    use after
    simp
  · intro hspares apps happs
    induction apps using List.reverseRecOn with
    | nil => apply h
    | append_singleton before app ih =>
      obtain ⟨after, rfl⟩ := happs
      have hbef := ih (by simp)
      apply (hload before app hbef).mpr
      apply hspares before app after
      simp

/-- An event that is no reload does its loads one after the other. -/
theorem handle_cases (s : ModuleStore) (event : SELinuxEvent) :
  s.handle event = event.programs.foldl (load event.domain) s ∨ ∃ tags, event = .reload tags
  := by
  cases event with
  | transitionDemand event =>
    left
    simp only [handle, SELinux.eventHandler, SELinuxEvent.programs]
    split_ifs <;> rfl
  | restart programList defaultDomain =>
    left
    rw [handle, SELinux.eventHandler, SELinuxEvent.programs, SELinuxEvent.domain]
    induction programList generalizing s with
    | nil => rfl
    | cons app apps ih =>
      rw [foldl_cons, ← ih]
      simp [ModuleStore.apply, SELinux.loadAll, load]
  | reload tags =>
    right
    exact ⟨tags, rfl⟩

theorem valid_handle (hval : s.plugin.Valid) (event : SELinuxEvent) :
  (s.handle event).plugin.Valid
  := by
  obtain heq | ⟨tags, rfl⟩ := s.handle_cases event
  · rw [heq, SELinux.Valid, (foldl_load hval _ _).1]
    apply hval
  · apply hval.readConf tags

/-- The books are right after an event, and after each of its loads, exactly when it spares the
modules of the others, if they were right before. -/
theorem Bookkeeping.keeps_iff_spares (h : s.Bookkeeping) (hval : s.plugin.Valid)
    (event : SELinuxEvent) :
  s.Keeps event ↔ s.Spares event
  := by
  rw [Spares, ← h.foldl_iff hval event.domain event.programs]
  apply and_iff_right_of_imp
  intro hkp
  obtain heq | ⟨tags, rfl⟩ := s.handle_cases event
  · rw [heq]
    apply hkp _ prefix_rfl
  · have hcur : (s.handle (.reload tags)).plugin.current? = s.plugin.current? := by
      funext app
      simp only [handle, ModuleStore.apply, SELinux.eventHandler, SELinux.current?,
        SELinux.currentModule_readConf]
    rw [Bookkeeping, hcur]
    apply h

end ModuleStore

/-- The histories of the events, from the construction of the plugin. -/
def selinux : Machine ModuleStore SELinuxEvent where
  init s := ∃ tags, s = ⟨.initial tags, ∅⟩
  step s event := some (s.handle event)

/-- Along every history the recorded modules are loaded, and only they are, after every load and
after every event, exactly when no application leaves a module that is recorded for another
application as well. -/
theorem bookkeeping_iff_spares {s : ModuleStore} (hi : selinux.init s)
    (events : List SELinuxEvent) :
  selinux.Along ModuleStore.Keeps s events ↔ selinux.Along ModuleStore.Spares s events
  := by
  obtain ⟨s', hrun⟩ := Machine.exists_run (M := selinux) (fun s event => ⟨_, rfl⟩) s events
  have hs : s.Bookkeeping ∧ s.plugin.Valid := by
    obtain ⟨tags, rfl⟩ := hi
    have hcur : ∀ app, (SELinux.initial tags).current? app = none := by
      intro app
      rw [SELinux.initial, SELinux.current?, SELinux.currentModule_readConf]
      rfl
    exact ⟨⟨by simp [hcur], by simp⟩, SELinux.valid_initial tags⟩
  apply Machine.along_iff_along (P := fun s => s.Bookkeeping ∧ s.plugin.Valid) _ hs events hrun
  rintro s event s' ⟨hbooks, hval⟩ hstep
  obtain rfl := Option.some.inj hstep
  use hbooks.keeps_iff_spares hval event
  intro hkp
  exact ⟨hkp.1, ModuleStore.valid_handle hval event⟩

/-- An application is let into a domain. -/
def enters (app domain : String) : SELinuxEvent :=
  .transitionDemand
    { clientConcerned := .new { Program.none with name := app }
      demandResult := contextAccept
      transitionDemanded := some
        ⟨.none, .none, { Domain.none with name := domain }, false, false⟩ }

/-- A `module` tag. -/
def moduleTag (app context path : String) : String × OrdMap String String :=
  ("module", Std.ExtTreeMap.ofList [("app_name", app), ("context", context), ("full_path", path)])

/-- A module for any application at work, and one for the browser at home. -/
def sharedTags : List (String × OrdMap String String) :=
  [moduleTag "*" "work" "/etc/work.pp", moduleTag "browser" "home" "/etc/web.pp"]

/-- The plugin with these modules. -/
def sharedModules : ModuleStore := ⟨.initial (some sharedTags), ∅⟩

theorem init_sharedModules :
  selinux.init sharedModules
  := ⟨some sharedTags, rfl⟩

/-- The browser enters its domain, and a restart puts the mail program and the browser to
work. -/
def restartAtWork : List SELinuxEvent :=
  [enters "browser" "home",
    .restart [{ Program.none with name := "mailer" }, { Program.none with name := "browser" }]
      { Domain.none with name := "work" }]

/-- No other application has the module that the browser leaves. -/
theorem bookkeeping_iff_spares_restartAtWork :
  ∃ s, selinux.run sharedModules restartAtWork = some s ∧
    s.plugin.current? "browser" = some "work" ∧ s.loaded = {"work"} ∧
    selinux.Along ModuleStore.Keeps sharedModules restartAtWork
  := by
  refine ⟨_, rfl, by decide, by decide, ?_⟩
  apply (bookkeeping_iff_spares init_sharedModules _).mpr
  have hval : sharedModules.plugin.Valid := SELinux.valid_initial (some sharedTags)
  refine ⟨?_, ?_⟩
  · rintro (_ | ⟨_, _⟩) app after heq old new hold
    · cases heq
      cases hold
    · have hlen : 1 = _ := congrArg List.length heq
      simp at hlen
  · rintro s ⟨⟩
    refine ⟨?_, fun _ _ => trivial⟩
    have hcur : ∀ app, app ≠ "browser" →
        (sharedModules.handle (enters "browser" "home")).plugin.current? app = none := by
      intro app happ
      have hload := SELinux.loadTheRightModule_spec hval { Program.none with name := "browser" }
        { Domain.none with name := "home" }
      apply (congrFun hload.2 app).trans
      simp [SELinux.recorded?, happ]
      rfl
    rintro (_ | ⟨_, _ | ⟨_, _⟩⟩) app after heq old new hold hnew hne app' happ
    · cases heq
      cases hold
    · cases heq
      cases hold
      rw [SELinux.recorded?]
      split_ifs with hm
      · rw [mem_singleton.mp hm]
        decide
      · rw [hcur app' happ]
        nofun
    · have hlen : 2 = _ := congrArg List.length heq
      simp at hlen

/-- Two applications are at work with the module of the domain, and the browser leaves for
home: the module that is recorded for the mail program is not loaded any more. -/
theorem shared_module_unloaded :
  ∃ s, selinux.init sharedModules ∧
    selinux.run sharedModules
      [enters "mailer" "work", enters "browser" "work", enters "browser" "home"] = some s ∧
    s.plugin.current? "mailer" = some "work" ∧ "work" ∉ s.loaded
  := ⟨_, init_sharedModules, rfl, by decide, by decide⟩

end Plugin

import Contextd.Plugin.IPTableBlocker
import Contextd.Policy.Reload
import Mathlib.Data.List.Induction

/-!
# Reloading the configuration

On `SIGUSR2` the daemon reads its configuration again and sends the reload event to its
plugins.  After any history of reloads, a reload leaves what a new start on the same files
finds exactly when no default domain is left over from earlier files and none of them allowed
a destination (`reload_eq_construct_iff`).
-/

namespace Daemon

open List Policy Plugin

/-- The files of the daemon: those of the policy, and the root element of `iptables.xml`, if
it can be read. -/
structure ConfigFiles extends Files where
  iptables : Option Dom

/-- The destinations `iptables.xml` allows in a domain. -/
def ConfigFiles.allows (files : ConfigFiles) (domainName : String) : List (String × UInt16) :=
  (files.iptables.map (staticAllows · domainName)).getD []

/-- The configuration and the firewall plugin. -/
structure Reloadable where
  loader : Loader
  plugin : IPTableBlocker

namespace Reloadable

/-- A new daemon, when the counter of identifiers stands at `n`. -/
def start (n : Int) (files : ConfigFiles) : Reloadable where
  loader := construct n true [] files.toFiles
  plugin := .initial files.iptables

/-- The handler of `SIGUSR2`, with the files as they are then. -/
def sigusr2 (s : Reloadable) (files : ConfigFiles) : Reloadable where
  loader := s.loader.updateRules true files.toFiles
  plugin := s.plugin.readConf files.iptables

/-- The daemon after it was started on some files and reloaded any number of times, each
time with the files as they were then. -/
def afterReloads (n : Int) (first : ConfigFiles) (history : List ConfigFiles) : Reloadable :=
  history.foldl sigusr2 (start n first)

/-! ### What is left over -/

/-- The plugin appends what a file allows to what is allowed. -/
theorem vector_readConf_iptables (p : IPTableBlocker) (files : ConfigFiles) (k : String) :
  (p.readConf files.iptables).staticAllow.vector k = p.staticAllow.vector k ++ files.allows k
  := by
  rw [ConfigFiles.allows]
  cases files.iptables with
  | none => apply (append_nil _).symm
  | some root => apply IPTableBlocker.vector_readConf

/-- After any history there is no default domain exactly when none of the files declared
one. -/
theorem defaultDomain_afterReloads (n : Int) (first : ConfigFiles) (history : List ConfigFiles) :
  (afterReloads n first history).loader.config.defaultDomain = .none ↔
    ∀ f ∈ first :: history, ¬ f.DeclaresDefault
  := by
  induction history using List.reverseRecOn with
  | nil =>
    rw [forall_mem_singleton, ← not_iff_not, not_not]
    apply defaultDomain_construct_ne_none_iff
  | append_singleton history files ih =>
    have hal := alike_updateRules true (afterReloads n first history).loader files.toFiles 0
    have hdeclares := defaultDomain_construct_ne_none_iff 0 true [] files.toFiles
    rw [afterReloads, foldl_concat, ← afterReloads, sigusr2, hal.defaultDomain, ← cons_append,
      forall_mem_append, ← ih, forall_mem_singleton, ← hdeclares, not_not]
    split_ifs with hn <;> simp [hn]

/-- After any history, what is allowed in a domain is what the files allowed, one after the
other. -/
theorem vector_afterReloads (n : Int) (first : ConfigFiles) (history : List ConfigFiles)
    (k : String) :
  (afterReloads n first history).plugin.staticAllow.vector k =
    (first :: history).flatMap (·.allows k)
  := by
  induction history using List.reverseRecOn with
  | nil =>
    rw [flatMap_singleton]
    apply vector_readConf_iptables
  | append_singleton history files ih =>
    rw [afterReloads, foldl_concat, ← afterReloads, sigusr2, vector_readConf_iptables, ih,
      ← cons_append, flatMap_append, flatMap_singleton]

end Reloadable

/-! ### Reloading and starting -/

open Reloadable in
/-- After any history of reloads, a reload leaves what a new start on the same files finds,
namely the same configuration up to the identifiers, and in every domain the destinations
that `iptables.xml` allows, in its order, exactly when none of the files before declared a
default domain or the files declare one now, and none of the files before allowed a
destination or there is no `iptables.xml` now. -/
theorem reload_eq_construct_iff (n₀ n : Int) (first : ConfigFiles) (history : List ConfigFiles)
    (files : ConfigFiles) :
  (((afterReloads n₀ first history).sigusr2 files).loader.config.Same
      (construct n true [] files.toFiles).config ∧
    ∀ root, files.iptables = some root →
      ∀ k, ((afterReloads n₀ first history).sigusr2 files).plugin.staticAllow.vector k =
        staticAllows root k) ↔
    ((∀ f ∈ first :: history, ¬ f.DeclaresDefault) ∨ files.DeclaresDefault) ∧
      ((∀ f ∈ first :: history, ∀ k, f.allows k = []) ∨ files.iptables = none)
  := by
  apply and_congr
  · rw [sigusr2, (alike_updateRules true _ files.toFiles n).same_iff, defaultDomain_afterReloads,
      defaultDomain_construct_ne_none_iff]
  · rw [sigusr2]
    cases hroot : files.iptables with
    | none => simp
    | some root =>
      have hvec : ∀ k, ((afterReloads n₀ first history).plugin.readConf
          (some root)).staticAllow.vector k = staticAllows root k ↔
            ∀ f ∈ first :: history, f.allows k = [] := by
        intro k
        rw [IPTableBlocker.vector_readConf, append_left_eq_self, vector_afterReloads,
          flatMap_eq_nil_iff]
      simp only [Option.some.injEq, forall_eq', hvec, reduceCtorEq, or_false]
      exact ⟨fun h f hf k => h k f hf, fun h k f hf => h f hf k⟩

/-- A transitions file with the domain `home`, which may be the default one. -/
def homeFile (isDefault : String) : Dom :=
  .element "PIGA_Transitions" []
    [.element "domain" [("name", "home"), ("default", isDefault)] []]

/-- An `iptables.xml` that allows one destination in the domain `home`. -/
def allowFile : Dom :=
  .element "iptables" []
    [.element "domain" [("name", "home")]
      [.element "allow" [("ip", "10.0.0.1"), ("port", "80")] []]]

/-- Both files, on the disk of a daemon without programs. -/
def homeFiles (isDefault : String) : ConfigFiles where
  programs := []
  transitions := some (homeFile isDefault)
  iptables := some allowFile

open Reloadable in
/-- The daemon is started on a file whose default domain is `home`, and reloaded on one that
has the domain and no default: `home` stays the default domain, and the allowed destination,
which is in the file once, is there twice. -/
theorem reload_keeps_residue :
  let s := (afterReloads 0 (homeFiles "true") []).sigusr2 (homeFiles "false")
  s.loader.config.defaultDomain.name = "home" ∧
    (construct 0 true [] (homeFiles "false").toFiles).config.defaultDomain = .none ∧
    s.plugin.staticAllow.vector "home" = [("10.0.0.1", 80), ("10.0.0.1", 80)] ∧
    staticAllows allowFile "home" = [("10.0.0.1", 80)]
  := ⟨rfl, rfl, rfl, rfl⟩

end Daemon

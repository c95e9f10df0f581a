import Contextd.Daemon.Demand
import Contextd.Daemon.Session
import Contextd.Data.Dom
import Contextd.Data.Number

/-!
# The killer plugin

`ContextdPluginKiller` parses `killer.xml` itself, with the rule and the parameter being read in
globals.  When a transition is accepted the plugin sends the signals of the rules that match, and
when the domain changes it kills the processes of users: no file can set `noKillingSpree`
(`signals_of_updateState`).
-/

/-- `Configuration::isProgramKillable`. -/
def Policy.Configuration.isProgramKillable (c : Configuration) (fullPath : String) : Bool :=
  !c.noKillPrograms.contains fullPath

namespace Plugin

open Daemon Policy QString

/-- `KillingRule`. -/
structure KillingRule where
  appName : String
  regexpContext : String
  sigNum : Int
  msgKill : String
  params : OrdMap String String
  deriving DecidableEq

/-- `KillingRule::KillingRule`, which leaves `sig_num` unset. -/
def KillingRule.new (unset : Int) : KillingRule := ⟨"", "", unset, "", ∅⟩

/-- `KillingRule::isMatched`. -/
def KillingRule.isMatched (re : RegExp) (r : KillingRule) (appName context : String)
    (clientParams : OrdMap String String) : Bool :=
  r.appName == appName && re.exactMatch r.regexpContext context &&
    r.params.toList.all fun (key, pattern) =>
      match clientParams[key]? with
      | some value => re.exactMatch pattern value
      | none => false

/-! ### Reading the file -/

/-- What the XML parser calls. -/
inductive Callback where
  | tagOpen (tagName : String) (attributes : OrdMap String String)
  | cdata (text : String)
  | tagClose (tagName : String)

/-- What is called for a file, if it can be opened, each with the unset `sig_num` of new rules. -/
abbrev File := Option (List (Callback × Int))

/-- `ContextdPluginKiller`, with the globals `rule` and `paramName`. -/
structure Killer where
  rules : List KillingRule
  noKillingSpree : Bool
  rule : KillingRule
  paramName : String

namespace Killer

/-- `on_tag_open`, `on_cdata` and `on_tag_close`.  The parser ignores what they return. -/
def onCallback (k : Killer) : Callback × Int → Killer
  | (.tagOpen tagName attributes, unset) =>
      let attr name := attributes.getD name ""
      if tagName = "PIGA_Killer" then k
      else if tagName = "rule" then
        let domain := if attr "domain" = "" then attr "context" else attr "domain"
        let sigNum := (toInt? (attr "sig_num")).getD 0
        { k with rule := ⟨attr "app_name", domain, sigNum, attr "msg_kill", ∅⟩ }
      else if k.paramName = "option" then
        -- The value is read from the attribute of the name.
        let value := attr "name"
        if attr "name" = "noKillingSpree" then { k with noKillingSpree := value == "true" } else k
      else if k.paramName = "" ∧ k.rule ≠ .new unset then { k with paramName := tagName }
      else k
  | (.cdata text, unset) =>
      if k.rule ≠ .new unset ∧ k.paramName ≠ "" then
        { k with rule := { k.rule with params := k.rule.params.insert k.paramName text } }
      else k
  | (.tagClose tagName, unset) =>
      if tagName = k.paramName then { k with paramName := "" }
      else if tagName = "rule" then { k with rules := k.rules ++ [k.rule], rule := .new unset }
      else k

/-- `readConf`. -/
def readConf (k : Killer) : File → Killer
  | none => k
  | some calls => calls.foldl onCallback { k with rules := [] }

/-- The plugin after the file was read when it was constructed, and at every reload. -/
def readConfs (unset : Int) (files : List File) : Killer :=
  files.foldl readConf ⟨[], false, .new unset, ""⟩

end Killer

/-! ### The signals -/

/-- What is below `/proc`: the entries, the executable of a process, and the second number in
the line `Uid` of its status, if it can be read. -/
structure Proc where
  entryList : List String
  exe : Int → String
  uid : Int → Option String

/-- `getPIDList`. -/
def Proc.pidList (p : Proc) : List Int := p.entryList.filterMap toInt?

/-- `getEuidFromPID`, as an `int`. -/
def Proc.euid (p : Proc) (pid : Int) : Int := ((p.uid pid).map fun s => (toInt? s).getD 0).getD (-1)

/-- `SIGKILL`. -/
def SIGKILL : Int := 9

/-- What `eventHandler` sends for a transition demand of a client with the process `appPid`, when
the current domain is `domain`. -/
def Killer.signals (k : Killer) (re : RegExp) (config : Configuration) (proc : Proc)
    (domain : Domain) (appPid : Int) (event : TransitionDemand) : List (Int × Int) :=
  let client := event.clientConcerned
  let matched := k.rules.filter
    (·.isMatched re client.program.name domain.name client.currentState)
  let spree := proc.pidList.filter fun pid =>
    1000 ≤ proc.euid pid && config.isProgramKillable (proc.exe pid) && !k.noKillingSpree
  if event.demandResult = contextAccept then
    matched.map (fun r => (appPid, r.sigNum)) ++
      if event.transitionDemanded.any fun t => t.transitFrom ≠ t.transitTo then
        spree.map (·, SIGKILL)
      else []
  else []

/-- Whatever the files say, the option is not set. -/
theorem noKillingSpree_readConfs (unset : Int) (files : List File) :
  (Killer.readConfs unset files).noKillingSpree = false
  := by
  apply List.foldlRecOn (motive := fun k : Killer => k.noKillingSpree = false)
  · rfl
  rintro k hk (_ | calls) -
  · apply hk
  apply List.foldlRecOn (motive := fun k : Killer => k.noKillingSpree = false)
  · apply hk
  rintro k hk ⟨_ | _ | _, _⟩ -
  all_goals
    simp only [Killer.onCallback]
    split_ifs <;> simp_all

section

variable {codec : Codec} {re : RegExp} {config : Configuration} {client client' : ContextClient}
  {domain domain' : Domain} {xml reply : String} {answers : Answers}

/-- The transition of a demand is from the current domain. -/
theorem transitFrom_of_demand {t : Transition}
    (h : client.demand codec re config domain xml answers = some ⟨client', reply, some t⟩) :
  t.transitFrom = domain
  := by
  unfold ContextClient.demand at h
  split at h
  · cases h
  · cases h
  split at h
  · cases h
  next hf =>
    have hfrom := (Configuration.source_of_getFirstMatchingTransition hf).2
    split_ifs at h <;> cases h <;> apply hfrom

/-- After any reloads, a call of `updateState` that changes the domain sends `SIGKILL` to every
process that is listed, is run by a user and may be killed.  Nothing else is sent, but the
signals of the rules that match to the client, when the call is accepted. -/
theorem signals_of_updateState (unset : Int) (files : List File)
    (hc : client.updateState codec re config domain xml answers = some (reply, domain', client'))
    (proc : Proc) (appPid pid sig : Int) :
  let k := Killer.readConfs unset files
  (pid, sig) ∈ ((client.demand codec re config domain xml answers).map
      (k.signals re config proc domain' appPid)).getD [] ↔
    (domain' ≠ domain ∧ sig = SIGKILL ∧ pid ∈ proc.pidList ∧ 1000 ≤ proc.euid pid ∧
      config.isProgramKillable (proc.exe pid)) ∨
    reply = contextAccept ∧ pid = appPid ∧ ∃ r ∈ k.rules, r.sigNum = sig ∧
      r.isMatched re client'.program.name domain'.name client'.currentState
  := by
  intro k
  rcases ContextClient.domain_of_demand hc with ⟨t, hdem, rfl, rfl⟩ | ⟨hrefuse, hne, rfl⟩
  · obtain rfl := transitFrom_of_demand hdem
    rw [hdem, Option.map_some, Option.getD_some]
    simp only [Killer.signals, k, noKillingSpree_readConfs, if_true, List.mem_append]
    rw [or_comm]
    apply or_congr
    · by_cases hne : t.transitFrom = t.transitTo
      · simp [hne]
      · simp [hne, Ne.symm hne, and_comm, @eq_comm _ sig]
    · simp only [List.mem_map, List.mem_filter, Prod.mk.injEq]
      constructor
      · rintro ⟨r, ⟨hr, hmtd⟩, rfl, rfl⟩
        exact ⟨trivial, rfl, r, hr, rfl, hmtd⟩
      · rintro ⟨-, rfl, r, hr, rfl, hmtd⟩
        exact ⟨r, ⟨hr, hmtd⟩, rfl, rfl⟩
  · cases hdem : client.demand codec re config domain' xml answers with
    | none => simp [hne]
    | some ev =>
      have hres : ev.demandResult ≠ contextAccept := hrefuse ev hdem ▸ by decide
      simp [hne, Killer.signals, hres]

end

/-- What is called for a file with one rule: the mail program is sent a signal when it has written
to an address. -/
def mailFile (sigNum : String) : File :=
  some ([.tagOpen "rule" (Std.ExtTreeMap.ofList
      [("app_name", "mailer"), ("domain", "private"), ("sig_num", sigNum)]),
    .tagOpen "to" ∅, .cdata "bob", .tagClose "to", .tagClose "rule"].map (·, 0))

/-- The file is changed and read again, and a third time in vain.  When the mail program is let into
another domain, it is sent the new signal, and a shell of a user is killed. -/
theorem signals_of_updateState_mailFile :
  let sent := ((mailDesk.clients 0).demand ascii literal mailPolicy mailDesk.domain mailTo
      ⟨false, .allowed⟩).map ((Killer.readConfs 0 [mailFile "15", mailFile "10", none]).signals
      literal mailPolicy ⟨["7"], fun _ => "/bin/sh", fun _ => some "1000"⟩ mailRule.transitTo 3)
  (7, SIGKILL) ∈ sent.getD [] ∧ (3, 10) ∈ sent.getD [] ∧ (3, 15) ∉ sent.getD []
  := by
  refine ⟨?_, ?_, ?_⟩
  · apply (signals_of_updateState 0 _ rfl _ _ _ _).mpr
    decide
  · apply (signals_of_updateState 0 _ rfl _ _ _ _).mpr
    decide
  · intro h
    have h' := (signals_of_updateState 0 _ rfl _ _ _ _).mp h
    revert h'
    decide

end Plugin

import Contextd.Daemon.Demand
import Contextd.Daemon.Session
import Contextd.Plugin.Firewall
import Contextd.Plugin.IPTableBlocker

/-!
# The firewall and the current domain

`updateState` tells the plugins about a demand for a transition, and the firewall plugin installs
rules for it (`IPTableBlocker.eventHandler`): those that are always allowed in the domain of the
demand, and, when the demand was accepted, those for the host of the context.

The plugin replaces its rules for a demand that was refused as well, so the installed rules follow
the domain (`Follows`) exactly when every such demand finds what it installs, and no client replaces
the rules that are always allowed by taking their name (`follows_iff_harmless`).
-/

namespace Plugin

open List Daemon Policy QString

/-- What the plugin takes from `QUrl`: the host of the text of an address. -/
structure Url where
  host : String → String

/-- `QUrl::setPort` and then `QUrl::port`: a port that is out of range is not set. -/
def urlPort (port : Int) : Int := if -1 ≤ port ∧ port ≤ 65535 then port else -1

/-- The events of a plugin. -/
inductive PluginEvent where
  | transitionDemand (event : TransitionDemand)
  | restart
  | reload (doc : Option Dom)

namespace IPTableBlocker

/-- `addStaticAllows`. -/
def addStaticAllows (p : IPTableBlocker) (domain : String) : IPTableBlocker :=
  { p with
      rules :=
        (p.staticAllow.vector domain).foldl
          (fun s allow => (s.addRule "static_allow" allow.1 allow.2.toUInt32).2) p.rules }

/-- The host and the port that the context of a client asks for. -/
def destination? (url : Url) (client : ContextClient) : Option (String × UInt32) :=
  let url_s := client.currentState.getD "url" ""
  let host := client.currentState.getD "host" ""
  let port := client.currentState.getD "port" ""
  if url_s ≠ "" ∧ host ≠ "" ∧ port ≠ "" then
    some (url.host url_s, UInt32.ofInt (urlPort ((toInt? port).getD 0)))
  else if host ≠ "" ∧ port ≠ "" then some (host, UInt32.ofInt ((toInt? port).getD 0))
  else none

/-- The transition demand of `eventHandler`, where `resolved` is the answer of the resolver.
The thread that reads the page of an address adds nothing. -/
def onTransitionDemand (url : Url) (p : IPTableBlocker) (event : TransitionDemand)
    (resolved : Option (List String)) : IPTableBlocker :=
  let domain := (event.transitionDemanded.map fun t => t.transitTo.name).getD ""
  let p :=
    if p.flushRulesWhenChangingContext then { p with rules := p.rules.removeAll } else p
  let p := p.addStaticAllows domain
  if event.demandResult = contextAccept then
    match destination? url event.clientConcerned with
    | some (host, port) =>
        { p with
            rules := (p.rules.addDomain event.clientConcerned.program.name host port resolved).2 }
    | none => p
  else p

/-- `eventHandler`. -/
def eventHandler (url : Url) (p : IPTableBlocker) (event : PluginEvent)
    (resolved : Option (List String)) : IPTableBlocker :=
  match event with
  | .transitionDemand event => p.onTransitionDemand url event resolved
  | .restart => { p with rules := p.rules.removeAll }
  | .reload doc => p.readConf doc

end IPTableBlocker

/-! ### What the rules become -/

namespace RuleList

variable {s s' s'' : RuleList} {a : Accept}

/-- Only the records and the chain are different. -/
def SameSettings (s s' : RuleList) : Prop :=
  ∃ rules output, s' = { s with rules := rules, output := output }

theorem SameSettings.trans (h : s.SameSettings s') (h' : s'.SameSettings s'') :
  s.SameSettings s''
  := by
  obtain ⟨rules, output, rfl⟩ := h
  obtain ⟨rules', output', rfl⟩ := h'
  exact ⟨rules', output', rfl⟩

theorem SameSettings.gwInterface_eq (h : s.SameSettings s') :
  s'.gwInterface = s.gwInterface
  := by
  obtain ⟨rules, output, rfl⟩ := h
  rfl

theorem sameSettings_addRule (s : RuleList) (appName destination : String) (port : UInt32) :
  s.SameSettings (s.addRule appName destination port).2
  := by
  rcases addRule_cases s appName destination port with ⟨-, heq⟩ | ⟨-, heq⟩
  · exact ⟨s.rules, s.output, heq⟩
  · exact ⟨_, _, heq⟩

theorem sameSettings_removeAppRules (s : RuleList) (appName : String) :
  s.SameSettings (s.removeAppRules appName).2
  := by
  rw [removeAppRules_eq]
  exact ⟨_, _, rfl⟩

theorem sameSettings_removeAll (s : RuleList) :
  s.SameSettings s.removeAll
  := by
  unfold removeAll
  generalize s.rules.keys = apps
  induction apps generalizing s with
  | nil => exact ⟨s.rules, s.output, rfl⟩
  | cons app apps ih => apply (s.sameSettings_removeAppRules app).trans (ih _)

/-- Once all the rules are removed, none is installed. -/
theorem Mirrors.output_removeAll (h : s.Mirrors) :
  s.removeAll.output = []
  := by
  have hp := h.removeAll.perm
  rw [all_removeAll] at hp
  apply hp.eq_nil

/-- A rule that is added is installed, whether it was or not. -/
theorem Mirrors.mem_output_addRule (h : s.Mirrors) (appName destination : String) (port : UInt32) :
  a ∈ (s.addRule appName destination port).2.output ↔
    a ∈ s.output ∨ a = ⟨destination, port, s.gwInterface⟩
  := by
  rcases addRule_cases s appName destination port with ⟨hm, heq⟩ | ⟨-, heq⟩
  · rw [heq]
    constructor
    · apply Or.inl
    · rintro (ha | rfl)
      · apply ha
      · apply h.perm.mem_iff.mpr (mem_map_of_mem hm)
  · rw [heq, mem_cons]
    tauto

/-- The records of another application stay. -/
theorem vector_addRule_of_ne (s : RuleList) {appName appName' : String} (hne : appName' ≠ appName)
    (destination : String) (port : UInt32) :
  (s.addRule appName destination port).2.rules.vector appName' = s.rules.vector appName'
  := by
  rcases addRule_cases s appName destination port with ⟨-, heq⟩ | ⟨-, heq⟩
  · rw [heq]
  · rw [heq]
    simp [Bookshelf.push, Bookshelf.vector_insert, hne.symm]

section

variable {α : Type} (destination : α → String) (port : α → UInt32)

theorem sameSettings_addRules (s : RuleList) (appName : String) (l : List α) :
  s.SameSettings (s.addRules destination port appName l)
  := by
  induction l generalizing s with
  | nil => exact ⟨s.rules, s.output, rfl⟩
  | cons x l ih => apply (s.sameSettings_addRule appName _ _).trans (ih _)

theorem vector_addRules_of_ne (s : RuleList) {appName appName' : String} (hne : appName' ≠ appName)
    (l : List α) :
  (s.addRules destination port appName l).rules.vector appName' = s.rules.vector appName'
  := by
  induction l generalizing s with
  | nil => rfl
  | cons x l ih =>
    rw [addRules, foldl_cons]
    apply (ih _).trans (s.vector_addRule_of_ne hne _ _)

/-- All the rules that are added are installed. -/
theorem Mirrors.mem_output_addRules (h : s.Mirrors) (appName : String) (l : List α) :
  a ∈ (s.addRules destination port appName l).output ↔
    a ∈ s.output ∨ ∃ x ∈ l, a = ⟨destination x, port x, s.gwInterface⟩
  := by
  induction l generalizing s with
  | nil => simp [RuleList.addRules]
  | cons x l ih =>
    have hadd := h.addRule appName (destination x) (port x)
    have hintf :=
      (s.sameSettings_addRule appName (destination x) (port x)).gwInterface_eq
    have hs : s.addRules destination port appName (x :: l) =
        (s.addRule appName (destination x) (port x)).2.addRules destination port appName l := rfl
    rw [hs, ih hadd, h.mem_output_addRule, hintf]
    simp [or_assoc]

end

/-- What the resolver answers depends on the cache only. -/
theorem SameSettings.dnsRequest_eq (h : s.SameSettings s') (host : String)
    (resolved : Option (List String)) :
  (s'.dnsRequest host resolved).1 = (s.dnsRequest host resolved).1
  := by
  obtain ⟨rules, output, rfl⟩ := h
  simp only [RuleList.dnsRequest]
  split
  · rfl
  · split <;> rfl

/-- The rules for the addresses of a host. -/
def accepts (s : RuleList) (host : String) (port : UInt32) (resolved : Option (List String)) :
    List Accept :=
  (s.dnsRequest host resolved).1.map fun ip => ⟨ip, port, s.gwInterface⟩

theorem SameSettings.accepts_eq (h : s.SameSettings s') (host : String) (port : UInt32)
    (resolved : Option (List String)) :
  s'.accepts host port resolved = s.accepts host port resolved
  := by
  rw [accepts, accepts, h.dnsRequest_eq, h.gwInterface_eq]

/-- The rules of a host, added for an application. -/
def addHost (s : RuleList) (appName host : String) (port : UInt32)
    (resolved : Option (List String)) : RuleList :=
  (s.dnsRequest host resolved).2.addRules id (fun _ => port) appName
    (s.dnsRequest host resolved).1

theorem addDomain_of_replaces {appName : String} (h : s.Replaces appName) (host : String)
    (port : UInt32) (resolved : Option (List String)) :
  (s.addDomain appName host port resolved).2 =
    (s.removeAppRules appName).2.addHost appName host port resolved
  := by
  simp only [addDomain, if_neg h.1, if_pos h.2]
  rfl

theorem addDomain_of_not_replaces {appName : String} (h : ¬ s.Replaces appName)
    (hmax : s.maxDomainsPerApplication ≠ 0) (host : String) (port : UInt32)
    (resolved : Option (List String)) :
  (s.addDomain appName host port resolved).2 = s.addHost appName host port resolved
  := by
  have hnot : ¬ (0 < (s.rules.vector appName).length ∧ s.maxDomainsPerApplication = 1) :=
    fun hrep => h ⟨hmax, hrep⟩
  simp only [addDomain, if_neg hmax, if_neg hnot]
  rfl

theorem Mirrors.mem_output_addHost (h : s.Mirrors) (appName host : String) (port : UInt32)
    (resolved : Option (List String)) :
  a ∈ (s.addHost appName host port resolved).output ↔
    a ∈ s.output ∨ a ∈ s.accepts host port resolved
  := by
  obtain ⟨cache, heq⟩ := RuleList.dnsRequest_eq s host resolved
  rw [addHost, heq, (h.cache cache).mem_output_addRules, accepts, mem_map]
  simp only [id, eq_comm]

/-- A domain that is added leaves the interface. -/
theorem gwInterface_addDomain (s : RuleList) (appName host : String) (port : UInt32)
    (resolved : Option (List String)) :
  (s.addDomain appName host port resolved).2.gwInterface = s.gwInterface
  := by
  have hhost : ∀ s : RuleList,
      (s.addHost appName host port resolved).gwInterface = s.gwInterface := by
    intro s
    obtain ⟨cache, heq⟩ := RuleList.dnsRequest_eq s host resolved
    rw [addHost, heq, (sameSettings_addRules _ _ _ _ _).gwInterface_eq]
  by_cases hmax : s.maxDomainsPerApplication = 0
  · rw [addDomain, if_pos hmax]
  by_cases hrep : s.Replaces appName
  · rw [addDomain_of_replaces hrep, hhost, (s.sameSettings_removeAppRules appName).gwInterface_eq]
  · rw [addDomain_of_not_replaces hrep hmax, hhost]

end RuleList

namespace IPTableBlocker

variable {p : IPTableBlocker} {url : Url} {event : TransitionDemand}
  {resolved : Option (List String)} {a : Accept}

/-- The rules for what is always allowed in a domain. -/
def statics (p : IPTableBlocker) (domain : String) : List Accept :=
  (p.staticAllow.vector domain).map fun allow =>
    ⟨allow.1, allow.2.toUInt32, p.rules.gwInterface⟩

/-- The rules for the host that the context of a client asks for. -/
def grants (url : Url) (p : IPTableBlocker) (client : ContextClient)
    (resolved : Option (List String)) : List Accept :=
  match destination? url client with
  | some (host, port) => p.rules.accepts host port resolved
  | none => []

/-- The name of the domain that a demand is for: that of the invalid transition is empty. -/
def target (event : TransitionDemand) : String :=
  (event.transitionDemanded.map fun t => t.transitTo.name).getD ""

/-- The rules when they are flushed and those of a domain are added. -/
def flushed (p : IPTableBlocker) (domain : String) : RuleList :=
  p.rules.removeAll.addRules Prod.fst (fun allow => allow.2.toUInt32) "static_allow"
    (p.staticAllow.vector domain)

theorem sameSettings_flushed (p : IPTableBlocker) (domain : String) :
  p.rules.SameSettings (p.flushed domain)
  := by
  apply p.rules.sameSettings_removeAll.trans
  apply RuleList.sameSettings_addRules

theorem mirrors_flushed (h : p.rules.Mirrors) (domain : String) :
  (p.flushed domain).Mirrors
  := h.removeAll.addRules _ _ _ _

theorem mem_output_flushed (h : p.rules.Mirrors) (domain : String) :
  a ∈ (p.flushed domain).output ↔ a ∈ p.statics domain
  := by
  rw [flushed, h.removeAll.mem_output_addRules, h.output_removeAll,
    p.rules.sameSettings_removeAll.gwInterface_eq, statics, mem_map]
  simp [eq_comm]

theorem vector_flushed_of_ne (p : IPTableBlocker) (domain : String) {appName : String}
    (h : appName ≠ "static_allow") :
  (p.flushed domain).rules.vector appName = []
  := by
  rw [flushed, RuleList.vector_addRules_of_ne _ _ _ h]
  apply eq_nil_iff_forall_not_mem.mpr
  intro rule hr
  have hall := Bookshelf.mem_all.mpr ⟨appName, hr⟩
  rw [RuleList.all_removeAll] at hall
  cases hall

/-- Without the rules of the static allows there is none. -/
theorem output_removeAppRules_flushed (h : p.rules.Mirrors) (domain : String) :
  ((p.flushed domain).removeAppRules "static_allow").2.output = []
  := by
  have hmir := (mirrors_flushed h domain).removeAppRules "static_allow"
  have hall : ((p.flushed domain).removeAppRules "static_allow").2.rules.all = [] := by
    apply eq_nil_iff_forall_not_mem.mpr
    intro rule hr
    obtain ⟨appName, hr⟩ := Bookshelf.mem_all.mp hr
    rw [RuleList.removeAppRules_eq, Bookshelf.vector_insert] at hr
    split_ifs at hr with happ
    · cases hr
    · rw [p.vector_flushed_of_ne domain (Ne.symm happ)] at hr
      cases hr
  have hp := hmir.perm
  rw [hall] at hp
  apply hp.eq_nil

/-- What a demand does, when the rules are flushed. -/
theorem rules_onTransitionDemand (hfl : p.flushRulesWhenChangingContext = true) :
  p.onTransitionDemand url event resolved =
    { p with
        rules :=
          if event.demandResult = contextAccept then
            match destination? url event.clientConcerned with
            | some (host, port) =>
                ((p.flushed (target event)).addDomain event.clientConcerned.program.name host port
                  resolved).2
            | none => p.flushed (target event)
          else p.flushed (target event) }
  := by
  simp only [onTransitionDemand, hfl, if_true]
  split_ifs
  · split <;> rfl
  · rfl

/-- The plugin flushes its rules, and the chain mirrors its records. -/
structure Ready (p : IPTableBlocker) : Prop where
  flush : p.flushRulesWhenChangingContext = true
  mirrors : p.rules.Mirrors

/-- The installed rules are those of the static allows of a domain, and others that come
from some grants only. -/
structure Enforces (p : IPTableBlocker) (domain : String) (granted : List Accept) : Prop where
  statics_subset : p.statics domain ⊆ p.rules.output
  subset : p.rules.output ⊆ p.statics domain ++ granted

/-- A client can take the name under which the static allows are recorded; when it may have
one domain only, the rules of its domain replace them. -/
def ReplacesStatics (url : Url) (p : IPTableBlocker) (client : ContextClient) : Prop :=
  client.program.name = "static_allow" ∧ p.rules.maxDomainsPerApplication = 1 ∧
    (destination? url client).isSome

instance ReplacesStatics.decidable (url : Url) (p : IPTableBlocker) (client : ContextClient) :
    Decidable (ReplacesStatics url p client) :=
  inferInstanceAs (Decidable (_ ∧ _ ∧ _))

/-- Reading the file installs nothing. -/
theorem unused_readConf {doc : Option Dom} (hrs : p.rules.rules = ∅)
    (houtput : p.rules.output = []) :
  (p.readConf doc).rules.rules = ∅ ∧ (p.readConf doc).rules.output = []
  := by
  have hallow : ∀ (es : List Dom) (name : String) (p : IPTableBlocker),
      (es.foldl (readAllow name) p).rules = p.rules := by
    intro es name
    induction es with
    | nil => exact fun p => rfl
    | cons e es ih =>
      intro p
      rw [foldl_cons, ih, readAllow]
      split <;> rfl
  have hdom : ∀ (es : List Dom) (p : IPTableBlocker),
      (es.foldl readDomain p).rules = p.rules := by
    intro es
    induction es with
    | nil => exact fun p => rfl
    | cons e es ih =>
      intro p
      rw [foldl_cons, ih, readDomain, hallow]
  have hoption : ∀ (es : List Dom) (p : IPTableBlocker),
      (es.foldl readOption p).rules.rules = p.rules.rules ∧
        (es.foldl readOption p).rules.output = p.rules.output := by
    intro es
    induction es with
    | nil => exact fun p => ⟨rfl, rfl⟩
    | cons e es ih =>
      intro p
      rw [foldl_cons, (ih _).1, (ih _).2]
      simp only [readOption]
      split_ifs <;> exact ⟨rfl, rfl⟩
  cases doc with
  | none => exact ⟨hrs, houtput⟩
  | some root =>
    rw [readConf, hdom, (hoption _ p).1, (hoption _ p).2]
    exact ⟨hrs, houtput⟩

/-- The plugin is ready when it is constructed, if the file does not tell it otherwise. -/
theorem ready_initial (doc : Option Dom)
    (hfl : (initial doc).flushRulesWhenChangingContext = true) :
  (initial doc).Ready
  := by
  obtain ⟨hrs, houtput⟩ : (initial doc).rules.rules = ∅ ∧ (initial doc).rules.output = [] :=
    unused_readConf rfl rfl
  have hall : (initial doc).rules.rules.all = [] := by
    rw [hrs]
    rfl
  use hfl
  constructor <;> rw [hall]
  · simp
  · apply nodup_nil
  · rw [houtput]
    apply List.Perm.refl

theorem Ready.onTransitionDemand (h : p.Ready) (url : Url) (event : TransitionDemand)
    (resolved : Option (List String)) :
  (p.onTransitionDemand url event resolved).Ready
  := by
  rw [rules_onTransitionDemand h.flush]
  use h.flush
  have hmir := mirrors_flushed h.mirrors (target event)
  split_ifs
  · split
    · apply hmir.addDomain
    · apply hmir
  · apply hmir

/-- A demand leaves what is allowed in the domains. -/
theorem statics_onTransitionDemand (h : p.Ready) (url : Url) (event : TransitionDemand)
    (resolved : Option (List String)) (domain : String) :
  (p.onTransitionDemand url event resolved).statics domain = p.statics domain
  := by
  have hintf := (p.sameSettings_flushed (target event)).gwInterface_eq
  rw [rules_onTransitionDemand h.flush, statics, statics]
  split_ifs
  · split
    · dsimp only
      rw [RuleList.gwInterface_addDomain, hintf]
    · dsimp only
      rw [hintf]
  · dsimp only
    rw [hintf]

/-- A demand that was refused installs what is always allowed in the domain it was for. -/
theorem mem_output_of_refused (h : p.Ready) (href : event.demandResult ≠ contextAccept) :
  a ∈ (p.onTransitionDemand url event resolved).rules.output ↔ a ∈ p.statics (target event)
  := by
  rw [rules_onTransitionDemand h.flush, if_neg href]
  apply mem_output_flushed h.mirrors

/-- After a flush, a new domain replaces the rules of an application that is named like the
static allows, if there are any, and of no other. -/
theorem replaces_flushed_iff (h : p.rules.Mirrors) (domain appName : String) :
  (p.flushed domain).Replaces appName ↔
    appName = "static_allow" ∧ p.rules.maxDomainsPerApplication = 1 ∧ p.statics domain ≠ []
  := by
  have hmax : (p.flushed domain).maxDomainsPerApplication = p.rules.maxDomainsPerApplication := by
    obtain ⟨rules, output, heq⟩ := p.sameSettings_flushed domain
    rw [heq]
  rw [RuleList.Replaces, hmax, length_pos_iff]
  constructor
  · rintro ⟨-, hvec, hone⟩
    obtain rfl : appName = "static_allow" := by
      by_contra happ
      apply hvec (p.vector_flushed_of_ne domain happ)
    refine ⟨rfl, hone, ?_⟩
    obtain ⟨rule, hr⟩ := exists_mem_of_ne_nil _ hvec
    have hall := Bookshelf.mem_all.mpr ⟨"static_allow", hr⟩
    have hout := (mirrors_flushed h domain).perm.mem_iff.mpr (mem_map_of_mem hall)
    apply ne_nil_of_mem ((mem_output_flushed h domain).mp hout)
  · rintro ⟨rfl, hone, hsts⟩
    refine ⟨by simp [hone], ?_, hone⟩
    obtain ⟨a, ha⟩ := exists_mem_of_ne_nil _ hsts
    have hout := (mirrors_flushed h domain).perm.mem_iff.mp ((mem_output_flushed h domain).mpr ha)
    obtain ⟨rule, hall, -⟩ := mem_map.mp hout
    obtain ⟨appName, hr⟩ := Bookshelf.mem_all.mp hall
    by_cases happ : appName = "static_allow"
    · subst happ
      apply ne_nil_of_mem hr
    · rw [p.vector_flushed_of_ne domain happ] at hr
      cases hr

theorem enforces_of_mem {domain : String} {granted added : List Accept} (hadded : added ⊆ granted)
    (h : ∀ a, a ∈ p.rules.output ↔ a ∈ p.statics domain ∨ a ∈ added) :
  p.Enforces domain granted
  := by
  constructor
  · intro a ha
    apply (h a).mpr (.inl ha)
  · intro a ha
    apply mem_append.mpr
    apply ((h a).mp ha).imp_right
    apply hadded

section

variable {host : String} {port : UInt32}

/-- The rules after a demand that was accepted, for a context that asks for a host. -/
theorem rules_of_accepted (h : p.Ready) (hacc : event.demandResult = contextAccept)
    (hdest : destination? url event.clientConcerned = some (host, port)) :
  (p.onTransitionDemand url event resolved).rules =
    ((p.flushed (target event)).addDomain event.clientConcerned.program.name host port resolved).2
  := by
  rw [rules_onTransitionDemand h.flush, if_pos hacc, hdest]

theorem mem_output_of_no_destination (h : p.Ready) (hacc : event.demandResult = contextAccept)
    (hdest : destination? url event.clientConcerned = none) :
  a ∈ (p.onTransitionDemand url event resolved).rules.output ↔ a ∈ p.statics (target event)
  := by
  rw [rules_onTransitionDemand h.flush, if_pos hacc, hdest]
  apply mem_output_flushed h.mirrors

theorem mem_output_of_replaces (h : p.Ready) (hacc : event.demandResult = contextAccept)
    (hdest : destination? url event.clientConcerned = some (host, port))
    (hrep : (p.flushed (target event)).Replaces event.clientConcerned.program.name) :
  a ∈ (p.onTransitionDemand url event resolved).rules.output ↔
    a ∈ p.rules.accepts host port resolved
  := by
  have happ := ((replaces_flushed_iff h.mirrors _ _).mp hrep).1
  have hsettings := (p.sameSettings_flushed (target event)).trans
    ((p.flushed (target event)).sameSettings_removeAppRules "static_allow")
  have hmir := (mirrors_flushed h.mirrors (target event)).removeAppRules "static_allow"
  rw [rules_of_accepted h hacc hdest, RuleList.addDomain_of_replaces hrep, happ,
    hmir.mem_output_addHost, output_removeAppRules_flushed h.mirrors, hsettings.accepts_eq]
  simp

theorem mem_output_of_not_replaces (h : p.Ready) (hacc : event.demandResult = contextAccept)
    (hdest : destination? url event.clientConcerned = some (host, port))
    (hrep : ¬ (p.flushed (target event)).Replaces event.clientConcerned.program.name)
    (hmax : (p.flushed (target event)).maxDomainsPerApplication ≠ 0) :
  a ∈ (p.onTransitionDemand url event resolved).rules.output ↔
    a ∈ p.statics (target event) ∨ a ∈ p.rules.accepts host port resolved
  := by
  rw [rules_of_accepted h hacc hdest, RuleList.addDomain_of_not_replaces hrep hmax,
    (mirrors_flushed h.mirrors _).mem_output_addHost, mem_output_flushed h.mirrors,
    (p.sameSettings_flushed (target event)).accepts_eq]

end

/-- A demand that was accepted installs what is always allowed in the domain it was for, and
what the context asks for, unless the latter replaces the former. -/
theorem enforces_of_accepted (h : p.Ready) (hacc : event.demandResult = contextAccept) :
  (p.onTransitionDemand url event resolved).Enforces (target event)
      (grants url p event.clientConcerned resolved) ↔
    (ReplacesStatics url p event.clientConcerned →
      p.statics (target event) ⊆ grants url p event.clientConcerned resolved)
  := by
  have hsts := statics_onTransitionDemand h url event resolved (target event)
  unfold grants ReplacesStatics
  rcases hdest : destination? url event.clientConcerned with _ | ⟨host, port⟩
  · apply iff_of_true _ (by simp)
    apply enforces_of_mem (nil_subset _)
    intro a
    rw [hsts, mem_output_of_no_destination h hacc hdest]
    simp
  by_cases hrep : (p.flushed (target event)).Replaces event.clientConcerned.program.name
  · obtain ⟨happ, hone, -⟩ := (replaces_flushed_iff h.mirrors _ _).mp hrep
    have hout : ∀ a, a ∈ (p.onTransitionDemand url event resolved).rules.output ↔
        a ∈ p.rules.accepts host port resolved :=
      fun a => mem_output_of_replaces h hacc hdest hrep
    constructor
    · intro henf _ a ha
      apply (hout a).mp
      apply henf.statics_subset
      rw [hsts]
      apply ha
    · intro hcov
      constructor
      · intro a ha
        rw [hsts] at ha
        apply (hout a).mpr (hcov ⟨happ, hone, rfl⟩ ha)
      · intro a ha
        apply mem_append_right _ ((hout a).mp ha)
  · apply iff_of_true
    · by_cases hmax : (p.flushed (target event)).maxDomainsPerApplication = 0
      · apply enforces_of_mem (nil_subset _)
        intro a
        rw [hsts, rules_of_accepted h hacc hdest, RuleList.addDomain, if_pos hmax,
          mem_output_flushed h.mirrors]
        simp
      · apply enforces_of_mem (List.Subset.refl _)
        intro a
        rw [hsts]
        apply mem_output_of_not_replaces h hacc hdest hrep hmax
    · rintro ⟨happ, hone, -⟩
      have hn : p.statics (target event) = [] := by
        by_contra hne
        apply hrep ((replaces_flushed_iff h.mirrors _ _).mpr ⟨happ, hone, hne⟩)
      rw [hn]
      apply nil_subset

end IPTableBlocker

/-! ### Whole runs -/

/-- The session, the plugin, and the rules that the context of the last accepted transition
asked for, if there was one. -/
structure Enforcement where
  session : Session
  plugin : IPTableBlocker
  accepted : Option (List Accept)

/-- A call of `updateState`, with the answers of the user, of PIGA and of the resolver. -/
structure UpdateCall where
  client : ℕ
  xml : String
  answers : Answers
  resolved : Option (List String)

namespace Enforcement

variable (codec : Codec) (re : RegExp) (config : Configuration) (url : Url)

/-- The event that the plugins receive for a call. -/
def demand (s : Enforcement) (c : UpdateCall) : Option TransitionDemand :=
  (s.session.clients c.client).demand codec re config s.session.domain c.xml c.answers

/-- The answer of a call, and what is there after it. -/
def call (s : Enforcement) (c : UpdateCall) : Option (String × Enforcement) :=
  (s.session.call codec re config (.updateState c.client c.xml c.answers)).map
    fun (reply, session) =>
      match s.demand codec re config c with
      | none => (reply, { s with session := session })
      | some event =>
          (reply,
            { session := session
              plugin := s.plugin.eventHandler url (.transitionDemand event) c.resolved
              accepted :=
                if event.demandResult = contextAccept then
                  some (IPTableBlocker.grants url s.plugin event.clientConcerned c.resolved)
                else s.accepted })

/-- The installed rules follow the domain: they are those that are always allowed in it, and
others that the context of the last accepted transition asked for. -/
def Follows (s : Enforcement) : Prop :=
  ∃ granted ∈ s.accepted, s.plugin.Enforces s.session.domain.name granted

/-- After the call the installed rules follow the domain, and they are as before if the call
was not accepted. -/
def Keeps (s : Enforcement) (c : UpdateCall) : Prop :=
  ∀ reply s', s.call codec re config url c = some (reply, s') → s'.Follows ∧
    (reply ≠ contextAccept → ∀ a, a ∈ s'.plugin.rules.output ↔ a ∈ s.plugin.rules.output)

/-- What the plugin is told about the call does no harm: a demand that was refused finds the
rules installed that it installs, and the rules for an accepted one do not replace those that
are always allowed, or are these themselves. -/
def Harmless (s : Enforcement) (c : UpdateCall) : Prop :=
  ∀ event ∈ s.demand codec re config c,
    if event.demandResult = contextAccept then
      IPTableBlocker.ReplacesStatics url s.plugin event.clientConcerned →
        s.plugin.statics (IPTableBlocker.target event) ⊆
          IPTableBlocker.grants url s.plugin event.clientConcerned c.resolved
    else
      s.plugin.statics (IPTableBlocker.target event) ⊆ s.plugin.rules.output ∧
        s.plugin.rules.output ⊆ s.plugin.statics (IPTableBlocker.target event)

instance Harmless.decidable (s : Enforcement) (c : UpdateCall) :
    Decidable (Harmless codec re config url s c) :=
  inferInstanceAs (Decidable (∀ event ∈ _, _))

variable {codec re config url} {s s' : Enforcement} {c : UpdateCall} {reply : String}

/-- The three ways in which a call ends for the plugin: with a demand that was accepted, with
one that was refused, or with no demand. -/
theorem call_cases (h : s.call codec re config url c = some (reply, s')) :
  (∃ event, s.demand codec re config c = some event ∧ event.demandResult = contextAccept ∧
      s'.plugin = s.plugin.onTransitionDemand url event c.resolved ∧
      s'.accepted = some (IPTableBlocker.grants url s.plugin event.clientConcerned c.resolved) ∧
      reply = contextAccept ∧ s'.session.domain.name = IPTableBlocker.target event) ∨
    reply ≠ contextAccept ∧ s'.session.domain = s.session.domain ∧ s'.accepted = s.accepted ∧
      ((∃ event, s.demand codec re config c = some event ∧ event.demandResult ≠ contextAccept ∧
          s'.plugin = s.plugin.onTransitionDemand url event c.resolved) ∨
        s.demand codec re config c = none ∧ s'.plugin = s.plugin)
  := by
  obtain ⟨⟨reply', session⟩, hc, hs'⟩ := Option.map_eq_some_iff.mp h
  obtain ⟨client, hupd, -⟩ := Session.call_updateState hc
  rcases ContextClient.domain_of_demand hupd with
    ⟨t, hdem, hrep, hdom⟩ | ⟨hrefuse, hrep, hdom⟩
  · have hdem : s.demand codec re config c = some ⟨client, contextAccept, some t⟩ := hdem
    rw [hdem] at hs'
    simp only [if_true, Prod.mk.injEq] at hs'
    obtain ⟨rfl, rfl⟩ := hs'
    left
    exact ⟨_, hdem, rfl, rfl, rfl, hrep, by rw [hdom]; rfl⟩
  · right
    rcases hdem : s.demand codec re config c with _ | event
    · rw [hdem] at hs'
      simp only [Prod.mk.injEq] at hs'
      obtain ⟨rfl, rfl⟩ := hs'
      exact ⟨hrep, hdom, rfl, .inr ⟨rfl, rfl⟩⟩
    · have hne : event.demandResult ≠ contextAccept := by
        rw [hrefuse event hdem]
        decide
      rw [hdem] at hs'
      simp only [if_neg hne, Prod.mk.injEq] at hs'
      obtain ⟨rfl, rfl⟩ := hs'
      exact ⟨hrep, hdom, rfl, .inl ⟨event, rfl, hne, rfl⟩⟩

theorem keeps_iff (h : s.call codec re config url c = some (reply, s')) :
  Keeps codec re config url s c ↔ s'.Follows ∧
    (reply ≠ contextAccept → ∀ a, a ∈ s'.plugin.rules.output ↔ a ∈ s.plugin.rules.output)
  := by
  simp only [Keeps, h, Option.some.injEq, Prod.mk.injEq]
  constructor
  · intro hkp
    apply hkp reply s' ⟨rfl, rfl⟩
  · rintro hfollows _ _ ⟨rfl, rfl⟩
    apply hfollows

/-- The plugin is ready, and the rules follow the domain since the first accepted
transition. -/
structure Coupled (s : Enforcement) : Prop where
  ready : s.plugin.Ready
  follows : s.accepted.isSome → s.Follows

theorem ready_of_call (hrdy : s.plugin.Ready)
    (h : s.call codec re config url c = some (reply, s')) :
  s'.plugin.Ready
  := by
  rcases call_cases h with
    ⟨event, -, -, hplg, -⟩ | ⟨-, -, -, ⟨event, -, -, hplg⟩ | ⟨-, hplg⟩⟩ <;> rw [hplg]
  · apply hrdy.onTransitionDemand
  · apply hrdy.onTransitionDemand
  · apply hrdy

/-- The rules still follow the domain when neither of them has changed. -/
theorem follows_of_same (hdom : s'.session.domain = s.session.domain)
    (hacc : s'.accepted = s.accepted)
    (hsts : ∀ domain, s'.plugin.statics domain = s.plugin.statics domain)
    (hsame : ∀ a, a ∈ s'.plugin.rules.output ↔ a ∈ s.plugin.rules.output) (h : s.Follows) :
  s'.Follows
  := by
  obtain ⟨granted, hgr, henf⟩ := h
  refine ⟨granted, hacc ▸ hgr, ?_⟩
  rw [hdom]
  constructor
  · intro a ha
    rw [hsts] at ha
    apply (hsame a).mpr (henf.statics_subset ha)
  · intro a ha
    rw [hsts]
    apply henf.subset ((hsame a).mp ha)

/-- As long as the rules follow the domain, a call keeps it so exactly when what the plugin is
told does no harm. -/
theorem Coupled.keeps_iff_harmless (hs : s.Coupled)
    (h : s.call codec re config url c = some (reply, s')) (hst : s'.accepted.isSome) :
  Keeps codec re config url s c ↔ Harmless codec re config url s c
  := by
  rw [keeps_iff h, Harmless]
  rcases call_cases h with
    ⟨event, hdem, haccept, hplg, hacc, hrep, hdom⟩ |
      ⟨hrep, hdom, hacc, ⟨event, hdem, href, hplg⟩ | ⟨hdem, hplg⟩⟩
  · simp only [hdem, Option.mem_def, Option.some.injEq, forall_eq', if_pos haccept]
    rw [← IPTableBlocker.enforces_of_accepted hs.ready haccept, ← hplg, ← hdom]
    simp [Follows, hacc, hrep]
  · simp only [hdem, Option.mem_def, Option.some.injEq, forall_eq', if_neg href]
    have hout : ∀ a, a ∈ s'.plugin.rules.output ↔
        a ∈ s.plugin.statics (IPTableBlocker.target event) := by
      intro a
      rw [hplg]
      apply IPTableBlocker.mem_output_of_refused hs.ready href
    constructor
    · rintro ⟨-, hsame⟩
      constructor
      · intro a ha
        apply (hsame hrep a).mp ((hout a).mpr ha)
      · intro a ha
        apply (hout a).mp ((hsame hrep a).mpr ha)
    · rintro ⟨hsub, hsup⟩
      have hsame : ∀ a, a ∈ s'.plugin.rules.output ↔ a ∈ s.plugin.rules.output :=
        fun a => (hout a).trans ⟨fun ha => hsub ha, fun ha => hsup ha⟩
      refine ⟨?_, fun _ => hsame⟩
      apply follows_of_same hdom hacc _ hsame (hs.follows (hacc ▸ hst))
      intro domain
      rw [hplg, IPTableBlocker.statics_onTransitionDemand hs.ready]
  · apply iff_of_true
    · have hsame : ∀ a, a ∈ s'.plugin.rules.output ↔ a ∈ s.plugin.rules.output := by
        simp [hplg]
      refine ⟨?_, fun _ => hsame⟩
      apply follows_of_same hdom hacc _ hsame (hs.follows (hacc ▸ hst))
      simp [hplg]
    · simp [hdem]

end Enforcement

/-- The calls of `updateState` one after the other, from the first that is accepted. -/
def enforcement (codec : Codec) (re : RegExp) (config : Configuration) (url : Url) :
    Machine Enforcement UpdateCall where
  init s := s.plugin.Ready ∧ s.accepted = none
  step s c := ((s.call codec re config url c).map (·.2)).filter (·.accepted.isSome)

/-- In every run that starts with an accepted transition, the installed rules follow the
domain after every call, and those that are not accepted leave the rules, exactly when what
the plugin is told does no harm at any call. -/
theorem follows_iff_harmless {codec : Codec} {re : RegExp} {config : Configuration}
    {url : Url} {s s' : Enforcement} (hi : (enforcement codec re config url).init s)
    (calls : List UpdateCall) (hrun : (enforcement codec re config url).run s calls = some s') :
  (enforcement codec re config url).Along (Enforcement.Keeps codec re config url) s calls ↔
    (enforcement codec re config url).Along (Enforcement.Harmless codec re config url) s calls
  := by
  have hcoupled : s.Coupled := ⟨hi.1, by simp [hi.2]⟩
  apply Machine.along_iff_along _ hcoupled calls hrun
  intro s c s' hs hstep
  obtain ⟨hmap, hst⟩ := Option.filter_eq_some_iff.mp hstep
  obtain ⟨⟨reply, s''⟩, hc, rfl⟩ := Option.map_eq_some_iff.mp hmap
  use hs.keeps_iff_harmless hc hst
  intro hkp
  use Enforcement.ready_of_call hs.ready hc
  intro _
  apply ((Enforcement.keeps_iff hc).mp hkp).1

/-- In the domain `private` one address is always allowed. -/
def privateRules : Dom :=
  .element "iptables" [] [.element "domain" [("name", "private")]
    [.element "allow" [("ip", "10.0.0.7"), ("port", "25")] []]]

/-- The mail program in the domain `work`, before it has announced anything. -/
def mailEnforcement : Enforcement where
  session := mailDesk
  plugin := .initial (some privateRules)
  accepted := none

/-- The mail program announces a message. -/
def mailCall : UpdateCall := ⟨0, mailTo, ⟨false, .allowed⟩, none⟩

/-- What the announcement leads to. -/
def mailEntered : Enforcement :=
  ((mailEnforcement.call ascii literal mailPolicy ⟨id⟩ mailCall).map (·.2)).getD mailEnforcement

theorem init_mailEnforcement :
  (enforcement ascii literal mailPolicy ⟨id⟩).init mailEnforcement
  := ⟨IPTableBlocker.ready_initial (some privateRules) (by decide), rfl⟩

theorem run_mailCall :
  (enforcement ascii literal mailPolicy ⟨id⟩).run mailEnforcement [mailCall] = some mailEntered
  := rfl

/-- The mail program is let into the domain `private`, and what is always allowed there is
installed. -/
theorem follows_iff_harmless_mailCall :
  mailEntered.session.domain.name = "private" ∧
    mailEntered.plugin.rules.output = [⟨"10.0.0.7", 25, "eth0"⟩] ∧
    (enforcement ascii literal mailPolicy ⟨id⟩).Along
      (Enforcement.Keeps ascii literal mailPolicy ⟨id⟩) mailEnforcement [mailCall]
  := by
  refine ⟨by decide, by decide, ?_⟩
  apply (follows_iff_harmless init_mailEnforcement [mailCall] run_mailCall).mpr
  decide

/-- A second message is refused, as no transition is found for it: the domain stays `private`,
and what is always allowed there is not installed any more. -/
theorem refused_demand_flushes :
  ∃ s', (enforcement ascii literal mailPolicy ⟨id⟩).init mailEnforcement ∧
    (enforcement ascii literal mailPolicy ⟨id⟩).run mailEnforcement [mailCall] =
      some mailEntered ∧
    mailEntered.call ascii literal mailPolicy ⟨id⟩ mailCall = some (contextRefuse, s') ∧
    s'.session.domain.name = "private" ∧
    mailEntered.plugin.rules.output = [⟨"10.0.0.7", 25, "eth0"⟩] ∧
    s'.plugin.rules.output = [] ∧ ¬ s'.Follows
  := by
  refine ⟨_, init_mailEnforcement, run_mailCall, rfl, by decide, by decide, by decide, ?_⟩
  rintro ⟨granted, -, henf⟩
  have hstatic : (⟨"10.0.0.7", 25, "eth0"⟩ : Accept) ∈ mailEntered.plugin.statics "private" := by
    decide
  cases henf.statics_subset hstatic

end Plugin

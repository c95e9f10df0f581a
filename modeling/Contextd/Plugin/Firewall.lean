import Contextd.Machine
import Contextd.Plugin.RuleList

/-!
# The firewall and the recorded grants

Histories of the operations of `RuleList` (`firewall`), with a log of the grants and the removals.
The chain holds the rules recorded for the applications, each of them once (`RuleList.Mirrors`),
unless a single rule that is recorded is removed (`mirrors_of_reach`).

A destination is recorded for one application only, so what was granted to an application stays
installed as long as no other application loses its rules while the destination is recorded for it
(`installed_of_granted`).
-/

namespace Plugin

open List

/-! ### Histories -/

/-- An operation on the rule list.  The addresses of a domain are those the resolver finds
when it is asked. -/
inductive Action where
  | addRule (appName destination : String) (port : UInt32)
  | addDomain (appName domainName : String) (port : UInt32) (resolved : Option (List String))
  | removeRule (appName destination : String) (port : UInt32)
  | removeDomain (appName domainName : String) (port : UInt32) (resolved : Option (List String))
  | removeAppRules (appName : String)
  | removeAll
  deriving DecidableEq, Repr

/-- What an operation grants or revokes. -/
inductive Event where
  | granted (appName destination : String) (port : UInt32)
  | revoked (appName : String)
  | revokedAll
  deriving DecidableEq, Repr

namespace RuleList

/-- The rule list after an operation. -/
def perform (s : RuleList) : Action → RuleList
  | .addRule appName destination port => (s.addRule appName destination port).2
  | .addDomain appName domainName port resolved =>
      (s.addDomain appName domainName port resolved).2
  | .removeRule appName destination port => (s.removeRule appName destination port).2
  | .removeDomain appName domainName port resolved =>
      (s.removeDomain appName domainName port resolved).2
  | .removeAppRules appName => (s.removeAppRules appName).2
  | .removeAll => s.removeAll

/-- A new domain of the application replaces the rules it has. -/
def Replaces (s : RuleList) (appName : String) : Prop :=
  s.maxDomainsPerApplication ≠ 0 ∧ 0 < (s.rules.vector appName).length ∧
    s.maxDomainsPerApplication = 1

instance (s : RuleList) (appName : String) : Decidable (s.Replaces appName) :=
  inferInstanceAs (Decidable (_ ∧ _ ∧ _))

/-- What an operation grants and revokes, the last first. -/
def events (s : RuleList) : Action → List Event
  | .addRule appName destination port => [.granted appName destination port]
  | .addDomain appName domainName port resolved =>
      if s.maxDomainsPerApplication = 0 then []
      else
        ((s.dnsRequest domainName resolved).1.reverse.map (.granted appName · port)) ++
          if s.Replaces appName then [.revoked appName] else []
  | .removeRule .. | .removeDomain .. => []
  | .removeAppRules appName => [.revoked appName]
  | .removeAll => [.revokedAll]

/-- No rule, for a maximal number of domains, an interface and the path of `iptables`. -/
def initial (maxDomainsPerApplication : UInt32) (gwInterface iptablesPath : String) : RuleList where
  rules := ∅
  dnsCache := ∅
  maxDomainsPerApplication := maxDomainsPerApplication
  gwInterface := gwInterface
  iptablesPath := iptablesPath
  output := []

end RuleList

/-- The rule list, and the log of what was granted and revoked, the last first. -/
structure Firewall where
  list : RuleList
  log : List Event

/-- The histories of the operations. -/
def firewall : Machine Firewall Action where
  init s := ∃ max interface path, s = ⟨.initial max interface path, []⟩
  step s a := some ⟨s.list.perform a, s.list.events a ++ s.log⟩

/-- The last grant of the destination to the application is later than the last removal of
the rules of the application. -/
def grantedIn (appName destination : String) (port : UInt32) : List Event → Bool
  | [] => false
  | .granted a d p :: es =>
      (a == appName && d == destination && p == port) || grantedIn appName destination port es
  | .revoked a :: es => !(a == appName) && grantedIn appName destination port es
  | .revokedAll :: _ => false

theorem reach_initial (guard : Firewall → Action → Prop) (max : UInt32) (interface path : String) :
  firewall.Reach guard ⟨.initial max interface path, []⟩
  := Machine.Reach.init ⟨max, interface, path, rfl⟩

/-! ### The chain mirrors the records -/

namespace RuleList

/-- The chain holds the rules of the recorded commands, each of them once. -/
structure Mirrors (s : RuleList) : Prop where
  settings : ∀ rule ∈ s.rules.all,
    rule = s.createIPTableAcceptRule rule.destination rule.port
  nodup : s.rules.all.Nodup
  perm : s.output.Perm (s.rules.all.map Command.accept)

variable {s : RuleList}

/-- Commands that are recorded for different destinations install different rules. -/
theorem Mirrors.nodup_output (h : s.Mirrors) :
  s.output.Nodup
  := by
  apply h.perm.nodup_iff.mpr
  apply List.Nodup.map_on _ h.nodup
  intro rule hr rule' hr' heq
  simp only [Command.accept, Accept.mk.injEq] at heq
  rw [h.settings rule hr, h.settings rule' hr', heq.1, heq.2.1]

/-- A change of the cache changes nothing else. -/
theorem Mirrors.cache (h : s.Mirrors) (cache : OrdMap String (List String)) :
  Mirrors { s with dnsCache := cache }
  := ⟨h.settings, h.nodup, h.perm⟩

theorem Mirrors.addRule (h : s.Mirrors) (appName destination : String) (port : UInt32) :
  (s.addRule appName destination port).2.Mirrors
  := by
  rcases addRule_cases s appName destination port with ⟨-, heq⟩ | ⟨hnew, heq⟩
  · rw [heq]
    apply h
  rw [heq]
  have hall := Bookshelf.all_push s.rules appName (s.createIPTableAcceptRule destination port)
  constructor
  · intro rule hr
    rcases mem_cons.mp (hall.mem_iff.mp hr) with rfl | hr
    · rfl
    · apply h.settings rule hr
  · apply hall.nodup_iff.mpr
    apply nodup_cons.mpr ⟨hnew, h.nodup⟩
  · apply List.Perm.trans _ (hall.map Command.accept).symm
    apply h.perm.cons

/-- Rules that are added for an application one after the other. -/
def addRules {α : Type} (destination : α → String) (port : α → UInt32) (s : RuleList)
    (appName : String) (l : List α) : RuleList :=
  l.foldl (fun s x => (s.addRule appName (destination x) (port x)).2) s

theorem Mirrors.addRules {α : Type} (destination : α → String) (port : α → UInt32)
    (h : s.Mirrors) (appName : String) (l : List α) :
  (s.addRules destination port appName l).Mirrors
  := by
  induction l generalizing s with
  | nil => apply h
  | cons x l ih => apply ih (h.addRule appName (destination x) (port x))

theorem Mirrors.removeAppRules (h : s.Mirrors) (appName : String) :
  (s.removeAppRules appName).2.Mirrors
  := by
  rw [removeAppRules_eq]
  have hsp := s.rules.all_perm appName
  have hall : (Bookshelf.all (s.rules.insert appName [])).Perm (s.rules.others appName) :=
    Bookshelf.all_insert s.rules appName []
  constructor
  · intro rule hr
    apply h.settings rule
    apply hsp.mem_iff.mpr
    apply mem_append_right _ (hall.mem_iff.mp hr)
  · apply hall.nodup_iff.mpr
    apply (hsp.nodup_iff.mp h.nodup).of_append_right
  · apply List.Perm.trans _ (hall.map Command.accept).symm
    apply List.Perm.foldl_erase
    rw [← map_append]
    apply h.perm.trans (hsp.map Command.accept)

theorem Mirrors.removeAll (h : s.Mirrors) :
  s.removeAll.Mirrors
  := by
  unfold RuleList.removeAll
  generalize s.rules.keys = apps
  induction apps generalizing s with
  | nil => apply h
  | cons app apps ih => apply ih (h.removeAppRules app)

theorem Mirrors.addDomain (h : s.Mirrors) (appName domainName : String) (port : UInt32)
    (resolved : Option (List String)) :
  (s.addDomain appName domainName port resolved).2.Mirrors
  := by
  unfold RuleList.addDomain
  split
  · apply h
  · dsimp only
    apply Mirrors.addRules id fun _ => port
    split
    · obtain ⟨cache, heq⟩ := dnsRequest_eq (s.removeAppRules appName).2 domainName resolved
      rw [heq]
      apply (h.removeAppRules appName).cache
    · obtain ⟨cache, heq⟩ := dnsRequest_eq s domainName resolved
      rw [heq]
      apply h.cache

/-- No rule that an operation removes by itself, not with all the rules of its application,
is recorded for the application. -/
def RemovesNothing (s : RuleList) : Action → Prop
  | .removeRule appName destination port =>
      s.createIPTableAcceptRule destination port ∉ s.rules.vector appName
  | .removeDomain appName domainName port resolved =>
      ∀ ip ∈ (s.dnsRequest domainName resolved).1,
        s.createIPTableAcceptRule ip port ∉ s.rules.vector appName
  | _ => True

instance (s : RuleList) : ∀ a, Decidable (s.RemovesNothing a)
  | .removeRule _ _ _ => inferInstanceAs (Decidable (_ ∉ _))
  | .removeDomain _ _ _ _ => inferInstanceAs (Decidable (∀ ip ∈ _, _))
  | .addRule _ _ _ | .addDomain _ _ _ _ | .removeAppRules _ | .removeAll =>
      inferInstanceAs (Decidable True)

/-- The other operations, and these removals when they find nothing, keep the chain a mirror
of the records. -/
theorem Mirrors.perform (h : s.Mirrors) {a : Action} (ha : s.RemovesNothing a) :
  (s.perform a).Mirrors
  := by
  cases a with
  | addRule appName destination port => apply h.addRule
  | addDomain appName domainName port resolved => apply h.addDomain
  | removeRule appName destination port =>
    rw [RuleList.perform, removeRule_of_not_mem ha]
    apply h
  | removeDomain appName domainName port resolved =>
    obtain ⟨cache, heq⟩ := dnsRequest_eq s domainName resolved
    simp only [RuleList.perform, RuleList.removeDomain, heq]
    rw [each_removeRule]
    · apply h.cache
    · apply ha
  | removeAppRules appName => apply h.removeAppRules
  | removeAll => apply h.removeAll

end RuleList

/-- The guard of `RuleList.RemovesNothing` on a history. -/
def removesNothing (s : Firewall) (a : Action) : Prop := s.list.RemovesNothing a

instance (s : Firewall) (a : Action) : Decidable (removesNothing s a) :=
  inferInstanceAs (Decidable (s.list.RemovesNothing a))

/-- Under the guard, the chain mirrors the records all along a history. -/
theorem mirrors_of_removesNothing {guard : Firewall → Action → Prop} {s : Firewall}
    (hg : ∀ s a, guard s a → s.list.RemovesNothing a) (h : firewall.Reach guard s) :
  s.list.Mirrors
  := by
  apply h.invariant
  · rintro _ ⟨max, interface, path, rfl⟩
    have hall : (RuleList.initial max interface path).rules.all = [] := rfl
    constructor <;> rw [hall]
    · simp
    · apply nodup_nil
    · apply List.Perm.refl
  · intro s a s' ih ha hs
    obtain rfl := Option.some.inj hs
    apply ih.perform (hg s a ha)

/-- In every history in which no recorded rule is removed by itself, the installed rules are
exactly those recorded for some application, each is installed once, and none remains after
all the rules are removed. -/
theorem mirrors_of_reach {s : Firewall} (h : firewall.Reach removesNothing s) :
  (∀ r, r ∈ s.list.output ↔ ∃ appName, ∃ rule ∈ s.list.rules.vector appName, rule.accept = r) ∧
    s.list.output.Nodup ∧ s.list.removeAll.output = []
  := by
  have hmir := mirrors_of_removesNothing (fun _ _ => id) h
  refine ⟨?_, hmir.nodup_output, ?_⟩
  · intro r
    rw [hmir.perm.mem_iff, mem_map]
    constructor
    · rintro ⟨rule, hr, rfl⟩
      obtain ⟨appName, hr⟩ := Bookshelf.mem_all.mp hr
      use appName, rule, hr
    · rintro ⟨appName, rule, hr, rfl⟩
      use rule, Bookshelf.mem_all.mpr ⟨appName, hr⟩
  · have hp := hmir.removeAll.perm
    rw [RuleList.all_removeAll] at hp
    apply hp.eq_nil

/-- A history of one application. -/
def oneApplication : List Action :=
  [.addRule "browser" "10.0.0.1" 80, .addDomain "browser" "example" 443 (some ["10.0.0.2"]),
    .removeRule "browser" "10.0.0.9" 80]

theorem mirrors_of_reach_oneApplication :
  ∃ s, firewall.run ⟨.initial 4294967295 "eth0" "/sbin/iptables", []⟩ oneApplication = some s ∧
    s.list.output.length = 2 ∧ s.list.output.Nodup ∧ s.list.removeAll.output = []
  := by
  obtain ⟨s, hrun, hlen⟩ :
      ∃ s, firewall.run ⟨.initial 4294967295 "eth0" "/sbin/iptables", []⟩ oneApplication =
          some s ∧
        s.list.output.length = 2 := ⟨_, rfl, rfl⟩
  have hrch : firewall.Reach removesNothing s :=
    (reach_initial _ _ _ _).run oneApplication (by decide) hrun
  obtain ⟨-, hnd, hn⟩ := mirrors_of_reach hrch
  use s, hrun, hlen, hnd, hn

/-- An application is granted a destination, and the rule is removed: it is not recorded any
more, it is still installed, and it stays when all the rules are removed. -/
theorem removed_still_installed :
  ∃ s, firewall.run ⟨.initial 4294967295 "eth0" "/sbin/iptables", []⟩
      [.addRule "browser" "10.0.0.1" 80, .removeRule "browser" "10.0.0.1" 80] = some s ∧
    s.list.rules.all = [] ∧ s.list.output = [⟨"10.0.0.1", 80, "eth0"⟩] ∧
    s.list.removeAll.output = s.list.output
  := ⟨_, rfl, rfl, rfl, rfl⟩

/-! ### What was granted stays installed -/

namespace RuleList

variable {s : RuleList} {log : List Event}

/-- Every destination that is granted is recorded, for some application. -/
def Records (s : RuleList) (log : List Event) : Prop :=
  ∀ appName destination port, grantedIn appName destination port log = true →
    s.createIPTableAcceptRule destination port ∈ s.rules.all

/-- No destination recorded for the application is granted to another one. -/
def Unshared (s : RuleList) (log : List Event) (appName : String) : Prop :=
  ∀ rule ∈ s.rules.vector appName, ∀ appName', appName' ≠ appName →
    grantedIn appName' rule.destination rule.port log = false

theorem Records.addRule (h : s.Records log) (appName destination : String) (port : UInt32) :
  (s.addRule appName destination port).2.Records (.granted appName destination port :: log)
  := by
  intro appName' destination' port' hgr
  have hold : (destination' = destination ∧ port' = port) ∨
      s.createIPTableAcceptRule destination' port' ∈ s.rules.all := by
    simp only [grantedIn, Bool.or_eq_true, Bool.and_eq_true, beq_iff_eq] at hgr
    rcases hgr with ⟨⟨-, rfl⟩, rfl⟩ | hgr
    · left
      use rfl
    · right
      apply h appName' destination' port' hgr
  rcases addRule_cases s appName destination port with ⟨hm, heq⟩ | ⟨-, heq⟩
  · rw [heq]
    rcases hold with ⟨rfl, rfl⟩ | hold
    · apply hm
    · apply hold
  · rw [heq]
    apply (Bookshelf.all_push s.rules appName _).mem_iff.mpr
    rcases hold with ⟨rfl, rfl⟩ | hold
    · apply mem_cons_self
    · apply mem_cons_of_mem _ hold

theorem Records.foldl_addRule (h : s.Records log) (appName : String) (port : UInt32)
    (ips : List String) :
  (ips.foldl (fun s ip => (s.addRule appName ip port).2) s).Records
    (ips.reverse.map (.granted appName · port) ++ log)
  := by
  induction ips generalizing s log with
  | nil => apply h
  | cons ip ips ih =>
    rw [reverse_cons, map_append, append_assoc]
    apply ih (h.addRule appName ip port)

theorem Records.removeAppRules (h : s.Records log) {appName : String}
    (hunshared : s.Unshared log appName) :
  (s.removeAppRules appName).2.Records (.revoked appName :: log)
  := by
  intro appName' destination port hgr
  simp only [grantedIn, Bool.and_eq_true, Bool.not_eq_true', beq_eq_false_iff_ne] at hgr
  obtain ⟨hne, hgr⟩ := hgr
  rw [removeAppRules_eq]
  apply (Bookshelf.all_insert s.rules appName []).mem_iff.mpr
  have hm := (s.rules.all_perm appName).mem_iff.mp (h appName' destination port hgr)
  rcases mem_append.mp hm with hm | hm
  · have hnot := hunshared _ hm appName' (Ne.symm hne)
    rw [createIPTableAcceptRule, hgr] at hnot
    cases hnot
  · apply hm

theorem Records.removeAll (s : RuleList) (log : List Event) :
  s.removeAll.Records (.revokedAll :: log)
  := by
  intro appName destination port hgr
  cases hgr

/-- The answer of the resolver does not depend on the rules. -/
theorem dnsRequest_removeAppRules (s : RuleList) (appName host : String)
    (resolved : Option (List String)) :
  ((s.removeAppRules appName).2.dnsRequest host resolved).1 = (s.dnsRequest host resolved).1
  := by
  rw [removeAppRules_eq]
  simp only [dnsRequest]
  split
  · rfl
  · split <;> rfl

theorem Records.dnsRequest (h : s.Records log) (host : String) (resolved : Option (List String)) :
  (s.dnsRequest host resolved).2.Records log
  := by
  obtain ⟨cache, heq⟩ := dnsRequest_eq s host resolved
  rw [heq]
  apply h

theorem Records.addDomain (h : s.Records log) {appName : String} (domainName : String)
    (port : UInt32) (resolved : Option (List String))
    (hunshared : s.Replaces appName → s.Unshared log appName) :
  (s.addDomain appName domainName port resolved).2.Records
    (s.events (.addDomain appName domainName port resolved) ++ log)
  := by
  by_cases hmax : s.maxDomainsPerApplication = 0
  · simp only [RuleList.addDomain, events, if_pos hmax]
    apply h
  simp only [RuleList.addDomain, events, if_neg hmax, append_assoc]
  by_cases hrep : 0 < (s.rules.vector appName).length ∧ s.maxDomainsPerApplication = 1
  · have hrep' : s.Replaces appName := ⟨hmax, hrep⟩
    rw [if_pos hrep, if_pos hrep', ← dnsRequest_removeAppRules s appName]
    apply Records.foldl_addRule
    apply Records.dnsRequest
    apply h.removeAppRules (hunshared hrep')
  · have hrep' : ¬ s.Replaces appName := fun hr => hrep hr.2
    rw [if_neg hrep, if_neg hrep']
    apply Records.foldl_addRule
    apply h.dnsRequest

end RuleList

/-- The histories without removals of single rules, in which no application loses its rules
while a destination that is recorded for it is granted to another one. -/
def keepsGrants (s : Firewall) : Action → Prop
  | .addRule .. | .removeAll => True
  | .addDomain appName _ _ _ => s.list.Replaces appName → s.list.Unshared s.log appName
  | .removeAppRules appName => s.list.Unshared s.log appName
  | .removeRule .. | .removeDomain .. => False

/-- In every such history, the rule for a destination that was granted to an application,
later than the rules of the application were last removed, is installed. -/
theorem installed_of_granted {s : Firewall} (h : firewall.Reach keepsGrants s)
    {appName destination : String} {port : UInt32}
    (hgr : grantedIn appName destination port s.log = true) :
  ⟨destination, port, s.list.gwInterface⟩ ∈ s.list.output
  := by
  have hmir : s.list.Mirrors := by
    apply mirrors_of_removesNothing _ h
    intro s a ha
    cases a with
    | removeRule | removeDomain => cases ha
    | _ => trivial
  have hrecords : s.list.Records s.log := by
    apply h.invariant
    · rintro _ ⟨max, interface, path, rfl⟩ _ _ _ hgr
      cases hgr
    · intro s a s' ih ha hs
      obtain rfl := Option.some.inj hs
      cases a with
      | addRule appName destination port => apply ih.addRule
      | addDomain appName domainName port resolved => apply ih.addDomain _ _ _ ha
      | removeAppRules appName => apply ih.removeAppRules ha
      | removeAll => apply RuleList.Records.removeAll
      | removeRule | removeDomain => cases ha
  apply hmir.perm.mem_iff.mpr
  apply mem_map.mpr
  use s.list.createIPTableAcceptRule destination port, hrecords _ _ _ hgr
  rfl

theorem installed_of_granted_two :
  ∃ s, firewall.run ⟨.initial 4294967295 "eth0" "/sbin/iptables", []⟩
      [.addRule "browser" "10.0.0.1" 80, .addRule "mailer" "10.0.0.2" 25,
        .removeAppRules "mailer"] = some s ∧
    ⟨"10.0.0.1", 80, "eth0"⟩ ∈ s.list.output
  := by
  obtain ⟨s, hrun, hgr, hintf⟩ :
      ∃ s, firewall.run ⟨.initial 4294967295 "eth0" "/sbin/iptables", []⟩
          [.addRule "browser" "10.0.0.1" 80, .addRule "mailer" "10.0.0.2" 25,
            .removeAppRules "mailer"] = some s ∧
        grantedIn "browser" "10.0.0.1" 80 s.log = true ∧ s.list.gwInterface = "eth0" :=
    ⟨_, rfl, by decide, rfl⟩
  use s, hrun
  rw [← hintf]
  apply installed_of_granted _ hgr
  apply (reach_initial _ _ _ _).run _ _ hrun
  refine ⟨trivial, ?_⟩
  rintro _ ⟨⟩
  refine ⟨trivial, ?_⟩
  rintro _ ⟨⟩
  refine ⟨?_, fun _ _ => trivial⟩
  intro rule hr appName hne
  obtain rfl : rule = ⟨"/sbin/iptables", .insert, "10.0.0.2", 25, "eth0"⟩ :=
    mem_singleton.mp hr
  simp [grantedIn, RuleList.events, Ne.symm hne]

/-- Two applications are granted one destination, and the first loses its rules: the
destination is not reachable any more for the second. -/
theorem granted_not_installed :
  ∃ s, firewall.run ⟨.initial 4294967295 "eth0" "/sbin/iptables", []⟩
      [.addRule "browser" "10.0.0.1" 80, .addRule "mailer" "10.0.0.1" 80,
        .removeAppRules "browser"] = some s ∧
    grantedIn "mailer" "10.0.0.1" 80 s.log = true ∧ s.list.output = []
  := ⟨_, rfl, by decide, rfl⟩

end Plugin

import Contextd.Data.Bookshelf

/-!
# The rule list of the firewall plugin

`RuleList` keeps, for every application, the commands by which it opened the firewall.  The
commands take effect on the chain `OUTPUT` in the order in which they are issued
(`Command.takeEffect`), so the chain is part of the state.

`reject` issues the opposite of a recorded command; `each_reject` and
`removeAppRules_eq` say what the removal of the rules of an application leaves.
-/

/-- Erasing the entries of a list one after the other from the list and a rest, in any
order, leaves the rest. -/
theorem List.Perm.foldl_erase {α : Type} [DecidableEq α] {l xs rest : List α}
    (h : l.Perm (xs ++ rest)) :
  (xs.foldl List.erase l).Perm rest
  := by
  induction xs generalizing l with
  | nil => apply h
  | cons x xs ih =>
    apply ih
    have her := h.erase x
    rwa [cons_append, erase_cons_head] at her

namespace Plugin

open List

/-! ### Commands and the chain -/

/-- Whether a command inserts a rule (`-I`) or deletes it (`-D`). -/
inductive Verb where
  | insert
  | delete
  deriving DecidableEq, Repr

/-- A command `<path> <verb> OUTPUT -d <destination> -p tcp --dport <port> -j ACCEPT -o
<interface>`. -/
structure Command where
  path : String
  verb : Verb
  destination : String
  port : UInt32
  interface : String
  deriving DecidableEq, Repr

/-- A rule of the chain `OUTPUT` that accepts packets. -/
structure Accept where
  destination : String
  port : UInt32
  interface : String
  deriving DecidableEq, Repr

/-- The rule a command is about. -/
def Command.accept (c : Command) : Accept where
  destination := c.destination
  port := c.port
  interface := c.interface

/-- The chain after a command. -/
def Command.takeEffect (chain : List Accept) (c : Command) : List Accept :=
  match c.verb with
  | .insert => c.accept :: chain
  | .delete => chain.erase c.accept

/-! ### The rule list -/

/-- The commands of every application, the cache of the resolver, the settings, and the
chain the commands act on. -/
structure RuleList where
  rules : Bookshelf String Command
  dnsCache : OrdMap String (List String)
  maxDomainsPerApplication : UInt32
  gwInterface : String
  iptablesPath : String
  output : List Accept

namespace RuleList

/-- The answer for a host: the one in the cache if it is not empty, or what the resolver
found, which is put in the cache. -/
def dnsRequest (s : RuleList) (host : String) (resolved : Option (List String)) :
    List String × RuleList :=
  let ipsCache := s.dnsCache.getD host []
  if 0 < ipsCache.length then (ipsCache, s)
  else
    match resolved with
    | some ips => (ips, { s with dnsCache := s.dnsCache.insert host ips })
    | none => ([], s)

def createIPTableAcceptRule (s : RuleList) (destination : String) (port : UInt32) : Command where
  path := s.iptablesPath
  verb := .insert
  destination := destination
  port := port
  interface := s.gwInterface

/-- Some application has recorded the command. -/
def IPTableRuleExists (s : RuleList) (rule : Command) : Bool :=
  s.rules.toList.any fun (_, l) => l.contains rule

/-- Run a command. -/
def exec (s : RuleList) (cmd : Command) : RuleList :=
  { s with output := cmd.takeEffect s.output }

/-- Delete the rule of a command, if some application has recorded the command. -/
def reject (s : RuleList) (rule : Command) : Bool × RuleList :=
  if s.IPTableRuleExists rule then (true, s.exec { rule with verb := .delete }) else (false, s)

/-- Run an operation for the entries of a list, one after the other, and tell whether all of
them succeeded. -/
def each {α : Type} (op : RuleList → α → Bool × RuleList) (ret : Bool) (s : RuleList) :
    List α → Bool × RuleList
  | [] => (ret, s)
  | x :: xs =>
      let (ok, s') := op s x
      each op (ret && ok) s' xs

def addRule (s : RuleList) (appName destination : String) (port : UInt32) : Bool × RuleList :=
  let accept_cmd := s.createIPTableAcceptRule destination port
  if s.IPTableRuleExists accept_cmd then (false, s)
  else (true, ({ s with rules := s.rules.push appName accept_cmd }).exec accept_cmd)

def removeRule (s : RuleList) (appName destination : String) (port : UInt32) : Bool × RuleList :=
  let accept_cmd := s.createIPTableAcceptRule destination port
  if (s.rules.vector appName).contains accept_cmd then
    { s with
      rules := s.rules.insert appName ((s.rules.vector appName).filter (· ≠ accept_cmd)) }.reject
      accept_cmd
  else (false, s)

def removeAppRules (s : RuleList) (appName : String) : Bool × RuleList :=
  let (ret, s') := each reject true s (s.rules.vector appName)
  (ret, { s' with rules := s'.rules.insert appName [] })

def removeAll (s : RuleList) : RuleList :=
  s.rules.keys.foldl (fun s appName => (s.removeAppRules appName).2) s

def addDomain (s : RuleList) (appName domainName : String) (port : UInt32)
    (resolved : Option (List String)) : Bool × RuleList :=
  if s.maxDomainsPerApplication = 0 then (false, s)
  else
    let s :=
      if 0 < (s.rules.vector appName).length ∧ s.maxDomainsPerApplication = 1 then
        (s.removeAppRules appName).2
      else s
    let (ips, s) := s.dnsRequest domainName resolved
    (true, ips.foldl (fun s ip => (s.addRule appName ip port).2) s)

def removeDomain (s : RuleList) (appName domainName : String) (port : UInt32)
    (resolved : Option (List String)) : Bool × RuleList :=
  let (ips, s) := s.dnsRequest domainName resolved
  each (fun s ip => s.removeRule appName ip port) true s ips

/-! ### What the operations do -/

variable {s : RuleList}

/-- A command is found exactly when it is recorded. -/
theorem IPTableRuleExists_iff {rule : Command} :
  s.IPTableRuleExists rule = true ↔ rule ∈ s.rules.all
  := by
  simp only [IPTableRuleExists, Bookshelf.all, any_eq_true, mem_flatMap,
    contains_eq_mem, decide_eq_true_eq]

/-- Rejecting a recorded command erases its rule from the chain. -/
theorem reject_of_mem {rule : Command} (h : rule ∈ s.rules.all) :
  s.reject rule = (true, { s with output := s.output.erase rule.accept })
  := by
  rw [reject, if_pos (IPTableRuleExists_iff.mpr h)]
  rfl

/-- Rejecting recorded commands erases their rules one after the other. -/
theorem each_reject {l : List Command} (h : ∀ rule ∈ l, rule ∈ s.rules.all) :
  each reject true s l =
    (true, { s with output := (l.map Command.accept).foldl List.erase s.output })
  := by
  induction l generalizing s with
  | nil => rfl
  | cons rule l ih =>
    rw [each, reject_of_mem (h rule mem_cons_self)]
    apply ih (s := { s with output := s.output.erase rule.accept })
    intro rule hr
    apply h rule (mem_cons_of_mem _ hr)

/-- Adding a rule that is recorded changes nothing; another one is recorded and
inserted. -/
theorem addRule_cases (s : RuleList) (appName destination : String) (port : UInt32) :
  (s.createIPTableAcceptRule destination port ∈ s.rules.all ∧
      (s.addRule appName destination port).2 = s) ∨
    s.createIPTableAcceptRule destination port ∉ s.rules.all ∧
      (s.addRule appName destination port).2 =
        { s with
          rules := s.rules.push appName (s.createIPTableAcceptRule destination port)
          output := (s.createIPTableAcceptRule destination port).accept :: s.output }
  := by
  by_cases h : s.createIPTableAcceptRule destination port ∈ s.rules.all
  · left
    use h
    simp only [addRule, if_pos (IPTableRuleExists_iff.mpr h)]
  · right
    use h
    simp only [addRule, if_neg (mt IPTableRuleExists_iff.mp h)]
    rfl

/-- Removing the rules of an application erases them and empties its list. -/
theorem removeAppRules_eq (s : RuleList) (appName : String) :
  s.removeAppRules appName =
    (true, { s with
      rules := s.rules.insert appName []
      output := ((s.rules.vector appName).map Command.accept).foldl List.erase s.output })
  := by
  have hm : ∀ rule ∈ s.rules.vector appName, rule ∈ s.rules.all :=
    fun rule hr => Bookshelf.mem_all.mpr ⟨appName, hr⟩
  rw [removeAppRules, each_reject hm]

/-- Removing a rule that the application has not recorded does nothing. -/
theorem removeRule_of_not_mem {appName destination : String} {port : UInt32}
    (h : s.createIPTableAcceptRule destination port ∉ s.rules.vector appName) :
  s.removeRule appName destination port = (false, s)
  := by
  simp [removeRule, h]

/-- Removing rules that the application has not recorded does nothing. -/
theorem each_removeRule {appName : String} {port : UInt32} {ips : List String} {ret : Bool}
    (h : ∀ ip ∈ ips, s.createIPTableAcceptRule ip port ∉ s.rules.vector appName) :
  (each (fun s ip => s.removeRule appName ip port) ret s ips).2 = s
  := by
  induction ips generalizing ret with
  | nil => rfl
  | cons ip ips ih =>
    rw [each, removeRule_of_not_mem (h ip mem_cons_self)]
    apply ih fun ip hip => h ip (mem_cons_of_mem _ hip)

/-- The resolver changes nothing but its cache. -/
theorem dnsRequest_eq (s : RuleList) (host : String) (resolved : Option (List String)) :
  ∃ cache, (s.dnsRequest host resolved).2 = { s with dnsCache := cache }
  := by
  unfold dnsRequest
  dsimp only
  split
  · use s.dnsCache
  · split
    · rename_i ips
      use s.dnsCache.insert host ips
    · use s.dnsCache

/-- Removing the rules of some applications empties their lists and leaves the others. -/
theorem vector_foldl_removeAppRules (s : RuleList) (apps : List String) (appName : String) :
  (apps.foldl (fun s appName => (s.removeAppRules appName).2) s).rules.vector appName =
    if appName ∈ apps then [] else s.rules.vector appName
  := by
  induction apps generalizing s with
  | nil => simp
  | cons app apps ih =>
    rw [foldl_cons, ih, removeAppRules_eq, Bookshelf.vector_insert]
    by_cases happ : appName = app <;> simp [happ, eq_comm]

/-- After all the rules are removed, none is recorded. -/
theorem all_removeAll (s : RuleList) :
  s.removeAll.rules.all = []
  := by
  apply eq_nil_iff_forall_not_mem.mpr
  intro rule hr
  obtain ⟨appName, hr⟩ := Bookshelf.mem_all.mp hr
  rw [removeAll, vector_foldl_removeAppRules] at hr
  split at hr
  · cases hr
  · rename_i hkey
    rw [Std.ExtTreeMap.mem_keys] at hkey
    rw [Bookshelf.vector_eq, Std.ExtTreeMap.getElem?_eq_none hkey] at hr
    cases hr

end RuleList

end Plugin

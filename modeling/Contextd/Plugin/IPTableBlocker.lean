import Contextd.Data.Dom
import Contextd.Data.Number
import Contextd.Plugin.RuleList

/-!
# The configuration of the firewall plugin

`ContextdPluginIPTableBlocker::readConf`, on the document of `iptables.xml`: the options, and
for every domain the destinations that are always allowed in it.  `staticAllows` says which
these are; `readConf` appends them to those the plugin has (`vector_readConf`).
-/

namespace Plugin

open QString

/-- The plugin: whether it flushes the rules when the domain changes, its rules, and the
destinations that are allowed in every domain. -/
structure IPTableBlocker where
  flushRulesWhenChangingContext : Bool
  rules : RuleList
  staticAllow : Bookshelf String (String × UInt16)

/-- A port: a number that is less than `65536` as an `unsigned int`, so it is not negative. -/
def parsePort (s : String) : Option UInt16 :=
  (toInt? s).bind fun n => if 0 ≤ n ∧ n < 65536 then some (UInt16.ofNat n.toNat) else none

/-- The destination an `allow` element describes, if it has an address and a port. -/
def parseAllow (e : Dom) : Option (String × UInt16) :=
  if e.attr "ip" = "" then none else (parsePort (e.attr "port")).map fun port => (e.attr "ip", port)

namespace IPTableBlocker

/-- One `option` element. -/
def readOption (p : IPTableBlocker) (e : Dom) : IPTableBlocker :=
  let name := e.attr "name"
  let value := e.attr "value"
  let value_i := (toInt? value).getD (-123456)
  if name = "flushRulesWhenChangingContext" ∧ (value = "true" ∨ value = "false") then
    { p with flushRulesWhenChangingContext := value == "true" }
  else if name = "maxDomainsPerApplication" ∧ -1 ≤ value_i ∧ value_i ≤ 1 then
    { p with rules := { p.rules with maxDomainsPerApplication := UInt32.ofInt value_i } }
  else if name = "GWInterface" then { p with rules := { p.rules with gwInterface := value } }
  else if name = "IPTablesPath" then { p with rules := { p.rules with iptablesPath := value } }
  else p

/-- One `allow` element of the domain of a name. -/
def readAllow (domainName : String) (p : IPTableBlocker) (e : Dom) : IPTableBlocker :=
  match parseAllow e with
  | some allow => { p with staticAllow := p.staticAllow.push domainName allow }
  | none => p

/-- One `domain` element. -/
def readDomain (p : IPTableBlocker) (e : Dom) : IPTableBlocker :=
  (e.descendantsNamed "allow").foldl (readAllow (e.attr "name")) p

/-- `ContextdPluginIPTableBlocker::readConf`, on the root element of the file, if it can be
read. -/
def readConf (p : IPTableBlocker) (doc : Option Dom) : IPTableBlocker :=
  match doc with
  | none => p
  | some root =>
      let p₁ := (root.elementsByTagName "option").foldl readOption p
      (root.elementsByTagName "domain").foldl readDomain p₁

/-- The plugin as it is constructed. -/
def initial (doc : Option Dom) : IPTableBlocker :=
  readConf
    { flushRulesWhenChangingContext := true
      rules :=
        { rules := ∅
          dnsCache := ∅
          maxDomainsPerApplication := UInt32.ofInt (-1)
          gwInterface := "eth0"
          iptablesPath := "/sbin/iptables"
          output := [] }
      staticAllow := ∅ }
    doc

end IPTableBlocker

/-! ### What the file allows -/

/-- The destinations the file allows in a domain, in the order of the file. -/
def staticAllows (root : Dom) (domainName : String) : List (String × UInt16) :=
  ((root.elementsByTagName "domain").filter fun e => e.attr "name" = domainName).flatMap
    fun e => (e.descendantsNamed "allow").filterMap parseAllow

namespace IPTableBlocker

/-- The options leave the allowed destinations. -/
theorem staticAllow_readOption (p : IPTableBlocker) (e : Dom) :
  (p.readOption e).staticAllow = p.staticAllow
  := by
  simp only [readOption]
  split_ifs <;> rfl

theorem staticAllow_foldl_readOption (p : IPTableBlocker) (es : List Dom) :
  (es.foldl readOption p).staticAllow = p.staticAllow
  := by
  induction es generalizing p with
  | nil => rfl
  | cons e es ih => rw [List.foldl_cons, ih, staticAllow_readOption]

/-- The elements of a domain append what they allow to the destinations of the domain. -/
theorem vector_foldl_readAllow (p : IPTableBlocker) (domainName : String) (es : List Dom)
    (k : String) :
  (es.foldl (readAllow domainName) p).staticAllow.vector k =
    p.staticAllow.vector k ++ if domainName = k then es.filterMap parseAllow else []
  := by
  induction es generalizing p with
  | nil => simp
  | cons e es ih =>
    rw [List.foldl_cons, ih, List.filterMap_cons, readAllow]
    cases parseAllow e with
    | none => rfl
    | some allow =>
      simp only [Bookshelf.push, Bookshelf.vector_insert]
      by_cases hk : domainName = k <;> simp [hk]

theorem vector_readDomain (p : IPTableBlocker) (e : Dom) (k : String) :
  (p.readDomain e).staticAllow.vector k =
    p.staticAllow.vector k ++
      if e.attr "name" = k then (e.descendantsNamed "allow").filterMap parseAllow else []
  := vector_foldl_readAllow p _ _ k

/-- Reading the file appends what it allows in a domain to the destinations of the domain
that are there. -/
theorem vector_readConf (p : IPTableBlocker) (root : Dom) (k : String) :
  (p.readConf (some root)).staticAllow.vector k = p.staticAllow.vector k ++ staticAllows root k
  := by
  have hdoms : ∀ (es : List Dom) (p : IPTableBlocker),
      (es.foldl readDomain p).staticAllow.vector k =
        p.staticAllow.vector k ++ (es.filter fun e => e.attr "name" = k).flatMap
          fun e => (e.descendantsNamed "allow").filterMap parseAllow := by
    intro es
    induction es with
    | nil => simp
    | cons e es ih =>
      intro p
      rw [List.foldl_cons, ih, vector_readDomain]
      by_cases hk : e.attr "name" = k <;> simp [hk]
  rw [readConf, hdoms, staticAllow_foldl_readOption, staticAllows]

end IPTableBlocker

end Plugin

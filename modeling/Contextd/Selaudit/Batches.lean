import Contextd.Selaudit.Preservation

/-!
# Optimizing a policy batch by batch

`regeneratePolicy` optimizes the policy of the round before with the rules of the round.  The
meaning of a policy of `allow` rules is looked at here as a map from sources, targets and texts of
classes to sets of permissions (`keys`, `permissions`).

The passes keep this map and leave one rule for each of its keys (`optimize_keeps`), if no
permission set is defined in two ways.  Then it does not matter whether the rules of two batches are
optimized together or one after the other (`optimize_append`, `optimize_again_differs`).
-/

namespace Selaudit

open List

variable {tokens tokens' : List Token} {k : Key}

/-! ### The meaning as a map -/

/-- The target `self` is the source. -/
def Key.resolve (k : Key) : Key := (k.1, if k.2.1 = "self" then k.1 else k.2.1, k.2.2)

/-- The key of a rule whose target is a name, with `self` resolved. -/
def Token.resolved? (t : Token) : Option Key := t.key?.map Key.resolve

/-- The keys of the rules. -/
def keys (tokens : List Token) : Set Key := {k | ∃ t ∈ tokens, t.resolved? = some k}

/-- The permissions that the rules with a key are for, the names of permission sets being
expanded. -/
def permissions (tokens : List Token) (k : Key) : Set String :=
  {p | ∃ t ∈ tokens, t.resolved? = some k ∧ ∃ x ∈ t.content, Expands (permSets tokens) x p}

/-- The policies have the same keys, with the same permissions. -/
structure SameMeaning (tokens tokens' : List Token) : Prop where
  keys : keys tokens = keys tokens'
  permissions : permissions tokens = permissions tokens'

/-- There is at most one rule for a key. -/
def OneRuleEach (tokens : List Token) : Prop :=
  ∀ k, tokens.countP (fun t => t.resolved? = some k) ≤ 1

theorem SameMeaning.symm (h : SameMeaning tokens tokens') :
  SameMeaning tokens' tokens
  := ⟨h.keys.symm, h.permissions.symm⟩

theorem SameMeaning.trans {tokens'' : List Token} (h : SameMeaning tokens tokens')
    (h' : SameMeaning tokens' tokens'') :
  SameMeaning tokens tokens''
  := ⟨h.keys.trans h'.keys, h.permissions.trans h'.permissions⟩

/-- A batch without definitions adds no permission sets. -/
theorem permSets_append {batch : List Token} (h : permSets batch = []) :
  permSets (tokens ++ batch) = permSets tokens
  := by
  rw [permSets, filterMap_append, ← permSets, ← permSets, h, append_nil]

/-- The meaning of a batch does not depend on what it is written with, when another batch
without definitions is added. -/
theorem SameMeaning.append {tokens tokens' batch : List Token} (h : SameMeaning tokens tokens')
    (hdefs : ∀ d, d ∈ permSets tokens ↔ d ∈ permSets tokens') (hbatch : permSets batch = []) :
  SameMeaning (tokens ++ batch) (tokens' ++ batch)
  := by
  have hkeys : ∀ l : List Token, Selaudit.keys (l ++ batch) =
      Selaudit.keys l ∪ Selaudit.keys batch := by
    intro l
    ext k
    simp [Selaudit.keys, or_and_right, exists_or]
  have hperms : ∀ (l : List Token) k, Selaudit.permissions (l ++ batch) k =
      Selaudit.permissions l k ∪ {p | ∃ t ∈ batch, t.resolved? = some k ∧
        ∃ x ∈ t.content, Expands (permSets l) x p} := by
    intro l k
    ext p
    simp [Selaudit.permissions, permSets_append hbatch, or_and_right, exists_or]
  constructor
  · rw [hkeys, hkeys, h.keys]
  · funext k
    rw [hperms, hperms, h.permissions]
    simp only [expands_congr hdefs]

/-! ### What the passes keep -/

theorem resolved?_selfize (t : Token) :
  (t.mapRule Rule.selfize).resolved? = t.resolved?
  := by
  rcases t with r | t
  · rcases htgt : r.target with target | ⟨head, tail⟩
    · rw [Token.mapRule, Rule.selfize, htgt]
      dsimp only
      split_ifs with hsrc
      · simp only [Token.resolved?, Token.key?, Rule.key?, htgt, Value.str?, Option.map_some,
          Key.resolve, if_true, hsrc, ite_self]
      · rfl
    · rw [Token.mapRule, Rule.selfize, htgt]
  · rfl

theorem content_selfize (t : Token) :
  (t.mapRule Rule.selfize).content = t.content
  := by
  rcases t with r | t
  · rw [Token.mapRule, Rule.selfize]
    split
    · split_ifs <;> rfl
    · rfl
  · rfl

/-- What the rules with a key are for stays when the rules are merged. -/
theorem exists_mem_merged_iff (tokens : List Token) (k : Key) (P : String → Prop) :
  (∃ t ∈ merged tokens, t.resolved? = some k ∧ ∃ x ∈ t.content, P x) ↔
    ∃ t ∈ tokens, t.resolved? = some k ∧ ∃ x ∈ t.content, P x
  := by
  have hcol := collected_tokens (selfizeRules tokens)
  have hself : (∃ t ∈ tokens, t.resolved? = some k ∧ ∃ x ∈ t.content, P x) ↔
      ∃ t ∈ selfizeRules tokens, t.resolved? = some k ∧ ∃ x ∈ t.content, P x := by
    simp only [selfizeRules, mem_map, exists_exists_and_eq_and, resolved?_selfize, content_selfize]
  rw [hself]
  constructor
  · rintro ⟨t, ht, hk, x, hx, hP⟩
    obtain ⟨k', hk', rfl⟩ := Option.map_eq_some_iff.mp hk
    obtain ⟨_, -, -, hcont⟩ := hcol.merged t ht k' hk'
    obtain ⟨t', ht', hkey, hx'⟩ := (hcont x).mp hx
    refine ⟨t', ht', ?_, x, hx', hP⟩
    rw [Token.resolved?, hkey, Option.map_some]
  · rintro ⟨t', ht', hk, x, hx, hP⟩
    obtain ⟨k', hk', rfl⟩ := Option.map_eq_some_iff.mp hk
    obtain ⟨t, ht, hkey⟩ := hcol.represented t' ht' k' hk'
    obtain ⟨_, -, -, hcont⟩ := hcol.merged t ht k' hkey
    refine ⟨t, ht, ?_, x, (hcont x).mpr ⟨t', ht', hk', hx⟩, hP⟩
    rw [Token.resolved?, hkey, Option.map_some]

/-- Merging leaves the keys. -/
theorem keys_merged (tokens : List Token) :
  keys (merged tokens) = keys tokens
  := by
  have hcol := collected_tokens (selfizeRules tokens)
  have hself : keys (selfizeRules tokens) = keys tokens := by
    simp only [keys, selfizeRules, mem_map, exists_exists_and_eq_and, resolved?_selfize]
  rw [← hself]
  ext k
  constructor
  · rintro ⟨t, ht, hk⟩
    obtain ⟨k', hk', rfl⟩ := Option.map_eq_some_iff.mp hk
    obtain ⟨t', hf, -⟩ := hcol.merged t ht k' hk'
    have hfd := List.find?_some hf
    have hkey : t'.key? = some k' := of_decide_eq_true hfd
    refine ⟨t', mem_of_find?_eq_some hf, ?_⟩
    rw [Token.resolved?, hkey, Option.map_some]
  · rintro ⟨t', ht', hk⟩
    obtain ⟨k', hk', rfl⟩ := Option.map_eq_some_iff.mp hk
    obtain ⟨t, ht, hkey⟩ := hcol.represented t' ht' k' hk'
    refine ⟨t, ht, ?_⟩
    rw [Token.resolved?, hkey, Option.map_some]

/-- The pass of `factorize_rule_attributes` for a token. -/
def Token.reduce (order : SetOrder) (defs : List (String × List String)) : Token → Token :=
  Token.mapRule fun r => { r with attributes := factorizeAttributes order defs r.attributes }

/-- The pass reduces the attributes of each rule. -/
theorem factorizeRuleAttributes_eq (order : SetOrder) (tokens : List Token) :
  factorizeRuleAttributes order tokens = tokens.map (Token.reduce order (permSets tokens))
  := rfl

theorem resolved?_reduce (order : SetOrder) (defs : List (String × List String)) (t : Token) :
  (t.reduce order defs).resolved? = t.resolved?
  := by
  cases t <;> rfl

/-- The attributes that are left are the reduced ones. -/
theorem content_reduce (order : SetOrder) (defs : List (String × List String)) {t : Token}
    (h : t.resolved? = some k) :
  (t.reduce order defs).content = reduced defs t.content
  := by
  rcases t with r | t
  · ext x
    apply mem_factorizeAttributes
  · cases h

/-- `factorize_rule_attributes` keeps the meaning. -/
theorem sameMeaning_factorizeRuleAttributes (order : SetOrder) (h : Unambiguous (permSets tokens)) :
  SameMeaning (factorizeRuleAttributes order tokens) tokens
  := by
  constructor
  · rw [factorizeRuleAttributes_eq]
    simp only [keys, mem_map, exists_exists_and_eq_and, resolved?_reduce]
  · funext k
    ext p
    have hdefs := mem_permSets_of_perm (List.Perm.of_eq
      (plains_factorizeRuleAttributes order tokens))
    simp only [permissions, Set.mem_ofPred_eq, expands_congr hdefs]
    rw [factorizeRuleAttributes_eq]
    simp only [mem_map, exists_exists_and_eq_and, resolved?_reduce]
    apply exists_congr
    intro t
    apply and_congr_right
    intro _
    apply and_congr_right
    intro hk
    rw [content_reduce order _ hk, expands_reduced_iff (h.agrees _)]

/-- Merging keeps the meaning. -/
theorem sameMeaning_merged (tokens : List Token) :
  SameMeaning (merged tokens) tokens
  := by
  use keys_merged tokens
  funext k
  ext p
  have hdefs := mem_permSets_of_perm (List.Perm.of_eq (plains_merged tokens))
  simp only [permissions, Set.mem_ofPred_eq, expands_congr hdefs]
  apply exists_mem_merged_iff

/-- The order of the tokens does not matter. -/
theorem sameMeaning_of_perm (h : tokens.Perm tokens') :
  SameMeaning tokens tokens'
  := by
  have hdefs := mem_permSets_of_perm (h.filterMap Token.plain?)
  constructor
  · simp only [keys, h.mem_iff]
  · funext k
    simp only [permissions, h.mem_iff, expands_congr hdefs]

/-! ### One rule for every key -/

/-- The keys after `selfize_rules`: a source that is its own target is `self`. -/
def Key.Selfized (k : Key) : Prop := k.1 = k.2.1 → k.2.1 = "self"

/-- Keys after `selfize_rules` differ as well when `self` is resolved. -/
theorem Key.resolve_injective {k' : Key} (hk : k.Selfized) (hk' : k'.Selfized)
    (h : k.resolve = k'.resolve) :
  k = k'
  := by
  obtain ⟨source, target, classes⟩ := k
  obtain ⟨source', target', classes'⟩ := k'
  simp only [resolve, Prod.mk.injEq] at h
  obtain ⟨rfl, htgt, rfl⟩ := h
  simp only [Selfized] at hk hk'
  have heq : target = target' := by grind
  rw [heq]

/-- After the pass, no rule has its source as target. -/
theorem selfized_of_mem {t : Token} (h : t ∈ selfizeRules tokens) (hk : t.key? = some k) :
  k.Selfized
  := by
  rcases t with r | t
  · obtain ⟨r, -, rfl⟩ := rule_mem_map_mapRule.mp h
    rcases htgt : r.target with target | ⟨head, tail⟩
    · rw [Rule.selfize, htgt] at hk
      dsimp only at hk
      split_ifs at hk with hsrc
      · cases hk
        intro _
        rfl
      · rw [Token.key?, Rule.key?, htgt] at hk
        cases hk
        intro heq
        apply absurd heq hsrc
    · rw [Rule.selfize, htgt] at hk
      dsimp only at hk
      rw [Token.key?, Rule.key?, htgt] at hk
      cases hk
  · cases hk

/-- A key is that of one token at most, when all of them differ. -/
theorem oneRuleEach_of_pairwise (h : tokens.Pairwise (Grouping.Differ Token.resolved?)) :
  OneRuleEach tokens
  := by
  intro k
  rw [countP_eq_length_filter]
  have hfil := h.filter (fun t => decide (t.resolved? = some k))
  have hkey : ∀ t ∈ tokens.filter (fun t => decide (t.resolved? = some k)),
      t.resolved? = some k := by
    intro t ht
    apply of_decide_eq_true (mem_filter.mp ht).2
  generalize tokens.filter (fun t => decide (t.resolved? = some k)) = l at hfil hkey ⊢
  rcases l with _ | ⟨t, _ | ⟨t', l⟩⟩
  · simp
  · simp
  · have hdif := (pairwise_cons.mp hfil).1 t' (by simp)
    apply absurd (hkey t' (by simp))
    apply hdif k (hkey t (by simp))

/-- The merged tokens differ in their keys. -/
theorem pairwise_merged (tokens : List Token) :
  (merged tokens).Pairwise (Grouping.Differ Token.resolved?)
  := by
  have hselfized : ∀ t ∈ merged tokens, ∀ k, t.key? = some k → k.Selfized := by
    intro t ht k hk
    obtain ⟨t', hf, -⟩ := (collected_tokens (selfizeRules tokens)).merged t ht k hk
    have hfd := List.find?_some hf
    have hkey : t'.key? = some k := of_decide_eq_true hfd
    apply selfized_of_mem (mem_of_find?_eq_some hf) hkey
  have hpw := Grouping.pairwise_differ_collected Token.key? Token.absorb Token.key?_absorb
    (selfizeRules tokens)
  apply hpw.imp_of_mem
  intro t t' ht ht' hdif k hk hk'
  obtain ⟨k₁, hk₁, rfl⟩ := Option.map_eq_some_iff.mp hk
  obtain ⟨k₂, hk₂, heq⟩ := Option.map_eq_some_iff.mp hk'
  have hk := Key.resolve_injective (hselfized t' ht' k₂ hk₂) (hselfized t ht k₁ hk₁) heq
  apply hdif k₁ hk₁
  rw [hk₂, hk]

/-- The passes keep the meaning of a policy whose permission sets are defined in one way, and
leave one rule for every key. -/
theorem optimize_keeps (order : SetOrder) (h : Processable tokens)
    (hdefs : Unambiguous (permSets tokens)) :
  ∃ tokens', optimize order tokens = some tokens' ∧ SameMeaning tokens' tokens ∧
    OneRuleEach tokens' ∧ (plains tokens').Perm (plains tokens) ∧ Processable tokens'
  := by
  obtain ⟨tokens', hopt, hp⟩ := optimize_perm order h
  have huna : Unambiguous (permSets (merged tokens)) := by
    intro d hd d' hd'
    have hm := mem_permSets_of_perm (List.Perm.of_eq (plains_merged tokens))
    apply hdefs d ((hm d).mp hd) d' ((hm d').mp hd')
  have hpls : (plains tokens').Perm (plains tokens) := by
    rw [← plains_merged tokens, ← plains_factorizeRuleAttributes order (merged tokens)]
    apply hp.filterMap
  refine ⟨tokens', hopt, ?_, ?_, hpls, ?_, ?_⟩
  · apply (sameMeaning_of_perm hp).trans
    apply (sameMeaning_factorizeRuleAttributes order huna).trans
    apply sameMeaning_merged
  · apply oneRuleEach_of_pairwise
    apply hp.symm.pairwise _ Grouping.Differ.symm
    rw [factorizeRuleAttributes_eq]
    apply pairwise_map.mpr
    apply (pairwise_merged tokens).imp
    intro t t' hdif
    simpa only [Grouping.Differ, resolved?_reduce] using hdif
  · intro r hr
    rw [hp.mem_iff] at hr
    obtain ⟨y, hy, rfl⟩ := rule_mem_map_mapRule.mp hr
    obtain ⟨r, hr, hfld, -⟩ := exists_group h hy
    rw [hfld]
    apply (isSome_str?_selfize r).trans (h.1 r hr)
  · intro name types hrole
    apply h.2 name types
    rw [← mem_plains, ← hpls.mem_iff, mem_plains]
    apply hrole

/-! ### Batches -/

/-- The statement is an `allow` rule. -/
def Statement.isAllow : Statement → Bool
  | .rule .allow .. => true
  | _ => false

/-- The statement defines a permission set. -/
def Statement.isDefine : Statement → Bool
  | .plain (some (.permSet ..)) => true
  | _ => false

/-- The tokens of statements. -/
def tokensOf (order : SetOrder) (batch : List Statement) : List Token :=
  batch.map (Statement.token order)

/-- No pass raises an error on `allow` rules and definitions. -/
theorem processable_tokensOf (order : SetOrder) {batch : List Statement}
    (h : ∀ s ∈ batch, s.isAllow ∨ s.isDefine) :
  Processable (tokensOf order batch)
  := by
  constructor
  · intro r hr
    obtain ⟨s, hs, hr⟩ := mem_map.mp hr
    rcases s with ⟨_ | _ | _ | _, source, target, classes, perms⟩ | t
    · cases hr
      rfl
    all_goals first | (rcases h _ hs with hk | hk <;> cases hk) | cases hr
  · intro name types hrole
    obtain ⟨s, hs, hrole⟩ := mem_map.mp hrole
    rcases s with _ | t
    · cases hrole
    · cases hrole
      rcases h _ hs with hk | hk <;> cases hk

/-- There are no definitions among `allow` rules. -/
theorem permSets_tokensOf (order : SetOrder) {batch : List Statement} (h : ∀ s ∈ batch, s.isAllow) :
  permSets (tokensOf order batch) = []
  := by
  apply filterMap_eq_nil_iff.mpr
  intro t ht
  obtain ⟨s, hs, rfl⟩ := mem_map.mp ht
  rcases s with _ | t
  · rfl
  · cases h _ hs

/-- A batch that can be processed can be added. -/
theorem Processable.append {tokens tokens' : List Token} (h : Processable tokens)
    (h' : Processable tokens') :
  Processable (tokens ++ tokens')
  := by
  constructor
  · intro r hr
    rcases mem_append.mp hr with hr | hr
    · apply h.1 r hr
    · apply h'.1 r hr
  · intro name types hrole
    rcases mem_append.mp hrole with hrole | hrole
    · apply h.2 name types hrole
    · apply h'.2 name types hrole

/-- A batch of `allow` rules is optimized together with the batch before it as after it: both
ways give the same meaning, and one rule for every key, if no permission set is defined in two
ways.  The sets of each run may be listed in another order. -/
theorem optimize_append (order order₁ order₂ order₃ : SetOrder) (b₁ b₂ : List Statement)
    (h₁ : ∀ s ∈ b₁, s.isAllow ∨ s.isDefine) (h₂ : ∀ s ∈ b₂, s.isAllow)
    (hdefs : Unambiguous (permSets (tokensOf order b₁))) :
  ∃ together first second,
    optimize order₁ (tokensOf order (b₁ ++ b₂)) = some together ∧
      optimize order₂ (tokensOf order b₁) = some first ∧
      optimize order₃ (first ++ tokensOf order b₂) = some second ∧
      SameMeaning together second ∧ OneRuleEach together ∧ OneRuleEach second
  := by
  have hprc₁ := processable_tokensOf order h₁
  have hprc₂ := processable_tokensOf order fun s hs => Or.inl (h₂ s hs)
  have hn := permSets_tokensOf order h₂
  rw [tokensOf, map_append, ← tokensOf, ← tokensOf]
  obtain ⟨first, hfst, hsame₁, -, hpls, hprc⟩ := optimize_keeps order₂ hprc₁ hdefs
  have hm := mem_permSets_of_perm hpls
  have hdefs' : Unambiguous (permSets first) := by
    intro d hd d' hd'
    apply hdefs d ((hm d).mp hd) d' ((hm d').mp hd')
  obtain ⟨together, htogether, hsame, hone, -⟩ := optimize_keeps order₁
    (hprc₁.append hprc₂) (by rwa [permSets_append hn])
  obtain ⟨second, hsnd, hsame₂, hone₂, -⟩ := optimize_keeps order₃
    (hprc.append hprc₂) (by rwa [permSets_append hn])
  refine ⟨together, first, second, htogether, hfst, hsnd, ?_, hone, hone₂⟩
  apply hsame.trans
  apply (hsame₁.symm.append (fun d => (hm d).symm) hn).trans
  apply hsame₂.symm

/-- Users may read their files, and read and write those for `self`. -/
def readRound : List Statement :=
  [.plain (some (.permSet "rw_file_perms" ["read", "write"] none)),
    .rule .allow "user_t" "user_t" (.str "file") (.str "read")]

/-- Users may write their files as well. -/
def writeRound : List Statement :=
  [.rule .allow "user_t" "self" (.str "file") (.str "write"),
    .rule .allow "user_t" "etc_t" (.str "file") (.str "read")]

theorem optimize_append_rounds :
  ∃ together first second,
    optimize .asGiven (tokensOf .asGiven (readRound ++ writeRound)) = some together ∧
      optimize .asGiven (tokensOf .asGiven readRound) = some first ∧
      optimize .asGiven (first ++ tokensOf .asGiven writeRound) = some second ∧
      SameMeaning together second ∧ OneRuleEach together ∧ OneRuleEach second
  := by
  apply optimize_append .asGiven .asGiven .asGiven .asGiven readRound writeRound
  · decide
  · decide
  · intro d hd d' hd' _ p hp
    cases mem_singleton.mp hd
    cases mem_singleton.mp hd'
    apply hp

/-- Two permission sets that are each defined in two ways. -/
def doubtfulSets : List Statement :=
  [.plain (some (.permSet "r_perms" ["getattr"] none)),
    .plain (some (.permSet "r_perms" ["read"] none)),
    .plain (some (.permSet "w_perms" ["r_perms"] none)),
    .plain (some (.permSet "w_perms" ["write"] none))]

/-- Users may read the configuration. -/
def mayRead (name : String) : List Statement :=
  doubtfulSets ++ [.rule .allow "user_t" "etc_t" (.str "file") (.str name)]

/-- The permissions of the rule that is left. -/
theorem permissions_mayRead {name perm : String} :
  perm ∈ permissions (tokensOf .asGiven (mayRead name)) ("user_t", "etc_t", "file") ↔
    Expands (permSets (tokensOf .asGiven doubtfulSets)) name perm
  := by
  have htok : tokensOf .asGiven (mayRead name) = tokensOf .asGiven doubtfulSets ++
    [.rule (ruleDef .asGiven .allow "user_t" "etc_t" (.str "file") (.str name))] := rfl
  constructor
  · rintro ⟨t, ht, hk, x, hx, hexp⟩
    rw [htok] at ht
    rcases mem_append.mp ht with ht | ht
    · obtain ⟨s, hs, rfl⟩ := mem_map.mp ht
      rcases s with _ | t
      · simp [doubtfulSets] at hs
      · cases hk
    · cases mem_singleton.mp ht
      obtain rfl : x = name := mem_singleton.mp hx
      apply hexp
  · intro hexp
    rw [htok]
    refine ⟨_, mem_append_right _ mem_cons_self, rfl, name, ?_, hexp⟩
    apply mem_singleton_self

/-- The first run writes `r_perms` for `read`, and a second one, without any new rule, writes
`w_perms` for `r_perms`: users may write, which they may not after one run. -/
theorem optimize_again_differs :
  ∃ together first second,
    optimize .asGiven (tokensOf .asGiven (mayRead "read" ++ [])) = some together ∧
      optimize .asGiven (tokensOf .asGiven (mayRead "read")) = some first ∧
      optimize .asGiven (first ++ tokensOf .asGiven []) = some second ∧
      "write" ∉ permissions together ("user_t", "etc_t", "file") ∧
      "write" ∈ permissions second ("user_t", "etc_t", "file")
  := by
  refine ⟨tokensOf .asGiven (mayRead "r_perms"), tokensOf .asGiven (mayRead "r_perms"),
    tokensOf .asGiven (mayRead "w_perms"), rfl, rfl, rfl, ?_, ?_⟩
  · rw [permissions_mayRead]
    intro hexp
    obtain ⟨d, hd, hn, q, hq, hexp⟩ :=
      (expands_set_iff (d := ("r_perms", ["read"])) (by decide)).mp hexp
    have hq : q = "getattr" ∨ q = "read" := by
      simp only [permSets, tokensOf, doubtfulSets, List.map, Statement.token, List.filterMap,
        Token.permSet?, mem_cons, not_mem_nil, or_false] at hd
      rcases hd with rfl | rfl | rfl | rfl
      · exact .inl (mem_singleton.mp hq)
      · exact .inr (mem_singleton.mp hq)
      · simp at hn
      · simp at hn
    rcases hq with rfl | rfl
    · apply absurd (eq_of_expands (by decide) hexp) (by decide)
    · apply absurd (eq_of_expands (by decide) hexp) (by decide)
  · apply permissions_mayRead.mpr
    have hp : Expands (permSets (tokensOf .asGiven doubtfulSets)) "write" "write" :=
      .perm (by decide)
    apply Expands.set (d := ("w_perms", ["write"])) (by decide) (by decide) hp

end Selaudit

import Mathlib.Data.List.Dedup
import Contextd.Selaudit.Meaning

/-!
# The optimizer and the meaning of a policy

What the passes leave, said without their loops.  The rules with the same key are replaced by
one that has the fields of the first of them, with the attributes of all of them
(`exists_group`, `exists_merged`), reduced by the permission sets.

The meaning of a policy is preserved when merging the rules with the same key is harmless
(`preserves_of_mergeable`), as it is when they differ in their attributes only and nothing is
ambiguous (`preserves_of_regular`).  It is not when an `allow` and a `neverallow` rule have the
same key, and every `dontaudit` rule raises an error (`neverallow_lost`).
-/

namespace Selaudit

open List

variable {x : String} {tokens : List Token}

/-! ### `add_attributes` -/

/-- The attributes an iterator has still to read are among those that are there. -/
theorem mem_addAttribute {s : List String × List String} (h : s.2 ⊆ s.1) (attr : String) :
  (addAttribute s attr).2 ⊆ (addAttribute s attr).1 ∧
    ∀ x, x ∈ (addAttribute s attr).1 ↔ x ∈ s.1 ∨ x = attr
  := by
  have hsuffix := (dropWhile_suffix (l := s.2) (· ≠ attr)).subset
  have hhead := List.head?_dropWhile_not (· ≠ attr) s.2
  unfold addAttribute
  rcases hdrop : s.2.dropWhile (· ≠ attr) with _ | ⟨y, rest⟩
  · simp
  · rw [hdrop] at hsuffix hhead
    obtain rfl : y = attr := by simpa using hhead
    have hm : y ∈ s.1 := h (hsuffix mem_cons_self)
    constructor
    · intro x hx
      apply h (hsuffix (mem_cons_of_mem _ hx))
    · intro x
      constructor
      · apply Or.inl
      · rintro (hx | rfl)
        · apply hx
        · apply hm

/-- `add_attributes` adds the attributes that are not there, and perhaps others again. -/
theorem mem_addAttributes {attributes attributeList : List String} :
  x ∈ addAttributes attributes attributeList ↔ x ∈ attributes ∨ x ∈ attributeList
  := by
  have hf : ∀ (l : List String) (s : List String × List String), s.2 ⊆ s.1 →
      (x ∈ (l.foldl addAttribute s).1 ↔ x ∈ s.1 ∨ x ∈ l) := by
    intro l
    induction l with
    | nil => simp
    | cons attr l ih =>
      intro s hs
      obtain ⟨hsub, hm⟩ := mem_addAttribute hs attr
      rw [foldl_cons, ih _ hsub, hm, mem_cons, or_assoc]
  apply hf attributeList (attributes, attributes) (List.Subset.refl _)

/-! ### `factorize_rules` -/

/-- The loop raises an error when it comes to a target that cannot be hashed. -/
theorem foldlM_factorizeRule (tokens : List Token) (g : Grouping Token Key) :
  tokens.foldlM factorizeRule g =
    if ∃ t ∈ tokens, t.unhashable then none
    else some (tokens.foldl (Grouping.step Token.key? Token.absorb) g)
  := by
  induction tokens generalizing g with
  | nil => simp
  | cons t tokens ih =>
    rw [foldlM_cons, factorizeRule]
    by_cases ht : t.unhashable
    · simp [ht]
    · simp [ht, ih]

/-- A token without its attributes. -/
def Token.core : Token → Token := Token.mapRule fun r => { r with attributes := [] }

/-- The attributes of a rule. -/
def Token.content : Token → Set String
  | .rule r => {x | x ∈ r.attributes}
  | .plain _ => ∅

theorem Token.key?_absorb (t t' : Token) :
  (t.absorb t').key? = t.key?
  := by
  cases t <;> cases t' <;> rfl

theorem Token.core_absorb (t t' : Token) :
  (t.absorb t').core = t.core
  := by
  cases t <;> cases t' <;> rfl

/-- A token that absorbs another has the attributes of both. -/
theorem Token.content_absorb (t t' : Token) (k : Key) (ht : t.key? = some k)
    (ht' : t'.key? = some k) (x : String) :
  x ∈ (t.absorb t').content ↔ x ∈ t.content ∨ x ∈ t'.content
  := by
  cases t with
  | rule r =>
    cases t' with
    | rule r' => apply mem_addAttributes
    | plain t' => cases ht'
  | plain t => cases ht

/-- What `factorize_rules` leaves. -/
theorem factorizeRules_eq_some (h : ∀ t ∈ tokens, ¬ t.unhashable) :
  factorizeRules tokens = some (Grouping.collected Token.key? Token.absorb tokens)
  := by
  have hnot : ¬ ∃ t ∈ tokens, t.unhashable := by
    rintro ⟨t, ht, hun⟩
    apply h t ht hun
  rw [factorizeRules, foldlM_factorizeRule, if_neg hnot, Option.map_some,
    Grouping.result_eq_collected _ _ Token.key?_absorb]

/-- The tokens are collected by their keys. -/
theorem collected_tokens (tokens : List Token) :
  Grouping.Collected Token.key? Token.core Token.content tokens
    (Grouping.collected Token.key? Token.absorb tokens)
  := Grouping.collected_spec _ _ Token.key?_absorb Token.core_absorb Token.content_absorb tokens

/-- A target that is a list cannot be hashed. -/
theorem factorizeRules_eq_none (h : ∃ t ∈ tokens, t.unhashable) :
  factorizeRules tokens = none
  := by
  rw [factorizeRules, foldlM_factorizeRule, if_pos h, Option.map_none]

/-! ### `factorize_rule_attributes` -/

/-- All the permissions of a set are there when as many of them are. -/
theorem length_filter_mem_eq_iff {l l' : List String} (h : l.Nodup) (h' : l'.Nodup) :
  (l.filter (· ∈ l')).length = l'.length ↔ ∀ x ∈ l', x ∈ l
  := by
  have hsub : l.filter (· ∈ l') ⊆ l' := by
    intro x hx
    simpa using (mem_filter.mp hx).2
  have hsubperm := subperm_of_subset (h.filter _) hsub
  constructor
  · intro hlen x hx
    have hp := hsubperm.perm_of_length_le hlen.ge
    apply mem_of_mem_filter (hp.mem_iff.mpr hx)
  · intro hall
    apply le_antisymm hsubperm.length_le
    apply (subperm_of_subset h' _).length_le
    intro x hx
    apply mem_filter.mpr ⟨hall x hx, by simpa using hx⟩

theorem mem_extend {order : SetOrder} {l l' : List String} :
  x ∈ extend order l l' ↔ x ∈ l ∨ x ∈ l'
  := by
  simp only [extend, mem_append, SetOrder.mem_list, mem_filter, mem_dedup]
  by_cases hx : x ∈ l <;> simp [hx]

theorem factorizeStep_eq (order : SetOrder) (attributes : List String)
    (s : List String × List String) (d : String × List String) :
  factorizeStep order attributes.dedup s d =
    if ∀ p ∈ d.2, p ∈ attributes then (extend order s.1 d.2.dedup, s.2 ++ [d.1]) else s
  := by
  have hiff := length_filter_mem_eq_iff attributes.nodup_dedup d.2.nodup_dedup
  simp only [mem_dedup] at hiff
  simp only [factorizeStep, mem_dedup, hiff]

/-- What is to be deleted and to be added for the permission sets. -/
theorem mem_foldl_factorizeStep (order : SetOrder) (attributes : List String) (x : String)
    (defs : List (String × List String)) (s : List String × List String) :
  (x ∈ (defs.foldl (factorizeStep order attributes.dedup) s).1 ↔
      x ∈ s.1 ∨ ∃ d ∈ defs, (∀ p ∈ d.2, p ∈ attributes) ∧ x ∈ d.2) ∧
    (x ∈ (defs.foldl (factorizeStep order attributes.dedup) s).2 ↔
      x ∈ s.2 ∨ ∃ d ∈ defs, (∀ p ∈ d.2, p ∈ attributes) ∧ x = d.1)
  := by
  induction defs generalizing s with
  | nil => simp
  | cons d defs ih =>
    rw [foldl_cons, (ih _).1, (ih _).2, factorizeStep_eq]
    simp only [mem_cons, exists_eq_or_imp]
    by_cases hd : ∀ p ∈ d.2, p ∈ attributes
    · rw [if_pos hd, mem_extend, mem_append, mem_singleton, mem_dedup]
      constructor <;> simp only [or_assoc, and_iff_right hd]
    · rw [if_neg hd]
      simp only [hd, false_and, false_or, and_self]

/-- The attributes of a rule are reduced by the permission sets. -/
theorem mem_factorizeAttributes {order : SetOrder} {defs : List (String × List String)}
    {attributes : List String} :
  x ∈ factorizeAttributes order defs attributes ↔ x ∈ reduced defs {y | y ∈ attributes}
  := by
  obtain ⟨hdelete, hadd⟩ := mem_foldl_factorizeStep order attributes x defs ([], [])
  simp only [factorizeAttributes, SetOrder.mem_list, mem_append, mem_filter, hadd,
    mem_dedup, decide_eq_true_eq, hdelete]
  simp [reduced]

/-! ### `sort_rules` -/

/-- `sort_rules` only changes the order of the tokens. -/
theorem sortRules_eq_some (h : ∀ t ∈ tokens, t.sortFunc.isSome) :
  ∃ tokens', sortRules tokens = some tokens' ∧ tokens'.Perm tokens
  := by
  obtain ⟨keys, hkeys⟩ := Option.isSome_iff_exists.mp (List.isSome_mapM_iff.mpr h)
  have hlen := congrArg List.length (List.mapM_eq_some_iff.mp hkeys)
  rw [length_map, length_map] at hlen
  refine ⟨_, by rw [sortRules, hkeys, Option.map_some], ?_⟩
  have hp := (perm_insertionSort (fun a b : String × Token => a.1 ≤ b.1)
    (keys.zip tokens)).map Prod.snd
  rwa [map_snd_zip hlen.le] at hp

/-- A role with a list among its types cannot be printed. -/
theorem sortRules_eq_none (h : ∃ t ∈ tokens, t.sortFunc = none) :
  sortRules tokens = none
  := by
  rw [sortRules, Option.map_eq_none_iff, ← Option.not_isSome_iff_eq_none, List.isSome_mapM_iff]
  intro hall
  obtain ⟨t, ht, hn⟩ := h
  simpa [hn] using hall t ht

/-- A token can be printed, unless it is a role with a list among its types. -/
theorem isSome_sortFunc_iff (t : Token) :
  t.sortFunc.isSome ↔
    ∀ name types, t = .plain (some (.roleDef name types)) → ∀ v ∈ types, v.str?.isSome
  := by
  rcases t with r | _ | e
  · simp [Token.sortFunc]
  · simp [Token.sortFunc]
  · cases e
    case roleDef name types =>
      simpa [Token.sortFunc, Element.repr] using isSome_reprRole_iff
    all_goals simp [Token.sortFunc, Element.repr]

/-! ### The tokens that are not rules -/

/-- The token, if it is not a rule. -/
def Token.plain? : Token → Option (Option Element)
  | .rule _ => none
  | .plain t => some t

/-- The tokens that are not rules. -/
def plains (tokens : List Token) : List (Option Element) := tokens.filterMap Token.plain?

theorem mem_plains {e : Option Element} :
  e ∈ plains tokens ↔ .plain e ∈ tokens
  := by
  simp only [plains, mem_filterMap]
  constructor
  · rintro ⟨t | t, ht, heq⟩
    · cases heq
    · cases heq
      apply ht
  · intro he
    use .plain e, he
    rfl

theorem plains_map_mapRule (f : Rule → Rule) (tokens : List Token) :
  plains (tokens.map (Token.mapRule f)) = plains tokens
  := by
  rw [plains, plains, filterMap_map]
  apply filterMap_congr
  rintro (r | e) _ <;> rfl

theorem mem_permSets {d : String × List String} :
  d ∈ permSets tokens ↔ ∃ e ∈ plains tokens, (Token.plain e).permSet? = some d
  := by
  simp only [permSets, mem_filterMap, mem_plains]
  constructor
  · rintro ⟨r | e, he, heq⟩
    · cases heq
    · use e
  · rintro ⟨e, he, heq⟩
    use .plain e

theorem rule_mem_map_mapRule {f : Rule → Rule} {r : Rule} :
  .rule r ∈ tokens.map (Token.mapRule f) ↔ ∃ r', .rule r' ∈ tokens ∧ f r' = r
  := by
  rw [mem_map]
  constructor
  · rintro ⟨r' | t, ht, heq⟩
    · cases heq
      use r'
    · cases heq
  · rintro ⟨r', hr', rfl⟩
    use .rule r', hr'
    rfl

section

variable {tokens tokens' : List Token}

/-- Collecting leaves the other tokens. -/
theorem plains_of_collected
    (h : Grouping.Collected Token.key? Token.core Token.content tokens tokens') :
  plains tokens' = plains tokens
  := by
  have hfil : ∀ l : List Token, plains l = plains (l.filter (Token.key? · = none)) := by
    intro l
    rw [plains, plains, filterMap_filter]
    apply filterMap_congr
    rintro (r | t) _
    · split_ifs <;> rfl
    · rfl
  rw [hfil, h.keyless, ← hfil]

/-! ### The whole run -/

variable (types : String → Set String)

/-- The passes do not raise an error, the meaning stays, and the other tokens stay. -/
def Preserves (order : SetOrder) (tokens : List Token) : Prop :=
  ∃ tokens', optimize order tokens = some tokens' ∧
    (∀ a, Denoted types tokens' a ↔ Denoted types tokens a) ∧
    (plains tokens').Perm (plains tokens)

/-- Every target is a name, and so are the types of the roles. -/
def Processable (tokens : List Token) : Prop :=
  (∀ r, .rule r ∈ tokens → r.target.str?.isSome) ∧
    ∀ name types, .plain (some (.roleDef name types)) ∈ tokens → ∀ v ∈ types, v.str?.isSome

theorem isSome_str?_selfize (r : Rule) :
  r.selfize.target.str?.isSome = r.target.str?.isSome
  := by
  unfold Rule.selfize
  split
  · next htgt =>
    rw [htgt]
    split_ifs
    · rfl
    · rw [htgt]
  · rfl

/-- A target that cannot be hashed is still there after `selfize_rules`. -/
theorem unhashable_selfizeRules :
  (∃ t ∈ selfizeRules tokens, t.unhashable) ↔ ∃ r, .rule r ∈ tokens ∧ ¬ r.target.str?.isSome
  := by
  have hrule : ∀ r : Rule, (Token.rule r.selfize).unhashable ↔ ¬ r.target.str?.isSome := by
    intro r
    rw [← isSome_str?_selfize]
    simp [Token.unhashable, Rule.key?]
  constructor
  · rintro ⟨r | t, ht, hun⟩
    · obtain ⟨r', hr', rfl⟩ := rule_mem_map_mapRule.mp ht
      use r', hr', (hrule r').mp hun
    · cases hun
  · rintro ⟨r, hr, hun⟩
    exact ⟨.rule r.selfize, rule_mem_map_mapRule.mpr ⟨r, hr, rfl⟩, (hrule r).mpr hun⟩

/-- The tokens after `selfize_rules` and `factorize_rules`. -/
def merged (tokens : List Token) : List Token :=
  Grouping.collected Token.key? Token.absorb (selfizeRules tokens)

/-- So does merging. -/
theorem plains_merged (tokens : List Token) :
  plains (merged tokens) = plains tokens
  := by
  rw [merged, plains_of_collected (collected_tokens _), selfizeRules, plains_map_mapRule]

theorem plains_factorizeRuleAttributes (order : SetOrder) (tokens : List Token) :
  plains (factorizeRuleAttributes order tokens) = plains tokens
  := by
  rw [factorizeRuleAttributes, plains_map_mapRule]

/-- If every target is a name, the keys can be hashed. -/
theorem Processable.hashable (h : Processable tokens) :
  ∀ t ∈ selfizeRules tokens, ¬ t.unhashable
  := by
  intro t ht hun
  obtain ⟨r, hr, hnot⟩ := unhashable_selfizeRules.mp ⟨t, ht, hun⟩
  apply hnot (h.1 r hr)

/-- The passes leave the merged tokens with their attributes reduced, in some order. -/
theorem optimize_perm (order : SetOrder) (h : Processable tokens) :
  ∃ tokens', optimize order tokens = some tokens' ∧
    tokens'.Perm (factorizeRuleAttributes order (merged tokens))
  := by
  have hprint : ∀ t ∈ factorizeRuleAttributes order (merged tokens), t.sortFunc.isSome := by
    intro t ht
    apply (isSome_sortFunc_iff t).mpr
    rintro name types rfl
    apply h.2 name types
    rw [← mem_plains, ← plains_merged, ← plains_factorizeRuleAttributes order, mem_plains]
    apply ht
  obtain ⟨sorted, hsort, hp⟩ := sortRules_eq_some hprint
  refine ⟨sorted, ?_, hp⟩
  rw [optimize, factorizeRules_eq_some h.hashable, Option.bind_some, ← merged, hsort]

/-- The permission sets are those of the tokens that are not rules. -/
theorem mem_permSets_of_perm (h : (plains tokens').Perm (plains tokens))
    (d : String × List String) :
  d ∈ permSets tokens' ↔ d ∈ permSets tokens
  := by
  simp only [mem_permSets, h.mem_iff]

/-- What the passes leave: the other tokens, and the merged rules with their attributes
reduced. -/
theorem optimize_eq_some (order : SetOrder) (h : Processable tokens) :
  ∃ tokens', optimize order tokens = some tokens' ∧ (plains tokens').Perm (plains tokens) ∧
    ∀ a, Denoted types tokens' a ↔
      ∃ y, .rule y ∈ merged tokens ∧
        DenotesWith types (permSets tokens) y (reduced (permSets tokens) {x | x ∈ y.attributes}) a
  := by
  obtain ⟨sorted, hsort, hp⟩ := optimize_perm order h
  have hpls : (plains sorted).Perm (plains tokens) := by
    rw [← plains_merged tokens, ← plains_factorizeRuleAttributes order (merged tokens)]
    apply hp.filterMap
  refine ⟨sorted, hsort, hpls, ?_⟩
  intro a
  have hdefs := mem_permSets_of_perm (List.Perm.of_eq (plains_merged tokens))
  simp only [Denoted, Denotes, hp.mem_iff, denotesWith_congr types
    (mem_permSets_of_perm hpls)]
  simp only [factorizeRuleAttributes, rule_mem_map_mapRule, ← reduced_congr hdefs]
  constructor
  · rintro ⟨_, ⟨y, hy, rfl⟩, hden⟩
    use y, hy
    rw [← Set.ext fun x => mem_factorizeAttributes]
    apply hden
  · rintro ⟨y, hy, hden⟩
    refine ⟨_, ⟨y, hy, rfl⟩, ?_⟩
    rw [← Set.ext fun x => mem_factorizeAttributes] at hden
    apply hden

/-- Otherwise one of the passes raises an error. -/
theorem optimize_eq_none (order : SetOrder) (h : ¬ Processable tokens) :
  optimize order tokens = none
  := by
  by_cases hhash : ∃ t ∈ selfizeRules tokens, t.unhashable
  · rw [optimize, factorizeRules_eq_none hhash, Option.bind_none]
  have hall : ∀ t ∈ selfizeRules tokens, ¬ t.unhashable :=
    fun t ht hun => hhash ⟨t, ht, hun⟩
  rw [optimize, factorizeRules_eq_some hall, Option.bind_some, ← merged]
  apply sortRules_eq_none
  by_contra hprint
  apply h
  constructor
  · intro r hr
    by_contra hnot
    apply hhash (unhashable_selfizeRules.mpr ⟨r, hr, hnot⟩)
  · intro name types hrole
    rw [← mem_plains, ← plains_merged, ← plains_factorizeRuleAttributes order, mem_plains]
      at hrole
    apply (isSome_sortFunc_iff _).mp _ name types rfl
    by_contra hn
    apply hprint ⟨_, hrole, by simpa using hn⟩

/-- A policy whose meaning is preserved does not make the passes raise an error. -/
theorem processable_of_preserves {order : SetOrder} (h : Preserves types order tokens) :
  Processable tokens
  := by
  obtain ⟨tokens', hopt, -⟩ := h
  by_contra hnot
  rw [optimize_eq_none order hnot] at hopt
  cases hopt

/-! ### Groups of rules -/

/-- The attributes of the rules with the key of a rule. -/
def groupAttributes (tokens : List Token) (r : Rule) : Set String :=
  {x | ∃ r', .rule r' ∈ tokens ∧ r'.selfize.key? = r.selfize.key? ∧ x ∈ r'.attributes}

/-- `selfize` changes the target only. -/
theorem selfize_fields (r : Rule) :
  r.selfize.kind = r.kind ∧ r.selfize.source = r.source ∧
    r.selfize.objectClass = r.objectClass ∧ r.selfize.attributes = r.attributes
  := by
  unfold Rule.selfize
  split
  · split_ifs <;> exact ⟨rfl, rfl, rfl, rfl⟩
  · exact ⟨rfl, rfl, rfl, rfl⟩

/-- If every target is a name, every rule has a key. -/
theorem Processable.exists_key (h : Processable tokens) {r : Rule} (hr : .rule r ∈ tokens) :
  ∃ k, r.selfize.key? = some k
  := by
  have hs := h.1 r hr
  rw [← isSome_str?_selfize] at hs
  obtain ⟨target, htgt⟩ := Option.isSome_iff_exists.mp hs
  exact ⟨_, by rw [Rule.key?, htgt, Option.map_some]⟩

/-- A merged rule has the fields of a rule that was there, and the attributes of its group. -/
theorem exists_group (h : Processable tokens) {y : Rule} (hy : .rule y ∈ merged tokens) :
  ∃ r, .rule r ∈ tokens ∧ y = { r.selfize with attributes := y.attributes } ∧
    {x | x ∈ y.attributes} = groupAttributes tokens r
  := by
  have hcol := collected_tokens (selfizeRules tokens)
  obtain ⟨k, hk⟩ : ∃ k, y.key? = some k := by
    apply Option.ne_none_iff_exists'.mp
    intro hn
    have hm : .rule y ∈ (merged tokens).filter (Token.key? · = none) :=
      mem_filter.mpr ⟨hy, decide_eq_true hn⟩
    rw [merged, hcol.keyless] at hm
    apply h.hashable _ (mem_of_mem_filter hm)
    simp [Token.unhashable, hn]
  obtain ⟨t, hf, hcore, hcont⟩ := hcol.merged (.rule y) hy k hk
  rcases t with ℓ | e
  · have hfd := List.find?_some hf
    have hkey : ℓ.key? = some k := of_decide_eq_true hfd
    obtain ⟨r, hr, rfl⟩ := rule_mem_map_mapRule.mp (mem_of_find?_eq_some hf)
    refine ⟨r, hr, ?_, ?_⟩
    · have hfld : ({ y with attributes := [] } : Rule) = { r.selfize with attributes := [] } :=
        Token.rule.inj hcore
      exact congrArg (fun x : Rule => { x with attributes := y.attributes }) hfld
    · ext x
      rw [groupAttributes, hkey]
      apply (hcont x).trans
      constructor
      · rintro ⟨t, ht, hkt, hx⟩
        obtain ⟨t' | e, ht', rfl⟩ := mem_map.mp ht
        · refine ⟨t', ht', hkt, ?_⟩
          rw [← (selfize_fields t').2.2.2]
          apply hx
        · cases hkt
      · rintro ⟨r', hr', hkey', hx⟩
        refine ⟨.rule r'.selfize, mem_map_of_mem hr', hkey', ?_⟩
        rw [← (selfize_fields r').2.2.2] at hx
        apply hx
  · cases hcore

/-- Every group has a merged rule. -/
theorem exists_merged (h : Processable tokens) {r : Rule} (hr : .rule r ∈ tokens) :
  ∃ y, .rule y ∈ merged tokens ∧ y.key? = r.selfize.key?
  := by
  obtain ⟨k, hk⟩ := h.exists_key hr
  obtain ⟨y | e, hy, hkey⟩ := (collected_tokens (selfizeRules tokens)).represented
    (.rule r.selfize) (mem_map_of_mem hr) k hk
  · use y, hy, hkey.trans hk.symm
  · cases hkey

end

section

variable {types : String → Set String} {tokens : List Token} {a : Access} {r r' : Rule}
  {defs : List (String × List String)} {names : Set String}

/-! ### What rules denote -/

/-- A rule denotes what it denotes with one of its attributes. -/
theorem denotesWith_iff_exists :
  DenotesWith types defs r names a ↔ ∃ x ∈ names, DenotesWith types defs r {x} a
  := by
  unfold DenotesWith Rule.classesWith Rule.permsWith
  cases r.kind
  case auditallow =>
    constructor
    · rintro ⟨hk, hsrc, htgt, hcls, hperm⟩
      exact ⟨_, hcls, hk, hsrc, htgt, rfl, hperm⟩
    · rintro ⟨x, hx, hk, hsrc, htgt, rfl, hperm⟩
      exact ⟨hk, hsrc, htgt, hx, hperm⟩
  all_goals
    constructor
    · rintro ⟨hk, hsrc, htgt, hcls, p, hp, hperm⟩
      use p, hp, hk, hsrc, htgt, hcls, p, rfl, hperm
    · rintro ⟨x, hx, hk, hsrc, htgt, hcls, _, rfl, hperm⟩
      exact ⟨hk, hsrc, htgt, hcls, _, hx, hperm⟩

/-- Rules with the same source, target and classes denote the same, their kinds apart. -/
theorem denotesWith_of_alike (hsrc : r.source = r'.source) (htgt : r.target = r'.target)
    (hcls : ∀ c, c ∈ r.objectClass ↔ c ∈ r'.objectClass)
    (haudit : r.kind = .auditallow ↔ r'.kind = .auditallow) (h : DenotesWith types defs r names a) :
  DenotesWith types defs r' names { a with kind := r'.kind }
  := by
  obtain ⟨-, hden⟩ := h
  refine ⟨rfl, ?_⟩
  unfold Rule.targets Rule.classesWith Rule.permsWith at hden ⊢
  rw [hsrc, htgt] at hden
  cases hk : r.kind <;> cases hk' : r'.kind <;> simp_all

/-- Permission sets are written by their names without changing what a rule denotes, if it is
not an `auditallow` rule and their definitions agree. -/
theorem denotesWith_reduced_iff (haudit : r.kind = .auditallow → ∀ d ∈ defs, ¬ ∀ p ∈ d.2, p ∈ names)
    (hag : Agrees defs names) :
  DenotesWith types defs r (reduced defs names) a ↔ DenotesWith types defs r names a
  := by
  unfold DenotesWith Rule.classesWith Rule.permsWith
  cases hk : r.kind
  case auditallow =>
    have hsame : reduced defs names = names := by
      ext x
      have hn := haudit hk
      constructor
      · rintro (⟨d, hd, hsub, -⟩ | ⟨hx, -⟩)
        · apply absurd hsub (hn d hd)
        · apply hx
      · intro hx
        exact .inr ⟨hx, fun d hd hsub => absurd hsub (hn d hd)⟩
    rw [hsame]
  all_goals simp only [expands_reduced_iff hag]

/-- What a rule denotes that is not an `auditallow` rule. -/
theorem denotesWith_iff (h : r.kind ≠ .auditallow) {target : String}
    (htgt : r.target = .str target) (attributes : Set String) :
  DenotesWith types defs r attributes a ↔
    a.kind = r.kind ∧ a.source ∈ types r.source ∧
      (if target = "self" then a.target = a.source else a.target ∈ types target) ∧
      a.objectClass ∈ r.objectClass ∧ ∃ p ∈ attributes, Expands defs p a.permission
  := by
  unfold DenotesWith Rule.targets Rule.classesWith Rule.permsWith
  cases hk : r.kind <;>
    simp_all [Value.names, Value.elements, Value.format]

/-- `selfize_rules` keeps what a rule denotes, if its source stands for a single type when it
is the target as well. -/
theorem denotes_selfize_iff
    (hself : r.target = .str r.source → r.kind ≠ .auditallow ∧
      ((∃ a, Denotes types defs r a) → (types r.source).Subsingleton)) :
  Denotes types defs r.selfize a ↔ Denotes types defs r a
  := by
  by_cases htgt : r.target = .str r.source
  · obtain ⟨haudit, hsing⟩ := hself htgt
    have hselfize : r.selfize = { r with target := .str "self" } := by
      rw [Rule.selfize, htgt]
      apply if_pos rfl
    rw [hselfize, Denotes, Denotes, denotesWith_iff haudit htgt,
      denotesWith_iff (r := { r with target := .str "self" }) haudit rfl, if_pos rfl]
    constructor
    · rintro ⟨hk, hsrc, heq, hr⟩
      refine ⟨hk, hsrc, ?_, hr⟩
      split_ifs
      · apply heq
      · rwa [heq]
    · rintro ⟨hk, hsrc, ht, hr⟩
      refine ⟨hk, hsrc, ?_, hr⟩
      have hden : Denotes types defs r a :=
        (denotesWith_iff haudit htgt _).mpr ⟨hk, hsrc, ht, hr⟩
      split_ifs at ht
      · apply ht
      · apply hsing ⟨a, hden⟩ ht hsrc
  · have hselfize : r.selfize = r := by
      unfold Rule.selfize
      split
      · next htgt' =>
        rw [if_neg]
        rintro rfl
        apply htgt htgt'
      · rfl
    rw [hselfize]

/-- The source and the target of rules with the same key. -/
theorem eq_of_key?_eq {k : Key} (h : r.key? = some k) (h' : r'.key? = some k) :
  r.source = r'.source ∧ r.target = r'.target
  := by
  unfold Rule.key? at h h'
  rcases htgt : r.target with target | ⟨head, tail⟩ <;>
    rcases htgt' : r'.target with target' | ⟨head', tail'⟩ <;>
    simp_all [Value.str?]
  obtain ⟨rfl⟩ := h
  simp_all

/-! ### Policies whose rules can be merged -/

/-- Merging is harmless: the passes raise no error; rules with the same key have the same
classes, and the kind of those that denote something, an `auditallow` rule only being with
`auditallow` rules; a rule for its own source is for a single type; and a permission set that
is contained in the attributes of a group stands for nothing more than they do, nor is it taken
for the classes of an `auditallow` rule. -/
structure Mergeable (types : String → Set String) (tokens : List Token) : Prop where
  processable : Processable tokens
  alike : ∀ r r', .rule r ∈ tokens → .rule r' ∈ tokens → r.selfize.key? = r'.selfize.key? →
    (r.kind = .auditallow ↔ r'.kind = .auditallow) ∧
      (∀ c, c ∈ r.objectClass ↔ c ∈ r'.objectClass) ∧
      ((∃ a, Denotes types (permSets tokens) r a) → r.kind = r'.kind)
  self : ∀ r, .rule r ∈ tokens → r.target = .str r.source → r.kind ≠ .auditallow ∧
    ((∃ a, Denotes types (permSets tokens) r a) → (types r.source).Subsingleton)
  audit : ∀ r, .rule r ∈ tokens → r.kind = .auditallow → ∀ d ∈ permSets tokens,
    ¬ ∀ p ∈ d.2, p ∈ groupAttributes tokens r
  agree : ∀ r, .rule r ∈ tokens → Agrees (permSets tokens) (groupAttributes tokens r)

/-- Rules with the same key denote the same with the same attributes, their kinds apart. -/
theorem Mergeable.denotesWith_of_key?_eq (h : Mergeable types tokens) (hr : .rule r ∈ tokens)
    (hr' : .rule r' ∈ tokens) (hkey : r.selfize.key? = r'.selfize.key?)
    (hden : DenotesWith types defs r.selfize names a) :
  DenotesWith types defs r'.selfize names { a with kind := r'.kind }
  := by
  obtain ⟨k, hk⟩ := h.processable.exists_key hr
  obtain ⟨hsrc, htgt⟩ := eq_of_key?_eq hk (hkey.symm.trans hk)
  obtain ⟨haudit, hcls, -⟩ := h.alike r r' hr hr' hkey
  obtain ⟨hkind, -, hobject, -⟩ := selfize_fields r
  obtain ⟨hkind', -, hobject', -⟩ := selfize_fields r'
  rw [← hkind']
  apply denotesWith_of_alike hsrc htgt _ _ hden
  · rw [hobject, hobject']
    apply hcls
  · rw [hkind, hkind']
    apply haudit

/-- `selfize` leaves what a rule denotes. -/
theorem Mergeable.denotes_selfize_iff (h : Mergeable types tokens) (hr : .rule r ∈ tokens) :
  Denotes types (permSets tokens) r.selfize a ↔ Denotes types (permSets tokens) r a
  := Selaudit.denotes_selfize_iff (h.self r hr)

/-- The merged rules denote what the rules do. -/
theorem Mergeable.denoted_iff (h : Mergeable types tokens) (a : Access) :
  (∃ y, .rule y ∈ merged tokens ∧ DenotesWith types (permSets tokens) y
      (reduced (permSets tokens) {x | x ∈ y.attributes}) a) ↔
    Denoted types tokens a
  := by
  have hgp : ∀ y, .rule y ∈ merged tokens → ∃ r, .rule r ∈ tokens ∧ y.key? = r.selfize.key? ∧
      (DenotesWith types (permSets tokens) y (reduced (permSets tokens) {x | x ∈ y.attributes}) a ↔
        ∃ x ∈ groupAttributes tokens r, DenotesWith types (permSets tokens) r.selfize {x} a) := by
    intro y hy
    obtain ⟨r, hr, hfld, hatt⟩ := exists_group h.processable hy
    have hkey : y.key? = r.selfize.key? := by rw [hfld]; rfl
    refine ⟨r, hr, hkey, ?_⟩
    rw [hatt, hfld, ← denotesWith_iff_exists]
    apply denotesWith_reduced_iff _ (h.agree r hr)
    intro hk
    apply h.audit r hr
    rw [← (selfize_fields r).1]
    apply hk
  constructor
  · rintro ⟨y, hy, hden⟩
    obtain ⟨r, hr, -, hiff⟩ := hgp y hy
    obtain ⟨x, ⟨r', hr', hkey, hx⟩, hden⟩ := hiff.mp hden
    have hk : a.kind = r.kind := hden.1.trans (selfize_fields r).1
    have hden' := h.denotesWith_of_key?_eq hr hr' hkey.symm hden
    have hall : Denotes types (permSets tokens) r'.selfize { a with kind := r'.kind } := by
      apply denotesWith_iff_exists.mpr
      rw [(selfize_fields r').2.2.2]
      exact ⟨x, hx, hden'⟩
    have hr'den := (h.denotes_selfize_iff hr').mp hall
    have hkinds := (h.alike r' r hr' hr hkey).2.2 ⟨_, hr'den⟩
    rw [hkinds, ← hk] at hr'den
    exact ⟨r', hr', hr'den⟩
  · rintro ⟨r', hr', hden⟩
    obtain ⟨y, hy, hkey⟩ := exists_merged h.processable hr'
    obtain ⟨r, hr, hkeyr, hiff⟩ := hgp y hy
    have hkeys := hkey.symm.trans hkeyr
    have hkinds := (h.alike r' r hr' hr hkeys).2.2 ⟨a, hden⟩
    have hk : a.kind = r.kind := hden.1.trans hkinds
    obtain ⟨x, hx, hdenx⟩ := denotesWith_iff_exists.mp ((h.denotes_selfize_iff hr').mpr hden)
    have hdenr := h.denotesWith_of_key?_eq hr' hr hkeys hdenx
    rw [← hk] at hdenr
    rw [(selfize_fields r').2.2.2] at hx
    exact ⟨y, hy, hiff.mpr ⟨x, ⟨r', hr', hkeys, hx⟩, hdenr⟩⟩

/-- The passes preserve the meaning. -/
theorem Mergeable.preserves (h : Mergeable types tokens) (order : SetOrder) :
  Preserves types order tokens
  := by
  obtain ⟨tokens', hopt, hpls, hden⟩ := optimize_eq_some types order h.processable
  refine ⟨tokens', hopt, ?_, hpls⟩
  intro a
  rw [hden, h.denoted_iff]

/-- The passes preserve the meaning of every policy whose rules can be merged. -/
theorem preserves_of_mergeable (types : String → Set String) (order : SetOrder)
    {statements : List Statement} (h : Mergeable types (statements.map (Statement.token order))) :
  Preserves types order (statements.map (Statement.token order))
  := h.preserves order

/-- Users may read and write a file, and their reading it or its directory is audited. -/
def auditedAccess : List Statement :=
  [.plain (some (.permSet "rw_perms" ["read", "write"] none)),
    .rule .allow "user_t" "etc_t" (.str "file") (.str "read"),
    .rule .allow "user_t" "etc_t" (.str "file") (.str "write"),
    .rule .auditallow "user_t" "etc_t" (.str "file") (.str "read"),
    .rule .auditallow "user_t" "etc_t" (.str "dir") (.str "read")]

/-- The rules become one rule each kind, the first of them with the permission set. -/
theorem preserves_of_mergeable_auditedAccess :
  let tokens := auditedAccess.map (Statement.token .asGiven)
  (optimize .asGiven tokens).map List.length = some 3 ∧ Preserves (fun t => {t}) .asGiven tokens
  := by
  let rules := [Rule.mk .allow "user_t" (.str "etc_t") ["file"] ["read"],
    ⟨.allow, "user_t", .str "etc_t", ["file"], ["write"]⟩,
    ⟨.auditallow, "user_t", .str "read", ["etc_t"], ["file"]⟩,
    ⟨.auditallow, "user_t", .str "read", ["etc_t"], ["dir"]⟩]
  have htok : auditedAccess.map (Statement.token .asGiven) =
    .plain (some (.permSet "rw_perms" ["read", "write"] none)) :: rules.map Token.rule := rfl
  have hrs : ∀ r, .rule r ∈ auditedAccess.map (Statement.token .asGiven) → r ∈ rules := by
    rw [htok]
    simp
  have hal : ∀ r ∈ rules, ∀ r' ∈ rules, r.selfize.key? = r'.selfize.key? →
      r.kind = r'.kind ∧ r.objectClass = r'.objectClass ∧
        (r.kind = .auditallow → "read" ∉ r'.attributes) := by decide
  have htgt : ∀ r ∈ rules, r.target.str?.isSome ∧ r.target.str? ≠ some r.source := by decide
  refine ⟨rfl, preserves_of_mergeable _ _ ⟨⟨?_, ?_⟩, ?_, ?_, ?_, ?_⟩⟩
  · intro r hr
    apply (htgt r (hrs r hr)).1
  · simp [auditedAccess, Statement.token]
  · intro r r' hr hr' hkey
    obtain ⟨hk, hcls, -⟩ := hal r (hrs r hr) r' (hrs r' hr') hkey
    rw [hk, hcls]
    exact ⟨Iff.rfl, fun _ => Iff.rfl, fun _ => rfl⟩
  · intro r hr hself
    apply absurd (congrArg Value.str? hself) (htgt r (hrs r hr)).2
  · intro r hr hk d hd hsub
    cases mem_singleton.mp hd
    obtain ⟨r', hr', hkey, hread⟩ := hsub "read" mem_cons_self
    apply (hal r (hrs r hr) r' (hrs r' hr') hkey.symm).2.2 hk hread
  · intro r hr
    apply Unambiguous.agrees
    intro d hd d' hd' hn p hp
    cases mem_singleton.mp hd
    cases mem_singleton.mp hd'
    apply hp

/-! ### Regular policies -/

/-- Rules with the same key differ in their attributes only, a rule for its own source is for
a single type, and the definitions of a permission set agree. -/
structure Regular (types : String → Set String) (tokens : List Token) : Prop where
  audit : ∀ r, .rule r ∈ tokens → r.kind ≠ .auditallow
  hashable : ∀ r, .rule r ∈ tokens → r.target.str?.isSome
  kind : ∀ r r', .rule r ∈ tokens → .rule r' ∈ tokens → r.selfize.key? = r'.selfize.key? →
    r.kind = r'.kind ∧ ∀ c, c ∈ r.objectClass ↔ c ∈ r'.objectClass
  self : ∀ r, .rule r ∈ tokens → r.target = .str r.source → (types r.source).Subsingleton
  defs : Unambiguous (permSets tokens)

/-- The rules of a regular policy can be merged. -/
theorem Regular.mergeable (h : Regular types tokens) (hproc : Processable tokens) :
  Mergeable types tokens where
  processable := hproc
  alike := by
    intro r r' hr hr' hkey
    obtain ⟨hk, hcls⟩ := h.kind r r' hr hr' hkey
    rw [hk]
    exact ⟨Iff.rfl, hcls, fun _ => rfl⟩
  self := fun r hr htgt => ⟨h.audit r hr, fun _ => h.self r hr htgt⟩
  audit := fun r hr hk => absurd hk (h.audit r hr)
  agree := fun r _ => h.defs.agrees (groupAttributes tokens r)

/-- The passes preserve the meaning of every regular policy. -/
theorem preserves_of_regular (order : SetOrder) (h : Regular types tokens)
    (hrls : ∀ name types, .plain (some (.roleDef name types)) ∈ tokens →
      ∀ v ∈ types, v.str?.isSome) :
  Preserves types order tokens
  := (h.mergeable ⟨h.hashable, hrls⟩).preserves order

end

/-- Two rules become one. -/
theorem preserves_of_regular_readWrite :
  let tokens := ["read", "write"].map fun p =>
    Token.rule ⟨.allow, "user_t", .str "etc_t", ["file"], [p]⟩
  (optimize .asGiven tokens).map List.length = some 1 ∧ Preserves (fun t => {t}) .asGiven tokens
  := by
  refine ⟨rfl, preserves_of_regular _ ⟨?_, ?_, ?_, ?_, fun d hd => by cases hd⟩ ?_⟩
  · simp
  · simp [Value.str?]
  · simp only [mem_map, Token.rule.injEq]
    rintro _ _ ⟨p, -, rfl⟩ ⟨q, -, rfl⟩ -
    simp
  all_goals simp

/-- Users may read a file of the configuration, and nothing else may let them write it. -/
def readOnly : List Statement :=
  [.rule .allow "user_t" "etc_t" (.str "file") (.str "read"),
    .rule .neverallow "user_t" "etc_t" (.str "file") (.str "write")]

/-- What is never allowed becomes allowed, and a `dontaudit` rule raises an error. -/
theorem neverallow_lost :
  ∃ tokens', optimize .asGiven (readOnly.map (Statement.token .asGiven)) = some tokens' ∧
    Denoted (fun t => {t}) (readOnly.map (Statement.token .asGiven))
      ⟨.neverallow, "user_t", "etc_t", "file", "write"⟩ ∧
    ¬ Denoted (fun t => {t}) tokens' ⟨.neverallow, "user_t", "etc_t", "file", "write"⟩ ∧
    Denoted (fun t => {t}) tokens' ⟨.allow, "user_t", "etc_t", "file", "write"⟩ ∧
    ¬ Denoted (fun t => {t}) (readOnly.map (Statement.token .asGiven))
      ⟨.allow, "user_t", "etc_t", "file", "write"⟩ ∧
    optimize .asGiven [Statement.token .asGiven
      (.rule .dontaudit "user_t" "etc_t" (.str "file") (.str "read"))] = none
  := by
  have hperm : ∀ name, Expands [] name name := fun name => .perm (by simp)
  refine ⟨_, rfl, ?_, ?_, ?_, ?_, rfl⟩
  · refine ⟨_, mem_cons_of_mem _ mem_cons_self, ?_⟩
    apply (denotesWith_iff (by decide) rfl _).mpr
    exact ⟨rfl, rfl, rfl, mem_cons_self, "write", mem_cons_self, hperm "write"⟩
  · rintro ⟨r, hr, hk, -⟩
    cases mem_singleton.mp hr
    cases hk
  · refine ⟨_, mem_cons_self, ?_⟩
    apply (denotesWith_iff (by decide) rfl _).mpr
    exact ⟨rfl, rfl, rfl, mem_cons_self, "write", mem_cons_of_mem _ mem_cons_self,
      hperm "write"⟩
  · rintro ⟨r, hr, hden⟩
    rcases mem_pair.mp hr with heq | heq
    · cases heq
      obtain ⟨-, -, -, -, p, hp, hexp⟩ := (denotesWith_iff (by decide) rfl _).mp hden
      cases mem_singleton.mp hp
      have hn : permSets (readOnly.map (Statement.token .asGiven)) = [] := rfl
      apply absurd (eq_of_expands (by simp [hn]) hexp)
      decide
    · cases heq
      cases hden.1

end Selaudit

import Contextd.Selaudit.Batches
import Contextd.Selaudit.Rereading

/-!
# Rounds of `regeneratePolicy`

`selaudit.py` adds the rules of a batch to the file of a policy, and then parses, optimizes and
writes the policy (`regeneratePolicy`).  A file of plain statements survives this: after any number
of rounds it can be read again, and means what it meant at first, or one of the rules that were
added (`exists_regenerated`).
-/

namespace Selaudit

open List

/-! ### A round -/

/-- The object of a rule. -/
def Rule.element (r : Rule) : Element :=
  .rule r.kind (.str r.source) r.target r.objectClass r.attributes

/-- The object of a token. -/
def Token.element : Token → Option Element
  | .rule r => some r.element
  | .plain e => e

/-- What the optimizer takes an object for.  A rule whose source is a list cannot be hashed. -/
def toToken? : Option Element → Option Token
  | some (.rule kind (.str source) target objectClass attributes) =>
    some (.rule ⟨kind, source, target, objectClass, attributes⟩)
  | some (.rule _ (.list ..) _ _ _) => none
  | e => some (.plain e)

/-- The object the parser makes of a statement. -/
def Statement.element (order : SetOrder) : Statement → Option Element
  | .rule kind source target classes perms =>
    some (.ofRule order kind (.str source) (.str target) classes perms)
  | .plain e => e

/-- `regeneratePolicy`. -/
def regeneratePolicy (order : SetOrder) (policy : String) (rules permissiveDomains : List String) :
    Option String := do
  let es ← parse order (policy ++ String.join (rules.map (· ++ "\n")))
  let tokens ← es.mapM toToken?
  let tokens' ← optimize order tokens
  toFile order (tokens'.map Token.element) permissiveDomains

/-- A rule that allows a type, which is not an attribute, permissions on one class. -/
structure Rule.IsPlain (types : String → Set String) (r : Rule) : Prop where
  kind : r.kind = .allow
  source : IsIdentifier r.source ∧ (types r.source).Subsingleton
  target : ∃ t, r.target = .str t ∧ IsIdentifier t
  objectClass : ∃ c, r.objectClass = [c] ∧ IsIdentifier c
  attributes : r.attributes ≠ [] ∧ ∀ p ∈ r.attributes, IsIdentifier p

/-- A statement that survives rounds: such a rule, or a statement that is not a rule, can be read
again and needs no roles. -/
inductive Element.IsPlain (types : String → Set String) : Element → Prop
  | rule {r : Rule} (h : r.IsPlain types) : IsPlain types r.element
  | other {e : Element} (hprop : e.IsProper) (hread : e.isReadable = true)
      (hreq : e.isRequirable [] = true) (hp : e.part? ≠ some .rules) : IsPlain types e

section

variable {types : String → Set String} {order : SetOrder} {es es' : List (Option Element)}
  {tokens : List Token} {r : Rule} {e : Element} {a : Access}

/-! ### Plain statements -/

theorem Element.IsPlain.of_element (h : r.element.IsPlain types) :
  r.IsPlain types
  := by
  obtain ⟨kind, source, target, objectClass, attributes⟩ := r
  generalize he : Rule.element _ = e at h
  cases h with
  | @rule r' h =>
    obtain ⟨kind', source', target', objectClass', attributes'⟩ := r'
    cases he
    apply h
  | other hprop hread hreq hp =>
    subst he
    apply absurd rfl hp

theorem readable_of_isIdentifier {names : List String} (h : ∀ p ∈ names, IsIdentifier p) :
  readable names = true
  := by
  have hbeg : ∀ c, isWordStart c = false → names.all (fun s => !begins c s) = true := by
    intro c hc
    apply all_eq_true.mpr
    intro s hs
    obtain ⟨c', cs, hcs, hc'⟩ := (h s hs).exists_cons
    simp only [begins, hcs, List.head?_cons, Option.some.injEq, Bool.not_eq_true',
      decide_eq_false_iff_not]
    rintro rfl
    rw [hc] at hc'
    cases hc'
  rw [readable, hbeg '[' (by decide), hbeg '-' (by decide), Bool.or_true]
  rfl

/-- Plain statements can be written and read again. -/
theorem Element.IsPlain.writable (h : e.IsPlain types) (es : List Element) :
  e.IsProper ∧ e.isReadable = true ∧ e.isRequirable es = true
  := by
  cases h with
  | @rule r h =>
    obtain ⟨hk, ⟨hs, -⟩, ⟨t, ht, ht'⟩, ⟨c, hc, hc'⟩, hne, hall⟩ := h
    have hstar : ¬ IsIdentifier "*" := fun hstar => by cases hstar.1
    rw [Rule.element, hk, ht, hc]
    refine ⟨⟨.str (.identifier hs), fun _ => .str (.identifier ht'), nofun,
      .inl ⟨c, rfl, .identifier hc'⟩, .inr ⟨hne, fun p hp => .inl (.identifier (hall p hp))⟩⟩,
      ?_, ?_⟩
    · rw [Element.isReadable, readable_of_isIdentifier hall,
        readable_of_isIdentifier (forall_mem_singleton.mpr hc')]
      rfl
    · have hns : "*" ∉ [r.source, t] := by
        intro hm
        rcases mem_pair.mp hm with heq | heq
        · rw [← heq] at hs
          apply hstar hs
        · rw [← heq] at ht'
          apply hstar ht'
      simpa [Element.isRequirable, Element.reqTypes, Value.str?, Element.reqRoles] using hns
  | other hprop hread hreq hpart =>
    refine ⟨hprop, hread, ?_⟩
    simp only [Element.isRequirable, Bool.and_eq_true, all_eq_true] at hreq ⊢
    exact ⟨hreq.1, fun x hx => by cases of_decide_eq_true (hreq.2 x hx)⟩

/-- A plain rule stays plain with other attributes, and for `self`. -/
theorem Rule.IsPlain.selfize (h : r.IsPlain types) {attributes : List String}
    (hne : attributes ≠ []) (hall : ∀ p ∈ attributes, IsIdentifier p) :
  ({ r.selfize with attributes := attributes } : Rule).IsPlain types
  := by
  obtain ⟨hk, hsrc, hcls, -⟩ := selfize_fields r
  obtain ⟨t, ht, ht'⟩ := h.target
  refine ⟨hk.trans h.kind, ?_, ?_, ?_, hne, hall⟩
  · rw [hsrc]
    apply h.source
  · simp only [Rule.selfize, ht]
    split_ifs
    · exact ⟨"self", rfl, by decide, by decide⟩
    · exact ⟨t, ht, ht'⟩
  · rw [hcls]
    apply h.objectClass

/-! ### The tokens of plain statements -/

/-- The object of a token is the one it was taken from. -/
theorem element_of_toToken? {o : Option Element} {t : Token} (h : toToken? o = some t) :
  t.element = o
  := by
  unfold toToken? at h
  split at h <;> cases h <;> rfl

/-- The tokens of plain statements. -/
structure PlainTokens (types : String → Set String) (tokens : List Token) : Prop where
  rule : ∀ r, .rule r ∈ tokens → r.IsPlain types
  plain : ∀ o, .plain o ∈ tokens → toToken? o = some (.plain o) ∧ ∀ e ∈ o, e.IsPlain types

theorem rule_mem_iff (h : es.mapM toToken? = some tokens) :
  .rule r ∈ tokens ↔ r.element ∈ es.reduceOption
  := by
  rw [List.mem_of_mapM_eq_some h, reduceOption_mem_iff]
  constructor
  · rintro ⟨o, ho, hr⟩
    rwa [← element_of_toToken? hr] at ho
  · intro hr
    exact ⟨_, hr, rfl⟩

/-- Plain statements are taken for plain tokens. -/
theorem exists_plainTokens (h : ∀ e ∈ es.reduceOption, e.IsPlain types) :
  ∃ tokens, es.mapM toToken? = some tokens ∧ PlainTokens types tokens
  := by
  have hs : ∀ o ∈ es, (toToken? o).isSome := by
    intro o ho
    unfold toToken?
    split
    · rfl
    · have hreq := ((h _ (reduceOption_mem_iff.mpr ho)).writable []).2.2
      simp [Element.isRequirable, Element.reqTypes, Value.str?] at hreq
    · rfl
  obtain ⟨tokens, htok⟩ := Option.isSome_iff_exists.mp (List.isSome_mapM_iff.mpr hs)
  refine ⟨tokens, htok, ?_, ?_⟩
  · intro r hr
    apply (h _ ((rule_mem_iff htok).mp hr)).of_element
  · intro o ht
    obtain ⟨o', ho, hto⟩ := (List.mem_of_mapM_eq_some htok _).mp ht
    obtain rfl := element_of_toToken? hto
    use hto
    rintro e rfl
    apply h e (reduceOption_mem_iff.mpr ho)

section

variable (h : PlainTokens types tokens)

include h

/-- There are no definitions among the tokens of plain statements. -/
theorem PlainTokens.permSets_eq :
  permSets tokens = []
  := by
  apply filterMap_eq_nil_iff.mpr
  intro t ht
  unfold Token.permSet?
  split
  · cases (((h.plain _ ht).2 _ rfl).writable []).2.1
  · rfl

/-- The objects of plain tokens are taken for the tokens again. -/
theorem PlainTokens.mapM_element :
  (tokens.map Token.element).mapM toToken? = some tokens
  := by
  rw [List.mapM_eq_some_iff, map_map]
  apply map_congr_left
  rintro (r | o) ht
  · rfl
  · apply (h.plain o ht).1

theorem PlainTokens.isPlain :
  ∀ e ∈ (tokens.map Token.element).reduceOption, e.IsPlain types
  := by
  intro e he
  obtain ⟨r | o, ht, hte⟩ := mem_map.mp (reduceOption_mem_iff.mp he)
  · cases hte
    apply Element.IsPlain.rule (h.rule r ht)
  · apply (h.plain o ht).2 e hte

/-- The rules among plain statements can be merged. -/
theorem PlainTokens.mergeable :
  Mergeable types tokens
  := by
  have hproc : Processable tokens := by
    constructor
    · intro r hr
      obtain ⟨t, ht, -⟩ := (h.rule r hr).target
      rw [ht]
      rfl
    · intro name types hrole v hv
      have hread := (((h.plain _ hrole).2 _ rfl).writable []).2.1
      apply all_eq_true.mp hread v hv
  refine ⟨hproc, ?_, ?_, ?_, ?_⟩
  · intro r r' hr hr' hkey
    obtain ⟨c, hc, -⟩ := (h.rule r hr).objectClass
    obtain ⟨c', hc', -⟩ := (h.rule r' hr').objectClass
    obtain ⟨k, hk⟩ := hproc.exists_key hr
    obtain ⟨_, -, hkc⟩ := Option.map_eq_some_iff.mp hk
    obtain ⟨_, -, hkc'⟩ := Option.map_eq_some_iff.mp (hkey.symm.trans hk)
    have hcls := congrArg (fun k : Key => k.2.2) (hkc.trans hkc'.symm)
    rw [(selfize_fields r).2.2.1, (selfize_fields r').2.2.1, hc, hc'] at hcls
    obtain rfl : c = c' := hcls
    rw [(h.rule r hr).kind, (h.rule r' hr').kind, hc, hc']
    exact ⟨Iff.rfl, fun _ => Iff.rfl, fun _ => rfl⟩
  · intro r hr _
    rw [(h.rule r hr).kind]
    exact ⟨by decide, fun _ => (h.rule r hr).source.2⟩
  · intro r hr haudit
    rw [(h.rule r hr).kind] at haudit
    cases haudit
  · intro r _ d hd
    rw [h.permSets_eq] at hd
    cases hd

/-- The passes leave the tokens of plain statements. -/
theorem PlainTokens.of_perm {tokens' : List Token}
    (hperm : tokens'.Perm (factorizeRuleAttributes order (merged tokens))) :
  PlainTokens types tokens'
  := by
  constructor
  · intro r hr
    rw [hperm.mem_iff] at hr
    obtain ⟨y, hy, rfl⟩ := rule_mem_map_mapRule.mp hr
    obtain ⟨r, hr, hfld, hgp⟩ := exists_group h.mergeable.processable hy
    have hm : ∀ p, p ∈ factorizeAttributes order (permSets (merged tokens)) y.attributes ↔
        p ∈ groupAttributes tokens r := by
      intro p
      have hn := mem_permSets_of_perm (List.Perm.of_eq (plains_merged tokens))
      rw [mem_factorizeAttributes, reduced_congr hn, h.permSets_eq, hgp]
      simp [reduced]
    generalize factorizeAttributes _ _ _ = attributes at hm ⊢
    rw [hfld]
    apply (h.rule r hr).selfize
    · obtain ⟨p, hp⟩ := exists_mem_of_ne_nil _ (h.rule r hr).attributes.1
      apply ne_nil_of_mem ((hm p).mpr ⟨r, hr, rfl, hp⟩)
    · intro p hp
      obtain ⟨r', hr', -, hp⟩ := (hm p).mp hp
      apply (h.rule r' hr').attributes.2 p hp
  · intro o ho
    rw [hperm.mem_iff, ← mem_plains, plains_factorizeRuleAttributes, plains_merged,
      mem_plains] at ho
    apply h.plain o ho

end

/-! ### What is read again -/

/-- What statements mean that define no permission sets. -/
def Means (types : String → Set String) (es : List Element) (a : Access) : Prop :=
  ∃ r : Rule, r.element ∈ es ∧ Denotes types [] r a

/-- What the statements mean is what the tokens denote. -/
theorem means_iff_denoted (htok : es.mapM toToken? = some tokens) (hdefs : permSets tokens = []) :
  Means types es.reduceOption a ↔ Denoted types tokens a
  := by
  simp only [Means, Denoted, rule_mem_iff htok, hdefs]

theorem means_append {es es' : List Element} :
  Means types (es ++ es') a ↔ Means types es a ∨ Means types es' a
  := by
  simp only [Means, mem_append, or_and_right, exists_or]

theorem Element.Same.symm {e' : Element} (h : e.Same e') :
  e'.Same e
  := by
  cases h with
  | rule hcls hatt => exact .rule hcls.symm hatt.symm
  | typeRule hcls => exact .typeRule hcls.symm
  | refl => exact .refl e

/-- A rule is read again as one with the same classes and attributes. -/
theorem Element.Same.exists_rule {e' : Element} (h : r.element.Same e') :
  ∃ r' : Rule, e' = r'.element ∧ (r.IsPlain types → r'.IsPlain types) ∧
    ∀ a, Denotes types [] r a → Denotes types [] r' a
  := by
  obtain ⟨kind, source, target, objectClass, attributes⟩ := r
  cases h with
  | @rule _ _ _ _ objectClass' _ attributes' hcls hatt =>
    refine ⟨⟨kind, source, target, objectClass', attributes'⟩, rfl, ?_, ?_⟩
    · rintro ⟨hk, hsrc, htgt, ⟨c, rfl, hc⟩, hne, hall⟩
      refine ⟨hk, hsrc, htgt, ⟨c, hcls.singleton_eq.symm, hc⟩, ?_, ?_⟩
      · rintro rfl
        apply hne hatt.eq_nil
      · intro p hp
        apply hall p (hatt.mem_iff.mpr hp)
    · intro a hden
      unfold Denotes DenotesWith Rule.targets Rule.classesWith Rule.permsWith at hden ⊢
      cases kind <;> simpa only [hcls.mem_iff, hatt.mem_iff] using hden
  | refl => exact ⟨_, rfl, id, fun _ => id⟩

/-- A statement that is the same as a plain one is plain. -/
theorem Element.Same.isPlain {e' : Element} (h : e.Same e') (hpl : e.IsPlain types) :
  e'.IsPlain types
  := by
  cases hpl with
  | rule hr =>
    obtain ⟨r', rfl, hkp, -⟩ := h.exists_rule
    apply Element.IsPlain.rule (hkp hr)
  | other hprop hread hreq hp =>
    cases h with
    | rule => apply absurd rfl hp
    | typeRule => apply absurd rfl hp
    | refl => exact .other hprop hread hreq hp

/-- Statements and those they are read as. -/
theorem SameStatements.exists_mem {es es' : List Element} (h : SameStatements es es') :
  (∀ e ∈ es, ∃ e' ∈ es', e.Same e') ∧ ∀ e' ∈ es', ∃ e ∈ es, e.Same e'
  := by
  obtain ⟨l, hp, hsame⟩ := h
  simp only [hp.mem_iff]
  clear hp
  induction hsame with
  | nil => simp
  | cons hes _ ih =>
    simp only [forall_mem_cons, exists_mem_cons_iff]
    exact ⟨⟨.inl hes, fun e he => .inr (ih.1 e he)⟩, .inl hes, fun e he => .inr (ih.2 e he)⟩

/-- The same statements have the same meaning. -/
theorem SameStatements.means_iff {es es' : List Element} (h : SameStatements es es') :
  Means types es a ↔ Means types es' a
  := by
  constructor
  · rintro ⟨r, hr, hden⟩
    obtain ⟨e', he', hsame⟩ := h.exists_mem.1 _ hr
    obtain ⟨r', rfl, -, hdenotes⟩ := hsame.exists_rule
    exact ⟨r', he', hdenotes a hden⟩
  · rintro ⟨r, hr, hden⟩
    obtain ⟨e, he, hsame⟩ := h.exists_mem.2 _ hr
    obtain ⟨r', rfl, -, hdenotes⟩ := hsame.symm.exists_rule
    exact ⟨r', he, hdenotes a hden⟩

/-! ### The run -/

theorem toToken?_element {s : Statement} (h : s.isAllow) :
  toToken? (s.element order) = some (s.token order)
  := by
  rcases s with ⟨_ | _ | _ | _, source, target, classes, perms⟩ | o
  · rfl
  all_goals cases h

/-- A round leaves a file of plain statements, which means what the file and the rules meant. -/
theorem exists_round {policy : String} {rules : List String}
    (hpolicy : Chunk order policy.toList es)
    (hrs : Chunk order (String.join (rules.map (· ++ "\n"))).toList es')
    (h : ∀ e ∈ es.reduceOption, e.IsPlain types) (h' : ∀ e ∈ es'.reduceOption, e.IsPlain types) :
  ∃ text es'', regeneratePolicy order policy rules [] = some text ∧
    Chunk order text.toList es'' ∧ (∀ e ∈ es''.reduceOption, e.IsPlain types) ∧
    ∀ a, Means types es''.reduceOption a ↔
      Means types es.reduceOption a ∨ Means types es'.reduceOption a
  := by
  have hck := hpolicy.append hrs
  rw [← String.toList_append] at hck
  obtain ⟨parsed, hpar, hreduce⟩ := hck.parse
  rw [reduceOption_append] at hreduce
  have hparsed : ∀ e ∈ parsed.reduceOption, e.IsPlain types := by
    rw [hreduce]
    apply forall_mem_append.mpr ⟨h, h'⟩
  obtain ⟨tokens, htok, hpl⟩ := exists_plainTokens hparsed
  obtain ⟨tokens', hopt, hp⟩ := optimize_perm order hpl.mergeable.processable
  obtain ⟨_, hopt', hden, -⟩ := hpl.mergeable.preserves order
  cases hopt.symm.trans hopt'
  have hpl' := hpl.of_perm hp
  have hwr : ∀ e ∈ (tokens'.map Token.element).reduceOption, e.IsProper ∧
      e.isReadable = true ∧ e.isRequirable (tokens'.map Token.element).reduceOption = true :=
    fun e he => (hpl'.isPlain e he).writable _
  obtain ⟨text, es'', hf, hread, hsame⟩ := @exists_chunk_toFile order order _
    (fun e he => (hwr e he).1) (fun e he => (hwr e he).2.1)
    (fun e he => (hwr e he).2.2)
  refine ⟨text, es'', ?_, hread, ?_, ?_⟩
  · simp only [regeneratePolicy, hpar, Option.bind_eq_bind, Option.bind_some, htok, hopt, hf]
  · intro e' he'
    obtain ⟨e, he, hesame⟩ := hsame.exists_mem.2 e' he'
    apply hesame.isPlain (hpl'.isPlain e he)
  · intro a
    rw [← hsame.means_iff, means_iff_denoted hpl'.mapM_element hpl'.permSets_eq, hden,
      ← means_iff_denoted htok hpl.permSets_eq, hreduce, means_append]

/-- After any number of rounds the file can be read, and means what it meant at first, with what
the rules mean that were added. -/
theorem exists_regenerated {policy : String} {batches : List (List String × List Statement)}
    (hpolicy : Chunk order policy.toList es) (h : ∀ e ∈ es.reduceOption, e.IsPlain types)
    (hbatches : ∀ b ∈ batches, (∀ s ∈ b.2, s.isAllow) ∧
      Chunk order (String.join (b.1.map (· ++ "\n"))).toList (b.2.map (Statement.element order)) ∧
      ∀ e ∈ (b.2.map (Statement.element order)).reduceOption, e.IsPlain types) :
  ∃ text es', batches.foldlM (fun policy b => regeneratePolicy order policy b.1 []) policy =
      some text ∧
    Chunk order text.toList es' ∧ (∀ e ∈ es'.reduceOption, e.IsPlain types) ∧
    ∀ a, Means types es'.reduceOption a ↔
      Means types es.reduceOption a ∨ ∃ b ∈ batches, Denoted types (tokensOf order b.2) a
  := by
  induction batches generalizing policy es with
  | nil =>
    refine ⟨policy, es, rfl, hpolicy, h, ?_⟩
    simp
  | cons b batches ih =>
    obtain ⟨⟨hallow, hrs, hpl⟩, hbatches⟩ := forall_mem_cons.mp hbatches
    obtain ⟨text, es', hround, hread, h, hmeans⟩ := exists_round hpolicy hrs h hpl
    obtain ⟨text', es'', hrun, hread', h', hmeans'⟩ := ih hread h hbatches
    refine ⟨text', es'', ?_, hread', h', ?_⟩
    · rw [foldlM_cons, hround]
      apply hrun
    · have htok : (b.2.map (Statement.element order)).mapM toToken? =
          some (tokensOf order b.2) := by
        rw [List.mapM_eq_some_iff, tokensOf, map_map, map_map]
        apply map_congr_left
        intro s hs
        apply toToken?_element (hallow s hs)
      intro a
      rw [hmeans', hmeans, means_iff_denoted htok (permSets_tokensOf order hallow),
        exists_mem_cons_iff, or_assoc]

end

end Selaudit

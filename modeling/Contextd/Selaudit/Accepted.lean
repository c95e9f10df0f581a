import Mathlib.Data.List.ReduceOption
import Contextd.Selaudit.Grammar

/-!
# What is accepted

The tokens of the scanner are proper, so the names in the statements of a policy that is accepted
are made of identifiers: this is what the elements for the statements have in common, and what the
writer can rely on.
-/

namespace Selaudit

open List

variable {v : Value} {l : List Lexeme} {α : Type}

/-! ### Names -/

/-- What the elements of a list in braces are: identifiers, with or without a minus. -/
inductive IsElement : String → Prop
  | identifier {s : String} (h : IsIdentifier s) : IsElement s
  | minus {s : String} (h : IsIdentifier s) : IsElement ("-" ++ s)

/-- What names other than lists are. -/
inductive IsName : String → Prop
  | identifier {s : String} (h : IsIdentifier s) : IsName s
  | asterisk : IsName "*"
  | difference {s s' : String} (h : IsIdentifier s) (h' : IsIdentifier s') :
      IsName (s ++ " -" ++ s')

/-- What the values in a list are: the first value of a list is not a list. -/
inductive IsNested : Value → Prop
  | str {s : String} (h : IsElement s) : IsNested (.str s)
  | list {s : String} {tail : List Value} (h : IsElement s) (ht : ∀ v ∈ tail, IsNested v) :
      IsNested (.list (.str s) tail)

/-- What names are. -/
inductive IsNames : Value → Prop
  | str {s : String} (h : IsName s) : IsNames (.str s)
  | list {s : String} {tail : List Value} (h : IsElement s) (ht : ∀ v ∈ tail, IsNested v) :
      IsNames (.list (.str s) tail)

/-- The text of a list that is printed begins with a bracket and a quote. -/
def IsPrinted (s : String) : Prop := ∃ cs, s.toList = '[' :: '\'' :: cs

/-- What the names of a class or of permissions are: one name, or elements of a list, among which
there may be lists as they are printed. -/
def ProperNames (l : List String) : Prop :=
  (∃ s, l = [s] ∧ IsName s) ∨ (l ≠ [] ∧ ∀ s ∈ l, IsElement s ∨ IsPrinted s)

/-- What is printed for a nested value is an element, or a printed list. -/
theorem IsNested.format (h : IsNested v) :
  IsElement v.format ∨ IsPrinted v.format
  := by
  cases h with
  | str h => exact .inl h
  | list h ht =>
    right
    simp [IsPrinted, Value.format, Value.repr]

/-- The names of a value are proper. -/
theorem IsNames.properNames (h : IsNames v) :
  ProperNames v.names
  := by
  cases h with
  | str h => exact .inl ⟨_, rfl, h⟩
  | @list s tail h htail =>
    right
    refine ⟨by simp [Value.names, Value.elements], ?_⟩
    intro t ht
    obtain ⟨w, hw, rfl⟩ := mem_map.mp ht
    rcases mem_cons.mp hw with rfl | hw
    · exact .inl h
    · apply (htail w hw).format

theorem ProperNames.perm {l l' : List String} (h : ProperNames l) (hp : l.Perm l') :
  ProperNames l'
  := by
  rcases h with ⟨s, rfl, hs⟩ | ⟨hne, hall⟩
  · obtain rfl := hp.singleton_eq
    exact .inl ⟨s, rfl, hs⟩
  · right
    constructor
    · rintro rfl
      apply hne hp.eq_nil
    · intro s hs
      apply hall s (hp.mem_iff.mpr hs)

/-- So are they in any order. -/
theorem IsNames.order (h : IsNames v) (order : SetOrder) :
  ProperNames (order.list v.names)
  := h.properNames.perm (order.perm _).symm

/-- What the parameters of a call are. -/
def IsInput (s : String) : Prop := IsIdentifier s ∨ s = "true" ∨ s = "false"

/-- What the elements for the statements of a policy are. -/
def Element.IsProper : Element → Prop
  | .moduleHeader name version => IsIdentifier name ∧ isNumber version.toList = true
  | .policyModule name version => IsIdentifier name ∧ isNumber version.toList = true
  | .typeDef name aliases attributes =>
    IsIdentifier name ∧ (∀ v ∈ aliases, IsNames v) ∧ ∀ v ∈ attributes, IsNested v
  | .roleDef name types => IsIdentifier name ∧ ∀ v ∈ types, IsNested v
  | .permissive domains => ∀ v ∈ domains, IsNested v
  | .rule kind source target objectClass attributes =>
    IsNames source ∧ (kind ≠ .dontaudit → IsNames target) ∧
      (kind = .dontaudit → target.str? = none) ∧ ProperNames objectClass ∧ ProperNames attributes
  | .typeRule _ source target objectClass destination =>
    IsNames source ∧ IsNames target ∧ ProperNames objectClass ∧ IsIdentifier destination
  | .interfaceCall name inputs =>
    IsIdentifier name ∧ (inputs = [")"] ∨ inputs ≠ [] ∧ ∀ i ∈ inputs, IsInput i)
  | _ => True

/-! ### What the parser returns -/

/-- All tokens are proper. -/
def Proper (l : List Lexeme) : Prop := ∀ e ∈ l, e.IsProper

theorem Proper.tail {e : Lexeme} (h : Proper (e :: l)) :
  Proper l
  := fun e' he' => h e' (mem_cons_of_mem e he')

theorem Proper.head {s : String} (h : Proper (.identifier s :: l)) :
  IsIdentifier s
  := h _ mem_cons_self

/-- What is returned, if anything is, has the property. -/
structure Yields {α : Type} (P : α → Prop) (o : Option α) : Prop where
  returned : ∀ x, o = some x → P x

theorem yields_some {P : α → Prop} {x : α} (h : P x) :
  Yields P (some x)
  := by
  constructor
  rintro y ⟨⟩
  apply h

theorem yields_none {P : α → Prop} :
  Yields P none
  := ⟨nofun⟩

/-- What is yielded in two steps. -/
theorem Yields.bind {β : Type} {P : α → Prop} {Q : β → Prop} {o : Option α} {f : α → Option β}
    (h : Yields P o) (hf : ∀ x, P x → Yields Q (f x)) :
  Yields Q (o.bind f)
  := by
  constructor
  intro y hy
  obtain ⟨x, hx, hy⟩ := Option.bind_eq_some_iff.mp hy
  apply (hf x (h.returned x hx)).returned y hy

theorem Yields.map {β : Type} {P : α → Prop} {Q : β → Prop} {o : Option α} {f : α → β}
    (h : Yields P o) (hf : ∀ x, P x → Q (f x)) :
  Yields Q (o.map f)
  := by
  constructor
  intro y hy
  obtain ⟨x, hx, rfl⟩ := Option.map_eq_some_iff.mp hy
  apply hf x (h.returned x hx)

/-- What a part of the grammar returns has the property, and what is left is proper again. -/
def Leaves {α : Type} (P : α → Prop) (x : α × List Lexeme) : Prop := P x.1 ∧ Proper x.2

section

variable {l : List Lexeme} (hl : Proper l)

include hl

theorem yields_expect (e : Lexeme) :
  Yields Proper (expect e l)
  := by
  cases l with
  | nil => apply yields_none
  | cons e' l =>
    rw [expect]
    split_ifs
    · apply yields_some hl.tail
    · apply yields_none

theorem yields_identifier :
  Yields (Leaves IsIdentifier) (identifier l)
  := by
  unfold identifier
  split
  · apply yields_some ⟨hl.head, hl.tail⟩
  · apply yields_none

theorem yields_number :
  Yields (Leaves fun s => isNumber s.toList = true) (number l)
  := by
  unfold number
  split
  · apply yields_some ⟨hl _ mem_cons_self, hl.tail⟩
  · apply yields_none

end

/-- A list of names: its first element is not a list. -/
def IsGroup (v : Value) : Prop :=
  ∃ s tail, v = .list (.str s) tail ∧ IsElement s ∧ ∀ w ∈ tail, IsNested w

theorem IsNested.group {vs : List Value} (h : IsNested v) (hvs : ∀ w ∈ vs, IsNested w) :
  IsGroup (v.group vs)
  := by
  cases h with
  | str h => exact ⟨_, _, rfl, h, hvs⟩
  | list h ht => exact ⟨_, _, rfl, h, forall_mem_append.mpr ⟨ht, hvs⟩⟩

theorem IsGroup.isNested (h : IsGroup v) :
  IsNested v
  := by
  obtain ⟨s, tail, rfl, hs, ht⟩ := h
  exact .list hs ht

theorem IsGroup.elements (h : IsGroup v) :
  ∀ w ∈ v.elements, IsNested w
  := by
  obtain ⟨s, tail, rfl, hs, ht⟩ := h
  apply forall_mem_cons.mpr ⟨.str hs, ht⟩

/-- The elements of lists: the induction is on the bound, which goes down with every element. -/
theorem yields_nestedElements (n : ℕ) (hl : Proper l) :
  Yields (Leaves fun vs => ∀ v ∈ vs, IsNested v) (nestedElements n l)
  := by
  induction n generalizing l with
  | zero =>
    rw [nestedElements]
    apply yields_none
  | succ n ih =>
    have hcons : ∀ {v : Value} {l : List Lexeme}, IsNested v → Proper l →
        Yields (Leaves fun vs => ∀ v ∈ vs, IsNested v)
          ((nestedElements n l).map fun x => (v :: x.1, x.2)) := by
      intro v l hv hl
      apply (ih hl).map
      rintro ⟨vs, l⟩ ⟨hvs, hl⟩
      exact ⟨forall_mem_cons.mpr ⟨hv, hvs⟩, hl⟩
    unfold nestedElements
    split
    next heq =>
      cases heq
      apply hcons (.str (.identifier hl.head)) hl.tail
    next heq =>
      cases heq
      apply hcons (.str (.minus hl.tail.head)) hl.tail.tail
    next heq =>
      cases heq
      split
      next hbraces =>
        obtain ⟨hvs, hr⟩ := (ih hl.tail).returned _ hbraces
        obtain ⟨hv, hvs⟩ := forall_mem_cons.mp hvs
        apply hcons (hv.group hvs).isNested hr.tail
      next => apply yields_none
    next => apply yields_some ⟨by simp, hl⟩
    next heq => cases heq

section

variable {l : List Lexeme} (hl : Proper l)

include hl

/-- The parser of a list yields a group. -/
theorem yields_nestedIdList :
  Yields (Leaves IsGroup) (nestedIdList l)
  := by
  unfold nestedIdList
  split
  next hels =>
    obtain ⟨hvs, hr⟩ := (yields_nestedElements _ hl).returned _ hels
    obtain ⟨hv, hvs⟩ := forall_mem_cons.mp hvs
    apply yields_some ⟨hv.group hvs, hr⟩
  next => apply yields_none

/-- So does that of a set. -/
theorem yields_nestedIdSet :
  Yields (Leaves IsGroup) (nestedIdSet l)
  := by
  apply (yields_expect hl _).bind
  intro l hl
  apply (yields_nestedIdList hl).bind
  rintro ⟨v, l⟩ ⟨hv, hl⟩
  apply (yields_expect hl _).bind
  intro l hl
  apply yields_some ⟨hv, hl⟩

/-- The parser of names yields names. -/
theorem yields_names :
  Yields (Leaves IsNames) (names l)
  := by
  have hset : ∀ {l : List Lexeme}, Proper l → Yields (Leaves IsNames) (nestedIdSet l) := by
    intro l hl
    constructor
    rintro ⟨v, l⟩ hx
    obtain ⟨⟨s, tail, rfl, hs, ht⟩, hr⟩ := (yields_nestedIdSet hl).returned _ hx
    exact ⟨.list hs ht, hr⟩
  unfold names
  split
  · apply yields_some ⟨.str (.difference hl.head hl.tail.tail.head), hl.tail.tail.tail⟩
  · apply yields_some ⟨.str (.identifier hl.head), hl.tail⟩
  · apply yields_some ⟨.str .asterisk, hl.tail⟩
  · apply yields_some ⟨.str (.identifier hl.tail.head), hl.tail.tail⟩
  · apply hset hl.tail
  · apply hset hl

end

theorem yields_commaLists (n : ℕ) (hl : Proper l) :
  Yields (Leaves fun vs => ∀ v ∈ vs, IsNested v) (commaLists n l)
  := by
  induction n generalizing l with
  | zero =>
    rw [commaLists]
    apply yields_none
  | succ n ih =>
    unfold commaLists
    split
    next hlist =>
      obtain ⟨hv, hr⟩ := (yields_nestedIdList hl).returned _ hlist
      apply (ih hr.tail).map
      rintro ⟨vs, l⟩ ⟨hvs, hl⟩
      exact ⟨forall_mem_append.mpr ⟨hv.elements, hvs⟩, hl⟩
    next hlist =>
      obtain ⟨hv, hr⟩ := (yields_nestedIdList hl).returned _ hlist
      apply yields_some ⟨hv.elements, hr⟩
    next => apply yields_none

/-- The parameters of a call that are not lists. -/
theorem yields_callParam (hl : Proper l) :
  Yields (Leaves fun v => ∀ s, v = .str s → IsInput s) (callParam l)
  := by
  unfold callParam
  split
  · apply yields_some ⟨by simp, hl.tail.tail.tail⟩
  · apply yields_some ⟨by rintro s ⟨⟩; exact .inl hl.head, hl.tail⟩
  · apply yields_some ⟨by rintro s ⟨⟩; exact .inr (.inl rfl), hl.tail⟩
  · apply yields_some ⟨by rintro s ⟨⟩; exact .inr (.inr rfl), hl.tail⟩
  · constructor
    rintro ⟨v, l⟩ hx
    obtain ⟨⟨s, tail, rfl, -, -⟩, hr⟩ := (yields_nestedIdSet hl).returned _ hx
    exact ⟨by simp, hr⟩

/-- The parameters of a call are inputs, and there are some. -/
theorem yields_callParams (n : ℕ) (hl : Proper l) :
  Yields (Leaves fun vs => vs ≠ [] ∧ ∀ v ∈ vs, ∀ s, v = .str s → IsInput s) (callParams n l)
  := by
  induction n generalizing l with
  | zero =>
    rw [callParams]
    apply yields_none
  | succ n ih =>
    unfold callParams
    split
    next hprm =>
      obtain ⟨hv, hr⟩ := (yields_callParam hl).returned _ hprm
      apply (ih hr.tail).map
      rintro ⟨vs, l⟩ ⟨⟨-, hvs⟩, hl⟩
      exact ⟨⟨by simp, forall_mem_cons.mpr ⟨hv, hvs⟩⟩, hl⟩
    next hprm =>
      obtain ⟨hv, hr⟩ := (yields_callParam hl).returned _ hprm
      apply yields_some ⟨⟨by simp, by simpa using hv⟩, hr⟩
    next => apply yields_none

/-! ### Statements -/

section

variable {l : List Lexeme} (hl : Proper l)

include hl

theorem yields_moduleStatement :
  Yields (Leaves Element.IsProper) (moduleStatement l)
  := by
  apply (yields_identifier hl).bind
  rintro ⟨name, l⟩ ⟨hn, hl⟩
  apply (yields_number hl).bind
  rintro ⟨version, l⟩ ⟨hver, hl⟩
  apply (yields_expect hl _).bind
  intro l hl
  apply yields_some ⟨⟨hn, hver⟩, hl⟩

theorem yields_policyModuleStatement :
  Yields (Leaves Element.IsProper) (policyModuleStatement l)
  := by
  apply (yields_expect hl _).bind
  intro l hl
  apply (yields_identifier hl).bind
  rintro ⟨name, l⟩ ⟨hn, hl⟩
  apply (yields_expect hl _).bind
  intro l hl
  apply (yields_number hl).bind
  rintro ⟨version, l⟩ ⟨hver, hl⟩
  apply (yields_expect hl _).bind
  intro l hl
  apply yields_some ⟨⟨hn, hver⟩, hl⟩

/-- A list with commas, and a semicolon. -/
theorem yields_commaList {f : List Value → Element}
    (hf : ∀ vs, (∀ v ∈ vs, IsNested v) → (f vs).IsProper) :
  Yields (Leaves Element.IsProper) ((commaList l).bind fun x =>
    (expect (.mark .semi) x.2).bind fun l => some (f x.1, l))
  := by
  apply (yields_commaLists _ hl).bind
  rintro ⟨vs, l⟩ ⟨hvs, hl⟩
  apply (yields_expect hl _).bind
  intro l hl
  apply yields_some ⟨hf vs hvs, hl⟩

theorem yields_roleStatement :
  Yields (Leaves Element.IsProper) (roleStatement l)
  := by
  apply (yields_identifier hl).bind
  rintro ⟨name, l⟩ ⟨hn, hl⟩
  dsimp only
  split
  · apply yields_some ⟨⟨hn, by simp⟩, hl.tail⟩
  · exact yields_commaList hl.tail fun types htys => ⟨hn, htys⟩
  · apply yields_none

theorem yields_permissiveStatement :
  Yields (Leaves Element.IsProper) (permissiveStatement l)
  := yields_commaList hl fun _ hdoms => hdoms

theorem yields_typeStatement :
  Yields (Leaves Element.IsProper) (typeStatement l)
  := by
  apply (yields_identifier hl).bind
  rintro ⟨name, l⟩ ⟨hn, hl⟩
  dsimp only
  split
  · exact yields_some ⟨⟨hn, by simp, by simp⟩, hl.tail⟩
  · exact yields_commaList hl.tail fun attributes hatt => ⟨hn, by simp, hatt⟩
  · apply (yields_names hl.tail).bind
    rintro ⟨aliases, l⟩ ⟨haliases, hl⟩
    dsimp only
    split
    · exact yields_some ⟨⟨hn, by simpa using haliases, by simp⟩, hl.tail⟩
    · exact yields_commaList hl.tail fun attributes hatt =>
        ⟨hn, by simpa using haliases, hatt⟩
    · exact yields_none
  · exact yields_none

theorem yields_accessVector :
  Yields (Leaves fun x => IsNames x.1 ∧ IsNames x.2.1 ∧ IsNames x.2.2.1 ∧ IsNames x.2.2.2)
    (accessVector l)
  := by
  apply (yields_names hl).bind
  rintro ⟨source, l⟩ ⟨hsrc, hl⟩
  apply (yields_names hl).bind
  rintro ⟨target, l⟩ ⟨htgt, hl⟩
  apply (yields_expect hl _).bind
  intro l hl
  apply (yields_names hl).bind
  rintro ⟨classes, l⟩ ⟨hcls, hl⟩
  apply (yields_names hl).bind
  rintro ⟨perms, l⟩ ⟨hperms, hl⟩
  apply (yields_expect hl _).bind
  intro l hl
  apply yields_some ⟨⟨hsrc, htgt, hcls, hperms⟩, hl⟩

/-- Type rules are proper. -/
theorem yields_typeRuleStatement (order : SetOrder) (kind : TypeRuleKind) :
  Yields (Leaves Element.IsProper) (typeRuleStatement order kind l)
  := by
  apply (yields_names hl).bind
  rintro ⟨source, l⟩ ⟨hsrc, hl⟩
  apply (yields_names hl).bind
  rintro ⟨target, l⟩ ⟨htgt, hl⟩
  apply (yields_expect hl _).bind
  intro l hl
  apply (yields_names hl).bind
  rintro ⟨classes, l⟩ ⟨hcls, hl⟩
  apply (yields_identifier hl).bind
  rintro ⟨destination, l⟩ ⟨hdest, hl⟩
  apply (yields_expect hl _).bind
  intro l hl
  apply yields_some ⟨⟨hsrc, htgt, hcls.order order, hdest⟩, hl⟩

end

/-- The elements for access rules of every kind. -/
theorem isProper_ofRule (order : SetOrder) (kind : Kind) {source target classes perms : Value}
    (hsrc : IsNames source) (htgt : IsNames target) (hcls : IsNames classes)
    (hperms : IsNames perms) :
  (Element.ofRule order kind source target classes perms).IsProper
  := by
  have hcl := hcls.order order
  have hpe := hperms.order order
  cases kind with
  | allow => exact ⟨hsrc, fun _ => htgt, nofun, hcl, hpe⟩
  | neverallow => exact ⟨hsrc, fun _ => htgt, nofun, hcl, hpe⟩
  | auditallow => exact ⟨hsrc, fun _ => hperms, nofun, htgt.order order, hcl⟩
  | dontaudit =>
    refine ⟨hsrc, fun h => absurd rfl h, fun _ => ?_, hcl, hpe⟩
    cases target <;> rfl

/-- Access rules are proper. -/
theorem yields_ruleStatement (hl : Proper l) (order : SetOrder) (kind : Kind) :
  Yields (Leaves Element.IsProper) (ruleStatement order kind l)
  := by
  apply (yields_accessVector hl).map
  rintro ⟨x, l⟩ ⟨⟨hsrc, htgt, hcls, hperms⟩, hl⟩
  exact ⟨isProper_ofRule order kind hsrc htgt hcls hperms, hl⟩

theorem yields_warning (hl : Proper l) :
  Yields (Leaves fun _ => True) (warning l)
  := by
  unfold warning
  split
  · apply yields_some ⟨trivial, hl.tail.tail.tail.tail.tail⟩
  · apply yields_none

theorem yields_defineStatement (hl : Proper l) :
  Yields (Leaves Element.IsProper) (defineStatement l)
  := by
  unfold defineStatement
  split
  · apply (yields_names hl.tail.tail.tail.tail.tail.tail).bind
    rintro ⟨perms, l⟩ ⟨-, hl⟩
    dsimp only
    split
    · apply yields_some ⟨trivial, hl.tail.tail⟩
    · apply (yields_warning hl.tail).bind
      rintro ⟨text, l⟩ ⟨-, hl⟩
      dsimp only
      split
      · apply yields_some ⟨trivial, hl.tail.tail⟩
      · apply yields_none
    · apply yields_none
  · apply yields_some ⟨trivial, hl.tail.tail.tail.tail.tail⟩
  · apply yields_none

theorem yields_requires (n : ℕ) (hl : Proper l) :
  Yields Proper (requires n l)
  := by
  induction n generalizing l with
  | zero => apply yields_none
  | succ n ih =>
    cases l with
    | nil => apply yields_none
    | cons e l =>
      rw [requires]
      split_ifs
      · apply (yields_commaLists _ hl.tail).bind
        rintro ⟨vs, l⟩ ⟨-, hl⟩
        apply (yields_expect hl _).bind
        intro l hl
        split_ifs
        · apply ih hl
        · apply yields_some hl
      · apply yields_none

/-- A required block leaves proper lexemes. -/
theorem yields_requireStatement (quoted : Bool) (hl : Proper l) :
  Yields Proper (requireStatement quoted l)
  := by
  cases quoted with
  | false =>
    apply (yields_expect hl _).bind
    intro l hl
    apply (yields_requires _ hl).bind
    intro l hl
    apply yields_expect hl _
  | true =>
    simp only [requireStatement, if_true, Option.bind_eq_bind]
    apply (yields_expect hl _).bind
    intro l hl
    apply (yields_expect hl _).bind
    intro l hl
    apply (yields_requires _ hl).bind
    intro l hl
    apply (yields_expect hl _).bind
    intro l hl
    apply yields_expect hl _

theorem mapM_str? {vs : List Value} {inputs : List String} (h : vs.mapM Value.str? = some inputs) :
  vs = inputs.map .str
  := by
  induction vs generalizing inputs with
  | nil =>
    cases h
    rfl
  | cons v vs ih =>
    simp only [mapM_cons, Option.bind_eq_bind, Option.bind_eq_some_iff] at h
    obtain ⟨s, hs, ss, hss, h⟩ := h
    cases h
    cases v with
    | str s' =>
      cases hs
      rw [ih hss, map_cons]
    | list head tail => cases hs

/-- Calls are proper. -/
theorem yields_callStatement (hl : Proper l) {name : String} (hn : IsIdentifier name) :
  Yields (Leaves Element.IsProper) (callStatement name l)
  := by
  unfold callStatement
  split
  · apply yields_some ⟨⟨hn, .inl rfl⟩, hl.tail⟩
  · apply (yields_callParams _ hl).bind
    rintro ⟨params, l⟩ ⟨⟨hne, hparams⟩, hl⟩
    apply (yields_expect hl _).bind
    intro l' hl'
    apply Yields.bind (P := fun inputs : List String => params = inputs.map .str)
      ⟨fun inputs => mapM_str?⟩
    rintro inputs rfl
    have hprop : (Element.interfaceCall name inputs).IsProper := by
      refine ⟨hn, .inr ⟨by simpa using hne, ?_⟩⟩
      intro i hi
      apply hparams (.str i) (mem_map_of_mem hi) i rfl
    split
    · apply yields_some ⟨hprop, hl'.tail⟩
    · apply yields_some ⟨hprop, hl'⟩

/-- Every statement that is accepted is proper. -/
theorem yields_statement (hl : Proper l) (order : SetOrder) :
  Yields (Leaves fun e => ∀ x ∈ e, x.IsProper) (statement order l)
  := by
  have hs : ∀ {o : Option (Element × List Lexeme)}, Yields (Leaves Element.IsProper) o →
      Yields (Leaves fun e => ∀ x ∈ e, x.IsProper)
        (o.map fun x : Element × List Lexeme => (some x.1, x.2)) := by
    intro o ho
    apply ho.map
    rintro ⟨x, l⟩ ⟨hx, hl⟩
    exact ⟨by simpa using hx, hl⟩
  have hreq : ∀ {o : Option (List Lexeme)}, Yields Proper o →
      Yields (Leaves fun e => ∀ x ∈ e, x.IsProper)
        (o.map fun l => ((none : Option Element), l)) := by
    intro o ho
    apply ho.map
    intro l hl
    exact ⟨by simp, hl⟩
  unfold statement
  split
  next k l =>
    cases k
    case policyModule => exact hs (yields_policyModuleStatement hl.tail)
    case moduleWord => exact hs (yields_moduleStatement hl.tail)
    case define => exact hs (yields_defineStatement hl.tail)
    case refpolicywarn =>
      apply hs
      apply (yields_warning hl.tail).map
      rintro ⟨text, l⟩ ⟨-, hl⟩
      exact ⟨trivial, hl⟩
    case genReq => exact hreq (yields_requireStatement true hl.tail)
    case require => exact hreq (yields_requireStatement false hl.tail)
    case role => exact hs (yields_roleStatement hl.tail)
    case permissive => exact hs (yields_permissiveStatement hl.tail)
    case typeWord => exact hs (yields_typeStatement hl.tail)
    case allow => exact hs (yields_ruleStatement hl.tail order .allow)
    case neverallow => exact hs (yields_ruleStatement hl.tail order .neverallow)
    case auditallow => exact hs (yields_ruleStatement hl.tail order .auditallow)
    case dontaudit => exact hs (yields_ruleStatement hl.tail order .dontaudit)
    case typeTransition => exact hs (yields_typeRuleStatement hl.tail order .transition)
    case typeChange => exact hs (yields_typeRuleStatement hl.tail order .change)
    case typeMember => exact hs (yields_typeRuleStatement hl.tail order .member)
    all_goals exact yields_none
  next name l => apply hs (yields_callStatement hl.tail.tail hl.head)
  next => apply yields_none

/-- So are all statements of a policy. -/
theorem yields_statements (n : ℕ) (hl : Proper l) (order : SetOrder) :
  Yields (fun tokens => ∀ e ∈ tokens, ∀ x ∈ e, x.IsProper) (statements order n l)
  := by
  induction n generalizing l with
  | zero =>
    cases l with
    | nil => apply yields_some (by simp)
    | cons => apply yields_none
  | succ n ih =>
    cases l with
    | nil => apply yields_some (by simp)
    | cons =>
      apply (yields_statement hl order).bind
      rintro ⟨e, l⟩ ⟨he, hl⟩
      apply (ih hl).bind
      intro es hes
      apply yields_some (forall_mem_cons.mpr ⟨he, hes⟩)

/-- The elements of an accepted policy are proper. -/
theorem isProper_of_parse {order : SetOrder} {text : String} {tokens : List (Option Element)}
    (h : parse order text = some tokens) :
  ∀ e ∈ tokens.reduceOption, e.IsProper
  := by
  intro e he
  rw [reduceOption_mem_iff] at he
  unfold parse at h
  split at h
  next =>
    cases h
    simp at he
  next => apply (yields_statements _ (scan_isProper 0 [] _) order).returned _ h _ he e rfl

end Selaudit

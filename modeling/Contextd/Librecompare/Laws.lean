import Mathlib.Computability.Language
import Mathlib.Order.CompletePartialOrder
import Contextd.Librecompare.Syntax

/-!
# The languages of expressions

The language of an expression is that of its transitions, one after another: a sub-expression stands
for the first expression it holds, a logical or for all of them (`lang`).  `append` and `prepend`
concatenate languages where one of the expressions is ε, or none is a logical or (`Meets`): of a
logical or in parentheses all but the first alternative are lost, and behind or before another
expression it is replaced or joined.  `operator |=` drops an alternative that is printed like
another one, or as the empty text, so it joins languages if alternatives can be told apart
(`Joinable`).
-/

open Computability

namespace Librecompare

open List

namespace RegExp

variable {ts : List (Transition RegExp)} {es : List RegExp}

/-! ### Languages -/

@[simp]
theorem pattern_mk {pattern : List Char} :
  (mk pattern ts).pattern = pattern
  := rfl

@[simp]
theorem transitions_mk {pattern : List Char} :
  (mk pattern ts).transitions = ts
  := rfl

/-- The words of one byte that a token without expressions reads. -/
def bytesLang (type : TokenType) (data : ByteSet) : Language UInt8 :=
  match type with
  | .normal | .bracket => {w | ∃ b ∈ data, w = [b]}
  | .any => {w | ∃ b, w = [b]}
  | .exclude => {w | ∃ b, b ∉ data ∧ w = [b]}
  | .epsilon => 1
  | _ => 0

mutual

/-- The language of an expression; ø has no words. -/
def lang : RegExp → Language UInt8
  | mk _ [] => 0
  | mk _ (t :: ts) => transitionsLang (t :: ts)

/-- The language of transitions, one after another. -/
def transitionsLang : List (Transition RegExp) → Language UInt8
  | [] => 1
  | t :: ts => transitionLang t * transitionsLang ts

/-- The language of a transition: that of its token under its operator. -/
def transitionLang : Transition RegExp → Language UInt8
  | ⟨type, data, subExprs, op⟩ =>
    op.lang (match type with
      | .subExpr => firstLang subExprs
      | .logicalOr => unionLang subExprs
      | type => bytesLang type data)

/-- The language of the first of the expressions. -/
def firstLang : List RegExp → Language UInt8
  | [] => 0
  | e :: _ => e.lang

/-- The language of all of the expressions. -/
def unionLang : List RegExp → Language UInt8
  | [] => 0
  | e :: es => e.lang + unionLang es

end

theorem lang_eq {e : RegExp} (h : e.isNull = false) :
  e.lang = transitionsLang e.transitions
  := by
  rcases e with ⟨pattern, _ | ⟨t, ts⟩⟩
  · cases h
  · rw [lang, transitions]

theorem lang_mk {pattern : List Char} (h : ts ≠ []) :
  (mk pattern ts).lang = transitionsLang ts
  := by
  rcases ts with _ | ⟨t, ts⟩
  · contradiction
  · rw [lang]

/-- Transitions in sequence have the concatenation as language. -/
theorem transitionsLang_append (ts ts' : List (Transition RegExp)) :
  transitionsLang (ts ++ ts') = transitionsLang ts * transitionsLang ts'
  := by
  induction ts with
  | nil => rw [nil_append, transitionsLang, one_mul]
  | cons t ts ih => rw [cons_append, transitionsLang, transitionsLang, ih, mul_assoc]

theorem transitionsLang_singleton (t : Transition RegExp) :
  transitionsLang [t] = transitionLang t
  := by
  rw [transitionsLang, transitionsLang, mul_one]

theorem mem_unionLang {w : List UInt8} :
  w ∈ unionLang es ↔ ∃ e ∈ es, w ∈ e.lang
  := by
  induction es with
  | nil => simp [unionLang]
  | cons e es ih =>
    rw [unionLang, Language.mem_add, ih]
    simp

/-- The language of a logical or. -/
theorem lang_logicalOr (es : List RegExp) :
  (logicalOr es).lang = unionLang es
  := by
  rw [logicalOr, lang_mk (by simp), transitionsLang_singleton, transitionLang]
  rfl

/-! ### Expressions with a logical or or ε -/

theorem allEpsilon_eq :
  allEpsilon es = es.all isEpsilon
  := by
  induction es with
  | nil => rfl
  | cons e es ih => rw [allEpsilon, all_cons, ih]

/-- The first transition is a logical or. -/
def isOr (e : RegExp) : Bool :=
  match e.transitions with
  | t :: _ => t.type == .logicalOr
  | [] => false

/-- A logical or and ε have no other transition beside them, and no operator. -/
def Alone (e : RegExp) : Prop :=
  ∀ t ∈ e.transitions, t.type = .logicalOr ∨ t.type = .epsilon →
    e.transitions = [t] ∧ t.op = .concat

variable {qt : Qt} {a b e : RegExp}

/-- A logical or is its only transition. -/
theorem Alone.exists_or (h : e.Alone) (hor : e.isOr = true) :
  ∃ data, e.transitions = [⟨.logicalOr, data, e.alternatives, .concat⟩]
  := by
  rcases e with ⟨pattern, _ | ⟨t, ts⟩⟩
  · cases hor
  · have ht : t.type = .logicalOr := by simpa [isOr, transitions] using hor
    obtain ⟨hts, hop⟩ := h t mem_cons_self (.inl ht)
    use t.data
    rw [hts, alternatives, transitions]
    simp only [ht, if_true]
    rw [← ht, ← hop]

/-- A logical or has the union as language. -/
theorem Alone.lang_or (h : e.Alone) (hor : e.isOr = true) :
  e.lang = unionLang e.alternatives
  := by
  obtain ⟨data, htrs⟩ := h.exists_or hor
  have hnull : e.isNull = false := by simp [isNull, htrs]
  rw [lang_eq hnull, htrs, transitionsLang_singleton, transitionLang]
  rfl

theorem alternatives_of_not_isOr (hor : e.isOr = false) :
  e.alternatives = [e]
  := by
  rcases e with ⟨pattern, _ | ⟨t, ts⟩⟩
  · rfl
  · have ht : t.type ≠ .logicalOr := by simpa [isOr, transitions] using hor
    simp [alternatives, transitions, ht]

/-- The alternatives of an expression have its language. -/
theorem Alone.unionLang_alternatives (h : e.Alone) :
  unionLang e.alternatives = e.lang
  := by
  rcases hor : e.isOr with _ | _
  · rw [alternatives_of_not_isOr hor, unionLang, unionLang, add_zero]
  · rw [h.lang_or hor]

/-- An expression that is taken for ε is ε. -/
theorem Alone.lang_of_isEmpty (h : e.Alone) (hnull : e.isNull = false) (hemp : e.isEmpty = true) :
  e.lang = 1
  := by
  rcases e with ⟨pattern, _ | ⟨⟨type, data, subExprs, op⟩, ts⟩⟩
  · cases hnull
  · obtain rfl : type = .epsilon := by simpa [isEmpty, transitions] using hemp
    obtain ⟨hts, hop⟩ := h _ mem_cons_self (.inr rfl)
    obtain rfl : op = .concat := hop
    rw [lang_eq hnull, hts, transitionsLang_singleton, transitionLang]
    · rfl
    · simp
    · simp

/-- The transitions of an expression that is neither ε nor a logical or. -/
theorem Alone.type_ne (h : e.Alone) (hemp : e.isEmpty = false) (hor : e.isOr = false)
    {t : Transition RegExp} (ht : t ∈ e.transitions) :
  t.type ≠ .logicalOr ∧ t.type ≠ .epsilon
  := by
  rw [← not_or]
  intro htype
  obtain ⟨hts, -⟩ := h t ht htype
  rw [isEmpty, hts] at hemp
  rw [isOr, hts] at hor
  rcases htype with htype | htype <;> simp_all

/-! ### `append` and `prepend` -/

/-- No logical or stands where the expressions meet: one of them is ε, or none is a logical or. -/
def Meets (a b : RegExp) : Prop :=
  a.isEmpty = true ∨ b.isEmpty = true ∨ (a.isOr = false ∧ b.isOr = false)

theorem exists_transitions (h : e.isEmpty = false) :
  ∃ t ts, e.transitions = t :: ts
  := by
  rcases e with ⟨pattern, _ | ⟨t, ts⟩⟩
  · cases h
  · exact ⟨t, ts, rfl⟩

/-- An expression ends with a logical or if it starts with one. -/
theorem Alone.getLast?_type (h : e.Alone) {t : Transition RegExp}
    (ht : e.transitions.getLast? = some t) :
  t.type = .logicalOr ↔ e.isOr = true
  := by
  constructor
  · intro htype
    obtain ⟨hts, -⟩ := h t (mem_of_getLast? ht) (.inl htype)
    simp [isOr, hts, htype]
  · intro hor
    obtain ⟨data, hts⟩ := h.exists_or hor
    rw [hts] at ht
    cases ht
    rfl

theorem exists_getLast? (h : e.isEmpty = false) :
  ∃ t, e.transitions.getLast? = some t
  := by
  obtain ⟨t, ts, hts⟩ := exists_transitions h
  exact ⟨_, List.getLast?_eq_some_getLast (by simp [hts])⟩

/-- `append` puts patterns and transitions of expressions that are neither ε nor a logical or one
behind the other. -/
theorem append_eq_mk (ha : a.Alone) (hea : a.isEmpty = false) (heb : b.isEmpty = false)
    (hora : a.isOr = false) (horb : b.isOr = false) :
  a.append qt b = mk (a.pattern ++ b.pattern) (a.transitions ++ b.transitions)
  := by
  obtain ⟨t, ht⟩ := exists_getLast? hea
  obtain ⟨bt, bts, hbts⟩ := exists_transitions heb
  have htype : t.type ≠ .logicalOr := by simp [ha.getLast?_type ht, hora]
  have hbtype : bt.type ≠ .logicalOr := by simpa [isOr, hbts] using horb
  rw [append, hea, heb, ht, hbts]
  simp [htype, hbtype]

/-- `prepend` puts them one behind the other too. -/
theorem prepend_eq_mk (hb : b.Alone) (hea : a.isEmpty = false) (heb : b.isEmpty = false)
    (hora : a.isOr = false) (horb : b.isOr = false) :
  a.prepend qt b = mk (b.pattern ++ a.pattern) (b.transitions ++ a.transitions)
  := by
  obtain ⟨bt, hbt⟩ := exists_getLast? heb
  obtain ⟨t, ts, hts⟩ := exists_transitions hea
  have hbtype : bt.type ≠ .logicalOr := by simp [hb.getLast?_type hbt, horb]
  have ht : t.type ≠ .logicalOr := by simpa [isOr, hts] using hora
  rw [prepend, hea, heb, hbt, hts]
  simp [ht, hbtype]

theorem lang_mk_append {pattern : List Char} (hna : a.isNull = false) (hnb : b.isNull = false) :
  (mk pattern (a.transitions ++ b.transitions)).lang = a.lang * b.lang
  := by
  have hne : a.transitions ≠ [] := by simpa [isNull] using hna
  rw [lang_mk (by simp [hne]), transitionsLang_append, lang_eq hna, lang_eq hnb]

/-- `append` concatenates the languages where no logical or stands. -/
theorem lang_append (ha : a.Alone) (hb : b.Alone) (hna : a.isNull = false)
    (hnb : b.isNull = false) (h : Meets a b) :
  (a.append qt b).lang = a.lang * b.lang
  := by
  by_cases hea : a.isEmpty = true
  · have happ : a.append qt b = b := by simp [append, hea, hnb]
    rw [happ, ha.lang_of_isEmpty hna hea, one_mul]
  by_cases heb : b.isEmpty = true
  · have happ : a.append qt b = a := by simp [append, hea, heb]
    rw [happ, hb.lang_of_isEmpty hnb heb, mul_one]
  obtain ⟨hora, horb⟩ := (h.resolve_left hea).resolve_left heb
  rw [append_eq_mk ha (by simpa using hea) (by simpa using heb) hora horb, lang_mk_append hna hnb]

/-- `prepend` concatenates the languages where no logical or stands. -/
theorem lang_prepend (ha : a.Alone) (hb : b.Alone) (hna : a.isNull = false)
    (hnb : b.isNull = false) (h : Meets a b) :
  (a.prepend qt b).lang = b.lang * a.lang
  := by
  by_cases hea : a.isEmpty = true
  · have hpre : a.prepend qt b = b := by simp [prepend, hea, hnb]
    rw [hpre, ha.lang_of_isEmpty hna hea, mul_one]
  by_cases heb : b.isEmpty = true
  · have hpre : a.prepend qt b = a := by simp [prepend, hea, heb]
    rw [hpre, hb.lang_of_isEmpty hnb heb, one_mul]
  obtain ⟨hora, horb⟩ := (h.resolve_left hea).resolve_left heb
  rw [prepend_eq_mk hb (by simpa using hea) (by simpa using heb) hora horb, lang_mk_append hnb hna]

/-! ### `operator |=` -/

/-- The expressions can be told apart by what they print: none prints as the empty text, and those
that print alike have the same language. -/
def ToldApart (es : List RegExp) : Prop :=
  ∀ e ∈ es, e.pattern ≠ [] ∧ ∀ e' ∈ es, e.pattern = e'.pattern → e.lang = e'.lang

/-- Expressions printed differently can be told apart. -/
theorem toldApart_of_nodup (h : ([] :: es.map pattern).Nodup) :
  ToldApart es
  := by
  obtain ⟨hnil, hnd⟩ := nodup_cons.mp h
  intro e he
  constructor
  · intro hemp
    apply hnil
    rw [← hemp]
    apply mem_map_of_mem he
  · intro e' he' heq
    rw [inj_on_of_nodup_map hnd he he' heq]

/-- `removeDuplicates` only removes. -/
theorem removeDuplicates_sublist (prevPattern : List Char) (es : List RegExp) :
  (removeDuplicates prevPattern es).Sublist es
  := by
  induction es generalizing prevPattern with
  | nil => apply List.Sublist.refl
  | cons e es ih =>
    rw [removeDuplicates]
    split_ifs
    · apply (ih _).cons
    · apply (ih _).cons_cons

/-- What is removed as a duplicate is printed like something that is kept. -/
theorem exists_mem_removeDuplicates (he : e ∈ es) (prevPattern : List Char) :
  e.pattern = prevPattern ∨ ∃ e' ∈ removeDuplicates prevPattern es, e'.pattern = e.pattern
  := by
  induction es generalizing prevPattern with
  | nil => cases he
  | cons d es ih =>
    rw [removeDuplicates]
    by_cases hd : d.pattern = prevPattern
    · rw [if_pos hd]
      rcases mem_cons.mp he with rfl | he
      · exact .inl hd
      · apply ih he
    · rw [if_neg hd]
      right
      rcases mem_cons.mp he with rfl | he
      · exact ⟨e, by simp, rfl⟩
      · rcases ih he d.pattern with heq | ⟨e', he', heq⟩
        · use d, by simp, heq.symm
        · use e', mem_cons_of_mem _ he', heq

/-- The alternatives `operator |=` is left with are alternatives of the operands, and no word is
lost if these can be told apart. -/
theorem ToldApart.unionLang_eq (hsort : ∀ es, (qt.qSort es).Perm es) (h : ToldApart es) :
  unionLang (removeDuplicates [] (qt.qSort es)) = unionLang es
  := by
  have hm : ∀ e ∈ removeDuplicates [] (qt.qSort es), e ∈ es :=
    fun e he => (hsort es).mem_iff.mp ((removeDuplicates_sublist _ _).subset he)
  ext w
  rw [mem_unionLang, mem_unionLang]
  constructor
  · rintro ⟨e, he, hw⟩
    use e, hm e he, hw
  · rintro ⟨e, he, hw⟩
    obtain ⟨hne, hsame⟩ := h e he
    rcases exists_mem_removeDuplicates ((hsort es).mem_iff.mpr he) [] with heq | ⟨e', he', heq⟩
    · contradiction
    · refine ⟨e', he', ?_⟩
      rwa [← hsame e' (hm e' he') heq.symm]

/-- The alternatives of both have the union as language. -/
theorem unionLang_alternatives_append (ha : a.Alone) (hb : b.Alone) :
  unionLang (a.alternatives ++ b.alternatives) = a.lang + b.lang
  := by
  rw [← ha.unionLang_alternatives, ← hb.unionLang_alternatives]
  ext w
  simp only [mem_unionLang, Language.mem_add, mem_append, or_and_right, exists_or]

/-- The general case of `operator |=`. -/
theorem or_eq_logicalOr (hna : a.isNull = false) (hnb : b.isNull = false)
    (hea : a.isEpsilon = false) (heb : b.isEpsilon = false) :
  a.or qt b = logicalOr (removeDuplicates [] (qt.qSort (a.alternatives ++ b.alternatives)))
  := by
  simp [RegExp.or, hna, hnb, hea, heb]

/-- No word can be lost by `operator |=`: an operand that is taken for ε is ε, and one of them is
absorbed by the other, or their alternatives can be told apart. -/
structure Joinable (a b : RegExp) : Prop where
  left : a.isEpsilon = true → a.lang = 1
  right : b.isEpsilon = true → b.lang = 1
  alternatives : a.isEpsilon = true ∧ b.isNullable = true ∨
    b.isEpsilon = true ∧ a.isNullable = true ∨ ToldApart (a.alternatives ++ b.alternatives)

end RegExp

end Librecompare

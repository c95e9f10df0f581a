import Contextd.Librecompare.Laws

/-!
# Nullable expressions

`RegExp::isNullable(int)` goes through the transitions by an index and treats the last one
separately (`isNullableAt`); `RegExp::Transition::isNullable` looks at one transition.  Both tell
whether the empty word belongs to the language.
-/

open Computability

namespace Librecompare

open List

namespace RegExp

/-- Properties of expressions are proved from the expressions inside. -/
theorem induction {P : RegExp → Prop}
    (mk : ∀ pattern ts, (∀ t ∈ ts, ∀ e ∈ t.subExprs, P e) → P (.mk pattern ts)) (e : RegExp) :
  P e
  := by
  apply @RegExp.rec P (fun ts => ∀ t ∈ ts, ∀ e ∈ t.subExprs, P e)
    (fun t => ∀ e ∈ t.subExprs, P e) (fun es => ∀ e ∈ es, P e)
  · apply mk
  · simp
  · intro t ts ht hts
    apply forall_mem_cons.mpr ⟨ht, hts⟩
  · intro type data subExprs op h
    apply h
  · simp
  · intro e es he hes
    apply forall_mem_cons.mpr ⟨he, hes⟩

/-! ### The recursion over the index -/

/-- `nullableToken` for a transition: by the type of its token. -/
def nullableToken (t : Transition RegExp) : Bool :=
  match t.type with
  | .epsilon => true
  | .subExpr => firstNullable t.subExprs
  | .logicalOr => anyNullable t.subExprs
  | _ => false

/-- `RegExp::isNullable(int)`, on the transitions from the index on. -/
def nullableFrom : List (Transition RegExp) → Bool
  | [] => false
  | [t] => if t.op = .kleeneStar ∨ t.op = .oneOrZero then true else nullableToken t
  | t :: ts =>
    if t.op = .kleeneStar ∨ t.op = .oneOrZero then nullableFrom ts
    else nullableToken t && nullableFrom ts

/-- `RegExp::isNullable(int)`. -/
def isNullableAt (e : RegExp) (index : ℕ) : Bool := nullableFrom (e.transitions.drop index)

theorem transitionNullable_eq (t : Transition RegExp) :
  transitionNullable t = (t.op == .kleeneStar || t.op == .oneOrZero || nullableToken t)
  := by
  rcases t with ⟨type, data, subExprs, op⟩
  cases type <;> simp [transitionNullable, nullableToken]

theorem transitionsNullable_eq_all (ts : List (Transition RegExp)) :
  transitionsNullable ts = ts.all transitionNullable
  := by
  induction ts with
  | nil => rw [transitionsNullable, all_nil]
  | cons t ts ih => rw [transitionsNullable, all_cons, ih]

/-- The recursion asks whether there are transitions and all of them are nullable. -/
theorem nullableFrom_eq {ts : List (Transition RegExp)} (h : ts ≠ []) :
  nullableFrom ts = ts.all transitionNullable
  := by
  induction ts with
  | nil => contradiction
  | cons t ts ih =>
    rw [all_cons, transitionNullable_eq]
    cases ts with
    | nil =>
      rw [nullableFrom]
      by_cases hop : t.op = .kleeneStar ∨ t.op = .oneOrZero
      · rcases hop with hop | hop <;> simp [hop]
      · rw [not_or] at hop
        simp [hop]
    | cons t' ts =>
      rw [nullableFrom, ih (by simp)]
      · by_cases hop : t.op = .kleeneStar ∨ t.op = .oneOrZero
        · rcases hop with hop | hop <;> simp [hop]
        · rw [if_neg hop]
          rw [not_or] at hop
          rw [beq_false_of_ne hop.1, beq_false_of_ne hop.2, Bool.false_or, Bool.false_or]
      · simp

/-- `RegExp::isNullable` starts the recursion at the first transition. -/
theorem isNullableAt_zero (e : RegExp) :
  e.isNullableAt 0 = e.isNullable
  := by
  rcases e with ⟨pattern, _ | ⟨t, ts⟩⟩
  · rw [isNullable]
    rfl
  · rw [isNullableAt, drop_zero, transitions, nullableFrom_eq (by simp), isNullable,
      transitionsNullable_eq_all]

/-! ### The empty word -/

theorem anyNullable_eq {es : List RegExp} :
  anyNullable es = es.any isNullable
  := by
  induction es with
  | nil => rfl
  | cons e es ih => rw [anyNullable, any_cons, ih]

/-- The empty word comes from the operator, or from the language. -/
theorem nil_mem_operatorLang {L : Language UInt8} {op : Operator} :
  [] ∈ op.lang L ↔ op = .kleeneStar ∨ op = .oneOrZero ∨ [] ∈ L
  := by
  cases op with
  | concat => simp [Operator.lang]
  | kleeneStar => simp [Operator.lang, Language.nil_mem_kstar]
  | oneOrMore => simp [Operator.lang, Language.nil_mem_mul, Language.nil_mem_kstar]
  | oneOrZero =>
    rw [Operator.lang, Language.mem_add]
    simp

theorem nil_mem_bytesLang {type : TokenType} {data : ByteSet} :
  [] ∈ bytesLang type data ↔ type = .epsilon
  := by
  cases type with
  | epsilon => apply iff_of_true rfl rfl
  | any =>
    apply iff_of_false _ (by simp)
    rintro ⟨b, hb⟩
    cases hb
  | normal | bracket | exclude =>
    apply iff_of_false _ (by simp)
    rintro ⟨b, -, hb⟩
    cases hb
  | noType | logicalOr | subExpr => apply iff_of_false id (by simp)

/-- The empty word is in a sequence if it is in all transitions. -/
theorem nil_mem_transitionsLang {ts : List (Transition RegExp)} :
  [] ∈ transitionsLang ts ↔ ∀ t ∈ ts, [] ∈ transitionLang t
  := by
  induction ts with
  | nil => simp [transitionsLang]
  | cons t ts ih => rw [transitionsLang, Language.nil_mem_mul, ih, forall_mem_cons]

/-- A token is nullable if the nullability of the expressions inside is right. -/
theorem transitionNullable_iff_of_subExprs {t : Transition RegExp}
    (h : ∀ e ∈ t.subExprs, e.isNullable = true ↔ [] ∈ e.lang) :
  transitionNullable t = true ↔ [] ∈ transitionLang t
  := by
  rcases t with ⟨type, data, subExprs, op⟩
  simp only [transitionNullable_eq, Bool.or_eq_true, beq_iff_eq, or_assoc]
  by_cases hsub : type = .subExpr
  · subst hsub
    rw [transitionLang, nil_mem_operatorLang]
    apply or_congr_right
    apply or_congr_right
    cases subExprs with
    | nil => simp [nullableToken, firstNullable, firstLang]
    | cons e es => simpa [nullableToken, firstNullable, firstLang] using h e (by simp)
  by_cases hor : type = .logicalOr
  · subst hor
    rw [transitionLang, nil_mem_operatorLang]
    apply or_congr_right
    apply or_congr_right
    simp only [nullableToken, anyNullable_eq, any_eq_true, mem_unionLang]
    apply exists_congr
    intro e
    apply and_congr_right
    apply h e
  rw [transitionLang, nil_mem_operatorLang, nil_mem_bytesLang]
  · apply or_congr_right
    apply or_congr_right
    cases type <;> simp_all [nullableToken]
  · apply hsub
  · apply hor

/-- An expression is nullable exactly when the empty word is in its language. -/
theorem isNullable_iff_nil_mem (e : RegExp) :
  e.isNullable = true ↔ [] ∈ e.lang
  := by
  induction e using RegExp.induction with
  | mk pattern ts ih =>
    cases ts with
    | nil => simp [isNullable, lang]
    | cons t ts =>
      rw [isNullable, transitionsNullable_eq_all, lang, nil_mem_transitionsLang, all_eq_true]
      apply forall₂_congr
      intro t' ht'
      apply transitionNullable_iff_of_subExprs (ih t' ht')

/-- The tests for nullability are exact, for expressions and for transitions, and an expression
that is not ø is nullable exactly when all its transitions are. -/
theorem nullability_exact (e : RegExp) :
  (e.isNullableAt 0 = true ↔ [] ∈ e.lang) ∧
    (∀ t : Transition RegExp, transitionNullable t = true ↔ [] ∈ transitionLang t) ∧
    (e.transitions ≠ [] →
      (e.isNullableAt 0 = true ↔ ∀ t ∈ e.transitions, transitionNullable t = true))
  := by
  refine ⟨?_, ?_, ?_⟩
  · rw [isNullableAt_zero, isNullable_iff_nil_mem]
  · intro t
    apply transitionNullable_iff_of_subExprs
    intro e _
    apply isNullable_iff_nil_mem
  · intro h
    rw [isNullableAt, drop_zero, nullableFrom_eq h, all_eq_true]

end RegExp

end Librecompare

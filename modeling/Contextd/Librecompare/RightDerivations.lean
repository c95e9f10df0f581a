import Contextd.Librecompare.Denotation

/-!
# Derivations from the right

`rightDerivations` takes the transitions from the end: the text of the last transition is taken off
the end of the pattern, and what is left is put before what the token leaves.  For a sequence of
atoms this is derivation from the left, seen in a mirror.
-/

open Computability

namespace Librecompare

/-! ### Patterns -/

/-- The largest index, at most `j` and not zero, of a `[` that is not escaped. -/
def indexOfOpening (pattern : List Char) : ℕ → Option ℕ
  | 0 => none
  | j + 1 =>
    if pattern[j + 1]? = some '[' ∧ pattern[j]? ≠ some '\\' then some (j + 1)
    else indexOfOpening pattern j

/-- The index of the `(` that opens a parenthesis closed behind the index `j`, with `depth`
parentheses closed in between; it is not zero. -/
def indexOfBegin (pattern : List Char) : ℕ → ℕ → Option ℕ
  | 0, _ => none
  | j + 1, depth =>
    if pattern[j + 1]? = some ')' ∧ pattern[j]? ≠ some '\\' then
      indexOfBegin pattern j (depth + 1)
    else if pattern[j + 1]? = some '(' ∧ pattern[j]? ≠ some '\\' then
      if depth = 0 then some (j + 1) else indexOfBegin pattern j (depth - 1)
    else indexOfBegin pattern j depth

/-- The length of the token of `t` at the end of a pattern, as `patternExtractEnd` takes it.  A
bracket list or group whose beginning is not found is taken to begin the pattern. -/
def tokenLengthEnd (pattern : List Char) (t : Transition RegExp) : ℕ :=
  let size := pattern.length
  let opLen := t.op.length
  match t.type with
  | .normal => if size ≤ 1 + opLen ∨ pattern[size - 2 - opLen]? ≠ some '\\' then 1 else 2
  | .any => 1
  | .bracket | .exclude =>
    match indexOfOpening pattern (size - 2 - opLen) with
    | some j => size - j - opLen
    | none => size - opLen
  | .subExpr =>
    match indexOfBegin pattern (size - 2 - opLen) 0 with
    | some j => size - j - opLen
    | none => size - opLen
  | .logicalOr => size
  | .epsilon => 1
  | .noType => 0

/-- `patternExtractEnd`: the text of the token of `t`, and the pattern without the token and its
operator. -/
def patternExtractEnd (pattern : List Char) (t : Transition RegExp) : List Char × List Char :=
  let kept := pattern.length - (tokenLengthEnd pattern t + t.op.length)
  let extracted := pattern.drop kept
  (extracted.take (extracted.length - t.op.length), pattern.take kept)

namespace RegExp

variable (qt : Qt)

/-! ### Derivations -/

/-- What is read before a byte of the token of `t`: the rest of the expression, and as many tokens
as the operator allows for. -/
def rightContinuation (oldPattern newPattern : List Char) (t : Transition RegExp)
    (newTrans : List (Transition RegExp)) : RegExp :=
  let newExpr := mk newPattern newTrans
  match t.op with
  | .concat | .oneOrZero => newExpr
  | .kleeneStar | .oneOrMore =>
    (mk (oldPattern ++ ['*']) [{ t with op := .kleeneStar }]).prepend qt newExpr

/-- The loop of `RegExp::derivations` for `rightDerivations`, over the transitions with the
derivations of their tokens, the last one first. -/
def rightLoop : List Char → List (Transition RegExp × List (Derivation RegExp)) →
    List (Derivation RegExp) → List (Derivation RegExp)
  | _, [], deriv => deriv
  | pattern, (t, derivations) :: newTrans, deriv =>
    if t.type = .epsilon then deriv
    else
      let (oldPattern, newPattern) := patternExtractEnd pattern t
      let expr := rightContinuation qt oldPattern newPattern t (newTrans.map Prod.fst).reverse
      let tokenDeriv := derivations.map (fun d => { d with expr := d.expr.prepend qt expr })
      let deriv := mergeDerivations (or qt) deriv tokenDeriv
      if transitionNullable t then rightLoop newPattern newTrans deriv else deriv

mutual

/-- `RegExp::rightDerivations`. -/
def rightDerivations : RegExp → List (Derivation RegExp)
  | mk pattern transitions => rightLoop qt pattern (rightTokens transitions).reverse []

/-- The transitions with the derivations of their tokens. -/
def rightTokens :
    List (Transition RegExp) → List (Transition RegExp × List (Derivation RegExp))
  | [] => []
  | t :: ts => (t, rightTokenDerivations t) :: rightTokens ts

/-- `RegExp::Token::derivations`, from the right. -/
def rightTokenDerivations : Transition RegExp → List (Derivation RegExp)
  | ⟨type, data, subExprs, _⟩ =>
    match type with
    | .subExpr => rightFirstDerivations subExprs
    | .logicalOr => rightAllDerivations subExprs
    | .normal => [⟨.bracket, data, epsilon⟩]
    | type => [⟨type, data, epsilon⟩]

/-- The derivations of the first of the expressions. -/
def rightFirstDerivations : List RegExp → List (Derivation RegExp)
  | [] => []
  | e :: _ => rightDerivations e

/-- The derivations of all of the expressions, one after another. -/
def rightAllDerivations : List RegExp → List (Derivation RegExp)
  | [] => []
  | e :: es => rightDerivations e ++ rightAllDerivations es

end

end RegExp

/-! ### Simple atoms -/

/-- The atom can be taken off the end of a text: it is legible, has no byte twice, and is no class,
no escaped backslash and no list with an opening bracket in it. -/
def Atom.isSimple (a : Atom) : Bool :=
  a.isLegible && decide a.listed.Nodup &&
    match a with
    | .special _ _ => false
    | .escaped c => c != '\\'
    | .bracket negated entries => !(bracketContent negated entries).contains '['
    | _ => true

/-- The piece is a simple atom with its operator. -/
def Piece.isSimple : Piece → Bool
  | .single atom _ => atom.isSimple
  | .group _ _ => false

theorem Atom.spec_of_isSimple {a : Atom} (h : a.isSimple = true) :
  a.isLegible = true ∧ a.listed.Nodup
  := by
  simp only [isSimple, Bool.and_eq_true, decide_eq_true_eq] at h
  apply h.1

/-- What is known of the pieces of a simple sequence. -/
theorem Piece.spec_of_isSimple {p : Piece} (h : p.isSimple = true) :
  p.IsLegible ∧ ∀ final, p.isOrderly final = true ∧ p.isInStep final = true
  := by
  cases p with
  | group alternatives op => cases h
  | single atom op =>
    obtain ⟨hleg, hnd⟩ := Atom.spec_of_isSimple h
    refine ⟨⟨?_, ?_⟩, fun final => ⟨?_, ?_⟩⟩
    · rwa [Piece.isReadable]
    · rw [Piece.Every]
      trivial
    · simpa [Piece.isOrderly] using hnd
    · cases atom with
      | special negated c => simp [isSimple, Atom.isSimple] at h
      | _ => rfl

theorem isSimple_starred {p : Piece} (h : p.isSimple = true) :
  p.starred.isSimple = true
  := by
  cases p with
  | single atom op => apply h
  | group alternatives op => cases h

/-! ### Extraction from the end -/

variable {qt : Qt}

/-- The text of a simple atom does not end in a backslash. -/
theorem Atom.getLast?_text {a : Atom} (h : a.isSimple = true) :
  a.text.getLast? ≠ some '\\'
  := by
  obtain ⟨hleg, -⟩ := spec_of_isSimple h
  cases a with
  | literal c =>
    have hspec := (isLegible_literal_iff.mp hleg).2
    rintro heq
    obtain rfl : c = '\\' := by simpa [text] using heq
    apply hspec (by decide)
  | escaped c =>
    simp only [isSimple, Bool.and_eq_true, bne_iff_ne] at h
    simpa [text] using h.2
  | any => decide
  | bracket negated entries =>
    rw [text, List.getLast?_concat]
    decide
  | special negated c => simp [isSimple] at h

/-- The text of a simple sequence does not end in a backslash. -/
theorem getLast?_branchText {b : Branch} (h : ∀ p ∈ b, p.isSimple = true) :
  (branchText b).getLast? ≠ some '\\'
  := by
  induction b with
  | nil => simp [branchText]
  | cons p ps ih =>
    obtain ⟨hp, hps⟩ := List.forall_mem_cons.mp h
    cases p with
    | group alternatives op => cases hp
    | single atom op =>
      have hop : (atom.text ++ op.text).getLast? ≠ some '\\' := by
        cases op with
        | concat =>
          rw [Operator.text, List.append_nil]
          apply Atom.getLast?_text hp
        | _ => simp [Operator.text]
      rw [branchText_cons, Piece.body, Piece.op, List.getLast?_append]
      intro heq
      rcases Option.or_eq_some_iff.mp heq with heq | ⟨-, heq⟩
      · apply ih hps heq
      · apply hop heq

/-- The search for the beginning of a bracket list passes its content, and finds the bracket unless
it begins the pattern. -/
theorem indexOfOpening_append {text content r : List Char} (ht : text.getLast? ≠ some '\\')
    (hcont : '[' ∉ content) {k : ℕ} (hk : k ≤ content.length) :
  indexOfOpening (text ++ '[' :: (content ++ r)) (text.length + k)
    = if text = [] then none else some text.length
  := by
  induction k with
  | zero =>
    rcases text.eq_nil_or_concat with rfl | ⟨before, c, rfl⟩
    · rfl
    · have hc : c ≠ '\\' := by simpa using ht
      have hlen : (before.concat c).length + 0 = before.length + 1 := by simp
      rw [hlen, indexOfOpening, if_pos, if_neg (by simp)]
      · simp
      · simp [hc]
  | succ k ih =>
    have hat : (text ++ '[' :: (content ++ r))[text.length + k + 1]? = content[k]? := by
      rw [Nat.add_assoc, List.getElem?_append_right (by omega), Nat.add_sub_cancel_left,
        List.getElem?_cons_succ, List.getElem?_append_left (by omega)]
    rw [← Nat.add_assoc, indexOfOpening, if_neg, ih (by omega)]
    rintro ⟨hop, -⟩
    rw [hat] at hop
    apply hcont (List.mem_of_getElem? hop)

/-- The token of a bracket list at the end of a pattern. -/
theorem tokenLengthEnd_bracket {negated : Bool} {entries : List Entry} {op : Operator}
    (hop : '[' ∉ bracketContent negated entries) {text : List Char}
    (ht : text.getLast? ≠ some '\\') :
  tokenLengthEnd (text ++ ((Atom.bracket negated entries).text ++ op.text))
      ((Piece.single (.bracket negated entries) op).transition qt)
    = (Atom.bracket negated entries).text.length
  := by
  have hsearch := @indexOfOpening_append text _ (']' :: op.text) ht hop _ (le_refl _)
  have hpat : text ++ ((Atom.bracket negated entries).text ++ op.text)
      = text ++ '[' :: (bracketContent negated entries ++ ']' :: op.text) := by
    simp [Atom.text]
  have hix : (text ++ '[' :: (bracketContent negated entries ++ ']' :: op.text)).length - 2
      - op.text.length = text.length + (bracketContent negated entries).length := by
    simp
    omega
  rw [hpat, tokenLengthEnd, Piece.transition, operator_length]
  cases negated <;>
  · simp only [Atom.type, Bool.false_eq_true, if_false, if_true, hix, hsearch]
    split_ifs with hnil
    · simp [hnil, Atom.text]
      omega
    · simp [Atom.text]
      omega

/-- The token of a simple atom at the end of a pattern is as long as its text. -/
theorem tokenLengthEnd_eq {a : Atom} (ha : a.isSimple = true) {op : Operator} {text : List Char}
    (ht : text.getLast? ≠ some '\\') :
  tokenLengthEnd (text ++ (a.text ++ op.text)) ((Piece.single a op).transition qt) = a.text.length
  := by
  cases a with
  | special negated c => simp [Atom.isSimple] at ha
  | any =>
    rw [tokenLengthEnd, Piece.transition]
    rfl
  | bracket negated entries =>
    apply tokenLengthEnd_bracket _ ht
    simp only [Atom.isSimple, Bool.and_eq_true] at ha
    simpa using ha.2
  | literal c =>
    rw [tokenLengthEnd, Piece.transition, operator_length, Atom.text]
    apply if_pos
    rcases text.eq_nil_or_concat with rfl | ⟨before, c', rfl⟩
    · exact .inl (by simp [Nat.add_comm])
    · right
      have hix : (before.concat c' ++ ([c] ++ op.text)).length - 2 - op.text.length
          = before.length := by
        simp
        omega
      rw [hix]
      simpa using ht
  | escaped c =>
    rw [tokenLengthEnd, Piece.transition, operator_length, Atom.text]
    apply if_neg
    have hix : (text ++ (['\\', c] ++ op.text)).length - 2 - op.text.length = text.length := by
      simp
      omega
    rw [hix]
    simp
    omega

/-- Extraction takes the last piece off the text of a sequence. -/
theorem patternExtractEnd_eq {p : Piece} (hp : p.isSimple = true) {b : Branch}
    (hb : ∀ q ∈ b, q.isSimple = true) :
  patternExtractEnd (branchText (b ++ [p])) (p.transition qt) = (p.body, branchText b)
  := by
  cases p with
  | group alternatives op => cases hp
  | single atom op =>
    have ht : branchText (b ++ [.single atom op]) = branchText b ++ (atom.text ++ op.text) := by
      rw [branchText_append, branchText_cons, branchText, List.append_nil]
      rfl
    have hlen := @tokenLengthEnd_eq qt atom hp op _ (getLast?_branchText hb)
    have hk : (branchText b ++ (atom.text ++ op.text)).length
        - (atom.text.length + op.text.length) = (branchText b).length := by
      simp
    rw [patternExtractEnd, ht, hlen, transition_op, operator_length]
    simp only [Piece.op, hk]
    simp [Piece.body]

end Librecompare

import Contextd.Librecompare.Derivation

/-!
# Regular expressions

A `RegExp` is the pattern it prints as, with the list of transitions it consists of.  A transition
is a token and an operator; a token can hold expressions: one for a sub-expression, several for a
logical or.  Expressions are compared by their patterns alone.  What the code takes from Qt is the
structure `Qt`: whether `QRegExp` accepts a pattern, and the order in which `qSort` leaves
expressions.
-/

namespace Librecompare

/-- A transition, with the parts of its token. -/
structure Transition (ρ : Type) where
  /-- The type of the token. -/
  type : TokenType
  /-- The listed bytes of the token. -/
  data : ByteSet
  /-- The expressions of the token. -/
  subExprs : List ρ
  /-- The operator behind the token. -/
  op : Operator

/-- A regular expression: the pattern, and the transitions matching it. -/
inductive RegExp where
  | mk (pattern : List Char) (transitions : List (Transition RegExp))

instance : Inhabited RegExp := ⟨.mk [] []⟩

namespace RegExp

/-- The pattern of the expression. -/
def pattern : RegExp → List Char
  | mk pattern _ => pattern

/-- The transitions of the expression. -/
def transitions : RegExp → List (Transition RegExp)
  | mk _ transitions => transitions

/-- The transition of ε. -/
def epsilonTransition : Transition RegExp := ⟨.epsilon, [], [], .concat⟩

/-- `RegExp(int)`: the expression ε. -/
def epsilon : RegExp := mk ['ε'] [epsilonTransition]

/-- `RegExp::isNull`: the expression is ø. -/
def isNull (e : RegExp) : Bool := e.transitions.isEmpty

/-- `RegExp::isEmpty`: the expression is ø or ε. -/
def isEmpty (e : RegExp) : Bool :=
  match e.transitions with
  | [] => true
  | t :: _ => t.type == .epsilon

mutual

/-- `RegExp::isEpsilon`: the first token is ε, or holds only expressions that are. -/
def isEpsilon : RegExp → Bool
  | mk _ [] => false
  | mk _ (⟨type, _, subExprs, _⟩ :: _) =>
    match type with
    | .epsilon => true
    | .subExpr => firstEpsilon subExprs
    | .logicalOr => allEpsilon subExprs
    | _ => false

/-- The first of the expressions is ε. -/
def firstEpsilon : List RegExp → Bool
  | [] => false
  | e :: _ => e.isEpsilon

/-- All of the expressions are ε. -/
def allEpsilon : List RegExp → Bool
  | [] => true
  | e :: es => e.isEpsilon && allEpsilon es

end

mutual

/-- `RegExp::isNullable`: there are transitions, and all of them are nullable. -/
def isNullable : RegExp → Bool
  | mk _ [] => false
  | mk _ (t :: ts) => transitionsNullable (t :: ts)

/-- `RegExp::isNullable(int)`: the transitions from an index on are nullable. -/
def transitionsNullable : List (Transition RegExp) → Bool
  | [] => true
  | t :: ts => transitionNullable t && transitionsNullable ts

/-- `RegExp::Transition::isNullable`: by its operator, or by its token. -/
def transitionNullable : Transition RegExp → Bool
  | ⟨type, _, subExprs, op⟩ =>
    op == .kleeneStar || op == .oneOrZero ||
      match type with
      | .epsilon => true
      | .subExpr => firstNullable subExprs
      | .logicalOr => anyNullable subExprs
      | _ => false

/-- The first of the expressions is nullable. -/
def firstNullable : List RegExp → Bool
  | [] => false
  | e :: _ => e.isNullable

/-- One of the expressions is nullable. -/
def anyNullable : List RegExp → Bool
  | [] => false
  | e :: es => e.isNullable || anyNullable es

end

end RegExp

/-- What the code takes from Qt. -/
structure Qt where
  /-- `QRegExp::isValid` for a pattern. -/
  isValid : List Char → Bool
  /-- `qSort` on expressions by their patterns. -/
  qSort : List RegExp → List RegExp

/-! ### Patterns -/

/-- `indexOf(QRegExp("[^\\\\]\\]"))`: where a `]` follows a character that is no backslash; the
index is that of the character. -/
def indexOfClosing : List Char → Option ℕ
  | c :: c' :: cs =>
    if c ≠ '\\' ∧ c' = ']' then some 0 else (indexOfClosing (c' :: cs)).map (· + 1)
  | _ => none

/-- The index of the `)` that closes a parenthesis opened before, in the characters behind `prev`,
with `depth` parentheses open in between. -/
def indexOfEnd : Char → ℕ → List Char → Option ℕ
  | _, _, [] => none
  | prev, depth, c :: cs =>
    if c = '(' ∧ prev ≠ '\\' then (indexOfEnd c (depth + 1) cs).map (· + 1)
    else if c = ')' ∧ prev ≠ '\\' then
      if depth = 0 then some 0 else (indexOfEnd c (depth - 1) cs).map (· + 1)
    else (indexOfEnd c depth cs).map (· + 1)

/-- The length of the text of an operator. -/
def Operator.length : Operator → ℕ
  | .concat => 0
  | _ => 1

/-- The length of the token of `t` at the start of a pattern, as `patternExtractStart` takes it. -/
def tokenLength (pattern : List Char) (t : Transition RegExp) : ℕ :=
  match t.type with
  | .normal => if pattern.head? = some '\\' then 2 else 1
  | .any => 1
  | .bracket | .exclude =>
    match indexOfClosing pattern with
    | some i => i + 2
    | none => 1
  | .subExpr =>
    match pattern with
    | [] => 0
    | c :: cs =>
      match indexOfEnd c 0 cs with
      | some i => i + 2
      | none => 0
  | .logicalOr => pattern.length
  | .epsilon => 1
  | .noType => 0

/-- `patternExtractStart`: the text of the token of `t`, and the pattern without the token and its
operator. -/
def patternExtractStart (pattern : List Char) (t : Transition RegExp) : List Char × List Char :=
  (pattern.take (tokenLength pattern t), pattern.drop (tokenLength pattern t + t.op.length))

namespace RegExp

/-! ### Logical or and concatenation -/

/-- The expressions an expression brings into a logical or. -/
def alternatives (e : RegExp) : List RegExp :=
  match e.transitions with
  | t :: _ => if t.type = .logicalOr then t.subExprs else [e]
  | [] => [e]

/-- The loop of `operator |=` that removes an expression printed like the one before it. -/
def removeDuplicates : List Char → List RegExp → List RegExp
  | _, [] => []
  | prevPattern, e :: es =>
    if e.pattern = prevPattern then removeDuplicates prevPattern es
    else e :: removeDuplicates e.pattern es

/-- The logical or of expressions: their patterns with bars in between, and one transition. -/
def logicalOr (subExprs : List RegExp) : RegExp :=
  mk (subExprs.flatMap (fun e => e.pattern ++ ['|'])).dropLast [⟨.logicalOr, [], subExprs, .concat⟩]

variable (qt : Qt)

/-- `operator |=`. -/
def or (a b : RegExp) : RegExp :=
  if a.isNull then b
  else if b.isNull then a
  else if a.isEpsilon && b.isEpsilon then a
  else if a.isEpsilon && b.isNullable then b
  else if !a.isEpsilon && b.isEpsilon && a.isNullable then a
  else logicalOr (removeDuplicates [] (qt.qSort (a.alternatives ++ b.alternatives)))

/-- `RegExp::append`.  A logical or is to be put into parentheses: its transition becomes a
sub-expression, with the whole expression behind the alternatives it has already; a logical or that
is appended loses its transition to a copy of the last transition of the other expression. -/
def append (a b : RegExp) : RegExp :=
  if a.isEmpty && !b.isNull then b
  else if b.isEmpty then a
  else
    match a.transitions.getLast?, b.transitions with
    | some t, bt :: bts =>
      if t.type = .logicalOr then
        if bt.type = .logicalOr then a.or qt b
        else
          mk (['('] ++ a.pattern ++ [')'] ++ b.pattern)
            (a.transitions.dropLast ++ [⟨.subExpr, t.data, t.subExprs ++ [a], .concat⟩]
              ++ bt :: bts)
      else if bt.type = .logicalOr then
        mk (a.pattern ++ (['('] ++ b.pattern ++ [')'])) (a.transitions ++ (bts ++ [t]))
      else mk (a.pattern ++ b.pattern) (a.transitions ++ bt :: bts)
    | _, _ => a

/-- `RegExp::prepend`.  A logical or is to be put into parentheses: its transition becomes a
sub-expression behind the other transitions; a logical or that is prepended loses its transition to
a copy of the first transition of the other expression, and its pattern gets no parentheses. -/
def prepend (a b : RegExp) : RegExp :=
  if a.isEmpty && !b.isNull then b
  else if b.isEmpty then a
  else
    match a.transitions, b.transitions.getLast? with
    | t :: ts, some bt =>
      if t.type = .logicalOr then
        if bt.type = .logicalOr then a.or qt b
        else
          mk (b.pattern ++ (['('] ++ a.pattern ++ [')']))
            (b.transitions ++ (ts ++ [⟨.subExpr, t.data, t.subExprs ++ [a], .concat⟩]))
      else if bt.type = .logicalOr then
        mk (b.pattern ++ a.pattern) (b.transitions.dropLast ++ [t] ++ t :: ts)
      else mk (b.pattern ++ a.pattern) (b.transitions ++ t :: ts)
    | _, _ => a

/-! ### Derivations -/

/-- What is read after a byte of the token of `t`: the rest of the expression, behind as many
tokens as the operator allows for. -/
def continuation (oldPattern newPattern : List Char) (t : Transition RegExp)
    (newTrans : List (Transition RegExp)) : RegExp :=
  let newExpr := mk newPattern newTrans
  match t.op with
  | .concat | .oneOrZero => newExpr
  | .kleeneStar | .oneOrMore =>
    (mk (oldPattern ++ ['*']) [{ t with op := .kleeneStar }]).append qt newExpr

mutual

/-- `RegExp::leftDerivations`. -/
def leftDerivations : RegExp → List (Derivation RegExp)
  | mk pattern transitions => transitionsDerivations pattern transitions []

/-- The loop of `RegExp::derivations`: the derivations of the next transition are merged with those
found so far, and the loop goes on if the transition is nullable and not ε. -/
def transitionsDerivations :
    List Char → List (Transition RegExp) → List (Derivation RegExp) → List (Derivation RegExp)
  | _, [], deriv => deriv
  | pattern, t :: newTrans, deriv =>
    if t.type = .epsilon then deriv
    else
      let (oldPattern, newPattern) := patternExtractStart pattern t
      let expr := continuation qt oldPattern newPattern t newTrans
      let tokenDeriv :=
        (tokenDerivations t).map (fun d => { d with expr := d.expr.append qt expr })
      let deriv := mergeDerivations (or qt) deriv tokenDeriv
      if transitionNullable t then transitionsDerivations newPattern newTrans deriv else deriv

/-- `RegExp::Token::derivations`. -/
def tokenDerivations : Transition RegExp → List (Derivation RegExp)
  | ⟨type, data, subExprs, _⟩ =>
    match type with
    | .subExpr => firstDerivations subExprs
    | .logicalOr => allDerivations subExprs
    | .normal => [⟨.bracket, data, epsilon⟩]
    | type => [⟨type, data, epsilon⟩]

/-- The derivations of the first of the expressions. -/
def firstDerivations : List RegExp → List (Derivation RegExp)
  | [] => []
  | e :: _ => leftDerivations e

/-- The derivations of all of the expressions, one after another. -/
def allDerivations : List RegExp → List (Derivation RegExp)
  | [] => []
  | e :: es => leftDerivations e ++ allDerivations es

end

end RegExp

end Librecompare

import Mathlib.Data.List.Basic
import Mathlib.Data.UInt

/-!
# Byte sets, tokens and derivations

A derivation is a token (any byte, the bytes of a list, the bytes outside a list) with the
expression still to be read after a byte of the token.  `RegExp::derivations` merges the derivations
of each transition with those already found, splitting byte sets and joining the expressions of
common bytes.  The merging is written here over an arbitrary type `ρ` of expressions with an
operation for `|`.
-/

namespace Librecompare

/-! ### Byte sets -/

/-- A `ByteSet` is a byte array: the bytes in order, repeated ones included. -/
abbrev ByteSet := List UInt8

namespace ByteSet

/-- The operator `|`: the second array without the bytes of the first is put behind the first. -/
def union (a b : ByteSet) : ByteSet := a ++ b.filter (fun x => !a.contains x)

/-- The operator `&`: the bytes of the second array that the first contains. -/
def inter (a b : ByteSet) : ByteSet := b.filter (fun x => a.contains x)

/-- The operator `-`: the bytes of the first array that the second does not contain. -/
def diff (a b : ByteSet) : ByteSet := a.filter (fun x => !b.contains x)

/-- The operator `-=`: for each byte of the second array, its first occurrence is removed. -/
def remove (a b : ByteSet) : ByteSet := b.foldl (fun a x => a.erase x) a

end ByteSet

/-! ### Tokens and derivations -/

/-- `RegExp::TokenType`. -/
inductive TokenType where
  | noType
  | epsilon
  | normal
  | any
  | bracket
  | exclude
  | logicalOr
  | subExpr
  deriving DecidableEq, Repr

/-- `RegExp::Operator`: what follows a token. -/
inductive Operator where
  | concat
  | kleeneStar
  | oneOrMore
  | oneOrZero
  deriving DecidableEq, Repr

variable {ρ : Type}

/-- A token and the expression to recognise after it. -/
structure Derivation (ρ : Type) where
  /-- The type of the token: any, bracket or exclude. -/
  type : TokenType
  /-- The listed bytes of the token. -/
  data : ByteSet
  /-- The expression to recognise next. -/
  expr : ρ
  deriving DecidableEq, Repr

namespace Derivation

/-- `Derivation::isEmpty`. -/
def isEmpty (d : Derivation ρ) : Bool := d.type != .any && d.data.isEmpty

/-- The token of `d` contains the byte `b`. -/
def contains (d : Derivation ρ) (b : UInt8) : Bool :=
  match d.type with
  | .any => true
  | .bracket => d.data.contains b
  | .exclude => !d.data.contains b
  | _ => false

end Derivation

/-! ### Merging -/

section Merge

variable (or : ρ → ρ → ρ)

/-- What one step of merging makes of the new derivation `d` and the existing `d2`: what is left
of both, what goes to the merged derivations, and what is to be merged later. -/
structure Split (ρ : Type) where
  /-- What is left of the new derivation. -/
  d : Derivation ρ
  /-- What is left of the existing derivation. -/
  d2 : Derivation ρ
  /-- The derivations for the common bytes. -/
  d3 : List (Derivation ρ)
  /-- The derivations appended to the list that is being merged. -/
  d4 : List (Derivation ρ)

/-- The derivation alone, or nothing if it is empty. -/
def nonEmpty (d : Derivation ρ) : List (Derivation ρ) := if d.isEmpty then [] else [d]

/-- Merging a bracket derivation with an existing one. -/
def splitBracket (d d2 : Derivation ρ) : Split ρ :=
  match d2.type with
  | .bracket =>
    let inter := d.data.inter d2.data
    if inter.isEmpty then ⟨d, d2, [], []⟩
    else
      ⟨{ d with data := d.data.remove inter }, { d2 with data := d2.data.remove inter },
        [⟨.bracket, inter, or d.expr d2.expr⟩], []⟩
  | .exclude =>
    let inter := d.data.inter d2.data
    let d3 : Derivation ρ := ⟨.bracket, d.data.diff inter, or d.expr d2.expr⟩
    ⟨{ d with data := inter }, { d2 with data := d2.data ++ d3.data }, nonEmpty d3, []⟩
  | .any =>
    ⟨{ d with expr := or d.expr d2.expr }, { d2 with type := .exclude, data := d.data }, [], []⟩
  | _ => ⟨d, d2, [], []⟩

/-- Merging an exclude derivation with an existing one. -/
def splitExclude (d d2 : Derivation ρ) : Split ρ :=
  match d2.type with
  | .bracket =>
    let inter := d.data.inter d2.data
    let d3 : Derivation ρ := ⟨.bracket, d2.data.diff inter, or d.expr d2.expr⟩
    ⟨{ d with data := d.data ++ d3.data }, { d2 with data := inter }, nonEmpty d3, []⟩
  | .exclude =>
    let d3 : Derivation ρ := ⟨.exclude, d.data.union d2.data, or d.expr d2.expr⟩
    let d4 : Derivation ρ := ⟨.bracket, d2.data.diff d.data, d.expr⟩
    ⟨{ d with data := [] }, { d2 with type := .bracket, data := d.data.diff d2.data }, [d3],
      nonEmpty d4⟩
  | .any =>
    ⟨{ d with expr := or d.expr d2.expr }, { d2 with type := .bracket, data := d.data }, [], []⟩
  | _ => ⟨d, d2, [], []⟩

/-- Merging a derivation for any byte with an existing one; nothing is left of it. -/
def splitAny (d d2 : Derivation ρ) : Split ρ :=
  let gone : Derivation ρ := { d with type := .noType, data := [] }
  match d2.type with
  | .bracket => ⟨gone, { d2 with expr := or d2.expr d.expr }, [], [⟨.exclude, d2.data, d.expr⟩]⟩
  | .exclude => ⟨gone, { d2 with expr := or d2.expr d.expr }, [], [⟨.bracket, d2.data, d.expr⟩]⟩
  | .any => ⟨gone, { d2 with expr := or d2.expr d.expr }, [], []⟩
  | _ => ⟨gone, d2, [], []⟩

/-- One step of merging `d` with an existing derivation, by the type of `d`; a derivation of any
other type is not merged. -/
def split (d d2 : Derivation ρ) : Split ρ :=
  match d.type with
  | .bracket => splitBracket or d d2
  | .exclude => splitExclude or d d2
  | .any => splitAny or d d2
  | _ => ⟨d, d2, [], []⟩

/-- What merging one derivation leaves: the derivations it replaces the existing ones by, and those
to be merged later. -/
structure Merged (ρ : Type) where
  /-- The merged derivations. -/
  deriv : List (Derivation ρ)
  /-- The derivations appended to the list that is being merged. -/
  later : List (Derivation ρ)

/-- The loop over the existing derivations, the last one first (`existing` is the list reversed):
it ends when nothing is left of `d`, with the remaining ones restored, or of the existing ones. -/
def mergeLoop : List (Derivation ρ) → Derivation ρ → Merged ρ → Merged ρ
  | [], d, m => { m with deriv := m.deriv ++ nonEmpty d }
  | d2 :: existing, d, m =>
    if d.isEmpty then { m with deriv := m.deriv ++ (d2 :: existing).reverse }
    else
      let s := split or d d2
      mergeLoop existing s.d ⟨m.deriv ++ (s.d3 ++ nonEmpty s.d2), m.later ++ s.d4⟩

/-- Merging the derivation `d` into the derivations `deriv`.  A derivation of a type without merging
replaces the existing ones. -/
def merge (deriv : List (Derivation ρ)) (d : Derivation ρ) : Merged ρ :=
  if d.type = .bracket ∨ d.type = .exclude ∨ d.type = .any then
    mergeLoop or deriv.reverse d ⟨[], []⟩
  else ⟨if d.isEmpty then deriv else [d], []⟩

/-- Merging a growing list of derivations one after another, `n` of them at most. -/
def mergeAll : ℕ → List (Derivation ρ) → List (Derivation ρ) → List (Derivation ρ)
  | n + 1, deriv, d :: tokenDeriv =>
    let m := merge or deriv d
    mergeAll n m.deriv (tokenDeriv ++ m.later)
  | _, deriv, _ => deriv

/-- A derivation for any byte can leave one for all bytes but some, and such a one can leave one
for some bytes; so at most three times as many are merged as there were at first. -/
def mergeDerivations (deriv tokenDeriv : List (Derivation ρ)) : List (Derivation ρ) :=
  mergeAll or (3 * tokenDeriv.length) deriv tokenDeriv

end Merge

end Librecompare

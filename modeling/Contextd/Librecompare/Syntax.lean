import Contextd.Data.Language
import Contextd.Librecompare.Parser

/-!
# Patterns and their languages

The patterns of the supported syntax, without anchors, as syntax trees: alternatives, which are
sequences of pieces, a piece being an atom or a group with an operator.  A tree has a text, the
pattern it is written as, and a language over bytes, in the usual sense of regular expressions.
-/

open Computability

namespace Librecompare

/-! ### Syntax trees -/

/-- An entry of a bracket list. -/
inductive Entry where
  | char (c : Char)
  | range (first last : Char)
  deriving DecidableEq, Repr

/-- The classes that are written as a backslash and a letter. -/
inductive SpecialClass where
  | digit
  | word
  | space
  deriving DecidableEq, Repr

/-- A part of a pattern that reads one byte. -/
inductive Atom where
  | literal (c : Char)
  | escaped (c : Char)
  | any
  | bracket (negated : Bool) (entries : List Entry)
  | special (negated : Bool) (special : SpecialClass)
  deriving DecidableEq, Repr

/-- An atom or a group, with the operator behind it; `concat` is the absence of an operator. -/
inductive Piece where
  | single (atom : Atom) (op : Operator)
  | group (alternatives : List (List Piece)) (op : Operator)

/-- Properties of pieces are proved for atoms, and for groups from the pieces inside. -/
theorem Piece.induction {P : Piece → Prop} (single : ∀ atom op, P (.single atom op))
    (group : ∀ alternatives op, (∀ b ∈ alternatives, ∀ p ∈ b, P p) → P (.group alternatives op))
    (p : Piece) :
  P p
  := by
  apply @Piece.rec P (fun bs => ∀ b ∈ bs, ∀ p ∈ b, P p) (fun b => ∀ p ∈ b, P p)
  · apply single
  · apply group
  · simp
  · intro b bs hb hbs
    simpa using ⟨hb, hbs⟩
  · simp
  · intro p ps hp hps
    simpa using ⟨hp, hps⟩

/-- A sequence of pieces. -/
abbrev Branch := List Piece

/-- A pattern: its alternatives. -/
abbrev Pattern := List Branch

/-- The operator of a piece. -/
def Piece.op : Piece → Operator
  | .single _ op => op
  | .group _ op => op

/-! ### Texts -/

/-- An entry of a bracket list as it is written. -/
def Entry.text : Entry → List Char
  | .char c => [c]
  | .range first last => [first, '-', last]

/-- The letter of a class. -/
def SpecialClass.letter : SpecialClass → Bool → Char
  | .digit, false => 'd'
  | .digit, true => 'D'
  | .word, false => 'w'
  | .word, true => 'W'
  | .space, false => 's'
  | .space, true => 'S'

/-- The text between the brackets of a bracket list. -/
def bracketContent (negated : Bool) (entries : List Entry) : List Char :=
  (if negated then ['^'] else []) ++ entries.flatMap Entry.text

/-- An atom as it is written. -/
def Atom.text : Atom → List Char
  | .literal c => [c]
  | .escaped c => ['\\', c]
  | .any => ['.']
  | .bracket negated entries => '[' :: bracketContent negated entries ++ [']']
  | .special negated c => ['\\', c.letter negated]

/-- An operator as it is written. -/
def Operator.text : Operator → List Char
  | .concat => []
  | .kleeneStar => ['*']
  | .oneOrMore => ['+']
  | .oneOrZero => ['?']

mutual

/-- A piece as it is written, without its operator. -/
def Piece.body : Piece → List Char
  | .single atom _ => atom.text
  | .group alternatives _ => '(' :: patternText alternatives ++ [')']

/-- A sequence of pieces as it is written. -/
def branchText : List Piece → List Char
  | [] => []
  | p :: ps => p.body ++ p.op.text ++ branchText ps

/-- Alternatives as they are written. -/
def patternText : List (List Piece) → List Char
  | [] => []
  | [b] => branchText b
  | b :: bs => branchText b ++ '|' :: patternText bs

end

/-! ### Languages -/

/-- The bytes of an entry. -/
def Entry.listed : Entry → ByteSet
  | .char c => [byteOf c]
  | .range first last =>
    (List.range (last.toNat + 1 - first.toNat)).map (fun k => UInt8.ofNat (first.toNat + k))

/-- The bytes of a class. -/
def SpecialClass.listed : SpecialClass → ByteSet
  | .digit => (Entry.range '0' '9').listed
  | .word => [Entry.range 'A' 'Z', .range 'a' 'z', .range '0' '9', .char '_'].flatMap Entry.listed
  | .space => [' ', '\t', '\r', '\n', '\x0b', '\x0c'].map byteOf

/-- The bytes an atom lists: those it reads, or those it does not read. -/
def Atom.listed : Atom → ByteSet
  | .literal c => [byteOf c]
  | .escaped c => [byteOf c]
  | .any => []
  | .bracket _ entries => entries.flatMap Entry.listed
  | .special _ c => c.listed

/-- The atom reads the bytes it does not list. -/
def Atom.isNegated : Atom → Bool
  | .any => true
  | .bracket negated _ => negated
  | .special negated _ => negated
  | _ => false

/-- The atom reads the byte. -/
def Atom.reads (a : Atom) (b : UInt8) : Bool := a.listed.contains b != a.isNegated

/-- The language of an atom: words of one byte. -/
def Atom.lang (a : Atom) : Language UInt8 := {w | ∃ b, a.reads b = true ∧ w = [b]}

/-- The language of an operator behind a language. -/
def Operator.lang (L : Language UInt8) : Operator → Language UInt8
  | .concat => L
  | .kleeneStar => L∗
  | .oneOrMore => L * L∗
  | .oneOrZero => L + 1

mutual

/-- The language of a piece without its operator. -/
def Piece.bodyLang : Piece → Language UInt8
  | .single atom _ => atom.lang
  | .group alternatives _ => patternLang alternatives

/-- The language of a sequence of pieces. -/
def branchLang : List Piece → Language UInt8
  | [] => 1
  | p :: ps => p.op.lang p.bodyLang * branchLang ps

/-- The language of alternatives. -/
def patternLang : List (List Piece) → Language UInt8
  | [] => 0
  | b :: bs => branchLang b + patternLang bs

end

/-! ### Properties of all parts -/

section Every

variable (A : Atom → Prop) (G : Pattern → Prop)

mutual

/-- Every atom of the piece satisfies `A`, and the alternatives of every group satisfy `G`. -/
def Piece.Every : Piece → Prop
  | .single atom _ => A atom
  | .group alternatives _ => G alternatives ∧ alternativesEvery alternatives

/-- The same for the pieces of a sequence. -/
def branchEvery : List Piece → Prop
  | [] => True
  | p :: ps => p.Every ∧ branchEvery ps

/-- The same for alternatives. -/
def alternativesEvery : List (List Piece) → Prop
  | [] => True
  | b :: bs => branchEvery b ∧ alternativesEvery bs

end

variable {A G}

theorem branchEvery_iff {b : Branch} :
  branchEvery A G b ↔ ∀ p ∈ b, p.Every A G
  := by
  induction b with
  | nil => simp [branchEvery]
  | cons p ps ih => simp [branchEvery, ih]

theorem alternativesEvery_iff {bs : Pattern} :
  alternativesEvery A G bs ↔ ∀ b ∈ bs, ∀ p ∈ b, p.Every A G
  := by
  induction bs with
  | nil => simp [alternativesEvery]
  | cons b bs ih => simp [alternativesEvery, ih, branchEvery_iff]

end Every

mutual

/-- The piece can read the empty word. -/
def Piece.isNullable : Piece → Bool
  | .single _ op => op == .kleeneStar || op == .oneOrZero
  | .group alternatives op =>
    op == .kleeneStar || op == .oneOrZero || alternativesNullable alternatives

/-- All pieces can read the empty word. -/
def branchNullable : List Piece → Bool
  | [] => true
  | p :: ps => p.isNullable && branchNullable ps

/-- One of the alternatives can read the empty word. -/
def alternativesNullable : List (List Piece) → Bool
  | [] => false
  | b :: bs => branchNullable b || alternativesNullable bs

end

theorem branchNullable_iff {b : Branch} :
  branchNullable b = true ↔ ∀ p ∈ b, p.isNullable = true
  := by
  induction b with
  | nil => simp [branchNullable]
  | cons p ps ih => simp [branchNullable, ih]

theorem alternativesNullable_iff {bs : Pattern} :
  alternativesNullable bs = true ↔ ∃ b ∈ bs, branchNullable b = true
  := by
  induction bs with
  | nil => simp [alternativesNullable]
  | cons b bs ih => simp [alternativesNullable, ih]

/-! ### Words -/

theorem mem_patternLang {bs : List Branch} {w : List UInt8} :
  w ∈ patternLang bs ↔ ∃ b ∈ bs, w ∈ branchLang b
  := by
  induction bs with
  | nil => simp [patternLang]
  | cons b bs ih =>
    rw [patternLang, Language.mem_add, ih]
    simp

theorem branchLang_cons {p : Piece} {ps : Branch} :
  branchLang (p :: ps) = p.op.lang p.bodyLang * branchLang ps
  := by
  rw [branchLang]

theorem branchText_cons {p : Piece} {ps : Branch} :
  branchText (p :: ps) = p.body ++ p.op.text ++ branchText ps
  := by
  rw [branchText]

theorem patternText_cons_cons {b c : Branch} {bs : Pattern} :
  patternText (b :: c :: bs) = branchText b ++ '|' :: patternText (c :: bs)
  := by
  rw [patternText]
  simp

/-! ### Characters -/

/-- The characters with a meaning of their own. -/
def specialCharacters : List Char :=
  ['\\', '.', '[', ']', '^', '$', '|', '*', '+', '?', '(', ')', '\x7b', '\x7d']

/-- A character of Latin-1 other than the zero character. -/
def isByte (c : Char) : Bool := 0 < c.toNat && c.toNat < 256

theorem isByte_iff {c : Char} :
  isByte c = true ↔ 0 < c.toNat ∧ c.toNat < 256
  := by
  simp [isByte]

theorem byteOf_ne_zero {c : Char} (h : isByte c = true) :
  byteOf c ≠ 0
  := by
  obtain ⟨hpos, hlt⟩ := isByte_iff.mp h
  intro heq
  have htoNat := congrArg UInt8.toNat heq
  simp only [byteOf, UInt8.toNat_ofNat', UInt8.toNat_zero] at htoNat
  omega

end Librecompare

import Contextd.Librecompare.RegExp

/-!
# Parsing a pattern

`RegExp::parsePattern` goes through the bytes of the pattern with an index, and keeps the last token
until it knows the operator behind it.  The text of a sub-expression or of a bracket list is removed
from the data once it is read, and the index stays.  A bar splits the rest off: the part before it
becomes an expression whose pattern is what is left of the data.
-/

namespace Librecompare

/-! ### Texts -/

/-- `QString::toLatin1`: a character outside Latin-1 becomes a question mark. -/
def toLatin1 (c : Char) : Char := if c.toNat < 256 then c else '?'

/-- The byte of a Latin-1 character. -/
def byteOf (c : Char) : UInt8 := UInt8.ofNat c.toNat

/-- `QString(const QByteArray &)`: the text up to the first zero byte. -/
def ofByteArray (data : List Char) : List Char := data.takeWhile (· ≠ Char.ofNat 0)

/-! ### Bracket lists -/

/-- The value of a byte as a `char`, which is signed. -/
def signed (b : UInt8) : ℤ := if b.toNat < 128 then b.toNat else b.toNat - 256

/-- The character of a `char`. -/
def ofSigned (i : ℤ) : Char := Char.ofNat (i % 256).toNat

/-- The characters strictly between two others, as the loop over a `char` counts them. -/
def rangeBetween (first last : Char) : List Char :=
  let rangeBegin := signed (byteOf first + 1)
  let rangeEnd := signed (byteOf last)
  (List.range (rangeEnd - rangeBegin).toNat).map (fun k => ofSigned (rangeBegin + k))

/-- `indexOf(QRegExp("[^\\]-."), from)` in the text behind the index `from`: where a character that
is no backslash is followed by a minus and one more character. -/
def indexOfRange : List Char → Option ℕ
  | c :: c' :: c'' :: cs =>
    if c ≠ '\\' ∧ c' = '-' then some 0 else (indexOfRange (c' :: c'' :: cs)).map (· + 1)
  | _ => none

/-- One turn of the loop over the ranges, at the index `index` of the first character of a range:
further minus signs and backslashes are removed, and the minus is replaced by what is between the
two characters. -/
def expandAt (text : List Char) (index : ℕ) : List Char × ℕ :=
  let before := text.take index
  let after := (text.drop (index + 2)).dropWhile (· = '-')
  let first := text.getD index (Char.ofNat 0)
  let before := if before.getLast? = some '\\' then before.dropLast else before
  let after := if after.head? = some '\\' ∧ 2 ≤ after.length then after.tail else after
  let expanded := rangeBetween first (after.headD (Char.ofNat 0))
  let expandedText := ofByteArray expanded
  (before ++ first :: expandedText ++ after, before.length + 1 + expanded.length)

/-- The loop over the ranges, from an index on. -/
def expandRanges : ℕ → List Char → ℕ → List Char
  | 0, text, _ => text
  | n + 1, text, start =>
    match indexOfRange (text.drop start) with
    | none => text
    | some i =>
      let (text, start) := expandAt text (start + i)
      expandRanges n text start

/-- The type and the bytes of a bracket list, given the text between the brackets. -/
def bracketToken (text : List Char) : TokenType × ByteSet :=
  match expandRanges text.length text 0 with
  | '^' :: cs => (.exclude, cs.map (fun c => byteOf (toLatin1 c)))
  | cs => (.bracket, cs.map (fun c => byteOf (toLatin1 c)))

/-- The text a class escape stands for. -/
def specialClass : Char → Option (List Char)
  | 's' => some [' ', '\t', '\r', '\n', '\x0b', '\x0c']
  | 'S' => some ['^', ' ', '\t', '\r', '\n', '\x0b', '\x0c']
  | 'd' => some ['0', '-', '9']
  | 'D' => some ['^', '0', '-', '9']
  | 'w' => some ['A', '-', 'Z', 'a', '-', 'z', '0', '-', '9', '_']
  | 'W' => some ['^', 'A', '-', 'Z', 'a', '-', 'z', '0', '-', '9', '_']
  | _ => none

/-- The text between the brackets in the data behind `[`, and the data behind the brackets. -/
def bracketText (data : List Char) : List Char × List Char :=
  let closingIndex := match indexOfClosing (ofByteArray data) with
    | some i => i + 1
    | none => 0
  (data.take closingIndex, data.drop (closingIndex + 1))

/-- The text of a sub-expression in the data behind `(`, and the data behind the parentheses.  A
`)` right at the start does not end the search. -/
def subPatternText (data : List Char) : List Char × List Char :=
  let index := match data with
    | ')' :: cs => (indexOfEnd ')' 0 cs).map (· + 1)
    | _ => indexOfEnd '(' 0 data
  let size := index.getD 0
  (data.take size, data.drop (size + 1))

/-! ### The loop -/

/-- The state of the parser: the data before and behind the index, the transitions found, the
current one, and whether a token and an operator have been found for it. -/
structure Scan where
  /-- The data before the index. -/
  before : List Char
  /-- The data from the index on. -/
  data : List Char
  /-- The transitions found. -/
  transitions : List (Transition RegExp)
  /-- The current transition. -/
  current : Transition RegExp
  /-- Whether a token was found for the current transition. -/
  foundToken : Bool
  /-- Whether an operator was found for the current transition. -/
  foundOp : Bool

namespace Scan

/-- The state before the first byte. -/
def start (data : List Char) : Scan where
  before := []
  data := data
  transitions := []
  current := ⟨.noType, [], [], .concat⟩
  foundToken := false
  foundOp := false

/-- The transitions with the current one, if its token was found. -/
def flushed (s : Scan) : List (Transition RegExp) :=
  if s.foundToken then
    s.transitions ++ [{ s.current with op := if s.foundOp then s.current.op else .concat }]
  else s.transitions

/-- Appending the transition found before, at the next token. -/
def flush (s : Scan) : Scan :=
  if s.foundToken then
    { s with
      transitions := s.flushed
      current := { s.current with
        data := [], subExprs := [], op := if s.foundOp then s.current.op else .concat }
      foundToken := false
      foundOp := false }
  else s

/-- An operator: together with a different one before it, it becomes a star. -/
def operator (s : Scan) (op : Operator) : Scan :=
  let op := if op ≠ .kleeneStar ∧ s.foundOp ∧ s.current.op ≠ op then .kleeneStar else op
  { s with current := { s.current with op := op }, foundOp := true }

/-- A token of type `type` that lists the bytes `data`. -/
def token (s : Scan) (type : TokenType) (data : ByteSet) : Scan :=
  { s with current := { s.current with type := type, data := data }, foundToken := true }

end Scan

/-- The operator a byte stands for. -/
def operatorOf : Char → Option Operator
  | '*' => some .kleeneStar
  | '+' => some .oneOrMore
  | '?' => some .oneOrZero
  | _ => none

namespace RegExp

variable (qt : Qt)

/-- The loop of `parsePattern`, for `n` bytes at most; a pattern inside the pattern is parsed by the
same loop. -/
def scan : ℕ → Scan → List (Transition RegExp)
  | 0, s => s.flushed
  | n + 1, s =>
    match s.data with
    | [] => s.flushed
    | '\\' :: c :: cs =>
      let s := { s with before := s.before ++ ['\\', c], data := cs }.flush
      match specialClass c with
      | some text => scan n (s.token (bracketToken text).1 (bracketToken text).2)
      | none => scan n (s.token .normal [byteOf c])
    | c :: cs =>
      match operatorOf c with
      | some op => scan n ({ s with before := s.before ++ [c], data := cs }.operator op)
      | none =>
        let s := s.flush
        match c with
        | '(' =>
          let (subPattern, rest) := subPatternText cs
          let sub := ofByteArray subPattern
          let subExpr :=
            mk sub (if qt.isValid sub then scan n (.start (sub.map toLatin1)) else [])
          scan n { s with
            data := rest
            current := { s.current with
              type := .subExpr, subExprs := s.current.subExprs ++ [subExpr] }
            foundToken := true }
        | '|' =>
          let after := ofByteArray cs
          let next :=
            mk after (if qt.isValid after then scan n (.start (after.map toLatin1)) else [])
          let prev := mk (ofByteArray s.before) s.transitions
          scan n { s with
            data := []
            transitions := []
            current := (prev.or qt next).transitions.headD s.current
            foundToken := true }
        | '[' =>
          let (text, rest) := bracketText cs
          scan n ({ s with data := rest }.token (bracketToken text).1 (bracketToken text).2)
        | '.' => scan n ({ s with
            before := s.before ++ ['.'], data := cs }.token .any s.current.data)
        | c => scan n ({ s with before := s.before ++ [c], data := cs }.token .normal [byteOf c])

/-- `RegExp::parsePattern`: a pattern that `QRegExp` does not accept has no transitions. -/
def parsePattern (pattern : List Char) : List (Transition RegExp) :=
  if qt.isValid pattern then scan qt (pattern.length + 1) (.start (pattern.map toLatin1)) else []

/-- `RegExp(const QString &)`. -/
def ofPattern (pattern : List Char) : RegExp := mk pattern (parsePattern qt pattern)

end RegExp

end Librecompare

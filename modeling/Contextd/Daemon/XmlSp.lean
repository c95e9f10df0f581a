import Contextd.Data.OrdMap

/-!
# The parser of context messages

`XMLSP::Parser`, the push parser that reads the XML a client sends, with its subclass
`XMLContext2Map`, which collects the `name` and `value` attributes of the `parameter` elements.
`parse_chunk` advances it by one byte at a time, by a branch for each value of `status_parse`, which
ends in a new state, in an error, or in `tag_stack.pop()` on an empty stack (`Outcome`).

`begin` resets everything but `status_stack`, so the outcome of a parse does not depend on the
messages before it (`result_parse`).  A text that is accepted has closed all its tags
(`tagStack_of_parse`).
-/

namespace XmlSp

/-- A `std::string`. -/
abbrev Bytes := List UInt8

/-- The byte of a character literal. -/
def byte (c : Char) : UInt8 := c.toUInt8

/-- The bytes of a string literal. -/
def bytes (s : String) : Bytes := s.toList.map byte

/-- `IS_SPACE`. -/
def isSpace (c : UInt8) : Bool := c == byte ' ' || c == byte '\n' || c == byte '\t'

/-- `isalnum`, in the locale of the program. -/
def isAlnum (c : UInt8) : Bool :=
  (byte '0' ≤ c && c ≤ byte '9') || (byte 'A' ≤ c && c ≤ byte 'Z') ||
    (byte 'a' ≤ c && c ≤ byte 'z')

/-- `IS_LABEL`. -/
def isLabel (c : UInt8) : Bool :=
  isAlnum c || c == byte '-' || c == byte '_' || c == byte '.' || c == byte ':'

/-- The values of `status_parse`. -/
inductive Status where
  | top
  | text
  | entity
  | openTag
  | closeTag
  | startTag
  | attrLvalue
  | attrEqual
  | attrRvalue
  | inTag
  | singleTag
  | comment
  | commentDoctype
  | commentStart
  | doctype
  | processing
  | cdata
  deriving DecidableEq, Repr

/-- The error codes that are reported. -/
inductive ErrorCode where
  | tagNotClosed
  | unexpectedCdata
  | unexpectedChar
  | invalidEntity
  | unknownElement
  | blockNotClosed
  | tagNotFinished
  | multiplRoot
  | tagMismatch
  | internal
  deriving DecidableEq, Repr

/-- The arguments of `on_error`. -/
structure ParseError where
  errnr : ErrorCode
  line : Int
  col : Int
  message : Bytes
  deriving DecidableEq, Repr

/-- The parser object, with the context it collects. -/
structure Parser where
  currentLine : Int
  currentCol : Int
  statusNewLine : Bool
  statusHadRoot : Bool
  tagStack : List Bytes
  attributesTemp : OrdMap Bytes Bytes
  statusParse : Status
  statusStack : Status
  lastChar : UInt8
  beforeLastChar : UInt8
  textBuffer1 : Bytes
  textBuffer2 : Bytes
  currentTag : Bytes
  entityBuffer : Bytes
  context : OrdMap String String

/-- A parser object.  The constructor leaves these fields unset: `begin` sets all of them but
`status_stack`. -/
def Parser.new : Parser where
  currentLine := 0
  currentCol := 0
  statusNewLine := false
  statusHadRoot := false
  tagStack := []
  attributesTemp := ∅
  statusParse := .top
  statusStack := .top
  lastChar := 0
  beforeLastChar := 0
  textBuffer1 := []
  textBuffer2 := []
  currentTag := []
  entityBuffer := []
  context := ∅

/-- How a step, or a parse, ends. -/
inductive Outcome where
  | ok (p : Parser)
  | failed (p : Parser) (e : ParseError)
  | undefined

namespace Parser

/-- `report`, followed by `return false`. -/
def report (p : Parser) (errnr : ErrorCode) (message : Bytes) : Outcome :=
  .failed p ⟨errnr, p.currentLine, p.currentCol, message⟩

/-- Append a byte to `text_buffer1`. -/
def append (p : Parser) (c : UInt8) : Parser := { p with textBuffer1 := p.textBuffer1 ++ [c] }

/-- The value of an entity, empty when it is not known.  `entities[..]` stores an empty
value under an unknown name, which is read as a missing one is. -/
def entity (name : Bytes) : Bytes :=
  if name = bytes "lt" then bytes "<"
  else if name = bytes "gt" then bytes ">"
  else if name = bytes "amp" then bytes "&"
  else if name = bytes "apos" then bytes "'"
  else if name = bytes "quot" then bytes "\""
  else []

/-- `isspace`. -/
def isBlank (c : UInt8) : Bool := c == byte ' ' || (byte '\t' ≤ c && c ≤ byte '\r')

/-- The value of the leading decimal digits. -/
def digits (acc : Int) : Bytes → Int
  | [] => acc
  | c :: cs =>
      if byte '0' ≤ c ∧ c ≤ byte '9' then digits (acc * 10 + (c.toNat - 48 : Nat)) cs else acc

/-- `atoi`: `strtol`, which is limited to 64 bits. -/
def atoi (s : Bytes) : Int :=
  let n :=
    match s.dropWhile isBlank with
    | [] => 0
    | c :: cs =>
        if c = byte '-' then - digits 0 cs
        else if c = byte '+' then digits 0 cs
        else digits 0 (c :: cs)
  max (-9223372036854775808) (min 9223372036854775807 n)

/-- The conversion of an integer to a `char`. -/
def toChar (n : Int) : UInt8 := UInt8.ofNat (n % 256).toNat

/-! ### The tags -/

/-- The part of a `std::string` that `c_str` shows: up to the first null byte. -/
def cStr (s : Bytes) : Bytes := s.takeWhile (· ≠ 0)

variable (fromUtf8 : Bytes → String)

/-- `XMLContext2Map::on_tag_open`, on the attributes of the tag. -/
def onTagOpen (p : Parser) (tagName : Bytes) : Parser :=
  let name := p.attributesTemp.getD (bytes "name") []
  let value := p.attributesTemp.getD (bytes "value") []
  if tagName = bytes "parameter" ∧ name ≠ [] ∧ value ≠ [] then
    { p with context := p.context.insert (fromUtf8 (cStr name)) (fromUtf8 (cStr value)) }
  else p

/-- The end of an opening tag: the tag is current and its text follows. -/
def openCurrent (p : Parser) : Parser :=
  { p.onTagOpen fromUtf8 p.currentTag with
    tagStack := p.currentTag :: p.tagStack
    textBuffer1 := []
    statusParse := .text
    attributesTemp := ∅ }

/-! ### The branches of `parse_chunk` -/

/-- `M_TOP`. -/
def atTop (p : Parser) (c : UInt8) : Outcome :=
  if c = byte '<' then .ok { p with statusParse := .startTag }
  else if isSpace c then .ok p
  else p.report .unexpectedCdata (bytes "Unexpected character outside tag")

/-- `M_START_TAG`. -/
def atStartTag (p : Parser) (c : UInt8) : Outcome :=
  if c = byte '?' ∧ p.tagStack = [] then .ok { p with statusParse := .processing }
  else if c = byte '!' then .ok { p with statusParse := .commentDoctype }
  else if c = byte '/' then .ok { p with statusParse := .closeTag }
  else if isLabel c then
    if p.tagStack = [] ∧ p.statusHadRoot = true then
      p.report .multiplRoot (bytes "A second root tag found")
    else .ok { p with statusParse := .openTag, textBuffer1 := [c] }
  else p.report .unexpectedChar (bytes "Unexpected character at the begining of a tag")

/-- `M_OPEN_TAG`. -/
def atOpenTag (p : Parser) (c : UInt8) : Outcome :=
  if isLabel c then .ok (p.append c)
  else if isSpace c then
    .ok { p with currentTag := p.textBuffer1, textBuffer1 := [], statusParse := .inTag }
  else if c = byte '/' then
    .ok { p with currentTag := p.textBuffer1, statusParse := .singleTag }
  else if c = byte '>' then
    let p := if p.attributesTemp.size = 0 then { p with currentTag := p.textBuffer1 } else p
    .ok (p.openCurrent fromUtf8)
  else p.report .unexpectedChar (bytes "Unexpected character in tag")

/-- `M_SINGLE_TAG`. -/
def atSingleTag (p : Parser) (c : UInt8) : Outcome :=
  if c = byte '>' then
    let q := { p.onTagOpen fromUtf8 p.currentTag with attributesTemp := ∅, textBuffer1 := [] }
    match p.tagStack with
    | tag :: _ => .ok { q with statusParse := .text, currentTag := tag }
    | [] => .ok { q with statusParse := .top, statusHadRoot := true }
  else p.report .unexpectedChar (bytes "Unexpected character in tag level after slash")

/-- `M_PROCESSING`. -/
def atProcessing (p : Parser) (c : UInt8) : Outcome :=
  if c = byte '>' ∧ p.lastChar = byte '?' then
    .ok { p with statusParse := .top, textBuffer1 := [] }
  else .ok (p.append c)

/-- `M_COMMENT_DOCTYPE`. -/
def atCommentDoctype (p : Parser) (c : UInt8) : Outcome :=
  if c = byte '-' then .ok { p with statusParse := .commentStart }
  else if c = byte '[' then .ok { p with statusParse := .doctype, textBuffer1 := bytes "[" }
  else if p.tagStack = [] ∧ p.statusHadRoot = false then
    .ok { p with statusParse := .doctype, textBuffer1 := [c] }
  else
    p.report .unexpectedChar (bytes "Unexpected character, expected comment or DOCTYPE")

/-- `M_DOCTYPE`. -/
def atDoctype (p : Parser) (c : UInt8) : Outcome :=
  if c = byte '>' then
    if p.textBuffer1.length < 8 then
      p.report .unknownElement (bytes "Unknonw element found")
    else .ok { p with statusParse := .top, textBuffer1 := [] }
  else
    let p := p.append c
    if p.textBuffer1.length = 7 then
      if p.textBuffer1 = bytes "[CDATA[" then
        .ok { p with textBuffer1 := [], statusParse := .cdata }
      else if p.textBuffer1 ≠ bytes "DOCTYPE" then
        p.report .unknownElement (bytes "Unknonw element found")
      else .ok p
    else .ok p

/-- `M_COMMENT_START`. -/
def atCommentStart (p : Parser) (c : UInt8) : Outcome :=
  if c = byte '-' then .ok { p with statusParse := .comment }
  else p.report .unexpectedChar (bytes "Unexpected character, expecting '-' for comment")

/-- `M_COMMENT`. -/
def atComment (p : Parser) (c : UInt8) : Outcome :=
  if c = byte '>' ∧ p.beforeLastChar = byte '-' ∧ p.lastChar = byte '-' then
    .ok { p with textBuffer1 := [], statusParse := if p.tagStack = [] then .top else .text }
  else .ok (p.append c)

/-- `M_IN_TAG`. -/
def atInTag (p : Parser) (c : UInt8) : Outcome :=
  if isLabel c then .ok { p with statusParse := .attrLvalue, textBuffer1 := [c] }
  else if isSpace c then .ok p
  else if c = byte '>' then .ok (p.openCurrent fromUtf8)
  else if c = byte '/' then .ok { p with statusParse := .singleTag }
  else
    p.report .unexpectedChar
      (bytes "Unexpected character in tag, expected attribute or close")

/-- `M_ATTR_LVALUE`. -/
def atAttrLvalue (p : Parser) (c : UInt8) : Outcome :=
  if isLabel c then .ok (p.append c)
  else if c = byte '=' then
    .ok { p with textBuffer2 := p.textBuffer1, textBuffer1 := [], statusParse := .attrEqual }
  else p.report .unexpectedChar (bytes "Unexpected character in attribute name")

/-- `M_ATTR_EQUAL`. -/
def atAttrEqual (p : Parser) (c : UInt8) : Outcome :=
  if c = byte '"' then .ok { p with statusParse := .attrRvalue }
  else p.report .unexpectedChar (bytes "Unexpected character, expected double quote")

/-- `M_ATTR_RVALUE`. -/
def atAttrRvalue (p : Parser) (c : UInt8) : Outcome :=
  if c = byte '"' then
    .ok
      { p with
        attributesTemp := p.attributesTemp.insert p.textBuffer2 p.textBuffer1
        textBuffer1 := []
        statusParse := .inTag }
  else if c = byte '&' then
    .ok { p with entityBuffer := [], statusStack := p.statusParse, statusParse := .entity }
  else .ok (p.append c)

/-- The end of an entity: its value goes to `text_buffer1`. -/
def closeEntity (p : Parser) (value : Bytes) : Outcome :=
  .ok
    { p with
      textBuffer1 := p.textBuffer1 ++ value
      entityBuffer := []
      statusParse := p.statusStack }

/-- `M_ENTITY`.  The two bytes of a hexadecimal entity start with `x`, so `strtol` reads
`0`. -/
def atEntity (p : Parser) (c : UInt8) : Outcome :=
  if c = byte ';' then
    match p.entityBuffer with
    | [] => p.report .invalidEntity (bytes "Empty entity identifier found")
    | first :: rest =>
        if first = byte '#' then
          let p := { p with entityBuffer := rest }
          match rest with
          | [] => p.report .invalidEntity (bytes "Empty decimal entity identifier found")
          | x :: _ =>
              if x = byte 'x' then
                if rest.length ≠ 2 then
                  p.report .invalidEntity (bytes "Hex entity should have 2 character value")
                else p.closeEntity [0]
              else p.closeEntity [toChar (atoi rest)]
        else if entity p.entityBuffer = [] then p.report .invalidEntity (bytes "Unknown entity")
        else p.closeEntity (entity p.entityBuffer)
  else .ok { p with entityBuffer := p.entityBuffer ++ [c] }

/-- `M_CDATA`. -/
def atCdata (p : Parser) (c : UInt8) : Outcome :=
  if c = byte '>' ∧ p.beforeLastChar = byte ']' ∧ p.lastChar = byte ']' then
    .ok { p with statusParse := .text, textBuffer1 := [] }
  else .ok (p.append c)

/-- `M_CLOSE_TAG`. -/
def atCloseTag (p : Parser) (c : UInt8) : Outcome :=
  if isLabel c then .ok (p.append c)
  else if c = byte '>' then
    if p.textBuffer1 ≠ p.currentTag then
      p.report .tagMismatch
        (bytes "Closing tag '" ++ p.textBuffer1 ++ bytes "' at level of '" ++ p.currentTag ++
          bytes "'")
    else
      match p.tagStack with
      -- `pop` on an empty stack: outside the root, a closing tag of the tag that was current
      -- last.
      | [] => .undefined
      | _ :: [] => .ok { p with tagStack := [], statusParse := .top, textBuffer1 := [] }
      | _ :: tag :: tags =>
          .ok
            { p with
              tagStack := tag :: tags
              statusParse := .text
              currentTag := tag
              textBuffer1 := [] }
  else p.report .unexpectedChar (bytes "Unexpected character in closing tag")

/-- `M_TEXT`. -/
def atText (p : Parser) (c : UInt8) : Outcome :=
  -- `entity_buffer` is cleared in an attribute value, and not here.
  if c = byte '&' then .ok { p with statusStack := p.statusParse, statusParse := .entity }
  else if c = byte '<' then .ok { p with statusParse := .startTag, textBuffer1 := [] }
  else if c = byte '>' then
    p.report .unexpectedChar (bytes "Unexpected character '>' in CDATA")
  else .ok (p.append c)

/-! ### The whole parse -/

/-- The branch of `parse_chunk` for the status. -/
def dispatch (p : Parser) (c : UInt8) : Outcome :=
  match p.statusParse with
  | .top => p.atTop c
  | .startTag => p.atStartTag c
  | .openTag => p.atOpenTag fromUtf8 c
  | .singleTag => p.atSingleTag fromUtf8 c
  | .processing => p.atProcessing c
  | .commentDoctype => p.atCommentDoctype c
  | .doctype => p.atDoctype c
  | .commentStart => p.atCommentStart c
  | .comment => p.atComment c
  | .inTag => p.atInTag fromUtf8 c
  | .attrLvalue => p.atAttrLvalue c
  | .attrEqual => p.atAttrEqual c
  | .attrRvalue => p.atAttrRvalue c
  | .entity => p.atEntity c
  | .cdata => p.atCdata c
  | .closeTag => p.atCloseTag c
  | .text => p.atText c

/-- The treatment of line ends: the byte to parse, if any.  A second carriage return in a
row is left as it is. -/
def newline (p : Parser) (c : UInt8) : Parser × Option UInt8 :=
  if c = byte '\n' ∧ p.statusNewLine = true then ({ p with statusNewLine := false }, none)
  else if p.statusNewLine = true then ({ p with statusNewLine := false }, some c)
  else if c = byte '\n' then
    ({ p with currentLine := p.currentLine + 1, currentCol := 0 }, some c)
  else if c = byte '\r' then
    ({ p with statusNewLine := true, currentLine := p.currentLine + 1, currentCol := 0 },
      some (byte '\n'))
  else ({ p with currentCol := p.currentCol + 1 }, some c)

/-- The end of an iteration: the last two bytes are remembered. -/
def remember (c : UInt8) : Outcome → Outcome
  | .ok p => .ok { p with beforeLastChar := p.lastChar, lastChar := c }
  | o => o

/-- One iteration of `parse_chunk`. -/
def advance (p : Parser) (c : UInt8) : Outcome :=
  match p.newline c with
  | (p, none) => .ok p
  | (p, some c) => remember c (p.dispatch fromUtf8 c)

/-- `Parser::parse_chunk`. -/
def parseChunk (p : Parser) : Bytes → Outcome
  | [] => .ok p
  | c :: cs =>
      match p.advance fromUtf8 c with
      | .ok p => parseChunk p cs
      | o => o

/-- `Parser::begin`, with `XMLContext2Map::on_document_begin`. -/
def begin (p : Parser) : Parser where
  currentLine := 1
  currentCol := 0
  statusNewLine := false
  statusHadRoot := false
  tagStack := []
  attributesTemp := ∅
  statusParse := .top
  statusStack := p.statusStack
  lastChar := 0
  beforeLastChar := 0
  textBuffer1 := []
  textBuffer2 := []
  currentTag := []
  entityBuffer := []
  context := ∅

/-- `Parser::end`. -/
def finish (p : Parser) : Outcome :=
  match p.statusParse with
  | .top => .ok p
  | .cdata | .comment | .commentDoctype | .commentStart =>
      p.report .blockNotClosed
        (bytes "Comment, DOCTYPE, CDATA or processing instruction not closed")
  | .openTag | .closeTag | .singleTag | .attrLvalue | .attrEqual | .attrRvalue | .startTag
  | .inTag => p.report .tagNotFinished (bytes "Tag not finished or is invalid")
  | .text => p.report .tagNotClosed (bytes "Open tag missing close tag")
  | .entity => p.report .invalidEntity (bytes "Entity not finished, missing ';'")
  | .doctype | .processing => p.report .internal (bytes "XML document not finished")

/-- `Parser::parse`. -/
def parse (p : Parser) (xml : Bytes) : Outcome :=
  match p.begin.parseChunk fromUtf8 xml with
  | .ok p => p.finish
  | o => o

end Parser

/-- What a parse gives: the context, or an error.  There is nothing when its effect is not
defined. -/
def Outcome.result : Outcome → Option (Except ParseError (OrdMap String String))
  | .ok p => some (.ok p.context)
  | .failed _ e => some (.error e)
  | .undefined => none

/-! ### A parse does not depend on the messages before -/

namespace Parser

/-- The parser with another `status_stack`. -/
def withStack (p : Parser) (s : Status) : Parser := { p with statusStack := s }

end Parser

/-- The outcome with another `status_stack`. -/
def Outcome.withStack (s : Status) : Outcome → Outcome
  | .ok p => .ok (p.withStack s)
  | .failed p e => .failed (p.withStack s) e
  | .undefined => .undefined

namespace Parser

variable (fromUtf8 : Bytes → String) (p : Parser) (s : Status) (c : UInt8)

theorem onTagOpen_withStack (tagName : Bytes) :
  (p.withStack s).onTagOpen fromUtf8 tagName = (p.onTagOpen fromUtf8 tagName).withStack s
  := by
  simp only [onTagOpen, apply_ite (fun q : Parser => q.withStack s)]
  rfl

theorem openCurrent_withStack :
  (p.withStack s).openCurrent fromUtf8 = (p.openCurrent fromUtf8).withStack s
  := by
  have htag : (p.withStack s).currentTag = p.currentTag := rfl
  rw [openCurrent, htag, onTagOpen_withStack]
  rfl

theorem atOpenTag_withStack :
  (p.withStack s).atOpenTag fromUtf8 c = (p.atOpenTag fromUtf8 c).withStack s
  := by
  have hcl : ∀ q : Parser, Outcome.ok ((q.withStack s).openCurrent fromUtf8) =
      (Outcome.ok (q.openCurrent fromUtf8)).withStack s := by
    intro q
    rw [openCurrent_withStack]
    rfl
  simp only [atOpenTag, apply_ite (Outcome.withStack s), ← hcl,
    apply_ite (fun q : Parser => q.withStack s)]
  rfl

theorem atInTag_withStack :
  (p.withStack s).atInTag fromUtf8 c = (p.atInTag fromUtf8 c).withStack s
  := by
  simp only [atInTag, apply_ite (Outcome.withStack s), openCurrent_withStack]
  rfl

theorem atSingleTag_withStack :
  (p.withStack s).atSingleTag fromUtf8 c = (p.atSingleTag fromUtf8 c).withStack s
  := by
  have htag : (p.withStack s).currentTag = p.currentTag := rfl
  have htags : (p.withStack s).tagStack = p.tagStack := rfl
  simp only [atSingleTag, apply_ite (Outcome.withStack s), htag, htags, onTagOpen_withStack]
  cases p.tagStack <;> rfl

/-- A branch that neither sets nor reads `status_stack` passes it on. -/
theorem dispatch_withStack (hent : p.statusParse ≠ .entity) (ht : p.statusParse ≠ .text)
    (hvl : p.statusParse ≠ .attrRvalue) :
  (p.withStack s).dispatch fromUtf8 c = (p.dispatch fromUtf8 c).withStack s
  := by
  obtain ⟨line, col, newLine, hadRoot, tags, attributes, status, stack, last, beforeLast, text1,
    text2, tag, entity, context⟩ := p
  cases status with
  | top =>
    simp only [withStack, dispatch, atTop, apply_ite (Outcome.withStack s)]
    rfl
  | startTag =>
    simp only [withStack, dispatch, atStartTag, apply_ite (Outcome.withStack s)]
    rfl
  | openTag => apply atOpenTag_withStack
  | closeTag =>
    simp only [withStack, dispatch, atCloseTag, apply_ite (Outcome.withStack s)]
    rcases tags with _ | ⟨tag₁, _ | ⟨tag₂, tags⟩⟩ <;> rfl
  | attrLvalue =>
    simp only [withStack, dispatch, atAttrLvalue, apply_ite (Outcome.withStack s)]
    rfl
  | attrEqual =>
    simp only [withStack, dispatch, atAttrEqual, apply_ite (Outcome.withStack s)]
    rfl
  | inTag => apply atInTag_withStack
  | singleTag => apply atSingleTag_withStack
  | comment =>
    simp only [withStack, dispatch, atComment, apply_ite (Outcome.withStack s)]
    rfl
  | commentDoctype =>
    simp only [withStack, dispatch, atCommentDoctype, apply_ite (Outcome.withStack s)]
    rfl
  | commentStart =>
    simp only [withStack, dispatch, atCommentStart, apply_ite (Outcome.withStack s)]
    rfl
  | doctype =>
    simp only [withStack, dispatch, atDoctype, apply_ite (Outcome.withStack s)]
    rfl
  | processing =>
    simp only [withStack, dispatch, atProcessing, apply_ite (Outcome.withStack s)]
    rfl
  | cdata =>
    simp only [withStack, dispatch, atCdata, apply_ite (Outcome.withStack s)]
    rfl
  | entity => apply absurd rfl hent
  | text => apply absurd rfl ht
  | attrRvalue => apply absurd rfl hvl

variable {fromUtf8 p s c}

/-- Entities are entered from texts and attribute values only. -/
theorem statusParse_dispatch {p' : Parser} (hent : p.statusParse ≠ .entity)
    (ht : p.statusParse ≠ .text) (hvl : p.statusParse ≠ .attrRvalue)
    (h : p.dispatch fromUtf8 c = .ok p') :
  p'.statusParse ≠ .entity
  := by
  unfold dispatch at h
  cases hstat : p.statusParse with
  | entity => apply absurd hstat hent
  | text => apply absurd hstat ht
  | attrRvalue => apply absurd hstat hvl
  | closeTag =>
    simp only [hstat, atCloseTag, report] at h
    split_ifs at h <;> (try split at h) <;> cases h <;> simp [append, hstat]
  | singleTag =>
    simp only [hstat, atSingleTag, report] at h
    split_ifs at h
    split at h <;> cases h <;> simp
  | comment =>
    simp only [hstat, atComment] at h
    split_ifs at h <;> cases h <;> simp [append, hstat]
  | _ =>
    simp only [hstat, atTop, atStartTag, atOpenTag, atProcessing, atCommentDoctype, atDoctype,
      atCommentStart, atInTag, atAttrLvalue, atAttrEqual, atCdata, report] at h
    split_ifs at h <;> cases h <;> simp [append, openCurrent, hstat]

/-- The parsers differ in `status_stack` only, and not while it is in use. -/
def Agree (p q : Parser) : Prop :=
  ∃ s, q = p.withStack s ∧ (p.statusParse = .entity → s = p.statusStack)

end Parser

/-- The outcomes agree: the same error, or parsers that agree. -/
def Outcome.Agree : Outcome → Outcome → Prop
  | .ok p, .ok q => p.Agree q
  | .failed _ e, .failed _ e' => e = e'
  | .undefined, .undefined => True
  | _, _ => False

/-- The three ways in which outcomes agree. -/
theorem Outcome.Agree.cases {o o' : Outcome} (h : o.Agree o') :
  (∃ p q, o = .ok p ∧ o' = .ok q ∧ p.Agree q) ∨
    (∃ p q e, o = .failed p e ∧ o' = .failed q e) ∨ (o = .undefined ∧ o' = .undefined)
  := by
  cases o with
  | ok p =>
    cases o' with
    | ok q => exact .inl ⟨p, q, rfl, rfl, h⟩
    | failed | undefined => cases h
  | failed p e =>
    cases o' with
    | failed q e' =>
      obtain rfl : e = e' := h
      exact .inr (.inl ⟨p, q, e, rfl, rfl⟩)
    | ok | undefined => cases h
  | undefined =>
    cases o' with
    | undefined => exact .inr (.inr ⟨rfl, rfl⟩)
    | ok | failed => cases h

namespace Parser

variable {fromUtf8 : Bytes → String} {p q : Parser} {c : UInt8}

theorem Agree.refl (p : Parser) :
  p.Agree p
  := ⟨p.statusStack, rfl, fun _ => rfl⟩

theorem agree_self : ∀ o : Outcome, o.Agree o
  | .ok p => Agree.refl p
  | .failed _ _ => rfl
  | .undefined => trivial

/-- An outcome agrees with the one that has another `status_stack`. -/
theorem agree_withStack {o : Outcome} {s : Status} (h : ∀ p, o = .ok p → p.statusParse ≠ .entity) :
  o.Agree (o.withStack s)
  := by
  cases o with
  | ok p => exact ⟨s, rfl, fun hent => absurd hent (h p rfl)⟩
  | failed p e => rfl
  | undefined => trivial

theorem atText_agree (s : Status) (h : p.statusParse = .text) :
  (p.atText c).Agree ((p.withStack s).atText c)
  := by
  simp only [atText]
  split_ifs
  · apply Agree.refl
  · exact ⟨s, rfl, nofun⟩
  · rfl
  · refine ⟨s, rfl, fun hent => ?_⟩
    cases h.symm.trans hent

theorem atAttrRvalue_agree (s : Status) (h : p.statusParse = .attrRvalue) :
  (p.atAttrRvalue c).Agree ((p.withStack s).atAttrRvalue c)
  := by
  simp only [atAttrRvalue]
  split_ifs
  · exact ⟨s, rfl, nofun⟩
  · apply Agree.refl
  · refine ⟨s, rfl, fun hent => ?_⟩
    cases h.symm.trans hent

/-- Parsers that agree have outcomes that agree. -/
theorem Agree.dispatch (h : p.Agree q) :
  (p.dispatch fromUtf8 c).Agree (q.dispatch fromUtf8 c)
  := by
  obtain ⟨s, rfl, hs⟩ := h
  by_cases hent : p.statusParse = .entity
  · obtain rfl := hs hent
    apply agree_self
  by_cases ht : p.statusParse = .text
  · have hleft : p.dispatch fromUtf8 c = p.atText c := by
      simp only [Parser.dispatch, ht]
    have hrt : (p.withStack s).dispatch fromUtf8 c = (p.withStack s).atText c := by
      simp only [Parser.dispatch, withStack, ht]
    rw [hleft, hrt]
    apply atText_agree s ht
  by_cases hvl : p.statusParse = .attrRvalue
  · have hleft : p.dispatch fromUtf8 c = p.atAttrRvalue c := by
      simp only [Parser.dispatch, hvl]
    have hrt : (p.withStack s).dispatch fromUtf8 c = (p.withStack s).atAttrRvalue c := by
      simp only [Parser.dispatch, withStack, hvl]
    rw [hleft, hrt]
    apply atAttrRvalue_agree s hvl
  · rw [dispatch_withStack fromUtf8 p s c hent ht hvl]
    apply agree_withStack
    intro p' hp'
    apply statusParse_dispatch hent ht hvl hp'

/-- Remembering the last bytes keeps outcomes that agree. -/
theorem agree_remember {o o' : Outcome} (h : o.Agree o') :
  (remember c o).Agree (remember c o')
  := by
  rcases h.cases with ⟨p, q, rfl, rfl, s, rfl, hs⟩ | ⟨p, q, e, rfl, rfl⟩ | ⟨rfl, rfl⟩
  · exact ⟨s, rfl, hs⟩
  · rfl
  · trivial

/-- The treatment of line ends does not look at `status_stack`. -/
theorem newline_withStack (p : Parser) (s : Status) :
  (p.withStack s).newline c = ((p.newline c).1.withStack s, (p.newline c).2) ∧
    (p.newline c).1.statusParse = p.statusParse ∧
    (p.newline c).1.statusStack = p.statusStack
  := by
  have hflag : (p.withStack s).statusNewLine = p.statusNewLine := rfl
  unfold newline
  rw [hflag]
  split_ifs <;> exact ⟨rfl, rfl, rfl⟩

theorem Agree.advance (h : p.Agree q) :
  (p.advance fromUtf8 c).Agree (q.advance fromUtf8 c)
  := by
  obtain ⟨s, rfl, hs⟩ := h
  obtain ⟨hnl, hstat, hstk⟩ := p.newline_withStack s (c := c)
  have hag : (p.newline c).1.Agree ((p.newline c).1.withStack s) := by
    refine ⟨s, rfl, ?_⟩
    rw [hstat, hstk]
    apply hs
  unfold Parser.advance
  rw [hnl]
  generalize p.newline c = next at hag
  obtain ⟨p', _ | c'⟩ := next
  · apply hag
  · apply agree_remember
    apply hag.dispatch

/-- Parsers that agree parse a chunk to outcomes that agree. -/
theorem Agree.parseChunk (h : p.Agree q) (cs : Bytes) :
  (p.parseChunk fromUtf8 cs).Agree (q.parseChunk fromUtf8 cs)
  := by
  induction cs generalizing p q with
  | nil => apply h
  | cons c cs ih =>
    have hs : (p.advance fromUtf8 c).Agree (q.advance fromUtf8 c) := h.advance
    simp only [Parser.parseChunk]
    rcases hs.cases with ⟨p', q', hp, hq, h'⟩ | ⟨p', q', e, hp, hq⟩ | ⟨hp, hq⟩
    · rw [hp, hq]
      apply ih h'
    · rw [hp, hq]
      rfl
    · rw [hp, hq]
      trivial

/-- `Parser::begin` forgets everything but `status_stack`. -/
theorem agree_begin (p q : Parser) :
  p.begin.Agree q.begin
  := by
  exact ⟨q.statusStack, rfl, nofun⟩

/-- Parsers that agree finish with the same result. -/
theorem Agree.result_finish (h : p.Agree q) :
  p.finish.result = q.finish.result
  := by
  obtain ⟨s, rfl, -⟩ := h
  have hstat : (p.withStack s).statusParse = p.statusParse := rfl
  unfold finish
  rw [hstat]
  cases p.statusParse <;> rfl

/-- What a parse gives depends on the text alone, not on what the parser read before. -/
theorem result_parse (p q : Parser) (xml : Bytes) :
  (p.parse fromUtf8 xml).result = (q.parse fromUtf8 xml).result
  := by
  have hag : (p.begin.parseChunk fromUtf8 xml).Agree (q.begin.parseChunk fromUtf8 xml) :=
    (agree_begin p q).parseChunk xml
  unfold parse
  rcases hag.cases with ⟨p', q', hp, hq, h'⟩ | ⟨p', q', e, hp, hq⟩ | ⟨hp, hq⟩
  · rw [hp, hq]
    apply h'.result_finish
  · rw [hp, hq]
    rfl
  · rw [hp, hq]

/-! ### What is accepted is closed -/

/-- Outside the tags none is open.  In a declaration none is, or it can only be a section of
text; an entity is in a text or in a value. -/
def Nested (p : Parser) : Prop :=
  match p.statusParse with
  | .top | .processing => p.tagStack = []
  | .doctype => p.tagStack = [] ∨ ∃ text, p.textBuffer1 = byte '[' :: text ∧ text.length < 6
  | .entity => p.statusStack = .text ∨ p.statusStack = .attrRvalue
  | _ => True

theorem Nested.dispatch (h : p.Nested) (hq : p.dispatch fromUtf8 c = .ok q) :
  q.Nested
  := by
  have hopen : ∀ tag, (p.onTagOpen fromUtf8 tag).tagStack = p.tagStack := by
    intro tag
    unfold onTagOpen
    dsimp only
    split <;> rfl
  unfold Parser.dispatch at hq
  cases hstat : p.statusParse <;> simp only [Nested, hstat] at h hq
  case doctype =>
    simp only [atDoctype, report] at hq
    rcases h with h | ⟨text, h, hlen⟩
    · split_ifs at hq <;> cases hq <;> simp [Nested, append, hstat, h]
    · have hn : (p.append c).textBuffer1 ≠ bytes "DOCTYPE" := by
        simp only [append, h]
        nofun
      split_ifs at hq <;> cases hq <;> simp_all [Nested, append] <;> omega
  case entity =>
    simp only [atEntity, report, closeEntity] at hq
    repeat' split at hq
    all_goals cases hq <;> rcases h with h | h <;> simp [Nested, hstat, h]
  all_goals
    simp only [atTop, atStartTag, atOpenTag, atSingleTag, atProcessing, atCommentDoctype,
      atCommentStart, atComment, atInTag, atAttrLvalue, atAttrEqual, atAttrRvalue, atCdata,
      atCloseTag, atText, report, append, openCurrent] at hq
    repeat' split at hq
    all_goals cases hq <;> simp_all [Nested, bytes]

theorem Nested.advance (h : p.Nested) (hq : p.advance fromUtf8 c = .ok q) :
  q.Nested
  := by
  have hnl : (p.newline c).1.Nested := by
    unfold newline
    repeat' split
    all_goals apply h
  unfold Parser.advance at hq
  generalize p.newline c = next at hq hnl
  obtain ⟨p', _ | c'⟩ := next
  · cases hq
    apply hnl
  · dsimp only at hq
    generalize hdisp : p'.dispatch fromUtf8 c' = o at hq
    cases o <;> cases hq
    apply hnl.dispatch hdisp

theorem Nested.parseChunk (h : p.Nested) (cs : Bytes) (hq : p.parseChunk fromUtf8 cs = .ok q) :
  q.Nested
  := by
  induction cs generalizing p with
  | nil => cases hq; apply h
  | cons c cs ih =>
    simp only [Parser.parseChunk] at hq
    split at hq
    · next hp' => apply ih (h.advance hp') hq
    · next hne => exact absurd hq (hne q)

/-- A text that is accepted has closed all the tags it opened. -/
theorem tagStack_of_parse (xml : Bytes) (h : p.parse fromUtf8 xml = .ok q) :
  q.tagStack = []
  := by
  unfold parse at h
  split at h
  · next p' hp' =>
    have hbegin : p.begin.Nested := by rfl
    have hp : p'.Nested := hbegin.parseChunk xml hp'
    unfold finish at h
    split at h <;> cases h
    next htop => simpa only [Nested, htop] using hp
  · next hne => exact absurd h (hne q)

theorem tagStack_of_parse_parameter :
  ∃ q, new.parse (fun _ => "") (bytes "<c><parameter/></c>") = .ok q ∧
    q.tagStack = []
  := by
  obtain ⟨q, hq⟩ : ∃ q,
      new.parse (fun _ => "") (bytes "<c><parameter/></c>") = .ok q := ⟨_, rfl⟩
  exact ⟨q, hq, tagStack_of_parse _ hq⟩

end Parser

end XmlSp

import Contextd.Daemon.Message

/-!
# Reading a message of names and values

The parser on the parts of a message that `xmlContext` writes: the tags, for which the parser
is followed from one part to the next (`inRoot`, `inValue`), and the values.  What is read for
a value is the value itself, but for two characters (`received`): the encoder writes `$lt;`
for `<`, which is no entity, and a carriage return is read as the end of a line.
-/

namespace XmlSp.Parser

open List Encoding

variable {fromUtf8 : Bytes → String} {p : Parser}

/-! ### Parts of a message -/

/-- A chunk is parsed part after part. -/
theorem parseChunk_append {p' : Parser} {bs cs : Bytes} (h : p.parseChunk fromUtf8 bs = .ok p') :
  p.parseChunk fromUtf8 (bs ++ cs) = p'.parseChunk fromUtf8 cs
  := by
  induction bs generalizing p with
  | nil =>
    cases h
    rfl
  | cons b bs ih =>
    rw [parseChunk] at h
    rw [cons_append, parseChunk]
    cases hs : p.advance fromUtf8 b with
    | ok q =>
      rw [hs] at h
      apply ih h
    | failed q e =>
      rw [hs] at h
      cases h
    | undefined =>
      rw [hs] at h
      cases h

/-- The fields that say where the parser is in the text, and those that a message of names and
values uses for a while only. -/
structure Residue where
  currentLine : Int
  currentCol : Int
  statusStack : Status
  lastChar : UInt8
  beforeLastChar : UInt8
  textBuffer2 : Bytes
  entityBuffer : Bytes

/-- The parser between the elements of a message. -/
def inRoot (r : Residue) (context : OrdMap String String) : Parser where
  currentLine := r.currentLine
  currentCol := r.currentCol
  statusNewLine := false
  statusHadRoot := false
  tagStack := [bytes "xmlContext"]
  attributesTemp := ∅
  statusParse := .text
  statusStack := r.statusStack
  lastChar := r.lastChar
  beforeLastChar := r.beforeLastChar
  textBuffer1 := []
  textBuffer2 := r.textBuffer2
  currentTag := bytes "xmlContext"
  entityBuffer := r.entityBuffer
  context := context

/-- The parser in the value of an attribute of a `parameter`, after some bytes of it. -/
def inValue (r : Residue) (newLine : Bool) (attributes : OrdMap Bytes Bytes) (name read : Bytes)
    (context : OrdMap String String) : Parser where
  currentLine := r.currentLine
  currentCol := r.currentCol
  statusNewLine := newLine
  statusHadRoot := false
  tagStack := [bytes "xmlContext"]
  attributesTemp := attributes
  statusParse := .attrRvalue
  statusStack := r.statusStack
  lastChar := r.lastChar
  beforeLastChar := r.beforeLastChar
  textBuffer1 := read
  textBuffer2 := name
  currentTag := bytes "parameter"
  entityBuffer := r.entityBuffer
  context := context

variable (fromUtf8) (r : Residue) (newLine : Bool) (attributes : OrdMap Bytes Bytes)
  (name value read : Bytes) (context : OrdMap String String)

theorem parseChunk_root :
  ∃ r', Parser.new.begin.parseChunk fromUtf8 (bytes "<xmlContext>") = .ok (inRoot r' ∅)
  := ⟨⟨_, _, _, _, _, _, _⟩, rfl⟩

theorem parseChunk_name :
  ∃ r', (inRoot r context).parseChunk fromUtf8 (bytes "<parameter name=\"") =
    .ok (inValue r' false ∅ (bytes "name") [] context)
  := ⟨⟨_, _, _, _, _, [], _⟩, rfl⟩

theorem parseChunk_value :
  ∃ r', (inValue r newLine attributes name read context).parseChunk fromUtf8
      (bytes "\" value=\"") =
    .ok (inValue r' false (attributes.insert name read) (bytes "value") [] context)
  := by
  cases newLine with
  | false => exact ⟨⟨_, _, _, _, _, [], _⟩, rfl⟩
  | true => exact ⟨⟨_, _, _, _, _, [], _⟩, rfl⟩

/-- The end of a `parameter` with a name and a value. -/
theorem parseChunk_close (hn : name ≠ []) (hvl : value ≠ []) :
  ∃ r', (inValue r newLine ((∅ : OrdMap Bytes Bytes).insert (bytes "name") name) (bytes "value")
      value context).parseChunk fromUtf8 (bytes "\"/>") =
    .ok (inRoot r' (context.insert (fromUtf8 (cStr name)) (fromUtf8 (cStr value))))
  := by
  rcases name with _ | ⟨b, bs⟩
  · apply absurd rfl hn
  rcases value with _ | ⟨c, cs⟩
  · apply absurd rfl hvl
  cases newLine with
  | false => exact ⟨⟨_, _, _, _, _, _, _⟩, rfl⟩
  | true => exact ⟨⟨_, _, _, _, _, _, _⟩, rfl⟩

theorem parseChunk_end :
  ∃ p, (inRoot r context).parseChunk fromUtf8 (bytes "</xmlContext>") = .ok p ∧
    p.finish = .ok p ∧ p.context = context
  := ⟨_, rfl, rfl, rfl⟩

/-- An ordinary byte of the value of an attribute. -/
def Ordinary (b : UInt8) : Prop :=
  b ≠ byte '"' ∧ b ≠ byte '&' ∧ b ≠ byte '\n' ∧ b ≠ byte '\r'

instance (b : UInt8) : Decidable (Ordinary b) := inferInstanceAs (Decidable (_ ∧ _))

theorem parseChunk_ordinary_byte {b : UInt8} (hb : Ordinary b) :
  ∃ r', (inValue r newLine attributes name read context).parseChunk fromUtf8 [b] =
    .ok (inValue r' false attributes name (read ++ [b]) context)
  := by
  obtain ⟨hqu, hamp, hl, hret⟩ := hb
  have hnl : ∃ r', (inValue r newLine attributes name read context).newline b =
      (inValue r' false attributes name read context, some b) := by
    cases newLine with
    | false =>
      use { r with currentCol := r.currentCol + 1 }
      simp [newline, inValue, hl, hret]
    | true =>
      use r
      simp [newline, inValue, hl]
  obtain ⟨r', hr'⟩ := hnl
  have hdisp : (inValue r' false attributes name read context).dispatch fromUtf8 b =
      .ok (inValue r' false attributes name (read ++ [b]) context) := by
    simp [dispatch, inValue, atAttrRvalue, hqu, hamp, append]
  use { r' with beforeLastChar := r'.lastChar, lastChar := b }
  simp only [parseChunk, advance, hr', hdisp]
  rfl

/-- Ordinary bytes are read as they are. -/
theorem parseChunk_ordinary {bs : Bytes} (hbs : ∀ b ∈ bs, Ordinary b) (hne : bs ≠ []) :
  ∃ r', (inValue r newLine attributes name read context).parseChunk fromUtf8 bs =
    .ok (inValue r' false attributes name (read ++ bs) context)
  := by
  induction bs generalizing r newLine read with
  | nil => apply absurd rfl hne
  | cons b bs ih =>
    rw [forall_mem_cons] at hbs
    obtain ⟨r₁, h₁⟩ := parseChunk_ordinary_byte fromUtf8 r newLine attributes name read context
      hbs.1
    by_cases hnil : bs = []
    · subst hnil
      exact ⟨r₁, h₁⟩
    · obtain ⟨r₂, h₂⟩ := ih r₁ false (read ++ [b]) hbs.2 hnil
      use r₂
      rw [← singleton_append, parseChunk_append h₁, h₂, append_assoc]

end XmlSp.Parser

namespace Daemon

open List XmlSp Encoding Parser

/-! ### What the parser makes of a value -/

/-- What is read for a character of a value, and whether a line has just ended.  The entity
that is written for `<` is none. -/
def receive (newLine : Bool) (c : Char) : List Char × Bool :=
  if c = '\n' ∧ newLine = true then ([], false)
  else if c = '\r' ∧ newLine = false then (['\n'], true)
  else if c = '<' then ("$lt;".toList, false)
  else ([c], false)

/-- What is read for a value. -/
def received (newLine : Bool) : List Char → List Char
  | [] => []
  | c :: cs => (receive newLine c).1 ++ received (receive newLine c).2 cs

/-- Something is read for a value that is not empty. -/
theorem received_eq_nil {cs : List Char} (h : received false cs = []) :
  cs = []
  := by
  cases cs with
  | nil => rfl
  | cons c cs =>
    simp only [received, receive] at h
    split_ifs at h <;> simp_all

/-- What is read for a character is one of the value or stands for one. -/
theorem mem_received {newLine : Bool} {c : Char} {cs : List Char} (h : c ∈ received newLine cs) :
  c ∈ cs ∨ c ∈ "\n$lt;".toList
  := by
  induction cs generalizing newLine with
  | nil => cases h
  | cons d cs ih =>
    rcases mem_append.mp h with h | h
    · unfold receive at h
      split_ifs at h <;> simp at h <;> simp [h]
    · rcases ih h with h | h
      · exact .inl (mem_cons_of_mem d h)
      · exact .inr h

/-- A value is read as it is when it has neither of the two characters. -/
theorem received_eq_self_iff (cs : List Char) :
  received false cs = cs ↔ '<' ∉ cs ∧ '\r' ∉ cs
  := by
  induction cs with
  | nil => simp [received]
  | cons c cs ih =>
    by_cases hless : c = '<'
    · subst hless
      simp [received, receive]
    by_cases hret : c = '\r'
    · subst hret
      simp [received, receive]
    · have hrec : receive false c = ([c], false) := by
        simp [receive, hless, hret]
      rw [received, hrec, singleton_append, cons_inj_right, ih]
      simp [Ne.symm hless, Ne.symm hret]

/-- The bytes of a literal. -/
theorem utf8_literal (s : String) (h : ∀ c ∈ s.toList, IsAscii c) :
  utf8 s.toList = bytes s
  := utf8_of_isAscii h

section Reading

variable (fromUtf8 : Bytes → String) (r : Residue) (newLine : Bool)
  (attributes : OrdMap Bytes Bytes) (name read : Bytes) (context : OrdMap String String)

/-- The bytes of a character are ordinary when they are not those of the others. -/
theorem ordinary_of_mem {c : Char} {b : UInt8} (hqu : c ≠ '"') (hamp : c ≠ '&')
    (hl : c ≠ '\n') (hret : c ≠ '\r') (hb : b ∈ String.utf8EncodeChar c) :
  Ordinary b
  := by
  have hne : ∀ a, IsAscii a → c ≠ a → b ≠ byte a := by
    rintro a ha hca rfl
    have hm : a ∈ [c] := mem_of_mem_utf8 ha (by simpa [byte] using hb)
    apply hca (mem_singleton.mp hm).symm
  exact ⟨hne _ (by decide) hqu, hne _ (by decide) hamp, hne _ (by decide) hl,
    hne _ (by decide) hret⟩

/-- A character of a value is read. -/
theorem parseChunk_entities_char (c : Char) :
  ∃ r', (inValue r newLine attributes name read context).parseChunk fromUtf8
      (utf8 (entities c)) =
    .ok (inValue r' (receive newLine c).2 attributes name
      (read ++ utf8 (receive newLine c).1) context)
  := by
  by_cases hamp : c = '&'
  · subst hamp
    cases newLine <;> exact ⟨⟨_, _, _, _, _, [], _⟩, rfl⟩
  by_cases hless : c = '<'
  · subst hless
    have hrec : receive newLine '<' = ("$lt;".toList, false) := by simp [receive]
    rw [hrec]
    have hchars : ∀ d ∈ "$lt;".toList, d ≠ '"' ∧ d ≠ '&' ∧ d ≠ '\n' ∧ d ≠ '\r' := by decide
    apply parseChunk_ordinary
    · intro b hb
      obtain ⟨d, hd, hb⟩ := mem_flatMap.mp hb
      obtain ⟨hqu, hamp, hl, hret⟩ := hchars d hd
      apply ordinary_of_mem hqu hamp hl hret hb
    · decide
  by_cases hgt : c = '>'
  · subst hgt
    cases newLine <;> exact ⟨⟨_, _, _, _, _, [], _⟩, rfl⟩
  by_cases hqu : c = '"'
  · subst hqu
    cases newLine <;> exact ⟨⟨_, _, _, _, _, [], _⟩, rfl⟩
  by_cases hl : c = '\n'
  · subst hl
    cases newLine with
    | false => exact ⟨⟨_, _, _, _, _, [], _⟩, rfl⟩
    | true =>
      have hrec : receive true '\n' = ([], false) := rfl
      rw [hrec, utf8_nil, append_nil]
      exact ⟨⟨_, _, _, _, _, [], _⟩, rfl⟩
  by_cases hret : c = '\r'
  · subst hret
    cases newLine <;> exact ⟨⟨_, _, _, _, _, [], _⟩, rfl⟩
  have hents : entities c = [c] := by
    simp [entities, hamp, hless, hgt, hqu]
  have hrec : receive newLine c = ([c], false) := by
    simp [receive, hl, hret, hless]
  rw [hents, hrec, utf8_cons, utf8_nil, append_nil]
  apply parseChunk_ordinary _ _ _ _ _ _ _ (fun b => ordinary_of_mem hqu hamp hl hret)
  simp

/-- A value is read. -/
theorem parseChunk_entities (cs : List Char) :
  ∃ r' newLine', (inValue r newLine attributes name read context).parseChunk fromUtf8
      (utf8 (cs.flatMap entities)) =
    .ok (inValue r' newLine' attributes name (read ++ utf8 (received newLine cs)) context)
  := by
  induction cs generalizing r newLine read with
  | nil =>
    use r, newLine
    simp [received, parseChunk]
  | cons c cs ih =>
    obtain ⟨r₁, h₁⟩ := parseChunk_entities_char fromUtf8 r newLine attributes name read context c
    obtain ⟨r₂, newLine₂, h₂⟩ := ih r₁ (receive newLine c).2 (read ++ utf8 (receive newLine c).1)
    use r₂, newLine₂
    rw [flatMap_cons, utf8_append, parseChunk_append h₁, h₂, received, utf8_append, append_assoc]

/-- An element with a name and a value is read. -/
theorem parseChunk_parameter {name value : List Char} (hn : name ≠ []) (hvl : value ≠ []) :
  ∃ r', (inRoot r context).parseChunk fromUtf8
      (utf8 ("<parameter name=\"".toList ++ (name.flatMap entities ++
        ("\" value=\"".toList ++ (value.flatMap entities ++ "\"/>".toList))))) =
    .ok (inRoot r' (context.insert (fromUtf8 (cStr (utf8 (received false name))))
      (fromUtf8 (cStr (utf8 (received false value))))))
  := by
  have hread : ∀ {cs : List Char}, cs ≠ [] → utf8 (received false cs) ≠ [] := by
    intro cs hcs hnil
    rw [utf8_eq_nil_iff] at hnil
    apply hcs (received_eq_nil hnil)
  obtain ⟨r₁, h₁⟩ := parseChunk_name fromUtf8 r context
  obtain ⟨r₂, newLine₂, h₂⟩ := parseChunk_entities fromUtf8 r₁ false ∅ (bytes "name") [] context
    name
  obtain ⟨r₃, h₃⟩ := parseChunk_value fromUtf8 r₂ newLine₂ ∅ (bytes "name")
    (utf8 (received false name)) context
  obtain ⟨r₄, newLine₄, h₄⟩ := parseChunk_entities fromUtf8 r₃ false
    ((∅ : OrdMap Bytes Bytes).insert (bytes "name") (utf8 (received false name)))
    (bytes "value") [] context value
  obtain ⟨r₅, h₅⟩ := parseChunk_close fromUtf8 r₄ newLine₄ (utf8 (received false name))
    (utf8 (received false value)) context (hread hn) (hread hvl)
  use r₅
  simp only [utf8_append]
  rw [utf8_literal _ (by decide), parseChunk_append h₁, parseChunk_append h₂, nil_append,
    utf8_literal _ (by decide), parseChunk_append h₃, parseChunk_append h₄, nil_append,
    utf8_literal _ (by decide), h₅]

end Reading

end Daemon

import Mathlib.Data.List.Basic

/-!
# Texts and their bytes

`utf8` gives the bytes of a text in UTF-8, and `latin1` the text that bytes make when each of
them is read as a character.  Programs mix the two up: `wire cs` is what becomes of a text
when its UTF-8 bytes are read as Latin-1.  Such a text has the ASCII characters of the
original in their places, and characters that are not ASCII everywhere else.
-/

namespace Encoding

open List

/-- The character of a byte in Latin-1. -/
def latin1Char (b : UInt8) : Char := Char.ofNat b.toNat

/-- The text that bytes make in Latin-1. -/
def latin1 (bs : List UInt8) : List Char := bs.map latin1Char

/-- The bytes of a text in UTF-8. -/
def utf8 (cs : List Char) : List UInt8 := cs.flatMap String.utf8EncodeChar

/-- The text that the UTF-8 bytes of a text make in Latin-1. -/
def wire (cs : List Char) : List Char := latin1 (utf8 cs)

/-- The character is an ASCII character. -/
def IsAscii (c : Char) : Prop := c.toNat < 128

instance (c : Char) : Decidable (IsAscii c) := inferInstanceAs (Decidable (_ < _))

instance (priority := high) decidableForallMem {p : Char → Prop} [DecidablePred p]
    (cs : List Char) : Decidable (∀ c ∈ cs, p c) := List.decidableBAll p cs

variable {c : Char} {b : UInt8} {cs ds : List Char}

/-! ### Characters -/

theorem toNat_latin1Char (b : UInt8) :
  (latin1Char b).toNat = b.toNat
  := by
  have hb := b.toNat_lt
  have hval : b.toNat.isValidChar := .inl (by omega)
  rw [latin1Char, Char.ofNat, dif_pos hval]
  rfl

theorem toUInt8_latin1Char (b : UInt8) :
  (latin1Char b).toUInt8 = b
  := by
  apply UInt8.toNat_inj.mp
  have hb := b.toNat_lt
  have hval : (latin1Char b).val.toNat = b.toNat := toNat_latin1Char b
  rw [Char.toUInt8, UInt32.toNat_toUInt8, hval]
  omega

theorem latin1Char_toUInt8 (h : IsAscii c) :
  latin1Char c.toUInt8 = c
  := by
  have hval : c.val.toNat < 128 := h
  have hbyte : c.toUInt8.toNat = c.toNat := by
    rw [Char.toUInt8, UInt32.toNat_toUInt8]
    apply Nat.mod_eq_of_lt
    omega
  rw [latin1Char, hbyte, Char.ofNat_toNat]

/-- An ASCII character is its own byte. -/
theorem utf8EncodeChar_of_isAscii (h : IsAscii c) :
  String.utf8EncodeChar c = [c.toUInt8]
  := by
  have hval : c.val.toNat ≤ 127 := Nat.le_of_lt_succ h
  simp only [String.utf8EncodeChar, hval, if_pos]
  rfl

/-- The bytes of the other characters are no bytes of ASCII characters. -/
theorem le_of_mem_utf8EncodeChar (h : ¬ IsAscii c) (hb : b ∈ String.utf8EncodeChar c) :
  128 ≤ b.toNat
  := by
  have hval : ¬ c.val.toNat ≤ 127 := fun hle => h (Nat.lt_succ_of_le hle)
  simp only [String.utf8EncodeChar, hval, if_false] at hb
  split_ifs at hb <;> simp only [mem_cons, not_mem_nil, or_false] at hb <;>
    rcases hb with rfl | rfl | rfl | rfl <;> simp only [UInt8.toNat_ofNat'] <;> omega

/-! ### Texts -/

@[simp]
theorem utf8_nil : utf8 [] = [] := rfl

@[simp]
theorem utf8_cons (c : Char) (cs : List Char) :
  utf8 (c :: cs) = String.utf8EncodeChar c ++ utf8 cs
  := flatMap_cons

@[simp]
theorem utf8_append (cs ds : List Char) :
  utf8 (cs ++ ds) = utf8 cs ++ utf8 ds
  := flatMap_append

theorem utf8_eq_nil_iff :
  utf8 cs = [] ↔ cs = []
  := by
  cases cs with
  | nil => simp
  | cons c cs => simp

/-- The bytes of a text of ASCII characters are those of its characters. -/
theorem utf8_of_isAscii (h : ∀ c ∈ cs, IsAscii c) :
  utf8 cs = cs.map Char.toUInt8
  := by
  induction cs with
  | nil => rfl
  | cons c cs ih =>
    rw [forall_mem_cons] at h
    rw [utf8_cons, utf8EncodeChar_of_isAscii h.1, ih h.2]
    rfl

/-- An ASCII character occurs in a text when its byte occurs in the bytes of the text. -/
theorem mem_of_mem_utf8 (hc : IsAscii c) (h : c.toUInt8 ∈ utf8 cs) :
  c ∈ cs
  := by
  obtain ⟨d, hd, hm⟩ := mem_flatMap.mp h
  by_cases hascii : IsAscii d
  · rw [utf8EncodeChar_of_isAscii hascii, mem_singleton] at hm
    rwa [← latin1Char_toUInt8 hc, hm, latin1Char_toUInt8 hascii]
  · have hle : 128 ≤ c.toUInt8.toNat := le_of_mem_utf8EncodeChar hascii hm
    have hlt : (latin1Char c.toUInt8).toNat < 128 := by
      rw [latin1Char_toUInt8 hc]
      apply hc
    rw [toNat_latin1Char] at hlt
    omega

/-- Bytes are found again in the text they make in Latin-1. -/
theorem map_toUInt8_latin1 (bs : List UInt8) :
  (latin1 bs).map Char.toUInt8 = bs
  := by
  simp [latin1, Function.comp_def, toUInt8_latin1Char]

/-! ### UTF-8 read as Latin-1 -/

@[simp]
theorem wire_nil : wire [] = [] := rfl

theorem wire_cons (c : Char) (cs : List Char) :
  wire (c :: cs) = latin1 (String.utf8EncodeChar c) ++ wire cs
  := by
  simp [wire, latin1]

@[simp]
theorem wire_append (cs ds : List Char) :
  wire (cs ++ ds) = wire cs ++ wire ds
  := by
  simp [wire, latin1]

theorem wire_eq_nil_iff :
  wire cs = [] ↔ cs = []
  := by
  rw [wire, latin1, map_eq_nil_iff, utf8_eq_nil_iff]

theorem wire_cons_of_isAscii (h : IsAscii c) :
  wire (c :: cs) = c :: wire cs
  := by
  rw [wire_cons, utf8EncodeChar_of_isAscii h, latin1, map_singleton, latin1Char_toUInt8 h]
  rfl

/-- Text of ASCII characters is left as it is. -/
theorem wire_of_isAscii (h : ∀ c ∈ cs, IsAscii c) :
  wire cs = cs
  := by
  induction cs with
  | nil => rfl
  | cons c cs ih =>
    rw [forall_mem_cons] at h
    rw [wire_cons_of_isAscii h.1, ih h.2]

/-- The characters that another character becomes are not ASCII either. -/
theorem not_isAscii_of_mem_latin1 (h : ¬ IsAscii c) {d : Char}
    (hd : d ∈ latin1 (String.utf8EncodeChar c)) :
  ¬ IsAscii d
  := by
  obtain ⟨b, hb, rfl⟩ := mem_map.mp hd
  have hle : 128 ≤ b.toNat := le_of_mem_utf8EncodeChar h hb
  rw [IsAscii, toNat_latin1Char]
  omega

/-- The first character becomes one that is the same ASCII character, if it is one at all. -/
theorem exists_wire_cons (c : Char) (cs : List Char) :
  ∃ d ds, wire (c :: cs) = d :: ds ∧ ∀ a, IsAscii a → (d = a ↔ c = a)
  := by
  by_cases h : IsAscii c
  · exact ⟨c, wire cs, wire_cons_of_isAscii h, fun a _ => Iff.rfl⟩
  · have hne : String.utf8EncodeChar c ≠ [] := by simp
    obtain ⟨b, bs, hb⟩ := exists_cons_of_ne_nil hne
    have hoth : ¬ IsAscii (latin1Char b) := by
      apply not_isAscii_of_mem_latin1 h
      rw [hb]
      apply mem_cons_self
    refine ⟨latin1Char b, latin1 bs ++ wire cs, ?_, fun a ha => ?_⟩
    · rw [wire_cons, hb]
      rfl
    · constructor
      · rintro rfl
        apply absurd ha hoth
      · rintro rfl
        apply absurd ha h

/-- Characters that are ASCII can be dropped before or after. -/
theorem drop_wire {k : ℕ} (h : ∀ c ∈ cs.take k, IsAscii c) :
  (wire cs).drop k = wire (cs.drop k)
  := by
  induction k generalizing cs with
  | zero => rfl
  | succ k ih =>
    cases cs with
    | nil => rfl
    | cons c cs =>
      rw [take_succ_cons, forall_mem_cons] at h
      rw [wire_cons_of_isAscii h.1, drop_succ_cons, drop_succ_cons, ih h.2]

/-- Replacing ASCII characters by ASCII texts can be done before or after. -/
theorem flatMap_wire {f : Char → List Char} (hascii : ∀ c, IsAscii c → ∀ d ∈ f c, IsAscii d)
    (hoth : ∀ c, ¬ IsAscii c → f c = [c]) (cs : List Char) :
  (wire cs).flatMap f = wire (cs.flatMap f)
  := by
  induction cs with
  | nil => rfl
  | cons c cs ih =>
    rw [flatMap_cons, wire_append, ← ih]
    by_cases h : IsAscii c
    · rw [wire_cons_of_isAscii h, flatMap_cons, wire_of_isAscii (hascii c h)]
    · have hkeep : ∀ d ∈ latin1 (String.utf8EncodeChar c), f d = [d] :=
        fun d hd => hoth d (not_isAscii_of_mem_latin1 h hd)
      rw [wire_cons, flatMap_append, hoth c h, flatMap_congr hkeep,
        flatMap_singleton', wire_cons, wire_nil, append_nil]

/-! ### Decoding -/

/-- The text whose bytes in UTF-8 are given. -/
def decode (bs : List UInt8) : Option String := String.fromUTF8? bs.toByteArray

theorem decode_utf8 (s : String) :
  decode (utf8 s.toList) = some s
  := by
  have hbs : (utf8 s.toList).toByteArray = s.toByteArray := by
    conv_rhs => rw [← s.ofList_toList]
    rw [String.toByteArray_ofList]
    rfl
  rw [decode, String.fromUTF8?, hbs, dif_pos s.isValidUTF8]
  rfl

end Encoding

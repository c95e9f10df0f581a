import Contextd.Librecompare.Syntax

/-!
# Reading bracket lists

The parser turns a range of a bracket list into the characters it stands for, with a loop over
signed `char`s, and goes on behind them.  The bytes it ends up with are those the list stands for,
if no range goes from ASCII to the other half of Latin-1 and no minus stands behind the caret of a
negated list (`bracketToken_bracketContent`).
-/

namespace Librecompare

open List

variable {c first last : Char} {e : Entry} {es : List Entry} {negated : Bool} {cs r : List Char}

/-! ### Legible bracket lists -/

/-- A character that stands for itself in a bracket list, except for a caret at its start. -/
def isListable (c : Char) : Bool := isByte c && !(['\\', ']', '-'].contains c)

/-- The range is counted as it should be, with signed characters. -/
def isCounted (first last : Char) : Bool :=
  isByte first && isListable last && first.toNat < last.toNat
    && (last.toNat < 128 || 127 ≤ first.toNat)

/-- The entry is read as what it stands for, wherever it is. -/
def Entry.isLegible : Entry → Bool
  | .char c => isListable c
  | .range first last => isListable first && isCounted first last

/-- The entry is read as what it stands for at the start of a list: it starts with a minus. -/
def Entry.isLeading : Entry → Bool
  | .char c => c == '-'
  | .range first last => first == '-' && isCounted first last

/-- The entries are read as what they stand for; a minus only at the end. -/
def restLegible : List Entry → Bool
  | [] => true
  | e :: es => (e.isLegible && restLegible es) || (es.isEmpty && e == .char '-')

/-- The entries are read as what they stand for: a minus only at the end, or at the start of a list
that is not negated. -/
def entriesLegible (negated : Bool) : List Entry → Bool
  | [] => true
  | e :: es => restLegible (e :: es) || (!negated && e.isLeading && restLegible es)

/-- The characters an entry is replaced by. -/
def Entry.expanded : Entry → List Char
  | .char c => [c]
  | .range first last => first :: rangeBetween first last ++ [last]

theorem isListable_iff :
  isListable c = true ↔ isByte c = true ∧ c ≠ '\\' ∧ c ≠ ']' ∧ c ≠ '-'
  := by
  simp [isListable]

theorem isCounted_iff :
  isCounted first last = true ↔
    isByte first = true ∧ isListable last = true ∧ first.toNat < last.toNat
      ∧ (last.toNat < 128 ∨ 127 ≤ first.toNat)
  := by
  simp [isCounted, and_assoc]

theorem isLegible_range_iff :
  (Entry.range first last).isLegible = true ↔
    isListable first = true ∧ isCounted first last = true
  := by
  simp [Entry.isLegible]

/-- Behind the first entry a minus is only at the end. -/
theorem restLegible_cons_iff :
  restLegible (e :: es) = true ↔
    (e.isLegible = true ∧ restLegible es = true) ∨ (es = [] ∧ e = .char '-')
  := by
  rw [restLegible, Bool.or_eq_true, Bool.and_eq_true, Bool.and_eq_true, List.isEmpty_iff,
    beq_iff_eq]

/-- Legible entries are legible everywhere, or their first one starts with a minus. -/
theorem entriesLegible_cases (h : entriesLegible negated es = true) :
  restLegible es = true ∨
    ∃ e es', es = e :: es' ∧ negated = false ∧ e.isLeading = true ∧ restLegible es' = true
  := by
  cases es with
  | nil => exact .inl rfl
  | cons e es =>
    simp only [entriesLegible, Bool.or_eq_true, Bool.and_eq_true, Bool.not_eq_true'] at h
    rcases h with h | ⟨⟨hneg, he⟩, hes⟩
    · exact .inl h
    · exact .inr ⟨e, es, rfl, hneg, he, hes⟩

/-! ### Ranges -/

theorem toNat_ofNat_of_lt {m : ℕ} (h : m < 256) :
  (Char.ofNat m).toNat = m
  := by
  have hval : m.isValidChar := .inl (by omega)
  rw [Char.ofNat, dif_pos hval]
  rfl

/-- A text without zero bytes is kept whole. -/
theorem ofByteArray_eq_self (h : ∀ c ∈ cs, 0 < c.toNat) :
  ofByteArray cs = cs
  := by
  have hall := @List.takeWhile_append_of_pos _ (· ≠ Char.ofNat 0) cs []
  simp only [append_nil, takeWhile_nil] at hall
  apply hall
  intro c hc
  rw [decide_eq_true_eq]
  rintro rfl
  exact absurd (h _ hc) (by decide)

/-- The bounds of the loop are the numbers of the characters, or both less by 256. -/
theorem rangeBetween_eq (h : isCounted first last = true) :
  rangeBetween first last
    = (List.range (last.toNat - first.toNat - 1)).map (fun k => Char.ofNat (first.toNat + 1 + k))
  := by
  obtain ⟨-, hl, hlt, hhalf⟩ := isCounted_iff.mp h
  have hbyte := isByte_iff.mp (isListable_iff.mp hl).1
  have hbegin : (byteOf first + 1).toNat = first.toNat + 1 := by
    have hone : (1 : UInt8).toNat = 1 := rfl
    simp only [byteOf, UInt8.toNat_add, UInt8.toNat_ofNat', hone]
    omega
  have hend : (byteOf last).toNat = last.toNat := by
    simp only [byteOf, UInt8.toNat_ofNat']
    omega
  simp only [rangeBetween, signed, hbegin, hend, bind_eq_flatMap, pure_def,
    ← map_eq_flatMap, map_map]
  rcases hhalf with hhalf | hhalf
  · rw [if_pos (by omega), if_pos (by omega)]
    have hcnt : ((last.toNat : ℤ) - ((first.toNat + 1 : ℕ) : ℤ)).toNat
      = last.toNat - first.toNat - 1 := by omega
    rw [hcnt]
    apply map_congr_left
    intro k hk
    rw [mem_range] at hk
    rw [Function.comp_apply, ofSigned]
    congr 1
    omega
  · rw [if_neg (by omega), if_neg (by omega)]
    have hcnt : ((last.toNat : ℤ) - 256 - (((first.toNat + 1 : ℕ) : ℤ) - 256)).toNat
      = last.toNat - first.toNat - 1 := by omega
    rw [hcnt]
    apply map_congr_left
    intro k hk
    rw [mem_range] at hk
    rw [Function.comp_apply, ofSigned]
    congr 1
    omega

/-- A range has no zero byte in it. -/
theorem ofByteArray_rangeBetween (h : isCounted first last = true) :
  ofByteArray (rangeBetween first last) = rangeBetween first last
  := by
  obtain ⟨-, hl, -⟩ := isCounted_iff.mp h
  have hbyte := isByte_iff.mp (isListable_iff.mp hl).1
  apply ofByteArray_eq_self
  rw [rangeBetween_eq h]
  intro c hc
  obtain ⟨k, hk, rfl⟩ := mem_map.mp hc
  rw [mem_range] at hk
  rw [toNat_ofNat_of_lt (by omega)]
  omega

/-- The byte of a character of Latin-1 is its number. -/
theorem byteOf_toLatin1 (h : c.toNat < 256) :
  byteOf (toLatin1 c) = UInt8.ofNat c.toNat
  := by
  rw [toLatin1, if_pos h, byteOf]

/-- What a range is replaced by lists the bytes of the range. -/
theorem map_expanded_range (h : isCounted first last = true) :
  (Entry.range first last).expanded.map (fun c => byteOf (toLatin1 c))
    = (Entry.range first last).listed
  := by
  obtain ⟨hfst, hl, hlt, -⟩ := isCounted_iff.mp h
  have hbyte := isByte_iff.mp hfst
  have hbyte' := isByte_iff.mp (isListable_iff.mp hl).1
  have hcnt : last.toNat + 1 - first.toNat = (last.toNat - first.toNat - 1) + 1 + 1 := by omega
  have hbetween : ∀ k ∈ List.range (last.toNat - first.toNat - 1),
      byteOf (toLatin1 (Char.ofNat (first.toNat + 1 + k)))
        = UInt8.ofNat (first.toNat + (k + 1)) := by
    intro k hk
    rw [mem_range] at hk
    have hnum := @toNat_ofNat_of_lt (first.toNat + 1 + k) (by omega)
    rw [byteOf_toLatin1 (by omega), hnum]
    congr 1
    omega
  have hlastByte : UInt8.ofNat last.toNat
      = UInt8.ofNat (first.toNat + (last.toNat - first.toNat - 1 + 1)) := by
    congr 1
    omega
  rw [Entry.expanded, rangeBetween_eq h, Entry.listed, hcnt, range_succ_eq_map, range_succ]
  simp only [map_cons, map_append, map_map, map_nil, cons_append,
    byteOf_toLatin1 hbyte.2, byteOf_toLatin1 hbyte'.2, Nat.add_zero, hlastByte]
  congr 2
  apply map_congr_left hbetween

/-- What an entry is replaced by lists the bytes of the entry. -/
theorem Entry.map_expanded (h : e.isLegible = true ∨ e.isLeading = true) :
  e.expanded.map (fun c => byteOf (toLatin1 c)) = e.listed
  := by
  cases e with
  | char c =>
    have hbyte : c.toNat < 256 := by
      rcases h with h | h
      · apply (isByte_iff.mp (isListable_iff.mp h).1).2
      · obtain rfl : c = '-' := by simpa [isLeading] using h
        decide
    rw [expanded, listed, map_singleton, byteOf_toLatin1 hbyte, byteOf]
  | range first last =>
    apply map_expanded_range
    rcases h with h | h
    · apply (isLegible_range_iff.mp h).2
    · rw [isLeading, Bool.and_eq_true] at h
      apply h.2

/-! ### The loop over the ranges -/

/-- A range does not start before a character that is no minus. -/
theorem indexOfRange_cons {c' : Char} (h : c' ≠ '-') :
  indexOfRange (c :: c' :: cs) = (indexOfRange (c' :: cs)).map (· + 1)
  := by
  cases cs with
  | nil => rfl
  | cons c'' cs => rw [indexOfRange, if_neg (by simp [h])]

/-- The first range is found behind a text without minus signs, but at its start. -/
theorem indexOfRange_append (hcs : '-' ∉ cs.tail) (hfst : first ≠ '\\' ∧ first ≠ '-') :
  indexOfRange (cs ++ first :: '-' :: last :: r) = some cs.length
  := by
  induction cs with
  | nil => simp [indexOfRange, hfst.1]
  | cons c cs ih =>
    rw [tail_cons] at hcs
    have hih := ih (fun hm => hcs (mem_of_mem_tail hm))
    cases cs with
    | nil =>
      rw [nil_append] at hih
      rw [singleton_append, indexOfRange_cons hfst.2, hih]
      rfl
    | cons c' cs =>
      have hn : c' ≠ '-' := fun heq => hcs (by simp [heq])
      rw [cons_append] at hih
      rw [cons_append, cons_append, indexOfRange_cons hn, hih]
      rfl

/-- A text whose minus signs are at its start and its end has no range. -/
theorem indexOfRange_eq_none (hcs : '-' ∉ cs.tail) (hr : r = [] ∨ r = ['-']) :
  indexOfRange (cs ++ r) = none
  := by
  induction cs with
  | nil => rcases hr with rfl | rfl <;> rfl
  | cons c cs ih =>
    rw [tail_cons] at hcs
    have hih := ih (fun hm => hcs (mem_of_mem_tail hm))
    cases cs with
    | nil => rcases hr with rfl | rfl <;> rfl
    | cons c' cs =>
      have hn : c' ≠ '-' := fun heq => hcs (by simp [heq])
      rw [cons_append] at hih
      rw [cons_append, cons_append, indexOfRange_cons hn, hih]
      rfl

/-- One turn of the loop: the range is replaced by what it stands for, up to its last character. -/
theorem expandAt_eq {before r : List Char} {first last : Char} (h : isCounted first last = true)
    (hbef : before.getLast? ≠ some '\\') :
  expandAt (before ++ first :: '-' :: last :: r) before.length
    = (before ++ first :: rangeBetween first last ++ last :: r,
      before.length + 1 + (rangeBetween first last).length)
  := by
  obtain ⟨-, hl, -⟩ := isCounted_iff.mp h
  obtain ⟨-, hesc, -, hmin⟩ := isListable_iff.mp hl
  have htake : (before ++ first :: '-' :: last :: r).take before.length = before := by simp
  have hdrop : (before ++ first :: '-' :: last :: r).drop (before.length + 2) = last :: r := by
    rw [drop_append]
    simp
  have hget : (before ++ first :: '-' :: last :: r).getD before.length (Char.ofNat 0) = first := by
    simp
  simp only [expandAt, htake, hdrop, hget]
  rw [dropWhile_cons_of_neg (by simp [hmin]), if_neg hbef,
    if_neg (by simp [hesc]), headD_cons, ofByteArray_rangeBetween h]

/-- Without a range nothing is expanded. -/
theorem expandRanges_of_none {n : ℕ} {done : List Char} (h : indexOfRange r = none) :
  expandRanges n (done ++ r) done.length = done ++ r
  := by
  cases n with
  | zero => rfl
  | succ n => rw [expandRanges, drop_left, h]

/-- The loop over the ranges, with `done` behind it and `pending` before the next entry. -/
theorem expandRanges_rest {es : List Entry} (hes : restLegible es = true) {n : ℕ}
    {done pending : List Char} (hn : es.length ≤ n)
    (hpend : '-' ∉ pending.tail ∧ '\\' ∉ pending) (hdone : done = [] ∨ pending ≠ []) :
  expandRanges n (done ++ (pending ++ es.flatMap Entry.text)) done.length
    = done ++ (pending ++ es.flatMap Entry.expanded)
  := by
  induction es generalizing n done pending with
  | nil => apply expandRanges_of_none (indexOfRange_eq_none hpend.1 (.inl rfl))
  | cons e es ih =>
    rcases restLegible_cons_iff.mp hes with ⟨he, hr⟩ | ⟨rfl, rfl⟩
    · cases e with
      | char c =>
        obtain ⟨-, hesc, -, hmin⟩ := isListable_iff.mp he
        have hminuses : '-' ∉ (pending ++ [c]).tail := by
          cases pending with
          | nil => simp
          | cons d ds => simpa [Ne.symm hmin] using hpend.1
        have hih := @ih hr n done (pending ++ [c]) (by simp at hn; omega)
          ⟨hminuses, by simp [hpend, Ne.symm hesc]⟩ (by simp)
        simpa [Entry.text, Entry.expanded] using hih
      | range first last =>
        obtain ⟨hfst, hcnt⟩ := isLegible_range_iff.mp he
        obtain ⟨-, hesc, -, hmin⟩ := isListable_iff.mp hfst
        obtain ⟨-, hesc', -⟩ := isListable_iff.mp (isCounted_iff.mp hcnt).2.1
        cases n with
        | zero => simp at hn
        | succ n =>
          have hlastBefore : (done ++ pending).getLast? ≠ some '\\' := by
            intro hbef
            rcases hdone with rfl | hne
            · apply hpend.2 (mem_of_getLast? hbef)
            · rw [List.getLast?_append_of_ne_nil _ hne] at hbef
              apply hpend.2 (mem_of_getLast? hbef)
          have hih := @ih hr n (done ++ pending ++ first :: rangeBetween first last) [last]
            (by simpa using hn) (by simp [Ne.symm hesc']) (by simp)
          rw [flatMap_cons, Entry.text, expandRanges, drop_left, cons_append, cons_append,
            cons_append, nil_append, indexOfRange_append hpend.1 ⟨hesc, hmin⟩]
          have hat := @expandAt_eq (done ++ pending) (es.flatMap Entry.text) _ _ hcnt
            hlastBefore
          rw [length_append, append_assoc] at hat
          simp only [hat]
          simpa [Entry.expanded, Nat.add_assoc, Nat.add_comm 1] using hih
    · apply expandRanges_of_none (indexOfRange_eq_none hpend.1 (.inr rfl))

/-- The loop over the ranges of a list that starts with a minus. -/
theorem expandRanges_leading {e : Entry} {es : List Entry} (he : e.isLeading = true)
    (hes : restLegible es = true) {n : ℕ} (hn : es.length < n) :
  expandRanges n ((e :: es).flatMap Entry.text) 0 = (e :: es).flatMap Entry.expanded
  := by
  cases e with
  | char c =>
    obtain rfl : c = '-' := by simpa [Entry.isLeading] using he
    have hr := @expandRanges_rest es hes n [] ['-'] (by omega) (by simp) (.inl rfl)
    simpa [Entry.text, Entry.expanded] using hr
  | range first last =>
    rw [Entry.isLeading, Bool.and_eq_true, beq_iff_eq] at he
    obtain ⟨rfl, hcnt⟩ := he
    obtain ⟨-, hesc, -⟩ := isListable_iff.mp (isCounted_iff.mp hcnt).2.1
    obtain ⟨m, rfl⟩ : ∃ m, n = m + 1 := ⟨n - 1, by omega⟩
    have hr := @expandRanges_rest es hes m ('-' :: rangeBetween '-' last) [last] (by omega)
      (by simp [Ne.symm hesc]) (by simp)
    have hix : indexOfRange ('-' :: '-' :: last :: es.flatMap Entry.text) = some 0 := by
      simp [indexOfRange]
    have hat := @expandAt_eq [] (es.flatMap Entry.text) '-' last hcnt (by simp)
    rw [nil_append, length_nil] at hat
    rw [flatMap_cons, Entry.text, cons_append, cons_append, cons_append,
      nil_append, expandRanges, drop_zero, hix]
    simp only [hat]
    simpa [Entry.expanded, Nat.add_comm 1] using hr

/-! ### The token -/

/-- The entries start with a caret. -/
def startsWithCaret (es : List Entry) : Bool := (es.flatMap Entry.text).head? == some '^'

theorem head?_expanded :
  (es.flatMap Entry.expanded).head? = (es.flatMap Entry.text).head?
  := by
  cases es with
  | nil => rfl
  | cons e es => cases e <;> rfl

/-- The expanded text has the bytes that the entries list. -/
theorem map_expanded_rest (hes : restLegible es = true) :
  (es.flatMap Entry.expanded).map (fun c => byteOf (toLatin1 c)) = es.flatMap Entry.listed
  := by
  induction es with
  | nil => rfl
  | cons e es ih =>
    rcases restLegible_cons_iff.mp hes with ⟨he, hes⟩ | ⟨rfl, rfl⟩
    · rw [flatMap_cons, map_append, ih hes, Entry.map_expanded (.inl he), flatMap_cons]
    · rfl

/-- So has that of all entries of a list. -/
theorem map_expanded_entries (hes : entriesLegible negated es = true) :
  (es.flatMap Entry.expanded).map (fun c => byteOf (toLatin1 c)) = es.flatMap Entry.listed
  := by
  rcases entriesLegible_cases hes with hes | ⟨e, es, rfl, -, he, hes⟩
  · apply map_expanded_rest hes
  · rw [flatMap_cons, map_append, map_expanded_rest hes, Entry.map_expanded (.inr he), flatMap_cons]

theorem length_le_text (es : List Entry) :
  es.length ≤ (es.flatMap Entry.text).length
  := by
  induction es with
  | nil => simp
  | cons e es ih =>
    have ht : 1 ≤ e.text.length := by cases e <;> simp [Entry.text]
    rw [flatMap_cons, length_append, length_cons]
    omega

/-- The loop over the ranges replaces every entry by what it stands for. -/
theorem expandRanges_bracketContent (hes : entriesLegible negated es = true) :
  expandRanges (bracketContent negated es).length (bracketContent negated es) 0
    = (if negated then ['^'] else []) ++ es.flatMap Entry.expanded
  := by
  have hlen := length_le_text es
  rcases entriesLegible_cases hes with hes | ⟨e, es, rfl, rfl, he, hes⟩
  · have hr := @expandRanges_rest es hes (bracketContent negated es).length []
      (if negated then ['^'] else []) (by rw [bracketContent, length_append]; omega)
      (by cases negated <;> decide) (.inl rfl)
    simpa [bracketContent] using hr
  · have hleading := @expandRanges_leading e es he hes (bracketContent false (e :: es)).length
      (by simp [bracketContent] at hlen ⊢; omega)
    simpa [bracketContent] using hleading

/-- The token of a bracket list lists the bytes of its entries. -/
theorem bracketToken_bracketContent (hes : entriesLegible negated es = true)
    (hcaret : negated = false → startsWithCaret es = false) :
  bracketToken (bracketContent negated es)
    = (if negated then .exclude else .bracket, es.flatMap Entry.listed)
  := by
  rw [bracketToken, expandRanges_bracketContent hes, ← map_expanded_entries hes]
  cases negated with
  | true => rfl
  | false =>
    have hhead := hcaret rfl
    rw [startsWithCaret, ← head?_expanded] at hhead
    rcases hexpanded : es.flatMap Entry.expanded with _ | ⟨c, cs⟩
    · rfl
    · have hc : c ≠ '^' := by
        rintro rfl
        simp [hexpanded] at hhead
      simp only [Bool.false_eq_true, if_false, nil_append]
      split
      · rename_i heq
        exact absurd (List.cons.inj heq).1 hc
      · rfl

/-! ### The characters of a list -/

/-- A character of a list is a byte, and none that ends the list. -/
def IsContent (c : Char) : Prop := isByte c = true ∧ c ≠ ']' ∧ c ≠ '\\'

theorem isContent_of_isListable (h : isListable c = true) :
  IsContent c
  := by
  obtain ⟨hbyte, hesc, hcl, -⟩ := isListable_iff.mp h
  exact ⟨hbyte, hcl, hesc⟩

theorem isContent_minus :
  IsContent '-'
  := by
  refine ⟨?_, ?_, ?_⟩ <;> decide

/-- The text of a legible entry does not end the list. -/
theorem Entry.isContent {e : Entry}
    (h : e.isLegible = true ∨ e.isLeading = true) {c : Char} (hc : c ∈ e.text) :
  IsContent c
  := by
  cases e with
  | char d =>
    obtain rfl := mem_singleton.mp hc
    rcases h with h | h
    · apply isContent_of_isListable h
    · obtain rfl : c = '-' := by simpa [isLeading] using h
      apply isContent_minus
  | range first last =>
    have hends : IsContent first ∧ IsContent last := by
      rcases h with h | h
      · obtain ⟨hfst, hcnt⟩ := isLegible_range_iff.mp h
        exact ⟨isContent_of_isListable hfst,
          isContent_of_isListable (isCounted_iff.mp hcnt).2.1⟩
      · rw [isLeading, Bool.and_eq_true, beq_iff_eq] at h
        obtain ⟨rfl, hcnt⟩ := h
        exact ⟨isContent_minus, isContent_of_isListable (isCounted_iff.mp hcnt).2.1⟩
    simp only [text, mem_cons, not_mem_nil, or_false] at hc
    rcases hc with rfl | rfl | rfl
    · apply hends.1
    · apply isContent_minus
    · apply hends.2

/-- An entry of a legible list is legible, or a minus at the start or at the end. -/
theorem isLegible_or_isLeading (hes : entriesLegible negated es = true) (he : e ∈ es) :
  e.isLegible = true ∨ e.isLeading = true
  := by
  have hr : ∀ {es : List Entry}, restLegible es = true → e ∈ es →
      e.isLegible = true ∨ e.isLeading = true := by
    intro es hes he
    induction es with
    | nil => cases he
    | cons x es ih =>
      rcases restLegible_cons_iff.mp hes with ⟨hx, hes⟩ | ⟨rfl, rfl⟩
      · rcases mem_cons.mp he with rfl | he
        · exact .inl hx
        · apply ih hes he
      · obtain rfl := mem_singleton.mp he
        exact .inr rfl
  rcases entriesLegible_cases hes with hes | ⟨x, es, rfl, -, hx, hes⟩
  · apply hr hes he
  · rcases mem_cons.mp he with rfl | he
    · exact .inr hx
    · apply hr hes he

/-- Nor does the content of a legible list. -/
theorem mem_bracketContent {negated : Bool} {es : List Entry}
    (hes : entriesLegible negated es = true) {c : Char} (hc : c ∈ bracketContent negated es) :
  IsContent c
  := by
  rw [bracketContent, mem_append] at hc
  rcases hc with hc | hc
  · cases negated with
    | true =>
      obtain rfl : c = '^' := by simpa using hc
      refine ⟨?_, ?_, ?_⟩ <;> decide
    | false => simp at hc
  · obtain ⟨e, he, hce⟩ := mem_flatMap.mp hc
    apply Entry.isContent (isLegible_or_isLeading hes he) hce

/-- No entry lists the zero byte. -/
theorem zero_notMem_listed (hes : entriesLegible negated es = true) :
  (0 : UInt8) ∉ es.flatMap Entry.listed
  := by
  intro hzero
  obtain ⟨e, he, hze⟩ := mem_flatMap.mp hzero
  have hcont := fun c => @Entry.isContent e (isLegible_or_isLeading hes he) c
  cases e with
  | char c =>
    apply byteOf_ne_zero (hcont c (mem_singleton_self c)).1
    apply (mem_singleton.mp hze).symm
  | range first last =>
    have hfst := isByte_iff.mp (hcont first (by simp [Entry.text])).1
    have hl := isByte_iff.mp (hcont last (by simp [Entry.text])).1
    obtain ⟨k, hk, hzero⟩ := mem_map.mp hze
    rw [mem_range] at hk
    have htoNat := congrArg UInt8.toNat hzero
    simp only [UInt8.toNat_ofNat', UInt8.toNat_zero] at htoNat
    omega

/-- Every entry lists a byte. -/
theorem listed_ne_nil (hne : es ≠ []) (hes : entriesLegible negated es = true) :
  es.flatMap Entry.listed ≠ []
  := by
  obtain ⟨e, he⟩ := exists_mem_of_ne_nil es hne
  have hlist : e.listed ≠ [] := by
    cases e with
    | char c => simp [Entry.listed]
    | range first last =>
      have hcnt : isCounted first last = true := by
        rcases isLegible_or_isLeading hes he with h | h
        · apply (isLegible_range_iff.mp h).2
        · simp only [Entry.isLeading, Bool.and_eq_true] at h
          apply h.2
      have hlt := (isCounted_iff.mp hcnt).2.2.1
      simp only [Entry.listed, ne_eq, map_eq_nil_iff, range_eq_nil]
      omega
  obtain ⟨b, hb⟩ := exists_mem_of_ne_nil _ hlist
  apply ne_nil_of_mem (mem_flatMap_of_mem he hb)

end Librecompare

import Contextd.Data.Encoding
import Contextd.Daemon.KernelContext

/-!
# The text of messages

The message that `xmlContext` writes for names and values: an element for each of them, in which two
calls of `QString::arg` have put the name and then the value (`arg_arg_parameter`).  The encoder
reads the bytes of its strings as Latin-1, but all it looks for are ASCII characters, so the message
for texts in UTF-8 is the UTF-8 of the message for the texts (`xmlContext_wired`).
-/

namespace Daemon

open List XmlSp Encoding

/-! ### Entities -/

/-- What `toXMLEntities` makes of a character. -/
def entities (c : Char) : List Char :=
  if c = '&' then "&amp;".toList
  else if c = '<' then "$lt;".toList
  else if c = '>' then "&gt;".toList
  else if c = '"' then "&quot;".toList
  else [c]

theorem toList_toXMLEntities (s : String) :
  (toXMLEntities s).toList = s.toList.flatMap entities
  := by
  rw [toXMLEntities, String.toList_ofList]
  simp only [replaceChar, flatMap_assoc]
  apply flatMap_congr
  intro c _
  unfold entities
  split_ifs with hamp hless hgt hqu
  iterate 4
    · subst c
      rfl
  · simp only [if_neg hless, if_neg hgt, if_neg hqu, flatMap_singleton]

/-! ### Place markers -/

variable {cs ds after : List Char} {c : Char} {n k : ℕ}

theorem markerNumber_cons_of_not_isDigit (h : c.isDigit = false) :
  markerNumber (c :: cs) = none
  := by
  cases cs with
  | nil => simp [markerNumber, h]
  | cons d ds => simp [markerNumber, h]

theorem marker?_cons_of_ne (h : c ≠ '%') :
  marker? (c :: cs) = none
  := by
  unfold marker?
  split <;> simp_all

theorem marker?_percent_of_ne (h : c ≠ 'L') :
  marker? ('%' :: c :: cs) = (markerNumber (c :: cs)).map fun (n, k) => (n, k + 1)
  := by
  rw [marker?]
  intro ds hds
  cases hds
  apply h rfl

/-- The characters of a place marker are ASCII characters of the text. -/
theorem markerNumber_eq_some (h : markerNumber cs = some (n, k)) :
  k ≤ cs.length ∧ ∀ d ∈ cs.take k, d.isDigit
  := by
  unfold markerNumber at h
  split at h
  · split_ifs at h <;> cases h <;> simp_all
  · split_ifs at h
    cases h
    simp_all
  · cases h

theorem isAscii_of_isDigit (h : c.isDigit) : IsAscii c := by
  simp only [Char.isDigit, Bool.and_eq_true, decide_eq_true_eq] at h
  have hle : c.val.toNat ≤ 57 := UInt32.le_iff_toNat_le.mp h.2
  apply Nat.lt_of_le_of_lt hle
  decide

theorem marker?_cons_eq_some (h : marker? (c :: cs) = some (n, k)) :
  c = '%' ∧ k - 1 ≤ cs.length ∧ ∀ d ∈ cs.take (k - 1), IsAscii d
  := by
  unfold marker? at h
  split at h
  · rename_i ds heq
    cases heq
    obtain ⟨⟨m, j⟩, hm, heq⟩ := Option.map_eq_some_iff.mp h
    cases heq
    obtain ⟨hlen, hdigs⟩ := markerNumber_eq_some hm
    refine ⟨rfl, by simpa using hlen, ?_⟩
    intro d hd
    have hd : d ∈ 'L' :: ds.take j := hd
    rw [mem_cons] at hd
    rcases hd with rfl | hd
    · decide
    · apply isAscii_of_isDigit (hdigs d hd)
  · rename_i ds _ heq
    cases heq
    obtain ⟨⟨m, j⟩, hm, heq⟩ := Option.map_eq_some_iff.mp h
    cases heq
    obtain ⟨hlen, hdigs⟩ := markerNumber_eq_some hm
    exact ⟨rfl, hlen, fun d hd => isAscii_of_isDigit (hdigs d hd)⟩
  · cases h

theorem lowestMarker_cons (c : Char) (cs : List Char) :
  lowestMarker (c :: cs) = ((marker? (c :: cs)).map Prod.fst).merge min (lowestMarker cs)
  := by
  rw [lowestMarker]
  cases marker? (c :: cs) <;> cases lowestMarker cs <;> rfl

theorem replaceMarker_zero_cons (n : ℕ) (after : List Char) (c : Char) (cs : List Char) :
  replaceMarker n after 0 (c :: cs) =
    match marker? (c :: cs) with
    | some (m, k) =>
        if m = n then after ++ replaceMarker n after (k - 1) cs
        else c :: replaceMarker n after 0 cs
    | none => c :: replaceMarker n after 0 cs
  := by
  rewrite [replaceMarker]
  cases marker? (c :: cs) <;> rfl

/-- The rest of a marker is left out. -/
theorem replaceMarker_eq_drop (n : ℕ) (after : List Char) (k : ℕ) (cs : List Char) :
  replaceMarker n after k cs = replaceMarker n after 0 (cs.drop k)
  := by
  induction k generalizing cs with
  | zero => rfl
  | succ k ih =>
    cases cs with
    | nil => simp [replaceMarker]
    | cons c cs =>
      rw [replaceMarker, ih]
      rfl

/-- The two things that happen to a character: it starts a marker that is replaced, or it is
left as it is. -/
theorem replaceMarker_cases (n : ℕ) (after : List Char) (c : Char) (cs : List Char) :
  (∃ k, marker? (c :: cs) = some (n, k) ∧
      replaceMarker n after 0 (c :: cs) = after ++ replaceMarker n after 0 (cs.drop (k - 1))) ∨
    ((∀ k, marker? (c :: cs) ≠ some (n, k)) ∧
      replaceMarker n after 0 (c :: cs) = c :: replaceMarker n after 0 cs)
  := by
  rw [replaceMarker_zero_cons]
  cases hmk : marker? (c :: cs) with
  | none => exact .inr ⟨nofun, rfl⟩
  | some marker =>
    obtain ⟨m, k⟩ := marker
    by_cases hm : m = n
    · refine .inl ⟨k, by rw [hm], ?_⟩
      simp only [if_pos hm]
      rw [replaceMarker_eq_drop]
    · refine .inr ⟨fun j hj => ?_, by simp only [if_neg hm]⟩
      cases hj
      apply hm rfl

/-! ### A text before a quote

Neither a quote nor what follows it can be a part of a marker. -/

theorem markerNumber_append_quote (cs ds : List Char) :
  markerNumber (cs ++ '"' :: ds) = markerNumber cs
  := by
  rcases cs with _ | ⟨c, _ | ⟨d, cs⟩⟩
  · rw [nil_append, markerNumber_cons_of_not_isDigit (by decide)]
    rfl
  · simp [markerNumber]
  · rfl

theorem marker?_append_quote (c : Char) (cs ds : List Char) :
  marker? (c :: cs ++ '"' :: ds) = marker? (c :: cs)
  := by
  by_cases hc : c = '%'
  · subst hc
    rcases cs with _ | ⟨d, cs⟩
    · rw [cons_append, nil_append, marker?_percent_of_ne (by decide),
        markerNumber_cons_of_not_isDigit (by decide)]
      rfl
    by_cases hd : d = 'L'
    · subst hd
      rw [cons_append, cons_append, marker?, marker?, markerNumber_append_quote]
    · rw [cons_append, cons_append, marker?_percent_of_ne hd,
        marker?_percent_of_ne hd, ← cons_append, markerNumber_append_quote]
  · rw [cons_append, marker?_cons_of_ne hc, marker?_cons_of_ne hc]

theorem lowestMarker_append_quote (cs ds : List Char) :
  lowestMarker (cs ++ '"' :: ds) = (lowestMarker cs).merge min (lowestMarker ds)
  := by
  induction cs with
  | nil =>
    rw [nil_append, lowestMarker_cons, marker?_cons_of_ne (by decide)]
    rfl
  | cons c cs ih =>
    rw [cons_append, lowestMarker_cons, ← cons_append, marker?_append_quote, ih, lowestMarker_cons]
    cases marker? (c :: cs) <;> cases lowestMarker cs <;> cases lowestMarker ds <;>
      simp [min_assoc]

theorem replaceMarker_append_quote (n : ℕ) (after cs ds : List Char) :
  replaceMarker n after 0 (cs ++ '"' :: ds) =
    replaceMarker n after 0 cs ++ '"' :: replaceMarker n after 0 ds
  := by
  induction hlen : cs.length using Nat.strong_induction_on generalizing cs with
  | _ length ih =>
    subst hlen
    rcases cs with _ | ⟨c, cs⟩
    · rw [nil_append, replaceMarker_zero_cons, marker?_cons_of_ne (by decide)]
      rfl
    rcases replaceMarker_cases n after c cs with ⟨k, hk, heq⟩ | ⟨hk, heq⟩
    · obtain ⟨-, hle, -⟩ := marker?_cons_eq_some hk
      have hlt : (cs.drop (k - 1)).length < (c :: cs).length := by
        simp only [length_drop, length_cons]
        omega
      rw [cons_append, replaceMarker_zero_cons, ← cons_append, marker?_append_quote, hk, heq,
        append_assoc, ← ih _ hlt _ rfl, ← drop_append_of_le_length hle, ← replaceMarker_eq_drop]
      simp
    · have hlt : cs.length < (c :: cs).length := by simp
      rcases replaceMarker_cases n after c (cs ++ '"' :: ds) with ⟨k, hk', -⟩ | ⟨-, heq'⟩
      · rw [← cons_append, marker?_append_quote] at hk'
        apply absurd hk' (hk k)
      · rw [cons_append, heq', heq, ih _ hlt _ rfl, cons_append]

/-! ### Texts without a marker of a number -/

/-- A text whose markers have greater numbers is left as it is. -/
theorem replaceMarker_of_lt (after : List Char) (h : ∀ k ∈ lowestMarker cs, n < k) :
  replaceMarker n after 0 cs = cs
  := by
  induction cs with
  | nil => rfl
  | cons c cs ih =>
    rw [lowestMarker_cons] at h
    rcases replaceMarker_cases n after c cs with ⟨k, hk, -⟩ | ⟨hk, heq⟩
    · rw [hk] at h
      cases hlow : lowestMarker cs with
      | none =>
        have hlt : n < n := h n (by rw [hlow]; rfl)
        omega
      | some m =>
        have hlt : n < min n m := h (min n m) (by rw [hlow]; rfl)
        omega
    · rw [heq, ih]
      intro m hm
      have hm : lowestMarker cs = some m := hm
      rw [hm] at h
      cases hmk : marker? (c :: cs) with
      | none => apply h m (by rw [hmk]; rfl)
      | some marker =>
        have hlt : n < min marker.1 m := h _ (by rw [hmk]; rfl)
        omega

/-- The lowest marker of a text is replaced at least once. -/
theorem length_le_replaceMarker (after : List Char) (h : lowestMarker cs = some n) :
  after.length ≤ (replaceMarker n after 0 cs).length
  := by
  induction cs with
  | nil => cases h
  | cons c cs ih =>
    rw [lowestMarker_cons] at h
    rcases replaceMarker_cases n after c cs with ⟨k, -, heq⟩ | ⟨hk, heq⟩
    · rw [heq, length_append]
      omega
    · rw [heq, length_cons]
      apply Nat.le_succ_of_le
      apply ih
      cases hmk : marker? (c :: cs) with
      | none =>
        rw [hmk] at h
        cases hlow : lowestMarker cs <;> rw [hlow] at h <;> exact h
      | some marker =>
        obtain ⟨m, k⟩ := marker
        have hm : m ≠ n := by
          rintro rfl
          apply hk k hmk
        rw [hmk] at h
        cases hlow : lowestMarker cs with
        | none =>
          rw [hlow] at h
          cases h
          apply absurd rfl hm
        | some j =>
          rw [hlow] at h
          have hmin : min m j = n := Option.some.inj h
          congr 1
          omega

theorem mem_replaceMarker {d : Char} (h : d ∈ replaceMarker n after k cs) :
  d ∈ after ∨ d ∈ cs
  := by
  induction cs generalizing k with
  | nil => simp [replaceMarker] at h
  | cons c cs ih =>
    have hcons : d ∈ after ∨ d ∈ cs → d ∈ after ∨ d ∈ c :: cs :=
      Or.imp_right (mem_cons_of_mem c)
    cases k with
    | succ k => apply hcons (ih h)
    | zero =>
      have hleft : d ∈ c :: replaceMarker n after 0 cs → d ∈ after ∨ d ∈ c :: cs := by
        intro hd
        rcases mem_cons.mp hd with rfl | hd
        · exact .inr mem_cons_self
        · apply hcons (ih hd)
      rw [replaceMarker_zero_cons] at h
      split at h
      · split_ifs at h
        · rcases mem_append.mp h with hd | hd
          · exact .inl hd
          · apply hcons (ih hd)
        · apply hleft h
      · apply hleft h

/-! ### Texts in UTF-8 that are read as Latin-1 -/

theorem isDigit_eq_of_iff {d : Char} (h : ∀ a, IsAscii a → (d = a ↔ c = a)) :
  d.isDigit = c.isDigit
  := by
  rw [Bool.eq_iff_iff]
  constructor
  · intro hd
    rwa [(h d (isAscii_of_isDigit hd)).mp rfl]
  · intro hc
    rwa [(h c (isAscii_of_isDigit hc)).mpr rfl]

theorem markerNumber_wire (cs : List Char) :
  markerNumber (wire cs) = markerNumber cs
  := by
  rcases cs with _ | ⟨c, cs⟩
  · rfl
  by_cases hc : IsAscii c
  · rw [wire_cons_of_isAscii hc]
    rcases cs with _ | ⟨d, ds⟩
    · rfl
    obtain ⟨d', ds', hwire, hd⟩ := exists_wire_cons d ds
    by_cases hdig : d.isDigit
    · have hd' : d' = d := (hd d (isAscii_of_isDigit hdig)).mpr rfl
      rw [hwire, hd']
      rfl
    · have hdig' : ¬ d'.isDigit := by rwa [isDigit_eq_of_iff hd]
      simp [hwire, markerNumber, hdig, hdig']
  · obtain ⟨c', cs', hwire, hc'⟩ := exists_wire_cons c cs
    have hdig : c.isDigit = false := by
      rw [Bool.eq_false_iff]
      exact fun h => hc (isAscii_of_isDigit h)
    rw [markerNumber_cons_of_not_isDigit hdig, hwire, markerNumber_cons_of_not_isDigit]
    rw [isDigit_eq_of_iff hc', hdig]

theorem marker?_wire (cs : List Char) :
  marker? (wire cs) = marker? cs
  := by
  rcases cs with _ | ⟨c, cs⟩
  · rfl
  by_cases hc : c = '%'
  · subst hc
    rw [wire_cons_of_isAscii (by decide)]
    rcases cs with _ | ⟨d, ds⟩
    · rfl
    by_cases hd : d = 'L'
    · subst hd
      rw [wire_cons_of_isAscii (by decide), marker?, marker?, markerNumber_wire]
    · obtain ⟨d', ds', hwire, hd'⟩ := exists_wire_cons d ds
      have hne : d' ≠ 'L' := by rwa [ne_eq, hd' 'L' (by decide)]
      rw [marker?_percent_of_ne hd, ← markerNumber_wire (d :: ds), hwire, marker?_percent_of_ne hne]
  · obtain ⟨c', cs', hwire, hc'⟩ := exists_wire_cons c cs
    have hne : c' ≠ '%' := by rwa [ne_eq, hc' '%' (by decide)]
    rw [marker?_cons_of_ne hc, hwire, marker?_cons_of_ne hne]

/-- Text without a percent sign has no marker. -/
theorem lowestMarker_append (h : '%' ∉ cs) :
  lowestMarker (cs ++ ds) = lowestMarker ds
  := by
  induction cs with
  | nil => rfl
  | cons c cs ih =>
    rw [mem_cons, not_or] at h
    rw [cons_append, lowestMarker_cons, marker?_cons_of_ne (Ne.symm h.1), ih h.2]
    cases lowestMarker ds <;> rfl

/-- Text without a percent sign is left as it is. -/
theorem replaceMarker_append (n : ℕ) (after : List Char) (h : '%' ∉ cs) :
  replaceMarker n after 0 (cs ++ ds) = cs ++ replaceMarker n after 0 ds
  := by
  induction cs with
  | nil => rfl
  | cons c cs ih =>
    rw [mem_cons, not_or] at h
    rw [cons_append, replaceMarker_zero_cons, marker?_cons_of_ne (Ne.symm h.1), ih h.2]
    rfl

theorem percent_notMem_latin1 (h : ¬ IsAscii c) :
  '%' ∉ latin1 (String.utf8EncodeChar c)
  := by
  intro hm
  apply not_isAscii_of_mem_latin1 h hm
  decide

theorem lowestMarker_wire (cs : List Char) :
  lowestMarker (wire cs) = lowestMarker cs
  := by
  induction cs with
  | nil => rfl
  | cons c cs ih =>
    by_cases hc : IsAscii c
    · rw [wire_cons_of_isAscii hc, lowestMarker_cons, lowestMarker_cons, ih,
        ← wire_cons_of_isAscii hc, marker?_wire]
    · have hne : c ≠ '%' := by
        rintro rfl
        apply hc (by decide)
      rw [wire_cons, lowestMarker_append (percent_notMem_latin1 hc), ih, lowestMarker_cons,
        marker?_cons_of_ne hne]
      cases lowestMarker cs <;> rfl

/-- Markers can be replaced before or after. -/
theorem replaceMarker_wire (n : ℕ) (after cs : List Char) :
  replaceMarker n (wire after) 0 (wire cs) = wire (replaceMarker n after 0 cs)
  := by
  induction hlen : cs.length using Nat.strong_induction_on generalizing cs with
  | _ length ih =>
    subst hlen
    rcases cs with _ | ⟨c, cs⟩
    · rfl
    by_cases hc : IsAscii c
    · have hmk : marker? (c :: wire cs) = marker? (c :: cs) := by
        rw [← wire_cons_of_isAscii hc, marker?_wire]
      rw [wire_cons_of_isAscii hc]
      rcases replaceMarker_cases n after c cs with ⟨k, hk, heq⟩ | ⟨hk, heq⟩
      · obtain ⟨-, -, hascii⟩ := marker?_cons_eq_some hk
        have hlt : (cs.drop (k - 1)).length < (c :: cs).length := by
          simp only [length_drop, length_cons]
          omega
        rw [replaceMarker_zero_cons, hmk, hk, heq, wire_append, ← ih _ hlt _ rfl,
          ← drop_wire hascii, ← replaceMarker_eq_drop]
        simp
      · have hlt : cs.length < (c :: cs).length := by simp
        rcases replaceMarker_cases n (wire after) c (wire cs) with ⟨k, hk', -⟩ | ⟨-, heq'⟩
        · rw [hmk] at hk'
          apply absurd hk' (hk k)
        · rw [heq', heq, wire_cons_of_isAscii hc, ih _ hlt _ rfl]
    · have hne : c ≠ '%' := by
        rintro rfl
        apply hc (by decide)
      have hlt : cs.length < (c :: cs).length := by simp
      rw [wire_cons, replaceMarker_append _ _ (percent_notMem_latin1 hc), ih _ hlt _ rfl,
        replaceMarker_zero_cons, marker?_cons_of_ne hne, wire_cons]

/-- The string that the UTF-8 bytes of a string make in Latin-1. -/
def wired (s : String) : String := String.ofList (wire s.toList)

theorem toList_wired (s : String) :
  (wired s).toList = wire s.toList
  := String.toList_ofList

theorem wired_append (s t : String) :
  wired (s ++ t) = wired s ++ wired t
  := by
  apply String.toList_injective
  simp [toList_wired]

theorem wired_ne_empty_iff (s : String) :
  wired s ≠ "" ↔ s ≠ ""
  := by
  rw [not_iff_not, ← String.toList_eq_nil_iff, toList_wired, wire_eq_nil_iff,
    String.toList_eq_nil_iff]

theorem wired_of_isAscii {s : String} (h : ∀ c ∈ s.toList, IsAscii c) :
  wired s = s
  := by
  rw [wired, wire_of_isAscii h, String.ofList_toList]

theorem isAscii_of_mem_entities (hc : IsAscii c) :
  ∀ d ∈ entities c, IsAscii d
  := by
  unfold entities
  split_ifs
  any_goals decide
  simpa using hc

theorem entities_of_not_isAscii (hc : ¬ IsAscii c) :
  entities c = [c]
  := by
  unfold entities
  split_ifs with h₁ h₂ h₃ h₄
  any_goals
    subst c
    apply absurd _ hc
    decide
  rfl

theorem toXMLEntities_wired (s : String) :
  toXMLEntities (wired s) = wired (toXMLEntities s)
  := by
  apply String.toList_injective
  rw [toList_toXMLEntities, toList_wired, toList_wired, toList_toXMLEntities,
    flatMap_wire (fun c => isAscii_of_mem_entities) (fun c => entities_of_not_isAscii)]

theorem arg_wired (s a : String) :
  arg (wired s) (wired a) = wired (arg s a)
  := by
  simp only [arg, toList_wired, lowestMarker_wire]
  cases lowestMarker s.toList with
  | none => rfl
  | some n => simp only [replaceMarker_wire, wired, String.toList_ofList]

/-- The message of texts that are read as Latin-1 is the message read as Latin-1. -/
theorem xmlContext_wired (params : List (String × String)) :
  xmlContext (params.map (Prod.map wired wired)) = wired (xmlContext params)
  := by
  have htemplate : wired "<parameter name=\"%1\" value=\"%2\"/>" =
      "<parameter name=\"%1\" value=\"%2\"/>" := wired_of_isAscii (by decide)
  have hopen : wired "<xmlContext>" = "<xmlContext>" := wired_of_isAscii (by decide)
  have hcl : wired "</xmlContext>" = "</xmlContext>" := wired_of_isAscii (by decide)
  rw [xmlContext, xmlContext, wired_append, hcl]
  congr 1
  rw [foldl_map]
  conv_lhs => rw [← hopen]
  refine foldl_rel (r := fun text text' => text = wired text') rfl ?_
  rintro ⟨name, value⟩ - text text' rfl
  simp only [Prod.map, toXMLEntities_wired, wired_ne_empty_iff]
  split_ifs
  · rw [wired_append, ← arg_wired, ← arg_wired, htemplate]
  · rfl

/-! ### The elements of a message -/

/-- The lowest number of the place markers that the name leaves in the template. -/
def valueMarker (name : String) : ℕ := (lowestMarker name.toList).elim 2 (min 2)

theorem valueMarker_le (name : String) :
  valueMarker name ≤ 2
  := by
  unfold valueMarker
  cases lowestMarker name.toList with
  | none => apply le_refl
  | some n => apply min_le_left

/-- The text of an element: the name with the value in place of the markers that are taken
for the one of the value, and the value. -/
theorem arg_arg_parameter (name svalue : String) :
  (arg (arg "<parameter name=\"%1\" value=\"%2\"/>" name) svalue).toList =
    "<parameter name=\"".toList ++
      (replaceMarker (valueMarker name) svalue.toList 0 name.toList ++
        ("\" value=\"".toList ++
          ((if valueMarker name = 2 then svalue.toList else "%2".toList) ++ "\"/>".toList)))
  := by
  have hn : arg "<parameter name=\"%1\" value=\"%2\"/>" name =
      String.ofList ("<parameter name=\"".toList ++
        (name.toList ++ '"' :: " value=\"%2\"/>".toList)) := rfl
  have hlow : lowestMarker " value=\"%2\"/>".toList = some 2 := by decide
  have hmerge : (lowestMarker name.toList).merge min (some 2) = some (valueMarker name) := by
    unfold valueMarker
    cases lowestMarker name.toList with
    | none => rfl
    | some n => apply congrArg some (min_comm n 2)
  have hvl : replaceMarker (valueMarker name) svalue.toList 0 " value=\"%2\"/>".toList =
      " value=\"".toList ++
        ((if valueMarker name = 2 then svalue.toList else "%2".toList) ++ "\"/>".toList) := by
    have hle := valueMarker_le name
    obtain h | h | h : valueMarker name = 0 ∨ valueMarker name = 1 ∨ valueMarker name = 2 := by
      omega
    all_goals
      rw [h]
      rfl
  rw [hn, arg, String.toList_ofList, lowestMarker_append (by decide),
    lowestMarker_append_quote, hlow, hmerge]
  simp only [String.toList_ofList]
  rw [replaceMarker_append _ _ (by decide), replaceMarker_append_quote, hvl]
  rfl

theorem toXMLEntities_ne_empty_iff (value : String) :
  toXMLEntities value ≠ "" ↔ value ≠ ""
  := by
  have hne : ∀ c, entities c ≠ [] := by
    intro c
    unfold entities
    split_ifs <;> simp
  rw [not_iff_not, ← String.toList_eq_nil_iff, ← String.toList_eq_nil_iff, toList_toXMLEntities]
  cases value.toList with
  | nil => simp
  | cons c cs => simp [hne]

/-- The element of a name and a value, empty when one of them is. -/
def parameterElement (param : String × String) : List Char :=
  if param.1 ≠ "" ∧ param.2 ≠ "" then
    (arg (arg "<parameter name=\"%1\" value=\"%2\"/>" param.1) (toXMLEntities param.2)).toList
  else []

/-- A message is made of the elements of its names and values. -/
theorem toList_xmlContext (params : List (String × String)) :
  (xmlContext params).toList =
    "<xmlContext>".toList ++ (params.flatMap parameterElement ++ "</xmlContext>".toList)
  := by
  have hf : ∀ text : String,
      (params.foldl
        (fun text param =>
          let svalue := toXMLEntities param.2
          if param.1 ≠ "" ∧ svalue ≠ "" then
            text ++ arg (arg "<parameter name=\"%1\" value=\"%2\"/>" param.1) svalue
          else text)
        text).toList = text.toList ++ params.flatMap parameterElement := by
    induction params with
    | nil => simp
    | cons param params ih =>
      intro text
      rw [foldl_cons, ih, flatMap_cons, ← append_assoc]
      congr 1
      simp only [parameterElement, toXMLEntities_ne_empty_iff]
      split_ifs <;> simp
  rewrite [xmlContext, String.toList_append, ← append_assoc, ← hf]
  rfl

end Daemon

import Contextd.Selaudit.Accepted
import Contextd.Selaudit.Printer

/-!
# Names as they are written and read

What the scanner makes of the text of a name, followed by something that ends it (`Spelled`), and
what the grammar makes of that: names, lists of names in braces, and lists with commas come back as
they were.
-/

namespace Selaudit

open List

variable {s : String} {w : List Char} {ls r : List Lexeme} {xs : List String}
  {chunks : List (List String)}

/-! ### Tokens of names -/

theorem IsIdentifier.exists_cons (h : IsIdentifier s) :
  ∃ c cs, s.toList = c :: cs ∧ isWordStart c = true
  := by
  have hw := h.1
  rcases hs : s.toList with _ | ⟨c, cs⟩
  · rw [hs] at hw
    cases hw
  · rw [hs, isWord, Bool.and_eq_true] at hw
    use c, cs, rfl, hw.1

/-- The tokens of an element. -/
def elementLexemes (s : String) : List Lexeme :=
  match s.toList with
  | '-' :: cs => [.mark .minus, .identifier (String.ofList cs)]
  | _ => [.identifier s]

theorem elementLexemes_identifier (h : IsIdentifier s) :
  elementLexemes s = [.identifier s]
  := by
  obtain ⟨c, cs, hs, hc⟩ := h.exists_cons
  rw [elementLexemes, hs]
  split
  next heq =>
    cases heq
    exact absurd hc (by decide)
  next => rfl

theorem elementLexemes_minus (s : String) :
  elementLexemes ("-" ++ s) = [.mark .minus, .identifier s]
  := by
  have hs : ("-" ++ s).toList = '-' :: s.toList := by simp
  rw [elementLexemes, hs]
  simp

/-! ### Spelling -/

/-- Before something that ends a word, the text is read as the given tokens. -/
def Spelled (w : List Char) (ls : List Lexeme) : Prop :=
  ∀ u l, Breaks u → Scanned u l → Scanned (w ++ u) (ls ++ l)

/-- A word is spelled as its lexeme. -/
theorem spelled_word (h : isWord s.toList = true) :
  Spelled s.toList [wordLexeme s]
  := by
  intro u l hu hs
  have hw := Scanned.word h hu hs
  rwa [String.ofList_toList] at hw

theorem spelled_identifier (h : IsIdentifier s) :
  Spelled s.toList [.identifier s]
  := by
  have hw := spelled_word h.1
  rwa [wordLexeme, h.2] at hw

theorem spelled_number (h : isNumber s.toList = true) :
  Spelled s.toList [.number s]
  := by
  intro u l hu hs
  have hnum := Scanned.number h hu hs
  rwa [String.ofList_toList] at hnum

/-- A mark between two texts. -/
theorem Spelled.mark {w' : List Char} {ls' : List Lexeme} {c : Char} {m : Mark} (h : Spelled w ls)
    (hc : isPunctuation c = true) (hbreak : isWordChar c = false) (hm : Mark.ofChar c = some m)
    (h' : Spelled w' ls') :
  Spelled (w ++ c :: w') (ls ++ .mark m :: ls')
  := by
  intro u l hu hs
  have hr := Scanned.mark hc hm (h' u l hu hs)
  have hall := h _ _ ⟨c, w' ++ u, rfl, hbreak⟩ hr
  simpa using hall

theorem spelled_nil :
  Spelled [] []
  := fun _ _ _ hs => hs

/-- A mark at the beginning. -/
theorem Spelled.markFirst {c : Char} {m : Mark} (h : Spelled w ls) (hc : isPunctuation c = true)
    (hm : Mark.ofChar c = some m) :
  Spelled (c :: w) (.mark m :: ls)
  := fun u l hu hs => Scanned.mark hc hm (h u l hu hs)

/-- A blank between two texts. -/
theorem Spelled.blank {w' : List Char} {ls' : List Lexeme} (h : Spelled w ls)
    (h' : Spelled w' ls') :
  Spelled (w ++ ' ' :: w') (ls ++ ls')
  := by
  intro u l hu hs
  have hr := Scanned.blank (c := ' ') (by decide) (h' u l hu hs)
  have hall := h _ _ ⟨' ', w' ++ u, rfl, by decide⟩ hr
  simpa using hall

/-- A blank at the beginning. -/
theorem Spelled.blankFirst (h : Spelled w ls) :
  Spelled (' ' :: w) ls
  := fun u l hu hs => Scanned.blank (by decide) (h u l hu hs)

/-- An element is spelled as its lexemes. -/
theorem spelled_element (h : IsElement s) :
  Spelled s.toList (elementLexemes s)
  := by
  cases h with
  | identifier h =>
    rw [elementLexemes_identifier h]
    apply spelled_identifier h
  | @minus s h =>
    have hs : ("-" ++ s).toList = '-' :: s.toList := by simp
    rw [elementLexemes_minus, hs]
    apply (spelled_identifier h).markFirst (by decide) rfl

/-- Texts with a separator in between. -/
theorem spelled_intercalate {α : Type} {sep : String} {text : α → String} {f : α → List Lexeme}
    {between : List Lexeme}
    (hsep : ∀ {w w' ls ls'}, Spelled w ls → Spelled w' ls' →
      Spelled (w ++ (sep.toList ++ w')) (ls ++ (between ++ ls')))
    {xs : List α} (hxs : ∀ x ∈ xs, Spelled (text x).toList (f x)) :
  Spelled (sep.intercalate (xs.map text)).toList (between.intercalate (xs.map f))
  := by
  induction xs with
  | nil => apply spelled_nil
  | cons x xs ih =>
    obtain ⟨hx, hxs⟩ := forall_mem_cons.mp hxs
    cases xs with
    | nil => simpa using hx
    | cons y ys =>
      have hall := hsep hx (ih hxs)
      rw [map_cons, map_cons, String.intercalate_cons_cons, String.toList_append,
        String.toList_append, append_assoc, map_cons, map_cons, intercalate_cons_cons, append_assoc]
      apply hall

/-- Elements with blanks in between. -/
theorem spelled_elements (hxs : ∀ x ∈ xs, IsElement x) :
  Spelled (" ".intercalate xs).toList (xs.flatMap elementLexemes)
  := by
  induction xs with
  | nil => apply spelled_nil
  | cons x xs ih =>
    obtain ⟨hx, hxs⟩ := forall_mem_cons.mp hxs
    cases xs with
    | nil => simpa using spelled_element hx
    | cons y ys =>
      have hall := (spelled_element hx).blank (ih hxs)
      rw [String.intercalate_cons_cons, String.toList_append, String.toList_append,
        append_assoc, flatMap_cons]
      apply hall

/-! ### Lists -/

/-- What comes after a list is a mark that begins no element. -/
def EndsList (r : List Lexeme) : Prop := ∃ m rest, r = .mark m :: rest ∧ m ≠ .minus ∧ m ≠ .lbrace

theorem nestedElements_end (hr : EndsList r) (n : ℕ) :
  nestedElements (n + 1) r = some ([], r)
  := by
  obtain ⟨m, rest, rfl, hmin, hlbrace⟩ := hr
  cases m <;> first | contradiction | simp [nestedElements]

/-- The elements of a list are read back. -/
theorem nestedElements_elements (hxs : ∀ x ∈ xs, IsElement x) (hr : EndsList r) {n : ℕ}
    (hn : xs.length < n) :
  nestedElements n (xs.flatMap elementLexemes ++ r) = some (xs.map .str, r)
  := by
  induction xs generalizing n with
  | nil =>
    obtain ⟨m, rfl⟩ : ∃ m, n = m + 1 := ⟨n - 1, by simp at hn; omega⟩
    apply nestedElements_end hr m
  | cons x xs ih =>
    obtain ⟨hx, hxs⟩ := forall_mem_cons.mp hxs
    obtain ⟨m, rfl⟩ : ∃ m, n = m + 1 := ⟨n - 1, by omega⟩
    have hrest := ih hxs (n := m) (by simpa using hn)
    cases hx with
    | identifier h =>
      rw [flatMap_cons, elementLexemes_identifier h]
      simp [nestedElements, hrest]
    | minus h =>
      rw [flatMap_cons, elementLexemes_minus]
      simp [nestedElements, hrest]

theorem length_le_flatMap (xs : List String) :
  xs.length ≤ (xs.flatMap elementLexemes).length
  := by
  have hone : ∀ x, 1 ≤ (elementLexemes x).length := by
    intro x
    unfold elementLexemes
    split <;> simp
  induction xs with
  | nil => simp
  | cons x xs ih =>
    have hx := hone x
    rw [flatMap_cons, length_append, length_cons]
    omega

/-- A list of elements is read as it is written. -/
theorem nestedIdList_elements {x : String} (hxs : ∀ y ∈ x :: xs, IsElement y) (hr : EndsList r) :
  nestedIdList ((x :: xs).flatMap elementLexemes ++ r)
    = some (.list (.str x) (xs.map .str), r)
  := by
  have hlen := length_le_flatMap (x :: xs)
  rw [nestedIdList, nestedElements_elements hxs hr (by rw [length_append]; omega)]
  rfl

/-- So is a list in braces. -/
theorem nestedIdSet_elements {x : String} (hxs : ∀ y ∈ x :: xs, IsElement y) (r : List Lexeme) :
  nestedIdSet (.mark .lbrace :: ((x :: xs).flatMap elementLexemes ++ .mark .rbrace :: r))
    = some (.list (.str x) (xs.map .str), r)
  := by
  have hlist := nestedIdList_elements hxs (r := .mark .rbrace :: r)
    ⟨.rbrace, r, rfl, by decide, by decide⟩
  simp only [nestedIdSet, expect, if_true, Option.bind_eq_bind, Option.bind_some, hlist]
  rfl

/-- The tokens of lists of elements with commas in between. -/
def commaLexemes (chunks : List (List String)) : List Lexeme :=
  [Lexeme.mark .comma].intercalate (chunks.map (fun c => c.flatMap elementLexemes))

theorem commaLexemes_cons_cons {c d : List String} {cs : List (List String)} :
  commaLexemes (c :: d :: cs)
    = c.flatMap elementLexemes ++ .mark .comma :: commaLexemes (d :: cs)
  := by
  rw [commaLexemes, map_cons, map_cons, intercalate_cons_cons, append_assoc]
  rfl

theorem commaLexemes_singleton {c : List String} :
  commaLexemes [c] = c.flatMap elementLexemes
  := by
  rw [commaLexemes, map_singleton, intercalate_singleton]

theorem length_le_commaLexemes (h : ∀ c ∈ chunks, c ≠ []) :
  chunks.length ≤ (commaLexemes chunks).length
  := by
  have hone : ∀ c : List String, c ≠ [] → 1 ≤ (c.flatMap elementLexemes).length :=
    fun c hc => (length_pos_of_ne_nil hc).trans_le (length_le_flatMap c)
  induction chunks with
  | nil => simp
  | cons c cs ih =>
    obtain ⟨hc, hcs⟩ := forall_mem_cons.mp h
    have hfst := hone c hc
    have hr := ih hcs
    cases cs with
    | nil => simpa [commaLexemes_singleton] using hfst
    | cons d ds =>
      simp only [commaLexemes_cons_cons, length_append, length_cons] at hr ⊢
      omega

/-- Lists with commas in between are read as one list. -/
theorem commaLists_chunks (hne : chunks ≠ []) (h : ∀ c ∈ chunks, c ≠ [] ∧ ∀ x ∈ c, IsElement x)
    {rest : List Lexeme} {n : ℕ} (hn : chunks.length ≤ n) :
  commaLists n (commaLexemes chunks ++ .mark .semi :: rest)
    = some (chunks.flatten.map .str, .mark .semi :: rest)
  := by
  induction chunks generalizing n with
  | nil => contradiction
  | cons c cs ih =>
    obtain ⟨⟨hc, hcs⟩, ht⟩ := forall_mem_cons.mp h
    obtain ⟨x, xs, rfl⟩ := exists_cons_of_ne_nil hc
    obtain ⟨m, rfl⟩ : ∃ m, n = m + 1 := ⟨n - 1, by simp at hn; omega⟩
    cases cs with
    | nil =>
      rw [commaLexemes_singleton, commaLists,
        nestedIdList_elements hcs ⟨.semi, rest, rfl, by decide, by decide⟩]
      simp [Value.elements]
    | cons d ds =>
      have hr := ih (by simp) ht (n := m) (by simpa using hn)
      rw [commaLexemes_cons_cons, append_assoc, cons_append, commaLists,
        nestedIdList_elements hcs ⟨.comma, _, rfl, by decide, by decide⟩]
      simp [hr, Value.elements]

/-- A list with commas is read back. -/
theorem commaList_chunks (hne : chunks ≠ []) (h : ∀ c ∈ chunks, c ≠ [] ∧ ∀ x ∈ c, IsElement x)
    (rest : List Lexeme) :
  commaList (commaLexemes chunks ++ .mark .semi :: rest)
    = some (chunks.flatten.map .str, .mark .semi :: rest)
  := by
  apply commaLists_chunks hne h
  have hlen := length_le_commaLexemes (fun c hc => (h c hc).1)
  rw [length_append]
  omega

/-! ### Names -/

/-- A token with which names begin, rather than go on. -/
def Starts (ls : List Lexeme) : Prop := ∃ l ls', ls = l :: ls' ∧ l ≠ .mark .minus

theorem Starts.head?_append (h : Starts ls) (r : List Lexeme) :
  (ls ++ r).head? ≠ some (.mark .minus)
  := by
  obtain ⟨l, ls', rfl, hl⟩ := h
  simpa using hl

/-- The text is read as the value where names are expected.  Only one identifier may be continued,
by a minus. -/
def ReadAs (w : List Char) (v : Value) (ls : List Lexeme) : Prop :=
  Spelled w ls ∧ Starts ls ∧
    ((∃ s, ls = [.identifier s] ∧ v = .str s) ∨ ∀ r, names (ls ++ r) = some (v, r))

theorem names_identifier (hr : r.head? ≠ some (.mark .minus)) :
  names (.identifier s :: r) = some (.str s, r)
  := by
  rcases r with _ | ⟨l, r⟩
  · rfl
  · have hl : l ≠ .mark .minus := by simpa using hr
    rw [names]
    rintro s' rest heq
    apply hl (List.cons.inj heq).1

theorem ReadAs.names_eq {v : Value} (h : ReadAs w v ls) (hr : r.head? ≠ some (.mark .minus)) :
  names (ls ++ r) = some (v, r)
  := by
  obtain ⟨-, -, ⟨s, rfl, rfl⟩ | h⟩ := h
  · apply names_identifier hr
  · apply h r

/-- A name is read as itself. -/
theorem readAs_name (h : IsName s) :
  ∃ ls, ReadAs s.toList (.str s) ls
  := by
  cases h with
  | identifier h =>
    exact ⟨[.identifier s], spelled_identifier h, ⟨_, _, rfl, by simp⟩, .inl ⟨s, rfl, rfl⟩⟩
  | asterisk =>
    exact ⟨[.mark .asterisk], spelled_nil.markFirst (c := '*') (by decide) rfl,
      ⟨_, _, rfl, by decide⟩, .inr fun r => rfl⟩
  | @difference s s' h h' =>
    have ht : (s ++ " -" ++ s').toList = s.toList ++ ' ' :: '-' :: s'.toList := by simp
    have hspl := (spelled_identifier h).blank
      ((spelled_identifier h').markFirst (c := '-') (by decide) rfl)
    refine ⟨[.identifier s, .mark .minus, .identifier s'], ?_, ⟨_, _, rfl, by simp⟩,
      .inr fun r => rfl⟩
    rw [ht]
    apply hspl

/-- The names can be written and read: one name, or several elements. -/
def ReadableNames (l : List String) : Prop :=
  (∃ s, l = [s] ∧ IsName s) ∨ (1 < l.length ∧ ∀ s ∈ l, IsElement s)

/-- Names that are enumerated are read up to their order. -/
theorem readAs_reprEnums {l : List String} (h : ReadableNames l) :
  ∃ v ls, ReadAs (reprEnums l).toList v ls ∧ v.names.Perm l
  := by
  rcases h with ⟨s, rfl, hs⟩ | ⟨hlen, hels⟩
  · obtain ⟨ls, hls⟩ := readAs_name hs
    exact ⟨.str s, ls, hls, .refl _⟩
  · have hp := perm_insertionSort (· ≤ ·) l
    obtain ⟨x, xs, hsort⟩ := exists_cons_of_ne_nil (l := l.insertionSort (· ≤ ·)) (by
      intro hnil
      rw [hnil] at hp
      rw [← hp.nil_eq] at hlen
      simp at hlen)
    rw [hsort] at hp
    have hxs : ∀ y ∈ x :: xs, IsElement y := fun y hy => hels y (hp.mem_iff.mp hy)
    have hspl := ((spelled_elements hxs).blank
      (spelled_nil.markFirst (c := '\x7d') (by decide) rfl)).blankFirst.markFirst
        (c := '\x7b') (by decide) rfl
    have ht : (reprEnums l).toList
        = '\x7b' :: ' ' :: ((" ".intercalate (x :: xs)).toList ++ ' ' :: ['\x7d']) := by
      rw [reprEnums, if_pos hlen, hsort]
      simp
    refine ⟨.list (.str x) (xs.map .str), _, ⟨ht ▸ hspl, ⟨_, _, rfl, by decide⟩,
      .inr ?_⟩, ?_⟩
    · intro r
      rw [cons_append, append_assoc, singleton_append]
      apply nestedIdSet_elements hxs r
    · simpa [Value.names, Value.elements, Function.comp_def, Value.format] using hp

end Selaudit

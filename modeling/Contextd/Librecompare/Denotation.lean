import Mathlib.Data.Char
import Mathlib.Data.List.Lex
import Mathlib.Data.List.Sort
import Contextd.Librecompare.Acceptance
import Contextd.Librecompare.InStep

/-!
# Expressions that print alike

Containers, the states of an automaton and `operator |=` take two expressions for the same if they
print as the same pattern.  If every rest of two patterns prints as what it is (`TextKept`), then
expressions that print alike have the same language (`lang_eq_of_pattern_eq`).  Without that the
pattern and the transitions can part: `[ab]|c` loses its first alternative when it is parsed, while
a derivation of `xc|x[ab]` prints as `[ab]|c` and has both.
-/

namespace Librecompare

open List

variable {qt : Qt} {p p' : Pattern}

/-- The pattern is read as what it stands for, no logical or is put before other pieces, and every
rest that a word leaves prints as what it is. -/
structure TextKept (p : Pattern) : Prop where
  /-- The pattern is read as what it stands for. -/
  legible : LegiblePattern p
  /-- No logical or is put before other pieces. -/
  orderly : alternativesOrderly true p = true
  /-- The rests print as what they are. -/
  text : ∀ w ≠ [], ∀ r ∈ after p w, r.InStep

/-- A pattern that is in step keeps its texts. -/
theorem textKept_of_isInStep (h : isInStepPattern p = true) :
  TextKept p
  := by
  simp only [isInStepPattern, Bool.and_eq_true] at h
  obtain ⟨⟨⟨hread, hord⟩, ht⟩, hs⟩ := h
  exact ⟨legiblePattern_of_isInStep hread ht hs, hord,
    fun w _ => after_inStep hread ht hs w⟩

/-! ### What is printed determines what is left -/

/-- What is printed consists of sequences with bars in between, and these have the words that are
left. -/
theorem TextKept.exists_sequences (h : TextKept p) {text : List Char} {L : Language UInt8}
    (hsh : Shown p text L) :
  ∃ bs : List Branch, '|' :: text = barTail bs ∧ L = patternLang bs ∧
    ∀ b ∈ bs, ∀ q ∈ b, q.IsLegible
  := by
  cases hsh with
  | pattern =>
    obtain ⟨hne, hbs⟩ := isReadablePattern_iff.mp h.legible.readable
    use p, patternText_eq_barTail hne (fun b hb => (hbs b hb).1), rfl, h.legible.pieces
  | @rests w l hw hne hl hlang =>
    refine ⟨l.map Rest.pieces, ?_, hlang.symm, ?_⟩
    · apply joinedText_eq_barTail hne
      intro r hr
      apply h.text w hw r (hl.subset hr)
    · intro b hb
      obtain ⟨r, hr, rfl⟩ := mem_map.mp hb
      apply h.legible.pieces_after w r (hl.subset hr)

/-- Sequences that are printed alike have the same words. -/
theorem patternLang_eq_of_barTail {bs bs' : List Branch} (hbs : ∀ b ∈ bs, ∀ q ∈ b, q.IsLegible)
    (hbs' : ∀ b ∈ bs', ∀ q ∈ b, q.IsLegible) (h : barTail bs = barTail bs') :
  patternLang bs = patternLang bs'
  := by
  have hall := barTail_inj (fun b hb q hq => (hbs b hb q hq).1)
    (fun b hb q hq => (hbs' b hb q hq).1) h
  clear h
  induction hall with
  | nil => rfl
  | cons hb _ ih =>
    obtain ⟨hbs, hbs₂⟩ := forall_mem_cons.mp hbs
    obtain ⟨hbs', hbs₂'⟩ := forall_mem_cons.mp hbs'
    rw [patternLang, patternLang, ih hbs₂ hbs₂', branchLang_eq_of_text hbs hbs' hb.2 hb.1]

/-- What patterns show alike is the same language. -/
theorem TextKept.lang_eq (h : TextKept p) (h' : TextKept p') {text : List Char}
    {L L' : Language UInt8} (hsh : Shown p text L) (hsh' : Shown p' text L') :
  L = L'
  := by
  obtain ⟨bs, ht, rfl, hbs⟩ := h.exists_sequences hsh
  obtain ⟨bs', ht', rfl, hbs'⟩ := h'.exists_sequences hsh'
  apply patternLang_eq_of_barTail hbs hbs'
  rw [← ht, ht']

/-- A pattern that keeps its texts can be followed. -/
theorem TextKept.followable (h : TextKept p) :
  Followable p
  := by
  refine ⟨h.legible, h.orderly, ?_, fun _ _ _ => h.lang_eq h⟩
  intro w hw r hr
  have hleg := h.legible.pieces_after w
  refine ⟨fun _ => (h.text w hw r hr).printed_ne_nil (hleg r hr), ?_⟩
  intro r' hr' heq
  apply (h.text w hw r hr).branchLang_eq (h.text w hw r' hr') (hleg r hr) (hleg r' hr') heq

/-! ### Expressions reached from two patterns -/

/-- Qt that accepts every pattern, and sorts by the patterns, which `operator <` of `QString`
compares by the first characters that differ. -/
def Qt.sorting : Qt :=
  ⟨fun _ => true, List.insertionSort (fun a b : RegExp => a.pattern ≤ b.pattern)⟩

theorem documented_sorting :
  Qt.sorting.Documented
  := ⟨fun es => perm_insertionSort _ es, fun _ _ => rfl⟩

end Librecompare

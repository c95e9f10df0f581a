import Contextd.Librecompare.States
import Contextd.Librecompare.Text

/-!
# Rests that print as what they are

A rest prints as the text of its pieces as long as the text is cut where the pieces end.  It is not
if something follows a class, whose letter is taken for the text behind it, nor if a bracket list or
a group before a bar has been removed from the text.  Without that a pattern is in step
(`isInStepPattern`), and so is what a word leaves of it (`after_inStep`).
-/

namespace Librecompare

open List

variable {final : Bool} {b : Branch} {bs : Pattern} {p : Piece}

/-! ### Patterns that are in step -/

/-- Only the last alternative has pieces whose text is removed. -/
def keepsText : Pattern → Bool
  | [] => true
  | [_] => true
  | b :: c :: bs => b.all (fun p => !p.isErased) && keepsText (c :: bs)

/-- The sequence is a class that is read once at most. -/
def isClassOnce : Branch → Bool
  | [.single (.special _ _) op] => op.isOnce
  | _ => false

mutual

/-- Text and piece stay in step; `final` tells that nothing follows the piece.  A class can only be
the last piece, or the only one of an alternative. -/
def Piece.isInStep : Bool → Piece → Bool
  | final, .single (.special _ _) op => final && op.isOnce
  | _, .single _ _ => true
  | final, .group alternatives op =>
    keepsText alternatives && alternativesInStep (final && op.isOnce) alternatives

/-- Text and pieces of the sequence stay in step. -/
def branchInStep : Bool → List Piece → Bool
  | _, [] => true
  | final, p :: ps => p.isInStep (final && ps.isEmpty) && branchInStep final ps

/-- Texts and pieces of the alternatives stay in step. -/
def alternativesInStep : Bool → List (List Piece) → Bool
  | _, [] => true
  | final, b :: bs => (isClassOnce b || branchInStep final b) && alternativesInStep final bs

end

/-- The pattern is readable and orderly, and texts and pieces stay in step. -/
def isInStepPattern (p : Pattern) : Bool :=
  isReadablePattern p && alternativesOrderly true p && keepsText p && alternativesInStep true p

theorem branchInStep_iff :
  branchInStep final b = true ↔ branchAll (fun final p => p.isInStep final = true) final b
  := by
  induction b with
  | nil => simp [branchInStep, branchAll]
  | cons p ps ih => rw [branchInStep, branchAll, Bool.and_eq_true, ih]

theorem alternativesInStep_iff :
  alternativesInStep final bs = true ↔
    ∀ b ∈ bs, isClassOnce b = true ∨ branchInStep final b = true
  := by
  induction bs with
  | nil => simp [alternativesInStep]
  | cons b bs ih => simp [alternativesInStep, ih]

theorem isInStep_group_iff {alternatives : Pattern} {op : Operator} :
  (Piece.group alternatives op).isInStep final = true ↔ keepsText alternatives = true ∧
    ∀ b ∈ alternatives, isClassOnce b = true ∨ branchInStep (final && op.isOnce) b = true
  := by
  rw [Piece.isInStep, Bool.and_eq_true, alternativesInStep_iff]

/-- A class that stays in step is the last piece, and is read once at most. -/
theorem isInStep_class (hcls : p.isClass = true) (h : p.isInStep final = true) :
  final = true ∧ p.op.isOnce = true
  := by
  rcases p with ⟨_ | _ | _ | _ | _, op⟩ | _
  case single.special => simpa [Piece.isInStep, Piece.op] using h
  all_goals cases hcls

theorem exists_of_isClassOnce (h : isClassOnce b = true) :
  ∃ negated c op, b = [.single (.special negated c) op] ∧ op.isOnce = true
  := by
  unfold isClassOnce at h
  split at h
  · exact ⟨_, _, _, rfl, h⟩
  · cases h

/-- A class that is read leaves nothing. -/
theorem isSpent_of_isClassOnce (h : isClassOnce b = true) :
  IsSpent b
  := by
  obtain ⟨negated, c, op, rfl, ho⟩ := exists_of_isClassOnce h
  intro text x hx
  rw [branchFirsts_cons, branchFirsts, ite_self, append_nil, Piece.firsts] at hx
  obtain rfl : x = _ := by simpa using hx
  simp [after_pieces, Piece.op, ho]

/-- What can be left of a piece in step is in step. -/
theorem positional_isInStep :
  Positional (fun final p => p.isInStep final = true)
  := by
  constructor
  · intro final p h ho
    cases p with
    | single atom op =>
      cases atom with
      | special negated c =>
        have hcls := isInStep_class rfl h
        rw [hcls.2] at ho
        cases ho
      | _ => rfl
    | group alternatives op =>
      rw [Piece.op] at ho
      rw [Piece.isInStep, ho] at h
      rw [Piece.starred, Piece.isInStep, Operator.isOnce]
      apply h
  · intro final alternatives op h b hb
    apply ((isInStep_group_iff.mp h).2 b hb).symm.imp
    · apply branchInStep_iff.mp
    · apply isSpent_of_isClassOnce

/-! ### Texts of rests -/

/-- The rest prints as what it is. -/
def Rest.InStep (r : Rest) : Prop := r.printed = shownText r.pieces

theorem branchText_append {b' : Branch} :
  branchText (b ++ b') = branchText b ++ branchText b'
  := by
  induction b with
  | nil => simp [branchText]
  | cons p ps ih => simp only [cons_append, branchText_cons, ih, append_assoc]

namespace Rest

variable {r c : Rest}

theorem inStep_of_eq (h : r.pieces = []) :
  r.InStep
  := by
  simp [InStep, printed, shownText, h]

theorem inStep_iff_of_ne (h : r.pieces ≠ []) :
  r.InStep ↔ r.text = branchText r.pieces
  := by
  simp [InStep, printed, shownText, h]

/-- Rests that are in step can be joined. -/
theorem join_inStep (hr : r.InStep) (hc : c.InStep) :
  (r.join c).InStep
  := by
  by_cases hcne : c.pieces = []
  · have hj : r.join c = r := by simp [join, hcne]
    rwa [hj]
  by_cases hrne : r.pieces = []
  · have hj : r.join c = c := by simp [join, hcne, hrne]
    rwa [hj]
  have hj : r.join c = ⟨r.text ++ c.text, r.pieces ++ c.pieces⟩ := by simp [join, hcne, hrne]
  rw [hj, inStep_iff_of_ne (by simp [hrne]), branchText_append, (inStep_iff_of_ne hrne).mp hr,
    (inStep_iff_of_ne hcne).mp hc]

/-- A rest in step does not print as the empty text. -/
theorem InStep.printed_ne_nil (h : r.InStep) (hr : ∀ q ∈ r.pieces, q.IsLegible) :
  r.printed ≠ []
  := by
  rw [h]
  apply shownText_ne_nil (fun q hq => (hr q hq).1)

/-- Rests that print as what they are, and that print alike, have the same words. -/
theorem InStep.branchLang_eq (h : r.InStep) (h' : c.InStep) (hr : ∀ q ∈ r.pieces, q.IsLegible)
    (hc : ∀ q ∈ c.pieces, q.IsLegible) (heq : r.printed = c.printed) :
  branchLang r.pieces = branchLang c.pieces
  := by
  rw [h, h'] at heq
  obtain ⟨-, -, hnil⟩ := @shownText_append_inj _ _ [] [] (fun q hq => (hr q hq).1)
    (fun q hq => (hc q hq).1) (by simp [Ends]) (by simp [Ends]) (by rw [heq])
  apply branchLang_eq_of_text hr hc hnil heq

end Rest

/-- Only the last alternative of a pattern is under its whole text, unless no text is removed. -/
theorem patternRests_text (h : keepsText bs = true) {r : Rest} (hr : r ∈ patternRests bs) :
  r.text = branchText r.pieces
  := by
  induction bs with
  | nil => cases hr
  | cons b bs ih =>
    cases bs with
    | nil =>
      obtain rfl := mem_singleton.mp hr
      rfl
    | cons c bs =>
      rw [keepsText, Bool.and_eq_true, all_eq_true] at h
      rcases mem_cons.mp hr with rfl | hr
      · obtain ⟨hb, -⟩ := h
        clear ih hr
        show branchLeftover b = branchText b
        induction b with
        | nil => rw [branchText]; rfl
        | cons p ps ih =>
          obtain ⟨hp, hps⟩ := forall_mem_cons.mp hb
          have hleft : p.leftover = p.body ++ p.op.text := by
            rw [Bool.not_eq_true'] at hp
            simp [Piece.leftover, hp]
          rw [branchText_cons, ← ih hps, branchLeftover, flatMap_cons, hleft]
          rfl
      · apply ih h.2 hr

/-- What follows a piece prints as what it is. -/
theorem after_inStep_of_text {ps : Branch} (hp : p.isReadable = true)
    (h : p.isInStep (final && ps.isEmpty) = true) :
  (p.after (branchText (p :: ps)) ps).InStep
  := by
  cases hcls : p.isClass with
  | true =>
    obtain ⟨hfinal, ho⟩ := isInStep_class hcls h
    have hnil : ps = [] := by simpa using (Bool.and_eq_true_iff.mp hfinal).2
    apply Rest.inStep_of_eq
    simp [after_pieces, ho, hnil]
  | false =>
    have hps : (⟨branchText ps, ps⟩ : Rest).InStep := by
      by_cases hne : ps = []
      · apply Rest.inStep_of_eq hne
      · apply (Rest.inStep_iff_of_ne hne).mpr rfl
    rw [Piece.after, branchText_cons, cut_eq hp hcls]
    split_ifs
    · apply hps
    · apply Rest.join_inStep _ hps
      rw [Rest.inStep_iff_of_ne (by simp), branchText_cons, branchText, append_nil]
      cases p <;> rfl

/-- If the pieces stay in step, so does the sequence. -/
theorem branchFirsts_inStep (hb : ∀ p ∈ b, p.isReadable = true)
    (hin : ∀ p ∈ b, ∀ final, p.isInStep final = true → ∀ x ∈ p.firsts, x.2.InStep)
    (h : branchInStep final b = true) :
  ∀ x ∈ branchFirsts (branchText b) b, x.2.InStep
  := by
  induction b with
  | nil =>
    intro x hx
    rw [branchFirsts] at hx
    cases hx
  | cons p ps ih =>
    obtain ⟨hp, hps⟩ := forall_mem_cons.mp hb
    obtain ⟨hpinside, hpsinside⟩ := forall_mem_cons.mp hin
    rw [branchInStep, Bool.and_eq_true] at h
    intro x hx
    rw [branchFirsts_cons, mem_append] at hx
    rcases hx with hx | hx
    · obtain ⟨y, hy, rfl⟩ := mem_map.mp hx
      apply Rest.join_inStep (hpinside _ h.1 y hy) (after_inStep_of_text hp h.1)
    · split_ifs at hx
      · cases hcls : p.isClass with
        | true =>
          obtain ⟨hfinal, -⟩ := isInStep_class hcls h.1
          obtain rfl : ps = [] := by simpa using (Bool.and_eq_true_iff.mp hfinal).2
          rw [branchFirsts] at hx
          cases hx
        | false =>
          rw [branchText_cons, cut_eq hp hcls] at hx
          apply ih hps hpsinside h.2 x hx
      · cases hx

/-- What follows an atom inside a piece that is in step prints as what it is. -/
theorem Piece.firsts_inStep (hp : p.isReadable = true) :
  ∀ final, p.isInStep final = true → ∀ x ∈ p.firsts, x.2.InStep
  := by
  apply Piece.readableInduction _ _ hp
  · intro atom op _ final _ x hx
    rw [Piece.firsts] at hx
    obtain rfl := mem_singleton.mp hx
    apply Rest.inStep_of_eq rfl
  · intro alternatives op hread _ ih final h x hx
    rw [isInStep_group_iff] at h
    rw [Piece.firsts, alternativesFirsts_eq, mem_flatMap] at hx
    obtain ⟨r, hr, hx⟩ := hx
    have hb := mem_patternRests hr
    rcases h.2 _ hb with hcls | hs
    · apply Rest.inStep_of_eq (isSpent_of_isClassOnce hcls _ x hx)
    · rw [Rest.firsts, patternRests_text h.1 hr] at hx
      apply branchFirsts_inStep ((isReadablePattern_iff.mp hread).2 _ hb).2 (ih _ hb) hs x hx

/-- What a word leaves of a pattern that is in step prints as what it is. -/
theorem after_inStep {p : Pattern} (hread : isReadablePattern p = true)
    (ht : keepsText p = true) (h : alternativesInStep true p = true) (w : List UInt8) :
  ∀ r ∈ after p w, r.InStep
  := by
  have hpcs : ∀ w, ∀ r ∈ after p w, branchInStep true r.pieces = true := by
    intro w r hr
    apply branchInStep_iff.mpr (positional_isInStep.mem_after _ w r hr)
    intro b hb
    rcases alternativesInStep_iff.mp h b hb with hcls | hs
    · obtain ⟨negated, c, op, rfl, ho⟩ := exists_of_isClassOnce hcls
      simp [branchAll, Piece.isInStep, ho]
    · apply branchInStep_iff.mp hs
  induction w using List.reverseRecOn with
  | nil =>
    intro r hr
    have hne := ((isReadablePattern_iff.mp hread).2 _ (mem_patternRests hr)).1
    rw [Rest.inStep_iff_of_ne hne, patternRests_text ht hr]
  | append_singleton w b ih =>
    intro r hr
    rw [after_concat] at hr
    obtain ⟨a, hx, -⟩ := mem_readBy.mp hr
    obtain ⟨r', hr', hx⟩ := mem_flatMap.mp hx
    have hread' := after_readable hread w r' hr'
    rw [Rest.firsts] at hx
    by_cases hne : r'.pieces = []
    · rw [hne, branchFirsts] at hx
      cases hx
    · rw [(Rest.inStep_iff_of_ne hne).mp (ih r' hr')] at hx
      apply branchFirsts_inStep hread' _ (hpcs w r' hr') _ hx
      intro q hq
      apply Piece.firsts_inStep (hread' q hq)

/-! ### Patterns that are in step are legible -/

/-- Alternatives that keep their texts are kept. -/
theorem keepsAlternatives_of_text (hread : isReadablePattern bs = true) (ht : keepsText bs = true)
    (hev : ∀ b ∈ bs, ∀ p ∈ b, p.Every (fun _ => True) KeepsAlternatives) :
  KeepsAlternatives bs
  := by
  obtain ⟨-, hbs⟩ := isReadablePattern_iff.mp hread
  intro r hr
  have hb := mem_patternRests hr
  rw [patternRests_text ht hr]
  refine ⟨branchText_ne_nil (hbs _ hb).1 (hbs _ hb).2, ?_⟩
  intro r' hr' heq
  have hb' := mem_patternRests hr'
  rw [patternRests_text ht hr'] at heq
  apply branchLang_eq_of_text (fun p hp => ⟨(hbs _ hb).2 p hp, hev _ hb p hp⟩)
    (fun p hp => ⟨(hbs _ hb').2 p hp, hev _ hb' p hp⟩) (iff_of_false (hbs _ hb).1 (hbs _ hb').1)
  rw [shownText_of_ne (hbs _ hb).1, shownText_of_ne (hbs _ hb').1, heq]

theorem every_of_alternatives {final : Bool} {bs : Pattern}
    (h : ∀ b ∈ bs, isClassOnce b = true ∨ branchInStep final b = true)
    (hpcs : ∀ b ∈ bs, ∀ p ∈ b, ∀ final, p.isInStep final = true →
      p.Every (fun _ => True) KeepsAlternatives) :
  ∀ b ∈ bs, ∀ p ∈ b, p.Every (fun _ => True) KeepsAlternatives
  := by
  intro b hb p hp
  rcases h b hb with hcls | hs
  · obtain ⟨negated, c, op, rfl, -⟩ := exists_of_isClassOnce hcls
    obtain rfl := mem_singleton.mp hp
    rw [Piece.Every]
    trivial
  · obtain ⟨final', hp'⟩ := exists_of_branchAll (branchInStep_iff.mp hs) hp
    apply hpcs b hb p hp final' hp'

/-- In a piece that is in step no alternative is lost. -/
theorem Piece.every_of_isInStep (hp : p.isReadable = true) :
  ∀ final, p.isInStep final = true → p.Every (fun _ => True) KeepsAlternatives
  := by
  apply Piece.readableInduction _ _ hp
  · intro atom op _ final _
    rw [Piece.Every]
    trivial
  · intro alternatives op hread _ ih final h
    rw [isInStep_group_iff] at h
    have hev := every_of_alternatives h.2 ih
    rw [Piece.Every, alternativesEvery_iff]
    exact ⟨keepsAlternatives_of_text hread h.1 hev, hev⟩

/-- A pattern that is in step is read as what it stands for. -/
theorem legiblePattern_of_isInStep {p : Pattern} (hread : isReadablePattern p = true)
    (ht : keepsText p = true) (h : alternativesInStep true p = true) :
  LegiblePattern p
  := by
  have hev := every_of_alternatives (alternativesInStep_iff.mp h) (fun b hb q hq =>
    Piece.every_of_isInStep (((isReadablePattern_iff.mp hread).2 b hb).2 q hq))
  exact ⟨hread, keepsAlternatives_of_text hread ht hev,
    alternativesEvery_iff.mpr hev⟩

end Librecompare

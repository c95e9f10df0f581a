import Mathlib.Data.List.Perm.Basic
import Contextd.Librecompare.Merging
import Contextd.Librecompare.Rests
import Contextd.Librecompare.Tidiness

/-!
# The expressions of rests

A rest is an expression of its own (`Rest.expr`), and `append` joins rests.  An expression that
comes from several rests by `operator |=` is one of them, or a logical or of some of them
(`Represents`).  It has the language it should have if the rests can be told apart by what they
print (`Told`), and it is one of the rests if they absorb one another (`Absorbing`).
-/

namespace Librecompare

open List

variable {qt : Qt}

/-! ### Rests as expressions -/

namespace Rest

variable {r c : Rest}

/-- The expression of a rest: ε if there are no pieces. -/
def expr (qt : Qt) (r : Rest) : RegExp := if r.pieces.isEmpty then .epsilon else r.raw qt

theorem expr_of_eq (h : r.pieces = []) :
  r.expr qt = .epsilon
  := by
  simp [expr, h]

theorem expr_of_ne (h : r.pieces ≠ []) :
  r.expr qt = r.raw qt
  := by
  simp [expr, h]

@[simp]
theorem expr_pattern :
  (r.expr qt).pattern = r.printed
  := by
  rw [expr, printed]
  split_ifs <;> rfl

/-- The expression of a rest is not ø. -/
theorem expr_isNull :
  (r.expr qt).isNull = false
  := by
  by_cases h : r.pieces = []
  · rw [expr_of_eq h]
    rfl
  · rw [expr_of_ne h]
    apply (raw_ne h).1

theorem expr_isOr :
  (r.expr qt).isOr = false
  := by
  by_cases h : r.pieces = []
  · rw [expr_of_eq h]
    rfl
  · rw [expr_of_ne h]
    apply (raw_ne h).2.2

theorem expr_alternatives :
  (r.expr qt).alternatives = [r.expr qt]
  := RegExp.alternatives_of_not_isOr expr_isOr

theorem expr_alone :
  (r.expr qt).Alone
  := by
  by_cases h : r.pieces = []
  · rw [expr_of_eq h]
    apply RegExp.tidy_epsilon.alone
  · rw [expr_of_ne h]
    apply raw_alone

/-- The language of a rest, in terms of its transitions. -/
theorem expr_lang :
  (r.expr qt).lang = RegExp.transitionsLang (branchTransitions qt r.pieces)
  := by
  by_cases h : r.pieces = []
  · rw [expr_of_eq h, RegExp.tidy_epsilon.alone.lang_of_isEmpty rfl rfl, h, branchTransitions,
      RegExp.transitionsLang]
  · rw [expr_of_ne h, raw_lang h]

/-- `append` joins rests; nothing is appended if no piece follows. -/
theorem expr_append :
  (r.expr qt).append qt (c.raw qt) = (r.join c).expr qt
  := by
  by_cases hc : c.pieces = []
  · have hnull : (c.raw qt).isNull = true := by simp [raw, hc, branchTransitions, RegExp.isNull]
    have hemp : (c.raw qt).isEmpty = true := by simp [raw, hc, branchTransitions, RegExp.isEmpty]
    have hj : r.join c = r := by simp [join, hc]
    rw [hj, RegExp.append, hnull, hemp]
    simp
  · obtain ⟨hnull, hemp, hor⟩ := @raw_ne qt c hc
    by_cases hr : r.pieces = []
    · have hj : r.join c = c := by simp [join, hc, hr]
      rw [hj, expr_of_eq hr, expr_of_ne hc, RegExp.append, hnull]
      simp [RegExp.epsilon, RegExp.epsilonTransition, RegExp.isEmpty]
    · obtain ⟨-, hrempty, hror⟩ := @raw_ne qt r hr
      have hj : r.join c = ⟨r.text ++ c.text, r.pieces ++ c.pieces⟩ := by simp [join, hc, hr]
      rw [hj, expr_of_ne hr, expr_of_ne (by simp [hr]),
        RegExp.append_eq_mk raw_alone hrempty hemp hror hor, raw, raw, raw,
        branchTransitions_eq_map, branchTransitions_eq_map, branchTransitions_eq_map, map_append]
      rfl

/-- It is ε only if no piece is left. -/
theorem expr_isEpsilon (hqt : qt.Documented) (h : r.IsReadable) :
  (r.expr qt).isEpsilon = r.pieces.isEmpty
  := by
  by_cases hr : r.pieces = []
  · rw [expr_of_eq hr, hr]
    rfl
  · rw [expr_of_ne hr, raw_isEpsilon hr]
    · simp [hr]
    · intro p hp
      apply Piece.isSolid hqt (h p hp)

end Rest

/-! ### Pieces that are taken for nullable -/

theorem branchSkippable_iff {b : Branch} :
  branchSkippable b = true ↔ ∀ p ∈ b, p.isSkippable = true
  := by
  induction b with
  | nil => simp [branchSkippable]
  | cons p ps ih => simp [branchSkippable, ih]

theorem alternativesSkippable_iff {bs : Pattern} :
  alternativesSkippable bs = true ↔ ∀ b ∈ bs, branchSkippable b = true
  := by
  induction bs with
  | nil => simp [alternativesSkippable]
  | cons b bs ih => simp [alternativesSkippable, ih]

theorem Rest.raw_isNullable_of_skips {r : Rest} (hne : r.pieces ≠ [])
    (h : ∀ p ∈ r.pieces, RegExp.transitionNullable (p.transition qt) = true) :
  (r.raw qt).isNullable = true
  := by
  rw [Rest.raw_isNullable hne, all_eq_true]
  apply h

/-- Some alternative is kept, so a group is nullable if all its alternatives are. -/
theorem Piece.transitionNullable_of_isSkippable (hqt : qt.Documented) {p : Piece}
    (h : p.isReadable = true) (hskip : p.isSkippable = true) :
  RegExp.transitionNullable (p.transition qt) = true
  := by
  revert hskip
  apply Piece.readableInduction _ _ h
  · intro atom op _ hskip
    rw [Piece.isSkippable] at hskip
    rw [Piece.transition, RegExp.transitionNullable_eq, hskip, Bool.true_or]
  · intro alternatives op hread _ ih hskip
    rw [Piece.isSkippable, Bool.or_eq_true, alternativesSkippable_iff] at hskip
    rw [Piece.transition, RegExp.transitionNullable_eq, Bool.or_eq_true]
    apply hskip.imp_right
    intro hall
    obtain ⟨hne, hbs⟩ := isReadablePattern_iff.mp hread
    obtain ⟨e, he⟩ := exists_mem_of_ne_nil _ (alternatives_ne_nil hqt hread)
    obtain ⟨r, hr, rfl⟩ := mem_alternatives hqt (fun b hb => (hbs b hb).1) hne he
    have hb := mem_patternRests hr
    have hnull : (r.raw qt).isNullable = true := by
      apply Rest.raw_isNullable_of_skips (hbs _ hb).1
      intro p hp
      apply ih _ hb p hp (branchSkippable_iff.mp (hall _ hb) p hp)
    simp only [RegExp.nullableToken, RegExp.firstNullable]
    rw [RegExp.isNullable_iff_nil_mem] at hnull ⊢
    rw [← patternExpr_alone.unionLang_alternatives, RegExp.mem_unionLang]
    exact ⟨_, he, hnull⟩

/-- It is nullable if its pieces can be skipped. -/
theorem Rest.expr_isNullable (hqt : qt.Documented) {r : Rest} (h : r.IsReadable)
    (hskip : branchSkippable r.pieces = true) :
  (r.expr qt).isNullable = true
  := by
  by_cases hr : r.pieces = []
  · rw [expr_of_eq hr]
    rfl
  · rw [expr_of_ne hr]
    apply Rest.raw_isNullable_of_skips hr
    intro p hp
    apply Piece.transitionNullable_of_isSkippable hqt (h p hp)
    apply branchSkippable_iff.mp hskip p hp

/-! ### Several rests -/

/-- The rests can be told apart by what they print: those printed alike have the same language, and
none of several is printed as the empty text. -/
def Told (qt : Qt) (s : Multiset Rest) : Prop :=
  ∀ r ∈ s, (1 < s.card → r.printed ≠ []) ∧
    ∀ r' ∈ s, r.printed = r'.printed → (r.expr qt).lang = (r'.expr qt).lang

/-- Of two rests one absorbs the other. -/
def Absorbing (s : Multiset Rest) : Prop := ∀ r r', {r, r'} ≤ s → r.absorbs r' = true

theorem Told.mono {s s' : Multiset Rest} (h : Told qt s') (hle : s ≤ s') :
  Told qt s
  := by
  intro r hr
  obtain ⟨hne, hsame⟩ := h r (Multiset.mem_of_le hle hr)
  constructor
  · intro hcard
    apply hne
    apply hcard.trans_le (Multiset.card_le_card hle)
  · intro r' hr'
    apply hsame r' (Multiset.mem_of_le hle hr')

theorem Absorbing.mono {s s' : Multiset Rest} (h : Absorbing s') (hle : s ≤ s') :
  Absorbing s
  := fun r r' hr => h r r' (hr.trans hle)

/-- What is left of a list under a function when some elements are dropped and the others are
reordered. -/
theorem exists_map_of_subperm {α β : Type} {f : α → β} {l : List α} {k : List β}
    (h : k.Subperm (l.map f)) :
  ∃ l' : List α, l'.Subperm l ∧ k = l'.map f
  := by
  obtain ⟨k', hp, hsub⟩ := h
  obtain ⟨l', hl', rfl⟩ := sublist_map_iff.mp hsub
  obtain ⟨l'', rfl, hl''⟩ : Relation.Comp (· = List.map f ·) List.Perm k l' := by
    rw [eq_map_comp_perm]
    apply hp.symm
  exact ⟨l'', hl''.subperm.trans hl'.subperm, rfl⟩

/-- The expression comes from the rests and should have the language. -/
structure Represents (qt : Qt) (x : Multiset Rest × Language UInt8) (e : RegExp) : Prop where
  /-- The rests are readable. -/
  readable : ∀ r ∈ x.1, r.IsReadable
  /-- The expression is that of one of the rests, or a logical or of some of them. -/
  form : (∃ r ∈ x.1, e = r.expr qt) ∨
    ∃ l : List Rest, ↑l ≤ x.1 ∧ e = .logicalOr (l.map (Rest.expr qt)) ∧
      ∃ es, l.map (Rest.expr qt) = RegExp.removeDuplicates [] (qt.qSort es)
  /-- It has the language if the rests can be told apart. -/
  lang : Told qt x.1 → e.alternatives ≠ [] ∧ e.lang = x.2
  /-- It is one of the rests, and has the language, if the rests absorb one another. -/
  single : Absorbing x.1 → ∃ r ∈ x.1, e = r.expr qt ∧ e.lang = x.2

namespace Represents

variable {x x' : Multiset Rest × Language UInt8} {e e' : RegExp}

/-- A rest alone. -/
theorem of_rest {r : Rest} (h : r.IsReadable) :
  Represents qt ({r}, (r.expr qt).lang) (r.expr qt)
  := by
  refine ⟨?_, .inl ⟨r, by simp, rfl⟩, ?_, ?_⟩
  · simpa using h
  · intro _
    rw [Rest.expr_alternatives]
    exact ⟨cons_ne_nil _ _, rfl⟩
  · intro _
    exact ⟨r, by simp, rfl, rfl⟩

/-- Some of the rests are the alternatives, and are printed. -/
theorem exists_alternatives (h : Represents qt x e) :
  ∃ l : List Rest, ↑l ≤ x.1 ∧ e.alternatives = l.map (Rest.expr qt) ∧ e.pattern = joinedText l
  := by
  rcases h.form with ⟨r, hr, rfl⟩ | ⟨l, hl, rfl, -⟩
  · refine ⟨[r], by simpa using hr, Rest.expr_alternatives, ?_⟩
    rw [Rest.expr_pattern, joinedText, flatMap_singleton, dropLast_concat]
  · refine ⟨l, hl, rfl, ?_⟩
    rw [RegExp.logicalOr, RegExp.pattern_mk, joinedText, flatMap_map]
    simp only [Rest.expr_pattern]

theorem isNull (h : Represents qt x e) :
  e.isNull = false
  := by
  rcases h.form with ⟨r, -, rfl⟩ | ⟨l, -, rfl, -⟩
  · apply Rest.expr_isNull
  · rfl

theorem alone (h : Represents qt x e) :
  e.Alone
  := by
  rcases h.form with ⟨r, -, rfl⟩ | ⟨l, -, rfl, -⟩
  · apply Rest.expr_alone
  · intro t ht _
    obtain rfl := mem_singleton.mp ht
    exact ⟨rfl, rfl⟩

/-- An expression is ε if its alternatives are. -/
theorem isEpsilon_iff (h : Represents qt x e) :
  e.isEpsilon = e.alternatives.all RegExp.isEpsilon
  := by
  rcases h.form with ⟨r, -, rfl⟩ | ⟨l, -, rfl, -⟩
  · simp [Rest.expr_alternatives]
  · rw [RegExp.logicalOr, RegExp.isEpsilon, RegExp.allEpsilon_eq]
    rfl

/-- An expression that is taken for ε is ε, if it has alternatives. -/
theorem lang_of_isEpsilon (hqt : qt.Documented) (h : Represents qt x e) (hne : e.alternatives ≠ [])
    (heps : e.isEpsilon = true) :
  e.lang = 1
  := by
  obtain ⟨l, hl, halts, -⟩ := h.exists_alternatives
  rw [h.isEpsilon_iff, all_eq_true] at heps
  have hone : ∀ a ∈ e.alternatives, a.lang = 1 := by
    intro a ha
    have haepsilon := heps a ha
    rw [halts, mem_map] at ha
    obtain ⟨r, hr, rfl⟩ := ha
    rw [Rest.expr_isEpsilon hqt (h.readable r (Multiset.mem_of_le hl hr)),
      List.isEmpty_iff] at haepsilon
    rw [Rest.expr_lang, haepsilon, branchTransitions, RegExp.transitionsLang]
  obtain ⟨a, ha⟩ := exists_mem_of_ne_nil _ hne
  rw [← h.alone.unionLang_alternatives]
  ext w
  rw [RegExp.mem_unionLang]
  constructor
  · rintro ⟨a', ha', hw⟩
    rwa [hone a' ha'] at hw
  · intro hw
    refine ⟨a, ha, ?_⟩
    rwa [hone a ha]

/-- Expressions of rests that can be told apart can be joined. -/
theorem joinable (hqt : qt.Documented) (h : Represents qt x e) (h' : Represents qt x' e')
    (htold : Told qt (x.1 + x'.1)) :
  RegExp.Joinable e e' ∧ ∀ a ∈ e.alternatives ++ e'.alternatives, a.pattern ≠ []
  := by
  obtain ⟨hne, -⟩ := h.lang (htold.mono (Multiset.le_add_right _ _))
  obtain ⟨hne', -⟩ := h'.lang (htold.mono (Multiset.le_add_left _ _))
  obtain ⟨l, hl, halts, -⟩ := h.exists_alternatives
  obtain ⟨l', hl', halts', -⟩ := h'.exists_alternatives
  have hcard : 1 < (x.1 + x'.1).card := by
    have hl := Multiset.card_le_card hl
    have hl' := Multiset.card_le_card hl'
    have hlen : 0 < l.length := by simpa [halts, length_pos_iff] using hne
    have hlen' : 0 < l'.length := by simpa [halts', length_pos_iff] using hne'
    simp only [Multiset.coe_card, Multiset.card_add] at hl hl' ⊢
    omega
  have hm : ∀ a ∈ e.alternatives ++ e'.alternatives, ∃ r ∈ x.1 + x'.1, r.expr qt = a := by
    rw [halts, halts', ← map_append]
    intro a ha
    obtain ⟨r, hr, rfl⟩ := mem_map.mp ha
    refine ⟨r, ?_, rfl⟩
    rw [Multiset.mem_add]
    apply (mem_append.mp hr).imp (fun hr => Multiset.mem_of_le hl hr)
      (fun hr => Multiset.mem_of_le hl' hr)
  refine ⟨⟨h.lang_of_isEpsilon hqt hne, h'.lang_of_isEpsilon hqt hne', .inr (.inr ?_)⟩, ?_⟩
  · intro a ha
    obtain ⟨r, hr, rfl⟩ := hm a ha
    rw [Rest.expr_pattern]
    refine ⟨(htold r hr).1 hcard, ?_⟩
    intro a' ha' heq
    obtain ⟨r', hr', rfl⟩ := hm a' ha'
    rw [Rest.expr_pattern] at heq
    apply (htold r hr).2 r' hr' heq
  · intro a ha
    obtain ⟨r, hr, rfl⟩ := hm a ha
    rw [Rest.expr_pattern]
    apply (htold r hr).1 hcard

/-- What `operator |=` gives. -/
theorem or_cases (h : Represents qt x e) (h' : Represents qt x' e') :
  e.or qt e' = e ∨ e.or qt e' = e' ∨ e.or qt e' =
    .logicalOr (RegExp.removeDuplicates [] (qt.qSort (e.alternatives ++ e'.alternatives)))
  := by
  unfold RegExp.or
  simp only [h.isNull, h'.isNull, Bool.false_eq_true, if_false]
  split_ifs <;> simp

/-- `operator |=` keeps only one of two rests if one absorbs the other. -/
theorem or_of_absorbs (hqt : qt.Documented) {r r' : Rest} (hr : r.IsReadable)
    (hr' : r'.IsReadable) (h : r.absorbs r' = true) :
  ((r.expr qt).or qt (r'.expr qt) = r.expr qt ∨ (r.expr qt).or qt (r'.expr qt) = r'.expr qt) ∧
    ((r.expr qt).or qt (r'.expr qt)).lang = (r.expr qt).lang + (r'.expr qt).lang
  := by
  have hone : ∀ {r : Rest}, r.IsReadable → (r.expr qt).isEpsilon = true →
      (r.expr qt).lang = 1 := by
    intro r hr heps
    rw [Rest.expr_isEpsilon hqt hr, List.isEmpty_iff] at heps
    rw [Rest.expr_lang, heps, branchTransitions, RegExp.transitionsLang]
  have habs : (r.expr qt).isEpsilon = true ∧ (r'.expr qt).isNullable = true ∨
      (r'.expr qt).isEpsilon = true ∧ (r.expr qt).isNullable = true := by
    simp only [Rest.absorbs, Bool.or_eq_true, Bool.and_eq_true] at h
    rw [Rest.expr_isEpsilon hqt hr, Rest.expr_isEpsilon hqt hr']
    apply h.imp
    · exact fun h => ⟨h.1, Rest.expr_isNullable hqt hr' h.2⟩
    · exact fun h => ⟨h.1, Rest.expr_isNullable hqt hr h.2⟩
  constructor
  · rcases habs with habs | habs
    · simp only [RegExp.or, Rest.expr_isNull, habs]
      cases (r'.expr qt).isEpsilon <;> simp
    · simp only [RegExp.or, Rest.expr_isNull, habs]
      cases (r.expr qt).isEpsilon <;> simp
  · apply RegExp.lang_or hqt.perm Rest.expr_alone Rest.expr_alone Rest.expr_isNull Rest.expr_isNull
    refine ⟨hone hr, hone hr', ?_⟩
    rw [← or_assoc]
    exact .inl habs

/-- `operator |=` joins what the expressions come from, and their languages. -/
theorem or (hqt : qt.Documented) (h : Represents qt x e) (h' : Represents qt x' e') :
  Represents qt (x + x') (e.or qt e')
  := by
  refine ⟨?_, ?_, ?_, ?_⟩
  · intro r hr
    apply (Multiset.mem_add.mp hr).elim (h.readable r) (h'.readable r)
  · have hleft : ∀ {s : Multiset Rest}, s ≤ x.1 → s ≤ (x + x').1 :=
      fun hs => hs.trans (Multiset.le_add_right _ _)
    have hrt : ∀ {s : Multiset Rest}, s ≤ x'.1 → s ≤ (x + x').1 :=
      fun hs => hs.trans (Multiset.le_add_left _ _)
    rcases h.or_cases h' with heq | heq | heq
    · rw [heq]
      apply h.form.imp
      · exact fun ⟨r, hr, hexpr⟩ => ⟨r, Multiset.mem_of_le (hleft le_rfl) hr, hexpr⟩
      · exact fun ⟨l, hl, hexpr⟩ => ⟨l, hleft hl, hexpr⟩
    · rw [heq]
      apply h'.form.imp
      · exact fun ⟨r, hr, hexpr⟩ => ⟨r, Multiset.mem_of_le (hrt le_rfl) hr, hexpr⟩
      · exact fun ⟨l, hl, hexpr⟩ => ⟨l, hrt hl, hexpr⟩
    · right
      obtain ⟨l, hl, halts, -⟩ := h.exists_alternatives
      obtain ⟨l', hl', halts', -⟩ := h'.exists_alternatives
      have hsub := (RegExp.removeDuplicates_sublist []
        (qt.qSort (e.alternatives ++ e'.alternatives))).subperm.trans (hqt.perm _).subperm
      rw [halts, halts', ← map_append] at heq hsub
      obtain ⟨k, hk, hmap⟩ := exists_map_of_subperm hsub
      refine ⟨k, ?_, ?_, _, hmap.symm⟩
      · apply (Multiset.coe_le.mpr hk).trans
        rw [← Multiset.coe_add]
        apply add_le_add hl hl'
      · rw [heq, hmap]
  · intro htold
    obtain ⟨hjoinable, hpat⟩ := h.joinable hqt h' htold
    obtain ⟨hne, hlang⟩ := h.lang (htold.mono (Multiset.le_add_right _ _))
    obtain ⟨hne', hlang'⟩ := h'.lang (htold.mono (Multiset.le_add_left _ _))
    constructor
    · rcases h.or_cases h' with heq | heq | heq
      · rwa [heq]
      · rwa [heq]
      · obtain ⟨a, ha⟩ := exists_mem_of_ne_nil _ hne
        have hm := mem_append_left e'.alternatives ha
        rw [heq]
        rcases RegExp.exists_mem_removeDuplicates ((hqt.perm _).mem_iff.mpr hm) []
          with hnil | ⟨a', ha', -⟩
        · exact absurd hnil (hpat a hm)
        · apply ne_nil_of_mem ha'
    · rw [RegExp.lang_or hqt.perm h.alone h'.alone h.isNull h'.isNull hjoinable, hlang, hlang']
      rfl
  · intro habs
    obtain ⟨r, hr, rfl, hlang⟩ := h.single (habs.mono (Multiset.le_add_right _ _))
    obtain ⟨r', hr', rfl, hlang'⟩ := h'.single (habs.mono (Multiset.le_add_left _ _))
    have habsorbs : r.absorbs r' = true := by
      apply habs
      apply add_le_add (Multiset.singleton_le.mpr hr) (Multiset.singleton_le.mpr hr')
    obtain ⟨heq, hor⟩ := or_of_absorbs hqt (h.readable r hr) (h'.readable r' hr') habsorbs
    rw [hlang, hlang'] at hor
    rcases heq with heq | heq
    · use r, Multiset.mem_add.mpr (.inl hr), heq, hor
    · use r', Multiset.mem_add.mpr (.inr hr'), heq, hor

end Represents

end Librecompare

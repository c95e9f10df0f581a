import Contextd.Data.Joining
import Contextd.Librecompare.Derivation

/-!
# Merging joins what is read and makes it deterministic

To a byte belong the expressions of the derivations whose token has the byte (`readings`).
Splitting two derivations at most joins expressions, and leaves no byte in two tokens; the two loops
of the merging keep both facts (`mergeDerivations_spec`).
-/

namespace Librecompare

open List

variable {data : ByteSet}

open ByteSet Joining

variable {ρ : Type}

/-! ### Byte sets -/

namespace ByteSet

variable {a b : ByteSet} {x : UInt8}

@[simp]
theorem mem_union :
  x ∈ a.union b ↔ x ∈ a ∨ x ∈ b
  := by
  simp only [union, mem_append, mem_filter, Bool.not_eq_true']
  grind

@[simp]
theorem mem_inter :
  x ∈ a.inter b ↔ x ∈ a ∧ x ∈ b
  := by
  simp [inter, and_comm]

@[simp]
theorem mem_diff :
  x ∈ a.diff b ↔ x ∈ a ∧ x ∉ b
  := by
  simp [diff]

theorem nodup_union (ha : a.Nodup) (hb : b.Nodup) :
  (a.union b).Nodup
  := by
  apply ha.append (hb.filter _)
  intro x hx hxb
  simp [hx] at hxb

theorem nodup_inter (hb : b.Nodup) :
  (a.inter b).Nodup
  := hb.filter _

theorem nodup_diff (ha : a.Nodup) :
  (a.diff b).Nodup
  := ha.filter _

/-- Removing bytes one occurrence at a time removes them, if no byte occurs twice. -/
theorem mem_remove {a b : ByteSet} {x : UInt8} (ha : a.Nodup) :
  x ∈ a.remove b ↔ x ∈ a ∧ x ∉ b
  := by
  induction b generalizing a with
  | nil => simp [remove]
  | cons y b ih =>
    have h := ih (ha.erase y)
    simp only [remove, foldl_cons] at h ⊢
    rw [h, ha.mem_erase_iff]
    simp only [mem_cons, not_or]
    tauto

theorem nodup_remove (ha : a.Nodup) :
  (a.remove b).Nodup
  := by
  induction b generalizing a with
  | nil => apply ha
  | cons y b ih => apply ih (ha.erase y)

end ByteSet

/-- The array lists no byte twice, and not the zero byte. -/
def ByteSet.Clean (a : ByteSet) : Prop := a.Nodup ∧ (0 : UInt8) ∉ a

namespace ByteSet.Clean

variable {a b : ByteSet}

theorem nil :
  Clean []
  := ⟨nodup_nil, not_mem_nil⟩

theorem union (ha : a.Clean) (hb : b.Clean) :
  (a.union b).Clean
  := ⟨nodup_union ha.1 hb.1, by simp [ha.2, hb.2]⟩

theorem inter (hb : b.Clean) :
  (a.inter b).Clean
  := ⟨nodup_inter hb.1, by simp [hb.2]⟩

theorem diff (ha : a.Clean) :
  (a.diff b).Clean
  := ⟨nodup_diff ha.1, by simp [ha.2]⟩

theorem remove (ha : a.Clean) :
  (a.remove b).Clean
  := ⟨nodup_remove ha.1, by simp [mem_remove ha.1, ha.2]⟩

/-- Bytes put behind a list that does not have them. -/
theorem append_diff {c : ByteSet} (ha : a.Clean) (hb : b.Clean) (hc : ∀ x ∈ b, x ∈ a → x ∈ c) :
  (a ++ b.diff c).Clean
  := by
  constructor
  · apply ha.1.append (nodup_diff hb.1)
    intro x hx hxd
    obtain ⟨hxb, hxc⟩ := mem_diff.mp hxd
    apply hxc (hc x hxb hx)
  · simp [ha.2, hb.2]

end ByteSet.Clean

/-! ### What derivations read -/

/-- What the derivation leaves to be read after the byte `b`; an empty derivation, which the code
drops, reads nothing. -/
def Derivation.at (d : Derivation ρ) (b : UInt8) : Multiset ρ :=
  if d.isEmpty = false ∧ d.contains b = true then {d.expr} else 0

/-- What the derivations leave to be read after the byte `b`. -/
def readings (b : UInt8) (ds : List (Derivation ρ)) : Multiset ρ :=
  (ds.map (fun d => d.at b)).sum

/-- A byte belongs to the token of at most one of the derivations. -/
def Deterministic (ds : List (Derivation ρ)) : Prop := ∀ b, (readings b ds).card ≤ 1

namespace Derivation

variable {data : ByteSet} {e : ρ} {b : UInt8}

/-- A listing token reads what it lists. -/
theorem at_bracket :
  (Derivation.mk .bracket data e).at b = if b ∈ data then {e} else 0
  := by
  by_cases hb : b ∈ data
  · simp [Derivation.at, isEmpty, contains, hb, ne_nil_of_mem hb]
  · simp [Derivation.at, contains, hb]

/-- An excluding token reads what it does not list. -/
theorem at_exclude (hne : data ≠ []) :
  (Derivation.mk .exclude data e).at b = if b ∈ data then 0 else {e}
  := by
  by_cases hb : b ∈ data
  · simp [Derivation.at, contains, hb]
  · simp [Derivation.at, isEmpty, contains, hb, hne]

@[simp]
theorem at_exclude_nil :
  (Derivation.mk .exclude [] e).at b = 0
  := by
  simp [Derivation.at, isEmpty]

@[simp]
theorem at_any :
  (Derivation.mk .any data e).at b = {e}
  := by
  simp [Derivation.at, isEmpty, contains]

@[simp]
theorem at_noType :
  (Derivation.mk .noType data e).at b = 0
  := by
  simp [Derivation.at, contains]

end Derivation

section Readings

variable {b : UInt8} {d : Derivation ρ} {ds ds' : List (Derivation ρ)}

@[simp]
theorem readings_nil :
  readings b ([] : List (Derivation ρ)) = 0
  := rfl

@[simp]
theorem readings_cons :
  readings b (d :: ds) = d.at b + readings b ds
  := by
  simp [readings]

@[simp]
theorem readings_append :
  readings b (ds ++ ds') = readings b ds + readings b ds'
  := by
  simp [readings]

@[simp]
theorem readings_reverse :
  readings b ds.reverse = readings b ds
  := by
  rw [readings, map_reverse, sum_reverse, readings]

@[simp]
theorem readings_nonEmpty :
  readings b (nonEmpty d) = d.at b
  := by
  unfold nonEmpty
  split
  next h => simp [Derivation.at, h]
  next h => simp

theorem readings_map {ρ' : Type} {f : ρ → ρ'} :
  readings b (ds.map (fun d => ⟨d.type, d.data, f d.expr⟩)) = (readings b ds).map f
  := by
  induction ds with
  | nil => rfl
  | cons d ds ih =>
    rw [map_cons, readings_cons, ih, readings_cons, Multiset.map_add]
    congr 1
    by_cases h : d.isEmpty = false ∧ d.contains b = true
    · rw [show d.at b = {d.expr} from if_pos h, Multiset.map_singleton]
      apply if_pos h
    · rw [show d.at b = 0 from if_neg h, Multiset.map_zero]
      apply if_neg h

/-- The readings are those of the tokens with the byte. -/
theorem mem_readings {e : ρ} :
  e ∈ readings b ds ↔ ∃ d ∈ ds, d.isEmpty = false ∧ d.contains b = true ∧ d.expr = e
  := by
  induction ds with
  | nil => simp
  | cons d ds ih =>
    rw [readings_cons, Multiset.mem_add, ih, Derivation.at]
    split_ifs with h
    · simp only [Multiset.mem_singleton, exists_mem_cons_iff]
      grind
    · simp only [Multiset.notMem_zero, false_or, exists_mem_cons_iff]
      grind

/-- The derivations whose token has the byte are as many as the expressions left. -/
theorem length_filter_contains (h : ∀ d ∈ ds, d.isEmpty = false) :
  (ds.filter (fun d => d.contains b)).length = (readings b ds).card
  := by
  induction ds with
  | nil => rfl
  | cons d ds ih =>
    obtain ⟨hd, hds⟩ := forall_mem_cons.mp h
    rw [readings_cons, Multiset.card_add, ← ih hds, filter_cons, Derivation.at]
    by_cases hb : d.contains b = true
    · simp [hb, hd, Nat.add_comm]
    · simp [hb]

theorem Deterministic.pairwise (h : Deterministic ds) (hne : ∀ d ∈ ds, d.isEmpty = false) :
  ds.Pairwise (fun d d' => ∀ c, ¬ (d.contains c = true ∧ d'.contains c = true))
  := by
  rw [pairwise_iff_forall_sublist]
  rintro d d' hsub c ⟨hc, hc'⟩
  have hlen := (hsub.filter (fun d => d.contains c)).length_le
  have hone := h c
  rw [← length_filter_contains hne] at hone
  simp only [filter_cons, hc, hc', if_true, filter_nil, length_cons, length_nil] at hlen
  omega

end Readings

/-! ### One step -/

/-- A derivation in the course of merging: the bytes it lists are clean, and its token has one of
the three types unless it is empty. -/
structure Derivation.Sound (d : Derivation ρ) : Prop where
  /-- The listed bytes. -/
  clean : d.data.Clean
  /-- The type of the token. -/
  typed : d.isEmpty = false → d.type = .any ∨ d.type = .bracket ∨ d.type = .exclude

/-- Every derivation is sound, and none is empty. -/
def Kept (ds : List (Derivation ρ)) : Prop := ∀ x ∈ ds, x.Sound ∧ x.isEmpty = false

/-- What a step of merging has to satisfy. -/
structure Split.Spec (or : ρ → ρ → ρ) (d d2 : Derivation ρ) (s : Split ρ) : Prop where
  /-- What is left is sound. -/
  sound : s.d.Sound ∧ s.d2.Sound
  /-- What is new is sound, and not empty. -/
  kept : Kept (s.d3 ++ s.d4)
  /-- Expressions are at most joined. -/
  joined : ∀ b, Joins or (d.at b + d2.at b) (readings b (s.d :: s.d2 :: (s.d3 ++ s.d4)))
  /-- What replaces the existing derivation has only its bytes. -/
  within : ∀ b, (readings b (s.d2 :: s.d3)).card ≤ (d2.at b).card
  /-- What is left of the new derivation has only its bytes. -/
  shrinks : ∀ b, (s.d.at b).card ≤ (d.at b).card
  /-- No byte belongs to two of the tokens. -/
  apart : ∀ b, (readings b (s.d :: s.d2 :: s.d3)).card ≤ 1

variable {or : ρ → ρ → ρ}

/-- A sound derivation is kept unless it is empty. -/
theorem kept_nonEmpty {d : Derivation ρ} (h : d.Sound) :
  Kept (nonEmpty d)
  := by
  unfold nonEmpty
  split
  next => simp [Kept]
  next hemp => simpa [Kept] using ⟨h, by simpa using hemp⟩

@[simp]
theorem Kept.nil :
  Kept ([] : List (Derivation ρ))
  := by
  simp [Kept]

/-- Kept derivations are put together. -/
theorem Kept.append {ds ds' : List (Derivation ρ)} (h : Kept ds) (h' : Kept ds') :
  Kept (ds ++ ds')
  := by
  rw [Kept, forall_mem_append]
  exact ⟨h, h'⟩

theorem Kept.of_subset {ds ds' : List (Derivation ρ)} (h : Kept ds) (hsub : ds' ⊆ ds) :
  Kept ds'
  := fun x hx => h x (hsub hx)

namespace Derivation

theorem isEmpty_eq_false {d : Derivation ρ} (h : d.data ≠ []) :
  d.isEmpty = false
  := by
  simp [isEmpty, h]

namespace Sound

variable {e : ρ} {data : ByteSet}

theorem any (h : data.Clean) :
  (Derivation.mk .any data e).Sound
  := ⟨h, fun _ => .inl rfl⟩

theorem bracket (h : data.Clean) :
  (Derivation.mk .bracket data e).Sound
  := ⟨h, fun _ => .inr (.inl rfl)⟩

theorem exclude (h : data.Clean) :
  (Derivation.mk .exclude data e).Sound
  := ⟨h, fun _ => .inr (.inr rfl)⟩

theorem gone :
  (Derivation.mk .noType [] e).Sound
  := ⟨.nil, by simp [isEmpty]⟩

end Sound

/-- A derivation that is not empty reads some byte: the zero byte, if it excludes bytes. -/
theorem exists_at {d : Derivation ρ} (h : d.Sound) (hne : d.isEmpty = false) :
  ∃ b, d.contains b = true
  := by
  obtain ⟨type, data, e⟩ := d
  have hclean := h.clean
  obtain rfl | rfl | rfl := h.typed hne
  · exact ⟨0, rfl⟩
  · obtain ⟨b, hb⟩ := exists_mem_of_ne_nil data (by simpa [isEmpty] using hne)
    use b, by simpa [contains] using hb
  · use 0, by simpa [contains] using hclean.2

end Derivation

section Cases

variable {data data2 : ByteSet} {e e2 : ρ}

/-- A bracket derivation against a bracket one. -/
theorem splitBracket_bracket (hd : (Derivation.mk .bracket data e).Sound)
    (hd2 : (Derivation.mk .bracket data2 e2).Sound) :
  Split.Spec or ⟨.bracket, data, e⟩ ⟨.bracket, data2, e2⟩
    (split or ⟨.bracket, data, e⟩ ⟨.bracket, data2, e2⟩)
  := by
  simp only [split, splitBracket]
  split
  next hinter =>
    have hn : ∀ b, b ∈ data → b ∉ data2 := by
      intro b hb hb2
      have : b ∈ data.inter data2 := by simp [hb, hb2]
      simp_all
    refine ⟨⟨hd, hd2⟩, .nil, by simp, by simp, by simp, ?_⟩
    intro b
    by_cases hb : b ∈ data
    · simp [Derivation.at_bracket, hb, hn b hb]
    · by_cases hb2 : b ∈ data2 <;> simp [Derivation.at_bracket, hb, hb2]
  next hinter =>
    have hm := fun x => @mem_remove data (data.inter data2) x hd.clean.1
    have hm2 := fun x => @mem_remove data2 (data.inter data2) x hd2.clean.1
    have hk : Kept [Derivation.mk .bracket (data.inter data2) (or e e2)] := by
      simpa [Kept] using ⟨.bracket hd2.clean.inter, by simpa [Derivation.isEmpty] using hinter⟩
    refine ⟨⟨.bracket hd.clean.remove, .bracket hd2.clean.remove⟩, by simpa using hk,
      ?_, ?_, ?_, ?_⟩
    all_goals
      intro b
      by_cases hb : b ∈ data <;> by_cases hb2 : b ∈ data2 <;>
        simp [Derivation.at_bracket, hm, hm2, hb, hb2]

/-- A bracket derivation against an exclude one. -/
theorem splitBracket_exclude (hd : (Derivation.mk .bracket data e).Sound)
    (hd2 : (Derivation.mk .exclude data2 e2).Sound) (hne : data2 ≠ []) :
  Split.Spec or ⟨.bracket, data, e⟩ ⟨.exclude, data2, e2⟩
    (split or ⟨.bracket, data, e⟩ ⟨.exclude, data2, e2⟩)
  := by
  simp only [split, splitBracket]
  refine ⟨⟨.bracket hd2.clean.inter, .exclude ?_⟩, ?_, ?_, ?_, ?_, ?_⟩
  · apply hd2.clean.append_diff hd.clean
    exact fun x hx hx2 => mem_inter.mpr ⟨hx, hx2⟩
  · simpa using kept_nonEmpty (.bracket hd.clean.diff)
  all_goals
    intro b
    by_cases hb : b ∈ data <;> by_cases hb2 : b ∈ data2 <;>
      simp [Derivation.at_bracket, Derivation.at_exclude, hne, hb, hb2]

/-- A bracket derivation against one for any byte. -/
theorem splitBracket_any (hd : (Derivation.mk .bracket data e).Sound) (hne : data ≠ [])
    (data2 : ByteSet) :
  Split.Spec or ⟨.bracket, data, e⟩ ⟨.any, data2, e2⟩
    (split or ⟨.bracket, data, e⟩ ⟨.any, data2, e2⟩)
  := by
  simp only [split, splitBracket]
  refine ⟨⟨.bracket hd.clean, .exclude hd.clean⟩, .nil, ?_, ?_, ?_, ?_⟩
  all_goals
    intro b
    by_cases hb : b ∈ data <;> simp [Derivation.at_bracket, Derivation.at_exclude, hne, hb]

/-- An exclude derivation against a bracket one. -/
theorem splitExclude_bracket (hd : (Derivation.mk .exclude data e).Sound) (hne : data ≠ [])
    (hd2 : (Derivation.mk .bracket data2 e2).Sound) :
  Split.Spec or ⟨.exclude, data, e⟩ ⟨.bracket, data2, e2⟩
    (split or ⟨.exclude, data, e⟩ ⟨.bracket, data2, e2⟩)
  := by
  simp only [split, splitExclude]
  refine ⟨⟨.exclude ?_, .bracket hd2.clean.inter⟩, ?_, ?_, ?_, ?_, ?_⟩
  · apply hd.clean.append_diff hd2.clean
    exact fun x hx2 hx => mem_inter.mpr ⟨hx, hx2⟩
  · simpa using kept_nonEmpty (.bracket hd2.clean.diff)
  all_goals
    intro b
    by_cases hb : b ∈ data <;> by_cases hb2 : b ∈ data2 <;>
      simp [Derivation.at_bracket, Derivation.at_exclude, hne, hb, hb2]

/-- An exclude derivation against an exclude one. -/
theorem splitExclude_exclude (hd : (Derivation.mk .exclude data e).Sound) (hne : data ≠ [])
    (hd2 : (Derivation.mk .exclude data2 e2).Sound) (hne2 : data2 ≠ []) :
  Split.Spec or ⟨.exclude, data, e⟩ ⟨.exclude, data2, e2⟩
    (split or ⟨.exclude, data, e⟩ ⟨.exclude, data2, e2⟩)
  := by
  have hunion : data.union data2 ≠ [] := by simp [ByteSet.union, hne]
  simp only [split, splitExclude]
  refine ⟨⟨.exclude .nil, .bracket hd.clean.diff⟩, ?_, ?_, ?_, ?_, ?_⟩
  · rw [Kept, singleton_append, forall_mem_cons]
    exact ⟨⟨.exclude (hd.clean.union hd2.clean), Derivation.isEmpty_eq_false hunion⟩,
      kept_nonEmpty (.bracket hd2.clean.diff)⟩
  all_goals
    intro b
    by_cases hb : b ∈ data <;> by_cases hb2 : b ∈ data2 <;>
      simp [Derivation.at_bracket, Derivation.at_exclude, hne, hne2, hunion, hb, hb2]

/-- An exclude derivation against one for any byte. -/
theorem splitExclude_any (hd : (Derivation.mk .exclude data e).Sound) (hne : data ≠ [])
    (data2 : ByteSet) :
  Split.Spec or ⟨.exclude, data, e⟩ ⟨.any, data2, e2⟩
    (split or ⟨.exclude, data, e⟩ ⟨.any, data2, e2⟩)
  := by
  simp only [split, splitExclude]
  refine ⟨⟨.exclude hd.clean, .bracket hd.clean⟩, .nil, ?_, ?_, ?_, ?_⟩
  all_goals
    intro b
    by_cases hb : b ∈ data <;> simp [Derivation.at_bracket, Derivation.at_exclude, hne, hb]

/-- A derivation for any byte against a bracket one. -/
theorem splitAny_bracket (data : ByteSet)
    (hd2 : (Derivation.mk .bracket data2 e2).Sound) (hne2 : data2 ≠ []) :
  Split.Spec or ⟨.any, data, e⟩ ⟨.bracket, data2, e2⟩
    (split or ⟨.any, data, e⟩ ⟨.bracket, data2, e2⟩)
  := by
  simp only [split, splitAny]
  refine ⟨⟨.gone, .bracket hd2.clean⟩, ?_, ?_, ?_, ?_, ?_⟩
  · simpa [Kept] using ⟨.exclude hd2.clean, Derivation.isEmpty_eq_false hne2⟩
  all_goals
    intro b
    by_cases hb2 : b ∈ data2 <;> simp [Derivation.at_bracket, Derivation.at_exclude, hne2, hb2]

/-- A derivation for any byte against an exclude one. -/
theorem splitAny_exclude (data : ByteSet)
    (hd2 : (Derivation.mk .exclude data2 e2).Sound) (hne2 : data2 ≠ []) :
  Split.Spec or ⟨.any, data, e⟩ ⟨.exclude, data2, e2⟩
    (split or ⟨.any, data, e⟩ ⟨.exclude, data2, e2⟩)
  := by
  simp only [split, splitAny]
  refine ⟨⟨.gone, .exclude hd2.clean⟩, ?_, ?_, ?_, ?_, ?_⟩
  · simpa [Kept] using ⟨.bracket hd2.clean, Derivation.isEmpty_eq_false hne2⟩
  all_goals
    intro b
    by_cases hb2 : b ∈ data2 <;> simp [Derivation.at_bracket, Derivation.at_exclude, hne2, hb2]

/-- Two derivations for any byte. -/
theorem splitAny_any (data : ByteSet) (hd2 : (Derivation.mk .any data2 e2).Sound) :
  Split.Spec or ⟨.any, data, e⟩ ⟨.any, data2, e2⟩
    (split or ⟨.any, data, e⟩ ⟨.any, data2, e2⟩)
  := by
  simp only [split, splitAny]
  refine ⟨⟨.gone, .any hd2.clean⟩, .nil, ?_, ?_, ?_, ?_⟩
  all_goals
    intro b
    simp

end Cases

/-- What the code does with a new and an existing derivation, neither of them empty. -/
theorem split_spec {d d2 : Derivation ρ} (hd : d.Sound) (hne : d.isEmpty = false)
    (hd2 : d2.Sound) (hne2 : d2.isEmpty = false) :
  Split.Spec or d d2 (split or d d2)
  := by
  have ht := hd.typed hne
  have ht2 := hd2.typed hne2
  obtain ⟨type, data, e⟩ := d
  obtain ⟨type2, data2, e2⟩ := d2
  simp only at ht ht2
  rcases ht with rfl | rfl | rfl
  · rcases ht2 with rfl | rfl | rfl
    · apply splitAny_any data hd2
    · apply splitAny_bracket data hd2 (by simpa [Derivation.isEmpty] using hne2)
    · apply splitAny_exclude data hd2 (by simpa [Derivation.isEmpty] using hne2)
  · rcases ht2 with rfl | rfl | rfl
    · apply splitBracket_any hd (by simpa [Derivation.isEmpty] using hne)
    · apply splitBracket_bracket hd hd2
    · apply splitBracket_exclude hd hd2 (by simpa [Derivation.isEmpty] using hne2)
  · have hdata : data ≠ [] := by simpa [Derivation.isEmpty] using hne
    rcases ht2 with rfl | rfl | rfl
    · apply splitExclude_any hd hdata
    · apply splitExclude_bracket hd hdata hd2
    · apply splitExclude_exclude hd hdata hd2 (by simpa [Derivation.isEmpty] using hne2)

/-! ### What is left to be merged -/

/-- How many derivations a derivation can leave to be merged later, counting what those leave. -/
def Derivation.credit (d : Derivation ρ) : ℕ :=
  if d.isEmpty then 0
  else
    match d.type with
    | .any => 2
    | .exclude => 1
    | _ => 0

/-- The derivations to be merged, with what they can still leave. -/
def work (ds : List (Derivation ρ)) : ℕ := (ds.map (fun d => d.credit + 1)).sum

/-- Work adds up. -/
theorem work_append {ds ds' : List (Derivation ρ)} :
  work (ds ++ ds') = work ds + work ds'
  := by
  simp [work]

/-- A derivation is no more than three units of work. -/
theorem work_le {ds : List (Derivation ρ)} :
  work ds ≤ 3 * ds.length
  := by
  induction ds with
  | nil => simp [work]
  | cons d ds ih =>
    have hd : d.credit ≤ 2 := by
      unfold Derivation.credit
      split
      · omega
      · split
        · omega
        · omega
        · omega
    simp only [work, map_cons, sum_cons, length_cons] at ih ⊢
    omega

@[simp]
theorem Derivation.credit_bracket {e : ρ} :
  (Derivation.mk .bracket data e).credit = 0
  := by
  simp [credit]

@[simp]
theorem Derivation.credit_noType {e : ρ} :
  (Derivation.mk .noType data e).credit = 0
  := by
  simp [credit]

theorem Derivation.credit_le {d d' : Derivation ρ} (ht : d'.type = d.type) (h : d.isEmpty = false) :
  d'.credit ≤ d.credit
  := by
  unfold credit
  rw [h, ht]
  split
  · apply Nat.zero_le _
  · rfl

theorem work_nonEmpty_bracket {e : ρ} :
  work (nonEmpty (Derivation.mk .bracket data e)) ≤ 1
  := by
  unfold nonEmpty
  split_ifs <;> simp [work]

/-- What a step leaves to be merged later is paid for by what it takes off the derivation. -/
theorem split_credit {d d2 : Derivation ρ} (h : d.isEmpty = false) :
  work (split or d d2).d4 + (split or d d2).d.credit ≤ d.credit
  := by
  have hnil : work ([] : List (Derivation ρ)) = 0 := rfl
  have hsame : ∀ d' : Derivation ρ, d'.type = d.type →
      work ([] : List (Derivation ρ)) + d'.credit ≤ d.credit := by
    intro d' ht
    rw [hnil, Nat.zero_add]
    apply Derivation.credit_le ht h
  unfold split
  split
  next ht =>
    unfold splitBracket
    split
    · dsimp only
      split_ifs
      · apply hsame _ rfl
      · exact hsame _ rfl
    · exact hsame _ rfl
    · apply hsame _ rfl
    · apply hsame _ rfl
  next ht =>
    have hcredit : d.credit = 1 := by simp [Derivation.credit, h, ht]
    unfold splitExclude
    split
    · exact hsame _ rfl
    · rw [hcredit]
      have hgone : ({ d with data := [] } : Derivation ρ).credit = 0 := by
        simp [Derivation.credit, Derivation.isEmpty, ht]
      simpa [hgone] using work_nonEmpty_bracket
    · apply hsame _ rfl
    · apply hsame _ rfl
  next ht =>
    have hcredit : d.credit = 2 := by simp [Derivation.credit, h, ht]
    have hexclude : ∀ (data : ByteSet) (e : ρ), (Derivation.mk .exclude data e).credit ≤ 1 := by
      intro data e
      unfold Derivation.credit
      split_ifs <;> simp
    rw [hcredit]
    unfold splitAny
    split
    · simpa [work] using hexclude _ _
    · simp [work]
    · simp [work]
    · simp [work]
  next => apply hsame _ rfl

/-- The loop over the existing derivations leaves no more than the derivation can pay for. -/
theorem work_mergeLoop {existing : List (Derivation ρ)} {d : Derivation ρ} {m : Merged ρ} :
  work (mergeLoop or existing d m).later ≤ work m.later + d.credit
  := by
  induction existing generalizing d m with
  | nil => apply Nat.le_add_right _ _
  | cons d2 existing ih =>
    rw [mergeLoop]
    split_ifs with hemp
    · apply Nat.le_add_right _ _
    · dsimp only
      have hsp := @split_credit _ or d d2 (by simpa using hemp)
      have hr := @ih (split or d d2).d
        ⟨m.deriv ++ ((split or d d2).d3 ++ nonEmpty (split or d d2).d2),
          m.later ++ (split or d d2).d4⟩
      rw [work_append] at hr
      omega

/-- What is merged later is less work than the derivation. -/
theorem work_merge {deriv : List (Derivation ρ)} {d : Derivation ρ} :
  work (merge or deriv d).later ≤ d.credit
  := by
  unfold merge
  split_ifs
  · have hl := @work_mergeLoop _ or deriv.reverse d ⟨[], []⟩
    have hnil : work ([] : List (Derivation ρ)) = 0 := rfl
    rwa [hnil, Nat.zero_add] at hl
  · apply Nat.zero_le _
  · apply Nat.zero_le _

/-! ### The loops -/

/-- What merging into the derivations `old` has to satisfy. -/
structure Merged.Spec (or : ρ → ρ → ρ) (old : List (Derivation ρ)) (r : Merged ρ) : Prop where
  /-- The merged derivations are sound. -/
  kept : Kept r.deriv
  /-- So are those left to be merged. -/
  later : Kept r.later
  /-- No byte belongs to two of the tokens. -/
  deterministic : Deterministic r.deriv
  /-- Expressions are at most joined. -/
  joined : ∀ b, Joins or (readings b old) (readings b (r.deriv ++ r.later))

/-- The loop over the existing derivations.  Those already merged have no byte in common with `d`
and with those still to be looked at. -/
theorem mergeLoop_spec {existing : List (Derivation ρ)} {d : Derivation ρ} {m : Merged ρ}
    (hex : Kept existing) (hd : d.Sound) (hm : Kept m.deriv) (hlat : Kept m.later)
    (hdet : Deterministic (m.deriv ++ existing)) (hout : Deterministic (m.deriv ++ [d])) :
  Merged.Spec or (m.deriv ++ m.later ++ d :: existing) (mergeLoop or existing d m)
  := by
  induction existing generalizing d m with
  | nil =>
    refine ⟨hm.append (kept_nonEmpty hd), hlat, ?_, ?_⟩
    · intro b
      simpa [mergeLoop] using hout b
    · intro b
      simp only [mergeLoop, readings_append, readings_nonEmpty, readings_cons, readings_nil,
        add_zero, add_right_comm]
      apply Joins.refl
  | cons d2 existing ih =>
    rw [mergeLoop]
    split
    next hemp =>
      refine ⟨hm.append (hex.of_subset (by simp)), hlat, ?_, ?_⟩
      · intro b
        simpa only [readings_append, readings_reverse] using hdet b
      · intro b
        have hgone : d.at b = 0 := by simp [Derivation.at, hemp]
        simp only [readings_append, readings_reverse, readings_cons, hgone, zero_add,
          add_right_comm]
        apply Joins.refl
    next hemp =>
      obtain ⟨hkeep2, hex⟩ := forall_mem_cons.mp hex
      have hs := @split_spec _ or _ _ hd (by simpa using hemp) hkeep2.1 hkeep2.2
      have hk := forall_mem_append.mp hs.kept
      have hspec := @ih (split or d d2).d
        ⟨m.deriv ++ ((split or d d2).d3 ++ nonEmpty (split or d d2).d2),
          m.later ++ (split or d d2).d4⟩
        hex hs.sound.1 (hm.append (Kept.append hk.1 (kept_nonEmpty hs.sound.2)))
        (hlat.append hk.2)
        (by
          intro b
          have hdet := hdet b
          have hwin := hs.within b
          simp only [readings_append, readings_cons, readings_nonEmpty, Multiset.card_add]
            at hdet hwin ⊢
          omega)
        (by
          intro b
          have hdet := hdet b
          have hout := hout b
          have hwin := hs.within b
          have hshrinks := hs.shrinks b
          have hapart := hs.apart b
          simp only [readings_append, readings_cons, readings_nonEmpty, readings_nil,
            Multiset.card_add, Multiset.card_zero] at hdet hout hwin hapart ⊢
          omega)
      dsimp only at hspec ⊢
      refine ⟨hspec.kept, hspec.later, hspec.deterministic, ?_⟩
      intro b
      apply Joins.trans _ (hspec.joined b)
      have hj := (hs.joined b).add_right
        (readings b m.deriv + readings b m.later + readings b existing)
      convert hj using 1
      · simp only [readings_append, readings_cons]
        ac_rfl
      · simp only [readings_append, readings_cons, readings_nonEmpty]
        ac_rfl

/-- Merging one derivation. -/
theorem merge_spec {deriv : List (Derivation ρ)} {d : Derivation ρ} (hder : Kept deriv)
    (hdet : Deterministic deriv) (hd : d.Sound) (hne : d.isEmpty = false) :
  Merged.Spec or (deriv ++ [d]) (merge or deriv d)
  := by
  have htyped : d.type = .bracket ∨ d.type = .exclude ∨ d.type = .any := by
    rcases hd.typed hne with h | h | h
    · exact .inr (.inr h)
    · exact .inl h
    · exact .inr (.inl h)
  have hspec := @mergeLoop_spec _ or deriv.reverse d ⟨[], []⟩
    (hder.of_subset (by simp)) hd .nil .nil (by simpa [Deterministic] using hdet)
    (by
      intro b
      simp only [nil_append, readings_cons, readings_nil, Derivation.at]
      split_ifs <;> simp)
  rw [merge, if_pos htyped]
  refine ⟨hspec.kept, hspec.later, hspec.deterministic, ?_⟩
  intro b
  have hj := hspec.joined b
  simp only [nil_append, readings_cons, readings_reverse] at hj
  rw [readings_append, readings_cons, readings_nil, add_zero, add_comm]
  apply hj

/-- Merging all of a list of derivations, with enough steps for what merging leaves. -/
theorem mergeAll_spec {n : ℕ} {deriv tokenDeriv : List (Derivation ρ)} (hder : Kept deriv)
    (hdet : Deterministic deriv) (htok : Kept tokenDeriv) (hn : work tokenDeriv ≤ n) :
  Kept (mergeAll or n deriv tokenDeriv) ∧ Deterministic (mergeAll or n deriv tokenDeriv)
    ∧ ∀ b, Joins or (readings b (deriv ++ tokenDeriv))
      (readings b (mergeAll or n deriv tokenDeriv))
  := by
  induction n generalizing deriv tokenDeriv with
  | zero =>
    have hnil : tokenDeriv = [] := by
      cases tokenDeriv with
      | nil => rfl
      | cons d ds => simp [work] at hn
    simp [mergeAll, hnil, hder, hdet]
  | succ n ih =>
    cases tokenDeriv with
    | nil => simp [mergeAll, hder, hdet]
    | cons d tokenDeriv =>
      obtain ⟨hd, htok⟩ := forall_mem_cons.mp htok
      have hm := @merge_spec _ or _ _ hder hdet hd.1 hd.2
      have hn' : work (tokenDeriv ++ (merge or deriv d).later) ≤ n := by
        have hwork := @work_merge _ or deriv d
        rw [work_append]
        simp only [work, map_cons, sum_cons] at hn hwork ⊢
        omega
      obtain ⟨hk, hdet', hj⟩ :=
        ih hm.kept hm.deterministic (Kept.append htok hm.later) hn'
      refine ⟨hk, hdet', ?_⟩
      intro b
      apply Joins.trans _ (hj b)
      convert (hm.joined b).add_right (readings b tokenDeriv) using 1
      · simp only [readings_append, readings_cons, readings_nil, add_zero]
        ac_rfl
      · simp only [readings_append]
        ac_rfl

/-- Merging derivations into derivations without common bytes gives derivations without common
bytes, in which the expressions of all of them are at most joined. -/
theorem mergeDerivations_spec {deriv tokenDeriv : List (Derivation ρ)} (hder : Kept deriv)
    (hdet : Deterministic deriv) (htok : Kept tokenDeriv) :
  Kept (mergeDerivations or deriv tokenDeriv)
    ∧ Deterministic (mergeDerivations or deriv tokenDeriv)
    ∧ ∀ b, Joins or (readings b (deriv ++ tokenDeriv))
      (readings b (mergeDerivations or deriv tokenDeriv))
  := mergeAll_spec hder hdet htok work_le

end Librecompare

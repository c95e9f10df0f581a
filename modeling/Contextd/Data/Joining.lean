import Mathlib.Algebra.BigOperators.Group.Multiset.Basic
import Mathlib.Logic.Relation

/-!
# Joining elements of a multiset

Two elements of a multiset are replaced by one, again and again (`Joins`).  If every element
stands for a part of something, and a join stands for the parts of both, then what remains still
stands for the whole (`StandsFor.joined`).
-/

namespace Joining

variable {ρ σ : Type*} {join : ρ → ρ → ρ} {m m' r : Multiset ρ} {e e' : ρ}

/-! ### Joins -/

/-- Two elements are replaced by their join. -/
def Step (join : ρ → ρ → ρ) (m m' : Multiset ρ) : Prop :=
  ∃ e e' r, m = e ::ₘ e' ::ₘ r ∧ m' = join e e' ::ₘ r

/-- Elements are joined, two at a time. -/
def Joins (join : ρ → ρ → ρ) : Multiset ρ → Multiset ρ → Prop :=
  Relation.ReflTransGen (Step join)

@[simp]
theorem Joins.refl :
  Joins join m m
  := Relation.ReflTransGen.refl

theorem Joins.trans {m'' : Multiset ρ} (h : Joins join m m') (h' : Joins join m' m'') :
  Joins join m m''
  := Relation.ReflTransGen.trans h h'

@[simp]
theorem Joins.pair :
  Joins join (e ::ₘ {e'}) {join e e'}
  := Relation.ReflTransGen.single ⟨e, e', 0, rfl, rfl⟩

@[simp]
theorem Joins.pair_swap :
  Joins join (e' ::ₘ {e}) {join e e'}
  := Relation.ReflTransGen.single ⟨e, e', 0, Multiset.cons_swap e' e 0, rfl⟩

/-- Joining goes on beside other elements. -/
theorem Joins.add_right (h : Joins join m m') (r : Multiset ρ) :
  Joins join (m + r) (m' + r)
  := by
  apply Relation.ReflTransGen.lift (· + r) _ _ _ h
  rintro _ _ ⟨e, e', s, rfl, rfl⟩
  exact ⟨e, e', s + r, by simp, by simp⟩

/-! ### What elements stand for -/

variable [AddCommMonoid σ] {Rep : σ → ρ → Prop} {s s' : σ}

/-- Every element of `m` stands for a part, and the parts make up `s`. -/
def StandsFor (Rep : σ → ρ → Prop) (s : σ) (m : Multiset ρ) : Prop :=
  ∃ parts : Multiset σ, parts.sum = s ∧ Multiset.Rel Rep parts m

theorem StandsFor.zero :
  StandsFor Rep 0 0
  := ⟨0, Multiset.sum_zero, Multiset.Rel.zero⟩

@[simp]
theorem standsFor_singleton :
  StandsFor Rep s {e} ↔ Rep s e
  := by
  constructor
  · rintro ⟨parts, rfl, hrel⟩
    obtain ⟨a, as, ha, has, rfl⟩ := Multiset.rel_cons_right.mp hrel
    obtain rfl := Multiset.rel_zero_right.mp has
    simpa using ha
  · intro h
    exact ⟨{s}, Multiset.sum_singleton s, Multiset.Rel.cons h Multiset.Rel.zero⟩

theorem StandsFor.add (h : StandsFor Rep s m) (h' : StandsFor Rep s' m') :
  StandsFor Rep (s + s') (m + m')
  := by
  obtain ⟨parts, rfl, hrel⟩ := h
  obtain ⟨parts', rfl, hrel'⟩ := h'
  exact ⟨parts + parts', Multiset.sum_add parts parts', hrel.add hrel'⟩

/-- Joining keeps what the elements stand for. -/
theorem StandsFor.joined (hj : ∀ s s' e e', Rep s e → Rep s' e' → Rep (s + s') (join e e'))
    (h : StandsFor Rep s m) (hm : Joins join m m') :
  StandsFor Rep s m'
  := by
  induction hm with
  | refl => apply h
  | tail _ hs ih =>
    obtain ⟨e, e', r, rfl, rfl⟩ := hs
    obtain ⟨parts, rfl, hrel⟩ := ih
    obtain ⟨a, as, ha, has, rfl⟩ := Multiset.rel_cons_right.mp hrel
    obtain ⟨a', as', ha', has', rfl⟩ := Multiset.rel_cons_right.mp has
    use (a + a') ::ₘ as'
    constructor
    · simp [add_assoc]
    · apply Multiset.Rel.cons _ has'
      apply hj _ _ _ _ ha ha'

/-- A single element stands for the whole. -/
theorem StandsFor.cases (h : StandsFor Rep s m) (hcard : m.card ≤ 1) :
  (m = 0 ∧ s = 0) ∨ ∃ e, m = {e} ∧ Rep s e
  := by
  rcases Nat.le_one_iff_eq_zero_or_eq_one.mp hcard with hzero | hone
  · left
    obtain rfl := Multiset.card_eq_zero.mp hzero
    obtain ⟨parts, rfl, hrel⟩ := h
    obtain rfl := Multiset.rel_zero_right.mp hrel
    exact ⟨rfl, Multiset.sum_zero⟩
  · right
    obtain ⟨e, rfl⟩ := Multiset.card_eq_one.mp hone
    exact ⟨e, rfl, standsFor_singleton.mp h⟩

end Joining

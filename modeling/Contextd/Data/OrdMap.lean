import Std.Data.ExtTreeMap
import Mathlib.Data.List.Perm.Subperm

/-!
# Maps ordered by their keys

`OrdMap κ ν` is a finite map from `κ` to `ν` whose entries are listed by increasing key.
Two maps are equal when they have the same entries.
-/

universe u v w

/-- A finite map that lists its entries by increasing key. -/
abbrev OrdMap (κ : Type u) (ν : Type v) [Ord κ] := Std.ExtTreeMap κ ν

namespace OrdMap

variable {κ : Type u} {ν : Type v} {ω : Type w} [Ord κ] [Std.TransOrd κ] [Std.LawfulEqOrd κ]

/-- The keys of a map are listed without repetition. -/
theorem nodup_keys (m : OrdMap κ ν) :
  m.keys.Nodup
  := by
  simpa [List.Nodup] using m.distinct_keys

/-- A map with as many keys as one whose keys include its own has all of them. -/
theorem mem_of_size_eq {m : OrdMap κ ν} {n : OrdMap κ ω} (hsub : ∀ k, k ∈ m → k ∈ n)
    (hs : m.size = n.size) :
  ∀ k, k ∈ n → k ∈ m
  := by
  have hkeys : m.keys ⊆ n.keys := by
    intro k hk
    rw [Std.ExtTreeMap.mem_keys] at hk ⊢
    apply hsub k hk
  have hp : m.keys.Perm n.keys := by
    apply (List.subperm_of_subset m.nodup_keys hkeys).perm_of_length_le
    simp [hs]
  intro k hk
  rw [← Std.ExtTreeMap.mem_keys] at hk ⊢
  apply hp.mem_iff.mpr hk

/-- Maps with the same keys have the same size. -/
theorem size_eq_of_mem_iff {m : OrdMap κ ν} {n : OrdMap κ ω} (h : ∀ k, k ∈ m ↔ k ∈ n) :
  m.size = n.size
  := by
  have hp : m.keys.Perm n.keys := by
    rw [List.perm_ext_iff_of_nodup m.nodup_keys n.nodup_keys]
    intro k
    rw [Std.ExtTreeMap.mem_keys, Std.ExtTreeMap.mem_keys, h k]
  have hlen := hp.length_eq
  rwa [Std.ExtTreeMap.length_keys, Std.ExtTreeMap.length_keys] at hlen

/-- The entries whose keys have a property. -/
theorem getElem?_filter_key (m : OrdMap κ ν) (p : κ → Bool) (k : κ) :
  (m.filter fun k _ => p k)[k]? = if p k then m[k]? else none
  := by
  have hkey : ∀ h, m.getKey k h = k := fun h => Std.ExtTreeMap.getKey_eq h
  simp only [Std.ExtTreeMap.getElem?_filter, hkey, Option.pfilter_eq_filter]
  cases p k <;> cases m[k]? <;> rfl

/-- A map is made of the entries it lists. -/
theorem ofList_toList [DecidableEq κ] (m : OrdMap κ ν) :
  Std.ExtTreeMap.ofList m.toList = m
  := by
  apply Std.ExtTreeMap.ext_getElem?
  intro k
  cases hv : m[k]? with
  | none =>
    apply Std.ExtTreeMap.getElem?_ofList_of_contains_eq_false
    rw [List.contains_eq_mem, decide_eq_false_iff_not]
    intro hm
    obtain ⟨⟨k', v⟩, hkv, rfl⟩ := List.mem_map.mp hm
    rw [Std.ExtTreeMap.mem_toList_iff_getElem?_eq_some.mp hkv] at hv
    cases hv
  | some v =>
    apply Std.ExtTreeMap.getElem?_ofList_of_mem Std.ReflCmp.compare_self m.distinct_keys_toList
    apply Std.ExtTreeMap.mem_toList_iff_getElem?_eq_some.mpr hv

/-- Inserting the entries a map lists, one after the other, makes the map. -/
theorem foldl_insert_toList [DecidableEq κ] (m : OrdMap κ ν) :
  m.toList.foldl (fun acc kv => acc.insert kv.1 kv.2) (∅ : OrdMap κ ν) = m
  := by
  rw [← Std.ExtTreeMap.ofList_eq_foldl, ofList_toList]

/-- Storing what is there changes nothing. -/
theorem insert_of_getElem? {m : OrdMap κ ν} {k : κ} {v : ν} (h : m[k]? = some v) :
  m.insert k v = m
  := by
  apply Std.ExtTreeMap.ext_getElem?
  intro k'
  rw [Std.ExtTreeMap.getElem?_insert]
  split
  · rename_i hk
    rw [← Std.LawfulEqCmp.compare_eq_iff_eq.mp hk, h]
  · rfl

end OrdMap

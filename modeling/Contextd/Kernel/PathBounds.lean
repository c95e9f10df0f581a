import Contextd.Kernel.Path

/-!
# `calculate_path` for any names and any limit

`calculate_path` counts in an `int`, compares as a `size_t`, and takes the length of a name as an
`int`.  As long as every name is shorter than `2 ^ 31`, the path is stored exactly when it is
shorter than the limit and its length is an `int`; otherwise `-1` is returned, and nothing is stored
from the limit on.  For the entries of the kernel and limits up to `2 ^ 31` this is `calculatePath`.
-/

namespace Kernel

variable {c : Chain} {n len : ℕ}

open Memory

/-- The name of an entry, of any length. -/
structure Component extends Text where
  ne_nil : bytes ≠ []
  ne_slash : ∀ b ∈ bytes, b ≠ slash

/-- A chain of entries from a root. -/
inductive Chain where
  | root
  | child (parent : Chain) (name : Component)

/-- The names from the root to the end of the chain. -/
def Chain.components : Chain → List (List UInt8)
  | .root => []
  | .child parent name => parent.components ++ [name.bytes]

/-- The path to the end of the chain. -/
def Chain.joined (c : Chain) : List UInt8 := joinBytes c.components

/-- The length of the path: that of each name, and one for its slash. -/
def Chain.total (c : Chain) : ℕ := (c.components.map fun name => 1 + name.length).sum

/-- The value of an `int` after an addition. -/
def wrap (n : ℤ) : ℤ := Int.bmod n (2 ^ 32)

/-- `calculate_path(dentry, path, len)` with machine arithmetic. -/
def Chain.calculatePath (len : ℕ) : Chain → Block → Option (Block × ℤ)
  | .root, m => some (m, 0)
  | .child parent name, m =>
      (parent.calculatePath len m).bind fun (m, pos) =>
        if pos ≠ -1 then
          let size := intOfSize name.bytes.length
          if sizeOfInt (wrap (pos + size + 1)) < len then
            (store pos slash m).bind fun m =>
              (storeAll (pos + 1) (strncpyBytes (sizeOfInt size) name.bytes) m).map fun m =>
                (m, wrap (pos + size + 1))
          else some (m, -1)
        else some (m, -1)

/-! ### Joined names -/

@[simp]
theorem Chain.joined_root :
  Chain.root.joined = []
  := rfl

@[simp]
theorem Chain.joined_child (parent : Chain) (name : Component) :
  (Chain.child parent name).joined = parent.joined ++ slash :: name.bytes
  := by
  simp [joined, components, joinBytes]

theorem Chain.ne_slash (c : Chain) :
  ∀ name ∈ c.components, slash ∉ name
  := by
  induction c with
  | root => simp [components]
  | child parent name ih =>
    intro x hx
    rcases List.mem_append.mp hx with hx | hx
    · apply ih x hx
    · obtain rfl := List.mem_singleton.mp hx
      intro hsl
      apply name.ne_slash _ hsl rfl

/-- The names can be read back from the path. -/
theorem Chain.components_eq {c' : Chain} (h : c.joined = c'.joined) :
  c.components = c'.components
  := joinBytes_injective c.ne_slash c'.ne_slash h

/-- A chain without names is a root. -/
theorem Chain.joined_eq_nil_iff :
  c.joined = [] ↔ c.components = []
  := by
  cases c with
  | root => simp [components]
  | child parent name => simp [components]

theorem Chain.length_joined (c : Chain) :
  c.joined.length = c.total
  := by
  rw [joined, joinBytes, List.length_flatMap, total]
  simp only [List.length_cons, Nat.add_comm]

/-! ### One entry -/

theorem wrap_of_lt (h : n < 2 ^ 31) :
  wrap n = n
  := by
  apply Int.bmod_eq_of_le <;> omega

/-- A sum that is not an `int` becomes negative, and so a large `size_t`. -/
theorem le_sizeOfInt_wrap (h : 2 ^ 31 ≤ n) (h' : n < 2 ^ 32) :
  2 ^ 63 ≤ sizeOfInt (wrap n)
  := by
  have hwrap : wrap n = (n : ℤ) - 2 ^ 32 := by
    rw [wrap, Int.bmod_def]
    split_ifs <;> omega
  rw [hwrap, sizeOfInt]
  omega

/-- The slash and the name go behind the path of the parent. -/
theorem store_name {path : List UInt8} {m : Block} {name : Component}
    (h : path.length + 1 + name.bytes.length ≤ m.length) :
  ((store path.length slash (path.map some ++ m.drop path.length)).bind fun m =>
      storeAll (path.length + 1) (strncpyBytes name.bytes.length name.bytes) m) =
    some ((path ++ slash :: name.bytes).map some ++
      m.drop (path ++ slash :: name.bytes).length)
  := by
  obtain ⟨pre, old, post, hm, hpre, hold, -, hpost⟩ :=
    @eq_window m path.length (name.bytes.length + 1) (by omega)
  have hdrop : m.drop path.length = old ++ post := by
    rw [hm, ← hpre, List.drop_left]
  rcases old with _ | ⟨c, old⟩
  · simp at hold
  have hcopy : strncpyBytes name.bytes.length name.bytes = name.bytes := by
    rw [strncpyBytes_eq name.ne_zero le_rfl, Nat.sub_self, List.replicate_zero, List.append_nil]
  have hsl := store_append (path.map some) (old ++ post) c slash
  have hn := storeAll_append (path.map some ++ [some slash]) post
    (Nat.succ.inj hold)
  simp only [List.length_append, List.length_map, List.length_singleton, Int.natCast_add,
    List.append_assoc, List.singleton_append, Int.natCast_one] at hsl hn
  rw [hdrop, List.cons_append, hsl, Option.bind_some, hcopy, hn, ← hpost]
  simp

/-! ### The whole chain -/

/-- The path is shorter than the limit, and its length is an `int`. -/
def Chain.Fits (len : ℕ) (c : Chain) : Prop := c.total < len ∧ c.total < 2 ^ 31

instance (len : ℕ) (c : Chain) : Decidable (c.Fits len) :=
  inferInstanceAs (Decidable (_ ∧ _))

/-- What `calculate_path` returns and leaves in the buffer: nothing for a root, the path if it
fits, and otherwise some bytes below the limit. -/
structure Chain.Calculated (c : Chain) (len : ℕ) (m m' : Block) (pos : ℤ) : Prop where
  root : c.components = [] → pos = 0 ∧ m' = m
  returned : c.components ≠ [] → (pos = c.total ↔ c.Fits len)
  stored : c.components ≠ [] → c.Fits len → m' = c.joined.map some ++ m.drop c.total
  refused : c.components ≠ [] → ¬ c.Fits len →
    pos = -1 ∧ m'.length = m.length ∧ m'.drop len = m.drop len

/-- The result of `calculate_path`, by whether the path fits. -/
theorem Chain.calculatePath_cases (hlen : len ≤ 2 ^ 63) {m : Block} (hm : len ≤ m.length)
    (hc : ∀ name ∈ c.components, name.length < 2 ^ 31) :
  if c.components = [] ∨ c.Fits len then
    c.calculatePath len m
      = some (c.joined.map some ++ m.drop c.joined.length, (c.joined.length : ℤ))
  else
    ∃ m', c.calculatePath len m = some (m', -1) ∧ m'.length = m.length ∧ m'.drop len = m.drop len
  := by
  induction c with
  | root => simp [components, calculatePath]
  | child parent name ih =>
    have hpar : ∀ name ∈ parent.components, name.length < 2 ^ 31 := by
      intro x hx
      apply hc
      simp [components, hx]
    have hn : name.bytes.length < 2 ^ 31 := by
      apply hc
      simp [components]
    have hs := intOfSize_of_lt hn
    have hcnt := @sizeOfInt_natCast name.bytes.length (by omega)
    have htotal : (child parent name).total = parent.joined.length + name.bytes.length + 1 := by
      rw [← length_joined, joined_child]
      simp only [List.length_append, List.length_cons]
      omega
    have hne : (child parent name).components ≠ [] := by simp [components]
    specialize ih hpar
    split_ifs at ih with hp
    · have hshort : parent.joined.length < 2 ^ 31 ∧
          (parent.joined.length < len ∨ parent.joined = []) := by
        rcases hp with hp | hp
        · rw [← joined_eq_nil_iff] at hp
          simp [hp]
        · rw [length_joined]
          exact ⟨hp.2, .inl hp.1⟩
      have hpos : ((parent.joined.length : ℕ) : ℤ) ≠ -1 := by omega
      have hsum : (parent.joined.length : ℤ) + intOfSize name.bytes.length + 1 =
          ((child parent name).total : ℕ) := by
        rw [hs, htotal]
        omega
      rw [calculatePath, ih, Option.bind_some]
      dsimp only
      rw [if_pos hpos, hsum, hs, hcnt]
      by_cases hf : (child parent name).Fits len
      · rw [if_pos (.inr hf), wrap_of_lt hf.2, sizeOfInt_natCast (hf.2.trans (by decide)),
          if_pos hf.1]
        obtain ⟨m₁, hsl, hn⟩ := Option.bind_eq_some_iff.mp
          (@store_name parent.joined m name (by have := hf.1; omega))
        rw [hsl, Option.bind_some, hn, Option.map_some, length_joined, joined_child,
          ← joined_child, length_joined]
      · rw [if_neg (by simp [hne, hf]), if_neg]
        · refine ⟨_, rfl, ?_, ?_⟩
          · rw [List.length_append, List.length_map, List.length_drop]
            rcases hshort.2 with hshort | hnil
            · omega
            · simp [hnil]
          · rcases hshort.2 with hshort | hnil
            · rw [List.drop_append, List.length_map, List.drop_eq_nil_of_le (by simp; omega),
                List.drop_drop, List.nil_append, Nat.add_sub_cancel' hshort.le]
            · simp [hnil]
        · rw [not_lt]
          by_cases hint : (child parent name).total < 2 ^ 31
          · rw [wrap_of_lt hint, sizeOfInt_natCast (hint.trans (by decide))]
            by_contra hlt
            apply hf ⟨not_le.mp hlt, hint⟩
          · apply hlen.trans
            apply le_sizeOfInt_wrap <;> omega
    · obtain ⟨m', hm', hlength, hdrop⟩ := ih
      have hf : ¬ (child parent name).Fits len := by
        intro hf
        apply hp
        right
        obtain ⟨hlt, hint⟩ := hf
        rw [Fits, ← length_joined]
        omega
      rw [if_neg (by simp [hne, hf])]
      refine ⟨m', ?_, hlength, hdrop⟩
      simp [calculatePath, hm']

theorem Chain.calculated (hlen : len ≤ 2 ^ 63) {m : Block} (hm : len ≤ m.length)
    (hc : ∀ name ∈ c.components, name.length < 2 ^ 31) :
  ∃ m' pos, c.calculatePath len m = some (m', pos) ∧ c.Calculated len m m' pos
  := by
  have hcs := calculatePath_cases hlen hm hc
  split_ifs at hcs with hf
  · refine ⟨_, _, hcs, ?_, ?_, ?_, ?_⟩
    · intro hnil
      simp [joined_eq_nil_iff.mpr hnil]
    · intro hne
      simp [length_joined, hf.resolve_left hne]
    · intro hne _
      rw [length_joined]
    · intro hne hnot
      exact absurd (hf.resolve_left hne) hnot
  · rw [not_or] at hf
    obtain ⟨m', hres, hlength, hdrop⟩ := hcs
    refine ⟨m', -1, hres, ?_, ?_, ?_, ?_⟩
    · intro hnil
      exact absurd hnil hf.1
    · intro _
      apply iff_of_false _ hf.2
      omega
    · intro _ h
      exact absurd h hf.2
    · intro _ _
      exact ⟨rfl, hlength, hdrop⟩

/-- `calculate_path` stores the path exactly when it fits; so for two paths that fit, equal lengths
and equal bytes are those of equal names. -/
theorem Chain.calculatePath_exact (len : ℕ) (hlen : len ≤ 2 ^ 63) (m : Block)
    (hm : len ≤ m.length) (c : Chain) (hc : ∀ name ∈ c.components, name.length < 2 ^ 31) :
  ∃ m' pos, c.calculatePath len m = some (m', pos) ∧ c.Calculated len m m' pos ∧
    ∀ c₁ : Chain, (∀ name ∈ c₁.components, name.length < 2 ^ 31) → c.Fits len → c₁.Fits len →
      ∀ m₁ m₁' pos₁, len ≤ m₁.length → c₁.calculatePath len m₁ = some (m₁', pos₁) →
        pos₁ = pos → m₁'.take c.total = m'.take c.total → c₁.components = c.components
  := by
  obtain ⟨m', pos, hres, hcalc⟩ := calculated hlen hm hc
  refine ⟨m', pos, hres, hcalc, ?_⟩
  intro c₁ hc₁ hf hf₁ m₁ m₁' pos₁ hm₁ hres₁ hpos hbs
  have hcase := calculatePath_cases hlen hm hc
  have hcase₁ := calculatePath_cases hlen hm₁ hc₁
  rw [if_pos (.inr hf), hres, Option.some.injEq, Prod.mk.injEq] at hcase
  rw [if_pos (.inr hf₁), hres₁, Option.some.injEq, Prod.mk.injEq] at hcase₁
  obtain ⟨rfl, rfl⟩ := hcase
  obtain ⟨rfl, rfl⟩ := hcase₁
  have hlength : c₁.joined.length = c.joined.length := by exact_mod_cast hpos
  rw [← length_joined, List.take_append_of_le_length (by simp [hlength]),
    List.take_append_of_le_length (by simp), ← hlength] at hbs
  rw [← List.length_map some, List.take_length, List.length_map, hlength,
    ← List.length_map some, List.take_length] at hbs
  apply components_eq
  apply List.map_injective_iff.mpr (fun _ _ => Option.some.inj) hbs

/-- A name of one letter. -/
def letterA : Component where
  bytes := [97]
  ne_zero := by simp
  ne_nil := by simp
  ne_slash := by simp [slash]

/-- The name `etc`. -/
def etc : Component where
  bytes := [101, 116, 99]
  ne_zero := by simp
  ne_nil := by simp
  ne_slash := by simp [slash]

/-- The entry `/etc/a/etc/a`. -/
def nestedChain : Chain := .child (.child (.child (.child .root etc) letterA) etc) letterA

/-- The path `/etc/a/etc/a` is stored in a buffer that has one byte more. -/
theorem Chain.calculatePath_nestedChain :
  ∃ m' pos, nestedChain.calculatePath 13 (kmalloc 13) = some (m', pos) ∧
    nestedChain.Calculated 13 (kmalloc 13) m' pos ∧ pos = 12
  := by
  obtain ⟨m', pos, hres, hcalc, -⟩ := calculatePath_exact 13 (by decide) (kmalloc 13)
    (by decide) nestedChain (by simp [nestedChain, components, letterA, etc])
  refine ⟨m', pos, hres, hcalc, ?_⟩
  apply (hcalc.returned (by simp [nestedChain, components])).mpr
  decide

/-- A name of `2 ^ 32` letters. -/
def hugeName : Component where
  bytes := List.replicate (2 ^ 32) 97
  ne_zero := by
    intro b hb
    rw [List.eq_of_mem_replicate hb]
    decide
  ne_nil := by
    rw [Ne, List.replicate_eq_nil_iff]
    decide
  ne_slash := by
    intro b hb
    rw [List.eq_of_mem_replicate hb]
    decide

/-- Its length as an `int` is zero: a slash is stored and its length returned, though the path is
longer than the limit. -/
theorem Chain.calculatePath_hugeName :
  (child root hugeName).calculatePath 10 (kmalloc 10) =
      some (some slash :: List.replicate 9 none, 1) ∧
    10 ≤ (child root hugeName).total
  := by
  have hlen : hugeName.bytes.length = 2 ^ 32 := List.length_replicate
  have hs : intOfSize hugeName.bytes.length = 0 := by
    rw [hlen]
    decide
  constructor
  · have hcopy : strncpyBytes 0 hugeName.bytes = [] :=
      List.eq_nil_of_length_eq_zero (length_strncpyBytes 0 _)
    rw [calculatePath, calculatePath, Option.bind_some]
    dsimp only
    rw [hs, if_pos (by decide), if_pos (by decide), show sizeOfInt 0 = 0 from rfl, hcopy]
    rfl
  · rw [total, components, components, List.nil_append, List.map_singleton, hlen]
    decide

/-- Directories with names of one letter, inside each other. -/
def deepChain : ℕ → Chain
  | 0 => .root
  | depth + 1 => .child (deepChain depth) letterA

theorem deepChain_components (depth : ℕ) :
  (deepChain depth).components = List.replicate depth [97]
  := by
  induction depth with
  | zero => rfl
  | succ depth ih =>
    rw [deepChain, Chain.components, ih, List.replicate_succ']
    rfl

theorem total_deepChain (depth : ℕ) :
  (deepChain depth).total = depth * 2
  := by
  rw [Chain.total, deepChain_components, List.map_replicate, List.sum_replicate_nat]
  rfl

/-- A path whose length is no `int` is refused. -/
theorem calculatePath_deepChain {depth : ℕ} (hlen : len ≤ 2 ^ 63) (h : 2 ^ 31 ≤ depth * 2) :
  ∃ m', (deepChain depth).calculatePath len (kmalloc len) = some (m', -1)
  := by
  have hns : ∀ name ∈ (deepChain depth).components, name.length < 2 ^ 31 := by
    rw [deepChain_components]
    intro name hn
    rw [List.eq_of_mem_replicate hn]
    decide
  have hcs := Chain.calculatePath_cases hlen (length_kmalloc len).ge hns
  rw [if_neg] at hcs
  · obtain ⟨m', hres, -⟩ := hcs
    exact ⟨m', hres⟩
  · rintro (hnil | hf)
    · rw [deepChain_components, List.replicate_eq_nil_iff] at hnil
      omega
    · have hint := hf.2
      rw [total_deepChain] at hint
      omega

/-- A path of `2 ^ 31` bytes is refused though it is shorter than the limit; and of a name whose
length is no `int`, only the slash is stored, though the path is longer than the limit. -/
theorem Chain.calculatePath_overflow :
  ((∃ m', (deepChain (2 ^ 30)).calculatePath (2 ^ 31 + 1) (kmalloc (2 ^ 31 + 1)) =
        some (m', -1)) ∧
      (deepChain (2 ^ 30)).total < 2 ^ 31 + 1) ∧
    (child root hugeName).calculatePath 10 (kmalloc 10) =
      some (some slash :: List.replicate 9 none, 1) ∧
    10 ≤ (child root hugeName).total
  := by
  refine ⟨⟨calculatePath_deepChain (by decide) (by decide), ?_⟩, calculatePath_hugeName⟩
  rw [total_deepChain]
  decide

/-! ### The entries of the kernel -/

/-- The chain of an entry. -/
def Dentry.chain : Dentry → Chain
  | .root _ => .root
  | .child parent name => .child parent.chain { name with }

/-- The position behind a name of the kernel is the same `int` or beyond the limit. -/
theorem wrap_lt_iff (hlen : len ≤ 2 ^ 31) (hn : n < 2 ^ 32) :
  sizeOfInt (wrap n) < len ↔ n < len
  := by
  by_cases hint : n < 2 ^ 31
  · rw [wrap_of_lt hint, sizeOfInt_natCast (hint.trans (by decide))]
  · have hwrap := le_sizeOfInt_wrap (not_lt.mp hint) hn
    omega

/-- For an entry of the kernel and a limit that is an `int`, no sum wraps around. -/
theorem Dentry.calculatePath_chain {len : ℕ} (hlen : len ≤ 2 ^ 31) (d : Dentry) (m : Block) :
  d.chain.calculatePath len m = calculatePath 0 len d m ∧
    ∀ m' pos, calculatePath 0 len d m = some (m', pos) →
      pos = -1 ∨ ∃ n : ℕ, pos = n ∧ n < 2 ^ 31
  := by
  induction d with
  | root name =>
    refine ⟨rfl, ?_⟩
    intro m' pos h
    cases h
    exact .inr ⟨0, rfl, by decide⟩
  | child parent name ih =>
    obtain ⟨heq, hrg⟩ := ih
    have hname := name.length_le
    have hsmall : NAME_MAX < 2 ^ 31 := by decide
    have hs := @intOfSize_of_lt name.bytes.length (by omega)
    have hcnt := @sizeOfInt_natCast name.bytes.length (by omega)
    rw [chain, Chain.calculatePath, heq, calculatePath]
    rcases hpar : calculatePath 0 len parent m with _ | ⟨m₁, pos₁⟩
    · simp
    rw [Option.bind_some, Option.bind_some]
    dsimp only
    rcases hrg m₁ pos₁ hpar with rfl | ⟨n, rfl, hn⟩
    · simp
    · have hpos : ((n : ℕ) : ℤ) ≠ -1 := by omega
      have hsum : (n : ℤ) + name.bytes.length + 1 = ((n + name.bytes.length + 1 : ℕ) : ℤ) := by
        push_cast
        rfl
      have hNAME : NAME_MAX = 255 := rfl
      rw [if_pos hpos, if_pos hpos, hs, hsum, hcnt]
      by_cases hlt : n + name.bytes.length + 1 < len
      · rw [if_pos ((wrap_lt_iff hlen (by omega)).mpr hlt), if_pos (by omega),
          wrap_of_lt (by omega), zero_add]
        refine ⟨rfl, ?_⟩
        intro m' pos h
        obtain ⟨m₂, -, h⟩ := Option.bind_eq_some_iff.mp h
        obtain ⟨m₃, -, h⟩ := Option.map_eq_some_iff.mp h
        obtain ⟨rfl, rfl⟩ := Prod.mk.inj h
        exact .inr ⟨_, rfl, by omega⟩
      · rw [if_neg (by rwa [wrap_lt_iff hlen (by omega)]), if_neg (by omega)]
        simp

/-- The entry `/etc/a/etc`, in a buffer of ten bytes. -/
theorem Dentry.calculatePath_chain_nested :
  let name : Name := { etc with length_le := by decide }
  let d := Dentry.child (.child (.child (.root ⟨[], nofun⟩) name)
    { letterA with length_le := by decide }) name
  d.chain.calculatePath 11 (kmalloc 11) = calculatePath 0 11 d (kmalloc 11) ∧
    (calculatePath 0 11 d (kmalloc 11)).map Prod.snd = some 10
  := ⟨(calculatePath_chain (by decide) _ _).1, rfl⟩

end Kernel

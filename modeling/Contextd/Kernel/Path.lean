import Mathlib.Algebra.Ring.Int.Defs
import Mathlib.Algebra.Ring.Nat
import Contextd.Kernel.Share
import Contextd.Data.Memory

/-!
# The paths of the hooks

`calculate_path`, `file_path` and `dir_path` on the buffer that the hooks allocate.  A `Dentry` is
the chain of the names from the root; `calculatePath` stores `Dentry.joined`, each name after a
slash.  The length of the device name and the result of `calculate_path` share the variable `n` of
`file_path`, so the terminator is stored as if the path stood at the beginning of the buffer.  What
the hook then finds in its buffer is `File.left`.
-/

namespace Kernel

open List

variable {len n : ℕ} {d : Dentry} {devname : Text} {file : File}

open Memory

/-! ### Machine integers -/

/-- The value of an `int` that a `size_t` is assigned to. -/
def intOfSize (size : ℕ) : ℤ := Int.bmod size (2 ^ 32)

/-- The value of a `size_t` that an `int` is assigned to. -/
def sizeOfInt (n : ℤ) : ℕ := (n % 2 ^ 64).toNat

theorem intOfSize_of_lt {size : ℕ} (h : size < 2 ^ 31) :
  intOfSize size = size
  := by
  apply Int.bmod_eq_of_le <;> omega

theorem sizeOfInt_natCast {n : ℕ} (h : n < 2 ^ 64) :
  sizeOfInt n = n
  := by
  rw [sizeOfInt]
  omega

/-- A negative `int` is a `size_t` that is larger than any buffer. -/
theorem lt_sizeOfInt_intOfSize {size : ℕ} (h : intOfSize size < 0) :
  PATH_MAX + 1 < sizeOfInt (intOfSize size)
  := by
  have hlb : -(2 ^ 31 : ℤ) ≤ intOfSize size := Int.le_bmod (by decide)
  rw [sizeOfInt, PATH_MAX]
  omega

/-! ### Files -/

/-- `'/'`. -/
def slash : UInt8 := 47

/-- A string of the kernel, without its terminator. -/
structure Text where
  bytes : List UInt8
  ne_zero : ∀ b ∈ bytes, b ≠ 0

/-- The name of an entry of a directory. -/
structure Name extends Text where
  ne_nil : bytes ≠ []
  ne_slash : ∀ b ∈ bytes, b ≠ slash
  length_le : bytes.length ≤ NAME_MAX

/-- `struct dentry`: a root, or an entry of the directory `d_parent`. -/
inductive Dentry where
  | root (name : Text)
  | child (parent : Dentry) (name : Name)

/-- The names from the root to an entry. -/
def Dentry.components : Dentry → List Name
  | .root _ => []
  | .child parent name => parent.components ++ [name]

/-- Names, each after a slash. -/
def joinNames (names : List Name) : List UInt8 := names.flatMap fun name => slash :: name.bytes

/-- The path from the root to an entry. -/
def Dentry.joined (d : Dentry) : List UInt8 := joinNames d.components

/-- `d_name.name`. -/
def Dentry.name : Dentry → List UInt8
  | .root name => name.bytes
  | .child _ name => name.bytes

/-- `"/dev/root"`. -/
def devRoot : List UInt8 := [47, 100, 101, 118, 47, 114, 111, 111, 116]

/-- `struct file`: the name of the device of its mount, and its entry. -/
structure File where
  devname : Text
  dentry : Dentry

/-- What the paths of the files of a device begin with. -/
def deviceBytes (devname : Text) : List UInt8 :=
  if devname.bytes = devRoot then [] else devname.bytes

/-- The device name that the path of a file begins with. -/
abbrev File.device (file : File) : List UInt8 := deviceBytes file.devname

/-- The path of a file, after its device. -/
def File.path (file : File) : List UInt8 := file.device ++ file.dentry.joined

/-! ### The code -/

/-- `calculate_path(dentry, path, len)`, where `path` is at the offset `base` of a block. -/
def calculatePath (base : ℤ) (len : ℕ) : Dentry → Block → Option (Block × ℤ)
  | .root _, m => some (m, 0)
  | .child parent name, m =>
      (calculatePath base len parent m).bind fun (m, pos) =>
        if pos ≠ -1 then
          let size := name.bytes.length
          if pos + size + 1 < len then
            (store (base + pos) slash m).bind fun m =>
              (storeAll (base + pos + 1) (strncpyBytes size name.bytes) m).map fun m =>
                (m, pos + size + 1)
          else some (m, -1)
        else some (m, -1)

/-- The end of `file_path` and of `dir_path`: `calculate_path` after the first `n` bytes of
the buffer, the terminator and the value returned. -/
def terminatePath (dentry : Dentry) (n : ℤ) (path : Block) : Option (Block × ℤ) :=
  (calculatePath n (sizeOfInt (NAME_MAX + PATH_MAX - n)) dentry path).bind fun (path, n) =>
    (store n 0 path).map fun path => (path, n + 1)

/-- `file_path(file, path)`. -/
def filePath (file : File) (path : Block) : Option (Block × ℤ) :=
  if file.devname.bytes ≠ devRoot then
    let n := intOfSize file.devname.bytes.length
    (storeAll 0 (strncpyBytes (sizeOfInt n) file.devname.bytes) path).bind
      (terminatePath file.dentry n)
  else terminatePath file.dentry 0 path

/-- `dir_path(dentry, path)`. -/
def dirPath (dentry : Dentry) (path : Block) : Option (Block × ℤ) :=
  terminatePath dentry 0 path

/-- `fullpath = kmalloc(PATH_MAX + 1, GFP_NOFS)`, when there is memory. -/
def pathBuffer : Block := kmalloc (PATH_MAX + 1)

/-- What `file_path` leaves in the buffer of the hook, read as a string. -/
def File.left (file : File) : Option (List UInt8) :=
  (filePath file pathBuffer).bind fun r => text r.1

/-- The arguments of `auditsec_file_permission` for a file, with the path that the hook
finds in its buffer. -/
def filePermissionArgs (file : File) (mask : ℤ) : Option HookArgs :=
  file.left.map fun fullpath => .filePermission fullpath file.dentry.name mask

/-- The path in a request. -/
def Request.fullpath? (r : Request) : Option (List UInt8) :=
  match r.payload with
  | .file file => some file.fullpath
  | .dir dir => some dir.fullpath
  | _ => none

/-! ### Joined names -/

@[simp]
theorem joinNames_nil :
  joinNames [] = []
  := rfl

@[simp]
theorem joinNames_cons (name : Name) (names : List Name) :
  joinNames (name :: names) = slash :: (name.bytes ++ joinNames names)
  := rfl

@[simp]
theorem Dentry.joined_root (name : Text) :
  (Dentry.root name).joined = []
  := rfl

@[simp]
theorem Dentry.joined_child (parent : Dentry) (name : Name) :
  (Dentry.child parent name).joined = parent.joined ++ slash :: name.bytes
  := by
  simp [joined, components, joinNames]

/-- A joined path has no zero. -/
theorem Dentry.ne_zero_of_mem_joined (d : Dentry) :
  ∀ b ∈ d.joined, b ≠ 0
  := by
  induction d with
  | root name => simp
  | child parent name ih =>
    intro b hb
    rw [joined_child, mem_append, mem_cons] at hb
    rcases hb with hb | rfl | hb
    · apply ih b hb
    · decide
    · apply name.ne_zero b hb

theorem Name.ext_bytes {name name' : Name} (h : name.bytes = name'.bytes) :
  name = name'
  := by
  obtain ⟨⟨bytes, _⟩, _, _, _⟩ := name
  obtain ⟨⟨bytes', _⟩, _, _, _⟩ := name'
  obtain rfl : bytes = bytes' := h
  rfl

/-- Byte strings, each after a slash. -/
def joinBytes (xs : List (List UInt8)) : List UInt8 := xs.flatMap fun x => slash :: x

/-- A string is what stands before the next slash. -/
theorem takeWhile_joinBytes {x : List UInt8} (hx : slash ∉ x) (xs : List (List UInt8)) :
  (x ++ joinBytes xs).takeWhile (· ≠ slash) = x
  := by
  have hne : ∀ b ∈ x, decide (b ≠ slash) = true := by
    intro b hb
    rw [decide_eq_true_eq]
    rintro rfl
    apply hx hb
  rw [takeWhile_append_of_pos hne]
  rcases xs with _ | ⟨x', xs⟩ <;> simp [joinBytes]

/-- Strings without slashes can be read back from the joined ones. -/
theorem joinBytes_injective {xs xs' : List (List UInt8)} (hxs : ∀ x ∈ xs, slash ∉ x)
    (hxs' : ∀ x ∈ xs', slash ∉ x) (h : joinBytes xs = joinBytes xs') :
  xs = xs'
  := by
  induction xs generalizing xs' with
  | nil =>
    rcases xs' with _ | ⟨x', xs'⟩
    · rfl
    · simp [joinBytes] at h
  | cons x xs ih =>
    rcases xs' with _ | ⟨x', xs'⟩
    · simp [joinBytes] at h
    rw [forall_mem_cons] at hxs hxs'
    replace h : x ++ joinBytes xs = x' ++ joinBytes xs' := tail_eq_of_cons_eq h
    have hx : x = x' := by
      rw [← takeWhile_joinBytes hxs.1 xs, h, takeWhile_joinBytes hxs'.1]
    rw [hx, append_cancel_left_eq] at h
    rw [hx, ih hxs.2 hxs'.2 h]

theorem joinNames_eq (names : List Name) :
  joinNames names = joinBytes (names.map fun name => name.bytes)
  := by
  rw [joinNames, joinBytes, flatMap_map]

/-- The names can be read back from the joined path. -/
theorem joinNames_injective :
  Function.Injective joinNames
  := by
  intro names names' h
  rw [joinNames_eq, joinNames_eq] at h
  have hsl : ∀ names : List Name, ∀ x ∈ names.map (fun name => name.bytes), slash ∉ x := by
    intro names x hx hm
    obtain ⟨name, -, rfl⟩ := mem_map.mp hx
    apply name.ne_slash _ hm rfl
  apply map_injective_iff.mpr _ (joinBytes_injective (hsl _) (hsl _) h)
  intro name name'
  apply Name.ext_bytes

/-! ### What `calculate_path` does -/

/-- A path that is shorter than the limit is stored over the bytes of the block after the
offset. -/
theorem calculatePath_append (d : Dentry) (hlen : d.joined = [] ∨ d.joined.length < len)
    (pre post : Block) {old : Block} (hold : old.length = d.joined.length) :
  calculatePath pre.length len d (pre ++ (old ++ post)) =
    some (pre ++ (d.joined.map some ++ post), (d.joined.length : ℤ))
  := by
  induction d generalizing old post with
  | root name =>
    obtain rfl := length_eq_zero_iff.mp hold
    rfl
  | child parent name ih =>
    rw [Dentry.joined_child, length_append, length_cons] at hlen hold
    replace hlen := hlen.resolve_left (by simp)
    obtain ⟨old, rest, rfl, hpar⟩ :
      ∃ old₁ old₂, old₁ ++ old₂ = old ∧ old₁.length = parent.joined.length :=
        ⟨_, _, take_append_drop _ old, length_take_of_le (by omega)⟩
    have hr : rest.length = name.bytes.length + 1 := by
      rw [length_append] at hold
      omega
    rcases rest with _ | ⟨c, rest⟩
    · simp at hr
    have hpos : ((parent.joined.length : ℕ) : ℤ) ≠ -1 := by omega
    have hcopy : strncpyBytes name.bytes.length name.bytes = name.bytes := by
      rw [strncpyBytes_eq name.ne_zero le_rfl, Nat.sub_self, replicate_zero, append_nil]
    have hsl := store_append (pre ++ parent.joined.map some) (rest ++ post) c slash
    have hn := storeAll_append (pre ++ parent.joined.map some ++ [some slash]) post
      (Nat.succ.inj hr)
    simp only [length_append, length_map, length_singleton, Int.natCast_add,
      append_assoc, singleton_append, Int.natCast_one, ← Int.add_assoc] at hsl hn
    rw [append_assoc, cons_append, calculatePath, ih (Or.inr (by omega)) _ hpar, Option.bind_some]
    dsimp only
    rw [if_pos hpos, if_pos (by omega), hsl, Option.bind_some, hcopy, hn]
    simp [Int.add_assoc]

/-- What a result of `calculate_path` says about the path and the block. -/
theorem calculatePath_eq_some {base : ℕ} {m m' : Block} {pos : ℤ}
    (h : calculatePath base len d m = some (m', pos)) :
  m'.length = m.length ∧
    (pos = -1 ∨
      pos = d.joined.length ∧ (d.joined = [] ∨ base + d.joined.length ≤ m.length))
  := by
  induction d generalizing m' pos with
  | root name =>
    obtain ⟨rfl, rfl⟩ := Prod.mk.inj (Option.some.inj h)
    simp
  | child parent name ih =>
    obtain ⟨⟨m₁, pos₁⟩, h₁, h⟩ := Option.bind_eq_some_iff.mp h
    obtain ⟨hlen, hpar⟩ := ih h₁
    dsimp only at h
    split_ifs at h with hpos hlt
    · obtain ⟨hpos₁, -⟩ := hpar.resolve_left hpos
      obtain ⟨m₂, h₂, h⟩ := Option.bind_eq_some_iff.mp h
      obtain ⟨m₃, h₃, h⟩ := Option.map_eq_some_iff.mp h
      obtain ⟨rfl, rfl⟩ := Prod.mk.inj h
      have hf : base + pos₁ + 1 + name.bytes.length ≤ m₂.length := by
        by_contra hgt
        rw [storeAll_eq_none] at h₃
        · cases h₃
        · rw [← length_pos_iff, length_strncpyBytes]
          apply length_pos_iff.mpr name.ne_nil
        · rw [length_strncpyBytes]
          omega
      rw [length_of_store h₂] at hf
      rw [length_of_storeAll h₃, length_of_store h₂, Dentry.joined_child, length_append,
        length_cons]
      exact ⟨hlen, Or.inr ⟨by omega, Or.inr (by omega)⟩⟩
    · obtain ⟨rfl, rfl⟩ := Prod.mk.inj (Option.some.inj h)
      exact ⟨hlen, Or.inl rfl⟩
    · obtain ⟨rfl, rfl⟩ := Prod.mk.inj (Option.some.inj h)
      exact ⟨hlen, Or.inl rfl⟩

/-- A path that is shorter than the limit and fits in the block is stored. -/
theorem calculatePath_eq {base : ℕ} {m : Block} (hlen : d.joined = [] ∨ d.joined.length < len)
    (hf : base + d.joined.length ≤ m.length) :
  calculatePath base len d m =
    some (m.take base ++ (d.joined.map some ++ m.drop (base + d.joined.length)),
      (d.joined.length : ℤ))
  := by
  obtain ⟨pre, old, post, hm, rfl, hold, hpre, hpost⟩ := eq_window hf
  rw [hpre, hpost, hm]
  apply calculatePath_append d hlen pre post hold

/-! ### What `file_path` and `dir_path` do -/

/-- The limit that `file_path` and `dir_path` pass on. -/
theorem sizeOfInt_limit (h : n ≤ PATH_MAX + 1) :
  sizeOfInt (NAME_MAX + PATH_MAX - n) = NAME_MAX + PATH_MAX - n
  := by
  rw [sizeOfInt]
  simp only [PATH_MAX, NAME_MAX] at h ⊢
  omega

/-- What is stored after the first `n` bytes of a buffer. -/
theorem terminatePath_eq {path : Block} (hp : path.length = PATH_MAX + 1)
    (hf : n + d.joined.length ≤ PATH_MAX + 1) (hend : d.joined.length ≤ PATH_MAX) :
  terminatePath d n path =
    some ((path.take n ++ (d.joined.map some ++ path.drop (n + d.joined.length))).set
      d.joined.length (some 0), (d.joined.length : ℤ) + 1)
  := by
  have hlen : d.joined.length < NAME_MAX + PATH_MAX - n := by
    simp only [PATH_MAX, NAME_MAX] at hf hend ⊢
    omega
  rw [terminatePath, sizeOfInt_limit (by omega),
    calculatePath_eq (Or.inr hlen) (by rw [hp]; apply hf), Option.bind_some]
  dsimp only
  rw [store, if_pos, Int.toNat_natCast, Option.map_some]
  simp only [length_append, length_take, length_map, length_drop, hp]
  omega

/-- The path can be stored after the first `n` bytes of a buffer exactly when it ends at most
at the end of the buffer and the terminator, counted from the beginning of the buffer, is in
it. -/
theorem terminatePath_isSome_iff {path : Block} (hp : path.length = PATH_MAX + 1)
    (hn : n ≤ PATH_MAX + 1) :
  (terminatePath d n path).isSome ↔
    n + d.joined.length ≤ PATH_MAX + 1 ∧ d.joined.length ≤ PATH_MAX
  := by
  constructor
  · intro h
    obtain ⟨r, h⟩ := Option.isSome_iff_exists.mp h
    obtain ⟨⟨path', pos⟩, hpos, h⟩ := Option.bind_eq_some_iff.mp h
    obtain ⟨path'', hsto, -⟩ := Option.map_eq_some_iff.mp h
    obtain ⟨hlen, hres⟩ := calculatePath_eq_some hpos
    rcases hres with rfl | ⟨rfl, hres⟩
    · rw [store_eq_none (Or.inl (by decide))] at hsto
      cases hsto
    · have hlt : d.joined.length < PATH_MAX + 1 := by
        by_contra hge
        rw [store_eq_none (Or.inr (by rw [hlen, hp]; omega))] at hsto
        cases hsto
      rcases hres with hnil | hf
      · rw [hnil]
        exact ⟨hn, Nat.zero_le _⟩
      · rw [hp] at hf
        exact ⟨hf, Nat.le_of_lt_succ hlt⟩
  · rintro ⟨hf, hend⟩
    rw [terminatePath_eq hp hf hend]
    rfl

/-- `file_path` stores the device name that the path begins with, and then the path. -/
theorem filePath_eq (file : File) (path : Block) :
  filePath file path =
    (storeAll 0 (strncpyBytes (sizeOfInt (intOfSize file.device.length)) file.device) path).bind
      (terminatePath file.dentry (intOfSize file.device.length))
  := by
  rw [filePath, File.device, deviceBytes]
  by_cases h : file.devname.bytes = devRoot
  · rw [if_neg (not_not.mpr h), if_pos h]
    rfl
  · rw [if_pos h, if_neg h]

/-- The device name that a path begins with has no zero. -/
theorem ne_zero_of_mem_deviceBytes (devname : Text) :
  ∀ b ∈ deviceBytes devname, b ≠ 0
  := by
  rw [deviceBytes]
  split_ifs
  · simp
  · apply devname.ne_zero

theorem deviceBytes_eq_nil_iff :
  deviceBytes devname = [] ↔ devname.bytes = devRoot ∨ devname.bytes = []
  := by
  rw [deviceBytes]
  split_ifs with h <;> simp [h]

theorem File.ne_zero_of_mem_path (file : File) :
  ∀ b ∈ file.path, b ≠ 0
  := by
  intro b hb
  rcases mem_append.mp hb with hb | hb
  · apply ne_zero_of_mem_deviceBytes file.devname b hb
  · apply file.dentry.ne_zero_of_mem_joined b hb

/-- The device name of a file and its path fit in the buffer, with the terminator. -/
def File.Fits (file : File) : Prop := file.path.length ≤ PATH_MAX

theorem File.fits_iff :
  File.Fits ⟨devname, d⟩ ↔ (deviceBytes devname).length + d.joined.length ≤ PATH_MAX
  := by
  rw [Fits, path, length_append]

/-- `file_path` leaves the path of a file in the buffer, and returns its length plus one. -/
def File.Exact (file : File) : Prop :=
  ∃ r, filePath file pathBuffer = some r ∧ text r.1 = some file.path ∧
    r.2 = file.path.length + 1

/-- The buffer, once the device name is stored. -/
theorem storeAll_device (h : file.device.length ≤ PATH_MAX + 1) :
  storeAll 0 (strncpyBytes (sizeOfInt (intOfSize file.device.length)) file.device) pathBuffer =
    some (file.device.map some ++ kmalloc (PATH_MAX + 1 - file.device.length))
  := by
  have hs : file.device.length < 2 ^ 31 := by
    rw [PATH_MAX] at h
    omega
  rw [intOfSize_of_lt hs, sizeOfInt_natCast (by omega),
    strncpyBytes_eq (ne_zero_of_mem_deviceBytes _) le_rfl, Nat.sub_self, replicate_zero, append_nil]
  have hsto := @storeAll_eq pathBuffer file.device 0
    (by rw [pathBuffer, length_kmalloc]; omega)
  simpa [pathBuffer, kmalloc] using hsto

/-- What `file_path` leaves in the buffer: as many bytes of the device name and the path as
the path alone has. -/
theorem filePath_of_fits (h : file.Fits) :
  ∃ path, filePath file pathBuffer = some (path, (file.dentry.joined.length : ℤ) + 1) ∧
    text path = some (file.path.take file.dentry.joined.length)
  := by
  rw [File.Fits, File.path, length_append] at h
  have hs : file.device.length < 2 ^ 31 := by
    rw [PATH_MAX] at h
    omega
  rw [filePath_eq, storeAll_device (by omega), Option.bind_some, intOfSize_of_lt hs,
    terminatePath_eq (by simp; omega) (by omega) (by omega)]
  refine ⟨_, rfl, ?_⟩
  rw [take_left' (by simp), ← append_assoc, ← map_append]
  apply text_set file.ne_zero_of_mem_path
  · simp [File.path]
  · simp [File.path]
    omega

theorem File.left_of_fits (h : file.Fits) :
  file.left = some (file.path.take file.dentry.joined.length)
  := by
  obtain ⟨path, hp, ht⟩ := filePath_of_fits h
  rw [left, hp]
  apply ht

/-- `file_path` is exact for a file that fits exactly when its path begins with no device
name. -/
theorem File.exact_iff (h : file.Fits) :
  file.Exact ↔ file.device = []
  := by
  obtain ⟨path, hp, ht⟩ := filePath_of_fits h
  constructor
  · rintro ⟨r, hr, -, hret⟩
    rw [hp] at hr
    obtain rfl := Option.some.inj hr
    rw [File.path, length_append] at hret
    rw [← length_eq_zero_iff]
    dsimp only at hret
    omega
  · intro hdev
    have hj : file.path = file.dentry.joined := by
      rw [File.path, hdev, nil_append]
    refine ⟨_, hp, ?_, ?_⟩
    · rw [ht, ← hj, take_length]
    · rw [hj]

/-! ### Reported paths -/

/-- Two files of a mount that fit and whose requests have the same path have the same
names from the root. -/
def Identifies (devname : Text) : Prop :=
  ∀ d₁ d₂ : Dentry, File.Fits ⟨devname, d₁⟩ → File.Fits ⟨devname, d₂⟩ →
    ∀ (c₁ c₂ : HookCall) (mask₁ mask₂ : ℤ),
      filePermissionArgs ⟨devname, d₁⟩ mask₁ = some c₁.args →
      filePermissionArgs ⟨devname, d₂⟩ mask₂ = some c₂.args →
      c₁.request.fullpath? = c₂.request.fullpath? → d₁.components = d₂.components

/-- The path in the request of a hook of a file that fits. -/
theorem fullpath?_request (h : file.Fits) {c : HookCall} {mask : ℤ}
    (hargs : filePermissionArgs file mask = some c.args) :
  c.request.fullpath? = some (file.path.take file.dentry.joined.length)
  := by
  rw [filePermissionArgs, file.left_of_fits h, Option.map_some] at hargs
  have hcopy :
    strncpy (PATH_MAX + 1) (file.path.take file.dentry.joined.length) =
      file.path.take file.dentry.joined.length := by
    rw [strncpy_eq, cstring_eq_self fun b hb => file.ne_zero_of_mem_path b (mem_of_mem_take hb)]
    apply take_of_length_le
    rw [length_take]
    rw [File.Fits] at h
    omega
  rw [HookCall.request, Request.fullpath?, HookCall.payload, ← Option.some.inj hargs]
  dsimp only
  rw [hcopy]

/-- A file of one letter in the root directory. -/
def letterFile (letter : UInt8) (hzero : letter ≠ 0) (hsl : letter ≠ slash) : Dentry :=
  .child (.root ⟨[slash], by simp [slash]⟩)
    ⟨⟨[letter], by simpa using hzero⟩, by simp, by simpa using hsl, by simp [NAME_MAX]⟩

/-- A path of less than two bytes has no names. -/
theorem Dentry.components_eq_nil (h : d.joined.length < 2) :
  d.components = []
  := by
  rcases d with _ | ⟨parent, name⟩
  · rfl
  · have hn := length_pos_iff.mpr name.ne_nil
    rw [joined_child, length_append, length_cons] at h
    omega

/-- The call of the hook for a file that fits. -/
theorem exists_filePermissionArgs (h : file.Fits) :
  ∃ c : HookCall, filePermissionArgs file 0 = some c.args
  := by
  rw [filePermissionArgs, file.left_of_fits h]
  exact ⟨⟨0, ⟨0, []⟩, _⟩, rfl⟩

/-- A mount identifies its files exactly when their paths begin with no device name, or with
one after which no name fits in the buffer. -/
theorem identifies_iff :
  Identifies devname ↔
    deviceBytes devname = [] ∨ PATH_MAX < (deviceBytes devname).length + 2
  := by
  constructor
  · intro h
    by_contra hneg
    obtain ⟨hne, hle⟩ := not_or.mp hneg
    let a := letterFile 97 (by decide) (by decide)
    let b := letterFile 98 (by decide) (by decide)
    have hf : ∀ d, d.joined.length = 2 → File.Fits ⟨devname, d⟩ := by
      intro d hd
      rw [File.fits_iff]
      omega
    obtain ⟨ca, ha⟩ := exists_filePermissionArgs (hf a rfl)
    obtain ⟨cb, hb⟩ := exists_filePermissionArgs (hf b rfl)
    have heq : a.components = b.components := by
      apply h a b (hf a rfl) (hf b rfl) ca cb 0 0 ha hb
      rw [fullpath?_request (hf a rfl) ha, fullpath?_request (hf b rfl) hb]
      rcases hdev : deviceBytes devname with _ | ⟨c, _ | ⟨c', l⟩⟩
      · apply absurd hdev hne
      · simp [File.path, hdev, a, b, letterFile]
      · simp [File.path, hdev, a, b, letterFile]
    have hbs := congrArg (fun names => names.map fun name => name.bytes) heq
    exact absurd hbs (by decide)
  · intro h d₁ d₂ h₁ h₂ c₁ c₂ mask₁ mask₂ hargs₁ hargs₂ heq
    rcases h with hnil | hlong
    · rw [fullpath?_request h₁ hargs₁, fullpath?_request h₂ hargs₂] at heq
      simp only [File.path, File.device, hnil, nil_append, take_length, Option.some.injEq] at heq
      apply joinNames_injective heq
    · rw [File.fits_iff] at h₁ h₂
      rw [Dentry.components_eq_nil (by omega : d₁.joined.length < 2),
        Dentry.components_eq_nil (by omega : d₂.joined.length < 2)]

/-- What `file_path` leaves in the buffer is the path of a file that fits, and what it
returns its length plus one, exactly for the files of the root device and of a device
without a name; the requests tell two files of a mount with different names from the root
apart exactly for these devices, and for those with names after which no name fits. -/
theorem filePath_identifies_iff (file : File) (hf : file.Fits) :
  (file.Exact ↔ file.devname.bytes = devRoot ∨ file.devname.bytes = []) ∧
    (Identifies file.devname ↔
      (file.devname.bytes = devRoot ∨ file.devname.bytes = []) ∨
        PATH_MAX < file.devname.bytes.length + 2)
  := by
  constructor
  · rw [File.exact_iff hf, deviceBytes_eq_nil_iff]
  · rw [identifies_iff, deviceBytes_eq_nil_iff]
    by_cases hroot : file.devname.bytes = devRoot
    · simp [hroot]
    · rw [deviceBytes, if_neg hroot]

/-- The file `/a` of the root device. -/
theorem filePath_identifies_rootDevice :
  let file : File := ⟨⟨devRoot, by simp [devRoot]⟩, letterFile 97 (by decide) (by decide)⟩
  file.Fits ∧ file.Exact ∧ Identifies file.devname
  := by
  have hf : File.Fits ⟨⟨devRoot, by simp [devRoot]⟩, letterFile 97 (by decide) (by decide)⟩ := by
    rw [File.fits_iff, deviceBytes, if_pos rfl]
    decide
  obtain ⟨hexact, hid⟩ := filePath_identifies_iff _ hf
  exact ⟨hf, hexact.mpr (Or.inl rfl), hid.mpr (Or.inl (Or.inl rfl))⟩

/-- The files `/a` and `/b` of the device `/dev/sda1` are both reported as `/d`. -/
theorem filePath_collision :
  let sda1 : Text := ⟨[47, 100, 101, 118, 47, 115, 100, 97, 49], by simp⟩
  let a := letterFile 97 (by decide) (by decide)
  let b := letterFile 98 (by decide) (by decide)
  File.Fits ⟨sda1, a⟩ ∧ File.Fits ⟨sda1, b⟩ ∧
    a.components.map (fun name => name.bytes) ≠ b.components.map (fun name => name.bytes) ∧
    File.left ⟨sda1, a⟩ = some [47, 100] ∧ File.left ⟨sda1, b⟩ = some [47, 100]
  := by
  intro sda1 a b
  have ha : File.Fits ⟨sda1, a⟩ := by
    rw [File.fits_iff]
    decide
  have hb : File.Fits ⟨sda1, b⟩ := by
    rw [File.fits_iff]
    decide
  refine ⟨ha, hb, by decide, ?_, ?_⟩
  · rw [File.left_of_fits ha]
    rfl
  · rw [File.left_of_fits hb]
    rfl

/-! ### Memory safety -/

/-- An `int` is less than `2 ^ 31`. -/
theorem intOfSize_lt (size : ℕ) :
  intOfSize size < 2 ^ 31
  := Int.bmod_lt (by decide)

/-- Bytes are stored at the beginning of the buffer exactly when there are not more than the
buffer has. -/
theorem storeAll_pathBuffer {bs : List UInt8} :
  (bs.length ≤ PATH_MAX + 1 ∧
      ∃ path, storeAll 0 bs pathBuffer = some path ∧ path.length = PATH_MAX + 1) ∨
    PATH_MAX + 1 < bs.length ∧ storeAll 0 bs pathBuffer = none
  := by
  have hbuf : pathBuffer.length = PATH_MAX + 1 := length_kmalloc _
  rcases Nat.lt_or_ge (PATH_MAX + 1) bs.length with hlong | hf
  · right
    refine ⟨hlong, storeAll_eq_none ?_ (by omega)⟩
    rintro rfl
    simp at hlong
  · left
    have hsto := @storeAll_eq pathBuffer bs 0 (by omega)
    exact ⟨hf, _, hsto, (length_of_storeAll hsto).trans hbuf⟩

/-- `file_path` stores only in the buffer of the hook exactly when the length of the device
name, as an `int`, is not negative, the path after it ends in the buffer, and so does the
path alone with its terminator. -/
theorem filePath_isSome_iff (file : File) :
  (filePath file pathBuffer).isSome ↔
    0 ≤ intOfSize file.device.length ∧
      intOfSize file.device.length + file.dentry.joined.length ≤ PATH_MAX + 1 ∧
      file.dentry.joined.length ≤ PATH_MAX
  := by
  rw [filePath_eq]
  have hlen := length_strncpyBytes (sizeOfInt (intOfSize file.device.length)) file.device
  rcases @storeAll_pathBuffer
    (strncpyBytes (sizeOfInt (intOfSize file.device.length)) file.device) with
    ⟨hf, path, hsto, hp⟩ | ⟨hlong, hsto⟩
  · rw [hlen] at hf
    have hn : 0 ≤ intOfSize file.device.length := by
      by_contra hneg
      have hlt := lt_sizeOfInt_intOfSize (Int.not_le.mp hneg)
      omega
    obtain ⟨n, hn⟩ := Int.eq_ofNat_of_zero_le hn
    have hlt := intOfSize_lt file.device.length
    rw [hn, sizeOfInt_natCast (by omega)] at hf
    rw [hsto, Option.bind_some, hn, terminatePath_isSome_iff hp hf]
    omega
  · rw [hsto, Option.bind_none]
    simp only [Option.isSome_none, Bool.false_eq_true, false_iff]
    rintro ⟨hn, hf, -⟩
    obtain ⟨n, hn⟩ := Int.eq_ofNat_of_zero_le hn
    have hlt := intOfSize_lt file.device.length
    rw [hlen, hn, sizeOfInt_natCast (by omega)] at hlong
    rw [hn] at hf
    omega

/-- `dir_path` stores only in the buffer of the hook exactly when the path and its terminator
fit. -/
theorem dirPath_isSome_iff (dentry : Dentry) :
  (dirPath dentry pathBuffer).isSome ↔ dentry.joined.length ≤ PATH_MAX
  := by
  have h := terminatePath_isSome_iff (d := dentry) (n := 0) (length_kmalloc _) (Nat.zero_le _)
  rw [Int.natCast_zero] at h
  rw [dirPath, pathBuffer, h]
  omega

/-- A directory in a directory, any number of times. -/
def nestedDirectory (name : Name) : ℕ → Dentry
  | 0 => .root ⟨[slash], by simp [slash]⟩
  | depth + 1 => .child (nestedDirectory name depth) name

/-- `file_path` and `dir_path`, on the buffer that the hooks allocate, store only in it
exactly when the device name is not longer than an `int` can say, the path after it ends in
the buffer, and so does the path alone with its terminator. -/
theorem pathConstruction_isSome_iff (file : File) (dentry : Dentry) :
  ((filePath file (kmalloc (PATH_MAX + 1))).isSome ↔
    0 ≤ intOfSize (deviceBytes file.devname).length ∧
      intOfSize (deviceBytes file.devname).length + file.dentry.joined.length ≤ PATH_MAX + 1 ∧
      file.dentry.joined.length ≤ PATH_MAX) ∧
    ((dirPath dentry (kmalloc (PATH_MAX + 1))).isSome ↔ dentry.joined.length ≤ PATH_MAX)
  := ⟨filePath_isSome_iff file, dirPath_isSome_iff dentry⟩

theorem length_joined_nestedDirectory (name : Name) (depth : ℕ) :
  (nestedDirectory name depth).joined.length = depth * (name.bytes.length + 1)
  := by
  induction depth with
  | zero => simp [nestedDirectory]
  | succ depth ih =>
    rw [nestedDirectory, Dentry.joined_child, length_append, length_cons, ih,
      Nat.add_mul, Nat.one_mul]

/-- A name of the greatest length. -/
def greatestName : Name where
  bytes := List.replicate NAME_MAX 97
  ne_zero := by
    intro b hb
    rw [eq_of_mem_replicate hb]
    decide
  ne_nil := cons_ne_nil _ _
  ne_slash := by
    intro b hb
    rw [eq_of_mem_replicate hb]
    decide
  length_le := Nat.le_of_eq length_replicate

/-- Seventeen names of the greatest length: `calculate_path` fails at the last one, and the
terminator is stored before the buffer.  Sixteen of them and a name of one letter: the path
is below the limit, and the letter is stored after the buffer. -/
theorem dirPath_overflow :
  let letter : Name := ⟨⟨[97], by simp⟩, by decide, by simp [slash], by decide⟩
  dirPath (nestedDirectory greatestName 17) (kmalloc (PATH_MAX + 1)) = none ∧
    dirPath (.child (nestedDirectory greatestName 16) letter) (kmalloc (PATH_MAX + 1)) = none
  := by
  intro letter
  have hn : greatestName.bytes.length = NAME_MAX := length_replicate
  have hdeep := length_joined_nestedDirectory greatestName 17
  have hfull := length_joined_nestedDirectory greatestName 16
  rw [hn] at hdeep hfull
  constructor
  · rw [← Option.not_isSome_iff_eq_none, ← pathBuffer, dirPath_isSome_iff, hdeep]
    decide
  · rw [← Option.not_isSome_iff_eq_none, ← pathBuffer, dirPath_isSome_iff, Dentry.joined_child,
      length_append, hfull]
    decide

end Kernel

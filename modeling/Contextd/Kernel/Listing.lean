import Contextd.Machine
import Contextd.Kernel.Registration
import Contextd.Data.Memory

/-!
# The list of the monitored programs

`prog_liste` and the handler that reads `/proc/contextd/programs`.  A `Prog` is an entry of the list
in memory: the array of the name, with the links of the list behind it, where `sprintf` goes on
reading when the name fills its array.  The listing is a buffer that grows by copying
(`ListeState.grow`); `Listed` says what has been written to it so far.
-/

namespace Kernel

/-! ### Entries in memory -/

/-- The size of `struct list_head`. -/
def sizeofListHead : ℕ := 16

/-- The bytes of a `struct list_head`. -/
abbrev ListHead := Vector UInt8 sizeofListHead

open List Memory

variable {progs : List Prog} {progList : List (List UInt8)}

/-- `struct prog`: the name, without the padding of its array, and the bytes of `list`. -/
structure Prog where
  execname : List UInt8
  links : ListHead
  ne_zero : ∀ b ∈ execname, b ≠ 0
  length_le : execname.length ≤ TASK_COMM_LEN

/-- The entry with a name that `register_prog` has stored. -/
def Prog.ofName (name : List UInt8) (links : ListHead) : Prog where
  execname := strncpy TASK_COMM_LEN name
  links := links
  ne_zero _ hb := ne_zero_of_mem_cstring (mem_of_mem_take hb)
  length_le := length_take_le _ _

/-- The bytes of an entry. -/
def Prog.memory (p : Prog) : Block :=
  (p.execname ++ List.replicate (TASK_COMM_LEN - p.execname.length) 0 ++ p.links.toList).map some

/-- A string that is read from the name of an entry ends where the name does. -/
def Prog.Terminated (p : Prog) : Prop :=
  p.execname.length < TASK_COMM_LEN ∨ p.links.toList.head? = some 0

instance (p : Prog) : Decidable p.Terminated :=
  inferInstanceAs (Decidable (_ ∨ _))

/-! ### The listing -/

/-- `'\n'`. -/
def newline : UInt8 := 10

/-- The local variables of `prog_liste`. -/
structure ListeState where
  alloc : ℕ
  resLen : ℕ
  result : Block

/-- By how much the buffer grows, and its first size: `20 * (TASK_COMM_LEN + 1)`. -/
def allocStep : ℕ := 20 * (TASK_COMM_LEN + 1)

/-- `res_len += sprintf(result + res_len, "%s\n", p->execname)`. -/
def ListeState.print (st : ListeState) (p : Prog) : Option ListeState :=
  (text p.memory).bind fun execname =>
    (storeAll st.resLen (execname ++ [newline, 0]) st.result).map fun result =>
      { st with result := result, resLen := st.resLen + execname.length + 1 }

/-- The larger buffer, with a copy of the string in the old one. -/
def ListeState.grow (st : ListeState) : Option ListeState :=
  let alloc := st.alloc + allocStep
  (text st.result).bind fun s =>
    (storeAll 0 (strncpyBytes alloc s) (kmalloc alloc)).map fun tmp =>
      { st with alloc := alloc, result := tmp }

/-- One turn of the loop of `prog_liste`. -/
def ListeState.step (st : ListeState) (p : Prog) : Option ListeState :=
  if st.resLen + TASK_COMM_LEN + 1 < st.alloc then st.print p
  else st.grow.bind fun st => st.print p

/-- The variables before the loop. -/
def ListeState.first : ListeState where
  alloc := allocStep
  resLen := 0
  result := kmalloc allocStep

/-- `prog_liste()`: the block that is returned. -/
def progListe (progs : List Prog) : Option Block :=
  (progs.foldlM ListeState.step .first).map ListeState.result

/-- `auditsec_proc_programs_read(buffer, .., offset, buffer_length, ..)`, on a buffer of
`buffer_length` bytes: the buffer, and the value returned. -/
def auditsecProcProgramsRead (buffer : Block) (offset : ℤ) (progs : List Prog) :
    Option (Block × ℤ) :=
  if offset > 0 then some (buffer, 0)
  else
    (progListe progs).bind fun tmp =>
      (text tmp).bind fun s =>
        (storeAll 0 (s ++ [0]) buffer).map fun buffer => (buffer, s.length)

/-- The lines of a listing. -/
def lines (names : List (List UInt8)) : List UInt8 :=
  names.flatMap fun name => name ++ [newline]

/-- `prog_liste` returns the lines of the names, as a string, and nothing was stored outside
of an allocated block or read without having been stored. -/
def Faithful (progs : List Prog) : Prop :=
  ∃ result, progListe progs = some result ∧
    text result = some (lines (progs.map Prog.execname))

/-! ### Reading a name -/

/-- The bytes of an entry whose name fills its array. -/
theorem Prog.memory_of_le {p : Prog} (h : TASK_COMM_LEN ≤ p.execname.length) :
  p.memory = p.execname.map some ++ p.links.toList.map some
  := by
  rw [memory, Nat.sub_eq_zero_of_le h, replicate_zero, append_nil, map_append]

/-- A terminated name is read as it is. -/
theorem Prog.text_memory {p : Prog} (h : p.Terminated) :
  text p.memory = some p.execname
  := by
  rcases Nat.lt_or_ge p.execname.length TASK_COMM_LEN with hlt | hge
  · obtain ⟨k, hk⟩ := Nat.exists_eq_add_of_lt hlt
    have hpad : TASK_COMM_LEN - p.execname.length = k + 1 := by omega
    rw [memory, append_assoc, map_append, hpad, replicate_succ, cons_append, map_cons]
    apply text_append p.ne_zero
  · obtain ⟨links, hlinks⟩ := List.head?_eq_some_iff.mp (h.resolve_left (Nat.not_lt.mpr hge))
    rw [memory_of_le hge, hlinks, map_cons]
    apply text_append p.ne_zero

/-- What is read from a name without a terminator is longer than the name. -/
theorem Prog.length_lt_of_text {p : Prog} {t : List UInt8} (h : ¬ p.Terminated)
    (ht : text p.memory = some t) :
  p.execname.length < t.length
  := by
  obtain ⟨hge, hhead⟩ := not_or.mp h
  rw [memory_of_le (Nat.not_lt.mp hge), text_map_append p.ne_zero] at ht
  obtain ⟨t', ht', rfl⟩ := Option.map_eq_some_iff.mp ht
  rcases hlinks : p.links.toList with _ | ⟨b, links⟩
  · rw [hlinks] at ht'
    cases ht'
  · have hb : b ≠ 0 := by
      rintro rfl
      rw [hlinks] at hhead
      apply hhead rfl
    rw [hlinks, map_cons, text, if_neg hb] at ht'
    obtain ⟨t'', -, rfl⟩ := Option.map_eq_some_iff.mp ht'
    simp

/-! ### The loop -/

/-- The bytes `s` have been written to the buffer, and, when there are some, a terminator. -/
structure Listed (s : List UInt8) (st : ListeState) : Prop where
  length_result : st.result.length = st.alloc
  resLen_eq : st.resLen = s.length
  ne_zero : ∀ b ∈ s, b ≠ 0
  lt_alloc : s.length < st.alloc
  le_alloc : allocStep ≤ st.alloc
  result_eq : s ≠ [] → ∃ rest, st.result = s.map some ++ some 0 :: rest

variable {s t : List UInt8} {st st' : ListeState} {p : Prog}

/-- Before the loop nothing has been written. -/
theorem listed_first :
  Listed [] .first
  where
  length_result := length_kmalloc _
  resLen_eq := rfl
  ne_zero := by simp
  lt_alloc := by decide
  le_alloc := le_rfl
  result_eq h := absurd rfl h

/-- The bytes that have been written are at the beginning of the buffer. -/
theorem Listed.exists_rest (h : Listed s st) :
  ∃ rest, st.result = s.map some ++ rest
  := by
  by_cases hs : s = []
  · subst hs
    exact ⟨st.result, rfl⟩
  · obtain ⟨rest, hr⟩ := h.result_eq hs
    exact ⟨some 0 :: rest, hr⟩

/-- The string in the buffer. -/
theorem Listed.text_result (h : Listed s st) (hs : s ≠ []) :
  text st.result = some s
  := by
  obtain ⟨rest, hr⟩ := h.result_eq hs
  rw [hr]
  apply text_append h.ne_zero

/-- Printing a name that fits, with a newline and the terminator. -/
theorem Listed.print (h : Listed s st) (ht : text p.memory = some t)
    (hf : s.length + t.length + 2 ≤ st.alloc) :
  ∃ st', st.print p = some st' ∧ Listed (s ++ (t ++ [newline])) st'
  := by
  obtain ⟨rest, hr⟩ := h.exists_rest
  have hlen := h.length_result
  rw [hr, length_append, length_map] at hlen
  obtain ⟨old, post, hr', hold⟩ :
    ∃ old post, rest = old ++ post ∧ old.length = (t ++ [newline, 0]).length := by
    refine ⟨_, _, (take_append_drop (t ++ [newline, 0]).length rest).symm, ?_⟩
    apply length_take_of_le
    simp
    omega
  have hsto := storeAll_append (s.map some) post hold
  rw [length_map, ← hr', ← hr, ← h.resLen_eq] at hsto
  refine ⟨_, by rw [ListeState.print, ht, Option.bind_some, hsto, Option.map_some], ?_⟩
  exact
    { length_result := (length_of_storeAll hsto).trans h.length_result
      resLen_eq := by
        simp [h.resLen_eq]
        omega
      ne_zero := by
        intro b hb
        rw [mem_append, mem_append, mem_singleton] at hb
        rcases hb with hb | hb | rfl
        · apply h.ne_zero b hb
        · apply ne_zero_of_text ht b hb
        · decide
      lt_alloc := by
        simp
        omega
      le_alloc := h.le_alloc
      result_eq := fun _ => ⟨post, by simp⟩ }

/-- What has been printed, when a name could be. -/
theorem Listed.of_print (h : Listed s st) (hprint : st.print p = some st') :
  ∃ t, text p.memory = some t ∧ Listed (s ++ (t ++ [newline])) st'
  := by
  obtain ⟨t, ht, hsto⟩ := Option.bind_eq_some_iff.mp hprint
  obtain ⟨result, hsto, -⟩ := Option.map_eq_some_iff.mp hsto
  have hf : s.length + t.length + 2 ≤ st.alloc := by
    by_contra hlong
    rw [storeAll_eq_none (by simp) (by rw [h.length_result, h.resLen_eq]; simp; omega)] at hsto
    cases hsto
  obtain ⟨st'', hprint', hlist⟩ := h.print ht hf
  rw [hprint] at hprint'
  obtain rfl := Option.some.inj hprint'
  exact ⟨t, ht, hlist⟩

/-- The larger buffer has the string of the old one. -/
theorem Listed.grow (h : Listed s st) (hs : s ≠ []) :
  ∃ st', st.grow = some st' ∧ Listed s st' ∧ st'.alloc = st.alloc + allocStep
  := by
  have hlt := h.lt_alloc
  have hcopy := @strncpyBytes_eq _ (st.alloc + allocStep) h.ne_zero (by omega)
  have hsto :
    storeAll 0 (strncpyBytes (st.alloc + allocStep) s) (kmalloc (st.alloc + allocStep)) =
      some ((strncpyBytes (st.alloc + allocStep) s).map some) :=
        storeAll_of_length_eq (by rw [length_kmalloc, length_strncpyBytes])
  have hgrow : st.grow = some { st with
      alloc := st.alloc + allocStep
      result := (strncpyBytes (st.alloc + allocStep) s).map some } := by
    rw [ListeState.grow, h.text_result hs, Option.bind_some, hsto, Option.map_some]
  refine ⟨_, hgrow, ?_, rfl⟩
  exact
    { length_result := by rw [length_map, length_strncpyBytes]
      resLen_eq := h.resLen_eq
      ne_zero := h.ne_zero
      lt_alloc := by
        dsimp only
        omega
      le_alloc := Nat.le_add_left _ _
      result_eq := by
        obtain ⟨k, hk⟩ := Nat.exists_eq_add_of_lt hlt
        intro _
        refine ⟨(List.replicate (k + allocStep) 0).map some, ?_⟩
        have hpad : st.alloc + allocStep - s.length = k + allocStep + 1 := by omega
        simp only [hcopy, hpad, replicate_succ, map_append, map_cons] }

/-- When there is no room for one more name, something has been written. -/
theorem Listed.ne_nil (h : Listed s st) (hroom : ¬ st.resLen + TASK_COMM_LEN + 1 < st.alloc) :
  s ≠ []
  := by
  rintro rfl
  have hres := h.resLen_eq
  have hle := h.le_alloc
  simp only [allocStep, TASK_COMM_LEN, length_nil] at hres hle hroom
  omega

/-- One turn of the loop, for a name that is not longer than its array. -/
theorem Listed.step (h : Listed s st) (ht : text p.memory = some t)
    (hlen : t.length ≤ TASK_COMM_LEN) :
  ∃ st', st.step p = some st' ∧ Listed (s ++ (t ++ [newline])) st'
  := by
  have hres := h.resLen_eq
  rw [ListeState.step]
  split_ifs with hroom
  · apply h.print ht (by omega)
  · have hle := h.le_alloc
    have hlt := h.lt_alloc
    obtain ⟨st₁, hgrow, h₁, halloc⟩ := h.grow (h.ne_nil hroom)
    rw [hgrow, Option.bind_some]
    apply h₁.print ht
    rw [halloc]
    simp only [allocStep, TASK_COMM_LEN] at *
    omega

/-- What one turn of the loop has printed. -/
theorem Listed.of_step (h : Listed s st) (hs : st.step p = some st') :
  ∃ t, text p.memory = some t ∧ Listed (s ++ (t ++ [newline])) st'
  := by
  rw [ListeState.step] at hs
  split_ifs at hs with hroom
  · apply h.of_print hs
  · obtain ⟨st₁, hgrow, h₁, -⟩ := h.grow (h.ne_nil hroom)
    rw [hgrow, Option.bind_some] at hs
    apply h₁.of_print hs

/-- The whole loop, for names that are all terminated. -/
theorem Listed.foldlM (h : Listed s st) (ht : ∀ p ∈ progs, p.Terminated) :
  ∃ st', progs.foldlM ListeState.step st = some st' ∧
    Listed (s ++ lines (progs.map Prog.execname)) st'
  := by
  induction progs generalizing s st with
  | nil => exact ⟨st, rfl, by simpa [lines] using h⟩
  | cons p progs ih =>
    rw [forall_mem_cons] at ht
    obtain ⟨st₁, hs, h₁⟩ := h.step (p.text_memory ht.1) p.length_le
    obtain ⟨st₂, hf, h₂⟩ := ih h₁ ht.2
    refine ⟨st₂, ?_, ?_⟩
    · rw [foldlM_cons, hs]
      apply hf
    · rw [append_assoc] at h₂
      apply h₂

/-- What the whole loop has printed. -/
theorem Listed.of_foldlM (h : Listed s st) (hf : progs.foldlM ListeState.step st = some st') :
  ∃ ts, List.Forall₂ (fun p t => text p.memory = some t) progs ts ∧ Listed (s ++ lines ts) st'
  := by
  induction progs generalizing s st with
  | nil =>
    obtain rfl := Option.some.inj hf
    exact ⟨[], List.Forall₂.nil, by simpa [lines] using h⟩
  | cons p progs ih =>
    rw [foldlM_cons] at hf
    obtain ⟨st₁, hs, hf⟩ := Option.bind_eq_some_iff.mp hf
    obtain ⟨t, ht, h₁⟩ := h.of_step hs
    obtain ⟨ts, hts, h₂⟩ := ih h₁ hf
    rw [append_assoc] at h₂
    exact ⟨t :: ts, List.Forall₂.cons ht hts, h₂⟩

/-! ### The listing as a whole -/

/-- What is read from the names is not shorter than the names, and longer when one of them is
not terminated. -/
theorem length_lines_le {ts : List (List UInt8)}
    (h : List.Forall₂ (fun p t => text p.memory = some t) progs ts) :
  (lines (progs.map Prog.execname)).length ≤ (lines ts).length ∧
    ((lines (progs.map Prog.execname)).length = (lines ts).length → ∀ p ∈ progs, p.Terminated)
  := by
  induction h with
  | nil => simp
  | @cons p t progs ts ht _ ih =>
    obtain ⟨hle, hterm⟩ := ih
    have hp : p.execname.length ≤ t.length ∧ (p.execname.length = t.length → p.Terminated) := by
      by_cases h : p.Terminated
      · rw [p.text_memory h] at ht
        obtain rfl := Option.some.inj ht
        exact ⟨le_rfl, fun _ => h⟩
      · have hlt := p.length_lt_of_text h ht
        exact ⟨Nat.le_of_lt hlt, fun heq => absurd heq (Nat.ne_of_lt hlt)⟩
    simp only [lines, map_cons, flatMap_cons, length_append, length_singleton] at hle hterm ⊢
    refine ⟨by omega, fun heq => ?_⟩
    rw [forall_mem_cons]
    exact ⟨hp.2 (by omega), hterm (by omega)⟩

/-- `prog_liste` is faithful exactly when there is a program and all names are terminated. -/
theorem faithful_iff (progs : List Prog) :
  Faithful progs ↔ progs ≠ [] ∧ ∀ p ∈ progs, p.Terminated
  := by
  constructor
  · rintro ⟨result, hres, ht⟩
    obtain ⟨st, hf, rfl⟩ := Option.map_eq_some_iff.mp hres
    have hprogs : progs ≠ [] := by
      rintro rfl
      obtain rfl := Option.some.inj hf
      cases ht
    refine ⟨hprogs, ?_⟩
    obtain ⟨ts, hts, hlist⟩ := listed_first.of_foldlM hf
    have hne : lines ts ≠ [] := by
      rcases hts with _ | _
      · apply absurd rfl hprogs
      · simp [lines]
    rw [nil_append] at hlist
    rw [hlist.text_result hne] at ht
    apply (length_lines_le hts).2
    rw [Option.some.inj ht]
  · rintro ⟨hprogs, hterm⟩
    obtain ⟨st, hf, hlist⟩ := listed_first.foldlM hterm
    refine ⟨st.result, by rw [progListe, hf, Option.map_some], hlist.text_result ?_⟩
    rcases progs with _ | ⟨p, progs⟩
    · apply absurd rfl hprogs
    · simp [lines]

/-- Of a faithful listing, the handler writes to the buffer exactly when it is asked for the
beginning, and the listing and its terminator have to fit then. -/
theorem auditsecProcProgramsRead_isSome_iff (h : Faithful progs) (buffer : Block) (offset : ℤ) :
  (auditsecProcProgramsRead buffer offset progs).isSome ↔
    0 < offset ∨ (lines (progs.map Prog.execname)).length + 1 ≤ buffer.length
  := by
  obtain ⟨result, hres, ht⟩ := h
  rw [auditsecProcProgramsRead]
  split_ifs with hoffset
  · simp [hoffset]
  · have hf := @storeAll_isSome_iff buffer
      (lines (progs.map Prog.execname) ++ [0]) 0 (Nat.zero_le _)
    rw [hres, Option.bind_some, ht, Option.bind_some, Option.isSome_map]
    simpa [hoffset] using hf

/-! ### Lists of stored names -/

/-- A call of a function that changes the list of programs. -/
inductive ProgCall where
  | register (allocated : Bool) (progName : Option (List UInt8))
  | unregister (progName : List UInt8)
  | clean

/-- The list after a call. -/
def ProgCall.result (progList : List (List UInt8)) : ProgCall → List (List UInt8)
  | .register allocated progName => (registerProg allocated progName progList).1
  | .unregister progName => (unregisterProg progName progList).1
  | .clean => cleanProgList progList

/-- The list of programs, under any calls of the functions that change it. -/
def progCalls : Machine (List (List UInt8)) ProgCall where
  init progList := progList = []
  step progList call := some (call.result progList)

/-- A call leaves the names that were stored, or one more. -/
theorem ProgCall.mem_result {call : ProgCall} {execname : List UInt8}
    (h : execname ∈ call.result progList) :
  execname ∈ progList ∨ ∃ name, execname = strncpy TASK_COMM_LEN name
  := by
  rcases call with ⟨allocated, _ | name⟩ | name | _
  · left
    apply h
  · rw [result] at h
    rcases registerProg_cases allocated name progList with ⟨-, heq⟩ | ⟨err, -, heq⟩
    · rw [heq, mem_cons] at h
      rcases h with rfl | h
      · right
        use name
      · left
        apply h
    · rw [heq] at h
      left
      apply h
  · rw [result] at h
    left
    rcases unregisterProg_cases name progList with ⟨-, heq⟩ | ⟨err, -, heq⟩
    · rw [heq] at h
      apply mem_of_mem_eraseP h
    · rw [heq] at h
      apply h
  · cases h

/-- Every name of the list is what `strncpy` has stored. -/
theorem stored_of_reach (h : progCalls.Reach Machine.anyStep progList) :
  ∀ execname ∈ progList, strncpy TASK_COMM_LEN execname = execname
  := by
  apply h.invariant
  · rintro _ rfl
    simp
  · intro progList call progList' ih _ hs execname hm
    obtain rfl := Option.some.inj hs
    rcases call.mem_result hm with hm | ⟨name, rfl⟩
    · apply ih execname hm
    · simp

/-- The entries in memory, with the links behind each name. -/
def entries (progList : List (List UInt8)) (links : List ListHead) :
    List Prog :=
  List.zipWith Prog.ofName progList links

theorem map_execname_entries {links : List ListHead} (hlen : links.length = progList.length)
    (hsto : ∀ execname ∈ progList, strncpy TASK_COMM_LEN execname = execname) :
  (entries progList links).map Prog.execname = progList
  := by
  induction progList generalizing links with
  | nil => rfl
  | cons name progList ih =>
    rcases links with _ | ⟨l, links⟩
    · cases hlen
    rw [forall_mem_cons] at hsto
    have ih := ih (Nat.succ.inj hlen) hsto.2
    simp only [entries, zipWith_cons_cons, map_cons] at ih ⊢
    rw [ih]
    apply congrArg (· :: progList) hsto.1

/-- The list of programs is read faithfully, and within the buffer of the reader, exactly
when there is a program, every name is terminated, and the reader asks for what follows the
beginning or the listing fits in its buffer. -/
theorem listing_faithful_iff {progList : List (List UInt8)}
    (h : progCalls.Reach Machine.anyStep progList) (links : List ListHead)
    (hlen : links.length = progList.length) (buffer : Block) (offset : ℤ) :
  ((∃ result, progListe (entries progList links) = some result ∧
        text result = some (lines (progList.map (List.take TASK_COMM_LEN)))) ∧
      (auditsecProcProgramsRead buffer offset (entries progList links)).isSome) ↔
    progList ≠ [] ∧ (∀ p ∈ entries progList links, p.Terminated) ∧
      (0 < offset ∨ (lines progList).length + 1 ≤ buffer.length)
  := by
  have hsto := stored_of_reach h
  have hns := map_execname_entries hlen hsto
  have htake : progList.map (List.take TASK_COMM_LEN) = progList := by
    have hn : ∀ name ∈ progList, name.take TASK_COMM_LEN = id name := by
      intro name hm
      apply take_of_length_le
      rw [← hsto name hm]
      apply length_take_le
    rw [map_congr_left hn, map_id]
  have hnil : entries progList links ≠ [] ↔ progList ≠ [] := by
    rw [← hns, ne_eq, ne_eq, map_eq_nil_iff, hns]
  have hfai := faithful_iff (entries progList links)
  rw [Faithful, hns, hnil] at hfai
  rw [htake, hfai, and_assoc]
  apply and_congr_right
  intro hne
  apply and_congr_right
  intro ht
  have hread := auditsecProcProgramsRead_isSome_iff
    ((faithful_iff _).mpr ⟨hnil.mpr hne, ht⟩) buffer offset
  rwa [hns] at hread

/-- Links whose first byte is zero. -/
def zeroLinks : ListHead := Vector.replicate sizeofListHead 0

/-- Links whose second byte is zero. -/
def someLinks : ListHead := zeroLinks.set 0 1

/-- The list with one program of one letter, read into a buffer of three bytes. -/
theorem listing_faithful_oneLetter :
  progCalls.Reach Machine.anyStep [[97]] ∧
    (∃ result, progListe (entries [[97]] [someLinks]) = some result ∧
      text result = some [97, newline]) ∧
    (auditsecProcProgramsRead (kmalloc 3) 0 (entries [[97]] [someLinks])).isSome
  := by
  have hrch : progCalls.Reach Machine.anyStep [[97]] :=
    Machine.Reach.step (a := .register true (some [97])) (Machine.Reach.init rfl) trivial rfl
  exact ⟨hrch, (listing_faithful_iff hrch [someLinks] rfl (kmalloc 3) 0).mpr (by decide)⟩

/-- Nothing is printed for an empty list, and the string in the buffer is not defined; the
bytes of the links are printed after a name of sixteen letters; and a buffer of one byte is
not enough for any program. -/
theorem listing_unfaithful :
  (progCalls.Reach Machine.anyStep [] ∧
      (progListe (entries [] [])).bind text = none) ∧
    (progCalls.Reach Machine.anyStep [List.replicate 16 97] ∧
      ¬ Faithful (entries [List.replicate 16 97] [someLinks])) ∧
    (progCalls.Reach Machine.anyStep [[97]] ∧
      auditsecProcProgramsRead (kmalloc 1) 0 (entries [[97]] [zeroLinks]) = none)
  := by
  refine ⟨⟨Machine.Reach.init rfl, rfl⟩, ⟨?_, ?_⟩, ?_, ?_⟩
  · apply Machine.Reach.step (a := .register true (some (List.replicate 20 97)))
      (Machine.Reach.init rfl) trivial rfl
  · rw [faithful_iff]
    decide
  · apply Machine.Reach.step (a := .register true (some [97])) (Machine.Reach.init rfl) trivial rfl
  · rw [← Option.not_isSome_iff_eq_none,
      auditsecProcProgramsRead_isSome_iff ((faithful_iff _).mpr (by decide))]
    decide

end Kernel

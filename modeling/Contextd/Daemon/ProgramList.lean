import Contextd.Kernel.Registration
import Mathlib.Data.Set.Insert

/-!
# The list of programs in the kernel

`KernelContext` registers the programs of `program.d` when it is constructed, and in
`reloadProgramList` registers the new names and unregisters those that are left of the last list.
Two files may give the same name, so that some of the calls fail.  The constructor and every reload
leave the names of the last listing in the kernel (`Tracks`, `tracks_of_reloads`).
-/

namespace Daemon

open List Kernel

/-! ### Strings and listings -/

/-- `QString::chop`. -/
def chop (n : ℕ) (s : String) : String := String.ofList (s.toList.take (s.toList.length - n))

/-- The byte of a character in Latin-1, a question mark when there is none. -/
def latin1Byte (c : Char) : UInt8 := if c.toNat < 256 then UInt8.ofNat c.toNat else 63

/-- `QString::toAscii`, which is Latin-1. -/
def toAscii (s : String) : List UInt8 := s.toList.map latin1Byte

/-- `QStringList::removeAll`. -/
def removeAll (s : String) (l : List String) : List String := l.filter (· ≠ s)

/-- `KernelContext::clearProgList`. -/
def clearProgList (l : List String) : List String :=
  removeAll "claws-mail.xml" (removeAll "firefox.xml" (removeAll "context-notify.xml"
    (removeAll ".." (removeAll "." l))))

/-- The names of the programs of a listing of `program.d`. -/
def programNames (listing : List String) : List String := (clearProgList listing).map (chop 4)

/-! ### The daemon -/

/-- The kernel, and the list `_programList` of the daemon. -/
structure ProgramLists where
  kernel : Kernel.State
  programList : List String

/-- `auditsec_register` of the daemon, which has the thread group `tgid`; memory is
allocated. -/
def auditsecRegister (tgid : ℕ) (state : Int) (prog : Option String) (k : Kernel.State) :
    Kernel.State × Int :=
  sysAuditsecReg tgid state (prog.map toAscii) true k

namespace ProgramLists

/-- The turn of the constructor for a name. -/
def registerFirst (tgid : ℕ) (s : ProgramLists) (name : String) : ProgramLists :=
  let (k, r) := auditsecRegister tgid 1 (some name) s.kernel
  if r ≠ 1 then { s with kernel := k }
  else { kernel := k, programList := s.programList ++ [name] }

/-- The constructor `KernelContext::KernelContext`, or `none` when it is fatal that the daemon
cannot be registered. -/
def construct (tgid : ℕ) (k : Kernel.State) (listing : List String) : Option ProgramLists :=
  let (k, r) := auditsecRegister tgid 1 none k
  if r ≠ 1 then none
  else some ((programNames listing).foldl (registerFirst tgid) ⟨k, []⟩)

/-- The turn of `reloadProgramList` for a name of the new list. -/
def keepOrRegister (tgid : ℕ) (s : ProgramLists) (name : String) : ProgramLists :=
  if name ∈ s.programList then { s with programList := removeAll name s.programList }
  else { s with kernel := (auditsecRegister tgid 1 (some name) s.kernel).1 }

/-- `KernelContext::reloadProgramList`. -/
def reloadProgramList (tgid : ℕ) (s : ProgramLists) (listing : List String) : ProgramLists :=
  let tmpProgramList := programNames listing
  let s := tmpProgramList.foldl (keepOrRegister tgid) s
  { kernel :=
      s.programList.foldl (fun k name => (auditsecRegister tgid 0 (some name) k).1) s.kernel
    programList := tmpProgramList }

end ProgramLists

/-! ### Names -/

/-- A name that `toAscii` and the kernel keep: ASCII characters other than the zero, less than
the kernel compares. -/
structure IsProgramName (name : String) : Prop where
  ascii : ∀ c ∈ name.toList, 0 < c.toNat ∧ c.toNat < 128
  length_lt : name.toList.length < TASK_COMM_LEN

/-- The name of a file of which the name of a program is a part. -/
structure IsFileName (file : String) : Prop where
  ascii : ∀ c ∈ file.toList, 0 < c.toNat ∧ c.toNat < 128
  length_lt : file.toList.length < 20

/-- The name without the last four characters. -/
theorem IsFileName.chop {file : String} (h : IsFileName file) :
  IsProgramName (chop 4 file)
  := by
  have hlen := h.length_lt
  constructor
  · intro c hc
    rw [Daemon.chop, String.toList_ofList] at hc
    apply h.ascii c (mem_of_mem_take hc)
  · rw [Daemon.chop, String.toList_ofList, length_take, TASK_COMM_LEN]
    omega

/-- The programs that a listing has: five of its entries are not files of programs, and the
others are the names of programs with four more characters. -/
def listedPrograms (listing : List String) : Set String :=
  {name | ∃ file ∈ listing,
    file ∉ [".", "..", "context-notify.xml", "firefox.xml", "claws-mail.xml"] ∧
      chop 4 file = name}

theorem mem_programNames {listing : List String} {name : String} :
  name ∈ programNames listing ↔ name ∈ listedPrograms listing
  := by
  rw [programNames, mem_map]
  apply exists_congr
  intro file
  simp only [clearProgList, removeAll, mem_filter, decide_eq_true_eq, mem_cons,
    not_mem_nil, or_false, not_or, ne_eq, and_assoc]

theorem isProgramName_of_mem {listing : List String} (h : ∀ file ∈ listing, IsFileName file)
    {name : String} (hn : name ∈ programNames listing) :
  IsProgramName name
  := by
  obtain ⟨file, hf, -, rfl⟩ := mem_programNames.mp hn
  apply (h file hf).chop

theorem toNat_latin1Byte {c : Char} (h : c.toNat < 128) :
  (latin1Byte c).toNat = c.toNat
  := by
  rw [latin1Byte, if_pos (by omega), UInt8.toNat_ofNat']
  omega

/-- The kernel stores the bytes of a program name. -/
theorem IsProgramName.strncpy {name : String} (h : IsProgramName name) :
  strncpy TASK_COMM_LEN (toAscii name) = toAscii name
  := by
  have hlen : (toAscii name).length < TASK_COMM_LEN := by
    rw [toAscii, length_map]
    apply h.length_lt
  rw [strncpy_eq, cstring_eq_self, take_of_length_le hlen.le]
  intro b hb hzero
  obtain ⟨c, hc, rfl⟩ := mem_map.mp hb
  obtain ⟨hpos, hlt⟩ := h.ascii c hc
  have hnat := toNat_latin1Byte hlt
  rw [hzero] at hnat
  apply absurd hnat hpos.ne

/-- ASCII names are told apart by their bytes. -/
theorem toAscii_inj {name name' : String} (h : IsProgramName name) (h' : IsProgramName name')
    (heq : toAscii name = toAscii name') :
  name = name'
  := by
  have hnats : ∀ {n : String}, IsProgramName n →
      (toAscii n).map UInt8.toNat = n.toList.map Char.toNat := by
    intro n hn
    rw [toAscii, map_map]
    apply map_congr_left
    intro c hc
    apply toNat_latin1Byte (hn.ascii c hc).2
  have hchars : name.toList.map Char.toNat = name'.toList.map Char.toNat := by
    rw [← hnats h, ← hnats h', heq]
  apply String.toList_inj.mp
  apply map_injective_iff.mpr _ hchars
  intro c c' hc
  apply Char.toNat_inj.mp hc

/-! ### What the kernel has -/

/-- The process is the daemon, and the kernel has the names of a set of programs. -/
structure Tracks (tgid : ℕ) (names : Set String) (k : Kernel.State) : Prop where
  pid : k.contextdPid = tgid
  programs : ∀ name ∈ names, IsProgramName name
  nodup : k.progList.Nodup
  mem : ∀ execname, execname ∈ k.progList ↔ ∃ name ∈ names, toAscii name = execname

section

variable {tgid : ℕ} {names : Set String} {k : Kernel.State} {name : String}

/-- The stored names are copies of themselves. -/
theorem Tracks.stored (h : Tracks tgid names k) :
  ∀ execname ∈ k.progList, strncpy TASK_COMM_LEN execname = execname
  := by
  intro execname hm
  obtain ⟨n, hn, rfl⟩ := (h.mem execname).mp hm
  apply (h.programs n hn).strncpy

/-- A program name is in the kernel exactly when it is in the set. -/
theorem Tracks.mem_iff (h : Tracks tgid names k) (hname : IsProgramName name) :
  toAscii name ∈ k.progList ↔ name ∈ names
  := by
  rw [h.mem]
  constructor
  · rintro ⟨n, hn, heq⟩
    rw [← toAscii_inj (h.programs n hn) hname heq]
    apply hn
  · intro hn
    exact ⟨name, hn, rfl⟩

theorem Tracks.compares_iff (h : Tracks tgid names k) (hn : IsProgramName name) :
  (k.progList.any fun execname => strncmpEq TASK_COMM_LEN execname (toAscii name)) = true ↔
    name ∈ names
  := by
  rw [any_strncmpEq_iff h.stored, hn.strncpy, h.mem_iff hn]

/-- The call of the daemon that registers a program. -/
theorem auditsecRegister_one (hpid : k.contextdPid = tgid) (name : String) :
  auditsecRegister tgid 1 (some name) k =
    ({ k with progList := (registerProg true (some (toAscii name)) k.progList).1 },
      if (registerProg true (some (toAscii name)) k.progList).2 = 0 then 1 else -EFAULT)
  := by
  unfold auditsecRegister sysAuditsecReg
  rw [if_neg (by omega), if_pos hpid, if_pos rfl]
  simp only [Option.map_some]
  split_ifs <;> rfl

/-- The call of the daemon that unregisters a program. -/
theorem auditsecRegister_zero (hpid : k.contextdPid = tgid) (name : String) :
  (auditsecRegister tgid 0 (some name) k).1 =
    { k with progList := (unregisterProg (toAscii name) k.progList).1 }
  := by
  unfold auditsecRegister sysAuditsecReg
  rw [if_neg (by omega), if_pos hpid, if_neg (by decide), if_pos rfl]
  simp only [Option.map_some]
  split_ifs <;> rfl

/-- Registering a program adds its name, and succeeds when it was not there. -/
theorem Tracks.register (h : Tracks tgid names k) (hname : IsProgramName name) :
  Tracks tgid (insert name names) (auditsecRegister tgid 1 (some name) k).1 ∧
    ((auditsecRegister tgid 1 (some name) k).2 = 1 ↔ name ∉ names)
  := by
  rw [auditsecRegister_one h.pid, registerProg]
  by_cases hm : name ∈ names
  · rw [if_pos ((h.compares_iff hname).mpr hm), Set.insert_eq_of_mem hm]
    exact ⟨h, by simp [hm, EFAULT]⟩
  · rw [if_neg (by rw [h.compares_iff hname]; apply hm), if_pos rfl, hname.strncpy]
    refine ⟨⟨h.pid, ?_, ?_, ?_⟩, by simp [hm]⟩
    · rintro n (rfl | hn)
      · apply hname
      · apply h.programs n hn
    · apply nodup_cons.mpr ⟨_, h.nodup⟩
      rw [h.mem_iff hname]
      apply hm
    · intro execname
      rw [mem_cons, h.mem, Set.exists_mem_insert]
      apply or_congr_left eq_comm

/-- Unregistering a program removes its name. -/
theorem Tracks.unregister (h : Tracks tgid names k) (hname : IsProgramName name) :
  Tracks tgid (names \ {name}) (auditsecRegister tgid 0 (some name) k).1
  := by
  have hlist : (unregisterProg (toAscii name) k.progList).1 = k.progList.erase (toAscii name) := by
    rw [unregisterProg]
    split_ifs with hemp hany
    · rw [isEmpty_iff.mp hemp]
      rfl
    · rw [eraseP_strncmpEq h.stored, hname.strncpy]
    · rw [erase_of_not_mem]
      rw [h.compares_iff hname] at hany
      rw [h.mem_iff hname]
      apply hany
  rw [auditsecRegister_zero h.pid, hlist]
  refine ⟨h.pid, fun n hn => h.programs n hn.1, h.nodup.erase _, ?_⟩
  intro execname
  rw [h.nodup.mem_erase_iff, h.mem]
  constructor
  · rintro ⟨hne, n, hn, rfl⟩
    refine ⟨n, ⟨hn, ?_⟩, rfl⟩
    rintro rfl
    apply hne rfl
  · rintro ⟨n, ⟨hn, hne⟩, rfl⟩
    refine ⟨?_, n, hn, rfl⟩
    intro heq
    apply hne (toAscii_inj (h.programs n hn) hname heq)

/-- Unregistering the names of a list. -/
theorem Tracks.unregisterAll {l : List String} (h : Tracks tgid names k)
    (hl : ∀ name ∈ l, IsProgramName name) :
  Tracks tgid (names \ {name | name ∈ l})
    (l.foldl (fun k name => (auditsecRegister tgid 0 (some name) k).1) k)
  := by
  induction l generalizing names k with
  | nil =>
    have hset : names \ {name | name ∈ ([] : List String)} = names := by
      ext n
      simp
    rw [hset]
    apply h
  | cons name l ih =>
    obtain ⟨hn, hl⟩ := forall_mem_cons.mp hl
    have hr := ih (h.unregister hn) hl
    have hset : (names \ {name}) \ {n | n ∈ l} = names \ {n | n ∈ name :: l} := by
      ext n
      simp [and_assoc]
    rw [hset] at hr
    apply hr

end

/-! ### The daemon keeps its list -/

namespace ProgramLists

/-- The kernel has a set of programs, and the list of the daemon has the same ones. -/
structure InStep (tgid : ℕ) (names : Set String) (s : ProgramLists) : Prop where
  tracks : Tracks tgid names s.kernel
  list : ∀ name, name ∈ s.programList ↔ name ∈ names

section

variable {tgid : ℕ} {names : Set String} {s : ProgramLists} {k : Kernel.State}

theorem InStep.registerFirst (h : s.InStep tgid names) {name : String} (hn : IsProgramName name) :
  (s.registerFirst tgid name).InStep tgid (insert name names)
  := by
  obtain ⟨htracks, hres⟩ := h.tracks.register hn
  simp only [ProgramLists.registerFirst]
  split_ifs with hr
  · have hm : name ∈ names := by
      by_contra hm
      apply hr (hres.mpr hm)
    refine ⟨htracks, ?_⟩
    rw [Set.insert_eq_of_mem hm]
    apply h.list
  · refine ⟨htracks, ?_⟩
    intro n
    rw [mem_append, h.list, mem_singleton, Set.mem_insert_iff, or_comm]

theorem InStep.registerAll {l : List String} (h : s.InStep tgid names)
    (hl : ∀ name ∈ l, IsProgramName name) :
  (l.foldl (ProgramLists.registerFirst tgid) s).InStep tgid (names ∪ {name | name ∈ l})
  := by
  induction l generalizing names s with
  | nil => simpa using h
  | cons name l ih =>
    obtain ⟨hn, hl⟩ := forall_mem_cons.mp hl
    have hr := ih (h.registerFirst hn) hl
    have hset : insert name names ∪ {n | n ∈ l} = names ∪ {n | n ∈ name :: l} := by
      ext n
      simp
      tauto
    rw [hset] at hr
    apply hr

/-- The constructor registers the programs of the listing. -/
theorem exists_construct {listing : List String} (hpid : k.contextdPid = -1)
    (hemp : k.progList = []) (hfiles : ∀ file ∈ listing, IsFileName file) :
  ∃ s, construct tgid k listing = some s ∧
    s.InStep tgid {name | name ∈ programNames listing}
  := by
  have hlaunch : auditsecRegister tgid 1 none k =
      ({ k with contextdPid := tgid, daemonLaunched := true }, 1) := by
    unfold auditsecRegister sysAuditsecReg
    rw [if_pos hpid, if_pos rfl]
    rfl
  have hst : InStep tgid ∅ ⟨{ k with contextdPid := tgid, daemonLaunched := true }, []⟩ := by
    refine ⟨⟨rfl, by simp, ?_, ?_⟩, by simp⟩
    · simp [hemp]
    · simp [hemp]
  have hall := hst.registerAll fun name => isProgramName_of_mem hfiles
  rw [Set.empty_union] at hall
  refine ⟨_, ?_, hall⟩
  rw [construct, hlaunch]
  rfl

/-- In the first loop of a reload, the names of the new list that were registered are taken
off the old list, and the others are registered. -/
structure Turning (tgid : ℕ) (names done : Set String) (s : ProgramLists) : Prop where
  tracks : Tracks tgid (names ∪ done) s.kernel
  list : ∀ name, name ∈ s.programList ↔ name ∈ names ∧ name ∉ done

theorem Turning.keepOrRegister {done : Set String} (h : s.Turning tgid names done) {name : String}
    (hname : IsProgramName name) :
  (s.keepOrRegister tgid name).Turning tgid names (insert name done)
  := by
  have hset : names ∪ insert name done = insert name (names ∪ done) := Set.union_insert
  rw [ProgramLists.keepOrRegister]
  split_ifs with hm
  · have hns := ((h.list name).mp hm).1
    constructor
    · rw [hset, Set.insert_eq_of_mem (Set.mem_union_left _ hns)]
      apply h.tracks
    · intro n
      simp only [removeAll, mem_filter, h.list, decide_eq_true_eq, Set.mem_insert_iff]
      tauto
  · constructor
    · rw [hset]
      apply (h.tracks.register hname).1
    · intro n
      rw [h.list] at hm
      simp only [h.list, Set.mem_insert_iff]
      constructor
      · rintro ⟨hn, hdone⟩
        refine ⟨hn, ?_⟩
        rintro (rfl | hdone')
        · apply hm ⟨hn, hdone⟩
        · apply hdone hdone'
      · rintro ⟨hn, hdone⟩
        exact ⟨hn, fun hdone' => hdone (Or.inr hdone')⟩

theorem Turning.foldl {done : Set String} {l : List String} (h : s.Turning tgid names done)
    (hl : ∀ name ∈ l, IsProgramName name) :
  (l.foldl (ProgramLists.keepOrRegister tgid) s).Turning tgid names (done ∪ {name | name ∈ l})
  := by
  induction l generalizing done s with
  | nil => simpa using h
  | cons name l ih =>
    obtain ⟨hn, hl⟩ := forall_mem_cons.mp hl
    have hr := ih (h.keepOrRegister hn) hl
    have hset : insert name done ∪ {n | n ∈ l} = done ∪ {n | n ∈ name :: l} := by
      ext n
      simp
      tauto
    rw [hset] at hr
    apply hr

/-- A reload leaves the programs of the new listing. -/
theorem InStep.reloadProgramList (h : s.InStep tgid names) {listing : List String}
    (hfiles : ∀ file ∈ listing, IsFileName file) :
  (s.reloadProgramList tgid listing).InStep tgid {name | name ∈ programNames listing}
  := by
  have hns : ∀ name ∈ programNames listing, IsProgramName name :=
    fun name => isProgramName_of_mem hfiles
  have hst : s.Turning tgid names ∅ := by
    refine ⟨?_, ?_⟩
    · rw [Set.union_empty]
      apply h.tracks
    · simpa using h.list
  have hturned := hst.foldl hns
  rw [Set.empty_union] at hturned
  have hleft := hturned.tracks.unregisterAll fun name hn =>
    h.tracks.programs name ((hturned.list name).mp hn).1
  refine ⟨?_, fun name => Iff.rfl⟩
  have hset : (names ∪ {name | name ∈ programNames listing}) \
      {name | name ∈ ((programNames listing).foldl (keepOrRegister tgid) s).programList} =
        {name | name ∈ programNames listing} := by
    ext n
    simp [hturned.list]
    tauto
  rw [hset] at hleft
  apply hleft

end

/-- The daemon after the constructor and any number of reloads. -/
def reloads (tgid : ℕ) (k : Kernel.State) (first : List String) (later : List (List String)) :
    Option ProgramLists :=
  (construct tgid k first).map fun s => later.foldl (reloadProgramList tgid) s

end ProgramLists

/-- From a kernel that no daemon is registered with, the constructor succeeds; and after it and
after every reload, the names registered in the kernel are those of the programs that the last
listing has, and so are those of `_programList`. -/
theorem tracks_of_reloads {r : Registry} (hrch : registry.Reach Machine.anyStep r)
    (hpid : r.kernel.contextdPid = -1) (tgid : ℕ) (first : List String) (later : List (List String))
    (hfiles : ∀ listing ∈ first :: later, ∀ file ∈ listing, IsFileName file) :
  ∃ s, ProgramLists.reloads tgid r.kernel first later = some s ∧
    (∀ execname, execname ∈ s.kernel.progList ↔
      ∃ name ∈ listedPrograms ((first :: later).getLast (cons_ne_nil _ _)),
        toAscii name = execname) ∧
    (∀ name, name ∈ s.programList ↔
      name ∈ listedPrograms ((first :: later).getLast (cons_ne_nil _ _)))
  := by
  obtain ⟨hfst, hlat⟩ := forall_mem_cons.mp hfiles
  obtain ⟨s, hs, hstep⟩ := @ProgramLists.exists_construct tgid _ first hpid
    ((Registry.inv_of_reach hrch).empty hpid) hfst
  have hall : (later.foldl (ProgramLists.reloadProgramList tgid) s).InStep tgid
      {name | name ∈ programNames ((first :: later).getLast (cons_ne_nil _ _))} := by
    clear hs hfiles
    induction later generalizing s first with
    | nil => apply hstep
    | cons listing later ih =>
      obtain ⟨hlst, hlat⟩ := forall_mem_cons.mp hlat
      rw [getLast_cons_cons]
      apply ih listing hlst hlat _ (hstep.reloadProgramList hlst)
  simp only [mem_programNames] at hall
  refine ⟨_, ?_, hall.tracks.mem, hall.list⟩
  rw [ProgramLists.reloads, hs]
  rfl

/-- A reload at which a name is given by two files, and one at which the files are gone and two
entries are not files of programs. -/
theorem tracks_of_reloads_twice :
  ∃ s, ProgramLists.reloads 7 auditsecInit [".", "..", "ls.xml"]
      [["ls.txt", "ls.xml", "cat.xml"], [".", "cat.xml", "firefox.xml"]] = some s ∧
    (∀ name, name ∈ s.programList ↔ name = "cat")
  := by
  obtain ⟨s, hs, -, hlist⟩ := @tracks_of_reloads ⟨auditsecInit, []⟩ (.init rfl) rfl 7
    [".", "..", "ls.xml"] [["ls.txt", "ls.xml", "cat.xml"], [".", "cat.xml", "firefox.xml"]] (by
      intro listing hlst file hf
      constructor
      · revert listing file
        decide
      · revert listing file
        decide)
  use s, hs
  intro name
  rw [hlist]
  constructor
  · rintro ⟨file, hf, hoth, rfl⟩
    revert file
    decide
  · rintro rfl
    exact ⟨"cat.xml", by decide, by decide, rfl⟩

end Daemon

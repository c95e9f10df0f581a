import Contextd.Machine
import Contextd.Kernel.Share

/-!
# Registration of the daemon and of the programs

`sys_auditsec_reg` and the handler of `/proc/contextd/status`, as functions on the shared state. Any
processes call them in any order (`registry`), and a log of what the calls achieved is kept.
`sysAuditsecReg_cases` says what a call can do.  `Registry.Inv` is what all of them keep: the daemon
is launched exactly when a process is recorded, no program is monitored without a daemon, and the
stored names are the ones the log says are registered.
-/

namespace Kernel

/-! ### The list of programs -/

/-- `register_prog`, where `allocated` tells whether `kmalloc` succeeds: the new list, and
the value returned. -/
def registerProg (allocated : Bool) (progName : Option (List UInt8))
    (progList : List (List UInt8)) : List (List UInt8) × Int :=
  match progName with
  | none => (progList, -EFAULT)
  | some name =>
      if progList.any fun execname => strncmpEq TASK_COMM_LEN execname name then
        (progList, -EFAULT)
      else if allocated then (strncpy TASK_COMM_LEN name :: progList, 0)
      else (progList, -ENOMEM)

/-- `unregister_prog`: the first entry that compares equal is removed. -/
def unregisterProg (progName : List UInt8) (progList : List (List UInt8)) :
    List (List UInt8) × Int :=
  if progList.isEmpty then (progList, -1)
  else if progList.any fun execname => strncmpEq TASK_COMM_LEN execname progName then
    (progList.eraseP fun execname => strncmpEq TASK_COMM_LEN execname progName, 0)
  else (progList, -1)

/-- Registering a program puts its name in front, when no entry compares equal to it, or
fails and leaves the list. -/
theorem registerProg_cases (allocated : Bool) (name : List UInt8) (progList : List (List UInt8)) :
  (¬ (progList.any fun execname => strncmpEq TASK_COMM_LEN execname name) ∧
      registerProg allocated (some name) progList =
        (strncpy TASK_COMM_LEN name :: progList, 0)) ∨
    ∃ err, err ≠ 0 ∧ registerProg allocated (some name) progList = (progList, err)
  := by
  simp only [registerProg]
  split_ifs with hany halloc
  · right
    use -EFAULT, neg_EFAULT_ne_zero
  · left
    use hany
  · right
    use -ENOMEM, by decide

/-- Unregistering a program removes an entry that compares equal to its name, or fails and
leaves the list. -/
theorem unregisterProg_cases (name : List UInt8) (progList : List (List UInt8)) :
  ((progList.any fun execname => strncmpEq TASK_COMM_LEN execname name) ∧
      unregisterProg name progList =
        (progList.eraseP fun execname => strncmpEq TASK_COMM_LEN execname name, 0)) ∨
    ∃ err, err ≠ 0 ∧ unregisterProg name progList = (progList, err)
  := by
  simp only [unregisterProg]
  split_ifs with hemp hany
  · right
    use -1, by decide
  · left
    use hany
  · right
    use -1, by decide

/-- `clean_prog_list`: every entry is removed. -/
def cleanProgList (_progList : List (List UInt8)) : List (List UInt8) := []

/-! ### The calls -/

/-- `sys_auditsec_reg` called by a process of thread group `tgid`: the new state, and the
value returned. -/
def sysAuditsecReg (tgid : ℕ) (state : Int) (processName : Option (List UInt8))
    (allocated : Bool) (k : State) : State × Int :=
  if k.contextdPid = -1 then
    if state = 1 then
      match processName with
      | none => ({ k with contextdPid := tgid, daemonLaunched := true }, 1)
      | some _ => (k, 0)
    else if state = 0 then (k, 0)
    else (k, -EFAULT)
  else if k.contextdPid = tgid then
    if state = 1 then
      match processName with
      | none => (k, 1)
      | some name =>
          let (progs, err) := registerProg allocated (some name) k.progList
          if err = 0 then ({ k with progList := progs }, 1)
          else ({ k with progList := progs }, -EFAULT)
    else if state = 0 then
      match processName with
      | none =>
          ({ k with
              contextdPid := -1
              daemonLaunched := false
              progList := cleanProgList k.progList }, 0)
      | some name =>
          let (progs, err) := unregisterProg name k.progList
          if err = 0 then ({ k with progList := progs }, 0)
          else ({ k with progList := progs }, -EFAULT)
    else (k, -EFAULT)
  else (k, -EFAULT)

/-- `simple_strtoul` in base 10: the digits are read on top of the value read so far, up to
the first character that is not a digit. -/
def simpleStrtoul : List UInt8 → UInt64 → UInt64
  | [], result => result
  | c :: cs, result =>
      if 48 ≤ c ∧ c ≤ 57 then simpleStrtoul cs (result * 10 + (c - 48).toUInt64) else result

/-- `simple_strtol` in base 10. -/
def simpleStrtol : List UInt8 → Int64
  | 45 :: cs => (-simpleStrtoul cs 0).toInt64
  | cs => (simpleStrtoul cs 0).toInt64

/-- `auditsec_proc_status_write` of a text, or of a buffer that cannot be read: the new
state, and the value returned. -/
def auditsecProcStatusWrite (buffer : Option (List UInt8)) (k : State) : State × Int :=
  match buffer with
  | none => (k, -EFAULT)
  | some text =>
      if simpleStrtol text = 0 then
        ({ k with
            daemonLaunched := false
            contextdPid := -1
            progList := cleanProgList k.progList }, text.length)
      else (k, text.length)

/-! ### What a call can do -/

/-- What `sys_auditsec_reg`, called by `tgid` with the given arguments, can do in state
`k`. -/
inductive RegEffect (k : State) (tgid : ℕ) : Int → Option (List UInt8) → State × Int → Prop where
  /-- The caller becomes the daemon. -/
  | launch : k.contextdPid = -1 →
      RegEffect k tgid 1 none ({ k with contextdPid := tgid, daemonLaunched := true }, 1)
  /-- There is no daemon, and the call does nothing. -/
  | off {state : Int} {name : Option (List UInt8)} {r : Int} : k.contextdPid = -1 →
      ¬ (state = 1 ∧ name = none) → r ≠ 1 → RegEffect k tgid state name (k, r)
  /-- The caller is the daemon already. -/
  | launched : k.contextdPid = tgid → RegEffect k tgid 1 none (k, 1)
  /-- The daemon registers a program. -/
  | register {name : List UInt8} : k.contextdPid = tgid →
      ¬ (k.progList.any fun execname => strncmpEq TASK_COMM_LEN execname name) →
      RegEffect k tgid 1 (some name)
        ({ k with progList := strncpy TASK_COMM_LEN name :: k.progList }, 1)
  /-- The daemon unregisters a program. -/
  | unregister {name : List UInt8} : k.contextdPid = tgid →
      (k.progList.any fun execname => strncmpEq TASK_COMM_LEN execname name) →
      RegEffect k tgid 0 (some name)
        ({ k with
            progList :=
              k.progList.eraseP fun execname => strncmpEq TASK_COMM_LEN execname name }, 0)
  /-- The daemon ends its registration. -/
  | stop : k.contextdPid = tgid →
      RegEffect k tgid 0 none
        ({ k with contextdPid := -1, daemonLaunched := false, progList := [] }, 0)
  /-- There is a daemon, and the call does nothing. -/
  | refused {state : Int} {name : Option (List UInt8)} : k.contextdPid ≠ -1 →
      RegEffect k tgid state name (k, -EFAULT)

/-- Every call of `sys_auditsec_reg` has one of its effects. -/
theorem sysAuditsecReg_effect (k : State) (tgid : ℕ) (state : Int)
    (name : Option (List UInt8)) (allocated : Bool) :
  RegEffect k tgid state name (sysAuditsecReg tgid state name allocated k)
  := by
  unfold sysAuditsecReg
  split_ifs with hn h1 h0 hc h1 h0
  · subst h1
    cases name with
    | none => apply RegEffect.launch hn
    | some name => apply RegEffect.off hn <;> simp
  · apply RegEffect.off hn <;> simp [h1]
  · apply RegEffect.off hn
    · simp [h1]
    · decide
  · subst h1
    cases name with
    | none => apply RegEffect.launched hc
    | some name =>
      rcases registerProg_cases allocated name k.progList with ⟨hany, heq⟩ | ⟨err, herr, heq⟩
      · simp only [heq, if_true]
        apply RegEffect.register hc hany
      · simp only [heq, if_neg herr]
        apply RegEffect.refused hn
  · subst h0
    cases name with
    | none => apply RegEffect.stop hc
    | some name =>
      rcases unregisterProg_cases name k.progList with ⟨hany, heq⟩ | ⟨err, herr, heq⟩
      · simp only [heq, if_true]
        apply RegEffect.unregister hc hany
      · simp only [heq, if_neg herr]
        apply RegEffect.refused hn
  · apply RegEffect.refused hn
  · apply RegEffect.refused hn

/-- A write to the status file ends the registration, or does nothing. -/
theorem auditsecProcStatusWrite_cases (buffer : Option (List UInt8)) (k : State) :
  (∃ text, buffer = some text ∧ simpleStrtol text = 0 ∧
      auditsecProcStatusWrite buffer k =
        ({ k with contextdPid := -1, daemonLaunched := false, progList := [] },
          (text.length : Int))) ∨
    (auditsecProcStatusWrite buffer k).1 = k ∧ ∀ text ∈ buffer, simpleStrtol text ≠ 0
  := by
  cases buffer with
  | none =>
    right
    simp [auditsecProcStatusWrite]
  | some text =>
    by_cases hzero : simpleStrtol text = 0
    · left
      use text, rfl, hzero
      simp only [auditsecProcStatusWrite, if_pos hzero]
      rfl
    · right
      simp [auditsecProcStatusWrite, hzero]

/-! ### The calls of all the processes -/

/-- What a call achieved, told from the value it returned. -/
inductive RegEvent where
  /-- A process became the daemon. -/
  | launched
  /-- There is no daemon any more. -/
  | stopped
  /-- The program of this name was registered. -/
  | registered (name : List UInt8)
  /-- The program of this name was unregistered. -/
  | unregistered (name : List UInt8)
  deriving DecidableEq, Repr

/-- The shared state, and the log of the calls that succeeded, the last one first. -/
structure Registry where
  kernel : State
  log : List RegEvent

namespace Registry

/-- A call: `sys_auditsec_reg` by a process of thread group `tgid`, or a write to the status
file. -/
inductive Call where
  | reg (tgid : ℕ) (state : Int) (processName : Option (List UInt8)) (allocated : Bool)
  | statusWrite (buffer : Option (List UInt8))
  deriving DecidableEq, Repr

/-- The new state after a call, and the value it returns. -/
def Call.exec (k : State) : Call → State × Int
  | .reg tgid state processName allocated => sysAuditsecReg tgid state processName allocated k
  | .statusWrite buffer => auditsecProcStatusWrite buffer k

/-- What a call made in state `k` that returned `r` achieved.  A registration returns `1`
and an unregistration `0`; the daemon that registers again is told `1` as well. -/
def Call.event? (k : State) (r : Int) : Call → Option RegEvent
  | .reg _ state none _ =>
      if state = 1 then if k.contextdPid = -1 then some .launched else none
      else if state = 0 ∧ r = 0 then some .stopped
      else none
  | .reg _ state (some name) _ =>
      if state = 1 ∧ r = 1 then some (.registered (cstring name))
      else if state = 0 ∧ r = 0 then some (.unregistered (cstring name))
      else none
  | .statusWrite buffer =>
      if ∃ text ∈ buffer, simpleStrtol text = 0 then some .stopped else none

/-- The state after a call. -/
def step (s : Registry) (call : Call) : Registry where
  kernel := (call.exec s.kernel).1
  log := (call.event? s.kernel (call.exec s.kernel).2).toList ++ s.log

/-- The last call of the log about the program `name`, since a daemon was registered or its
registration ended, is a registration. -/
def registeredIn (name : List UInt8) : List RegEvent → Bool
  | [] => false
  | .launched :: _ => false
  | .stopped :: _ => false
  | .registered n :: es => n == name || registeredIn name es
  | .unregistered n :: es => !(n == name) && registeredIn name es

end Registry

/-- The calls of any processes, in any order, from the state after `auditsec_init`. -/
def registry : Machine Registry Registry.Call where
  init s := s = ⟨auditsecInit, []⟩
  step s call := some (s.step call)

/-! ### What the calls keep -/

/-- What every call keeps. -/
structure Registry.Inv (s : Registry) : Prop where
  launched : s.kernel.daemonLaunched = true ↔ s.kernel.contextdPid ≠ -1
  empty : s.kernel.contextdPid = -1 → s.kernel.progList = []
  stored : ∀ execname ∈ s.kernel.progList, strncpy TASK_COMM_LEN execname = execname
  nodup : s.kernel.progList.Nodup
  registered : ∀ name, cstring name = name → name.length < TASK_COMM_LEN →
    (name ∈ s.kernel.progList ↔ registeredIn name s.log = true)

namespace Registry

variable {s : Registry}

/-- With no daemon, the log says that no program is registered. -/
theorem Inv.not_registeredIn (h : s.Inv) (hn : s.kernel.contextdPid = -1)
    {name : List UInt8} (ht : cstring name = name) (hlen : name.length < TASK_COMM_LEN) :
  registeredIn name s.log = false
  := by
  rw [← Bool.not_eq_true, ← h.registered name ht hlen, h.empty hn]
  apply List.not_mem_nil

/-- The end of a registration keeps the invariant. -/
theorem inv_stopped (k : State) (es : List RegEvent) :
  Inv ⟨{ k with contextdPid := -1, daemonLaunched := false, progList := [] }, .stopped :: es⟩
  := by
  constructor <;> simp [registeredIn]

/-- The registration of a daemon keeps the invariant. -/
theorem Inv.launch (h : s.Inv) (tgid : ℕ) (hn : s.kernel.contextdPid = -1) :
  Inv ⟨{ s.kernel with contextdPid := tgid, daemonLaunched := true }, .launched :: s.log⟩
  := by
  have hemp := h.empty hn
  have htgid : (tgid : Int) ≠ -1 := by omega
  constructor <;> simp [registeredIn, hemp, htgid]

/-- With no daemon, a call that can only be logged as the end of something keeps the
invariant. -/
theorem Inv.off (h : s.Inv) (hn : s.kernel.contextdPid = -1) {e : Option RegEvent}
    (he : e = none ∨ e = some .stopped ∨ ∃ name, e = some (.unregistered name)) :
  Inv ⟨s.kernel, e.toList ++ s.log⟩
  := by
  refine ⟨h.launched, h.empty, h.stored, h.nodup, ?_⟩
  intro name ht hlen
  have hlog := h.not_registeredIn hn ht hlen
  rw [h.registered name ht hlen, hlog]
  rcases he with rfl | rfl | ⟨n, rfl⟩ <;> simp [registeredIn, hlog]

/-- The registration of a program keeps the invariant. -/
theorem Inv.register (h : s.Inv) {n : List UInt8} (hpid : s.kernel.contextdPid ≠ -1)
    (hany : ¬ (s.kernel.progList.any fun execname => strncmpEq TASK_COMM_LEN execname n)) :
  Inv
    ⟨{ s.kernel with progList := strncpy TASK_COMM_LEN n :: s.kernel.progList },
      .registered (cstring n) :: s.log⟩
  := by
  rw [any_strncmpEq_iff h.stored] at hany
  refine ⟨h.launched, fun hn => absurd hn hpid, ?_, ?_, ?_⟩
  · simpa using h.stored
  · apply List.nodup_cons.mpr ⟨hany, h.nodup⟩
  · intro name ht hlen
    rw [List.mem_cons, eq_comm, strncpy_eq_iff_of_length_lt hlen, h.registered name ht hlen]
    simp [registeredIn]

/-- The unregistration of a program keeps the invariant. -/
theorem Inv.unregister (h : s.Inv) {n : List UInt8} (hpid : s.kernel.contextdPid ≠ -1) :
  Inv
    ⟨{ s.kernel with
        progList :=
          s.kernel.progList.eraseP fun execname => strncmpEq TASK_COMM_LEN execname n },
      .unregistered (cstring n) :: s.log⟩
  := by
  rw [eraseP_strncmpEq h.stored]
  refine ⟨h.launched, fun hn => absurd hn hpid, ?_, ?_, ?_⟩
  · intro execname hm
    apply h.stored execname (List.mem_of_mem_erase hm)
  · apply h.nodup.erase
  · intro name ht hlen
    rw [h.nodup.mem_erase_iff, ne_comm, Ne, strncpy_eq_iff_of_length_lt hlen,
      h.registered name ht hlen]
    simp [registeredIn]

/-- Every call keeps the invariant. -/
theorem Inv.step (h : s.Inv) (call : Call) :
  (s.step call).Inv
  := by
  cases call with
  | statusWrite buffer =>
    rcases auditsecProcStatusWrite_cases buffer s.kernel with ⟨text, rfl, hzero, heq⟩ | ⟨heq, hne⟩
    · simp only [Registry.step, Call.exec, heq, Call.event?]
      rw [if_pos ⟨text, rfl, hzero⟩]
      apply inv_stopped
    · simp only [Registry.step, Call.exec, heq, Call.event?]
      rw [if_neg (by simpa using hne)]
      apply h
  | reg tgid state name allocated =>
    have heff := sysAuditsecReg_effect s.kernel tgid state name allocated
    have htgid : (tgid : Int) ≠ -1 := by omega
    simp only [Registry.step, Call.exec]
    generalize sysAuditsecReg tgid state name allocated s.kernel = out at heff ⊢
    cases heff with
    | launch hn =>
      simpa [Call.event?, hn] using h.launch tgid hn
    | off hn hargs hr =>
      apply h.off hn
      rcases name with _ | name <;> simp only [Call.event?] <;> grind
    | launched hpid =>
      simpa [Call.event?, hpid, htgid] using h
    | register hpid hany =>
      simpa [Call.event?] using h.register (hpid ▸ htgid) hany
    | unregister hpid hany =>
      simpa [Call.event?] using h.unregister (hpid ▸ htgid)
    | stop hpid =>
      simpa [Call.event?] using inv_stopped s.kernel s.log
    | refused hpid =>
      rcases name with _ | name <;> simpa [Call.event?, hpid, EFAULT] using h

/-- The invariant holds after any calls. -/
theorem inv_of_reach {guard : Registry → Call → Prop} (h : registry.Reach guard s) :
  s.Inv
  := by
  apply h.invariant
  · rintro _ rfl
    constructor <;> simp [auditsecInit, registeredIn]
  · intro s call _ ih _ hs
    obtain rfl := Option.some.inj hs
    apply ih.step

/-! ### The state machine of the registration -/

/-- The calls that may change who the daemon is and which programs are monitored: those of
the daemon, the registration of one when there is none, and the reset by the status
file. -/
def Call.Authorized (k : State) : Call → Prop
  | .reg tgid state processName _ =>
      k.contextdPid = tgid ∨ k.contextdPid = -1 ∧ state = 1 ∧ processName = none
  | .statusWrite buffer => ∃ text ∈ buffer, simpleStrtol text = 0

/-- No two entries of the list compare equal. -/
theorem Inv.pairwise (h : s.Inv) :
  s.kernel.progList.Pairwise fun p q => strncmpEq TASK_COMM_LEN p q = false
  := by
  apply h.nodup.imp_of_mem
  intro p q hp hq hne
  rw [← Bool.not_eq_true, strncmpEq_iff, h.stored p hp, h.stored q hq]
  apply hne

/-- After a program is unregistered, no entry compares equal to its name. -/
theorem Inv.unregistered (h : s.Inv) {tgid : ℕ} {name : List UInt8} {allocated : Bool}
    (hr : (sysAuditsecReg tgid 0 (some name) allocated s.kernel).2 = 0) :
  ∀ execname ∈ (sysAuditsecReg tgid 0 (some name) allocated s.kernel).1.progList,
    strncmpEq TASK_COMM_LEN execname name = false
  := by
  have heff := sysAuditsecReg_effect s.kernel tgid 0 (some name) allocated
  generalize sysAuditsecReg tgid 0 (some name) allocated s.kernel = out at heff hr ⊢
  cases heff with
  | off hn _ _ => simp [h.empty hn]
  | refused _ => apply absurd hr neg_EFAULT_ne_zero
  | unregister hpid hany =>
    intro execname hm
    simp only [eraseP_strncmpEq h.stored] at hm
    obtain ⟨hne, hm⟩ := h.nodup.mem_erase_iff.mp hm
    rw [← Bool.not_eq_true, strncmpEq_iff_eq (h.stored execname hm)]
    apply hne

/-- A call that is not authorized changes nothing. -/
theorem Call.exec_of_not_authorized {k : State} {call : Call} (h : ¬ call.Authorized k) :
  (call.exec k).1 = k
  := by
  cases call with
  | statusWrite buffer =>
    rcases auditsecProcStatusWrite_cases buffer k with ⟨text, rfl, hzero, -⟩ | ⟨heq, -⟩
    · apply absurd ⟨text, rfl, hzero⟩ h
    · apply heq
  | reg tgid state name allocated =>
    have heff := sysAuditsecReg_effect k tgid state name allocated
    simp only [Call.exec]
    generalize sysAuditsecReg tgid state name allocated k = out at heff ⊢
    cases heff with
    | launch hn => apply absurd (Or.inr ⟨hn, rfl, rfl⟩) h
    | register hpid _ | unregister hpid _ | stop hpid => apply absurd (Or.inl hpid) h
    | off _ _ _ | launched _ | refused _ => rfl

/-- A call that returns `-EFAULT` changes nothing. -/
theorem Call.exec_of_eq_neg_EFAULT {k : State} {call : Call} (h : (call.exec k).2 = -EFAULT) :
  (call.exec k).1 = k
  := by
  cases call with
  | statusWrite buffer =>
    rcases auditsecProcStatusWrite_cases buffer k with ⟨text, rfl, -, heq⟩ | ⟨heq, -⟩
    · simp only [Call.exec, heq, EFAULT] at h
      omega
    · apply heq
  | reg tgid state name allocated =>
    have heff := sysAuditsecReg_effect k tgid state name allocated
    simp only [Call.exec] at h ⊢
    generalize sysAuditsecReg tgid state name allocated k = out at heff h ⊢
    cases heff with
    | launch _ | register _ _ | unregister _ _ | stop _ => simp [EFAULT] at h
    | off _ _ _ | launched _ | refused _ => rfl

end Registry

open Registry in
/-- After any calls of any processes: a daemon is launched exactly when a process is
recorded; without one the list of programs is empty; no two entries of the list compare
equal, and unregistering a name leaves none that compares equal to it; only authorized
calls change the record and the list, and a call that returns `-EFAULT` changes neither;
and a name shorter than `TASK_COMM_LEN` is in the list exactly when the log says so. -/
theorem registration_of_reach {s : Registry} (h : registry.Reach Machine.anyStep s) :
  (s.kernel.daemonLaunched = true ↔ s.kernel.contextdPid ≠ -1) ∧
    (s.kernel.daemonLaunched = false → s.kernel.progList = []) ∧
    (s.kernel.progList.Pairwise fun p q => strncmpEq TASK_COMM_LEN p q = false) ∧
    (∀ (tgid : ℕ) (name : List UInt8) (allocated : Bool),
      (sysAuditsecReg tgid 0 (some name) allocated s.kernel).2 = 0 →
      ∀ execname ∈ (sysAuditsecReg tgid 0 (some name) allocated s.kernel).1.progList,
        strncmpEq TASK_COMM_LEN execname name = false) ∧
    (∀ call : Call,
      (call.exec s.kernel).1.contextdPid ≠ s.kernel.contextdPid ∨
        (call.exec s.kernel).1.progList ≠ s.kernel.progList →
      call.Authorized s.kernel) ∧
    (∀ call : Call, (call.exec s.kernel).2 = -EFAULT →
      (call.exec s.kernel).1.contextdPid = s.kernel.contextdPid ∧
        (call.exec s.kernel).1.daemonLaunched = s.kernel.daemonLaunched ∧
        (call.exec s.kernel).1.progList = s.kernel.progList) ∧
    ∀ name, cstring name = name → name.length < TASK_COMM_LEN →
      (name ∈ s.kernel.progList ↔ registeredIn name s.log = true)
  := by
  have hinv := inv_of_reach h
  refine ⟨hinv.launched, ?_, hinv.pairwise, ?_, ?_, ?_, hinv.registered⟩
  · intro hoff
    apply hinv.empty
    by_contra hpid
    rw [hinv.launched.mpr hpid] at hoff
    cases hoff
  · intro tgid name allocated hr
    apply hinv.unregistered hr
  · intro call hchange
    by_contra hc
    rw [Call.exec_of_not_authorized hc] at hchange
    simp at hchange
  · intro call hr
    rw [Call.exec_of_eq_neg_EFAULT hr]
    use rfl, rfl

open Registry in
/-- A daemon registers two programs and unregisters the first, which another process tried
to unregister before. -/
def registrySession : List Call :=
  [.reg 7 1 none true, .reg 7 1 (some [108, 115]) true, .reg 8 0 (some [108, 115]) true,
    .reg 7 1 (some [118, 105]) true, .reg 7 0 (some [108, 115]) true]

open Registry in
theorem registration_of_reach_session :
  ∃ s, registry.run ⟨auditsecInit, []⟩ registrySession = some s ∧
    s.kernel.contextdPid = 7 ∧ s.kernel.daemonLaunched = true ∧
    [118, 105] ∈ s.kernel.progList ∧ [108, 115] ∉ s.kernel.progList
  := by
  obtain ⟨s, hrun, hpid, hin, hout⟩ :
      ∃ s, registry.run ⟨auditsecInit, []⟩ registrySession = some s ∧
        s.kernel.contextdPid = 7 ∧ registeredIn [118, 105] s.log = true ∧
        registeredIn [108, 115] s.log = false := ⟨_, rfl, rfl, by decide, by decide⟩
  have hrch : registry.Reach Machine.anyStep s :=
    (Machine.Reach.init rfl).run registrySession (by decide) hrun
  obtain ⟨hlau, -, -, -, -, -, hlist⟩ := registration_of_reach hrch
  refine ⟨s, hrun, hpid, ?_, ?_, ?_⟩
  · apply hlau.mpr
    simp [hpid]
  · apply (hlist _ (by decide) (by decide)).mpr hin
  · rw [hlist _ (by decide) (by decide), hout]
    decide

end Kernel

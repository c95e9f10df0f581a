import Contextd.Kernel.Hooks
import Contextd.Kernel.Registration
import Contextd.Kernel.Syscall

/-!
# Any processes, and the one that is registered

Any number of tasks enter the hooks, call `sys_auditsec_question`, `sys_auditsec_answer` and
`sys_auditsec_reg`, and write the status file, in any interleaving (`service`).  Every copy of a
request to a process is recorded with the registration at the time of the copy (`Delivery`).

A caller of `sys_auditsec_question` is compared with the registered process before it waits, and not
after.  So the requests go to the registered process as long as no process loses its registration
between the two (`delivered_to_daemon`, `delivered_to_predecessor`).
-/

namespace Kernel

/-- What a task is doing. -/
inductive TaskPc where
  | user
  | hook (pc : HookPc)
  | syscall (pc : SyscallPc)

/-- A copy of the request record to the process `receiver`, with the registration at that
time. -/
structure Delivery where
  receiver : ℕ
  info : AuditsecInfo
  contextdPid : Int
  daemonLaunched : Bool

/-- The state of the module, what each task is doing, the buffers of the tasks that ask,
the number of calls of hooks so far, and the copies made. -/
structure Service where
  kernel : State
  tasks : ℕ → TaskPc
  buffers : ℕ → AuditsecInfo
  calls : ℕ
  deliveries : List Delivery

namespace Service

/-- An action of a task: it enters a hook or a system call, takes the next step of it,
calls `sys_auditsec_reg`, or writes the status file. -/
inductive Action where
  | enterHook (t : ℕ) (current : Task) (args : HookArgs)
  | hook (t : ℕ) (choice : HookChoice)
  | enterQuestion (t : ℕ)
  | enterAnswer (t : ℕ) (v : Int)
  | syscall (t : ℕ) (choice : SyscallChoice)
  | reg (t : ℕ) (state : Int) (processName : Option (List UInt8)) (allocated : Bool)
  | statusWrite (t : ℕ) (buffer : Option (List UInt8))

/-- The task goes on with `pc`. -/
def goto (s : Service) (t : ℕ) (pc : TaskPc) : Service :=
  { s with tasks := Function.update s.tasks t pc }

/-- A step of a hook of task `t`. -/
def stepHook (s : Service) (t : ℕ) (choice : HookChoice) (pc : HookPc) : Option Service :=
  (hookStep t choice s.kernel pc).map fun (k, pc') =>
    { s.goto t (match pc' with | .idle => .user | pc' => .hook pc') with kernel := k }

/-- The copy a step of a system call makes. -/
def copied (s : Service) (receiver : ℕ) (choice : SyscallChoice) : SyscallPc → List Delivery
  | .questionCopy =>
      match choice with
      | .go => [⟨receiver, s.kernel.info, s.kernel.contextdPid, s.kernel.daemonLaunched⟩]
      | _ => []
  | _ => []

/-- A step of a system call of task `t`, of thread group `tgid`. -/
def stepSyscall (s : Service) (tgid : ℕ) (t : ℕ) (choice : SyscallChoice) :
    SyscallPc → Option Service
  | .ret _ => some (s.goto t .user)
  | pc =>
      (syscallStep t tgid choice s.kernel (s.buffers t) pc).map fun (k, user, pc') =>
        { s.goto t (.syscall pc') with
          kernel := k
          buffers := Function.update s.buffers t user
          deliveries := s.deliveries ++ s.copied tgid choice pc }

/-- A step of the service, where task `t` belongs to the thread group `tgid t`. -/
def step (tgid : ℕ → ℕ) (s : Service) : Action → Option Service
  | .enterHook t current args =>
      match s.tasks t with
      | .user =>
          some
            { s.goto t (.hook (.monitored ⟨s.calls, current, args⟩)) with calls := s.calls + 1 }
      | _ => none
  | .hook t choice =>
      match s.tasks t with
      | .hook pc => s.stepHook t choice pc
      | _ => none
  | .enterQuestion t =>
      match s.tasks t with
      | .user => some (s.goto t (.syscall .question))
      | _ => none
  | .enterAnswer t v =>
      match s.tasks t with
      | .user => some (s.goto t (.syscall (.answer v)))
      | _ => none
  | .syscall t choice =>
      match s.tasks t with
      | .syscall pc => s.stepSyscall (tgid t) t choice pc
      | _ => none
  | .reg t state processName allocated =>
      match s.tasks t with
      | .user =>
          some { s with kernel := (sysAuditsecReg (tgid t) state processName allocated s.kernel).1 }
      | _ => none
  | .statusWrite t buffer =>
      match s.tasks t with
      | .user => some { s with kernel := (auditsecProcStatusWrite buffer s.kernel).1 }
      | _ => none

/-- The module is initialised, and no task is in it. -/
def initial : Service where
  kernel := auditsecInit
  tasks _ := .user
  buffers _ := .zero
  calls := 0
  deliveries := []

end Service

/-- The service for tasks of the given thread groups. -/
def service (tgid : ℕ → ℕ) : Machine Service Service.Action where
  init s := s = .initial
  step := Service.step tgid

/-! ### Who is admitted -/

namespace Service

variable {t : ℕ} {choice : SyscallChoice} {pc : SyscallPc} {k : State}

variable {tgid : ℕ → ℕ} {s s' : Service}

/-- The process of a task is registered. -/
def IsRegistered (tgid : ℕ → ℕ) (s : Service) (t : ℕ) : Prop :=
  s.kernel.isDaemon (tgid t) = true

/-- The action ends the registration of the process of task `t`, if it is registered: a task
of the process calls `sys_auditsec_reg` for it, or the status file is reset. -/
def Action.Ends (tgid : ℕ → ℕ) (t : ℕ) : Action → Prop
  | .reg t' state processName _ => tgid t' = tgid t ∧ state = 0 ∧ processName = none
  | .statusWrite _ buffer => ∃ text ∈ buffer, simpleStrtol text = 0
  | _ => False

/-- No task is past the tests of `sys_auditsec_question` when the registration of its process
ends. -/
def KeepsAdmitted (tgid : ℕ → ℕ) (s : Service) (a : Action) : Prop :=
  ∀ t pc, s.tasks t = .syscall pc → pc.Admitted → ¬ a.Ends tgid t

/-- The tasks past the tests are those of the registered process, and every copy went to
the process registered at the time. -/
structure Inv (tgid : ℕ → ℕ) (s : Service) : Prop where
  admitted : ∀ t pc, s.tasks t = .syscall pc → pc.Admitted → s.IsRegistered tgid t
  delivered : ∀ d ∈ s.deliveries, d.contextdPid = d.receiver ∧ d.daemonLaunched = true

/-- A step after which one task has moved, and is not past the tests unless its process is
registered, keeps the invariant. -/
theorem Inv.move (h : s.Inv tgid) {t : ℕ} {pc : TaskPc}
    (hoth : ∀ t', s.IsRegistered tgid t' → s'.IsRegistered tgid t')
    (htasks : s'.tasks = Function.update s.tasks t pc)
    (hpc : ∀ pc', pc = .syscall pc' → pc'.Admitted → s'.IsRegistered tgid t)
    (hdelivered : ∀ d ∈ s'.deliveries, d ∈ s.deliveries ∨
      d.contextdPid = d.receiver ∧ d.daemonLaunched = true) :
  s'.Inv tgid
  := by
  constructor
  · rw [htasks]
    apply (Function.forall_update_iff s.tasks (p := fun t' x => ∀ pc', x = .syscall pc' →
      pc'.Admitted → s'.IsRegistered tgid t')).mpr ⟨hpc, ?_⟩
    intro t' _ pc' hpc' hadm
    apply hoth t' (h.admitted t' pc' hpc' hadm)
  · intro d hd
    rcases hdelivered d hd with hd | hd
    · apply h.delivered d hd
    · apply hd

/-- A step by which a task only moves, to a place that is not past the tests, keeps the
invariant. -/
theorem Inv.goto (h : s.Inv tgid) {pc : TaskPc} (htasks : s'.tasks = Function.update s.tasks t pc)
    (hkernel : s'.kernel = s.kernel) (hdeliveries : s'.deliveries = s.deliveries)
    (hpc : ∀ pc', pc = .syscall pc' → ¬ pc'.Admitted) :
  s'.Inv tgid
  := by
  apply h.move _ htasks
  · intro pc' hpc' hadm
    apply absurd hadm (hpc pc' hpc')
  · rw [hdeliveries]
    intro d hd
    left
    apply hd
  · simp only [IsRegistered, hkernel]
    intro t' ht'
    apply ht'

/-- A state with the same registration has the same registered process. -/
theorem isRegistered_congr (h : s'.kernel.registration = s.kernel.registration) (t : ℕ) :
  s'.IsRegistered tgid t ↔ s.IsRegistered tgid t
  := by
  simp only [State.registration, Prod.mk.injEq] at h
  simp only [IsRegistered, State.isDaemon, h]

/-- A step of a hook keeps the invariant. -/
theorem Inv.stepHook (h : s.Inv tgid) {choice : HookChoice} {pc : HookPc}
    (hs : s.stepHook t choice pc = some s') :
  s'.Inv tgid
  := by
  obtain ⟨⟨k, pc'⟩, hk, rfl⟩ := Option.map_eq_some_iff.mp hs
  have hreg : k.registration = s.kernel.registration := hookStep_registration hk
  apply h.move _ rfl
  · intro pc'' hpc''
    split at hpc'' <;> cases hpc''
  · intro d hd
    left
    apply hd
  · intro t'
    apply (isRegistered_congr hreg t').mpr

/-- A copy is made by a task past the tests, and records the registration it is made
under. -/
theorem mem_copied {receiver : ℕ} {d : Delivery} (h : d ∈ s.copied receiver choice pc) :
  pc.Admitted ∧ d.receiver = receiver ∧ d.contextdPid = s.kernel.contextdPid ∧
    d.daemonLaunched = s.kernel.daemonLaunched
  := by
  cases pc with
  | questionCopy =>
    cases choice with
    | go =>
      obtain rfl := List.mem_singleton.mp h
      exact ⟨trivial, rfl, rfl, rfl⟩
    | interrupt | fault => cases h
  | _ => cases h

/-- A step of a system call returns to user space, or is a step of the call. -/
theorem stepSyscall_cases {receiver : ℕ} (hs : s.stepSyscall receiver t choice pc = some s') :
  s' = s.goto t .user ∨
    ∃ k user pc', syscallStep t receiver choice s.kernel (s.buffers t) pc = some (k, user, pc') ∧
      s' =
        { s.goto t (.syscall pc') with
          kernel := k
          buffers := Function.update s.buffers t user
          deliveries := s.deliveries ++ s.copied receiver choice pc }
  := by
  cases pc with
  | ret r =>
    left
    apply (Option.some.inj hs).symm
  | _ =>
    right
    simp only [stepSyscall, Option.map_eq_some_iff] at hs
    obtain ⟨⟨k, user, pc'⟩, hk, rfl⟩ := hs
    use k, user, pc', hk

/-- A step of a system call keeps the invariant. -/
theorem Inv.stepSyscall (h : s.Inv tgid) (hpc : s.tasks t = .syscall pc)
    (hs : s.stepSyscall (tgid t) t choice pc = some s') :
  s'.Inv tgid
  := by
  rcases stepSyscall_cases hs with rfl | ⟨k, user, pc', hk, rfl⟩
  · exact h.goto rfl rfl rfl (by simp)
  have hreg : k.registration = s.kernel.registration := syscallStep_registration hk
  apply h.move _ rfl
  · intro pc'' hpc'' hadm
    obtain rfl := TaskPc.syscall.inj hpc''
    apply (isRegistered_congr hreg t).mpr
    by_cases hbef : pc.Admitted
    · apply h.admitted t pc hpc hbef
    · apply isDaemon_of_admitted hbef hadm hk
  · intro d hd
    rcases List.mem_append.mp hd with hd | hd
    · left
      apply hd
    · right
      obtain ⟨hadm, hreceiver, hpid, hlau⟩ := mem_copied hd
      have hdm := h.admitted t pc hpc hadm
      simp only [IsRegistered, State.isDaemon, Bool.and_eq_true, beq_iff_eq] at hdm
      rw [hpid, hlau, hreceiver]
      apply hdm.symm
  · intro t'
    apply (isRegistered_congr hreg t').mpr

/-- A call of `sys_auditsec_reg` leaves a registration that it does not end. -/
theorem isDaemon_sysAuditsecReg {t' : ℕ} {state : Int} {name : Option (List UInt8)}
    (allocated : Bool) (h : k.isDaemon (tgid t) = true)
    (hends : ¬ (tgid t' = tgid t ∧ state = 0 ∧ name = none)) :
  (sysAuditsecReg (tgid t') state name allocated k).1.isDaemon (tgid t) = true
  := by
  have heff := sysAuditsecReg_effect k (tgid t') state name allocated
  generalize sysAuditsecReg (tgid t') state name allocated k = out at heff ⊢
  have hpid : k.contextdPid = tgid t := by
    simp only [State.isDaemon, Bool.and_eq_true, beq_iff_eq] at h
    apply h.2
  cases heff with
  | launch hn => omega
  | off | launched | refused => apply h
  | register | unregister => apply h
  | stop hc =>
    apply absurd _ hends
    exact ⟨by omega, rfl, rfl⟩

/-- A write to the status file leaves a registration that it does not end. -/
theorem isDaemon_auditsecProcStatusWrite {buffer : Option (List UInt8)} {x : Int}
    (h : k.isDaemon x = true) (hends : ¬ ∃ text ∈ buffer, simpleStrtol text = 0) :
  (auditsecProcStatusWrite buffer k).1.isDaemon x = true
  := by
  rcases auditsecProcStatusWrite_cases buffer k with ⟨text, rfl, hzero, -⟩ | ⟨heq, -⟩
  · apply absurd ⟨text, rfl, hzero⟩ hends
  · rw [heq]
    apply h

/-- A call outside the hooks and the two system calls of the daemon keeps the invariant,
when no admitted task loses its registration by it. -/
theorem Inv.register (h : s.Inv tgid) {k : State}
    (hkp : ∀ t pc, s.tasks t = .syscall pc → pc.Admitted → s.IsRegistered tgid t →
      k.isDaemon (tgid t) = true) :
  Inv tgid { s with kernel := k }
  := by
  constructor
  · intro t pc hpc hadm
    apply hkp t pc hpc hadm (h.admitted t pc hpc hadm)
  · apply h.delivered

/-- A step that ends no registration of an admitted task keeps the invariant. -/
theorem Inv.step (h : s.Inv tgid) {a : Action} (hkp : s.KeepsAdmitted tgid a)
    (hs : s.step tgid a = some s') :
  s'.Inv tgid
  := by
  cases a with
  | enterHook t current args =>
    simp only [Service.step] at hs
    split at hs <;> cases hs
    exact h.goto rfl rfl rfl (by simp)
  | hook t choice =>
    simp only [Service.step] at hs
    split at hs
    · apply h.stepHook hs
    · cases hs
  | enterQuestion t | enterAnswer t v =>
    simp only [Service.step] at hs
    split at hs <;> cases hs
    refine h.goto rfl rfl rfl ?_
    intro pc hpc
    obtain rfl := TaskPc.syscall.inj hpc
    apply id
  | syscall t choice =>
    simp only [Service.step] at hs
    split at hs
    · rename_i pc hpc
      apply h.stepSyscall hpc hs
    · cases hs
  | reg t state name allocated =>
    simp only [Service.step] at hs
    split at hs <;> cases hs
    apply h.register
    intro t' pc hpc hadm hreg
    apply isDaemon_sysAuditsecReg allocated hreg (hkp t' pc hpc hadm)
  | statusWrite t buffer =>
    simp only [Service.step] at hs
    split at hs <;> cases hs
    apply h.register
    intro t' pc hpc hadm hreg
    apply isDaemon_auditsecProcStatusWrite hreg (hkp t' pc hpc hadm)

end Service

open Service in
/-- As long as no registration ends while a task of the process is between the tests of
`sys_auditsec_question` and the copy, every copy of a request went to the process
that was recorded in `contextd_pid` at the time, with the daemon launched. -/
theorem delivered_to_daemon {tgid : ℕ → ℕ} {s : Service}
    (h : (service tgid).Reach (KeepsAdmitted tgid) s) :
  ∀ d ∈ s.deliveries, d.contextdPid = d.receiver ∧ d.daemonLaunched = true
  := by
  have hinv : s.Inv tgid := by
    apply h.invariant
    · rintro _ rfl
      exact ⟨fun _ _ => TaskPc.noConfusion, fun _ hd => absurd hd List.not_mem_nil⟩
    · intro s a s' ih hkp hs
      apply ih.step hkp hs
  apply hinv.delivered

/-! ### A process that is replaced while it waits -/

namespace Service

/-- The actions that may end a registration. -/
def Action.mayEnd : Action → Bool
  | .reg _ state _ _ => state == 0
  | .statusWrite .. => true
  | _ => false

/-- By other actions, no task loses the registration of its process. -/
theorem along_keepsAdmitted {tgid : ℕ → ℕ} {s : Service} {as : List Action}
    (has : ∀ a ∈ as, a.mayEnd = false) :
  (service tgid).Along (KeepsAdmitted tgid) s as
  := by
  induction as generalizing s with
  | nil => trivial
  | cons a as ih =>
    constructor
    · have ha := has a List.mem_cons_self
      intro t pc _ _ hends
      cases a with
      | reg t' state name allocated =>
        rw [Action.mayEnd, hends.2.1] at ha
        cases ha
      | statusWrite => cases ha
      | _ => apply hends
    · intro s' _
      apply ih fun a ha => has a (List.mem_cons_of_mem _ ha)

/-- The process becomes the daemon and registers the program `a`. -/
def launch (t : ℕ) : List Action := [.reg t 1 none true, .reg t 1 (some [97]) true]

/-- The task calls `sys_auditsec_question` and sleeps. -/
def wait (t : ℕ) : List Action := [.enterQuestion t, .syscall t .go, .syscall t .go]

/-- The task, which runs the program `a`, sends a message: it posts its question. -/
def post (t : ℕ) : List Action :=
  .enterHook t ⟨t, [97]⟩ (.socketSendmsg [] 0) :: List.replicate 10 (.hook t .go)

/-- The task is woken and is copied the request. -/
def receive (t : ℕ) : List Action := [.syscall t .go, .syscall t .go]

end Service

open Service in
theorem delivered_to_daemon_post :
  ∃ s, (service id).run .initial (launch 1 ++ (wait 1 ++ post 3 ++ receive 1)) = some s ∧
    s.deliveries.length = 1 ∧
    ∀ d ∈ s.deliveries, d.contextdPid = d.receiver ∧ d.daemonLaunched = true
  := by
  obtain ⟨s, hrun, hlen⟩ :
      ∃ s, (service id).run .initial (launch 1 ++ (wait 1 ++ post 3 ++ receive 1)) = some s ∧
        s.deliveries.length = 1 := ⟨_, rfl, rfl⟩
  refine ⟨s, hrun, hlen, ?_⟩
  have hrch : (service id).Reach (KeepsAdmitted id) s := by
    apply (Machine.Reach.init rfl).run _ _ hrun
    apply along_keepsAdmitted
    decide
  apply delivered_to_daemon hrch

open Service in
/-- Process `1` is registered and waits for a question.  The status file is reset, process
`2` is registered, and a question is posted for it: it is copied to process `1`. -/
theorem delivered_to_predecessor :
  ∃ s, (service id).Reach Machine.anyStep s ∧
    ∃ d ∈ s.deliveries, d.receiver = 1 ∧ d.contextdPid = 2 ∧ d.daemonLaunched = true
  := by
  obtain ⟨s, hrun, hd⟩ :
      ∃ s, (service id).run .initial
          (launch 1 ++ wait 1 ++ .statusWrite 4 (some [48]) :: launch 2 ++ post 3 ++ receive 1) =
            some s ∧
        ∃ d ∈ s.deliveries, d.receiver = 1 ∧ d.contextdPid = 2 ∧ d.daemonLaunched = true :=
    ⟨_, rfl, _, List.mem_singleton_self _, rfl, rfl, rfl⟩
  use s, (Machine.Reach.init rfl).run _ (by decide) hrun

end Kernel

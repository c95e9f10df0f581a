import Contextd.Kernel.Share

/-!
# The system calls of the daemon

`sys_auditsec_question` and `sys_auditsec_answer` as program counters (`SyscallPc`)
advanced one shared access at a time by `syscallStep`.  The caller is given by the number
of its task, which waits on `question_lock`, and by the number of its thread group, which
is compared with `contextd_pid`.
-/

namespace Kernel

/-- What the environment decides in a system call: whether a signal interrupts the wait,
and whether the copy to user space fails. -/
inductive SyscallChoice where
  | go
  | interrupt
  | fault
  deriving DecidableEq, Repr

/-- The next statement of a system call. -/
inductive SyscallPc where
  /-- The tests at the start of `sys_auditsec_question`. -/
  | question
  /-- `down_interruptible(auditsec_question_lock())`. -/
  | questionDown
  /-- Asleep on `question_lock`. -/
  | questionWait
  /-- `copy_to_user(user_as_i, k_auditsec_info(), sizeof(struct auditsec_info))`. -/
  | questionCopy
  /-- `*auditsec_answer() = false`, after the copy failed. -/
  | questionReject
  /-- `up(auditsec_answer_lock())`, after the copy failed. -/
  | questionRejectUp
  /-- The tests at the start of `sys_auditsec_answer`. -/
  | answer (v : Int)
  /-- `*auditsec_answer() = answer`. -/
  | answerStore (v : Int)
  /-- `up(auditsec_answer_lock())`. -/
  | answerUp
  /-- The call has returned the value. -/
  | ret (r : Int)

/-- The caller is the daemon: the test both calls make first. -/
def State.isDaemon (k : State) (tgid : Int) : Bool :=
  k.daemonLaunched && k.contextdPid == tgid

/-- The next step of a system call of task `t`, of thread group `tgid`.  The record is the
caller's buffer. -/
def syscallStep (t : ℕ) (tgid : Int) (choice : SyscallChoice) (k : State)
    (user : AuditsecInfo) : SyscallPc → Option (State × AuditsecInfo × SyscallPc)
  | .question =>
      if k.isDaemon tgid then some (k, user, .questionDown) else some (k, user, .ret (-EFAULT))
  | .questionDown =>
      match k.questionLock.take with
      | some l => some ({ k with questionLock := l }, user, .questionCopy)
      | none =>
          (k.questionLock.sleep t).map fun l => ({ k with questionLock := l }, user, .questionWait)
  | .questionWait =>
      match choice with
      | .go =>
          (k.questionLock.wake t).map fun l => ({ k with questionLock := l }, user, .questionCopy)
      | .interrupt =>
          (k.questionLock.giveUp t).map
            fun l => ({ k with questionLock := l }, user, .ret (-EFAULT))
      | .fault => none
  | .questionCopy =>
      match choice with
      | .go => some (k, k.info, .ret 0)
      | .interrupt => none
      -- The token that was taken is not given back: the hook is answered instead.
      | .fault => some (k, user, .questionReject)
  | .questionReject => some ({ k with answer := 0 }, user, .questionRejectUp)
  | .questionRejectUp =>
      some ({ k with answerLock := k.answerLock.up }, user, .ret (-EFAULT))
  | .answer v =>
      if k.isDaemon tgid then some (k, user, .answerStore v) else some (k, user, .ret (-EFAULT))
  | .answerStore v => some ({ k with answer := v }, user, .answerUp)
  | .answerUp => some ({ k with answerLock := k.answerLock.up }, user, .ret 0)
  | .ret _ => none

/-- The calls of the daemon do not change the registration. -/
theorem syscallStep_registration {t : ℕ} {tgid : Int} {choice : SyscallChoice} {k k' : State}
    {user user' : AuditsecInfo} {pc pc' : SyscallPc}
    (h : syscallStep t tgid choice k user pc = some (k', user', pc')) :
  k'.registration = k.registration
  := by
  cases pc with
  | question | answer v =>
    simp only [syscallStep] at h
    split at h <;> cases h <;> rfl
  | questionDown =>
    simp only [syscallStep] at h
    split at h
    · cases h
      rfl
    · obtain ⟨l, -, h⟩ := Option.map_eq_some_iff.mp h
      cases h
      rfl
  | questionWait =>
    cases choice with
    | go | interrupt =>
      obtain ⟨l, -, h⟩ := Option.map_eq_some_iff.mp h
      cases h
      rfl
    | fault => cases h
  | questionCopy => cases choice <;> cases h <;> rfl
  | questionReject | questionRejectUp | answerStore v | answerUp =>
    cases h
    rfl
  | ret r => cases h

/-- Past the tests at the start of `sys_auditsec_question`, and before the copy. -/
def SyscallPc.Admitted : SyscallPc → Prop
  | .questionDown | .questionWait | .questionCopy => True
  | _ => False

/-- A caller is admitted only when it is the daemon. -/
theorem isDaemon_of_admitted {t : ℕ} {tgid : Int} {choice : SyscallChoice} {k k' : State}
    {user user' : AuditsecInfo} {pc pc' : SyscallPc} (hpc : ¬ pc.Admitted) (hpc' : pc'.Admitted)
    (h : syscallStep t tgid choice k user pc = some (k', user', pc')) :
  k.isDaemon tgid = true
  := by
  cases pc with
  | question | answer v =>
    simp only [syscallStep] at h
    split at h
    · assumption
    · cases h
      cases hpc'
  | questionDown | questionWait | questionCopy => apply absurd trivial hpc
  | questionReject | questionRejectUp | answerStore v | answerUp =>
    cases h
    cases hpc'
  | ret r => cases h

end Kernel

import Contextd.Execution
import Contextd.Kernel.Agreement

/-!
# The protocol in time

The protocol with a clock that counts jiffies.  A wait of `30 * HZ` jiffies ends without a token
when that many have passed since the task went to sleep.  The daemon thread leaves its loop for good
when a call of `auditsec_question` fails.  No thread that can go on is left waiting when time
passes, and the daemon computes a verdict in less than the time a hook waits for it (`Prompt`).

`DaemonMove` and `HookMove` list what the daemon and a hook can do as long as no call of
`auditsec_question` fails and no wait for an answer expires.
-/

namespace Kernel

/-- The protocol, with the jiffies since the last step of each task in its hook and since the
last step of the daemon thread. -/
structure Timed where
  protocol : Protocol
  since : ℕ → ℕ
  daemonSince : ℕ

/-- Asleep on `hook_lock` or on `answer_lock`. -/
def HookPc.isAsleep : HookPc → Bool
  | .hookWait _ | .answerWait _ => true
  | _ => false

namespace Timed

open Protocol (DaemonChoice)

/-- A step of the protocol, or a jiffy passes. -/
inductive Action where
  | act (a : Protocol.Action)
  | tick
  deriving DecidableEq, Repr

/-- `while(_keep_going && (auditsec_question(KC->usai()) == 0))`, with `_keep_going` set: the
loop is not left before a call, and not gone on with after a call that failed. -/
def loops : DaemonPc → DaemonChoice → Bool
  | .loop, .stop => false
  | .asking (.ret r), .syscall _ => r == 0
  | _, _ => true

/-- The steps that the loop of the daemon and the timeouts of the waits leave. -/
def permits (HZ : ℕ) (s : Timed) : Protocol.Action → Bool
  | .call .. => true
  | .hook _ .go => true
  | .hook t .fail => !(s.protocol.hooks t).isAsleep || 30 * HZ ≤ s.since t
  | .daemon choice => loops s.protocol.daemon choice

/-- The clocks after a step of the protocol to `p`. -/
def moved (s : Timed) (p : Protocol) : Protocol.Action → Timed
  | .call .. => { s with protocol := p }
  | .hook t _ => { s with protocol := p, since := Function.update s.since t 0 }
  | .daemon _ => { s with protocol := p, daemonSince := 0 }

/-- A step in time. -/
def step (HZ d : ℕ) (tgid : Int) (s : Timed) : Action → Option Timed
  | .act a =>
      if s.permits HZ a then (s.protocol.step d tgid a).map fun p => s.moved p a else none
  | .tick =>
      some
        { s with
          since := fun t => s.since t + 1
          daemonSince := s.daemonSince + 1 }

/-- The module is initialised, and no time has passed. -/
def initial (tgid : Int) (progs : List (List UInt8)) : Timed where
  protocol := Protocol.initial tgid progs
  since _ := 0
  daemonSince := 0

end Timed

/-- The protocol in time, with the daemon thread `d` of thread group `tgid`. -/
def timed (HZ d : ℕ) (tgid : Int) : Machine Timed Timed.Action where
  init s := ∃ progs, s = Timed.initial tgid progs
  step := Timed.step HZ d tgid

namespace Timed

/-- No thread can go on: no task in a hook, and the daemon neither in a system call nor at its
loop. -/
structure AtRest (HZ d : ℕ) (tgid : Int) (s : Timed) : Prop where
  hooks : ∀ t choice, s.step HZ d tgid (.act (.hook t choice)) = none
  daemon : s.step HZ d tgid (.act (.daemon (.syscall .go))) = none
  stop : s.step HZ d tgid (.act (.daemon .stop)) = none

/-- Time passes only when no thread can go on, and not beyond the time that the computation of
a verdict takes. -/
def Prompt (HZ d : ℕ) (tgid : Int) (s : Timed) : Action → Prop
  | .act _ => True
  | .tick =>
      s.AtRest HZ d tgid ∧ (s.protocol.daemon = .deciding → s.daemonSince + 1 < 30 * HZ)

/-- The step makes a call of `auditsec_question` fail: a signal interrupts its wait, or the
copy to user space fails. -/
def QuestionFails (s : Timed) : Action → Prop
  | .act (.daemon (.syscall .interrupt)) => s.protocol.daemon = .asking .questionWait
  | .act (.daemon (.syscall .fault)) => s.protocol.daemon = .asking .questionCopy
  | _ => False

end Timed

/-! ### The daemon while its calls succeed -/

/-- The statements of the daemon thread while no call of `auditsec_question` fails. -/
def DaemonPc.Serving : DaemonPc → Prop
  | .loop | .deciding => True
  | .asking .question | .asking .questionDown | .asking .questionWait => True
  | .asking .questionCopy => True
  | .asking (.ret r) => r = 0
  | .answering (.answer _) | .answering (.answerStore _) | .answering .answerUp => True
  | .answering (.ret _) => True
  | _ => False

/-- Asleep on `question_lock`. -/
def DaemonPc.isQuestionWait : DaemonPc → Bool
  | .asking .questionWait => true
  | _ => false

/-- A question is in the hands of the daemon, and its verdict is not computed. -/
def DaemonPc.isHolding : DaemonPc → Bool
  | .asking .questionCopy | .asking (.ret _) | .deciding => true
  | _ => false

namespace Protocol

/-- The steps of the daemon thread while no call of `auditsec_question` fails. -/
inductive DaemonMove (d : ℕ) (s : Protocol) : Protocol → Prop where
  | ask (pc : s.daemon = .loop) : DaemonMove d s { s with daemon := .asking .question }
  | test (pc : s.daemon = .asking .question) :
      DaemonMove d s { s with daemon := .asking .questionDown }
  | take (pc : s.daemon = .asking .questionDown) {l : Semaphore ℕ}
      (hl : s.kernel.questionLock.take = some l) :
      DaemonMove d s
        { s with
          kernel := { s.kernel with questionLock := l }
          daemon := .asking .questionCopy }
  | sleep (pc : s.daemon = .asking .questionDown) {l : Semaphore ℕ}
      (hl : s.kernel.questionLock.sleep d = some l) :
      DaemonMove d s
        { s with
          kernel := { s.kernel with questionLock := l }
          daemon := .asking .questionWait }
  | wake (pc : s.daemon = .asking .questionWait) {l : Semaphore ℕ}
      (hl : s.kernel.questionLock.wake d = some l) :
      DaemonMove d s
        { s with
          kernel := { s.kernel with questionLock := l }
          daemon := .asking .questionCopy }
  | copy (pc : s.daemon = .asking .questionCopy) :
      DaemonMove d s
        { s with
          usai := s.kernel.info
          taken := s.writer
          trace := s.trace ++ [.delivered s.writer s.kernel.info]
          daemon := .asking (.ret 0) }
  | decide (pc : s.daemon = .asking (.ret 0)) : DaemonMove d s { s with daemon := .deciding }
  | verdict (pc : s.daemon = .deciding) (v : Int) :
      DaemonMove d s { s with daemon := .answering (.answer v) }
  | enter {v : Int} (pc : s.daemon = .answering (.answer v)) :
      DaemonMove d s { s with daemon := .answering (.answerStore v) }
  | store {v : Int} (pc : s.daemon = .answering (.answerStore v)) :
      DaemonMove d s
        { s with
          kernel := { s.kernel with answer := v }
          author := s.taken
          trace := s.trace ++ [.answered s.taken v]
          daemon := .answering .answerUp }
  | up (pc : s.daemon = .answering .answerUp) :
      DaemonMove d s
        { s with
          kernel := { s.kernel with answerLock := s.kernel.answerLock.up }
          daemon := .answering (.ret 0) }
  | back {r : Int} (pc : s.daemon = .answering (.ret r)) :
      DaemonMove d s { s with daemon := .loop }

variable {d : ℕ} {tgid : Int} {s s' : Protocol}

/-- A step in `auditsec_question` is one of them. -/
theorem daemonMove_of_asking {pc : SyscallPc} {c : SyscallChoice} {k : State}
    {user : AuditsecInfo} {pc' : SyscallPc} (hd : s.daemon = .asking pc)
    (hserv : s.daemon.Serving) (hdm : s.kernel.isDaemon tgid = true)
    (hinterrupt : c = .interrupt → pc ≠ .questionWait) (hfault : c = .fault → pc ≠ .questionCopy)
    (h : syscallStep d tgid c s.kernel s.usai pc = some (k, user, pc')) :
  DaemonMove d s { s.noteSyscall c pc with kernel := k, usai := user, daemon := .asking pc' }
  := by
  rw [hd] at hserv
  cases pc with
  | question =>
    simp only [syscallStep, hdm, if_true] at h
    cases h
    exact .test hd
  | questionDown =>
    simp only [syscallStep] at h
    split at h
    · rename_i l hl
      cases h
      exact .take hd hl
    · obtain ⟨l, hl, h⟩ := Option.map_eq_some_iff.mp h
      cases h
      exact .sleep hd hl
  | questionWait =>
    cases c with
    | go =>
      obtain ⟨l, hl, h⟩ := Option.map_eq_some_iff.mp h
      cases h
      exact .wake hd hl
    | interrupt => apply absurd rfl (hinterrupt rfl)
    | fault => cases h
  | questionCopy =>
    cases c with
    | go =>
      cases h
      exact .copy hd
    | interrupt => cases h
    | fault => apply absurd rfl (hfault rfl)
  | ret r => cases h
  | questionReject | questionRejectUp | answer | answerStore | answerUp => cases hserv

/-- A step in `auditsec_answer` is one of them. -/
theorem daemonMove_of_answering {pc : SyscallPc} {c : SyscallChoice} {k : State}
    {user : AuditsecInfo} {pc' : SyscallPc} (hd : s.daemon = .answering pc)
    (hserv : s.daemon.Serving) (hdm : s.kernel.isDaemon tgid = true)
    (h : syscallStep d tgid c s.kernel s.usai pc = some (k, user, pc')) :
  DaemonMove d s { s.noteSyscall c pc with kernel := k, usai := user, daemon := .answering pc' }
  := by
  rw [hd] at hserv
  cases pc with
  | answer v =>
    simp only [syscallStep, hdm, if_true] at h
    cases h
    exact .enter hd
  | answerStore v =>
    cases h
    exact .store hd
  | answerUp =>
    cases h
    exact .up hd
  | ret r => cases h
  | question | questionDown | questionWait | questionCopy | questionReject
  | questionRejectUp => cases hserv

/-- A step of the daemon is one of them. -/
theorem daemonMove_of_step {choice : DaemonChoice} (hserv : s.daemon.Serving)
    (hdm : s.kernel.isDaemon tgid = true) (hls : Timed.loops s.daemon choice)
    (hinterrupt : choice = .syscall .interrupt → s.daemon ≠ .asking .questionWait)
    (hfault : choice = .syscall .fault → s.daemon ≠ .asking .questionCopy)
    (h : daemonStep d tgid s choice = some s') :
  DaemonMove d s s'
  := by
  unfold daemonStep at h
  split at h
  · rename_i hd
    cases h
    exact .ask hd
  · rename_i hd
    rw [hd] at hls
    cases hls
  · rename_i r hd
    rw [hd] at hserv
    obtain rfl : r = 0 := hserv
    cases h
    exact .decide hd
  · rename_i r hd
    rw [hd] at hserv
    obtain rfl : r = 0 := hserv
    cases h
  · rename_i pc c hne hd
    obtain ⟨⟨k, user, pc'⟩, hk, rfl⟩ := Option.map_eq_some_iff.mp h
    apply daemonMove_of_asking hd hserv hdm _ _ hk
    · rintro rfl rfl
      apply hinterrupt rfl hd
    · rintro rfl rfl
      apply hfault rfl hd
  · rename_i v hd
    cases h
    exact .verdict hd v
  · rename_i r hd
    cases h
    exact .back hd
  · rename_i pc c hne hd
    obtain ⟨⟨k, user, pc'⟩, hk, rfl⟩ := Option.map_eq_some_iff.mp h
    apply daemonMove_of_answering hd hserv hdm hk
  · cases h

/-! ### A hook while no wait for an answer expires -/

/-- The steps of a task in its hook while no wait for an answer expires. -/
inductive HookMove (t : ℕ) (s : Protocol) : Protocol → Prop where
  | outside (hout : ¬ (s.hooks t).Inside) {l : Semaphore ℕ} {pc : HookPc}
      (hpc : ¬ pc.Inside ∨ ∃ c, pc = .fill c c.writes) :
      HookMove t s
        { s with
          kernel := { s.kernel with hookLock := l }
          hooks := Function.update s.hooks t pc }
  | write {c : HookCall} {w : Write} {ws : List Write} (hpc : s.hooks t = .fill c (w :: ws)) :
      HookMove t s
        { s with
          writer := c.serial
          kernel := { s.kernel with info := s.kernel.info.write w }
          hooks := Function.update s.hooks t (.fill c ws) }
  | post {c : HookCall} (hpc : s.hooks t = .fill c []) :
      HookMove t s
        { s with
          trace := s.trace ++ [.posted c.serial c.request]
          kernel := { s.kernel with questionLock := s.kernel.questionLock.up }
          hooks := Function.update s.hooks t (.answerDown c) }
  | take {c : HookCall} (hpc : s.hooks t = .answerDown c) {l : Semaphore ℕ}
      (hl : s.kernel.answerLock.take = some l) :
      HookMove t s
        { s with
          kernel := { s.kernel with answerLock := l }
          hooks := Function.update s.hooks t (.read c) }
  | sleep {c : HookCall} (hpc : s.hooks t = .answerDown c) {l : Semaphore ℕ}
      (hl : s.kernel.answerLock.sleep t = some l) :
      HookMove t s
        { s with
          kernel := { s.kernel with answerLock := l }
          hooks := Function.update s.hooks t (.answerWait c) }
  | wake {c : HookCall} (hpc : s.hooks t = .answerWait c) {l : Semaphore ℕ}
      (hl : s.kernel.answerLock.wake t = some l) :
      HookMove t s
        { s with
          kernel := { s.kernel with answerLock := l }
          hooks := Function.update s.hooks t (.read c) }
  | read {c : HookCall} (hpc : s.hooks t = .read c) :
      HookMove t s
        { s with
          trace := s.trace ++ [.verdict c.serial s.author (verdictCode s.kernel.answer)]
          hooks := Function.update s.hooks t (.release c (verdictCode s.kernel.answer)) }
  | release {c : HookCall} {ret : Int} (hpc : s.hooks t = .release c ret) :
      HookMove t s
        { s with
          trace := s.trace ++ [.returned c.serial ret]
          kernel := { s.kernel with hookLock := s.kernel.hookLock.up }
          hooks := Function.update s.hooks t (.done c ret) }

/-- A step of a hook is one of them. -/
theorem hookMove_of_step {t : ℕ} {choice : HookChoice} {k : State} {pc : HookPc}
    (hexp : (s.hooks t).isExpired = false)
    (hfail : choice = .fail → (s.hooks t).isAnswerWait = true → t ∉ s.kernel.answerLock.waitList)
    (h : hookStep t choice s.kernel (s.hooks t) = some (k, pc)) :
  HookMove t s
    { s.noteHook (s.hooks t) with kernel := k, hooks := Function.update s.hooks t pc }
  := by
  by_cases hin : (s.hooks t).Inside
  · cases hpc : s.hooks t with
    | idle | monitored | alloc | launched | hookDown | hookWait | done =>
      rw [hpc] at hin
      cases hin
    | fill c ws =>
      rw [hpc] at h
      cases ws with
      | nil =>
        cases h
        exact .post hpc
      | cons w ws =>
        cases h
        exact .write hpc
    | answerDown c =>
      rw [hpc] at h
      obtain ⟨⟨l, pc⟩, hl, h⟩ := Option.map_eq_some_iff.mp h
      cases h
      unfold downOrSleep at hl
      split at hl
      · rename_i l hl
        cases hl
        exact .take hpc hl
      · obtain ⟨l', hl', h⟩ := Option.map_eq_some_iff.mp hl
        cases h
        exact .sleep hpc hl'
    | answerWait c =>
      rw [hpc] at h hfail
      obtain ⟨⟨l, pc⟩, hl, h⟩ := Option.map_eq_some_iff.mp h
      cases h
      cases choice with
      | go =>
        obtain ⟨l', hl', h⟩ := Option.map_eq_some_iff.mp hl
        cases h
        exact .wake hpc hl'
      | fail =>
        obtain ⟨l', hl', -⟩ := Option.map_eq_some_iff.mp hl
        simp only [Semaphore.giveUp, Option.ite_none_right_eq_some] at hl'
        apply absurd hl'.1 (hfail rfl rfl)
    | read c =>
      rw [hpc] at h
      cases h
      exact .read hpc
    | expired c =>
      rw [hpc] at hexp
      cases hexp
    | release c ret =>
      rw [hpc] at h
      cases h
      exact .release hpc
  · obtain ⟨l, rfl, hcs⟩ := hookStep_outside hin h
    rw [noteHook_outside hin]
    apply HookMove.outside hin
    rcases hcs with ⟨hout, -⟩ | ⟨c, -, -, rfl, -⟩
    · exact .inl hout
    · exact .inr ⟨c, rfl⟩

end Protocol

end Kernel

import Contextd.Machine
import Contextd.Kernel.Hooks
import Contextd.Kernel.Syscall

/-!
# The protocol between the hooks and the daemon

Any number of tasks call the hooks, and one registered daemon thread runs the loop of
`KThread::run`: `auditsec_question`, compute a verdict, `auditsec_answer`.  Their steps interleave
freely (`protocol`).

A state of the protocol also records which call wrote the record last (`writer`), which call the
record taken by the daemon belongs to (`taken`), which call the stored answer was computed for
(`author`), and the trace of the events.
-/

namespace Kernel

/-- What happened to the call with a serial number. -/
inductive Event where
  /-- The hook released `question_lock` for its request. -/
  | posted (n : ℕ) (r : Request)
  /-- The record was copied to the daemon. -/
  | delivered (n : ℕ) (i : AuditsecInfo)
  /-- The copy of the record to the daemon failed. -/
  | copyFailed (n : ℕ)
  /-- The daemon answered the record it was delivered. -/
  | answered (n : ℕ) (v : Int)
  /-- The hook read the answer that was computed for the call `m`, and will return `ret`. -/
  | verdict (n m : ℕ) (ret : Int)
  /-- The hook, having had `hook_lock`, returned. -/
  | returned (n : ℕ) (ret : Int)
  deriving DecidableEq, Repr

/-- The serial number of the call an event is about. -/
def Event.serial : Event → ℕ
  | .posted n _ | .delivered n _ | .copyFailed n | .answered n _ | .verdict n _ _
  | .returned n _ => n

/-- The event is a delivery of the request of call `n`. -/
def Event.isDelivery (n : ℕ) : Event → Bool
  | .delivered m _ => m == n
  | _ => false

/-- The next statement of the daemon thread. -/
inductive DaemonPc where
  /-- The head of the loop. -/
  | loop
  /-- In `auditsec_question`. -/
  | asking (pc : SyscallPc)
  /-- Computing the verdict for the record it was delivered. -/
  | deciding
  /-- In `auditsec_answer`. -/
  | answering (pc : SyscallPc)
  /-- Out of the loop. -/
  | stopped

/-- A state of the protocol. -/
structure Protocol where
  kernel : State
  hooks : ℕ → HookPc
  daemon : DaemonPc
  usai : AuditsecInfo
  calls : ℕ
  writer : ℕ
  taken : ℕ
  author : ℕ
  trace : List Event

namespace Protocol

/-- What the environment decides for the daemon thread: the outcome of its system call,
the verdict it computes, or that it leaves its loop. -/
inductive DaemonChoice where
  | syscall (choice : SyscallChoice)
  | verdict (v : Int)
  | stop
  deriving DecidableEq, Repr

/-- An action: a task enters a hook, a task takes the next step of its hook, or the daemon
thread takes its next step. -/
inductive Action where
  | call (t : ℕ) (current : Task) (args : HookArgs)
  | hook (t : ℕ) (choice : HookChoice)
  | daemon (choice : DaemonChoice)
  deriving DecidableEq, Repr

/-- The records kept of a step of a hook. -/
def noteHook (s : Protocol) : HookPc → Protocol
  | .fill c (_ :: _) => { s with writer := c.serial }
  | .fill c [] => { s with trace := s.trace ++ [.posted c.serial c.request] }
  | .read c =>
      { s with trace := s.trace ++ [.verdict c.serial s.author (verdictCode s.kernel.answer)] }
  | .release c ret => { s with trace := s.trace ++ [.returned c.serial ret] }
  | _ => s

/-- The records kept of a step of a system call. -/
def noteSyscall (s : Protocol) (choice : SyscallChoice) : SyscallPc → Protocol
  | .questionCopy =>
      match choice with
      | .fault => { s with taken := s.writer, trace := s.trace ++ [.copyFailed s.writer] }
      | _ =>
          { s with
            taken := s.writer
            trace := s.trace ++ [.delivered s.writer s.kernel.info] }
  | .questionReject => { s with author := s.taken }
  | .answerStore v =>
      { s with author := s.taken, trace := s.trace ++ [.answered s.taken v] }
  | _ => s

/-- A step of the daemon thread, task `d` of thread group `tgid`.  `KThread::run` leaves
its loop when `auditsec_question` fails; a daemon that tries again is covered too. -/
def daemonStep (d : ℕ) (tgid : Int) (s : Protocol) (choice : DaemonChoice) :
    Option Protocol :=
  match s.daemon, choice with
  | .loop, .syscall .go => some { s with daemon := .asking .question }
  | .loop, .stop => some { s with daemon := .stopped }
  | .asking (.ret r), .syscall .go =>
      some { s with daemon := if r = 0 then .deciding else .loop }
  | .asking (.ret r), .stop => if r = 0 then none else some { s with daemon := .stopped }
  | .asking pc, .syscall c =>
      (syscallStep d tgid c s.kernel s.usai pc).map fun (k, user, pc') =>
        { s.noteSyscall c pc with kernel := k, usai := user, daemon := .asking pc' }
  | .deciding, .verdict v => some { s with daemon := .answering (.answer v) }
  | .answering (.ret _), .syscall .go => some { s with daemon := .loop }
  | .answering pc, .syscall c =>
      (syscallStep d tgid c s.kernel s.usai pc).map fun (k, user, pc') =>
        { s.noteSyscall c pc with kernel := k, usai := user, daemon := .answering pc' }
  | _, _ => none

/-- A step of the protocol. -/
def step (d : ℕ) (tgid : Int) (s : Protocol) : Action → Option Protocol
  | .call t current args =>
      match s.hooks t with
      | .idle =>
          some
            { s with
              hooks := Function.update s.hooks t (.monitored ⟨s.calls, current, args⟩)
              calls := s.calls + 1 }
      | _ => none
  | .hook t choice =>
      (hookStep t choice s.kernel (s.hooks t)).map fun (k, pc) =>
        { s.noteHook (s.hooks t) with kernel := k, hooks := Function.update s.hooks t pc }
  | .daemon choice => daemonStep d tgid s choice

/-- The module is initialised, the daemon of thread group `tgid` is registered, some
programs are monitored, no task is in a hook and the daemon enters its loop. -/
def initial (tgid : Int) (progs : List (List UInt8)) : Protocol where
  kernel :=
    { auditsecInit with contextdPid := tgid, daemonLaunched := true, progList := progs }
  hooks _ := .idle
  daemon := .loop
  usai := .zero
  calls := 0
  writer := 0
  taken := 0
  author := 0
  trace := []

end Protocol

/-- The protocol with the daemon thread `d` of thread group `tgid`. -/
def protocol (d : ℕ) (tgid : Int) : Machine Protocol Protocol.Action where
  init s := ∃ progs, s = Protocol.initial tgid progs
  step := Protocol.step d tgid

end Kernel

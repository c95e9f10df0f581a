import Contextd.Kernel.Protocol

/-!
# Token accounting

The invariant of the protocol (`Protocol.Inv`): at most one task is inside the critical section of
the hooks, and its question is in exactly one place.  It is being written, or its token is on
`question_lock` (`Pending.offered`), or the daemon has it in hand (`Pending.taken`), or its answer
token is on `answer_lock` (`Pending.answered`), or the answer was read.

One step does not preserve the invariant: a hook whose wait for the answer expired finds that the
daemon already has its question.  `reclaims` excludes exactly that step.
-/

namespace Kernel

open List

/-- The daemon thread has no request in hand. -/
def DaemonPc.Idle : DaemonPc → Prop
  | .loop | .stopped => True
  | .asking .question | .asking .questionDown | .asking .questionWait => True
  | .asking (.ret r) => r ≠ 0
  | .answering (.ret _) => True
  | _ => False

/-- The outcome of call `n`, which posted the request `r`, is `v`: what the daemon answered
to that request, or `0` when its copy to the daemon failed. -/
structure Outcome (trace : List Event) (n : ℕ) (r : Request) (v : Int) : Prop where
  posted : .posted n r ∈ trace
  answered : ∀ w, .answered n w ∈ trace → w = v
  failed : .copyFailed n ∈ trace → v = 0
  source : .copyFailed n ∈ trace ∨
    (∃ i, .delivered n i ∈ trace ∧ i.request = r) ∧ .answered n v ∈ trace

/-- Neither an answer nor a failed copy is recorded for call `n`. -/
structure NoOutcome (trace : List Event) (n : ℕ) : Prop where
  answered : ∀ w, .answered n w ∉ trace
  failed : .copyFailed n ∉ trace

/-- An event that is not about the outcome of call `n` keeps it. -/
theorem Outcome.append {trace : List Event} {n : ℕ} {r : Request} {v : Int} {e : Event}
    (h : Outcome trace n r v) (ha : ∀ w, e ≠ .answered n w) (hf : e ≠ .copyFailed n) :
  Outcome (trace ++ [e]) n r v
  := by
  obtain ⟨hp, hans, hfail, hsrc⟩ := h
  constructor
  · simp [hp]
  · intro w hw
    rcases mem_append.mp hw with hw | hw
    · apply hans w hw
    · apply absurd (mem_singleton.mp hw).symm (ha w)
  · intro hw
    rcases mem_append.mp hw with hw | hw
    · apply hfail hw
    · apply absurd (mem_singleton.mp hw).symm hf
  · rcases hsrc with hsrc | ⟨⟨i, hi, hreq⟩, hsrc⟩
    · left
      simp [hsrc]
    · right
      use ⟨i, by simp [hi], hreq⟩
      simp [hsrc]

theorem NoOutcome.append {trace : List Event} {n : ℕ} {e : Event}
    (h : NoOutcome trace n) (ha : ∀ w, e ≠ .answered n w) (hf : e ≠ .copyFailed n) :
  NoOutcome (trace ++ [e]) n
  := by
  constructor
  · intro w hw
    rcases mem_append.mp hw with hw | hw
    · apply h.answered w hw
    · apply absurd (mem_singleton.mp hw).symm (ha w)
  · intro hw
    rcases mem_append.mp hw with hw | hw
    · apply h.failed hw
    · apply absurd (mem_singleton.mp hw).symm hf

/-- A call none of whose events is recorded has no outcome. -/
theorem NoOutcome.of_fresh {trace : List Event} {n : ℕ} (h : ∀ e ∈ trace, e.serial ≠ n) :
  NoOutcome trace n
  := by
  constructor
  · intro w hw
    apply h _ hw rfl
  · intro hw
    apply h _ hw rfl

/-- What the accounting looks at: the tokens of `question_lock` and of `answer_lock`, the
record, the answer cell, the daemon thread, and the records of the protocol. -/
structure View where
  question : ℕ
  answer : ℕ
  info : AuditsecInfo
  cell : Int
  daemon : DaemonPc
  writer : ℕ
  taken : ℕ
  author : ℕ
  trace : List Event

namespace View

/-- No token of `question_lock` or `answer_lock` is left, and the daemon has nothing in
hand. -/
structure Quiet (s : View) : Prop where
  question : s.question = 0
  answer : s.answer = 0
  daemon : s.daemon.Idle

/-- The request of call `c` is posted and still in the record. -/
structure Posted (s : View) (c : HookCall) : Prop where
  event : .posted c.serial c.request ∈ s.trace
  info : s.info.request = c.request
  writer : s.writer = c.serial

/-- The daemon was delivered the request of call `c` and has not answered it. -/
structure Delivered (s : View) (c : HookCall) : Prop where
  taken : s.taken = c.serial
  event : ∃ i, .delivered c.serial i ∈ s.trace ∧ i.request = c.request
  outcome : NoOutcome s.trace c.serial

/-- The answer cell holds the outcome of call `c`. -/
structure Settled (s : View) (c : HookCall) : Prop where
  author : s.author = c.serial
  outcome : Outcome s.trace c.serial c.request s.cell

/-- What the daemon has done so far with the question of call `c` it has in hand. -/
def Busy (s : View) (c : HookCall) : DaemonPc → Prop
  | .asking .questionCopy =>
      NoOutcome s.trace c.serial ∧ ∀ i, .delivered c.serial i ∉ s.trace
  | .asking .questionReject =>
      s.taken = c.serial ∧ .copyFailed c.serial ∈ s.trace ∧
        ∀ w, .answered c.serial w ∉ s.trace
  | .asking .questionRejectUp => s.Settled c
  | .asking (.ret r) => r = 0 ∧ s.Delivered c
  | .deciding => s.Delivered c
  | .answering (.answer _) => s.Delivered c
  | .answering (.answerStore _) => s.Delivered c
  | .answering .answerUp => s.Settled c
  | _ => False

/-- Where the question of a call that was posted and not yet settled is. -/
inductive Pending (s : View) (c : HookCall) : Prop where
  /-- On `question_lock`. -/
  | offered (question : s.question = 1) (answer : s.answer = 0) (daemon : s.daemon.Idle)
      (outcome : NoOutcome s.trace c.serial) (undelivered : ∀ i, .delivered c.serial i ∉ s.trace)
  /-- In the hands of the daemon. -/
  | taken (question : s.question = 0) (answer : s.answer = 0) (busy : s.Busy c s.daemon)
  /-- Answered, with the token on `answer_lock`. -/
  | answered (question : s.question = 0) (answer : s.answer = 1) (daemon : s.daemon.Idle)
      (settled : s.Settled c)

/-- The record of a call whose assignments `ws` are left. -/
structure Filling (s : View) (c : HookCall) (ws : List Write) : Prop where
  fresh : ∀ e ∈ s.trace, e.serial ≠ c.serial
  written : ∃ before i, c.writes = before ++ ws ∧
    s.info = before.foldl AuditsecInfo.write i ∧ (before ≠ [] → s.writer = c.serial)

/-- What holds of the task inside the critical section. -/
def Stage (s : View) : HookPc → Prop
  | .fill c ws => s.Quiet ∧ s.Filling c ws
  | .answerDown c => s.Posted c ∧ s.Pending c
  | .answerWait c => s.Posted c ∧ s.Pending c
  | .expired c => s.Posted c ∧ s.Pending c
  | .read c => s.Quiet ∧ s.Posted c ∧ s.Settled c
  | .release c ret =>
      s.Quiet ∧ (ret = -EFAULT ∨
        ∃ v, Outcome s.trace c.serial c.request v ∧ ret = verdictCode v)
  | _ => False

/-! ### How the stages follow each other -/

variable {v : View} {c : HookCall}

/-- The next assignment to the record. -/
theorem Filling.write {w : Write} {ws : List Write} (h : v.Filling c (w :: ws)) :
  { v with info := v.info.write w, writer := c.serial }.Filling c ws
  := by
  obtain ⟨hfr, before, i, hwr, hinfo, -⟩ := h
  use hfr, before ++ [w], i
  simp [hwr, hinfo]

/-- The record is complete once no assignment is left, and its token is released. -/
theorem Filling.post (h : v.Filling c []) (hq : v.Quiet) :
  { v with
    question := v.question + 1
    trace := v.trace ++ [Event.posted c.serial c.request] }.Posted c ∧
  { v with
    question := v.question + 1
    trace := v.trace ++ [Event.posted c.serial c.request] }.Pending c
  := by
  obtain ⟨hfr, before, i, hwr, hinfo, hwriter⟩ := h
  obtain ⟨hquestion, hans, hidle⟩ := hq
  rw [append_nil] at hwr
  constructor
  · constructor
    · simp
    · change v.info.request = c.request
      rw [hinfo, ← hwr, request_foldl_writes]
    · apply hwriter
      rw [← hwr]
      apply c.writes_ne_nil
  · apply Pending.offered
    · simp [hquestion]
    · apply hans
    · apply hidle
    · apply (NoOutcome.of_fresh hfr).append <;> simp
    · intro i hi
      rcases mem_append.mp hi with hi | hi
      · apply hfr _ hi rfl
      · simp at hi

/-- An answer token is there only when the question is answered. -/
theorem Pending.take_answer (h : v.Pending c) {n : ℕ} (hn : v.answer = n + 1) :
  { v with answer := n }.Quiet ∧ { v with answer := n }.Settled c
  := by
  cases h with
  | offered _ ha => omega
  | taken _ ha => omega
  | answered hq ha hi hset =>
    obtain rfl : n = 0 := by omega
    use ⟨hq, rfl, hi⟩, hset.author
    apply hset.outcome

/-- A question token is there only when the question is offered. -/
theorem Pending.take_question (h : v.Pending c) {n : ℕ} (hn : v.question = n + 1) :
  n = 0 ∧ v.answer = 0 ∧ v.daemon.Idle ∧ NoOutcome v.trace c.serial ∧
    ∀ i, .delivered c.serial i ∉ v.trace
  := by
  cases h with
  | offered hq ha hi hno hund => use (by omega), ha, hi, hno
  | taken hq => omega
  | answered hq => omega

/-- The copy of the posted record to the daemon delivers the request of the call. -/
theorem Posted.deliver (h : v.Posted c) (hno : NoOutcome v.trace c.serial) :
  { v with
    taken := v.writer
    trace := v.trace ++ [Event.delivered v.writer v.info] }.Delivered c
  := by
  constructor
  · apply h.writer
  · use v.info
    simp [h.writer, h.info]
  · apply hno.append <;> simp

/-- The answer cell is cleared for a call whose copy failed. -/
theorem Settled.of_failed (h : v.Posted c) (htk : v.taken = c.serial)
    (hfail : .copyFailed c.serial ∈ v.trace) (hno : ∀ w, .answered c.serial w ∉ v.trace) :
  { v with author := v.taken, cell := 0 }.Settled c
  := by
  use htk
  constructor
  · apply h.event
  · intro w hw
    apply absurd hw (hno w)
  · simp
  · left
    apply hfail

/-- The answer cell holds the answer to the request the daemon was delivered. -/
theorem Delivered.answer (h : v.Posted c) (hdel : v.Delivered c) (w : Int) :
  { v with
    author := v.taken
    cell := w
    trace := v.trace ++ [Event.answered v.taken w] }.Settled c
  := by
  obtain ⟨htk, ⟨i, hi, hreq⟩, hno⟩ := hdel
  use htk
  constructor
  · simp [h.event]
  · intro u hu
    rcases mem_append.mp hu with hu | hu
    · apply absurd hu (hno.answered u)
    · simp only [mem_singleton, Event.answered.injEq] at hu
      apply hu.2
  · intro hf
    rcases mem_append.mp hf with hf | hf
    · apply absurd hf hno.failed
    · simp at hf
  · right
    use ⟨i, by simp [hi], hreq⟩
    simp [htk]

/-- A daemon with a question in hand is not idle. -/
theorem Busy.not_idle {d : DaemonPc} (h : v.Busy c d) :
  ¬ d.Idle
  := by
  intro hi
  rcases d with _ | ⟨_ | _ | _ | _ | _ | _ | _ | _ | _ | r⟩ | _ |
    ⟨_ | _ | _ | _ | _ | _ | _ | _ | _ | r⟩ | _
  all_goals first
    | apply absurd h id
    | apply absurd hi id
    | apply absurd h.1 hi

/-- An idle daemon that stays idle keeps the stage of the call. -/
theorem Stage.idle {pc : HookPc} {d : DaemonPc} (h : v.Stage pc) (hi : v.daemon.Idle)
    (hd : d.Idle) :
  { v with daemon := d }.Stage pc
  := by
  have hqt : v.Quiet → { v with daemon := d }.Quiet := by
    intro hq
    use hq.question, hq.answer
  have hpost : ∀ c, v.Posted c → { v with daemon := d }.Posted c := by
    intro c hp
    use hp.event, hp.info, hp.writer
  have hpend : ∀ c, v.Pending c → { v with daemon := d }.Pending c := by
    intro c hp
    cases hp with
    | offered hq ha _ hno hund => exact .offered hq ha hd hno hund
    | taken _ _ hbusy => apply absurd hi hbusy.not_idle
    | answered hq ha _ hs => exact .answered hq ha hd ⟨hs.author, hs.outcome⟩
  cases pc with
  | fill c ws => exact ⟨hqt h.1, h.2.fresh, h.2.written⟩
  | answerDown c => use hpost c h.1, hpend c h.2
  | answerWait c => use hpost c h.1, hpend c h.2
  | expired c => use hpost c h.1, hpend c h.2
  | read c => exact ⟨hqt h.1, hpost c h.2.1, h.2.2.author, h.2.2.outcome⟩
  | release c ret => use hqt h.1, h.2
  | _ => apply h

end View

namespace Protocol

/-- What the accounting sees of a state. -/
def view (s : Protocol) : View where
  question := s.kernel.questionLock.tokens
  answer := s.kernel.answerLock.tokens
  info := s.kernel.info
  cell := s.kernel.answer
  daemon := s.daemon
  writer := s.writer
  taken := s.taken
  author := s.author
  trace := s.trace

/-- At most one task is inside the critical section of the hooks. -/
inductive Phase (s : Protocol) : Prop where
  | free (outside : ∀ t, ¬ (s.hooks t).Inside) (hook : s.kernel.hookLock.tokens = 1)
      (quiet : s.view.Quiet)
  | held (t : ℕ) (c : HookCall) (call : (s.hooks t).call? = some c)
      (inside : (s.hooks t).Inside) (others : ∀ u, u ≠ t → ¬ (s.hooks u).Inside)
      (hook : s.kernel.hookLock.tokens = 0) (pending : ∀ ret, .returned c.serial ret ∉ s.trace)
      (stage : s.view.Stage (s.hooks t))

/-- The calls have distinct serial numbers, and those that do not have `hook_lock` yet left
no event. -/
structure Serials (s : Protocol) : Prop where
  lt : ∀ t c, (s.hooks t).call? = some c → c.serial < s.calls
  inj : ∀ t u c d, (s.hooks t).call? = some c → (s.hooks u).call? = some d →
    c.serial = d.serial → t = u
  fresh : ∀ t c, (s.hooks t).Before → (s.hooks t).call? = some c →
    ∀ e ∈ s.trace, e.serial ≠ c.serial

/-- What the trace records. -/
structure History (s : Protocol) : Prop where
  lt : ∀ e ∈ s.trace, e.serial < s.calls
  once : ∀ n, s.trace.countP (Event.isDelivery n) ≤ 1
  verdict : ∀ n m ret, .verdict n m ret ∈ s.trace → m = n
  returned : ∀ n ret, .returned n ret ∈ s.trace →
    ret = -EFAULT ∨ ∃ r v, Outcome s.trace n r v ∧ ret = verdictCode v

/-- The invariant of the protocol. -/
structure Inv (tgid : Int) (s : Protocol) : Prop where
  daemon : s.kernel.isDaemon tgid = true
  serials : s.Serials
  history : s.History
  phase : s.Phase

/-- The step does not find the question gone after the wait for its answer expired: a task
that tries to take its question back succeeds. -/
def reclaims (s : Protocol) : Action → Prop
  | .hook t _ => (s.hooks t).isExpired → 0 < s.kernel.questionLock.count
  | .call .. => True
  | .daemon _ => True

instance (s : Protocol) (a : Action) : Decidable (s.reclaims a) :=
  match a with
  | .hook t _ =>
      inferInstanceAs (Decidable ((s.hooks t).isExpired → 0 < s.kernel.questionLock.count))
  | .call .. => inferInstanceAs (Decidable True)
  | .daemon _ => inferInstanceAs (Decidable True)

end Protocol

end Kernel

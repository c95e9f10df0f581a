import Contextd.Kernel.Timed

/-!
# Waits in time

The invariant of the protocol in time, as long as no call of `auditsec_question` fails
(`Timed.Inv`): the accounting of the tokens, who waits on which lock (`Protocol.Seated`), and how
long the hook that waits for its answer has done so (`Timed.Clocked`).  Time passes during such a
wait only while the daemon computes the verdict, which takes less time than the wait.
-/

namespace Kernel

open List

namespace Protocol

variable {t : ℕ}

variable {d : ℕ} {tgid : Int} {s s' : Protocol}

/-! ### Who waits where -/

/-- The hook has returned, or will return, what the daemon answered to its call. -/
def Replied (s : Protocol) (c : HookCall) (ret : Int) : Prop :=
  ∃ v, .answered c.serial v ∈ s.trace ∧ ret = verdictCode v

theorem Replied.append {c : HookCall} {ret : Int} (h : s.Replied c ret) {es : List Event}
    (htr : s'.trace = s.trace ++ es) :
  s'.Replied c ret
  := by
  obtain ⟨v, hv, rfl⟩ := h
  use v
  simp [htr, hv]

/-- The daemon serves questions and is the only task in a wait on `question_lock`; the only
task in a wait on `answer_lock` is the hook that sleeps there.  No wait for an answer has
expired, no copy has failed, and the hook that is about to return had an answer. -/
structure Seated (d : ℕ) (s : Protocol) : Prop where
  serving : s.daemon.Serving
  unexpired : ∀ t, (s.hooks t).isExpired = false
  question : s.kernel.questionLock.waiters = if s.daemon.isQuestionWait then {d} else 0
  answer : ∀ t, (s.hooks t).isAnswerWait = true → s.kernel.answerLock.waiters = {t}
  answer_none : (∀ t, (s.hooks t).isAnswerWait = false) → s.kernel.answerLock.waiters = 0
  copied : ∀ n, .copyFailed n ∉ s.trace
  replied : ∀ t c ret, s.hooks t = .release c ret → s.Replied c ret

/-- A step of the daemon that keeps the waiting tasks. -/
theorem Seated.daemon (h : s.Seated d) (hhk : s'.hooks = s.hooks) (hserv : s'.daemon.Serving)
    (hq : s'.kernel.questionLock.waiters = if s'.daemon.isQuestionWait then {d} else 0)
    (hans : s'.kernel.answerLock.waiters = s.kernel.answerLock.waiters) {es : List Event}
    (htr : s'.trace = s.trace ++ es) (hes : ∀ n, .copyFailed n ∉ es) :
  s'.Seated d
  := by
  refine ⟨hserv, ?_, hq, ?_, ?_, ?_, ?_⟩
  · rw [hhk]
    apply h.unexpired
  · rw [hhk, hans]
    apply h.answer
  · rw [hhk, hans]
    apply h.answer_none
  · intro n hn
    rw [htr, mem_append] at hn
    rcases hn with hn | hn
    · apply h.copied n hn
    · apply hes n hn
  · intro t c ret hpc
    rw [hhk] at hpc
    apply (h.replied t c ret hpc).append htr

theorem Seated.daemonMove (h : s.Seated d) (hm : DaemonMove d s s') :
  s'.Seated d
  := by
  have hq := h.question
  have hnil : ∀ n, Event.copyFailed n ∉ [] := fun n => not_mem_nil
  cases hm with
  | ask pc | test pc | decide pc | verdict pc v | enter pc | back pc =>
    rw [pc] at hq
    exact h.daemon rfl trivial hq rfl (append_nil _).symm hnil
  | take pc hl =>
    rw [pc] at hq
    refine h.daemon rfl trivial ?_ rfl (append_nil _).symm hnil
    apply (Semaphore.waiters_take hl).trans hq
  | sleep pc hl =>
    rw [pc] at hq
    refine h.daemon rfl trivial ?_ rfl (append_nil _).symm hnil
    refine (Semaphore.waiters_sleep hl).trans ?_
    rw [hq]
    rfl
  | wake pc hl =>
    rw [pc] at hq
    refine h.daemon rfl trivial ?_ rfl (append_nil _).symm hnil
    have hcons := (Semaphore.waiters_wake hl).symm.trans hq
    apply (Multiset.cons_inj_right d).mp hcons
  | copy pc =>
    rw [pc] at hq
    exact h.daemon rfl rfl hq rfl rfl (by simp)
  | store pc =>
    rw [pc] at hq
    exact h.daemon rfl trivial hq rfl rfl (by simp)
  | up pc =>
    rw [pc] at hq
    exact h.daemon rfl trivial hq (Semaphore.waiters_up _) (append_nil _).symm hnil

/-- A step of a hook. -/
theorem Seated.hook (h : s.Seated d) {t : ℕ} {pc : HookPc}
    (hhk : s'.hooks = Function.update s.hooks t pc) (hdm : s'.daemon = s.daemon)
    (hexp : pc.isExpired = false)
    (hq : s'.kernel.questionLock.waiters = s.kernel.questionLock.waiters)
    (hans : ∀ u, (Function.update s.hooks t pc u).isAnswerWait = true →
      s'.kernel.answerLock.waiters = {u})
    (hnone : (∀ u, (Function.update s.hooks t pc u).isAnswerWait = false) →
      s'.kernel.answerLock.waiters = 0)
    {es : List Event} (htr : s'.trace = s.trace ++ es) (hes : ∀ n, .copyFailed n ∉ es)
    (hrep : ∀ c ret, pc = .release c ret → s'.Replied c ret) :
  s'.Seated d
  := by
  refine ⟨?_, ?_, ?_, by rwa [hhk], by rwa [hhk], ?_, ?_⟩
  · rw [hdm]
    apply h.serving
  · rw [hhk]
    apply (Function.forall_update_iff s.hooks (p := fun _ pc => pc.isExpired = false)).mpr
    exact ⟨hexp, fun u _ => h.unexpired u⟩
  · rw [hq, hdm]
    apply h.question
  · intro n hn
    rw [htr, mem_append] at hn
    rcases hn with hn | hn
    · apply h.copied n hn
    · apply hes n hn
  · intro u c ret hpc
    rw [hhk] at hpc
    by_cases hu : u = t
    · subst hu
      rw [Function.update_self] at hpc
      apply hrep c ret hpc
    · rw [Function.update_of_ne hu] at hpc
      apply (h.replied u c ret hpc).append htr

/-- A step of a hook that neither goes to sleep on `answer_lock` nor wakes up there. -/
theorem Seated.hook_awake (h : s.Seated d) {pc : HookPc}
    (hhk : s'.hooks = Function.update s.hooks t pc) (hdm : s'.daemon = s.daemon)
    (hold : (s.hooks t).isAnswerWait = false) (hnew : pc.isAnswerWait = false)
    (hexp : pc.isExpired = false)
    (hq : s'.kernel.questionLock.waiters = s.kernel.questionLock.waiters)
    (hans : s'.kernel.answerLock.waiters = s.kernel.answerLock.waiters) {es : List Event}
    (htr : s'.trace = s.trace ++ es) (hes : ∀ n, .copyFailed n ∉ es)
    (hrep : ∀ c ret, pc = .release c ret → s'.Replied c ret) :
  s'.Seated d
  := by
  have hw : ∀ u, (Function.update s.hooks t pc u).isAnswerWait = (s.hooks u).isAnswerWait := by
    intro u
    by_cases hu : u = t
    · rw [hu, Function.update_self, hold, hnew]
    · rw [Function.update_of_ne hu]
  apply h.hook hhk hdm hexp hq _ _ htr hes hrep
  · intro u hu
    rw [hw] at hu
    rw [hans, h.answer u hu]
  · intro hu
    simp only [hw] at hu
    rw [hans, h.answer_none hu]

/-- The task inside is the only one that may sleep on `answer_lock`. -/
theorem Phase.isAnswerWait_of_ne (hs : s.Phase) {u : ℕ} (hin : (s.hooks t).Inside) (hu : u ≠ t) :
  (s.hooks u).isAnswerWait = false
  := by
  obtain ⟨-, -, hoth, -⟩ := hs.of_inside hin
  have hout := hoth u hu
  cases hpc : s.hooks u with
  | answerWait c =>
    rw [hpc] at hout
    apply absurd trivial hout
  | _ => rfl

/-- A hook goes to sleep on `answer_lock`. -/
theorem Seated.hook_sleep (h : s.Seated d) (hinv : s.Inv tgid) {c : HookCall} {l : Semaphore ℕ}
    (hpc : s.hooks t = .answerDown c) (hl : s.kernel.answerLock.sleep t = some l) :
  ({ s with
    kernel := { s.kernel with answerLock := l }
    hooks := Function.update s.hooks t (.answerWait c) } : Protocol).Seated d
  := by
  have hin : (s.hooks t).Inside := by rw [hpc]; trivial
  have hn : ∀ u, (s.hooks u).isAnswerWait = false := by
    intro u
    by_cases hu : u = t
    · rw [hu, hpc]
      rfl
    · apply hinv.phase.isAnswerWait_of_ne hin hu
  have hwts : l.waiters = {t} := by
    rw [Semaphore.waiters_sleep hl, h.answer_none hn]
    rfl
  refine h.hook rfl rfl rfl rfl ?_ ?_ (append_nil _).symm (fun _ => not_mem_nil)
    (fun _ _ => HookPc.noConfusion)
  · intro u hu
    by_cases hut : u = t
    · rw [hut]
      apply hwts
    · rw [Function.update_of_ne hut, hn u] at hu
      cases hu
  · intro hall
    have := hall t
    rw [Function.update_self] at this
    cases this

/-- A hook wakes up on `answer_lock`. -/
theorem Seated.hook_wake (h : s.Seated d) (hinv : s.Inv tgid) {c : HookCall} {l : Semaphore ℕ}
    (hpc : s.hooks t = .answerWait c) (hl : s.kernel.answerLock.wake t = some l) :
  ({ s with
    kernel := { s.kernel with answerLock := l }
    hooks := Function.update s.hooks t (.read c) } : Protocol).Seated d
  := by
  have hin : (s.hooks t).Inside := by rw [hpc]; trivial
  have hself : (s.hooks t).isAnswerWait = true := by rw [hpc]; rfl
  have hwts : l.waiters = 0 := by
    have hcons := (Semaphore.waiters_wake hl).symm.trans (h.answer t hself)
    apply (Multiset.cons_inj_right t).mp hcons
  refine h.hook rfl rfl rfl rfl ?_ (fun _ => hwts) (append_nil _).symm
    (fun _ => not_mem_nil) (fun _ _ => HookPc.noConfusion)
  intro u hu
  by_cases hut : u = t
  · rw [hut, Function.update_self] at hu
    cases hu
  · rw [Function.update_of_ne hut, hinv.phase.isAnswerWait_of_ne hin hut] at hu
    cases hu

theorem Seated.hookMove (h : s.Seated d) (hinv : s.Inv tgid) (hm : HookMove t s s') :
  s'.Seated d
  := by
  have hnil : ∀ n, Event.copyFailed n ∉ [] := fun n => not_mem_nil
  cases hm with
  | @outside hout l pc hpc =>
    have hold : (s.hooks t).isAnswerWait = false := by
      cases heq : s.hooks t <;> simp_all [HookPc.Inside, HookPc.isAnswerWait]
    have hnew : pc.isAnswerWait = false ∧ pc.isExpired = false ∧
        ∀ c ret, pc ≠ .release c ret := by
      cases pc <;> simp_all [HookPc.Inside, HookPc.isAnswerWait, HookPc.isExpired]
    exact h.hook_awake rfl rfl hold hnew.1 hnew.2.1 rfl rfl (append_nil _).symm hnil
      (fun c ret heq => absurd heq (hnew.2.2 c ret))
  | write hpc =>
    have hold : (s.hooks t).isAnswerWait = false := by rw [hpc]; rfl
    exact h.hook_awake rfl rfl hold rfl rfl rfl rfl (append_nil _).symm hnil
      (fun _ _ => HookPc.noConfusion)
  | post hpc =>
    have hold : (s.hooks t).isAnswerWait = false := by rw [hpc]; rfl
    exact h.hook_awake rfl rfl hold rfl rfl (Semaphore.waiters_up _) rfl rfl (by simp)
      (fun _ _ => HookPc.noConfusion)
  | take hpc hl =>
    have hold : (s.hooks t).isAnswerWait = false := by rw [hpc]; rfl
    exact h.hook_awake rfl rfl hold rfl rfl rfl (Semaphore.waiters_take hl)
      (append_nil _).symm hnil (fun _ _ => HookPc.noConfusion)
  | sleep hpc hl => exact h.hook_sleep hinv hpc hl
  | wake hpc hl => exact h.hook_wake hinv hpc hl
  | @read c hpc =>
    have hold : (s.hooks t).isAnswerWait = false := by rw [hpc]; rfl
    obtain ⟨-, -, hset⟩ := hinv.stage hpc trivial
    refine h.hook_awake rfl rfl hold rfl rfl rfl rfl rfl (by simp) ?_
    rintro _ _ ⟨rfl, rfl⟩
    rcases hset.outcome.source with hfail | ⟨-, hans⟩
    · apply absurd hfail (h.copied _)
    · exact ⟨_, mem_append_left _ hans, rfl⟩
  | release hpc =>
    have hold : (s.hooks t).isAnswerWait = false := by rw [hpc]; rfl
    exact h.hook_awake rfl rfl hold rfl rfl rfl rfl rfl (by simp) (fun _ _ => HookPc.noConfusion)

/-- A question is on `question_lock`, or the daemon has it and no verdict yet. -/
def Unanswered (s : Protocol) : Prop :=
  0 < s.kernel.questionLock.tokens ∨ s.daemon.isHolding = true

theorem DaemonMove.hooks (h : DaemonMove d s s') :
  s'.hooks = s.hooks
  := by
  cases h <;> rfl

/-- The daemon puts nobody to sleep on `answer_lock`. -/
theorem DaemonMove.mem_waitList (h : DaemonMove d s s') (ht : t ∈ s'.kernel.answerLock.waitList) :
  t ∈ s.kernel.answerLock.waitList
  := by
  cases h with
  | up pc => apply Semaphore.mem_waitList_of_up ht
  | _ => apply ht

/-- The daemon begins with a verdict when it has a question. -/
theorem DaemonMove.pc_of_deciding (h : DaemonMove d s s') (hd : s'.daemon = .deciding) :
  s.daemon = .asking (.ret 0)
  := by
  cases h with
  | decide pc => apply pc
  | _ => cases hd

/-- The daemon ends with a verdict. -/
theorem DaemonMove.of_deciding (h : DaemonMove d s s') (hd : s.daemon = .deciding) :
  ∃ v, s' = { s with daemon := .answering (.answer v) }
  := by
  cases h with
  | verdict pc v => exact ⟨v, rfl⟩
  | ask pc | test pc | take pc | sleep pc | wake pc | copy pc | decide pc | enter pc
  | store pc | up pc | back pc => cases hd.symm.trans pc

/-- The daemon posts no question. -/
theorem DaemonMove.unanswered (h : DaemonMove d s s') (hs : s'.Unanswered) :
  s.Unanswered
  := by
  have hold : s.daemon.isHolding = true → s.Unanswered := .inr
  cases h with
  | ask pc | test pc | enter pc | store pc | up pc | back pc =>
    rcases hs with hs | hs
    · exact .inl hs
    · cases hs
  | take pc hl =>
    left
    rw [Semaphore.tokens_take hl]
    omega
  | sleep pc hl =>
    rcases hs with hs | hs
    · rw [Semaphore.tokens_sleep hl] at hs
      exact .inl hs
    · cases hs
  | wake pc hl =>
    left
    rw [Semaphore.tokens_wake hl]
    omega
  | copy pc | decide pc | verdict pc v =>
    apply hold
    rw [pc]
    rfl

theorem HookMove.daemon (h : HookMove t s s') :
  s'.daemon = s.daemon
  := by
  cases h <;> rfl

theorem HookMove.hooks_of_ne {u : ℕ} (h : HookMove t s s') (hu : u ≠ t) :
  s'.hooks u = s.hooks u
  := by
  cases h <;> exact Function.update_of_ne hu _ _

/-- Outside the critical section a task touches no lock but `hook_lock`. -/
theorem HookMove.of_outside (h : HookMove t s s') (hout : ¬ (s.hooks t).Inside) :
  s'.kernel.questionLock = s.kernel.questionLock ∧ s'.kernel.answerLock = s.kernel.answerLock
  := by
  cases h with
  | outside => exact ⟨rfl, rfl⟩
  | write hpc | post hpc | take hpc | sleep hpc | wake hpc | read hpc | release hpc =>
    rw [hpc] at hout
    apply absurd trivial hout

end Protocol

/-- The request of call `c` is posted, and the call has not returned. -/
def HookPc.Committed (c : HookCall) (pc : HookPc) : Prop :=
  pc = .answerDown c ∨ pc = .answerWait c ∨ pc = .read c ∨ ∃ ret, pc = .release c ret

theorem HookPc.Committed.inside {c : HookCall} {pc : HookPc} (h : pc.Committed c) :
  pc.Inside
  := by
  rcases h with rfl | rfl | rfl | ⟨ret, rfl⟩ <;> trivial

theorem HookPc.Committed.call?_eq {c : HookCall} {pc : HookPc} (h : pc.Committed c) :
  pc.call? = some c
  := by
  rcases h with rfl | rfl | rfl | ⟨ret, rfl⟩ <;> rfl

namespace Timed

open Protocol (DaemonChoice)

variable {HZ d : ℕ} {tgid : Int} {s s' : Timed}

/-! ### States in which time passes -/

/-- A daemon that cannot go on computes a verdict, or waits for a question and there is
none. -/
theorem AtRest.daemon_cases (hr : s.AtRest HZ d tgid) (hinv : s.protocol.Inv tgid)
    (hseat : s.protocol.Seated d) :
  s.protocol.daemon = .deciding ∨
    s.protocol.daemon = .asking .questionWait ∧ s.protocol.kernel.questionLock.tokens = 0
  := by
  have hserv := hseat.serving
  have hq := hseat.question
  have hgo : loops s.protocol.daemon (.syscall .go) = true →
      Protocol.daemonStep d tgid s.protocol (.syscall .go) = none := by
    intro hls
    have hn := hr.daemon
    simpa [step, permits, hls, Protocol.step] using hn
  cases hd : s.protocol.daemon with
  | loop =>
    have hn := hgo (by rw [hd]; rfl)
    simp [Protocol.daemonStep, hd] at hn
  | asking pc =>
    rw [hd] at hserv hq
    cases pc with
    | question =>
      have hn := hgo (by rw [hd]; rfl)
      simp [Protocol.daemonStep, hd, syscallStep, hinv.daemon] at hn
    | questionDown =>
      have hn := hgo (by rw [hd]; rfl)
      cases htake : s.protocol.kernel.questionLock.take with
      | some l => simp [Protocol.daemonStep, hd, syscallStep, htake] at hn
      | none =>
        obtain ⟨l, hl⟩ := Semaphore.sleep_of_take htake d
        simp [Protocol.daemonStep, hd, syscallStep, htake, hl] at hn
    | questionWait =>
      have hn := hgo (by rw [hd]; rfl)
      right
      use rfl
      by_contra htok
      have hwk : d ∈ s.protocol.kernel.questionLock.woken :=
        Semaphore.mem_woken hq (Nat.pos_of_ne_zero htok)
      simp [Protocol.daemonStep, hd, syscallStep, Semaphore.wake, hwk] at hn
    | questionCopy =>
      have hn := hgo (by rw [hd]; rfl)
      simp [Protocol.daemonStep, hd, syscallStep] at hn
    | ret r =>
      obtain rfl : r = 0 := hserv
      have hn := hgo (by rw [hd]; rfl)
      simp [Protocol.daemonStep, hd] at hn
    | questionReject | questionRejectUp | answer | answerStore | answerUp => cases hserv
  | deciding => exact .inl rfl
  | answering pc =>
    rw [hd] at hserv
    have hn := hgo (by rw [hd]; rfl)
    cases pc with
    | answer v => simp [Protocol.daemonStep, hd, syscallStep, hinv.daemon] at hn
    | answerStore v => simp [Protocol.daemonStep, hd, syscallStep] at hn
    | answerUp => simp [Protocol.daemonStep, hd, syscallStep] at hn
    | ret r => simp [Protocol.daemonStep, hd] at hn
    | question | questionDown | questionWait | questionCopy | questionReject
    | questionRejectUp => cases hserv
  | stopped =>
    rw [hd] at hserv
    cases hserv

/-- When time passes and a call is posted and has not returned, its hook is asleep and the
daemon computes the verdict. -/
theorem AtRest.deciding (hr : s.AtRest HZ d tgid) (hinv : s.protocol.Inv tgid)
    (hseat : s.protocol.Seated d) {t : ℕ} {c : HookCall} (hc : (s.protocol.hooks t).Committed c) :
  s.protocol.hooks t = .answerWait c ∧ s.protocol.daemon = .deciding
  := by
  have hgo : hookStep t .go s.protocol.kernel (s.protocol.hooks t) = none := by
    simpa [step, permits, Protocol.step] using hr.hooks t .go
  rcases hc with hpc | hpc | hpc | ⟨ret, hpc⟩
  · rw [hpc] at hgo
    cases htake : s.protocol.kernel.answerLock.take with
    | some l => simp [hookStep, downOrSleep, htake] at hgo
    | none =>
      obtain ⟨l, hl⟩ := Semaphore.sleep_of_take htake t
      simp [hookStep, downOrSleep, htake, hl] at hgo
  · refine ⟨hpc, ?_⟩
    have hans : s.protocol.kernel.answerLock.tokens = 0 := by
      by_contra htok
      have hwts := hseat.answer t (by rw [hpc]; rfl)
      have hwk : t ∈ s.protocol.kernel.answerLock.woken :=
        Semaphore.mem_woken hwts (Nat.pos_of_ne_zero htok)
      simp [hpc, hookStep, wakeOrGiveUp, Semaphore.wake, hwk] at hgo
    obtain ⟨-, hpend⟩ := hinv.stage hpc trivial
    rcases hr.daemon_cases hinv hseat with hd | ⟨hd, hq⟩
    · apply hd
    · cases hpend with
      | offered hone =>
        have hone : s.protocol.kernel.questionLock.tokens = 1 := hone
        omega
      | taken _ _ hbusy =>
        have hbusy : s.protocol.view.Busy c s.protocol.daemon := hbusy
        rw [hd] at hbusy
        cases hbusy
      | answered _ hone =>
        have hone : s.protocol.kernel.answerLock.tokens = 1 := hone
        omega
  · rw [hpc] at hgo
    cases hgo
  · rw [hpc] at hgo
    cases hgo

/-! ### Waits in time -/

/-- The wait for an answer goes on for less than `30 * HZ` jiffies: it has just begun as long
as the daemon has not begun with the verdict, and the daemon began with it before. -/
structure Clocked (HZ : ℕ) (s : Timed) : Prop where
  verdict : s.protocol.daemon = .deciding → s.daemonSince < 30 * HZ
  inTime : ∀ t, (s.protocol.hooks t).isAnswerWait = true →
    t ∈ s.protocol.kernel.answerLock.waitList → s.since t < 30 * HZ
  deciding : ∀ t, (s.protocol.hooks t).isAnswerWait = true → s.protocol.daemon = .deciding →
    s.since t ≤ s.daemonSince
  unanswered : ∀ t, (s.protocol.hooks t).isAnswerWait = true → s.protocol.Unanswered →
    s.protocol.daemon ≠ .deciding → s.since t = 0

/-- The invariant of the executions in which no call of `auditsec_question` fails. -/
structure Inv (HZ d : ℕ) (tgid : Int) (s : Timed) : Prop where
  protocol : s.protocol.Inv tgid
  seated : s.protocol.Seated d
  clocked : s.Clocked HZ

/-- A call whose hook sleeps on `answer_lock`. -/
theorem exists_call_of_isAnswerWait {pc : HookPc} (h : pc.isAnswerWait = true) :
  ∃ c, pc = .answerWait c
  := by
  cases pc with
  | answerWait c => exact ⟨c, rfl⟩
  | _ => cases h

/-- While the daemon computes the verdict for a call, no question is on `question_lock`. -/
theorem Inv.question_of_deciding (h : s.protocol.Inv tgid) {t : ℕ} {c : HookCall}
    (hc : (s.protocol.hooks t).Committed c) (hd : s.protocol.daemon = .deciding) :
  s.protocol.kernel.questionLock.tokens = 0
  := by
  have hi : ¬ s.protocol.view.daemon.Idle := by
    have heq : s.protocol.view.daemon = .deciding := hd
    rw [heq]
    apply id
  have hpend : s.protocol.view.Pending c → s.protocol.kernel.questionLock.tokens = 0 := by
    intro hpend
    cases hpend with
    | offered _ _ hdm => apply absurd hdm hi
    | taken hq => apply hq
    | answered hq => apply hq
  rcases hc with hpc | hpc | hpc | ⟨ret, hpc⟩
  · apply hpend (h.stage hpc trivial).2
  · apply hpend (h.stage hpc trivial).2
  · apply (h.stage hpc trivial).1.question
  · apply (h.stage hpc trivial).1.question

theorem Clocked.daemonMove (h : s.Clocked HZ) (hHZ : 0 < HZ) (hinv : s.protocol.Inv tgid)
    {p : Protocol} (hm : s.protocol.DaemonMove d p) :
  { s with protocol := p, daemonSince := 0 }.Clocked HZ
  := by
  refine ⟨fun _ => by simpa using hHZ, ?_, ?_, ?_⟩
  · intro t ht hmem
    rw [hm.hooks] at ht
    apply h.inTime t ht (hm.mem_waitList hmem)
  · intro t ht hd
    rw [hm.hooks] at ht
    have hpc := hm.pc_of_deciding hd
    have huna : s.protocol.Unanswered := .inr (by rw [hpc]; rfl)
    have hne : s.protocol.daemon ≠ .deciding := by
      rw [hpc]
      nofun
    apply (h.unanswered t ht huna hne).le
  · intro t ht huna _
    rw [hm.hooks] at ht
    apply h.unanswered t ht (hm.unanswered huna)
    intro hd
    obtain ⟨v, rfl⟩ := hm.of_deciding hd
    obtain ⟨c, hc⟩ := exists_call_of_isAnswerWait ht
    have hzero := Inv.question_of_deciding hinv (.inr (.inl hc)) hd
    rcases huna with hpos | hholding
    · have hpos : 0 < s.protocol.kernel.questionLock.tokens := hpos
      omega
    · cases hholding

theorem Clocked.hookMove (h : s.Clocked HZ) (hHZ : 0 < HZ) (hinv : s.protocol.Inv tgid) {u : ℕ}
    {p : Protocol} (hm : s.protocol.HookMove u p) :
  { s with protocol := p, since := Function.update s.since u 0 }.Clocked HZ
  := by
  have hoth : ∀ t, t ≠ u → (p.hooks t).isAnswerWait = true →
      (s.protocol.hooks t).isAnswerWait = true ∧
      p.kernel.questionLock = s.protocol.kernel.questionLock ∧
      p.kernel.answerLock = s.protocol.kernel.answerLock := by
    intro t ht hw
    rw [hm.hooks_of_ne ht] at hw
    obtain ⟨c, hc⟩ := exists_call_of_isAnswerWait hw
    have hin : (s.protocol.hooks t).Inside := by
      rw [hc]
      trivial
    obtain ⟨-, -, hothers, -⟩ := hinv.phase.of_inside hin
    exact ⟨hw, hm.of_outside (hothers u (Ne.symm ht))⟩
  refine ⟨?_, ?_, ?_, ?_⟩
  · intro hd
    apply h.verdict
    rwa [← hm.daemon]
  · intro t hw hmem
    by_cases ht : t = u
    · simpa [ht] using hHZ
    · obtain ⟨hw, -, hans⟩ := hoth t ht hw
      rw [hans] at hmem
      simp only [Function.update_of_ne ht]
      apply h.inTime t hw hmem
  · intro t hw hd
    by_cases ht : t = u
    · simp [ht]
    · obtain ⟨hw, -, -⟩ := hoth t ht hw
      simp only [Function.update_of_ne ht]
      apply h.deciding t hw
      rwa [← hm.daemon]
  · intro t hw huna hd
    by_cases ht : t = u
    · simp [ht]
    · obtain ⟨hw, hq, -⟩ := hoth t ht hw
      simp only [Function.update_of_ne ht]
      rw [hm.daemon] at hd
      apply h.unanswered t hw _ hd
      rw [Protocol.Unanswered, hq, hm.daemon] at huna
      apply huna

/-- Time passes only while the daemon computes the verdict a hook waits for. -/
theorem Inv.clocked_tick (h : s.Inv HZ d tgid) (hpr : s.Prompt HZ d tgid .tick) :
  { s with
    since := fun t => s.since t + 1
    daemonSince := s.daemonSince + 1 }.Clocked HZ
  := by
  obtain ⟨hr, hver⟩ := hpr
  have hdeciding : ∀ t, (s.protocol.hooks t).isAnswerWait = true →
      s.protocol.daemon = .deciding := by
    intro t hw
    obtain ⟨c, hc⟩ := exists_call_of_isAnswerWait hw
    apply (hr.deciding h.protocol h.seated (.inr (.inl hc))).2
  refine ⟨hver, ?_, ?_, ?_⟩
  · intro t hw _
    have hd := hdeciding t hw
    have hle := h.clocked.deciding t hw hd
    have hlt := hver hd
    simp only
    omega
  · intro t hw hd
    have hle := h.clocked.deciding t hw hd
    simp only
    omega
  · intro t hw _ hne
    apply absurd (hdeciding t hw) hne

/-! ### Steps while no question fails -/

/-- The threads are scheduled fairly, and no call of `auditsec_question` fails. -/
def Undisturbed (HZ d : ℕ) (tgid : Int) (s : Timed) (a : Action) : Prop :=
  s.Prompt HZ d tgid a ∧ ¬ s.QuestionFails a

/-- The steps while no call of `auditsec_question` fails and no wait for an answer expires. -/
inductive Move (HZ d : ℕ) (tgid : Int) (s : Timed) : Action → Timed → Prop where
  | call {t : ℕ} {current : Task} {args : HookArgs} (hpc : s.protocol.hooks t = .idle) :
      Move HZ d tgid s (.act (.call t current args))
        { s with
          protocol :=
            { s.protocol with
              hooks := Function.update s.protocol.hooks t
                (.monitored ⟨s.protocol.calls, current, args⟩)
              calls := s.protocol.calls + 1 } }
  | hook {t : ℕ} {choice : HookChoice} {p : Protocol} (hm : s.protocol.HookMove t p) :
      Move HZ d tgid s (.act (.hook t choice))
        { s with protocol := p, since := Function.update s.since t 0 }
  | daemon {choice : DaemonChoice} {p : Protocol} (hm : s.protocol.DaemonMove d p) :
      Move HZ d tgid s (.act (.daemon choice)) { s with protocol := p, daemonSince := 0 }
  | tick (hpr : s.Prompt HZ d tgid .tick) :
      Move HZ d tgid s .tick
        { s with
          since := fun t => s.since t + 1
          daemonSince := s.daemonSince + 1 }

variable {a : Action}

/-- A step is one of them. -/
theorem Inv.move (h : s.Inv HZ d tgid) (hg : s.Undisturbed HZ d tgid a)
    (hs : s.step HZ d tgid a = some s') :
  s.Move HZ d tgid a s'
  := by
  obtain ⟨hpr, hfails⟩ := hg
  cases a with
  | tick =>
    cases hs
    exact .tick hpr
  | act a =>
    simp only [step, Option.ite_none_right_eq_some] at hs
    obtain ⟨hpermits, hs⟩ := hs
    obtain ⟨p, hp, rfl⟩ := Option.map_eq_some_iff.mp hs
    cases a with
    | call t current args =>
      simp only [Protocol.step] at hp
      split at hp
      · rename_i hpc
        cases hp
        exact .call hpc
      · cases hp
    | hook t choice =>
      obtain ⟨⟨k, pc⟩, hk, rfl⟩ := Option.map_eq_some_iff.mp hp
      apply Move.hook
      apply Protocol.hookMove_of_step (h.seated.unexpired t) _ hk
      rintro rfl hw hm
      have hlt := h.clocked.inTime t hw hm
      obtain ⟨c, hc⟩ := exists_call_of_isAnswerWait hw
      simp only [permits, hc, HookPc.isAsleep, Bool.not_true, Bool.false_or,
        decide_eq_true_eq] at hpermits
      omega
    | daemon choice =>
      apply Move.daemon
      apply Protocol.daemonMove_of_step h.seated.serving h.protocol.daemon hpermits _ _ hp
      · rintro rfl
        apply hfails
      · rintro rfl
        apply hfails

/-- A step of the protocol that keeps the invariant of the protocol. -/
theorem Inv.reclaims (h : s.Inv HZ d tgid) (a : Protocol.Action) :
  s.protocol.reclaims a
  := by
  cases a with
  | call | daemon => trivial
  | hook t choice =>
    intro hexp
    rw [h.seated.unexpired t] at hexp
    cases hexp

theorem Inv.step (h : s.Inv HZ d tgid) (hHZ : 0 < HZ) (hg : s.Undisturbed HZ d tgid a)
    (hs : s.step HZ d tgid a = some s') :
  s'.Inv HZ d tgid
  := by
  have hm := h.move hg hs
  have hprot : s'.protocol.Inv tgid := by
    cases a with
    | tick =>
      cases hs
      exact h.protocol
    | act a =>
      simp only [Timed.step, Option.ite_none_right_eq_some] at hs
      obtain ⟨-, hs⟩ := hs
      obtain ⟨p, hp, rfl⟩ := Option.map_eq_some_iff.mp hs
      have hinv := h.protocol.step (h.reclaims a) hp
      cases a <;> exact hinv
  cases hm with
  | @call t current args hpc =>
    have hw : ∀ u, (Function.update s.protocol.hooks t
        (.monitored ⟨s.protocol.calls, current, args⟩) u).isAnswerWait =
        (s.protocol.hooks u).isAnswerWait := by
      intro u
      by_cases hu : u = t
      · rw [hu, Function.update_self, hpc]
        rfl
      · rw [Function.update_of_ne hu]
    refine ⟨hprot, ?_, ?_⟩
    · have hold : (s.protocol.hooks t).isAnswerWait = false := by
        rw [hpc]
        rfl
      exact h.seated.hook_awake rfl rfl hold rfl rfl rfl rfl (append_nil _).symm
        (fun n => not_mem_nil) nofun
    · have hclk := h.clocked
      constructor
      · exact hclk.verdict
      · intro u hu
        rw [hw] at hu
        apply hclk.inTime u hu
      · intro u hu
        rw [hw] at hu
        apply hclk.deciding u hu
      · intro u hu
        rw [hw] at hu
        apply hclk.unanswered u hu
  | hook hm =>
    exact ⟨hprot, h.seated.hookMove h.protocol hm, h.clocked.hookMove hHZ h.protocol hm⟩
  | daemon hm =>
    exact ⟨hprot, h.seated.daemonMove hm, h.clocked.daemonMove hHZ h.protocol hm⟩
  | tick hpr => exact ⟨hprot, h.seated, h.clocked_tick hpr⟩

theorem inv_initial (tgid : Int) (progs : List (List UInt8)) :
  (initial tgid progs).Inv HZ d tgid
  := by
  refine ⟨Protocol.inv_initial tgid progs, ?_, ?_⟩
  · exact ⟨trivial, fun _ => rfl, rfl, nofun, fun _ => rfl, fun _ => not_mem_nil, nofun⟩
  · exact ⟨nofun, nofun, nofun, nofun⟩

end Timed

end Kernel

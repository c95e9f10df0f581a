import Contextd.Kernel.Punctual

/-!
# Every question is served

In the infinite executions of the protocol in time in which the threads are scheduled fairly
and no call of `auditsec_question` fails, every hook that has posted its question returns what
the daemon answers to it, and the daemon comes back to wait for the next question.

A call that fails once ends the loop of the daemon, and no question is answered from then on.
-/

namespace Kernel

namespace Timed

open Machine.Execution (Forever)

variable {HZ d : ℕ} {tgid : Int} {s s' : Timed} {a : Action}

/-- The hook of call `c` has returned what the daemon answered to it. -/
def Returned (t : ℕ) (c : HookCall) (s : Timed) : Prop :=
  ∃ ret, s.protocol.hooks t = .done c ret ∧ s.protocol.Replied c ret

/-! ### A call that is posted -/

/-- A hook that has posted its question goes on until it returns the answer. -/
theorem Move.committed (hm : s.Move HZ d tgid a s') (h : s.Inv HZ d tgid) {t : ℕ}
    {c : HookCall} (hc : (s.protocol.hooks t).Committed c) :
  Returned t c s' ∨ (s'.protocol.hooks t).Committed c
  := by
  cases hm with
  | @call u current args hpc =>
    right
    have hu : t ≠ u := by
      rintro rfl
      rw [hpc] at hc
      apply hc.inside
    simpa only [Function.update_of_ne hu] using hc
  | @hook u choice p hm =>
    by_cases hu : t = u
    · subst hu
      cases hm with
      | outside hout => apply absurd hc.inside hout
      | write hpc | post hpc =>
        rw [hpc] at hc
        rcases hc with hc | hc | hc | ⟨ret, hc⟩ <;> cases hc
      | take hpc hl | wake hpc hl =>
        have hcall := hc.call?_eq
        rw [hpc] at hcall
        cases hcall
        exact .inr (.inr (.inr (.inl (Function.update_self ..))))
      | sleep hpc hl =>
        have hcall := hc.call?_eq
        rw [hpc] at hcall
        cases hcall
        exact .inr (.inr (.inl (Function.update_self ..)))
      | read hpc =>
        have hcall := hc.call?_eq
        rw [hpc] at hcall
        cases hcall
        exact .inr (.inr (.inr (.inr ⟨_, Function.update_self ..⟩)))
      | @release c' ret hpc =>
        have hcall := hc.call?_eq
        rw [hpc] at hcall
        cases hcall
        exact .inl ⟨ret, Function.update_self .., (h.seated.replied t c ret hpc).append rfl⟩
    · right
      rw [hm.hooks_of_ne hu]
      apply hc
  | daemon hm =>
    right
    rw [hm.hooks]
    apply hc
  | tick => exact .inr hc

/-- No question is posted while a hook is inside. -/
theorem Move.unanswered (hm : s.Move HZ d tgid a s') (h : s.Inv HZ d tgid) {t : ℕ}
    {c : HookCall} (hc : (s.protocol.hooks t).Committed c) (hs : s'.protocol.Unanswered) :
  s.protocol.Unanswered
  := by
  cases hm with
  | call | tick => apply hs
  | daemon hm => apply hm.unanswered hs
  | @hook u choice p hm =>
    have hq : p.kernel.questionLock = s.protocol.kernel.questionLock := by
      by_cases hu : u = t
      · subst hu
        cases hm with
        | post hpc =>
          rw [hpc] at hc
          rcases hc with hc | hc | hc | ⟨ret, hc⟩ <;> cases hc
        | _ => rfl
      · obtain ⟨-, -, hoth, -⟩ := h.protocol.phase.of_inside hc.inside
        apply (hm.of_outside (hoth u hu)).1
    have hs : 0 < p.kernel.questionLock.tokens ∨ p.daemon.isHolding = true := hs
    rw [hq, hm.daemon] at hs
    apply hs

/-- How long the daemon has been computing a verdict. -/
def deciding (s : Timed) : ℕ :=
  match s.protocol.daemon with
  | .deciding => s.daemonSince + 1
  | _ => 0

theorem deciding_eq (hd : s.protocol.daemon = .deciding) :
  s.deciding = s.daemonSince + 1
  := by
  simp only [deciding, hd]

theorem deciding_eq_zero (hd : s.protocol.daemon ≠ .deciding) :
  s.deciding = 0
  := by
  unfold deciding
  split
  · contradiction
  · rfl

/-- While a question is not answered, the daemon goes on with the verdict it has begun. -/
theorem Move.deciding_le (hm : s.Move HZ d tgid a s') (h : s.Inv HZ d tgid) {t : ℕ}
    {c : HookCall} (hc : (s.protocol.hooks t).Committed c) (hs : s'.protocol.Unanswered) :
  s.deciding ≤ s'.deciding ∧ (a = .tick → s.deciding < s'.deciding)
  := by
  by_cases hd : s.protocol.daemon = .deciding
  · cases hm with
    | call =>
      exact ⟨le_refl _, nofun⟩
    | hook hm =>
      refine ⟨?_, nofun⟩
      rw [deciding_eq hd, deciding_eq (hm.daemon.trans hd)]
    | daemon hm =>
      obtain ⟨v, rfl⟩ := hm.of_deciding hd
      have hzero := Inv.question_of_deciding h.protocol hc hd
      rcases hs with hs | hs
      · have hs : 0 < s.protocol.kernel.questionLock.tokens := hs
        omega
      · cases hs
    | tick =>
      have hd' : Timed.deciding
          { s with
            since := fun t => s.since t + 1
            daemonSince := s.daemonSince + 1 } = s.daemonSince + 1 + 1 := deciding_eq hd
      rw [deciding_eq hd, hd']
      omega
  · rw [deciding_eq_zero hd]
    refine ⟨Nat.zero_le _, ?_⟩
    rintro rfl
    cases hm with
    | tick hpr =>
      apply absurd (hpr.1.deciding h.protocol h.seated hc).2 hd

section Executions

variable (E : (timed HZ d tgid).Execution (Undisturbed HZ d tgid))

/-- The invariant holds along the executions. -/
theorem inv_of_execution (hHZ : 0 < HZ) (hi : (timed HZ d tgid).init (E.state 0)) (i : ℕ) :
  (E.state i).Inv HZ d tgid
  := by
  apply Machine.Reach.invariant _ _ (E.reach hi i)
  · rintro s ⟨progs, rfl⟩
    apply inv_initial
  · intro s a s' hs hg hstep
    apply hs.step hHZ hg hstep

variable (hinv : ∀ i, (E.state i).Inv HZ d tgid)
  (hticks : Forever fun i => E.action i = .tick)

include hinv hticks

/-- A question that is posted is answered. -/
theorem leadsTo_answered (t : ℕ) (c : HookCall) :
  E.LeadsTo (fun s => (s.protocol.hooks t).Committed c ∧ s.protocol.Unanswered)
    fun s => Returned t c s ∨ (s.protocol.hooks t).Committed c ∧ ¬ s.protocol.Unanswered
  := by
  apply E.leadsTo_of_clock Timed.deciding (30 * HZ) hticks
  · rintro i ⟨hc, -⟩ htick
    have hpr := (E.guarded i).1
    rw [htick] at hpr
    have hd := (hpr.1.deciding (hinv i).protocol (hinv i).seated hc).2
    rw [deciding_eq hd]
    apply hpr.2 hd
  · rintro i ⟨hc, -⟩
    have hm := (hinv i).move (E.guarded i) (E.step i)
    rcases hm.committed (hinv i) hc with hret | hc'
    · exact .inl (.inl hret)
    · by_cases hs : (E.state (i + 1)).protocol.Unanswered
      · exact .inr ⟨⟨hc', hs⟩, hm.deciding_le (hinv i) hc hs⟩
      · exact .inl (.inr ⟨hc', hs⟩)

/-- A hook whose question is answered returns the answer: it can go on until it does, and no
time passes. -/
theorem leadsTo_returned (t : ℕ) (c : HookCall) :
  E.LeadsTo (fun s => (s.protocol.hooks t).Committed c ∧ ¬ s.protocol.Unanswered)
    (Returned t c)
  := by
  have hnev : ∀ i, ((E.state i).protocol.hooks t).Committed c →
      ¬ (E.state i).protocol.Unanswered → E.action i ≠ .tick := by
    intro i hc hs htick
    have hpr := (E.guarded i).1
    rw [htick] at hpr
    have hd := (hpr.1.deciding (hinv i).protocol (hinv i).seated hc).2
    apply hs
    right
    rw [hd]
    rfl
  apply E.leadsTo_of_clock (fun _ => 0) 0 hticks
  · rintro i ⟨hc, hs⟩ htick
    apply absurd htick (hnev i hc hs)
  · rintro i ⟨hc, hs⟩
    have hm := (hinv i).move (E.guarded i) (E.step i)
    rcases hm.committed (hinv i) hc with hret | hc'
    · exact .inl hret
    · refine .inr ⟨⟨hc', fun hs' => hs (hm.unanswered (hinv i) hc hs')⟩, le_refl _, ?_⟩
      intro htick
      apply absurd htick (hnev i hc hs)

/-- A hook that has posted its question returns the answer. -/
theorem committed_leadsTo_returned (t : ℕ) (c : HookCall) :
  E.LeadsTo (fun s => (s.protocol.hooks t).Committed c) (Returned t c)
  := by
  have hret := leadsTo_returned E hinv hticks t c
  have hans := (leadsTo_answered E hinv hticks t c).trans
    ((Machine.Execution.LeadsTo.refl E _).or hret)
  intro i hc
  by_cases hs : (E.state i).protocol.Unanswered
  · apply hans i ⟨hc, hs⟩
  · apply hret i ⟨hc, hs⟩

end Executions

/-! ### The daemon comes back -/

/-- In the `down` of `question_lock`. -/
def AwaitsQuestion (s : Timed) : Prop :=
  s.protocol.daemon = .asking .questionDown ∨ s.protocol.daemon = .asking .questionWait

/-- How far the daemon is on its way to the next question: it has to compute a verdict for
the question it has, which takes less than `30 * HZ` jiffies. -/
def progress (HZ : ℕ) (s : Timed) : ℕ :=
  match s.protocol.daemon with
  | .asking .questionCopy | .asking (.ret _) => 0
  | .deciding => s.daemonSince + 1
  | _ => 30 * HZ + 1

theorem Move.progress_le (hm : s.Move HZ d tgid a s') (h : s.Inv HZ d tgid)
    (hs : ¬ s.AwaitsQuestion) :
  s'.AwaitsQuestion ∨ ¬ s'.AwaitsQuestion ∧ s.progress HZ ≤ s'.progress HZ ∧
    (a = .tick → s.progress HZ < s'.progress HZ)
  := by
  cases hm with
  | call => exact .inr ⟨hs, le_refl _, nofun⟩
  | hook hm =>
    have hd := hm.daemon
    refine .inr ⟨?_, ?_, nofun⟩
    · simpa only [AwaitsQuestion, hd] using hs
    · simp only [progress, hd, le_refl]
  | daemon hm =>
    cases hm with
    | test pc => exact .inl (.inl rfl)
    | take pc | sleep pc => apply absurd (.inl pc) hs
    | wake pc => apply absurd (.inr pc) hs
    | verdict pc v =>
      have hlt := h.clocked.verdict pc
      refine .inr ⟨by simp [AwaitsQuestion], ?_, nofun⟩
      simp only [progress, pc]
      omega
    | ask pc | copy pc | decide pc | enter pc | store pc | up pc | back pc =>
      refine .inr ⟨by simp [AwaitsQuestion], ?_, nofun⟩
      simp [progress, pc]
  | tick hpr =>
    rcases hpr.1.daemon_cases h.protocol h.seated with hd | ⟨hd, -⟩
    · refine .inr ⟨hs, ?_, fun _ => ?_⟩ <;> simp only [progress, hd] <;> omega
    · apply absurd (.inr hd) hs

/-- The daemon always comes back to wait for the next question. -/
theorem leadsTo_awaitsQuestion (E : (timed HZ d tgid).Execution (Undisturbed HZ d tgid))
    (hinv : ∀ i, (E.state i).Inv HZ d tgid) (hticks : Forever fun i => E.action i = .tick) :
  E.LeadsTo (fun _ => True) AwaitsQuestion
  := by
  have hback : E.LeadsTo (fun s => ¬ s.AwaitsQuestion) AwaitsQuestion := by
    apply E.leadsTo_of_clock (progress HZ) (30 * HZ + 1) hticks
    · intro i hs htick
      have hpr := (E.guarded i).1
      rw [htick] at hpr
      rcases hpr.1.daemon_cases (hinv i).protocol (hinv i).seated with hd | ⟨hd, -⟩
      · have hlt := hpr.2 hd
        simp only [progress, hd]
        omega
      · apply absurd (.inr hd) hs
    · intro i hs
      apply ((hinv i).move (E.guarded i) (E.step i)).progress_le (hinv i) hs
  intro i _
  by_cases hs : (E.state i).AwaitsQuestion
  · exact ⟨i, le_refl i, hs⟩
  · apply hback i hs

/-- In a fairly scheduled execution in which no call of `auditsec_question` fails, no wait for
an answer expires, every hook that has posted its question returns what the daemon answers to
it, and the daemon always comes back to wait for the next question. -/
theorem every_question_is_served (hHZ : 0 < HZ)
    (E : (timed HZ d tgid).Execution (Undisturbed HZ d tgid))
    (hi : (timed HZ d tgid).init (E.state 0)) (hticks : Forever fun i => E.action i = .tick) :
  (∀ i t, ((E.state i).protocol.hooks t).isExpired = false) ∧
  (∀ i t c, ((E.state i).protocol.hooks t).Awaits c →
    ∃ j, i ≤ j ∧ Returned t c (E.state j)) ∧
  (∀ i, ∃ j, i ≤ j ∧ (E.state j).AwaitsQuestion)
  := by
  have hinv := inv_of_execution E hHZ hi
  refine ⟨fun i => (hinv i).seated.unexpired, fun i t c hc => ?_, fun i => ?_⟩
  · apply committed_leadsTo_returned E hinv hticks t c i
    rcases hc with hc | hc | hc
    · exact .inl hc
    · exact .inr (.inl hc)
    · have hexp := (hinv i).seated.unexpired t
      rw [hc] at hexp
      cases hexp
  · apply leadsTo_awaitsQuestion E hinv hticks i trivial

/-! ### Executions -/

/-- The state after `n` jiffies. -/
def ticked (s : Timed) (n : ℕ) : Timed where
  protocol := s.protocol
  since t := s.since t + n
  daemonSince := s.daemonSince + n

theorem step_ticked (s : Timed) (n : ℕ) :
  (timed HZ d tgid).step (s.ticked n) .tick = some (s.ticked (n + 1))
  := rfl

/-- No thread can go on when no task is in a hook and the daemon has left its loop, or waits
for a question and was not woken. -/
theorem atRest_of_idle (hhk : ∀ t, s.protocol.hooks t = .idle)
    (hdm : s.protocol.daemon = .stopped ∨
      s.protocol.daemon = .asking .questionWait ∧ d ∉ s.protocol.kernel.questionLock.woken) :
  s.AtRest HZ d tgid
  := by
  constructor
  · intro t choice
    simp [Timed.step, Protocol.step, hhk, hookStep]
  · rcases hdm with hd | ⟨hd, hwk⟩
    · simp [Timed.step, Protocol.step, Protocol.daemonStep, hd]
    · simp [Timed.step, Protocol.step, Protocol.daemonStep, hd, syscallStep, Semaphore.wake, hwk]
  · rcases hdm with hd | ⟨hd, hwk⟩
    · simp [Timed.step, Protocol.step, Protocol.daemonStep, hd]
    · simp [Timed.step, Protocol.step, Protocol.daemonStep, hd]

/-- Time may pass without end. -/
def idleForever (s : Timed) (hhk : ∀ t, s.protocol.hooks t = .idle)
    (hdm : s.protocol.daemon = .stopped ∨
      s.protocol.daemon = .asking .questionWait ∧ d ∉ s.protocol.kernel.questionLock.woken) :
    (timed HZ d tgid).Execution (Undisturbed HZ d tgid) :=
  .constant s.ticked .tick
    (fun i => ⟨⟨atRest_of_idle hhk hdm, by
      intro hd
      rcases hdm with h | ⟨h, -⟩ <;> cases h.symm.trans hd⟩, id⟩)
    (step_ticked s)

theorem state_idleForever_zero (hhk : ∀ t, s.protocol.hooks t = .idle)
    (hdm : s.protocol.daemon = .stopped ∨
      s.protocol.daemon = .asking .questionWait ∧ d ∉ s.protocol.kernel.questionLock.woken) :
  (idleForever s hhk hdm : (timed HZ d tgid).Execution _).state 0 = s
  := rfl

/-- Steps of the protocol in which no call fails can be taken at any time. -/
theorem along_undisturbed {as : List Protocol.Action}
    (has : ∀ a ∈ as, a ≠ .daemon (.syscall .interrupt) ∧ a ≠ .daemon (.syscall .fault)) :
  (timed HZ d tgid).Along (Undisturbed HZ d tgid) s (as.map .act)
  := by
  apply Machine.Execution.along_of_forall
  intro _ hm s
  obtain ⟨a, ha, rfl⟩ := List.mem_map.mp hm
  obtain ⟨hinterrupt, hfault⟩ := has a ha
  refine ⟨trivial, ?_⟩
  rcases a with _ | _ | ⟨_ | _ | _⟩ | _ | _ <;> simp_all [QuestionFails]

/-- The call of `Protocol.askFile [47]`, when it is the first one. -/
def firstCall : HookCall := ⟨0, ⟨7, [97]⟩, .filePermission [47] [97] 4⟩

/-- A hook posts its question while the daemon waits for one. -/
def postedRun : List Protocol.Action := Protocol.daemonGo 3 ++ Protocol.askFile [47]

/-- The daemon answers, and the hook returns. -/
def answeredRun : List Protocol.Action :=
  Protocol.daemonGo 3 ++ [.daemon (.verdict 1)] ++ Protocol.daemonGo 7 ++ Protocol.hookGo 4

/-- The state that steps of the protocol lead to. -/
def after (s : Timed) (as : List Protocol.Action) : Timed :=
  ((timed 100 1 5).run s (as.map .act)).getD s

theorem run_after {as : List Protocol.Action}
    (h : ((timed 100 1 5).run s (as.map .act)).isSome = true) :
  (timed 100 1 5).run s (as.map .act) = some (s.after as)
  := by
  obtain ⟨s', hs'⟩ := Option.isSome_iff_exists.mp h
  rw [after, hs', Option.getD_some]

/-- The condition is met by an execution in which a question is posted and answered. -/
theorem every_question_is_served_posted :
  ∃ E : (timed 100 1 5).Execution (Undisturbed 100 1 5),
    (timed 100 1 5).init (E.state 0) ∧ (Forever fun i => E.action i = .tick) ∧
    ∃ i c j, ((E.state i).protocol.hooks 0).Awaits c ∧ i ≤ j ∧ Returned 0 c (E.state j)
  := by
  let posted := (initial 5 [[97]]).after postedRun
  have hi : ∀ t, (posted.after answeredRun).protocol.hooks t = .idle := by
    rintro (_ | t) <;> rfl
  let E₀ : (timed 100 1 5).Execution (Undisturbed 100 1 5) :=
    idleForever (posted.after answeredRun) hi (.inr ⟨rfl, by decide⟩)
  have hst₀ : E₀.state 0 = posted.after answeredRun := state_idleForever_zero hi _
  obtain ⟨E₁, hst₁, hfrom₁⟩ := E₀.exists_append (s := posted) (answeredRun.map .act)
    (along_undisturbed (by decide)) (hst₀ ▸ run_after rfl)
  obtain ⟨E₂, hst₂, hfrom₂⟩ := E₁.exists_append (s := initial 5 [[97]])
    (postedRun.map .act) (along_undisturbed (by decide)) (hst₁ ▸ run_after rfl)
  have hinit : (timed 100 1 5).init (E₂.state 0) := ⟨[[97]], hst₂⟩
  have hticks : Forever fun i => E₂.action i = .tick :=
    Machine.Execution.forever_of_le fun i => (hfrom₂.trans hfrom₁ i).2
  have hpost : (E₂.state ((postedRun.map Action.act).length + 0)).protocol.hooks 0 =
      .answerWait firstCall := by
    rw [(hfrom₂ 0).1, hst₁]
    rfl
  obtain ⟨-, hret, -⟩ := every_question_is_served (by decide) E₂ hinit hticks
  obtain ⟨j, hij, hj⟩ := hret _ 0 _ (.inr (.inl hpost))
  exact ⟨E₂, hinit, hticks, _, _, j, .inr (.inl hpost), hij, hj⟩

/-- A signal interrupts the wait of the daemon for a question, and a hook posts one. -/
def interruptedRun : List Protocol.Action :=
  Protocol.daemonGo 3 ++ [.daemon (.syscall .interrupt), .daemon .stop] ++
    Protocol.askFile [47]

/-- The daemon has left its loop, and the hook waits for its answer. -/
def stuck : Timed := (initial 5 [[97]]).after interruptedRun

/-- The hook waits for as long as it has not waited for thirty seconds. -/
theorem prompt_stuck {n : ℕ} (hn : n < 3000) :
  (stuck.ticked n).Prompt 100 1 5 .tick
  := by
  have hpc : stuck.protocol.hooks 0 =
      .answerWait firstCall := rfl
  have hwk : stuck.protocol.kernel.answerLock.woken = [] := rfl
  have hsince : stuck.since 0 = 0 := rfl
  have hdm : stuck.protocol.daemon = .stopped := rfl
  refine ⟨⟨?_, rfl, rfl⟩, nofun⟩
  rintro (_ | t) choice
  · cases choice with
    | go =>
      simp [Timed.step, ticked, Protocol.step, hpc, hookStep, wakeOrGiveUp, Semaphore.wake, hwk]
    | fail =>
      have hle : ¬ 30 * 100 ≤ n := by omega
      simp [Timed.step, permits, ticked, hpc, HookPc.isAsleep, hsince, hle]
  · have hi : stuck.protocol.hooks (t + 1) = .idle := rfl
    simp [Timed.step, ticked, Protocol.step, hi, hookStep]

/-- A fairly scheduled execution in which one call of `auditsec_question` is interrupted: a
hook posts its question, its wait for the answer expires, and the daemon does not wait for a
question any more. -/
theorem question_is_not_served :
  ∃ E : (timed 100 1 5).Execution (Prompt 100 1 5),
    (timed 100 1 5).init (E.state 0) ∧ (Forever fun i => E.action i = .tick) ∧
    (∃ n, ∀ i, ¬ (E.state (n + i)).QuestionFails (E.action (n + i))) ∧
    (∃ i c, (E.state i).protocol.hooks 0 = .expired c) ∧
    ∃ n, ∀ i, ¬ (E.state (n + i)).AwaitsQuestion
  := by
  let expired := (stuck.ticked 3000).after [.hook 0 .fail]
  have hi : ∀ t, (expired.after (Protocol.hookGo 3)).protocol.hooks t = .idle := by
    rintro (_ | t) <;> rfl
  let E₀ : (timed 100 1 5).Execution (Prompt 100 1 5) :=
    (idleForever (expired.after (Protocol.hookGo 3)) hi (.inl rfl)).mono fun _ _ h => h.1
  have hpr : ∀ {s : Timed} {as : List Protocol.Action},
      (timed 100 1 5).Along (Prompt 100 1 5) s (as.map .act) := by
    intro s as
    apply Machine.Execution.along_of_forall
    intro _ hm s
    obtain ⟨a, -, rfl⟩ := List.mem_map.mp hm
    trivial
  obtain ⟨E₁, hst₁, hfrom₁⟩ := E₀.exists_append (s := expired)
    ((Protocol.hookGo 3).map .act) hpr (run_after rfl)
  obtain ⟨E₂, hst₂, hfrom₂⟩ := E₁.exists_append (s := stuck.ticked 3000)
    ([Protocol.Action.hook 0 .fail].map .act) hpr (hst₁ ▸ run_after rfl)
  obtain ⟨E₃, hst₃, hfrom₃⟩ := E₂.exists_append (s := stuck.ticked 0)
    (List.replicate 3000 .tick)
    (Machine.Execution.along_replicate (step_ticked stuck) fun n hn => prompt_stuck (by omega))
    (by rw [hst₂, Machine.Execution.run_replicate (step_ticked stuck) 0 3000])
  obtain ⟨E₄, hst₄, hfrom₄⟩ := E₃.exists_append (s := initial 5 [[97]])
    (interruptedRun.map .act) hpr (hst₃ ▸ run_after rfl)
  obtain ⟨n, hexp⟩ : ∃ n, E₄.From n E₁ := ⟨_, (hfrom₄.trans hfrom₃).trans hfrom₂⟩
  obtain ⟨m, hend⟩ : ∃ m, E₄.From m E₀ := ⟨_, hexp.trans hfrom₁⟩
  refine ⟨E₄, ⟨[[97]], hst₄⟩, ?_, ⟨m, fun i => ?_⟩, ⟨n + 0, firstCall, ?_⟩, m, fun i => ?_⟩
  · apply Machine.Execution.forever_of_le fun i => (hend i).2
  · rw [(hend i).2]
    apply id
  · rw [(hexp 0).1, hst₁]
    rfl
  · rw [AwaitsQuestion, (hend i).1]
    rintro (h | h) <;> cases h

end Timed

end Kernel

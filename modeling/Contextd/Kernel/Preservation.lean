import Contextd.Kernel.Accounting

/-!
# The steps preserve the accounting

Every step of the protocol that satisfies `reclaims` preserves the invariant
(`Inv.step`), so the invariant holds of every state such runs reach (`inv_of_reach`).
-/

namespace Kernel

open List

namespace Protocol

variable {t d : ℕ} {pc : HookPc} {c : HookCall} {k : State} {choice : DaemonChoice}

variable {tgid : Int} {s s' : Protocol}

/-! ### Serial numbers and history -/

/-- The serial numbers stay distinct when calls only advance, and the new events are about
a call that has `hook_lock`. -/
theorem Serials.mono (hs : s.Serials)
    (hcall : ∀ u d, (s'.hooks u).call? = some d → (s.hooks u).call? = some d)
    (hbef : ∀ u, (s'.hooks u).Before → (s.hooks u).Before) (hcs : s'.calls = s.calls)
    (htr : ∀ e ∈ s'.trace, e ∈ s.trace ∨
      ∃ t c, (s.hooks t).call? = some c ∧ (s.hooks t).Inside ∧ e.serial = c.serial) :
  s'.Serials
  := by
  constructor
  · intro t c hc
    rw [hcs]
    apply hs.lt t c (hcall t c hc)
  · intro t u c d hc hd
    apply hs.inj t u c d (hcall t c hc) (hcall u d hd)
  · intro u d hb hd e he hser
    rcases htr e he with he | ⟨t, c, hc, hin, hec⟩
    · apply hs.fresh u d (hbef u hb) (hcall u d hd) e he hser
    · obtain rfl : t = u := hs.inj t u c d hc (hcall u d hd) (hec.symm.trans hser)
      apply hin.not_before (hbef t hb)

/-- The serial numbers stay distinct when one task advances in its call. -/
theorem Serials.update (hs : s.Serials) {t : ℕ} {pc : HookPc}
    (hhk : s'.hooks = Function.update s.hooks t pc)
    (hcall : ∀ d, pc.call? = some d → (s.hooks t).call? = some d)
    (hbef : pc.Before → (s.hooks t).Before) (hcs : s'.calls = s.calls)
    (htr : ∀ e ∈ s'.trace, e ∈ s.trace ∨
      ∃ c, (s.hooks t).call? = some c ∧ (s.hooks t).Inside ∧ e.serial = c.serial) :
  s'.Serials
  := by
  apply hs.mono
  · rw [hhk, Function.forall_update_iff s.hooks
      (p := fun u pc => ∀ d, pc.call? = some d → (s.hooks u).call? = some d)]
    use hcall
    intro u _ d
    apply id
  · rw [hhk, Function.forall_update_iff s.hooks
      (p := fun u pc => pc.Before → (s.hooks u).Before)]
    use hbef
    intro u _
    apply id
  · apply hcs
  · intro e he
    rcases htr e he with he | hc
    · left
      apply he
    · right
      use t

/-- The serial numbers stay distinct when a task enters a hook. -/
theorem Serials.call (hs : s.Serials) (hlt : ∀ e ∈ s.trace, e.serial < s.calls) (t : ℕ)
    (current : Task) (args : HookArgs) :
  { s with
    hooks := Function.update s.hooks t (.monitored ⟨s.calls, current, args⟩)
    calls := s.calls + 1 }.Serials
  := by
  have hcs : ∀ u c,
      (Function.update s.hooks t (.monitored ⟨s.calls, current, args⟩) u).call? = some c →
        (u = t ∧ c.serial = s.calls) ∨ (u ≠ t ∧ (s.hooks u).call? = some c) := by
    intro u c hc
    by_cases hu : u = t
    · subst hu
      rw [Function.update_self] at hc
      cases hc
      left
      use rfl
    · rw [Function.update_of_ne hu] at hc
      right
      use hu
  constructor
  · intro u c hc
    rcases hcs u c hc with ⟨-, hnew⟩ | ⟨-, hold⟩
    · apply Nat.lt_succ_of_le (Nat.le_of_eq hnew)
    · apply Nat.lt_succ_of_lt (hs.lt u c hold)
  · intro u w c d hc hd hcd
    rcases hcs u c hc with ⟨hu, hnew⟩ | ⟨-, hold⟩ <;>
      rcases hcs w d hd with ⟨hw, hnew'⟩ | ⟨-, hold'⟩
    · rw [hu, hw]
    · have hlt' := hs.lt w d hold'
      omega
    · have hlt' := hs.lt u c hold
      omega
    · apply hs.inj u w c d hold hold' hcd
  · intro u c hb hc e he
    rcases hcs u c hc with ⟨-, hnew⟩ | ⟨hu, hold⟩
    · rw [hnew]
      apply Nat.ne_of_lt (hlt e he)
    · simp only [Function.update_of_ne hu] at hb
      apply hs.fresh u c hb hold e he

/-- No delivery of a request is counted where none is recorded. -/
theorem countP_isDelivery_eq_zero {trace : List Event} {n : ℕ} (h : ∀ i, .delivered n i ∉ trace) :
  trace.countP (Event.isDelivery n) = 0
  := by
  rw [countP_eq_zero]
  intro e he
  cases e with
  | delivered m i =>
    simp only [Event.isDelivery, beq_iff_eq]
    rintro rfl
    apply h i he
  | _ => simp [Event.isDelivery]

/-- The history stays right when an event about a call that has not returned is added. -/
theorem History.append (hs : s.History) {e : Event} (htr : s'.trace = s.trace ++ [e])
    (hcs : s'.calls = s.calls) (hlt : e.serial < s.calls)
    (hpend : ∀ ret, .returned e.serial ret ∉ s.trace)
    (hdel : ∀ n i, e = .delivered n i → ∀ j, .delivered n j ∉ s.trace)
    (hver : ∀ n m ret, e = .verdict n m ret → m = n)
    (hret : ∀ n ret, e = .returned n ret →
      ret = -EFAULT ∨ ∃ r v, Outcome s.trace n r v ∧ ret = verdictCode v) :
  s'.History
  := by
  constructor
  · intro e' he'
    rw [hcs]
    rw [htr] at he'
    rcases mem_append.mp he' with he' | he'
    · apply hs.lt e' he'
    · rw [mem_singleton.mp he']
      apply hlt
  · intro n
    rw [htr, countP_append, countP_singleton]
    split
    · rename_i hd
      cases e with
      | delivered m i =>
        obtain rfl : m = n := by simpa [Event.isDelivery] using hd
        have hzero := countP_isDelivery_eq_zero (hdel m i rfl)
        omega
      | _ => simp [Event.isDelivery] at hd
    · apply hs.once n
  · intro n m ret hv
    rw [htr] at hv
    rcases mem_append.mp hv with hv | hv
    · apply hs.verdict n m ret hv
    · apply hver n m ret (mem_singleton.mp hv).symm
  · intro n ret hr
    rw [htr] at hr ⊢
    have hlift : ∀ r v, (∀ w, e ≠ .answered n w) → e ≠ .copyFailed n →
        Outcome s.trace n r v ∧ ret = verdictCode v →
        ∃ r v, Outcome (s.trace ++ [e]) n r v ∧ ret = verdictCode v := by
      rintro r v ha hf ⟨ho, hv⟩
      use r, v, ho.append ha hf
    rcases mem_append.mp hr with hold | hnew
    · rcases hs.returned n ret hold with hefault | ⟨r, v, ho⟩
      · left
        apply hefault
      · right
        apply hlift r v _ _ ho
        · rintro w rfl
          apply hpend ret hold
        · rintro rfl
          apply hpend ret hold
    · obtain rfl := mem_singleton.mp hnew
      rcases hret n ret rfl with hefault | ⟨r, v, ho⟩
      · left
        apply hefault
      · right
        apply hlift r v (by simp) (by simp) ho

/-- The history stays right when no event is added. -/
theorem History.congr (hs : s.History) (htr : s'.trace = s.trace) (hcs : s.calls ≤ s'.calls) :
  s'.History
  := by
  obtain ⟨hlt, ho, hver, hret⟩ := hs
  rw [← htr] at hlt ho hver hret
  constructor
  · intro e he
    apply Nat.lt_of_lt_of_le (hlt e he) hcs
  · apply ho
  · apply hver
  · apply hret

/-! ### The task inside the critical section -/

/-- A task found inside is the one that holds `hook_lock`. -/
theorem Phase.of_inside (hs : s.Phase) (hin : (s.hooks t).Inside) :
  ∃ c, (s.hooks t).call? = some c ∧ (∀ u, u ≠ t → ¬ (s.hooks u).Inside) ∧
    s.kernel.hookLock.tokens = 0 ∧ (∀ ret, .returned c.serial ret ∉ s.trace) ∧
    s.view.Stage (s.hooks t)
  := by
  cases hs with
  | free hout => apply absurd hin (hout t)
  | held t' c hc hin' hoth hhook hpend hsg =>
    obtain rfl : t = t' := by
      by_contra hne
      apply hoth t hne hin
    use c

/-- The holder of `hook_lock` stays inside. -/
theorem Phase.advance (hoth : ∀ u, u ≠ t → ¬ (s.hooks u).Inside)
    (hhk : s'.hooks = Function.update s.hooks t pc) (hc : pc.call? = some c) (hin : pc.Inside)
    (hhook : s'.kernel.hookLock.tokens = 0) (hpend : ∀ ret, .returned c.serial ret ∉ s'.trace)
    (hsg : s'.view.Stage pc) :
  s'.Phase
  := by
  apply Phase.held t c
  · rw [hhk, Function.update_self, hc]
  · rw [hhk, Function.update_self]
    apply hin
  · intro u hu
    rw [hhk, Function.update_of_ne hu]
    apply hoth u hu
  · apply hhook
  · apply hpend
  · rw [hhk, Function.update_self]
    apply hsg

/-- A task that is outside and stays outside does not change the phase. -/
theorem Phase.frame (hs : s.Phase) (hhk : s'.hooks = Function.update s.hooks t pc)
    (hout : ¬ (s.hooks t).Inside) (hpc : ¬ pc.Inside)
    (hhook : s'.kernel.hookLock.tokens = s.kernel.hookLock.tokens) (hview : s'.view = s.view) :
  s'.Phase
  := by
  have htr : s'.trace = s.trace := congrArg View.trace hview
  cases hs with
  | free hfree htok hqt =>
    apply Phase.free
    · rw [hhk, Function.forall_update_iff s.hooks (p := fun _ pc => ¬ pc.Inside)]
      use hpc
      intro u _
      apply hfree u
    · rw [hhook, htok]
    · rw [hview]
      apply hqt
  | held t' c hc hin hoth htok hpend hsg =>
    have hne : t' ≠ t := by
      rintro rfl
      apply hout hin
    apply Phase.held t' c
    · rw [hhk, Function.update_of_ne hne, hc]
    · rw [hhk, Function.update_of_ne hne]
      apply hin
    · rw [hhk, Function.forall_update_iff s.hooks (p := fun u pc => u ≠ t' → ¬ pc.Inside)]
      use fun _ => hpc
      intro u _ hu
      apply hoth u hu
    · rw [hhook, htok]
    · rw [htr]
      apply hpend
    · rw [hhk, Function.update_of_ne hne, hview]
      apply hsg

/-! ### Steps of the hooks -/

/-- Nothing is recorded of a step outside the critical section. -/
theorem noteHook_outside (hpc : ¬ pc.Inside) :
  s.noteHook pc = s
  := by
  cases pc with
  | fill | read | release => apply absurd trivial hpc
  | _ => rfl

/-- Entering a hook. -/
theorem Inv.call (hs : s.Inv tgid) {t : ℕ} (hi : s.hooks t = .idle) (current : Task)
    (args : HookArgs)
    (hs' : s' =
      { s with
        hooks := Function.update s.hooks t (.monitored ⟨s.calls, current, args⟩)
        calls := s.calls + 1 }) :
  s'.Inv tgid
  := by
  subst hs'
  obtain ⟨hdm, hser, hhist, hph⟩ := hs
  constructor
  · apply hdm
  · apply hser.call hhist.lt t current args
  · apply History.congr hhist
    · rfl
    · apply Nat.le_succ
  · apply Phase.frame hph (t := t)
    · rfl
    · rw [hi]
      apply id
    · apply id
    · rfl
    · rfl

/-- A step of a task outside the critical section. -/
theorem Inv.hook_outside (hs : s.Inv tgid) {choice : HookChoice} (hout : ¬ (s.hooks t).Inside)
    (hstep : hookStep t choice s.kernel (s.hooks t) = some (k, pc))
    (hs' : s' = { s with kernel := k, hooks := Function.update s.hooks t pc }) :
  s'.Inv tgid
  := by
  subst hs'
  obtain ⟨hdm, hser, hhist, hph⟩ := hs
  obtain ⟨l, rfl, hcs⟩ := hookStep_outside hout hstep
  constructor
  · apply hdm
  · apply hser.update (t := t)
    · rfl
    · intro d
      rcases hcs with ⟨-, -, rfl | ⟨hc, -⟩⟩ | ⟨c, -, hc, rfl, -⟩
      · simp [HookPc.call?]
      · rw [hc]
        apply id
      · rw [hc]
        apply id
    · rcases hcs with ⟨-, -, rfl | ⟨-, hb⟩⟩ | ⟨c, -, -, rfl, -⟩
      · apply False.elim
      · apply hb
      · apply False.elim
    · rfl
    · intro e he
      left
      apply he
  · apply History.congr hhist
    · rfl
    · apply Nat.le_refl
  · rcases hcs with ⟨hpc, htok, -⟩ | ⟨c, hb, hc, rfl, htok⟩
    · apply Phase.frame hph (t := t)
      · rfl
      · apply hout
      · apply hpc
      · apply htok
      · rfl
    · cases hph with
      | held t' c' _ _ _ hhook =>
        rw [hhook] at htok
        apply absurd htok (by omega)
      | free hfree hhook hqt =>
        have hfr := hser.fresh t c hb hc
        apply Phase.advance (s := s) (t := t) (c := c)
        · intro u _
          apply hfree u
        · rfl
        · rfl
        · trivial
        · change l.tokens = 0
          omega
        · intro ret hret
          apply hfr _ hret rfl
        · constructor
          · apply hqt
          · use hfr, [], s.kernel.info
            simp [view]

/-- What a step records while call `c` has `hook_lock`, other than its return. -/
inductive Emits (s s' : Protocol) (c : HookCall) : Prop where
  | nothing (trace : s'.trace = s.trace)
  | event (e : Event) (trace : s'.trace = s.trace ++ [e]) (serial : e.serial = c.serial)
      (delivered : ∀ n i, e = .delivered n i → ∀ j, .delivered n j ∉ s.trace)
      (verdict : ∀ n m ret, e = .verdict n m ret → m = n)
      (returned : ∀ n ret, e ≠ .returned n ret)

/-- What is in the trace after the step was there before, or is about the call. -/
theorem Emits.mem (h : Emits s s' c) {e : Event} (he : e ∈ s'.trace) :
  e ∈ s.trace ∨ (e.serial = c.serial ∧ ∀ n ret, e ≠ .returned n ret)
  := by
  cases h with
  | nothing htr =>
    left
    rw [← htr]
    apply he
  | event e' htr hser _ _ hret =>
    rw [htr] at he
    rcases mem_append.mp he with he | he
    · left
      apply he
    · right
      rw [mem_singleton.mp he]
      use hser

/-- The history stays right when the call that emits has not returned. -/
theorem Emits.history (h : Emits s s' c) (hs : s.History) (hcs : s'.calls = s.calls)
    (hlt : c.serial < s.calls) (hpend : ∀ ret, .returned c.serial ret ∉ s.trace) :
  s'.History
  := by
  cases h with
  | nothing htr => apply hs.congr htr (Nat.le_of_eq hcs.symm)
  | event e htr hser hdel hver hret =>
    rw [← hser] at hlt hpend
    apply hs.append htr hcs hlt hpend hdel hver
    intro n ret he
    apply absurd he (hret n ret)

/-- A step during which call `c` keeps `hook_lock` preserves the invariant, when the stage
of the call is right after it. -/
theorem Inv.advance (hs : s.Inv tgid) {pc₀ : HookPc} (hhk : s'.hooks = Function.update s.hooks t pc)
    (hpc₀ : s.hooks t = pc₀) (hc : pc₀.call? = some c) (hin : pc₀.Inside) (hpc : pc.call? = some c)
    (hpin : pc.Inside) (hdm : s'.kernel.isDaemon tgid = s.kernel.isDaemon tgid)
    (hhook : s'.kernel.hookLock = s.kernel.hookLock) (hcs : s'.calls = s.calls)
    (hemits : Emits s s' c) (hsg : s'.view.Stage pc) :
  s'.Inv tgid
  := by
  subst hpc₀
  obtain ⟨hd, hser, hhist, hph⟩ := hs
  obtain ⟨c', hc', hoth, htok, hpend, -⟩ := hph.of_inside hin
  obtain rfl : c = c' := Option.some.inj (hc.symm.trans hc')
  constructor
  · rw [hdm, hd]
  · apply hser.update hhk
    · intro d
      rw [hpc, hc]
      apply id
    · intro h
      apply absurd h hpin.not_before
    · apply hcs
    · intro e he
      rcases hemits.mem he with he | ⟨hserial, -⟩
      · left
        apply he
      · right
        use c
  · apply hemits.history hhist hcs (hser.lt t c hc) hpend
  · apply Phase.advance hoth hhk hpc hpin _ _ hsg
    · rw [hhook, htok]
    · intro ret hret
      rcases hemits.mem hret with hret | ⟨-, hnot⟩
      · apply hpend ret hret
      · apply hnot c.serial ret rfl

/-- The stage of the task inside is that of its next statement. -/
theorem Inv.stage (hs : s.Inv tgid) (hpc : s.hooks t = pc) (hin : pc.Inside) :
  s.view.Stage pc
  := by
  subst hpc
  obtain ⟨-, -, -, -, -, hsg⟩ := hs.phase.of_inside hin
  apply hsg

/-- The task inside makes the next assignment to the record. -/
theorem Inv.write (hs : s.Inv tgid) {w : Write} {ws : List Write}
    (hpc : s.hooks t = .fill c (w :: ws)) :
  { s with
    kernel := { s.kernel with info := s.kernel.info.write w }
    hooks := Function.update s.hooks t (.fill c ws)
    writer := c.serial }.Inv tgid
  := by
  obtain ⟨hqt, hfill⟩ := hs.stage hpc trivial
  refine hs.advance rfl hpc rfl trivial rfl trivial rfl rfl rfl (.nothing rfl) ?_
  use ⟨hqt.question, hqt.answer, hqt.daemon⟩
  apply hfill.write

/-- The task inside releases `question_lock`. -/
theorem Inv.post (hs : s.Inv tgid) (hpc : s.hooks t = .fill c []) :
  { s with
    kernel := { s.kernel with questionLock := s.kernel.questionLock.up }
    hooks := Function.update s.hooks t (.answerDown c)
    trace := s.trace ++ [Event.posted c.serial c.request] }.Inv tgid
  := by
  obtain ⟨hqt, hfill⟩ := hs.stage hpc trivial
  refine hs.advance rfl hpc rfl trivial rfl trivial rfl rfl rfl ?_ ?_
  · exact .event _ rfl rfl (by simp) (by simp) (by simp)
  · simp only [view, View.Stage, Semaphore.tokens_up]
    apply hfill.post hqt

/-- A task that waits for its answer takes the token, or sleeps or gives up without it. -/
theorem Inv.await (hs : s.Inv tgid) {t : ℕ} {c : HookCall} {l : Semaphore ℕ}
    {pc₀ pc : HookPc} (hpc₀ : s.hooks t = pc₀)
    (hawaits : pc₀ = .answerDown c ∨ pc₀ = .answerWait c)
    (hcs : (pc = .read c ∧ s.kernel.answerLock.tokens = l.tokens + 1) ∨
      ((pc = .answerWait c ∨ pc = .expired c) ∧ l.tokens = s.kernel.answerLock.tokens)) :
  { s with
    kernel := { s.kernel with answerLock := l }
    hooks := Function.update s.hooks t pc }.Inv tgid
  := by
  have hc : pc₀.call? = some c ∧ pc₀.Inside := by
    rcases hawaits with rfl | rfl <;> use rfl <;> trivial
  obtain ⟨hpost, hpend⟩ : s.view.Posted c ∧ s.view.Pending c := by
    have hsg := hs.stage hpc₀ hc.2
    rcases hawaits with rfl | rfl <;> apply hsg
  rcases hcs with ⟨rfl, htok⟩ | ⟨hpc, htok⟩
  · refine hs.advance rfl hpc₀ hc.1 hc.2 rfl trivial rfl rfl rfl (.nothing rfl) ?_
    obtain ⟨hqt, hset⟩ := hpend.take_answer htok
    exact ⟨hqt, ⟨hpost.event, hpost.info, hpost.writer⟩, hset⟩
  · have hview : { s with
        kernel := { s.kernel with answerLock := l }
        hooks := Function.update s.hooks t pc }.view = s.view := by
      simp only [view, htok]
    rcases hpc with rfl | rfl
    all_goals
      refine hs.advance rfl hpc₀ hc.1 hc.2 rfl trivial rfl rfl rfl (.nothing rfl) ?_
      rw [hview]
      use hpost

/-- The task inside reads the answer. -/
theorem Inv.read (hs : s.Inv tgid) {t : ℕ} {c : HookCall} (hpc : s.hooks t = .read c) :
  { s with
    hooks := Function.update s.hooks t (.release c (verdictCode s.kernel.answer))
    trace :=
      s.trace ++ [Event.verdict c.serial s.author (verdictCode s.kernel.answer)] }.Inv tgid
  := by
  obtain ⟨hqt, -, hau, hout⟩ := hs.stage hpc trivial
  refine hs.advance rfl hpc rfl trivial rfl trivial rfl rfl rfl ?_ ?_
  · refine .event _ rfl rfl (by simp) ?_ (by simp)
    rintro n m ret h
    cases h
    apply hau
  · use ⟨hqt.question, hqt.answer, hqt.daemon⟩
    right
    use s.kernel.answer, hout.append (by simp) (by simp)

/-- The task inside takes its question back. -/
theorem Inv.reclaim (hs : s.Inv tgid) (hpc : s.hooks t = .expired c) {l : Semaphore ℕ}
    (hl : s.kernel.questionLock.take = some l) :
  { s with
    kernel := { s.kernel with questionLock := l }
    hooks := Function.update s.hooks t (.release c (-EFAULT)) }.Inv tgid
  := by
  obtain ⟨-, hpend⟩ := hs.stage hpc trivial
  obtain ⟨hzero, hans, hi, -, -⟩ := hpend.take_question (Semaphore.tokens_take hl)
  refine hs.advance rfl hpc rfl trivial rfl trivial rfl rfl rfl (.nothing rfl) ?_
  use ⟨hzero, hans, hi⟩
  left
  rfl

/-- The task inside releases `hook_lock` and returns. -/
theorem Inv.release (hs : s.Inv tgid) {t : ℕ} {c : HookCall} {ret : Int}
    (hpc : s.hooks t = .release c ret) :
  { s with
    kernel := { s.kernel with hookLock := s.kernel.hookLock.up }
    hooks := Function.update s.hooks t (.done c ret)
    trace := s.trace ++ [Event.returned c.serial ret] }.Inv tgid
  := by
  obtain ⟨hd, hser, hhist, hph⟩ := hs
  have hin : (s.hooks t).Inside := by
    rw [hpc]
    trivial
  have hc : (s.hooks t).call? = some c := by
    rw [hpc]
    rfl
  obtain ⟨c', hc', hoth, htok, hpend, hsg⟩ := hph.of_inside hin
  obtain rfl : c = c' := Option.some.inj (hc.symm.trans hc')
  rw [hpc] at hsg
  obtain ⟨hqt, hret⟩ := hsg
  constructor
  · apply hd
  · apply hser.update (t := t)
    · rfl
    · rw [hc]
      intro d
      apply id
    · apply False.elim
    · rfl
    · intro e he
      rcases mem_append.mp he with he | he
      · left
        apply he
      · right
        rw [mem_singleton.mp he]
        use c, hc, hin
        rfl
  · apply History.append hhist (e := .returned c.serial ret)
    · rfl
    · rfl
    · apply hser.lt t c hc
    · apply hpend
    · simp
    · simp
    · rintro n ret' h
      cases h
      rcases hret with hret | ⟨v, hv⟩
      · left
        apply hret
      · right
        use c.request, v
        apply hv
  · apply Phase.free
    · rw [Function.forall_update_iff s.hooks (p := fun _ pc => ¬ pc.Inside)]
      use id, hoth
    · simp [htok]
    · use hqt.question, hqt.answer, hqt.daemon

/-- A step of the task inside the critical section. -/
theorem Inv.hook_inside (hs : s.Inv tgid) {choice : HookChoice} (hin : (s.hooks t).Inside)
    (hrec : s.reclaims (.hook t choice))
    (hstep : hookStep t choice s.kernel (s.hooks t) = some (k, pc)) :
  { s.noteHook (s.hooks t) with kernel := k, hooks := Function.update s.hooks t pc }.Inv tgid
  := by
  cases hpc : s.hooks t with
  | fill c ws =>
    rw [hpc] at hstep
    cases ws with
    | cons w ws =>
      cases hstep
      apply hs.write hpc
    | nil =>
      cases hstep
      apply hs.post hpc
  | answerDown c =>
    rw [hpc] at hstep
    obtain ⟨⟨l, pc⟩, hl, hstep⟩ := Option.map_eq_some_iff.mp hstep
    cases hstep
    apply hs.await hpc (.inl rfl)
    rcases downOrSleep_cases hl with hgot | ⟨hsleep, htok⟩
    · left
      apply hgot
    · right
      use Or.inl hsleep
  | answerWait c =>
    rw [hpc] at hstep
    obtain ⟨⟨l, pc⟩, hl, hstep⟩ := Option.map_eq_some_iff.mp hstep
    cases hstep
    apply hs.await hpc (.inr rfl)
    rcases wakeOrGiveUp_cases hl with hgot | ⟨-, hexp, htok⟩
    · left
      apply hgot
    · right
      use Or.inr hexp
  | read c =>
    rw [hpc] at hstep
    cases hstep
    apply hs.read hpc
  | expired c =>
    rw [hpc] at hstep
    cases hstep
    have hpos : 0 < s.kernel.questionLock.count := by
      apply hrec
      rw [hpc]
      rfl
    obtain ⟨l, hl⟩ := Semaphore.take_of_pos hpos
    simp only [hl, Option.getD_some]
    apply hs.reclaim hpc hl
  | release c ret =>
    rw [hpc] at hstep
    cases hstep
    apply hs.release hpc
  | _ =>
    rw [hpc] at hin
    apply absurd hin id

/-! ### Steps of the daemon -/

/-- A step of the daemon inside `auditsec_question` or `auditsec_answer` is a step of the
system call. -/
theorem daemonStep_syscall {f : SyscallPc → DaemonPc} {pc : SyscallPc}
    (hf : f = .asking ∨ f = .answering) (hd : s.daemon = f pc) (hpc : ∀ r, pc ≠ .ret r)
    (h : daemonStep d tgid s choice = some s') :
  ∃ c k user pc', syscallStep d tgid c s.kernel s.usai pc = some (k, user, pc') ∧
    s' = { s.noteSyscall c pc with kernel := k, usai := user, daemon := f pc' }
  := by
  unfold daemonStep at h
  rcases hf with rfl | rfl <;> rw [hd] at h
  all_goals
    cases choice with
    | syscall c =>
      cases pc with
      | ret r => apply absurd rfl (hpc r)
      | _ =>
        obtain ⟨⟨k, user, pc'⟩, hk, rfl⟩ := Option.map_eq_some_iff.mp h
        use c, k, user, pc'
    | _ =>
      cases pc with
      | ret r => apply absurd rfl (hpc r)
      | _ => cases h

/-- The start of `auditsec_question`: the test, the `down` of `question_lock`, and the wait.
The call returns with an error, goes on without touching the tokens, or takes one. -/
theorem syscallStep_question {choice : SyscallChoice} {k' : State} {user user' : AuditsecInfo}
    {pc pc' : SyscallPc} (hpc : pc = .question ∨ pc = .questionDown ∨ pc = .questionWait)
    (h : syscallStep t tgid choice k user pc = some (k', user', pc')) :
  user' = user ∧ ∃ l, k' = { k with questionLock := l } ∧
    (((DaemonPc.asking pc').Idle ∧ l.tokens = k.questionLock.tokens) ∨
      (pc' = .questionCopy ∧ k.questionLock.tokens = l.tokens + 1))
  := by
  rcases hpc with rfl | rfl | rfl
  · simp only [syscallStep] at h
    split at h <;> cases h
    · use rfl, k.questionLock, rfl, .inl ⟨trivial, rfl⟩
    · use rfl, k.questionLock, rfl, .inl ⟨neg_EFAULT_ne_zero, rfl⟩
  · simp only [syscallStep] at h
    split at h
    · rename_i l hl
      cases h
      use rfl, l, rfl, .inr ⟨rfl, Semaphore.tokens_take hl⟩
    · obtain ⟨l, hl, h⟩ := Option.map_eq_some_iff.mp h
      cases h
      use rfl, l, rfl, .inl ⟨trivial, Semaphore.tokens_sleep hl⟩
  · cases choice with
    | go =>
      obtain ⟨l, hl, h⟩ := Option.map_eq_some_iff.mp h
      cases h
      use rfl, l, rfl, .inr ⟨rfl, Semaphore.tokens_wake hl⟩
    | interrupt =>
      obtain ⟨l, hl, h⟩ := Option.map_eq_some_iff.mp h
      cases h
      use rfl, l, rfl, .inl ⟨neg_EFAULT_ne_zero, Semaphore.tokens_giveUp hl⟩
    | fault => cases h

/-- The start of `auditsec_question`, as a step of the daemon. -/
theorem daemonStep_question {pc : SyscallPc} (hd : s.daemon = .asking pc)
    (hpc : pc = .question ∨ pc = .questionDown ∨ pc = .questionWait)
    (h : daemonStep d tgid s choice = some s') :
  ∃ l pc, s' = { s with kernel := { s.kernel with questionLock := l }, daemon := pc } ∧
    ((pc.Idle ∧ l.tokens = s.kernel.questionLock.tokens) ∨
      (pc = .asking .questionCopy ∧ s.kernel.questionLock.tokens = l.tokens + 1))
  := by
  have hret : ∀ r, pc ≠ .ret r := by
    rintro r rfl
    simp at hpc
  obtain ⟨c, k, user, pc', hk, rfl⟩ := daemonStep_syscall (.inl rfl) hd hret h
  obtain ⟨rfl, l, rfl, hcs⟩ := syscallStep_question hpc hk
  use l, .asking pc'
  constructor
  · rcases hpc with rfl | rfl | rfl <;> rfl
  · rcases hcs with hcs | ⟨rfl, htok⟩
    · left
      apply hcs
    · right
      use rfl

/-- A daemon that has nothing in hand stays so and keeps the tokens, or takes a question. -/
theorem daemonStep_idle (hi : s.daemon.Idle) (h : daemonStep d tgid s choice = some s') :
  ∃ l pc, s' = { s with kernel := { s.kernel with questionLock := l }, daemon := pc } ∧
    ((pc.Idle ∧ l.tokens = s.kernel.questionLock.tokens) ∨
      (pc = .asking .questionCopy ∧ s.kernel.questionLock.tokens = l.tokens + 1))
  := by
  cases hd : s.daemon with
  | loop =>
    use s.kernel.questionLock
    rcases choice with ⟨_ | _ | _⟩ | _ | _ <;> simp only [daemonStep, hd] at h <;> cases h
    · use .asking .question, rfl, .inl ⟨trivial, rfl⟩
    · use .stopped, rfl, .inl ⟨trivial, rfl⟩
  | asking pc =>
    rw [hd] at hi
    cases pc with
    | question => apply daemonStep_question hd (by simp) h
    | questionDown => apply daemonStep_question hd (by simp) h
    | questionWait => apply daemonStep_question hd (by simp) h
    | ret r =>
      have hr : r ≠ 0 := hi
      use s.kernel.questionLock
      rcases choice with ⟨_ | _ | _⟩ | _ | _ <;>
        simp only [daemonStep, hd, hr, ↓reduceIte] at h <;> cases h
      · use .loop, rfl, .inl ⟨trivial, rfl⟩
      · use .stopped, rfl, .inl ⟨trivial, rfl⟩
    | _ => apply absurd hi id
  | answering pc =>
    rw [hd] at hi
    cases pc with
    | ret r =>
      use s.kernel.questionLock
      rcases choice with ⟨_ | _ | _⟩ | _ | _ <;>
        simp only [daemonStep, hd, syscallStep] at h <;> cases h
      use .loop, rfl, .inl ⟨trivial, rfl⟩
    | _ => apply absurd hi id
  | deciding =>
    rw [hd] at hi
    apply absurd hi id
  | stopped =>
    simp only [daemonStep, hd] at h
    cases h

/-- A step of the daemon while call `c` waits for its answer. -/
theorem Inv.serve (hs : s.Inv tgid) (hhk : s'.hooks = s.hooks) (hpc : (s.hooks t).Awaits c)
    (hdm : s'.kernel.isDaemon tgid = s.kernel.isDaemon tgid)
    (hhook : s'.kernel.hookLock = s.kernel.hookLock) (hcs : s'.calls = s.calls)
    (hemits : Emits s s' c) (hpost : s'.view.Posted c) (hpend : s'.view.Pending c) :
  s'.Inv tgid
  := by
  have hupd : s'.hooks = Function.update s.hooks t (s.hooks t) := by
    rw [hhk, Function.update_eq_self]
  have hc : (s.hooks t).call? = some c ∧ (s.hooks t).Inside := by
    rcases hpc with h | h | h <;> rw [h] <;> exact ⟨rfl, trivial⟩
  apply hs.advance hupd rfl hc.1 hc.2 hc.1 hc.2 hdm hhook hcs hemits
  rcases hpc with h | h | h <;> rw [h] <;> exact ⟨hpost, hpend⟩

/-- Where there is a question token, or the daemon has something in hand, a call waits for
its answer. -/
theorem Phase.awaiting (hs : s.Phase) (h : s.kernel.questionLock.tokens ≠ 0 ∨ ¬ s.daemon.Idle) :
  ∃ t c, (s.hooks t).Awaits c ∧ s.view.Posted c ∧ s.view.Pending c
  := by
  have hqt : ¬ s.view.Quiet := by
    rintro ⟨hq, -, hd⟩
    rcases h with h | h
    · apply h hq
    · apply h hd
  cases hs with
  | free _ _ hq => apply absurd hq hqt
  | held t c hc hin hoth hhook hpend hsg =>
    cases hpc : s.hooks t with
    | fill | read | release =>
      rw [hpc] at hsg
      apply absurd hsg.1 hqt
    | answerDown c' =>
      rw [hpc] at hsg
      use t, c', .inl hpc, hsg.1, hsg.2
    | answerWait c' =>
      rw [hpc] at hsg
      use t, c', .inr (.inl hpc), hsg.1, hsg.2
    | expired c' =>
      rw [hpc] at hsg
      use t, c', .inr (.inr hpc), hsg.1, hsg.2
    | _ =>
      rw [hpc] at hin
      apply absurd hin id

/-- A daemon that has nothing in hand takes a step. -/
theorem Inv.daemon_idle (hs : s.Inv tgid) (hi : s.daemon.Idle)
    (h : daemonStep d tgid s choice = some s') :
  s'.Inv tgid
  := by
  obtain ⟨l, pc, rfl, hcs⟩ := daemonStep_idle hi h
  rcases hcs with ⟨hpc, htok⟩ | ⟨rfl, htok⟩
  · have hview : { s with
        kernel := { s.kernel with questionLock := l }
        daemon := pc }.view = { s.view with daemon := pc } := by
      simp only [view, htok]
    obtain ⟨hd, hser, hhist, hph⟩ := hs
    refine ⟨hd, hser.mono (fun _ _ => id) (fun _ => id) rfl (fun _ => .inl), ?_, ?_⟩
    · exact hhist.congr rfl (Nat.le_refl _)
    · cases hph with
      | free hout hhook hqt =>
        refine .free hout hhook ?_
        rw [hview]
        use hqt.question, hqt.answer
      | held t c hc hin hoth hhook hpend hsg =>
        refine .held t c hc hin hoth hhook hpend ?_
        rw [hview]
        apply hsg.idle hi hpc
  · obtain ⟨t, c, hpc, hpost, hpending⟩ := hs.phase.awaiting (.inl (by omega))
    obtain ⟨hzero, hans, -, hno, hund⟩ := hpending.take_question htok
    refine hs.serve rfl hpc rfl rfl rfl (.nothing rfl) ?_ ?_
    · exact ⟨hpost.event, hpost.info, hpost.writer⟩
    · exact .taken hzero hans ⟨hno, hund⟩

/-- The daemon, with the question of call `c` in hand, takes a step in
`auditsec_question`. -/
theorem Inv.daemon_asking (hs : s.Inv tgid) {pc : SyscallPc} (hd : s.daemon = .asking pc)
    (hpc : (s.hooks t).Awaits c) (hpost : s.view.Posted c) (hq : s.view.question = 0)
    (hans : s.view.answer = 0) (hbusy : s.view.Busy c (.asking pc))
    (h : daemonStep d tgid s choice = some s') :
  s'.Inv tgid
  := by
  have hwr : s.writer = c.serial := hpost.writer
  cases pc with
  | questionCopy =>
    obtain ⟨choice, k, user, pc', hk, rfl⟩ := daemonStep_syscall (.inl rfl) hd (by simp) h
    obtain ⟨hno, hund⟩ := hbusy
    cases choice with
    | go =>
      cases hk
      refine hs.serve rfl hpc rfl rfl rfl ?_ ?_ ?_
      · refine .event _ rfl hwr ?_ (by simp) (by simp)
        rintro n i hi
        cases hi
        rw [hwr]
        apply hund
      · exact ⟨mem_append_left _ hpost.event, hpost.info, hwr⟩
      · obtain ⟨htk, hevent, hno'⟩ := hpost.deliver hno
        exact .taken hq hans ⟨rfl, htk, hevent, hno'⟩
    | interrupt => cases hk
    | fault =>
      cases hk
      refine hs.serve rfl hpc rfl rfl rfl ?_ ?_ ?_
      · exact .event _ rfl hwr (by simp) (by simp) (by simp)
      · exact ⟨mem_append_left _ hpost.event, hpost.info, hwr⟩
      · refine .taken hq hans ⟨hwr, ?_, ?_⟩
        · simp [noteSyscall, view, hwr]
        · intro w hw
          rcases mem_append.mp hw with hw | hw
          · apply hno.answered w hw
          · simp at hw
  | questionReject =>
    obtain ⟨choice, k, user, pc', hk, rfl⟩ := daemonStep_syscall (.inl rfl) hd (by simp) h
    obtain ⟨htk, hfail, hno⟩ := hbusy
    cases hk
    refine hs.serve rfl hpc rfl rfl rfl (.nothing rfl) ?_ ?_
    · exact ⟨hpost.event, hpost.info, hwr⟩
    · obtain ⟨hau, hout⟩ := View.Settled.of_failed hpost htk hfail hno
      exact .taken hq hans ⟨hau, hout⟩
  | questionRejectUp =>
    obtain ⟨choice, k, user, pc', hk, rfl⟩ := daemonStep_syscall (.inl rfl) hd (by simp) h
    cases hk
    refine hs.serve rfl hpc rfl rfl rfl (.nothing rfl) ?_ ?_
    · exact ⟨hpost.event, hpost.info, hwr⟩
    · refine .answered hq ?_ neg_EFAULT_ne_zero ⟨hbusy.author, hbusy.outcome⟩
      rw [← Nat.zero_add 1, ← hans]
      apply Semaphore.tokens_up
  | ret r =>
    obtain ⟨rfl, hdel⟩ := hbusy
    rcases choice with ⟨_ | _ | _⟩ | _ | _ <;>
      simp only [daemonStep, hd, syscallStep, ↓reduceIte] at h <;> cases h
    refine hs.serve rfl hpc rfl rfl rfl (.nothing rfl) ?_ ?_
    · exact ⟨hpost.event, hpost.info, hwr⟩
    · exact .taken hq hans ⟨hdel.taken, hdel.event, hdel.outcome⟩
  | _ => apply absurd hbusy id

/-- The daemon, with the question of call `c` in hand, takes a step in `auditsec_answer`. -/
theorem Inv.daemon_answering (hs : s.Inv tgid) {pc : SyscallPc} (hd : s.daemon = .answering pc)
    (hpc : (s.hooks t).Awaits c) (hpost : s.view.Posted c) (hq : s.view.question = 0)
    (hans : s.view.answer = 0) (hbusy : s.view.Busy c (.answering pc))
    (h : daemonStep d tgid s choice = some s') :
  s'.Inv tgid
  := by
  have hwr : s.writer = c.serial := hpost.writer
  cases pc with
  | answer v =>
    obtain ⟨choice, k, user, pc', hk, rfl⟩ := daemonStep_syscall (.inr rfl) hd (by simp) h
    simp only [syscallStep, hs.daemon, ↓reduceIte] at hk
    cases hk
    refine hs.serve rfl hpc rfl rfl rfl (.nothing rfl) ?_ ?_
    · exact ⟨hpost.event, hpost.info, hwr⟩
    · exact .taken hq hans ⟨hbusy.taken, hbusy.event, hbusy.outcome⟩
  | answerStore v =>
    obtain ⟨choice, k, user, pc', hk, rfl⟩ := daemonStep_syscall (.inr rfl) hd (by simp) h
    cases hk
    refine hs.serve rfl hpc rfl rfl rfl ?_ ?_ ?_
    · exact .event _ rfl hbusy.taken (by simp) (by simp) (by simp)
    · exact ⟨mem_append_left _ hpost.event, hpost.info, hwr⟩
    · obtain ⟨hau, hout⟩ := View.Delivered.answer hpost hbusy v
      exact .taken hq hans ⟨hau, hout⟩
  | answerUp =>
    obtain ⟨choice, k, user, pc', hk, rfl⟩ := daemonStep_syscall (.inr rfl) hd (by simp) h
    cases hk
    refine hs.serve rfl hpc rfl rfl rfl (.nothing rfl) ?_ ?_
    · exact ⟨hpost.event, hpost.info, hwr⟩
    · refine .answered hq ?_ trivial ⟨hbusy.author, hbusy.outcome⟩
      rw [← Nat.zero_add 1, ← hans]
      apply Semaphore.tokens_up
  | _ => apply absurd hbusy id

/-- The daemon takes a step. -/
theorem Inv.daemon_step (hs : s.Inv tgid) (h : daemonStep d tgid s choice = some s') :
  s'.Inv tgid
  := by
  by_cases hi : s.daemon.Idle
  · apply hs.daemon_idle hi h
  · obtain ⟨t, c, hpc, hpost, hpend⟩ := hs.phase.awaiting (.inr hi)
    cases hpend with
    | offered _ _ hi' => apply absurd hi' hi
    | answered _ _ hi' => apply absurd hi' hi
    | taken hq hans hbusy =>
      change s.view.Busy c s.daemon at hbusy
      cases hd : s.daemon with
      | asking pc =>
        rw [hd] at hbusy
        apply hs.daemon_asking hd hpc hpost hq hans hbusy h
      | answering pc =>
        rw [hd] at hbusy
        apply hs.daemon_answering hd hpc hpost hq hans hbusy h
      | deciding =>
        rw [hd] at hbusy
        rcases choice with _ | v | _ <;> simp only [daemonStep, hd] at h <;> cases h
        refine hs.serve rfl hpc rfl rfl rfl (.nothing rfl) ?_ ?_
        · exact ⟨hpost.event, hpost.info, hpost.writer⟩
        · exact .taken hq hans ⟨hbusy.taken, hbusy.event, hbusy.outcome⟩
      | loop =>
        rw [hd] at hbusy
        apply absurd hbusy id
      | stopped =>
        rw [hd] at hbusy
        apply absurd hbusy id

/-! ### Runs -/

/-- Every step that satisfies `reclaims` preserves the invariant. -/
theorem Inv.step (hs : s.Inv tgid) {a : Action} (hrec : s.reclaims a)
    (h : step d tgid s a = some s') :
  s'.Inv tgid
  := by
  cases a with
  | call t current args =>
    simp only [Protocol.step] at h
    split at h
    · rename_i hi
      apply hs.call hi current args (Option.some.inj h).symm
    · cases h
  | hook t choice =>
    obtain ⟨⟨k, pc⟩, hk, rfl⟩ := Option.map_eq_some_iff.mp h
    by_cases hin : (s.hooks t).Inside
    · apply hs.hook_inside hin hrec hk
    · apply hs.hook_outside hin hk
      rw [noteHook_outside hin]
  | daemon choice => apply hs.daemon_step h

/-- The invariant holds initially. -/
theorem inv_initial (tgid : Int) (progs : List (List UInt8)) :
  (initial tgid progs).Inv tgid
  := by
  constructor
  · simp [initial, State.isDaemon]
  · constructor <;> simp [initial, HookPc.call?]
  · constructor <;> simp [initial]
  · apply Phase.free
    · simp [initial, HookPc.Inside]
    · rfl
    · use rfl, rfl
      trivial

/-- The invariant holds of every state reached by steps that satisfy `reclaims`. -/
theorem inv_of_reach (h : (protocol d tgid).Reach reclaims s) :
  s.Inv tgid
  := by
  apply Machine.Reach.invariant _ _ h
  · rintro s ⟨progs, rfl⟩
    apply inv_initial
  · intro s a s' hs hrec hstep
    apply hs.step hrec hstep

end Protocol

end Kernel

import Contextd.Kernel.Share

/-!
# The hooks

A hook is a program counter (`HookPc`) advanced one shared access at a time by `hookStep`.  The four
hooks for files, directories, `bind` and `connect`, and `sendmsg` and `recvmsg` run the same
protocol; they differ in the record they fill and in whether they allocate a buffer first.  A hook
is inside its critical section while it has `hook_lock` (`HookPc.Inside`).
-/

namespace Kernel

variable {pc : HookPc} {t : ℕ} {choice : HookChoice}

/-- How an attempt that can fail ends: an allocation, or a wait with a timeout. -/
inductive HookChoice where
  | go
  | fail
  deriving DecidableEq, Repr

/-- The next statement of a task with respect to the hooks. -/
inductive HookPc where
  /-- Not in a hook. -/
  | idle
  /-- `if(prog_is_monitored())`. -/
  | monitored (c : HookCall)
  /-- `fullpath = kmalloc(PATH_MAX + 1, GFP_NOFS)`, in the hooks that allocate. -/
  | alloc (c : HookCall)
  /-- `if(*daemon_launched())`. -/
  | launched (c : HookCall)
  /-- `down_timeout(auditsec_hook_lock(), 30 * HZ)`. -/
  | hookDown (c : HookCall)
  /-- Asleep on `hook_lock`. -/
  | hookWait (c : HookCall)
  /-- The assignments to the record that are left, then `up(auditsec_question_lock())`. -/
  | fill (c : HookCall) (ws : List Write)
  /-- `down_timeout(auditsec_answer_lock(), 30 * HZ)`. -/
  | answerDown (c : HookCall)
  /-- Asleep on `answer_lock`. -/
  | answerWait (c : HookCall)
  /-- `answer = (*auditsec_answer() == 0)`. -/
  | read (c : HookCall)
  /-- `down_trylock(auditsec_question_lock())`, after the wait for the answer expired. -/
  | expired (c : HookCall)
  /-- `up(auditsec_hook_lock())`, then return the value. -/
  | release (c : HookCall) (ret : Int)
  /-- The hook has returned the value. -/
  | done (c : HookCall) (ret : Int)

/-- The call a task is in. -/
def HookPc.call? : HookPc → Option HookCall
  | .idle => none
  | .monitored c | .alloc c | .launched c | .hookDown c | .hookWait c => some c
  | .fill c _ | .answerDown c | .answerWait c | .read c | .expired c => some c
  | .release c _ | .done c _ => some c

/-- Between the `down` of `hook_lock` and its `up`. -/
def HookPc.Inside : HookPc → Prop
  | .fill .. | .answerDown .. | .answerWait .. | .read .. | .expired .. | .release .. => True
  | _ => False

/-- Between the `up` of `question_lock` and the read of the answer. -/
def HookPc.Asked : HookPc → Prop
  | .answerDown .. | .answerWait .. | .read .. => True
  | _ => False

/-- Asleep on `answer_lock`. -/
def HookPc.isAnswerWait : HookPc → Bool
  | .answerWait _ => true
  | _ => false

/-- The wait for the answer expired. -/
def HookPc.isExpired : HookPc → Bool
  | .expired _ => true
  | _ => false

/-- The request of call `c` is posted and its answer is not read. -/
def HookPc.Awaits (c : HookCall) (pc : HookPc) : Prop :=
  pc = .answerDown c ∨ pc = .answerWait c ∨ pc = .expired c

/-- In a call, and not yet past the `down` of `hook_lock`. -/
def HookPc.Before : HookPc → Prop
  | .monitored .. | .alloc .. | .launched .. | .hookDown .. | .hookWait .. => True
  | _ => False

/-- A task inside the critical section is past the `down` of `hook_lock`. -/
theorem HookPc.Inside.not_before (h : pc.Inside) :
  ¬ pc.Before
  := by
  revert h
  cases pc <;> simp [Inside, Before]

/-- A hook that waits for its answer is inside the critical section. -/
theorem HookPc.Asked.inside (h : pc.Asked) :
  pc.Inside
  := by
  revert h
  cases pc <;> simp [Inside, Asked]

/-- The value a hook returns for an answer: `answer = (v == 0)` and then
`answer == 0 ? 0 : -EACCES`. -/
def verdictCode (answer : Int) : Int := if answer = 0 then -EACCES else 0

/-- `down_timeout`, up to the point where the task either has the token or sleeps. -/
def downOrSleep (l : Semaphore ℕ) (t : ℕ) (got asleep : HookPc) :
    Option (Semaphore ℕ × HookPc) :=
  match l.take with
  | some l' => some (l', got)
  | none => (l.sleep t).map fun l' => (l', asleep)

/-- The end of a sleep: the task was handed the token, or its time is up. -/
def wakeOrGiveUp (l : Semaphore ℕ) (t : ℕ) (choice : HookChoice) (got expired : HookPc) :
    Option (Semaphore ℕ × HookPc) :=
  match choice with
  | .go => (l.wake t).map fun l' => (l', got)
  | .fail => (l.giveUp t).map fun l' => (l', expired)

/-- The next step of task `t` in its hook. -/
def hookStep (t : ℕ) (choice : HookChoice) (k : State) : HookPc → Option (State × HookPc)
  | .idle => none
  | .monitored c =>
      if progIsMonitored k.progList c.current.comm then some (k, .alloc c)
      else some (k, .done c 0)
  | .alloc c =>
      match choice with
      | .go => some (k, .launched c)
      -- The hooks of the sockets allocate nothing, and cannot fail here.
      | .fail => if c.args.allocates then some (k, .done c (-ENOMEM)) else none
  | .launched c =>
      if k.daemonLaunched then some (k, .hookDown c) else some (k, .done c (-EFAULT))
  | .hookDown c =>
      (downOrSleep k.hookLock t (.fill c c.writes) (.hookWait c)).map
        fun (l, pc) => ({ k with hookLock := l }, pc)
  | .hookWait c =>
      (wakeOrGiveUp k.hookLock t choice (.fill c c.writes) (.done c (-EFAULT))).map
        fun (l, pc) => ({ k with hookLock := l }, pc)
  | .fill c (w :: ws) => some ({ k with info := k.info.write w }, .fill c ws)
  | .fill c [] => some ({ k with questionLock := k.questionLock.up }, .answerDown c)
  | .answerDown c =>
      (downOrSleep k.answerLock t (.read c) (.answerWait c)).map
        fun (l, pc) => ({ k with answerLock := l }, pc)
  | .answerWait c =>
      (wakeOrGiveUp k.answerLock t choice (.read c) (.expired c)).map
        fun (l, pc) => ({ k with answerLock := l }, pc)
  | .read c => some (k, .release c (verdictCode k.answer))
  | .expired c =>
      -- The token may be gone, and what `down_trylock` returns is not looked at.
      some ({ k with questionLock := k.questionLock.take.getD k.questionLock },
        .release c (-EFAULT))
  | .release c ret => some ({ k with hookLock := k.hookLock.up }, .done c ret)
  | .done _ _ => some (k, .idle)

/-! ### What a step can do -/

/-- A task that asks for a token gets one, or sleeps without touching the tokens. -/
theorem downOrSleep_cases {l l' : Semaphore ℕ} {got asleep : HookPc}
    (h : downOrSleep l t got asleep = some (l', pc)) :
  (pc = got ∧ l.tokens = l'.tokens + 1) ∨ (pc = asleep ∧ l'.tokens = l.tokens)
  := by
  unfold downOrSleep at h
  split at h
  · rename_i hl
    cases h
    left
    use rfl, Semaphore.tokens_take hl
  · obtain ⟨l'', hl, h⟩ := Option.map_eq_some_iff.mp h
    cases h
    right
    use rfl, Semaphore.tokens_sleep hl

/-- A sleeping task is handed a token, or gives up without touching the tokens. -/
theorem wakeOrGiveUp_cases {l l' : Semaphore ℕ} {got expired : HookPc}
    (h : wakeOrGiveUp l t choice got expired = some (l', pc)) :
  (pc = got ∧ l.tokens = l'.tokens + 1) ∨
    (choice = .fail ∧ pc = expired ∧ l'.tokens = l.tokens)
  := by
  cases choice with
  | go =>
    obtain ⟨l'', hl, h⟩ := Option.map_eq_some_iff.mp h
    cases h
    left
    use rfl, Semaphore.tokens_wake hl
  | fail =>
    obtain ⟨l'', hl, h⟩ := Option.map_eq_some_iff.mp h
    cases h
    right
    use rfl, rfl, Semaphore.tokens_giveUp hl

/-- A step of a task outside the critical section changes nothing but `hook_lock`: the
task stays outside and the tokens stay, or it takes one and starts to fill the record. -/
theorem hookStep_outside {k k' : State} {pc' : HookPc} (hpc : ¬ pc.Inside)
    (h : hookStep t choice k pc = some (k', pc')) :
  ∃ l, k' = { k with hookLock := l } ∧
    ((¬ pc'.Inside ∧ l.tokens = k.hookLock.tokens ∧
        (pc' = .idle ∨ pc'.call? = pc.call? ∧ (pc'.Before → pc.Before))) ∨
      ∃ c, pc.Before ∧ pc.call? = some c ∧ pc' = .fill c c.writes ∧
        k.hookLock.tokens = l.tokens + 1)
  := by
  cases pc with
  | idle => cases h
  | monitored c =>
    use k.hookLock
    simp only [hookStep] at h
    split at h <;> cases h <;> simp [HookPc.Inside, HookPc.call?, HookPc.Before]
  | alloc c =>
    use k.hookLock
    cases choice with
    | go =>
      cases h
      simp [HookPc.Inside, HookPc.call?, HookPc.Before]
    | fail =>
      simp only [hookStep] at h
      split at h <;> cases h
      simp [HookPc.Inside, HookPc.call?, HookPc.Before]
  | launched c =>
    use k.hookLock
    simp only [hookStep] at h
    split at h <;> cases h <;> simp [HookPc.Inside, HookPc.call?, HookPc.Before]
  | hookDown c =>
    obtain ⟨⟨l, pc⟩, hl, h⟩ := Option.map_eq_some_iff.mp h
    cases h
    use l, rfl
    rcases downOrSleep_cases hl with ⟨rfl, ht⟩ | ⟨rfl, ht⟩
    · right
      use c, trivial, rfl
    · left
      simp [HookPc.Inside, HookPc.call?, HookPc.Before, ht]
  | hookWait c =>
    obtain ⟨⟨l, pc⟩, hl, h⟩ := Option.map_eq_some_iff.mp h
    cases h
    use l, rfl
    rcases wakeOrGiveUp_cases hl with ⟨rfl, ht⟩ | ⟨-, rfl, ht⟩
    · right
      use c, trivial, rfl
    · left
      simp [HookPc.Inside, HookPc.call?, HookPc.Before, ht]
  | done c ret =>
    cases h
    use k.hookLock
    simp [HookPc.Inside]
  | fill | answerDown | answerWait | read | expired | release => apply absurd trivial hpc

/-- A hook does not change the registration. -/
theorem hookStep_registration {k k' : State} {pc' : HookPc}
    (h : hookStep t choice k pc = some (k', pc')) :
  k'.registration = k.registration
  := by
  by_cases hpc : pc.Inside
  · cases pc with
    | idle | monitored | alloc | launched | hookDown | hookWait | done => cases hpc
    | fill c ws => cases ws <;> cases h <;> rfl
    | answerDown c | answerWait c =>
      obtain ⟨⟨l, pc⟩, -, h⟩ := Option.map_eq_some_iff.mp h
      cases h
      rfl
    | read c | expired c | release c ret =>
      cases h
      rfl
  · obtain ⟨l, rfl, -⟩ := hookStep_outside hpc h
    rfl

end Kernel

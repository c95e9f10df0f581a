import Contextd.Kernel.Hooks
import Contextd.Kernel.Registration

/-!
# Registered programs are monitored

The hooks know a task by its command name, in which the kernel keeps one byte for the terminator
(`setTaskComm`), while the list of programs keeps `TASK_COMM_LEN` bytes of a name.  A registered
name that fits is found by `progIsMonitored`, and then no hook lets the task through unless it
posted a question and read an answer.  A longer name is never found (`registered_not_monitored`,
`monitored_iff_of_registered`).
-/

namespace Kernel

/-- The command name `set_task_comm` gives a task that runs the executable `buf`: `strlcpy`
keeps a byte for the terminator. -/
def setTaskComm (buf : List UInt8) : List UInt8 := strncpy (TASK_COMM_LEN - 1) buf

/-- A name that leaves room for the terminator is the command name. -/
theorem setTaskComm_eq_of_length_lt {n : List UInt8} (hlen : (cstring n).length < TASK_COMM_LEN) :
  setTaskComm n = cstring n
  := List.take_of_length_le (Nat.le_sub_one_of_lt hlen)

/-- A command name is shorter than the names of the list may be. -/
theorem length_setTaskComm_lt (n : List UInt8) :
  (setTaskComm n).length < TASK_COMM_LEN
  := Nat.lt_succ_of_le (List.length_take_le _ _)

/-- A program is monitored exactly when the list has its command name. -/
theorem progIsMonitored_iff_mem {progList : List (List UInt8)} {n : List UInt8}
    (hsto : ∀ execname ∈ progList, strncpy TASK_COMM_LEN execname = execname) :
  progIsMonitored progList (setTaskComm n) = true ↔ setTaskComm n ∈ progList
  := by
  rw [progIsMonitored, any_strncmpEq_iff hsto, setTaskComm, strncpy_strncpy, strncpy_strncpy]
  rfl

/-- A program is monitored exactly when its command name is registered. -/
theorem Registry.Inv.progIsMonitored_iff {s : Registry} (h : s.Inv) {n : List UInt8} :
  progIsMonitored s.kernel.progList (setTaskComm n) = true ↔
    registeredIn (setTaskComm n) s.log = true
  := by
  rw [progIsMonitored_iff_mem h.stored]
  apply h.registered _ (cstring_take_cstring _ n) (length_setTaskComm_lt n)

/-! ### A hook among the other tasks -/

/-- A step of a hook: the task that runs it, what the environment decides, and the state of
the module as the other tasks left it. -/
structure HookMove where
  task : ℕ
  choice : HookChoice
  kernel : State

/-- The hook of call `c`, while the other tasks do what they like to the module. -/
def hookRun (c : HookCall) : Machine HookPc HookMove where
  init pc := pc = .monitored c
  step pc a := (hookStep a.task a.choice a.kernel pc).map Prod.snd

/-- The runs of a hook whose test for monitored programs sees the list `progList`, and that
never take the step `skipped`. -/
def Without (c : HookCall) (progList : List (List UInt8)) (skipped pc : HookPc) (a : HookMove) :
    Prop :=
  (pc = .monitored c → a.kernel.progList = progList) ∧ pc ≠ skipped

/-- Where the hook of a monitored call can be while it has not read an answer, and, unless
`posted`, has not posted its question. -/
def HookPc.Quiet (c : HookCall) (posted : Prop) : HookPc → Prop
  | .idle => True
  | .monitored c' | .alloc c' | .launched c' | .hookDown c' | .hookWait c' | .fill c' _ => c' = c
  | .answerDown c' | .answerWait c' | .read c' | .expired c' => posted ∧ c' = c
  | .release c' ret => posted ∧ c' = c ∧ ret ≠ 0
  | .done c' ret => c' = c ∧ ret ≠ 0

/-- A hook that neither posts nor reads stays as it is with respect to both, and will not
return `0`. -/
theorem HookPc.Quiet.hookStep {c : HookCall} {posted : Prop} {t : ℕ} {choice : HookChoice}
    {k k' : State} {pc pc' : HookPc} (h : pc.Quiet c posted)
    (hmon : pc = .monitored c → progIsMonitored k.progList c.current.comm = true)
    (hread : pc ≠ .read c) (hpost : posted ∨ pc ≠ .fill c [])
    (hs : hookStep t choice k pc = some (k', pc')) :
  pc'.Quiet c posted
  := by
  cases pc with
  | idle => cases hs
  | monitored c' =>
    obtain rfl : c' = c := h
    simp only [Kernel.hookStep, hmon rfl, if_true, Option.some.injEq, Prod.mk.injEq] at hs
    rw [← hs.2]
    rfl
  | alloc c' =>
    cases choice with
    | go =>
      cases hs
      apply h
    | fail =>
      simp only [Kernel.hookStep] at hs
      split at hs <;> cases hs
      exact ⟨h, by decide⟩
  | launched c' =>
    simp only [Kernel.hookStep] at hs
    split at hs <;> cases hs
    · apply h
    · exact ⟨h, by decide⟩
  | hookDown c' =>
    obtain ⟨⟨l, pc⟩, hl, hs⟩ := Option.map_eq_some_iff.mp hs
    cases hs
    rcases downOrSleep_cases hl with ⟨rfl, -⟩ | ⟨rfl, -⟩ <;> exact h
  | hookWait c' =>
    obtain ⟨⟨l, pc⟩, hl, hs⟩ := Option.map_eq_some_iff.mp hs
    cases hs
    rcases wakeOrGiveUp_cases hl with ⟨rfl, -⟩ | ⟨-, rfl, -⟩
    · apply h
    · exact ⟨h, neg_EFAULT_ne_zero⟩
  | fill c' ws =>
    obtain rfl : c' = c := h
    cases ws with
    | nil =>
      cases hs
      apply And.intro (hpost.resolve_right fun hne => hne rfl) rfl
    | cons w ws =>
      cases hs
      rfl
  | answerDown c' =>
    obtain ⟨⟨l, pc⟩, hl, hs⟩ := Option.map_eq_some_iff.mp hs
    cases hs
    rcases downOrSleep_cases hl with ⟨rfl, -⟩ | ⟨rfl, -⟩ <;> exact h
  | answerWait c' =>
    obtain ⟨⟨l, pc⟩, hl, hs⟩ := Option.map_eq_some_iff.mp hs
    cases hs
    rcases wakeOrGiveUp_cases hl with ⟨rfl, -⟩ | ⟨-, rfl, -⟩ <;> exact h
  | read c' =>
    obtain ⟨-, rfl⟩ : posted ∧ c' = c := h
    apply absurd rfl hread
  | expired c' =>
    cases hs
    exact ⟨h.1, h.2, neg_EFAULT_ne_zero⟩
  | release c' ret =>
    cases hs
    apply h.2
  | done c' ret =>
    cases hs
    trivial

/-- A hook of a monitored call that never takes one of the two steps, the post of its
question and the read of an answer, does not return `0`. -/
theorem not_reach_done {c : HookCall} {progList : List (List UInt8)} {skipped : HookPc}
    (hmon : progIsMonitored progList c.current.comm = true)
    (hskip : skipped = .fill c [] ∨ skipped = .read c) :
  ¬ (hookRun c).Reach (Without c progList skipped) (.done c 0)
  := by
  intro hrch
  have hqt : HookPc.Quiet c (skipped = .read c) (.done c 0) := by
    apply hrch.invariant
    · rintro _ rfl
      rfl
    · intro pc a pc' ih hwo hm
      obtain ⟨⟨k', pc''⟩, hs, rfl⟩ := Option.map_eq_some_iff.mp hm
      apply ih.hookStep _ _ _ hs
      · intro hpc
        rw [hwo.1 hpc]
        apply hmon
      · rintro rfl
        apply hwo.2 ih.1.symm
      · rcases hskip with rfl | rfl
        · right
          apply hwo.2
        · left
          rfl
  apply hqt.2 rfl

/-! ### Names that fit, and names that do not -/

open Registry in
/-- A registered program is monitored in every task that runs it, and no hook lets such a
task through unless it posted its question and read an answer, exactly when its name is
shorter than `TASK_COMM_LEN`, or the command name that it is cut to is registered too. -/
theorem monitored_iff_of_registered {s : Registry} (h : registry.Reach Machine.anyStep s)
    {n : List UInt8} (hreg : registeredIn (cstring n) s.log = true) :
  (progIsMonitored s.kernel.progList (setTaskComm n) = true ∧
    ∀ c : HookCall, c.current.comm = setTaskComm n →
      ∀ skipped, skipped = .fill c [] ∨ skipped = .read c →
        ¬ (hookRun c).Reach (Without c s.kernel.progList skipped) (.done c 0)) ↔
    (cstring n).length < TASK_COMM_LEN ∨ registeredIn (setTaskComm n) s.log = true
  := by
  have hiff := (inv_of_reach h).progIsMonitored_iff (n := n)
  constructor
  · rintro ⟨hmon, -⟩
    right
    apply hiff.mp hmon
  · intro hf
    have hmon : progIsMonitored s.kernel.progList (setTaskComm n) = true := by
      rcases hf with hlen | hcomm
      · rw [hiff, setTaskComm_eq_of_length_lt hlen]
        apply hreg
      · apply hiff.mpr hcomm
    use hmon
    intro c hcomm skipped hskip
    apply not_reach_done _ hskip
    rw [hcomm]
    apply hmon

open Registry in
theorem monitored_iff_of_registered_ls :
  ∃ s, registry.run ⟨auditsecInit, []⟩ [.reg 7 1 none true, .reg 7 1 (some [108, 115]) true] =
      some s ∧
    progIsMonitored s.kernel.progList (setTaskComm [108, 115]) = true
  := by
  obtain ⟨s, hrun, hlog⟩ :
      ∃ s, registry.run ⟨auditsecInit, []⟩
          [.reg 7 1 none true, .reg 7 1 (some [108, 115]) true] = some s ∧
        registeredIn (cstring [108, 115]) s.log = true := ⟨_, rfl, by decide⟩
  use s, hrun
  have hrch : registry.Reach Machine.anyStep s :=
    (Machine.Reach.init rfl).run _ (by decide) hrun
  apply ((monitored_iff_of_registered hrch hlog).mpr (.inl (by decide))).1

/-- A name of sixteen bytes. -/
def longName : List UInt8 := List.replicate 16 97

open Registry in
/-- A program registered under a name of sixteen bytes is not monitored, and the hooks let
the tasks that run it through without a question. -/
theorem registered_not_monitored :
  ∃ s, registry.Reach Machine.anyStep s ∧ registeredIn (cstring longName) s.log = true ∧
    progIsMonitored s.kernel.progList (setTaskComm longName) = false ∧
    ∀ c : HookCall, c.current.comm = setTaskComm longName →
      (hookRun c).Reach (Without c s.kernel.progList (.fill c [])) (.done c 0)
  := by
  obtain ⟨s, hrun, hlog, hmon⟩ :
      ∃ s, registry.run ⟨auditsecInit, []⟩
          [.reg 7 1 none true, .reg 7 1 (some longName) true] = some s ∧
        registeredIn (cstring longName) s.log = true ∧
        progIsMonitored s.kernel.progList (setTaskComm longName) = false :=
    ⟨_, rfl, by decide, by decide⟩
  refine ⟨s, (Machine.Reach.init rfl).run _ (by decide) hrun, hlog, hmon, ?_⟩
  intro c hcomm
  apply Machine.Reach.step (a := ⟨0, .go, s.kernel⟩) (Machine.Reach.init rfl)
  · exact ⟨fun _ => rfl, HookPc.noConfusion⟩
  · simp [hookRun, hookStep, hcomm, hmon]

end Kernel

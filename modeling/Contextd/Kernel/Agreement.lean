import Contextd.Kernel.Preservation

/-!
# Agreement between the hooks and the daemon

In the runs where a hook whose wait expired always gets its question back, the semaphores are
balanced between requests and no hook reads an answer meant for another (`balanced_of_reclaims`).
Otherwise an answer may stay for the next hook (`stale_answer_is_returned`).  In the runs where no
wait for an answer expires, the hooks and the daemon agree on every request
(`agreement_of_answersInTime`).
-/

namespace Kernel

namespace Protocol

variable {d : ℕ} {tgid : Int} {s s' : Protocol}

/-! ### Waits that expire -/

/-- No wait for an answer expires in the step. -/
def answersInTime (s : Protocol) : Action → Prop
  | .hook t choice => choice = .fail → (s.hooks t).isAnswerWait = false
  | .call .. => True
  | .daemon _ => True

instance (s : Protocol) (a : Action) : Decidable (s.answersInTime a) :=
  match a with
  | .hook t choice =>
      inferInstanceAs (Decidable (choice = .fail → (s.hooks t).isAnswerWait = false))
  | .call .. => inferInstanceAs (Decidable True)
  | .daemon _ => inferInstanceAs (Decidable True)

/-- A wait has expired only if it expires in the step. -/
theorem hookStep_isExpired {t : ℕ} {choice : HookChoice} {k k' : State} {pc pc' : HookPc}
    (h : hookStep t choice k pc = some (k', pc')) (hexp : pc'.isExpired = true) :
  choice = .fail ∧ pc.isAnswerWait = true
  := by
  cases pc with
  | idle => cases h
  | monitored c | launched c =>
    simp only [hookStep] at h
    split at h <;> cases h <;> cases hexp
  | alloc c =>
    simp only [hookStep] at h
    split at h
    · cases h
      cases hexp
    · split at h <;> cases h
      cases hexp
  | hookDown c | answerDown c =>
    obtain ⟨⟨l, pc⟩, hl, h⟩ := Option.map_eq_some_iff.mp h
    cases h
    rcases downOrSleep_cases hl with ⟨rfl, -⟩ | ⟨rfl, -⟩ <;> cases hexp
  | hookWait c =>
    obtain ⟨⟨l, pc⟩, hl, h⟩ := Option.map_eq_some_iff.mp h
    cases h
    rcases wakeOrGiveUp_cases hl with ⟨rfl, -⟩ | ⟨-, rfl, -⟩ <;> cases hexp
  | fill c ws => cases ws <;> cases h <;> cases hexp
  | answerWait c =>
    obtain ⟨⟨l, pc⟩, hl, h⟩ := Option.map_eq_some_iff.mp h
    cases h
    rcases wakeOrGiveUp_cases hl with ⟨rfl, -⟩ | ⟨hfail, -, -⟩
    · cases hexp
    · use hfail
      rfl
  | read | expired | release | done =>
    cases h
    cases hexp

/-- The system calls do not write the record. -/
theorem syscallStep_info {choice : SyscallChoice} {k k' : State} {user user' : AuditsecInfo}
    {pc pc' : SyscallPc} (h : syscallStep d tgid choice k user pc = some (k', user', pc')) :
  k'.info = k.info
  := by
  cases pc with
  | question =>
    obtain ⟨-, l, rfl, -⟩ := syscallStep_question (by simp) h
    rfl
  | questionDown =>
    obtain ⟨-, l, rfl, -⟩ := syscallStep_question (by simp) h
    rfl
  | questionWait =>
    obtain ⟨-, l, rfl, -⟩ := syscallStep_question (by simp) h
    rfl
  | questionCopy => cases choice <;> cases h <;> rfl
  | answer v =>
    simp only [syscallStep] at h
    split at h <;> cases h <;> rfl
  | questionReject | questionRejectUp | answerStore | answerUp | ret =>
    cases h
    try rfl

/-- The records kept of a system call leave the hooks alone. -/
theorem noteSyscall_hooks (choice : SyscallChoice) (pc : SyscallPc) :
  (s.noteSyscall choice pc).hooks = s.hooks
  := by
  cases pc with
  | questionCopy => cases choice <;> rfl
  | _ => rfl

/-- The daemon takes no step of a hook and does not write the record. -/
theorem daemonStep_frame {choice : DaemonChoice} (h : daemonStep d tgid s choice = some s') :
  s'.hooks = s.hooks ∧ s'.kernel.info = s.kernel.info
  := by
  unfold daemonStep at h
  split at h
  case h_4 =>
    split at h <;> cases h
    use rfl
  case h_5 | h_8 =>
    obtain ⟨⟨k, user, pc'⟩, hk, rfl⟩ := Option.map_eq_some_iff.mp h
    use noteSyscall_hooks _ _, syscallStep_info hk
  all_goals
    cases h
    try use rfl

/-- No hook is past a wait that expired, when none expires. -/
theorem never_expired (h : (protocol d tgid).Reach answersInTime s) :
  ∀ t, (s.hooks t).isExpired = false
  := by
  apply Machine.Reach.invariant _ _ h
  · rintro s ⟨progs, rfl⟩ t
    rfl
  · intro s a s' hs hg hstep
    cases a with
    | call t current args =>
      simp only [protocol, step] at hstep
      split at hstep <;> cases hstep
      apply (Function.forall_update_iff s.hooks (p := fun _ pc => pc.isExpired = false)).mpr
      use rfl
      intro u _
      apply hs u
    | hook t choice =>
      obtain ⟨⟨k, pc⟩, hk, rfl⟩ := Option.map_eq_some_iff.mp hstep
      apply (Function.forall_update_iff s.hooks (p := fun _ pc => pc.isExpired = false)).mpr
      constructor
      · by_contra hexp
        obtain ⟨hfail, hw⟩ := hookStep_isExpired hk (by simpa using hexp)
        rw [hg hfail] at hw
        cases hw
      · intro u _
        apply hs u
    | daemon choice =>
      rw [(daemonStep_frame hstep).1]
      apply hs

/-- When no wait expires, no question has to be taken back. -/
theorem reclaims_of_answersInTime (h : (protocol d tgid).Reach answersInTime s) :
  (protocol d tgid).Reach reclaims s
  := by
  apply Machine.Reach.mono _ h
  intro s a hs _
  cases a with
  | hook t choice =>
    intro hexp
    rw [never_expired hs t] at hexp
    cases hexp
  | _ => trivial

/-! ### Balance -/

/-- In every run whose steps satisfy `reclaims`: when no task is inside the critical section
and the daemon sleeps in `auditsec_question`, neither `question_lock` nor `answer_lock` has
a token; and every answer a hook reads was computed for that hook's own request. -/
theorem balanced_of_reclaims (h : (protocol d tgid).Reach reclaims s) :
  ((∀ t, ¬ (s.hooks t).Inside) → s.daemon = .asking .questionWait →
    s.kernel.questionLock.count = 0 ∧ s.kernel.answerLock.count = 0) ∧
  ∀ n m ret, .verdict n m ret ∈ s.trace → m = n
  := by
  obtain ⟨-, -, hhist, hph⟩ := inv_of_reach h
  constructor
  · intro hout _
    cases hph with
    | held t _ _ hin => apply absurd hin (hout t)
    | free _ _ hqt =>
      have hquestion := s.kernel.questionLock.count_le_tokens
      have hans := s.kernel.answerLock.count_le_tokens
      have hq : s.kernel.questionLock.tokens = 0 := hqt.question
      have ha : s.kernel.answerLock.tokens = 0 := hqt.answer
      omega
  · apply hhist.verdict

/-- The daemon thread goes through its next `n` steps. -/
def daemonGo (n : ℕ) : List Action := List.replicate n (.daemon (.syscall .go))

/-- Task `0` goes through its next `n` steps. -/
def hookGo (n : ℕ) : List Action := List.replicate n (.hook 0 .go)

/-- Task `0` reads the file `path`, up to the point where it sleeps on `answer_lock`. -/
def askFile (path : List UInt8) : List Action :=
  .call 0 ⟨7, [97]⟩ (.filePermission path [97] 4) :: hookGo 12

/-- A hook expires before the daemon takes its question; a second one is answered. -/
def reclaimRun : List Action :=
  askFile [47] ++ [.hook 0 .fail] ++ hookGo 3 ++ daemonGo 3 ++ askFile [47, 98] ++
    daemonGo 3 ++ [.daemon (.verdict 1)] ++ daemonGo 3 ++ hookGo 4 ++ daemonGo 4

/-- A run given by its actions. -/
theorem reach_run {guard : Protocol → Action → Prop} (progs : List (List UInt8))
    (as : List Action) (halong : (protocol d tgid).Along guard (initial tgid progs) as)
    (hrun : (protocol d tgid).run (initial tgid progs) as = some s) :
  (protocol d tgid).Reach guard s
  := by
  apply Machine.Reach.run _ as halong hrun
  apply Machine.Reach.init
  use progs

/-- The condition is met by a run in which a wait expires. -/
theorem balanced_of_reclaims_reclaimRun :
  ∃ s, (protocol 1 5).run (initial 5 [[97]]) reclaimRun = some s ∧
    (∀ t, ¬ (s.hooks t).Inside) ∧ s.daemon = .asking .questionWait ∧
    .returned 0 (-EFAULT) ∈ s.trace ∧ .verdict 1 1 0 ∈ s.trace ∧
    s.kernel.questionLock.count = 0 ∧ s.kernel.answerLock.count = 0
  := by
  have hrch : (protocol 1 5).Reach reclaims _ :=
    reach_run [[97]] reclaimRun (by decide) rfl
  refine ⟨_, rfl, ?_, rfl, ?_, ?_, ?_⟩
  · rintro (_ | t) <;> apply id
  · decide
  · decide
  · apply (balanced_of_reclaims hrch).1 _ rfl
    rintro (_ | t) <;> apply id

/-- The wait of a hook expires after the daemon took its question. -/
def staleRun : List Action :=
  daemonGo 3 ++ askFile [47] ++ daemonGo 2 ++ [.hook 0 .fail] ++ hookGo 3 ++ daemonGo 1 ++
    [.daemon (.verdict 1)] ++ daemonGo 7

/-- When a wait expires after the daemon took the question, the answer token stays once the
hook has returned and the daemon waits again; and the next hook returns at once what the
daemon answered to the first, before its own request is delivered. -/
theorem stale_answer_is_returned :
  (∃ s, (protocol 1 5).Reach Machine.anyStep s ∧ (∀ t, ¬ (s.hooks t).Inside) ∧
    s.daemon = .asking .questionWait ∧ s.kernel.answerLock.count = 1) ∧
  ∃ s, (protocol 1 5).Reach Machine.anyStep s ∧ .verdict 1 0 0 ∈ s.trace ∧
    .returned 1 0 ∈ s.trace ∧ s.trace.countP (Event.isDelivery 1) = 0
  := by
  constructor
  · refine ⟨_, reach_run [[97]] staleRun (by decide) rfl, ?_, rfl, rfl⟩
    rintro (_ | t) <;> apply id
  · refine ⟨_, reach_run [[97]] (staleRun ++ askFile [47, 98] ++ hookGo 2) (by decide) rfl, ?_⟩
    decide

/-! ### Agreement -/

/-- Only a hook that fills the record writes it. -/
theorem hookStep_info {t : ℕ} {choice : HookChoice} {k k' : State} {pc pc' : HookPc}
    (h : hookStep t choice k pc = some (k', pc')) :
  k'.info = k.info ∨ ∃ c ws, pc = .fill c ws
  := by
  by_cases hin : pc.Inside
  · cases pc with
    | fill c ws =>
      right
      use c, ws
    | answerDown c | answerWait c =>
      obtain ⟨⟨l, pc⟩, -, h⟩ := Option.map_eq_some_iff.mp h
      cases h
      left
      rfl
    | read | expired | release =>
      cases h
      left
      rfl
    | _ => apply absurd hin id
  · obtain ⟨l, rfl, -⟩ := hookStep_outside hin h
    left
    rfl

/-- Only a hook that fills the record writes it, whatever step is taken. -/
theorem step_info {a : Action} (h : step d tgid s a = some s') :
  s'.kernel.info = s.kernel.info ∨ ∃ t choice c ws, a = .hook t choice ∧ s.hooks t = .fill c ws
  := by
  cases a with
  | call t current args =>
    simp only [step] at h
    split at h <;> cases h
    left
    rfl
  | hook t choice =>
    obtain ⟨⟨k, pc⟩, hk, rfl⟩ := Option.map_eq_some_iff.mp h
    rcases hookStep_info hk with hinfo | ⟨c, ws, hpc⟩
    · left
      apply hinfo
    · right
      use t, choice, c, ws
  | daemon choice =>
    left
    apply (daemonStep_frame h).2

/-- At most one task is inside. -/
theorem Phase.inside_unique (hs : s.Phase) {t u : ℕ} (ht : (s.hooks t).Inside)
    (hu : (s.hooks u).Inside) :
  t = u
  := by
  obtain ⟨-, -, hoth, -⟩ := hs.of_inside ht
  by_contra hne
  apply hoth u (Ne.symm hne) hu

/-- The record is not written while a hook waits for its answer. -/
theorem Phase.info_stable (hs : s.Phase) {t : ℕ} {a : Action} (ht : (s.hooks t).Asked)
    (h : step d tgid s a = some s') :
  s'.kernel.info = s.kernel.info
  := by
  rcases step_info h with hinfo | ⟨u, choice, c, ws, -, hu⟩
  · apply hinfo
  · obtain rfl : t = u := by
      apply hs.inside_unique ht.inside
      rw [hu]
      trivial
    rw [hu] at ht
    apply absurd ht id

/-- A hook returns `0` exactly for an answer other than `0`. -/
theorem verdictCode_eq_zero_iff {v : Int} :
  verdictCode v = 0 ↔ v ≠ 0
  := by
  unfold verdictCode
  split
  · rename_i hv
    simp [hv, EACCES]
  · rename_i hv
    simp [hv]

/-- In every run in which no wait for an answer expires:
at most one hook is inside its critical section;
the record is not written while a hook waits for its answer;
a hook that returns `0` or `-EACCES` after waiting returns what the daemon answered to the
request the hook posted, or `-EACCES` when that request could not be copied;
every request is delivered at most once. -/
theorem agreement_of_answersInTime (h : (protocol d tgid).Reach answersInTime s) :
  (∀ t u, (s.hooks t).Inside → (s.hooks u).Inside → t = u) ∧
  (∀ t a s', (s.hooks t).Asked → step d tgid s a = some s' →
    s'.kernel.info = s.kernel.info) ∧
  (∀ n ret, .returned n ret ∈ s.trace → ret = 0 ∨ ret = -EACCES →
    ∃ r, .posted n r ∈ s.trace ∧
      (.copyFailed n ∈ s.trace ∧ ret = -EACCES ∨
        ∃ i v, .delivered n i ∈ s.trace ∧ i.request = r ∧ .answered n v ∈ s.trace ∧
          (ret = 0 ↔ v ≠ 0)) ∧
      (∀ v, .answered n v ∈ s.trace → (ret = 0 ↔ v ≠ 0)) ∧
      (.copyFailed n ∈ s.trace → ret = -EACCES)) ∧
  ∀ n, s.trace.countP (Event.isDelivery n) ≤ 1
  := by
  obtain ⟨-, -, hhist, hph⟩ := inv_of_reach (reclaims_of_answersInTime h)
  refine ⟨?_, ?_, ?_, ?_⟩
  · intro t u
    apply hph.inside_unique
  · intro t a s'
    apply hph.info_stable
  · intro n ret hret hcode
    rcases hhist.returned n ret hret with hefault | ⟨r, v, hout, rfl⟩
    · rw [hefault] at hcode
      apply absurd hcode
      decide
    · obtain ⟨hpost, hans, hfail, hsrc⟩ := hout
      have hreject : .copyFailed n ∈ s.trace → verdictCode v = -EACCES := by
        intro hf
        rw [hfail hf]
        rfl
      refine ⟨r, hpost, ?_, ?_, hreject⟩
      · rcases hsrc with hf | ⟨⟨i, hi, hr⟩, hv⟩
        · left
          use hf, hreject hf
        · right
          use i, v, hi, hr, hv
          apply verdictCode_eq_zero_iff
      · intro w hw
        rw [hans w hw]
        apply verdictCode_eq_zero_iff
  · apply hhist.once

/-- One request is approved, the next cannot be copied to the daemon. -/
def answeredRun : List Action :=
  daemonGo 3 ++ askFile [47] ++ daemonGo 3 ++ [.daemon (.verdict 1)] ++ daemonGo 3 ++
    hookGo 4 ++ daemonGo 4 ++ askFile [47, 98] ++ daemonGo 1 ++ [.daemon (.syscall .fault)] ++
    daemonGo 2 ++ hookGo 4

/-- The condition is met by a run with an approved request and one that is not copied. -/
theorem agreement_of_answersInTime_answeredRun :
  ∃ s, (protocol 1 5).run (initial 5 [[97]]) answeredRun = some s ∧
    .returned 0 0 ∈ s.trace ∧ .returned 1 (-EACCES) ∈ s.trace ∧ .copyFailed 1 ∈ s.trace ∧
    ∀ v, .answered 0 v ∈ s.trace → v ≠ 0
  := by
  have hrch : (protocol 1 5).Reach answersInTime _ :=
    reach_run [[97]] answeredRun (by decide) rfl
  obtain ⟨-, -, hret, -⟩ := agreement_of_answersInTime hrch
  refine ⟨_, rfl, by decide, by decide, by decide, ?_⟩
  intro v hv
  obtain ⟨r, -, -, hans, -⟩ := hret 0 0 (by decide) (.inl rfl)
  apply (hans v hv).mp rfl

/-- In every run whose expired waits take their question back: a hook returns `0` only when the
daemon was delivered its request, once, and approved it. -/
theorem approved_of_reclaims (h : (protocol d tgid).Reach reclaims s) {n : ℕ}
    (hret : .returned n 0 ∈ s.trace) :
  ∃ i v, .posted n i.request ∈ s.trace ∧ .delivered n i ∈ s.trace ∧ .answered n v ∈ s.trace ∧
    v ≠ 0 ∧ s.trace.countP (Event.isDelivery n) = 1
  := by
  obtain ⟨-, -, hhist, -⟩ := inv_of_reach h
  rcases hhist.returned n 0 hret with hefault | ⟨r, v, hout, hcode⟩
  · cases hefault
  have hv : v ≠ 0 := verdictCode_eq_zero_iff.mp hcode.symm
  rcases hout.source with hfail | ⟨⟨i, hi, rfl⟩, hans⟩
  · apply absurd (hout.failed hfail) hv
  · refine ⟨i, v, hout.posted, hi, hans, hv, ?_⟩
    apply (hhist.once n).antisymm
    apply List.countP_pos_iff.mpr ⟨_, hi, by simp [Event.isDelivery]⟩

/-- The second call of the run in which a wait expires is approved. -/
theorem approved_of_reclaims_reclaimRun :
  ∃ s, (protocol 1 5).run (initial 5 [[97]]) reclaimRun = some s ∧
    ∃ i v, .delivered 1 i ∈ s.trace ∧ .answered 1 v ∈ s.trace ∧ v ≠ 0
  := by
  have hrch : (protocol 1 5).Reach reclaims _ :=
    reach_run [[97]] reclaimRun (by decide) rfl
  obtain ⟨i, v, -, hi, hv, hne, -⟩ := approved_of_reclaims hrch (n := 1) (by decide)
  exact ⟨_, rfl, i, v, hi, hv, hne⟩

end Protocol

end Kernel

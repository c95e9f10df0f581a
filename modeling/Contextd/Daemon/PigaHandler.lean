import Contextd.Machine
import Contextd.Daemon.ContextClient
import Contextd.Data.Number

/-!
# The dialogue with PIGA

`PigaHandler::sendTrace` numbers a trace with the static counter `traceId`, writes it to a socket,
and waits for a line that repeats the number.  Any number of threads run it, one statement at a
time, and PIGA replies once to each trace, in any order and after any delay (`pigaDialogue`).

The counter is read three times without a lock.  When no thread increments it between the increment
of another one and its last reading, every number belongs to one call; and when every line fits into
the buffer, no reply is read in parts (`PigaDialogue.Orderly`).  Beside the state of the code,
`owner` records which call produced a number, and `verdicts` the replies to the trace of each call.
-/

namespace Daemon

open List Policy Machine

/-- `INT_MAX`. -/
def INT_MAX : Int := 2147483647

/-- What PIGA says of a transition. -/
inductive Verdict where
  | allowed
  | killed
  | refused
  deriving DecidableEq, Repr

/-- A call of `sendTrace`: its serial number and the transition it is about. -/
structure TraceCall where
  serial : ℕ
  transition : Transition
  deriving DecidableEq, Repr

/-- The trace of a call, with its number. -/
structure Trace where
  id : Int
  call : TraceCall
  deriving DecidableEq, Repr

/-- The word PIGA writes for a verdict. -/
def Verdict.word : Verdict → List Char
  | .allowed => ['a', 'l', 'l', 'o', 'w', 'e', 'd']
  | .killed => ['k', 'i', 'l', 'l', 'e', 'd']
  | .refused => ['r', 'e', 'f', 'u', 's', 'e', 'd']

/-- A reply of PIGA: the number of a trace and the verdict, and whether it ends the line. -/
structure TraceReply where
  id : Int
  verdict : Verdict
  newline : Bool
  deriving DecidableEq, Repr

/-- The word of a reply, with the end of the line. -/
def TraceReply.word (r : TraceReply) : List Char :=
  r.verdict.word ++ if r.newline then ['\n'] else []

/-- The bytes of a reply. -/
def TraceReply.text (r : TraceReply) : List Char := r.id.repr.toList ++ ' ' :: r.word

/-- The bytes up to the end of the line, or all of them. -/
def lineOf (bytes : List Char) : List Char :=
  bytes.takeWhile (· ≠ '\n') ++ (bytes.dropWhile (· ≠ '\n')).take 1

/-- `socket.readLine(buf, sizeof(buf))`, with what is left: the line with its end, as far as it
fits into the buffer before the terminating zero. -/
def readLine (bytes : List Char) : List Char × List Char :=
  let line := (lineOf bytes).take 1023
  (line, bytes.drop line.length)

/-- What `waitForNextDecision` makes of a line.  `QString(buf)` ends at the first zero. -/
def decisionOf (line : List Char) (traceId : Int) : PigaDecision :=
  match (line.takeWhile (· ≠ '\x00')).splitOn ' ' with
  | [number, word] =>
      if (QString.toInt? (String.ofList number)).getD 0 = traceId then
        if word = Verdict.allowed.word then .allowed
        else if word = Verdict.killed.word then .killed
        else .refused
      else .error
  | _ => .error

/-! ### Lines and replies -/

/-- A reply before the end of its line. -/
theorem TraceReply.exists_text (r : TraceReply) :
  ∃ front, r.text = front ++ (if r.newline then ['\n'] else []) ∧ '\n' ∉ front ∧ '\x00' ∉ front
  := by
  use r.id.repr.toList ++ ' ' :: r.verdict.word
  have hw : '\n' ∉ r.verdict.word ∧ '\x00' ∉ r.verdict.word := by cases r.verdict <;> decide
  have hnum := QString.notMem_repr (c := '\n') rfl (by decide) r.id
  have hzero := QString.notMem_repr (c := '\x00') rfl (by decide) r.id
  simp [TraceReply.text, TraceReply.word, hw, hnum, hzero]

theorem lineOf_append {front : List Char} (h : '\n' ∉ front) (bytes : List Char) :
  lineOf (front ++ bytes) = front ++ lineOf bytes
  := by
  have hall : ∀ c ∈ front, decide (c ≠ '\n') = true := by
    intro c hc
    apply decide_eq_true (ne_of_mem_of_not_mem hc h)
  rw [lineOf, takeWhile_append_of_pos hall, dropWhile_append_of_pos hall, append_assoc, lineOf]

/-- The next line is made of whole replies. -/
theorem exists_lineOf (rs : List TraceReply) :
  ∃ rs₁ rs₂, rs = rs₁ ++ rs₂ ∧ lineOf (rs.flatMap TraceReply.text) = rs₁.flatMap TraceReply.text
  := by
  induction rs with
  | nil => exact ⟨[], [], rfl, rfl⟩
  | cons r rs ih =>
    obtain ⟨front, ht, hfr, -⟩ := r.exists_text
    cases hnl : r.newline with
    | true =>
      use [r], rs, rfl
      rw [flatMap_cons, ht, hnl, append_assoc, lineOf_append hfr]
      simp [lineOf, ht, hnl]
    | false =>
      obtain ⟨rs₁, rs₂, rfl, hl⟩ := ih
      use r :: rs₁, rs₂, rfl
      have hend : r.text = front := by simpa [hnl] using ht
      rw [flatMap_cons, hend, lineOf_append hfr, hl, flatMap_cons, hend]

/-- A line that fits is read as a whole. -/
theorem readLine_of_fits {bytes : List Char} (h : (lineOf bytes).length ≤ 1023) :
  readLine bytes = (lineOf bytes, bytes.drop (lineOf bytes).length)
  := by
  rw [readLine, take_of_length_le h]

/-- A line by which a trace is allowed is one reply, which allows the trace of its number. -/
theorem exists_of_decisionOf {rs : List TraceReply} {traceId : Int}
    (h : decisionOf (rs.flatMap TraceReply.text) traceId = .allowed) :
  ∃ r ∈ rs, r.verdict = .allowed ∧ (QString.toInt? r.id.repr).getD 0 = traceId
  := by
  have hzero : '\x00' ∉ rs.flatMap TraceReply.text := by
    intro hm
    obtain ⟨r, -, hr⟩ := mem_flatMap.mp hm
    obtain ⟨front, ht, -, hfr⟩ := r.exists_text
    rw [ht] at hr
    split_ifs at hr <;> simp_all
  have hwhole :
      (rs.flatMap TraceReply.text).takeWhile (· ≠ '\x00') = rs.flatMap TraceReply.text := by
    apply takeWhile_eq_self_iff.mpr
    intro c hc
    simpa using ne_of_mem_of_not_mem hc hzero
  have hnum : ∀ r : TraceReply, ' ' ∉ r.id.repr.toList := by
    intro r
    apply QString.notMem_repr rfl (by decide)
  have hw : ∀ r : TraceReply, ' ' ∉ r.word := by
    intro r
    rw [TraceReply.word]
    cases r.verdict <;> cases r.newline <;> decide
  rw [decisionOf, hwhole] at h
  rcases rs with _ | ⟨r, _ | ⟨r', rs⟩⟩
  · cases h
  · rw [flatMap_singleton, TraceReply.text, splitOn_append_cons_self_of_not_mem (hnum r),
      splitOn_eq_singleton (hw r)] at h
    dsimp only at h
    split_ifs at h with hid hall
    rw [String.ofList_toList] at hid
    refine ⟨r, mem_singleton_self r, ?_, hid⟩
    obtain ⟨id, _ | _ | _, _ | _⟩ := r <;> first | rfl | cases hall
  · have hspace : ' ' ∉ r.word ++ r'.id.repr.toList := by simp [hnum, hw]
    obtain ⟨part, parts, hparts⟩ := exists_cons_of_ne_nil
      (splitOn_ne_nil ' ' (r'.word ++ rs.flatMap TraceReply.text))
    have hsp : ((r :: r' :: rs).flatMap TraceReply.text).splitOn ' ' =
        r.id.repr.toList :: (r.word ++ r'.id.repr.toList) :: part :: parts := by
      rw [← hparts, ← splitOn_append_cons_self_of_not_mem hspace,
        ← splitOn_append_cons_self_of_not_mem (hnum r)]
      simp [TraceReply.text]
    rw [hsp] at h
    cases h

/-! ### The threads -/

/-- The next statement of a thread with respect to `sendTrace`. -/
inductive TracePc where
  /-- Not in a call. -/
  | idle
  /-- `if (!enabled) return PigaHandler::Disabled`. -/
  | enter (c : TraceCall)
  /-- `++traceId`. -/
  | increment (c : TraceCall)
  /-- `trace = writeTransitionTrace(c, t, decision)`. -/
  | build (c : TraceCall)
  /-- `socket.write(qPrintable(trace))`, if enabled and the socket is valid. -/
  | write (tr : Trace)
  /-- The argument `traceId` of `waitForNextDecision`. -/
  | reread (c : TraceCall)
  /-- `if (!enabled)`, and then `socket.isValid() && socket.waitForReadyRead()`. -/
  | wait (c : TraceCall) (traceId : Int)
  /-- `socket.readLine(buf, sizeof(buf))` and the comparison. -/
  | read (c : TraceCall) (traceId : Int)
  /-- The call has returned. -/
  | done (c : TraceCall) (decision : PigaDecision)

/-- Between the increment of the counter and its last reading, with the call. -/
def TracePc.numbering? : TracePc → Option TraceCall
  | .build c | .reread c => some c
  | .write tr => some tr.call
  | _ => none

/-- About to increment the counter. -/
def TracePc.isIncrement : TracePc → Bool
  | .increment _ => true
  | _ => false

/-- About to read a line. -/
def TracePc.isRead : TracePc → Bool
  | .read .. => true
  | _ => false

/-- The handler, its socket and the threads.  `received` are the traces PIGA has not replied
to, and `bytes` the replies that have not been read. -/
structure PigaDialogue (n : ℕ) where
  enabled : Bool
  isValid : Bool
  traceId : Int
  received : List Trace
  bytes : List Char
  threads : Fin n → TracePc
  calls : ℕ
  owner : Int → Option ℕ
  verdicts : List (ℕ × Verdict)

namespace PigaDialogue

variable {n : ℕ}

/-- A thread calls `sendTrace` or takes its next step, in which a wait may time out; PIGA
replies to one of the traces it has received; the handler is enabled or disabled, and the
socket connected or disconnected. -/
inductive Action (n : ℕ) where
  | call (i : Fin n) (t : Transition)
  | step (i : Fin n) (timeout : Bool)
  | reply (k : ℕ) (verdict : Verdict) (newline : Bool)
  | switch (enabled isValid : Bool)

/-- Thread `i` continues at `pc`. -/
def goto (s : PigaDialogue n) (i : Fin n) (pc : TracePc) : PigaDialogue n :=
  { s with threads := Function.update s.threads i pc }

/-- The next step of a thread.  The increment of `INT_MAX` has no defined effect. -/
def threadStep (s : PigaDialogue n) (i : Fin n) (timeout : Bool) :
    TracePc → Option (PigaDialogue n)
  | .idle => none
  | .enter c => some (s.goto i (if s.enabled then .increment c else .done c .disabled))
  | .increment c =>
      if s.traceId < INT_MAX then
        some
          { s.goto i (.build c) with
            traceId := s.traceId + 1
            owner := Function.update s.owner (s.traceId + 1) (some c.serial) }
      else none
  | .build c => some (s.goto i (.write ⟨s.traceId, c⟩))
  | .write tr =>
      some
        { s.goto i (.reread tr.call) with
          received := if s.enabled && s.isValid then s.received ++ [tr] else s.received }
  -- The counter is read once more, and another thread may have incremented it since.
  | .reread c => some (s.goto i (.wait c s.traceId))
  | .wait c traceId =>
      if s.enabled then
        if s.isValid && !timeout then
          if s.bytes = [] then none else some (s.goto i (.read c traceId))
        else some (s.goto i (.done c .error))
      else some (s.goto i (.done c .disabled))
  | .read c traceId =>
      -- The next line is taken, whichever trace it answers.
      some
        { s.goto i (.done c (decisionOf (readLine s.bytes).1 traceId)) with
          bytes := (readLine s.bytes).2 }
  | .done _ _ => some (s.goto i .idle)

/-- A step of the dialogue. -/
def step (s : PigaDialogue n) : Action n → Option (PigaDialogue n)
  | .call i t =>
      match s.threads i with
      | .idle => some { s.goto i (.enter ⟨s.calls, t⟩) with calls := s.calls + 1 }
      | _ => none
  | .step i timeout => s.threadStep i timeout (s.threads i)
  | .reply k verdict newline =>
      match s.received[k]? with
      | some tr =>
          some
            { s with
              received := s.received.eraseIdx k
              bytes := s.bytes ++ TraceReply.text ⟨tr.id, verdict, newline⟩
              verdicts := s.verdicts ++ [(tr.call.serial, verdict)] }
      | none => none
  | .switch enabled isValid => some { s with enabled := enabled, isValid := isValid }

/-- The handler before its first call. -/
def initial (n : ℕ) (enabled isValid : Bool) : PigaDialogue n where
  enabled := enabled
  isValid := isValid
  traceId := 0
  received := []
  bytes := []
  threads _ := .idle
  calls := 0
  owner _ := none
  verdicts := []

/-- A thread increments the counter only when no other one is between its own increment and
its last reading. -/
def Unshared (s : PigaDialogue n) : Action n → Prop
  | .step i _ =>
      (s.threads i).isIncrement = true → ∀ j, j ≠ i → (s.threads j).numbering? = none
  | .call .. | .reply .. | .switch .. => True

/-- A thread reads only a line that fits into its buffer. -/
def Fits (s : PigaDialogue n) : Action n → Prop
  | .step i _ => (s.threads i).isRead = true → (lineOf s.bytes).length ≤ 1023
  | .call .. | .reply .. | .switch .. => True

/-- The counter is not shared, and the lines fit. -/
def Orderly (s : PigaDialogue n) (a : Action n) : Prop := s.Unshared a ∧ s.Fits a

instance (s : PigaDialogue n) : ∀ a, Decidable (s.Orderly a)
  | .step _ _ => inferInstanceAs (Decidable ((_ → ∀ _, _) ∧ (_ → _)))
  | .call .. | .reply .. | .switch .. => inferInstanceAs (Decidable (True ∧ True))

end PigaDialogue

/-- The dialogue of `n` threads with PIGA. -/
def pigaDialogue (n : ℕ) : Machine (PigaDialogue n) (PigaDialogue.Action n) where
  init s := ∃ enabled isValid, s = .initial n enabled isValid
  step := PigaDialogue.step

namespace PigaDialogue

variable {n : ℕ} {s s' : PigaDialogue n} {i : Fin n} {pc : TracePc} {a : Action n}

/-! ### Numbers and their calls -/

/-- What a thread at a statement knows: that the counter is its number, that it waits for its
number, or that it was allowed by the verdict for its own trace. -/
def Knows (s : PigaDialogue n) : TracePc → Prop
  | .build c | .reread c => s.owner s.traceId = some c.serial
  | .write tr => tr.id = s.traceId ∧ s.owner s.traceId = some tr.call.serial
  | .wait c traceId | .read c traceId => s.owner traceId = some c.serial
  | .done c decision => decision = .allowed → (c.serial, .allowed) ∈ s.verdicts
  | _ => True

/-- What a thread knows stays true when numbers and verdicts are added, as long as the counter
stays while the thread relies on it. -/
theorem Knows.frame (h : s.Knows pc) (hown : ∀ id c, s.owner id = some c → s'.owner id = some c)
    (hvers : s.verdicts ⊆ s'.verdicts) (htraceId : pc.numbering? ≠ none → s'.traceId = s.traceId) :
  s'.Knows pc
  := by
  cases pc with
  | build c | reread c =>
    simp only [Knows, htraceId nofun]
    apply hown _ _ h
  | write tr =>
    simp only [Knows, htraceId nofun]
    exact ⟨h.1, hown _ _ h.2⟩
  | wait c traceId | read c traceId => apply hown _ _ h
  | done c decision =>
    intro hall
    apply hvers (h hall)
  | idle | enter | increment => trivial

/-- Every number belongs to the call that produced it: the traces carry their numbers, the
replies the verdicts for the calls of their numbers, and the threads know theirs. -/
structure Numbered (s : PigaDialogue n) : Prop where
  fresh : ∀ id c, s.owner id = some c → 0 ≤ id ∧ id ≤ s.traceId
  bound : 0 ≤ s.traceId ∧ s.traceId ≤ INT_MAX
  received : ∀ tr ∈ s.received, s.owner tr.id = some tr.call.serial
  bytes : ∃ rs : List TraceReply, s.bytes = rs.flatMap TraceReply.text ∧
    ∀ r ∈ rs, ∃ c, s.owner r.id = some c ∧ (c, r.verdict) ∈ s.verdicts
  threads : ∀ j, s.Knows (s.threads j)

theorem Numbered.initial (enabled isValid : Bool) :
  (PigaDialogue.initial n enabled isValid).Numbered
  := by
  exact ⟨nofun, (by decide : (0 : Int) ≤ 0 ∧ 0 ≤ INT_MAX), nofun, ⟨[], rfl, nofun⟩,
    fun _ => trivial⟩

/-- A thread goes on to a statement at which it knows what is true. -/
theorem Numbered.goto (h : s.Numbered) (hpc : s.Knows pc) :
  (s.goto i pc).Numbered
  := by
  refine ⟨h.fresh, h.bound, h.received, h.bytes, ?_⟩
  apply (Function.forall_update_iff s.threads (p := fun _ pc => s.Knows pc)).mpr
  use hpc
  intro j _
  apply h.threads j

/-- The counter is incremented by a thread when no other one relies on it. -/
theorem Numbered.increment {c : TraceCall} (h : s.Numbered) (hmax : s.traceId < INT_MAX)
    (hg : ∀ j, j ≠ i → (s.threads j).numbering? = none) :
  ({ s.goto i (.build c) with
    traceId := s.traceId + 1
    owner := Function.update s.owner (s.traceId + 1) (some c.serial) } :
      PigaDialogue n).Numbered
  := by
  have hown : ∀ id c', s.owner id = some c' →
      Function.update s.owner (s.traceId + 1) (some c.serial) id = some c' := by
    intro id c' hid
    have hle := (h.fresh id c' hid).2
    rw [Function.update_of_ne (by omega)]
    apply hid
  have hbound := h.bound
  constructor
  · intro id c' hid
    dsimp only
    by_cases hnew : id = s.traceId + 1
    · omega
    · simp only [Function.update_of_ne hnew] at hid
      have hle := h.fresh id c' hid
      omega
  · dsimp only
    omega
  · intro tr htr
    apply hown _ _ (h.received tr htr)
  · obtain ⟨rs, hrs, hvers⟩ := h.bytes
    use rs, hrs
    intro r hr
    obtain ⟨c', hc', hver⟩ := hvers r hr
    exact ⟨c', hown _ _ hc', hver⟩
  · intro j
    by_cases hj : j = i
    · subst hj
      simp only [PigaDialogue.goto, Function.update_self, Knows]
    · simp only [PigaDialogue.goto, Function.update_of_ne hj]
      apply (h.threads j).frame
      · apply hown
      · apply List.Subset.refl
      · intro hnumbering
        apply absurd (hg j hj) hnumbering

/-- A line that was read decides for the call of its number. -/
theorem Numbered.decision {c : TraceCall} {traceId : Int} {rs : List TraceReply} (h : s.Numbered)
    (hrs : ∀ r ∈ rs, ∃ c, s.owner r.id = some c ∧ (c, r.verdict) ∈ s.verdicts)
    (hown : s.owner traceId = some c.serial)
    (hall : decisionOf (rs.flatMap TraceReply.text) traceId = .allowed) :
  (c.serial, .allowed) ∈ s.verdicts
  := by
  obtain ⟨r, hr, hver, hid⟩ := exists_of_decisionOf hall
  obtain ⟨c', hc', hm⟩ := hrs r hr
  have hint : QString.IsInt r.id := by
    have hfr := h.fresh _ _ hc'
    have hbound := h.bound.2
    unfold INT_MAX at hbound
    unfold QString.IsInt
    omega
  rw [QString.toInt?_repr hint, Option.getD_some] at hid
  rw [hid, hown] at hc'
  rw [hver, ← Option.some.inj hc'] at hm
  apply hm

/-- A thread writes its trace, which reaches PIGA or does not. -/
theorem Numbered.write {tr : Trace} (h : s.Numbered) (htr : s.Knows (.write tr)) (sent : Bool) :
  ({ s.goto i (.reread tr.call) with
    received := if sent then s.received ++ [tr] else s.received } : PigaDialogue n).Numbered
  := by
  obtain ⟨hid, hown⟩ := htr
  have hmv : (s.goto i (.reread tr.call)).Numbered := h.goto hown
  refine ⟨hmv.fresh, hmv.bound, ?_, hmv.bytes, hmv.threads⟩
  intro tr' htr'
  dsimp only at htr'
  split_ifs at htr'
  · rcases mem_append.mp htr' with htr' | htr'
    · apply h.received tr' htr'
    · obtain rfl := mem_singleton.mp htr'
      apply (congrArg s.owner hid).trans hown
  · apply h.received tr' htr'

/-- A thread reads the next line. -/
theorem Numbered.read {c : TraceCall} {traceId : Int} (h : s.Numbered)
    (hown : s.Knows (.read c traceId)) (hf : (lineOf s.bytes).length ≤ 1023) :
  ({ s.goto i (.done c (decisionOf (readLine s.bytes).1 traceId)) with
    bytes := (readLine s.bytes).2 } : PigaDialogue n).Numbered
  := by
  obtain ⟨rs, hbs, hrs⟩ := h.bytes
  obtain ⟨rs₁, rs₂, rfl, hl⟩ := exists_lineOf rs
  rw [← hbs] at hl
  rw [readLine_of_fits hf, hl]
  have hmv :
      (s.goto i (.done c (decisionOf (rs₁.flatMap TraceReply.text) traceId))).Numbered := by
    apply h.goto
    apply h.decision _ hown
    intro r hr
    apply hrs r (mem_append_left _ hr)
  refine ⟨hmv.fresh, hmv.bound, hmv.received, ⟨rs₂, ?_, ?_⟩, hmv.threads⟩
  · dsimp only
    rw [hbs, flatMap_append, drop_left]
  · intro r hr
    apply hrs r (mem_append_right _ hr)

/-- PIGA replies to a trace. -/
theorem Numbered.reply {k : ℕ} {tr : Trace} {verdict : Verdict} (h : s.Numbered)
    (htr : s.received[k]? = some tr) (newline : Bool) :
  ({ s with
    received := s.received.eraseIdx k
    bytes := s.bytes ++ TraceReply.text ⟨tr.id, verdict, newline⟩
    verdicts := s.verdicts ++ [(tr.call.serial, verdict)] } : PigaDialogue n).Numbered
  := by
  have hsub : s.verdicts ⊆ s.verdicts ++ [(tr.call.serial, verdict)] :=
    subset_append_left _ _
  refine ⟨h.fresh, h.bound, ?_, ?_, ?_⟩
  · intro tr' htr'
    apply h.received tr' (mem_of_mem_eraseIdx htr')
  · obtain ⟨rs, hbs, hrs⟩ := h.bytes
    use rs ++ [⟨tr.id, verdict, newline⟩]
    use by simp [hbs]
    intro r hr
    rcases mem_append.mp hr with hr | hr
    · obtain ⟨c, hc, hver⟩ := hrs r hr
      exact ⟨c, hc, hsub hver⟩
    · obtain rfl := mem_singleton.mp hr
      use tr.call.serial, h.received tr (mem_of_getElem? htr)
      simp
  · intro j
    apply (h.threads j).frame
    · intro _ _ hid
      apply hid
    · apply hsub
    · intro _
      rfl

/-- A step of a thread. -/
theorem Numbered.threadStep {timeout : Bool} (h : s.Numbered) (hg : s.Orderly (.step i timeout))
    (hs : s.threadStep i timeout (s.threads i) = some s') :
  s'.Numbered
  := by
  have hkn := h.threads i
  obtain ⟨hinc, hf⟩ := hg
  simp only [Unshared, Fits] at hinc hf
  generalize s.threads i = pc at hkn hinc hf hs
  cases pc with
  | idle => cases hs
  | enter c =>
    cases hs
    apply h.goto
    split_ifs
    · trivial
    · nofun
  | increment c =>
    simp only [PigaDialogue.threadStep] at hs
    split_ifs at hs with hmax
    cases hs
    apply h.increment hmax (hinc rfl)
  | build c =>
    cases hs
    apply h.goto
    exact ⟨rfl, hkn⟩
  | write tr =>
    cases hs
    apply h.write hkn
  | reread c =>
    cases hs
    apply h.goto
    apply hkn
  | wait c traceId =>
    simp only [PigaDialogue.threadStep] at hs
    split_ifs at hs
    · cases hs
      apply h.goto
      apply hkn
    · cases hs
      apply h.goto
      nofun
    · cases hs
      apply h.goto
      nofun
  | read c traceId =>
    cases hs
    apply h.read hkn (hf rfl)
  | done c decision =>
    cases hs
    apply h.goto
    trivial

theorem Numbered.step (h : s.Numbered) (hg : s.Orderly a) (hs : s.step a = some s') :
  s'.Numbered
  := by
  cases a with
  | call i t =>
    simp only [PigaDialogue.step] at hs
    split at hs
    · cases hs
      have hmv : (s.goto i (.enter ⟨s.calls, t⟩)).Numbered := h.goto trivial
      exact ⟨hmv.fresh, hmv.bound, hmv.received, hmv.bytes, hmv.threads⟩
    · cases hs
  | step i timeout => apply h.threadStep hg hs
  | reply k verdict newline =>
    simp only [PigaDialogue.step] at hs
    split at hs
    next tr htr =>
      cases hs
      apply h.reply htr
    next => cases hs
  | switch enabled isValid =>
    cases hs
    exact ⟨h.fresh, h.bound, h.received, h.bytes, h.threads⟩

/-- In every run in which the counter is incremented only when no other thread relies on it, and
in which the lines that are read fit into the buffer, a call that returns `Allowed` was allowed
by the verdict of PIGA for its own trace. -/
theorem allowed_of_orderly (h : (pigaDialogue n).Reach Orderly s) {c : TraceCall}
    (hdone : s.threads i = .done c .allowed) :
  (c.serial, .allowed) ∈ s.verdicts
  := by
  have hnum : s.Numbered := by
    apply h.invariant
    · rintro s ⟨enabled, isValid, rfl⟩
      apply Numbered.initial
    · intro s a s' hs hg hstep
      apply hs.step hg hstep
  have hkn := hnum.threads i
  rw [hdone] at hkn
  apply hkn rfl

/-- The transition of the mail program from the domain `work` to a domain. -/
def leaveWork (target : String) : Transition where
  program := mailer
  transitFrom := ⟨"work", "", "", "", 0, 0⟩
  transitTo := ⟨target, "", "", "", 0, 0⟩
  promptUser := false
  notifyUser := false

/-- A call on one thread, which PIGA allows, behind one on the other thread that has timed out
before it was refused. -/
def lateReply : List (Action 2) :=
  [.call 1 (leaveWork "public"), .step 1 false, .step 1 false, .step 1 false, .step 1 false,
    .step 1 false, .step 1 true, .call 0 (leaveWork "private"), .step 0 false, .step 0 false,
    .step 0 false, .step 0 false, .step 0 false, .reply 0 .refused true, .reply 0 .allowed false,
    .step 1 false, .call 1 (leaveWork "private"), .step 1 false, .step 1 false, .step 1 false,
    .step 1 false, .step 1 false, .step 1 false, .step 1 false, .step 0 false, .step 0 false]

/-- The refusal of a call that has timed out is read by a later call, and the line after it by
the call that PIGA allows. -/
theorem allowed_of_orderly_lateReply :
  ∃ s, (pigaDialogue 2).Reach Orderly s ∧
    s.threads 0 = .done ⟨1, leaveWork "private"⟩ .allowed ∧ (1, .allowed) ∈ s.verdicts
  := by
  have hst : (pigaDialogue 2).Reach Orderly (.initial 2 true true) := .init ⟨true, true, rfl⟩
  obtain ⟨s, hrun, hdone⟩ : ∃ s, (pigaDialogue 2).run (.initial 2 true true) lateReply = some s ∧
    s.threads 0 = .done ⟨1, leaveWork "private"⟩ .allowed := ⟨_, rfl, rfl⟩
  have hs := hst.run lateReply (by decide) hrun
  exact ⟨s, hs, hdone, allowed_of_orderly hs hdone⟩

/-- Two threads increment the counter before they read it, so that both traces carry the same
number.  PIGA allows the first, the thread of the second reads this reply, and then PIGA refuses
the second. -/
theorem allowed_by_other_verdict :
  ∃ s, (pigaDialogue 2).Reach anyStep s ∧
    s.threads 1 = .done ⟨1, leaveWork "public"⟩ .allowed ∧
    (1, .refused) ∈ s.verdicts ∧ (1, .allowed) ∉ s.verdicts
  := by
  have hst : (pigaDialogue 2).Reach anyStep (.initial 2 true true) := .init ⟨true, true, rfl⟩
  have hs := hst.run
    [.call 0 (leaveWork "private"), .step 0 false, .step 0 false,
      .call 1 (leaveWork "public"), .step 1 false, .step 1 false,
      .step 0 false, .step 0 false, .step 0 false, .step 1 false, .step 1 false, .step 1 false,
      .reply 0 .allowed false, .step 1 false, .step 1 false, .reply 0 .refused false]
    (by decide) rfl
  exact ⟨_, hs, rfl, by decide, by decide⟩

end PigaDialogue

end Daemon

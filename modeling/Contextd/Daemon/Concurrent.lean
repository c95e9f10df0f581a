import Contextd.Sync.ReadWriteLock
import Contextd.Daemon.Session

/-!
# Calls on several threads

Any number of threads run `updateState`, one statement at a time (`concurrent`).  The lock of
`ContextClient` is taken for reading only, so it excludes no other call, and is released before PIGA
is asked and the domain is set.

Beside the state of the code, `applied` records the calls that have set the domain.  When no call
sets another domain while another one holds a decision, and no two calls read a context of the same
client at once (`Serialised`), a run is one of the session that makes the calls of `applied`.
-/

namespace Daemon

open Policy Machine

/-- A call of `updateState`: the client, the text and the answers from outside. -/
structure Request where
  client : ℕ
  xml : String
  answers : Answers
  deriving DecidableEq, Repr

/-- The call of a session. -/
def Request.call (q : Request) : Call := .updateState q.client q.xml q.answers

/-- The next statement of a thread with respect to `updateState`. -/
inductive UpdatePc where
  /-- Not in a call. -/
  | idle
  /-- `QReadLocker lock(&readwritelock)`. -/
  | lock (q : Request)
  /-- `updateCurrentState(xmlContext, updateNeeded)`. -/
  | parse (q : Request)
  /-- `getFirstMatchingTransition(program(), currentDomain(), currentState())`. -/
  | find (q : Request)
  /-- `promptUserForAutorisation(..)`, for a transition that prompts. -/
  | prompt (q : Request) (t : Transition)
  /-- `lock.unlock()`. -/
  | unlock (q : Request) (t : Transition)
  /-- `onAcceptHooks(transition_found)`. -/
  | hooks (q : Request) (t : Transition)
  /-- `onAcceptTransition(transition_found)`. -/
  | accept (q : Request) (t : Transition)
  /-- The return, at which a lock that is still held is released. -/
  | leave (reply : String)

namespace UpdatePc

/-- The client whose context is about to be read. -/
def parsing? : UpdatePc → Option ℕ
  | .parse q => some q.client
  | _ => none

/-- The client whose context was read, and has not been used. -/
def reading? : UpdatePc → Option ℕ
  | .find q => some q.client
  | _ => none

/-- The transition whose target is about to be set. -/
def setting? : UpdatePc → Option Transition
  | .accept _ t => some t
  | _ => none

/-- A transition was found, and the call has not ended. -/
def decided : UpdatePc → Bool
  | .prompt .. | .unlock .. | .hooks .. | .accept .. => true
  | _ => false

end UpdatePc

/-- A session with the lock of `ContextClient`, the threads, and the calls that have set the
domain. -/
structure Concurrent (n : ℕ) extends Session where
  readwritelock : ReadWriteLock (Fin n)
  threads : Fin n → UpdatePc
  applied : List (Request × Transition)

namespace Concurrent

variable {n : ℕ}

/-- A thread starts a call, or takes its next step. -/
inductive Action (n : ℕ) where
  | call (i : Fin n) (q : Request)
  | step (i : Fin n)

/-- Thread `i` continues at `pc`. -/
def goto (s : Concurrent n) (i : Fin n) (pc : UpdatePc) : Concurrent n :=
  { s with threads := Function.update s.threads i pc }

/-- A step of the threads. -/
def step (codec : Codec) (re : RegExp) (config : Configuration) (s : Concurrent n) :
    Action n → Option (Concurrent n)
  | .call i q =>
      match s.threads i with
      | .idle => some (s.goto i (.lock q))
      | _ => none
  | .step i =>
      match s.threads i with
      | .idle => none
      | .lock q =>
          (s.readwritelock.lockForRead i).map
            fun l => { s.goto i (.parse q) with readwritelock := l }
      | .parse q =>
          match (s.clients q.client).updateCurrentState codec q.xml with
          | none => none
          | some (client, parseOK) =>
              some
                { s.goto i (if parseOK then .find q else .leave dbusError) with
                  clients := Function.update s.clients q.client client }
      | .find q =>
          match config.getFirstMatchingTransition re (s.clients q.client).program s.domain
              (s.clients q.client).currentState with
          | some t => some (s.goto i (.prompt q t))
          | none => some (s.goto i (.leave contextRefuse))
      | .prompt q t =>
          if !t.promptUser || q.answers.promptUserForAutorisation then
            some (s.goto i (.unlock q t))
          else some (s.goto i (.leave contextRefuse))
      | .unlock q t =>
          some { s.goto i (.hooks q t) with readwritelock := s.readwritelock.unlock i }
      | .hooks q t =>
          if onAcceptHooks q.answers.sendTrace = contextAccept then
            some (s.goto i (.accept q t))
          else some (s.goto i (.leave (onAcceptHooks q.answers.sendTrace)))
      | .accept q t =>
          some
            { s.goto i (.leave contextAccept) with
              domain := onAcceptTransition t
              applied := s.applied ++ [(q, t)] }
      | .leave _ =>
          some { s.goto i .idle with readwritelock := s.readwritelock.unlock i }

/-- The threads before their first call. -/
def initial (n : ℕ) (start : Session) : Concurrent n where
  toSession := start
  readwritelock := .free
  threads _ := .idle
  applied := []

/-- The step is not one that reads a context of a client for which another thread has read
one it has not used; and it does not change the domain while another thread holds a
decision. -/
def Serialised (s : Concurrent n) : Action n → Prop
  | .call _ _ => True
  | .step i =>
      ∀ j, j ≠ i →
        (∀ client ∈ (s.threads i).parsing?, (s.threads j).reading? ≠ some client) ∧
        (∀ t ∈ (s.threads i).setting?, t.transitTo ≠ s.domain → (s.threads j).decided = false)

instance (s : Concurrent n) : ∀ a, Decidable (s.Serialised a)
  | .call _ _ => inferInstanceAs (Decidable True)
  | .step _ => inferInstanceAs (Decidable (∀ _, _ → _ ∧ _))

end Concurrent

/-- The calls of `updateState` on `n` threads, from a session. -/
def concurrent (codec : Codec) (re : RegExp) (config : Configuration) (n : ℕ)
    (start : Session) : Machine (Concurrent n) (Concurrent.Action n) where
  init s := s = .initial n start
  step := Concurrent.step codec re config

/-! ### Sequential runs -/

section Replay

variable (codec : Codec) (re : RegExp) (config : Configuration)

/-- The call is accepted. -/
def Accepts (s : Session) (c : Call) : Prop :=
  ∃ s', s.call codec re config c = some (contextAccept, s')

/-- The calls, made one after the other from a session, are all accepted and lead to a
domain. -/
def Replays (start : Session) (calls : List Call) (d : Domain) : Prop :=
  ∃ s, (session codec re config).run start calls = some s ∧
    (session codec re config).Along (Accepts codec re config) start calls ∧
    s.domain = d ∧ ∀ i, (s.clients i).program = (start.clients i).program

variable {codec re config} {start : Session} {calls : List Call} {d : Domain}

/-- Replacing a client by one of the same program keeps the programs. -/
theorem program_update {clients : ℕ → ContextClient} {c : ℕ} {client : ContextClient}
    (h : client.program = (clients c).program) (i : ℕ) :
  (Function.update clients c client i).program = (clients i).program
  := by
  by_cases hi : i = c
  · rw [hi, Function.update_self, h]
  · rw [Function.update_of_ne hi]

theorem Replays.nil :
  Replays codec re config start [] start.domain
  := by
  exact ⟨start, rfl, trivial, rfl, fun _ => rfl⟩

/-- A further call is accepted when its transition is found in the domain and is agreed
to. -/
theorem Replays.snoc {q : Request} {t : Transition} (h : Replays codec re config start calls d)
    (hfd : RequiredTransition codec re config (start.clients q.client).program d q.xml t)
    (hag : q.answers.Agree t) :
  Replays codec re config start (calls ++ [q.call]) t.transitTo
  := by
  obtain ⟨s, hrun, halong, rfl, hprogs⟩ := h
  obtain ⟨context, hpar, hf⟩ := hfd
  rw [← hprogs] at hf
  obtain ⟨parser, hupd⟩ := (s.clients q.client).updateState_of_agreed hpar hf hag
  have hc := Session.call_updateState_eq hupd
  refine ⟨_, run_snoc hrun (session_step_iff.mpr ⟨_, hc⟩), halong.snoc hrun ⟨_, hc⟩, rfl, ?_⟩
  intro i
  rw [← hprogs i]
  apply program_update
  apply ContextClient.program_enter

/-- The transitions lead from a domain to another, each from the domain that the one before
it leads to. -/
def Linked : Domain → List Transition → Domain → Prop
  | d, [], d' => d' = d
  | d, t :: ts, d' => t.transitFrom = d ∧ Linked t.transitTo ts d'

theorem Linked.snoc {t : Transition} {ts : List Transition} {d' : Domain}
    (h : Linked d ts d') (ht : t.transitFrom = d') :
  Linked d (ts ++ [t]) t.transitTo
  := by
  induction ts generalizing d with
  | nil =>
    obtain rfl : d' = d := h
    exact ⟨ht, rfl⟩
  | cons u us ih => exact ⟨h.1, ih h.2⟩

end Replay

/-! ### What the threads know -/

section Sound

variable (codec : Codec) (re : RegExp) (config : Configuration)

/-- What a thread at a statement knows of the session: that the context it announced is the
current one of its client; and then that the transition it holds is the one required in the
current domain, and that it was agreed to as far as was asked. -/
def Sound (s : Session) : UpdatePc → Prop
  | .find q => parseContext codec q.xml = some (.ok (s.clients q.client).currentState)
  | .prompt q t =>
      RequiredTransition codec re config (s.clients q.client).program s.domain q.xml t
  | .unlock q t | .hooks q t =>
      RequiredTransition codec re config (s.clients q.client).program s.domain q.xml t ∧
        (t.promptUser = true → q.answers.promptUserForAutorisation = true)
  | .accept q t =>
      RequiredTransition codec re config (s.clients q.client).program s.domain q.xml t ∧
        q.answers.Agree t
  | _ => True

variable {codec re config} {s s' : Session} {pc : UpdatePc}

/-- What a thread knows stays true as long as the domain stays when it holds a decision, and
the context stays when it has read one. -/
theorem Sound.frame (h : Sound codec re config s pc)
    (hprogs : ∀ i, (s'.clients i).program = (s.clients i).program)
    (hdom : pc.decided = true → s'.domain = s.domain)
    (hstate : ∀ c ∈ pc.reading?, (s'.clients c).currentState = (s.clients c).currentState) :
  Sound codec re config s' pc
  := by
  cases pc with
  | find q =>
    simp only [Sound, hstate q.client rfl]
    apply h
  | prompt q t | unlock q t | hooks q t | accept q t =>
    simp only [Sound, hprogs, hdom rfl]
    apply h
  | idle | lock | parse | leave => trivial

end Sound

namespace Concurrent

variable {codec : Codec} {re : RegExp} {config : Configuration} {n : ℕ}
  {s s' : Concurrent n} {a : Action n} {i : Fin n} {start : Session}

/-- What a step can do.  It reads a context, it sets the domain, or it moves a thread to a
statement at which it knows what is true, without touching the session. -/
theorem step_cases (h : step codec re config s a = some s') :
  (∃ i q client parseOK, a = .step i ∧ s.threads i = .parse q ∧
      (s.clients q.client).updateCurrentState codec q.xml = some (client, parseOK) ∧
      s' = { s.goto i (if parseOK then .find q else .leave dbusError) with
        clients := Function.update s.clients q.client client }) ∨
    (∃ i q t, a = .step i ∧ s.threads i = .accept q t ∧
      s' = { s.goto i (.leave contextAccept) with
        domain := t.transitTo
        applied := s.applied ++ [(q, t)] }) ∨
    ∃ i pc pc' l, s.threads i = pc ∧ s' = { s.goto i pc' with readwritelock := l } ∧
      (Sound codec re config s.toSession pc → Sound codec re config s.toSession pc')
  := by
  cases a with
  | call i q =>
    right
    right
    simp only [step] at h
    split at h
    next hpc =>
      cases h
      exact ⟨i, _, _, _, hpc, rfl, fun _ => trivial⟩
    next => cases h
  | step i =>
    simp only [step] at h
    split at h
    next => cases h
    next q hpc =>
      obtain ⟨l, -, rfl⟩ := Option.map_eq_some_iff.mp h
      exact .inr (.inr ⟨i, _, _, l, hpc, rfl, fun _ => trivial⟩)
    next q hpc =>
      split at h
      next => cases h
      next client parseOK hpar =>
        cases h
        exact .inl ⟨i, q, client, parseOK, rfl, hpc, hpar, rfl⟩
    next q hpc =>
      right
      right
      split at h
      next t hf =>
        cases h
        exact ⟨i, _, _, _, hpc, rfl, fun hread => ⟨_, hread, hf⟩⟩
      next =>
        cases h
        exact ⟨i, _, _, _, hpc, rfl, fun _ => trivial⟩
    next q t hpc =>
      right
      right
      split at h
      next hpr =>
        cases h
        exact ⟨i, _, _, _, hpc, rfl, fun hfd => ⟨hfd, prompt_eq_true_iff.mp hpr⟩⟩
      next =>
        cases h
        exact ⟨i, _, _, _, hpc, rfl, fun _ => trivial⟩
    next q t hpc =>
      cases h
      exact .inr (.inr ⟨i, _, _, _, hpc, rfl, fun hfd => hfd⟩)
    next q t hpc =>
      right
      right
      split at h
      next hhk =>
        cases h
        exact ⟨i, _, _, _, hpc, rfl,
          fun ⟨hfd, hu⟩ => ⟨hfd, hu, onAcceptHooks_eq_accept.mp hhk⟩⟩
      next =>
        cases h
        exact ⟨i, _, _, _, hpc, rfl, fun _ => trivial⟩
    next q t hpc =>
      cases h
      exact .inr (.inl ⟨i, q, t, rfl, hpc, rfl⟩)
    next reply hpc =>
      cases h
      exact .inr (.inr ⟨i, _, _, _, hpc, rfl, fun _ => trivial⟩)

/-! ### Serialised runs -/

/-- The threads know what is true, the clients keep their programs, and the calls that have
set the domain lead to it. -/
structure Serial (codec : Codec) (re : RegExp) (config : Configuration) (start : Session)
    (s : Concurrent n) : Prop where
  sound : ∀ j, Sound codec re config s.toSession (s.threads j)
  programs : ∀ c, (s.clients c).program = (start.clients c).program
  linked : Linked start.domain (s.applied.map Prod.snd) s.domain
  replays : Replays codec re config start (s.applied.map fun a => a.1.call) s.domain

theorem Serial.initial :
  (Concurrent.initial n start).Serial codec re config start
  := by
  exact ⟨fun _ => trivial, fun _ => rfl, rfl, Replays.nil⟩

/-- The threads know what is true after a step of one of them, when that one does at its new
statement and the others still do at theirs. -/
theorem sound_goto {session : Session} {pc : UpdatePc} (hpc : Sound codec re config session pc)
    (hoth : ∀ j, j ≠ i → Sound codec re config session (s.threads j)) (j : Fin n) :
  Sound codec re config session ((s.goto i pc).threads j)
  := by
  apply (Function.forall_update_iff s.threads
    (p := fun _ pc => Sound codec re config session pc)).mpr
  use hpc

/-- A step that only moves a thread. -/
theorem Serial.move {pc pc' : UpdatePc} {l : ReadWriteLock (Fin n)}
    (h : s.Serial codec re config start) (hpc : s.threads i = pc)
    (hsnd : Sound codec re config s.toSession pc → Sound codec re config s.toSession pc') :
  ({ s.goto i pc' with readwritelock := l } : Concurrent n).Serial codec re config start
  := by
  refine { h with sound := sound_goto ?_ ?_ }
  · apply hsnd
    rw [← hpc]
    apply h.sound
  · intro j _
    apply h.sound j

/-- A step that reads a context. -/
theorem Serial.read {q : Request} {client : ContextClient} {parseOK : Bool}
    (h : s.Serial codec re config start) (hpc : s.threads i = .parse q)
    (hg : s.Serialised (.step i))
    (hupd : (s.clients q.client).updateCurrentState codec q.xml = some (client, parseOK)) :
  ({ s.goto i (if parseOK then .find q else .leave dbusError) with
    clients := Function.update s.clients q.client client } : Concurrent n).Serial
      codec re config start
  := by
  obtain ⟨hprog, hpar⟩ := ContextClient.updateCurrentState_spec hupd
  have hprogs := program_update hprog
  refine { h with
    sound := sound_goto ?_ ?_
    programs := fun c => (hprogs c).trans (h.programs c) }
  · cases parseOK with
    | false => trivial
    | true =>
      simp only [if_true, Sound, Function.update_self]
      apply hpar rfl
  · intro j hj
    apply (h.sound j).frame hprogs
    · intro _
      rfl
    · intro c hc
      have hne : c ≠ q.client := by
        rintro rfl
        apply (hg j hj).1 q.client _ hc
        rw [hpc]
        rfl
      simp only [Function.update_of_ne hne]

/-- A step that sets the domain. -/
theorem Serial.apply {q : Request} {t : Transition} (h : s.Serial codec re config start)
    (hpc : s.threads i = .accept q t) (hg : s.Serialised (.step i)) :
  ({ s.goto i (.leave contextAccept) with
    domain := t.transitTo
    applied := s.applied ++ [(q, t)] } : Concurrent n).Serial codec re config start
  := by
  have hkn := h.sound i
  rw [hpc] at hkn
  obtain ⟨hfd, hag⟩ := hkn
  have hfrom : t.transitFrom = s.domain := by
    obtain ⟨context, -, hf⟩ := hfd
    apply (Configuration.source_of_getFirstMatchingTransition hf).2
  constructor
  · apply sound_goto
    · trivial
    · intro j hj
      apply (h.sound j).frame
      · intro _
        rfl
      · intro hdec
        by_contra hne
        have hundecided : (s.threads j).decided = false := by
          apply (hg j hj).2 t _ hne
          rw [hpc]
          rfl
        cases hdec.symm.trans hundecided
      · intro _ _
        rfl
  · apply h.programs
  · rw [List.map_append]
    apply h.linked.snoc hfrom
  · rw [List.map_append]
    rw [h.programs] at hfd
    apply h.replays.snoc hfd hag

theorem Serial.step (h : s.Serial codec re config start) (hg : s.Serialised a)
    (hs : step codec re config s a = some s') :
  s'.Serial codec re config start
  := by
  rcases step_cases hs with ⟨i, q, client, parseOK, rfl, hpc, hupd, rfl⟩ |
    ⟨i, q, t, rfl, hpc, rfl⟩ | ⟨i, pc, pc', l, hpc, rfl, hsnd⟩
  · apply h.read hpc hg hupd
  · apply h.apply hpc hg
  · apply h.move hpc hsnd

/-- In every serialised run, a call sets the domain only when the current domain is the one
its transition starts from.  The transitions that were applied are linked, from the first
domain to the current one, and their calls, made one after the other, are all accepted and
lead to the current domain. -/
theorem linked_of_serialised (h : (concurrent codec re config n start).Reach Serialised s) :
  (∀ i q t, s.threads i = .accept q t → s.domain = t.transitFrom) ∧
    Linked start.domain (s.applied.map Prod.snd) s.domain ∧
    Replays codec re config start (s.applied.map fun a => a.1.call) s.domain
  := by
  have hser : s.Serial codec re config start := by
    apply h.invariant
    · rintro s rfl
      apply Serial.initial
    · intro s a s' hs hg hstep
      apply hs.step hg hstep
  refine ⟨?_, hser.linked, hser.replays⟩
  intro i q t hpc
  have hkn := hser.sound i
  rw [hpc] at hkn
  obtain ⟨⟨context, -, hf⟩, -⟩ := hkn
  apply (Configuration.source_of_getFirstMatchingTransition hf).2.symm

/-- The request of the mail program to write to an address. -/
def mailRequest (client : ℕ) : Request := ⟨client, mailTo, ⟨false, .allowed⟩⟩

/-- A thread alone makes a call, up to the statement that sets the domain and past it. -/
theorem linked_of_serialised_mailDesk :
  ∃ s, (concurrent ascii literal mailPolicy 2 mailDesk).Reach Serialised s ∧
    s.domain.name = "private" ∧ s.applied.length = 1 ∧
    Replays ascii literal mailPolicy mailDesk [(mailRequest 0).call] s.domain
  := by
  have hst : (concurrent ascii literal mailPolicy 2 mailDesk).Reach Serialised
    (.initial 2 mailDesk) := .init rfl
  have hrch := hst.run
    [.call 0 (mailRequest 0), .step 0, .step 0, .step 0, .step 0, .step 0, .step 0, .step 0]
    (by decide) rfl
  refine ⟨_, hrch, by decide, by decide, ?_⟩
  apply (linked_of_serialised hrch).2.2

/-- Two threads decide in the domain `work`, and one of them sets the domain `private` before
the other sets the domain it has decided on. -/
theorem decisions_race :
  ∃ s, (concurrent ascii literal mailPolicy 2 mailDesk).Reach anyStep s ∧
    ∃ i q t, s.threads i = .accept q t ∧ s.domain ≠ t.transitFrom
  := by
  have hst : (concurrent ascii literal mailPolicy 2 mailDesk).Reach anyStep
    (.initial 2 mailDesk) := .init rfl
  have hrch := hst.run
    [.call 0 (mailRequest 0), .step 0, .step 0, .step 0, .step 0, .step 0, .step 0,
      .call 1 (mailRequest 1), .step 1, .step 1, .step 1, .step 1, .step 1, .step 1, .step 0]
    (by decide) rfl
  exact ⟨_, hrch, 1, _, _, rfl, by decide⟩

end Concurrent

end Daemon

import Contextd.Machine
import Contextd.Daemon.ContextClient

/-!
# Calls one after the other

A session is the current domain of `DomainHolder` together with the clients; `updateState` and
`required_domain` are called on it one after the other (`session`).  `UpdateContract` says what
`updateState` may do to the session and when it accepts, and `RequiredContract` what
`required_domain` tells about the call of `updateState` that follows.
-/

namespace Daemon

open Policy Machine

/-- The current domain and the clients. -/
structure Session where
  domain : Domain
  clients : ℕ → ContextClient

/-- A call by a client. -/
inductive Call where
  | updateState (i : ℕ) (xml : String) (answers : Answers)
  | requiredDomain (i : ℕ) (xml : String)

variable (codec : Codec) (re : RegExp) (config : Configuration)

/-- The answer of a call, and the session after it. -/
def Session.call (s : Session) : Call → Option (String × Session)
  | .updateState i xml answers =>
      ((s.clients i).updateState codec re config s.domain xml answers).map
        fun (reply, domain, client) => (reply, ⟨domain, Function.update s.clients i client⟩)
  | .requiredDomain i xml =>
      ((s.clients i).requiredDomain codec re config s.domain xml).map
        fun (reply, client) =>
          (reply, { s with clients := Function.update s.clients i client })

/-- The calls of a session, from any domain and clients that have announced nothing. -/
def session : Machine Session Call where
  init s := ∀ i, (s.clients i).currentState = ∅ ∧ (s.clients i).previousState = ∅
  step s c := (s.call codec re config c).map (·.2)

/-! ### The contracts -/

/-- What a call of `updateState` by client `i` does. -/
structure UpdateContract (s : Session) (i : ℕ) (xml : String) (answers : Answers)
    (reply : String) (s' : Session) : Prop where
  /-- The domain changes only when the call is accepted. -/
  accept_of_changed : s'.domain ≠ s.domain → reply = contextAccept
  /-- It is then the target of the transition found for the program of the client, the
  domain before and the context. -/
  target_of_accept : reply = contextAccept →
    ∃ t, RequiredTransition codec re config (s.clients i).program s.domain xml t ∧
      s'.domain = t.transitTo
  /-- The call is accepted when such a transition is found, and the user and PIGA agree. -/
  accept_iff : reply = contextAccept ↔
    ∃ t, RequiredTransition codec re config (s.clients i).program s.domain xml t ∧
      answers.Agree t
  /-- A context that is not read leaves the states of the client as they are. -/
  unparsable : (∃ e, parseContext codec xml = some (.error e)) →
    (s.clients i).SameStates (s'.clients i)
  /-- The other clients stay as they are. -/
  others : ∀ j, j ≠ i → s'.clients j = s.clients j

/-- What a call of `required_domain` by client `i` does. -/
structure RequiredContract (s : Session) (i : ℕ) (xml : String) (reply : String)
    (s' : Session) : Prop where
  /-- The domain stays as it is. -/
  domain : s'.domain = s.domain
  /-- The states of all clients stay as they are. -/
  states : ∀ j, (s.clients j).SameStates (s'.clients j)
  /-- The answer is the name of the domain that the client enters when it announces the same
  context next and is accepted. -/
  entered : ∀ answers s'',
    s'.call codec re config (.updateState i xml answers) = some (contextAccept, s'') →
      reply = s''.domain.name
  /-- When it cannot be accepted, the answer is a refusal, or an error. -/
  refused : (∀ answers s'',
      s'.call codec re config (.updateState i xml answers) ≠ some (contextAccept, s'')) →
    reply = contextRefuse ∨ reply = dbusError

/-- The run to a session has changed the current context of client `i`, and the last change
was from `context`. -/
inductive ChangedFrom (i : ℕ) (context : OrdMap String String) : Session → Prop where
  | change {s s' : Session} {c : Call} : (session codec re config).Reach anyStep s →
      (session codec re config).step s c = some s' →
      (s.clients i).currentState = context → (s'.clients i).currentState ≠ context →
      ChangedFrom i context s'
  | keep {s s' : Session} {c : Call} : ChangedFrom i context s →
      (session codec re config).step s c = some s' →
      (s'.clients i).currentState = (s.clients i).currentState → ChangedFrom i context s'

section

variable {codec re config} {s s' : Session} {c : Call} {i : ℕ} {xml reply : String}
  {answers : Answers}

/-- The call of `updateState` that an update of the session comes from. -/
theorem Session.call_updateState
    (h : s.call codec re config (.updateState i xml answers) = some (reply, s')) :
  ∃ client,
    (s.clients i).updateState codec re config s.domain xml answers =
      some (reply, s'.domain, client) ∧
    s'.clients = Function.update s.clients i client
  := by
  obtain ⟨⟨reply', domain, client⟩, hc, h⟩ := Option.map_eq_some_iff.mp h
  cases h
  use client

theorem Session.call_updateState_eq {domain : Domain} {client : ContextClient}
    (h : (s.clients i).updateState codec re config s.domain xml answers =
      some (reply, domain, client)) :
  s.call codec re config (.updateState i xml answers) =
    some (reply, ⟨domain, Function.update s.clients i client⟩)
  := by
  simp only [Session.call, h, Option.map_some]

/-- The call of `required_domain` that an update of the session comes from. -/
theorem Session.call_requiredDomain
    (h : s.call codec re config (.requiredDomain i xml) = some (reply, s')) :
  ∃ client,
    (s.clients i).requiredDomain codec re config s.domain xml = some (reply, client) ∧
    s'.domain = s.domain ∧ s'.clients = Function.update s.clients i client
  := by
  obtain ⟨⟨reply', client⟩, hc, h⟩ := Option.map_eq_some_iff.mp h
  cases h
  use client

/-! ### `updateState` -/

/-- Every call of `updateState` keeps its contract. -/
theorem updateContract_of_call
    (h : s.call codec re config (.updateState i xml answers) = some (reply, s')) :
  UpdateContract codec re config s i xml answers reply s'
  := by
  obtain ⟨client, hc, hcls⟩ := s.call_updateState h
  have hself : s'.clients i = client := by rw [hcls, Function.update_self]
  have hoth : ∀ j, j ≠ i → s'.clients j = s.clients j := by
    intro j hj
    rw [hcls, Function.update_of_ne hj]
  rcases ContextClient.updateState_cases hc with
    ⟨e, hpar, rfl, hdom, hsame⟩ | ⟨context, parser, hpar, rfl, hdec⟩
  · exact
      { accept_of_changed := fun hne => absurd hdom hne
        target_of_accept := fun hacc => absurd hacc (by decide)
        accept_iff := ⟨fun hacc => absurd hacc (by decide),
          fun ⟨_, ht, _⟩ => absurd ht (not_requiredTransition hpar)⟩
        unparsable := fun _ => hself ▸ hsame
        others := hoth }
  · have hread : ¬ ∃ e, parseContext codec xml = some (.error e) := by
      rintro ⟨e, herror⟩
      cases hpar.symm.trans herror
    rcases hdec with ⟨t, hf, hag, rfl, hdom⟩ | ⟨href, rfl, hdom⟩
    · exact
        { accept_of_changed := fun _ => rfl
          target_of_accept := fun _ => ⟨t, (requiredTransition_iff hpar).mpr hf, hdom⟩
          accept_iff := ⟨fun _ => ⟨t, (requiredTransition_iff hpar).mpr hf, hag⟩,
            fun _ => rfl⟩
          unparsable := fun herror => absurd herror hread
          others := hoth }
    · exact
        { accept_of_changed := fun hne => absurd hdom hne
          target_of_accept := fun hacc => absurd hacc (by decide)
          accept_iff := ⟨fun hacc => absurd hacc (by decide),
            fun ⟨t, ht, hag⟩ =>
              absurd hag (href t ((requiredTransition_iff hpar).mp ht))⟩
          unparsable := fun herror => absurd herror hread
          others := hoth }

/-! ### `required_domain` -/

/-- Every call of `required_domain` keeps its contract. -/
theorem requiredContract_of_call
    (h : s.call codec re config (.requiredDomain i xml) = some (reply, s')) :
  RequiredContract codec re config s i xml reply s'
  := by
  obtain ⟨client, hc, hdom, hcls⟩ := s.call_requiredDomain h
  obtain ⟨hsame, hrep⟩ := ContextClient.requiredDomain_cases hc
  have hself : s'.clients i = client := by rw [hcls, Function.update_self]
  have hprog : (s'.clients i).program = (s.clients i).program := hself ▸ hsame.1
  constructor
  · apply hdom
  · intro j
    by_cases hj : j = i
    · rw [hj, hself]
      apply hsame
    · rw [hcls, Function.update_of_ne hj]
      exact ⟨rfl, rfl, rfl⟩
  · intro answers s'' hacc
    obtain ⟨t, hreq, htgt⟩ := (updateContract_of_call hacc).target_of_accept rfl
    rw [hprog, hdom] at hreq
    rcases hrep with ⟨e, herror, -⟩ | ⟨context, hok, rfl⟩
    · apply absurd hreq (not_requiredTransition herror)
    · rw [(requiredTransition_iff hok).mp hreq, htgt]
  · intro hnev
    rcases hrep with ⟨e, -, rfl⟩ | ⟨context, hok, rfl⟩
    · right
      rfl
    · left
      cases hf : config.getFirstMatchingTransition re (s.clients i).program s.domain context with
      | none => rfl
      | some t =>
        rw [← hprog, ← hdom] at hf
        have hag : Answers.Agree ⟨true, .allowed⟩ t := ⟨fun _ => rfl, .inl rfl⟩
        obtain ⟨parser, hupd⟩ := (s'.clients i).updateState_of_agreed hok hf hag
        apply absurd (Session.call_updateState_eq hupd) (hnev _ _)

/-! ### The states of a client along a run -/

/-- A call moves the states of a client together: both stay, or the current context changes
and becomes the previous one. -/
theorem Session.states_of_call (h : s.call codec re config c = some (reply, s')) (i : ℕ) :
  (s.clients i).SameStates (s'.clients i) ∨
    ((s'.clients i).currentState ≠ (s.clients i).currentState ∧
      (s'.clients i).previousState = (s.clients i).currentState)
  := by
  cases c with
  | requiredDomain j xml =>
    left
    apply (requiredContract_of_call h).states
  | updateState j xml answers =>
    by_cases hi : i = j
    · subst hi
      obtain ⟨client, hc, hcls⟩ := s.call_updateState h
      rw [hcls, Function.update_self]
      rcases ContextClient.updateState_cases hc with
        ⟨e, -, -, -, hsame⟩ | ⟨context, parser, -, rfl, -⟩
      · left
        apply hsame
      · by_cases hctx : (s.clients i).currentState = context
        · left
          unfold ContextClient.enter
          rw [if_pos hctx]
          exact ⟨rfl, rfl, rfl⟩
        · right
          rw [ContextClient.currentState_enter, ContextClient.previousState_enter]
          exact ⟨fun h => hctx h.symm, if_neg hctx⟩
    · left
      rw [(updateContract_of_call h).others i hi]
      exact ⟨rfl, rfl, rfl⟩

theorem session_step_iff :
  (session codec re config).step s c = some s' ↔
    ∃ reply, s.call codec re config c = some (reply, s')
  := by
  constructor
  · intro h
    obtain ⟨⟨reply, s''⟩, hc, rfl⟩ := Option.map_eq_some_iff.mp h
    use reply
  · rintro ⟨reply, hc⟩
    apply Option.map_eq_some_iff.mpr ⟨_, hc, rfl⟩

/-- After a change of its current context, the previous context of a client is the one before
the change. -/
theorem ChangedFrom.previousState_eq {context : OrdMap String String}
    (h : ChangedFrom codec re config i context s) :
  (s.clients i).previousState = context
  := by
  induction h with
  | change _ hs hbef hafter =>
    obtain ⟨reply, hc⟩ := session_step_iff.mp hs
    rcases Session.states_of_call hc i with ⟨-, hsame, -⟩ | ⟨-, hprev⟩
    · apply absurd (hsame.trans hbef) hafter
    · apply hprev.trans hbef
  | keep _ hs hk ih =>
    obtain ⟨reply, hc⟩ := session_step_iff.mp hs
    rcases Session.states_of_call hc i with ⟨-, -, hsame⟩ | ⟨hchg, -⟩
    · apply hsame.trans ih
    · apply absurd hk hchg

/-- A run has changed the current context of a client, or the client is as it was. -/
theorem changedFrom_or_empty (h : (session codec re config).Reach anyStep s) (i : ℕ) :
  (∃ context, ChangedFrom codec re config i context s) ∨
    ((s.clients i).currentState = ∅ ∧ (s.clients i).previousState = ∅)
  := by
  induction h with
  | init h =>
    right
    apply h
  | step hrch _ hs ih =>
    obtain ⟨reply, hc⟩ := session_step_iff.mp hs
    rcases Session.states_of_call hc i with ⟨-, hcur, hprev⟩ | ⟨hchg, -⟩
    · rcases ih with ⟨context, hfrom⟩ | ⟨hemp, hemp'⟩
      · left
        use context
        apply hfrom.keep hs hcur
      · right
        exact ⟨hcur.trans hemp, hprev.trans hemp'⟩
    · left
      exact ⟨_, .change hrch hs rfl hchg⟩

/-- The sequential contract of the calls, in every session reached.  A call has an outcome
when the parse of its text has.  `updateState` and `required_domain` keep their contracts,
and the previous context of a client is the one its current context had before its last
change. -/
theorem session_contract (hs : (session codec re config).Reach anyStep s) (i : ℕ) (xml : String) :
  (parseContext codec xml ≠ none →
    (∀ answers, (s.call codec re config (.updateState i xml answers)).isSome) ∧
      (s.call codec re config (.requiredDomain i xml)).isSome) ∧
  (∀ answers reply s', s.call codec re config (.updateState i xml answers) = some (reply, s') →
    UpdateContract codec re config s i xml answers reply s') ∧
  (∀ reply s', s.call codec re config (.requiredDomain i xml) = some (reply, s') →
    RequiredContract codec re config s i xml reply s') ∧
  (∀ context, ChangedFrom codec re config i context s →
    (s.clients i).previousState = context) ∧
  ((∃ context, ChangedFrom codec re config i context s) ∨
    ((s.clients i).currentState = ∅ ∧ (s.clients i).previousState = ∅))
  := by
  refine ⟨fun hpar => ⟨fun answers => ?_, ?_⟩, fun answers reply s' => updateContract_of_call,
    fun reply s' => requiredContract_of_call, fun context => ChangedFrom.previousState_eq,
    changedFrom_or_empty hs i⟩
  · apply Option.isSome_map.trans
    apply ContextClient.isSome_updateState _ hpar
  · apply Option.isSome_map.trans
    apply ContextClient.isSome_requiredDomain _ hpar

/-- The conversions of strings of ASCII characters. -/
def ascii : Codec where
  toStdString s := XmlSp.bytes s
  fromUtf8 bs := String.ofList (bs.map fun b => Char.ofNat b.toNat)
  fromAscii bs := String.ofList (bs.map fun b => Char.ofNat b.toNat)

/-- A session of the mail program in the domain `work`. -/
def mailDesk : Session where
  domain := ⟨"work", "", "", "", 0, 0⟩
  clients _ := .new mailer

/-- The context of a message to an address. -/
def mailTo : String := "<c><parameter name=\"to\" value=\"bob\"/></c>"

/-- The mail program has announced a message and was let into the domain `private`.  A second
message from there is refused, as `required_domain` tells. -/
theorem session_contract_mailDesk :
  ∃ s, (session ascii literal mailPolicy).Reach anyStep s ∧ s.domain.name = "private" ∧
    (s.clients 0).currentState = Std.ExtTreeMap.ofList [("to", "bob")] ∧
    (s.clients 0).previousState = ∅ ∧
    ∃ s', s.call ascii literal mailPolicy (.requiredDomain 0 mailTo) = some ("REFUSE", s') ∧
      s'.domain = s.domain
  := by
  have hst : (session ascii literal mailPolicy).Reach anyStep mailDesk :=
    .init fun _ => ⟨rfl, rfl⟩
  have hrch := hst.run [.updateState 0 mailTo ⟨false, .allowed⟩] (by decide) rfl
  obtain ⟨-, -, hreq, hprev, -⟩ := session_contract hrch 0 mailTo
  refine ⟨_, hrch, by decide, by decide, ?_, _, rfl, ?_⟩
  · apply hprev
    apply ChangedFrom.change hst (c := .updateState 0 mailTo ⟨false, .allowed⟩) rfl rfl
    decide
  · apply (hreq _ _ rfl).domain

end

end Daemon

import Contextd.Policy.Decision
import Contextd.Daemon.XmlSp

/-!
# Clients

A `ContextClient` is an application that announces its context to the daemon.  `updateState` reads
the context, looks for a transition from the current domain, asks the user and PIGA, and changes the
domain; `required_domain` only tells which domain the context needs.  The conversions of strings
(`Codec`) and the answers of the user and of PIGA (`Answers`) are given.
-/

namespace Daemon

open Policy

/-! ### What the daemon answers -/

/-- `DBUS_ERROR`. -/
def dbusError : String := "NOK"

/-- `CONTEXT_ACCEPT`. -/
def contextAccept : String := "ACCEPT"

/-- `CONTEXT_REFUSE`. -/
def contextRefuse : String := "REFUSE"

/-! ### What is given -/

/-- The conversions of Qt between its strings and bytes: `QString::toStdString`,
`QString::fromUtf8` and the constructor from a C string. -/
structure Codec where
  toStdString : String → XmlSp.Bytes
  fromUtf8 : XmlSp.Bytes → String
  fromAscii : XmlSp.Bytes → String

/-- `PigaHandler::PigaDecision`. -/
inductive PigaDecision where
  | error
  | disabled
  | allowed
  | refused
  | killed
  deriving DecidableEq, Repr

/-- What a call is answered from outside: by `ContextNotify::promptUserForAutorisation` and
by `PigaHandler::sendTrace`. -/
structure Answers where
  promptUserForAutorisation : Bool
  sendTrace : PigaDecision
  deriving DecidableEq, Repr

/-- The context a text describes, as a parser that has read nothing reports it. -/
def parseContext (codec : Codec) (xml : String) :
    Option (Except XmlSp.ParseError (OrdMap String String)) :=
  (XmlSp.Parser.new.parse codec.fromUtf8 (codec.toStdString xml)).result

/-! ### The calls of a client -/

/-- `ContextClient`: the program, the context announced last, the one before, and the parser
of its messages. -/
structure ContextClient where
  program : Program
  currentState : OrdMap String String
  previousState : OrdMap String String
  xmlcontexttomap : XmlSp.Parser

/-- `ContextClient::ContextClient`. -/
def ContextClient.new (program : Program) : ContextClient where
  program := program
  currentState := ∅
  previousState := ∅
  xmlcontexttomap := .new

/-- `ContextClient::onAcceptHooks`, for the decision of PIGA. -/
def onAcceptHooks (decision : PigaDecision) : String :=
  if decision = .allowed ∨ decision = .disabled then contextAccept else contextRefuse

/-- `ContextClient::onAcceptTransition`: the domain that is set. -/
def onAcceptTransition (t : Transition) : Domain := t.transitTo

namespace ContextClient

/-- The end of `updateCurrentState` for a context that was read: a context that is not the
current one becomes the current one. -/
def enter (client : ContextClient) (context : OrdMap String String) : ContextClient :=
  if client.currentState = context then client
  else { client with previousState := client.currentState, currentState := context }

/-- `ContextClient::updateCurrentState`: the client, and whether the text was read. -/
def updateCurrentState (codec : Codec) (client : ContextClient) (xmlState : String) :
    Option (ContextClient × Bool) :=
  match client.xmlcontexttomap.parse codec.fromUtf8 (codec.toStdString xmlState) with
  | .ok parser => some ({ client with xmlcontexttomap := parser }.enter parser.context, true)
  | .failed parser _ => some ({ client with xmlcontexttomap := parser }, false)
  | .undefined => none

/-- `ContextClient::updateState` in a domain: the answer, the domain after and the client. -/
def updateState (codec : Codec) (re : RegExp) (config : Configuration)
    (client : ContextClient) (domain : Domain) (xmlContext : String) (answers : Answers) :
    Option (String × Domain × ContextClient) :=
  match client.updateCurrentState codec xmlContext with
  | none => none
  | some (client, false) => some (dbusError, domain, client)
  | some (client, true) =>
      match config.getFirstMatchingTransition re client.program domain client.currentState with
      | none => some (contextRefuse, domain, client)
      | some t =>
          if !t.promptUser || answers.promptUserForAutorisation then
            if onAcceptHooks answers.sendTrace = contextAccept then
              some (onAcceptHooks answers.sendTrace, onAcceptTransition t, client)
            else some (onAcceptHooks answers.sendTrace, domain, client)
          else some (contextRefuse, domain, client)

/-- `ContextClient::required_domain` in a domain: the answer and the client. -/
def requiredDomain (codec : Codec) (re : RegExp) (config : Configuration)
    (client : ContextClient) (domain : Domain) (xmlContext : String) :
    Option (String × ContextClient) :=
  match client.xmlcontexttomap.parse codec.fromUtf8 (codec.toStdString xmlContext) with
  | .ok parser =>
      match config.getFirstMatchingTransition re client.program domain parser.context with
      | some t => some (t.transitTo.name, { client with xmlcontexttomap := parser })
      | none => some (contextRefuse, { client with xmlcontexttomap := parser })
  | .failed parser _ => some (dbusError, { client with xmlcontexttomap := parser })
  | .undefined => none

end ContextClient

/-! ### What a call does -/

section

variable {codec : Codec} {re : RegExp} {config : Configuration} {client client' : ContextClient}
  {domain domain' : Domain} {xml reply : String} {answers : Answers}
  {context : OrdMap String String}

/-- What the parser of any client reports of a text. -/
theorem result_eq_parseContext (parser : XmlSp.Parser) :
  (parser.parse codec.fromUtf8 (codec.toStdString xml)).result = parseContext codec xml
  := by
  apply XmlSp.Parser.result_parse

/-- The transition that a program may take in a domain for the context a text describes. -/
def RequiredTransition (codec : Codec) (re : RegExp) (config : Configuration)
    (program : Program) (domain : Domain) (xml : String) (t : Transition) : Prop :=
  ∃ context, parseContext codec xml = some (.ok context) ∧
    config.getFirstMatchingTransition re program domain context = some t

/-- The transition for a text that is read is the one that the configuration finds. -/
theorem requiredTransition_iff {program : Program} {context : OrdMap String String}
    {t : Transition} (hpar : parseContext codec xml = some (.ok context)) :
  RequiredTransition codec re config program domain xml t ↔
    config.getFirstMatchingTransition re program domain context = some t
  := by
  constructor
  · rintro ⟨context', hok, hf⟩
    cases hpar.symm.trans hok
    apply hf
  · intro hf
    use context

/-- There is no transition for a text that is not read. -/
theorem not_requiredTransition {program : Program} {e : XmlSp.ParseError} {t : Transition}
    (hpar : parseContext codec xml = some (.error e)) :
  ¬ RequiredTransition codec re config program domain xml t
  := by
  rintro ⟨context, hok, -⟩
  cases hpar.symm.trans hok

/-- The user agrees to a transition that prompts, and PIGA allows it or is disabled. -/
def Answers.Agree (answers : Answers) (t : Transition) : Prop :=
  (t.promptUser = true → answers.promptUserForAutorisation = true) ∧
    (answers.sendTrace = .allowed ∨ answers.sendTrace = .disabled)

instance (t : Transition) : Decidable (answers.Agree t) :=
  inferInstanceAs (Decidable (_ ∧ _))

namespace ContextClient

/-- The client has announced the same contexts, and is of the same program. -/
def SameStates (client client' : ContextClient) : Prop :=
  client'.program = client.program ∧ client'.currentState = client.currentState ∧
    client'.previousState = client.previousState

theorem program_enter :
  (client.enter context).program = client.program
  := by
  unfold enter
  split_ifs <;> rfl

theorem currentState_enter :
  (client.enter context).currentState = context
  := by
  unfold enter
  split_ifs with h
  · apply h
  · rfl

/-- The context before is kept when the context changes. -/
theorem previousState_enter :
  (client.enter context).previousState =
    if client.currentState = context then client.previousState else client.currentState
  := by
  unfold enter
  split_ifs <;> rfl

/-- A text that is read becomes the current context. -/
theorem updateCurrentState_of_ok (client : ContextClient)
    (h : parseContext codec xml = some (.ok context)) :
  ∃ parser, client.updateCurrentState codec xml =
    some ({ client with xmlcontexttomap := parser }.enter context, true)
  := by
  rw [← result_eq_parseContext client.xmlcontexttomap] at h
  unfold updateCurrentState
  cases hpar : client.xmlcontexttomap.parse codec.fromUtf8 (codec.toStdString xml) with
  | ok parser =>
    rw [hpar] at h
    obtain rfl : parser.context = context := Except.ok.inj (Option.some.inj h)
    use parser
  | failed | undefined =>
    rw [hpar] at h
    cases h

/-- A text that is not read changes nothing but the parser. -/
theorem updateCurrentState_of_error (client : ContextClient) {e : XmlSp.ParseError}
    (h : parseContext codec xml = some (.error e)) :
  ∃ parser, client.updateCurrentState codec xml =
    some ({ client with xmlcontexttomap := parser }, false)
  := by
  rw [← result_eq_parseContext client.xmlcontexttomap] at h
  unfold updateCurrentState
  cases hpar : client.xmlcontexttomap.parse codec.fromUtf8 (codec.toStdString xml) with
  | failed parser e' => use parser
  | ok | undefined =>
    rw [hpar] at h
    cases h

theorem updateCurrentState_of_none (client : ContextClient) (h : parseContext codec xml = none) :
  client.updateCurrentState codec xml = none
  := by
  rw [← result_eq_parseContext client.xmlcontexttomap] at h
  unfold updateCurrentState
  cases hpar : client.xmlcontexttomap.parse codec.fromUtf8 (codec.toStdString xml) with
  | undefined => rfl
  | ok | failed =>
    rw [hpar] at h
    cases h

/-- The program of a client stays when its context is read; the context it has then is the
one that was read. -/
theorem updateCurrentState_spec {parseOK : Bool}
    (h : client.updateCurrentState codec xml = some (client', parseOK)) :
  client'.program = client.program ∧
    (parseOK = true → parseContext codec xml = some (.ok client'.currentState))
  := by
  match hpar : parseContext codec xml with
  | none =>
    rw [client.updateCurrentState_of_none hpar] at h
    cases h
  | some (.error e) =>
    obtain ⟨parser, hupd⟩ := client.updateCurrentState_of_error hpar
    cases hupd.symm.trans h
    exact ⟨rfl, nofun⟩
  | some (.ok context) =>
    obtain ⟨parser, hupd⟩ := client.updateCurrentState_of_ok hpar
    cases hupd.symm.trans h
    rw [program_enter, currentState_enter]
    exact ⟨rfl, fun _ => rfl⟩

end ContextClient

/-- The condition of `updateState` on the prompt. -/
theorem prompt_eq_true_iff {t : Transition} :
  (!t.promptUser || answers.promptUserForAutorisation) = true ↔
    (t.promptUser = true → answers.promptUserForAutorisation = true)
  := by
  cases t.promptUser <;> simp

/-- The hooks accept when PIGA allows the transition or is disabled. -/
theorem onAcceptHooks_eq_accept {decision : PigaDecision} :
  onAcceptHooks decision = contextAccept ↔ decision = .allowed ∨ decision = .disabled
  := by
  cases decision <;> simp [onAcceptHooks, contextAccept, contextRefuse]

namespace ContextClient

/-- A text that is not read is answered by an error, and changes neither the domain nor the
states of the client. -/
theorem updateState_of_error (client : ContextClient) {e : XmlSp.ParseError}
    (h : parseContext codec xml = some (.error e)) :
  ∃ parser, client.updateState codec re config domain xml answers =
    some (dbusError, domain, { client with xmlcontexttomap := parser })
  := by
  obtain ⟨parser, hupd⟩ := client.updateCurrentState_of_error h
  use parser
  unfold updateState
  rw [hupd]

/-- A call that finds no transition, or whose transition is refused, changes no domain. -/
theorem updateState_of_refused (client : ContextClient)
    (h : parseContext codec xml = some (.ok context))
    (href : ∀ t,
      config.getFirstMatchingTransition re client.program domain context = some t →
        ¬ answers.Agree t) :
  ∃ parser, client.updateState codec re config domain xml answers =
    some (contextRefuse, domain, { client with xmlcontexttomap := parser }.enter context)
  := by
  obtain ⟨parser, hupd⟩ := client.updateCurrentState_of_ok h
  use parser
  unfold updateState
  rw [hupd]
  simp only [program_enter, currentState_enter]
  cases hf : config.getFirstMatchingTransition re client.program domain context with
  | none => rfl
  | some t =>
    by_cases hpr : (!t.promptUser || answers.promptUserForAutorisation) = true
    · have hpiga : ¬ (answers.sendTrace = .allowed ∨ answers.sendTrace = .disabled) := by
        intro hpiga
        apply href t hf
        use prompt_eq_true_iff.mp hpr
      have hhk : ¬ onAcceptHooks answers.sendTrace = contextAccept := by
        rwa [onAcceptHooks_eq_accept]
      simp only [hpr, hhk, if_true, if_false]
      simp only [onAcceptHooks, hpiga, if_false]
    · simp only [hpr, if_false, Bool.false_eq_true]

/-- A call that finds a transition which is agreed to sets its target domain. -/
theorem updateState_of_agreed (client : ContextClient) {t : Transition}
    (h : parseContext codec xml = some (.ok context))
    (hf : config.getFirstMatchingTransition re client.program domain context = some t)
    (hag : answers.Agree t) :
  ∃ parser, client.updateState codec re config domain xml answers =
    some (contextAccept, t.transitTo, { client with xmlcontexttomap := parser }.enter context)
  := by
  obtain ⟨parser, hupd⟩ := client.updateCurrentState_of_ok h
  obtain ⟨hu, hpiga⟩ := hag
  have hpr : (!t.promptUser || answers.promptUserForAutorisation) = true :=
    prompt_eq_true_iff.mpr hu
  have hhk : onAcceptHooks answers.sendTrace = contextAccept := onAcceptHooks_eq_accept.mpr hpiga
  use parser
  unfold updateState
  rw [hupd]
  simp only [program_enter, currentState_enter, hf, hpr, hhk, if_true, onAcceptTransition]

theorem updateState_of_none (client : ContextClient) (h : parseContext codec xml = none) :
  client.updateState codec re config domain xml answers = none
  := by
  unfold updateState
  rw [client.updateCurrentState_of_none h]

/-- How a call of `updateState` ends: with an error, accepted or refused. -/
theorem updateState_cases
    (h : client.updateState codec re config domain xml answers = some (reply, domain', client')) :
  (∃ e, parseContext codec xml = some (.error e) ∧ reply = dbusError ∧ domain' = domain ∧
      client.SameStates client') ∨
    ∃ context parser, parseContext codec xml = some (.ok context) ∧
      client' = { client with xmlcontexttomap := parser }.enter context ∧
      ((∃ t, config.getFirstMatchingTransition re client.program domain context = some t ∧
          answers.Agree t ∧ reply = contextAccept ∧ domain' = t.transitTo) ∨
        ((∀ t, config.getFirstMatchingTransition re client.program domain context = some t →
            ¬ answers.Agree t) ∧ reply = contextRefuse ∧ domain' = domain))
  := by
  match hpar : parseContext codec xml with
  | none =>
    rw [client.updateState_of_none hpar] at h
    cases h
  | some (.error e) =>
    obtain ⟨parser, hupd⟩ := client.updateState_of_error hpar
    cases hupd.symm.trans h
    exact .inl ⟨e, rfl, rfl, rfl, rfl, rfl, rfl⟩
  | some (.ok context) =>
    right
    by_cases hagreed : ∃ t, config.getFirstMatchingTransition re client.program domain context =
        some t ∧ answers.Agree t
    · obtain ⟨t, hf, hag⟩ := hagreed
      obtain ⟨parser, hupd⟩ := client.updateState_of_agreed hpar hf hag
      cases hupd.symm.trans h
      exact ⟨context, parser, rfl, rfl, .inl ⟨t, hf, hag, rfl, rfl⟩⟩
    · have href : ∀ t, config.getFirstMatchingTransition re client.program domain context =
          some t → ¬ answers.Agree t := by
        intro t hf hag
        apply hagreed ⟨t, hf, hag⟩
      obtain ⟨parser, hupd⟩ := client.updateState_of_refused hpar href
      cases hupd.symm.trans h
      exact ⟨context, parser, rfl, rfl, .inr ⟨href, rfl, rfl⟩⟩

/-- A call of `updateState` keeps the program of the client. -/
theorem program_updateState
    (h : client.updateState codec re config domain xml answers = some (reply, domain', client')) :
  client'.program = client.program
  := by
  rcases updateState_cases h with ⟨e, -, -, -, hsame⟩ | ⟨context, parser, -, rfl, -⟩
  · apply hsame.1
  · apply program_enter

/-- A call of `updateState` has an outcome when the parse has. -/
theorem isSome_updateState (client : ContextClient) (h : parseContext codec xml ≠ none) :
  (client.updateState codec re config domain xml answers).isSome
  := by
  unfold updateState
  match hpar : parseContext codec xml with
  | none => apply absurd hpar h
  | some (.error e) =>
    obtain ⟨parser, hupd⟩ := client.updateCurrentState_of_error hpar
    rw [hupd]
    rfl
  | some (.ok context) =>
    obtain ⟨parser, hupd⟩ := client.updateCurrentState_of_ok hpar
    simp only [hupd]
    split
    · rfl
    · split_ifs <;> rfl

/-- How a call of `required_domain` ends: with an error, or with what was found. -/
theorem requiredDomain_cases
    (h : client.requiredDomain codec re config domain xml = some (reply, client')) :
  client.SameStates client' ∧
    ((∃ e, parseContext codec xml = some (.error e) ∧ reply = dbusError) ∨
      ∃ context, parseContext codec xml = some (.ok context) ∧
        reply = match config.getFirstMatchingTransition re client.program domain context with
          | some t => t.transitTo.name
          | none => contextRefuse)
  := by
  rw [← result_eq_parseContext client.xmlcontexttomap]
  unfold requiredDomain at h
  cases hpar : client.xmlcontexttomap.parse codec.fromUtf8 (codec.toStdString xml) with
  | ok parser =>
    rw [hpar] at h
    cases hf : config.getFirstMatchingTransition re client.program domain parser.context with
    | some t =>
      simp only [hf] at h
      cases h
      exact ⟨⟨rfl, rfl, rfl⟩, .inr ⟨_, rfl, by rw [hf]⟩⟩
    | none =>
      simp only [hf] at h
      cases h
      exact ⟨⟨rfl, rfl, rfl⟩, .inr ⟨_, rfl, by rw [hf]⟩⟩
  | failed parser e =>
    rw [hpar] at h
    cases h
    exact ⟨⟨rfl, rfl, rfl⟩, .inl ⟨e, rfl, rfl⟩⟩
  | undefined =>
    rw [hpar] at h
    cases h

/-- A call of `required_domain` has an outcome when the parse has. -/
theorem isSome_requiredDomain (client : ContextClient) (h : parseContext codec xml ≠ none) :
  (client.requiredDomain codec re config domain xml).isSome
  := by
  rw [← result_eq_parseContext client.xmlcontexttomap] at h
  unfold requiredDomain
  cases hpar : client.xmlcontexttomap.parse codec.fromUtf8 (codec.toStdString xml) with
  | ok parser =>
    dsimp only
    split <;> rfl
  | failed parser e => rfl
  | undefined =>
    rw [hpar] at h
    apply absurd rfl h

end ContextClient

end

end Daemon

import Contextd.Daemon.ContextClient

/-!
# What the plugins are told

A call of `updateState` sends an event to the plugins (`ContextClient.demand`) when a
transition was accepted, when the user refused it, and when there was none.  The event says
what became of the domain (`ContextClient.domain_of_demand`).
-/

namespace Daemon

open Policy

/-- `ContextdPluginTransitionDemandEvent`: the client, the result, and the transition, which
is the invalid one when none was found. -/
structure TransitionDemand where
  clientConcerned : ContextClient
  demandResult : String
  transitionDemanded : Option Transition

/-- The event that a call of `updateState` sends to the plugins: a transition that was
accepted, that the user refused, or that was not found.  When PIGA refuses, or the context is
not read, there is none. -/
def ContextClient.demand (codec : Codec) (re : RegExp) (config : Configuration)
    (client : ContextClient) (domain : Domain) (xmlContext : String) (answers : Answers) :
    Option TransitionDemand :=
  match client.updateCurrentState codec xmlContext with
  | none => none
  | some (_, false) => none
  | some (client, true) =>
      match config.getFirstMatchingTransition re client.program domain client.currentState with
      | none => some ⟨client, contextRefuse, none⟩
      | some t =>
          if !t.promptUser || answers.promptUserForAutorisation then
            if onAcceptHooks answers.sendTrace = contextAccept then
              some ⟨client, contextAccept, some t⟩
            else none
          else some ⟨client, contextRefuse, some t⟩

/-- A demand that was accepted is for the domain that the call leaves; any other call is
answered otherwise, and leaves the domain as it was. -/
theorem ContextClient.domain_of_demand {codec : Codec} {re : RegExp} {config : Configuration}
    {client client' : ContextClient} {domain domain' : Domain} {xml reply : String}
    {answers : Answers}
    (h : client.updateState codec re config domain xml answers = some (reply, domain', client')) :
  (∃ t, client.demand codec re config domain xml answers = some ⟨client', contextAccept, some t⟩ ∧
      reply = contextAccept ∧ domain' = t.transitTo) ∨
    (∀ ev, client.demand codec re config domain xml answers = some ev →
      ev.demandResult = contextRefuse) ∧ reply ≠ contextAccept ∧ domain' = domain
  := by
  unfold updateState at h
  unfold demand
  rcases hupd : client.updateCurrentState codec xml with _ | ⟨read, _ | _⟩
  · rw [hupd] at h
    cases h
  · simp only [hupd, Option.some.injEq, Prod.mk.injEq] at h
    right
    exact ⟨by simp, h.1 ▸ by decide, h.2.1.symm⟩
  simp only [hupd] at h ⊢
  rcases hf : config.getFirstMatchingTransition re read.program domain read.currentState
    with _ | t
  · simp only [hf, Option.some.injEq, Prod.mk.injEq] at h ⊢
    right
    exact ⟨fun ev hev => hev ▸ rfl, h.1 ▸ by decide, h.2.1.symm⟩
  simp only [hf] at h ⊢
  split_ifs at h ⊢ with hpr hhk
  · simp only [Option.some.injEq, Prod.mk.injEq] at h
    obtain ⟨hrep, rfl, rfl⟩ := h
    left
    exact ⟨t, rfl, hrep.symm.trans hhk, rfl⟩
  · simp only [Option.some.injEq, Prod.mk.injEq] at h
    right
    exact ⟨by simp, h.1 ▸ hhk, h.2.1.symm⟩
  · simp only [Option.some.injEq, Prod.mk.injEq] at h
    right
    exact ⟨fun ev hev => Option.some.inj hev ▸ rfl, h.1 ▸ by decide, h.2.1.symm⟩

end Daemon

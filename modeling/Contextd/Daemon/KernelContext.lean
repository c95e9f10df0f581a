import Contextd.Kernel.Share
import Contextd.Policy.Editor
import Contextd.Daemon.Session
import Contextd.Daemon.ClientTable

/-!
# Requests of the kernel

`KThread::run` answers the requests of the audit module one after the other.  A process that is not
known is registered as a client under the name the kernel gives; an access to a file or a directory
is announced as a context of the client, and other accesses are let through.

A client stays in the table when its process ends or executes another program.  The program that
each process runs may change at any time.
-/

namespace Daemon

open Policy Machine

/-! ### Texts -/

/-- `str.replace(c, after)` for one character. -/
def replaceChar (c : Char) (after : String) (s : List Char) : List Char :=
  s.flatMap fun x => if x = c then after.toList else [x]

/-- `KThread::toXMLEntities`. -/
def toXMLEntities (str : String) : String :=
  String.ofList
    (replaceChar '"' "&quot;"
      (replaceChar '>' "&gt;" (replaceChar '<' "$lt;" (replaceChar '&' "&amp;" str.toList))))

/-- One or two digits, with how many there are. -/
def markerNumber : List Char → Option (ℕ × ℕ)
  | c :: d :: _ =>
      if c.isDigit then
        if d.isDigit then some (10 * (c.toNat - 48) + (d.toNat - 48), 2)
        else some (c.toNat - 48, 1)
      else none
  | [c] => if c.isDigit then some (c.toNat - 48, 1) else none
  | [] => none

/-- The place marker at the start of a text, with its length. -/
def marker? : List Char → Option (ℕ × ℕ)
  | '%' :: 'L' :: cs => (markerNumber cs).map fun (n, k) => (n, k + 2)
  | '%' :: cs => (markerNumber cs).map fun (n, k) => (n, k + 1)
  | _ => none

/-- The lowest number of a place marker of a text. -/
def lowestMarker : List Char → Option ℕ
  | [] => none
  | c :: cs =>
      match marker? (c :: cs), lowestMarker cs with
      | some (n, _), some m => some (min n m)
      | some (n, _), none => some n
      | none, m => m

/-- Replace the place markers of a number; the first argument counts the characters of a
marker that are left. -/
def replaceMarker (n : ℕ) (after : List Char) : ℕ → List Char → List Char
  | _, [] => []
  | k + 1, _ :: cs => replaceMarker n after k cs
  | 0, c :: cs =>
      match marker? (c :: cs) with
      | some (m, k) =>
          if m = n then after ++ replaceMarker n after (k - 1) cs
          else c :: replaceMarker n after 0 cs
      | none => c :: replaceMarker n after 0 cs

/-- `QString::arg`: replace the place markers with the lowest number. -/
def arg (s a : String) : String :=
  match lowestMarker s.toList with
  | some n => String.ofList (replaceMarker n a.toList 0 s.toList)
  | none => s

/-- `KThread::xmlContext`, for names and values. -/
def xmlContext (params : List (String × String)) : String :=
  params.foldl
      (fun text (name, value) =>
        let svalue := toXMLEntities value
        if name ≠ "" ∧ svalue ≠ "" then
          text ++ arg (arg "<parameter name=\"%1\" value=\"%2\"/>" name) svalue
        else text)
      "<xmlContext>" ++
    "</xmlContext>"

/-! ### The table of clients -/

/-- `KERNEL_SUCCESS`. -/
def kernelSuccess : String := "KernelContext: success"

/-- `KERNEL_ERROR`. -/
def kernelError : String := "KernelContext: error"

/-- The current domain, the table of clients, and the path of the program that each process
runs, empty when there is no such process. -/
structure KernelContext where
  domain : Domain
  clients : OrdMap Int ContextClient
  exe : Int → String

namespace KernelContext

/-- `AbstractContext::getFullPathFromPID`. -/
def getFullPathFromPID (s : KernelContext) (pid : Int) : String := s.exe pid

/-- `KernelContext::is_registered`. -/
def isRegistered (s : KernelContext) (pid : Int) : String :=
  if pid ∈ s.clients then kernelSuccess else kernelError

/-- `KernelContext::register_application`. -/
def registerApplication (config : Configuration) (s : KernelContext) (pid : Int)
    (appName : String) : String × KernelContext :=
  if pid ≠ 0 ∧ pid ∉ s.clients then
    if config.isProgramAllowed appName (s.getFullPathFromPID pid) then
      (kernelSuccess,
        { s with clients := s.clients.insert pid (.new (config.getProgramByName appName false)) })
    else (kernelError, s)
  else (kernelError, s)

/-- `KernelContext::domain_changed`: what it returns, the argument of `auditsec_answer`, and
the state after it. -/
def domainChanged (codec : Codec) (re : RegExp) (config : Configuration) (s : KernelContext)
    (pid : Int) (xml : String) (answers : Answers) : Option (String × Bool × KernelContext) :=
  match s.clients[pid]? with
  | some client =>
      match client.updateState codec re config s.domain xml answers with
      | none => none
      | some (reply, domain, client) =>
          let s' := { s with domain := domain, clients := s.clients.insert pid client }
          if reply = contextAccept then some (contextAccept, true, s')
          else some (kernelError, false, s')
  -- A process that is not registered is let through.
  | none => some (kernelError, true, s)

/-- The context that an access is announced as, for an access to a file or a directory.  The
two members of the union have the same fields, and the code reads the first one in both
cases. -/
def accessContext (codec : Codec) : Kernel.Payload → Option String
  | .file f => some (xmlContext [("fullpath", codec.fromAscii f.fullpath)])
  | .dir d => some (xmlContext [("fullpath", codec.fromAscii d.fullpath)])
  | .ipv4 _ | .ipv6 _ | .msg _ => none

/-- The process of a request is registered when it is not known. -/
def register (codec : Codec) (config : Configuration) (s : KernelContext) (r : Kernel.Request) :
    KernelContext :=
  if s.isRegistered r.pid = kernelError then
    (s.registerApplication config r.pid (codec.fromAscii r.execname)).2
  else s

/-- The body of the loop of `KThread::run`: the argument of `auditsec_answer`, and the state
after it. -/
def serve (codec : Codec) (re : RegExp) (config : Configuration) (s : KernelContext)
    (r : Kernel.Request) (answers : Answers) : Option (Bool × KernelContext) :=
  let s := s.register codec config r
  match accessContext codec r.payload with
  | some xml =>
      (s.domainChanged codec re config r.pid xml answers).map fun (_, answer, s') => (answer, s')
  -- The sockets and the messages are let through without a context.
  | none => some (true, s)

/-- What a run of `ClientsCleaner` leaves, for the list of the processes that it has read. -/
def clean (s : KernelContext) (alive : List Int) : KernelContext :=
  { s with clients := ClientTable.survivors alive s.clients }

/-- A request is served, a process ends or runs another program, or the table is cleaned. -/
inductive Action where
  | request (r : Kernel.Request) (answers : Answers)
  | exec (pid : Int) (path : String)
  | clean (alive : List Int)

def step (codec : Codec) (re : RegExp) (config : Configuration) (s : KernelContext) :
    Action → Option KernelContext
  | .request r answers => (s.serve codec re config r answers).map (·.2)
  | .exec pid path => some { s with exe := Function.update s.exe pid path }
  | .clean alive => some (s.clean alive)

end KernelContext

/-- The loop of the kernel interface, from an empty table. -/
def kernelLoop (codec : Codec) (re : RegExp) (config : Configuration) :
    Machine KernelContext KernelContext.Action where
  init s := s.clients = ∅
  step := KernelContext.step codec re config

namespace KernelContext

variable {codec : Codec} {re : RegExp} {config : Configuration} {s s' : KernelContext}
  {r : Kernel.Request} {answers : Answers} {xml : String}

/-- A request for a file or a directory is made under the name of the program that its
process is registered for.  When the process is not registered, the name is that of a program
whose path is the one the process runs, so that it will be. -/
def Attributed (codec : Codec) (config : Configuration) (s : KernelContext) : Action → Prop
  | .request r _ =>
      (accessContext codec r.payload).isSome →
        (∀ client ∈ s.clients[r.pid]?, client.program.name = codec.fromAscii r.execname) ∧
        (r.pid ∉ s.clients → r.pid ≠ 0 ∧
          config.isProgramAllowed (codec.fromAscii r.execname) (s.exe r.pid) = true)
  | .exec .. | .clean _ => True

instance (s : KernelContext) : ∀ a, Decidable (s.Attributed codec config a)
  | .request _ _ => inferInstanceAs (Decidable (_ → _ ∧ (_ → _ ∧ _)))
  | .exec .. | .clean _ => inferInstanceAs (Decidable True)

/-! ### Registered programs -/

/-- The clients are registered for programs of the configuration. -/
def Registered (config : Configuration) (s : KernelContext) : Prop :=
  ∀ (pid : Int) (client : ContextClient), s.clients[pid]? = some client →
    config.programs[client.program.name]? = some client.program

/-- A program that is allowed is the one that is found by its name. -/
theorem getProgramByName_of_allowed {name path : String}
    (h : config.isProgramAllowed name path = true) :
  config.programs[name]? = some (config.getProgramByName name false)
  := by
  unfold Configuration.isProgramAllowed at h
  cases hp : config.programs[name]? with
  | none =>
    rw [hp] at h
    cases h
  | some p =>
    have hget : config.programs.getD name .none = p := by
      rw [Std.ExtTreeMap.getD_eq_getD_getElem?, hp, Option.getD_some]
    simp [Configuration.getProgramByName, hget]

/-- A client that replaces another one of its program, or is of a program of the
configuration, can be stored. -/
theorem Registered.insert {pid : Int} {client : ContextClient} {domain : Domain}
    (h : s.Registered config) (hcl : config.programs[client.program.name]? = some client.program) :
  Registered config { s with domain := domain, clients := s.clients.insert pid client }
  := by
  intro pid' client' hf
  rw [Std.ExtTreeMap.getElem?_insert] at hf
  split_ifs at hf
  · cases hf
    apply hcl
  · apply h pid' client' hf

theorem Registered.register (hkey : config.Wellkept) (h : s.Registered config)
    (r : Kernel.Request) :
  (s.register codec config r).Registered config
  := by
  unfold KernelContext.register registerApplication
  split_ifs with hunk hpid hall
  · apply h.insert
    have hprog := getProgramByName_of_allowed hall
    have hn := hkey.programs _ _ hprog
    simp only [ContextClient.new, hn, hprog]
  · apply h
  · apply h
  · apply h

/-- How `domain_changed` ends: for a client, with the answer to its call of `updateState`, and
with a grant for a process that is not registered. -/
theorem domainChanged_cases {pid : Int} {reply : String} {answer : Bool}
    (h : s.domainChanged codec re config pid xml answers = some (reply, answer, s')) :
  (∃ client client' reply' domain, s.clients[pid]? = some client ∧
      client.updateState codec re config s.domain xml answers = some (reply', domain, client') ∧
      (answer = true ↔ reply' = contextAccept) ∧
      s' = { s with domain := domain, clients := s.clients.insert pid client' }) ∨
    (s.clients[pid]? = none ∧ answer = true ∧ s' = s)
  := by
  unfold domainChanged at h
  cases hf : s.clients[pid]? with
  | none =>
    rw [hf] at h
    cases h
    exact .inr ⟨rfl, rfl, rfl⟩
  | some client =>
    left
    simp only [hf] at h
    cases hupd : client.updateState codec re config s.domain xml answers with
    | none =>
      rw [hupd] at h
      cases h
    | some outcome =>
      obtain ⟨reply', domain, client'⟩ := outcome
      simp only [hupd] at h
      by_cases hacc : reply' = contextAccept
      · rw [if_pos hacc] at h
        cases h
        exact ⟨client, client', reply', domain, rfl, hupd, by simp [hacc], rfl⟩
      · rw [if_neg hacc] at h
        cases h
        exact ⟨client, client', reply', domain, rfl, hupd, by simp [hacc], rfl⟩

theorem Registered.serve {answer : Bool} (hkey : config.Wellkept) (h : s.Registered config)
    (hsrv : s.serve codec re config r answers = some (answer, s')) :
  s'.Registered config
  := by
  have hreg : (s.register codec config r).Registered config := h.register hkey r
  unfold KernelContext.serve at hsrv
  cases hctx : accessContext codec r.payload with
  | none =>
    rw [hctx] at hsrv
    cases hsrv
    apply hreg
  | some xml =>
    rw [hctx] at hsrv
    obtain ⟨⟨reply, answer', s''⟩, hchg, heq⟩ := Option.map_eq_some_iff.mp hsrv
    cases heq
    rcases domainChanged_cases hchg with
      ⟨client, client', reply', domain, hf, hupd, -, rfl⟩ | ⟨-, -, rfl⟩
    · apply hreg.insert
      rw [ContextClient.program_updateState hupd]
      apply hreg _ _ hf
    · apply hreg

/-- Cleaning the table only removes clients. -/
theorem Registered.clean (h : s.Registered config) (alive : List Int) :
  (s.clean alive).Registered config
  := by
  intro pid client hf
  apply h pid client
  unfold KernelContext.clean ClientTable.survivors at hf
  rw [OrdMap.getElem?_filter_key, Option.ite_none_right_eq_some] at hf
  apply hf.2

theorem Registered.step {a : Action} (hkey : config.Wellkept) (h : s.Registered config)
    (hs : step codec re config s a = some s') :
  s'.Registered config
  := by
  cases a with
  | request r answers =>
    obtain ⟨⟨answer, s''⟩, hsrv, rfl⟩ := Option.map_eq_some_iff.mp hs
    apply h.serve hkey hsrv
  | exec pid path =>
    cases hs
    apply h
  | clean alive =>
    cases hs
    apply h.clean alive

/-- In every state reached, the clients are registered for programs of the configuration. -/
theorem registered_of_reach {guard : KernelContext → Action → Prop} (hkey : config.Wellkept)
    (h : (kernelLoop codec re config).Reach guard s) :
  s.Registered config
  := by
  apply h.invariant
  · intro s hi pid client hf
    rw [hi] at hf
    simp at hf
  · intro s a s' hs _ hstep
    apply hs.step hkey hstep

/-! ### Grants -/

/-- The grant of a request was decided for the program with its name: a client of that
program announced the access, and its call of `updateState` accepted the transition that is
found in the current domain. -/
def Mediated (codec : Codec) (re : RegExp) (config : Configuration) (s : KernelContext)
    (r : Kernel.Request) (xml : String) (answers : Answers) (s' : KernelContext) : Prop :=
  ∃ (client client' : ContextClient) (t : Transition),
    client.program.name = codec.fromAscii r.execname ∧
    config.programs[codec.fromAscii r.execname]? = some client.program ∧
    RequiredTransition codec re config client.program s.domain xml t ∧ answers.Agree t ∧
    s'.domain = t.transitTo ∧
    client.updateState codec re config s.domain xml answers =
      some (contextAccept, s'.domain, client')

theorem domain_register :
  (s.register codec config r).domain = s.domain
  := by
  unfold register registerApplication
  split_ifs <;> rfl

/-- The process of an attributed request is registered for the program with its name. -/
theorem exists_client_register (hkey : config.Wellkept)
    (hkn : ∀ client ∈ s.clients[r.pid]?, client.program.name = codec.fromAscii r.execname)
    (hunk : r.pid ∉ s.clients → r.pid ≠ 0 ∧
      config.isProgramAllowed (codec.fromAscii r.execname) (s.exe r.pid) = true) :
  ∃ client, (s.register codec config r).clients[r.pid]? = some client ∧
    client.program.name = codec.fromAscii r.execname
  := by
  by_cases hm : r.pid ∈ s.clients
  · have hregister : s.register codec config r = s := by
      simp [register, isRegistered, hm, kernelSuccess, kernelError]
    obtain ⟨client, hcl⟩ := Option.isSome_iff_exists.mp
      (Std.ExtTreeMap.mem_iff_isSome_getElem?.mp hm)
    rw [hregister]
    use client, hcl, hkn client hcl
  · obtain ⟨hpid, hall⟩ := hunk hm
    have hprog := getProgramByName_of_allowed hall
    use .new (config.getProgramByName (codec.fromAscii r.execname) false)
    constructor
    · simp [register, registerApplication, isRegistered, getFullPathFromPID, hm, hpid, hall]
    · apply hkey.programs _ _ hprog

/-- In every run of attributed requests, an access to a file or a directory is granted only
when `updateState` accepted, in the current domain, the transition that is found for the
program with the name of the request. -/
theorem mediated_of_attributed {store : Store} (hsto : editor.Reach anyStep store)
    (hs : (kernelLoop codec re store.config).Reach (Attributed codec store.config) s)
    (hattributed : s.Attributed codec store.config (.request r answers))
    (hctx : accessContext codec r.payload = some xml)
    (hgr : s.serve codec re store.config r answers = some (true, s')) :
  Mediated codec re store.config s r xml answers s'
  := by
  have hkey := wellkept_of_reach hsto
  have hreg : (s.register codec store.config r).Registered store.config :=
    (registered_of_reach hkey hs).register hkey r
  obtain ⟨hkn, hunk⟩ := hattributed (by rw [hctx]; rfl)
  obtain ⟨client, hcl, hn⟩ := exists_client_register hkey hkn hunk
  unfold serve at hgr
  simp only [hctx] at hgr
  obtain ⟨⟨reply, answer, s''⟩, hchg, heq⟩ := Option.map_eq_some_iff.mp hgr
  cases heq
  rcases domainChanged_cases hchg with
    ⟨client₁, client', reply', domain, hf, hupd, hacc, rfl⟩ | ⟨hnone, -, -⟩
  · obtain rfl : client = client₁ := Option.some.inj (hcl.symm.trans hf)
    obtain rfl : reply' = contextAccept := hacc.mp rfl
    rw [domain_register] at hupd
    have hprog := hreg _ _ hcl
    rw [hn] at hprog
    rcases ContextClient.updateState_cases hupd with
      ⟨e, -, hrep, -⟩ | ⟨context, parser, hpar, -, hdec⟩
    · apply absurd hrep (by decide)
    · rcases hdec with ⟨t, hfd, hag, -, hdom⟩ | ⟨-, hrep, -⟩
      · exact ⟨client, client', t, hn, hprog, ⟨context, hpar, hfd⟩, hag, hdom,
          hupd⟩
      · apply absurd hrep (by decide)
  · cases hnone.symm.trans hcl

/-- A loop that lets the mail program read a file in the domain `work`. -/
def fileLoop : Loop where
  id := 1
  priority := 1
  program := mailer
  displayName := "read"
  prompt := false
  notify := false
  mRules := [⟨"read", "", Std.ExtTreeMap.ofList [("fullpath", "/tmp/m")]⟩]
  tRules := [⟨"work", none, none⟩]

/-- The store with that loop alone. -/
def fileStore : Store :=
  ⟨(Store.loaded [mailer] 0 none).config.addLoop fileLoop, [1]⟩

theorem reach_fileStore :
  editor.Reach anyStep fileStore
  := by
  have hst : editor.Reach anyStep (.loaded [mailer] 0 none) :=
    .init ⟨[mailer], 0, none, by decide, rfl⟩
  apply hst.run [.addLoop fileLoop] (by decide) rfl

/-- The request of a process to read that file, under a name. -/
def fileRequest (name : String) : Kernel.Request :=
  ⟨7, XmlSp.bytes name, .file ⟨[], XmlSp.bytes "/tmp/m", 0⟩⟩

/-- The interface before its first request, in the domain `work`. -/
def quiet : KernelContext where
  domain := ⟨"work", "", "", "", 0, 0⟩
  clients := ∅
  exe _ := ""

/-- The mail program reads the file. -/
theorem mediated_of_attributed_fileRequest :
  ∃ s s',
    (kernelLoop ascii literal fileStore.config).Reach (Attributed ascii fileStore.config) s ∧
    s.serve ascii literal fileStore.config (fileRequest "mailer") ⟨false, .disabled⟩ =
      some (true, s') ∧
    Mediated ascii literal fileStore.config s (fileRequest "mailer")
      (xmlContext [("fullpath", "/tmp/m")]) ⟨false, .disabled⟩ s'
  := by
  have hqt : (kernelLoop ascii literal fileStore.config).Reach
    (Attributed ascii fileStore.config) quiet := .init rfl
  have hs := hqt.run [.exec 7 "/usr/bin/mailer"] (by decide) rfl
  refine ⟨_, _, hs, rfl, ?_⟩
  apply mediated_of_attributed reach_fileStore hs (by decide) (by decide) rfl

/-- A process that cannot be registered is let through.  A process that was registered for the
mail program and then runs another program, of which the configuration knows nothing, is let
through by the rules of the mail program. -/
theorem grants_without_program :
  editor.Reach anyStep fileStore ∧
  (kernelLoop ascii literal fileStore.config).Reach anyStep quiet ∧
  (∃ s', quiet.serve ascii literal fileStore.config (fileRequest "sh") ⟨false, .refused⟩ =
      some (true, s') ∧
    ∀ xml, ¬ Mediated ascii literal fileStore.config quiet (fileRequest "sh") xml
      ⟨false, .refused⟩ s') ∧
  ∃ s s', (kernelLoop ascii literal fileStore.config).Reach anyStep s ∧
    7 ∈ s.clients ∧
    s.serve ascii literal fileStore.config (fileRequest "sh") ⟨false, .disabled⟩ =
      some (true, s') ∧
    ∀ xml, ¬ Mediated ascii literal fileStore.config s (fileRequest "sh") xml
      ⟨false, .disabled⟩ s'
  := by
  have hunk : fileStore.config.programs[ascii.fromAscii (fileRequest "sh").execname]? =
    none := by decide
  have hnot : ∀ s answers s' xml,
      ¬ Mediated ascii literal fileStore.config s (fileRequest "sh") xml answers s' := by
    rintro s answers s' xml ⟨client, client', t, -, hprog, -⟩
    cases hunk.symm.trans hprog
  have hqt : (kernelLoop ascii literal fileStore.config).Reach anyStep quiet := .init rfl
  have hs := hqt.run [.exec 7 "/usr/bin/mailer",
    .request (fileRequest "mailer") ⟨false, .disabled⟩, .exec 7 "/bin/sh"] (by decide) rfl
  exact ⟨reach_fileStore, hqt, ⟨_, rfl, hnot _ _ _⟩, _, _, hs, by decide, rfl, hnot _ _ _⟩

end KernelContext

end Daemon

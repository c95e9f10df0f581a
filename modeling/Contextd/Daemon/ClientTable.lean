import Contextd.Machine
import Contextd.Sync.ReadWriteLock
import Contextd.Daemon.ContextClient

/-!
# The shared table of clients

`AbstractContext::clients` is used by the threads of the two interfaces, under
`AbstractContext::lock`, and by the thread of `ClientsCleaner`, without it.  Any number of threads
make their calls, one statement at a time, while the cleaner runs (`clientTable`).

No thread changes the table while another one uses it (`ClientTable.Exclusive`) in the runs in which
the cleaner keeps to the lock as well (`ClientTable.Orderly`).
-/

namespace Daemon

open List Policy Machine

/-- A method that is called on a client of the table. -/
inductive Method where
  | updateState
  | requiredDomain
  | currentDomain
  deriving DecidableEq, Repr

/-- A call of one of the interfaces, by a process.  A registration comes with the program that
is stored, if the name is allowed for the path of the process. -/
inductive TableCall where
  | registerApplication (pid : Int) (program? : Option Program)
  | isRegistered (pid : Int)
  /-- `KernelContext` asks the client for the domain once more, to print it. -/
  | domainChanged (pid : Int) (kernel : Bool)
  | requiredDomain (pid : Int)
  deriving DecidableEq, Repr

/-- The next statement of a thread of the interfaces. -/
inductive TablePc where
  /-- Not in a call. -/
  | idle
  /-- `QWriteLocker _lock(&lock)`. -/
  | lockForWrite (pid : Int) (program? : Option Program)
  /-- `pid != 0 && !clients.contains(pid)`. -/
  | contains (pid : Int) (program? : Option Program)
  /-- `clients[pid] = ContextClient(.., program, pid)`. -/
  | insert (pid : Int) (program : Program)
  /-- `QReadLocker _lock(&lock)`, before the methods of a client. -/
  | lockForRead (pid : Int) (ms : List Method)
  /-- `clients.contains(pid)`. -/
  | lookup (pid : Int) (ms : List Method)
  /-- `clients[pid]`, which inserts a client when there is none. -/
  | index (pid : Int) (m : Method) (ms : List Method)
  /-- In the method of the client. -/
  | method (pid : Int) (m : Method) (ms : List Method)
  /-- The return, at which the lock is released. -/
  | unlock (hold : Hold)

/-- The next statement of the cleaner, with the processes it has listed. -/
inductive CleanerPc where
  /-- Not running. -/
  | idle
  /-- `mapItr = _clients->constBegin()`. -/
  | start (alive : List Int)
  /-- The body of the loop, with the iterator at a client. -/
  | visit (alive : List Int) (pid : Int)
  /-- `_clients->remove(mapItr.key())`. -/
  | remove (alive : List Int) (pid : Int)

/-- What a thread is about to do with the table: nothing, a lookup, an iteration or a method
of a client, an insertion or a removal. -/
inductive Access where
  | nothing
  | uses
  | mutates
  deriving DecidableEq, Repr

namespace TableCall

/-- The first statement of a call. -/
def entry : TableCall → TablePc
  | .registerApplication pid program? => .lockForWrite pid program?
  | .isRegistered pid => .lockForRead pid []
  | .domainChanged pid kernel =>
      .lockForRead pid (if kernel then [.updateState, .currentDomain] else [.updateState])
  | .requiredDomain pid => .lockForRead pid [.requiredDomain]

end TableCall

namespace TablePc

/-- The methods that are left to call on a client. -/
def methods (pid : Int) : List Method → TablePc
  | [] => .unlock .read
  | m :: ms => .index pid m ms

/-- What the thread holds of the lock. -/
def hold : TablePc → Hold
  | .idle | .lockForWrite .. | .lockForRead .. => .nothing
  | .contains .. | .insert .. => .write
  | .lookup .. | .index .. | .method .. => .read
  | .unlock hold => hold

/-- The client that was found in the table. -/
def client? : TablePc → Option Int
  | .index pid .. | .method pid .. => some pid
  | _ => none

/-- About to take the lock for writing. -/
def isLockForWrite : TablePc → Bool
  | .lockForWrite .. => true
  | _ => false

/-- About to take the lock for reading. -/
def isLockForRead : TablePc → Bool
  | .lockForRead .. => true
  | _ => false

/-- What the thread is about to do with a table. -/
def access (clients : OrdMap Int ContextClient) : TablePc → Access
  | .contains .. | .lookup .. | .method .. => .uses
  | .index pid .. => if pid ∈ clients then .uses else .mutates
  | .insert .. => .mutates
  | .idle | .lockForWrite .. | .lockForRead .. | .unlock _ => .nothing

end TablePc

namespace CleanerPc

variable {pc : CleanerPc}

def isRunning : CleanerPc → Bool
  | .idle => false
  | .start _ | .visit .. | .remove .. => true

def isRemoving : CleanerPc → Bool
  | .remove .. => true
  | .idle | .start _ | .visit .. => false

/-- The client under the iterator is about to be found dead. -/
def isCondemning : CleanerPc → Bool
  | .visit alive pid => decide (pid ∉ alive)
  | .idle | .start _ | .remove .. => false

theorem isRunning_of_isRemoving (h : pc.isRemoving = true) :
  pc.isRunning = true
  := by
  cases pc <;> first | rfl | cases h

/-- What the cleaner is about to do with the table. -/
def access : CleanerPc → Access
  | .idle => .nothing
  | .start _ | .visit .. => .uses
  | .remove .. => .mutates

theorem isRemoving_of_mutates (h : pc.access = .mutates) :
  pc.isRemoving = true
  := by
  cases pc <;> first | rfl | cases h

theorem access_of_not_running (h : pc.isRunning = false) :
  pc.access = .nothing
  := by
  cases pc <;> first | rfl | cases h

end CleanerPc

/-- The table, its lock, the threads of the interfaces and the cleaner. -/
structure ClientTable (n : ℕ) where
  lock : ReadWriteLock (Fin n)
  clients : OrdMap Int ContextClient
  threads : Fin n → TablePc
  cleaner : CleanerPc

namespace ClientTable

variable {n : ℕ}

/-- A thread starts a call, or takes its next step, with the client that a method leaves; the
cleaner starts with a list of processes, or takes its next step. -/
inductive Action (n : ℕ) where
  | call (i : Fin n) (c : TableCall)
  | step (i : Fin n) (left : ContextClient)
  | start (alive : List Int)
  | clean

/-- Thread `i` continues at `pc`. -/
def goto (s : ClientTable n) (i : Fin n) (pc : TablePc) : ClientTable n :=
  { s with threads := Function.update s.threads i pc }

/-- The next step of a thread of the interfaces.  A method on a client that was removed has no
defined effect. -/
def threadStep (s : ClientTable n) (i : Fin n) (left : ContextClient) :
    TablePc → Option (ClientTable n)
  | .idle => none
  | .lockForWrite pid program? =>
      (s.lock.lockForWrite i).map fun l => { s.goto i (.contains pid program?) with lock := l }
  | .contains pid program? =>
      match program? with
      | some program =>
          if pid ≠ 0 ∧ pid ∉ s.clients then some (s.goto i (.insert pid program))
          else some (s.goto i (.unlock .write))
      | none => some (s.goto i (.unlock .write))
  | .insert pid program =>
      some
        { s.goto i (.unlock .write) with clients := s.clients.insert pid (.new program) }
  | .lockForRead pid ms =>
      (s.lock.lockForRead i).map fun l => { s.goto i (.lookup pid ms) with lock := l }
  | .lookup pid ms =>
      some (s.goto i (if pid ∈ s.clients then .methods pid ms else .unlock .read))
  | .index pid m ms =>
      some
        { s.goto i (.method pid m ms) with
          clients := if pid ∈ s.clients then s.clients else s.clients.insert pid (.new .none) }
  | .method pid _ ms =>
      if pid ∈ s.clients then
        some { s.goto i (.methods pid ms) with clients := s.clients.insert pid left }
      else none
  | .unlock _ => some { s.goto i .idle with lock := s.lock.unlock i }

/-- The next step of the cleaner. -/
def cleanerStep (s : ClientTable n) : CleanerPc → Option (ClientTable n)
  | .idle => none
  | .start alive =>
      match s.clients.keys with
      | [] => some { s with cleaner := .idle }
      | pid :: _ => some { s with cleaner := .visit alive pid }
  | .visit alive pid =>
      if pid ∈ alive then
        match s.clients.keys.find? (pid < ·) with
        | none => some { s with cleaner := .idle }
        | some pid' => some { s with cleaner := .visit alive pid' }
      else some { s with cleaner := .remove alive pid }
  -- The iterator is gone with the client, and the loop starts again.
  | .remove alive pid =>
      some { s with clients := s.clients.erase pid, cleaner := .start alive }

/-- A step of the threads. -/
def step (s : ClientTable n) : Action n → Option (ClientTable n)
  | .call i c =>
      match s.threads i with
      | .idle => some (s.goto i c.entry)
      | _ => none
  | .step i left => s.threadStep i left (s.threads i)
  | .start alive =>
      match s.cleaner with
      | .idle => some { s with cleaner := .start alive }
      | _ => none
  | .clean => s.cleanerStep s.cleaner

/-- What a thread is about to do with the table; `none` is the cleaner. -/
def access (s : ClientTable n) : Option (Fin n) → Access
  | some i => (s.threads i).access s.clients
  | none => s.cleaner.access

/-- While a thread is about to insert or remove, the other ones are not about to do anything
with the table. -/
def Exclusive (s : ClientTable n) : Prop :=
  ∀ t u, t ≠ u → s.access t = .mutates → s.access u = .nothing

/-- The cleaner keeps to the lock that it does not take.  It starts when nobody holds the lock
for writing, and nobody takes it for writing until it ends; it goes on to a removal when
nobody holds the lock, and nobody takes it until the client is removed. -/
def Orderly (s : ClientTable n) : Action n → Prop
  | .call .. => True
  | .step i _ =>
      ((s.threads i).isLockForWrite = true → s.cleaner.isRunning = false) ∧
      ((s.threads i).isLockForRead = true → s.cleaner.isRemoving = false)
  | .start _ => ∀ i, s.lock.held i ≠ .write
  | .clean => s.cleaner.isCondemning = true → ∀ i, s.lock.held i = .nothing

instance (s : ClientTable n) : ∀ a, Decidable (s.Orderly a)
  | .call .. => inferInstanceAs (Decidable True)
  | .step _ _ => inferInstanceAs (Decidable (_ ∧ _))
  | .start _ => inferInstanceAs (Decidable (∀ _, _))
  | .clean => inferInstanceAs (Decidable (_ → _))

end ClientTable

/-- The table with `n` threads of the interfaces and the cleaner. -/
def clientTable (n : ℕ) : Machine (ClientTable n) (ClientTable.Action n) where
  init s := s = ⟨.free, ∅, fun _ => .idle, .idle⟩
  step := ClientTable.step

namespace TablePc

variable {pc : TablePc}

/-- A thread that has found a client holds the lock for reading. -/
theorem hold_of_client {pid : Int} (h : pid ∈ pc.client?) :
  pc.hold = .read
  := by
  cases pc <;> first | rfl | cases h

/-- A thread that does something with the table holds the lock. -/
theorem access_of_hold {clients : OrdMap Int ContextClient} (h : pc.hold = .nothing) :
  pc.access clients = .nothing
  := by
  cases pc <;> first | rfl | cases h

/-- A thread that changes the table holds the lock for writing, when the clients that were
found are in it. -/
theorem hold_of_mutates {clients : OrdMap Int ContextClient}
    (h : pc.access clients = .mutates) (hpres : ∀ pid ∈ pc.client?, pid ∈ clients) :
  pc.hold = .write
  := by
  cases pc with
  | contains | insert => rfl
  | index pid m ms =>
    simp only [access, if_pos (hpres pid rfl)] at h
    cases h
  | idle | lockForWrite | lockForRead | lookup | method | unlock => cases h

theorem hold_methods (pid : Int) (ms : List Method) :
  (methods pid ms).hold = .read
  := by
  cases ms <;> rfl

theorem client_methods {pid pid' : Int} {ms : List Method} (h : pid' ∈ (methods pid ms).client?) :
  pid' = pid
  := by
  cases ms with
  | nil => cases h
  | cons m ms => apply (Option.some.inj h).symm

end TablePc

namespace ClientTable

variable {clients : OrdMap Int ContextClient} {pid : Int} {before after alive : List Int}

variable {n : ℕ} {s s' : ClientTable n} {i : Fin n} {pc : TablePc} {a : Action n}

/-! ### Orderly runs -/

/-- The lock is held as the statements of the threads say, and the cleaner is beside it as a
reader, or as a writer; the clients that were found are in the table. -/
structure Disciplined (s : ClientTable n) : Prop where
  held : ∀ j, s.lock.held j = (s.threads j).hold
  running : s.cleaner.isRunning = true → ∀ j, s.lock.held j ≠ .write
  removing : s.cleaner.isRemoving = true → ∀ j, s.lock.held j = .nothing
  present : ∀ j, ∀ pid ∈ (s.threads j).client?, pid ∈ s.clients

/-- A thread continues with the same hold, in a table with no fewer clients. -/
theorem Disciplined.goto (h : s.Disciplined) (hhold : pc.hold = (s.threads i).hold)
    (hmono : ∀ pid ∈ s.clients, pid ∈ clients) (hpres : ∀ pid ∈ pc.client?, pid ∈ clients) :
  ({ s.goto i pc with clients := clients } : ClientTable n).Disciplined
  := by
  constructor
  · apply (Function.forall_update_iff s.threads (p := fun j pc => s.lock.held j = pc.hold)).mpr
    use (h.held i).trans hhold.symm
    intro j _
    apply h.held j
  · apply h.running
  · apply h.removing
  · apply (Function.forall_update_iff s.threads
      (p := fun _ pc => ∀ pid ∈ pc.client?, pid ∈ clients)).mpr
    use hpres
    intro j _ pid hpid
    apply hmono pid (h.present j pid hpid)

/-- A thread continues with the same hold, at a statement without a client. -/
theorem Disciplined.move (h : s.Disciplined) (hhold : pc.hold = (s.threads i).hold)
    (hcl : pc.client? = none) :
  (s.goto i pc).Disciplined
  := by
  apply h.goto hhold
  · intro _ hm
    apply hm
  · intro pid hpid
    cases hcl.symm.trans hpid

/-- A thread takes or releases the lock. -/
theorem Disciplined.relock {l : ReadWriteLock (Fin n)} (h : s.Disciplined)
    (hheld : l.held = Function.update s.lock.held i pc.hold) (hcl : pc.client? = none)
    (hrun : s.cleaner.isRunning = true → pc.hold ≠ .write)
    (hrem : s.cleaner.isRemoving = true → pc.hold = .nothing) :
  ({ s.goto i pc with lock := l } : ClientTable n).Disciplined
  := by
  refine ⟨fun j => ?_, fun hr j => ?_, fun hr j => ?_, fun j pid hpid => ?_⟩
  all_goals
    simp only [ClientTable.goto, hheld] at *
    by_cases hj : j = i
  · rw [hj, Function.update_self, Function.update_self]
  · rw [Function.update_of_ne hj, Function.update_of_ne hj]
    apply h.held
  · rw [hj, Function.update_self]
    apply hrun hr
  · rw [Function.update_of_ne hj]
    apply h.running hr
  · rw [hj, Function.update_self]
    apply hrem hr
  · rw [Function.update_of_ne hj]
    apply h.removing hr
  · rw [hj, Function.update_self, hcl] at hpid
    cases hpid
  · rw [Function.update_of_ne hj] at hpid
    apply h.present j pid hpid

/-- A step of a thread of the interfaces. -/
theorem Disciplined.threadStep {left : ContextClient} (h : s.Disciplined)
    (hg : s.Orderly (.step i left)) (hs : s.threadStep i left (s.threads i) = some s') :
  s'.Disciplined
  := by
  obtain ⟨hwrite, hread⟩ := hg
  have hfd := h.present i
  generalize hpc : s.threads i = pc at hwrite hread hfd hs
  have hkeep : ∀ pid ∈ s.clients, pid ∈ s.clients := fun _ hm => hm
  cases pc with
  | idle => cases hs
  | lockForWrite pid program? =>
    obtain ⟨l, hl, rfl⟩ := Option.map_eq_some_iff.mp hs
    apply h.relock (ReadWriteLock.held_lockForWrite hl).1 rfl
    · intro hrun
      cases (hwrite rfl).symm.trans hrun
    · intro hrem
      cases (hwrite rfl).symm.trans (CleanerPc.isRunning_of_isRemoving hrem)
  | contains pid program? =>
    simp only [ClientTable.threadStep] at hs
    split at hs
    · split_ifs at hs
      · cases hs
        apply h.move (hpc ▸ rfl) rfl
      · cases hs
        apply h.move (hpc ▸ rfl) rfl
    · cases hs
      apply h.move (hpc ▸ rfl) rfl
  | insert pid program =>
    cases hs
    apply h.goto (hpc ▸ rfl)
    · intro pid' hm
      rw [Std.ExtTreeMap.mem_insert]
      right
      apply hm
    · intro pid' hpid'
      cases hpid'
  | lockForRead pid ms =>
    obtain ⟨l, hl, rfl⟩ := Option.map_eq_some_iff.mp hs
    apply h.relock (ReadWriteLock.held_lockForRead hl).1 rfl
    · nofun
    · intro hrem
      cases (hread rfl).symm.trans hrem
  | lookup pid ms =>
    cases hs
    split_ifs with hm
    · apply h.goto _ hkeep
      · intro pid' hpid'
        rw [TablePc.client_methods hpid']
        apply hm
      · rw [TablePc.hold_methods, hpc]
        rfl
    · apply h.move (hpc ▸ rfl) rfl
  | index pid m ms =>
    cases hs
    rw [if_pos (hfd pid rfl)]
    apply h.goto (hpc ▸ rfl) hkeep
    intro pid' hpid'
    cases hpid'
    apply hfd pid rfl
  | method pid m ms =>
    have hm := hfd pid rfl
    simp only [ClientTable.threadStep, if_pos hm] at hs
    cases hs
    apply h.goto
    · rw [TablePc.hold_methods, hpc]
      rfl
    · intro pid' hm'
      rw [Std.ExtTreeMap.mem_insert]
      right
      apply hm'
    · intro pid' hpid'
      rw [TablePc.client_methods hpid']
      apply Std.ExtTreeMap.mem_insert_self
  | unlock hold =>
    cases hs
    apply h.relock ReadWriteLock.held_unlock rfl
    · nofun
    · intro _
      rfl

/-- The cleaner goes on, in the same table. -/
theorem Disciplined.iterate {pc : CleanerPc} (h : s.Disciplined)
    (hrun : s.cleaner.isRunning = true) (hpc : pc.isRemoving = false) :
  ({ s with cleaner := pc } : ClientTable n).Disciplined
  := by
  refine ⟨h.held, fun _ => h.running hrun, fun hrem => ?_, h.present⟩
  cases hpc.symm.trans hrem

/-- A step of the cleaner. -/
theorem Disciplined.cleanerStep (h : s.Disciplined) (hg : s.Orderly .clean)
    (hs : s.cleanerStep s.cleaner = some s') :
  s'.Disciplined
  := by
  have hrun := h.running
  have hrem := h.removing
  have hcond : s.cleaner.isCondemning = true → ∀ j, s.lock.held j = .nothing := hg
  generalize hpc : s.cleaner = pc at hrun hrem hcond hs
  cases pc with
  | idle => cases hs
  | start alive =>
    simp only [ClientTable.cleanerStep] at hs
    split at hs
    · cases hs
      apply h.iterate (hpc ▸ rfl) rfl
    · cases hs
      apply h.iterate (hpc ▸ rfl) rfl
  | visit alive pid =>
    simp only [ClientTable.cleanerStep] at hs
    split_ifs at hs with halive
    · split at hs
      · cases hs
        apply h.iterate (hpc ▸ rfl) rfl
      · cases hs
        apply h.iterate (hpc ▸ rfl) rfl
    · cases hs
      refine ⟨h.held, fun _ => hrun rfl, fun _ => ?_, h.present⟩
      apply hcond
      simpa [CleanerPc.isCondemning] using halive
  | remove alive pid =>
    cases hs
    refine ⟨h.held, fun _ => hrun rfl, nofun, fun j pid' hpid' => ?_⟩
    have hnil := hrem rfl j
    rw [h.held, TablePc.hold_of_client hpid'] at hnil
    cases hnil

theorem Disciplined.step (h : s.Disciplined) (hg : s.Orderly a) (hs : s.step a = some s') :
  s'.Disciplined
  := by
  cases a with
  | call i c =>
    simp only [ClientTable.step] at hs
    split at hs
    next hpc =>
      cases hs
      apply h.move
      · rw [hpc]
        cases c <;> rfl
      · cases c <;> rfl
    next => cases hs
  | step i left => apply h.threadStep hg hs
  | start alive =>
    simp only [ClientTable.step] at hs
    split at hs
    · cases hs
      exact ⟨h.held, fun _ => hg, nofun, h.present⟩
    · cases hs
  | clean => apply h.cleanerStep hg hs

/-- Where the lock is held as it should be, a thread that changes the table is alone. -/
theorem Disciplined.exclusive (h : s.Disciplined) :
  s.Exclusive
  := by
  intro t u hne hmutates
  cases t with
  | none =>
    cases u with
    | none => apply absurd rfl hne
    | some j =>
      apply TablePc.access_of_hold
      rw [← h.held]
      apply h.removing
      apply CleanerPc.isRemoving_of_mutates hmutates
  | some i =>
    have hwrite : s.lock.held i = .write := by
      rw [h.held]
      apply TablePc.hold_of_mutates hmutates (h.present i)
    cases u with
    | none =>
      apply CleanerPc.access_of_not_running
      by_contra hrun
      rw [Bool.not_eq_false] at hrun
      apply h.running hrun i hwrite
    | some j =>
      apply TablePc.access_of_hold
      rw [← h.held]
      apply ReadWriteLock.held_eq_nothing hwrite
      rintro rfl
      apply hne rfl

/-- In every orderly run, no thread changes the table while another one uses it; so a client
is not removed while one of its methods is running. -/
theorem exclusive_of_orderly (h : (clientTable n).Reach Orderly s) :
  s.Exclusive ∧
    ∀ i pid m ms, s.threads i = .method pid m ms → ∀ alive, s.cleaner ≠ .remove alive pid
  := by
  have hdisc : s.Disciplined := by
    apply h.invariant
    · rintro s rfl
      exact ⟨fun _ => ReadWriteLock.held_free, nofun, nofun, nofun⟩
    · intro s a s' hs hg hstep
      apply hs.step hg hstep
  use hdisc.exclusive
  intro i pid m ms hmeth alive hremove
  have hnil := hdisc.exclusive none (some i) nofun (by rw [access, hremove]; rfl)
  rw [access, hmeth] at hnil
  cases hnil

/-- The mail program is registered, and announces its context while the cleaner looks at the
table. -/
def registerAndUpdate (alive : List Int) : List (Action 1) :=
  [.call 0 (.registerApplication 7 (some mailer)), .step 0 (.new mailer), .step 0 (.new mailer),
    .step 0 (.new mailer), .step 0 (.new mailer), .start alive, .clean,
    .call 0 (.domainChanged 7 true), .step 0 (.new mailer), .step 0 (.new mailer),
    .step 0 (.new mailer)]

/-- The process of the mail program is alive, so its client is only looked at. -/
theorem exclusive_of_orderly_registerAndUpdate :
  ∃ s, (clientTable 1).Reach Orderly s ∧
    s.threads 0 = .method 7 .updateState [.currentDomain] ∧ s.access none = .uses ∧ s.Exclusive
  := by
  have hst : (clientTable 1).Reach Orderly ⟨.free, ∅, fun _ => .idle, .idle⟩ := .init rfl
  obtain ⟨s, hrun, hmeth, huses⟩ : ∃ s,
    (clientTable 1).run ⟨.free, ∅, fun _ => .idle, .idle⟩ (registerAndUpdate [7]) = some s ∧
    s.threads 0 = .method 7 .updateState [.currentDomain] ∧ s.access none = .uses :=
    ⟨_, rfl, rfl, rfl⟩
  have hs := hst.run (registerAndUpdate [7]) (by decide) hrun
  exact ⟨s, hs, hmeth, huses, (exclusive_of_orderly hs).1⟩

/-- The process of the mail program has ended, and the cleaner is about to remove its client
while its `updateState` is in progress. -/
theorem removal_during_updateState :
  ∃ s, (clientTable 1).Reach anyStep s ∧
    s.threads 0 = .method 7 .updateState [.currentDomain] ∧ s.cleaner = .remove [] 7 ∧
    ¬ s.Exclusive
  := by
  have hst : (clientTable 1).Reach anyStep ⟨.free, ∅, fun _ => .idle, .idle⟩ := .init rfl
  obtain ⟨s, hrun, hmeth, hremove⟩ : ∃ s,
    (clientTable 1).run ⟨.free, ∅, fun _ => .idle, .idle⟩
      (registerAndUpdate [] ++ [.clean]) = some s ∧
    s.threads 0 = .method 7 .updateState [.currentDomain] ∧ s.cleaner = .remove [] 7 :=
    ⟨_, rfl, rfl, rfl⟩
  refine ⟨s, hst.run _ (by decide) hrun, hmeth, hremove, fun hexclusive => ?_⟩
  have hnil := hexclusive none (some 0) nofun (by rw [access, hremove]; rfl)
  rw [access, hmeth] at hnil
  cases hnil

/-! ### A run of the cleaner -/

/-- The clients whose processes are listed. -/
def survivors (alive : List Int) (clients : OrdMap Int ContextClient) :
    OrdMap Int ContextClient :=
  clients.filter fun pid _ => decide (pid ∈ alive)

/-- A step of the cleaner alone. -/
def Cleans (s s' : ClientTable n) : Prop := s.step .clean = some s'

/-- The next key of a list in order. -/
theorem find?_lt_of_pairwise (h : (before ++ pid :: after).Pairwise (· < ·)) :
  (before ++ pid :: after).find? (pid < ·) = after.head?
  := by
  obtain ⟨-, hafter, hbef⟩ := pairwise_append.mp h
  have hn : before.find? (pid < ·) = none := by
    rw [List.find?_eq_none]
    intro k hk
    have hlt := hbef k hk pid mem_cons_self
    simp only [decide_eq_true_eq, not_lt]
    omega
  rw [List.find?_append, hn, Option.none_or, List.find?_cons_of_neg (by simp)]
  cases after with
  | nil => rfl
  | cons k after =>
    apply List.find?_cons_of_pos
    simpa using rel_of_pairwise_cons hafter mem_cons_self

/-- The keys of the table are in order. -/
theorem pairwise_keys (clients : OrdMap Int ContextClient) :
  clients.keys.Pairwise (· < ·)
  := by
  apply (Std.ExtTreeMap.ordered_keys (t := clients)).imp
  intro a b hab
  apply Std.compare_eq_lt.mp hab

/-- A client that is alive is passed over. -/
theorem cleans_next (hcl : s.cleaner = .visit alive pid)
    (hkeys : s.clients.keys = before ++ pid :: after) (hpid : pid ∈ alive) :
  Cleans s { s with cleaner := match after.head? with
    | none => .idle
    | some next => .visit alive next }
  := by
  have hn : s.clients.keys.find? (pid < ·) = after.head? := by
    have hsort := pairwise_keys s.clients
    rw [hkeys] at hsort ⊢
    apply find?_lt_of_pairwise hsort
  unfold Cleans ClientTable.step
  simp only [hcl, ClientTable.cleanerStep, if_pos hpid, hn]
  cases after.head? <;> rfl

/-- A client that is not alive is removed next. -/
theorem condemned (hcl : s.cleaner = .visit alive pid)
    (hkeys : s.clients.keys = before ++ pid :: after) (hpid : pid ∉ alive) :
  ∃ dead ∈ s.clients, dead ∉ alive ∧
    Relation.ReflTransGen Cleans s { s with cleaner := .remove alive dead }
  := by
  refine ⟨pid, ?_, hpid, .single ?_⟩
  · rw [← Std.ExtTreeMap.mem_keys, hkeys]
    simp
  · unfold Cleans ClientTable.step
    simp only [hcl, ClientTable.cleanerStep, if_neg hpid]

/-- From the loop at a client, with the clients before it alive, the cleaner comes to the end
of a table of clients that are alive, or to one that is not. -/
theorem cleans_visit (hcl : s.cleaner = .visit alive pid)
    (hkeys : s.clients.keys = before ++ pid :: after) (halive : ∀ k ∈ before, k ∈ alive) :
  ((∀ k ∈ s.clients, k ∈ alive) ∧ Relation.ReflTransGen Cleans s { s with cleaner := .idle }) ∨
    ∃ dead ∈ s.clients, dead ∉ alive ∧
      Relation.ReflTransGen Cleans s { s with cleaner := .remove alive dead }
  := by
  induction after generalizing s before pid with
  | nil =>
    by_cases hpid : pid ∈ alive
    · left
      refine ⟨fun k hk => ?_, .single (cleans_next hcl hkeys hpid)⟩
      rw [← Std.ExtTreeMap.mem_keys, hkeys, mem_append, mem_singleton] at hk
      rcases hk with hk | rfl
      · apply halive k hk
      · apply hpid
    · right
      apply condemned hcl hkeys hpid
  | cons next after ih =>
    by_cases hpid : pid ∈ alive
    · have hbef : ∀ k ∈ before ++ [pid], k ∈ alive := by
        intro k hk
        rcases mem_append.mp hk with hk | hk
        · apply halive k hk
        · rw [mem_singleton.mp hk]
          apply hpid
      have hs : Cleans s { s with cleaner := .visit alive next } :=
        cleans_next hcl hkeys hpid
      have hr := ih (s := { s with cleaner := .visit alive next }) rfl
        (by rw [append_assoc]; exact hkeys) hbef
      rcases hr with ⟨hall, hrun⟩ | ⟨dead, hm, hdead, hrun⟩
      · left
        exact ⟨hall, .head hs hrun⟩
      · right
        exact ⟨dead, hm, hdead, .head hs hrun⟩
    · right
      apply condemned hcl hkeys hpid

theorem survivors_of_alive (h : ∀ k ∈ clients, k ∈ alive) :
  survivors alive clients = clients
  := by
  apply Std.ExtTreeMap.ext_getElem?
  intro k
  unfold survivors
  rw [OrdMap.getElem?_filter_key]
  by_cases hk : k ∈ alive
  · simp [hk]
  · have hm : k ∉ clients := fun hm => hk (h k hm)
    simp [hk, Std.ExtTreeMap.getElem?_eq_none hm]

theorem survivors_erase {dead : Int} (h : dead ∉ alive) :
  survivors alive (clients.erase dead) = survivors alive clients
  := by
  apply Std.ExtTreeMap.ext_getElem?
  intro k
  unfold survivors
  rw [OrdMap.getElem?_filter_key, OrdMap.getElem?_filter_key, Std.ExtTreeMap.getElem?_erase]
  by_cases hk : k ∈ alive
  · have hne : dead ≠ k := by
      rintro rfl
      apply h hk
    simp [hk, hne]
  · simp [hk]

/-- A run of the cleaner that nothing interrupts ends, and leaves the clients whose processes
it has listed. -/
theorem cleans_run {alive : List Int} (hcl : s.cleaner = .start alive) :
  Relation.ReflTransGen Cleans s
    { s with clients := survivors alive s.clients, cleaner := .idle }
  := by
  induction hs : s.clients.size using Nat.strong_induction_on generalizing s with
  | _ size ih =>
    cases hkeys : s.clients.keys with
    | nil =>
      have hemp : ∀ k ∈ s.clients, k ∈ alive := by
        intro k hk
        rw [← Std.ExtTreeMap.mem_keys, hkeys] at hk
        cases hk
      rw [survivors_of_alive hemp]
      apply Relation.ReflTransGen.single
      unfold Cleans ClientTable.step
      simp only [hcl, ClientTable.cleanerStep, hkeys]
    | cons pid after =>
      have hst : Cleans s { s with cleaner := .visit alive pid } := by
        unfold Cleans ClientTable.step
        simp only [hcl, ClientTable.cleanerStep, hkeys]
      apply Relation.ReflTransGen.head hst
      rcases cleans_visit (s := { s with cleaner := .visit alive pid }) rfl
        (hkeys.trans (nil_append _).symm) nofun with ⟨hall, hrun⟩ | ⟨dead, hm, hdead, hrun⟩
      · rw [survivors_of_alive hall]
        apply hrun
      · have hsmaller : (s.clients.erase dead).size < size := by
          have hpos : s.clients.size ≠ 0 := by
            rw [← Std.ExtTreeMap.length_keys, hkeys]
            simp
          rw [Std.ExtTreeMap.size_erase, if_pos (Std.ExtTreeMap.mem_iff_contains.mp hm)]
          omega
        have hr := ih _ hsmaller (s := ⟨s.lock, s.clients.erase dead, s.threads, .start alive⟩)
          rfl rfl
        rw [survivors_erase hdead] at hr
        apply hrun.trans
        apply Relation.ReflTransGen.head _ hr
        rfl

/-- Of two clients the one whose process is listed stays. -/
theorem cleans_run_twoClients :
  let clients := Std.ExtTreeMap.ofList [((7 : Int), ContextClient.new mailer), (9, .new mailer)]
  Relation.ReflTransGen (Cleans (n := 1)) ⟨.free, clients, fun _ => .idle, .start [9]⟩
    ⟨.free, survivors [9] clients, fun _ => .idle, .idle⟩
  := cleans_run rfl

end ClientTable

end Daemon

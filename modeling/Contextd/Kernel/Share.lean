import Contextd.Data.CString
import Contextd.Sync.Semaphore

/-!
# The state the audit module shares

`Kernel` is the state of the module `auditsec`: the three semaphores, the request record
`k_auditsec_info`, the answer cell, the registration of the daemon and the list of the monitored
programs, as `auditsec_init` leaves it (`auditsecInit`).

A hook fills the record one field at a time (`HookCall.writes`).  `AuditsecInfo.request` is what a
reader sees, without the members of the union that the stored type does not select.  Once the writes
are done the record holds the request of the hook (`request_foldl_writes`).
-/

namespace Kernel

def TASK_COMM_LEN : ℕ := 16
def PATH_MAX : ℕ := 4096
def NAME_MAX : ℕ := 255

def ENOMEM : Int := 12
def EACCES : Int := 13
def EFAULT : Int := 14

theorem neg_EFAULT_ne_zero :
  -EFAULT ≠ 0
  := by
  decide

/-- `sizeof(struct sockaddr_in)`. -/
def sizeofSockaddrIn : ℕ := 16

/-- `sizeof(struct sockaddr_in6)`. -/
def sizeofSockaddrIn6 : ℕ := 28

/-! ### The request record -/

/-- `enum auditsec_type`. -/
inductive AuditsecType where
  | file
  | socket
  | dir
  | msg
  deriving DecidableEq, Repr

/-- `enum socket_type`. -/
inductive SocketType where
  | ipv4
  | ipv6
  deriving DecidableEq, Repr

/-- `struct auditsec_file`. -/
structure AuditsecFile where
  name : List UInt8
  fullpath : List UInt8
  mask : Int
  deriving DecidableEq, Repr

/-- `struct auditsec_dir`. -/
structure AuditsecDir where
  name : List UInt8
  fullpath : List UInt8
  mode : Int
  deriving DecidableEq, Repr

/-- `struct auditsec_socket`, with the two members of its union side by side. -/
structure AuditsecSocket where
  type : SocketType
  addr4 : List UInt8
  addr6 : List UInt8
  deriving DecidableEq, Repr

/-- `struct auditsec_msg`: the bytes of the message header, and the size. -/
structure AuditsecMsg where
  msg : List UInt8
  size : Int
  deriving DecidableEq, Repr

/-- `struct auditsec_info`, with the members of its union side by side. -/
structure AuditsecInfo where
  pid : Int
  execname : List UInt8
  type : AuditsecType
  file : AuditsecFile
  socket : AuditsecSocket
  dir : AuditsecDir
  msg : AuditsecMsg
  deriving DecidableEq, Repr

/-- The record of zeros a static variable starts with. -/
def AuditsecInfo.zero : AuditsecInfo where
  pid := 0
  execname := []
  type := .file
  file := ⟨[], [], 0⟩
  socket := ⟨.ipv4, [], []⟩
  dir := ⟨[], [], 0⟩
  msg := ⟨[], 0⟩

/-- The member of the union that the type of a record selects. -/
inductive Payload where
  | file (file : AuditsecFile)
  | ipv4 (addr : List UInt8)
  | ipv6 (addr : List UInt8)
  | dir (dir : AuditsecDir)
  | msg (msg : AuditsecMsg)
  deriving DecidableEq, Repr

/-- What a record asks: who, under which name, and what. -/
structure Request where
  pid : Int
  execname : List UInt8
  payload : Payload
  deriving DecidableEq, Repr

/-- The payload of a record. -/
def AuditsecInfo.payload (i : AuditsecInfo) : Payload :=
  match i.type with
  | .file => .file i.file
  | .socket =>
      match i.socket.type with
      | .ipv4 => .ipv4 i.socket.addr4
      | .ipv6 => .ipv6 i.socket.addr6
  | .dir => .dir i.dir
  | .msg => .msg i.msg

/-- The request a record holds. -/
def AuditsecInfo.request (i : AuditsecInfo) : Request where
  pid := i.pid
  execname := i.execname
  payload := i.payload

/-- An assignment to one field of the record. -/
inductive Write where
  | pid (pid : Int)
  | execname (comm : List UInt8)
  | type (type : AuditsecType)
  | fileFullpath (fullpath : List UInt8)
  | fileName (name : List UInt8)
  | fileMask (mask : Int)
  | dirFullpath (fullpath : List UInt8)
  | dirName (name : List UInt8)
  | dirMode (mode : Int)
  | socketType (type : SocketType)
  | addr4 (addr : List UInt8)
  | addr6 (addr : List UInt8)
  | msgSize (size : Int)
  | msg (msg : List UInt8)
  deriving DecidableEq, Repr

/-- The record after an assignment. -/
def AuditsecInfo.write (i : AuditsecInfo) : Write → AuditsecInfo
  | .pid pid => { i with pid := pid }
  | .execname comm => { i with execname := strncpy TASK_COMM_LEN comm }
  | .type type => { i with type := type }
  | .fileFullpath fullpath =>
      { i with file := { i.file with fullpath := strncpy (PATH_MAX + 1) fullpath } }
  | .fileName name => { i with file := { i.file with name := strncpy (NAME_MAX + 1) name } }
  | .fileMask mask => { i with file := { i.file with mask := mask } }
  | .dirFullpath fullpath =>
      { i with dir := { i.dir with fullpath := strncpy (PATH_MAX + 1) fullpath } }
  | .dirName name => { i with dir := { i.dir with name := strncpy (NAME_MAX + 1) name } }
  | .dirMode mode => { i with dir := { i.dir with mode := mode } }
  | .socketType type => { i with socket := { i.socket with type := type } }
  | .addr4 addr => { i with socket := { i.socket with addr4 := addr.take sizeofSockaddrIn } }
  | .addr6 addr => { i with socket := { i.socket with addr6 := addr.take sizeofSockaddrIn6 } }
  | .msgSize size => { i with msg := { i.msg with size := size } }
  | .msg msg => { i with msg := { i.msg with msg := msg } }

/-! ### Calls of the hooks -/

/-- The task that runs a hook: its pid and its command name. -/
structure Task where
  pid : Int
  comm : List UInt8
  deriving DecidableEq, Repr

/-- The arguments of a hook.  `fullpath` is what `file_path` or `dir_path` stored in the
buffer of the hook, `inet` tells whether the socket is of the family `PF_INET`. -/
inductive HookArgs where
  | filePermission (fullpath name : List UInt8) (mask : Int)
  | inodeMkdir (fullpath name : List UInt8) (mode : Int)
  | socketBind (inet : Bool) (address : List UInt8)
  | socketSendmsg (msg : List UInt8) (size : Int)
  deriving DecidableEq, Repr

/-- The hooks that allocate a buffer for a path. -/
def HookArgs.allocates : HookArgs → Bool
  | .filePermission .. => true
  | .inodeMkdir .. => true
  | .socketBind .. => false
  | .socketSendmsg .. => false

/-- A call of a hook.  The serial number tells the calls apart; no step reads it. -/
structure HookCall where
  serial : ℕ
  current : Task
  args : HookArgs
  deriving DecidableEq, Repr

/-- The assignments a hook makes to the record, in its order. -/
def HookCall.writes (c : HookCall) : List Write :=
  match c.args with
  | .filePermission fullpath name mask =>
      [.execname c.current.comm, .pid c.current.pid, .type .file, .fileFullpath fullpath,
        .fileName name, .fileMask mask]
  | .inodeMkdir fullpath name mode =>
      [.pid c.current.pid, .execname c.current.comm, .type .dir, .dirFullpath fullpath,
        .dirName name, .dirMode mode]
  | .socketBind true address =>
      [.execname c.current.comm, .pid c.current.pid, .type .socket, .socketType .ipv4,
        .addr4 address]
  | .socketBind false address =>
      [.execname c.current.comm, .pid c.current.pid, .type .socket, .socketType .ipv6,
        .addr6 address]
  | .socketSendmsg msg size =>
      [.execname c.current.comm, .pid c.current.pid, .type .msg, .msgSize size, .msg msg]

/-- The payload of a call. -/
def HookCall.payload (c : HookCall) : Payload :=
  match c.args with
  | .filePermission fullpath name mask =>
      .file ⟨strncpy (NAME_MAX + 1) name, strncpy (PATH_MAX + 1) fullpath, mask⟩
  | .inodeMkdir fullpath name mode =>
      .dir ⟨strncpy (NAME_MAX + 1) name, strncpy (PATH_MAX + 1) fullpath, mode⟩
  | .socketBind true address => .ipv4 (address.take sizeofSockaddrIn)
  | .socketBind false address => .ipv6 (address.take sizeofSockaddrIn6)
  | .socketSendmsg msg size => .msg ⟨msg, size⟩

/-- The request of a call. -/
def HookCall.request (c : HookCall) : Request where
  pid := c.current.pid
  execname := strncpy TASK_COMM_LEN c.current.comm
  payload := c.payload

/-- Once a hook has made its assignments, the record holds its request. -/
theorem request_foldl_writes (c : HookCall) (i : AuditsecInfo) :
  (c.writes.foldl AuditsecInfo.write i).request = c.request
  := by
  obtain ⟨n, ⟨pid, comm⟩, args⟩ := c
  rcases args with _ | _ | ⟨_ | _, _⟩ | _ <;> rfl

/-- Every hook makes an assignment. -/
theorem HookCall.writes_ne_nil (c : HookCall) :
  c.writes ≠ []
  := by
  obtain ⟨n, current, args⟩ := c
  rcases args with _ | _ | ⟨_ | _, _⟩ | _ <;> simp [writes]

/-! ### The shared state -/

/-- The state of the module.  The tasks that wait on a semaphore are given by number. -/
structure State where
  hookLock : Semaphore ℕ
  questionLock : Semaphore ℕ
  answerLock : Semaphore ℕ
  info : AuditsecInfo
  answer : Int
  contextdPid : Int
  daemonLaunched : Bool
  progList : List (List UInt8)

/-- Who the daemon is and which programs are monitored: what the hooks and the calls of the
daemon read and never change. -/
def State.registration (k : State) : Int × Bool × List (List UInt8) :=
  (k.contextdPid, k.daemonLaunched, k.progList)

/-- `prog_is_monitored` for a task of the given command name. -/
def progIsMonitored (progList : List (List UInt8)) (comm : List UInt8) : Bool :=
  progList.any fun execname => strncmpEq TASK_COMM_LEN execname (strncpy TASK_COMM_LEN comm)

/-- `init_MUTEX`, followed by `down`. -/
def initDown : Semaphore ℕ := (Semaphore.ofCount 1).take.getD (Semaphore.ofCount 1)

/-- The state after `auditsec_init`. -/
def auditsecInit : State where
  hookLock := Semaphore.ofCount 1
  questionLock := initDown
  answerLock := initDown
  info := .zero
  answer := 1
  contextdPid := -1
  daemonLaunched := false
  progList := []

end Kernel

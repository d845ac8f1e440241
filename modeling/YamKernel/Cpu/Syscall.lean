import Mathlib.Data.List.Basic
import YamKernel.Lib.Memory
import YamKernel.Lib.Word

/-!
# System calls

`syscall_dispatch` and its handlers, as far as they store through pointers that user mode handed
over. Every such store is made in the kernel's own address space and is recorded in order, so
that a call can be judged by the addresses it touches.

A handler that takes no output pointer, and the parts of the kernel that the other handlers ask
(file system, scheduler, installer), are given by `Services`: any function of the state. Other
tasks may run while such a part is at work, so it may change the whole state.
-/

namespace YamKernel.Syscall

open Lib List

/-! ### C values -/

def toI32 (n : Nat) : Int := if u32 n < 2 ^ 31 then u32 n else (u32 n : Int) - 2 ^ 32

def toI64 (n : Nat) : Int := if u64 n < 2 ^ 63 then u64 n else (u64 n : Int) - 2 ^ 64

/-- A number in `w` bytes, the lowest first. -/
def le (w v : Nat) : List UInt8 := (range w).map fun i => UInt8.ofNat (v / 256 ^ i)

def leInt (w : Nat) (v : Int) : List UInt8 := le w (v % 256 ^ w).toNat

/-- A text in a zeroed array of `n` characters, as `strncpy` of `n - 1` characters leaves it. -/
def text (n : Nat) (s : List UInt8) : List UInt8 :=
  s.take (n - 1) ++ replicate (n - (s.take (n - 1)).length) 0

def ascii (s : String) : List UInt8 := s.toList.map fun c => UInt8.ofNat c.toNat

/-- A C object of `n` bytes that is copied as a whole. -/
abbrev Record (n : Nat) := { b : List UInt8 // b.length = n }

/-- `n` bytes at `a` as a number; addresses wrap. -/
def load (m : Mem) (a : Nat) : Nat → Nat
  | 0 => 0
  | n + 1 => (m (u64 a)).toNat + 256 * load m (a + 1) n

/-! ### State -/

structure Task where
  id : Nat
  parent : Option Nat
  ticks : Nat
  utime : Nat
  stime : Nat
  volSwitches : Nat
  involSwitches : Nat
  startTick : Nat
  rssPages : Nat
  nice : Int
  cpu : Nat
  cpuAffinity : Nat
  graphNode : Nat
  cwd : List UInt8
  signalPending : Nat
  sigMask : Nat
  sigHandlers : Nat → Nat
  exitCode : Option Int

structure Message where
  sender : Nat
  msgType : Nat
  length : Nat
  data : Record 256

structure Channel where
  nodeId : Nat
  endpointA : Nat
  endpointB : Nat
  aToB : List Message
  bToA : List Message
  active : Bool

inductive SurfaceState
  | free | active | hidden | minimized
  deriving DecidableEq

structure InputEvent where
  type : Nat
  code : Nat
  value : Int

structure WlSurface where
  id : Nat
  ownerTaskId : Nat
  state : SurfaceState
  events : List InputEvent

/-- The saved user registers that `syscall_exit` restores. -/
structure Slots where
  rip : Nat
  rsp : Nat
  rdi : Nat

/-- A store of the kernel through a pointer that came from user mode. -/
structure Store where
  addr : Nat
  bytes : List UInt8

/-- The addresses a store touches; the pointer wraps like the machine's. -/
def Store.Touches (st : Store) (a : Nat) : Prop := ∃ i < st.bytes.length, a = u64 (st.addr + i)

structure Kernel (σ : Type) where
  mem : Mem
  stores : List Store
  current : Task
  /-- Absent where one of the three pointers of the processor's record is null. -/
  slots : Option Slots
  clipboard : List UInt8
  channels : List Channel
  surfaces : List WlSurface
  apps : List (Option (Record 224))
  rest : σ

variable {σ : Type}

/-- `memcpy`, `memset` or an assignment through a user pointer. -/
def Kernel.store (k : Kernel σ) (a : Nat) (b : List UInt8) : Kernel σ :=
  { k with
    mem := fun x => b.getD (sub64 x a) (k.mem x)
    stores := k.stores ++ [⟨a, b⟩] }

/-- The state a part of the kernel without user pointers leaves behind. -/
def Kernel.await (k k' : Kernel σ) : Kernel σ := { k' with stores := k.stores }

/-! ### Objects handed out -/

structure YamStat where
  dev : Nat
  ino : Nat
  mode : Nat
  nlink : Nat
  uid : Nat
  gid : Nat
  rdev : Nat
  size : Int
  blksize : Int
  blocks : Int
  atime : Int
  mtime : Int
  ctime : Int

def YamStat.bytes (s : YamStat) : List UInt8 :=
  le 8 s.dev ++ le 8 s.ino ++ le 4 s.mode ++ le 4 s.nlink ++ le 4 s.uid ++ le 4 s.gid ++
    le 8 s.rdev ++ leInt 8 s.size ++ leInt 8 s.blksize ++ leInt 8 s.blocks ++ leInt 8 s.atime ++
    leInt 8 s.mtime ++ leInt 8 s.ctime

structure VfsDirent where
  name : List UInt8
  size : Nat
  isDir : Bool

/-- `yam_dirent_t`; four bytes of padding end it. -/
def VfsDirent.bytes (d : VfsDirent) : List UInt8 :=
  text 192 d.name ++ le 8 d.size ++ le 4 (if d.isDir then 1 else 0) ++ le 4 0

structure SchedInfo where
  detectedCpus : Nat
  schedulableCpus : Nat
  totalTasks : Nat
  readyTasks : Nat
  blockedTasks : Nat
  runningTasks : Nat
  totalSwitches : Nat
  ticks : Nat
  rqLoad : Fin 8 → Nat
  rqReady : Fin 8 → Nat
  lifetimeTasksCreated : Nat
  lifetimeProcessesForked : Nat
  lifetimeThreadsCreated : Nat
  lifetimeTasksReaped : Nat
  lifetimeTaskObjectsFreed : Nat
  lifetimeKernelStacksFreed : Nat
  lifetimeUserPml4sDestroyed : Nat
  lifetimeVmaListsDestroyed : Nat
  lifetimeFdTablesClosed : Nat
  lifetimeGraphNodesDestroyed : Nat
  lifetimeOrphansDetached : Nat
  lifetimeDetachedTasksReaped : Nat

def SchedInfo.bytes (s : SchedInfo) : List UInt8 :=
  le 4 s.detectedCpus ++ le 4 s.schedulableCpus ++ le 4 s.totalTasks ++ le 4 s.readyTasks ++
    le 4 s.blockedTasks ++ le 4 s.runningTasks ++ le 8 s.totalSwitches ++ le 8 s.ticks ++
    (ofFn fun i => le 8 (s.rqLoad i)).flatten ++
    (ofFn fun i => le 4 (s.rqReady i)).flatten ++
    le 8 s.lifetimeTasksCreated ++ le 8 s.lifetimeProcessesForked ++
    le 8 s.lifetimeThreadsCreated ++ le 8 s.lifetimeTasksReaped ++
    le 8 s.lifetimeTaskObjectsFreed ++ le 8 s.lifetimeKernelStacksFreed ++
    le 8 s.lifetimeUserPml4sDestroyed ++ le 8 s.lifetimeVmaListsDestroyed ++
    le 8 s.lifetimeFdTablesClosed ++ le 8 s.lifetimeGraphNodesDestroyed ++
    le 8 s.lifetimeOrphansDetached ++ le 8 s.lifetimeDetachedTasksReaped

def Task.rusage (t : Task) : List UInt8 :=
  le 8 t.id ++ le 8 (t.parent.getD 0) ++ le 8 t.ticks ++ le 8 t.utime ++ le 8 t.stime ++
    le 8 t.volSwitches ++ le 8 t.involSwitches ++ le 8 t.startTick ++ le 8 t.rssPages ++
    leInt 4 t.nice ++ le 4 t.cpu ++ le 8 t.cpuAffinity

/-- `yam_os_info_t`: ABI 1, 95 calls, 4096-byte pages, 64-bit pointers, flags 0 to 12. -/
def osInfo (cpuCount : Nat) : List UInt8 :=
  le 4 1 ++ le 4 95 ++ le 4 4096 ++ le 4 64 ++ le 4 cpuCount ++ le 4 0x1FFF ++
    text 32 (ascii "YamOS") ++ text 32 (ascii "YamKernel")

/-- `yam_sigaction_t`; `sa_flags` is followed by four bytes of padding. -/
def sigactionBytes (handler mask : Nat) : List UInt8 :=
  le 8 handler ++ le 8 mask ++ le 4 0 ++ le 4 0 ++ le 8 0

def Message.bytes (m : Message) : List UInt8 :=
  le 8 m.sender ++ le 4 m.msgType ++ le 4 m.length ++ m.data.1

def InputEvent.bytes (e : InputEvent) : List UInt8 := le 2 e.type ++ le 2 e.code ++ leInt 4 e.value

/-- The parts of the kernel behind the handlers. -/
structure Services (σ : Type) where
  sysStat : Kernel σ → List UInt8 → Option YamStat
  sysFstat : Kernel σ → Int → Option YamStat
  sysReaddir : Kernel σ → List UInt8 → Nat → Option VfsDirent
  /-- The path of an open descriptor that belongs to a mount. -/
  fdPath : Kernel σ → Int → Option (List UInt8)
  /-- What `sys_read` returns, and the bytes it puts at the start of its buffer. -/
  sysRead : Kernel σ → Int → Nat → (Int × List UInt8) × Kernel σ
  /-- The two descriptors of a new pipe. -/
  pipeFds : Kernel σ → Option (Int × Int) × Kernel σ
  /-- No open file, or whether its poll callback exists and returns a positive number. -/
  filePoll : Kernel σ → Int → Option Bool
  pitGetTicks : Kernel σ → Nat
  taskSleep : Kernel σ → Kernel σ
  /-- The task waited for, and its status. -/
  schedWaitpid : Kernel σ → Int → Nat → (Int × Int) × Kernel σ
  schedGetInfo : Kernel σ → SchedInfo
  smpCpuCount : Kernel σ → Nat
  installerStatus : Kernel σ → List UInt8 → (Int × Record 564) × Kernel σ
  installerRequest : Kernel σ → List UInt8 → (Int × Record 564) × Kernel σ
  /-- The handlers without an output pointer. -/
  other : Kernel σ → Nat → Nat → Nat → Nat → Nat → Nat → Int × Kernel σ

/-! ### Copies -/

def copyToUser (uout : Nat) (src : List UInt8) (k : Kernel σ) : Int × Kernel σ :=
  if uout = 0 ∨ src.length = 0 then (-1, k) else (0, k.store uout src)

/-- The text that `copy_user_string` leaves in a buffer of `cap` characters. -/
def copyUserString (m : Mem) (cap usrc : Nat) : List UInt8 :=
  if usrc = 0 then []
  else ((range (cap - 1)).map fun i => m (u64 (usrc + i))).takeWhile (· ≠ 0)

/-! ### Handlers -/

section Handlers

variable (sv : Services σ)

def sysGetrusage (uout : Nat) (k : Kernel σ) : Int × Kernel σ :=
  if uout = 0 then (-1, k) else (0, k.store uout k.current.rusage)

def sysSchedInfo (uout : Nat) (k : Kernel σ) : Int × Kernel σ :=
  if uout = 0 then (-1, k) else (0, k.store uout (sv.schedGetInfo k).bytes)

def sysClipboardSet (utext len : Nat) (k : Kernel σ) : Int × Kernel σ :=
  if utext = 0 then (-1, k)
  else
    let len := if 1024 ≤ len then 1023 else len
    (len, { k with clipboard := (range len).map fun i => k.mem (u64 (utext + i)) })

/-- How much of the clipboard a buffer of `cap` characters takes. -/
def Kernel.clipped (k : Kernel σ) (cap : Nat) : Nat :=
  if cap ≤ k.clipboard.length then cap - 1 else k.clipboard.length

def sysClipboardGet (uout cap : Nat) (k : Kernel σ) : Int × Kernel σ :=
  if uout = 0 ∨ cap = 0 then (-1, k)
  else
    let n := k.clipped cap
    (n, (k.store uout (k.clipboard.take n)).store (u64 (uout + n)) [0])

def copyInstallerStatusToUser (uout : Nat) (st : Record 564) (rc : Int) (k : Kernel σ) :
    Int × Kernel σ :=
  if uout = 0 then (-1, k) else (rc, k.store uout st.1)

def sysInstallerStatus (upackage uout : Nat) (k : Kernel σ) : Int × Kernel σ :=
  let r := sv.installerStatus k (copyUserString k.mem 32 upackage)
  copyInstallerStatusToUser uout r.1.2 r.1.1 (k.await r.2)

def sysInstallerRequest (upackage uout : Nat) (k : Kernel σ) : Int × Kernel σ :=
  let r := sv.installerRequest k (copyUserString k.mem 32 upackage)
  copyInstallerStatusToUser uout r.1.2 r.1.1 (k.await r.2)

def sysReaddirUser (upath index uout : Nat) (k : Kernel σ) : Int × Kernel σ :=
  let path := copyUserString k.mem 256 upath
  if path = [] ∨ uout = 0 then (-1, k)
  else match sv.sysReaddir k path index with
    | none => (-1, k)
    | some dent => copyToUser uout dent.bytes k

def sysStatUser (upath uout : Nat) (k : Kernel σ) : Int × Kernel σ :=
  let path := copyUserString k.mem 256 upath
  if path = [] ∨ uout = 0 then (-1, k)
  else match sv.sysStat k path with
    | none => (-1, k)
    | some st => copyToUser uout st.bytes k

def sysFstatUser (fd : Int) (uout : Nat) (k : Kernel σ) : Int × Kernel σ :=
  if uout = 0 then (-1, k)
  else match sv.sysFstat k fd with
    | none => (-1, k)
    | some st => copyToUser uout st.bytes k

/-- `resolve_at_path` into a buffer of 256 characters; -100 is `YAM_AT_FDCWD`. -/
def resolveAtPath (dirfd : Int) (upath : Nat) (k : Kernel σ) : Option (List UInt8) :=
  let path := copyUserString k.mem 256 upath
  if path = [] then none
  else if path.head? = some 47 ∨ dirfd = -100 then some path
  else match sv.fdPath k dirfd with
    | none => none
    | some dir => match sv.sysStat k dir with
      | none => none
      | some st =>
        if st.mode &&& 0o170000 ≠ 0o040000 then none
        else if dir = [47] then some ((47 :: path).take 255)
        else some ((dir ++ 47 :: path).take 255)

def sysFstatatUser (dirfd : Int) (upath uout : Nat) (k : Kernel σ) : Int × Kernel σ :=
  if uout = 0 then (-1, k)
  else match resolveAtPath sv dirfd upath k with
    | none => (-1, k)
    | some path => match sv.sysStat k path with
      | none => (-1, k)
      | some st => copyToUser uout st.bytes k

/-- The working directory as `sys_getcwd` reports it. -/
def Task.cwdText (t : Task) : List UInt8 := if t.cwd = [] then [47] else t.cwd

def sysGetcwdUser (uout size : Nat) (k : Kernel σ) : Int × Kernel σ :=
  let cwd := k.current.cwdText
  if 256 < cwd.length + 1 ∨ uout = 0 ∨ size = 0 then (-1, k)
  else if size < cwd.length + 1 then (-1, k)
  else
    let r := copyToUser uout (cwd ++ [0]) k
    (if r.1 = 0 then cwd.length else -1, r.2)

def sysWaitpidUser (pid : Int) (ustatus options : Nat) (k : Kernel σ) : Int × Kernel σ :=
  let r := sv.schedWaitpid k pid options
  let k' := k.await r.2
  if r.1.1 ≤ 0 then (r.1.1, k')
  else if ustatus = 0 then (r.1.1, k')
  else
    let c := copyToUser ustatus (leInt 4 r.1.2) k'
    (if c.1 < 0 then -1 else r.1.1, c.2)

def sysOsInfo (uout : Nat) (k : Kernel σ) : Int × Kernel σ :=
  copyToUser uout (osInfo (sv.smpCpuCount k)) k

def sysAppQuery (index uout : Nat) (k : Kernel σ) : Int × Kernel σ :=
  match (k.apps.filterMap id)[index]? with
  | none => (-2, k)
  | some record => copyToUser uout record.1 k

def sysRead (fd : Int) (buf count : Nat) (k : Kernel σ) : Int × Kernel σ :=
  let r := sv.sysRead k fd count
  (r.1.1, (k.await r.2).store buf r.1.2)

def sysPipe (fds : Nat) (k : Kernel σ) : Int × Kernel σ :=
  let r := sv.pipeFds k
  match r.1 with
  | none => (-1, k.await r.2)
  | some (rfd, wfd) =>
    (0, ((k.await r.2).store fds (leInt 4 rfd)).store (u64 (fds + 4)) (leInt 4 wfd))

/-- `channel_recv`: the oldest message for the receiver, and the channel without it. -/
def Channel.recv (c : Channel) (receiver : Nat) : Option (Message × Channel) :=
  if receiver = c.endpointB then
    match c.aToB with
    | [] => none
    | m :: ms => some (m, { c with aToB := ms })
  else if receiver = c.endpointA then
    match c.bToA with
    | [] => none
    | m :: ms => some (m, { c with bToA := ms })
  else none

/-- The message a receive takes, with the place of its channel and what is left of it. -/
def Kernel.message (k : Kernel σ) (nodeId : Nat) : Except Int (Message × Nat × Channel) :=
  match k.channels.findIdx? fun c => c.active ∧ c.nodeId = nodeId with
  | none => .error (-1)
  | some i => match k.channels[i]? with
    | none => .error (-1)
    | some c => match c.recv k.current.graphNode with
      | none => .error (-2)
      | some (m, c') => .ok (m, i, c')

def sysChannelRecv (nodeId uout : Nat) (k : Kernel σ) : Int × Kernel σ :=
  match k.message nodeId with
  | .error e => (e, k)
  | .ok (m, i, c) => (0, { k with channels := k.channels.set i c }.store uout m.bytes)

/-- The event a poll of a surface pops, with the place of the surface and what is left of it. -/
def Kernel.event (k : Kernel σ) (surfaceId : Nat) : Except Int (InputEvent × Nat × WlSurface) :=
  match k.surfaces.findIdx? fun s => s.state ≠ .free ∧ s.id = surfaceId with
  | none => .error (-1)
  | some i => match k.surfaces[i]? with
    | none => .error (-1)
    | some s =>
      if s.ownerTaskId ≠ k.current.id then .error (-1)
      else if s.state ≠ .active then .error 0
      else match s.events with
        | [] => .error 0
        | e :: es => .ok (e, i, { s with events := es })

def sysWlPollEvent (surfaceId uev : Nat) (k : Kernel σ) : Int × Kernel σ :=
  match k.event surfaceId with
  | .error e => (e, k)
  | .ok (e, i, s) => (1, { k with surfaces := k.surfaces.set i s }.store uev e.bytes)

/-! ### Polling -/

def pollIn : Nat := 0x001
def pollOut : Nat := 0x004
def pollErr : Nat := 0x008
def pollHup : Nat := 0x010
def pollNval : Nat := 0x020

/-- The loop of `sys_poll` around one pass over the descriptors. `fuel` bounds how often the
call sleeps; without a result it is still waiting. -/
def pollLoop {α : Type} (pass : Kernel σ → (Nat × α) × Kernel σ) (timeout : Int)
    (deadline : Nat) : Nat → Kernel σ → Option (Nat × α) × Kernel σ
  | fuel, k =>
    let r := pass k
    if 0 < r.1.1 then (some r.1, r.2)
    else if timeout = 0 then (some r.1, r.2)
    else if 0 < timeout ∧ deadline ≤ sv.pitGetTicks r.2 then (some r.1, r.2)
    else match fuel with
      | 0 => (none, r.2)
      | fuel + 1 => pollLoop pass timeout deadline fuel (r.2.await (sv.taskSleep r.2))

def pollDeadline (timeout : Int) (k : Kernel σ) : Nat :=
  if 0 < timeout then u64 (sv.pitGetTicks k + timeout.toNat) else 0

/-- The `revents` of entry `i` of an array of `pollfd_t`. -/
def reventsAddr (fds i : Nat) : Nat := u64 (fds + 8 * i + 6)

/-- `fds[i].revents |= flag` where the event was asked for -/
def orRevents (fds i flag : Nat) (k : Kernel σ) : Kernel σ :=
  if load k.mem (fds + 8 * i + 4) 2 &&& flag ≠ 0 then
    k.store (reventsAddr fds i) (le 2 (load k.mem (fds + 8 * i + 6) 2 ||| flag))
  else k

/-- One entry of a pass over descriptors in user memory: how many are ready. -/
def pollEntry (fds i : Nat) (k : Kernel σ) : Nat × Kernel σ :=
  let k := k.store (reventsAddr fds i) (le 2 0)
  let fd := toI32 (load k.mem (fds + 8 * i) 4)
  if fd < 0 then (0, k)
  else match sv.filePoll k fd with
    | none => (1, k.store (reventsAddr fds i) (le 2 pollNval))
    | some true => (1, orRevents fds i pollOut (orRevents fds i pollIn k))
    | some false => (0, k)

def pollPass (fds nfds : Nat) (k : Kernel σ) : (Nat × Unit) × Kernel σ :=
  let r := (range nfds).foldl
    (fun r i => let e := pollEntry sv fds i r.2; (r.1 + e.1, e.2)) (0, k)
  ((r.1, ()), r.2)

def sysPoll (fuel fds nfds : Nat) (timeout : Int) (k : Kernel σ) : Option Int × Kernel σ :=
  if fds = 0 ∨ nfds = 0 then (some (-1), k)
  else
    let r := pollLoop sv (pollPass sv fds nfds) timeout (pollDeadline sv timeout k) fuel k
    (r.1.map fun p => p.1, r.2)

/-- A `pollfd_t` of the kernel's own. -/
structure PollFd where
  fd : Nat
  events : Nat
  revents : Nat

def PollFd.poll (k : Kernel σ) (p : PollFd) : Nat × PollFd :=
  match sv.filePoll k p.fd with
  | none => (1, { p with revents := pollNval })
  | some true => (1, { p with revents := p.events &&& (pollIn ||| pollOut) })
  | some false => (0, { p with revents := 0 })

/-- A pass over the kernel's own descriptors, as `sys_select_user` makes it. -/
def selectPass (pfds : List PollFd) (k : Kernel σ) : (Nat × List PollFd) × Kernel σ :=
  (((pfds.map fun p => (p.poll sv k).1).sum, pfds.map fun p => (p.poll sv k).2), k)

/-- The set of descriptors at a user pointer; bit `fd` of its 128 bits stands for `fd`. -/
def fdSet (k : Kernel σ) (u : Nat) : Nat := if u = 0 then 0 else load k.mem u 16

def selectFds (nfds rfds wfds : Nat) : List PollFd :=
  (range nfds).filterMap fun i =>
    if rfds.testBit i || wfds.testBit i then
      some ⟨i, (if rfds.testBit i then pollIn else 0) |||
        (if wfds.testBit i then pollOut else 0), 0⟩
    else none

/-- `yfds_set` on a set in user memory -/
def yfdsSet (u : Nat) (k : Kernel σ) (fd : Nat) : Kernel σ :=
  k.store (u64 (u + fd / 64 * 8)) (le 8 (load k.mem (u + fd / 64 * 8) 8 ||| 2 ^ (fd % 64)))

/-- The set at a user pointer is cleared and gets the descriptors with one of the `events`. -/
def storeFds (u events : Nat) (pfds : List PollFd) (k : Kernel σ) : Kernel σ :=
  if u = 0 then k
  else ((pfds.filter fun p => p.revents &&& events ≠ 0).map PollFd.fd).foldl (yfdsSet u)
    (k.store u (replicate 16 0))

def sysSelectUser (fuel : Nat) (nfds : Int) (readfds writefds : Nat) (timeout : Int)
    (k : Kernel σ) : Option Int × Kernel σ :=
  if nfds ≤ 0 ∨ 128 < nfds then (some (-1), k)
  else
    let pfds := selectFds nfds.toNat (fdSet k readfds) (fdSet k writefds)
    if pfds = [] then (some 0, k)
    else
      let r := pollLoop sv (selectPass sv pfds) timeout (pollDeadline sv timeout k) fuel k
      match r.1 with
      | none => (none, r.2)
      | some (ready, pfds) =>
        (some ready, storeFds writefds pollOut pfds
          (storeFds readfds (pollIn ||| pollErr ||| pollHup) pfds r.2))

/-! ### Signals -/

def userRspPlausible (rsp : Nat) : Bool :=
  0x1000 ≤ rsp ∧ rsp % 8 = 0 ∧ rsp < 0x0000800000000000

/-- The loop of `deliver_pending_signals` over the signals still to look at. -/
def deliverSignals : List Nat → Slots → Kernel σ → Kernel σ
  | [], _, k => k
  | sig :: sigs, sl, k =>
    if ¬ k.current.signalPending.testBit sig then deliverSignals sigs sl k
    else if k.current.sigMask.testBit sig then deliverSignals sigs sl k
    else
      let t := { k.current with signalPending := k.current.signalPending ^^^ 2 ^ sig }
      if t.sigHandlers sig = 0 then
        -- the default action ends the task, except for SIGCHLD, SIGCONT and SIGWINCH
        let exitCode := if sig ≠ 17 ∧ sig ≠ 18 ∧ sig ≠ 20 then some (128 + sig : Int)
          else t.exitCode
        deliverSignals sigs sl { k with current := { t with exitCode := exitCode } }
      else
        let newRsp := sub64 sl.rsp 8
        if ¬ userRspPlausible newRsp then deliverSignals sigs sl { k with current := t }
        else
          let c := copyToUser newRsp (le 8 sl.rip) { k with current := t }
          if c.1 ≠ 0 then deliverSignals sigs sl c.2
          else { c.2 with slots := some ⟨t.sigHandlers sig, newRsp, sig⟩ }

def deliverPendingSignals (k : Kernel σ) : Kernel σ :=
  if k.current.signalPending = 0 then k
  else match k.slots with
    | none => k
    | some sl => deliverSignals (range' 1 31) sl k

/-- The signals that can be given a handler: not SIGKILL (9) and not SIGSTOP (17). -/
def catchable (signum : Int) : Bool := 1 ≤ signum ∧ signum < 32 ∧ signum ≠ 9 ∧ signum ≠ 17

def sysSigaction (signum : Int) (uact uoldact : Nat) (k : Kernel σ) : Int × Kernel σ :=
  if ¬ catchable signum then (-1, k)
  else
    let sig := signum.toNat
    let k := if uoldact = 0 then k
      else k.store uoldact (sigactionBytes (k.current.sigHandlers sig) k.current.sigMask)
    if uact = 0 then (0, k)
    else
      let handler := load k.mem uact 8
      (0, { k with
        current := { k.current with
          sigHandlers := Function.update k.current.sigHandlers sig
            (if handler ≤ 1 then 0 else handler) } })

def sysSigprocmask (how : Int) (uset uoldset : Nat) (k : Kernel σ) : Int × Kernel σ :=
  let k := if uoldset = 0 then k else k.store uoldset (le 8 k.current.sigMask)
  if uset = 0 then (0, k)
  else
    -- the mask without SIGKILL and SIGSTOP has type `unsigned`, so that the upper half goes too
    let set := load k.mem uset 8 &&& 0xFFFDFDFF
    let old := k.current.sigMask
    if how = 0 then (0, { k with current := { k.current with sigMask := old ||| set } })
    else if how = 1 then
      (0, { k with current := { k.current with sigMask := old ^^^ (old &&& set) } })
    else if how = 2 then (0, { k with current := { k.current with sigMask := set } })
    else (-1, k)

def sysSigreturn (k : Kernel σ) : Int × Kernel σ := (0, deliverPendingSignals k)

/-! ### Dispatch -/

/-- The calls that store through user pointers or never return, the other calls there are, and
the numbers without a call. -/
inductive Call
  | exit | read | pipe | poll | waitpid | getrusage | wlPollEvent | readdir | getcwd | schedInfo
  | channelRecv | clipboardSet | clipboardGet | installerStatus | installerRequest | osInfo
  | appQuery | stat | fstat | fstatat | threadExit | sigaction | sigprocmask | sigreturn | select
  | other | unknown

def Call.ofNr : Nat → Call
  | 2 => .exit
  | 8 => .read
  | 12 => .pipe
  | 13 => .poll
  | 15 => .waitpid
  | 19 => .getrusage
  | 23 => .wlPollEvent
  | 27 => .readdir
  | 29 => .getcwd
  | 47 => .schedInfo
  | 61 => .channelRecv
  | 63 => .clipboardSet
  | 64 => .clipboardGet
  | 65 => .installerStatus
  | 66 => .installerRequest
  | 67 => .osInfo
  | 69 => .appQuery
  | 78 => .stat
  | 79 => .fstat
  | 83 => .fstatat
  | 88 => .threadExit
  | 89 => .sigaction
  | 90 => .sigprocmask
  | 91 => .sigreturn
  | 92 => .select
  | nr =>
    if nr ∈ [1, 3, 4, 5, 6, 7, 9, 10, 11, 14, 16, 17, 18, 20, 21, 22, 24, 25, 26, 28, 30, 31, 33,
        34, 40, 41, 42, 43, 44, 45, 46, 50, 51, 52, 53, 54, 60, 62, 68, 70, 71, 72, 73, 74, 75,
        76, 77, 80, 81, 82, 84, 85, 86, 87, 93, 94]
    then .other else .unknown

def done (r : Int × Kernel σ) : Option Int × Kernel σ := (some r.1, r.2)

/-- The switch of `syscall_dispatch`, up to the handler's return. -/
def handle (fuel nr a1 a2 a3 a4 a5 : Nat) (k : Kernel σ) : Option Int × Kernel σ :=
  match Call.ofNr nr with
  | .exit => (none, k.await (sv.other k nr a1 a2 a3 a4 a5).2)
  | .read => done (sysRead sv (toI32 a1) a2 a3 k)
  | .pipe => done (sysPipe sv a1 k)
  | .poll => sysPoll sv fuel a1 (u32 a2) (toI64 a3) k
  | .waitpid => done (sysWaitpidUser sv (toI64 a1) a2 (u32 a3) k)
  | .getrusage => done (sysGetrusage a1 k)
  | .wlPollEvent => done (sysWlPollEvent (u32 a1) a2 k)
  | .readdir => done (sysReaddirUser sv a1 (u32 a2) a3 k)
  | .getcwd => done (sysGetcwdUser a1 a2 k)
  | .schedInfo => done (sysSchedInfo sv a1 k)
  | .channelRecv => done (sysChannelRecv (u32 a1) a2 k)
  | .clipboardSet => done (sysClipboardSet a1 (u32 a2) k)
  | .clipboardGet => done (sysClipboardGet a1 (u32 a2) k)
  | .installerStatus => done (sysInstallerStatus sv a1 a2 k)
  | .installerRequest => done (sysInstallerRequest sv a1 a2 k)
  | .osInfo => done (sysOsInfo sv a1 k)
  | .appQuery => done (sysAppQuery (u32 a1) a2 k)
  | .stat => done (sysStatUser sv a1 a2 k)
  | .fstat => done (sysFstatUser sv (toI32 a1) a2 k)
  | .fstatat => done (sysFstatatUser sv (toI32 a1) a2 a3 k)
  | .threadExit => (none, k.await (sv.other k nr a1 a2 a3 a4 a5).2)
  | .sigaction => done (sysSigaction (toI32 a1) a2 a3 k)
  | .sigprocmask => done (sysSigprocmask (toI32 a1) a2 a3 k)
  | .sigreturn => done (sysSigreturn k)
  | .select => sysSelectUser sv fuel (toI32 a1) a2 a3 (toI64 a4) k
  | .other =>
    let r := sv.other k nr a1 a2 a3 a4 a5
    (some r.1, k.await r.2)
  | .unknown => (some (-1), k)

/-- `syscall_dispatch`: no result where the handler does not return. -/
def syscallDispatch (fuel : Nat) (nr a1 a2 a3 a4 a5 : UInt64) (k : Kernel σ) :
    Option Int × Kernel σ :=
  let r := handle sv fuel nr.toNat a1.toNat a2.toNat a3.toNat a4.toNat a5.toNat k
  match r.1 with
  | none => r
  | some _ => (r.1, deliverPendingSignals r.2)

end Handlers

end YamKernel.Syscall

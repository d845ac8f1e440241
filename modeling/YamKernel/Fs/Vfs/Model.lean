import YamKernel.Fs.Fat32.Model
import YamKernel.Fs.Ramfs.Model

/-!
# The virtual file system

`fs/vfs.c`: the mount table, open files, descriptor tables and the system calls on them. An
open file holds an absolute path and an offset; every call through a descriptor looks the
path up again.

The file systems without storage of their own (the initial RAM disk, `/dev` and `/proc`) are
part of the environment. Open files with operations of their own (pipes, sockets) are left
out. `Ctx` holds what a call finds around it: the running task, the sizes `kmalloc` can
serve, and the fuel of the loops below. The outer `none` of a result says that the fuel was
not enough, the inner one is the result -1. `vfs_flush_block_mount` changes no contents and
returns 0, so it does not appear.
-/

namespace YamKernel.Vfs

open Lib Fat32 Ramfs

/-- The file systems that the model does not look into. -/
structure Env where
  initrdLookup : Name → Option (List UInt8)
  initrdIsDir : Name → Bool
  devfsExists : Name → Bool
  devfsRead : Name → (count offset : Nat) → Option (List UInt8)
  devfsWrite : Name → List UInt8 → Option Nat
  procfsRead : Name → (count : Nat) → Option (List UInt8)

/-- `type` and `priv` of a mount: the RAM file systems are numbered, and so are the block
devices. -/
inductive FsRef where
  | initrd
  | devfs
  | procfs
  | ramfs (i : Nat)
  | fat32 (vol : Vol) (dev : Nat)
  deriving DecidableEq

structure Mount where
  point : Name
  fs : FsRef
  active : Bool
  deriving DecidableEq

/-- `file_t`; standard streams belong to no mount. -/
structure File where
  path : Name
  offset : Nat
  flags : Nat
  refCount : Nat
  mountIdx : Option Nat
  deriving DecidableEq, Repr

/-- The open files are numbered in the order of their allocation. -/
structure State where
  mounts : List Mount
  ramfs : Nat → Ramfs.Fs
  disk : Nat → Mem
  files : List (Option File)
  fds : Nat → Nat → Option Nat
  cwd : Nat → Name

structure Ctx where
  task : Nat
  alloc : Nat → Bool
  fuel : Nat

def oCreat : Nat := 0x0040
def oExcl : Nat := 0x0080
def oTrunc : Nat := 0x0200
def oAppend : Nat := 0x0400

def hasFlag (flags flag : Nat) : Bool := flags &&& flag ≠ 0

/-! ## Mounts -/

/-- The mount point is a prefix of the path that ends at a component. -/
def Mount.Covers (m : Mount) (path : Name) : Prop :=
  m.active = true ∧ m.point <+: path ∧
    (m.point.length = 1 ∨ path[m.point.length]? = none ∨ path[m.point.length]? = some slash)

instance (m : Mount) (path : Name) : Decidable (m.Covers path) :=
  inferInstanceAs (Decidable (_ ∧ _))

/-- The loop of `vfs_find_mount`: the longest mount point so far and its index. -/
def bestMount (path : Name) : List Mount → Nat → Option Nat × Nat → Option Nat × Nat
  | [], _, best => best
  | m :: ms, i, (best, len) =>
    bestMount path ms (i + 1)
      (if m.Covers path ∧ m.point.length > len then (some i, m.point.length) else (best, len))

def vfsFindMount (s : State) (path : Name) : Option (Nat × Name) :=
  match bestMount path s.mounts 0 (none, 0) with
  | (none, _) => none
  | (some i, len) =>
    let p := path.drop len
    some (i, if p = [] then [slash] else if len = 1 then path else p)

/-- What the mount refers to; no mount is like one that no call knows. -/
def State.fsOf (s : State) (i : Nat) : Option FsRef := (s.mounts[i]?).map Mount.fs

/-- The parent of a path and its last component, in buffers of 128 bytes. -/
def pathParent (path : Name) : Name × Name :=
  if path.head? ≠ some slash then ([], [])
  else
    let k := ((path.tail.reverse.dropWhile (· ≠ slash)).length)
    if k = 0 then ([slash], (path.drop 1).take 127)
    else (path.take (min k 127), (path.drop (k + 1)).take 127)

/-- Another mount lies between the parent and the mount `m`. -/
def nestedChild (ms : List Mount) (parent : Name) (m : Mount) (i : Nat) : Bool :=
  ms.zipIdx.any fun (other, j) => i ≠ j && other.active &&
    (parent.length < other.point.length && parent.isPrefixOf other.point &&
      other.point[if parent.length = 1 then 1 else parent.length]? = some slash &&
      other.point.isPrefixOf m.point && m.point[other.point.length]? = some slash)

def mountHasChild (s : State) (parent : Name) : Bool :=
  s.mounts.zipIdx.any fun (m, i) => m.active && m.point ≠ [slash] &&
    (pathParent m.point).1 = parent && !nestedChild s.mounts parent m i

/-! ## Reading and writing through a mount -/

/-- The file system part of a state: what the calls on contents read and change. -/
def State.setDisk (s : State) (dev : Nat) (d : Mem) : State :=
  { s with disk := Function.update s.disk dev d }

def State.setRamfs (s : State) (i : Nat) (fs : Ramfs.Fs) : State :=
  { s with ramfs := Function.update s.ramfs i fs }

def vfsDoRead (env : Env) (c : Ctx) (s : State) (midx : Nat) (rel : Name) (count offset : Nat) :
    Option (Option (List UInt8)) :=
  match s.fsOf midx with
  | some .initrd => some ((env.initrdLookup rel).map fun data => (data.drop offset).take count)
  | some (.fat32 vol dev) =>
    if vol.mounted ∧ c.alloc (u64 (u64 (count + offset) + 4096)) then
      (fat32ReadFile c.fuel vol (s.disk dev) rel (u64 (count + offset))).map fun r =>
        r.map fun data => (data.drop offset).take count
    else some none
  | some .devfs => some (env.devfsRead rel count offset)
  | some .procfs => some (env.procfsRead rel count)
  | some (.ramfs i) => some (ramfsRead (s.ramfs i) rel count offset)
  | none => some none

def vfsDoWrite (env : Env) (c : Ctx) (s : State) (midx : Nat) (rel : Name) (buf : List UInt8) :
    Option (Option Nat × State) :=
  match s.fsOf midx with
  | some (.fat32 vol dev) =>
    if vol.mounted then
      (fat32WriteFile c.fuel vol (s.disk dev) rel buf).map fun (r, d) => (r, s.setDisk dev d)
    else some (none, s)
  | some .devfs => some (env.devfsWrite rel buf, s)
  | some (.ramfs i) =>
    (ramfsWrite c.fuel c.alloc (s.ramfs i) rel buf 0).map fun (r, fs) => (r, s.setRamfs i fs)
  | _ => some (none, s)

def procfsExists (path : Name) : Bool :=
  let p := if path.head? = some slash then path.tail else path
  p ∈ ["cpuinfo", "meminfo", "version", "uptime", "loadavg"].map fun n => n.toUTF8.toList

def vfsPathExistsForOpen (env : Env) (c : Ctx) (s : State) (midx : Nat) (rel : Name) :
    Option Bool :=
  match s.fsOf midx with
  | some .initrd => some ((env.initrdLookup rel).isSome || env.initrdIsDir rel)
  | some (.fat32 vol dev) =>
    if ¬ vol.mounted then some false
    else if rel = [] ∨ rel = [slash] then some true
    else (fat32Lookup c.fuel vol (s.disk dev) rel).map Option.isSome
  | some .devfs => some (env.devfsExists rel)
  | some .procfs => some (procfsExists rel)
  | some (.ramfs i) => some (ramfsFind (s.ramfs i) rel).isSome
  | none => some false

/-! ## Files and descriptors -/

def fdGet (c : Ctx) (s : State) (fd : Nat) : Option (Nat × File) :=
  if fd < 128 then
    (s.fds c.task fd).bind fun id => ((s.files[id]?).join).map fun f => (id, f)
  else none

def State.setFd (s : State) (task fd : Nat) (id : Option Nat) : State :=
  { s with fds := Function.update s.fds task (Function.update (s.fds task) fd id) }

def State.setFile (s : State) (id : Nat) (f : Option File) : State :=
  { s with files := s.files.set id f }

def fdAllocFrom (c : Ctx) (s : State) (id start : Nat) : Option Nat × State :=
  match (List.range' start (128 - start)).find? fun fd => (s.fds c.task fd).isNone with
  | some fd => (some fd, s.setFd c.task fd (some id))
  | none => (none, s)

def State.newFile (s : State) (f : File) : Nat × State :=
  (s.files.length, { s with files := s.files ++ [some f] })

def fileRelease (s : State) (id : Nat) : State :=
  match (s.files[id]?).join with
  | some f =>
    if f.refCount > 1 then s.setFile id (some { f with refCount := f.refCount - 1 })
    else s.setFile id none
  | none => s

def fileRetain (s : State) (id : Nat) : State :=
  match (s.files[id]?).join with
  | some f => s.setFile id (some { f with refCount := u32 (f.refCount + 1) })
  | none => s

def devConsole : Name := "/dev/console".toUTF8.toList

/-- The size in bytes of a `file_t`, as `kmalloc` is asked for it. -/
def sizeofFile : Nat := 312

def stdioFileCreate (c : Ctx) (s : State) (fd : Nat) : Option Nat × State :=
  if fd ≤ 2 ∧ c.alloc sizeofFile then
    let (id, s) := s.newFile ⟨devConsole, 0, if fd = 0 then 0 else 1, 1, none⟩
    (some id, s)
  else (none, s)

/-! ## System calls -/

def absPath (c : Ctx) (s : State) (pathname : Name) : Name :=
  vfsResolvePath (s.cwd c.task) pathname 256

/-- The last part of `sys_open`. -/
def openFile (c : Ctx) (s : State) (abs : Name) (midx flags : Nat) : Option Nat × State :=
  if c.alloc sizeofFile then
    let (id, s') := s.newFile ⟨abs.take 255, 0, flags, 1, some midx⟩
    match fdAllocFrom c s' id 0 with
    | (some fd, s') => (some fd, s')
    | (none, _) => (none, s)
  else (none, s)

/-- What `sys_open` does to the file system before it allocates a file. -/
def prepareOpen (c : Ctx) (s : State) (midx : Nat) (rel : Name) (existsAt create trunc : Bool) :
    Option (Bool × State) :=
  match s.fsOf midx with
  | some (.ramfs i) =>
    let (made, fs) := if create then
      let (r, fs) := ramfsCreate (s.ramfs i) rel false
      (r.isSome, fs) else (true, s.ramfs i)
    if ¬ made then some (false, s.setRamfs i fs)
    else if trunc then
      let (ok, fs) := ramfsTruncate fs rel
      some (ok, s.setRamfs i fs)
    else some (true, s.setRamfs i fs)
  | some (.fat32 vol dev) =>
    if (create ∨ trunc) then
      if ¬ vol.mounted then some (false, s)
      else if ¬ existsAt ∨ trunc then
        (fat32WriteFile c.fuel vol (s.disk dev) rel []).map fun (r, d) =>
          (r.isSome, s.setDisk dev d)
      else some (true, s)
    else some (true, s)
  | _ => some (existsAt, s)

def sysOpen (env : Env) (c : Ctx) (s : State) (pathname : Name) (flags : Nat) :
    Option (Option Nat × State) :=
  let abs := absPath c s pathname
  match vfsFindMount s abs with
  | none => some (none, s)
  | some (midx, rel) =>
    (vfsPathExistsForOpen env c s midx rel).bind fun existsAt =>
      let create := hasFlag flags oCreat
      if ¬ existsAt ∧ ¬ create then some (none, s)
      else if existsAt ∧ create ∧ hasFlag flags oExcl then some (none, s)
      else
        (prepareOpen c s midx rel existsAt create (hasFlag flags oTrunc)).map fun (ok, s) =>
          if ok then openFile c s abs midx flags else (none, s)

def sysUnlink (c : Ctx) (s : State) (pathname : Name) : Option (Bool × State) :=
  match vfsFindMount s (absPath c s pathname) with
  | none => some (false, s)
  | some (midx, rel) => match s.fsOf midx with
    | some (.ramfs i) =>
      let (ok, fs) := ramfsUnlink (s.ramfs i) rel
      some (ok, s.setRamfs i fs)
    | some (.fat32 vol dev) =>
      (fat32Unlink c.fuel vol (s.disk dev) rel).map fun (ok, d) => (ok, s.setDisk dev d)
    | _ => some (false, s)

/-- `sys_rename` on a FAT32 mount copies the file. The buffer gets the size that the failed
lookup of the new path left in `info`: that of the old file. -/
def renameFat32 (c : Ctx) (s : State) (vol : Vol) (dev : Nat) (old new : Name) :
    Option (Bool × State) :=
  (fat32Lookup c.fuel vol (s.disk dev) old).bind fun
    | none => some (false, s)
    | some info =>
      if info.isDir then some (false, s)
      else (fat32Lookup c.fuel vol (s.disk dev) new).bind fun
        | some _ => some (false, s)
        | none =>
          let cap := if info.fileSize ≠ 0 then info.fileSize else 1
          if ¬ c.alloc cap then some (false, s)
          else (fat32ReadFile c.fuel vol (s.disk dev) old cap).bind fun
            | none => some (false, s)
            | some data => (fat32WriteFile c.fuel vol (s.disk dev) new data).bind fun
              | (none, d) => some (false, s.setDisk dev d)
              | (some _, d) => (fat32Unlink c.fuel vol d old).map fun (ok, d) =>
                  (ok, s.setDisk dev d)

def sysRename (c : Ctx) (s : State) (oldpath newpath : Name) : Option (Bool × State) :=
  let oldAbs := absPath c s oldpath
  let newAbs := absPath c s newpath
  if oldAbs = [slash] ∨ newAbs = [slash] then some (false, s)
  else match vfsFindMount s oldAbs, vfsFindMount s newAbs with
    | some (oldMidx, oldRel), some (newMidx, newRel) =>
      if oldMidx ≠ newMidx then some (false, s)
      else match s.fsOf oldMidx with
        | some (.ramfs i) =>
          let (ok, fs) := ramfsRename (s.ramfs i) oldRel newRel
          some (ok, s.setRamfs i fs)
        | some (.fat32 vol dev) => renameFat32 c s vol dev oldRel newRel
        | _ => some (false, s)
    | _, _ => some (false, s)

def sysMkdir (c : Ctx) (s : State) (pathname : Name) : Option (Bool × State) :=
  match vfsFindMount s (absPath c s pathname) with
  | none => some (false, s)
  | some (midx, rel) => match s.fsOf midx with
    | some (.ramfs i) =>
      let (r, fs) := ramfsCreate (s.ramfs i) rel true
      some (r.isSome, s.setRamfs i fs)
    | some (.fat32 vol dev) =>
      if vol.mounted then
        (fat32Mkdir c.fuel vol (s.disk dev) rel).map fun (ok, d) => (ok, s.setDisk dev d)
      else some (false, s)
    | _ => some (false, s)

/-- The fields of `yam_stat_t` that differ between files. -/
structure Stat where
  mode : Nat
  size : Nat
  ino : Nat
  deriving DecidableEq, Repr

def sIfdir : Nat := 0o040000
def sIfchr : Nat := 0o020000
def sIfreg : Nat := 0o100000
def sIrusr : Nat := 0o400
def sIwusr : Nat := 0o200
def sIxusr : Nat := 0o100

def dirMode : Nat := sIfdir ||| sIrusr ||| sIwusr ||| sIxusr

def fileMode (isDir : Bool) : Nat :=
  (if isDir then sIfdir ||| sIxusr else sIfreg) ||| sIrusr ||| sIwusr

def sysStat (env : Env) (c : Ctx) (s : State) (pathname : Name) : Option (Option Stat) :=
  let abs := absPath c s pathname
  if abs = [slash] ∨ mountHasChild s abs then some (some ⟨dirMode, 0, 1⟩)
  else match s.mounts.findIdx? fun m => m.active && m.point = abs with
    | some i => some (some ⟨dirMode, 0, i + 2⟩)
    | none => match vfsFindMount s abs with
      | none => some none
      | some (midx, rel) => match s.fsOf midx with
        | some (.ramfs i) =>
          some ((ramfsFind (s.ramfs i) rel).bind fun k => ((s.ramfs i).nodes k).map fun n =>
            ⟨fileMode n.isDir, n.size, k + 1000⟩)
        | some (.fat32 vol dev) =>
          (fat32Lookup c.fuel vol (s.disk dev) rel).map fun r =>
            r.map fun info => ⟨fileMode info.isDir, info.fileSize, info.firstCluster⟩
        | some .initrd =>
          some (match env.initrdLookup rel with
            | some data => some ⟨sIfreg ||| sIrusr, data.length, 2000⟩
            | none => if env.initrdIsDir rel then some ⟨sIfdir ||| sIrusr ||| sIxusr, 0, 2001⟩
              else none)
        | some .devfs =>
          some (if env.devfsExists rel then some ⟨sIfchr ||| sIrusr ||| sIwusr, 0, 3000⟩ else none)
        | some .procfs =>
          some (if procfsExists rel then
            some ⟨sIfreg ||| sIrusr, ((env.procfsRead rel 768).getD []).length, 4000⟩ else none)
        | none => some none

def sysFstat (env : Env) (c : Ctx) (s : State) (fd : Nat) : Option (Option Stat) :=
  match fdGet c s fd with
  | none => some (if fd ≤ 2 then some ⟨sIfchr ||| sIrusr ||| sIwusr, 0, 3000 + fd⟩ else none)
  | some (_, f) =>
    if f.mountIdx.isNone then some (some ⟨sIfchr ||| sIrusr ||| sIwusr, 0, 5000 + fd⟩)
    else sysStat env c s f.path

/-- Contents of `size` bytes, zero where the old ones end; all of it is written again. -/
def truncateFat32 (env : Env) (c : Ctx) (s : State) (midx : Nat) (rel : Name) (size : Nat) :
    Option (Option Nat × State) :=
  if ¬ c.alloc (if size ≠ 0 then size else 1) then some (none, s)
  else
    (if size > 0 then vfsDoRead env c s midx rel size 0 else some none).bind fun old =>
      let old := old.getD []
      vfsDoWrite env c s midx rel (old ++ List.replicate (size - old.length) 0)

def sysFtruncate (env : Env) (c : Ctx) (s : State) (fd : Nat) (length : Int) :
    Option (Bool × State) :=
  if length < 0 then some (false, s)
  else match fdGet c s fd with
    | none => some (false, s)
    | some (id, f) =>
      if f.mountIdx.isNone then some (false, s)
      else match vfsFindMount s f.path with
        | none => some (false, s)
        | some (midx, rel) =>
          let size := length.toNat
          let clamp (s : State) : State :=
            if f.offset > size then s.setFile id (some { f with offset := size }) else s
          match s.fsOf midx with
          | some (.ramfs i) =>
            (ramfsResize c.fuel c.alloc (s.ramfs i) rel size).map fun (ok, fs) =>
              let s := s.setRamfs i fs
              (ok, if ok then clamp s else s)
          | some (.fat32 _ _) =>
            (truncateFat32 env c s midx rel size).map fun (r, s) =>
              (r.isSome, if r.isSome then clamp s else s)
          | _ => some (false, s)

def sysClose (c : Ctx) (s : State) (fd : Nat) : Bool × State :=
  match fdGet c s fd with
  | none => (false, s)
  | some (id, _) => (true, fileRelease (s.setFd c.task fd none) id)

/-- The file behind a descriptor, and whether it is a standard stream made just now. -/
def fdGetOrStdio (c : Ctx) (s : State) (fd : Nat) : Option (Nat × Bool) × State :=
  match fdGet c s fd with
  | some (id, _) => (some (id, false), s)
  | none => match stdioFileCreate c s fd with
    | (some id, s) => (some (id, true), s)
    | (none, s) => (none, s)

def sysDup (c : Ctx) (s : State) (fd : Nat) : Option Nat × State :=
  match fdGetOrStdio c s fd with
  | (none, _) => (none, s)
  | (some (id, created), s') => match fdAllocFrom c s' id (if fd ≤ 2 then 3 else 0) with
    | (none, _) => (none, s)
    | (some newfd, s') => (some newfd, if created then s' else fileRetain s' id)

def sysDup2 (c : Ctx) (s : State) (oldfd newfd : Nat) : Option Nat × State :=
  if newfd ≥ 128 then (none, s)
  else if oldfd = newfd then
    (if (fdGet c s oldfd).isSome ∨ oldfd ≤ 2 then some newfd else none, s)
  else match fdGetOrStdio c s oldfd with
    | (none, _) => (none, s)
    | (some (id, created), s') =>
      let s' := if (fdGet c s' newfd).isSome then (sysClose c s' newfd).2 else s'
      let s' := s'.setFd c.task newfd (some id)
      (some newfd, if created then s' else fileRetain s' id)

/-- The descriptors that `fork` copies, with `vfs_task_retain_fds`. -/
def forkFds (c : Ctx) (s : State) (child : Nat) : State :=
  let s := (List.range 128).foldl (fun s fd => match s.fds c.task fd with
    | some id => fileRetain s id
    | none => s) s
  { s with
    fds := Function.update s.fds child (s.fds c.task)
    cwd := Function.update s.cwd child (s.cwd c.task) }

def sysRead (env : Env) (c : Ctx) (s : State) (fd count : Nat) :
    Option (Option (List UInt8) × State) :=
  match fdGet c s fd with
  | none => some (none, s)
  | some (id, f) => match vfsFindMount s f.path with
    | none => some (none, s)
    | some (midx, rel) =>
      (vfsDoRead env c s midx rel count f.offset).map fun
        | none => (none, s)
        | some data =>
          (some data, s.setFile id (some { f with offset := u64 (f.offset + data.length) }))

/-- The FAT32 part of `sys_write`: the bytes before the offset are read, the new ones are
put behind them, and both become the whole file. -/
def writeFat32 (env : Env) (c : Ctx) (s : State) (midx : Nat) (rel : Name) (buf : List UInt8)
    (offset : Nat) : Option (Option Nat × State) :=
  let total := u64 (offset + buf.length)
  if ¬ c.alloc (if total ≠ 0 then total else 1) then some (none, s)
  else
    (if offset > 0 then vfsDoRead env c s midx rel offset 0 else some none).bind fun old =>
      let old := old.getD []
      let tmp := Mem.store (Mem.store (fun _ => 0) 0 old) offset buf
      vfsDoWrite env c s midx rel (tmp.load 0 total)

/-- The offset at which a write starts: with `O_APPEND` the size that `sys_stat` reports. -/
def writeOffset (env : Env) (c : Ctx) (s : State) (f : File) : Option Nat :=
  if hasFlag f.flags oAppend then
    (sysStat env c s f.path).map fun st => (st.map Stat.size).getD f.offset
  else some f.offset

def sysWrite (env : Env) (c : Ctx) (s : State) (fd : Nat) (buf : List UInt8) :
    Option (Option Nat × State) :=
  match fdGet c s fd with
  | none => some (if fd = 1 ∨ fd = 2 then some buf.length else none, s)
  | some (id, f) => match vfsFindMount s f.path with
    | none => some (none, s)
    | some (midx, rel) =>
      (writeOffset env c s f).bind fun offset =>
      let advance (n : Nat) (s : State) : State :=
        s.setFile id (some { f with offset := u64 (offset + n) })
      match s.fsOf midx with
      | some (.ramfs i) =>
        (ramfsWrite c.fuel c.alloc (s.ramfs i) rel buf offset).map fun (r, fs) =>
          (r, advance (r.getD 0) (s.setRamfs i fs))
      | some (.fat32 _ _) =>
        (writeFat32 env c s midx rel buf offset).map fun (r, s) =>
          (r.map fun _ => buf.length, advance (if r.isSome then buf.length else 0) s)
      | _ =>
        (vfsDoWrite env c s midx rel buf).map fun (r, s) => (r, advance (r.getD 0) s)

def toIsize (n : Nat) : Int := if n < 2 ^ 63 then n else n - 2 ^ 64

def seekBase (env : Env) (c : Ctx) (s : State) (fd : Nat) (f : File) :
    (whence : Nat) → Option (Option Int)
  | 0 => some (some 0)
  | 1 => some (some (toIsize f.offset))
  | 2 => (sysFstat env c s fd).map fun st => st.map fun st => (st.size : Int)
  | _ => some none

/-- The new offset. A sum outside of `isize` counts as negative. -/
def sysLseek (env : Env) (c : Ctx) (s : State) (fd : Nat) (offset : Int) (whence : Nat) :
    Option (Option Nat × State) :=
  match fdGet c s fd with
  | none => some (none, s)
  | some (id, f) =>
    (seekBase env c s fd f whence).map fun
      | none => (none, s)
      | some base =>
        let next := base + offset
        if next < 0 ∨ next ≥ 2 ^ 63 then (none, s)
        else (some next.toNat, s.setFile id (some { f with offset := next.toNat }))

end YamKernel.Vfs

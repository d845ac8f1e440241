import YamKernel.Lib.Loop
import YamKernel.Lib.Memory
import YamKernel.Lib.Word

/-!
# The FAT32 driver

`fs/fat32.c`, over the bytes of the block device. The driver reaches the device through
`bcache_read` and `bcache_write`, whose calls succeed here and act on an array of sectors.
Kernel allocations succeed too. Paths and names are byte strings without a terminator.

The `while` loops of the driver take a fuel; `none` says that it was not enough. Inside,
an `Option` is the result -1 (or false) of the source.
-/

namespace YamKernel.Fat32

open Lib List

/-! ## Volumes and sectors -/

/-- `fat32_vol_t` without the device. -/
structure Vol where
  startLba : Nat
  bytesPerSector : Nat
  sectorsPerCluster : Nat
  bytesPerCluster : Nat
  reservedSectors : Nat
  numFats : Nat
  fatSize : Nat
  rootCluster : Nat
  dataStart : Nat
  totalClusters : Nat
  mounted : Bool
  deriving DecidableEq, Repr

def fat32Eoc : Nat := 0x0FFFFFF8
def fat32Free : Nat := 0x00000000
def fat32Mask : Nat := 0x0FFFFFFF

/-- The sector size of the devices that the mounting code accepts. -/
def sectorSize : Nat := 512

/-- The contents of consecutive sectors; sector numbers wrap as `u64`. -/
def readSectors (d : Mem) (lba : Nat) : Mem := fun k =>
  d (u64 (lba + k / sectorSize) * sectorSize + k % sectorSize)

def writeSectors (d : Mem) (lba count : Nat) (buf : Mem) : Mem := fun x =>
  let k := sub64 (x / sectorSize) lba
  if k < count then buf (k * sectorSize + x % sectorSize) else d x

/-! ## Clusters and the file allocation table -/

def clusterToSector (v : Vol) (cluster : Nat) : Nat :=
  u32 (v.dataStart + sub32 cluster 2 * v.sectorsPerCluster)

/-- `cluster_read`, if a sector of the volume has the 512 bytes of a block of the device. In a
larger buffer the code reads bytes that the device never filled, and those are not modelled; the
same holds of `fatEntry`. -/
def clusterRead (v : Vol) (d : Mem) (cluster : Nat) : Mem :=
  readSectors d (v.startLba + clusterToSector v cluster)

def clusterWrite (v : Vol) (d : Mem) (cluster : Nat) (buf : Mem) : Mem :=
  writeSectors d (v.startLba + clusterToSector v cluster) v.sectorsPerCluster buf

def fatSector (v : Vol) (cluster : Nat) : Nat :=
  u32 (v.reservedSectors + u32 (cluster * 4) / v.bytesPerSector)

def fatOffset (v : Vol) (cluster : Nat) : Nat := u32 (cluster * 4) % v.bytesPerSector

def fatEntry (v : Vol) (d : Mem) (cluster : Nat) : Nat :=
  (readSectors d (v.startLba + fatSector v cluster)).read (fatOffset v cluster) 4 &&& fat32Mask

def setFatWord (d : Mem) (lba offset value : Nat) : Mem :=
  let buf := readSectors d lba
  writeSectors d lba 1
    (buf.write offset 4 ((buf.read offset 4 &&& 0xF0000000) ||| (value &&& fat32Mask)))

def fatSetEntry (v : Vol) (d : Mem) (cluster value : Nat) : Mem :=
  let d := setFatWord d (v.startLba + fatSector v cluster) (fatOffset v cluster) value
  if v.numFats ≥ 2 then
    setFatWord d (v.startLba + fatSector v cluster + v.fatSize) (fatOffset v cluster) value
  else d

def allocCluster (v : Vol) (d : Mem) : Nat × Mem :=
  match (range' 2 (u32 (v.totalClusters + 2) - 2)).find? fun c =>
      fatEntry v d c = fat32Free with
  | some c => (c, clusterWrite v (fatSetEntry v d c fat32Eoc) c fun _ => 0)
  | none => (0, d)

def chainExtend (v : Vol) (d : Mem) (last : Nat) : Nat × Mem :=
  let (c, d) := allocCluster v d
  if c ≠ 0 then (c, fatSetEntry v d last c) else (0, d)

def InChain (cluster : Nat) : Prop := cluster < fat32Eoc ∧ 2 ≤ cluster

instance (cluster : Nat) : Decidable (InChain cluster) := inferInstanceAs (Decidable (_ ∧ _))

def freeBody (v : Vol) : Nat × Mem → (Nat × Mem) ⊕ Mem
  | (cluster, d) =>
    if InChain cluster then .inl (fatEntry v d cluster, fatSetEntry v d cluster fat32Free)
    else .inr d

def freeChain (fuel : Nat) (v : Vol) (d : Mem) (cluster : Nat) : Option Mem :=
  loop (freeBody v) fuel (cluster, d)

/-! ## Directory entries -/

def fatAttrVolumeId : Nat := 0x08
def fatAttrDirectory : UInt8 := 0x10
def fatAttrArchive : UInt8 := 0x20
def fatAttrLfn : UInt8 := 0x0F

/-- The fields of `fat32_dirent_t` that the driver reads; the two halves of the first
cluster are joined. -/
structure Dirent where
  name : List UInt8
  attr : UInt8
  cluster : Nat
  size : Nat
  deriving DecidableEq, Repr

def Dirent.isDir (de : Dirent) : Bool := de.attr &&& fatAttrDirectory ≠ 0

def direntAt (base : Mem) (off : Nat) : Dirent where
  name := base.load off 11
  attr := base (off + 11)
  cluster := base.read (off + 20) 2 * 65536 + base.read (off + 26) 2
  size := base.read (off + 28) 4

def setDirentCluster (base : Mem) (off cluster : Nat) : Mem :=
  (base.write (off + 26) 2 (cluster % 65536)).write (off + 20) 2 (cluster / 65536)

def lower (c : UInt8) : UInt8 := if 65 ≤ c ∧ c ≤ 90 then c + 32 else c

def upper (c : UInt8) : UInt8 := if 97 ≤ c ∧ c ≤ 122 then c - 32 else c

def space : UInt8 := 32
def dot : UInt8 := 46
def slash : UInt8 := 47

/-- The display name; the base ends at the first blank, and so does the extension. -/
def direntToName (name : List UInt8) : List UInt8 :=
  let base := ((name.take 8).takeWhile (· ≠ space)).map lower
  let ext := (((name.drop 8).take 3).takeWhile (· ≠ space)).map lower
  if ext = [] then base else base ++ dot :: ext

def pad (n : Nat) (s : List UInt8) : List UInt8 := s ++ replicate (n - s.length) space

def nameTo83 (name : List UInt8) : List UInt8 :=
  let base := (name.takeWhile (· ≠ dot)).take 8
  let rest := name.drop base.length
  let ext := if rest.head? = some dot then rest.tail.take 3 else []
  pad 8 (base.map upper) ++ pad 3 (ext.map upper)

/-- The two comparisons of `find_in_dir`; the second one is on C strings. -/
def Dirent.Matches (de : Dirent) (name : List UInt8) : Prop :=
  de.name = nameTo83 name ∨ (direntToName de.name).takeWhile (· ≠ 0) = name.map lower

instance (de : Dirent) (name : List UInt8) : Decidable (de.Matches name) :=
  inferInstanceAs (Decidable (_ ∨ _))

def Dirent.mark (de : Dirent) : UInt8 := de.name.headD 0

def Dirent.skipped (de : Dirent) : Bool := de.mark = 0xE5 ∨ de.attr = fatAttrLfn

def entriesPerCluster (v : Vol) : Nat := v.bytesPerCluster / 32

/-- What the loop over the entries of one cluster found. -/
inductive Scan where
  | stop
  | found (de : Dirent) (off : Nat)
  | next
  deriving DecidableEq, Repr

def scanEntries (base : Mem) (name : List UInt8) : List Nat → Scan
  | [] => .next
  | i :: is =>
    let de := direntAt base (i * 32)
    if de.mark = 0 then .stop
    else if de.skipped then scanEntries base name is
    else if de.Matches name then .found de (i * 32)
    else scanEntries base name is

structure Found where
  dirent : Dirent
  cluster : Nat
  off : Nat
  deriving DecidableEq, Repr

def findBody (v : Vol) (d : Mem) (name : List UInt8) (cluster : Nat) : Nat ⊕ Option Found :=
  if InChain cluster then
    match scanEntries (clusterRead v d cluster) name (range (entriesPerCluster v)) with
    | .stop => .inr none
    | .found de off => .inr (some ⟨de, cluster, off⟩)
    | .next => .inl (fatEntry v d cluster)
  else .inr none

def findInDir (fuel : Nat) (v : Vol) (d : Mem) (dirCluster : Nat) (name : List UInt8) :
    Option (Option Found) :=
  loop (findBody v d name) fuel dirCluster

/-! ## Paths -/

/-- The components of a path. A component of more than 127 bytes is taken apart. -/
def pathParts : Nat → List UInt8 → List (List UInt8)
  | 0, _ => []
  | _ + 1, [] => []
  | n + 1, p =>
    let comp := (p.takeWhile (· ≠ slash)).take 127
    let rest := p.drop comp.length
    let rest := if rest.head? = some slash then rest.tail else rest
    if comp = [] then pathParts n rest else comp :: pathParts n rest

def rootDirent (v : Vol) : Dirent := ⟨replicate 11 0, fatAttrDirectory, v.rootCluster, 0⟩

def resolveParts (fuel : Nat) (v : Vol) (d : Mem) : List (List UInt8) → Dirent →
    Option (Option Dirent)
  | [], de => some (some de)
  | comp :: comps, de =>
    (findInDir fuel v d de.cluster comp).bind fun
      | none => some none
      | some f => resolveParts fuel v d comps f.dirent

def resolvePath (fuel : Nat) (v : Vol) (d : Mem) (path : List UInt8) : Option (Option Dirent) :=
  match path with
  | [] => some none
  | c :: p =>
    if c = slash then resolveParts fuel v d (pathParts p.length p) (rootDirent v) else some none

def lastSlash (path : List UInt8) : Nat :=
  (path.reverse.dropWhile (· ≠ slash)).length - 1

/-- The parent's path and the last component. A parent's path of `limit` bytes or more is
cut to `limit - 1` bytes. The last component is cut to 127 bytes. -/
def splitPath (limit : Nat) (path : List UInt8) : List UInt8 × List UInt8 :=
  let k := lastSlash path
  if k = 0 then ([slash], (path.drop 1).take 127)
  else (path.take (if k ≥ limit then limit - 1 else k), (path.drop (k + 1)).take 127)

/-! ## The interface -/

structure FileInfo where
  firstCluster : Nat
  fileSize : Nat
  isDir : Bool
  name : List UInt8
  deriving DecidableEq, Repr

def fat32Lookup (fuel : Nat) (v : Vol) (d : Mem) (path : List UInt8) : Option (Option FileInfo) :=
  if v.mounted then
    (resolvePath fuel v d path).map fun r =>
      r.map fun de => ⟨de.cluster, de.size, de.isDir, path.take 255⟩
  else some none

/-- One iteration of `fat32_read_file`: the cluster, what remains, what was copied. -/
def readBody (v : Vol) (d : Mem) (bufSize : Nat) :
    Nat × Nat × List UInt8 → (Nat × Nat × List UInt8) ⊕ List UInt8
  | (cluster, remaining, copied) =>
    if InChain cluster ∧ remaining > 0 then
      let cnt := min v.bytesPerCluster remaining
      let cnt := if copied.length + cnt > bufSize then bufSize - copied.length else cnt
      .inl (fatEntry v d cluster, remaining - cnt,
        copied ++ (clusterRead v d cluster).load 0 cnt)
    else .inr copied

/-- The bytes copied into a buffer of `bufSize` bytes. -/
def fat32ReadFile (fuel : Nat) (v : Vol) (d : Mem) (path : List UInt8) (bufSize : Nat) :
    Option (Option (List UInt8)) :=
  if v.mounted then
    (resolvePath fuel v d path).bind fun
      | none => some none
      | some de =>
        if de.isDir then some none
        else (loop (readBody v d bufSize) fuel (de.cluster, de.size, [])).map some
  else some none

/-- The state of the loop that stores the data of a file. -/
structure Writing where
  disk : Mem
  src : List UInt8
  first : Nat
  prev : Nat

/-- One cluster of the data; `none` for a full volume. -/
def writeBody (v : Vol) (w : Writing) : Writing ⊕ (Option Nat × Mem) :=
  if w.src = [] then .inr (some w.first, w.disk)
  else
    let (c, d) := allocCluster v w.disk
    if c = 0 then .inr (none, d)
    else
      let d := if w.prev ≠ 0 then fatSetEntry v d w.prev c else d
      let cnt := min v.bytesPerCluster w.src.length
      let d := clusterWrite v d c ((clusterRead v d c).store 0 (w.src.take cnt))
      .inl ⟨d, w.src.drop cnt, if w.first = 0 then c else w.first, c⟩

/-- Store the data in new clusters: the first one (0 without data), or `none`. -/
def writeData (fuel : Nat) (v : Vol) (d : Mem) (data : List UInt8) : Option (Option Nat × Mem) :=
  loop (writeBody v) fuel ⟨d, data, 0, 0⟩

def freeSlot (v : Vol) (base : Mem) : Option Nat :=
  (range (entriesPerCluster v)).find? fun i => base (i * 32) = 0 ∨ base (i * 32) = 0xE5

def fileEntry (base : Mem) (off : Nat) (name83 : List UInt8) (first size : Nat) : Mem :=
  ((setDirentCluster ((base.store off name83).store (off + 11) [fatAttrArchive]) off first).write
    (off + 28) 4 size)

/-- Enter a file into the directory; a full directory is extended. -/
def addBody (v : Vol) (name83 : List UInt8) (first size : Nat) :
    Nat × Mem → (Nat × Mem) ⊕ (Bool × Mem)
  | (c, d) =>
    if InChain c then
      let base := clusterRead v d c
      match freeSlot v base with
      | some i => .inr (true, clusterWrite v d c (fileEntry base (i * 32) name83 first size))
      | none =>
        let nx := fatEntry v d c
        if nx ≥ fat32Eoc then
          let (nx, d) := chainExtend v d c
          if nx = 0 then .inr (false, d) else .inl (nx, d)
        else .inl (nx, d)
    else .inr (true, d)

def addEntry (fuel : Nat) (v : Vol) (d : Mem) (dirCluster : Nat) (name83 : List UInt8)
    (first size : Nat) : Option (Bool × Mem) :=
  loop (addBody v name83 first size) fuel (dirCluster, d)

def updateEntry (v : Vol) (d : Mem) (f : Found) (first size : Nat) : Mem :=
  let cbuf := setDirentCluster (clusterRead v d f.cluster) f.off first
  clusterWrite v d f.cluster (cbuf.write (f.off + 28) 4 size)

def fat32WriteFile (fuel : Nat) (v : Vol) (d : Mem) (path data : List UInt8) :
    Option (Option Nat × Mem) :=
  if v.mounted then
    let (parentPath, fname) := splitPath 255 path
    (resolvePath fuel v d parentPath).bind fun
      | none => some (none, d)
      | some parent =>
        (findInDir fuel v d parent.cluster fname).bind fun found =>
          (match found with
            | some f => freeChain fuel v d f.dirent.cluster
            | none => some d).bind fun d =>
          (writeData fuel v d data).bind fun
            | (none, d) => some (none, d)
            | (some first, d) =>
              match found with
              | some f => some (some data.length, updateEntry v d f first data.length)
              | none =>
                (addEntry fuel v d parent.cluster (nameTo83 fname) first data.length).map
                  fun r : Bool × Mem => (if r.1 then some data.length else none, r.2)
  else some (none, d)

def fat32Unlink (fuel : Nat) (v : Vol) (d : Mem) (path : List UInt8) : Option (Bool × Mem) :=
  if v.mounted ∧ path ≠ [slash] then
    let (parentPath, fname) := splitPath 256 path
    if fname = [] then some (false, d)
    else
      (resolvePath fuel v d parentPath).bind fun
        | none => some (false, d)
        | some parent =>
          (findInDir fuel v d parent.cluster fname).bind fun
            | none => some (false, d)
            | some f =>
              if f.dirent.isDir then some (false, d)
              else
                (freeChain fuel v d f.dirent.cluster).map fun d =>
                  (true, clusterWrite v d f.cluster
                    ((clusterRead v d f.cluster).store f.off [0xE5]))
  else some (false, d)

/-- The first two entries of a new directory; their other fields are blanks. -/
def dotEntries (base : Mem) (newCluster parentCluster : Nat) : Mem :=
  let base := base.fill 0 64 space
  let base := setDirentCluster (base.store 0 [dot] |>.store 11 [fatAttrDirectory]) 0 newCluster
  setDirentCluster (base.store 32 [dot, dot] |>.store 43 [fatAttrDirectory]) 32 parentCluster

/-- Enter a directory into its parent, which is not extended. The size of the slot's
last owner stays. -/
def mkdirBody (v : Vol) (d : Mem) (name83 : List UInt8) (newCluster : Nat) (c : Nat) :
    Nat ⊕ (Bool × Mem) :=
  if InChain c then
    let base := clusterRead v d c
    match freeSlot v base with
    | some i =>
      .inr (true, clusterWrite v d c (setDirentCluster
        ((base.store (i * 32) name83).store (i * 32 + 11) [fatAttrDirectory]) (i * 32) newCluster))
    | none => .inl (fatEntry v d c)
  else .inr (false, d)

def fat32Mkdir (fuel : Nat) (v : Vol) (d : Mem) (path : List UInt8) : Option (Bool × Mem) :=
  if v.mounted then
    let (parentPath, dname) := splitPath 255 path
    (resolvePath fuel v d parentPath).bind fun
      | none => some (false, d)
      | some parent =>
        let (newCluster, d) := allocCluster v d
        if newCluster = 0 then some (false, d)
        else
          let d := clusterWrite v d newCluster
            (dotEntries (clusterRead v d newCluster) newCluster parent.cluster)
          loop (mkdirBody v d (nameTo83 dname) newCluster) fuel parent.cluster
  else some (false, d)

end YamKernel.Fat32

import YamKernel.Lib.Machine
import YamKernel.Lib.Word

/-!
# The block cache

`fs/bcache.c`: 256 pages of 4096 bytes, each holding consecutive sectors of some device,
replaced by least recent use and written back when evicted or flushed.

The cache moves whole sectors, so the contents of a sector are an arbitrary type `σ`;
`δ` is the type of pointers to devices. The driver's callbacks are part of the
environment: `Env.ok n` says whether the `n`-th device operation of a run succeeds. An
operation that fails changes no sector.
-/

namespace YamKernel.Bcache

open Lib List

def bcachePageSize : Nat := 4096
def bcacheMaxPages : Nat := 256

/-- The fields of `block_device_t` the cache looks at; the flags say whether the
callbacks are set. -/
structure Device where
  sectorSize : Nat
  hasRead : Bool
  hasWrite : Bool
  deriving DecidableEq, Repr

structure Env (δ : Type*) where
  device : δ → Device
  ok : Nat → Bool

/-- `bcache_entry_t`, with the data as sectors. -/
structure Entry (δ σ : Type*) where
  dev : Option δ
  pageLba : Nat
  sectors : Nat
  lastUse : Nat
  dirty : Bool
  data : Nat → σ

/-- The cache, the contents of the devices, and how many device operations were issued and
how many of them failed. -/
structure State (δ σ : Type*) where
  cache : Nat → Entry δ σ
  ticks : Nat
  disk : δ → Nat → σ
  io : Nat
  failed : Nat

variable {δ σ : Type*} [DecidableEq δ]

def bcacheInit (zero : σ) (disk : δ → Nat → σ) : State δ σ where
  cache _ := ⟨none, 0, 0, 0, false, fun _ => zero⟩
  ticks := 0
  disk
  io := 0
  failed := 0

def State.setEntry (s : State δ σ) (i : Nat) (e : Entry δ σ) : State δ σ :=
  { s with cache := Function.update s.cache i e }

/-! ## Device operations -/

/-- `dev->read`: the sectors, or `none` for a negative result. A device without the
callback cannot be read. -/
def devRead (env : Env δ) (s : State δ σ) (d : δ) (lba : Nat) : Option (Nat → σ) × State δ σ :=
  if (env.device d).hasRead ∧ env.ok s.io then
    (some fun k => s.disk d (lba + k), { s with io := s.io + 1 })
  else (none, { s with io := s.io + 1, failed := s.failed + 1 })

/-- `dev->write`; the cache ignores the result. -/
def devWrite (env : Env δ) (s : State δ σ) (d : δ) (lba count : Nat) (data : Nat → σ) :
    State δ σ :=
  if env.ok s.io then
    { s with
      io := s.io + 1
      disk := Function.update s.disk d fun a =>
        if lba ≤ a ∧ a < lba + count then data (a - lba) else s.disk d a }
  else { s with io := s.io + 1, failed := s.failed + 1 }

/-! ## Entries -/

def bcacheFind (s : State δ σ) (d : δ) (pageLba : Nat) : Option Nat × State δ σ :=
  match (range bcacheMaxPages).find? fun i =>
      (s.cache i).dev = some d ∧ (s.cache i).pageLba = pageLba with
  | some i =>
    let ticks := u64 (s.ticks + 1)
    (some i, { s.setEntry i { s.cache i with lastUse := ticks } with ticks })
  | none => (none, s)

/-- `if (e->dev->write) e->dev->write(...); e->dirty = false`, in `bcache_evict` and
`bcache_flush`. -/
def writeBack (env : Env δ) (s : State δ σ) (i : Nat) (d : δ) : State δ σ :=
  let e := s.cache i
  let s := if (env.device d).hasWrite then devWrite env s d e.pageLba e.sectors e.data else s
  s.setEntry i { e with dirty := false }

def bcacheEvict (env : Env δ) (s : State δ σ) (i : Nat) : State δ σ :=
  let s := match (s.cache i).dev with
    | some d => if (s.cache i).dirty then writeBack env s i d else s
    | none => s
  s.setEntry i { s.cache i with dev := none }

/-- The loop of `bcache_alloc`: a free slot, or else the slot used least recently. -/
def allocScan (cache : Nat → Entry δ σ) : List Nat → Nat → Nat → Nat ⊕ Nat
  | [], oldestIdx, _ => .inr oldestIdx
  | i :: is, oldestIdx, oldestTime =>
    if (cache i).dev.isNone then .inl i
    else if (cache i).lastUse < oldestTime then allocScan cache is i (cache i).lastUse
    else allocScan cache is oldestIdx oldestTime

def claimEntry (s : State δ σ) (i : Nat) (d : δ) (pageLba sectors : Nat) : State δ σ :=
  let ticks := u64 (s.ticks + 1)
  { s.setEntry i { s.cache i with
      dev := some d, pageLba, sectors, lastUse := ticks, dirty := false } with ticks }

def bcacheAlloc (env : Env δ) (s : State δ σ) (d : δ) (pageLba sectors : Nat) : Nat × State δ σ :=
  match allocScan s.cache (range bcacheMaxPages) 0 (2 ^ 64 - 1) with
  | .inl i => (i, claimEntry s i d pageLba sectors)
  | .inr i => (i, claimEntry (bcacheEvict env s i) i d pageLba sectors)

/-- Find the page or make room for it; on a miss the page is read from the device if
`fetch` is set. `none` when that read fails. -/
def getPage (env : Env δ) (s : State δ σ) (d : δ) (pageLba spp : Nat) (fetch : Bool) :
    Option Nat × State δ σ :=
  match bcacheFind s d pageLba with
  | (some i, s) => (some i, s)
  | (none, s) =>
    let (i, s) := bcacheAlloc env s d pageLba spp
    if fetch then
      match devRead env s d pageLba with
      | (some data, s) => (some i, s.setEntry i { s.cache i with
          data := fun k => if k < spp then data k else (s.cache i).data k })
      | (none, s) => (none, s.setEntry i { s.cache i with dev := none })
    else (some i, s)

/-! ## The interface -/

def sectorsPerPage (dev : Device) : Nat :=
  if bcachePageSize / dev.sectorSize = 0 then 1 else bcachePageSize / dev.sectorSize

/-- The loop of `bcache_read`. Each iteration takes at least one sector, so `remaining`
iterations are enough. -/
def readLoop (env : Env δ) (d : δ) (spp : Nat) :
    Nat → State δ σ → (lba remaining : Nat) → Option (List σ) × State δ σ
  | 0, s, _, _ => (some [], s)
  | fuel + 1, s, lba, remaining =>
    if remaining = 0 then (some [], s)
    else
      let pageLba := lba / spp * spp
      let offset := lba - pageLba
      let chunk := min (spp - offset) remaining
      match getPage env s d pageLba spp true with
      | (none, s) => (none, s)
      | (some i, s) =>
        let out := (range chunk).map fun k => (s.cache i).data (offset + k)
        let (rest, s) := readLoop env d spp fuel s (u64 (lba + chunk)) (remaining - chunk)
        (rest.map (out ++ ·), s)

/-- `memcpy` of the sectors `buf` into the page at `offset`, and the dirty mark. -/
def fillEntry (e : Entry δ σ) (offset : Nat) (buf : List σ) : Entry δ σ :=
  { e with
    dirty := true
    data := fun k => if offset ≤ k then (buf[k - offset]?).getD (e.data k) else e.data k }

def writeLoop (env : Env δ) (d : δ) (spp : Nat) :
    Nat → State δ σ → (lba : Nat) → List σ → Option Unit × State δ σ
  | 0, s, _, _ => (some (), s)
  | fuel + 1, s, lba, buf =>
    if buf.length = 0 then (some (), s)
    else
      let pageLba := lba / spp * spp
      let offset := lba - pageLba
      let chunk := min (spp - offset) buf.length
      match getPage env s d pageLba spp (chunk < spp) with
      | (none, s) => (none, s)
      | (some i, s) =>
        let s := s.setEntry i (fillEntry (s.cache i) offset (buf.take chunk))
        writeLoop env d spp fuel s (u64 (lba + chunk)) (buf.drop chunk)

/-- The sectors read, or `none` for the result -1. -/
def bcacheRead (env : Env δ) (s : State δ σ) (dev : Option δ) (lba count : Nat) :
    Option (List σ) × State δ σ :=
  match dev with
  | none => (none, s)
  | some d =>
    if (env.device d).hasRead then
      readLoop env d (sectorsPerPage (env.device d)) count s (u64 lba) count
    else (none, s)

def bcacheWrite (env : Env δ) (s : State δ σ) (dev : Option δ) (lba : Nat) (buf : List σ) :
    Option Unit × State δ σ :=
  match dev with
  | none => (none, s)
  | some d =>
    if (env.device d).hasWrite then
      writeLoop env d (sectorsPerPage (env.device d)) buf.length s (u64 lba) buf
    else (none, s)

def flushEntry (env : Env δ) (dev : Option δ) (s : State δ σ) (i : Nat) : State δ σ :=
  match (s.cache i).dev with
  | some d => if (dev = none ∨ dev = some d) ∧ (s.cache i).dirty then writeBack env s i d else s
  | none => s

def bcacheFlush (env : Env δ) (s : State δ σ) (dev : Option δ) : State δ σ :=
  (range bcacheMaxPages).foldl (flushEntry env dev) s

/-- A call into the cache; a write brings the sectors it writes. -/
inductive Op (δ σ : Type*) where
  | read (dev : Option δ) (lba count : Nat)
  | write (dev : Option δ) (lba : Nat) (buf : List σ)
  | flush (dev : Option δ)

/-- What a call returns: the sectors of a read, `none` for an error. -/
def step (env : Env δ) : Machine (State δ σ) (Op δ σ) (Option (List σ))
  | s, .read dev lba count => bcacheRead env s dev lba count
  | s, .write dev lba buf =>
    let (r, s) := bcacheWrite env s dev lba buf
    (r.map fun _ => [], s)
  | s, .flush dev => (some [], bcacheFlush env s dev)

end YamKernel.Bcache

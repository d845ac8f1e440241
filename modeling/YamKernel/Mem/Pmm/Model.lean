import YamKernel.Lib.Word

/-!
# The physical memory manager

`mem/pmm.c`: usable memory is a forest of cells in a pool of 16384. A request takes
the first free cell that is large enough, cuts it into four equal children as long
as a child still suffices, and marks the last one used. Freeing a cell merges four
free siblings back into their parent. A page descriptor for each frame below 4 GB
carries a reference count.

The state is the set of static variables of the file. Spinlocks, log output and the
pressure callbacks (which only log) leave no trace in it. A `while` loop of the
source is a recursion on fuel that is enough for every state the source can reach;
`findFreeCellZone_fuel`, `Holding.splitDown_fuel` and `Freed.tryMerge` show it for the
walks over cells.
-/

namespace YamKernel.Pmm

open Lib Function

def pageSize : Nat := 4096
def cellPoolSize : Nat := 16384
def maxPhysPages : Nat := 1024 * 1024

/-- The index `0xFFFF`, "no cell". -/
def noCell : Nat := 0xFFFF

inductive CellState where
  | free | split | used | reserved
  deriving DecidableEq, Repr

structure Cell where
  base : Nat
  size : Nat
  state : CellState
  owner : Nat
  parent : Nat
  children : Fin 4 → Nat

/-- `mem_zone_type_t`. -/
inductive Zone where
  | dma | dma32 | normal
  deriving DecidableEq, Repr

def zoneDmaLimit : Nat := 0x1000000
def zoneDma32Limit : Nat := 0x100000000

structure Watermark where
  min : Nat
  low : Nat
  high : Nat
  deriving DecidableEq, Repr

structure MemZone where
  start : Nat
  limit : Nat
  totalPages : Nat
  freePages : Nat
  allocCount : Nat
  watermark : Watermark
  deriving DecidableEq, Repr

def pageFlagReserved : Nat := 1

/-- `page_t`, without the LRU links, which no function of the file follows. -/
structure Page where
  refcount : Nat
  flags : Nat
  zone : Zone
  order : Nat
  owner : Nat
  deriving DecidableEq, Repr

structure State where
  cells : Nat → Cell
  cellCount : Nat
  totalMem : Nat
  freeMem : Nat
  lastUsedCell : Nat
  zones : Zone → MemZone
  pageArray : Nat → Page
  maxPfn : Nat

def physToPfn (phys : Nat) : Nat := phys / pageSize

def physToZone (phys : Nat) : Zone :=
  if phys < zoneDmaLimit then .dma
  else if phys < zoneDma32Limit then .dma32
  else .normal

/-! ## The cell pool -/

def State.setCell (s : State) (i : Nat) (c : Cell) : State :=
  { s with cells := update s.cells i c }

def cellAllocNode (s : State) : Nat × State :=
  if cellPoolSize ≤ s.cellCount then (noCell, s)
  else
    let idx := s.cellCount
    (idx, { s with
      cellCount := idx + 1
      cells := update s.cells idx
        { s.cells idx with children := fun _ => noCell, parent := noCell, owner := 0 } })

/-- The body of the loop in `cell_split` after a node was obtained. -/
def linkChild (s : State) (idx childSize child : Nat) (i : Fin 4) : State :=
  let c := s.cells idx
  let s := s.setCell child { s.cells child with
    base := u64 (c.base + i * childSize), size := childSize, state := .free, parent := idx }
  s.setCell idx { s.cells idx with children := update (s.cells idx).children i child }

/-- The loop of `cell_split`. When the pool runs out it returns with the children made
so far linked and the cell itself still free. -/
def splitLoop (idx childSize : Nat) : List (Fin 4) → State → Bool × State
  | [], s => (true, s)
  | i :: is, s =>
    let (child, s) := cellAllocNode s
    if child = noCell then (false, s)
    else splitLoop idx childSize is (linkChild s idx childSize child i)

def cellSplit (s : State) (idx : Nat) : Bool × State :=
  if (s.cells idx).state ≠ .free then (false, s)
  else if (s.cells idx).size < pageSize * 4 then (false, s)
  else
    match splitLoop idx ((s.cells idx).size / 4) [0, 1, 2, 3] s with
    | (false, s) => (false, s)
    | (true, s) => (true, s.setCell idx { s.cells idx with state := .split })

/-- The second loop of `cell_try_merge`: the children become RESERVED, for good. -/
def reserveChildren (p : Nat) : List (Fin 4) → State → State
  | [], s => s
  | i :: is, s =>
    let k := (s.cells p).children i
    let s := s.setCell k { s.cells k with state := .reserved }
    reserveChildren p is
      (s.setCell p { s.cells p with children := update (s.cells p).children i noCell })

def cellTryMerge : Nat → State → Nat → State
  | 0, s, _ => s
  | fuel + 1, s, idx =>
    let p := (s.cells idx).parent
    if p = noCell then s
    else if (s.cells p).state ≠ .split then s
    else if ∀ i, (s.cells p).children i ≠ noCell ∧
        (s.cells ((s.cells p).children i)).state = .free then
      let s := reserveChildren p [0, 1, 2, 3] s
      let s := s.setCell p { s.cells p with state := .free }
      cellTryMerge fuel s p
    else s

/-- What a round of `cellTryMerge` does to a node with four free children. -/
def mergeAt (s : State) (p : Nat) : State :=
  let s := reserveChildren p [0, 1, 2, 3] s
  s.setCell p { s.cells p with state := .free }

/-! ## Allocation -/

def zoneLimit : Zone → Nat
  | .dma => zoneDmaLimit
  | .dma32 => zoneDma32Limit
  | .normal => 2 ^ 64 - 1

/-- Depth-first search for a free cell of at least `minSize` bytes. -/
def findFreeCellZone : Nat → State → Nat → Nat → Zone → Bool → Nat
  | 0, _, _, _, _, _ => noCell
  | fuel + 1, s, idx, minSize, zone, strict =>
    let c := s.cells idx
    match c.state with
    | .free =>
      if minSize ≤ c.size then
        if strict ∧ zoneLimit zone < u64 (c.base + minSize) then noCell else idx
      else noCell
    | .split =>
      ([0, 1, 2, 3].findSome? fun i : Fin 4 =>
        if c.children i ≠ noCell then
          let result := findFreeCellZone fuel s (c.children i) minSize zone strict
          if result ≠ noCell then some result else none
        else none).getD noCell
    | .used => noCell
    | .reserved => noCell

/-- The search loop of `pmm_alloc_pages_internal`: the first root, starting from the one
used last, below which a suitable cell is found, with that cell. -/
def scanRoots (s : State) (req : Nat) (zone : Zone) (strict : Bool) : Option (Nat × Nat) :=
  (List.range s.cellCount).findSome? fun i =>
    let idx := (s.lastUsedCell + i) % s.cellCount
    if (s.cells idx).parent ≠ noCell then none
    else
      let found := findFreeCellZone cellPoolSize s idx req zone strict
      if found = noCell then none else some (idx, found)

/-- `while (cells[found].size / 4 >= req_size && ...)`. -/
def splitDown : Nat → State → Nat → Nat → Nat × State
  | 0, s, found, _ => (found, s)
  | fuel + 1, s, found, req =>
    if req ≤ (s.cells found).size / 4 ∧ pageSize * 4 ≤ (s.cells found).size then
      match cellSplit s found with
      | (false, s) => (found, s)
      | (true, s) => splitDown fuel s ((s.cells found).children 0) req
    else (found, s)

/-- Update the descriptors of the `n` pages from `pfn` on that have one. -/
def updatePages (pages : Nat → Page) (pfn n : Nat) (f : Page → Page) : Nat → Page := fun k =>
  if pfn ≤ k ∧ k < pfn + n ∧ k < maxPhysPages then f (pages k) else pages k

/-- Everything `pmm_alloc_pages_internal` does to the cell it has settled on. -/
def takeCell (s : State) (idx found : Nat) : State :=
  let c := s.cells found
  let z := physToZone c.base
  let pages := c.size / pageSize
  { s with
    cells := update s.cells found { c with state := .used }
    freeMem := sub64 s.freeMem c.size
    lastUsedCell := idx
    zones := update s.zones z { s.zones z with
      freePages := sub64 (s.zones z).freePages pages
      allocCount := u64 ((s.zones z).allocCount + 1) }
    pageArray := updatePages s.pageArray (physToPfn c.base) pages fun p =>
      { p with refcount := 1, flags := p.flags / 2 * 2, order := 0 } }

/-- One locked pass of `pmm_alloc_pages_internal`. -/
def allocPass (s : State) (count : Nat) (zone : Zone) (strict : Bool) : Nat × State :=
  let req := u64 (count * pageSize)
  match scanRoots s req zone strict with
  | none => (0, s)
  | some (idx, found) =>
    let (found, s) := splitDown cellPoolSize s found req
    ((s.cells found).base, takeCell s idx found)

def pmmAllocPagesInternal (s : State) (count : Nat) (zone : Zone) (strict : Bool) : Nat × State :=
  let (result, s) := allocPass s count zone strict
  if result = 0 ∧ strict then allocPass s count zone false else (result, s)

def pmmAllocPage (s : State) : Nat × State := pmmAllocPagesInternal s 1 .normal false

def pmmAllocPages (s : State) (count : Nat) : Nat × State :=
  pmmAllocPagesInternal s count .normal false

def pmmAllocPagesZone (s : State) (count : Nat) (zone : Zone) : Nat × State :=
  pmmAllocPagesInternal s count zone true

/-! ## Freeing and reference counts -/

def findUsed (s : State) (addr : Nat) : Option Nat :=
  (List.range s.cellCount).find? fun i =>
    (s.cells i).base = addr ∧ (s.cells i).state = .used

/-- The part of `pmm_free_pages` that gives the cell back, before the merge. -/
def releaseCell (s : State) (i : Nat) : State :=
  let c := s.cells i
  let z := physToZone c.base
  let pages := c.size / pageSize
  { s with
    cells := update s.cells i { c with state := .free, owner := 0 }
    freeMem := u64 (s.freeMem + c.size)
    zones := update s.zones z { s.zones z with
      freePages := u64 ((s.zones z).freePages + pages) }
    pageArray := updatePages s.pageArray (physToPfn c.base) pages fun p =>
      { p with refcount := 0, flags := 0, owner := 0 } }

def State.setRefcount (s : State) (pfn n : Nat) : State :=
  { s with pageArray := update s.pageArray pfn { s.pageArray pfn with refcount := n } }

/-- `pmm_free_pages`; the source ignores its `count` argument. -/
def pmmFreePages (s : State) (addr _count : Nat) : State :=
  match findUsed s addr with
  | none => s
  | some i =>
    let pfn := physToPfn addr
    if pfn < maxPhysPages ∧ 1 < (s.pageArray pfn).refcount then
      s.setRefcount pfn ((s.pageArray pfn).refcount - 1)
    else cellTryMerge cellPoolSize (releaseCell s i) i

def pmmFreePage (s : State) (addr : Nat) : State := pmmFreePages s addr 1

def pmmPageRef (s : State) (addr : Nat) : State :=
  let pfn := physToPfn addr
  if maxPhysPages ≤ pfn then s
  else s.setRefcount pfn (u32 ((s.pageArray pfn).refcount + 1))

def pmmPageUnref (s : State) (addr : Nat) : Bool × State :=
  let pfn := physToPfn addr
  if maxPhysPages ≤ pfn then (false, s)
  else
    let n := sub32 (s.pageArray pfn).refcount 1
    let s := s.setRefcount pfn n
    if n = 0 then (true, pmmFreePage s addr) else (false, s)

def pmmPageRefcount (s : State) (addr : Nat) : Nat :=
  let pfn := physToPfn addr
  if maxPhysPages ≤ pfn then 0 else (s.pageArray pfn).refcount

/-! ## Memory pressure -/

def pmmIsLowMemory (s : State) : Bool :=
  [Zone.dma, .dma32, .normal].any fun z =>
    0 < (s.zones z).totalPages ∧ (s.zones z).freePages ≤ (s.zones z).watermark.low

def pmmIsOom (s : State) : Bool :=
  [Zone.dma, .dma32, .normal].all fun z =>
    ¬ (0 < (s.zones z).totalPages ∧ (s.zones z).watermark.min < (s.zones z).freePages)

/-! ## Initialization -/

/-- The Limine entry types the source tells apart. -/
inductive MemmapType where
  | usable | reserved | acpiReclaimable | bootloaderReclaimable | kernelAndModules | framebuffer
  | other
  deriving DecidableEq, Repr

/-- A range of physical addresses, as the bootloader reports it. -/
structure MemmapEntry where
  base : Nat
  length : Nat
  type : MemmapType
  inRange : base + length ≤ 2 ^ 64

def initPageDescriptors (s : State) (base size : Nat) (zone : Zone) (usable : Bool) : State :=
  let startPfn := physToPfn base
  let endPfn := physToPfn (u64 (base + size))
  { s with
    pageArray := updatePages s.pageArray startPfn (endPfn - startPfn) fun _ =>
      { refcount := 0, flags := if usable then 0 else pageFlagReserved, zone,
        order := 0, owner := 0 }
    maxPfn :=
      if startPfn < min endPfn maxPhysPages then max s.maxPfn (min endPfn maxPhysPages - 1)
      else s.maxPfn }

/-- `while (chunk_size * 4 <= size) chunk_size *= 4`. The product wraps, so for a size of
2^62 or more the chunk becomes 0 and the loop never ends: `none`. -/
def chunkLoop : Nat → Nat → Nat → Option Nat
  | 0, _, _ => none
  | fuel + 1, chunk, size =>
    if u64 (chunk * 4) ≤ size then chunkLoop fuel (u64 (chunk * 4)) size else some chunk

/-- One iteration of the loop that cuts an entry into root cells. -/
def addRoot (s : State) (base chunk : Nat) : State :=
  let (idx, s) := cellAllocNode s
  if idx = noCell then s
  else
    let z := physToZone base
    let pages := chunk / pageSize
    { s with
      cells := update s.cells idx { s.cells idx with base, size := chunk, state := .free }
      totalMem := u64 (s.totalMem + chunk)
      freeMem := u64 (s.freeMem + chunk)
      zones := update s.zones z { s.zones z with
        totalPages := u64 ((s.zones z).totalPages + pages)
        freePages := u64 ((s.zones z).freePages + pages) } }

/-- The loop over the chunks of one usable entry; every iteration takes at least a page
off `size`, so `size / pageSize` iterations are enough. -/
def addChunks : Nat → State → Nat → Nat → Option State
  | 0, s, _, _ => some s
  | fuel + 1, s, base, size =>
    if pageSize ≤ size then
      match chunkLoop 32 pageSize size with
      | none => none
      | some chunk => addChunks fuel (addRoot s base chunk) (u64 (base + chunk)) (size - chunk)
    else some s

def addEntry (s : State) (e : MemmapEntry) : Option State :=
  let s := initPageDescriptors s e.base e.length (physToZone e.base) (e.type = .usable)
  if e.type = .usable ∧ pageSize ≤ e.length then
    let base := u64 (e.base + (pageSize - 1)) / pageSize * pageSize
    let limit := u64 (e.base + e.length) / pageSize * pageSize
    let size := sub64 limit base
    addChunks (size / pageSize) s base size
  else some s

def zoneUpdateWatermarks (z : MemZone) : MemZone :=
  { z with watermark :=
    { min := max (z.totalPages / 64) 4
      low := max (z.totalPages / 32) 8
      high := max (z.totalPages / 16) 16 } }

/-- The static variables after the `memset`s and the zone set-up of `pmm_init`. -/
def pmmReset : State where
  cells _ :=
    { base := 0, size := 0, state := .free, owner := 0, parent := 0, children := fun _ => 0 }
  cellCount := 0
  totalMem := 0
  freeMem := 0
  lastUsedCell := 0
  zones
    | .dma => ⟨0, zoneDmaLimit, 0, 0, 0, ⟨0, 0, 0⟩⟩
    | .dma32 => ⟨zoneDmaLimit, zoneDma32Limit, 0, 0, 0, ⟨0, 0, 0⟩⟩
    | .normal => ⟨zoneDma32Limit, 2 ^ 64 - 1, 0, 0, 0, ⟨0, 0, 0⟩⟩
  pageArray _ := { refcount := 0, flags := 0, zone := .dma, order := 0, owner := 0 }
  maxPfn := 0

/-- `pmm_init` on a memory map; `none` when it does not return. -/
def pmmInit (memmap : List MemmapEntry) : Option State :=
  match memmap.foldlM addEntry pmmReset with
  | none => none
  | some s => some { s with zones := fun z => zoneUpdateWatermarks (s.zones z) }

/-! ## Runs -/

inductive Call where
  | allocPage
  | allocPages (count : Nat)
  | allocPagesZone (count : Nat) (zone : Zone)
  | freePages (addr count : Nat)
  | pageRef (addr : Nat)
  | pageUnref (addr : Nat)

/-- The value a call returns (0 for the calls without a result that matters here) and
the state after it. -/
def Call.exec (s : State) : Call → Nat × State
  | .allocPage => pmmAllocPage s
  | .allocPages count => pmmAllocPages s count
  | .allocPagesZone count zone => pmmAllocPagesZone s count zone
  | .freePages addr count => (0, pmmFreePages s addr count)
  | .pageRef addr => (0, pmmPageRef s addr)
  | .pageUnref addr => (0, (pmmPageUnref s addr).2)

def runCalls (s : State) (calls : List Call) : State := calls.foldl (fun s c => (c.exec s).2) s

end YamKernel.Pmm

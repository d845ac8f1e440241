import YamKernel.Lib.Memory
import YamKernel.Lib.Tiling
import YamKernel.Lib.Machine
import YamKernel.Mem.Pmm.Model

/-!
# The kernel heap

`mem/heap.c`: requests of up to 4096 bytes are served from ten lists of equal objects,
which are carved out of blocks of a page; larger ones, and small ones for which no page
could be had, take the first block that fits from a doubly linked list of blocks. A region
the heap gets from the physical allocator starts out as one block at the end of that list.
Freeing a block joins it with its neighbours in the list.

Block headers and list links live in the memory they describe, so the state holds the
bytes of memory by virtual address. `regions`, `large` and `small` are history variables:
nothing reads them. The statistics and the log output are left out, and so are
`heap_base`, `heap_end` and `heap_size`, which only they use.
-/

namespace YamKernel.Heap

open Lib Function

def headerSize : Nat := 48
def heapMagic : Nat := 0xDEADBEEF
def heapAlign : Nat := 16
def heapInitialPages : Nat := 16384
def heapExpandPages : Nat := 4096

def bucketSizes : List Nat := [8, 16, 32, 64, 128, 256, 512, 1024, 2048, 4096]

structure Slot where
  addr : Nat
  size : Nat
  deriving DecidableEq, Repr

structure State where
  mem : Mem
  pmm : Pmm.State
  /-- The virtual address of physical address 0. -/
  hhdm : Nat
  /-- `heap_head`; 0 is `NULL`. -/
  head : Nat
  buckets : Nat → Nat
  /-- The regions obtained from the physical allocator. -/
  regions : List Extent
  /-- The pointers handed out by the block path and not freed since. -/
  large : List Nat
  /-- The objects handed out by the buckets. They are never taken back. -/
  small : List Slot

def State.physToVirt (s : State) (phys : Nat) : Nat := u64 (phys + s.hhdm)

/-! ## Block headers -/

def blockSize (m : Mem) (b : Nat) : Nat := m.read b 8
def blockFree (m : Mem) (b : Nat) : Bool := m.read (b + 8) 1 != 0
def blockNext (m : Mem) (b : Nat) : Nat := m.read (b + 16) 8
def blockPrev (m : Mem) (b : Nat) : Nat := m.read (b + 24) 8
def blockMagic (m : Mem) (b : Nat) : Nat := m.read (b + 32) 4

def setSize (m : Mem) (b size : Nat) : Mem := m.write b 8 size
def setFree (m : Mem) (b : Nat) (free : Bool) : Mem := m.write (b + 8) 1 free.toNat
def setNext (m : Mem) (b next : Nat) : Mem := m.write (b + 16) 8 next
def setPrev (m : Mem) (b prev : Nat) : Mem := m.write (b + 24) 8 prev
def setMagic (m : Mem) (b : Nat) : Mem := m.write (b + 32) 4 heapMagic

attribute [irreducible] blockSize blockFree blockNext blockPrev blockMagic
attribute [irreducible] setSize setFree setNext setPrev setMagic

def alignUp (val : Nat) : Nat := u64 (val + (heapAlign - 1)) / heapAlign * heapAlign

/-! ## Taking a block -/

inductive Search where
  | block (b : Nat)
  | none
  | corrupt
  deriving DecidableEq, Repr

/-- The search for the first free block of `size` bytes. No list of blocks is longer than
the fuel its callers give it, the number of addresses. -/
def firstFit : Nat → Mem → Nat → Nat → Search
  | 0, _, _, _ => .none
  | fuel + 1, m, b, size =>
    if b = 0 then .none
    else if blockMagic m b ≠ heapMagic then .corrupt
    else if blockFree m b ∧ size ≤ blockSize m b then .block b
    else firstFit fuel m (blockNext m b) size

/-- Cut the tail off block `b` and link it in as a free block. -/
def splitBlock (m : Mem) (b size : Nat) : Mem :=
  let nb := b + headerSize + size
  let m := setSize m nb (sub64 (sub64 (blockSize m b) size) headerSize)
  let m := setFree m nb true
  let m := setNext m nb (blockNext m b)
  let m := setPrev m nb b
  let m := setMagic m nb
  let m := if blockNext m b ≠ 0 then setPrev m (blockNext m b) nb else m
  let m := setNext m b nb
  setSize m b size

/-- What both allocation paths do with the block they found. -/
def takeBlock (m : Mem) (b size : Nat) : Mem :=
  let m :=
    if u64 (size + headerSize + heapAlign) < blockSize m b then splitBlock m b size else m
  setFree m b false

def heapAllocRaw (s : State) (size : Nat) : Nat × State :=
  let size := alignUp size
  match firstFit (2 ^ 64) s.mem s.head size with
  | .block b =>
    let ret := b + headerSize
    (ret, { s with mem := (takeBlock s.mem b size).fill ret size 0 })
  | .none => (0, s)
  | .corrupt => (0, s)

/-! ## Buckets -/

def bucketIndex (size : Nat) : Option Nat := bucketSizes.findIdx? (size ≤ ·)

def bucketSize (idx : Nat) : Nat := bucketSizes.getD idx 0

def pushObject (idx : Nat) (s : State) (obj : Nat) : State :=
  { s with
    mem := s.mem.write obj 8 (s.buckets idx)
    buckets := update s.buckets idx obj }

def bucketRefill (s : State) (idx : Nat) : State :=
  let objSize := max (bucketSize idx) 8
  let (block, s) := heapAllocRaw s Pmm.pageSize
  if block = 0 then s
  else
    let usable := block + heapAlign
    let count := (Pmm.pageSize - heapAlign) / objSize
    ((List.range count).map fun i => usable + i * objSize).foldl (pushObject idx) s

/-! ## Regions -/

def lastBlock : Nat → Mem → Nat → Nat
  | 0, _, b => b
  | fuel + 1, m, b => if blockNext m b ≠ 0 then lastBlock fuel m (blockNext m b) else b

def heapExpand (s : State) : Bool × State :=
  let (phys, pmm) := Pmm.pmmAllocPages s.pmm heapExpandPages
  let s := { s with pmm }
  if phys = 0 then (false, s)
  else
    let base := s.physToVirt phys
    let size := heapExpandPages * Pmm.pageSize
    let m := setSize s.mem base (size - headerSize)
    let m := setFree m base true
    let m := setMagic m base
    let m := setPrev m base 0
    let m := setNext m base 0
    let s := { s with regions := s.regions ++ [Extent.mk base (base + size)] }
    if s.head ≠ 0 then
      let last := lastBlock (2 ^ 64) m s.head
      let m := setNext m last base
      (true, { s with mem := setPrev m base last })
    else (true, { s with mem := m, head := base })

def heapInit (s : State) : State :=
  let (phys, pmm) := Pmm.pmmAllocPages s.pmm heapInitialPages
  let s := { s with pmm }
  if phys = 0 then s
  else
    let base := s.physToVirt phys
    let size := heapInitialPages * Pmm.pageSize
    let m := setSize s.mem base (size - headerSize)
    let m := setFree m base true
    let m := setNext m base 0
    let m := setPrev m base 0
    let m := setMagic m base
    { s with
      mem := m
      head := base
      buckets := fun _ => 0
      regions := s.regions ++ [Extent.mk base (base + size)] }

/-! ## The interface -/

/-- The part of `kmalloc` below the buckets: search, and on failure expand the heap and
search again. Every expansion takes memory from the physical allocator, so there are at
most as many as it has bytes. -/
def kmallocBlock : Nat → State → Nat → Nat × State
  | 0, s, _ => (0, s)
  | fuel + 1, s, size =>
    match firstFit (2 ^ 64) s.mem s.head size with
    | .corrupt => (0, s)
    | .block b =>
      let ret := b + headerSize
      (ret, { s with mem := takeBlock s.mem b size, large := ret :: s.large })
    | .none =>
      match heapExpand s with
      | (true, s) => kmallocBlock fuel s size
      | (false, s) => (0, s)

def kmalloc (s : State) (size : Nat) : Nat × State :=
  if size = 0 then (0, s)
  else
    match bucketIndex size with
    | some idx =>
      let s := if s.buckets idx = 0 then bucketRefill s idx else s
      let obj := s.buckets idx
      if obj ≠ 0 then
        (obj, { s with
          buckets := update s.buckets idx (s.mem.read obj 8)
          small := ⟨obj, bucketSize idx⟩ :: s.small })
      else kmallocBlock (s.pmm.freeMem + 1) s (alignUp size)
    | none => kmallocBlock (s.pmm.freeMem + 1) s (alignUp size)

def kcalloc (s : State) (count size : Nat) : Nat × State :=
  let total := u64 (count * size)
  let (ptr, s) := kmalloc s total
  if ptr ≠ 0 then (ptr, { s with mem := s.mem.fill ptr total 0 }) else (ptr, s)

def mergeNext (m : Mem) (b : Nat) : Mem :=
  let n := blockNext m b
  if n ≠ 0 ∧ blockFree m n then
    let m := setSize m b (u64 (blockSize m b + (headerSize + blockSize m n)))
    let m := setNext m b (blockNext m n)
    if blockNext m b ≠ 0 then setPrev m (blockNext m b) b else m
  else m

def mergePrev (m : Mem) (b : Nat) : Mem :=
  let p := blockPrev m b
  if p ≠ 0 ∧ blockFree m p then
    let m := setSize m p (u64 (blockSize m p + (headerSize + blockSize m b)))
    let m := setNext m p (blockNext m b)
    if blockNext m b ≠ 0 then setPrev m (blockNext m b) p else m
  else m

def kfree (s : State) (ptr : Nat) : State :=
  if ptr = 0 then s
  else
    let b := ptr - headerSize
    if blockMagic s.mem b ≠ heapMagic then s
    else if blockFree s.mem b then s
    else
      { s with
        mem := mergePrev (mergeNext (setFree s.mem b true) b) b
        large := s.large.erase ptr }

/-- The copy made by `krealloc` once it has the new memory `newPtr`. -/
def reallocCopy (s : State) (ptr newPtr newSize : Nat) : State :=
  let b := ptr - headerSize
  let copySize := if blockMagic s.mem b = heapMagic then blockSize s.mem b else newSize
  { s with mem := s.mem.copy newPtr ptr (min copySize newSize) }

def krealloc (s : State) (ptr newSize : Nat) : Nat × State :=
  if ptr = 0 then kmalloc s newSize
  else if newSize = 0 then (0, kfree s ptr)
  else
    let b := ptr - headerSize
    if blockMagic s.mem b = heapMagic ∧ newSize ≤ blockSize s.mem b then (ptr, s)
    else
      let (newPtr, s) := kmalloc s newSize
      if newPtr ≠ 0 then (newPtr, kfree (reallocCopy s ptr newPtr newSize) ptr) else (newPtr, s)

/-! ## Runs -/

/-- The heap before `heap_init`: nothing obtained, nothing handed out. -/
def boot (mem : Mem) (pmm : Pmm.State) (hhdm : Nat) : State where
  mem := mem
  pmm := pmm
  hhdm := hhdm
  head := 0
  buckets _ := 0
  regions := []
  large := []
  small := []

/-- A call, or a store of the kernel into memory it has from the heap. -/
inductive Op where
  | kmalloc (size : Nat)
  | kfree (ptr : Nat)
  | krealloc (ptr newSize : Nat)
  | store (addr : Nat) (byte : UInt8)

def step : Machine State Op Nat
  | s, .kmalloc size => kmalloc s size
  | s, .kfree ptr => (0, kfree s ptr)
  | s, .krealloc ptr newSize => krealloc s ptr newSize
  | s, .store addr byte => (0, { s with mem := update s.mem addr byte })

/-- The byte belongs to an allocation that has not been freed. -/
def State.Owns (s : State) (a : Nat) : Prop :=
  (∃ p ∈ s.large, p ≤ a ∧ a < p + blockSize s.mem (p - headerSize)) ∨
    ∃ x ∈ s.small, x.addr ≤ a ∧ a < x.addr + x.size

/-- The operations the kernel may perform: only pointers of the block path are freed, only
pointers that were handed out are resized, and stores stay inside an allocation. -/
def Op.Legal (s : State) : Op → Prop
  | .kmalloc size => size < 2 ^ 64
  | .kfree ptr => ptr ∈ s.large
  | .krealloc ptr newSize =>
    newSize < 2 ^ 64 ∧ (ptr = 0 ∨ ptr ∈ s.large ∨ ∃ x ∈ s.small, x.addr = ptr)
  | .store addr _ => s.Owns addr

/-- The same with any pointer that was handed out, or `NULL`, as the argument of `kfree`. -/
def Op.Proper (s : State) : Op → Prop
  | .kfree ptr => ptr = 0 ∨ ptr ∈ s.large ∨ ∃ x ∈ s.small, x.addr = ptr
  | op => op.Legal s

instance (s : State) (a : Nat) : Decidable (s.Owns a) := inferInstanceAs (Decidable (_ ∨ _))

instance (s : State) : (op : Op) → Decidable (op.Legal s)
  | .kmalloc _ => inferInstanceAs (Decidable (_ < _))
  | .kfree _ => inferInstanceAs (Decidable (_ ∈ _))
  | .krealloc _ _ => inferInstanceAs (Decidable (_ ∧ _))
  | .store _ _ => inferInstanceAs (Decidable (State.Owns _ _))

instance (s : State) : (op : Op) → Decidable (op.Proper s)
  | .kmalloc _ => inferInstanceAs (Decidable (_ < _))
  | .kfree _ => inferInstanceAs (Decidable (_ ∨ _))
  | .krealloc _ _ => inferInstanceAs (Decidable (_ ∧ _))
  | .store _ _ => inferInstanceAs (Decidable (State.Owns _ _))

end YamKernel.Heap

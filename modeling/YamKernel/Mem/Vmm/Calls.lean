import YamKernel.Mem.Heap.Model
import YamKernel.Mem.Vmm.Model

/-!
# The memory system calls

`sys_mmap`, `sys_munmap` and `sys_brk` of `mem/vmm.c`, and the two calls of `cpu/syscall.c`
that enter frames the address space does not own. They act for the current task, which has
an address space. The list of areas stands for the chain of `vma_t` objects; whether the heap
has such an object at hand is an input of `sys_mmap`.
-/

namespace YamKernel.Vmm

open Lib Pmm

def flagNocache : Nat := 2 ^ 4

def mapAnonymous : Nat := 2 ^ 5

def mapFailed : Nat := 2 ^ 64 - 1

def mmapBase : Nat := 0x7F0000000000
def userBrkDefault : Nat := 0x400000

def userEnd : Nat := 0x0000800000000000

/-- The fields of `task_t` the calls use. -/
structure Task where
  pml4 : Nat
  vmas : List Vma
  brkStart : Nat
  brkCurrent : Nat

def pageAlignUp (x : Nat) : Nat := u64 (x + (pageSize - 1)) / pageSize * pageSize

def pageCount (length : Nat) : Nat := u64 (length + (pageSize - 1)) / pageSize

/-- The addresses `addr + i * PAGE_SIZE` of a loop over `pages` pages. -/
def pageRange (addr pages : Nat) : List Nat :=
  (List.range pages).map fun i => u64 (addr + i * pageSize)

/-- What `sys_mmap`, `sys_brk` and the fault handler do for a page: take a frame, map it and
clear it. The answer of `vmm_map_page` is not looked at. -/
def mapZeroPage (s : State) (pml4 va flags : Nat) : Bool × State :=
  let (phys, pmm) := pmmAllocPage s.pmm
  let s := { s with pmm }
  if phys = 0 then (false, s)
  else
    let (_, s) := vmmMapPage s pml4 va phys flags
    (true, { s with mem := s.mem.fill phys pageSize 0 })

/-! ## Areas -/

/-- `kmalloc(sizeof(vma_t))`: the heap has room for the object, or gets another region from the
physical allocator. -/
def kmallocVma (s : State) (room : Bool) : Bool × State :=
  if room then (true, s)
  else
    let (phys, pmm) := pmmAllocPages s.pmm Heap.heapExpandPages
    (phys != 0, { s with pmm })

/-- The loop of `sys_mmap`, which ends at the first page without a frame. -/
def mmapPages (pml4 flags : Nat) : State → List Nat → Bool × State
  | s, [] => (true, s)
  | s, va :: vas =>
    match mapZeroPage s pml4 va flags with
    | (false, s) => (false, s)
    | (true, s) => mmapPages pml4 flags s vas

/-- `sys_mmap`: the address, the state, `next_mmap_addr` and the task after the call. -/
def sysMmap (s : State) (next : Nat) (t : Task) (room : Bool) (length prot flags : Nat) :
    Nat × State × Nat × Task :=
  if length = 0 then (mapFailed, s, next, t)
  else
    let pages := pageCount length
    let size := pages * pageSize
    let vaddr := next
    let next := u64 (next + size)
    match kmallocVma s room with
    | (false, s) => (mapFailed, s, next, t)
    | (true, s) =>
      let t := { t with vmas := ⟨vaddr, u64 (vaddr + size), prot⟩ :: t.vmas }
      if has flags mapAnonymous then (vaddr, s, next, t)
      else
        let pflags := flagPresent ||| flagWrite ||| flagUser
        let pflags := if ¬ has prot protExec then pflags ||| flagNx else pflags
        match mmapPages t.pml4 pflags s (pageRange vaddr pages) with
        | (false, s) => (mapFailed, s, next, t)
        | (true, s) => (vaddr, s, next, t)

def vmmUnmapPage (s : State) (pml4 virt : Nat) : State :=
  match walkPd s.mem pml4 virt with
  | none => s
  | some pd => s.setEntry (entry s.mem pd (pdIndex virt) &&& addrMask) (ptIndex virt) 0

/-- The body of the loops that unmap pages: the frame of a page that translates loses a
reference by `drop`. -/
def unmapDropping (drop : Pmm.State → Nat → Pmm.State) (pml4 : Nat) (s : State) (va : Nat) :
    State :=
  let phys := vmmVirtToPhys s.mem pml4 va
  if phys = 0 then s
  else
    let s := vmmUnmapPage s pml4 va
    { s with pmm := drop s.pmm (phys / pageSize * pageSize) }

def munmapPage : Nat → State → Nat → State := unmapDropping pmmFreePage

/-- `sys_munmap`: the state and the task after the call, which returns 0. -/
def sysMunmap (s : State) (t : Task) (addr length : Nat) : State × Task :=
  ((pageRange addr (pageCount length)).foldl (munmapPage t.pml4) s,
    { t with vmas := t.vmas.eraseP fun v => v.start = addr })

/-- The loop of `sys_wl_map_buffer`, which ends at the first page that cannot be mapped. -/
def wlMapPages (pml4 : Nat) : State → List (Nat × Nat) → Bool × State
  | s, [] => (true, s)
  | s, (va, phys) :: rest =>
    match vmmMapPage s pml4 va phys
        (flagPresent ||| flagUser ||| flagWrite ||| flagNx ||| flagDontFree) with
    | (false, s) => (false, s)
    | (true, s) => wlMapPages pml4 s rest

/-- `sys_wl_map_buffer` of a surface of the task with `size` bytes of pixels at `phys`. -/
def sysWlMapBuffer (s : State) (t : Task) (uvaddr phys size : Nat) : Bool × State :=
  wlMapPages t.pml4 s
    ((pageRange uvaddr (pageCount size)).zip (pageRange phys (pageCount size)))

def sysMapMmio (s : State) (t : Task) (phys virt size : Nat) : State :=
  ((pageRange virt (pageCount size)).zip (pageRange phys (pageCount size))).foldl
    (fun s x => (vmmMapPage s t.pml4 x.1 x.2
      (flagPresent ||| flagUser ||| flagWrite ||| flagNx ||| flagNocache)).2) s

/-! ## The break -/

/-- The addresses of `for (va = start; va < end; va += PAGE_SIZE)`, for multiples of a page. -/
def pagesBetween (start stop : Nat) : List Nat :=
  (List.range ((stop - start) / pageSize)).map fun i => start + i * pageSize

def brkFlags : Nat := flagPresent ||| flagWrite ||| flagUser ||| flagNx

/-- The growing loop of `sys_brk`; false when it ends without a frame. -/
def brkGrow (pml4 : Nat) : State → List Nat → Bool × State
  | s, [] => (true, s)
  | s, va :: vas =>
    if vmmVirtToPhys s.mem pml4 va ≠ 0 then brkGrow pml4 s vas
    else
      match mapZeroPage s pml4 va brkFlags with
      | (false, s) => (false, s)
      | (true, s) => brkGrow pml4 s vas

def brkShrinkPage : Nat → State → Nat → State :=
  unmapDropping fun pmm f => (pmmPageUnref pmm f).2

/-- The break of a task that has not been given one yet. -/
def Task.initBrk (t : Task) : Task :=
  if t.brkStart = 0 then { t with brkStart := userBrkDefault, brkCurrent := userBrkDefault }
  else t

/-- `sys_brk`: the answer, the state and the task after the call. -/
def sysBrk (s : State) (t : Task) (newBrk : Nat) : Nat × State × Task :=
  let t := t.initBrk
  if newBrk = 0 then (t.brkCurrent, s, t)
  else if newBrk < t.brkStart then (t.brkCurrent, s, t)
  else
    let oldBrk := t.brkCurrent
    if oldBrk < newBrk then
      match brkGrow t.pml4 s (pagesBetween (pageAlignUp oldBrk) (pageAlignUp newBrk)) with
      | (false, s) => (t.brkCurrent, s, t)
      | (true, s) => (newBrk, s, { t with brkCurrent := newBrk })
    else if newBrk < oldBrk then
      (newBrk, (pagesBetween (pageAlignUp newBrk) (pageAlignUp oldBrk)).foldl
        (brkShrinkPage t.pml4) s, { t with brkCurrent := newBrk })
    else (newBrk, s, { t with brkCurrent := newBrk })

end YamKernel.Vmm

import YamKernel.Lib.Memory
import YamKernel.Mem.Pmm.Model

/-!
# The virtual memory manager

`mem/vmm.c`: four levels of page tables of 512 entries, a copy-on-write fork of the lower
half, and the fault handlers. Tables live in physical memory, which the kernel reads and
writes through a mapping at a constant offset; a table pointer is therefore modelled by
the physical address of the table, and `NULL` by `none`. Flushing the TLB leaves no trace.
-/

namespace YamKernel.Vmm

open Lib Pmm List

def flagPresent : Nat := 2 ^ 0
def flagWrite : Nat := 2 ^ 1
def flagUser : Nat := 2 ^ 2
def flagHuge : Nat := 2 ^ 7
def flagCow : Nat := 2 ^ 9
def flagDontFree : Nat := 2 ^ 10
def flagNx : Nat := 2 ^ 63

/-- The frame address in a table entry. -/
def addrMask : Nat := 0x000FFFFFFFFFF000
/-- The frame address in an entry for a page of 2 MB. -/
def hugeMask : Nat := 0x000FFFFFFFE00000
def flagMask : Nat := 0xFFF0000000000FFF

def hugePageSize : Nat := 2 * 1024 * 1024

def has (e flag : Nat) : Bool := e &&& flag != 0

def clear (e flag : Nat) : Nat := e &&& (2 ^ 64 - (flag + 1))

structure State where
  /-- Physical memory. -/
  mem : Mem
  pmm : Pmm.State
  /-- `g_kernel_pml4`. -/
  kernelPml4 : Nat

def entry (m : Mem) (table index : Nat) : Nat := m.read (table + 8 * index) 8

def State.setEntry (s : State) (table index e : Nat) : State :=
  { s with mem := s.mem.write (table + 8 * index) 8 e }

def pml4Index (virt : Nat) : Nat := virt / 2 ^ 39 % 512
def pdptIndex (virt : Nat) : Nat := virt / 2 ^ 30 % 512
def pdIndex (virt : Nat) : Nat := virt / 2 ^ 21 % 512
def ptIndex (virt : Nat) : Nat := virt / 2 ^ 12 % 512

/-! ## Walks -/

def allocPageTable (s : State) : Option Nat × State :=
  let (phys, pmm) := pmmAllocPage s.pmm
  if phys = 0 then (none, { s with pmm })
  else (some phys, { s with pmm, mem := s.mem.fill phys pageSize 0 })

def getOrCreateTable (s : State) (table index flags : Nat) : Option Nat × State :=
  let e := entry s.mem table index
  if has e flagPresent then
    if has e flagHuge then (none, s) else (some (e &&& addrMask), s)
  else
    match allocPageTable s with
    | (none, s) => (none, s)
    | (some new, s) =>
      (some new, s.setEntry table index (new ||| flagPresent ||| flagWrite ||| flags))

def vmmMapPage (s : State) (pml4 virt phys flags : Nat) : Bool × State :=
  match getOrCreateTable s pml4 (pml4Index virt) (flags &&& flagUser) with
  | (none, s) => (false, s)
  | (some pdpt, s) =>
    match getOrCreateTable s pdpt (pdptIndex virt) (flags &&& flagUser) with
    | (none, s) => (false, s)
    | (some pd, s) =>
      match getOrCreateTable s pd (pdIndex virt) (flags &&& flagUser) with
      | (none, s) => (false, s)
      | (some pt, s) =>
        (true, s.setEntry pt (ptIndex virt) ((phys &&& addrMask) ||| flags ||| flagPresent))

/-- The page directory for `virt`, if the two levels above it and its own entry are
present: the checks all the walks below start with. -/
def walkPd (m : Mem) (pml4 virt : Nat) : Option Nat :=
  let e4 := entry m pml4 (pml4Index virt)
  if ¬ has e4 flagPresent then none
  else
    let e3 := entry m (e4 &&& addrMask) (pdptIndex virt)
    if ¬ has e3 flagPresent then none
    else
      let pd := e3 &&& addrMask
      if ¬ has (entry m pd (pdIndex virt)) flagPresent then none else some pd

def vmmVirtToPhys (m : Mem) (pml4 virt : Nat) : Nat :=
  match walkPd m pml4 virt with
  | none => 0
  | some pd =>
    let e2 := entry m pd (pdIndex virt)
    if has e2 flagHuge then (e2 &&& hugeMask) ||| (virt % hugePageSize)
    else
      let e := entry m (e2 &&& addrMask) (ptIndex virt)
      if ¬ has e flagPresent then 0 else (e &&& addrMask) ||| (virt % pageSize)

def vmmGetPteFlags (m : Mem) (pml4 virt : Nat) : Nat :=
  match walkPd m pml4 virt with
  | none => 0
  | some pd =>
    let e2 := entry m pd (pdIndex virt)
    if has e2 flagHuge then e2 &&& flagMask
    else entry m (e2 &&& addrMask) (ptIndex virt) &&& flagMask

def vmmUpdateFlags (s : State) (pml4 virt newFlags : Nat) : Bool × State :=
  match walkPd s.mem pml4 virt with
  | none => (false, s)
  | some pd =>
    let e2 := entry s.mem pd (pdIndex virt)
    if has e2 flagHuge then
      (true, s.setEntry pd (pdIndex virt)
        ((e2 &&& hugeMask) ||| newFlags ||| flagPresent ||| flagHuge))
    else
      let pt := e2 &&& addrMask
      let e := entry s.mem pt (ptIndex virt)
      if ¬ has e flagPresent then (false, s)
      else (true, s.setEntry pt (ptIndex virt) ((e &&& addrMask) ||| newFlags ||| flagPresent))

/-! ## Address spaces -/

def vmmCreateUserPml4 (s : State) : Option Nat × State :=
  match allocPageTable s with
  | (none, s) => (none, s)
  | (some new, s) =>
    (some new, (range' 256 256).foldl
      (fun s i => s.setEntry new i (entry s.mem s.kernelPml4 i)) s)

def State.pageRef (s : State) (phys : Nat) : State := { s with pmm := pmmPageRef s.pmm phys }

def State.pageUnref (s : State) (phys : Nat) : State :=
  { s with pmm := (pmmPageUnref s.pmm phys).2 }

def State.freePage (s : State) (phys : Nat) : State := { s with pmm := pmmFreePage s.pmm phys }

/-- The innermost body of `vmm_fork_address_space`: one page of the source. -/
def forkLeaf (src dst : Nat) (s : State) (l : Nat) : State :=
  let e := entry s.mem src l
  if ¬ has e flagPresent then s
  else
    let phys := e &&& addrMask
    let flags := e &&& flagMask
    if ¬ has flags flagDontFree then
      let flags := clear flags flagWrite ||| flagCow
      let s := s.setEntry src l (phys ||| flags)
      let s := s.pageRef phys
      s.setEntry dst l (phys ||| flags)
    else s.setEntry dst l (phys ||| flags)

def forkPd (src dst : Nat) (s : State) (k : Nat) : State :=
  let e := entry s.mem src k
  if ¬ has e flagPresent then s
  else if has e flagHuge then
    let phys := e &&& hugeMask
    let flags := clear (e &&& 0xFFF) flagWrite ||| flagCow
    let s := s.setEntry dst k (phys ||| flags ||| flagHuge)
    let s := s.setEntry src k (phys ||| flags ||| flagHuge)
    s.pageRef phys
  else
    match allocPageTable s with
    | (none, s) => s
    | (some dstPt, s) =>
      let s := s.setEntry dst k (dstPt ||| (entry s.mem src k &&& 0xFFF))
      (range 512).foldl (forkLeaf (e &&& addrMask) dstPt) s

def forkPdpt (src dst : Nat) (s : State) (j : Nat) : State :=
  let e := entry s.mem src j
  if ¬ has e flagPresent then s
  else
    match allocPageTable s with
    | (none, s) => s
    | (some dstPd, s) =>
      let s := s.setEntry dst j (dstPd ||| (entry s.mem src j &&& 0xFFF))
      (range 512).foldl (forkPd (e &&& addrMask) dstPd) s

def forkPml4 (src dst : Nat) (s : State) (i : Nat) : State :=
  let e := entry s.mem src i
  if ¬ has e flagPresent then s
  else
    match allocPageTable s with
    | (none, s) => s
    | (some dstPdpt, s) =>
      let s := s.setEntry dst i (dstPdpt ||| (entry s.mem src i &&& 0xFFF))
      (range 512).foldl (forkPdpt (e &&& addrMask) dstPdpt) s

def vmmForkAddressSpace (s : State) (src : Nat) : Option Nat × State :=
  match vmmCreateUserPml4 s with
  | (none, s) => (none, s)
  | (some new, s) => (some new, (range 256).foldl (forkPml4 src new) s)

def vmmHandleCowFault (s : State) (pml4 fault : Nat) : Bool × State :=
  let page := fault / pageSize * pageSize
  let flags := vmmGetPteFlags s.mem pml4 page
  if ¬ has flags flagCow then (false, s)
  else
    let old := vmmVirtToPhys s.mem pml4 page / pageSize * pageSize
    if old = 0 then (false, s)
    else
      let newFlags := clear flags flagCow ||| flagWrite
      if pmmPageRefcount s.pmm old ≤ 1 then (true, (vmmUpdateFlags s pml4 page newFlags).2)
      else
        let (new, pmm) := pmmAllocPage s.pmm
        let s := { s with pmm }
        if new = 0 then (false, s)
        else
          let s := { s with mem := s.mem.copy new old pageSize }
          let (_, s) := vmmMapPage s pml4 page new newFlags
          (true, s.pageUnref old)

def releaseUserMapping (s : State) (e : Nat) (huge : Bool) : State :=
  if ¬ has e flagPresent then s
  else if has e flagDontFree then s
  else
    let phys := e &&& (if huge then hugeMask else addrMask)
    if phys = 0 then s else s.pageUnref phys

def freePt (s : State) (pt : Nat) : State :=
  (range 512).foldl (fun s i => releaseUserMapping s (entry s.mem pt i) false) s

def freePd (s : State) (pd : Nat) : State :=
  (range 512).foldl (fun s i =>
    let e := entry s.mem pd i
    if ¬ has e flagPresent then s
    else if has e flagHuge then releaseUserMapping s e true
    else (freePt s (e &&& addrMask)).freePage (e &&& addrMask)) s

def freePdpt (s : State) (pdpt : Nat) : State :=
  (range 512).foldl (fun s i =>
    let e := entry s.mem pdpt i
    if ¬ has e flagPresent then s
    else (freePd s (e &&& addrMask)).freePage (e &&& addrMask)) s

/-- `vmm_destroy_user_pml4` of a pointer that is not `NULL`. -/
def vmmDestroyUserPml4 (s : State) (pml4 : Nat) : State :=
  ((range 256).foldl (fun s i =>
    let e := entry s.mem pml4 i
    if ¬ has e flagPresent then s
    else (freePdpt s (e &&& addrMask)).freePage (e &&& addrMask)) s).freePage pml4

/-! ## System calls and faults -/

def protWrite : Nat := 2 ^ 1
def protExec : Nat := 2 ^ 2

/-- `vma_t`, without the fields no modelled function reads. -/
structure Vma where
  start : Nat
  stop : Nat
  prot : Nat
  deriving DecidableEq, Repr

def mprotectPage (pml4 prot : Nat) (s : State) (va : Nat) : State :=
  let old := vmmGetPteFlags s.mem pml4 va
  if ¬ has old flagPresent then s
  else
    let new := flagPresent ||| flagUser
    let new := if has prot protWrite then new ||| flagWrite else new
    let new := if ¬ has prot protExec then new ||| flagNx else new
    let new := if has old flagCow then new ||| flagCow else new
    let new := if has old flagDontFree then new ||| flagDontFree else new
    (vmmUpdateFlags s pml4 va new).2

def mprotectRange (addr length : Nat) : List Nat :=
  (range (u64 (length + (pageSize - 1)) / pageSize)).map fun i =>
    u64 (addr / pageSize * pageSize + i * pageSize)

/-- `sys_mprotect` by a task with the given tables and areas: the state and the areas
after it. -/
def sysMprotect (s : State) (pml4 : Nat) (vmas : List Vma) (addr length prot : Nat) :
    State × List Vma :=
  let vaddr := addr / pageSize * pageSize
  let pages := u64 (length + (pageSize - 1)) / pageSize
  let covers := fun v : Vma => decide (v.start ≤ vaddr ∧ u64 (vaddr + pages * pageSize) ≤ v.stop)
  ((mprotectRange addr length).foldl (mprotectPage pml4 prot) s,
    match vmas.findIdx? covers with
    | some i => vmas.modify i fun v => { v with prot := prot }
    | none => vmas)

/-- `vmm_handle_page_fault` for a task with the given tables and areas. -/
def vmmHandlePageFault (s : State) (pml4 : Nat) (vmas : List Vma) (fault error : Nat) :
    Bool × State :=
  let (handled, s) := if error % 4 = 3 then vmmHandleCowFault s pml4 fault else (false, s)
  if handled then (true, s)
  else
    match vmas.find? fun v => decide (v.start ≤ fault ∧ fault < v.stop) with
    | none => (false, s)
    | some v =>
      let page := fault / pageSize * pageSize
      let (phys, pmm) := pmmAllocPage s.pmm
      let s := { s with pmm }
      if phys = 0 then (false, s)
      else
        let flags := flagPresent ||| flagUser
        let flags := if has v.prot protWrite then flags ||| flagWrite else flags
        let flags := if ¬ has v.prot protExec then flags ||| flagNx else flags
        let (_, s) := vmmMapPage s pml4 page phys flags
        (true, { s with mem := s.mem.fill phys pageSize 0 })

end YamKernel.Vmm

import YamKernel.Lib.Traced
import YamKernel.Mem.Vmm.Model

/-!
# The program loader

`fs/elf.c`: the headers of an ELF file, the segments, the relocations, the initial stack, and
the loading of a program for the task that calls `exec`, with and without an interpreter.

A file is in kernel memory, and its headers name offsets of any size, so a read may hit other
bytes than those of the file. Each read of the file is logged. A page that could not be
allocated or mapped is logged as well, since `elf_map_pt_loads` goes on without it. A table
that the code follows in circles makes it `hang`.
-/

namespace YamKernel.Elf

open Lib Vmm Pmm List Traced

def elfMagic : Nat := 0x464C457F
def etExec : Nat := 2
def etDyn : Nat := 3
def ptLoad : Nat := 1
def ptDynamic : Nat := 2
def ptInterp : Nat := 3
def dtNull : Nat := 0
def dtRela : Nat := 7
def dtRelasz : Nat := 8
def dtRelaent : Nat := 9
def rX8664None : Nat := 0
def rX8664Relative : Nat := 8
def pfX : Nat := 1
def pfW : Nat := 2

def elfInterpGapBytes : Nat := 2 * 1024 * 1024
def userStackBase : Nat := 0x00007FFF00000000
def userStackPages : Nat := 256
def userStackSize : Nat := userStackPages * pageSize
def userStackTop : Nat := userStackBase + userStackSize
def userElfDynBase : Nat := 0x0000000000400000

/-- `sizeof(elf64_ehdr_t)` and so on. -/
def ehdrSize : Nat := 64
def phdrSize : Nat := 56
def dynSize : Nat := 16
def relaSize : Nat := 24

abbrev CStr := { l : List UInt8 // 0 ∉ l }

inductive Event where
  /-- `len` bytes at `off` of a file with `size` bytes are read. -/
  | read (size off len : Nat)
  /-- There was no page, or it could not be mapped. -/
  | failed
  deriving DecidableEq

inductive Stop where
  /-- The function fails: it returns false, 0 or -1. -/
  | error
  /-- The function does not return. -/
  | hang
  deriving DecidableEq

abbrev Loader := Traced Event Stop Vmm.State

/-- A file in memory, at the address `addr`. `byte o` is what is `o` bytes behind its start. -/
structure Image where
  addr : Nat
  size : Nat
  byte : Mem

/-! ## Headers -/

section Headers

variable (img : Image)

/-- The `len` bytes at `off` as a number; offsets wrap. -/
def Image.field (off len : Nat) : Nat := Mem.read (fun x => img.byte (u64 x)) off len

def Image.eMagic : Nat := img.field 0 4
def Image.eClass : Nat := img.field 4 1
def Image.eType : Nat := img.field 16 2
def Image.eMachine : Nat := img.field 18 2
def Image.eEntry : Nat := img.field 24 8
def Image.ePhoff : Nat := img.field 32 8
def Image.ePhentsize : Nat := img.field 54 2
def Image.ePhnum : Nat := img.field 56 2

def readField (off len : Nat) : Loader Nat := do
  log (.read img.size (u64 off) len)
  pure (img.field (u64 off) len)

def elfPhdrAt (idx : Nat) : Nat := u64 (img.ePhoff + idx * img.ePhentsize)

def pType (ph : Nat) : Loader Nat := readField img ph 4
def pFlags (ph : Nat) : Loader Nat := readField img (ph + 4) 4
def pOffset (ph : Nat) : Loader Nat := readField img (ph + 8) 8
def pVaddr (ph : Nat) : Loader Nat := readField img (ph + 16) 8
def pFilesz (ph : Nat) : Loader Nat := readField img (ph + 32) 8
def pMemsz (ph : Nat) : Loader Nat := readField img (ph + 40) 8

def isLoad (ph : Nat) : Loader Bool := do
  let type ← pType img ph
  if type ≠ ptLoad then pure false
  else
    let memsz ← pMemsz img ph
    pure (memsz != 0)

def findPhdr (kind : Nat) : List Nat → Loader (Option Nat)
  | [] => pure none
  | i :: is => do
    let type ← pType img (elfPhdrAt img i)
    if type = kind then pure (some (elfPhdrAt img i)) else findPhdr kind is

def elfFindPhdr (kind : Nat) : Loader (Option Nat) := findPhdr img kind (range img.ePhnum)

def vaToFileOff (va : Nat) : List Nat → Loader (Option Nat)
  | [] => pure none
  | i :: is => do
    let ph := elfPhdrAt img i
    let load ← isLoad img ph
    if load then
      let vaddr ← pVaddr img ph
      let memsz ← pMemsz img ph
      if va ≥ vaddr ∧ va < u64 (vaddr + memsz) then
        let filesz ← pFilesz img ph
        if va - vaddr ≥ filesz then pure none
        else
          let offset ← pOffset img ph
          pure (some (u64 (offset + (va - vaddr))))
      else vaToFileOff va is
    else vaToFileOff va is

def elfVaToFileOff (va : Nat) : Loader (Option Nat) := vaToFileOff img va (range img.ePhnum)

def minLoadVaddr (minV : Nat) : List Nat → Loader Nat
  | [] => pure (if minV = 2 ^ 64 - 1 then 0 else minV)
  | i :: is => do
    let ph := elfPhdrAt img i
    let load ← isLoad img ph
    if load then
      let vaddr ← pVaddr img ph
      minLoadVaddr (if vaddr < minV then vaddr else minV) is
    else minLoadVaddr minV is

def elfMinLoadVaddr : Loader Nat := minLoadVaddr img (2 ^ 64 - 1) (range img.ePhnum)

def maxLoadEnd (loadBias mx : Nat) : List Nat → Loader Nat
  | [] => pure mx
  | i :: is => do
    let ph := elfPhdrAt img i
    let load ← isLoad img ph
    if load then
      let vaddr ← pVaddr img ph
      let memsz ← pMemsz img ph
      let e := u64 (loadBias + vaddr + memsz)
      maxLoadEnd loadBias (if e > mx then e else mx) is
    else maxLoadEnd loadBias mx is

def elfMaxLoadEnd (loadBias : Nat) : Loader Nat :=
  maxLoadEnd img loadBias 0 (range img.ePhnum)

def phdrRuntimeAddr (loadBias : Nat) : List Nat → Loader Nat
  | [] => stop .error
  | i :: is => do
    let ph := elfPhdrAt img i
    let load ← isLoad img ph
    if load then
      let offset ← pOffset img ph
      let filesz ← pFilesz img ph
      if img.ePhoff ≥ offset ∧ img.ePhoff < u64 (offset + filesz) then
        let vaddr ← pVaddr img ph
        pure (u64 (loadBias + vaddr + (img.ePhoff - offset)))
      else phdrRuntimeAddr loadBias is
    else phdrRuntimeAddr loadBias is

def elfPhdrRuntimeAddr (loadBias : Nat) : Loader Nat :=
  phdrRuntimeAddr img loadBias (range img.ePhnum)

end Headers

/-- `align` is a power of two. -/
def elfAlignUp (x align : Nat) : Nat :=
  if align = 0 then x else u64 (x + (align - 1)) / align * align

/-! ## Segments -/

def editMem (f : Mem → Mem) : Loader Unit := act fun s => ((), { s with mem := f s.mem })

/-- `pmm_alloc_page`, and the failure of the caller if there is none. -/
def takePage : Loader Nat := do
  let phys ← act fun s => ((pmmAllocPage s.pmm).1, { s with pmm := (pmmAllocPage s.pmm).2 })
  if phys = 0 then do
    log .failed
    stop .error
  else pure phys

/-- `vmm_map_page`, whose result nobody looks at. -/
def mapPage (pml4 va phys flags : Nat) : Loader Unit := do
  let ok ← act fun s => vmmMapPage s pml4 va phys flags
  if ok then pure () else log .failed

/-- `memcpy` of `len` bytes at `off` of the file. -/
def copyFromFile (img : Image) (dst off len : Nat) : Loader Unit := do
  log (.read img.size (u64 off) len)
  editMem fun m => m.blit dst len fun k => img.byte (u64 (off + k))

def segmentFlags (pFlags : Nat) : Nat :=
  let flags := flagPresent ||| flagUser
  let flags := if has pFlags pfW then flags ||| flagWrite else flags
  if ¬ has pFlags pfX then flags ||| flagNx else flags

/-- The part of the file that belongs on the page at `va` of a segment. -/
def copySegment (img : Image) (ph segBase va phys : Nat) : Loader Unit := do
  let filesz ← pFilesz img ph
  let fileSegEnd := u64 (segBase + filesz)
  let pageEnd := u64 (va + pageSize)
  if pageEnd > segBase ∧ va < fileSegEnd then
    let copyStart := if va > segBase then va else segBase
    let copyEnd := if pageEnd < fileSegEnd then pageEnd else fileSegEnd
    let offset ← pOffset img ph
    copyFromFile img (phys + (copyStart - va)) (offset + (copyStart - segBase))
      (sub64 copyEnd copyStart)
  else pure ()

def mapSegmentPage (pml4 : Nat) (img : Image) (ph flags segBase va : Nat) : Loader Unit := do
  let phys ← takePage
  editMem fun m => m.fill phys pageSize 0
  copySegment img ph segBase va phys
  mapPage pml4 va phys flags

def segmentPages (segBase memsz : Nat) : List Nat :=
  let segStart := segBase / pageSize * pageSize
  let segEnd := u64 (segBase + memsz + 0xFFF) / pageSize * pageSize
  range' segStart ((segEnd - segStart) / pageSize) pageSize

def mapSegment (pml4 : Nat) (img : Image) (loadBias i : Nat) : Loader Unit := do
  let ph := elfPhdrAt img i
  let load ← isLoad img ph
  if load then
    let flags ← pFlags img ph
    let vaddr ← pVaddr img ph
    let memsz ← pMemsz img ph
    let segBase := u64 (vaddr + loadBias)
    (segmentPages segBase memsz).forM (mapSegmentPage pml4 img ph (segmentFlags flags) segBase)
  else pure ()

def elfMapPtLoads (pml4 : Nat) (img : Image) (loadBias : Nat) : Loader Unit :=
  (range img.ePhnum).forM (mapSegment pml4 img loadBias)

/-! ## Relocations -/

def elfWriteU64User (pml4 va val : Nat) : Loader Unit := do
  if va % 8 ≠ 0 then stop .error
  else
    let phys ← act fun s => (vmmVirtToPhys s.mem pml4 va, s)
    if phys = 0 then stop .error
    else editMem fun m => m.store phys (le64 val)

structure DynInfo where
  relaVa : Nat
  relasz : Nat
  relaent : Nat
  deriving DecidableEq

/-- The loop over the dynamic table: `cur` and `dend` are addresses. After 2^60 entries it is
back at the first one. -/
def dynLoop (img : Image) (dend : Nat) : Nat → Nat → DynInfo → Loader DynInfo
  | 0, _, _ => stop .hang
  | fuel + 1, cur, d =>
    if u64 (cur + dynSize) > dend then pure d
    else do
      let off := sub64 cur img.addr
      let tag ← readField img off 8
      if tag = dtNull then pure d
      else if tag = dtRela then do
        let v ← readField img (off + 8) 8
        dynLoop img dend fuel (u64 (cur + dynSize)) { d with relaVa := v }
      else if tag = dtRelasz then do
        let v ← readField img (off + 8) 8
        dynLoop img dend fuel (u64 (cur + dynSize)) { d with relasz := v }
      else if tag = dtRelaent then do
        let v ← readField img (off + 8) 8
        dynLoop img dend fuel (u64 (cur + dynSize))
          { d with relaent := if v ≠ 0 then v else d.relaent }
      else dynLoop img dend fuel (u64 (cur + dynSize)) d

/-- One entry of the relocation table, at `rr` in the file. -/
def applyRela (pml4 : Nat) (img : Image) (loadBase vaBias rr : Nat) : Loader Unit := do
  let info ← readField img (rr + 8) 8
  let offset ← readField img rr 8
  let type := info % 2 ^ 32
  if type = rX8664Relative then do
    let addend ← readField img (rr + 16) 8
    elfWriteU64User pml4 (u64 (vaBias + offset)) (u64 (loadBase + addend))
  else if type = rX8664None then pure ()
  else stop .error

/-- The loop over the relocation table; `off` takes at most 2^64 values. -/
def relaLoop (pml4 : Nat) (img : Image) (loadBase vaBias relaOff relasz relaent : Nat) :
    Nat → Nat → Loader Unit
  | 0, _ => stop .hang
  | fuel + 1, off =>
    if u64 (off + relaSize) > relasz then pure ()
    else do
      applyRela pml4 img loadBase vaBias (u64 (relaOff + off))
      relaLoop pml4 img loadBase vaBias relaOff relasz relaent fuel (u64 (off + relaent))

def elfApplyRelocations (pml4 : Nat) (img : Image) (loadBase vaBias : Nat) : Loader Unit := do
  let dyn ← elfFindPhdr img ptDynamic
  match dyn with
  | none => pure ()
  | some ph =>
    let memsz ← pMemsz img ph
    if memsz = 0 then pure ()
    else
      let offset ← pOffset img ph
      let filesz ← pFilesz img ph
      if u64 (offset + filesz) > img.size then stop .error
      else
        let start := u64 (img.addr + offset)
        let d ← dynLoop img (u64 (start + filesz)) (2 ^ 64) start ⟨0, 0, relaSize⟩
        if d.relasz = 0 then pure ()
        else if d.relaVa = 0 ∨ d.relaent < relaSize then stop .error
        else
          let off ← elfVaToFileOff img d.relaVa
          match off with
          | none => stop .error
          | some relaOff =>
            if u64 (relaOff + d.relasz) > img.size then stop .error
            else relaLoop pml4 img loadBase vaBias relaOff d.relasz d.relaent (2 ^ 64) 0

/-! ## The initial stack -/

/-- `copy_to_user_mapping`; each round copies at least one byte. -/
def copyChunks (pml4 : Nat) : Nat → Nat → List UInt8 → Loader Unit
  | 0, _, _ => pure ()
  | fuel + 1, dst, src =>
    if src = [] then pure ()
    else do
      let phys ← act fun s => (vmmVirtToPhys s.mem pml4 dst, s)
      if phys = 0 then stop .error
      else
        let pageOff := dst % pageSize
        let chunk := if pageSize - pageOff > src.length then src.length else pageSize - pageOff
        editMem fun m => m.store (phys / pageSize * pageSize + pageOff) (src.take chunk)
        copyChunks pml4 fuel (u64 (dst + chunk)) (src.drop chunk)

def copyToUserMapping (pml4 dst : Nat) (src : List UInt8) : Loader Unit :=
  copyChunks pml4 src.length dst src

/-- A string as it is put on the stack: at most 254 bytes and a zero. -/
def stackString (arg : CStr) : List UInt8 :=
  let len := if arg.1.length + 1 > 255 then 255 else arg.1.length + 1
  arg.1.take (len - 1) ++ [0]

/-- The strings from the last to the first; the stack pointer and the pointers to the strings. -/
def copyStringVector (pml4 sp : Nat) : List CStr → Loader (Nat × List Nat)
  | [] => pure (sp, [])
  | arg :: items => do
    let (sp, ptrs) ← copyStringVector pml4 sp items
    let sp := sub64 sp (stackString arg).length
    copyToUserMapping pml4 sp (stackString arg)
    pure (sp, sp :: ptrs)

def copyPointerVector (pml4 base : Nat) : List Nat → Loader Unit
  | [] => copyToUserMapping pml4 base (le64 0)
  | ptr :: ptrs => do
    copyToUserMapping pml4 base (le64 ptr)
    copyPointerVector pml4 (u64 (base + 8)) ptrs

/-- The arguments of a program: `argc`, and `argv` and `envp` or `NULL`. Entries of `argv` may be
`NULL` as well. -/
structure Args where
  argc : Int
  argv : Option (List (Option CStr))
  envp : Option (List CStr)

def emptyString : CStr := ⟨[], by decide⟩

def appName : CStr := ⟨[97, 112, 112], by decide⟩

def Args.strings (args : Args) (name : CStr) : List CStr :=
  let name := if name.1 = [] then appName else name
  match args.argv with
  | none => [name]
  | some argv =>
    if args.argc ≤ 0 then [name]
    else (range (min args.argc.toNat 16)).map fun i =>
      ((argv[i]?).getD none).getD emptyString

/-- `count_string_vector` and the strings it counts. -/
def Args.env (args : Args) : List CStr := (args.envp.getD []).take 16

structure StackInfo where
  sp : Nat
  argv : Nat
  envp : Nat
  deriving DecidableEq

/-- The strings of the environment, below them those of the arguments: the stack pointer and the
pointers to both. -/
def copyStrings (pml4 : Nat) (name : CStr) (args : Args) : Loader (Nat × List Nat × List Nat) := do
  let (sp, envPtrs) ← copyStringVector pml4 (userStackTop - 8) args.env
  let (sp, argPtrs) ← copyStringVector pml4 sp (args.strings name)
  pure (sp, envPtrs, argPtrs)

/-- The two vectors below `sp`, and the stack pointer below them. -/
def copyVectors (pml4 sp : Nat) (envPtrs argPtrs : List Nat) : Loader StackInfo := do
  let envpUser := sub64 sp ((envPtrs.length + 1) * 8)
  copyPointerVector pml4 envpUser envPtrs
  let argvUser := sub64 envpUser ((argPtrs.length + 1) * 8)
  copyPointerVector pml4 argvUser argPtrs
  let sp := if argvUser % 16 ≠ 8 then sub64 argvUser 8 else argvUser
  pure ⟨sp, argvUser, envpUser⟩

def buildInitialStack (pml4 : Nat) (name : CStr) (args : Args) : Loader StackInfo := do
  let (sp, envPtrs, argPtrs) ← copyStrings pml4 name args
  copyVectors pml4 (sp / 16 * 16) envPtrs argPtrs

def atNull : Nat := 0
def atPhdr : Nat := 3
def atPhent : Nat := 4
def atPhnum : Nat := 5
def atPagesz : Nat := 6
def atBase : Nat := 7
def atFlags : Nat := 8
def atEntry : Nat := 9
def atRandom : Nat := 25
def atExecfn : Nat := 31

/-- What the dynamic linker is told of the program. -/
structure AuxInfo where
  phdr : Nat
  phent : Nat
  phnum : Nat
  entry : Nat
  base : Nat
  deriving DecidableEq

/-- The auxiliary vector, an array of `u64`. -/
def auxv (info : AuxInfo) (randomSlot execfnUser : Nat) : List Nat :=
  ([atPhdr, info.phdr, atPhent, info.phent, atPhnum, info.phnum, atPagesz, pageSize,
    atBase, info.base, atFlags, 0, atEntry, info.entry, atRandom, randomSlot] ++
  (if execfnUser ≠ 0 then [atExecfn, execfnUser] else []) ++ [atNull, 0]).map u64

/-- The path of the program, if there is one: the stack pointer and where the path is, or 0. -/
def copyExecfn (pml4 sp : Nat) (execfn : CStr) : Loader (Nat × Nat) := do
  if execfn.1 = [] then pure (sp, 0)
  else
    let sp := sub64 sp (stackString execfn).length
    copyToUserMapping pml4 sp (stackString execfn)
    pure (sp, sp)

def buildInitialStackLdso (pml4 : Nat) (name : CStr) (args : Args) (execfn : CStr)
    (info : AuxInfo) : Loader Nat := do
  let (sp, envPtrs, argPtrs) ← copyStrings pml4 name args
  let (sp, execfnUser) ← copyExecfn pml4 sp execfn
  let randomSlot := sub64 sp 16
  copyToUserMapping pml4 randomSlot (replicate 16 0x41)
  let aux := auxv info randomSlot execfnUser
  let auxUser := sub64 (randomSlot / 16 * 16) (aux.length * 8)
  copyToUserMapping pml4 auxUser (aux.flatMap le64)
  let stack ← copyVectors pml4 auxUser envPtrs argPtrs
  elfWriteU64User pml4 stack.sp argPtrs.length
  pure stack.sp

def stackFlags : Nat := flagPresent ||| flagUser ||| flagWrite ||| flagNx

def mapStackPage (pml4 va : Nat) : Loader Unit := do
  let phys ← takePage
  editMem fun m => m.fill phys pageSize 0
  mapPage pml4 va phys stackFlags

def allocateUserStack (pml4 : Nat) : Loader Unit :=
  (range' userStackBase userStackPages pageSize).forM (mapStackPage pml4)

/-! ## Programs -/

/-- `elf_exec_image_t`. -/
structure ExecImage where
  pml4 : Nat
  entry : Nat
  rsp : Nat
  argc : Nat
  argv : Nat
  envp : Nat
  brkStart : Nat
  ldsoEntry : Bool
  deriving DecidableEq

def Args.count (args : Args) : Nat := if args.argc ≤ 0 then 1 else min args.argc.toNat 16

/-- `vmm_create_user_pml4`, and `vmm_destroy_user_pml4` if the rest fails. -/
def withUserPml4 {α : Type} (body : Nat → Loader α) : Loader α := fun s =>
  match vmmCreateUserPml4 s with
  | (none, s) => ([.failed], .error .error, s)
  | (some pml4, s) =>
    match body pml4 s with
    | (l, .error .error, s) => (l, .error .error, vmmDestroyUserPml4 s pml4)
    | out => out

section Programs

variable (img : Image)

def Image.identified : Bool :=
  img.eMagic == elfMagic && img.eClass == 2 && img.eMachine == 0x3E &&
    (img.eType == etExec || img.eType == etDyn)

def Image.phdrsChecked : Bool :=
  img.ePhentsize == phdrSize &&
    decide (u64 (img.ePhoff + img.ePhnum * img.ePhentsize) ≤ img.size)

def Image.bias : Nat := if img.eType = etDyn then userElfDynBase else 0

def readHeader : Loader Unit := log (.read img.size 0 ehdrSize)

def checked (ok : Bool) : Loader Unit := if ok then pure () else stop .error

def brkStartOf (maxEnd : Nat) : Nat := u64 (elfAlignUp maxEnd pageSize + pageSize)

def loadStatic (pml4 loadBias : Nat) (name : CStr) (args : Args) : Loader ExecImage := do
  elfMapPtLoads pml4 img loadBias
  let minV ← elfMinLoadVaddr img
  elfApplyRelocations pml4 img (u64 (loadBias + minV)) loadBias
  allocateUserStack pml4
  let stack ← buildInitialStack pml4 name args
  let maxEnd ← elfMaxLoadEnd img loadBias
  pure {
    pml4, entry := u64 (loadBias + img.eEntry), rsp := stack.sp, argc := args.count
    argv := stack.argv, envp := stack.envp, brkStart := brkStartOf maxEnd, ldsoEntry := false }

def elfPrepareStaticImage (name : CStr) (args : Args) : Loader ExecImage := do
  checked (decide (ehdrSize ≤ img.size))
  readHeader img
  checked img.identified
  checked (img.phdrsChecked)
  withUserPml4 fun pml4 => loadStatic img pml4 img.bias name args

/-- The path in `PT_INTERP`, up to a zero or the end of the line. -/
def interpPath (ph : Nat) : Loader (List UInt8) := do
  let filesz ← pFilesz img ph
  let offset ← pOffset img ph
  let il := if filesz ≥ 256 then 255 else filesz
  log (.read img.size (u64 offset) il)
  pure (((range il).map fun k => img.byte (u64 (offset + k))).takeWhile fun c =>
    c != 0 && c != 10 && c != 13)

def loadDynamic (interp : Image) (pml4 mainBias : Nat) (name : CStr) (args : Args)
    (execfn : CStr) : Loader ExecImage := do
  elfMapPtLoads pml4 img mainBias
  let minV ← elfMinLoadVaddr img
  elfApplyRelocations pml4 img (u64 (mainBias + minV)) mainBias
  let maxMain ← elfMaxLoadEnd img mainBias
  let interpBias := elfAlignUp (u64 (maxMain + elfInterpGapBytes)) pageSize
  elfMapPtLoads pml4 interp interpBias
  let interpMin ← elfMinLoadVaddr interp
  let interpLoadBase := u64 (interpBias + interpMin)
  elfApplyRelocations pml4 interp interpLoadBase interpBias
  let phdr ← elfPhdrRuntimeAddr img mainBias
  allocateUserStack pml4
  let rsp ← buildInitialStackLdso pml4 name args execfn
    ⟨phdr, img.ePhentsize, img.ePhnum, u64 (mainBias + img.eEntry), interpLoadBase⟩
  pure {
    pml4, entry := u64 (interpBias + interp.eEntry), rsp, argc := args.count, argv := 0, envp := 0
    brkStart := brkStartOf maxMain, ldsoEntry := true }

/-- The interpreter is an ELF file of its own, and always position independent. -/
def checkInterp (interp : Option Image) : Loader Image := do
  match interp with
  | none => stop .error
  | some i =>
    checked (decide (ehdrSize ≤ i.size))
    readHeader i
    checked (i.identified && i.eType == etDyn)
    checked (i.phdrsChecked)
    pure i

/-- `files` is what `elf_read_whole_file` finds under a path. -/
def elfPrepareDynamicImage (files : List UInt8 → Option Image) (name : CStr) (args : Args)
    (execfn : CStr) : Loader ExecImage := do
  checked (decide (ehdrSize ≤ img.size))
  readHeader img
  checked img.identified
  checked (img.phdrsChecked)
  let ph ← elfFindPhdr img ptInterp
  match ph with
  | none => stop .error
  | some ph =>
    let filesz ← pFilesz img ph
    if filesz = 0 then stop .error
    else
      let offset ← pOffset img ph
      checked (decide (u64 (offset + filesz) ≤ img.size))
      let path ← interpPath img ph
      checked (!path.isEmpty)
      let interp ← checkInterp (files path)
      withUserPml4 fun pml4 => loadDynamic img interp pml4 img.bias name args execfn

end Programs

end YamKernel.Elf

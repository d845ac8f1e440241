import YamKernel.Fs.Elf.Model

/-!
# What the headers say

The functions that only read the headers leave the address space alone, so each has a value: a
function of the list of segments that the file asks for, in the order of its headers.
-/

namespace YamKernel.Elf

open Lib Traced List

structure Segment where
  flags : Nat
  offset : Nat
  vaddr : Nat
  filesz : Nat
  memsz : Nat
  deriving DecidableEq

section Values

variable (img : Image)

def Image.typeAt (ph : Nat) : Nat := img.field (u64 ph) 4

def Image.segmentAt (ph : Nat) : Segment where
  flags := img.field (u64 (ph + 4)) 4
  offset := img.field (u64 (ph + 8)) 8
  vaddr := img.field (u64 (ph + 16)) 8
  filesz := img.field (u64 (ph + 32)) 8
  memsz := img.field (u64 (ph + 40)) 8

def Image.loadAt (ph : Nat) : Bool := img.typeAt ph == ptLoad && (img.segmentAt ph).memsz != 0

def Image.loadsOf (is : List Nat) : List Segment :=
  ((is.map (elfPhdrAt img)).filter img.loadAt).map img.segmentAt

def Image.loads : List Segment := img.loadsOf (range img.ePhnum)

def Image.phdrOf (kind : Nat) : Option Nat :=
  ((range img.ePhnum).map (elfPhdrAt img)).find? fun ph => img.typeAt ph == kind

end Values

/-- Where the address `va` is in the file. -/
def segmentsOff (va : Nat) : List Segment → Option Nat
  | [] => none
  | g :: gs =>
    if va ≥ g.vaddr ∧ va < u64 (g.vaddr + g.memsz) then
      if va - g.vaddr ≥ g.filesz then none else some (u64 (g.offset + (va - g.vaddr)))
    else segmentsOff va gs

def lowest (m : Nat) (gs : List Segment) : Nat :=
  gs.foldl (fun m g => if g.vaddr < m then g.vaddr else m) m

def Image.minVaddr (img : Image) : Nat :=
  let m := lowest (2 ^ 64 - 1) img.loads
  if m = 2 ^ 64 - 1 then 0 else m

def highest (bias m : Nat) (gs : List Segment) : Nat :=
  gs.foldl (fun m g => if u64 (bias + g.vaddr + g.memsz) > m then u64 (bias + g.vaddr + g.memsz)
    else m) m

lemma lowest_cons (m : Nat) (g : Segment) (gs : List Segment) :
    lowest m (g :: gs) = lowest (if g.vaddr < m then g.vaddr else m) gs := rfl

lemma highest_cons (bias m : Nat) (g : Segment) (gs : List Segment) :
    highest bias m (g :: gs) = highest bias (if u64 (bias + g.vaddr + g.memsz) > m then
      u64 (bias + g.vaddr + g.memsz) else m) gs := rfl

def phdrAddr (phoff bias : Nat) : List Segment → Except Stop Nat
  | [] => .error .error
  | g :: gs =>
    if phoff ≥ g.offset ∧ phoff < u64 (g.offset + g.filesz) then
      .ok (u64 (bias + g.vaddr + (phoff - g.offset)))
    else phdrAddr phoff bias gs

section Fixed

variable {img : Image} {ph : Nat}

lemma fixed_readField (off len : Nat) :
    Fixed (readField img off len) (.ok (img.field (u64 off) len)) :=
  (fixed_log _).bind (fixed_pure _)

lemma fixed_pFlags (ph : Nat) : Fixed (pFlags img ph) (.ok (img.segmentAt ph).flags) :=
  fixed_readField _ _

lemma fixed_pOffset (ph : Nat) : Fixed (pOffset img ph) (.ok (img.segmentAt ph).offset) :=
  fixed_readField _ _

lemma fixed_pVaddr (ph : Nat) : Fixed (pVaddr img ph) (.ok (img.segmentAt ph).vaddr) :=
  fixed_readField _ _

lemma fixed_pFilesz (ph : Nat) : Fixed (pFilesz img ph) (.ok (img.segmentAt ph).filesz) :=
  fixed_readField _ _

lemma fixed_pMemsz (ph : Nat) : Fixed (pMemsz img ph) (.ok (img.segmentAt ph).memsz) :=
  fixed_readField _ _

lemma fixed_isLoad (ph : Nat) : Fixed (isLoad img ph) (.ok (img.loadAt ph)) := by
  refine (fixed_readField ph 4).bind ?_
  rw [Image.loadAt, Image.typeAt]
  split_ifs with h
  · rw [beq_false_of_ne h]
    exact fixed_pure false
  · rw [not_not.mp h, beq_self_eq_true, Bool.true_and]
    exact (fixed_readField _ _).bind (fixed_pure _)

lemma Image.loadsOf_cons (i : Nat) (is : List Nat) : img.loadsOf (i :: is) =
    (if img.loadAt (elfPhdrAt img i) then [img.segmentAt (elfPhdrAt img i)] else []) ++
      img.loadsOf is := by
  unfold loadsOf
  rw [map_cons, filter_cons]
  split_ifs <;> rfl

/-- Every loop over the segments passes over the other headers. -/
theorem fixed_load {α : Type} {F : List Segment → Except Stop α} {p q : Loader α} {i : Nat}
    {is : List Nat} (hp : Fixed p (F (img.segmentAt (elfPhdrAt img i) :: img.loadsOf is)))
    (hq : Fixed q (F (img.loadsOf is))) :
    Fixed (isLoad img (elfPhdrAt img i) >>= fun load => if load then p else q)
      (F (img.loadsOf (i :: is))) := by
  refine (fixed_isLoad _).bind ?_
  rw [Image.loadsOf_cons]
  split_ifs
  · exact hp
  · exact hq

lemma fixed_findPhdr (kind : Nat) (is : List Nat) : Fixed (findPhdr img kind is)
    (.ok ((is.map (elfPhdrAt img)).find? fun ph => img.typeAt ph == kind)) := by
  induction is with
  | nil => exact fixed_pure none
  | cons i is ih =>
    refine (fixed_readField _ 4).bind ?_
    rw [map_cons, find?_cons, Image.typeAt]
    split_ifs with h
    · rw [h, beq_self_eq_true]
      exact fixed_pure _
    · rw [beq_false_of_ne h]
      exact ih

lemma fixed_elfFindPhdr (kind : Nat) : Fixed (elfFindPhdr img kind) (.ok (img.phdrOf kind)) :=
  fixed_findPhdr kind _

lemma fixed_vaToFileOff (va : Nat) (is : List Nat) :
    Fixed (vaToFileOff img va is) (.ok (segmentsOff va (img.loadsOf is))) := by
  induction is with
  | nil => exact fixed_pure none
  | cons i is ih =>
    refine fixed_load (F := fun gs => .ok (segmentsOff va gs)) ?_ ih
    rw [segmentsOff]
    refine (fixed_pVaddr _).bind ((fixed_pMemsz _).bind ?_)
    split_ifs with hin hsz
    · refine (fixed_pFilesz _).bind ?_
      rw [if_pos hsz]
      exact fixed_pure none
    · refine (fixed_pFilesz _).bind ?_
      rw [if_neg hsz]
      exact (fixed_pOffset _).bind (fixed_pure _)
    · exact ih

lemma fixed_elfVaToFileOff (va : Nat) :
    Fixed (elfVaToFileOff img va) (.ok (segmentsOff va img.loads)) :=
  fixed_vaToFileOff va _

lemma fixed_minLoadVaddr (m : Nat) (is : List Nat) : Fixed (minLoadVaddr img m is)
    (.ok (if lowest m (img.loadsOf is) = 2 ^ 64 - 1 then 0 else lowest m (img.loadsOf is))) := by
  induction is generalizing m with
  | nil => exact fixed_pure _
  | cons i is ih =>
    exact fixed_load (F := fun gs => .ok (if lowest m gs = 2 ^ 64 - 1 then 0 else lowest m gs))
      ((fixed_pVaddr _).bind (ih _)) (ih m)

lemma fixed_elfMinLoadVaddr : Fixed (elfMinLoadVaddr img) (.ok img.minVaddr) :=
  fixed_minLoadVaddr _ _

lemma fixed_maxLoadEnd (bias m : Nat) (is : List Nat) :
    Fixed (maxLoadEnd img bias m is) (.ok (highest bias m (img.loadsOf is))) := by
  induction is generalizing m with
  | nil => exact fixed_pure _
  | cons i is ih =>
    refine fixed_load (F := fun gs => .ok (highest bias m gs)) ?_ (ih m)
    rw [highest_cons]
    exact (fixed_pVaddr _).bind ((fixed_pMemsz _).bind (ih _))

lemma fixed_elfMaxLoadEnd (bias : Nat) :
    Fixed (elfMaxLoadEnd img bias) (.ok (highest bias 0 img.loads)) :=
  fixed_maxLoadEnd bias 0 _

lemma fixed_phdrRuntimeAddr (bias : Nat) (is : List Nat) :
    Fixed (phdrRuntimeAddr img bias is) (phdrAddr img.ePhoff bias (img.loadsOf is)) := by
  induction is with
  | nil => exact fixed_stop _
  | cons i is ih =>
    refine fixed_load ?_ ih
    rw [phdrAddr]
    refine (fixed_pOffset _).bind ((fixed_pFilesz _).bind ?_)
    split_ifs
    · exact (fixed_pVaddr _).bind (fixed_pure _)
    · exact ih

lemma fixed_elfPhdrRuntimeAddr (bias : Nat) :
    Fixed (elfPhdrRuntimeAddr img bias) (phdrAddr img.ePhoff bias img.loads) :=
  fixed_phdrRuntimeAddr bias _

end Fixed

/-! ## Files with given headers -/

def leBytes (n v : Nat) : List UInt8 := (le64 v).take n

/-- A program header with the alignment 1. -/
def phdrBytes (kind : Nat) (g : Segment) : List UInt8 :=
  leBytes 4 kind ++ leBytes 4 g.flags ++ le64 g.offset ++ le64 g.vaddr ++ le64 g.vaddr ++
    le64 g.filesz ++ le64 g.memsz ++ le64 1

/-- A 64-bit x86 file: its header, the program headers right behind it, and its other bytes. -/
def elfFile (type entry : Nat) (phdrs : List (Nat × Segment)) (data : List UInt8) : List UInt8 :=
  [0x7F, 0x45, 0x4C, 0x46, 2, 1, 1, 0] ++ le64 0 ++ leBytes 2 type ++ leBytes 2 62 ++
    leBytes 4 1 ++ le64 entry ++ le64 ehdrSize ++ le64 0 ++ leBytes 4 0 ++ leBytes 2 ehdrSize ++
    leBytes 2 phdrSize ++ leBytes 2 phdrs.length ++ leBytes 6 0 ++
    phdrs.flatMap (fun ph => phdrBytes ph.1 ph.2) ++ data

def imageOf (file : List UInt8) : Image := ⟨2 ^ 21, file.length, fun o => file.getD o 0⟩

end YamKernel.Elf

import YamKernel.Fs.Elf.Headers
import YamKernel.Fs.Elf.LdsoStack
import YamKernel.Lib.Override

/-!
# Relocations

The dynamic table of a file names its relocation table. `elf_apply_relocations` goes through both
and stores one word per entry. The word is the addend plus `load_base`, which is the bias plus the
lowest address of the file, and its place is counted from the bias alone.
-/

namespace YamKernel.Elf

open Lib Vmm Pmm Traced List Nat

structure Rela where
  offset : Nat
  info : Nat
  addend : Nat
  deriving DecidableEq

/-- An entry of the dynamic table, a tag and a value, is taken in. -/
def DynInfo.add (d : DynInfo) (e : Nat × Nat) : DynInfo :=
  if e.1 = dtRela then { d with relaVa := e.2 }
  else if e.1 = dtRelasz then { d with relasz := e.2 }
  else if e.1 = dtRelaent then { d with relaent := if e.2 ≠ 0 then e.2 else d.relaent }
  else d

namespace Image

variable (img : Image)

/-- The entry of the dynamic table at `off` of the file. -/
def dynAt (off : Nat) : Nat × Nat := (img.field (u64 off) 8, img.field (u64 (off + 8)) 8)

/-- At most `n` entries, up to the first with the tag 0. -/
def dynTable (off : Nat) : Nat → List (Nat × Nat)
  | 0 => []
  | n + 1 => if (img.dynAt off).1 = dtNull then [] else img.dynAt off :: dynTable (off + dynSize) n

/-- The header of the dynamic table, if there is one in memory. -/
def dynPhdr : Option Nat := (img.phdrOf ptDynamic).filter fun ph => (img.segmentAt ph).memsz ≠ 0

def dynInfo : DynInfo :=
  match img.dynPhdr with
  | none => ⟨0, 0, relaSize⟩
  | some ph =>
    (img.dynTable (img.segmentAt ph).offset ((img.segmentAt ph).filesz / dynSize)).foldl
      DynInfo.add ⟨0, 0, relaSize⟩

def relaAt (rr : Nat) : Rela :=
  ⟨img.field (u64 rr) 8, img.field (u64 (rr + 8)) 8, img.field (u64 (rr + 16)) 8⟩

def relaTable (off n : Nat) : List Rela := (range n).map fun k => img.relaAt (off + k * relaSize)

def relas : List Rela :=
  match segmentsOff img.dynInfo.relaVa img.loads with
  | none => []
  | some off => img.relaTable off (img.dynInfo.relasz / relaSize)

/-- If there is a relocation table, it is where the dynamic table says. -/
def TableFound : Prop := img.dynInfo.relasz = 0 ∨
  img.dynInfo.relaVa ≠ 0 ∧ segmentsOff img.dynInfo.relaVa img.loads ≠ none

/-- A file whose relocations are all relative, 8-aligned and inside its segments. -/
structure Relocatable : Prop where
  /-- The file is in kernel memory, not at its very end. -/
  placed : img.addr + img.size + pageSize ≤ 2 ^ 64
  dynamic : ∀ ph, img.dynPhdr = some ph →
    (img.segmentAt ph).offset + (img.segmentAt ph).filesz ≤ img.size
  entsize : img.dynInfo.relaent = relaSize
  table : ∀ off, segmentsOff img.dynInfo.relaVa img.loads = some off →
    off + img.dynInfo.relasz ≤ img.size
  relative : ∀ e ∈ img.relas, e.info % 2 ^ 32 = rX8664Relative
  aligned : ∀ e ∈ img.relas, e.offset % 8 = 0
  inside : ∀ e ∈ img.relas, ∃ g ∈ img.loads, g.vaddr ≤ e.offset ∧ e.offset + 8 ≤ g.vaddr + g.memsz

variable {img}

lemma relas_nil (h : img.dynInfo.relasz = 0) : img.relas = [] := by
  unfold relas
  rw [h]
  split
  · rfl
  · rfl

lemma relaTable_succ (off n : Nat) :
    img.relaTable off (n + 1) = img.relaAt off :: img.relaTable (off + relaSize) n := by
  unfold relaTable
  rw [range_succ_eq_map, map_cons, map_map]
  refine congrArg _ (map_congr_left fun k _ => congrArg img.relaAt ?_)
  rw [succ_mul]
  omega

end Image

def relocated (loadBase bias : Nat) (es : List Rela) (m : Mem) : Mem :=
  es.foldl (fun m e => m.store (bias + e.offset) (le64 (u64 (loadBase + e.addend)))) m

lemma relocated_cons (loadBase bias : Nat) (e : Rela) (es : List Rela) (m : Mem) :
    relocated loadBase bias (e :: es) m = relocated loadBase bias es
      (m.store (bias + e.offset) (le64 (u64 (loadBase + e.addend)))) := rfl

/-! ## The tables -/

section Tables

variable {img : Image} {r s₀ s m bad stops}

/-- The loop over the dynamic table, `rem` bytes before its end. -/
theorem fixed_dynLoop {off rem fuel : Nat} {d : DynInfo}
    (hplaced : img.addr + off + rem + dynSize < 2 ^ 64) (hfuel : rem / dynSize < fuel) :
    Fixed (dynLoop img (img.addr + off + rem) fuel (img.addr + off) d)
      (.ok ((img.dynTable off (rem / dynSize)).foldl DynInfo.add d)) := by
  induction fuel generalizing off rem d with
  | zero => exact absurd hfuel (not_lt_zero _)
  | succ fuel ih =>
    have hnext : u64 (img.addr + off + dynSize) = img.addr + off + dynSize := u64_of_lt
    have hoff : sub64 (img.addr + off) img.addr = off := by
      rw [sub64_of_le]
      omega
    unfold dynLoop
    rw [hnext]
    by_cases hrem : rem < dynSize
    · rw [if_pos (by omega), div_eq_of_lt hrem]
      exact fixed_pure d
    rw [if_neg (by omega), hoff]
    have hdiv : rem / dynSize = (rem - dynSize) / dynSize + 1 := by
      unfold dynSize at *
      omega
    have hrec : ∀ d, Fixed (dynLoop img (img.addr + off + rem) fuel (img.addr + off + dynSize) d)
        (.ok ((img.dynTable (off + dynSize) ((rem - dynSize) / dynSize)).foldl DynInfo.add d)) := by
      intro d
      have hend : img.addr + (off + dynSize) + (rem - dynSize) = img.addr + off + rem := by omega
      have : img.addr + off + dynSize = img.addr + (off + dynSize) := add_assoc ..
      rw [← hend]
      exact ih (by omega) (by omega)
    rw [hdiv, Image.dynTable]
    refine (fixed_readField off 8).bind ?_
    have htag : img.field (u64 off) 8 = (img.dynAt off).1 := rfl
    rw [htag]
    by_cases h0 : (img.dynAt off).1 = dtNull
    · rw [if_pos h0, if_pos h0]
      exact fixed_pure d
    rw [if_neg h0, if_neg h0, foldl_cons, DynInfo.add]
    by_cases h1 : (img.dynAt off).1 = dtRela
    · rw [if_pos h1, if_pos h1]
      exact (fixed_readField _ 8).bind (hrec _)
    rw [if_neg h1, if_neg h1]
    by_cases h2 : (img.dynAt off).1 = dtRelasz
    · rw [if_pos h2, if_pos h2]
      exact (fixed_readField _ 8).bind (hrec _)
    rw [if_neg h2, if_neg h2]
    by_cases h3 : (img.dynAt off).1 = dtRelaent
    · rw [if_pos h3, if_pos h3]
      exact (fixed_readField _ 8).bind (hrec _)
    rw [if_neg h3, if_neg h3]
    exact hrec _

end Tables

section Apply

variable {img : Image} {r loadBase bias : Nat} {s₀ s : Vmm.State} {m : Mem} {bad : Event → Prop}
  {stops : Stop → Prop}

/-- The word of a relative entry is stored, or its place is missing. -/
def Rela.Applies (r bias : Nat) (s₀ : Vmm.State) (stops : Stop → Prop) (e : Rela) : Prop :=
  e.info % 2 ^ 32 = rX8664Relative ∧ (bias + e.offset) % 8 = 0 ∧ bias + e.offset < userEnd ∧
    (Gap r s₀ (bias + e.offset) (bias + e.offset + 8) → stops .error)

lemma gives_applyRela {rr : Nat} {e : Rela} (h : Shows r s₀ m s) (he : img.relaAt rr = e)
    (happ : e.Applies r bias s₀ stops) :
    Gives (applyRela r img loadBase bias rr) s bad stops fun _ =>
      Shows r s₀ (m.store (bias + e.offset) (le64 (u64 (loadBase + e.addend)))) := by
  obtain ⟨htype, halign, huser, hgap⟩ := happ
  have := userLayout.2.2
  have hu : u64 (bias + e.offset) = bias + e.offset := u64_of_lt
  have hinfo : Fixed (readField img (rr + 8) 8) (.ok e.info) := he ▸ fixed_readField _ _
  have hoff : Fixed (readField img rr 8) (.ok e.offset) := he ▸ fixed_readField _ _
  have hadd : Fixed (readField img (rr + 16) 8) (.ok e.addend) := he ▸ fixed_readField _ _
  refine hinfo.gives_bind (hoff.gives_bind ?_)
  rw [if_pos htype]
  refine hadd.gives_bind ?_
  rw [hu]
  exact gives_writeU64 h huser halign hgap

lemma gives_relaLoop {relaOff relasz off fuel : Nat} (h : Shows r s₀ m s)
    (hin : relaOff + relasz + relaSize < 2 ^ 64) (hfuel : (relasz - off) / relaSize < fuel)
    (hoff : off ≤ relasz)
    (happ : ∀ e ∈ img.relaTable (relaOff + off) ((relasz - off) / relaSize),
      e.Applies r bias s₀ stops) :
    Gives (relaLoop r img loadBase bias relaOff relasz relaSize fuel off) s bad stops fun _ =>
      Shows r s₀ (relocated loadBase bias
        (img.relaTable (relaOff + off) ((relasz - off) / relaSize)) m) := by
  induction fuel generalizing off s m with
  | zero => exact absurd hfuel (not_lt_zero _)
  | succ fuel ih =>
    have hnext : u64 (off + relaSize) = off + relaSize := u64_of_lt
    have hat : u64 (relaOff + off) = relaOff + off := u64_of_lt
    unfold relaLoop
    rw [hnext, hat]
    by_cases hrem : relasz < off + relaSize
    · rw [if_pos hrem, div_eq_of_lt (by omega)]
      exact gives_pure h
    have hdiv : (relasz - off) / relaSize = (relasz - (off + relaSize)) / relaSize + 1 := by
      unfold relaSize at *
      omega
    rw [if_neg hrem]
    rw [hdiv, Image.relaTable_succ] at happ ⊢
    refine (gives_applyRela h rfl (happ _ mem_cons_self)).bind fun _ s' h' => ?_
    rw [relocated_cons]
    exact ih h' (by omega) (by omega) fun e he => happ e (mem_cons_of_mem _ he)

lemma gives_elfApplyRelocations (h : Shows r s₀ m s) (hrel : img.Relocatable)
    (htarget : ∀ e ∈ img.relas, (bias + e.offset) % 8 = 0 ∧ bias + e.offset < userEnd)
    (hstop : (img.TableFound →
      ∃ e ∈ img.relas, Gap r s₀ (bias + e.offset) (bias + e.offset + 8)) → stops .error) :
    Gives (elfApplyRelocations r img loadBase bias) s bad stops fun _ =>
      Shows r s₀ (relocated loadBase bias img.relas m) := by
  have := hrel.placed
  have : pageSize = 4096 := rfl
  have hnone : img.dynPhdr = none → img.relas = [] := by
    intro hd
    refine Image.relas_nil ?_
    rw [Image.dynInfo, hd]
  refine (fixed_elfFindPhdr ptDynamic).gives_bind ?_
  cases hdyn : img.phdrOf ptDynamic with
  | none =>
    rw [hnone (by rw [Image.dynPhdr, hdyn]; rfl)]
    exact gives_pure h
  | some ph =>
    dsimp only
    refine (fixed_pMemsz ph).gives_bind ?_
    by_cases hmem : (img.segmentAt ph).memsz = 0
    · rw [if_pos hmem, hnone (by rw [Image.dynPhdr, hdyn]; simp [hmem])]
      exact gives_pure h
    have hph : img.dynPhdr = some ph := by
      rw [Image.dynPhdr, hdyn]
      simp [hmem]
    have := hrel.dynamic ph hph
    have hinfo : (img.dynTable (img.segmentAt ph).offset
        ((img.segmentAt ph).filesz / dynSize)).foldl DynInfo.add ⟨0, 0, relaSize⟩ =
          img.dynInfo := by
      unfold Image.dynInfo
      rw [hph]
    rw [if_neg hmem]
    refine (fixed_pOffset ph).gives_bind ?_
    refine (fixed_pFilesz ph).gives_bind ?_
    have hstart : u64 (img.addr + (img.segmentAt ph).offset) =
        img.addr + (img.segmentAt ph).offset := u64_of_lt
    have hstopAt : u64 (img.addr + (img.segmentAt ph).offset + (img.segmentAt ph).filesz) =
        img.addr + (img.segmentAt ph).offset + (img.segmentAt ph).filesz := u64_of_lt
    rw [u64_of_lt, if_neg (by omega), hstart, hstopAt]
    have hsmall : (img.segmentAt ph).filesz / dynSize < 2 ^ 64 :=
      lt_of_le_of_lt (div_le_self _ _) (by omega)
    have hroom : img.addr + (img.segmentAt ph).offset + (img.segmentAt ph).filesz + dynSize <
        2 ^ 64 := by
      unfold dynSize
      omega
    have hloop := fixed_dynLoop (d := ⟨0, 0, relaSize⟩) hroom hsmall
    rw [hinfo] at hloop
    refine hloop.gives_bind ?_
    by_cases hzero : img.dynInfo.relasz = 0
    · rw [if_pos hzero, Image.relas_nil hzero]
      exact gives_pure h
    have hlost : ¬ img.TableFound → stops .error := fun hno => hstop fun hc => absurd hc hno
    split_ifs with hbad
    · refine gives_stop (hlost fun hfound => ?_)
      rcases hfound with h0 | ⟨hva, -⟩
      · exact hzero h0
      · rw [hrel.entsize] at hbad
        exact hbad.elim hva (lt_irrefl _)
    refine (fixed_elfVaToFileOff img.dynInfo.relaVa).gives_bind ?_
    cases hoff : segmentsOff img.dynInfo.relaVa img.loads with
    | none =>
      refine gives_stop (hlost fun hfound => ?_)
      exact hfound.elim hzero fun hc => hc.2 hoff
    | some relaOff =>
      have := hrel.table relaOff hoff
      have hrelas : img.relas = img.relaTable relaOff (img.dynInfo.relasz / relaSize) := by
        unfold Image.relas
        rw [hoff]
      have happ : ∀ e ∈ img.relas, e.Applies r bias s₀ stops := fun e he =>
        ⟨hrel.relative e he, (htarget e he).1, (htarget e he).2,
          fun hg => hstop fun _ => ⟨e, he, hg⟩⟩
      rw [hrelas] at happ ⊢
      dsimp only
      rw [u64_of_lt, if_neg (by omega), hrel.entsize]
      have hsmall : (img.dynInfo.relasz - 0) / relaSize < 2 ^ 64 :=
        lt_of_le_of_lt (div_le_self _ _) (by omega)
      exact gives_relaLoop h (by unfold relaSize; omega) hsmall (zero_le _) happ

end Apply

/-! ## The words -/

section Words

variable {bias : Nat} {es : List Rela} {m : Mem}

/-- Entries with the same place have the same addend. -/
def OneAddend (es : List Rela) : Prop :=
  ∀ e ∈ es, ∀ e' ∈ es, e.offset = e'.offset → e.addend = e'.addend

lemma relocated_read {loadBase off : Nat} (halign : ∀ e ∈ es, e.offset % 8 = 0)
    (hoff : off % 8 = 0) : (relocated loadBase bias es m).read (bias + off) 8 =
      (lastHit (fun e : Rela => e.offset = off) es).elim (m.read (bias + off) 8)
        fun e => u64 (loadBase + e.addend) := by
  refine foldl_lastHit (o := fun m : Mem => m.read (bias + off) 8) (fun e he m => ?_) m
  split_ifs with heq
  · rw [heq]
    exact Mem.read_store_le64 (u64_lt _)
  · have := halign e he
    refine Mem.read_congr fun x h1 h2 => Mem.store_of_notMem ?_
    rw [length_le64]
    omega

lemma relocated_of_notMem {loadBase x : Nat}
    (h : ∀ e ∈ es, x < bias + e.offset ∨ bias + e.offset + 8 ≤ x) :
    relocated loadBase bias es m x = m x := by
  induction es generalizing m with
  | nil => rfl
  | cons e es ih =>
    rw [relocated_cons, ih fun e' he' => h e' (mem_cons_of_mem _ he'), Mem.store_of_notMem]
    exact h e mem_cons_self

/-- Every word is right if and only if the two bases are the same and no two entries disagree. -/
theorem words_iff {low b : Nat} (hlow : low < 2 ^ 64) (halign : ∀ e ∈ es, e.offset % 8 = 0)
    (hadd : ∀ e ∈ es, e.addend < 2 ^ 64) :
    (∀ e ∈ es, (relocated (u64 (b + low)) b es m).read (b + e.offset) 8 =
      u64 (b + e.addend)) ↔ es = [] ∨ low = 0 ∧ OneAddend es := by
  have hlast : ∀ e ∈ es, ∃ e' ∈ es, lastHit (fun x : Rela => x.offset = e.offset) es = some e' ∧
      e'.offset = e.offset ∧ (relocated (u64 (b + low)) b es m).read (b + e.offset) 8 =
        u64 (u64 (b + low) + e'.addend) := by
    intro e he
    obtain ⟨e', he'⟩ : ∃ e', lastHit (fun x : Rela => x.offset = e.offset) es = some e' :=
      exists_lastHit he rfl
    obtain ⟨hmem, hoff⟩ := lastHit_some he'
    refine ⟨e', hmem, he', hoff, ?_⟩
    rw [relocated_read halign (halign e he), he', Option.elim]
  constructor
  · intro h
    by_cases hnil : es = []
    · exact .inl hnil
    -- The last entry of all has had its own word.
    obtain ⟨e, he⟩ := exists_mem_of_ne_nil es hnil
    obtain ⟨e', he', hl, hoff, hread⟩ := hlast e he
    obtain ⟨e'', -, hl', -, hread'⟩ := hlast e' he'
    rw [hoff, hl] at hl'
    obtain rfl := Option.some.inj hl'
    rw [h e' he'] at hread'
    have hlow0 : low = 0 := by
      unfold u64 at hread'
      omega
    refine .inr ⟨hlow0, fun x hx y hy hxy => ?_⟩
    obtain ⟨x', hx', hlx, -, hreadx⟩ := hlast x hx
    obtain ⟨y', -, hly, -, hready⟩ := hlast y hy
    rw [hxy, hly] at hlx
    obtain rfl := Option.some.inj hlx
    rw [h x hx] at hreadx
    rw [h y hy, ← hreadx] at hready
    have := hadd x hx
    have := hadd y hy
    unfold u64 at hready
    omega
  · rintro (rfl | ⟨rfl, hone⟩) e he
    · simp at he
    · obtain ⟨e', he', -, hoff, hread⟩ := hlast e he
      rw [hread, hone e' he' e he hoff]
      unfold u64
      omega

lemma Image.relas_addend {img : Image} {e : Rela} (he : e ∈ img.relas) : e.addend < 2 ^ 64 := by
  unfold relas at he
  split at he
  · simp at he
  · obtain ⟨k, -, rfl⟩ := mem_map.mp he
    exact Mem.read_lt ..

end Words

end YamKernel.Elf

import YamKernel.Fs.Elf.Headers
import YamKernel.Fs.Elf.Pages
import YamKernel.Lib.Override
import YamKernel.Mem.Vmm.Access
import YamKernel.Mem.Vmm.ForkLaw

/-!
# Segments

`elf_map_pt_loads` maps a fresh cleared page for each page of each segment and copies the part of
the file that belongs there. On a page that two segments share, the page of the first one is
replaced, with its bytes and its permissions. `image_law_iff` says when the image is right all the
same.
-/

namespace YamKernel.Elf

open Lib Vmm Pmm Traced List Nat

namespace Segment

variable (g : Segment) (img : Image) (bias : Nat)

def base : Nat := bias + g.vaddr

/-- The segment is in the file, in the lower half, and no larger in the file than in memory. -/
structure Fits : Prop where
  nonempty : 0 < g.memsz
  filesz : g.filesz ≤ g.memsz
  inFile : g.offset + g.filesz ≤ img.size
  user : g.base bias + g.memsz ≤ userEnd

/-- The byte at the address `x`, as far as the file has it. -/
def byteAt (x : Nat) : UInt8 :=
  if g.base bias ≤ x ∧ x < g.base bias + g.filesz then img.byte (g.offset + (x - g.base bias))
  else 0

/-- The segment has bytes on page `p`. -/
def Covers (p : Nat) : Prop :=
  g.base bias / pageSize ≤ p ∧ p * pageSize < g.base bias + g.memsz

instance (p : Nat) : Decidable (g.Covers bias p) := inferInstanceAs (Decidable (_ ∧ _))

def pages : List Nat :=
  range' (g.base bias / pageSize)
    ((g.base bias + g.memsz + 0xFFF) / pageSize - g.base bias / pageSize)

def lay (c : Space) : Space :=
  (g.pages bias).foldl (fun c p => c.put p (segmentFlags g.flags) (g.byteAt img bias)) c

variable {g img bias}

lemma mem_pages {p : Nat} : p ∈ g.pages bias ↔ g.Covers bias p := by
  unfold pages Covers pageSize
  rw [mem_range'_1]
  omega

lemma lay_flags (c : Space) (p : Nat) : (g.lay img bias c).flags p =
    if g.Covers bias p then segmentFlags g.flags else c.flags p := by
  rw [lay, Space.foldl_put]
  simp [mem_pages]

lemma lay_mem (c : Space) (x : Nat) : (g.lay img bias c).mem x =
    if g.Covers bias (x / pageSize) then g.byteAt img bias x else c.mem x := by
  rw [lay, Space.foldl_put]
  simp [mem_pages]

lemma covers_of_mem {x : Nat} (h1 : g.base bias ≤ x) (h2 : x < g.base bias + g.memsz) :
    g.Covers bias (x / pageSize) := by
  unfold Covers pageSize
  omega

lemma Fits.base_eq (h : g.Fits img bias) : u64 (g.vaddr + bias) = g.base bias := by
  have := userLayout.2.2
  have := h.user
  unfold base at *
  rw [u64_of_lt, add_comm]

lemma Fits.segmentPages_eq (h : g.Fits img bias) :
    segmentPages (u64 (g.vaddr + bias)) g.memsz = (g.pages bias).map (· * pageSize) := by
  have := userLayout.2.2
  have := h.user
  have hbase := h.base_eq
  have hstop : u64 (g.base bias + g.memsz + 0xFFF) = g.base bias + g.memsz + 0xFFF :=
    u64_of_lt
  unfold segmentPages pages
  rw [hbase, hstop]
  dsimp only
  have hpos : 0 < pageSize := by decide
  rw [← Nat.sub_mul, Nat.mul_div_cancel _ hpos]
  refine ext_getElem (by simp) fun k h1 h2 => ?_
  rw [getElem_map, getElem_range', getElem_range', add_mul, one_mul, mul_comm pageSize]

end Segment

section Flags

variable (flags : Nat)

lemma segmentFlags_mask : segmentFlags flags &&& flagMask = segmentFlags flags := by
  unfold segmentFlags
  split_ifs <;> decide

lemma segmentFlags_present : segmentFlags flags ||| flagPresent = segmentFlags flags := by
  unfold segmentFlags
  split_ifs <;> decide

lemma segmentFlags_has_present : has (segmentFlags flags) flagPresent = true := by
  unfold segmentFlags
  split_ifs <;> decide

lemma segmentFlags_write (byte : UInt8) :
    (Access.write byte).grantedBy (segmentFlags flags) = has flags pfW := by
  unfold segmentFlags
  split_ifs <;> simp_all [Access.grantedBy] <;> decide

lemma segmentFlags_fetch : Access.fetch.grantedBy (segmentFlags flags) = has flags pfX := by
  unfold segmentFlags
  split_ifs <;> simp_all <;> decide

end Flags

/-! ## Loading -/

section Load

variable {r : Nat} {c : Space} {s : Vmm.State} {img : Image} {bias : Nat} {g : Segment}
  {bad : Event → Prop} {stops : Stop → Prop}

lemma gives_copySegment {ph f p : Nat} (hfit : g.Fits img bias) (hg : img.segmentAt ph = g)
    (hsize : img.size < 2 ^ 64) (hp : g.Covers bias p)
    (hzero : ∀ a, f ≤ a → a < f + pageSize → s.mem a = 0) :
    Gives (copySegment img ph (g.base bias) (p * pageSize) f) s bad stops fun _ s' =>
      ∃ m', s' = { s with mem := m' } ∧
        Filled f (p * pageSize) (g.byteAt img bias) s.mem m' := by
  have := userLayout.2.2
  have := hfit.user
  have := hfit.filesz
  have := hfit.inFile
  obtain ⟨hp1, hp2⟩ := hp
  have hpos : 0 < pageSize := by decide
  have hpage : p * pageSize / pageSize = p := Nat.mul_div_cancel p hpos
  have hstop : u64 (g.base bias + g.filesz) = g.base bias + g.filesz := u64_of_lt
  have : pageSize < 2 ^ 13 := by decide
  have hnext : u64 (p * pageSize + pageSize) = p * pageSize + pageSize := u64_of_lt
  generalize hva : p * pageSize = va at *
  have hfilesz : Fixed (pFilesz img ph) (.ok g.filesz) := hg ▸ fixed_pFilesz ph
  have hoffset : Fixed (pOffset img ph) (.ok g.offset) := hg ▸ fixed_pOffset ph
  refine hfilesz.gives_bind ?_
  dsimp only
  rw [hstop, hnext]
  by_cases hover : va + pageSize > g.base bias ∧ va < g.base bias + g.filesz
  · rw [if_pos hover]
    have : (if va > g.base bias then va else g.base bias) = max va (g.base bias) := by
      split_ifs <;> omega
    have : (if va + pageSize < g.base bias + g.filesz then va + pageSize
        else g.base bias + g.filesz) = min (va + pageSize) (g.base bias + g.filesz) := by
      split_ifs <;> omega
    rw [sub64_of_le]
    refine hoffset.gives_bind ((fixed_log _).gives_bind ?_)
    refine gives_act ⟨_, rfl, fun x hx => ?_, fun a ha => if_neg (by omega)⟩
    -- A byte is copied if its address is in the file's part of the segment.
    have hdiv := div_add_mod x pageSize
    have hmod := mod_lt x hpos
    rw [hx, hpage, mul_comm] at hdiv
    unfold Mem.blit Segment.byteAt
    dsimp only
    by_cases hx' : g.base bias ≤ x ∧ x < g.base bias + g.filesz
    · rw [if_pos (by omega), if_pos hx']
      refine congrArg img.byte ?_
      rw [u64_of_lt]
      omega
    · rw [if_neg (by omega), if_neg hx']
      exact hzero _ (by omega) (by omega)
  · rw [if_neg hover]
    refine gives_pure ⟨s.mem, rfl, fun x hx => ?_, fun _ _ => rfl⟩
    have hdiv := div_add_mod x pageSize
    have hmod := mod_lt x hpos
    rw [hx, hpage, mul_comm] at hdiv
    rw [Segment.byteAt, if_neg (by omega)]
    exact hzero _ (by omega) (by omega)

lemma puts_mapSegmentPage {ph : Nat} (hfit : g.Fits img bias) (hg : img.segmentAt ph = g)
    (hsize : img.size < 2 ^ 64) {p : Nat} (hp : p ∈ g.pages bias) :
    Puts r p (segmentFlags g.flags) (g.byteAt img bias) bad stops
      (mapSegmentPage r img ph (segmentFlags g.flags) (g.base bias) (p * pageSize)) := by
  have hcov := Segment.mem_pages.mp hp
  exact puts_page (lt_of_lt_of_le hcov.2 hfit.user) (segmentFlags_mask g.flags)
    (segmentFlags_present g.flags) fun f s => gives_copySegment hfit hg hsize hcov

/-- The loop over the pages of a segment, behind the reads of its header. -/
theorem gives_mapSegment {i : Nat} {Q : Unit → Vmm.State → Prop}
    (hskip : img.loadAt (elfPhdrAt img i) = false → Q () s)
    (hloop : ∀ g, img.segmentAt (elfPhdrAt img i) = g → img.loadAt (elfPhdrAt img i) = true →
      Gives ((segmentPages (u64 (g.vaddr + bias)) g.memsz).forM
        (mapSegmentPage r img (elfPhdrAt img i) (segmentFlags g.flags) (u64 (g.vaddr + bias))))
        s bad stops Q) :
    Gives (mapSegment r img bias i) s bad stops Q := by
  refine (fixed_isLoad _).gives_bind ?_
  by_cases hload : img.loadAt (elfPhdrAt img i) = true
  · rw [if_pos hload]
    exact (fixed_pFlags _).gives_bind ((fixed_pVaddr _).gives_bind
      ((fixed_pMemsz _).gives_bind (hloop _ rfl hload)))
  · rw [if_neg hload]
    exact gives_pure (hskip (by simpa using hload))

lemma Image.mem_loads {i : Nat} (hi : i ∈ range img.ePhnum)
    (hload : img.loadAt (elfPhdrAt img i) = true) : img.segmentAt (elfPhdrAt img i) ∈ img.loads :=
  mem_map.mpr ⟨_, mem_filter.mpr ⟨mem_map.mpr ⟨i, hi, rfl⟩, hload⟩, rfl⟩

def Image.pageCount (img : Image) (bias : Nat) : Nat :=
  (img.loads.map fun g => (g.pages bias).length).sum

lemma gives_elfMapPtLoads {n : Nat} (h : Holds r c s) (hsize : img.size < 2 ^ 64)
    (hfit : ∀ g ∈ img.loads, g.Fits img bias) (hrich : Rich bad (n + 4 * img.pageCount bias) s) :
    Gives (elfMapPtLoads r img bias) s bad stops fun _ s' =>
      Holds r (img.loads.foldl (fun c g => g.lay img bias c) c) s' ∧ Rich bad n s' := by
  let put := fun (c : Space) i => if img.loadAt (elfPhdrAt img i) then
    (img.segmentAt (elfPhdrAt img i)).lay img bias c else c
  let cost := fun i => if img.loadAt (elfPhdrAt img i) then
    4 * ((img.segmentAt (elfPhdrAt img i)).pages bias).length else 0
  have hfold : ∀ (is : List Nat) (c : Space),
      is.foldl put c = (img.loadsOf is).foldl (fun c g => g.lay img bias c) c := by
    intro is
    induction is with
    | nil => exact fun _ => rfl
    | cons i is ih =>
      intro c
      rw [foldl_cons, ih, Image.loadsOf_cons]
      simp only [put]
      split_ifs <;> rfl
  have hcost : ∀ is : List Nat, (is.map cost).sum =
      4 * ((img.loadsOf is).map fun g => (g.pages bias).length).sum := by
    intro is
    induction is with
    | nil => rfl
    | cons i is ih =>
      rw [map_cons, sum_cons, ih, Image.loadsOf_cons]
      simp only [cost]
      split_ifs
      · rw [singleton_append, map_cons, sum_cons, mul_add]
      · rw [nil_append, zero_add]
  rw [Image.pageCount, Image.loads, ← hcost] at hrich
  rw [Image.loads, ← hfold]
  refine gives_forM_foldl (fun c i hi n s hs hrich =>
    gives_mapSegment (fun hload => ?_) ?_) h hrich
  · simp only [put, cost] at hrich ⊢
    rw [if_neg (by simp [hload])] at hrich ⊢
    exact ⟨hs, hrich⟩
  · rintro _ rfl hload
    simp only [put, cost] at hrich ⊢
    rw [if_pos hload] at hrich ⊢
    have hg := hfit _ (Image.mem_loads hi hload)
    rw [hg.segmentPages_eq, hg.base_eq]
    exact gives_putPages (fun p => puts_mapSegmentPage hg rfl hsize) hs hrich

/-- Whatever fails, the loader leaves the pages without a segment alone. -/
theorem gives_elfMapPtLoads_off (h : Holds r c s) (hsize : img.size < 2 ^ 64)
    (hfit : ∀ g ∈ img.loads, g.Fits img bias) (hstop : stops .error) :
    Gives (elfMapPtLoads r img bias) s bad stops fun _ s' =>
      ∃ c', Holds r c' s' ∧ c.AgreesOff (fun p => ∃ g ∈ img.loads, g.Covers bias p) c' := by
  refine gives_forM (fun i hi s hs => ?_) ⟨c, h, .refl _ _⟩
  refine gives_mapSegment (fun _ => hs) ?_
  rintro g hg hload
  have hmem : g ∈ img.loads := hg ▸ Image.mem_loads hi hload
  have hg' := hfit g hmem
  rw [hg'.segmentPages_eq, hg'.base_eq]
  exact gives_putPages_off (fun p hp => ⟨g, hmem, Segment.mem_pages.mp hp⟩) hstop
    (fun p => puts_mapSegmentPage hg' hg hsize) hs

end Load

/-! ## The image -/

section Law

variable {img : Image} {bias : Nat}

/-- The last segment that has bytes on page `p`. -/
def lastOn (bias p : Nat) (gs : List Segment) : Option Segment := lastHit (·.Covers bias p) gs

/-- Each page is as the last segment on it has put it. -/
theorem foldl_lay (c : Space) (gs : List Segment) :
    (∀ p, (gs.foldl (fun c g => g.lay img bias c) c).flags p =
      (lastOn bias p gs).elim (c.flags p) fun g => segmentFlags g.flags) ∧
    ∀ x, (gs.foldl (fun c g => g.lay img bias c) c).mem x =
      (lastOn bias (x / pageSize) gs).elim (c.mem x) fun g => g.byteAt img bias x :=
  ⟨fun p => foldl_lastHit (o := fun c : Space => c.flags p)
      (fun g _ c => Segment.lay_flags (g := g) c p) c,
    fun x => foldl_lastHit (o := fun c : Space => c.mem x)
      (fun g _ c => Segment.lay_mem (g := g) c x) c⟩

def Segment.Apart (bias : Nat) (g h : Segment) : Prop :=
  g.base bias + g.memsz ≤ h.base bias ∨ h.base bias + h.memsz ≤ g.base bias

instance (g h : Segment) : Decidable (g.Apart bias h) := inferInstanceAs (Decidable (_ ∨ _))

/-- The flags of page `p` let the access through. -/
def Allows (r : Nat) (s : Vmm.State) (p : Nat) (a : Access) : Prop :=
  a.grantedBy (vmmGetPteFlags s.mem r (p * pageSize)) = true

/-- A segment on page `p` asks for a permission. -/
def Asks (img : Image) (bias flag p : Nat) : Prop :=
  ∃ g ∈ img.loads, g.Covers bias p ∧ has g.flags flag = true

/-- The image is in memory, and nothing else has changed. -/
structure Loaded (r : Nat) (img : Image) (bias : Nat) (s s' : Vmm.State) : Prop where
  bytes : ∀ g ∈ img.loads, ∀ x, g.base bias ≤ x → x < g.base bias + g.memsz → userView r s' x =
    if x < g.base bias + g.filesz then img.byte (g.offset + (x - g.base bias)) else 0
  writable : ∀ p < 2 ^ 35, (∃ g ∈ img.loads, g.Covers bias p) →
    (Allows r s' p (.write 0) ↔ Asks img bias pfW p)
  executable : ∀ p < 2 ^ 35, (∃ g ∈ img.loads, g.Covers bias p) →
    (Allows r s' p .fetch ↔ Asks img bias pfX p)
  other : ∀ p < 2 ^ 35, (∀ g ∈ img.loads, ¬ g.Covers bias p) →
    vmmGetPteFlags s'.mem r (p * pageSize) = vmmGetPteFlags s.mem r (p * pageSize)

/-- On a page that segments share, those before the last one have no bytes but zeros, and ask for
nothing that the last one does not ask for. -/
def Harmless (img : Image) (bias : Nat) : Prop :=
  ∀ p g, lastOn bias p img.loads = some g → ∀ h ∈ img.loads, h.Covers bias p → h ≠ g →
    (∀ x, x / pageSize = p → h.byteAt img bias x = 0) ∧
      (has h.flags pfW = true → has g.flags pfW = true) ∧
      (has h.flags pfX = true → has g.flags pfX = true)

lemma Segment.Fits.covers_lt {g : Segment} {p : Nat} (h : g.Fits img bias) (hp : g.Covers bias p) :
    p < 2 ^ 35 := by
  have := h.user
  have := hp.2
  unfold userEnd pageSize at *
  omega

lemma Segment.byteAt_eq {g : Segment} {x : Nat} (hx : g.base bias ≤ x) : g.byteAt img bias x =
    if x < g.base bias + g.filesz then img.byte (g.offset + (x - g.base bias)) else 0 := by
  unfold byteAt
  simp [hx]

/-- In the range of another segment there is nothing to copy. -/
theorem Segment.Apart.byteAt {g h : Segment} {x : Nat} (hap : g ≠ h → g.Apart bias h) (hne : g ≠ h)
    (hg : g.Fits img bias) (hx : h.base bias ≤ x) (hx' : x < h.base bias + h.memsz) :
    g.byteAt img bias x = 0 := by
  have := hg.filesz
  rcases hap hne with h1 | h1 <;> exact if_neg (by omega)

lemma apart_of_pairwise {gs : List Segment} (h : gs.Pairwise (Segment.Apart bias)) {g g' : Segment}
    (hg : g ∈ gs) (hg' : g' ∈ gs) (hne : g ≠ g') : g.Apart bias g' := by
  have : Std.Symm (Segment.Apart bias) := ⟨fun _ _ => Or.symm⟩
  exact h.forall hg hg' hne

variable {r : Nat} {c : Space} {s s' : Vmm.State}

lemma allows_lastOn {p : Nat} {g : Segment}
    (h : Holds r (img.loads.foldl (fun c g => g.lay img bias c) c) s) (hp : p < 2 ^ 35)
    (hlast : lastOn bias p img.loads = some g) :
    (Allows r s p (.write 0) ↔ has g.flags pfW = true) ∧
      (Allows r s p .fetch ↔ has g.flags pfX = true) := by
  unfold Allows
  rw [h.flags p hp, (foldl_lay c _).1, hlast, Option.elim, segmentFlags_write, segmentFlags_fetch]
  exact ⟨Iff.rfl, Iff.rfl⟩

/-- The image is right if and only if no page that segments share loses anything. -/
theorem loaded_iff (hs : Holds r c s)
    (h : Holds r (img.loads.foldl (fun c g => g.lay img bias c) c) s')
    (hfit : ∀ g ∈ img.loads, g.Fits img bias) (hap : img.loads.Pairwise (Segment.Apart bias)) :
    Loaded r img bias s s' ↔ Harmless img bias := by
  constructor
  · intro hload p g hlast g' hg' hp hne
    obtain ⟨hg, -⟩ := lastHit_some hlast
    have hlt := (hfit g' hg').covers_lt hp
    have hall := allows_lastOn h hlt hlast
    refine ⟨fun x hx => ?_, fun hW => ?_, fun hX => ?_⟩
    · by_cases hin : g'.base bias ≤ x ∧ x < g'.base bias + g'.filesz
      · have hend : x < g'.base bias + g'.memsz := lt_of_lt_of_le hin.2
          (Nat.add_le_add_left (hfit g' hg').filesz _)
        rw [Segment.byteAt_eq hin.1, ← hload.bytes g' hg' x hin.1 hend, h.view, (foldl_lay c _).2,
          hx, hlast]
        exact Segment.Apart.byteAt (apart_of_pairwise hap hg hg') (symm hne) (hfit g hg) hin.1 hend
      · exact if_neg hin
    · exact hall.1.mp ((hload.writable p hlt ⟨g', hg', hp⟩).mpr ⟨g', hg', hp, hW⟩)
    · exact hall.2.mp ((hload.executable p hlt ⟨g', hg', hp⟩).mpr ⟨g', hg', hp, hX⟩)
  · intro hharm
    -- What some segment on a page asks for, the last one asks for.
    have hasks : ∀ p g flag, lastOn bias p img.loads = some g →
        (∀ g' ∈ img.loads, g'.Covers bias p → g' ≠ g → has g'.flags flag = true →
          has g.flags flag = true) → (has g.flags flag = true ↔ Asks img bias flag p) := by
      intro p g flag hlast himp
      refine ⟨fun hg => ⟨g, (lastHit_some hlast).1, (lastHit_some hlast).2, hg⟩, ?_⟩
      rintro ⟨g', hg', hp, hflag⟩
      by_cases hne : g' = g
      · exact hne ▸ hflag
      · exact himp g' hg' hp hne hflag
    refine ⟨fun g hg x h1 h2 => ?_, ?_, ?_, fun p hp hnone => ?_⟩
    · have hcov := Segment.covers_of_mem h1 h2
      obtain ⟨g', hlast⟩ : ∃ g', lastOn bias (x / pageSize) img.loads = some g' :=
        exists_lastHit hg hcov
      rw [← Segment.byteAt_eq h1, h.view, (foldl_lay c _).2, hlast, Option.elim]
      by_cases hne : g = g'
      · rw [hne]
      · rw [(hharm _ g' hlast g hg hcov hne).1 x rfl]
        obtain ⟨hg', -⟩ := lastHit_some hlast
        exact Segment.Apart.byteAt (apart_of_pairwise hap hg' hg) (symm hne) (hfit g' hg') h1 h2
    · rintro p hp ⟨g, hg, hcov⟩
      obtain ⟨g', hlast⟩ : ∃ g', lastOn bias p img.loads = some g' := exists_lastHit hg hcov
      exact (allows_lastOn h hp hlast).1.trans (hasks p g' pfW hlast fun k hk hkp hne =>
        (hharm p g' hlast k hk hkp hne).2.1)
    · rintro p hp ⟨g, hg, hcov⟩
      obtain ⟨g', hlast⟩ : ∃ g', lastOn bias p img.loads = some g' := exists_lastHit hg hcov
      exact (allows_lastOn h hp hlast).2.trans (hasks p g' pfX hlast fun k hk hkp hne =>
        (hharm p g' hlast k hk hkp hne).2.2)
    · rw [h.flags p hp, (foldl_lay c _).1, lastOn, lastHit_none hnone, Option.elim, hs.flags p hp]

/-- For a file whose segments are apart, and with memory enough, the loader makes the image that
the file asks for if and only if the pages that segments share are harmless. -/
theorem image_law_iff (hown : Private r s) (hsize : img.size < 2 ^ 64)
    (hfit : ∀ g ∈ img.loads, g.Fits img bias) (hap : img.loads.Pairwise (Segment.Apart bias))
    (hok : .failed ∉ (elfMapPtLoads r img bias s).1) :
    (elfMapPtLoads r img bias s).2.1 = .ok () ∧
      (Loaded r img bias s (elfMapPtLoads r img bias s).2.2 ↔ Harmless img bias) := by
  have hgives : Gives _ _ (· = Event.failed) (fun _ => False) _ :=
    gives_elfMapPtLoads (n := 0) hown.holds hsize hfit (.inl rfl)
  obtain ⟨l, _, s', hrun, hholds, -⟩ :=
    hgives.returns (fun e he hbad => hok (hbad ▸ he)) fun _ => id
  rw [hrun]
  exact ⟨rfl, loaded_iff hown.holds hholds hfit hap⟩

end Law

/-! A file of 176 bytes, two headers among them, in two orders of its segments: the whole file, and
16 bytes behind it. -/

def wholeFile : Segment := ⟨pfX ||| 4, 0, 0x400000, 0xB0, 0xB0⟩
def zeroBytes : Segment := ⟨pfW ||| 4, 0xB0, 0x4000B0, 0, 16⟩
def wholeWritable : Segment := { wholeFile with flags := pfX ||| pfW ||| 4 }

def zerosFirst : Image :=
  imageOf (elfFile etExec 0x400000 [(ptLoad, zeroBytes), (ptLoad, wholeWritable)] [])

def zerosLast : Image :=
  imageOf (elfFile etExec 0x400000 [(ptLoad, wholeFile), (ptLoad, zeroBytes)] [])

lemma fits_of_decide {img : Image} {bias : Nat}
    (h : ∀ g ∈ img.loads, 0 < g.memsz ∧ g.filesz ≤ g.memsz ∧ g.offset + g.filesz ≤ img.size ∧
      g.base bias + g.memsz ≤ userEnd) : ∀ g ∈ img.loads, g.Fits img bias := fun g hg =>
  ⟨(h g hg).1, (h g hg).2.1, (h g hg).2.2.1, (h g hg).2.2.2⟩

lemma zerosFirst_loads : zerosFirst.loads = [zeroBytes, wholeWritable] := by decide +kernel

lemma zerosLast_loads : zerosLast.loads = [wholeFile, zeroBytes] := by decide +kernel

lemma eightPages_private : ∃ pmm, pmmInit [eightPages] = some pmm ∧
    Private (2 ^ 20) ⟨fun _ => 0, pmm, 0⟩ := by
  obtain ⟨pmm, h0, hrun, hheld⟩ := eightPages_running
  exact ⟨pmm, h0, private_blank 0 hrun (by decide) (hheld _ le_rfl)⟩

/-- Zeros that share a page with a segment behind them in the table. -/
theorem image_law_iff_zerosFirst : ∃ pmm, pmmInit [eightPages] = some pmm ∧
    Loaded (2 ^ 20) zerosFirst 0 ⟨fun _ => 0, pmm, 0⟩
      (elfMapPtLoads (2 ^ 20) zerosFirst 0 ⟨fun _ => 0, pmm, 0⟩).2.2 := by
  obtain ⟨pmm, h0, hown⟩ := eightPages_private
  have hok : ∀ pmm ∈ pmmInit [eightPages],
      .failed ∉ (elfMapPtLoads (2 ^ 20) zerosFirst 0 ⟨fun _ => 0, pmm, 0⟩).1 := by decide +kernel
  refine ⟨pmm, h0, (image_law_iff hown (by decide +kernel) (fits_of_decide ?_) ?_
    (hok pmm h0)).2.mpr ?_⟩
  · rw [zerosFirst_loads]
    decide +kernel
  · rw [zerosFirst_loads]
    decide
  · intro p g hlast h hh hp hne
    rw [zerosFirst_loads] at hlast hh
    have hpage : p = 0x400 := by
      unfold Segment.Covers Segment.base pageSize at hp
      rcases mem_pair.mp hh with rfl | rfl <;>
        simp only [zeroBytes, wholeWritable, wholeFile] at hp <;> omega
    rw [hpage] at hlast
    obtain rfl := Option.some.inj hlast
    obtain rfl := (mem_pair.mp hh).resolve_right hne
    exact ⟨fun x _ => if_neg (by simp [zeroBytes]), by decide, by decide⟩

/-- With the zeros last, the code before them is gone: its page reads as zeros. -/
theorem code_replaced_by_zeros : ∃ pmm, pmmInit [eightPages] = some pmm ∧
    Private (2 ^ 20) ⟨fun _ => 0, pmm, 0⟩ ∧
    (∀ g ∈ zerosLast.loads, g.Fits zerosLast 0) ∧ zerosLast.loads.Pairwise (Segment.Apart 0) ∧
    .failed ∉ (elfMapPtLoads (2 ^ 20) zerosLast 0 ⟨fun _ => 0, pmm, 0⟩).1 ∧
    ¬ Loaded (2 ^ 20) zerosLast 0 ⟨fun _ => 0, pmm, 0⟩
      (elfMapPtLoads (2 ^ 20) zerosLast 0 ⟨fun _ => 0, pmm, 0⟩).2.2 := by
  obtain ⟨pmm, h0, hown⟩ := eightPages_private
  have hout : ∀ pmm ∈ pmmInit [eightPages],
      .failed ∉ (elfMapPtLoads (2 ^ 20) zerosLast 0 ⟨fun _ => 0, pmm, 0⟩).1 ∧
      userView (2 ^ 20) (elfMapPtLoads (2 ^ 20) zerosLast 0 ⟨fun _ => 0, pmm, 0⟩).2.2
        0x400000 = 0 := by
    decide +kernel
  obtain ⟨hok, hzero⟩ := hout pmm h0
  refine ⟨pmm, h0, hown, fits_of_decide ?_, ?_, hok, fun hload => ?_⟩
  · rw [zerosLast_loads]
    decide +kernel
  · rw [zerosLast_loads]
    decide
  have hbyte := hload.bytes wholeFile (by rw [zerosLast_loads]; decide) 0x400000 (by decide)
    (by decide)
  rw [hzero] at hbyte
  exact absurd hbyte (by decide +kernel)

end YamKernel.Elf

import YamKernel.Mem.Pmm.Counts
import YamKernel.Mem.Vmm.Unmapping

/-!
# The law of `sys_munmap`

`sys_munmap` clears the pages of its range one by one, frees the frame behind each of them
whatever its flags say, and drops the one area that starts at the given address. So it does
what its caller expects exactly when that area is what the range covers, and no frame it
frees belongs to somebody else.
-/

namespace YamKernel.Vmm

open Lib Pmm List

/-! ## Areas -/

/-- The protection of the area that the fault handler finds for an address. -/
def areaProt (vmas : List Vma) (a : Nat) : Option Nat :=
  (vmas.find? fun v => decide (v.start ≤ a ∧ a < v.stop)).map Vma.prot

/-- Areas as `sys_mmap` makes them: whole pages, not empty, apart from each other. -/
structure AreasOk (vmas : List Vma) : Prop where
  aligned : ∀ v ∈ vmas, pageSize ∣ v.start ∧ pageSize ∣ v.stop
  nonempty : ∀ v ∈ vmas, v.start < v.stop
  apart : vmas.Pairwise fun v w => v.stop ≤ w.start ∨ w.stop ≤ v.start

section Areas

variable {vmas : List Vma} {a prot : Nat}

lemma areas_unique (h : vmas.Pairwise fun v w => v.stop ≤ w.start ∨ w.stop ≤ v.start) {v w : Vma}
    (hv : v ∈ vmas) (hw : w ∈ vmas) (hva : v.start ≤ a ∧ a < v.stop)
    (hwa : w.start ≤ a ∧ a < w.stop) : v = w := by
  by_contra hne
  have : Std.Symm fun v w : Vma => v.stop ≤ w.start ∨ w.stop ≤ v.start := ⟨fun _ _ => Or.symm⟩
  have := h.forall hv hw hne
  omega

lemma find_area {v : Vma} (h : vmas.find? (fun v => decide (v.start ≤ a ∧ a < v.stop)) = some v) :
    v ∈ vmas ∧ v.start ≤ a ∧ a < v.stop := by
  have hin := find?_some h
  simp only [decide_eq_true_eq] at hin
  exact ⟨mem_of_find?_eq_some h, hin⟩

lemma AreasOk.areaProt_iff (h : AreasOk vmas) : areaProt vmas a = some prot ↔
    ∃ v ∈ vmas, (v.start ≤ a ∧ a < v.stop) ∧ v.prot = prot := by
  unfold areaProt
  rw [Option.map_eq_some_iff]
  constructor
  · rintro ⟨v, hv, rfl⟩
    exact ⟨v, (find_area hv).1, (find_area hv).2, rfl⟩
  · rintro ⟨v, hv, hva, rfl⟩
    cases hf : vmas.find? fun v => decide (v.start ≤ a ∧ a < v.stop) with
    | none => exact absurd (decide_eq_true hva) (find?_eq_none.mp hf v hv)
    | some w =>
      exact ⟨w, rfl, by rw [areas_unique h.apart (find_area hf).1 hv (find_area hf).2 hva]⟩

lemma AreasOk.mem_erase (h : AreasOk vmas) (addr : Nat) {v : Vma} :
    v ∈ vmas.eraseP (fun v => v.start = addr) ↔ v ∈ vmas ∧ v.start ≠ addr := by
  by_cases hex : ∃ w ∈ vmas, w.start = addr
  · obtain ⟨w, hw, hwa⟩ := hex
    obtain ⟨x, l1, l2, hl1, hx, rfl, herase⟩ :=
      exists_of_eraseP hw (p := fun v => v.start = addr) (decide_eq_true hwa)
    have hx : x.start = addr := of_decide_eq_true hx
    have hapart := (pairwise_cons.mp (pairwise_append.mp h.apart).2.1).1
    rw [herase]
    have hl1' : ∀ y ∈ l1, y.start ≠ addr := fun y hy hc => hl1 y hy (decide_eq_true hc)
    have hl2' : ∀ y ∈ l2, y.start ≠ addr := fun y hy hc => by
      have := hapart y hy
      have := h.nonempty x (by simp)
      have := h.nonempty y (by simp [hy])
      omega
    simp only [mem_append, mem_cons]
    constructor
    · rintro (hv | hv)
      · exact ⟨.inl hv, hl1' v hv⟩
      · exact ⟨.inr (.inr hv), hl2' v hv⟩
    · rintro ⟨hv | rfl | hv, hne⟩
      · exact .inl hv
      · exact absurd hx hne
      · exact .inr hv
  · push Not at hex
    rw [eraseP_of_forall_not fun v hv => by simpa using hex v hv]
    exact ⟨fun hv => ⟨hv, hex v hv⟩, And.left⟩

lemma AreasOk.erase (h : AreasOk vmas) (addr : Nat) :
    AreasOk (vmas.eraseP fun v => v.start = addr) where
  aligned v hv := h.aligned v ((h.mem_erase addr).mp hv).1
  nonempty v hv := h.nonempty v ((h.mem_erase addr).mp hv).1
  apart := h.apart.sublist eraseP_sublist

end Areas

/-! ## Faults on a page that is gone -/

section Faults

variable {s : State} {r fault : Nat} {vmas : List Vma}

lemma vmmHandleCowFault_absent {top : Nat} (htop : pageOf fault < top * 2 ^ 27)
    (h : (pte top s.mem r (pageOf fault)).present = false) :
    vmmHandleCowFault s r fault = (false, s) := by
  have hpage : pageOf (fault / pageSize * pageSize) = pageOf fault := by
    unfold pageOf pageSize
    omega
  have hphys : vmmVirtToPhys s.mem r (fault / pageSize * pageSize) = 0 := by
    rw [vmmVirtToPhys_eq (by rwa [hpage]), hpage, phys_mul _ (pte_absent_small h), h]
    rfl
  unfold vmmHandleCowFault
  simp [hphys]

lemma pageFault_unhandled {top : Nat} (htop : pageOf fault < top * 2 ^ 27)
    (h : (pte top s.mem r (pageOf fault)).present = false)
    (hvma : ∀ v ∈ vmas, ¬ (v.start ≤ fault ∧ fault < v.stop)) (error : Nat) :
    (vmmHandlePageFault s r vmas fault error).1 = false := by
  have hnone : vmas.find? (fun v => decide (v.start ≤ fault ∧ fault < v.stop)) = none :=
    find?_eq_none.mpr fun v hv hc => hvma v hv (of_decide_eq_true hc)
  unfold vmmHandlePageFault
  rw [vmmHandleCowFault_absent htop h, hnone]
  simp

lemma pageFault_handled (halloc : (pmmAllocPage s.pmm).1 ≠ 0)
    (hvma : ∃ v ∈ vmas, v.start ≤ fault ∧ fault < v.stop) :
    (vmmHandlePageFault s r vmas fault 0).1 = true := by
  cases hf : vmas.find? (fun v => decide (v.start ≤ fault ∧ fault < v.stop)) with
  | none =>
    obtain ⟨v, hv, hin⟩ := hvma
    exact absurd (decide_eq_true hin) (find?_eq_none.mp hf v hv)
  | some v =>
    unfold vmmHandlePageFault
    rw [hf]
    simp [halloc]

end Faults

/-! ## The law -/

/-- The frame does not belong to the address space: `sys_wl_map_buffer` marks such pages with
DONT_FREE, `sys_map_mmio` with NOCACHE. -/
def Pte.unowned (e : Pte) : Bool :=
  e.present && (has e.entry flagDontFree || has e.entry flagNocache)

/-- After the call the pages of the range are gone for good, the rest of the address space is as
it was, and no frame of somebody else was given back. -/
structure UnmapLaw (s : State) (t : Task) (addr length : Nat) : Prop where
  gone : ∀ p, addr ≤ p * pageSize → p * pageSize < addr + length →
    (pte 256 (sysMunmap s t addr length).1.mem t.pml4 p).present = false
  others : ∀ p, ¬ (addr ≤ p * pageSize ∧ p * pageSize < addr + length) →
    pte 256 (sysMunmap s t addr length).1.mem t.pml4 p = pte 256 s.mem t.pml4 p
  upper : UpperKept s.mem (sysMunmap s t addr length).1.mem t.pml4
  faults : ∀ fault, addr ≤ fault → fault < addr + length → ∀ (s' : State) (error : Nat),
    (pte 256 s'.mem t.pml4 (pageOf fault)).present = false →
    (vmmHandlePageFault s' t.pml4 (sysMunmap s t addr length).2.vmas fault error).1 = false
  areas : ∀ a, ¬ (addr ≤ a ∧ a < addr + pageCount length * pageSize) →
    areaProt (sysMunmap s t addr length).2.vmas a = areaProt t.vmas a
  unowned : ∀ p, (pte 256 s.mem t.pml4 p).unowned = true → ∀ n,
    Allocated s.pmm (frame (pte 256 s.mem t.pml4 p).entry) n →
    Allocated (sysMunmap s t addr length).1.pmm (frame (pte 256 s.mem t.pml4 p).entry) n

def munmapPages (addr length : Nat) : List Nat := range' (addr / pageSize) (pageCount length)

/-- No page of the range maps frame 0; an area that meets the range starts with it and does not
reach beyond it; and a frame of somebody else that is the base of a range in use has more
references than the range has pages for it. -/
structure UnmapOk (s : State) (t : Task) (addr length : Nat) : Prop where
  frames : ∀ p ∈ munmapPages addr length, (pte 256 s.mem t.pml4 p).present = true →
    frame (pte 256 s.mem t.pml4 p).entry ≠ 0
  areas : ∀ v ∈ t.vmas, v.start < addr + pageCount length * pageSize → addr < v.stop →
    v.start = addr ∧ v.stop ≤ addr + pageCount length * pageSize
  unowned : ∀ p, (pte 256 s.mem t.pml4 p).unowned = true → ∀ n,
    let f := frame (pte 256 s.mem t.pml4 p).entry
    let freed := mappedFrames s.mem t.pml4 (munmapPages addr length)
    Allocated s.pmm f n → f ∈ freed → freed.count f < pmmPageRefcount s.pmm f

section Law

variable {s : State} {t : Task} {addr length : Nat}

lemma pageRange_eq {pages : Nat} (ha : pageSize ∣ addr) (h : addr + pages * pageSize ≤ 2 ^ 64) :
    pageRange addr pages = (range' (addr / pageSize) pages).map (· * pageSize) := by
  obtain ⟨k, rfl⟩ := ha
  rw [range'_eq_map_range, map_map]
  refine map_congr_left fun i hi => ?_
  have hi := mem_range.mp hi
  simp only [Function.comp_apply]
  unfold pageSize at *
  rw [u64_of_lt]
  omega

lemma mem_munmapPages (ha : pageSize ∣ addr) (hlen : length + (pageSize - 1) < 2 ^ 64) {p : Nat} :
    p ∈ munmapPages addr length ↔ addr ≤ p * pageSize ∧ p * pageSize < addr + length := by
  obtain ⟨k, rfl⟩ := ha
  rw [munmapPages, mem_range'_1, pageCount, u64_of_lt hlen]
  unfold pageSize
  omega

section

variable (hs : Sound 256 {t.pml4} s) (ha : pageSize ∣ addr) (hend : addr + length ≤ userEnd)
  (hclear : ∀ p < 2 ^ 35, ¬ Blocked 256 s.mem t.pml4 p)
include hs ha hend hclear

lemma munmap_spec :
    Unmapped 256 {t.pml4} s (sysMunmap s t addr length).1 t.pml4 (munmapPages addr length) ∧
      (sysMunmap s t addr length).1.pmm =
        (mappedFrames s.mem t.pml4 (munmapPages addr length)).foldl pmmFreePage s.pmm := by
  have hlen : length + (pageSize - 1) < 2 ^ 64 := by unfold userEnd pageSize at *; omega
  have hlt : ∀ p ∈ munmapPages addr length, p < 2 ^ 35 := fun p hp => by
    have := ((mem_munmapPages ha hlen).mp hp).2
    unfold userEnd pageSize at *
    omega
  have hrange : addr + pageCount length * pageSize ≤ 2 ^ 64 := by
    unfold pageCount
    rw [u64_of_lt hlen]
    unfold userEnd pageSize at *
    omega
  unfold sysMunmap
  rw [pageRange_eq ha hrange]
  exact hs.unmap_spec pmmFreePage rfl nodup_range'
    (fun p hp => by have := hlt p hp; omega) fun p hp => hclear p (hlt p hp)

/-- Whether the pages are gone depends on the pages that map frame 0 alone. -/
theorem munmap_gone_iff {p : Nat}
    (hp : p ∈ munmapPages addr length) :
    (pte 256 (sysMunmap s t addr length).1.mem t.pml4 p).present = false ↔
      ((pte 256 s.mem t.pml4 p).present = true → frame (pte 256 s.mem t.pml4 p).entry ≠ 0) := by
  have hlt : p < 2 ^ 35 := by
    have := ((mem_munmapPages ha (by unfold userEnd pageSize at *; omega)).mp hp).2
    unfold userEnd pageSize at *
    omega
  have hsmall := pte_small (hclear p hlt)
  have hphys : vmmVirtToPhys s.mem t.pml4 (p * pageSize) = _ :=
    (translate_eq (by omega) (by omega)).trans (phys_mul _ hsmall)
  rw [(munmap_spec hs ha hend hclear).1.pte_eq]
  by_cases hv : vmmVirtToPhys s.mem t.pml4 (p * pageSize) = 0
  · rw [if_neg fun hc => hc.2 hv]
    rw [hv] at hphys
    cases hpres : (pte 256 s.mem t.pml4 p).present with
    | false => simp
    | true =>
      rw [hpres, if_pos rfl] at hphys
      simp [← hphys]
  · rw [if_pos ⟨hp, hv⟩]
    refine iff_of_true rfl fun hpres => ?_
    rw [hpres] at hphys
    rwa [hphys] at hv

end

/-- The areas left do not meet the range, and cover the rest of the addresses as before, when
the range is that of the area which starts with it. -/
theorem munmap_areas (hareas : AreasOk t.vmas) (ha : pageSize ∣ addr) (hlen : 0 < length)
    (hend : addr + length ≤ userEnd) :
    ((∀ fault, addr ≤ fault → fault < addr + length →
        ∀ v ∈ (sysMunmap s t addr length).2.vmas, ¬ (v.start ≤ fault ∧ fault < v.stop)) ∧
      ∀ a, ¬ (addr ≤ a ∧ a < addr + pageCount length * pageSize) →
        areaProt (sysMunmap s t addr length).2.vmas a = areaProt t.vmas a) ↔
    ∀ v ∈ t.vmas, v.start < addr + pageCount length * pageSize → addr < v.stop →
      v.start = addr ∧ v.stop ≤ addr + pageCount length * pageSize := by
  have : length ≤ pageCount length * pageSize ∧
      pageCount length * pageSize < length + pageSize := by
    unfold pageCount
    rw [u64_of_lt (by unfold userEnd pageSize at *; omega)]
    unfold pageSize
    omega
  have : pageSize ∣ pageCount length * pageSize := dvd_mul_left _ _
  have hmem := fun {v : Vma} => hareas.mem_erase addr (v := v)
  have hvmas : (sysMunmap s t addr length).2.vmas = t.vmas.eraseP fun v => v.start = addr := rfl
  rw [hvmas]
  generalize pageCount length * pageSize = size at *
  constructor
  · rintro ⟨hnone, hsame⟩ v hv hlo hhi
    obtain ⟨hva, hve⟩ := hareas.aligned v hv
    have hne := hareas.nonempty v hv
    have hstart : v.start = addr := by
      by_contra hc
      refine hnone (max v.start addr) (by omega) ?_ v (hmem.mpr ⟨hv, hc⟩) ⟨by omega, by omega⟩
      unfold pageSize at *
      omega
    refine ⟨hstart, by_contra fun hgt => ?_⟩
    -- The end of the range was covered by the area, and is no longer.
    have hprot := hsame (addr + size) (by omega)
    rw [hareas.areaProt_iff.mpr ⟨v, hv, ⟨by omega, by omega⟩, rfl⟩,
      (hareas.erase addr).areaProt_iff] at hprot
    obtain ⟨w, hw, hin, -⟩ := hprot
    obtain ⟨hw, hwne⟩ := hmem.mp hw
    have := areas_unique hareas.apart hw hv hin ⟨by omega, by omega⟩
    exact hwne (this ▸ hstart)
  · intro h
    refine ⟨fun fault h1 h2 v hv hin => ?_, fun a hout => ?_⟩
    · obtain ⟨hv, hne⟩ := hmem.mp hv
      exact hne (h v hv (by omega) (by omega)).1
    · refine Option.ext fun prot => ?_
      rw [(hareas.erase addr).areaProt_iff, hareas.areaProt_iff]
      constructor
      · rintro ⟨v, hv, hin⟩
        exact ⟨v, (hmem.mp hv).1, hin⟩
      · rintro ⟨v, hv, hin, hprot⟩
        refine ⟨v, hmem.mpr ⟨hv, fun hc => hout ?_⟩, hin, hprot⟩
        have := (h v hv (by omega) (by omega)).2
        omega

end Law

/-- `sys_munmap` keeps its law exactly for the ranges described by `UnmapOk`. -/
theorem unmap_law_iff {s : State} {t : Task} {addr length : Nat} (hs : Sound 256 {t.pml4} s)
    (hup : UpperApart s t.pml4) (hclear : ∀ p < 2 ^ 35, ¬ Blocked 256 s.mem t.pml4 p)
    (hareas : AreasOk t.vmas) (ha : pageSize ∣ addr) (hlen : 0 < length)
    (hend : addr + length ≤ userEnd) : UnmapLaw s t addr length ↔ UnmapOk s t addr length := by
  have hlen64 : length + (pageSize - 1) < 2 ^ 64 := by unfold userEnd pageSize at *; omega
  have hpages := fun {p} => mem_munmapPages (p := p) ha hlen64
  obtain ⟨hun, hpmm⟩ := munmap_spec hs ha hend hclear
  have hgone := fun {p} => munmap_gone_iff hs ha hend hclear (p := p)
  have hareas' := munmap_areas (s := s) hareas ha hlen hend
  have hallocated := fun {b n} => frees_allocated_iff
    (mappedFrames s.mem t.pml4 (munmapPages addr length)) hs.good (b := b) (n := n)
  rw [← hpmm] at hallocated
  constructor
  · intro h
    refine ⟨fun p hp => (hgone hp).mp (h.gone p (hpages.mp hp).1 (hpages.mp hp).2), ?_, ?_⟩
    · refine hareas'.mp ⟨fun fault h1 h2 v hv hin => ?_, h.areas⟩
      -- On an empty address space with memory to spare, the area would bring the page back.
      obtain ⟨pmm, h0, -⟩ := fivePages_running
      have halloc : ∀ pmm ∈ pmmInit [fivePages], (pmmAllocPage pmm).1 ≠ 0 := by decide
      have habs : (pte 256 (fun _ => 0) t.pml4 (pageOf fault)).present = false := by
        rw [pte_blank]
        decide
      have hfalse := h.faults fault h1 h2 ⟨fun _ => 0, pmm, 0⟩ 0 habs
      rw [pageFault_handled (s := ⟨fun _ => 0, pmm, 0⟩) (halloc pmm h0) ⟨v, hv, hin⟩] at hfalse
      simp at hfalse
    · intro p hp n f freed hn
      exact (hallocated.mp (h.unowned p hp n hn)).2
  · intro h
    obtain ⟨hnone, hsame⟩ := hareas'.mpr h.areas
    refine ⟨fun p h1 h2 => ?_, fun p hout => ?_, ?_, fun fault h1 h2 s' error habs => ?_, hsame,
      fun p hp n hn => hallocated.mpr ⟨hn, h.unowned p hp n hn⟩⟩
    · exact (hgone (hpages.mpr ⟨h1, h2⟩)).mpr (h.frames p (hpages.mpr ⟨h1, h2⟩))
    · rw [hun.pte_eq, if_neg fun hc => hout (hpages.mp hc.1)]
    · exact hup.kept (hs.root _ rfl) hun.upper fun a _ hta => hun.bytes a hta
    · have htop : pageOf fault < 256 * 2 ^ 27 := by
        unfold pageOf pageSize userEnd at *
        omega
      exact pageFault_unhandled htop habs (hnone fault h1 h2) error

def areaTask : Task := ⟨2 ^ 20, [⟨0x400000, 0x401000, 1⟩], 0, 0⟩

/-- The page of an area is mapped and unmapped. -/
theorem unmap_law_iff_onePage : ∃ pmm, pmmInit [fivePages] = some pmm ∧
    UnmapLaw (vmmMapPage ⟨fun _ => 0, pmm, 0⟩ (2 ^ 20) 0x400000 (2 ^ 21) flagUser).2 areaTask
      0x400000 4096 := by
  obtain ⟨pmm, h0, hrun, hheld⟩ := fivePages_running
  have hblank := sound_oneRoot hrun hheld
  obtain ⟨l, g, hok⟩ := hblank.mapped rfl (show pageOf 0x400000 < 256 * 2 ^ 27 by decide)
    (2 ^ 21) (show flagUser < 2 ^ 64 by decide)
  have hyes : ∀ pmm ∈ pmmInit [fivePages],
      (vmmMapPage ⟨fun _ => 0, pmm, 0⟩ (2 ^ 20) 0x400000 (2 ^ 21) flagUser).1 = true := by
    decide +kernel
  have hmapped := g.mapped (hok.mp (hyes pmm h0)) (2 ^ 20) rfl
  refine ⟨pmm, h0, ?_⟩
  generalize (vmmMapPage ⟨fun _ => 0, pmm, 0⟩ (2 ^ 20) 0x400000 (2 ^ 21) flagUser).2 = s at *
  have hpte : ∀ p, pte 256 s.mem (2 ^ 20) p =
      if p = pageOf 0x400000 then ⟨leafEntry (2 ^ 21) flagUser, false⟩ else ⟨0, false⟩ := by
    intro p
    rw [hmapped, pte_blank]
    simp
  have hupper : UpperApart s (2 ^ 20) := upperApart_of_empty fun i hi hti => by
    rw [g.upper _ rfl i hi hti, entry_blank]
    decide
  refine (unmap_law_iff g.sound hupper
    (fun p _ hb => not_blocked_blank _ _ p (g.huge p hb))
    ⟨by decide, by decide, by simp [areaTask]⟩ (by decide) (by decide) (by decide)).mpr
    ⟨fun p _ hp => ?_, by decide, fun p hp => ?_⟩
  · change frame (pte 256 s.mem (2 ^ 20) p).entry ≠ 0
    change (pte 256 s.mem (2 ^ 20) p).present = true at hp
    rw [hpte] at hp ⊢
    split_ifs at hp ⊢
    · decide
    · exact absurd hp (by decide)
  · change (pte 256 s.mem (2 ^ 20) p).unowned = true at hp
    rw [hpte] at hp
    split_ifs at hp <;> exact absurd hp (by decide)

/-- The pixels of a surface are mapped and unmapped: the frame is given back. And of an area of
two pages the first is unmapped: the second one is no longer covered. -/
theorem unmap_breaks : ∃ pmm, pmmInit [fivePages] = some pmm ∧
    (let pixels := pmmAllocPage pmm;
      ¬ UnmapLaw (sysWlMapBuffer ⟨fun _ => 0, pixels.2, 0⟩ ⟨2 ^ 20, [], 0, 0⟩ 0x400000 pixels.1
        4096).2 ⟨2 ^ 20, [], 0, 0⟩ 0x400000 4096) ∧
    ¬ UnmapLaw ⟨fun _ => 0, pmm, 0⟩ ⟨2 ^ 20, [⟨0x400000, 0x402000, 3⟩], 0, 0⟩ 0x400000 4096 := by
  obtain ⟨pmm, h0, -⟩ := fivePages_running
  have hval : (pmmInit [fivePages]).map (fun pmm =>
      let pixels := pmmAllocPage pmm
      let s := (sysWlMapBuffer ⟨fun _ => 0, pixels.2, 0⟩
        ⟨2 ^ 20, [], 0, 0⟩ 0x400000 pixels.1 4096).2
      let e := pte 256 s.mem (2 ^ 20) 0x400
      (e.unowned, (findUsed s.pmm (frame e.entry)).isSome,
        findUsed (sysMunmap s ⟨2 ^ 20, [], 0, 0⟩ 0x400000 4096).1.pmm (frame e.entry))) =
      some (true, true, none) := by decide +kernel
  rw [h0] at hval
  obtain ⟨hunowned, hval⟩ := Prod.mk.inj (Option.some.inj hval)
  obtain ⟨hused, hfree⟩ := Prod.mk.inj hval
  obtain ⟨i, hi⟩ := Option.isSome_iff_exists.mp hused
  obtain ⟨hlt, hbase, hst⟩ := findUsed_spec hi
  refine ⟨pmm, h0, fun h => ?_, fun h => ?_⟩
  · exact findUsed_none hfree _ (h.unowned 0x400 hunowned _ ⟨i, hlt, hst, hbase, rfl⟩)
  · have hgone := h.areas 0x401000 (by decide)
    have hvmas : ∀ s : State, (sysMunmap s ⟨2 ^ 20, [⟨0x400000, 0x402000, 3⟩], 0, 0⟩ 0x400000
        4096).2.vmas = [] := fun _ => rfl
    rw [hvmas] at hgone
    exact absurd hgone (by decide)

end YamKernel.Vmm

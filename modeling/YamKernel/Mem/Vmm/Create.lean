import YamKernel.Mem.Vmm.ZeroPages

/-!
# New address spaces

`vmm_create_user_pml4` takes a page for the root, with an empty lower half and the upper half of
the kernel's root. The new space is apart from all others.
-/

namespace YamKernel.Vmm

open Lib Pmm List

/-- `new` is the root of a space with an empty lower half. -/
structure Created (R : Set Nat) (s s' : State) (new : Nat) : Prop where
  sound : Sound 256 (insert new R) s'
  fresh : Fresh s.pmm s'.pmm new
  pmm : s'.pmm = (pmmAllocPage s.pmm).2
  notTable : ¬ IsTable 256 s.mem R new
  keeps : KeepsTables 256 R s.mem s'.mem
  lower : ∀ i < 256, entry s'.mem new i = 0

section Create

variable {R : Set Nat} {s : State} {new : Nat}

lemma copyUpper_spec (new : Nat) (l : List Nat) (hl : ∀ i ∈ l, 256 ≤ i ∧ i < 512) (s : State) :
    let s' := l.foldl (fun s i => s.setEntry new i (entry s.mem s.kernelPml4 i)) s
    s'.pmm = s.pmm ∧ s'.kernelPml4 = s.kernelPml4 ∧
      ∀ a, ¬ (new + 2048 ≤ a ∧ a < new + pageSize) → s'.mem a = s.mem a := by
  induction l generalizing s with
  | nil => exact ⟨rfl, rfl, fun _ _ => rfl⟩
  | cons i l ih =>
    obtain ⟨hlo, hhi⟩ := hl i (by simp)
    obtain ⟨hpmm, hkernel, hbytes⟩ := ih (fun j hj => hl j (by simp [hj]))
      (s.setEntry new i (entry s.mem s.kernelPml4 i))
    refine ⟨hpmm, hkernel, fun a ha => (hbytes a ha).trans (Mem.write_of_notMem ?_)⟩
    unfold pageSize at ha
    omega

lemma vmmCreateUserPml4_taken (h0 : (pmmAllocPage s.pmm).1 ≠ 0) :
    vmmCreateUserPml4 s = (some (pmmAllocPage s.pmm).1, (range' 256 256).foldl
      (fun s' i => s'.setEntry (pmmAllocPage s.pmm).1 i (entry s'.mem s'.kernelPml4 i))
      { s with
        pmm := (pmmAllocPage s.pmm).2
        mem := s.mem.fill (pmmAllocPage s.pmm).1 pageSize 0 }) := by
  unfold vmmCreateUserPml4 allocPageTable
  simp [h0]

lemma Sound.create (h : Sound 256 R s) :
    (pmmAllocPage s.pmm).1 = 0 ∧ vmmCreateUserPml4 s = (none, s) ∨
      ∃ new s', vmmCreateUserPml4 s = (some new, s') ∧ Created R s s' new := by
  by_cases h0 : (pmmAllocPage s.pmm).1 = 0
  · exact .inl ⟨h0, by simp [vmmCreateUserPml4, allocPageTable, pmmAllocPage_fail h.good h0]⟩
  have hfresh := pmmAllocPage_fresh h.good h0
  refine .inr ⟨(pmmAllocPage s.pmm).1, _, vmmCreateUserPml4_taken h0, ?_⟩
  generalize (pmmAllocPage s.pmm).1 = new at *
  obtain ⟨hpmm, -, hbytes⟩ := copyUpper_spec new (range' 256 256)
    (fun i hi => by rw [mem_range'_1] at hi; omega)
    { s with pmm := (pmmAllocPage s.pmm).2, mem := s.mem.fill new pageSize 0 }
  generalize (range' 256 256).foldl (fun s i => s.setEntry new i (entry s.mem s.kernelPml4 i))
    { s with pmm := (pmmAllocPage s.pmm).2, mem := s.mem.fill new pageSize 0 } = s' at *
  have hout : ∀ a, ¬ (new ≤ a ∧ a < new + pageSize) → s'.mem a = s.mem a := fun a ha =>
    (hbytes a (by omega)).trans (Mem.fill_of_notMem (by omega))
  have hkeeps : KeepsTables 256 R s.mem s'.mem := fun t ht i hi => by
    have hap := h.fresh_apart hfresh ht
    refine entry_congr hi fun a h1 h2 => hout a ?_
    unfold PagesApart at hap
    omega
  have hlower : ∀ i < 256, entry s'.mem new i = 0 := fun i hi => by
    have hsame : entry s'.mem new i = entry (s.mem.fill new pageSize 0) new i :=
      Mem.read_congr fun a h1 h2 => hbytes a (by unfold pageSize; omega)
    rw [hsame]
    refine Mem.read_fill_zero ?_ ?_
    · omega
    · unfold pageSize
      omega
  have hempty : ∀ i < 512, next 256 s'.mem 0 new i = none := fun i _ => by
    by_cases hi : i < 256
    · exact nextOf_absent (by rw [hlower i hi]; decide)
    · exact if_neg fun hc => hi (hc.2.2.1 rfl)
  have hnot := h.fresh_notTable hfresh
  have htabs : ∀ t, IsTable 256 s'.mem (insert new R) t → t = new ∨ IsTable 256 s.mem R t := by
    rintro t ⟨r, rfl | hr, d, n, ht⟩
    · rw [Radix.node_alone hempty (by decide)] at ht
      split_ifs at ht
      exact .inl (Option.some.inj ht).symm
    · exact .inr ⟨r, hr, d, n, (hkeeps.tableAt_eq hr d n).symm.trans ht⟩
  have hsep : Radix.Separate 512 (next 256 s'.mem) R :=
    h.separate.congr fun _ hr => hkeeps.tableAt_eq hr
  replace hpmm : s'.pmm = (pmmAllocPage s.pmm).2 := hpmm
  rw [← hpmm] at hfresh
  refine ⟨⟨hfresh.good, (hfresh.within h.within).2, ?_, hsep.insert hempty (by decide)
      fun hm => hnot (hkeeps.isTable_iff.mp hm), fun t ht => ?_⟩,
    hfresh, hpmm, hnot, hkeeps, hlower⟩
  · rintro r (rfl | hr)
    · exact hfresh.page
    · exact h.root r hr
  · rcases htabs t ht with rfl | ht
    · exact hfresh.held
    · exact hfresh.keeps t (h.held t ht)

end Create

end YamKernel.Vmm

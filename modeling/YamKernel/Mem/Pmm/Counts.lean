import YamKernel.Mem.Pmm.Supply

/-!
# Reference counts

Frames below 4 GB have a reference count; above, every frame reads as 0. Freeing a page
drops a reference, and gives the range back with the last one. `frees_allocated_iff` says what
a series of such calls leaves. A request changes the count of no frame that was not free.
-/

namespace YamKernel.Pmm

open Lib List

def countLimit : Nat := 2 ^ 32

section Counts

variable {s : State} {f g n : Nat}

lemma physToPfn_lt : physToPfn f < maxPhysPages ↔ f < countLimit := by
  unfold physToPfn maxPhysPages countLimit pageSize
  omega

lemma pmmPageRefcount_of_lt (hlt : f < countLimit) :
    pmmPageRefcount s f = (s.pageArray (physToPfn f)).refcount := by
  rw [pmmPageRefcount_eq, if_pos (physToPfn_lt.mpr hlt)]

lemma pmmPageRefcount_high (hge : countLimit ≤ f) : pmmPageRefcount s f = 0 := by
  rw [pmmPageRefcount_eq, if_neg (mt physToPfn_lt.mp (not_lt.mpr hge))]

lemma pmmPageRefcount_setRefcount (hf : pageSize ∣ f) (hg : pageSize ∣ g) (hlt : f < countLimit) :
    pmmPageRefcount (s.setRefcount (physToPfn f) n) g =
      if g = f then n else pmmPageRefcount s g := by
  have hpfn : physToPfn g = physToPfn f ↔ g = f := by
    unfold physToPfn pageSize at *
    omega
  rw [pmmPageRefcount_eq, pmmPageRefcount_eq]
  by_cases hgf : g = f
  · subst hgf
    simp [State.setRefcount, physToPfn_lt.mpr hlt]
  · simp [State.setRefcount, hgf, hpfn]

/-! ## Freeing -/

/-- A range stays in use unless it is the one freed and this was its last reference. -/
theorem pmmFreePage_allocated (h : Good s) {b : Nat} : Allocated (pmmFreePage s f) b n ↔
    Allocated s b n ∧ (b = f → 1 < pmmPageRefcount s f) := by
  rcases pmmFreePages_cases h f 1 with ⟨he, hno⟩ | ⟨k, -, hgt, he⟩ | ⟨k, hle, hr⟩
  · rw [pmmFreePage, he]
    refine ⟨fun ha => ⟨ha, ?_⟩, And.left⟩
    rintro rfl
    exact absurd ha (hno n)
  · rw [pmmFreePage, he]
    exact ⟨fun ha => ⟨ha, fun _ => hgt⟩, And.left⟩
  · rw [pmmFreePage, hr.allocated]
    refine and_congr_right fun _ => ⟨fun hne he => absurd he hne, fun hc he => ?_⟩
    have := hc he
    omega

lemma pmmFreePage_refcount (h : Good s) (ha : Allocated (pmmFreePage s f) g n) :
    pmmPageRefcount (pmmFreePage s f) g =
      if g = f then pmmPageRefcount s g - 1 else pmmPageRefcount s g := by
  have hold := ((pmmFreePage_allocated h).mp ha).1
  obtain ⟨-, -, hgd, -⟩ := h.allocated_range hold
  rcases pmmFreePages_cases h f 1 with ⟨he, hno⟩ | ⟨k, hk, hgt, he⟩ | ⟨k, hle, hr⟩
  · rw [pmmFreePage, he, if_neg]
    rintro rfl
    exact hno n hold
  · obtain ⟨-, -, hfd, -⟩ := h.allocated_range hk
    have hlt : f < countLimit := by
      by_contra hge
      rw [pmmPageRefcount_high (not_lt.mp hge)] at hgt
      omega
    rw [pmmFreePage, he, pmmPageRefcount_setRefcount hfd hgd hlt]
    split_ifs with hgf
    · rw [hgf]
    · rfl
  · have hne : g ≠ f := by
      rintro rfl
      exact ((hr.allocated g n).mp ha).2 rfl
    rw [if_neg hne]
    exact hr.refcount_other h hold hne

lemma pmmFreePage_good (h : Good s) (f : Nat) : Good (pmmFreePage s f) := pmmFreePages_good h f 1

/-- A range is in use after a series of frees exactly when fewer of them were for it than it
has references. -/
theorem frees_allocated_iff (fs : List Nat) (h : Good s) {b : Nat} :
    Allocated (fs.foldl pmmFreePage s) b n ↔
      Allocated s b n ∧ (b ∈ fs → fs.count b < pmmPageRefcount s b) := by
  induction fs generalizing s with
  | nil => simp
  | cons f fs ih =>
    rw [foldl_cons, ih (pmmFreePage_good h f)]
    by_cases ha : Allocated (pmmFreePage s f) b n
    · obtain ⟨hold, hf⟩ := (pmmFreePage_allocated h).mp ha
      rw [pmmFreePage_refcount h ha]
      simp only [ha, hold, true_and, mem_cons, count_cons]
      by_cases hbf : b = f
      · subst hbf
        have := hf rfl
        by_cases hmem : b ∈ fs
        · simp only [hmem, true_imp_iff, or_true, if_true, beq_self_eq_true]
          omega
        · have hzero : fs.count b = 0 := count_eq_zero.mpr hmem
          simp only [hmem, hzero, false_imp_iff, or_false, true_imp_iff, beq_self_eq_true, if_true,
            true_iff]
          omega
      · have hne : (f == b) = false := by simp [Ne.symm hbf]
        simp [hbf, hne]
    · simp only [ha, false_and, false_iff, not_and]
      intro hold hc
      have hnot := mt (pmmFreePage_allocated h).mpr ha
      push Not at hnot
      obtain ⟨rfl, hle⟩ := hnot hold
      have : 0 < (b :: fs).count b := by simp
      have := hc mem_cons_self
      omega

lemma pmmPageUnref_several (hone : 1 < pmmPageRefcount s f) (hn : pmmPageRefcount s f < 2 ^ 32) :
    (pmmPageUnref s f).2 = s.setRefcount (physToPfn f) (pmmPageRefcount s f - 1) := by
  have hlt : f < countLimit := by
    by_contra hge
    rw [pmmPageRefcount_high (not_lt.mp hge)] at hone
    omega
  rw [pmmPageRefcount_of_lt hlt] at *
  have hn1 : sub32 (s.pageArray (physToPfn f)).refcount 1 =
      (s.pageArray (physToPfn f)).refcount - 1 := sub32_of_le (by omega) hn
  rw [pmmPageUnref, if_neg (not_le.mpr (physToPfn_lt.mpr hlt))]
  simp only [hn1]
  rw [if_neg (by omega)]

lemma Good.freeAt_setRefcount (h : Good s) (pfn n : Nat) {a : Nat} :
    FreeAt (s.setRefcount pfn n) a ↔ FreeAt s a := by
  rw [(h.setRefcount pfn n).freeAt_iff, h.freeAt_iff]
  rfl

lemma Good.held_setRefcount (h : Good s) (pfn n : Nat) :
    Held (s.setRefcount pfn n) f ↔ Held s f := by
  simp only [Held, h.freeAt_setRefcount]

lemma Fresh.refcount_eq {s' : State} (h : Fresh s s' f) (hg : Good s) (hheld : Held s g)
    (hd : pageSize ∣ g) : pmmPageRefcount s' g = pmmPageRefcount s g := by
  obtain ⟨size, hle, w⟩ := h.takes
  obtain ⟨hfd, hwhole, -⟩ := w.whole
  have hap : g + pageSize ≤ f ∨ f + size ≤ g := by
    by_contra hover
    have : 0 < pageSize := by decide
    exact hheld (max f g) (by omega) (by omega) (w.was_free h.ext hg (by omega) (by omega))
  rw [pmmPageRefcount_eq, pmmPageRefcount_eq, w.pages,
    updatePages_apart hfd hd hwhole (by decide) hap]

lemma Takes.refcount_eq {s' : State} {l : List Nat} (h : Takes s s' l) (hg : Good s)
    (hheld : Held s g) (hd : pageSize ∣ g) : pmmPageRefcount s' g = pmmPageRefcount s g := by
  induction h with
  | nil => rfl
  | cons ht hf ih => rw [hf.refcount_eq (ht.good hg) (ht.keeps hg hheld) hd, ih]

end Counts

/-! ## Reference counts are 32-bit numbers -/

def SmallCounts (s : State) : Prop := ∀ pfn, (s.pageArray pfn).refcount < 2 ^ 32

section SmallCounts

variable {s s' : State}

section

variable (h : SmallCounts s)
include h

lemma SmallCounts.lt (f : Nat) : pmmPageRefcount s f < 2 ^ 32 := by
  rw [pmmPageRefcount_eq]
  split_ifs
  · exact h _
  · decide

lemma SmallCounts.updatePages {pfn n : Nat} {up : Page → Page} (hup : ∀ p, (up p).refcount < 2 ^ 32)
    (hp : s'.pageArray = Pmm.updatePages s.pageArray pfn n up) : SmallCounts s' := by
  intro k
  rw [hp, Pmm.updatePages]
  split_ifs
  · exact hup _
  · exact h k

lemma SmallCounts.setRefcount (pfn : Nat) {n : Nat} (hn : n < 2 ^ 32) :
    SmallCounts (s.setRefcount pfn n) := by
  intro k
  by_cases hk : k = pfn
  · simpa [State.setRefcount, hk] using hn
  · simpa [State.setRefcount, hk] using h k

lemma SmallCounts.alloc (hg : Good s) (count : Nat) (zone : Zone) (strict : Bool) :
    SmallCounts (pmmAllocPagesInternal s count zone strict).2 := by
  rcases alloc_cases hg count zone strict with he | ⟨_, -, w⟩
  · rw [he]
    exact h
  · exact h.updatePages (fun _ => show 1 < 2 ^ 32 by decide) w.pages

lemma SmallCounts.draws (hg : Good s) (n : Nat) : SmallCounts (Pmm.draws n s) := by
  induction n with
  | zero => exact h
  | succ n ih =>
    rw [draws_succ]
    exact ih.alloc (draws_good hg n) 1 .normal false

lemma SmallCounts.freePages (hg : Good s) (addr count : Nat) :
    SmallCounts (pmmFreePages s addr count) := by
  rcases pmmFreePages_cases hg addr count with ⟨he, -⟩ | ⟨_, -, -, he⟩ | ⟨_, -, w⟩
  · rw [he]
    exact h
  · rw [he]
    exact h.setRefcount _ ((Nat.sub_le _ _).trans_lt (h.lt addr))
  · exact h.updatePages (fun _ => show 0 < 2 ^ 32 by decide) w.pages

lemma SmallCounts.exec (hg : Good s) (c : Call) : SmallCounts (c.exec s).2 :=
  (c.exec_keeps (P := fun s => Good s ∧ SmallCounts s) ⟨hg, h⟩
    (fun _ _ _ => ⟨alloc_good hg _ _ _, h.alloc hg _ _ _⟩)
    (fun _ _ hn => ⟨hg.setRefcount _ _, h.setRefcount _ hn⟩)
    fun _ h _ _ => ⟨pmmFreePages_good h.1 _ _, h.2.freePages h.1 _ _⟩).2

lemma SmallCounts.runCalls (hg : Good s) (calls : List Call) :
    SmallCounts (Pmm.runCalls s calls) := by
  induction calls generalizing s with
  | nil => exact h
  | cons c calls ih => exact ih (h.exec hg c) (c.exec_good hg)

end

lemma pmmInit_smallCounts {memmap : List MemmapEntry} (hz : NoPageZero memmap)
    (he : pmmInit memmap = some s) : SmallCounts s := by
  refine pmmInit_induct hz (fun _ => Nat.two_pow_pos 32) (fun s base length _ _ h k => ?_)
    (fun _ _ _ s base chunk _ h k => ?_) (fun _ h => h) he
  · simp only [initPageDescriptors, updatePages]
    by_cases hin : physToPfn base ≤ k ∧ k < physToPfn base +
        (physToPfn (u64 (base + length)) - physToPfn base) ∧ k < maxPhysPages
    · rw [if_pos hin]
      exact Nat.two_pow_pos 32
    · rw [if_neg hin]
      exact h k
  · rw [(addRoot_frame s base chunk).1]
    exact h k

lemma Running.smallCounts (h : Running s) : SmallCounts s := by
  obtain ⟨memmap, s0, calls, hd, hz, -, he, rfl⟩ := h
  exact (pmmInit_smallCounts hz he).runCalls (pmmInit_good hd hz he) calls

end SmallCounts

end YamKernel.Pmm

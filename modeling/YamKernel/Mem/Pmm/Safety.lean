import YamKernel.Mem.Pmm.Runs

/-!
# Safety and conservation of the physical allocator

The two results about whole runs of `pmm.c`, from `pmm_init` on any memory map with
disjoint usable entries.
-/

namespace YamKernel.Pmm

open Lib QuadTree Finset Option

/-- In every run the forest is well formed, and an allocation that succeeds returns a range
that is disjoint from all ranges in use, all of which stay in use. -/
theorem run_wellFormed {memmap : List MemmapEntry} {s0 : State} (hd : UsableDisjoint memmap)
    (hz : NoPageZero memmap) (hinit : pmmInit memmap = some s0) (calls : List Call) :
    WellFormed (runCalls s0 calls) ∧
      ∀ c : Call, (c.exec (runCalls s0 calls)).1 ≠ 0 →
        ∃ size, Allocated (c.exec (runCalls s0 calls)).2 (c.exec (runCalls s0 calls)).1 size ∧
          ∀ b n, Allocated (runCalls s0 calls) b n →
            Allocated (c.exec (runCalls s0 calls)).2 b n ∧
              (b + n ≤ (c.exec (runCalls s0 calls)).1 ∨
                (c.exec (runCalls s0 calls)).1 + size ≤ b) := by
  have hgood := runCalls_good (pmmInit_good hd hz hinit) calls
  generalize runCalls s0 calls = s at hgood
  refine ⟨hgood.wellFormed, fun c hne => ?_⟩
  have fresh : ∀ count zone strict, (pmmAllocPagesInternal s count zone strict).1 ≠ 0 →
      ∃ size, Allocates s (pmmAllocPagesInternal s count zone strict).2
        (pmmAllocPagesInternal s count zone strict).1 size := by
    intro count zone strict hne
    rcases alloc_cases hgood count zone strict with he | ⟨size, -, ha⟩
    · exact absurd (by rw [he]) hne
    · exact ⟨size, ha⟩
  have hall : ∃ size, Allocates s (c.exec s).2 (c.exec s).1 size := by
    cases c with
    | allocPage => exact fresh _ _ _ hne
    | allocPages count => exact fresh _ _ _ hne
    | allocPagesZone count zone => exact fresh _ _ _ hne
    | freePages addr count => exact absurd rfl hne
    | pageRef addr => exact absurd rfl hne
    | pageUnref addr => exact absurd rfl hne
  obtain ⟨size, ha⟩ := hall
  exact ⟨size, ha.self, fun b n hb =>
    ⟨(ha.allocated b n).mpr (.inl hb), ha.apart b n hb⟩⟩

/-- Five pages from address 4096: a root of four pages and a root of one. -/
def fivePages : MemmapEntry := ⟨4096, 20480, .usable, by decide⟩

theorem run_wellFormed_fivePages : ∃ s0, pmmInit [fivePages] = some s0 ∧
    (pmmAllocPage s0).1 = 4096 ∧ WellFormed (runCalls s0 [.allocPage, .freePages 4096 1]) := by
  have hsome : (pmmInit [fivePages]).isSome = true := by decide
  obtain ⟨s0, h0⟩ := isSome_iff_exists.mp hsome
  refine ⟨s0, h0, ?_, (run_wellFormed (by simp [UsableDisjoint]) ?_ h0 _).1⟩
  · have : (pmmInit [fivePages]).map (fun s => (pmmAllocPage s).1) = some 4096 := by
      decide +kernel
    rw [h0] at this
    exact some.inj this
  · simp [NoPageZero, fivePages]

/-! ## Conservation -/

open Classical in
noncomputable def reachableFree (s : State) : Nat :=
  ∑ i ∈ (range s.cellCount).filter fun i => Reachable s i ∧ (s.cells i).state = .free,
    (s.cells i).size

def FullyMerged (s : State) : Prop :=
  ∀ i, Reachable s i → (s.cells i).state = .split →
    ¬ ∀ c : Fin 4, (s.cells ((s.cells i).children c)).state = .free

lemma Inv.sum_free_eq {s : State} {F : Forest} (h : Inv s F) :
    ∑ i ∈ F.ids, (s.cells i).freeBytes = reachableFree s := by
  classical
  unfold reachableFree
  have hfilter : (range s.cellCount).filter
      (fun i => Reachable s i ∧ (s.cells i).state = .free) =
        F.ids.filter fun i => (s.cells i).state = .free := by
    ext i
    simp only [mem_filter, mem_range, h.reachable_iff]
    exact ⟨fun hi => hi.2, fun hi => ⟨h.lt_count i hi.1, hi⟩⟩
  rw [hfilter, sum_filter]
  rfl

lemma Good.free_eq {s : State} (h : Good s) : s.freeMem = reachableFree s := by
  obtain ⟨F, hinv, hacc⟩ := h
  rw [hacc.free_eq, hinv.sum_free_eq]

lemma Good.fullyMerged {s : State} (h : Good s) : FullyMerged s := by
  obtain ⟨F, hinv, hacc⟩ := h
  intro i hi hst hall
  obtain ⟨r, hr, u, hu, rfl⟩ := hinv.reachable_sub hi
  obtain ⟨kids, hs⟩ := hinv.split_node hr hu hst
  obtain ⟨_, _, _, ⟨j, -, -, hk⟩, -⟩ := (hinv.rep r hr).sub hs
  have hfull : FullFree kids := fun c => by
    obtain ⟨_, hkid, -, hfree, -⟩ := (hk c).2.root
    have := hall c
    rw [(hk c).1] at this
    exact hfree.mp (hkid.state_eq.symm.trans this)
  rcases (AllNodes.sub (hacc.tight r hr) hs).1 with he | hn
  · exact (hinv.lt_noCell (hinv.reachable_iff.mp hi)).ne he
  · exact hn hfull

/-- With nothing in use every root is a single free cell. -/
theorem Good.all_free {s : State} (h : Good s) (hnone : ∀ b n, ¬ Allocated s b n) :
    (∀ i < s.cellCount, (s.cells i).parent = noCell → (s.cells i).state = .free) ∧
      s.freeMem = s.totalMem := by
  obtain ⟨F, hinv, hacc⟩ := h
  have hleaf : ∀ r ∈ F.roots, F.tree r = .leaf r false := by
    intro r hr
    have hbusy : ∀ p, ¬ Sub (.leaf p true) (F.tree r) := by
      intro p hp
      obtain ⟨_, _, _, hrep, -⟩ := (hinv.rep r hr).sub hp
      exact hnone _ _ ⟨p, hinv.lt_count p (Forest.sub_mem hr hp), Cell.At.state_eq hrep, rfl, rfl⟩
    have := (hacc.tight r hr).eq_leaf (hinv.noCell_notMem hr) hbusy
    rwa [hinv.root_id r hr] at this
  have hfree : ∀ r ∈ F.roots, (s.cells r).state = .free := by
    intro r hr
    have := hinv.rep r hr
    rw [hleaf r hr] at this
    exact Cell.At.state_eq this
  refine ⟨fun i hi hp => hfree i (hinv.root_mem i hi hp), ?_⟩
  rw [hacc.free_eq, hacc.total_eq, ← hinv.sum_leaves]
  refine sum_congr rfl fun i hi => ?_
  obtain ⟨r, hr, hm⟩ := Forest.mem_ids.mp hi
  rw [hleaf r hr, ids_leaf, mem_singleton] at hm
  simp [Cell.usedBytes, hm, hfree r hr]

/-- Runs of allocations and frees, with the bases handed out and not yet freed. Only a
base in that set may be freed, and only when nobody else holds a reference to it. -/
inductive AllocRun (s0 : State) : State → Finset Nat → Prop where
  | start : AllocRun s0 s0 ∅
  | failed {s : State} {live : Finset Nat} (count : Nat) : AllocRun s0 s live →
      (pmmAllocPages s count).1 = 0 → AllocRun s0 (pmmAllocPages s count).2 live
  | alloc {s : State} {live : Finset Nat} (count : Nat) : AllocRun s0 s live →
      (pmmAllocPages s count).1 ≠ 0 →
      AllocRun s0 (pmmAllocPages s count).2 (insert (pmmAllocPages s count).1 live)
  | free {s : State} {live : Finset Nat} (addr count : Nat) : AllocRun s0 s live →
      addr ∈ live → pmmPageRefcount s addr ≤ 1 →
      AllocRun s0 (pmmFreePages s addr count) (live.erase addr)

/-- The bases not yet freed are those of the ranges in use. -/
theorem AllocRun.live_iff {s0 s : State} {live : Finset Nat} (h : AllocRun s0 s live) (hg : Good s0)
    (hnone : ∀ b n, ¬ Allocated s0 b n) : Good s ∧ ∀ b, b ∈ live ↔ ∃ n, Allocated s b n := by
  induction h with
  | start => exact ⟨hg, fun b => ⟨fun hb => absurd hb (notMem_empty b),
      fun ⟨n, hn⟩ => absurd hn (hnone b n)⟩⟩
  | failed count _ h0 ih =>
    obtain ⟨hgood, hlive⟩ := ih
    rcases alloc_cases hgood count .normal false with he | ⟨_, -, ha⟩
    · change Good (pmmAllocPagesInternal _ count .normal false).2 ∧ _
      exact ⟨by rw [he]; exact hgood, by simpa only [pmmAllocPages, he] using hlive⟩
    · exact absurd h0 ha.base_pos.ne'
  | alloc count _ hne ih =>
    obtain ⟨hgood, hlive⟩ := ih
    rcases alloc_cases hgood count .normal false with he | ⟨size, -, ha⟩
    · exact absurd (congrArg Prod.fst he) hne
    · refine ⟨ha.good, fun b => ?_⟩
      simp only [pmmAllocPages, mem_insert, hlive, ha.allocated, exists_or]
      rw [or_comm]
      exact or_congr_right ⟨fun hb => ⟨size, hb, rfl⟩, fun ⟨_, hb, _⟩ => hb⟩
  | free addr count _ hmem hone ih =>
    obtain ⟨hgood, hlive⟩ := ih
    obtain ⟨n, hn⟩ := (hlive addr).mp hmem
    rcases pmmFreePages_cases hgood addr count with ⟨-, hno⟩ | ⟨_, -, hgt, -⟩ | ⟨size, -, hr⟩
    · exact absurd hn (hno n)
    · omega
    · refine ⟨hr.good, fun b => ?_⟩
      simp only [mem_erase, hlive, hr.allocated, exists_and_right]
      exact and_comm

/-- Conservation: the counter is the free memory of the forest, everything mergeable is
merged, and when all allocations are freed the roots and the counter are as at the start. -/
theorem allocRun_conserves {memmap : List MemmapEntry} {s0 s : State} {live : Finset Nat}
    (hd : UsableDisjoint memmap) (hz : NoPageZero memmap) (hinit : pmmInit memmap = some s0)
    (h : AllocRun s0 s live) :
    s.freeMem = reachableFree s ∧ FullyMerged s ∧
      (live = ∅ → s.freeMem = s.totalMem ∧
        ∀ i < s.cellCount, (s.cells i).parent = noCell → (s.cells i).state = .free) := by
  obtain ⟨hgood, hlive⟩ := h.live_iff (pmmInit_good hd hz hinit) (pmmInit_unused hd hz hinit)
  refine ⟨hgood.free_eq, hgood.fullyMerged, fun he => ?_⟩
  subst he
  obtain ⟨h1, h2⟩ := hgood.all_free fun b n hb =>
    absurd ((hlive b).mpr ⟨n, hb⟩) (notMem_empty b)
  exact ⟨h2, h1⟩

theorem allocRun_conserves_fivePages : ∃ s0 s, pmmInit [fivePages] = some s0 ∧
    AllocRun s0 s ∅ ∧ s.freeMem = s.totalMem ∧ s.totalMem = 20480 ∧ FullyMerged s := by
  have hsome : (pmmInit [fivePages]).isSome = true := by decide
  obtain ⟨s0, h0⟩ := isSome_iff_exists.mp hsome
  -- One page is allocated, which splits the first root, and freed again.
  have hval : (pmmInit [fivePages]).map (fun s => ((pmmAllocPages s 1).1,
      pmmPageRefcount (pmmAllocPages s 1).2 4096,
      (pmmFreePages (pmmAllocPages s 1).2 4096 1).totalMem)) = some (4096, 1, 20480) := by
    decide +kernel
  rw [h0] at hval
  simp only [map_some, some.injEq, Prod.mk.injEq] at hval
  obtain ⟨hbase, href, htotal⟩ := hval
  have hrun : AllocRun s0 (pmmFreePages (pmmAllocPages s0 1).2 4096 1) ∅ := by
    have h0 : AllocRun s0 s0 ∅ := .start
    have h1 := h0.alloc 1 (by rw [hbase]; decide)
    have h2 := h1.free 4096 1 (by rw [hbase]; decide) href.le
    rw [hbase] at h2
    simpa using h2
  have hc := allocRun_conserves (by simp [UsableDisjoint]) (by simp [NoPageZero, fivePages])
    h0 hrun
  exact ⟨s0, _, h0, hrun, (hc.2.2 rfl).1, htotal, hc.2.1⟩

end YamKernel.Pmm

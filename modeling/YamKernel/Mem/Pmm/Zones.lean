import Mathlib.Data.Set.Card
import YamKernel.Mem.Pmm.Bounds

/-!
# The zone counters

A cell is counted in the zone of its base. This is right for all its pages as long as no
root reaches from one zone into the next, which `pmm_init` does not see to: it cuts an entry
into powers of four of its size wherever the limits of the zones are.
-/

namespace YamKernel.Pmm

open Lib QuadTree Function Finset Option Nat

variable {a base i size : Nat} {s : State}

/-! ## Cells and zones -/

lemma physToZone_between {b c : Nat} (h1 : a ≤ b) (h2 : b ≤ c) (h : physToZone c = physToZone a) :
    physToZone b = physToZone a := by
  unfold physToZone at *
  split_ifs at * <;> first | rfl | omega

def Cell.InZone (c : Cell) : Prop := physToZone (c.base + (c.size - 1)) = physToZone c.base

/-- No root reaches into another zone. -/
def Unstraddled (s : State) : Prop :=
  ∀ i < s.cellCount, (s.cells i).parent = noCell → (s.cells i).InZone

/-- The bytes of a range, counted in the zone of its base. -/
def bytesIn (z : Zone) (x : Nat × Nat) : Nat := if physToZone x.1 = z then x.2 else 0

def Cell.range (c : Cell) : Nat × Nat := (c.base, c.size)

def capacity (s : State) (z : Zone) : Nat :=
  ∑ i ∈ (range s.cellCount).filter fun i => (s.cells i).parent = noCell,
    bytesIn z (s.cells i).range

def usedIn (s : State) (z : Zone) : Nat := ∑ x ∈ ranges s, bytesIn z x

section Forest

variable {s' : State} {F : Forest} {z : Zone}

section

variable (h : Inv s F)
include h

lemma Inv.roots_eq :
    (range s.cellCount).filter (fun i => (s.cells i).parent = noCell) = F.roots := by
  ext i
  rw [mem_filter, mem_range]
  constructor
  · exact fun hi => h.root_mem i hi.1 hi.2
  · exact fun hi => h.root_lt hi

lemma Inv.capacity_eq (z : Zone) : capacity s z = ∑ r ∈ F.roots, bytesIn z (s.cells r).range := by
  rw [capacity, h.roots_eq]

lemma Inv.capacity_lt (z : Zone) : capacity s z < 2 ^ 64 := by
  rw [h.capacity_eq]
  refine lt_of_le_of_lt (sum_le_sum fun r _ => ?_) h.sum_roots_lt
  unfold bytesIn
  split_ifs
  · exact le_rfl
  · exact zero_le _

lemma Inv.zone_eq (hu : Unstraddled s) {r : Nat} (hr : r ∈ F.roots) (hi : i ∈ (F.tree r).ids)
    (h1 : (s.cells i).base ≤ a) (h2 : a < (s.cells i).base + (s.cells i).size) :
    physToZone a = physToZone (s.cells r).base := by
  obtain ⟨u, hsub, rfl⟩ := mem_ids_iff.mp hi
  obtain ⟨hlo, hhi⟩ := (h.rep r hr).sub_range hsub
  obtain ⟨_, hat⟩ := h.root_at hr
  obtain ⟨hlt, hp⟩ := h.root_lt hr
  have hz := hu r hlt hp
  rw [← hat.size_eq] at hhi
  exact physToZone_between (by omega) (by omega) hz

lemma Inv.size_pos (hi : i ∈ F.ids) : 0 < (s.cells i).size := by
  obtain ⟨k, -, hk⟩ := h.size_at hi
  rw [hk]
  exact levelSize_pos k

/-- What the free cells hold of a zone and what is in use of it is its capacity. -/
theorem Inv.free_add_used (hu : Unstraddled s) (z : Zone) :
    (∑ i ∈ F.ids, if (s.cells i).state = .free then bytesIn z (s.cells i).range else 0) +
      usedIn s z = capacity s z := by
  rw [usedIn, h.sum_ranges, h.capacity_eq, ← sum_add_distrib, Forest.ids,
    sum_biUnion fun r hr q hq hne => h.disjoint r hr q hq hne]
  refine sum_congr rfl fun r hr => ?_
  obtain ⟨_, hroot⟩ := h.root_at hr
  have hsum := (h.rep r hr).sum_leaves (h.distinct r hr)
  have hcell : ∀ i ∈ (F.tree r).ids,
      ((if (s.cells i).state = .free then bytesIn z (s.cells i).range else 0) +
        if (s.cells i).state = .used then bytesIn z ((s.cells i).base, (s.cells i).size) else 0) =
      if physToZone (s.cells r).base = z then (s.cells i).freeBytes + (s.cells i).usedBytes
      else 0 := by
    intro i hi
    have := h.size_pos (Forest.mem_ids.mpr ⟨r, hr, hi⟩)
    have hz := h.zone_eq hu hr hi le_rfl (by omega)
    unfold bytesIn Cell.range Cell.freeBytes Cell.usedBytes
    rw [hz]
    split_ifs <;> rfl
  rw [sum_congr rfl hcell]
  unfold bytesIn Cell.range
  by_cases hz : physToZone (s.cells r).base = z
  · simp only [hz, if_true]
    rw [hsum, hroot.size_eq]
  · simp [hz]

end

/-! ## Roots over a call -/

lemma Extends.capacity_eq (h : Extends s s') (z : Zone) : capacity s' z = capacity s z := by
  have hroots : (range s'.cellCount).filter (fun i => (s'.cells i).parent = noCell) =
      (range s.cellCount).filter fun i => (s.cells i).parent = noCell := by
    ext i
    rw [mem_filter, mem_filter, mem_range, mem_range]
    constructor
    · exact fun hi => (h.root_iff hi.1).mp hi.2
    · exact fun hi => ⟨hi.1.trans_le h.count_le, (h.root_iff (hi.1.trans_le h.count_le)).mpr hi⟩
  rw [capacity, hroots]
  refine sum_congr rfl fun i hi => ?_
  rw [mem_filter, mem_range] at hi
  unfold Cell.range
  rw [h.base_eq i hi.1, h.size_eq i hi.1]

lemma Extends.unstraddled (h : Extends s s') (hu : Unstraddled s) : Unstraddled s' := by
  intro i hi hp
  obtain ⟨hlt, hold⟩ := (h.root_iff hi).mp hp
  have := hu i hlt hold
  unfold Cell.InZone at *
  rwa [h.base_eq i hlt, h.size_eq i hlt]

end Forest

/-! ## The counters over a run -/

/-- The counters of every zone in terms of the roots and of the ranges in use. -/
def ZoneSums (s : State) : Prop :=
  ∀ z, (s.zones z).totalPages * pageSize = capacity s z ∧
    (s.zones z).freePages * pageSize + usedIn s z = capacity s z

section Sums

variable {s' : State}

lemma Allocates.ranges_eq (h : Allocates s s' base size) :
    ranges s' = insert (base, size) (ranges s) := by
  ext ⟨b, n⟩
  rw [mem_ranges, mem_insert, mem_ranges, h.allocated, Prod.mk.injEq, or_comm]

lemma Releases.ranges_eq (h : Releases s s' base size) (hg : Good s) :
    ranges s' = (ranges s).erase (base, size) := by
  ext ⟨b, n⟩
  rw [mem_ranges, mem_erase, mem_ranges, h.allocated, and_comm]
  refine and_congr_left fun ha => ?_
  rw [ne_eq, ne_eq, Prod.mk.injEq, not_and]
  constructor
  · exact fun hne hb => absurd hb hne
  · rintro hne rfl
    exact hne rfl (hg.allocated_unique ha h.was)

section

variable (h : ZoneSums s)
include h

section

variable (hg : Good s)
include hg

lemma ZoneSums.alloc (hu : Unstraddled s) (he : Extends s s') (ha : Allocates s s' base size) :
    ZoneSums s' := by
  intro z
  obtain ⟨htotal, hfree⟩ := h z
  obtain ⟨F, hinv, -⟩ := ha.good
  have hcap := he.capacity_eq z
  have := hinv.capacity_lt z
  have := hinv.free_add_used (he.unstraddled hu) z
  have hnew : (base, size) ∉ ranges s := fun hm => by
    have hin := mem_ranges.mp hm
    have := hg.allocated_size_pos hin
    have := ha.apart _ _ hin
    omega
  have hused : usedIn s' z = usedIn s z + bytesIn z (base, size) := by
    rw [usedIn, ha.ranges_eq, sum_insert hnew, add_comm]
    rfl
  obtain ⟨-, hwhole, -⟩ := ha.whole
  rw [hcap, ha.zones, takeZone, hused]
  unfold pageSize at *
  by_cases hz : z = physToZone base
  · subst hz
    have hbytes : bytesIn (physToZone base) (base, size) = size := if_pos rfl
    -- The range taken is part of the capacity, so the counter does not wrap.
    have hle : size / 4096 ≤ (s.zones (physToZone base)).freePages := by omega
    simp only [update_self, sub64_of_le hle (by omega)]
    omega
  · have hbytes : bytesIn z (base, size) = 0 := if_neg (Ne.symm hz)
    rw [update_of_ne hz, hbytes]
    exact ⟨htotal, hfree⟩

lemma ZoneSums.release (he : Extends s s') (hr : Releases s s' base size) : ZoneSums s' := by
  intro z
  obtain ⟨htotal, hfree⟩ := h z
  obtain ⟨F, hinv, -⟩ := hr.good
  have hcap := he.capacity_eq z
  have := hinv.capacity_lt z
  have : usedIn s' z + bytesIn z (base, size) = usedIn s z := by
    rw [usedIn, hr.ranges_eq hg]
    exact sum_erase_add _ _ (mem_ranges.mpr hr.was)
  obtain ⟨-, -, -, k, hsize⟩ := hg.allocated_range hr.was
  rw [hcap, hr.zones, giveZone]
  by_cases hz : z = physToZone base
  · subst hz
    have hbytes : bytesIn (physToZone base) (base, size) = size := if_pos rfl
    unfold levelSize pageSize at *
    have hsum : (s.zones (physToZone base)).freePages + size / 4096 < 2 ^ 64 := by omega
    simp only [update_self, u64_of_lt hsum]
    omega
  · have hbytes : bytesIn z (base, size) = 0 := if_neg (Ne.symm hz)
    rw [update_of_ne hz]
    exact ⟨htotal, by omega⟩

lemma ZoneSums.allocPages (hu : Unstraddled s) (count : Nat) (zone : Zone) (strict : Bool) :
    ZoneSums (pmmAllocPagesInternal s count zone strict).2 := by
  rcases alloc_cases hg count zone strict with he | ⟨size, -, ha⟩
  · rw [he]
    exact h
  · exact h.alloc hg hu (alloc_extends hg count zone strict) ha

lemma ZoneSums.freePages (addr count : Nat) : ZoneSums (pmmFreePages s addr count) := by
  have hext := pmmFreePages_extends s addr count
  rcases pmmFreePages_cases hg addr count with ⟨he, -⟩ | ⟨_, -, -, he⟩ | ⟨_, -, hr⟩
  · rw [he]
    exact h
  · rw [he]
    exact h
  · exact h.release hg hext hr

lemma ZoneSums.exec (hu : Unstraddled s) (c : Call) : ZoneSums (c.exec s).2 :=
  (c.exec_keeps (P := fun s => Good s ∧ ZoneSums s) ⟨hg, h⟩
    (fun _ _ _ => ⟨alloc_good hg _ _ _, h.allocPages hg hu _ _ _⟩)
    (fun _ _ _ => ⟨hg.setRefcount _ _, h⟩)
    fun _ h _ _ => ⟨pmmFreePages_good h.1 _ _, h.2.freePages h.1 _ _⟩).2

lemma ZoneSums.run (hu : Unstraddled s) (calls : List Call) : ZoneSums (runCalls s calls) := by
  induction calls generalizing s with
  | nil => exact h
  | cons c calls ih =>
    exact ih (h.exec hg hu c) (c.exec_good hg) ((c.exec_extends hg).unstraddled hu)

end

end

end Sums

/-! ## The counters after initialization -/

def pagesIn (z : Zone) (c : Cell) : Nat := if physToZone c.base = z then c.size / pageSize else 0

/-- During `pmm_init` both counters of a zone hold the pages of the roots made so far, up to
wrap-around. -/
def ZoneBoot (s : State) : Prop :=
  ∀ z, (s.zones z).totalPages = u64 (∑ i ∈ range s.cellCount, pagesIn z (s.cells i)) ∧
    (s.zones z).freePages = (s.zones z).totalPages

lemma ZoneBoot.addRoot (h : ZoneBoot s) (base chunk : Nat) : ZoneBoot (addRoot s base chunk) := by
  by_cases hfull : cellPoolSize ≤ s.cellCount
  · rw [addRoot_full hfull]
    exact h
  obtain ⟨hcount, -, -, hbase, hsize, -, -, hframe⟩ := addRoot_eq base chunk (not_le.mp hfull)
  have hne : s.cellCount ≠ noCell := by unfold cellPoolSize at hfull; unfold noCell; omega
  have hzones : (Pmm.addRoot s base chunk).zones = update s.zones (physToZone base)
      { s.zones (physToZone base) with
        totalPages := u64 ((s.zones (physToZone base)).totalPages + chunk / pageSize)
        freePages := u64 ((s.zones (physToZone base)).freePages + chunk / pageSize) } := by
    simp [Pmm.addRoot, cellAllocNode, hfull, hne]
  intro z
  obtain ⟨htotal, hfree⟩ := h z
  have hsum : ∑ i ∈ range (Pmm.addRoot s base chunk).cellCount,
      pagesIn z ((Pmm.addRoot s base chunk).cells i) =
        ∑ i ∈ range s.cellCount, pagesIn z (s.cells i) +
          if physToZone base = z then chunk / pageSize else 0 := by
    rw [hcount, sum_range_succ, pagesIn, hbase, hsize]
    congr 1
    exact sum_congr rfl fun i hi => by rw [hframe i (mem_range.mp hi).ne]
  rw [hsum, hzones]
  by_cases hz : z = physToZone base
  · subst hz
    rw [if_pos rfl]
    simp only [update_self, hfree, htotal, u64, mod_add_mod]
    exact ⟨trivial, trivial⟩
  · rw [update_of_ne hz, if_neg (Ne.symm hz)]
    exact ⟨htotal, hfree⟩

lemma usedIn_of_unused (h : ∀ b n, ¬ Allocated s b n) (z : Zone) : usedIn s z = 0 := by
  have hempty : ranges s = ∅ := eq_empty_of_forall_notMem fun x hx =>
    h x.1 x.2 (mem_ranges.mp hx)
  rw [usedIn, hempty, sum_empty]

lemma pmmInit_zoneSums {memmap : List MemmapEntry} (hd : UsableDisjoint memmap)
    (hz : NoPageZero memmap) (he : pmmInit memmap = some s) : ZoneSums s := by
  obtain ⟨level, hboot⟩ := (pmmInit_boot hd hz he).boot
  have hnone := pmmInit_unused hd hz he
  have hreset : ZoneBoot pmmReset := by
    intro z
    cases z <;> simp [pmmReset, u64]
  have hb : ZoneBoot s := pmmInit_induct hz hreset (fun _ _ _ _ _ h => h)
    (fun _ _ _ _ base chunk _ h => h.addRoot base chunk) (fun _ h => h) he
  intro z
  obtain ⟨htotal, hfree⟩ := hb z
  have hcap := hboot.inv.capacity_eq z
  have := hboot.inv.capacity_lt z
  have hused := usedIn_of_unused hnone z
  have hpages : (∑ i ∈ range s.cellCount, pagesIn z (s.cells i)) * pageSize =
      capacity s z := by
    rw [hcap, sum_mul]
    refine sum_congr rfl fun i hi => ?_
    have hat := hboot.cell i (mem_range.mp hi)
    unfold pagesIn bytesIn Cell.range
    rw [hat.size_eq, levelSize, Nat.mul_div_cancel_left _ (by decide)]
    split_ifs
    · exact mul_comm _ _
    · exact zero_mul _
  have hsum : ∑ i ∈ range s.cellCount, pagesIn z (s.cells i) < 2 ^ 64 := by
    unfold pageSize at hpages
    omega
  rw [hfree, htotal, hused, u64_of_lt hsum, add_zero]
  exact ⟨hpages, hpages⟩

/-! ## Counting pages -/

def FreePage (s : State) (pfn : Nat) : Prop :=
  ∃ i, Reachable s i ∧ (s.cells i).state = .free ∧ (s.cells i).base ≤ pfn * pageSize ∧
    pfn * pageSize < (s.cells i).base + (s.cells i).size

noncomputable def freePagesIn (s : State) (z : Zone) : Nat :=
  Set.ncard {pfn | FreePage s pfn ∧ physToZone (pfn * pageSize) = z}

def Cell.pages (c : Cell) : Finset Nat :=
  Ico (c.base / pageSize) ((c.base + c.size) / pageSize)

def basedIn (s : State) (F : Forest) (z : Zone) : Finset Nat :=
  (F.ids.filter fun i => (s.cells i).state = .free ∧ physToZone (s.cells i).base = z).biUnion
    fun i => (s.cells i).pages

section Count

variable {F : Forest}

section

variable (h : Inv s F)
include h

section

variable (hi : i ∈ F.ids)
include hi

lemma Inv.whole : pageSize ∣ (s.cells i).base ∧ pageSize ∣ (s.cells i).size := by
  obtain ⟨k, -, hk⟩ := h.size_at hi
  obtain ⟨r, hr, u, _, _, _, -, hsub, rfl⟩ := h.cell hi
  refine ⟨(h.rep r hr).sub_aligned hsub (h.aligned r hr), ?_⟩
  rw [hk]
  exact dvd_mul_right _ _

lemma Inv.mem_pages {pfn : Nat} :
    pfn ∈ (s.cells i).pages ↔ (s.cells i).base ≤ pfn * pageSize ∧
      pfn * pageSize < (s.cells i).base + (s.cells i).size := by
  obtain ⟨⟨b, hb⟩, ⟨n, hn⟩⟩ := h.whole hi
  rw [Cell.pages, mem_Ico, hb, hn]
  unfold pageSize
  omega

lemma Inv.card_pages : (s.cells i).pages.card * pageSize = (s.cells i).size := by
  obtain ⟨⟨b, hb⟩, ⟨n, hn⟩⟩ := h.whole hi
  rw [Cell.pages, card_Ico, hb, hn, ← mul_add, Nat.mul_div_cancel_left _ (by decide),
    Nat.mul_div_cancel_left _ (by decide), Nat.add_sub_cancel_left, mul_comm]

end

lemma Inv.card_basedIn (z : Zone) : (basedIn s F z).card * pageSize =
    ∑ i ∈ F.ids, if (s.cells i).state = .free then bytesIn z (s.cells i).range else 0 := by
  rw [basedIn, card_biUnion, sum_mul, sum_filter]
  · refine sum_congr rfl fun i hi => ?_
    rw [h.card_pages hi]
    unfold bytesIn Cell.range
    split_ifs <;> simp_all
  · intro i hi j hj hne
    rw [mem_coe, mem_filter] at hi hj
    obtain ⟨r, hr, hleaf⟩ := h.leaf_mem (b := false) hi.1 hi.2.1
    obtain ⟨r', hr', hleaf'⟩ := h.leaf_mem (b := false) hj.1 hj.2.1
    have hap := h.leaves_apart hr hr' hleaf hleaf' hne
    refine disjoint_left.mpr fun pfn h1 h2 => ?_
    rw [h.mem_pages hi.1] at h1
    rw [h.mem_pages hj.1] at h2
    unfold Cell.Apart at hap
    omega

lemma Inv.mem_basedIn {z : Zone} {pfn : Nat} : pfn ∈ basedIn s F z ↔
    ∃ i, Reachable s i ∧ (s.cells i).state = .free ∧ physToZone (s.cells i).base = z ∧
      (s.cells i).base ≤ pfn * pageSize ∧ pfn * pageSize < (s.cells i).base + (s.cells i).size := by
  simp only [basedIn, mem_biUnion, mem_filter, h.reachable_iff]
  constructor
  · rintro ⟨i, ⟨hi, hst, hz⟩, hp⟩
    exact ⟨i, hi, hst, hz, (h.mem_pages hi).mp hp⟩
  · rintro ⟨i, hi, hst, hz, hp⟩
    exact ⟨i, ⟨hi, hst, hz⟩, (h.mem_pages hi).mpr hp⟩

/-- With the roots inside the zones, a free page is in the zone of its cell. -/
theorem Inv.freePagesIn_eq (hu : Unstraddled s) (z : Zone) :
    freePagesIn s z = (basedIn s F z).card := by
  rw [← Set.ncard_coe_finset, freePagesIn]
  congr 1
  ext pfn
  rw [mem_coe, h.mem_basedIn]
  constructor
  · rintro ⟨⟨i, hi, hst, h1, h2⟩, hz⟩
    refine ⟨i, hi, hst, ?_, h1, h2⟩
    obtain ⟨r, hr, hm⟩ := Forest.mem_ids.mp (h.reachable_iff.mp hi)
    rw [h.zone_eq hu hr hm le_rfl (by omega), ← h.zone_eq hu hr hm h1 h2, hz]
  · rintro ⟨i, hi, hst, hz, h1, h2⟩
    refine ⟨⟨i, hi, hst, h1, h2⟩, ?_⟩
    obtain ⟨r, hr, hm⟩ := Forest.mem_ids.mp (h.reachable_iff.mp hi)
    rw [h.zone_eq hu hr hm h1 h2, ← h.zone_eq hu hr hm le_rfl (by omega), hz]

end

end Count

/-! ## What the counters report -/

/-- The counter of each zone is the number of its free pages, at most its size, and the two
reports of memory pressure are about these numbers. -/
structure ZoneExact (s : State) : Prop where
  free_eq : ∀ z, (s.zones z).freePages = freePagesIn s z
  free_le : ∀ z, (s.zones z).freePages ≤ (s.zones z).totalPages
  low : pmmIsLowMemory s = true ↔
    ∃ z, 0 < (s.zones z).totalPages ∧ freePagesIn s z ≤ (s.zones z).watermark.low
  oom : pmmIsOom s = true ↔
    ∀ z, 0 < (s.zones z).totalPages → freePagesIn s z ≤ (s.zones z).watermark.min

lemma Zone.mem_all (z : Zone) : z ∈ [Zone.dma, .dma32, .normal] := by
  cases z <;> simp

lemma pmmIsLowMemory_iff (s : State) : pmmIsLowMemory s = true ↔
    ∃ z, 0 < (s.zones z).totalPages ∧ (s.zones z).freePages ≤ (s.zones z).watermark.low := by
  rw [pmmIsLowMemory, List.any_eq_true]
  constructor
  · rintro ⟨z, -, hz⟩
    exact ⟨z, of_decide_eq_true hz⟩
  · rintro ⟨z, hz⟩
    exact ⟨z, z.mem_all, decide_eq_true hz⟩

lemma pmmIsOom_iff (s : State) : pmmIsOom s = true ↔
    ∀ z, 0 < (s.zones z).totalPages → (s.zones z).freePages ≤ (s.zones z).watermark.min := by
  rw [pmmIsOom, List.all_eq_true]
  constructor
  · intro h z hpos
    have := of_decide_eq_true (h z z.mem_all)
    omega
  · intro h z _
    exact decide_eq_true fun hz => absurd (h z hz.1) (not_le.mpr hz.2)

lemma ZoneSums.exact (h : ZoneSums s) (hg : Good s) (hu : Unstraddled s) : ZoneExact s := by
  obtain ⟨F, hinv, -⟩ := hg
  have hfree : ∀ z, (s.zones z).freePages = freePagesIn s z := by
    intro z
    have hsum := hinv.free_add_used hu z
    rw [← hinv.card_basedIn, ← hinv.freePagesIn_eq hu] at hsum
    have := (h z).2
    unfold pageSize at *
    omega
  refine ⟨hfree, fun z => ?_, ?_, ?_⟩
  · obtain ⟨h1, h2⟩ := h z
    unfold pageSize at *
    omega
  · simp [pmmIsLowMemory_iff, hfree]
  · simp [pmmIsOom_iff, hfree]

/-! ## Roots that reach into another zone -/

def Zone.rank : Zone → Nat
  | .dma => 0
  | .dma32 => 1
  | .normal => 2

lemma rank_physToZone_mono {b : Nat} (h : a ≤ b) : (physToZone a).rank ≤ (physToZone b).rank := by
  unfold physToZone zoneDmaLimit zoneDma32Limit
  split_ifs <;> simp [Zone.rank] <;> omega

/-- A root that reaches into another zone, with no such root in the zones below. -/
theorem lowest_straddling (h : ¬ Unstraddled s) : ∃ r < s.cellCount,
    (s.cells r).parent = noCell ∧ ¬ (s.cells r).InZone ∧
    ∀ i < s.cellCount, (s.cells i).parent = noCell →
      (physToZone (s.cells i).base).rank < (physToZone (s.cells r).base).rank →
      (s.cells i).InZone := by
  classical
  let P : Nat → Prop := fun k => ∃ i < s.cellCount, (s.cells i).parent = noCell ∧
    ¬ (s.cells i).InZone ∧ (physToZone (s.cells i).base).rank = k
  have hex : ∃ k, P k := by
    unfold Unstraddled at h
    push Not at h
    obtain ⟨i, hi, hp, hz⟩ := h
    exact ⟨_, i, hi, hp, hz, rfl⟩
  obtain ⟨r, hr, hp, hz, hk⟩ := Nat.find_spec hex
  refine ⟨r, hr, hp, hz, fun i hi hpi hlt => ?_⟩
  by_contra hzi
  exact Nat.find_min hex (hk ▸ hlt) ⟨i, hi, hpi, hzi, rfl⟩

/-- While all cells are roots, a zone with a root that reaches out of it counts a page too
many. -/
theorem Boot.straddling_counts {level : Nat → Nat} (h : Boot s level) {r : Nat}
    (hr : r < s.cellCount) (hz : ¬ (s.cells r).InZone)
    (hlow : ∀ i < s.cellCount, (physToZone (s.cells i).base).rank <
      (physToZone (s.cells r).base).rank → (s.cells i).InZone) :
    freePagesIn s (physToZone (s.cells r).base) <
      (basedIn s (bootForest s level) (physToZone (s.cells r).base)).card := by
  have hinv := h.inv
  have hreach : ∀ {i}, Reachable s i ↔ i < s.cellCount := by
    intro i
    rw [hinv.reachable_iff, bootForest_mem_ids]
  rw [← Set.ncard_coe_finset]
  refine Set.ncard_lt_ncard (Set.ssubset_iff_exists.mpr ⟨?_, ?_⟩)
  · rintro pfn ⟨⟨i, hi, hst, h1, h2⟩, hpz⟩
    rw [mem_coe, hinv.mem_basedIn]
    refine ⟨i, hi, hst, ?_, h1, h2⟩
    -- The cell starts in the zone of its page, or in a lower one, which it does not leave.
    have hrank := rank_physToZone_mono h1
    rw [hpz] at hrank
    rcases hrank.lt_or_eq with hlt | heq
    · have hin := hlow i (hreach.mp hi) hlt
      rw [← hpz]
      exact (physToZone_between h1 (by omega) hin).symm
    · revert heq
      generalize physToZone (s.cells i).base = a
      generalize physToZone (s.cells r).base = b
      cases a <;> cases b <;> simp [Zone.rank]
  · -- The last page of the root is not in its zone.
    have hids : r ∈ (bootForest s level).ids := bootForest_mem_ids.mpr hr
    obtain ⟨⟨b, hb⟩, ⟨n, hn⟩⟩ := hinv.whole hids
    have := hinv.size_pos hids
    have hin : (s.cells r).base ≤ (b + n - 1) * pageSize ∧
        (b + n - 1) * pageSize < (s.cells r).base + (s.cells r).size := by
      unfold pageSize at *
      omega
    refine ⟨b + n - 1, ?_, fun hmem => hz ?_⟩
    · rw [mem_coe, hinv.mem_basedIn]
      exact ⟨r, hreach.mpr hr, (h.cell r hr).state_eq, rfl, hin⟩
    · have hpz : physToZone ((b + n - 1) * pageSize) = physToZone (s.cells r).base := hmem.2
      unfold Cell.InZone
      rw [← hpz]
      -- A zone limit is a multiple of the page size, so a page is in one zone.
      unfold physToZone zoneDmaLimit zoneDma32Limit
      unfold pageSize at *
      split_ifs <;> first | rfl | omega

lemma Boot.card_basedIn {level : Nat → Nat} (h : Boot s level) (z : Zone) :
    (basedIn s (bootForest s level) z).card * pageSize = capacity s z := by
  have hids : (bootForest s level).ids = range s.cellCount := by
    ext i
    rw [bootForest_mem_ids, mem_range]
  rw [h.inv.card_basedIn, h.inv.capacity_eq, hids]
  refine sum_congr rfl fun i hi => ?_
  rw [if_pos (h.cell i (mem_range.mp hi)).state_eq]

/-- The zone counters are exact in every run from a memory map exactly when no root cell made
from it reaches from one zone into another. -/
theorem zones_exact_iff {memmap : List MemmapEntry} {s0 : State} (hd : UsableDisjoint memmap)
    (hz : NoPageZero memmap) (hinit : pmmInit memmap = some s0) :
    (∀ calls, ZoneExact (runCalls s0 calls)) ↔ Unstraddled s0 := by
  have hgood := pmmInit_good hd hz hinit
  have hsums := pmmInit_zoneSums hd hz hinit
  constructor
  · intro hall
    by_contra hu
    obtain ⟨level, hboot⟩ := (pmmInit_boot hd hz hinit).boot
    obtain ⟨r, hr, hp, hzr, hlow⟩ := lowest_straddling hu
    have := hboot.straddling_counts hr hzr fun i hi hrank =>
      hlow i hi (hboot.cell i hi).parent_eq hrank
    have : (s0.zones (physToZone (s0.cells r).base)).freePages =
        freePagesIn s0 (physToZone (s0.cells r).base) := (hall []).free_eq _
    have hcount := (hsums (physToZone (s0.cells r).base)).2
    rw [usedIn_of_unused (pmmInit_unused hd hz hinit), ← hboot.card_basedIn] at hcount
    unfold pageSize at hcount
    omega
  · intro hu calls
    exact (hsums.run hgood hu calls).exact (runCalls_good hgood calls)
      ((runCalls_extends hgood calls).unstraddled hu)

/-- Four pages that end at the limit of the DMA zone. -/
def belowDmaLimit : MemmapEntry := ⟨zoneDmaLimit - 16384, 16384, .usable, by decide⟩

theorem zones_exact_iff_belowDmaLimit : ∃ s0, pmmInit [belowDmaLimit] = some s0 ∧
    ZoneExact (runCalls s0 [.allocPage, .allocPage]) := by
  have hsome : (pmmInit [belowDmaLimit]).isSome = true := by decide
  obtain ⟨s0, h0⟩ := isSome_iff_exists.mp hsome
  have hroot : (pmmInit [belowDmaLimit]).map (fun s => (s.cellCount,
      (s.cells 0).base, (s.cells 0).size)) = some (1, zoneDmaLimit - 16384, 16384) := by
    decide +kernel
  rw [h0] at hroot
  simp only [map_some, some.injEq, Prod.mk.injEq] at hroot
  obtain ⟨hcount, hbase, hsize⟩ := hroot
  have hd : UsableDisjoint [belowDmaLimit] := by simp [UsableDisjoint]
  have hz : NoPageZero [belowDmaLimit] := by
    rintro e he - ⟨hzero, -⟩
    obtain rfl := mem_singleton.mp he
    exact absurd hzero (by decide)
  have hu : Unstraddled s0 := by
    intro i hi _
    obtain rfl : i = 0 := by omega
    unfold Cell.InZone
    rw [hbase, hsize]
    decide
  exact ⟨s0, h0, (zones_exact_iff hd hz h0).mpr hu _⟩

/-- Four pages around the limit of the DMA zone, one of them below it. -/
def acrossDmaLimit : MemmapEntry := ⟨zoneDmaLimit - 4096, 16384, .usable, by decide⟩

/-- The second page handed out is taken from a zone that counts no page: its counter wraps. -/
theorem zone_counter_wraps : ∃ s0, pmmInit [acrossDmaLimit] = some s0 ∧
    ((runCalls s0 [.allocPage, .allocPage]).zones .dma32).totalPages = 0 ∧
    ((runCalls s0 [.allocPage, .allocPage]).zones .dma32).freePages = 2 ^ 64 - 1 ∧
    ¬ ZoneExact (runCalls s0 [.allocPage, .allocPage]) := by
  have hsome : (pmmInit [acrossDmaLimit]).isSome = true := by decide
  obtain ⟨s0, h0⟩ := isSome_iff_exists.mp hsome
  have hval : (pmmInit [acrossDmaLimit]).map (fun s =>
      (((runCalls s [.allocPage, .allocPage]).zones .dma32).totalPages,
        ((runCalls s [.allocPage, .allocPage]).zones .dma32).freePages)) =
      some (0, 2 ^ 64 - 1) := by
    decide +kernel
  rw [h0] at hval
  obtain ⟨htotal, hfree⟩ := Prod.mk.inj (some.inj hval)
  refine ⟨s0, h0, htotal, hfree, fun h => ?_⟩
  have := h.free_le .dma32
  omega

end YamKernel.Pmm

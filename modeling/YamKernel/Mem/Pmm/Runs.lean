import YamKernel.Mem.Pmm.Init

/-!
# Runs of the allocator

`Allocated` is the abstract state of the allocator: the ranges in use. The lemmas
`alloc_cases` and `pmmFreePages_cases` say what a call does to it, and are all that the
layers above need. From them `Good` holds after every call, hence in every run.
-/

namespace YamKernel.Pmm

open Lib QuadTree Function Finset

variable {F : Forest} {b base g i n r size : Nat} {s : State}

def Allocated (s : State) (base size : Nat) : Prop :=
  ∃ i < s.cellCount, (s.cells i).state = .used ∧ (s.cells i).base = base ∧ (s.cells i).size = size

lemma KeepsUsed.allocated_iff {s' : State} (h : KeepsUsed s s') :
    Allocated s' base size ↔ Allocated s base size := by
  constructor
  · rintro ⟨i, hi, hst, hb⟩
    obtain ⟨hi', hst'⟩ := h.used_old i hi hst
    rw [h.used i hi' hst'] at hb
    exact ⟨i, hi', hst', hb⟩
  · rintro ⟨i, hi, hst, hb⟩
    have he := h.used i hi hst
    exact ⟨i, lt_of_lt_of_le hi h.count_le, by rw [he]; exact ⟨hst, hb⟩⟩

/-! ## Ranges in use -/

lemma Inv.leaves_apart (h : Inv s F) {p q r' : Nat} {a b : Bool} (hr : r ∈ F.roots)
    (hr' : r' ∈ F.roots) (hp : Sub (.leaf p a) (F.tree r)) (hq : Sub (.leaf q b) (F.tree r'))
    (hne : p ≠ q) : (s.cells p).Apart (s.cells q) := by
  by_cases he : r = r'
  · subst he
    exact (h.rep r hr).leaves_apart hp hq hne
  · have h1 := (h.rep r hr).sub_range hp
    have h2 := (h.rep r' hr').sub_range hq
    obtain ⟨_, hat⟩ := h.root_at hr
    obtain ⟨_, hat'⟩ := h.root_at hr'
    have := h.apart r hr r' hr' he
    unfold Cell.Apart at this ⊢
    rw [hat.size_eq, hat'.size_eq] at this
    simp only [id_leaf] at h1 h2
    omega

lemma Inv.used_apart (h : Inv s F) {j : Nat} (hi : i < s.cellCount) (hj : j < s.cellCount)
    (hsi : (s.cells i).state = .used) (hsj : (s.cells j).state = .used) (hne : i ≠ j) :
    (s.cells i).Apart (s.cells j) := by
  obtain ⟨r, hr, hp⟩ := h.used_leaf hi hsi
  obtain ⟨r', hr', hq⟩ := h.used_leaf hj hsj
  exact h.leaves_apart hr hr' hp hq hne

lemma Good.allocated_range (h : Good s) (ha : Allocated s base size) :
    0 < base ∧ base + size ≤ 2 ^ 64 ∧ pageSize ∣ base ∧ ∃ k, size = levelSize k := by
  obtain ⟨F, hinv, -⟩ := h
  obtain ⟨i, hi, hst, rfl, rfl⟩ := ha
  obtain ⟨r, hr, hu⟩ := hinv.used_leaf hi hst
  obtain ⟨hlo, hhi⟩ := (hinv.rep r hr).sub_range hu
  obtain ⟨k, -, hsize⟩ := hinv.size_at (hinv.used_mem i hi hst)
  exact ⟨lt_of_lt_of_le (hinv.base_pos r hr) hlo, hhi.trans (hinv.end_le r hr),
    (hinv.rep r hr).sub_aligned hu (hinv.aligned r hr), k, hsize⟩

lemma Good.allocated_size_pos (h : Good s) (ha : Allocated s base size) : 0 < size := by
  obtain ⟨-, -, -, k, rfl⟩ := h.allocated_range ha
  exact levelSize_pos k

lemma Good.allocated_apart (h : Good s) {b' n' : Nat} (ha : Allocated s b n)
    (ha' : Allocated s b' n') : (b = b' ∧ n = n') ∨ b + n ≤ b' ∨ b' + n' ≤ b := by
  obtain ⟨F, hinv, -⟩ := h
  obtain ⟨i, hi, hst, rfl, rfl⟩ := ha
  obtain ⟨j, hj, hst', rfl, rfl⟩ := ha'
  by_cases hij : i = j
  · subst hij; exact .inl ⟨rfl, rfl⟩
  · exact .inr (hinv.used_apart hi hj hst hst' hij)

lemma Good.allocated_unique (h : Good s) {n' : Nat} (ha : Allocated s b n)
    (ha' : Allocated s b n') : n = n' := by
  have := h.allocated_size_pos ha
  have := h.allocated_size_pos ha'
  rcases h.allocated_apart ha ha' with h3 | h3
  · exact h3.2
  · omega

def ranges (s : State) : Finset (Nat × Nat) :=
  ((range s.cellCount).filter fun i => (s.cells i).state = .used).image
    fun i => ((s.cells i).base, (s.cells i).size)

lemma mem_ranges : (b, n) ∈ ranges s ↔ Allocated s b n := by
  simp only [ranges, mem_image, mem_filter, mem_range, Prod.mk.injEq]
  constructor
  · rintro ⟨i, ⟨hi, hst⟩, hb, hn⟩
    exact ⟨i, hi, hst, hb, hn⟩
  · rintro ⟨i, hi, hst, hb, hn⟩
    exact ⟨i, ⟨hi, hst⟩, hb, hn⟩

/-- A sum over the ranges in use is a sum over the used cells of the forest. -/
theorem Inv.sum_ranges (h : Inv s F) (g : Nat × Nat → Nat) :
    ∑ x ∈ ranges s, g x = ∑ i ∈ F.ids,
      if (s.cells i).state = .used then g ((s.cells i).base, (s.cells i).size) else 0 := by
  rw [ranges, sum_image, ← sum_filter]
  · refine sum_congr (ext fun i => ?_) fun _ _ => rfl
    simp only [mem_filter, mem_range]
    exact ⟨fun hi => ⟨h.used_mem i hi.1 hi.2, hi.2⟩, fun hi => ⟨h.lt_count i hi.1, hi.2⟩⟩
  · intro i hi j hj he
    rw [mem_coe, mem_filter, mem_range] at hi hj
    by_contra hne
    have hap := h.used_apart hi.1 hj.1 hi.2 hj.2 hne
    obtain ⟨hb, hn⟩ := Prod.mk.inj he
    obtain ⟨k, -, hsize⟩ := h.size_at (h.used_mem i hi.1 hi.2)
    have := levelSize_pos k
    unfold Cell.Apart at hap
    omega

lemma pmmInit_unused {memmap : List MemmapEntry} (hd : UsableDisjoint memmap)
    (hz : NoPageZero memmap) (he : pmmInit memmap = some s) (b n : Nat) : ¬ Allocated s b n := by
  rintro ⟨i, hi, hst, -⟩
  obtain ⟨level, hboot⟩ := (pmmInit_boot hd hz he).boot
  rw [(hboot.cell i hi).state_eq] at hst
  simp at hst

/-! ## The calls on the abstract state -/

def Page.taken (p : Page) : Page := { p with refcount := 1, flags := p.flags / 2 * 2, order := 0 }

def Page.released (p : Page) : Page := { p with refcount := 0, flags := 0, owner := 0 }

def takeZone (zones : Zone → MemZone) (base size : Nat) : Zone → MemZone :=
  update zones (physToZone base) { zones (physToZone base) with
    freePages := sub64 (zones (physToZone base)).freePages (size / pageSize)
    allocCount := u64 ((zones (physToZone base)).allocCount + 1) }

def giveZone (zones : Zone → MemZone) (base size : Nat) : Zone → MemZone :=
  update zones (physToZone base) { zones (physToZone base) with
    freePages := u64 ((zones (physToZone base)).freePages + size / pageSize) }

/-- A successful allocation of at least `req` bytes at `base`. -/
structure Allocates (s s' : State) (base size : Nat) : Prop where
  base_pos : 0 < base
  good : Good s'
  allocated : ∀ b n, Allocated s' b n ↔ Allocated s b n ∨ b = base ∧ n = size
  apart : ∀ b n, Allocated s b n → b + n ≤ base ∨ base + size ≤ b
  free_eq : s'.freeMem + size = s.freeMem
  pages : s'.pageArray = updatePages s.pageArray (physToPfn base) (size / pageSize) Page.taken
  zones : s'.zones = takeZone s.zones base size

lemma Holding.allocates {s0 : State} {found req : Nat} (w : Holding s F r found base req)
    (hkeep : KeepsUsed s0 s) (hpos : 0 < base) (idx : Nat) :
    Allocates s0 (Pmm.takeCell s idx found) base (s.cells found).size := by
  obtain ⟨hinv, hacc⟩ := w.takeCell idx
  have hfound := w.inv.lt_count found w.mem_ids
  obtain ⟨hle, hlt⟩ := w.size_le_free
  refine ⟨hpos, ⟨_, hinv, hacc⟩, fun b n => ?_, fun b n ha => ?_, ?_, ?_, ?_⟩
  · rw [← hkeep.allocated_iff]
    constructor
    · rintro ⟨i, hi, hst, hb, hn⟩
      by_cases hif : i = found
      · subst hif
        simp only [Pmm.takeCell, update_self] at hb hn
        exact .inr ⟨hb.symm.trans w.base_eq, hn.symm⟩
      · simp only [Pmm.takeCell, update_of_ne hif] at hst hb hn
        exact .inl ⟨i, hi, hst, hb, hn⟩
    · rintro (⟨i, hi, hst, hb, hn⟩ | ⟨rfl, rfl⟩)
      · have hif : i ≠ found := fun he => w.not_used (he ▸ hst)
        refine ⟨i, hi, ?_⟩
        simp only [Pmm.takeCell, update_of_ne hif]
        exact ⟨hst, hb, hn⟩
      · refine ⟨found, hfound, ?_⟩
        simp only [Pmm.takeCell, update_self]
        exact ⟨trivial, w.base_eq, trivial⟩
  · obtain ⟨i, hi, hst, rfl, rfl⟩ := hkeep.allocated_iff.mpr ha
    obtain ⟨r', hr', hu⟩ := w.inv.used_leaf hi hst
    have := w.inv.leaves_apart hr' w.root_mem hu w.leaf fun he => w.not_used (he ▸ hst)
    unfold Cell.Apart at this
    rwa [w.base_eq] at this
  · have : s.freeMem = s0.freeMem := by rw [hkeep.rest]
    simp only [Pmm.takeCell, sub64_of_le hle hlt]
    omega
  · simp only [Pmm.takeCell, w.base_eq]; rw [hkeep.rest]; rfl
  · simp only [Pmm.takeCell, w.base_eq]; rw [hkeep.rest]; rfl

lemma allocPass_spec (h : Good s) (count : Nat) (zone : Zone) (strict : Bool) :
    allocPass s count zone strict = (0, s) ∨ ∃ size, u64 (count * pageSize) ≤ size ∧
      Allocates s (allocPass s count zone strict).2 (allocPass s count zone strict).1 size := by
  obtain ⟨F, hinv, hacc⟩ := h
  generalize he : allocPass s count zone strict = out
  obtain ⟨result, s'⟩ := out
  rcases allocPass_cases hinv hacc he with ⟨rfl, rfl⟩ | ⟨s1, F1, r, found, hpos, hk, w, rfl⟩
  · exact .inl rfl
  · exact .inr ⟨_, w.req_le, w.allocates hk hpos r⟩

lemma alloc_eq_pass (h : Good s) (count : Nat) (zone : Zone) (strict : Bool) :
    ∃ b, pmmAllocPagesInternal s count zone strict = allocPass s count zone b := by
  unfold pmmAllocPagesInternal
  rcases allocPass_spec h count zone strict with he | ⟨size, -, ha⟩
  · rw [he]
    dsimp only
    split_ifs
    · exact ⟨false, rfl⟩
    · exact ⟨strict, he.symm⟩
  · have hne : (allocPass s count zone strict).1 ≠ 0 := ha.base_pos.ne'
    simp only [hne]
    exact ⟨strict, rfl⟩

/-- An allocation fails with 0 and changes nothing, or hands out a fresh range. -/
theorem alloc_cases (h : Good s) (count : Nat) (zone : Zone) (strict : Bool) :
    pmmAllocPagesInternal s count zone strict = (0, s) ∨ ∃ size, u64 (count * pageSize) ≤ size ∧
      Allocates s (pmmAllocPagesInternal s count zone strict).2
        (pmmAllocPagesInternal s count zone strict).1 size := by
  obtain ⟨b, he⟩ := alloc_eq_pass h count zone strict
  rw [he]
  exact allocPass_spec h count zone b

/-- The range of `size` bytes at `base` is given back. -/
structure Releases (s s' : State) (base size : Nat) : Prop where
  good : Good s'
  was : Allocated s base size
  allocated : ∀ b n, Allocated s' b n ↔ Allocated s b n ∧ b ≠ base
  pages : s'.pageArray = updatePages s.pageArray (physToPfn base) (size / pageSize) Page.released
  zones : s'.zones = giveZone s.zones base size

/-! ## Reference counts over a call -/

lemma pmmPageRefcount_eq (s : State) (addr : Nat) : pmmPageRefcount s addr =
    if physToPfn addr < maxPhysPages then (s.pageArray (physToPfn addr)).refcount else 0 := by
  unfold pmmPageRefcount
  dsimp only
  split_ifs <;> first | rfl | omega

/-- The descriptors of a range of pages are apart from those of another range. -/
theorem updatePages_apart {pages : Nat → Page} {up : Page → Page} {k : Nat} (hb : pageSize ∣ b)
    (hg : pageSize ∣ g) (hn : pageSize ∣ n) (hk : 0 < k) (hap : g + k ≤ b ∨ b + n ≤ g) :
    updatePages pages (physToPfn b) (n / pageSize) up (physToPfn g) = pages (physToPfn g) := by
  refine if_neg fun hin => ?_
  unfold physToPfn pageSize at *
  omega

section Refcounts

variable {s' : State}

section

variable (h : Allocates s s' base size)
include h

lemma Allocates.self : Allocated s' base size := (h.allocated base size).mpr (.inr ⟨rfl, rfl⟩)

lemma Allocates.whole : pageSize ∣ base ∧ pageSize ∣ size ∧ 0 < size / pageSize := by
  obtain ⟨-, -, hd, j, rfl⟩ := h.good.allocated_range h.self
  exact ⟨hd, ⟨4 ^ j, rfl⟩, Nat.div_pos (pageSize_le_levelSize j) (by decide)⟩

lemma Allocates.refcount_old (hg : Good s) (ha : Allocated s g n) :
    pmmPageRefcount s' g = pmmPageRefcount s g := by
  obtain ⟨-, -, hgd, -⟩ := hg.allocated_range ha
  obtain ⟨hd, hwhole, -⟩ := h.whole
  rw [pmmPageRefcount_eq, pmmPageRefcount_eq, h.pages,
    updatePages_apart hd hgd hwhole (hg.allocated_size_pos ha) (h.apart g n ha)]

lemma Allocates.refcount_new :
    pmmPageRefcount s' base = if physToPfn base < maxPhysPages then 1 else 0 := by
  obtain ⟨-, -, hpos⟩ := h.whole
  rw [pmmPageRefcount_eq, h.pages]
  split_ifs with hlt
  · rw [updatePages, if_pos ⟨le_rfl, by omega, hlt⟩]
    rfl
  · rfl

end

lemma Releases.refcount_other (h : Releases s s' base size) (hg : Good s) (ha : Allocated s g n)
    (hne : g ≠ base) : pmmPageRefcount s' g = pmmPageRefcount s g := by
  obtain ⟨-, -, hgd, -⟩ := hg.allocated_range ha
  obtain ⟨-, -, hd, j, rfl⟩ := hg.allocated_range h.was
  have hwhole : pageSize ∣ levelSize j := ⟨4 ^ j, rfl⟩
  rw [pmmPageRefcount_eq, pmmPageRefcount_eq, h.pages]
  rcases hg.allocated_apart ha h.was with he | hap
  · exact absurd he.1 hne
  · rw [updatePages_apart hd hgd hwhole (hg.allocated_size_pos ha) hap]

end Refcounts

lemma Good.of_pages {s' : State} (h : Good s) (hc : s'.cells = s.cells)
    (hn : s'.cellCount = s.cellCount) (hf : s'.freeMem = s.freeMem)
    (ht : s'.totalMem = s.totalMem) : Good s' := by
  obtain ⟨F, hi, ha⟩ := h
  refine ⟨F, ⟨?_, hi.root_id, ?_, hi.distinct, hi.disjoint, ?_, ?_, ?_, ?_, ?_, ?_, ?_⟩,
    ⟨?_, ?_, ha.tight⟩⟩ <;> simp [hc, hn, hf, ht]
  exacts [hi.count_le, hi.rep, hi.lt_count, hi.root_mem, hi.used_mem, hi.base_pos, hi.aligned,
    hi.end_le, hi.apart, ha.free_eq, ha.total_eq]

lemma Good.setRefcount (h : Good s) (pfn n : Nat) : Good (s.setRefcount pfn n) :=
  h.of_pages rfl rfl rfl rfl

lemma release_spec (h : Good s) (hi : i < s.cellCount) (hst : (s.cells i).state = .used) :
    Releases s (cellTryMerge cellPoolSize (releaseCell s i) i)
      (s.cells i).base (s.cells i).size := by
  have hgood := h
  obtain ⟨F, hinv, hacc⟩ := h
  obtain ⟨r, hr, hu⟩ := hinv.used_leaf hi hst
  have w := releaseCell_freed hinv hacc hr hu
  obtain ⟨k, -, hk⟩ := hinv.size_at (hinv.used_mem i hi hst)
  have hsize : ((releaseCell s i).cells i).size = levelSize k := by simpa [releaseCell] using hk
  obtain ⟨⟨F', hinv', hacc'⟩, hkeep⟩ := w.tryMerge cellPoolSize hsize
    (by unfold cellPoolSize; omega)
  refine ⟨⟨F', hinv', hacc'⟩, ⟨i, hi, hst, rfl, rfl⟩, fun b n => ?_, ?_, ?_⟩
  · rw [hkeep.allocated_iff]
    constructor
    · rintro ⟨j, hj, hsj, rfl, rfl⟩
      have hji : j ≠ i := by rintro rfl; simp [releaseCell] at hsj
      simp only [releaseCell, update_of_ne hji] at hsj ⊢
      refine ⟨⟨j, hj, hsj, rfl, rfl⟩, fun hb => ?_⟩
      have hap := hinv.used_apart hj hi hsj hst hji
      have := hgood.allocated_size_pos ⟨j, hj, hsj, rfl, rfl⟩
      have := hgood.allocated_size_pos ⟨i, hi, hst, rfl, rfl⟩
      unfold Cell.Apart at hap
      omega
    · rintro ⟨⟨j, hj, hsj, rfl, rfl⟩, hne⟩
      have hji : j ≠ i := by rintro rfl; exact hne rfl
      refine ⟨j, hj, ?_⟩
      simp only [releaseCell, update_of_ne hji]
      exact ⟨hsj, trivial, trivial⟩
  · rw [hkeep.rest]; rfl
  · rw [hkeep.rest]; rfl

lemma findUsed_none {addr : Nat} (h : findUsed s addr = none) (n : Nat) : ¬ Allocated s addr n := by
  rintro ⟨i, hi, hst, hb, -⟩
  have := List.find?_eq_none.mp h i (mem_range.mpr hi)
  simp [hst, hb] at this

/-- `pmm_free_pages` ignores an address that is not the base of a range in use, drops one
of several references, or gives the whole range back. -/
theorem pmmFreePages_cases (h : Good s) (addr count : Nat) :
    (pmmFreePages s addr count = s ∧ ∀ n, ¬ Allocated s addr n) ∨
    (∃ n, Allocated s addr n ∧ 1 < pmmPageRefcount s addr ∧
      pmmFreePages s addr count = s.setRefcount (physToPfn addr) (pmmPageRefcount s addr - 1)) ∨
    ∃ n, pmmPageRefcount s addr ≤ 1 ∧ Releases s (pmmFreePages s addr count) addr n := by
  unfold pmmFreePages
  cases hf : findUsed s addr with
  | none => exact .inl ⟨rfl, findUsed_none hf⟩
  | some i =>
    obtain ⟨hi, rfl, hst⟩ := findUsed_spec hf
    unfold pmmPageRefcount
    dsimp only
    split_ifs with hc hlt hlt
    · omega
    · exact .inr (.inl ⟨_, ⟨i, hi, hst, rfl, rfl⟩, hc.2, rfl⟩)
    · exact .inr (.inr ⟨_, Nat.zero_le _, release_spec h hi hst⟩)
    · refine .inr (.inr ⟨_, ?_, release_spec h hi hst⟩)
      by_contra hgt
      exact hc ⟨not_le.mp hlt, by omega⟩

lemma pmmFreePages_good (h : Good s) (addr count : Nat) : Good (pmmFreePages s addr count) := by
  rcases pmmFreePages_cases h addr count with ⟨he, -⟩ | ⟨_, -, -, he⟩ | ⟨_, -, hr⟩
  · rw [he]; exact h
  · rw [he]; exact h.setRefcount _ _
  · exact hr.good

lemma alloc_good (h : Good s) (count : Nat) (zone : Zone) (strict : Bool) :
    Good (pmmAllocPagesInternal s count zone strict).2 := by
  rcases alloc_cases h count zone strict with he | ⟨_, -, ha⟩
  · rw [he]; exact h
  · exact ha.good

lemma Call.exec_keeps {P : State → Prop} (c : Call) (h : P s)
    (halloc : ∀ count zone strict, P (pmmAllocPagesInternal s count zone strict).2)
    (hset : ∀ pfn n, n < 2 ^ 32 → P (s.setRefcount pfn n))
    (hfree : ∀ s', P s' → ∀ addr count, P (pmmFreePages s' addr count)) : P (c.exec s).2 := by
  cases c with
  | allocPage => exact halloc _ _ _
  | allocPages count => exact halloc _ _ _
  | allocPagesZone count zone => exact halloc _ _ _
  | freePages addr count => exact hfree s h addr count
  | pageRef addr =>
    simp only [exec, pmmPageRef]
    split_ifs
    · exact h
    · exact hset _ _ (u32_lt _)
  | pageUnref addr =>
    simp only [exec, pmmPageUnref]
    split_ifs
    · exact h
    · exact hfree _ (hset _ _ (u32_lt _)) addr 1
    · exact hset _ _ (u32_lt _)

lemma Call.exec_good (h : Good s) (c : Call) : Good (c.exec s).2 :=
  c.exec_keeps h (alloc_good h) (fun _ _ _ => h.setRefcount _ _) fun _ => pmmFreePages_good

lemma runCalls_good (h : Good s) (calls : List Call) : Good (runCalls s calls) := by
  induction calls generalizing s with
  | nil => exact h
  | cons c calls ih => exact ih (c.exec_good h)

/-! ## The forest as the source sees it -/

/-- The cells below the roots: a root is a cell of the pool without parent. -/
inductive Reachable (s : State) : Nat → Prop where
  | root (i : Nat) : i < s.cellCount → (s.cells i).parent = noCell → Reachable s i
  | child (i : Nat) (c : Fin 4) : Reachable s i → (s.cells i).state = .split →
      Reachable s ((s.cells i).children c)

lemma Inv.split_node (h : Inv s F) (hr : r ∈ F.roots) {u : CellTree} (hu : Sub u (F.tree r))
    (hst : (s.cells u.id).state = .split) : ∃ kids, Sub (.node u.id kids) (F.tree r) := by
  obtain ⟨_, _, _, hrep, -⟩ := (h.rep r hr).sub hu
  obtain ⟨st, hat, -, -, hsplit, -⟩ := hrep.root
  obtain ⟨kids, hkids⟩ := hsplit.mp (hat.state_eq.symm.trans hst)
  exact ⟨kids, hkids ▸ hu⟩

lemma Inv.reachable_sub (h : Inv s F) (hi : Reachable s i) :
    ∃ r ∈ F.roots, ∃ u, Sub u (F.tree r) ∧ u.id = i := by
  induction hi with
  | root i hi hp =>
    have hr := h.root_mem i hi hp
    exact ⟨i, hr, _, .refl _, h.root_id i hr⟩
  | child i c _ hst ih =>
    obtain ⟨r, hr, u, hu, rfl⟩ := ih
    obtain ⟨kids, hs⟩ := h.split_node hr hu hst
    obtain ⟨_, _, _, ⟨j, -, -, hk⟩, -⟩ := (h.rep r hr).sub hs
    exact ⟨r, hr, kids c, .trans (.kid _ kids c (.refl _)) hs, (hk c).1.symm⟩

lemma Rep.reachable {t u : CellTree} {parent k : Nat} (h : Rep s.cells t parent base k)
    (hu : Sub u t) (ht : Reachable s t.id) : Reachable s u.id := by
  induction hu generalizing parent base k with
  | refl => exact ht
  | kid p kids i _ ih =>
    obtain ⟨j, -, hat, hkids⟩ := h
    have := Reachable.child p i ht hat.state_eq
    rw [(hkids i).1] at this
    exact ih (hkids i).2 this

lemma Inv.reachable_iff (h : Inv s F) : Reachable s i ↔ i ∈ F.ids := by
  constructor
  · intro hi
    obtain ⟨r, hr, u, hu, rfl⟩ := h.reachable_sub hi
    exact Forest.sub_mem hr hu
  · intro hi
    obtain ⟨r, hr, hm⟩ := Forest.mem_ids.mp hi
    obtain ⟨u, hu, rfl⟩ := mem_ids_iff.mp hm
    obtain ⟨hlt, hp⟩ := h.root_lt hr
    have hroot : Reachable s (F.tree r).id := by
      rw [h.root_id r hr]
      exact .root r hlt hp
    exact (h.rep r hr).reachable hu hroot

/-- The four children of cell `i` are its four quarters. -/
def Tiled (s : State) (i : Nat) : Prop :=
  4 * ((s.cells i).size / 4) = (s.cells i).size ∧ ∀ c : Fin 4,
    (s.cells i).children c < s.cellCount ∧
    (s.cells ((s.cells i).children c)).parent = i ∧
    (s.cells ((s.cells i).children c)).base = (s.cells i).base + c * ((s.cells i).size / 4) ∧
    (s.cells ((s.cells i).children c)).size = (s.cells i).size / 4

structure WellFormed (s : State) : Prop where
  tiled : ∀ i, Reachable s i → (s.cells i).state = .split → Tiled s i
  roots_apart : ∀ i < s.cellCount, ∀ j < s.cellCount, (s.cells i).parent = noCell →
    (s.cells j).parent = noCell → i ≠ j → (s.cells i).Apart (s.cells j)
  used_reachable : ∀ i < s.cellCount, (s.cells i).state = .used → Reachable s i
  in_range : ∀ i, Reachable s i → (s.cells i).base + (s.cells i).size ≤ 2 ^ 64
  used_apart : ∀ i < s.cellCount, ∀ j < s.cellCount, (s.cells i).state = .used →
    (s.cells j).state = .used → i ≠ j → (s.cells i).Apart (s.cells j)

lemma Inv.tiled (h : Inv s F) (hi : Reachable s i) (hst : (s.cells i).state = .split) :
    Tiled s i := by
  obtain ⟨r, hr, u, hu, rfl⟩ := h.reachable_sub hi
  obtain ⟨kids, hs⟩ := h.split_node hr hu hst
  obtain ⟨_, _, _, ⟨j, rfl, hat, hk⟩, -⟩ := (h.rep r hr).sub hs
  have hquarter : (s.cells u.id).size / 4 = levelSize j := by
    rw [hat.size_eq, levelSize_succ]; omega
  refine ⟨by rw [hquarter, hat.size_eq, levelSize_succ], fun c => ?_⟩
  obtain ⟨_, hkid, -⟩ := (hk c).2.root
  rw [(hk c).1, hquarter, hat.base_eq]
  refine ⟨h.lt_count _ (Forest.mem_ids.mpr ⟨r, hr, hs.ids_subset ?_⟩), hkid.parent_eq,
    hkid.base_eq, hkid.size_eq⟩
  exact mem_ids_node.mpr (.inr ⟨c, id_mem_ids _⟩)

lemma Good.wellFormed (h : Good s) : WellFormed s := by
  obtain ⟨F, hinv, -⟩ := h
  refine ⟨fun i hi hst => hinv.tiled hi hst, ?_, ?_, ?_, ?_⟩
  · intro i hi j hj hpi hpj hne
    exact hinv.apart i (hinv.root_mem i hi hpi) j (hinv.root_mem j hj hpj) hne
  · exact fun i hi hst => hinv.reachable_iff.mpr (hinv.used_mem i hi hst)
  · intro i hi
    obtain ⟨r, hr, u, hu, rfl⟩ := hinv.reachable_sub hi
    exact ((hinv.rep r hr).sub_range hu).2.trans (hinv.end_le r hr)
  · exact fun i hi j hj => hinv.used_apart hi hj

end YamKernel.Pmm

import YamKernel.Mem.Pmm.Free

/-!
# Initialization builds a forest of free roots

`pmm_init` cuts every usable entry into chunks of a page times a power of four and makes
each a root cell. Disjoint entries give disjoint roots. When the pool is full the rest
of the memory is dropped, which costs memory but no property of the forest.
-/

namespace YamKernel.Pmm

open Lib QuadTree List Function Option Nat Finset

variable {base fuel k size : Nat} {level : Nat → Nat} {memmap : List MemmapEntry} {s s' : State}

def UsableDisjoint (memmap : List MemmapEntry) : Prop :=
  memmap.Pairwise fun e f => e.type = .usable → f.type = .usable →
    e.base + e.length ≤ f.base ∨ f.base + f.length ≤ e.base

def NoPageZero (memmap : List MemmapEntry) : Prop :=
  ∀ e ∈ memmap, e.type = .usable → ¬ (e.base = 0 ∧ pageSize ≤ e.length)

/-- The pool while `pmm_init` runs: every cell is a free root. -/
structure Boot (s : State) (level : Nat → Nat) : Prop where
  count_le : s.cellCount ≤ cellPoolSize
  cell : ∀ i < s.cellCount, (s.cells i).At noCell (s.cells i).base (level i) .free
  base_pos : ∀ i < s.cellCount, 0 < (s.cells i).base
  aligned : ∀ i < s.cellCount, pageSize ∣ (s.cells i).base
  end_le : ∀ i < s.cellCount, (s.cells i).base + levelSize (level i) ≤ 2 ^ 64
  apart : ∀ i < s.cellCount, ∀ j < s.cellCount, i ≠ j → (s.cells i).Apart (s.cells j)

def bootForest (s : State) (level : Nat → Nat) : Forest where
  roots := range s.cellCount
  tree r := .leaf r false
  level

lemma bootForest_mem_ids {i : Nat} : i ∈ (bootForest s level).ids ↔ i < s.cellCount := by
  simp [Forest.ids, bootForest]

lemma Boot.inv (h : Boot s level) :
    Inv s (bootForest s level) where
  count_le := h.count_le
  root_id _ _ := rfl
  rep r hr := h.cell r (Finset.mem_range.mp hr)
  distinct _ _ := trivial
  disjoint r _ q _ hne := by simpa [bootForest] using hne
  lt_count _ hi := bootForest_mem_ids.mp hi
  root_mem _ hi _ := Finset.mem_range.mpr hi
  used_mem _ hi _ := bootForest_mem_ids.mpr hi
  base_pos r hr := h.base_pos r (Finset.mem_range.mp hr)
  aligned r hr := h.aligned r (Finset.mem_range.mp hr)
  end_le r hr := h.end_le r (Finset.mem_range.mp hr)
  apart r hr q hq := h.apart r (Finset.mem_range.mp hr) q (Finset.mem_range.mp hq)

/-- Both counters hold the bytes of the cells made so far. -/
def Counted (s : State) : Prop :=
  s.freeMem = ∑ i ∈ range s.cellCount, (s.cells i).size ∧
  s.totalMem = ∑ i ∈ range s.cellCount, (s.cells i).size

lemma Boot.accounts (h : Boot s level) (hc : Counted s) :
    Accounts s (bootForest s level) noCell where
  free_eq := by
    rw [hc.1]
    have : (bootForest s level).ids = Finset.range s.cellCount := by
      ext i; rw [bootForest_mem_ids, Finset.mem_range]
    rw [this]
    refine sum_congr rfl fun i hi => ?_
    simp [Cell.freeBytes, (h.cell i (Finset.mem_range.mp hi)).state_eq]
  total_eq := hc.2
  tight _ _ := trivial

/-- No cell made so far reaches into `[lo, hi)`. -/
def Clear (s : State) (lo hi : Nat) : Prop :=
  ∀ i < s.cellCount, (s.cells i).base + (s.cells i).size ≤ lo ∨ hi ≤ (s.cells i).base

/-- A state of `pmm_init` between two iterations. -/
structure Booting (s : State) : Prop where
  boot : ∃ level, Boot s level
  counted : Counted s

lemma addRoot_full {chunk : Nat} (h : cellPoolSize ≤ s.cellCount) : addRoot s base chunk = s := by
  simp [addRoot, cellAllocNode, h]

lemma addRoot_eq (base chunk : Nat) (h : s.cellCount < cellPoolSize) :
    (addRoot s base chunk).cellCount = s.cellCount + 1 ∧
    (addRoot s base chunk).freeMem = u64 (s.freeMem + chunk) ∧
    (addRoot s base chunk).totalMem = u64 (s.totalMem + chunk) ∧
    ((addRoot s base chunk).cells s.cellCount).base = base ∧
    ((addRoot s base chunk).cells s.cellCount).size = chunk ∧
    ((addRoot s base chunk).cells s.cellCount).state = .free ∧
    ((addRoot s base chunk).cells s.cellCount).parent = noCell ∧
    ∀ i ≠ s.cellCount, (addRoot s base chunk).cells i = s.cells i := by
  have h1 : ¬ cellPoolSize ≤ s.cellCount := by omega
  have h2 : s.cellCount ≠ noCell := by unfold cellPoolSize at h; unfold noCell; omega
  refine ⟨?_, ?_, ?_, ?_, ?_, ?_, ?_, ?_⟩
  all_goals simp +contextual [addRoot, cellAllocNode, h1, h2]

lemma addRoot_boot (h : Boot s level) (hlt : s.cellCount < cellPoolSize) (hpos : 0 < base)
    (ha : pageSize ∣ base) (hend : base + levelSize k ≤ 2 ^ 64)
    (hclear : Clear s base (base + levelSize k)) :
    Boot (addRoot s base (levelSize k)) (update level s.cellCount k) := by
  obtain ⟨hcount, -, -, hbase, hsize, hstate, hparent, hframe⟩ :=
    addRoot_eq base (levelSize k) hlt
  have hold : ∀ i < (addRoot s base (levelSize k)).cellCount, i ≠ s.cellCount →
      i < s.cellCount := fun i hi hne => by omega
  refine ⟨by omega, fun i hi => ?_, fun i hi => ?_, fun i hi => ?_, fun i hi => ?_,
    fun i hi j hj hij => ?_⟩
  · by_cases hin : i = s.cellCount
    · subst hin
      rw [update_self]
      exact ⟨hparent, rfl, hsize, hstate⟩
    · rw [hframe i hin, update_of_ne hin]; exact h.cell i (hold i hi hin)
  · by_cases hin : i = s.cellCount
    · rw [hin, hbase]; exact hpos
    · rw [hframe i hin]; exact h.base_pos i (hold i hi hin)
  · by_cases hin : i = s.cellCount
    · rw [hin, hbase]; exact ha
    · rw [hframe i hin]; exact h.aligned i (hold i hi hin)
  · by_cases hin : i = s.cellCount
    · rw [hin, hbase, update_self]; exact hend
    · rw [hframe i hin, update_of_ne hin]; exact h.end_le i (hold i hi hin)
  · unfold Cell.Apart
    by_cases hin : i = s.cellCount
    · have hjn : j ≠ s.cellCount := fun he => hij (hin.trans he.symm)
      have := hclear j (hold j hj hjn)
      rw [hin, hframe j hjn]
      omega
    · by_cases hjn : j = s.cellCount
      · have := hclear i (hold i hi hin)
        rw [hjn, hframe i hin]
        omega
      · rw [hframe i hin, hframe j hjn]
        exact h.apart i (hold i hi hin) j (hold j hj hjn) hij

/-- A root inside clear memory keeps the state of initialization, and clear memory
elsewhere stays clear. -/
theorem Booting.addRoot (h : Booting s) (hpos : 0 < base) (ha : pageSize ∣ base)
    (hend : base + levelSize k ≤ 2 ^ 64) (hclear : Clear s base (base + levelSize k)) :
    Booting (addRoot s base (levelSize k)) ∧
      ∀ lo hi, Clear s lo hi → (base + levelSize k ≤ lo ∨ hi ≤ base) →
        Clear (addRoot s base (levelSize k)) lo hi := by
  by_cases hfull : cellPoolSize ≤ s.cellCount
  · rw [addRoot_full hfull]
    exact ⟨h, fun lo hi hc _ => hc⟩
  · have hlt : s.cellCount < cellPoolSize := by omega
    obtain ⟨level, hb⟩ := h.boot
    have hb' := addRoot_boot hb hlt hpos ha hend hclear
    obtain ⟨hcount, hfree, htotal, hbase, hsize, -, -, hframe⟩ :=
      addRoot_eq base (levelSize k) hlt
    have hsum : ∑ i ∈ range (s.cellCount + 1),
        ((Pmm.addRoot s base (levelSize k)).cells i).size =
          ∑ i ∈ range s.cellCount, (s.cells i).size + levelSize k := by
      rw [Finset.sum_range_succ]
      congr 1
      exact sum_congr rfl fun i hi => by
        rw [hframe i (Finset.mem_range.mp hi).ne]
    have hfits : ∑ i ∈ range s.cellCount, (s.cells i).size + levelSize k < 2 ^ 64 := by
      have := hb'.inv.sum_roots_lt
      rwa [bootForest, hcount, hsum] at this
    refine ⟨⟨⟨_, hb'⟩, ?_, ?_⟩, ?_⟩
    · rw [hcount, hsum, hfree, h.counted.1, u64_of_lt hfits]
    · rw [hcount, hsum, htotal, h.counted.2, u64_of_lt hfits]
    · intro lo hi hc happart i hi'
      by_cases hin : i = s.cellCount
      · rw [hin, hbase, hsize]; exact happart
      · rw [hframe i hin]; exact hc i (by omega)

/-! ## Cutting an entry -/

lemma chunkLoop_zero (fuel size : Nat) : chunkLoop fuel 0 size = none := by
  induction fuel with
  | zero => rfl
  | succ fuel ih => simpa [chunkLoop, u64] using ih

lemma chunkLoop_some {chunk : Nat} (hk : levelSize k ≤ size) (hs : size < 2 ^ 64)
    (h : chunkLoop fuel (levelSize k) size = some chunk) :
    ∃ j, chunk = levelSize j ∧ levelSize j ≤ size := by
  induction fuel generalizing k with
  | zero => simp [chunkLoop] at h
  | succ fuel ih =>
    rw [chunkLoop, mul_comm, ← levelSize_succ] at h
    split_ifs at h with hc
    · by_cases hw : levelSize (k + 1) < 2 ^ 64
      · rw [u64_of_lt hw] at h hc
        exact ih hc h
      · -- Four times the chunk is 2^64, which wraps to 0.
        have : k ≤ 25 := by
          by_contra hgt
          have h1 : 4 ^ 26 ≤ 4 ^ k := Nat.pow_le_pow_right (by decide) (by omega)
          have h2 : pageSize * 4 ^ 26 ≤ levelSize k := mul_le_mul_left _ h1
          exact absurd (h2.trans hk) (by unfold pageSize; omega)
        have : levelSize (k + 1) ≤ levelSize 26 :=
          mul_le_mul_left _ (Nat.pow_le_pow_right (by decide) (by omega))
        have : levelSize 26 = 2 ^ 64 := by decide
        have hzero : u64 (levelSize (k + 1)) = 0 := by
          rw [show levelSize (k + 1) = 2 ^ 64 by omega]; decide
        rw [hzero, chunkLoop_zero] at h
        simp at h
    · exact ⟨k, (some.inj h).symm, hk⟩

lemma Booting.addChunks (h : Booting s) (hpos : 0 < base) (ha : pageSize ∣ base)
    (hend : base + size ≤ 2 ^ 64) (hclear : Clear s base (base + size))
    (he : addChunks fuel s base size = some s') :
    Booting s' ∧ ∀ lo hi, Clear s lo hi → (base + size ≤ lo ∨ hi ≤ base) → Clear s' lo hi := by
  induction fuel generalizing s base size with
  | zero =>
    obtain rfl := some.inj he
    exact ⟨h, fun lo hi hc _ => hc⟩
  | succ fuel ih =>
    rw [addChunks] at he
    split_ifs at he with hsize
    · cases hc : chunkLoop 32 pageSize size with
      | none => simp [hc] at he
      | some chunk =>
        simp only [hc] at he
        obtain ⟨j, rfl, hj⟩ := chunkLoop_some (k := 0) (by simpa [levelSize] using hsize)
          (by omega) (by simpa [levelSize] using hc)
        obtain ⟨hb, hkeep⟩ := h.addRoot hpos ha (k := j) (by omega)
          fun i hi => (hclear i hi).imp_right fun hr => by omega
        have hnext : Clear (Pmm.addRoot s base (levelSize j)) (base + levelSize j)
            (base + levelSize j + (size - levelSize j)) :=
          hkeep _ _ (fun i hi => (hclear i hi).imp (fun hl => by omega) fun hr => by omega)
            (.inl le_rfl)
        by_cases base + levelSize j = 2 ^ 64
        · -- The last chunk ends at 2^64; nothing is left to cut.
          have hzero : size - levelSize j = 0 := by omega
          rw [hzero] at he
          have hdone : s' = Pmm.addRoot s base (levelSize j) := by
            cases fuel with
            | zero => exact (some.inj he).symm
            | succ n => simpa [addChunks, pageSize] using he.symm
          subst hdone
          exact ⟨hb, fun lo hi hcl happart => hkeep lo hi hcl (by omega)⟩
        · rw [u64_of_lt] at he
          have ha' : pageSize ∣ base + levelSize j := dvd_add ha (dvd_mul_right _ _)
          obtain ⟨hb', hkeep'⟩ := ih hb (by omega) ha' (by omega) hnext he
          exact ⟨hb', fun lo hi hcl happart =>
            hkeep' lo hi (hkeep lo hi hcl (by omega)) (by omega)⟩
    · obtain rfl := some.inj he
      exact ⟨h, fun lo hi hc _ => hc⟩

lemma MemmapEntry.pages_range (e : MemmapEntry) (hlen : pageSize ≤ e.length)
    (hzero : ¬ (e.base = 0 ∧ pageSize ≤ e.length)) :
    let base := u64 (e.base + (pageSize - 1)) / pageSize * pageSize
    let size := sub64 (u64 (e.base + e.length) / pageSize * pageSize) base
    0 < base ∧ e.base ≤ base ∧ base + size ≤ e.base + e.length := by
  have := e.inRange
  unfold pageSize at *
  have : u64 (e.base + (4096 - 1)) = e.base + 4095 := u64_of_lt
  simp only
  by_cases e.base + e.length = 2 ^ 64
  · unfold sub64 u64
    omega
  · rw [u64_of_lt (n := e.base + e.length) (by omega), sub64_of_le]
    omega

lemma Booting.addEntry (h : Booting s) {e : MemmapEntry}
    (hzero : e.type = .usable → ¬ (e.base = 0 ∧ pageSize ≤ e.length))
    (hclear : e.type = .usable → Clear s e.base (e.base + e.length)) (he : addEntry s e = some s') :
    Booting s' ∧ ∀ lo hi, Clear s lo hi →
      (e.type = .usable → e.base + e.length ≤ lo ∨ hi ≤ e.base) → Clear s' lo hi := by
  have hinit : Booting (initPageDescriptors s e.base e.length (physToZone e.base)
      (e.type = .usable)) := by
    obtain ⟨level, hb⟩ := h.boot
    exact ⟨⟨level, ⟨hb.count_le, hb.cell, hb.base_pos, hb.aligned, hb.end_le,
      hb.apart⟩⟩, h.counted⟩
  unfold Pmm.addEntry at he
  split_ifs at he with hc
  · obtain ⟨hpos, hlo, hhi⟩ := e.pages_range hc.2 (hzero hc.1)
    have hr := e.inRange
    obtain ⟨hb, hkeep⟩ := hinit.addChunks hpos (dvd_mul_left _ _) (hhi.trans hr)
      (fun i hi => (hclear hc.1 i hi).imp (fun hl => hl.trans hlo) fun hr => hhi.trans hr) he
    exact ⟨hb, fun lo hi hcl happart => hkeep lo hi hcl
      ((happart hc.1).imp (fun hl => hhi.trans hl) fun hr => hr.trans hlo)⟩
  · obtain rfl := some.inj he
    exact ⟨hinit, fun lo hi hcl _ => hcl⟩

lemma Booting.addEntries (h : Booting s) (hd : UsableDisjoint memmap) (hz : NoPageZero memmap)
    (hclear : ∀ e ∈ memmap, e.type = .usable → Clear s e.base (e.base + e.length))
    (he : memmap.foldlM Pmm.addEntry s = some s') : Booting s' := by
  induction memmap generalizing s with
  | nil =>
    obtain rfl := some.inj he
    exact h
  | cons e es ih =>
    obtain ⟨hde, hd⟩ := pairwise_cons.mp hd
    obtain ⟨s1, h1, he⟩ := bind_eq_some_iff.mp he
    obtain ⟨hb, hkeep⟩ := h.addEntry (hz e (by simp)) (hclear e (by simp)) h1
    refine ih hb hd (fun f hf => hz f (by simp [hf])) (fun f hf hu => ?_) he
    exact hkeep _ _ (hclear f (by simp [hf]) hu) fun hu' => hde f hf hu' hu

/-! ## Facts that every root keeps -/

section Induct

variable {P : State → Prop}

lemma addRoot_frame (s : State) (base chunk : Nat) :
    (addRoot s base chunk).pageArray = s.pageArray ∧
      (addRoot s base chunk).lastUsedCell = s.lastUsedCell := by
  by_cases hfull : cellPoolSize ≤ s.cellCount
  · rw [addRoot_full hfull]
    exact ⟨rfl, rfl⟩
  · unfold addRoot
    simp only [cellAllocNode]
    split_ifs <;> exact ⟨rfl, rfl⟩

lemma addChunks_induct {limit : Nat}
    (hroot : ∀ s base chunk, base + chunk ≤ limit → P s → P (addRoot s base chunk))
    (hend : base + size ≤ limit) (hs : size < 2 ^ 64) (he : addChunks fuel s base size = some s')
    (h : P s) : P s' := by
  induction fuel generalizing s base size with
  | zero => exact some.inj he ▸ h
  | succ fuel ih =>
    rw [addChunks] at he
    split_ifs at he with hsize
    · cases hc : chunkLoop 32 pageSize size with
      | none => simp [hc] at he
      | some chunk =>
        simp only [hc] at he
        obtain ⟨j, rfl, hj⟩ := chunkLoop_some (k := 0) (by simpa [levelSize] using hsize)
          hs (by simpa [levelSize] using hc)
        have : u64 (base + levelSize j) ≤ base + levelSize j := mod_le _ _
        exact ih (by omega) (by omega) he (hroot s base _ (by omega) h)
    · exact some.inj he ▸ h

/-- What the descriptors, the roots cut from usable memory and the watermarks keep holds after
`pmm_init`. -/
theorem pmmInit_induct (hz : NoPageZero memmap) (hreset : P pmmReset)
    (hdescr : ∀ s base length zone usable, P s → P (initPageDescriptors s base length zone usable))
    (hroot : ∀ e ∈ memmap, e.type = .usable → ∀ s base chunk, base + chunk ≤ e.base + e.length →
      P s → P (addRoot s base chunk))
    (hmarks : ∀ s, P s → P { s with zones := fun z => zoneUpdateWatermarks (s.zones z) })
    (he : pmmInit memmap = some s) : P s := by
  have hentry : ∀ e ∈ memmap, ∀ s s', addEntry s e = some s' → P s → P s' := by
    intro e hm s s' he h
    unfold addEntry at he
    split_ifs at he with hc
    · obtain ⟨hpos, -, hhi⟩ := e.pages_range hc.2 (hz e hm hc.1)
      have := e.inRange
      exact addChunks_induct (hroot e hm hc.1) hhi (by omega) he (hdescr s _ _ _ _ h)
    · exact some.inj he ▸ hdescr s _ _ _ _ h
  have hfold : ∀ l ⊆ memmap, ∀ s s', l.foldlM addEntry s = some s' → P s → P s' := by
    intro l
    induction l with
    | nil => exact fun _ s s' he h => some.inj he ▸ h
    | cons e l ih =>
      intro hm s s' he h
      obtain ⟨he1, hl⟩ := cons_subset.mp hm
      obtain ⟨s1, h1, he⟩ := bind_eq_some_iff.mp he
      exact ih hl s1 s' he (hentry e he1 s s1 h1 h)
  unfold pmmInit at he
  split at he
  · simp at he
  next s1 h1 =>
  exact some.inj he ▸ hmarks s1 (hfold memmap (Subset.refl _) _ s1 h1 hreset)

end Induct

/-- What holds of the allocator in every state: the pool holds a forest, the counters
count its bytes, and no node has four free children. -/
def Good (s : State) : Prop := ∃ F, Inv s F ∧ Accounts s F noCell

lemma pmmInit_boot (hd : UsableDisjoint memmap) (hz : NoPageZero memmap)
    (he : pmmInit memmap = some s) : Booting s := by
  have hnone : ∀ {P : Nat → Prop}, ∀ i < pmmReset.cellCount, P i := fun i hi =>
    absurd hi (not_lt_zero i)
  have hreset : Booting pmmReset :=
    ⟨⟨fun _ => 0, by decide, hnone, hnone, hnone, hnone, hnone⟩, rfl, rfl⟩
  unfold pmmInit at he
  split at he
  · simp at he
  next s1 h1 =>
  obtain rfl := some.inj he
  have hb := hreset.addEntries hd hz (fun _ _ _ => hnone) h1
  obtain ⟨level, hboot⟩ := hb.boot
  exact ⟨⟨level, hboot.count_le, hboot.cell, hboot.base_pos, hboot.aligned, hboot.end_le,
    hboot.apart⟩, hb.counted⟩

lemma pmmInit_good (hd : UsableDisjoint memmap) (hz : NoPageZero memmap)
    (he : pmmInit memmap = some s) : Good s := by
  have hb := pmmInit_boot hd hz he
  obtain ⟨level, hboot⟩ := hb.boot
  exact ⟨_, hboot.inv, hboot.accounts hb.counted⟩

end YamKernel.Pmm

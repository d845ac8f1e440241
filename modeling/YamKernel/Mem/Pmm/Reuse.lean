import YamKernel.Mem.Pmm.Adequacy
import YamKernel.Mem.Pmm.Twins

/-!
# Using the allocator again

After a history that leaves nothing in use the allocator is a twin of what it was after
`pmm_init`, provided the cursor is back at the first root. From then on it gives the same
answers as long as the pool has room for the cells that each request cuts.

Merged cells are never used again, so that room shrinks with every split: `rounds_exhaust`
is a run of balanced requests that uses it up.
-/

namespace YamKernel.Pmm

open Lib QuadTree List Option

/-! ## Room in the pool -/

/-- How often a free cell of `size` bytes is cut for a request of `req` bytes. -/
def splits : Nat → Nat → Nat → Nat
  | 0, _, _ => 0
  | fuel + 1, size, req =>
    if req ≤ size / 4 ∧ pageSize * 4 ≤ size then splits fuel (size / 4) req + 1 else 0

/-- The pool has room to cut any free cell that may serve `req` bytes down to that size. -/
def Room (s : State) (req : Nat) : Prop :=
  ∀ i, Reachable s i → (s.cells i).state = .free → req ≤ (s.cells i).size →
    s.cellCount + 4 * splits cellPoolSize (s.cells i).size req ≤ cellPoolSize

lemma splitLoop_iff (idx childSize : Nat) (is : List (Fin 4)) {s : State}
    (hs : s.cellCount ≤ cellPoolSize) :
    (splitLoop idx childSize is s).1 = true ↔ s.cellCount + is.length ≤ cellPoolSize := by
  induction is generalizing s with
  | nil => simpa [splitLoop] using hs
  | cons i is ih =>
    rw [splitLoop_cons, length_cons]
    by_cases hfull : cellPoolSize ≤ s.cellCount
    · rw [if_pos hfull]
      simp only [Bool.false_eq_true, false_iff]
      omega
    · have : (splitStep s idx childSize i).cellCount = s.cellCount + 1 := by
        simp [splitStep, linkChild, cellAllocNode, State.setCell, hfull]
      rw [if_neg hfull, ih (by omega)]
      omega

variable {idx p : Nat} {zone : Zone} {strict : Bool}

/-- A free cell of four pages or more is split exactly when four cells are left. -/
theorem cellSplit_iff {s : State} (hs : s.cellCount ≤ cellPoolSize)
    (hst : (s.cells p).state = .free) (hsize : pageSize * 4 ≤ (s.cells p).size) :
    (cellSplit s p).1 = true ↔ s.cellCount + 4 ≤ cellPoolSize := by
  have hloop := splitLoop_iff p ((s.cells p).size / 4) [0, 1, 2, 3] hs
  have hbig : ¬ (s.cells p).size < pageSize * 4 := not_lt.mpr hsize
  simp only [cellSplit, hst, hbig]
  rw [length_cons, length_cons, length_cons, length_singleton] at hloop
  rw [← hloop]
  generalize splitLoop p ((s.cells p).size / 4) [0, 1, 2, 3] s = out
  obtain ⟨ok, s1⟩ := out
  cases ok <;> rfl

lemma cellSplit_count {s s' : State} (hp : p < s.cellCount)
    (hs : s.cellCount ≤ cellPoolSize) (hc : cellSplit s p = (true, s')) :
    s'.cellCount = s.cellCount + 4 := by
  obtain ⟨-, s1, heq, rfl⟩ := cellSplit_true hc
  have spec := splitLoop_spec p ((s.cells p).size / 4) [0, 1, 2, 3] s (by decide) hp hs
  rw [heq] at spec
  exact (spec.done rfl).1

section Serve

variable {s : State} {F : Forest} {r found base req : Nat}

lemma Holding.splitDown_room (w : Holding s F r found base req) (fuel : Nat)
    (hroom : s.cellCount + 4 * splits fuel (s.cells found).size req ≤ cellPoolSize) :
    (Pmm.splitDown fuel s found req).2.cellCount =
        s.cellCount + 4 * splits fuel (s.cells found).size req ∧
      ((Pmm.splitDown fuel s found req).2.cells (Pmm.splitDown fuel s found req).1).size =
        (s.cells found).size / 4 ^ splits fuel (s.cells found).size req := by
  induction fuel generalizing s F found with
  | zero => simp [Pmm.splitDown, splits]
  | succ fuel ih =>
    by_cases hc : req ≤ (s.cells found).size / 4 ∧ pageSize * 4 ≤ (s.cells found).size
    · rw [splits, if_pos hc] at hroom ⊢
      rw [Pmm.splitDown, if_pos hc]
      obtain ⟨_, _, hat⟩ := w.leaf_at
      have hok := (cellSplit_iff w.inv.count_le hat.state_eq hc.2).mpr (by omega)
      cases hsplit : cellSplit s found with
      | mk ok s1 =>
        rw [hsplit] at hok
        obtain rfl : ok = true := hok
        obtain ⟨⟨F1, w1⟩, -⟩ := w.split_done hc.1 hsplit
        have := cellSplit_count (w.inv.lt_count found w.mem_ids) w.inv.count_le hsplit
        obtain ⟨-, -, -, hchild, hsize, -⟩ := cellSplit_done w.inv w.root_mem w.leaf hsplit
        have hquarter : (s1.cells ((s1.cells found).children 0)).size =
            (s.cells found).size / 4 := by
          rw [hchild]
          simpa using hsize 0
        have hrest := ih w1
        rw [hquarter] at hrest
        obtain ⟨hcells, hfinal⟩ := hrest (by omega)
        refine ⟨by rw [hcells]; omega, ?_⟩
        rw [hfinal, Nat.div_div_eq_div_mul, pow_succ']
    · rw [splits, if_neg hc]
      rw [Pmm.splitDown, if_neg hc]
      simp

end Serve

/-- A pass that settles on the cell `found` below the root `idx`, with room in the pool. -/
theorem allocPass_room {s : State} (h : Good s) {count found : Nat}
    (hs : scanRoots s (u64 (count * pageSize)) zone strict = some (idx, found))
    (hroom : s.cellCount + 4 * splits cellPoolSize (s.cells found).size (u64 (count * pageSize)) ≤
      cellPoolSize) :
    let k := splits cellPoolSize (s.cells found).size (u64 (count * pageSize))
    (allocPass s count zone strict).1 = (s.cells found).base ∧
    (allocPass s count zone strict).2.lastUsedCell = idx ∧
    (allocPass s count zone strict).2.cellCount = s.cellCount + 4 * k ∧
    Allocates s (allocPass s count zone strict).2 (s.cells found).base
      ((s.cells found).size / 4 ^ k) := by
  obtain ⟨F, hinv, hacc⟩ := h
  obtain ⟨w, hpos⟩ := Holding.of_scan hinv hacc hs
  obtain ⟨hcount, hsize⟩ := w.splitDown_room cellPoolSize hroom
  obtain ⟨⟨F1, w1⟩, hkeep⟩ := w.splitDown cellPoolSize
  simp only [allocPass, hs]
  refine ⟨w1.base_eq, rfl, hcount, ?_⟩
  rw [← hsize]
  exact w1.allocates hkeep hpos idx

lemma pmmAllocPages_eq (s : State) (count : Nat) :
    pmmAllocPages s count = allocPass s count .normal false := by
  simp [pmmAllocPages, pmmAllocPagesInternal]

lemma Room.found {s : State} {req : Nat} (hroom : Room s req) (h : Good s) {found : Nat}
    (hs : scanRoots s req zone strict = some (idx, found)) :
    s.cellCount + 4 * splits cellPoolSize (s.cells found).size req ≤ cellPoolSize := by
  obtain ⟨F, hinv, hacc⟩ := h
  obtain ⟨w, -⟩ := Holding.of_scan hinv hacc hs
  obtain ⟨_, _, hat⟩ := w.leaf_at
  exact hroom found (hinv.reachable_iff.mpr w.mem_ids) hat.state_eq w.req_le

/-! ## One call on twins -/

section Step

variable {n : Nat} {s s' t t' : State}

/-- A step of both twins that keeps the ranges in use and the cursors in step. -/
theorem Twins.step (h : Twins n s t) (he : Extends s s') (he' : Extends t t') (hg : Good s')
    (hg' : Good t') (ha : ∀ b k, Allocated s' b k ↔ Allocated t' b k)
    (hc : s'.lastUsedCell = t'.lastUsedCell) (hl : t'.lastUsedCell ≤ n)
    (hn : t'.cellCount ≤ s'.cellCount) (hone : ∀ b k, Allocated s' b k → pmmPageRefcount s' b ≤ 1)
    (hone' : ∀ b k, Allocated t' b k → pmmPageRefcount t' b ≤ 1) : Twins n s' t' := by
  refine ⟨hg, hg', h.roots.extends he, h.roots'.extends he', fun r hr => ?_, ha, hc, hl, hn,
    hone, hone'⟩
  have hr1 := hr.trans_le h.roots.1
  have hr2 := hr.trans_le h.roots'.1
  rw [he.base_eq r hr1, he.size_eq r hr1, he'.base_eq r hr2, he'.size_eq r hr2]
  exact h.extent r hr

lemma Allocates.single {base size : Nat} (w : Allocates s s' base size) (hg : Good s)
    (h : ∀ b k, Allocated s b k → pmmPageRefcount s b ≤ 1) (b k : Nat) (ha : Allocated s' b k) :
    pmmPageRefcount s' b ≤ 1 := by
  rcases (w.allocated b k).mp ha with hold | ⟨rfl, -⟩
  · rw [w.refcount_old hg hold]
    exact h b k hold
  · rw [w.refcount_new]
    split_ifs <;> omega

lemma Twins.allocPass (h : Twins n s t) {count : Nat} (hroom : Room s (u64 (count * pageSize)))
    (zone : Zone) (strict : Bool) :
    (allocPass s count zone strict = (0, s) ∧ allocPass t count zone strict = (0, t)) ∨
    (allocPass s count zone strict).1 = (allocPass t count zone strict).1 ∧
      (allocPass s count zone strict).1 ≠ 0 ∧
      Twins n (allocPass s count zone strict).2 (allocPass t count zone strict).2 := by
  have hext := allocPass_extends h.good count zone strict
  have hext' := allocPass_extends h.good' count zone strict
  have hscan := h.scanRoots (u64 (count * pageSize)) zone strict
  generalize hs : Pmm.scanRoots s (u64 (count * pageSize)) zone strict = x at hscan
  generalize ht : Pmm.scanRoots t (u64 (count * pageSize)) zone strict = y at hscan
  cases hscan with
  | none => exact .inl ⟨by simp [Pmm.allocPass, hs], by simp [Pmm.allocPass, ht]⟩
  | @some x y hxy =>
    obtain ⟨idx', found'⟩ := y
    obtain ⟨hidx, hlt, hbase, hsize⟩ := hxy
    dsimp only at hsize
    subst hidx
    have hfits := hroom.found h.good hs
    have hcount_le := h.count_le
    have hfits' := hfits
    rw [hsize] at hfits'
    obtain ⟨h1, h2, h3, w⟩ := allocPass_room h.good hs hfits
    obtain ⟨h1', h2', h3', w'⟩ := allocPass_room h.good' ht (by omega)
    rw [hbase, hsize] at w
    rw [hsize] at h3
    refine .inr ⟨by rw [h1, h1', hbase], by rw [h1, hbase]; exact w'.base_pos.ne', ?_⟩
    refine h.step hext hext' w.good w'.good (fun b k => ?_) (h2.trans h2'.symm)
      (by rw [h2']; exact hlt.le) (by rw [h3, h3']; exact Nat.add_le_add_right hcount_le _)
      (w.single h.good h.single) (w'.single h.good' h.single')
    rw [w.allocated, w'.allocated, h.allocated]

lemma Twins.alloc (h : Twins n s t) {count : Nat} (hroom : Room s (u64 (count * pageSize)))
    (zone : Zone) (strict : Bool) :
    (pmmAllocPagesInternal s count zone strict).1 =
        (pmmAllocPagesInternal t count zone strict).1 ∧
      Twins n (pmmAllocPagesInternal s count zone strict).2
        (pmmAllocPagesInternal t count zone strict).2 := by
  unfold pmmAllocPagesInternal
  rcases h.allocPass hroom zone strict with ⟨hs, ht⟩ | ⟨heq, hne, htw⟩
  · rw [hs, ht]
    cases strict with
    | false => exact ⟨rfl, h⟩
    | true =>
      rcases h.allocPass hroom zone false with ⟨hs, ht⟩ | ⟨heq, -, htw⟩
      · simp only [hs, ht, and_self, if_true]
        exact ⟨trivial, h⟩
      · exact ⟨heq, htw⟩
  · have hne' := heq ▸ hne
    simp only [hne, hne']
    exact ⟨heq, htw⟩

lemma reserveChildren_pool (p : Nat) (is : List (Fin 4)) (s : State) :
    (reserveChildren p is s).cellCount = s.cellCount ∧
      (reserveChildren p is s).lastUsedCell = s.lastUsedCell := by
  induction is generalizing s with
  | nil => exact ⟨rfl, rfl⟩
  | cons i is ih =>
    obtain ⟨hc, hl⟩ := ih _
    exact ⟨hc.trans rfl, hl.trans rfl⟩

lemma cellTryMerge_pool (fuel : Nat) (s : State) (idx : Nat) :
    (cellTryMerge fuel s idx).cellCount = s.cellCount ∧
      (cellTryMerge fuel s idx).lastUsedCell = s.lastUsedCell := by
  induction fuel generalizing s idx with
  | zero => exact ⟨rfl, rfl⟩
  | succ fuel ih =>
    rw [cellTryMerge]
    split_ifs
    · exact ⟨rfl, rfl⟩
    · exact ⟨rfl, rfl⟩
    · obtain ⟨hc, hl⟩ := ih _ _
      obtain ⟨hc', hl'⟩ := reserveChildren_pool (s.cells idx).parent [0, 1, 2, 3] s
      exact ⟨hc.trans hc', hl.trans hl'⟩
    · exact ⟨rfl, rfl⟩

lemma pmmFreePages_pool (s : State) (addr count : Nat) :
    (pmmFreePages s addr count).cellCount = s.cellCount ∧
      (pmmFreePages s addr count).lastUsedCell = s.lastUsedCell := by
  unfold pmmFreePages
  cases findUsed s addr with
  | none => exact ⟨rfl, rfl⟩
  | some i =>
    dsimp only
    split_ifs
    · exact ⟨rfl, rfl⟩
    · exact cellTryMerge_pool cellPoolSize (releaseCell s i) i

lemma Releases.single {base size : Nat} (w : Releases s s' base size) (hg : Good s)
    (h : ∀ b k, Allocated s b k → pmmPageRefcount s b ≤ 1) (b k : Nat) (ha : Allocated s' b k) :
    pmmPageRefcount s' b ≤ 1 := by
  obtain ⟨hold, hne⟩ := (w.allocated b k).mp ha
  rw [w.refcount_other hg hold hne]
  exact h b k hold

lemma Twins.free (h : Twins n s t) (addr count : Nat) :
    Twins n (pmmFreePages s addr count) (pmmFreePages t addr count) := by
  rcases pmmFreePages_cases h.good addr count with ⟨he, hno⟩ | ⟨k, ha, hgt, -⟩ | ⟨k, -, w⟩
  rotate_left
  · have := h.single addr k ha
    omega
  all_goals rcases pmmFreePages_cases h.good' addr count with
    ⟨he', hno'⟩ | ⟨k', ha', hgt', -⟩ | ⟨k', -, w'⟩
  · exact absurd ((h.allocated _ _).mp w.was) (hno' k)
  · have := h.single' addr k' ha'
    omega
  · obtain ⟨hc, hl⟩ := pmmFreePages_pool s addr count
    obtain ⟨hc', hl'⟩ := pmmFreePages_pool t addr count
    refine h.step (pmmFreePages_extends s addr count) (pmmFreePages_extends t addr count) w.good
      w'.good (fun b k => ?_) (by rw [hl, hl', h.cursor]) (by rw [hl']; exact h.cursor_le)
      (by rw [hc, hc']; exact h.count_le) (w.single h.good h.single)
      (w'.single h.good' h.single')
    rw [w.allocated, w'.allocated, h.allocated]
  · rwa [he, he']
  · exact absurd ((h.allocated _ _).mpr ha') (hno k')
  · exact absurd ((h.allocated _ _).mpr w'.was) (hno k')

end Step

/-! ## Runs on twins -/

/-- The size of the range in use at `addr`. -/
def sizeAt (s : State) (addr : Nat) : Option Nat :=
  (findUsed s addr).map fun i => (s.cells i).size

lemma Good.sizeAt_eq {s : State} (h : Good s) {addr k : Nat} :
    sizeAt s addr = some k ↔ Allocated s addr k := by
  unfold sizeAt
  cases hf : findUsed s addr with
  | none => simpa using findUsed_none hf k
  | some i =>
    obtain ⟨hi, rfl, hst⟩ := findUsed_spec hf
    have ha : Allocated s (s.cells i).base (s.cells i).size := ⟨i, hi, hst, rfl, rfl⟩
    rw [map_some, some_inj]
    exact ⟨fun he => he ▸ ha, fun hk => h.allocated_unique ha hk⟩

/-- What a caller sees of a call: its result and the size of the cell behind it. -/
def answer (s : State) (c : Call) : Nat × Option Nat :=
  ((c.exec s).1, sizeAt (c.exec s).2 (c.exec s).1)

def answers (s : State) : List Call → List (Nat × Option Nat)
  | [] => []
  | c :: calls => answer s c :: answers (c.exec s).2 calls

/-- Requests and frees, without the reference counting of shared pages. -/
def Call.plain : Call → Bool
  | .pageRef _ | .pageUnref _ => false
  | _ => true

/-- The pool has room for what the call may cut. -/
def Call.Roomy (s : State) : Call → Prop
  | .allocPage => Room s (u64 (1 * pageSize))
  | .allocPages count | .allocPagesZone count _ => Room s (u64 (count * pageSize))
  | _ => True

def RoomyRun (s : State) : List Call → Prop
  | [] => True
  | c :: calls => c.Roomy s ∧ RoomyRun (c.exec s).2 calls

section Runs

variable {n : Nat} {s t : State}

lemma Twins.exec (h : Twins n s t) {c : Call} (hp : c.plain = true) (hr : c.Roomy s) :
    (c.exec s).1 = (c.exec t).1 ∧ Twins n (c.exec s).2 (c.exec t).2 := by
  cases c with
  | allocPage => exact h.alloc hr _ _
  | allocPages count => exact h.alloc hr _ _
  | allocPagesZone count zone => exact h.alloc hr _ _
  | freePages addr count => exact ⟨rfl, h.free addr count⟩
  | pageRef addr => simp [Call.plain] at hp
  | pageUnref addr => simp [Call.plain] at hp

lemma Twins.sizeAt_eq (h : Twins n s t) (addr : Nat) : sizeAt s addr = sizeAt t addr := by
  refine ext fun k => ?_
  rw [h.good.sizeAt_eq, h.good'.sizeAt_eq, h.allocated]

lemma Twins.answers_eq (h : Twins n s t) {calls : List Call} (hp : ∀ c ∈ calls, c.plain = true)
    (hr : RoomyRun s calls) : answers s calls = answers t calls := by
  induction calls generalizing s t with
  | nil => rfl
  | cons c calls ih =>
    obtain ⟨heq, htw⟩ := h.exec (hp c (by simp)) hr.1
    rw [answers, answers, ih htw (fun d hd => hp d (by simp [hd])) hr.2, answer, answer, heq,
      htw.sizeAt_eq]

end Runs

/-! ## The cursor after initialization -/

lemma pmmInit_lastUsedCell {memmap : List MemmapEntry} {s : State} (hz : NoPageZero memmap)
    (he : pmmInit memmap = some s) : s.lastUsedCell = 0 :=
  pmmInit_induct (P := fun s => s.lastUsedCell = 0) hz rfl (fun _ _ _ _ _ h => h)
    (fun _ _ _ s base chunk _ h => (addRoot_frame s base chunk).2.trans h) (fun _ h => h) he

/-! ## The allocator after a balanced history -/

section Renewal

variable {memmap : List MemmapEntry} {s0 : State}

lemma pmmInit_rootsBelow (hd : UsableDisjoint memmap) (hz : NoPageZero memmap)
    (he : pmmInit memmap = some s0) : RootsBelow s0.cellCount s0 := by
  obtain ⟨level, hboot⟩ := (pmmInit_boot hd hz he).boot
  exact ⟨le_rfl, fun i hi => ⟨fun _ => hi, fun _ => (hboot.cell i hi).parent_eq⟩⟩

/-- With nothing in use and the cursor at the first root, the state is a twin of the first. -/
theorem pmmInit_twins (hd : UsableDisjoint memmap) (hz : NoPageZero memmap)
    (he : pmmInit memmap = some s0) {history : List Call}
    (hnone : ∀ b n, ¬ Allocated (runCalls s0 history) b n)
    (hcursor : (runCalls s0 history).lastUsedCell = 0) :
    Twins s0.cellCount (runCalls s0 history) s0 := by
  have hg := pmmInit_good hd hz he
  have hext := runCalls_extends hg history
  have hroots := pmmInit_rootsBelow hd hz he
  have hunused := pmmInit_unused hd hz he
  have hzero := pmmInit_lastUsedCell hz he
  exact ⟨runCalls_good hg history, hg, hroots.extends hext, hroots,
    fun r hr => ⟨hext.base_eq r hr, hext.size_eq r hr⟩,
    fun b k => ⟨fun h => absurd h (hnone b k), fun h => absurd h (hunused b k)⟩,
    hcursor.trans hzero.symm, by rw [hzero]; exact Nat.zero_le _, hext.count_le,
    fun b k h => absurd h (hnone b k), fun b k h => absurd h (hunused b k)⟩

lemma splits_page {j fuel : Nat} (hf : j ≤ fuel) : splits fuel (levelSize j) pageSize = j := by
  induction j generalizing fuel with
  | zero => cases fuel <;> simp [splits, levelSize, pageSize]
  | succ j ih =>
    obtain ⟨fuel, rfl⟩ : ∃ m, fuel = m + 1 := ⟨fuel - 1, by omega⟩
    have hquarter : levelSize (j + 1) / 4 = levelSize j := by rw [levelSize_succ]; omega
    have hle := pageSize_le_levelSize j
    rw [splits, hquarter, if_pos ⟨hle, by rw [levelSize_succ]; omega⟩, ih (by omega)]

lemma alloc_onePage {s : State} (h : Good s) (hroom : Room s pageSize) {i : Nat}
    (hi : Reachable s i) (hst : (s.cells i).state = .free) (hsize : pageSize ≤ (s.cells i).size) :
    (answer s (.allocPages 1)).2 = some pageSize := by
  obtain ⟨F, hinv, hacc⟩ := h
  have hreq : u64 (1 * pageSize) = pageSize := by decide
  cases hs : scanRoots s (u64 (1 * pageSize)) .normal false with
  | none =>
    have := hinv.scanRoots_none hs hi hst
    omega
  | some x =>
    obtain ⟨w, hpos⟩ := Holding.of_scan hinv hacc hs
    obtain ⟨k, hk, hsize⟩ := hinv.size_at w.mem_ids
    have hfits := Room.found (by rw [hreq]; exact hroom) ⟨F, hinv, hacc⟩ hs
    obtain ⟨hbase, -, -, w1⟩ := allocPass_room ⟨F, hinv, hacc⟩ hs hfits
    rw [hreq, hsize, splits_page (by unfold cellPoolSize; omega), levelSize,
      Nat.mul_div_cancel _ (Nat.pow_pos (by decide))] at w1
    rw [answer, Call.exec, pmmAllocPages_eq]
    exact w1.good.sizeAt_eq.mpr ((w1.allocated _ _).mpr (.inr ⟨hbase, rfl⟩))

/-- After any history that leaves nothing in use: with the cursor back at the first root, later
requests and frees that find room in the pool are answered as after `pmm_init`, by cells of the
same sizes; and a one-page request that finds room is given one page. -/
theorem balanced_renews (hd : UsableDisjoint memmap) (hz : NoPageZero memmap)
    (he : pmmInit memmap = some s0) (history : List Call)
    (hnone : ∀ b n, ¬ Allocated (runCalls s0 history) b n) :
    ((runCalls s0 history).lastUsedCell = 0 → ∀ calls, (∀ c ∈ calls, c.plain = true) →
      RoomyRun (runCalls s0 history) calls →
      answers (runCalls s0 history) calls = answers s0 calls) ∧
    (0 < s0.cellCount → Room (runCalls s0 history) pageSize →
      (answer (runCalls s0 history) (.allocPages 1)).2 = some pageSize) := by
  refine ⟨fun hcursor calls hp hr => (pmmInit_twins hd hz he hnone hcursor).answers_eq hp hr,
    fun hpos hroom => ?_⟩
  have hg := pmmInit_good hd hz he
  have hext := runCalls_extends hg history
  have hgood := runCalls_good hg history
  obtain ⟨hlt, hroot⟩ := (pmmInit_rootsBelow hd hz he).extends hext
  have hp := (hroot 0 (hpos.trans_le hlt)).mpr hpos
  have hfree := (hgood.all_free hnone).1 0 (hpos.trans_le hlt) hp
  refine alloc_onePage hgood hroom (.root 0 (hpos.trans_le hlt) hp) hfree ?_
  obtain ⟨F, hinv, -⟩ := hgood
  obtain ⟨_, hat⟩ := hinv.root_at (hinv.root_mem 0 (hpos.trans_le hlt) hp)
  rw [hat.size_eq]
  exact pageSize_le_levelSize _

end Renewal

/-- One page is asked for after a round that took the whole of the first cell. -/
theorem balanced_renews_fivePages : ∃ s0, pmmInit [fivePages] = some s0 ∧
    answers (runCalls s0 [.allocPages 4, .freePages 4096 4]) [.allocPages 4] =
      answers s0 [.allocPages 4] ∧
    (answer (runCalls s0 [.allocPages 4, .freePages 4096 4]) (.allocPages 1)).2 =
      some pageSize := by
  have hval : ∀ s ∈ pmmInit [fivePages],
      let s' := runCalls s [.allocPages 4, .freePages 4096 4]
      s.cellCount = 2 ∧ ranges s' = ∅ ∧ s'.lastUsedCell = 0 ∧ ∀ n ∈ [1, 4], ∀ i < s'.cellCount,
        s'.cellCount + 4 * splits cellPoolSize (s'.cells i).size (u64 (n * pageSize)) ≤
          cellPoolSize := by
    decide +kernel
  obtain ⟨s0, h0⟩ := isSome_iff_exists.mp (show (pmmInit [fivePages]).isSome by decide +kernel)
  obtain ⟨hcount, hranges, hcursor, hcells⟩ := hval s0 h0
  have hd : UsableDisjoint [fivePages] := by simp [UsableDisjoint]
  have hz : NoPageZero [fivePages] := by simp [NoPageZero, fivePages]
  have hroom : ∀ n ∈ [1, 4], Room (runCalls s0 [.allocPages 4, .freePages 4096 4])
      (u64 (n * pageSize)) := by
    obtain ⟨F, hinv, -⟩ := runCalls_good (pmmInit_good hd hz h0) [.allocPages 4, .freePages 4096 4]
    exact fun n hn i hi _ _ => hcells n hn i (hinv.lt_count i (hinv.reachable_iff.mp hi))
  obtain ⟨hsame, hpage⟩ := balanced_renews hd hz h0 [.allocPages 4, .freePages 4096 4]
    fun b n ha => by simpa [hranges] using mem_ranges.mpr ha
  exact ⟨s0, h0, hsame hcursor [.allocPages 4] (by decide) ⟨hroom 4 (by simp), trivial⟩,
    hpage (by rw [hcount]; decide) (hroom 1 (by simp))⟩

/-! ## Using up the pool -/

def fourPages : MemmapEntry := ⟨4096, 16384, .usable, by decide⟩

def pageRound : List Call := [.allocPages 1, .freePages 4096 1]

/-- A pool with the one root of `fourPages`, and nothing in use. -/
structure OneRoot (s : State) : Prop where
  good : Good s
  roots : RootsBelow 1 s
  base_eq : (s.cells 0).base = 4096
  size_eq : (s.cells 0).size = levelSize 1
  unused : ∀ b n, ¬ Allocated s b n
  cursor : s.lastUsedCell = 0

section OneRoot

variable {s s' : State}

section

variable (h : OneRoot s)
include h

lemma OneRoot.extends (he : Extends s s') (hg : Good s') (hnone : ∀ b n, ¬ Allocated s' b n)
    (hc : s'.lastUsedCell = 0) : OneRoot s' := by
  have hpos : 0 < s.cellCount := h.roots.1
  exact ⟨hg, h.roots.extends he, (he.base_eq 0 hpos).trans h.base_eq,
    (he.size_eq 0 hpos).trans h.size_eq, hnone, hc⟩

lemma OneRoot.scan : scanRoots s pageSize .normal false = some (0, 0) := by
  have hpos : 0 < s.cellCount := h.roots.1
  have hp := (h.roots.2 0 hpos).mpr one_pos
  have hfree := (h.good.all_free h.unused).1 0 hpos hp
  obtain ⟨F, hinv, hacc⟩ := h.good
  cases hs : scanRoots s pageSize .normal false with
  | none =>
    have := hinv.scanRoots_none hs (.root 0 hpos hp) hfree
    rw [h.size_eq] at this
    exact absurd this (not_lt.mpr (pageSize_le_levelSize 1))
  | some x =>
    obtain ⟨idx, found⟩ := x
    obtain ⟨hr, hsub, -⟩ := scanRoots_sound hinv hs
    obtain ⟨hidx, hparent⟩ := hinv.root_lt hr
    obtain rfl : idx = 0 := Nat.lt_one_iff.mp ((h.roots.2 idx hidx).mp hparent)
    obtain ⟨st, hst, -, hleaf, -⟩ := (hinv.rep 0 hr).root
    rw [hinv.root_id 0 hr] at hst hleaf
    rw [hleaf.mp (hst.state_eq.symm.trans hfree)] at hsub
    obtain ⟨rfl, -⟩ := leaf.inj (sub_leaf hsub)
    rfl

/-- A round costs four cells of the pool and changes nothing else. -/
theorem OneRoot.round (hroom : s.cellCount + 4 ≤ cellPoolSize) :
    OneRoot (runCalls s pageRound) ∧ (runCalls s pageRound).cellCount = s.cellCount + 4 := by
  have hreq : u64 (1 * pageSize) = pageSize := by decide
  have hone : splits cellPoolSize (s.cells 0).size (u64 (1 * pageSize)) = 1 := by
    rw [h.size_eq]
    exact splits_page (by decide)
  obtain ⟨-, hcursor, hcount, w⟩ := allocPass_room h.good (by rw [hreq]; exact h.scan)
    (by rw [hone]; exact hroom)
  rw [h.base_eq] at w
  rw [hone] at hcount
  have he : Extends s (runCalls s pageRound) := runCalls_extends h.good pageRound
  have hrun : runCalls s pageRound = pmmFreePages (allocPass s 1 .normal false).2 4096 1 := by
    simp [pageRound, runCalls, Call.exec, pmmAllocPages_eq]
  have hsingle := w.single h.good (fun b k ha => absurd ha (h.unused b k)) 4096
  have hwas := w.self
  obtain ⟨hpool, hlast⟩ := pmmFreePages_pool (allocPass s 1 .normal false).2 4096 1
  rw [hrun] at he ⊢
  rcases pmmFreePages_cases w.good 4096 1 with ⟨-, hno⟩ | ⟨k, ha, hgt, -⟩ | ⟨k, -, w'⟩
  · exact absurd hwas (hno _)
  · have := hsingle k ha
    omega
  · refine ⟨h.extends he w'.good (fun b n ha => ?_) (hlast.trans hcursor), hpool.trans hcount⟩
    obtain ⟨ha, hne⟩ := (w'.allocated b n).mp ha
    rcases (w.allocated b n).mp ha with ha | ⟨hb, -⟩
    · exact h.unused b n ha
    · exact hne hb

lemma OneRoot.rounds (k : Nat) (hroom : s.cellCount + 4 * k ≤ cellPoolSize) :
    OneRoot (runCalls s (replicate k pageRound).flatten) ∧
      (runCalls s (replicate k pageRound).flatten).cellCount = s.cellCount + 4 * k := by
  induction k generalizing s with
  | zero => exact ⟨h, rfl⟩
  | succ k ih =>
    obtain ⟨h1, hcount⟩ := h.round (by omega)
    have hcat : runCalls s (replicate (k + 1) pageRound).flatten =
        runCalls (runCalls s pageRound) (replicate k pageRound).flatten := by
      rfl
    rw [hcat]
    obtain ⟨h2, hcount2⟩ := ih h1 (by omega)
    exact ⟨h2, by rw [hcount2]; omega⟩

/-- With fewer than four cells left, the request is given the whole root. -/
theorem OneRoot.exhausted (hfull : cellPoolSize < s.cellCount + 4) :
    answer s (.allocPages 1) = (4096, some (levelSize 1)) := by
  have hreq : u64 (1 * pageSize) = pageSize := by decide
  have hscan := h.scan
  have hbase := h.base_eq
  have hsize := h.size_eq
  obtain ⟨F, hinv, hacc⟩ := h.good
  obtain ⟨w, hpos⟩ := Holding.of_scan hinv hacc hscan
  obtain ⟨_, _, hat⟩ := w.leaf_at
  have hcut : pageSize ≤ (s.cells 0).size / 4 ∧ pageSize * 4 ≤ (s.cells 0).size := by
    rw [hsize]
    decide
  have hfail : (cellSplit s 0).1 ≠ true := fun hok => by
    have := (cellSplit_iff hinv.count_le hat.state_eq hcut.2).mp hok
    omega
  obtain ⟨s1, hs1⟩ : ∃ s1, cellSplit s 0 = (false, s1) :=
    ⟨_, Prod.ext (Bool.eq_false_iff.mpr hfail) rfl⟩
  obtain ⟨-, -, -, hself⟩ := cellSplit_failed hinv w.root_mem w.leaf hs1
  obtain ⟨⟨F1, w1⟩, hkeep⟩ := w.split_failed hs1
  have hdown : splitDown cellPoolSize s 0 pageSize = (0, s1) := by
    rw [show cellPoolSize = 16383 + 1 from rfl, splitDown, if_pos hcut, hs1]
  have hpass : allocPass s 1 .normal false = ((s1.cells 0).base, takeCell s1 0 0) := by
    rw [allocPass, hreq, hscan]
    simp [hdown]
  have w2 := w1.allocates hkeep hpos 0
  have hcell : (s1.cells 0).base = 4096 ∧ (s1.cells 0).size = levelSize 1 := by
    rw [hself]
    exact ⟨hbase, hsize⟩
  have hexec : (Call.allocPages 1).exec s = (4096, takeCell s1 0 0) := by
    rw [← hcell.1, ← hpass]
    exact pmmAllocPages_eq s 1
  rw [answer, hexec]
  refine Prod.ext rfl (w2.good.sizeAt_eq.mpr ((w2.allocated _ _).mpr (.inr ⟨?_, hcell.2.symm⟩)))
  exact hbase.symm

end

end OneRoot

/-- 4095 times a page is taken and given back. Nothing is in use then, but the next one-page
request is given all four pages, where right after `pmm_init` it is given one. -/
theorem rounds_exhaust : ∃ s0 s, pmmInit [fourPages] = some s0 ∧
    s = runCalls s0 (replicate 4095 pageRound).flatten ∧
    (∀ b n, ¬ Allocated s b n) ∧ s.lastUsedCell = 0 ∧
    answer s0 (.allocPages 1) = (4096, some 4096) ∧
    answer s (.allocPages 1) = (4096, some 16384) := by
  have hval : (pmmInit [fourPages]).map (fun s => (s.cellCount, (s.cells 0).base,
      (s.cells 0).size, answer s (.allocPages 1))) =
        some (1, 4096, 16384, 4096, some 4096) := by
    decide +kernel
  obtain ⟨s0, h0, hs0⟩ := map_eq_some_iff.mp hval
  simp only [Prod.mk.injEq] at hs0
  obtain ⟨hcount, hbase, hsize, hfirst⟩ := hs0
  have hd : UsableDisjoint [fourPages] := by simp [UsableDisjoint]
  have hz : NoPageZero [fourPages] := by simp [NoPageZero, fourPages]
  have hroot : OneRoot s0 := by
    refine ⟨pmmInit_good hd hz h0, ?_, hbase, hsize, pmmInit_unused hd hz h0,
      pmmInit_lastUsedCell hz h0⟩
    rw [← hcount]
    exact pmmInit_rootsBelow hd hz h0
  obtain ⟨hafter, hcells⟩ := hroot.rounds 4095 (by rw [hcount]; decide)
  exact ⟨s0, _, h0, rfl, hafter.unused, hafter.cursor, hfirst,
    hafter.exhausted (by rw [hcells, hcount]; decide)⟩

end YamKernel.Pmm

import YamKernel.Mem.Pmm.Runs

/-!
# The cells over a run

No call moves a cell: splitting makes new cells inside an old one, and nothing else writes a
base, a size or a parent. So the roots are those of `pmm_init` for good, and no call hands out
memory above the last usable entry of the memory map.
-/

namespace YamKernel.Pmm

open Lib QuadTree

/-- Every cell of the pool ends at or below `limit`. -/
def Within (limit : Nat) (s : State) : Prop :=
  ∀ i < s.cellCount, (s.cells i).base + (s.cells i).size ≤ limit

lemma Within.allocated {limit : Nat} {s : State} (h : Within limit s) {base size : Nat}
    (ha : Allocated s base size) : base + size ≤ limit := by
  obtain ⟨i, hi, -, rfl, rfl⟩ := ha
  exact h i hi

/-! ## The pool over a call -/

/-- How the pool may change: cells keep their place and their parent, and new cells lie
inside an older one. -/
structure Extends (s s' : State) : Prop where
  count_le : s.cellCount ≤ s'.cellCount
  base_eq : ∀ i < s.cellCount, (s'.cells i).base = (s.cells i).base
  size_eq : ∀ i < s.cellCount, (s'.cells i).size = (s.cells i).size
  parent_eq : ∀ i < s.cellCount, (s'.cells i).parent = (s.cells i).parent
  fresh : ∀ i, s.cellCount ≤ i → i < s'.cellCount → i < cellPoolSize ∧
    (s'.cells i).parent < i ∧ (s'.cells i).base + (s'.cells i).size ≤
      (s'.cells (s'.cells i).parent).base + (s'.cells (s'.cells i).parent).size

section Extends

variable {s s' s'' : State}

lemma Extends.of_cells (hn : s'.cellCount = s.cellCount)
    (hc : ∀ i, (s'.cells i).base = (s.cells i).base ∧ (s'.cells i).size = (s.cells i).size ∧
      (s'.cells i).parent = (s.cells i).parent) : Extends s s' :=
  ⟨hn.ge, fun i _ => (hc i).1, fun i _ => (hc i).2.1, fun i _ => (hc i).2.2,
    fun i h1 h2 => absurd h1 (by omega)⟩

lemma Extends.refl (s : State) : Extends s s := .of_cells rfl fun _ => ⟨rfl, rfl, rfl⟩

lemma Extends.trans (h : Extends s s') (g : Extends s' s'') : Extends s s'' where
  count_le := h.count_le.trans g.count_le
  base_eq i hi := (g.base_eq i (hi.trans_le h.count_le)).trans (h.base_eq i hi)
  size_eq i hi := (g.size_eq i (hi.trans_le h.count_le)).trans (h.size_eq i hi)
  parent_eq i hi := (g.parent_eq i (hi.trans_le h.count_le)).trans (h.parent_eq i hi)
  fresh i h1 h2 := by
    by_cases hi : i < s'.cellCount
    · obtain ⟨hpool, hlt, hin⟩ := h.fresh i h1 hi
      rw [g.parent_eq i hi, g.base_eq i hi, g.size_eq i hi,
        g.base_eq _ (hlt.trans hi), g.size_eq _ (hlt.trans hi)]
      exact ⟨hpool, hlt, hin⟩
    · exact g.fresh i (not_lt.mp hi) h2

lemma Extends.setCell (h : Extends s s') {j : Nat} {c : Cell} (hb : c.base = (s'.cells j).base)
    (hs : c.size = (s'.cells j).size) (hp : c.parent = (s'.cells j).parent) :
    Extends s (s'.setCell j c) := by
  refine h.trans (.of_cells rfl fun i => ?_)
  by_cases hij : i = j
  · subst hij
    simp [State.setCell, hb, hs, hp]
  · simp [State.setCell, hij]

lemma Extends.root_iff (h : Extends s s') {i : Nat} (hi : i < s'.cellCount) :
    (s'.cells i).parent = noCell ↔ i < s.cellCount ∧ (s.cells i).parent = noCell := by
  by_cases hold : i < s.cellCount
  · rw [h.parent_eq i hold]
    exact ⟨fun hp => ⟨hold, hp⟩, fun hp => hp.2⟩
  · obtain ⟨hpool, hlt, -⟩ := h.fresh i (not_lt.mp hold) hi
    unfold cellPoolSize at hpool
    unfold noCell
    exact ⟨fun hp => by omega, fun hp => absurd hp.1 hold⟩

lemma Within.extends {limit : Nat} (h : Within limit s) (he : Extends s s') : Within limit s' := by
  intro i
  induction i using Nat.strong_induction_on with
  | _ i ih =>
    intro hi
    by_cases hold : i < s.cellCount
    · rw [he.base_eq i hold, he.size_eq i hold]
      exact h i hold
    · obtain ⟨-, hlt, hin⟩ := he.fresh i (not_lt.mp hold) hi
      exact hin.trans (ih _ hlt (hlt.trans hi))

/-! ## Splitting -/

lemma splitLoop_extends {idx childSize : Nat} (is : List (Fin 4)) (hidx : idx < s.cellCount)
    (hsize : 4 * childSize ≤ (s.cells idx).size) : Extends s (splitLoop idx childSize is s).2 := by
  induction is generalizing s with
  | nil => exact .refl s
  | cons i is ih =>
    rw [splitLoop_cons]
    by_cases hfull : cellPoolSize ≤ s.cellCount
    · rw [if_pos hfull]
      exact .refl s
    · rw [if_neg hfull]
      obtain ⟨hc, -, hself, hpar, -, hsz, hbase, hframe⟩ :=
        splitStep_eq childSize i (not_le.mp hfull) hidx
      have hold : ∀ j < s.cellCount,
          ((splitStep s idx childSize i).cells j).base = (s.cells j).base ∧
          ((splitStep s idx childSize i).cells j).size = (s.cells j).size ∧
          ((splitStep s idx childSize i).cells j).parent = (s.cells j).parent := by
        intro j hj
        by_cases hji : j = idx
        · rw [hji, hself]
          exact ⟨rfl, rfl, rfl⟩
        · rw [hframe j hji (by omega)]
          exact ⟨rfl, rfl, rfl⟩
      have hstep : Extends s (splitStep s idx childSize i) := by
        refine ⟨by omega, fun j hj => (hold j hj).1, fun j hj => (hold j hj).2.1,
          fun j hj => (hold j hj).2.2, fun j h1 h2 => ?_⟩
        obtain rfl : j = s.cellCount := by omega
        -- The new child is the quarter number `i` of the cell.
        have : u64 ((s.cells idx).base + i * childSize) ≤
            (s.cells idx).base + i * childSize := Nat.mod_le _ _
        have : (i : Nat) * childSize ≤ 3 * childSize :=
          Nat.mul_le_mul_right _ (by omega)
        rw [hpar, (hold idx hidx).1, (hold idx hidx).2.1]
        exact ⟨not_le.mp hfull, hidx, by omega⟩
      exact hstep.trans (ih (by omega) (by rw [(hold idx hidx).2.1]; exact hsize))

lemma cellSplit_extends {p : Nat} (hp : p < s.cellCount) : Extends s (cellSplit s p).2 := by
  have hw : Extends s (splitLoop p ((s.cells p).size / 4) [0, 1, 2, 3] s).2 :=
    splitLoop_extends _ hp (by omega)
  unfold cellSplit
  split_ifs
  · exact .refl s
  · exact .refl s
  · split
    · next s1 heq => rwa [heq] at hw
    · next s1 heq =>
      rw [heq] at hw
      apply Extends.setCell hw <;> rfl

lemma Holding.splitDown_extends {F : Forest} {r found base req : Nat}
    (w : Holding s F r found base req) (fuel : Nat) :
    Extends s (Pmm.splitDown fuel s found req).2 := by
  induction fuel generalizing s F found with
  | zero => exact .refl s
  | succ fuel ih =>
    have hs := cellSplit_extends (w.inv.lt_count found w.mem_ids)
    unfold Pmm.splitDown
    split_ifs with hc
    · split
      · next s1 heq => rwa [heq] at hs
      · next s1 heq =>
        rw [heq] at hs
        obtain ⟨⟨F1, w1⟩, -⟩ := w.split_done hc.1 heq
        exact hs.trans (ih w1)
    · exact .refl s

lemma allocPass_extends (hg : Good s) (count : Nat) (zone : Zone) (strict : Bool) :
    Extends s (allocPass s count zone strict).2 := by
  obtain ⟨F, hinv, hacc⟩ := hg
  unfold allocPass
  dsimp only
  split
  · exact .refl s
  · next idx found hs =>
    obtain ⟨w, -⟩ := Holding.of_scan hinv hacc hs
    refine (w.splitDown_extends cellPoolSize).trans (.of_cells rfl fun i => ?_)
    by_cases hi : i = (splitDown cellPoolSize s found (u64 (count * pageSize))).1 <;>
      simp [takeCell, hi]

lemma alloc_extends (hg : Good s) (count : Nat) (zone : Zone) (strict : Bool) :
    Extends s (pmmAllocPagesInternal s count zone strict).2 := by
  obtain ⟨b, he⟩ := alloc_eq_pass hg count zone strict
  rw [he]
  exact allocPass_extends hg count zone b

/-! ## Freeing -/

lemma reserveChildren_extends (p : Nat) (is : List (Fin 4)) (s : State) :
    Extends s (reserveChildren p is s) := by
  induction is generalizing s with
  | nil => exact .refl s
  | cons c is ih =>
    refine .trans ?_ (ih _)
    apply Extends.setCell
    · apply Extends.setCell (.refl s) <;> rfl
    all_goals rfl

lemma cellTryMerge_extends (fuel : Nat) (s : State) (idx : Nat) :
    Extends s (cellTryMerge fuel s idx) := by
  induction fuel generalizing s idx with
  | zero => exact .refl s
  | succ fuel ih =>
    rw [cellTryMerge]
    split_ifs
    · exact .refl s
    · exact .refl s
    · refine .trans ?_ (ih _ _)
      apply Extends.setCell (reserveChildren_extends _ _ s) <;> rfl
    · exact .refl s

lemma pmmFreePages_extends (s : State) (addr count : Nat) :
    Extends s (pmmFreePages s addr count) := by
  unfold pmmFreePages
  split
  · exact .refl s
  · next i hf =>
    dsimp only
    split_ifs
    · exact .of_cells rfl fun _ => ⟨rfl, rfl, rfl⟩
    · have hr : Extends s (releaseCell s i) := by
        refine .of_cells rfl fun j => ?_
        by_cases hj : j = i <;> simp [releaseCell, hj]
      exact hr.trans (cellTryMerge_extends _ _ i)

/-! ## Calls and runs -/

lemma Call.exec_extends (hg : Good s) (c : Call) : Extends s (c.exec s).2 :=
  c.exec_keeps (.refl s) (alloc_extends hg) (fun _ _ _ => .of_cells rfl fun _ => ⟨rfl, rfl, rfl⟩)
    fun s' h addr count => h.trans (pmmFreePages_extends s' addr count)

lemma runCalls_extends (hg : Good s) (calls : List Call) : Extends s (runCalls s calls) := by
  induction calls generalizing s with
  | nil => exact .refl s
  | cons c calls ih => exact (c.exec_extends hg).trans (ih (c.exec_good hg))

lemma alloc_within {limit : Nat} (hg : Good s) (h : Within limit s) (count : Nat) (zone : Zone)
    (strict : Bool) : Within limit (pmmAllocPagesInternal s count zone strict).2 :=
  h.extends (alloc_extends hg count zone strict)

lemma runCalls_within {limit : Nat} (hg : Good s) (h : Within limit s) (calls : List Call) :
    Within limit (runCalls s calls) :=
  h.extends (runCalls_extends hg calls)

end Extends

/-! ## Initialization -/

/-- The usable memory of the map ends at or below `limit`. -/
def EndsWithin (limit : Nat) (memmap : List MemmapEntry) : Prop :=
  ∀ e ∈ memmap, e.type = .usable → e.base + e.length ≤ limit

lemma addRoot_within {limit : Nat} {s : State} (h : Within limit s) {base chunk : Nat}
    (hend : base + chunk ≤ limit) : Within limit (addRoot s base chunk) := by
  unfold addRoot cellAllocNode
  split_ifs
  · simpa using h
  · dsimp only
    split_ifs
    · unfold noCell cellPoolSize at *
      omega
    · intro i hi
      have hi : i < s.cellCount + 1 := hi
      by_cases he : i = s.cellCount
      · simpa [he] using hend
      · simpa [he] using h i (by omega)

lemma pmmInit_within {limit : Nat} {memmap : List MemmapEntry} {s : State} (hz : NoPageZero memmap)
    (hend : EndsWithin limit memmap) (he : pmmInit memmap = some s) : Within limit s :=
  pmmInit_induct hz (fun i hi => absurd hi (Nat.not_lt_zero i)) (fun _ _ _ _ _ h => h)
    (fun e hm hu _ _ _ hle h => addRoot_within h (hle.trans (hend e hm hu))) (fun _ h => h) he

end YamKernel.Pmm

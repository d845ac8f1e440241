import Mathlib.Data.Set.Card
import YamKernel.Mem.Heap.Sizes

/-!
# Rounds of allocation and free

Rounds of `p = kmalloc(size); kfree(p)`, and the bytes of the heap that are free. A block that is
freed goes back to the list with all its bytes, so rounds with a size above the largest bucket
take nothing from the heap.
-/

namespace YamKernel.Heap

open Lib List Set Block

variable {s : State} {A : Pool} {m : Mem} {head n a : Nat} {regions : List Extent}
  {l pre post : List Block} {x y : Block}

/-! ## Free bytes -/

def FreeIn (l : List Block) (a : Nat) : Prop := ∃ b ∈ l, b.free = true ∧ b.Covers a

/-- The bytes of the free blocks and of the objects on the bucket lists. -/
def State.freeBytes (s : State) : Set Nat :=
  {a | FreeIn s.blockList a ∨ ∃ i, ∃ o ∈ s.bucketList i, o ≤ a ∧ a < o + bucketSize i}

def Pool.freeBytes (A : Pool) : Set Nat :=
  {a | FreeIn A.blocks a ∨ ∃ i, ∃ o ∈ A.chain i, o ≤ a ∧ a < o + bucketSize i}

lemma Refines.freeBytes_eq (h : Refines s A) : s.freeBytes = A.freeBytes := by
  unfold State.freeBytes Pool.freeBytes
  rw [h.blockList_eq, funext h.bucketList_eq]

lemma Refines.freeBytes_finite (h : Refines s A) : A.freeBytes.Finite := by
  refine (finite_Iio (2 ^ 64)).subset ?_
  obtain ⟨l, slots, chain, hrep, rfl⟩ := h
  rintro a (⟨b, hb, -, ha⟩ | ⟨i, o, ho, h1, h2⟩)
  · have := (hrep.blocks.range hb).2
    unfold Block.Covers Block.span at ha
    unfold payload at this
    exact mem_Iio.mpr (by omega)
  · obtain ⟨b, hb, -, -, hholds⟩ := hrep.slabs.held _ (hrep.slabs.chain_slot i o ho)
    have := (hrep.blocks.range hb).2
    unfold Block.Holds at hholds
    dsimp only at hholds
    exact mem_Iio.mpr (by omega)

/-! ## Rounds -/

def round (size : Nat) (s : State) : State := kfree (kmalloc s size).2 (kmalloc s size).1

def Pool.round (size : Nat) (A : Pool) : Pool := (A.kmalloc size).2.kfree (A.kmalloc size).1

/-- The free of the round joins blocks of one region only, and does not take an object for a
block. -/
def RoundSafe (size : Nat) (s : State) : Prop :=
  (kmalloc s size).1 ≠ 0 → FreeSafe (kmalloc s size).2 (kmalloc s size).1

/-- The bytes that were free before `n` rounds and are not free after them. -/
noncomputable def lost (size n : Nat) (s : State) : Nat :=
  (s.freeBytes \ ((round size)^[n] s).freeBytes).ncard

lemma Refines.zero_notMem (h : Refines s A) : 0 ∉ A.large := by
  obtain ⟨l, slots, chain, hrep, rfl⟩ := h
  intro h0
  obtain ⟨b, hb, -, hpay⟩ := hrep.large 0 h0
  have := hrep.blocks.addr_pos hb
  unfold payload at hpay
  omega

lemma round_refines (h : Refines s A) {size : Nat} (hs : RoundSafe size s) :
    Refines (round size s) (A.round size) := by
  obtain ⟨hp, h'⟩ := kmalloc_refines h size
  unfold round Pool.round
  by_cases h0 : (kmalloc s size).1 = 0
  · have hk : (A.kmalloc size).2.kfree 0 = (A.kmalloc size).2 := if_neg h'.zero_notMem
    rw [← hp, h0, hk]
    exact h'
  · rw [← hp]
    exact kfree_refines h' (hs h0)

/-! ## Blocks come back -/

lemma freeIn_append : FreeIn (pre ++ post) a ↔ FreeIn pre a ∨ FreeIn post a := by
  unfold FreeIn
  simp [or_and_right, exists_or]

lemma freeIn_cons : FreeIn (x :: l) a ↔ (x.free = true ∧ x.Covers a) ∨ FreeIn l a := by
  unfold FreeIn
  simp

lemma freeIn_joinNext (hx : x.free = true)
    (hadj : ∀ y ∈ l.head?, y.free = true → y.addr = x.addr + x.span) (h : FreeIn (x :: l) a) :
    FreeIn (joinNext x l) a := by
  cases l with
  | nil => exact h
  | cons y l =>
    rw [joinNext]
    split_ifs with hy
    · have := hadj y rfl hy
      rw [freeIn_cons, freeIn_cons] at h
      rw [freeIn_cons]
      refine (or_assoc.mpr h).imp_left fun ha => ⟨hx, ?_⟩
      unfold Block.Covers Block.span at *
      dsimp only
      omega
    · exact h

lemma Blocks.adjacent (h : Blocks m head regions (pre ++ x :: y :: post))
    (hs : SameRegion regions x.addr y.addr) : y.addr = x.addr + x.span :=
  (h.tiling.join h.apart span_pos hs (d := ⟨x.addr, x.size + y.span, true⟩) rfl
    (by simp only [Block.span]; omega)).1

lemma Blocks.release_free (h : Blocks m head regions (pre ++ x :: post))
    (hs : MergesInside m regions x.addr) (ha : FreeIn (pre ++ x :: post) a ∨ x.Covers a) :
    FreeIn (release x.addr (pre ++ x :: post)) a := by
  have haddr : ∀ b ∈ pre, b.addr ≠ x.addr := fun b hb he =>
    h.ne_of_split.1 b hb (inj_on_of_nodup_map h.nodup (by simp [hb]) (by simp) he)
  -- The bytes behind the blocks that precede `x`.
  have hnext : (FreeIn post a ∨ x.Covers a) → FreeIn (joinNext ⟨x.addr, x.size, true⟩ post) a := by
    intro ha
    refine freeIn_joinNext rfl (fun y hy hfree => ?_)
      (freeIn_cons.mpr (ha.symm.imp_left fun h => ⟨rfl, h⟩))
    obtain ⟨ps, rfl⟩ := head?_eq_some_iff.mp (Option.mem_def.mp hy)
    have he : blockNext m x.addr = y.addr := (ptr_eq_some.mp (by simpa using h.next_eq)).1
    have hpos := h.addr_pos (b := y) (by simp)
    refine h.adjacent ?_
    rw [← he]
    refine hs.1 (by omega) ?_
    rw [he, (h.fields y (by simp)).2.1, hfree]
  have hsplit : FreeIn pre a ∨ FreeIn post a ∨ x.Covers a := by
    rcases ha with ha | ha
    · rw [freeIn_append, freeIn_cons] at ha
      tauto
    · exact .inr (.inr ha)
  rcases eq_nil_or_concat pre with rfl | ⟨ps, y, rfl⟩
  · rw [nil_append, release_self]
    exact hnext (hsplit.resolve_left fun ⟨b, hb, _⟩ => by simp at hb)
  · rw [concat_eq_append] at *
    have hy : y.addr ≠ x.addr := haddr y (by simp)
    have hps : ∀ b ∈ ps, b.addr ≠ x.addr := fun b hb => haddr b (by simp [hb])
    rw [append_assoc, singleton_append, release_append hps hy, release_before hy, freeIn_append]
    have hlast : FreeIn ps a ∨ FreeIn (y :: joinNext ⟨x.addr, x.size, true⟩ post) a := by
      rw [freeIn_append, freeIn_cons] at hsplit
      rw [freeIn_cons]
      rcases hsplit with (hp | hp | ⟨b, hb, -⟩) | hq
      · exact .inl hp
      · exact .inr (.inl hp)
      · simp at hb
      · exact .inr (.inr (hnext hq))
    refine hlast.imp_right fun hl => ?_
    split_ifs with hfree
    · refine freeIn_joinNext hfree (fun z hz _ => ?_) hl
      have hzx : z.addr = x.addr := by
        cases post with
        | nil =>
          obtain rfl : _ = z := by simpa [joinNext] using hz
          rfl
        | cons w ws =>
          rw [joinNext] at hz
          split_ifs at hz
          all_goals
            obtain rfl : _ = z := by simpa using hz
            rfl
      have h' : Blocks m head regions (ps ++ y :: x :: post) := by simpa using h
      have he : blockPrev m x.addr = y.addr := (ptr_eq_some.mp (by simpa using h.prev_eq)).1
      have hpos := h.addr_pos (b := y) (by simp)
      rw [hzx]
      refine h'.adjacent (SameRegion.symm ?_)
      rw [← he]
      refine hs.2 (by omega) ?_
      rw [he, (h.fields y (by simp)).2.1, hfree]
    · exact hl

lemma Pool.kmallocBlock_eq (fuel n : Nat) (A : Pool) : ∃ A₁ : Pool,
    A₁.chain = A.chain ∧ (∃ more, A₁.blocks = A.blocks ++ more) ∧
      (A.kmallocBlock fuel n = (0, A₁) ∨ ∃ b blocks, takeFirst n A₁.blocks = some (b, blocks) ∧
        A.kmallocBlock fuel n = (b + headerSize,
          { A₁ with blocks, large := (b + headerSize) :: A₁.large })) := by
  induction fuel generalizing A with
  | zero => exact ⟨A, rfl, ⟨[], by simp⟩, .inl rfl⟩
  | succ fuel ih =>
    rw [kmallocBlock]
    cases ht : takeFirst n A.blocks with
    | some out => exact ⟨A, rfl, ⟨[], by simp⟩, .inr ⟨out.1, out.2, ht, rfl⟩⟩
    | none =>
      cases he : A.expand with
      | none => exact ⟨A, rfl, ⟨[], by simp⟩, .inl rfl⟩
      | some A' =>
        obtain ⟨A₁, hchain, ⟨more, hmore⟩, hout⟩ := ih A'
        obtain ⟨r, hA', -⟩ := expand_eq he
        refine ⟨A₁, by rw [hchain, hA'], ⟨[.whole r] ++ more, ?_⟩, hout⟩
        rw [hmore, hA', append_assoc]

/-- A block that is taken and freed leaves no byte behind. -/
theorem round_keeps {size : Nat} (h : Refines s A) (hs : RoundSafe size s) (hsize : 4096 < size) :
    A.freeBytes ⊆ (A.round size).freeBytes := by
  obtain ⟨hp, h'⟩ := kmalloc_refines h size
  have hk : A.kmalloc size = A.kmallocBlock (A.pmm.freeMem + 1) (alignUp size) := by
    unfold Pool.kmalloc
    rw [bucketIndex_eq_none hsize, if_neg (by omega)]
  obtain ⟨A₁, hchain, ⟨more, hmore⟩, hout⟩ :=
    A.kmallocBlock_eq (A.pmm.freeMem + 1) (alignUp size)
  rw [← hk] at hout
  rintro a (ha | ha)
  · have ha₁ : FreeIn A₁.blocks a := by
      rw [hmore, freeIn_append]
      exact .inl ha
    left
    unfold Pool.round
    rcases hout with hnone | ⟨b, blocks, ht, hsome⟩
    · rw [hnone] at h' ⊢
      rw [show A₁.kfree 0 = A₁ from if_neg h'.zero_notMem]
      exact ha₁
    · have hfree := hs (by rw [hp, hsome]; exact Nat.succ_ne_zero _)
      rw [hp] at hfree
      rw [hsome] at h' hfree ⊢
      obtain ⟨l, slots, chain, hrep, he⟩ := h'
      have hlarge : b + headerSize ∈ (kmalloc s size).2.large := by
        rw [← State.pool_large _ l chain, ← he]
        simp
      obtain ⟨pre, y, post, hl, -, hfit, rfl, rfl⟩ := takeFirst_eq_some ht
      have hblocks : pre ++ (y.cut (alignUp size) ++ post) = l := congrArg Pool.blocks he
      obtain ⟨k, mid, hcut, -⟩ := cut_eq hfit.2
      have : y.Covers a → Block.Covers ⟨y.addr, k, false⟩ a ∨ FreeIn mid a := by
        intro hy
        unfold cut at hcut
        split_ifs at hcut
        all_goals
          obtain ⟨hx, rfl⟩ := cons.inj hcut
          obtain ⟨-, rfl, -⟩ := mk.inj hx
        · by_cases ha : a < y.addr + headerSize + alignUp size
          · exact .inl ⟨hy.1, by unfold Block.span; dsimp only; omega⟩
          · refine .inr (freeIn_cons.mpr (.inl ⟨rfl, by dsimp only; omega, ?_⟩))
            unfold Block.Covers Block.span at *
            dsimp only
            omega
        · exact .inl hy
      have hmerge := hfree.1 hlarge
      simp only [Pool.kfree, mem_cons] at ⊢
      rw [hcut, cons_append] at hblocks ⊢
      rw [← hblocks] at hrep
      refine hrep.blocks.release_free hmerge ?_
      rw [hl, freeIn_append, freeIn_cons] at ha₁
      rw [freeIn_append, freeIn_cons, freeIn_append]
      tauto
  · right
    have hchain' : (A.round size).chain = A.chain := by
      unfold Pool.round Pool.kfree
      split_ifs
      all_goals
        rcases hout with hnone | ⟨b, blocks, -, hsome⟩
        · simp [hnone, hchain]
        · simp [hsome, hchain]
    rwa [hchain']

/-- Rounds with a size above 4096 take nothing. -/
theorem lost_large {size : Nat} (hsize : 4096 < size) (h : Refines s A)
    (hs : ∀ i < n, RoundSafe size ((round size)^[i] s)) : lost size n s = 0 := by
  have hsub : ∀ n, (∀ i < n, RoundSafe size ((round size)^[i] s)) →
      ∃ A', Refines ((round size)^[n] s) A' ∧ A.freeBytes ⊆ A'.freeBytes := by
    intro n
    induction n with
    | zero => exact fun _ => ⟨A, h, subset_rfl⟩
    | succ n ih =>
      intro hs
      obtain ⟨A', h', hsub⟩ := ih fun i hi => hs i (by omega)
      have hn := hs n (by omega)
      rw [Function.iterate_succ_apply']
      exact ⟨_, round_refines h' hn, hsub.trans (round_keeps h' hn hsize)⟩
  obtain ⟨A', h', hsub⟩ := hsub n hs
  unfold lost
  rw [h.freeBytes_eq, h'.freeBytes_eq, sdiff_eq_empty.mpr hsub, ncard_empty]

end YamKernel.Heap

import YamKernel.Mem.Heap.States

/-!
# The size of an allocation

`kmalloc` rounds a request up to a multiple of 16 and `kcalloc` multiplies two requests, both
modulo `2 ^ 64`. What they return has the size that was asked for exactly if neither wraps
around, or if what is left after wrapping is a size for which they return nothing.
-/

namespace YamKernel.Heap

open Lib List

variable {s s' : State} {A : Pool} {n p : Nat}

/-- Since the call, the `n` bytes at `p` belong to the caller; before it they belonged to
nobody. -/
structure Grants (s s' : State) (p n : Nat) : Prop where
  region : ∃ r ∈ s'.regions, r.start ≤ p ∧ p + n ≤ r.stop
  own : ∀ a, p ≤ a → a < p + n → s'.Owns a ∧ ¬ s.Owns a

def KmallocSized (s : State) (size : Nat) : Prop :=
  (kmalloc s size).1 ≠ 0 → Grants s (kmalloc s size).2 (kmalloc s size).1 size

def KcallocSized (s : State) (count size : Nat) : Prop :=
  (kcalloc s count size).1 ≠ 0 →
    Grants s (kcalloc s count size).2 (kcalloc s count size).1 (count * size) ∧
      ∀ a, (kcalloc s count size).1 ≤ a → a < (kcalloc s count size).1 + count * size →
        (kcalloc s count size).2.mem a = 0

/-! ## Requests that do not wrap -/

variable {b : Block} {count size : Nat}

lemma Blocks.stores_inj {m : Mem} {head a : Nat} {regions : List Extent} {l : List Block}
    {c : Block} (h : Blocks m head regions l) (hb : b ∈ l) (hc : c ∈ l) (hba : b.Stores a)
    (hca : c.Stores a) : b = c := by
  by_contra hne
  refine h.stores_covers hb hba hc hne ?_
  unfold Block.Stores Block.payload at hca
  unfold Block.Covers Block.span
  omega

/-- Before a call to `kmalloc`, no byte of the block or object it returns belonged to a
caller. -/
theorem kmalloc_grants (h : Refines s A) (hn : n + heapAlign ≤ 2 ^ 64) : KmallocSized s n := by
  intro hp
  obtain ⟨hkeep, hcases⟩ := kmalloc_cases h n
  obtain ⟨hptr, h'⟩ := kmalloc_refines h n
  have howns : ∀ a, s.Owns a → (∃ b ∈ (A.kmalloc n).2.blocks, b.payload ∈ A.large ∧ b.Stores a) ∨
      ∃ x ∈ A.small, x.addr ≤ a ∧ a < x.addr + x.size := by
    intro a ha
    refine (h.owns_iff.mp ha).imp_left ?_
    rintro ⟨b, hb, hlarge, hst⟩
    obtain ⟨l, slots, chain, hrep, rfl⟩ := h
    obtain ⟨c, hc, hfree, hpay⟩ := hrep.large _ hlarge
    obtain rfl := hrep.blocks.payload_inj hb hc hpay.symm
    exact ⟨b, hkeep b hb hfree, hlarge, hst⟩
  obtain ⟨l, slots, chain, hrep, he⟩ := id h'
  rw [← hptr] at hcases
  generalize kmalloc s n = out at *
  obtain ⟨p, s'⟩ := out
  have hin : ∀ x ∈ l, x.payload ≤ p → p + n ≤ x.payload + x.size →
      (∃ r ∈ s'.regions, r.start ≤ p ∧ p + n ≤ r.stop) ∧ ∀ a, p ≤ a → a < p + n → x.Stores a := by
    intro x hx h1 h2
    obtain ⟨r, hr, hlo, hhi⟩ := hrep.blocks.tiling.mem_range hx
    refine ⟨⟨r, hr, ?_, ?_⟩, fun a h3 h4 => ⟨by omega, by omega⟩⟩
    all_goals
      unfold Block.payload at h1 h2
      unfold Block.span at hhi
      omega
  rcases hcases with ⟨h0, -⟩ | ⟨hlarge, hsmall, x, hx, hpay, hsize⟩ |
    ⟨hlarge, idx, hidx, hsmall, hnew⟩
  · exact absurd h0 hp
  · -- A block: the others are apart from it.
    rw [he] at hlarge hsmall hx howns
    have hfit := (le_alignUp hn).trans hsize
    obtain ⟨hregion, hin⟩ := hin x hx (by omega) (by omega)
    have hmem : x.payload ∈ s'.large := by
      rw [show s'.large = _ from hlarge, hpay]
      simp
    refine ⟨hregion, fun a h1 h2 => ⟨?_, fun ha => ?_⟩⟩
    · refine h'.owns_iff.mpr (.inl ⟨x, ?_, ?_, hin a h1 h2⟩) <;> rw [he]
      exacts [hx, hmem]
    · rcases howns a ha with ⟨b, hb, hold, hst⟩ | ⟨y, hy, hlo, hhi⟩
      · obtain rfl := hrep.blocks.stores_inj hb hx hst (hin a h1 h2)
        have hnd := hrep.large_nodup
        rw [show s'.large = _ from hlarge] at hnd
        exact (nodup_cons.mp hnd).1 (hpay ▸ hold)
      · rw [← hsmall] at hy
        obtain ⟨c, hc, -, hcl, hcy⟩ := hrep.slabs.held y (hrep.slabs.small_slot y hy)
        unfold Block.Holds at hcy
        obtain rfl := hrep.blocks.stores_inj hc hx ⟨by omega, by omega⟩ (hin a h1 h2)
        exact hcl hmem
  · -- An object: it lies in a page that belongs to no caller.
    rw [he] at hlarge hsmall howns
    have hfit := (bucketIndex_spec hidx).1
    have hmem : (⟨p, bucketSize idx⟩ : Slot) ∈ s'.small := by
      rw [show s'.small = _ from hsmall]
      simp
    have hslot := hrep.slabs.small_slot _ hmem
    obtain ⟨c, hc, -, hcl, hcx⟩ := hrep.slabs.held _ hslot
    unfold Block.Holds at hcx
    dsimp only at hcx
    obtain ⟨hregion, hin⟩ := hin c hc (by omega) (by omega)
    refine ⟨hregion, fun a h1 h2 => ⟨?_, fun ha => ?_⟩⟩
    · exact .inr ⟨_, hmem, h1, by dsimp only; omega⟩
    · rcases howns a ha with ⟨b, hb, hold, hst⟩ | ⟨y, hy, hlo, hhi⟩
      · obtain rfl := hrep.blocks.stores_inj hb hc hst (hin a h1 h2)
        rw [← hlarge] at hold
        exact hcl hold
      · have hys := hrep.slabs.small_slot y (by
          rw [show s'.small = _ from hsmall]
          simp [hy])
        rcases hrep.slabs.apart y hys _ hslot with he | hap
        · exact hnew y hy (by rw [he])
        · unfold Slot.Apart at hap
          dsimp only at hap
          omega

lemma Refines.clear (h : Refines s A) (hg : s.Gives p n) :
    Refines { s with mem := s.mem.fill p n 0 } A := by
  obtain ⟨l, slots, chain, hrep, rfl⟩ := h
  refine ⟨l, slots, chain, hrep.write p (p + n) ?_ fun k hk => Mem.fill_of_notMem (by omega), rfl⟩
  rcases hg with ⟨hp, hsize⟩ | ⟨x, hx, rfl, hsize⟩
  · exact .inl ⟨p, hp, le_rfl, by omega⟩
  · exact .inr ⟨x, hx, le_rfl, by omega⟩

lemma kcalloc_fst (s : State) (count size : Nat) :
    (kcalloc s count size).1 = (kmalloc s (u64 (count * size))).1 := by
  unfold kcalloc
  dsimp only
  split_ifs <;> rfl

lemma kcalloc_snd (hp : (kmalloc s (u64 (count * size))).1 ≠ 0) :
    (kcalloc s count size).2 = { (kmalloc s (u64 (count * size))).2 with
      mem := (kmalloc s (u64 (count * size))).2.mem.fill (kmalloc s (u64 (count * size))).1
        (u64 (count * size)) 0 } := by
  unfold kcalloc
  dsimp only
  rw [if_pos hp]

lemma kcalloc_refines (h : Refines s A)
    (hn : u64 (count * size) + heapAlign ≤ 2 ^ 64) (hp : (kcalloc s count size).1 ≠ 0) :
    Refines (kcalloc s count size).2 (A.kmalloc (u64 (count * size))).2 := by
  rw [kcalloc_fst] at hp
  rw [kcalloc_snd hp]
  exact (kmalloc_refines h _).2.clear ((kmalloc_gives h hn).resolve_left hp)

lemma kcalloc_grants (h : Refines s A)
    (hn : count * size + heapAlign ≤ 2 ^ 64) : KcallocSized s count size := by
  intro hp
  have htotal : u64 (count * size) = count * size :=
    u64_of_lt (by unfold heapAlign at hn; omega)
  have hclear := kcalloc_refines h (htotal.symm ▸ hn) hp
  rw [kcalloc_fst] at hp ⊢
  have hsnd := kcalloc_snd hp
  rw [htotal] at hclear hp hsnd ⊢
  obtain ⟨⟨r, hr, hin⟩, hown⟩ := kmalloc_grants h hn hp
  refine ⟨⟨⟨r, by rw [hsnd]; exact hr, hin⟩, fun a h1 h2 => ⟨?_, (hown a h1 h2).2⟩⟩,
    fun a h1 h2 => ?_⟩
  · exact hclear.owns_iff.mpr ((kmalloc_refines h _).2.owns_iff.mp (hown a h1 h2).1)
  · rw [hsnd]
    exact if_pos ⟨h1, h2⟩

/-! ## Requests that cannot be served -/

lemma Pool.kmallocBlock_null (fuel : Nat) (A : Pool) (hsize : ∀ b ∈ A.blocks, b.size < n)
    (hn : heapExpandPages * Pmm.pageSize - headerSize < n) : (A.kmallocBlock fuel n).1 = 0 := by
  induction fuel generalizing A with
  | zero => rfl
  | succ fuel ih =>
    have hnone : takeFirst n A.blocks = none := takeFirst_eq_none.mpr fun b hb hf =>
      absurd hf.2 (by have := hsize b hb; omega)
    rw [kmallocBlock, hnone]
    cases he : A.expand with
    | none => rfl
    | some A' =>
      obtain ⟨r, hA', hr⟩ := expand_eq he
      refine ih A' fun b hb => ?_
      rw [hA'] at hb
      rcases mem_append.mp hb with hb | hb
      · exact hsize b hb
      · obtain rfl := mem_singleton.mp hb
        unfold Block.whole
        dsimp only
        omega

lemma bucketIndex_eq_none (hn : 4096 < n) : bucketIndex n = none := by
  unfold bucketIndex
  rw [findIdx?_eq_none_iff]
  have hall : ∀ k ∈ bucketSizes, k ≤ 4096 := by decide
  intro k hk
  have := hall k hk
  simp only [decide_eq_false_iff_not]
  omega

def maxBlock : Nat := heapInitialPages * Pmm.pageSize - headerSize

lemma kmalloc_null (h : Formed s) (hn : maxBlock < alignUp n) : (kmalloc s n).1 = 0 := by
  obtain ⟨A, hA⟩ := h.refines
  rw [(kmalloc_refines hA n).1]
  have hbig : 4096 < n := by
    unfold alignUp u64 heapAlign at hn
    have : (4096 : Nat) + 16 ≤ maxBlock := by decide
    omega
  unfold Pool.kmalloc
  rw [bucketIndex_eq_none hbig, if_neg (by omega)]
  refine Pool.kmallocBlock_null _ A (fun b hb => ?_) ?_
  · have := h.block_size hA hb
    unfold maxBlock at hn
    omega
  · exact lt_of_le_of_lt (by decide) hn

/-! ## Requests that a large block serves -/

lemma Pool.kmallocBlock_served {fuel : Nat} (hb : b ∈ A.blocks) (hf : b.Fits n) :
    (A.kmallocBlock (fuel + 1) n).1 ≠ 0 := by
  obtain ⟨a, l', ht⟩ := takeFirst_isSome hb hf
  rw [kmallocBlock, ht]
  exact Nat.succ_ne_zero _

lemma bucketIndex_le {idx : Nat} (h : bucketIndex n = some idx) : n ≤ 4096 := by
  by_contra hn
  rw [bucketIndex_eq_none (by omega)] at h
  cases h

/-- A heap whose buckets are empty serves every request that fits into a block with room for
two pages. -/
theorem Pool.kmalloc_served (hchain : ∀ i, A.chain i = []) (hb : b ∈ A.blocks)
    (hfree : b.free = true) (hroom : 8320 ≤ b.size) (h0 : n ≠ 0) (hn : alignUp n ≤ b.size) :
    (A.kmalloc n).1 ≠ 0 := by
  unfold kmalloc
  rw [if_neg h0]
  cases hidx : bucketIndex n with
  | none => exact kmallocBlock_served hb ⟨hfree, hn⟩
  | some idx =>
    have : alignUp n ≤ 4096 := by
      have := bucketIndex_le hidx
      unfold alignUp u64 heapAlign
      omega
    obtain ⟨a, l', ht⟩ := takeFirst_isSome (n := alignUp Pmm.pageSize) hb
      ⟨hfree, le_trans (by decide) hroom⟩
    dsimp only
    rw [if_pos (hchain idx)]
    unfold refill pop
    rw [ht]
    dsimp only
    rw [Function.update_self, hchain idx, append_nil]
    cases hobj : (objects (a + headerSize) idx).reverse with
    | cons obj rest =>
      have hm : obj ∈ objects (a + headerSize) idx := by
        rw [← mem_reverse, hobj]
        simp
      obtain ⟨i, -, rfl⟩ := mem_map.mp hm
      simp only [Option.getD_some]
      unfold headerSize
      omega
    | nil =>
      -- The page yields no object, and the block path takes what is left.
      obtain ⟨pre, x, post, hl, hpre, hx, -, rfl⟩ := takeFirst_eq_some ht
      rw [hl] at hb
      by_cases hbx : b = x
      · subst hbx
        have hcut : b.cut (alignUp Pmm.pageSize) = [⟨b.addr, 4096, false⟩,
            ⟨b.addr + headerSize + 4096, b.size - 4096 - headerSize, true⟩] := by
          unfold Block.cut
          rw [show alignUp Pmm.pageSize = 4096 by decide, if_pos]
          unfold headerSize heapAlign
          omega
        refine kmallocBlock_served
          (b := ⟨b.addr + headerSize + 4096, b.size - 4096 - headerSize, true⟩) (by simp [hcut])
          ⟨rfl, ?_⟩
        unfold headerSize
        dsimp only
        omega
      · refine kmallocBlock_served ?_ ⟨hfree, hn⟩
        simp only [mem_append, mem_cons] at hb ⊢
        tauto

/-! ## The property -/

/-- The product of the arguments of `kcalloc` does not wrap, or what is left of it is a size
for which there never is memory. -/
def ProductFits (count size : Nat) : Prop :=
  count * size + (heapAlign - 1) < 2 ^ 64 ∨ u64 (count * size) = 0 ∨
    maxBlock < alignUp (u64 (count * size))

/-- No region has room for a size that wraps when it is rounded up. -/
theorem not_grants {s₁ : State} (h : Refines s₁ A) (hs : s'.regions = s₁.regions)
    (hn : 2 ^ 64 ≤ n + (heapAlign - 1)) : ¬ Grants s s' p n := by
  rintro ⟨⟨r, hr, h1, h2⟩, -⟩
  rw [hs] at hr
  obtain ⟨l, slots, chain, hrep, rfl⟩ := h
  have := hrep.blocks.bounds r hr
  unfold Pmm.pageSize at this
  unfold heapAlign at hn
  omega

/-- In every state of the heap, what `kmalloc` and `kcalloc` return has the size that was asked
for, exactly for the requests that do not wrap around. -/
theorem sized_iff (count size : Nat) (hsize : size < 2 ^ 64) :
    ((∀ s, Reached s → KmallocSized s size) ↔ size + (heapAlign - 1) < 2 ^ 64) ∧
      ((∀ s, Reached s → KcallocSized s count size) ↔ ProductFits count size) := by
  obtain ⟨s₀, hstart, h0, -⟩ := freshHeap
  have hreached : Reached s₀ := ⟨s₀, [], hstart, trivial, rfl⟩
  -- The fresh heap serves whatever is at most its one block.
  have hserved : ∀ n, n ≠ 0 → alignUp n ≤ maxBlock → (kmalloc s₀ n).1 ≠ 0 := by
    intro n hn hfit
    rw [(kmalloc_refines h0 n).1]
    exact Pool.kmalloc_served (fun _ => rfl) (mem_singleton.mpr rfl) rfl (by decide) hn hfit
  constructor
  · constructor
    · intro hall
      by_contra hwrap
      have hzero : alignUp size = 0 := by
        unfold alignUp u64 heapAlign at *
        omega
      refine not_grants (kmalloc_refines h0 size).2 rfl (by omega) (hall s₀ hreached ?_)
      refine hserved size (fun he => ?_) (hzero ▸ Nat.zero_le _)
      unfold heapAlign at hwrap
      omega
    · intro hn s hs hp
      obtain ⟨A, hA⟩ := hs.formed.refines
      exact kmalloc_grants hA (by unfold heapAlign at *; omega) hp
  · constructor
    · intro hall
      by_contra hwrap
      unfold ProductFits at hwrap
      push Not at hwrap
      obtain ⟨hbig, hne, hfit⟩ := hwrap
      have hp := hserved _ hne hfit
      refine not_grants (kmalloc_refines h0 _).2 (by rw [kcalloc_snd hp]) hbig
        (hall s₀ hreached ?_).1
      rwa [kcalloc_fst]
    · rintro (hn | hzero | hbig) s hs hp
      · obtain ⟨A, hA⟩ := hs.formed.refines
        exact kcalloc_grants hA (by unfold heapAlign at *; omega) hp
      · rw [kcalloc_fst, hzero] at hp
        exact absurd rfl hp
      · rw [kcalloc_fst] at hp
        exact absurd (kmalloc_null hs.formed hbig) hp

theorem sized_iff_page : (∀ s, Reached s → KmallocSized s 4096) ∧
    (∀ s, Reached s → KcallocSized s 3 4096) ∧
    ¬ ∀ s, Reached s → KcallocSized s (2 ^ 61 + 1) 8 := by
  obtain ⟨hk, hc⟩ := sized_iff 3 4096 (by decide)
  refine ⟨hk.mpr (by decide), hc.mpr (.inl (by decide)), fun h => ?_⟩
  exact absurd ((sized_iff (2 ^ 61 + 1) 8 (by decide)).2.mp h) (by unfold ProductFits; decide)

/-- The largest request is rounded up to nothing and gets the first free block, whatever its
size. -/
theorem kmalloc_wraps : ∃ s, Reached s ∧ ¬ KmallocSized s (2 ^ 64 - 1) := by
  obtain ⟨s₀, hstart, h0, -⟩ := freshHeap
  refine ⟨s₀, ⟨s₀, [], hstart, trivial, rfl⟩, fun h => ?_⟩
  refine not_grants (kmalloc_refines h0 _).2 rfl (by decide) (h ?_)
  rw [(kmalloc_refines h0 _).1]
  exact Pool.kmalloc_served (fun _ => rfl) (mem_singleton.mpr rfl) rfl (by decide)
    (by decide) (by decide)

end YamKernel.Heap

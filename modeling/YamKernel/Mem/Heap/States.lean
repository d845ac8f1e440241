import YamKernel.Mem.Heap.Runs

/-!
# The states of the heap

`Reached s`: the kernel can get the heap into the state `s`, with calls of which none
breaks the block list. Such a state refines a pool, and its lists can be read off memory.
-/

namespace YamKernel.Heap

open Lib List

variable {s : State} {A : Pool} {l : List Block} {slots : List Slot} {chain : Nat → List Nat}

/-- The heap after `heap_init`, on any memory map and after any use of the physical
allocator. -/
def Started (s : State) : Prop :=
  ∃ memmap pmm hhdm limit calls mem, Pmm.UsableDisjoint memmap ∧ Pmm.NoPageZero memmap ∧
    Pmm.pmmInit memmap = some pmm ∧ Pmm.EndsWithin limit memmap ∧ limit + hhdm < 2 ^ 64 ∧
    s = heapInit (boot mem (Pmm.runCalls pmm calls) hhdm)

def Reached (s : State) : Prop :=
  ∃ s₀ ops, Started s₀ ∧ step.Along (fun s op => op.Proper s ∧ op.Safe s) s₀ ops ∧
    s = step.run s₀ ops

/-! ## Reading the lists -/

/-- The blocks that are met on the way from `heap_head`. -/
def State.blockList (s : State) : List Block :=
  (follow (nextBlock s.mem) (2 ^ 64) (ptr s.head)).map fun a =>
    ⟨a, blockSize s.mem a, blockFree s.mem a⟩

def State.bucketList (s : State) (idx : Nat) : List Nat :=
  follow (nextObject s.mem) (2 ^ 64) (ptr (s.buckets idx))

lemma Refines.blockList_eq (h : Refines s A) : s.blockList = A.blocks := by
  obtain ⟨l, slots, chain, hrep, rfl⟩ := h
  obtain ⟨q, hs⟩ := hrep.blocks.links
  have hlen : (l.map Block.addr).length ≤ 2 ^ 64 := by
    rw [length_map]
    exact hrep.blocks.length_le
  unfold State.blockList
  rw [hs.chain.follow_eq hlen, map_map]
  refine (map_congr_left fun b hb => ?_).trans (map_id l)
  obtain ⟨hsize, hfree, -⟩ := hrep.blocks.fields b hb
  simp [hsize, hfree]

lemma Refines.bucketList_eq (h : Refines s A) (idx : Nat) : s.bucketList idx = A.chain idx := by
  obtain ⟨l, slots, chain, hrep, rfl⟩ := h
  have hsub : chain idx ⊆ range (2 ^ 64) := by
    intro a ha
    have hslot := hrep.slabs.chain_slot idx a ha
    obtain ⟨b, hb, -, -, hholds⟩ := hrep.slabs.held _ hslot
    have := (hrep.blocks.range hb).2
    unfold Block.Holds at hholds
    dsimp only at *
    exact mem_range.mpr (by omega)
  have hlen : (chain idx).length ≤ 2 ^ 64 := by
    simpa using ((hrep.slabs.nodup idx).subperm hsub).length_le
  exact (hrep.slabs.chained idx).follow_eq hlen

/-! ## What belongs to callers -/

def Pool.Owns (A : Pool) (a : Nat) : Prop :=
  (∃ b ∈ A.blocks, b.payload ∈ A.large ∧ b.Stores a) ∨
    ∃ x ∈ A.small, x.addr ≤ a ∧ a < x.addr + x.size

lemma Refines.owns_iff (h : Refines s A) {a : Nat} : s.Owns a ↔ A.Owns a := by
  obtain ⟨l, slots, chain, hrep, rfl⟩ := h
  refine or_congr ⟨?_, ?_⟩ Iff.rfl
  · rintro ⟨p, hp, h1, h2⟩
    obtain ⟨b, hb, -, rfl, -, hsize⟩ := hrep.large_block hp
    exact ⟨b, hb, hp, h1, by omega⟩
  · rintro ⟨b, hb, hp, h1, h2⟩
    have hsize : blockSize s.mem (b.payload - headerSize) = b.size := by
      rw [show b.payload - headerSize = b.addr from Nat.add_sub_cancel ..,
        (hrep.blocks.fields b hb).1]
    exact ⟨b.payload, hp, h1, by omega⟩

/-! ## Regions -/

lemma Pool.kmallocBlock_regions (fuel n : Nat) (A : Pool) :
    ∀ r ∈ (A.kmallocBlock fuel n).2.regions, r ∈ A.regions ∨
      r.stop = r.start + heapExpandPages * Pmm.pageSize := by
  induction fuel generalizing A with
  | zero => exact fun r hr => .inl hr
  | succ fuel ih =>
    intro r hr
    rw [kmallocBlock] at hr
    split at hr
    · exact .inl hr
    · split at hr
      · next A' he =>
        obtain ⟨r', hA', hr'⟩ := expand_eq he
        rcases ih A' r hr with h | h
        · rw [hA'] at h
          rcases mem_append.mp h with h | h
          · exact .inl h
          · obtain rfl := mem_singleton.mp h
            exact .inr hr'
        · exact .inr h
      · exact .inl hr

lemma Pool.refill_regions (A : Pool) (idx : Nat) : (A.refill idx).regions = A.regions := by
  unfold refill
  split <;> rfl

lemma Pool.kmalloc_regions (A : Pool) (n : Nat) : ∀ r ∈ (A.kmalloc n).2.regions,
    r ∈ A.regions ∨ r.stop = r.start + heapExpandPages * Pmm.pageSize := by
  intro r hr
  unfold kmalloc at hr
  split_ifs at hr
  · exact .inl hr
  · split at hr
    · next idx _ =>
      have h1 : (if A.chain idx = [] then A.refill idx else A).regions = A.regions := by
        split_ifs
        · exact A.refill_regions idx
        · rfl
      rw [← h1]
      dsimp only at hr
      generalize (if A.chain idx = [] then A.refill idx else A) = A1 at *
      unfold pop at hr
      split at hr
      · exact A1.kmallocBlock_regions _ _ r hr
      · exact .inl hr
    · exact A.kmallocBlock_regions _ _ r hr

/-- No region is larger than the one the heap starts with. -/
structure Formed (s : State) : Prop where
  refines : ∃ A, Refines s A
  regular : ∀ r ∈ s.regions, r.stop ≤ r.start + heapInitialPages * Pmm.pageSize

lemma kfree_regions (s : State) (p : Nat) : (kfree s p).regions = s.regions := by
  unfold kfree
  dsimp only
  split_ifs <;> rfl

lemma Formed.kmalloc (h : Formed s) (n : Nat) : Formed (kmalloc s n).2 := by
  obtain ⟨⟨A, hA⟩, hr⟩ := h
  obtain ⟨-, h1⟩ := kmalloc_refines hA n
  refine ⟨⟨_, h1⟩, fun r hr' => ?_⟩
  have hreg : ∀ {s A}, Refines s A → s.regions = A.regions := by
    rintro s A ⟨_, _, _, -, rfl⟩
    rfl
  rw [hreg h1] at hr'
  rw [hreg hA] at hr
  rcases A.kmalloc_regions n r hr' with h | h
  · exact hr r h
  · rw [h]
    exact Nat.add_le_add_left (by decide) _

lemma krealloc_regions (s : State) (p n : Nat) :
    (krealloc s p n).2.regions = s.regions ∨
      (krealloc s p n).2.regions = (kmalloc s n).2.regions := by
  unfold krealloc
  dsimp only
  split_ifs
  · exact .inr rfl
  · exact .inl (kfree_regions s p)
  · exact .inl rfl
  · exact .inr (kfree_regions _ p)
  · exact .inr rfl

lemma Formed.step (h : Formed s) {op : Op} (hp : op.Proper s) (hs : op.Safe s) :
    Formed (Heap.step s op).2 := by
  obtain ⟨A, hA⟩ := h.refines
  refine ⟨step_refines hA hp hs, ?_⟩
  cases op with
  | kmalloc n => exact (h.kmalloc n).regular
  | kfree p => exact fun r hr => h.regular r (by rwa [← kfree_regions s p])
  | krealloc p n =>
    intro r hr
    rcases krealloc_regions s p n with he | he
    · exact h.regular r (by rwa [← he])
    · exact (h.kmalloc n).regular r (by rwa [← he])
  | store a byte => exact h.regular

/-- A fresh heap is one free block for every region. -/
theorem Started.fresh (h : Started s) :
    Refines s ⟨s.pmm, s.hhdm, s.regions, s.regions.map Block.whole, fun _ => [], [], []⟩ ∧
      ∀ r ∈ s.regions, r.stop = r.start + heapInitialPages * Pmm.pageSize := by
  obtain ⟨memmap, pmm, hhdm, limit, calls, mem, hd, hz, hinit, hend, hlimit, rfl⟩ := h
  have hgood := Pmm.pmmInit_good hd hz hinit
  have hwithin := Pmm.runCalls_within hgood (Pmm.pmmInit_within hz hend hinit) calls
  exact heapInit_refines mem (Pmm.runCalls_good hgood calls) hwithin hlimit

lemma Started.formed (h : Started s) : Formed s :=
  ⟨⟨_, h.fresh.1⟩, fun r hr => (h.fresh.2 r hr).le⟩

lemma Reached.formed (h : Reached s) : Formed s := by
  obtain ⟨s₀, ops, h0, hops, rfl⟩ := h
  exact Machine.run_invariant (fun _ _ h hop => h.step hop.1 hop.2) h0.formed hops

lemma Formed.block_size (h : Formed s) (hA : Refines s A) {b : Block} (hb : b ∈ A.blocks) :
    b.size + headerSize ≤ heapInitialPages * Pmm.pageSize := by
  obtain ⟨l, slots, chain, hrep, rfl⟩ := hA
  obtain ⟨r, hr, h1, h2⟩ := hrep.blocks.tiling.mem_range hb
  have := h.regular r hr
  unfold Block.span at h2
  omega

/-! ## A fresh heap -/

lemma started_twoPieces {pmm : Pmm.State} (hp : Pmm.pmmInit twoPieces = some pmm) :
    Started (heapInit (boot (fun _ => 0) pmm higherHalf)) :=
  ⟨twoPieces, pmm, higherHalf, 0x11000000, [], fun _ => 0, by simp [Pmm.UsableDisjoint, twoPieces],
    by simp [Pmm.NoPageZero, twoPieces], hp, by simp [Pmm.EndsWithin, twoPieces], by decide, rfl⟩

/-- The heap after `heap_init` on a machine with two pieces of memory. -/
theorem freshHeap : ∃ s, Started s ∧ Refines s ⟨s.pmm, s.hhdm, s.regions,
    [⟨0xffff800004000000, 67108816, true⟩], fun _ => [], [], []⟩ ∧
    s.regions = [⟨0xffff800004000000, 0xffff800008000000⟩] := by
  have hregions : ∀ pmm ∈ Pmm.pmmInit twoPieces,
      (heapInit (boot (fun _ => 0) pmm higherHalf)).regions =
        [⟨0xffff800004000000, 0xffff800008000000⟩] := by decide +kernel
  obtain ⟨pmm, hp⟩ := twoPieces_init
  have hstart := started_twoPieces hp
  have hr := hregions pmm hp
  obtain ⟨h, -⟩ := hstart.fresh
  rw [hr] at h
  exact ⟨_, hstart, by rw [hr]; exact h, hr⟩

theorem kmallocBlock_fuel_fresh : ∃ s, Started s ∧ ∀ n,
    kmallocBlock (s.pmm.freeMem + 2) s n = kmallocBlock (s.pmm.freeMem + 1) s n := by
  obtain ⟨s, hs, h, -⟩ := freshHeap
  exact ⟨s, hs, fun n => kmallocBlock_fuel h (by omega) (by omega)⟩

end YamKernel.Heap

import YamKernel.Mem.Heap.Alloc

/-!
# Runs of the heap

`kfree` joins a block with its neighbours in the list without asking whether they are
neighbours in memory. At the seam of two regions they are not, and the joined block then
reaches from one region over whatever lies between them. As long as no free crosses a
seam, and `krealloc` neither asks for a size that wraps nor finds the magic number in front
of a bucket object, the blocks tile the regions in every state of every run.
-/

namespace YamKernel.Heap

open Lib List Pmm

variable {s : State} {l : List Block} {slots : List Slot} {chain : Nat → List Nat}
variable {A : Pool} {hhdm limit : Nat} {pmm : Pmm.State}

/-! ## The property -/

/-- The blocks are linked both ways, each lies in a region, those of a region tile it, and
the allocations of the block path do not overlap. -/
structure TiledBy (s : State) (l : List Nat) : Prop where
  linked : DList (nextBlock s.mem) (prevBlock s.mem) (ptr s.head) l
  next_prev : ∀ b ∈ l, ∀ c, nextBlock s.mem b = some c → prevBlock s.mem c = some b
  prev_next : ∀ b ∈ l, ∀ c, prevBlock s.mem b = some c → nextBlock s.mem c = some b
  inside : ∀ b ∈ l, ∃ r ∈ s.regions, r.start ≤ b ∧ b + headerSize + blockSize s.mem b ≤ r.stop
  tiles : ∀ r ∈ s.regions,
    Tiles id (fun b => headerSize + blockSize s.mem b) r.start (l.filter fun b => r.Mem b) r.stop
  obtained : ∀ r ∈ s.regions, ∃ base size, Pmm.Allocated s.pmm base size ∧
    r.start = base + s.hhdm ∧ r.stop ≤ r.start + size
  regions_apart : s.regions.Pairwise Extent.Apart
  live : ∀ p ∈ s.large, p - headerSize ∈ l ∧ blockFree s.mem (p - headerSize) = false
  live_apart : ∀ p ∈ s.large, ∀ q ∈ s.large, p ≠ q →
    p + blockSize s.mem (p - headerSize) ≤ q ∨ q + blockSize s.mem (q - headerSize) ≤ p

def HeapTiled (s : State) : Prop := ∃ l, TiledBy s l

lemma Rep.tiled (h : Rep s l slots chain) : TiledBy s (l.map Block.addr) := by
  have hsplit : ∀ a ∈ l.map Block.addr, ∃ pre b post, l = pre ++ b :: post ∧ b.addr = a := by
    intro a ha
    obtain ⟨b, hb, rfl⟩ := mem_map.mp ha
    obtain ⟨pre, post, he⟩ := append_of_mem hb
    exact ⟨pre, b, post, he, rfl⟩
  refine ⟨h.blocks.links, ?_, ?_, ?_, ?_, h.source.obtained, h.blocks.apart, ?_, ?_⟩
  · intro a ha c hc
    obtain ⟨pre, b, post, rfl, rfl⟩ := hsplit a ha
    have hnext := h.blocks.next_eq.symm.trans hc
    cases post with
    | nil => simp at hnext
    | cons y ps =>
      obtain rfl : y.addr = c := by simpa using hnext
      have h' : Blocks s.mem s.head s.regions ((pre ++ [b]) ++ y :: ps) := by simpa using h.blocks
      exact h'.prev_eq.trans (by simp)
  · intro a ha c hc
    obtain ⟨pre, b, post, rfl, rfl⟩ := hsplit a ha
    have hprev := h.blocks.prev_eq.symm.trans hc
    rcases eq_nil_or_concat pre with rfl | ⟨ps, y, rfl⟩
    · simp at hprev
    · obtain rfl : y.addr = c := by simpa using hprev
      have h' : Blocks s.mem s.head s.regions (ps ++ y :: b :: post) := by simpa using h.blocks
      exact h'.next_eq
  · intro a ha
    obtain ⟨b, hb, rfl⟩ := mem_map.mp ha
    obtain ⟨r, hr, h1, h2⟩ := h.blocks.tiling.mem_range hb
    rw [(h.blocks.fields b hb).1]
    unfold Block.span at h2
    exact ⟨r, hr, h1, by omega⟩
  · intro r hr
    have := h.blocks.tiling.filter h.blocks.apart Block.span_pos hr
    rw [filter_map]
    refine this.map fun b hb => ⟨rfl, ?_⟩
    rw [(h.blocks.fields b (mem_of_mem_filter hb)).1]
    rfl
  · intro p hp
    obtain ⟨b, hb, hfree, -, haddr, -⟩ := h.large_block hp
    rw [haddr, (h.blocks.fields b hb).2.1]
    exact ⟨mem_map_of_mem hb, hfree⟩
  · intro p hp q hq hne
    obtain ⟨b, hb, -, rfl, -, hbs⟩ := h.large_block hp
    obtain ⟨c, hc, -, rfl, -, hcs⟩ := h.large_block hq
    rw [hbs, hcs]
    rcases h.blocks.eq_or_apart hb hc with rfl | hap
    · exact absurd rfl hne
    · unfold Block.span at hap
      unfold Block.payload
      omega

/-! ## One step -/

/-- The call to `kfree` that an operation makes, if any: its argument and the state in
which it is made. -/
def Op.frees (s : State) : Op → Option (State × Nat)
  | .kfree ptr => some (s, ptr)
  | .krealloc ptr newSize =>
    if ptr = 0 then none
    else if newSize = 0 then some (s, ptr)
    else if blockMagic s.mem (ptr - headerSize) = heapMagic ∧
        newSize ≤ blockSize s.mem (ptr - headerSize) then none
    else if (Heap.kmalloc s newSize).1 = 0 then none
    else some (reallocCopy (Heap.kmalloc s newSize).2 ptr (Heap.kmalloc s newSize).1 newSize, ptr)
  | _ => none

/-- Freeing a block of the caller joins it inside its region only; a bucket object is not
taken for a block. -/
def FreeSafe (s : State) (ptr : Nat) : Prop :=
  (ptr ∈ s.large → MergesInside s.mem s.regions (ptr - headerSize)) ∧
    (ptr ∉ s.large → blockMagic s.mem (ptr - headerSize) ≠ heapMagic)

/-- The condition on an operation: the call to `kfree` it makes is safe, and a request to
`krealloc` does not wrap when it is rounded up. -/
def Op.Safe (s : State) (op : Op) : Prop :=
  (∀ call ∈ op.frees s, FreeSafe call.1 call.2) ∧
    match op with
    | .krealloc _ newSize => newSize + heapAlign ≤ 2 ^ 64
    | _ => True

instance (s : State) (p : Nat) : Decidable (FreeSafe s p) :=
  inferInstanceAs (Decidable (_ ∧ _))

instance (s : State) : (op : Op) → Decidable (op.Safe s)
  | .kmalloc _ => inferInstanceAs (Decidable (_ ∧ _))
  | .kfree _ => inferInstanceAs (Decidable (_ ∧ _))
  | .krealloc _ _ => inferInstanceAs (Decidable (_ ∧ _))
  | .store _ _ => inferInstanceAs (Decidable (_ ∧ _))

section

variable (h : Refines s A)
include h

lemma kfree_refines {p : Nat} (hs : FreeSafe s p) : Refines (kfree s p) (A.kfree p) := by
  obtain ⟨l, slots, chain, hrep, rfl⟩ := h
  unfold Pool.kfree
  by_cases hp : p ∈ s.large
  · rw [if_pos (by exact hp)]
    obtain ⟨he, h'⟩ := hrep.kfree hp (hs.1 hp)
    exact ⟨_, slots, chain, h', by rw [he]; rfl⟩
  · have he : kfree s p = s := by simp [kfree, hs.2 hp]
    rw [if_neg (by exact hp), he]
    exact ⟨l, slots, chain, hrep, rfl⟩

lemma Refines.copy {ptr newPtr n : Nat} (hg : s.Gives newPtr n) :
    Refines (reallocCopy s ptr newPtr n) A := by
  obtain ⟨l, slots, chain, hrep, rfl⟩ := h
  refine ⟨l, slots, chain, ?_, rfl⟩
  unfold reallocCopy
  dsimp only
  generalize hk : min _ n = k
  refine hrep.write newPtr (newPtr + k) ?_ fun a ha => Mem.copy_of_notMem (by omega) _
  rcases hg with ⟨hp, hsize⟩ | ⟨x, hx, rfl, hsize⟩
  · exact .inl ⟨newPtr, hp, le_rfl, by omega⟩
  · exact .inr ⟨x, hx, le_rfl, by omega⟩

lemma krealloc_refines {ptr n : Nat} (hs : (Op.krealloc ptr n).Safe s) :
    ∃ A', Refines (krealloc s ptr n).2 A' := by
  obtain ⟨hfree, hn⟩ := hs
  obtain ⟨-, h1⟩ := kmalloc_refines h n
  have hgives := kmalloc_gives h hn
  simp only [Op.frees] at hfree
  unfold krealloc
  by_cases h0 : ptr = 0
  · rw [if_pos h0]
    exact ⟨_, h1⟩
  rw [if_neg h0] at hfree ⊢
  by_cases hzero : n = 0
  · rw [if_pos hzero] at hfree ⊢
    exact ⟨_, kfree_refines h (hfree (s, ptr) rfl)⟩
  rw [if_neg hzero] at hfree ⊢
  by_cases hfit : blockMagic s.mem (ptr - headerSize) = heapMagic ∧
      n ≤ blockSize s.mem (ptr - headerSize)
  · rw [if_pos hfit]
    exact ⟨A, h⟩
  rw [if_neg hfit] at hfree ⊢
  generalize kmalloc s n = out at *
  obtain ⟨q, s1⟩ := out
  dsimp only at *
  by_cases hq : q = 0
  · rw [if_neg (not_not.mpr hq)]
    exact ⟨_, h1⟩
  · rw [if_neg hq] at hfree
    rw [if_pos hq]
    exact ⟨_, kfree_refines (h1.copy (hgives.resolve_left hq)) (hfree _ rfl)⟩

lemma store_refines {a : Nat} (ho : s.Owns a) (byte : UInt8) :
    Refines { s with mem := Function.update s.mem a byte } A := by
  obtain ⟨l, slots, chain, hrep, rfl⟩ := h
  refine ⟨l, slots, chain, hrep.write a (a + 1) ?_ fun k hk => ?_, rfl⟩
  · rcases ho with ⟨p, hp, h1, h2⟩ | ⟨x, hx, h1, h2⟩
    · exact .inl ⟨p, hp, h1, by omega⟩
    · exact .inr ⟨x, hx, h1, by omega⟩
  · exact Function.update_of_ne (by omega) _ _

lemma step_refines {op : Op} (hp : op.Proper s) (hsafe : op.Safe s) :
    ∃ A', Refines (step s op).2 A' := by
  cases op with
  | kmalloc n => exact ⟨_, (kmalloc_refines h n).2⟩
  | kfree p => exact ⟨_, kfree_refines h (hsafe.1 _ rfl)⟩
  | krealloc p n => exact krealloc_refines h hsafe
  | store a byte => exact ⟨A, store_refines h hp byte⟩

end

lemma Op.Legal.proper {op : Op} (h : op.Legal s) : op.Proper s := by
  cases op with
  | kfree p => exact .inr (.inl h)
  | kmalloc | krealloc | store => exact h

/-! ## Whole runs -/

lemma boot_rep (mem : Mem) (hg : Pmm.Good pmm) (hw : Pmm.Within limit pmm)
    (hlimit : limit + hhdm < 2 ^ 64) :
    Rep (boot mem pmm hhdm) [] [] fun _ => [] where
  source := ⟨hg, ⟨limit, hw, hlimit⟩, by simp [boot]⟩
  blocks := ⟨⟨none, rfl, rfl⟩, by simp, .nil, .nil, by simp [boot]⟩
  slabs := ⟨fun _ => rfl, by simp, by simp, by simp, by simp [boot], by simp, by simp,
    by simp, by simp⟩
  large := by simp [boot]
  large_nodup := .nil

lemma heapInit_refines (mem : Mem) (hg : Pmm.Good pmm) (hw : Pmm.Within limit pmm)
    (hlimit : limit + hhdm < 2 ^ 64) : let s := heapInit (boot mem pmm hhdm)
    Refines s ⟨s.pmm, s.hhdm, s.regions, s.regions.map Block.whole, fun _ => [], [], []⟩ ∧
      ∀ r ∈ s.regions, r.stop = r.start + heapInitialPages * pageSize := by
  have h := boot_rep mem hg hw hlimit
  unfold heapInit
  generalize hp : pmmAllocPages (boot mem pmm hhdm).pmm heapInitialPages = out
  obtain ⟨phys, pmm'⟩ := out
  rcases h.source.grow (by decide) hp with ⟨rfl, rfl⟩ |
    ⟨hne, r, hbase, hr, hlo, hhi, hapart, hsource, -⟩
  · exact ⟨⟨[], [], fun _ => [], h, rfl⟩, by simp [boot]⟩
  · dsimp only
    rw [if_neg hne]
    simp only [State.physToVirt, hbase]
    have hsize : heapInitialPages * pageSize - headerSize = r.stop - r.start - headerSize := by
      rw [hr]; dsimp only; omega
    have hspan : r.start + headerSize ≤ r.stop := by
      rw [hr]; dsimp only; unfold heapInitialPages pageSize headerSize; omega
    rw [hsize, ← hr]
    generalize hm : setMagic _ _ = m1
    have hnew : header m1 r.start = ⟨r.stop - r.start - headerSize, true, 0, 0, heapMagic⟩ := by
      subst hm
      rw [header_setMagic_self, header_setPrev_self (by decide), header_setNext_self (by decide),
        header_setFree_self, header_setSize_self (by omega)]
    have hframe : ∀ a, ¬ InHeader r.start a → m1 a = mem a := fun a ha => by
      subst hm
      rw [setMagic_frame ha, setPrev_frame ha, setNext_frame ha, setFree_frame ha, setSize_frame ha]
      rfl
    refine ⟨⟨_, _, _, h.addRegion hsource hapart hspan (fun a ha _ => hframe a ha)
      (h.blocks.start hapart hlo hhi hspan hnew rfl), rfl⟩, fun r' hr' => ?_⟩
    obtain rfl : r' = r := by simpa [boot] using hr'
    rw [hr]

/-- In every run in which all operations are legal and safe, the blocks tile the regions in
the state that is reached. -/
theorem run_heapTiled {memmap : List Pmm.MemmapEntry}
    (hd : Pmm.UsableDisjoint memmap) (hz : Pmm.NoPageZero memmap)
    (hinit : pmmInit memmap = some pmm) (hend : Pmm.EndsWithin limit memmap)
    (hlimit : limit + hhdm < 2 ^ 64) (calls : List Pmm.Call) (mem : Mem) (ops : List Op)
    (hops : step.Along (fun s op => op.Legal s ∧ op.Safe s)
      (heapInit (boot mem (runCalls pmm calls) hhdm)) ops) :
    HeapTiled (step.run (heapInit (boot mem (runCalls pmm calls) hhdm)) ops) := by
  have hgood := pmmInit_good hd hz hinit
  have hwithin := runCalls_within hgood (pmmInit_within hz hend hinit) calls
  have hstart := (heapInit_refines mem (runCalls_good hgood calls) hwithin hlimit).1
  obtain ⟨A, l, slots, chain, h, -⟩ := Machine.run_invariant (I := fun s => ∃ A, Refines s A)
    (fun s op ⟨A, h⟩ hop => step_refines h hop.1.proper hop.2) ⟨_, hstart⟩ hops
  exact ⟨_, h.tiled⟩

/-- Two separate pieces of memory of 64 MB and 16 MB: a region for `heap_init` and one for an
expansion. -/
def twoPieces : List Pmm.MemmapEntry :=
  [⟨0x4000000, 0x4000000, .usable, by decide⟩, ⟨0x10000000, 0x1000000, .usable, by decide⟩]

lemma twoPieces_init : ∃ pmm, pmmInit twoPieces = some pmm :=
  Option.isSome_iff_exists.mp (by decide)

def higherHalf : Nat := 0xffff800000000000

/-- Two blocks and a bucket object; the first block is freed, the object moved to a larger
one, and the second block written to. -/
def mixedRun : List Op :=
  [.kmalloc 8192, .kmalloc 5000, .kmalloc 100, .kfree 0xffff800004000030,
    .krealloc 0xffff800004004330 200, .store 0xffff800004002060 1]

theorem run_heapTiled_mixed : ∃ pmm, pmmInit twoPieces = some pmm ∧
    (step.outputs (heapInit (boot (fun _ => 0) pmm higherHalf)) mixedRun).length = 6 ∧
    HeapTiled (step.run (heapInit (boot (fun _ => 0) pmm higherHalf)) mixedRun) := by
  have hrun : ∀ pmm ∈ pmmInit twoPieces, step.Along (fun s op => op.Legal s ∧ op.Safe s)
      (heapInit (boot (fun _ => 0) pmm higherHalf)) mixedRun := by decide +kernel
  obtain ⟨pmm, hp⟩ := twoPieces_init
  have hend : Pmm.EndsWithin 0x11000000 twoPieces := by simp [Pmm.EndsWithin, twoPieces]
  refine ⟨pmm, hp, rfl, run_heapTiled ?_ ?_ hp hend (by decide) [] _ _ (hrun pmm hp)⟩
  · simp [Pmm.UsableDisjoint, twoPieces]
  · simp [Pmm.NoPageZero, twoPieces]

/-- The whole first region is handed out, so that the next request expands the heap; then
both allocations are freed. -/
def seamRun : List Op :=
  [.kmalloc 67108816, .kmalloc 8192, .kfree 0xffff800004000030, .kfree 0xffff800010000030]

/-- Freeing the first block of the second region joins it with the free block of the first
region: a block that reaches across the memory between them. -/
theorem kfree_crosses_regions : ∃ pmm, pmmInit twoPieces = some pmm ∧
    step.Along (fun s op => op.Legal s) (heapInit (boot (fun _ => 0) pmm higherHalf)) seamRun ∧
    ¬ HeapTiled (step.run (heapInit (boot (fun _ => 0) pmm higherHalf)) seamRun) := by
  have hrun : ∀ pmm ∈ pmmInit twoPieces,
      step.Along (fun s op => op.Legal s) (heapInit (boot (fun _ => 0) pmm higherHalf)) seamRun ∧
      let s := step.run (heapInit (boot (fun _ => 0) pmm higherHalf)) seamRun
      s.head ≠ 0 ∧
      ∀ r ∈ s.regions, ¬ (r.start ≤ s.head ∧ s.head + headerSize +
        blockSize s.mem s.head ≤ r.stop) := by
    decide +kernel
  obtain ⟨pmm, hp⟩ := twoPieces_init
  obtain ⟨hlegal, hhead, hout⟩ := hrun pmm hp
  refine ⟨pmm, hp, hlegal, fun ⟨l, h⟩ => ?_⟩
  obtain ⟨q, hs⟩ := h.linked
  cases l with
  | nil => exact hhead (ptr_eq_none.mp hs.2.symm)
  | cons b l =>
    obtain ⟨hb, -⟩ := ptr_eq_some.mp hs.1
    obtain ⟨r, hr, hin⟩ := h.inside b (by simp)
    rw [← hb] at hin
    exact hout r hr hin

end YamKernel.Heap

import YamKernel.Mem.Heap.Slabs

/-!
# Allocation keeps the heap

The paths of `kmalloc`: a page for a bucket, an object of a bucket, a region for the block
list, a block. Each does in memory what the pool does on its lists.
-/

namespace YamKernel.Heap

open Lib List Function Nat Pmm Pool

variable {s : State} {l : List Block} {slots : List Slot} {chain : Nat → List Nat}
  {b : Block} {idx obj a n : Nat}
  {l' : List Block} {pmm' : Pmm.State}

/-! ## Buckets -/

section

variable (h : Rep s l slots chain)
include h

lemma heapAllocRaw_none (ht : takeFirst (alignUp n) l = none) : heapAllocRaw s n = (0, s) := by
  unfold heapAllocRaw
  dsimp only
  rw [h.blocks.firstFit, ht]
  rfl

lemma heapAllocRaw_eq (ht : takeFirst (alignUp n) l = some (a, l')) :
    heapAllocRaw s n = (a + headerSize,
      { s with
        mem := (takeBlock s.mem a (alignUp n)).fill (a + headerSize) (alignUp n) 0 }) := by
  unfold heapAllocRaw
  dsimp only
  rw [h.blocks.firstFit, ht]
  rfl

lemma heapAllocRaw_some (ht : takeFirst (alignUp n) l = some (a, l')) :
    ∃ x ∈ l', ∃ m', x.payload = a + headerSize ∧ x.free = false ∧ alignUp n ≤ x.size ∧
      x.payload ∉ s.large ∧ (∀ y ∈ slots, ¬ x.Holds y) ∧
      heapAllocRaw s n = (a + headerSize, { s with mem := m' }) ∧
      Rep { s with mem := m' } l' slots chain := by
  obtain ⟨x, hx, rfl, hfree, hn, hlarge, hslab, hrep⟩ := h.take ht
  refine ⟨x, hx, _, rfl, hfree, hn, hlarge, hslab, heapAllocRaw_eq h ht, ?_⟩
  refine hrep.writeBlock hx hslab fun k hk => Mem.fill_of_notMem ?_
  unfold Block.Stores Block.payload at hk
  omega

lemma Rep.bucket_lt (i : Nat) : s.buckets i < 2 ^ 64 := by
  by_cases h0 : s.buckets i = 0
  · omega
  · have hc := h.slabs.chained i
    rw [ptr_of_ne h0] at hc
    obtain ⟨rest, hcons, -⟩ := hc.eq_cons
    have hslot := h.slabs.chain_slot i (s.buckets i) (by simp [hcons])
    obtain ⟨b, hb, -, -, hholds⟩ := h.slabs.held _ hslot
    have := (h.blocks.range hb).2
    unfold Block.Holds at hholds
    dsimp only at hholds
    omega

lemma Rep.pushObject (hb : b ∈ l) (hfree : b.free = false)
    (hlarge : b.payload ∉ s.large) (hholds : b.Holds ⟨obj, bucketSize idx⟩)
    (hsize : 8 ≤ bucketSize idx) (hap : ∀ y ∈ slots, Slot.Apart ⟨obj, bucketSize idx⟩ y) :
    Rep (Heap.pushObject idx s obj) l (⟨obj, bucketSize idx⟩ :: slots)
      (update chain idx (obj :: chain idx)) := by
  have := h.blocks.addr_pos hb
  have hself : ∀ y ∈ slots, y.addr ≠ obj := by
    intro y hy he
    have h1 := hap y hy
    have h2 := h.slabs.size_pos y hy
    unfold Slot.Apart at h1
    dsimp only at h1
    omega
  have hnot : ∀ i, obj ∉ chain i := fun i hi => hself _ (h.slabs.chain_slot i obj hi) rfl
  have hm : ∀ k, ¬ (obj ≤ k ∧ k < obj + 8) →
      s.mem.write obj 8 (s.buckets idx) k = s.mem k := fun k hk =>
    Mem.write_of_notMem (by omega)
  have hnext : nextObject (s.mem.write obj 8 (s.buckets idx)) obj = ptr (s.buckets idx) := by
    unfold nextObject
    rw [Mem.read_write (by simpa using h.bucket_lt idx)]
  have hother : ∀ i, ∀ a ∈ chain i,
      nextObject (s.mem.write obj 8 (s.buckets idx)) a = nextObject s.mem a := by
    intro i a ha
    refine nextObject_congr fun k h1 h2 => hm k ?_
    have h3 := hap _ (h.slabs.chain_slot i a ha)
    have h4 := h.slabs.size_pos _ (h.slabs.chain_slot i a ha)
    unfold Slot.Apart at h3
    dsimp only at h3 h4
    omega
  have hne : obj ≠ 0 := by
    unfold Block.Holds Block.payload at hholds
    dsimp only at hholds
    omega
  refine ⟨h.source, ?_, ⟨?_, ?_, ?_, ?_, ?_, ?_, ?_, ?_, ?_⟩, h.large, h.large_nodup⟩
  · refine h.blocks.frame fun c hc k hk => hm k fun hin => ?_
    refine h.blocks.stores_header hb ?_ hc hk
    unfold Block.Holds at hholds
    dsimp only at hholds
    exact ⟨by omega, by omega⟩
  · intro i
    by_cases hi : i = idx
    · subst hi
      simp only [pushObject, update_self]
      refine ⟨ptr_of_ne hne, ?_⟩
      rw [hnext]
      exact (h.slabs.chained i).frame (hother i)
    · simp only [Heap.pushObject, update_of_ne hi]
      exact (h.slabs.chained i).frame (hother i)
  · intro i
    by_cases hi : i = idx
    · subst hi
      rw [update_self]
      exact nodup_cons.mpr ⟨hnot i, h.slabs.nodup i⟩
    · rw [update_of_ne hi]
      exact h.slabs.nodup i
  · have := h.slabs.chain_slot
    grind
  · have := h.slabs.chain_inj
    grind
  · exact fun x hx => mem_cons_of_mem _ (h.slabs.small_slot x hx)
  · intro x hx i hi
    have := h.slabs.small_chain x hx
    have := hself x (h.slabs.small_slot x hx)
    grind
  · intro x hx
    rcases mem_cons.mp hx with rfl | hx
    · exact hsize
    · exact h.slabs.size_pos x hx
  · intro x hx y hy
    rcases mem_cons.mp hx with rfl | hx
    · rcases mem_cons.mp hy with rfl | hy
      · exact .inl rfl
      · exact .inr (hap y hy)
    · rcases mem_cons.mp hy with rfl | hy
      · exact .inr (hap x hx).symm
      · exact h.slabs.apart x hx y hy
  · intro x hx
    rcases mem_cons.mp hx with rfl | hx
    · exact ⟨b, hb, hfree, hlarge, hholds⟩
    · exact h.slabs.held x hx

end

/-- Carving a slab: the objects are pairwise apart and none overlaps an older one. -/
theorem Rep.pushObjects (objs : List Nat) (h : Rep s l slots chain)
    (hb : b ∈ l) (hfree : b.free = false) (hlarge : b.payload ∉ s.large)
    (hsize : 8 ≤ bucketSize idx) (hholds : ∀ o ∈ objs, b.Holds ⟨o, bucketSize idx⟩)
    (hap : ∀ o ∈ objs, ∀ y ∈ slots, Slot.Apart ⟨o, bucketSize idx⟩ y)
    (hpair : objs.Pairwise fun o o' => o + bucketSize idx ≤ o') :
    let s' := objs.foldl (Heap.pushObject idx) s
    s' = { s with mem := s'.mem, buckets := s'.buckets } ∧ ∃ slots', Rep s' l slots'
      (update chain idx (objs.reverse ++ chain idx)) := by
  induction objs generalizing s slots chain with
  | nil => exact ⟨rfl, slots, by simpa using h⟩
  | cons o objs ih =>
    obtain ⟨ho, hpair⟩ := pairwise_cons.mp hpair
    have h1 := h.pushObject hb hfree hlarge (hholds o (by simp)) hsize (hap o (by simp))
    obtain ⟨hsame, slots', hrep⟩ := ih h1 hlarge (fun o' ho' => hholds o' (by simp [ho'])) (by
      intro o' ho' y hy
      rcases mem_cons.mp hy with rfl | hy
      · exact .inr (ho o' ho')
      · exact hap o' (by simp [ho']) y hy) hpair
    refine ⟨by rw [foldl_cons, hsame]; rfl, slots', ?_⟩
    simpa using hrep

lemma objects_spec (idx : Nat) {x : Block} (hpage : pageSize ≤ x.size) :
    (∀ o ∈ objects x.payload idx, x.Holds ⟨o, bucketSize idx⟩) ∧
      (objects x.payload idx).Pairwise fun o o' => o + bucketSize idx ≤ o' := by
  have hin : ∀ i < (pageSize - heapAlign) / bucketSize idx,
      (i + 1) * bucketSize idx + heapAlign ≤ pageSize := by
    intro i hi
    have : (i + 1) * bucketSize idx ≤
        (pageSize - heapAlign) / bucketSize idx * bucketSize idx :=
      mul_le_mul_right _ hi
    have := div_mul_le_self (pageSize - heapAlign) (bucketSize idx)
    unfold pageSize heapAlign at *
    omega
  constructor
  · intro o ho
    obtain ⟨i, hi, rfl⟩ := mem_map.mp ho
    have := hin i (mem_range.mp hi)
    rw [add_mul] at this
    unfold Block.Holds
    dsimp only
    omega
  · refine pairwise_map.mpr (pairwise_lt_range.imp fun {i j} hij => ?_)
    have : (i + 1) * bucketSize idx ≤ j * bucketSize idx := mul_le_mul_right _ hij
    rw [add_mul] at this
    omega

/-! ## The pool of a state -/

def State.pool (s : State) (l : List Block) (chain : Nat → List Nat) : Pool :=
  ⟨s.pmm, s.hhdm, s.regions, l, chain, s.large, s.small⟩

section Pool

variable (s : State) (l : List Block) (chain : Nat → List Nat)

@[simp] theorem State.pool_blocks : (s.pool l chain).blocks = l := rfl
@[simp] theorem State.pool_chain : (s.pool l chain).chain = chain := rfl
@[simp] theorem State.pool_large : (s.pool l chain).large = s.large := rfl

end Pool

def Refines (s : State) (A : Pool) : Prop :=
  ∃ l slots chain, Rep s l slots chain ∧ A = s.pool l chain

lemma bucketRefill_refines {A : Pool} (h : Refines s A) (hsize : 8 ≤ bucketSize idx) :
    Refines (bucketRefill s idx) (A.refill idx) := by
  obtain ⟨l, slots, chain, h, rfl⟩ := h
  unfold bucketRefill refill
  cases ht : takeFirst (alignUp pageSize) l with
  | none =>
    rw [heapAllocRaw_none h ht]
    simp only [State.pool, ht]
    exact ⟨l, slots, chain, h, rfl⟩
  | some out =>
    obtain ⟨a, l'⟩ := out
    obtain ⟨x, hx, m', hpay, hfree, hn, hlarge, hslab, he, hr⟩ := heapAllocRaw_some h ht
    rw [he]
    simp only [State.pool, ht]
    have : a + headerSize ≠ 0 := by unfold headerSize; omega
    rw [max_eq_left hsize, ← hpay]
    obtain ⟨hobj, hpair⟩ := objects_spec idx hn
    have hold : ∀ o ∈ objects x.payload idx, ∀ y ∈ slots,
        Slot.Apart ⟨o, bucketSize idx⟩ y := by
      intro o ho y hy
      obtain ⟨c, hc, -, -, hcy⟩ := hr.slabs.held y hy
      have hcx : c ≠ x := fun he => hslab y hy (he ▸ hcy)
      have hxo := hobj o ho
      have hap := (hr.blocks.eq_or_apart hc hx).resolve_left hcx
      unfold Block.Holds Block.payload at hxo hcy
      unfold Block.span at hap
      unfold Slot.Apart
      omega
    obtain ⟨hsame, slots', hrep⟩ :=
      hr.pushObjects _ hx hfree hlarge hsize hobj hold hpair
    refine ⟨l', slots', _, hrep, ?_⟩
    unfold objects at *
    rw [hsame]
    rfl

lemma Rep.popObject (h : Rep s l slots chain) {rest : List Nat}
    (hcons : chain idx = obj :: rest) : s.buckets idx = obj ∧ obj ≠ 0 ∧ Rep { s with
      buckets := update s.buckets idx (s.mem.read (s.buckets idx) 8)
      small := ⟨s.buckets idx, bucketSize idx⟩ :: s.small } l slots
      (update chain idx rest) := by
  have hc := h.slabs.chained idx
  rw [hcons] at hc
  obtain ⟨hhead, hrest⟩ := hc
  obtain ⟨rfl, hne⟩ := ptr_eq_some.mp hhead
  have hnd := h.slabs.nodup idx
  rw [hcons] at hnd
  obtain ⟨hfirst, hnd⟩ := nodup_cons.mp hnd
  have hslot := h.slabs.chain_slot idx (s.buckets idx) (by simp [hcons])
  -- The chains after the step are parts of those before it.
  have hsub : ∀ i, ∀ a ∈ update chain idx rest i, a ∈ chain i := by
    intro i a ha
    by_cases hi : i = idx
    · subst hi
      rw [update_self] at ha
      simp [hcons, ha]
    · rwa [update_of_ne hi] at ha
  refine ⟨rfl, hne, h.source, h.blocks, ⟨?_, ?_, ?_, ?_, ?_, ?_,
    h.slabs.size_pos, h.slabs.apart, h.slabs.held⟩, h.large, h.large_nodup⟩
  · intro i
    by_cases hi : i = idx
    · subst hi
      simp only [update_self]
      exact hrest
    · simpa only [update_of_ne hi] using h.slabs.chained i
  · intro i
    by_cases hi : i = idx
    · subst hi
      rwa [update_self]
    · rw [update_of_ne hi]
      exact h.slabs.nodup i
  · exact fun i a ha => h.slabs.chain_slot i a (hsub i a ha)
  · exact fun i j a hi hj => h.slabs.chain_inj i j a (hsub i a hi) (hsub j a hj)
  · intro x hx
    rcases mem_cons.mp hx with rfl | hx
    · exact hslot
    · exact h.slabs.small_slot x hx
  · intro x hx i hi
    rcases mem_cons.mp hx with rfl | hx
    · have hidx := h.slabs.chain_inj i idx _ (hsub i _ hi) (by simp [hcons])
      subst hidx
      rw [update_self] at hi
      exact hfirst hi
    · exact h.slabs.small_chain x hx i (hsub i _ hi)

/-! ## Regions -/

/-- A region of `count` pages from the physical allocator: none, or memory that is apart
from all regions the heap has. -/
theorem Source.grow {pmm : Pmm.State} {hhdm phys count : Nat} {regions : List Extent}
    (h : Source pmm hhdm regions) (hcount : count * pageSize < 2 ^ 64)
    (he : pmmAllocPages pmm count = (phys, pmm')) :
    phys = 0 ∧ pmm' = pmm ∨ phys ≠ 0 ∧ ∃ r : Extent, u64 (phys + hhdm) = r.start ∧
      r = ⟨r.start, r.start + count * pageSize⟩ ∧ pageSize ≤ r.start ∧
      r.stop < 2 ^ 64 ∧ (∀ r' ∈ regions, r'.Apart r) ∧ Source pmm' hhdm (regions ++ [r]) ∧
      pmm'.freeMem < pmm.freeMem := by
  obtain ⟨limit, hw, hlimit⟩ := h.roof
  have hw' := alloc_within h.good hw count .normal false
  have hcases := alloc_cases h.good count .normal false
  unfold pmmAllocPages at he
  rw [he] at hcases hw'
  rcases hcases with hnone | ⟨size, hsize, ha⟩
  · exact .inl ⟨(Prod.mk.inj hnone).1, (Prod.mk.inj hnone).2⟩
  · dsimp only at ha
    rw [u64_of_lt hcount] at hsize
    have hall : Pmm.Allocated pmm' phys size := ha.self
    obtain ⟨hpos, -, hdvd, -⟩ := ha.good.allocated_range hall
    have := le_of_dvd hpos hdvd
    have := hw'.allocated hall
    have := ha.free_eq
    have := ha.good.allocated_size_pos hall
    refine .inr ⟨hpos.ne', ⟨phys + hhdm, phys + hhdm + count * pageSize⟩, ?_, rfl, ?_, ?_, ?_,
      ⟨ha.good, ⟨limit, hw', hlimit⟩, ?_⟩, by omega⟩
    · exact u64_of_lt
    · dsimp only; omega
    · dsimp only; omega
    · intro r hr
      obtain ⟨b, n, hb, hstart, hstop⟩ := h.obtained r hr
      have := ha.apart b n hb
      unfold Extent.Apart
      dsimp only
      omega
    · intro r hr
      rcases mem_append.mp hr with hr | hr
      · obtain ⟨b, n, hb, hrest⟩ := h.obtained r hr
        exact ⟨b, n, (ha.allocated b n).mpr (.inl hb), hrest⟩
      · obtain rfl := mem_singleton.mp hr
        exact ⟨phys, size, hall, rfl, by dsimp only; omega⟩

lemma Rep.addRegion (h : Rep s l slots chain) {m' : Mem} {r : Extent}
    {head' : Nat} (hsource : Source pmm' s.hhdm (s.regions ++ [r]))
    (hapart : ∀ r' ∈ s.regions, r'.Apart r) (hsize : r.start + headerSize ≤ r.stop)
    (hm : ∀ a, ¬ InHeader r.start a → (∀ x ∈ l, ¬ InHeader x.addr a) → m' a = s.mem a)
    (hb : Blocks m' head' (s.regions ++ [r]) (l ++ [Block.whole r])) :
    Rep { s with
      mem := m', pmm := pmm', head := head', regions := s.regions ++ [r] }
      (l ++ [Block.whole r]) slots chain := by
  refine ⟨hsource, hb, ?_, ?_, h.large_nodup⟩
  · refine h.slabs.transport (fun i a ha k h1 h2 => ?_) fun c hc _ hlarge => ⟨by simp [hc], hlarge⟩
    obtain ⟨c, hc, -, -, hst⟩ := h.slabs.link_stored ha h1 h2
    refine hm k (fun hin => ?_) fun x hx => h.blocks.stores_header hc hst hx
    have := h.blocks.apart_region hapart hc
    unfold Block.Stores Block.payload at hst
    unfold Block.span at this
    unfold InHeader at hin
    omega
  · intro p hp
    obtain ⟨b, hb, hrest⟩ := h.large p hp
    exact ⟨b, by simp [hb], hrest⟩

lemma newHeader (m : Mem) (base : Nat) {size : Nat} (hs : size < 2 ^ 64) :
    let m' := setNext (setPrev (setMagic (setFree (setSize m base size) base true) base) base 0)
      base 0
    header m' base = ⟨size, true, 0, 0, heapMagic⟩ ∧ ∀ a, ¬ InHeader base a → m' a = m a := by
  refine ⟨?_, fun a ha => ?_⟩
  · rw [header_setNext_self (by decide), header_setPrev_self (by decide), header_setMagic_self,
      header_setFree_self, header_setSize_self hs]
  · rw [setNext_frame ha, setPrev_frame ha, setMagic_frame ha, setFree_frame ha, setSize_frame ha]

lemma heapExpand_refines {A : Pool} (h : Refines s A) :
    (heapExpand s = (false, s) ∧ A.expand = none) ∨
      ∃ s' A', heapExpand s = (true, s') ∧ A.expand = some A' ∧ Refines s' A' ∧
        s'.pmm.freeMem < s.pmm.freeMem := by
  obtain ⟨l, slots, chain, h, rfl⟩ := h
  unfold heapExpand expand State.pool
  generalize hp : pmmAllocPages s.pmm heapExpandPages = out
  obtain ⟨phys, pmm'⟩ := out
  rcases h.source.grow (by decide) hp with ⟨rfl, rfl⟩ |
    ⟨hne, r, hbase, hr, hlo, hhi, hapart, hsource, hfree⟩
  · exact .inl ⟨rfl, rfl⟩
  · dsimp only
    rw [if_neg hne, if_neg hne]
    simp only [State.physToVirt, hbase]
    have hsize : heapExpandPages * pageSize - headerSize = r.stop - r.start - headerSize := by
      rw [hr]; dsimp only; omega
    have hspan : r.start + headerSize ≤ r.stop := by
      rw [hr]; dsimp only; unfold heapExpandPages pageSize headerSize; omega
    have hsmall : r.stop - r.start - headerSize < 2 ^ 64 := by omega
    obtain ⟨hnew, hframe⟩ := newHeader s.mem r.start hsmall
    rw [hsize, ← hr]
    generalize setNext _ _ 0 = m1 at hnew hframe
    obtain ⟨q, hlinks⟩ := h.blocks.links
    rcases eq_nil_or_concat l with hl | ⟨pre, x, hl⟩
    · -- The list is empty: the region becomes the head.
      have hhead : s.head = 0 := ptr_eq_none.mp (by rw [hl] at hlinks; exact hlinks.2.symm)
      rw [if_neg (not_not.mpr hhead)]
      have hb : Blocks m1 r.start (s.regions ++ [r]) (l ++ [Block.whole r]) := by
        simpa [hl] using h.blocks.start hapart hlo hhi hspan hnew hl
      exact .inr ⟨_, _, rfl, rfl, ⟨_, slots, chain,
        h.addRegion hsource hapart hspan (fun a ha _ => hframe a ha) hb, rfl⟩, hfree⟩
    · have hhead : s.head ≠ 0 := by
        intro h0
        rw [h0, hl] at hlinks
        cases pre <;> exact absurd hlinks.1 (by simp)
      have h1 : Blocks m1 s.head s.regions l := h.blocks.frame fun b hb a ha => by
        have := h.blocks.apart_region hapart hb
        refine hframe a fun hin => ?_
        unfold Block.span at this
        unfold InHeader at ha hin
        omega
      rw [concat_eq_append] at hl
      have hlast : lastBlock (2 ^ 64) m1 s.head = x.addr := by
        rw [hl] at h1
        exact h1.lastBlock
      rw [if_pos hhead, hlast]
      refine .inr ⟨_, _, rfl, rfl, ⟨_, slots, chain, h.addRegion hsource hapart hspan
        (fun a ha hx => ?_) (h.blocks.append hapart hlo hhi hspan hnew hframe hl), rfl⟩, hfree⟩
      rw [setPrev_frame ha, setNext_frame (hx x (by simp [hl])), hframe a ha]

/-! ## The calls -/

lemma kmallocBlock_refines (fuel : Nat) {A : Pool} (h : Refines s A) (n : Nat) :
    (kmallocBlock fuel s n).1 = (A.kmallocBlock fuel n).1 ∧
      Refines (kmallocBlock fuel s n).2 (A.kmallocBlock fuel n).2 := by
  induction fuel generalizing s A with
  | zero => exact ⟨rfl, h⟩
  | succ fuel ih =>
    rw [kmallocBlock, Pool.kmallocBlock]
    obtain ⟨l, slots, chain, hrep, rfl⟩ := id h
    rw [hrep.blocks.firstFit]
    cases ht : takeFirst n l with
    | some out =>
      obtain ⟨a, l'⟩ := out
      obtain ⟨x, hx, rfl, hfree, hn, hlarge, hslab, hrep'⟩ := hrep.take ht
      simp only [State.pool_blocks, ht, Option.elim]
      exact ⟨trivial, l', slots, chain, hrep'.handOut hx hfree hlarge hslab, rfl⟩
    | none =>
      simp only [State.pool_blocks, ht]
      rcases heapExpand_refines h with ⟨he, hA⟩ | ⟨s', A', he, hA, hs', -⟩
      · rw [he, hA]
        exact ⟨rfl, h⟩
      · rw [he, hA]
        exact ih hs'

/-- The retries of `kmalloc` end by themselves: fuel beyond the free bytes changes nothing. -/
theorem kmallocBlock_fuel {A : Pool} (h : Refines s A) {fuel k : Nat} (hf : s.pmm.freeMem < fuel)
    (hk : s.pmm.freeMem < k) : kmallocBlock fuel s n = kmallocBlock k s n := by
  induction fuel generalizing s A k with
  | zero => omega
  | succ fuel ih =>
    obtain ⟨k, rfl⟩ : ∃ j, k = j + 1 := ⟨k - 1, by omega⟩
    rw [kmallocBlock, kmallocBlock]
    split
    · rfl
    · rfl
    · rcases heapExpand_refines h with ⟨he, -⟩ | ⟨s', A', he, -, hs', hlt⟩
      · rw [he]
      · rw [he]
        exact ih hs' (by omega) (by omega)

lemma bucketIndex_spec (h : bucketIndex n = some idx) :
    n ≤ bucketSize idx ∧ 8 ≤ bucketSize idx := by
  obtain ⟨hlt, hle, -⟩ := findIdx?_eq_some_iff_getElem.mp h
  have hget : bucketSize idx = bucketSizes[idx] := by
    unfold bucketSize
    rw [getD_eq_getElem?_getD, getElem?_eq_getElem hlt]
    rfl
  have hall : ∀ k ∈ bucketSizes, 8 ≤ k := by decide
  rw [hget]
  exact ⟨by simpa using hle, hall _ (getElem_mem hlt)⟩

lemma Rep.bucket_eq_zero (h : Rep s l slots chain) (idx : Nat) :
    s.buckets idx = 0 ↔ chain idx = [] := by
  have hc := h.slabs.chained idx
  constructor
  · intro h0
    rw [h0] at hc
    exact hc.eq_nil
  · intro h0
    rw [h0] at hc
    exact ptr_eq_none.mp hc

lemma kmalloc_refines {A : Pool} (h : Refines s A) (n : Nat) :
    (kmalloc s n).1 = (A.kmalloc n).1 ∧ Refines (kmalloc s n).2 (A.kmalloc n).2 := by
  have hblock : ∀ {s A}, Refines s A →
      (kmallocBlock (s.pmm.freeMem + 1) s (alignUp n)).1 =
        (A.kmallocBlock (A.pmm.freeMem + 1) (alignUp n)).1 ∧
      Refines (kmallocBlock (s.pmm.freeMem + 1) s (alignUp n)).2
        (A.kmallocBlock (A.pmm.freeMem + 1) (alignUp n)).2 := by
    intro s A h
    have hpmm : A.pmm = s.pmm := by
      obtain ⟨_, _, _, -, rfl⟩ := h
      rfl
    rw [hpmm]
    exact kmallocBlock_refines _ h _
  unfold kmalloc Pool.kmalloc
  split_ifs
  · exact ⟨rfl, h⟩
  cases hidx : bucketIndex n with
  | none => exact hblock h
  | some idx =>
    obtain ⟨-, h8⟩ := bucketIndex_spec hidx
    -- After a refill, if one was needed.
    have h1 : Refines (if s.buckets idx = 0 then bucketRefill s idx else s)
        (if A.chain idx = [] then A.refill idx else A) := by
      have hiff : s.buckets idx = 0 ↔ A.chain idx = [] := by
        obtain ⟨_, _, _, hrep, rfl⟩ := h
        exact hrep.bucket_eq_zero idx
      by_cases hz : s.buckets idx = 0
      · rw [if_pos hz, if_pos (hiff.mp hz)]
        exact bucketRefill_refines h h8
      · rw [if_neg hz, if_neg fun he => hz (hiff.mpr he)]
        exact h
    dsimp only
    generalize (if A.chain idx = [] then A.refill idx else A) = A1 at *
    obtain ⟨l, slots, chain, hrep, rfl⟩ := id h1
    unfold pop
    cases hc : chain idx with
    | nil =>
      rw [if_neg (not_not.mpr ((hrep.bucket_eq_zero idx).mpr hc))]
      simp only [State.pool_chain, hc]
      exact hblock h1
    | cons obj rest =>
      obtain ⟨hobj, hne, hpop⟩ := hrep.popObject hc
      rw [if_pos (hobj ▸ hne)]
      simp only [State.pool_chain, hc]
      exact ⟨hobj, l, slots, _, hpop, by rw [hobj]; rfl⟩

/-! ## What the caller gets -/

lemma le_alignUp (hn : n + heapAlign ≤ 2 ^ 64) : n ≤ alignUp n := by
  unfold alignUp heapAlign at *
  rw [u64_of_lt]
  omega

def KeepsUsed (l l' : List Block) : Prop := ∀ b ∈ l, b.free = false → b ∈ l'

lemma takeFirst_keepsUsed {l : List Block} (h : takeFirst n l = some (a, l')) : KeepsUsed l l' := by
  obtain ⟨pre, x, post, rfl, -, ⟨hfree, -⟩, -, rfl⟩ := takeFirst_eq_some h
  intro b hb hbf
  have : b ≠ x := fun he => by simp [he, hfree] at hbf
  simp only [mem_append, mem_cons] at hb ⊢
  tauto

namespace Pool

variable {A A' : Pool}

lemma expand_eq (h : A.expand = some A') : ∃ r : Extent,
    A' = { A with pmm := A'.pmm, regions := A.regions ++ [r], blocks := A.blocks ++ [.whole r] } ∧
      r.stop = r.start + heapExpandPages * pageSize := by
  unfold expand at h
  dsimp only at h
  split_ifs at h
  obtain rfl := Option.some.inj h
  exact ⟨⟨_, _⟩, rfl, rfl⟩

/-- The block path returns nothing, or a block that it adds to those of the callers. -/
theorem kmallocBlock_cases (fuel n : Nat) (A : Pool) :
    let out := A.kmallocBlock fuel n
    KeepsUsed A.blocks out.2.blocks ∧ out.2.small = A.small ∧
      (out.1 = 0 ∧ out.2.large = A.large ∨ out.2.large = out.1 :: A.large ∧
        ∃ x ∈ out.2.blocks, x.payload = out.1 ∧ n ≤ x.size) := by
  induction fuel generalizing A with
  | zero => exact ⟨fun _ hb _ => hb, rfl, .inl ⟨rfl, rfl⟩⟩
  | succ fuel ih =>
    rw [kmallocBlock]
    cases ht : takeFirst n A.blocks with
    | some out =>
      obtain ⟨a, l'⟩ := out
      obtain ⟨pre, x, post, -, -, hx, rfl, rfl⟩ := takeFirst_eq_some ht
      obtain ⟨k, mid, hcut, hn, -⟩ := Block.cut_eq hx.2
      exact ⟨takeFirst_keepsUsed ht, rfl, .inr ⟨rfl, ⟨x.addr, k, false⟩, by simp [hcut], rfl, hn⟩⟩
    | none =>
      cases he : A.expand with
      | none => exact ⟨fun _ hb _ => hb, rfl, .inl ⟨rfl, rfl⟩⟩
      | some A' =>
        obtain ⟨hkeep, hsmall, hout⟩ := ih A'
        obtain ⟨r, hA', -⟩ := expand_eq he
        have hlarge : A'.large = A.large := by rw [hA']
        refine ⟨fun b hb hbf => hkeep b (by rw [hA']; simp [hb]) hbf, ?_, ?_⟩
        · rw [hsmall, hA']
        · rwa [hlarge] at hout

end Pool

/-- What a call to `kmalloc` returned: nothing, a block, or an object of a bucket that no
caller had before. -/
theorem kmalloc_cases {A : Pool} (h : Refines s A) (n : Nat) :
    let out := A.kmalloc n
    KeepsUsed A.blocks out.2.blocks ∧
      (out.1 = 0 ∧ out.2.large = A.large ∧ out.2.small = A.small ∨
        (out.2.large = out.1 :: A.large ∧ out.2.small = A.small ∧
          ∃ x ∈ out.2.blocks, x.payload = out.1 ∧ alignUp n ≤ x.size) ∨
        out.2.large = A.large ∧ ∃ idx, bucketIndex n = some idx ∧
          out.2.small = ⟨out.1, bucketSize idx⟩ :: A.small ∧ ∀ y ∈ A.small, y.addr ≠ out.1) := by
  have hblock : ∀ A1 : Pool, KeepsUsed A.blocks A1.blocks → A1.large = A.large →
      A1.small = A.small → ∀ fuel, let out := A1.kmallocBlock fuel (alignUp n)
      KeepsUsed A.blocks out.2.blocks ∧
      (out.1 = 0 ∧ out.2.large = A.large ∧ out.2.small = A.small ∨
        (out.2.large = out.1 :: A.large ∧ out.2.small = A.small ∧
          ∃ x ∈ out.2.blocks, x.payload = out.1 ∧ alignUp n ≤ x.size)) := by
    intro A1 hk hl hs fuel
    obtain ⟨hkeep, hsmall, hout⟩ := kmallocBlock_cases fuel (alignUp n) A1
    rw [hl] at hout
    refine ⟨fun b hb hbf => hkeep b (hk b hb hbf) hbf, ?_⟩
    rcases hout with ⟨h0, hlarge⟩ | ⟨hlarge, hx⟩
    · exact .inl ⟨h0, hlarge, hsmall.trans hs⟩
    · exact .inr ⟨hlarge, hsmall.trans hs, hx⟩
  have hself : KeepsUsed A.blocks A.blocks := fun _ hb _ => hb
  unfold Pool.kmalloc
  split_ifs
  · exact ⟨hself, .inl ⟨rfl, rfl, rfl⟩⟩
  cases hidx : bucketIndex n with
  | none => exact (hblock A hself rfl rfl _).imp_right fun h => h.imp_right .inl
  | some idx =>
    obtain ⟨-, h8⟩ := bucketIndex_spec hidx
    dsimp only
    obtain ⟨s1, h1, hk, hl, hs⟩ : ∃ s1, let A1 := if A.chain idx = [] then A.refill idx else A
        Refines s1 A1 ∧ KeepsUsed A.blocks A1.blocks ∧ A1.large = A.large ∧
        A1.small = A.small := by
      split_ifs
      · refine ⟨_, bucketRefill_refines h h8, ?_⟩
        unfold refill
        cases ht : takeFirst (alignUp pageSize) A.blocks with
        | none => exact ⟨hself, rfl, rfl⟩
        | some out => exact ⟨takeFirst_keepsUsed ht, rfl, rfl⟩
      · exact ⟨s, h, hself, rfl, rfl⟩
    generalize (if A.chain idx = [] then A.refill idx else A) = A1 at *
    unfold pop
    cases hc : A1.chain idx with
    | nil => exact (hblock A1 hk hl hs _).imp_right fun h => h.imp_right .inl
    | cons obj rest =>
      refine ⟨hk, .inr (.inr ⟨hl, idx, rfl, by rw [← hs]; rfl, fun y hy he => ?_⟩)⟩
      obtain ⟨l, slots, chain, hrep, rfl⟩ := h1
      rw [← hs] at hy
      refine hrep.slabs.small_chain y hy idx ?_
      rw [show chain idx = obj :: rest from hc, he]
      simp

/-- At least `n` bytes at `p` belong to the caller. -/
def State.Gives (s : State) (p n : Nat) : Prop :=
  (p ∈ s.large ∧ n ≤ blockSize s.mem (p - headerSize)) ∨ ∃ x ∈ s.small, x.addr = p ∧ n ≤ x.size

/-- What `kmalloc` returns has room for the request, unless rounding the request up to a
multiple of 16 wraps around. -/
theorem kmalloc_gives {A : Pool} (h : Refines s A) (hn : n + heapAlign ≤ 2 ^ 64) :
    (kmalloc s n).1 = 0 ∨ (kmalloc s n).2.Gives (kmalloc s n).1 n := by
  obtain ⟨hp, l, slots, chain, hrep, he⟩ := kmalloc_refines h n
  obtain ⟨-, hcases⟩ := kmalloc_cases h n
  rw [hp]
  rw [he] at hcases
  rcases hcases with ⟨h0, -⟩ | ⟨hlarge, -, x, hx, hpay, hsize⟩ | ⟨-, idx, hidx, hsmall, -⟩
  · exact .inl h0
  · refine .inr (.inl ⟨?_, ?_⟩)
    · rw [show (kmalloc s n).2.large = _ from hlarge]
      simp
    · rw [← hpay, show x.payload - headerSize = x.addr from Nat.add_sub_cancel ..,
        (hrep.blocks.fields x hx).1]
      exact (le_alignUp hn).trans hsize
  · refine .inr (.inr ⟨⟨_, bucketSize idx⟩, ?_, rfl, (bucketIndex_spec hidx).1⟩)
    rw [show (kmalloc s n).2.small = _ from hsmall]
    simp

end YamKernel.Heap

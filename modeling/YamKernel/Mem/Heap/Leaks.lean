import YamKernel.Mem.Heap.Rounds

/-!
# Memory that does not come back

An object of a bucket never goes back to its list, and the page that is taken for the bucket of
4096 bytes holds no object at all. So rounds of `kmalloc` and `kfree` with a size that a bucket
serves eat up the heap.
-/

namespace YamKernel.Heap

open Lib List Function Nat Pool

variable {s : State} {A : Pool} {m : Mem} {n a : Nat}

/-! ## Objects do not come back -/

/-- The bytes that pushing objects onto a bucket list writes are bytes of links. -/
theorem pushObjects_bytes (idx : Nat) (objs : List Nat) (s : State) (k : Nat) :
    (objs.foldl (pushObject idx) s).mem k = s.mem k ∨ ∃ o ∈ objs, ∃ d < 8, k = o + d ∧
      ∃ v, (v = s.buckets idx ∨ v ∈ objs) ∧
        (objs.foldl (pushObject idx) s).mem k = UInt8.ofNat (v / 256 ^ d) := by
  induction objs generalizing s with
  | nil => exact .inl rfl
  | cons o objs ih =>
    rw [foldl_cons]
    rcases ih (pushObject idx s o) with he | ⟨o', ho', d, hd, hk, v, hv, he⟩
    · rw [he]
      by_cases hin : o ≤ k ∧ k < o + 8
      · refine .inr ⟨o, by simp, k - o, by omega, by omega, s.buckets idx, .inl rfl, ?_⟩
        exact if_pos hin
      · exact .inl (if_neg hin)
    · refine .inr ⟨o', by simp [ho'], d, hd, hk, v, ?_, he⟩
      rcases hv with rfl | hv
      · exact .inr (by simp [pushObject])
      · exact .inr (by simp [hv])

lemma takeFirst_last {us : List Block} {t : Block} (hus : ∀ b ∈ us, b.free = false)
    (ht : t.Fits n) : takeFirst n (us ++ [t]) = some (t.addr, us ++ t.cut n) := by
  induction us with
  | nil => simp [takeFirst, ht]
  | cons b us ih =>
    have hb : ¬ b.Fits n := fun hf => by simp [Block.Fits, hus b (by simp)] at hf
    rw [cons_append, takeFirst, if_neg hb, ih fun c hc => hus c (by simp [hc])]
    rfl

lemma blockMagic_byte {b : Nat} (h : blockMagic m b = heapMagic) : m (b + 35) = 0xDE := by
  have := (m (b + 32)).toNat_lt
  have := (m (b + 33)).toNat_lt
  have := (m (b + 34)).toNat_lt
  unfold blockMagic heapMagic at h
  simp only [Mem.read, show b + 32 + 1 = b + 33 from rfl, show b + 33 + 1 = b + 34 from rfl,
    show b + 34 + 1 = b + 35 from rfl] at h
  refine UInt8.toNat_inj.mp ?_
  change (m (b + 35)).toNat = 222
  omega

def freshRegion : Extent := ⟨0xffff800004000000, 0xffff800008000000⟩

/-- A heap in which nothing but objects of one bucket has been handed out: pages that were
taken for the bucket, the free rest `t`, and the objects `objs` left on the list. In front of
none of them stands the magic number. -/
structure Eating (idx : Nat) (s : State) (A : Pool) (us : List Block) (t : Block)
    (objs : List Nat) : Prop where
  refines : Refines s A
  regions : A.regions = [freshRegion]
  blocks : A.blocks = us ++ [t]
  chain : A.chain = update (fun _ => []) idx objs
  large : A.large = []
  used : ∀ b ∈ us, b.free = false
  free : t.free = true
  marks : ∀ o ∈ objs, s.mem (o - 13) ≠ 0xDE

section Eating

variable {idx size : Nat} {us : List Block} {t : Block} {objs : List Nat}

lemma Eating.mem_freeBytes (h : Eating idx s A us t objs) :
    a ∈ s.freeBytes ↔ t.Covers a ∨ ∃ o ∈ objs, o ≤ a ∧ a < o + bucketSize idx := by
  rw [h.refines.freeBytes_eq]
  change (FreeIn A.blocks a ∨ _) ↔ _
  rw [h.blocks, freeIn_append, freeIn_cons, h.chain]
  have hus : ¬ FreeIn us a := fun ⟨b, hb, hf, _⟩ => by simp [h.used b hb] at hf
  have hnil : ¬ FreeIn [] a := fun ⟨b, hb, _⟩ => by simp at hb
  refine or_congr (by simp [hus, hnil, h.free]) ⟨?_, ?_⟩
  · rintro ⟨i, o, ho, hin⟩
    by_cases hi : i = idx
    · subst hi
      rw [update_self] at ho
      exact ⟨o, ho, hin⟩
    · simp [update_of_ne hi] at ho
  · rintro ⟨o, ho, hin⟩
    exact ⟨idx, o, by simpa using ho, hin⟩

lemma Eating.buckets_eq (h : Eating idx s A us t objs) : s.buckets idx = 0 ↔ objs = [] := by
  obtain ⟨l, slots, chain, hrep, rfl⟩ := h.refines
  rw [hrep.bucket_eq_zero idx, ← State.pool_chain s l chain, h.chain, update_self]

/-- An object that is handed out and freed is gone. -/
theorem Eating.pop {o : Nat} (h : Eating idx s A us t (o :: objs))
    (hidx : bucketIndex size = some idx) (h0 : size ≠ 0) :
    RoundSafe size s ∧ Eating idx (round size s) (A.round size) us t objs := by
  have hb : s.buckets idx ≠ 0 := fun he => by simpa using h.buckets_eq.mp he
  have hchain : A.chain idx = o :: objs := by rw [h.chain, update_self]
  have hk : A.kmalloc size = (o, { A with
      chain := update A.chain idx objs
      small := ⟨o, bucketSize idx⟩ :: A.small }) := by
    unfold Pool.kmalloc
    simp [if_neg h0, hidx, hchain, Pool.pop]
  obtain ⟨hp, h'⟩ := kmalloc_refines h.refines size
  have hmem : (kmalloc s size).2.mem = s.mem := by
    unfold kmalloc
    rw [if_neg h0, hidx]
    dsimp only
    rw [if_neg hb, if_pos hb]
  have hlarge : (kmalloc s size).2.large = [] := by
    obtain ⟨l, slots, chain, -, he⟩ := h'
    rw [← State.pool_large _ l chain, ← he, hk]
    exact h.large
  have : headerSize ≤ o := by
    obtain ⟨l, slots, chain, hrep, rfl⟩ := h.refines
    obtain ⟨b, hbl, -, -, hholds⟩ := hrep.slabs.held _ (hrep.slabs.chain_slot idx o (by
      rw [show chain idx = o :: objs from hchain]
      simp))
    unfold Block.Holds Block.payload at hholds
    dsimp only at hholds
    omega
  have hmagic : blockMagic (kmalloc s size).2.mem (o - headerSize) ≠ heapMagic := by
    intro hm
    refine h.marks o (by simp) ?_
    rw [hmem] at hm
    have := blockMagic_byte hm
    rwa [show o - headerSize + 35 = o - 13 by unfold headerSize at *; omega] at this
  have hsafe : RoundSafe size s := by
    intro _
    rw [hp, hk]
    refine ⟨fun hl => ?_, fun _ => hmagic⟩
    rw [hlarge] at hl
    cases hl
  have hround : A.round size = (A.kmalloc size).2 := by
    unfold Pool.round Pool.kfree
    rw [hk]
    simp [h.large]
  have hstate : round size s = (kmalloc s size).2 := by
    unfold round
    rw [hp, hk]
    unfold kfree
    rw [if_pos hmagic, ite_self]
  have href := round_refines h.refines hsafe
  rw [hround, hk] at href ⊢
  refine ⟨hsafe, href, h.regions, h.blocks, by simp [h.chain], h.large, h.used, h.free, ?_⟩
  rw [hstate, hmem]
  exact fun o' ho' => h.marks o' (by simp [ho'])

/-- A page for the bucket: no object has the magic number in front of it, since the page is
clear but for links, and links are addresses of the region. -/
theorem Eating.refill (h : Eating idx s A us t []) (hroom : 4160 < t.size) (h8 : 8 ≤ bucketSize idx)
    (hdvd : 8 ∣ bucketSize idx) :
    Eating idx (bucketRefill s idx) (A.refill idx) (us ++ [⟨t.addr, 4096, false⟩])
      ⟨t.addr + headerSize + 4096, t.size - 4096 - headerSize, true⟩
      (objects (t.addr + headerSize) idx).reverse := by
  have : alignUp Pmm.pageSize = 4096 := by decide
  have hcut : t.cut 4096 = [⟨t.addr, 4096, false⟩,
      ⟨t.addr + headerSize + 4096, t.size - 4096 - headerSize, true⟩] := by
    unfold Block.cut
    rw [if_pos (by unfold headerSize heapAlign; omega)]
  have htake : takeFirst (alignUp Pmm.pageSize) A.blocks = some (t.addr, us ++ t.cut 4096) := by
    rw [h.blocks]
    exact takeFirst_last h.used ⟨h.free, by omega⟩
  have hA : A.refill idx = { A with
      blocks := us ++ t.cut 4096
      chain := update A.chain idx
        ((objects (t.addr + headerSize) idx).reverse ++ A.chain idx) } := by
    unfold Pool.refill
    rw [htake]
  have href := bucketRefill_refines h.refines h8
  rw [hA] at href ⊢
  refine ⟨href, h.regions, by simp [hcut], by simp [h.chain], h.large, ?_, rfl, ?_⟩
  · intro b hb
    rcases mem_append.mp hb with hb | hb
    · exact h.used b hb
    · rw [mem_singleton.mp hb]
  · intro o ho
    rw [mem_reverse] at ho
    have hzero : s.buckets idx = 0 := h.buckets_eq.mpr rfl
    have hregions := h.regions
    have hblocks := h.blocks
    obtain ⟨l, slots, chain, hrep, rfl⟩ := h.refines
    -- The page lies in the region.
    have hrange : freshRegion.start ≤ t.addr ∧ t.addr + t.span ≤ freshRegion.stop := by
      obtain ⟨r, hr, hin⟩ := hrep.blocks.tiling.mem_range (b := t) (by
        rw [show l = us ++ [t] from hblocks]
        simp)
      rw [show s.regions = _ from hregions, mem_singleton] at hr
      exact hr ▸ hin
    have hobj : ∀ o ∈ objects (t.addr + headerSize) idx, ∃ i,
        o = t.addr + headerSize + heapAlign + i * bucketSize idx ∧
          t.addr + headerSize + heapAlign ≤ o ∧
            o + bucketSize idx ≤ t.addr + headerSize + 4096 := by
      intro o ho
      have hholds := (objects_spec idx (x := ⟨t.addr, 4096, false⟩) le_rfl).1 o ho
      obtain ⟨i, -, rfl⟩ := mem_map.mp ho
      exact ⟨i, rfl, by omega, hholds.2⟩
    have hmem : ∃ m1, (bucketRefill s idx).mem =
        ((objects (t.addr + headerSize) idx).foldl (pushObject idx)
          { s with mem := m1 }).mem ∧
        ∀ k, t.addr + headerSize ≤ k → k < t.addr + headerSize + 4096 → m1 k = 0 := by
      refine ⟨(takeBlock s.mem t.addr 4096).fill (t.addr + headerSize) 4096 0, ?_,
        fun k h1 h2 => if_pos ⟨h1, h2⟩⟩
      unfold bucketRefill
      rw [heapAllocRaw_eq hrep htake]
      dsimp only
      rw [max_eq_left h8]
      rfl
    obtain ⟨m1, hm, hclear⟩ := hmem
    obtain ⟨i, hi, hlo, hhi⟩ := hobj o ho
    rw [hm]
    unfold freshRegion Block.span at hrange
    dsimp only at hrange
    rcases pushObjects_bytes idx (objects (t.addr + headerSize) idx) { s with mem := m1 }
      (o - 13) with he | ⟨o', ho', d, hd, hk, v, hv, he⟩
    · rw [he]
      dsimp only
      unfold heapAlign at hlo
      rw [hclear _ (by omega) (by omega)]
      decide
    · obtain ⟨j, hj, hlo', -⟩ := hobj o' ho'
      obtain ⟨w, hw⟩ := hdvd
      have hd3 : d = 3 := by
        rw [hw, mul_left_comm] at hi hj
        omega
      subst hd3
      rw [he]
      have : v = 0 ∨ (0xffff800004000000 ≤ v ∧ v < 0xffff800008000000) := by
        rcases hv with rfl | hv
        · exact .inl hzero
        · obtain ⟨-, -, h1, h2⟩ := hobj v hv
          exact .inr ⟨by omega, by omega⟩
      intro hbad
      have : v / 256 ^ 3 % 256 = 0xDE := by
        have := congrArg UInt8.toNat hbad
        simpa using this
      omega

/-- With one region, blocks are joined inside it. -/
theorem mergesInside_of_region {r : Extent} (h : Refines s A) (hr : A.regions = [r]) {b : Block}
    (hb : b ∈ A.blocks) : MergesInside s.mem s.regions b.addr := by
  obtain ⟨l, slots, chain, hrep, rfl⟩ := h
  have hin : ∀ c ∈ l, r.Mem c.addr := by
    intro c hc
    obtain ⟨r', hr', h1, h2⟩ := hrep.blocks.tiling.mem_range hc
    rw [show s.regions = [r] from hr, mem_singleton] at hr'
    have := c.span_pos
    exact hr' ▸ ⟨h1, by omega⟩
  obtain ⟨pre, post, rfl⟩ := append_of_mem hb
  have hself := hin b (by simp)
  have hmem : r ∈ s.regions := by rw [show s.regions = [r] from hr]; simp
  refine ⟨fun hn _ => ?_, fun hn _ => ?_⟩
  · obtain ⟨y, ps, rfl, hy⟩ := hrep.blocks.next_mem hn
    exact ⟨r, hmem, hself, hy ▸ hin y (by simp)⟩
  · obtain ⟨y, ps, rfl, hy⟩ := hrep.blocks.prev_mem hn
    exact ⟨r, hmem, hself, hy ▸ hin y (by simp)⟩

/-- The page for the bucket of 4096 bytes is gone at once; the block that is taken after it
comes back. -/
theorem Eating.page (h : Eating idx s A us t []) (hidx : bucketIndex size = some idx)
    (h0 : size ≠ 0) (hroom : 8320 ≤ t.size) (h4096 : bucketSize idx = 4096) :
    RoundSafe size s ∧ Eating idx (round size s) (A.round size) (us ++ [⟨t.addr, 4096, false⟩])
      ⟨t.addr + headerSize + 4096, t.size - 4096 - headerSize, true⟩ [] := by
  have h1 := h.refill (by omega) (by omega) (by omega)
  have hempty : (objects (t.addr + headerSize) idx).reverse = [] := by
    unfold objects
    rw [h4096]
    rfl
  rw [hempty] at h1
  generalize hus' : us ++ [⟨t.addr, 4096, false⟩] = us' at *
  generalize ht' :
    (⟨t.addr + headerSize + 4096, t.size - 4096 - headerSize, true⟩ : Block) = t' at *
  -- The block path takes the rest of the block.
  have : alignUp size ≤ 4096 := by
    have := (bucketIndex_spec hidx).1
    unfold alignUp u64 heapAlign
    omega
  have hsize : alignUp size + headerSize + heapAlign < t'.size := by
    rw [← ht']
    unfold headerSize heapAlign
    dsimp only
    omega
  have hcut : t'.cut (alignUp size) = [⟨t'.addr, alignUp size, false⟩,
      ⟨t'.addr + headerSize + alignUp size, t'.size - alignUp size - headerSize, true⟩] :=
    if_pos hsize
  have htake : takeFirst (alignUp size) (A.refill idx).blocks =
      some (t'.addr, us' ++ t'.cut (alignUp size)) := by
    rw [h1.blocks]
    exact takeFirst_last h1.used ⟨h1.free, by omega⟩
  have hk : A.kmalloc size = (t'.addr + headerSize, { A.refill idx with
      blocks := us' ++ t'.cut (alignUp size)
      large := (t'.addr + headerSize) :: (A.refill idx).large }) := by
    have hc : A.chain idx = [] := by rw [h.chain, update_self]
    have hc' : (A.refill idx).chain idx = [] := by rw [h1.chain, update_self]
    unfold Pool.kmalloc Pool.pop
    simp [if_neg h0, hidx, hc, hc', Pool.kmallocBlock, htake]
  obtain ⟨hp, h'⟩ := kmalloc_refines h.refines size
  have haddr : t'.addr + headerSize - headerSize = t'.addr := Nat.add_sub_cancel ..
  have hmem : (⟨t'.addr, alignUp size, false⟩ : Block) ∈ (A.kmalloc size).2.blocks := by
    rw [hk, hcut]
    simp
  have hsafe : RoundSafe size s := by
    intro _
    rw [hp, hk]
    refine ⟨fun _ => ?_, fun hl => absurd ?_ hl⟩
    · exact mergesInside_of_region (b := ⟨t'.addr, alignUp size, false⟩) h'
        (by rw [hk]; exact h1.regions) hmem
    · obtain ⟨l, slots, chain, -, he⟩ := h'
      rw [← State.pool_large _ l chain, ← he, hk]
      simp
  have hrelease : release t'.addr (us' ++ t'.cut (alignUp size)) = us' ++ [t'] := by
    have hnd : ∀ b ∈ us', b.addr ≠ t'.addr := by
      obtain ⟨l, slots, chain, hrep, he⟩ := h1.refines
      have hl : l = us' ++ [t'] := by rw [← h1.blocks, he]; rfl
      rw [hl] at hrep
      exact fun b hb hbt => hrep.blocks.ne_of_split.1 b hb
        (inj_on_of_nodup_map hrep.blocks.nodup (by simp [hb]) (by simp) hbt)
    have hself : release t'.addr (t'.cut (alignUp size)) = [t'] := by
      have hfree := h1.free
      have hspan : alignUp size + (headerSize + (t'.size - alignUp size - headerSize)) =
          t'.size := by omega
      rw [hcut, release, joinNext]
      simp [Block.span, hspan, ← hfree]
    obtain ⟨ps, x, rfl⟩ : ∃ ps x, us' = ps ++ [x] := ⟨us, _, hus'.symm⟩
    have hxfree : x.free = false := h1.used x (by simp)
    have hx : x.addr ≠ t'.addr := hnd x (by simp)
    rw [append_assoc, append_assoc, singleton_append, singleton_append,
      release_append (fun b hb => hnd b (by simp [hb])) hx, release, if_neg hx,
      if_neg (by simp [hxfree]), hself]
  have hround : A.round size = { A.refill idx with
      blocks := us' ++ [t']
      large := (A.refill idx).large } := by
    unfold Pool.round Pool.kfree
    rw [hk]
    simp [hrelease]
  have href := round_refines h.refines hsafe
  rw [hround] at href ⊢
  exact ⟨hsafe, href, h1.regions, rfl, h1.chain, h1.large, h1.used, h1.free, by simp⟩

lemma Eating.freeBytes_finite (h : Eating idx s A us t objs) : s.freeBytes.Finite := by
  rw [h.refines.freeBytes_eq]
  exact h.refines.freeBytes_finite

end Eating

/-! ## Many rounds -/

/-- The round took at least `k` bytes and gave none back. -/
structure Eats (size k : Nat) (s : State) : Prop where
  safe : RoundSafe size s
  finite : s.freeBytes.Finite
  subset : (round size s).freeBytes ⊆ s.freeBytes
  eaten : k ≤ (s.freeBytes \ (round size s).freeBytes).ncard

/-- If every round takes `k` bytes, `n` rounds take `n * k`. -/
theorem lost_of_eats {P : State → Nat → Prop} {size k : Nat}
    (hstep : ∀ s n, P s (n + 1) → Eats size k s ∧ P (round size s) n) (h : P s n) :
    (∀ i < n, RoundSafe size ((round size)^[i] s)) ∧
      ((round size)^[n] s).freeBytes ⊆ s.freeBytes ∧ n * k ≤ lost size n s := by
  induction n generalizing s with
  | zero => simp
  | succ n ih =>
    obtain ⟨⟨hsafe, hfin, hsub, heat⟩, hP⟩ := hstep s n h
    obtain ⟨hsafe', hsub', hlost⟩ := ih hP
    refine ⟨fun i hi => ?_, hsub'.trans hsub, ?_⟩
    · cases i with
      | zero => exact hsafe
      | succ i => exact hsafe' i (by omega)
    · unfold lost at *
      rw [iterate_succ_apply]
      generalize round size s = s₁ at *
      generalize (round size)^[n] s₁ = s₂ at *
      have hunion : (s.freeBytes \ s₁.freeBytes) ∪ (s₁.freeBytes \ s₂.freeBytes) ⊆
          s.freeBytes \ s₂.freeBytes := by
        rintro a (⟨h1, h2⟩ | ⟨h1, h2⟩)
        · exact ⟨h1, fun h3 => h2 (hsub' h3)⟩
        · exact ⟨hsub h1, h2⟩
      have hdisj : Disjoint (s.freeBytes \ s₁.freeBytes) (s₁.freeBytes \ s₂.freeBytes) :=
        Set.disjoint_left.mpr fun a h1 h2 => h1.2 h2.1
      calc (n + 1) * k = k + n * k := by ring
        _ ≤ (s.freeBytes \ s₁.freeBytes).ncard + (s₁.freeBytes \ s₂.freeBytes).ncard := by omega
        _ = ((s.freeBytes \ s₁.freeBytes) ∪ (s₁.freeBytes \ s₂.freeBytes)).ncard :=
          (Set.ncard_union_eq hdisj hfin.sdiff (hfin.subset hsub).sdiff).symm
        _ ≤ (s.freeBytes \ s₂.freeBytes).ncard := Set.ncard_le_ncard hunion hfin.sdiff

lemma le_ncard_of_range {S : Set Nat} {o k : Nat} (hS : S.Finite)
    (h : ∀ a, o ≤ a → a < o + k → a ∈ S) : k ≤ S.ncard := by
  have hsub : Set.Ico o (o + k) ⊆ S := fun a ha => h a ha.1 ha.2
  have hcard : (Set.Ico o (o + k)).ncard = k := by
    rw [← Finset.coe_Ico, Set.ncard_coe_finset, card_Ico, Nat.add_sub_cancel_left]
  exact hcard ▸ Set.ncard_le_ncard hsub hS

section Rounds

variable {idx size : Nat} {us : List Block} {t : Block} {objs : List Nat}

lemma Eating.eats {o : Nat} (h : Eating idx s A us t (o :: objs))
    (hidx : bucketIndex size = some idx) (h0 : size ≠ 0) : Eats size (bucketSize idx) s := by
  obtain ⟨hsafe, h'⟩ := h.pop hidx h0
  refine ⟨hsafe, h.freeBytes_finite, fun a ha => ?_, ?_⟩
  · rw [h'.mem_freeBytes] at ha
    rw [h.mem_freeBytes]
    exact ha.imp_right fun ⟨o', ho', hin⟩ => ⟨o', by simp [ho'], hin⟩
  · refine le_ncard_of_range (o := o) h.freeBytes_finite.sdiff fun a h1 h2 => ⟨?_, fun ha => ?_⟩
    · exact h.mem_freeBytes.mpr (.inr ⟨o, by simp, h1, h2⟩)
    · have hchain : A.chain idx = o :: objs := by rw [h.chain, update_self]
      have hblocks := h.blocks
      obtain ⟨l, slots, chain, hrep, rfl⟩ := h.refines
      have hmem : ∀ o' ∈ o :: objs, (⟨o', bucketSize idx⟩ : Slot) ∈ slots := fun o' ho' =>
        hrep.slabs.chain_slot idx o' (by rwa [show chain idx = o :: objs from hchain])
      rcases h'.mem_freeBytes.mp ha with ht | ⟨o', ho', h3, h4⟩
      · obtain ⟨c, hc, hcf, -, hholds⟩ := hrep.slabs.held _ (hmem o (by simp))
        have hct : c ≠ t := fun he => by simp [he, h.free] at hcf
        unfold Block.Holds at hholds
        dsimp only at hholds
        refine hrep.blocks.stores_covers hc ⟨by omega, by omega⟩ ?_ hct ht
        rw [show l = us ++ [t] from hblocks]
        simp
      · have hnd := hrep.slabs.nodup idx
        rw [show chain idx = o :: objs from hchain] at hnd
        rcases hrep.slabs.apart _ (hmem o (by simp)) _ (hmem o' (by simp [ho'])) with he | hap
        · obtain ⟨rfl, -⟩ := Slot.mk.inj he
          exact (nodup_cons.mp hnd).1 ho'
        · unfold Slot.Apart at hap
          dsimp only at hap
          omega

lemma Eating.refill_subset (h : Eating idx s A us t []) (hroom : 4160 < t.size)
    (h8 : 8 ≤ bucketSize idx) (hdvd : 8 ∣ bucketSize idx) :
    (bucketRefill s idx).freeBytes ⊆ s.freeBytes := by
  intro a ha
  rw [h.mem_freeBytes]
  left
  rcases (h.refill hroom h8 hdvd).mem_freeBytes.mp ha with ht | ⟨o, ho, h1, h2⟩
  · unfold Block.Covers Block.span headerSize at *
    dsimp only at ht
    omega
  · have hholds := (objects_spec idx (x := ⟨t.addr, 4096, false⟩) le_rfl).1 o
      (mem_reverse.mp ho)
    unfold Block.Holds Block.payload at hholds
    unfold Block.Covers Block.span headerSize at *
    dsimp only at hholds
    omega

/-- A round that finds no object does what it does after the refill. -/
theorem kmalloc_refill (hidx : bucketIndex size = some idx) (h0 : size ≠ 0)
    (hempty : s.buckets idx = 0) (hfull : (bucketRefill s idx).buckets idx ≠ 0) :
    kmalloc s size = kmalloc (bucketRefill s idx) size := by
  unfold kmalloc
  rw [if_neg h0, if_neg h0, hidx]
  dsimp only
  rw [if_pos hempty, if_neg hfull]

/-- Enough memory for `n` more rounds with the bucket `idx`, of which every page serves
`(4096 - 16) / bucketSize idx`. -/
def Rounds (idx : Nat) (s : State) (n : Nat) : Prop :=
  ∃ A us t objs k, Eating idx s A us t objs ∧ 4160 * k + 8320 ≤ t.size ∧
    n ≤ objs.length + k * ((Pmm.pageSize - heapAlign) / bucketSize idx)

lemma Rounds.step (hidx : bucketIndex size = some idx) (h0 : size ≠ 0) (h8 : 8 ≤ bucketSize idx)
    (hdvd : 8 ∣ bucketSize idx) (s : State) (n : Nat) (h : Rounds idx s (n + 1)) :
    Eats size (bucketSize idx) s ∧ Rounds idx (round size s) n := by
  obtain ⟨A, us, t, objs, k, h, hroom, hn⟩ := h
  cases objs with
  | cons o objs =>
    refine ⟨h.eats hidx h0, _, us, t, objs, k, (h.pop hidx h0).2, hroom, ?_⟩
    simp only [length_cons] at hn
    omega
  | nil =>
    simp only [length_nil] at hn
    obtain ⟨k, rfl⟩ : ∃ j, k = j + 1 := ⟨k - 1, by
      rcases Nat.eq_zero_or_pos k with rfl | hk
      · simp at hn
      · omega⟩
    have h1 := h.refill (by omega) h8 hdvd
    have hsub := h.refill_subset (by omega) h8 hdvd
    have hlen : (objects (t.addr + headerSize) idx).reverse.length =
        (Pmm.pageSize - heapAlign) / bucketSize idx := by simp [objects]
    generalize (objects (t.addr + headerSize) idx).reverse = objs at *
    generalize hcnt : (Pmm.pageSize - heapAlign) / bucketSize idx = cnt at *
    cases objs with
    | nil =>
      obtain rfl : cnt = 0 := hlen.symm
      simp at hn
    | cons o objs =>
      have hk := kmalloc_refill hidx h0 (h.buckets_eq.mpr rfl)
        fun he => by simpa using h1.buckets_eq.mp he
      have hround : round size s = round size (bucketRefill s idx) := by
        unfold round
        rw [hk]
      obtain ⟨hsafe, -, hsub', heaten⟩ := h1.eats hidx h0
      refine ⟨⟨?_, h.freeBytes_finite, ?_, ?_⟩, ?_⟩
      · unfold RoundSafe at *
        rwa [hk]
      · rw [hround]
        exact hsub'.trans hsub
      · rw [hround]
        exact heaten.trans (Set.ncard_le_ncard (Set.sdiff_subset_sdiff_left hsub)
          h.freeBytes_finite.sdiff)
      · rw [hround]
        refine ⟨_, _, _, objs, k, (h1.pop hidx h0).2, ?_, ?_⟩
        · unfold headerSize
          dsimp only
          omega
        · rw [hcnt]
          rw [length_cons] at hlen
          rw [add_mul] at hn
          omega

/-- Enough memory for `n` more rounds with the bucket of 4096 bytes. -/
def PageRounds (idx : Nat) (s : State) (n : Nat) : Prop :=
  ∃ A us t, Eating idx s A us t [] ∧ 4160 * n + 8320 ≤ t.size

lemma PageRounds.step (hidx : bucketIndex size = some idx) (h0 : size ≠ 0)
    (h4096 : bucketSize idx = 4096) (s : State) (n : Nat) (h : PageRounds idx s (n + 1)) :
    Eats size 4096 s ∧ PageRounds idx (round size s) n := by
  obtain ⟨A, us, t, h, hroom⟩ := h
  obtain ⟨hsafe, h'⟩ := h.page hidx h0 (by omega) h4096
  have hin : ∀ a ∈ (round size s).freeBytes, Block.Covers _ a := fun a ha =>
    (h'.mem_freeBytes.mp ha).resolve_right (by simp)
  simp only [Block.Covers, Block.span, headerSize] at hin
  refine ⟨⟨hsafe, h.freeBytes_finite, fun a ha => ?_, ?_⟩, _, _, _, h', ?_⟩
  · have := hin a ha
    refine h.mem_freeBytes.mpr (.inl ?_)
    unfold Block.Covers Block.span headerSize
    omega
  · refine le_ncard_of_range (o := t.addr) h.freeBytes_finite.sdiff
      fun a h1 h2 => ⟨?_, fun ha => ?_⟩
    · refine h.mem_freeBytes.mpr (.inl ⟨h1, ?_⟩)
      unfold Block.span
      omega
    · have := hin a ha
      omega
  · unfold headerSize
    dsimp only
    omega

end Rounds

/-! ## The property -/

/-- Some bound holds for the bytes that any number of rounds takes from any heap. Memory is
finite, so the bound has to be less than what the heap grows by at a time to say anything. -/
def Bounded (size : Nat) : Prop :=
  ∃ B < heapExpandPages * Pmm.pageSize, ∀ s, Reached s → ∀ n,
    (∀ i < n, RoundSafe size ((round size)^[i] s)) → lost size n s ≤ B

/-- Rounds with any other size take a quarter of a fresh heap. -/
theorem lost_small {size : Nat} (h0 : size ≠ 0) (hsize : size ≤ 4096) : ∃ s, Reached s ∧ ∃ n,
    (∀ i < n, RoundSafe size ((round size)^[i] s)) ∧
      heapExpandPages * Pmm.pageSize ≤ lost size n s := by
  obtain ⟨s, hstart, h, hregions⟩ := freshHeap
  have hreached : Reached s := ⟨s, [], hstart, trivial, rfl⟩
  obtain ⟨idx, hidx⟩ : ∃ idx, bucketIndex size = some idx := by
    rw [← Option.isSome_iff_exists, bucketIndex]
    simpa [bucketSizes] using by omega
  have heat : Eating idx s _ [] ⟨0xffff800004000000, 67108816, true⟩ [] :=
    ⟨h, hregions, rfl, by simp, rfl, by simp, rfl, by simp⟩
  have : idx < 10 := (findIdx?_eq_some_iff_getElem.mp hidx).1
  by_cases h9 : idx = 9
  · subst h9
    obtain ⟨hsafe, -, hlost⟩ := lost_of_eats (PageRounds.step hidx h0 rfl) (n := 8192)
      ⟨_, _, _, heat, by decide⟩
    exact ⟨s, hreached, _, hsafe, le_trans (by decide) hlost⟩
  · have hall : ∀ i < 9, 8 ≤ bucketSize i ∧ 8 ∣ bucketSize i ∧
        2048 ≤ (Pmm.pageSize - heapAlign) / bucketSize i * bucketSize i := by decide
    obtain ⟨h8, hdvd, hcnt⟩ := hall idx (by omega)
    obtain ⟨hsafe, -, hlost⟩ := lost_of_eats (Rounds.step hidx h0 h8 hdvd)
      (n := 8192 * ((Pmm.pageSize - heapAlign) / bucketSize idx))
      ⟨_, _, _, [], 8192, heat, by decide, by simp⟩
    refine ⟨s, hreached, _, hsafe, le_trans ?_ hlost⟩
    rw [mul_assoc]
    calc heapExpandPages * Pmm.pageSize = 8192 * 2048 := by decide
      _ ≤ _ := mul_le_mul_left _ hcnt

/-- Rounds of `kmalloc` and `kfree` take a bounded amount of memory exactly for the sizes that
no bucket serves. -/
theorem bounded_iff {size : Nat} (h0 : 1 ≤ size) : Bounded size ↔ 4096 < size := by
  constructor
  · rintro ⟨B, hB, hall⟩
    by_contra hsize
    obtain ⟨s, hs, n, hsafe, hlost⟩ := lost_small (by omega) (not_lt.mp hsize)
    have := hall s hs n hsafe
    omega
  · intro hsize
    refine ⟨0, by decide, fun s hs n hsafe => ?_⟩
    obtain ⟨A, h⟩ := hs.formed.refines
    exact (lost_large hsize h hsafe).le

theorem bounded_iff_page : Bounded 5000 ∧ ¬ Bounded 4096 :=
  ⟨(bounded_iff (by decide)).mpr (by decide), fun h =>
    absurd ((bounded_iff (by decide)).mp h) (by decide)⟩

/-- Eight bytes at a time. -/
theorem kfree_leaks : ∃ s, Reached s ∧ ∃ n, (∀ i < n, RoundSafe 8 ((round 8)^[i] s)) ∧
    heapExpandPages * Pmm.pageSize ≤ lost 8 n s :=
  lost_small (by decide) (by decide)

end YamKernel.Heap

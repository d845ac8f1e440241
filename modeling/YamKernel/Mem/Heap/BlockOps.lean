import Mathlib.Data.List.Perm.Subperm
import YamKernel.Mem.Heap.Pool

/-!
# Operations on the block list

What taking a block, freeing a block and adding a region do to the list of blocks, and
which bytes of memory they touch: headers of blocks and, when a block is taken, bytes of
that block.
-/

namespace YamKernel.Heap

open Lib List Block

variable {m m' : Mem} {head n : Nat} {regions : List Extent} {l pre post : List Block}
  {x y : Block}

/-! ## Walks -/

lemma firstFit_eq {fuel b : Nat} {p q : Option Nat}
    (hs : DSeg (nextBlock m) (prevBlock m) p (ptr b) (l.map addr) q none)
    (hin : ∀ x ∈ l, x.In m) (hfuel : l.length ≤ fuel) :
    firstFit fuel m b n = ((takeFirst n l).elim .none fun out => .block out.1) := by
  induction l generalizing fuel b p with
  | nil =>
    obtain rfl : b = 0 := ptr_eq_none.mp hs.2.symm
    cases fuel <;> rfl
  | cons x l ih =>
    obtain ⟨fuel, rfl⟩ : ∃ k, fuel = k + 1 := ⟨fuel - 1, by simp at hfuel; omega⟩
    obtain ⟨hb, -, hs⟩ := hs
    obtain ⟨rfl, hne⟩ := ptr_eq_some.mp hb
    obtain ⟨hsize, hfree, hmagic⟩ := hin x (by simp)
    rw [firstFit, if_neg hne, if_neg (not_not.mpr hmagic), hsize, hfree, takeFirst]
    by_cases hfit : x.Fits n
    · rw [if_pos hfit]
      exact if_pos hfit
    · rw [if_neg hfit]
      refine (if_neg hfit).trans ((ih hs (fun y hy => hin y (by simp [hy])) ?_).trans ?_)
      · simpa using hfuel
      · cases takeFirst n l <;> rfl

lemma Blocks.length_le (h : Blocks m head regions l) : l.length ≤ 2 ^ 64 := by
  have hsub : l.map addr ⊆ List.range (2 ^ 64) := by
    intro a ha
    obtain ⟨b, hb, rfl⟩ := mem_map.mp ha
    have := (h.range hb).2
    unfold payload at this
    exact mem_range.mpr (by omega)
  have := (h.nodup.subperm hsub).length_le
  rwa [length_map, length_range] at this

lemma Blocks.firstFit (h : Blocks m head regions l) :
    Heap.firstFit (2 ^ 64) m head n = ((takeFirst n l).elim .none fun out => .block out.1) := by
  obtain ⟨q, hs⟩ := h.links
  exact firstFit_eq hs h.fields h.length_le

lemma lastBlock_eq {fuel b z : Nat} {l : List Nat} {p q : Option Nat}
    (hs : DSeg (nextBlock m) (prevBlock m) p (ptr b) (l ++ [z]) q none) (hfuel : l.length < fuel) :
    lastBlock fuel m b = z := by
  induction l generalizing fuel b p with
  | nil =>
    obtain ⟨fuel, rfl⟩ : ∃ k, fuel = k + 1 := ⟨fuel - 1, by omega⟩
    obtain ⟨hb, -, -, hnext⟩ := hs
    obtain ⟨rfl, -⟩ := ptr_eq_some.mp hb
    have hnext : blockNext m b = 0 := ptr_eq_none.mp hnext.symm
    simp [lastBlock, hnext]
  | cons c l ih =>
    obtain ⟨fuel, rfl⟩ : ∃ k, fuel = k + 1 := ⟨fuel - 1, by omega⟩
    obtain ⟨hb, -, hs⟩ := hs
    obtain ⟨rfl, -⟩ := ptr_eq_some.mp hb
    have hne : blockNext m b ≠ 0 := by
      intro h0
      have : nextBlock m b = none := ptr_eq_none.mpr h0
      rw [this] at hs
      cases l <;> exact absurd hs.1 (by simp)
    rw [lastBlock, if_pos hne]
    exact ih hs (by simpa using hfuel)

lemma Blocks.lastBlock (h : Blocks m head regions (pre ++ [x])) :
    Heap.lastBlock (2 ^ 64) m head = x.addr := by
  obtain ⟨q, hs⟩ := h.links
  rw [map_append] at hs
  refine lastBlock_eq hs ?_
  have := h.length_le
  rw [length_append, length_singleton] at this
  rw [length_map]
  omega

/-! ## Taking a block -/

def Block.Covers (b : Block) (a : Nat) : Prop := b.addr ≤ a ∧ a < b.addr + b.span

lemma Blocks.take (h : Blocks m head regions (pre ++ x :: post)) (hn : n ≤ x.size) :
    Blocks (takeBlock m x.addr n) head regions (pre ++ (x.cut n ++ post)) ∧
      ∀ a, ¬ x.Covers a → (∀ b ∈ pre ++ post, ¬ InHeader b.addr a) →
        takeBlock m x.addr n a = m a := by
  have hx := h.fields x (by simp)
  have hr := h.range (b := x) (by simp)
  have hcover : ∀ a, ¬ x.Covers a → ¬ InHeader x.addr a := by
    intro a ha hin
    unfold Block.Covers Block.span at ha
    unfold InHeader at hin
    omega
  have hwrap : u64 (n + headerSize + heapAlign) = n + headerSize + heapAlign := by
    unfold payload Pmm.pageSize at hr
    refine u64_of_lt ?_
    unfold headerSize heapAlign at *
    omega
  unfold takeBlock Block.cut
  rw [hx.1, hwrap]
  split_ifs
  · have hn' : n + headerSize ≤ x.size := by omega
    have happart : blockNext m x.addr ≠ 0 →
        HeadersApart x.addr (blockNext m x.addr) ∧
        HeadersApart (x.addr + headerSize + n) (blockNext m x.addr) := by
      intro hw
      obtain ⟨z, ps, rfl, hz⟩ := h.next_mem hw
      have hne : x ≠ z := fun he => h.ne_of_split.2 z (by simp) he.symm
      have hap := (h.eq_or_apart (by simp) (by simp)).resolve_left hne
      unfold Block.span at hap
      unfold HeadersApart
      omega
    have hcuts := splitBlock_cuts (by rw [hx.1]; exact hn')
      (by unfold payload at hr; omega) (fun hw => (happart hw).1) fun hw => (happart hw).2
    refine ⟨(h.cut hcuts hn').setFree false, fun a ha hother => ?_⟩
    have htail : ¬ InHeader (x.addr + headerSize + n) a := by
      unfold Block.Covers Block.span at ha
      unfold InHeader
      omega
    rw [setFree_frame (hcover a ha), hcuts.frame a (hcover a ha) htail]
    intro hw
    obtain ⟨z, ps, rfl, hz⟩ := h.next_mem hw
    exact hz ▸ hother z (by simp)
  · exact ⟨h.setFree false, fun a ha _ => setFree_frame (hcover a ha) false⟩

/-! ## Freeing a block -/

def SameRegion (regions : List Extent) (a b : Nat) : Prop := ∃ r ∈ regions, r.Mem a ∧ r.Mem b

instance (regions : List Extent) (a b : Nat) : Decidable (SameRegion regions a b) :=
  inferInstanceAs (Decidable (∃ r ∈ regions, _))

lemma SameRegion.symm {a b : Nat} (h : SameRegion regions a b) : SameRegion regions b a := by
  obtain ⟨r, hr, ha, hb⟩ := h
  exact ⟨r, hr, hb, ha⟩

lemma Blocks.absorbs_size (h : Blocks m head regions (pre ++ x :: y :: post))
    (hs : SameRegion regions x.addr y.addr) :
    blockSize m x.addr + (headerSize + blockSize m y.addr) < 2 ^ 64 := by
  have hx := h.fields x (by simp)
  have hy := h.fields y (by simp)
  have hr := h.range (b := y) (by simp)
  have hadj := (h.tiling.join h.apart span_pos hs (d := ⟨x.addr, x.size + y.span, true⟩)
    rfl (by simp only [Block.span]; omega)).1
  unfold payload at hr
  unfold Block.span at hadj
  rw [hx.1, hy.1]
  omega

/-- What joining two neighbours does; `merge` is either direction of it. -/
theorem Blocks.merge (h : Blocks m head regions (pre ++ x :: y :: post)) (m' : Mem)
    (hs : SameRegion regions x.addr y.addr)
    (ha : HeadersApart x.addr y.addr →
      (blockNext m y.addr ≠ 0 → HeadersApart x.addr (blockNext m y.addr)) →
      blockSize m x.addr + (headerSize + blockSize m y.addr) < 2 ^ 64 →
      Absorbs m m' x.addr y.addr) :
    Blocks m' head regions (pre ++ ⟨x.addr, x.size + y.span, x.free⟩ :: post) ∧
      ∀ a, (∀ b ∈ pre ++ x :: y :: post, ¬ InHeader b.addr a) → m' a = m a := by
  have h' : Blocks m head regions ((pre ++ [x]) ++ y :: post) := by simpa using h
  have hxy : x ≠ y := fun he => h.ne_of_split.2 y (by simp) he.symm
  have habs := ha (h.headersApart (by simp) (by simp) hxy) (fun hw => ?_) (h.absorbs_size hs)
  · refine ⟨h.absorb habs hs, fun a hout => habs.frame a (hout x (by simp)) fun hw => ?_⟩
    obtain ⟨z, ps, rfl, hz⟩ := h'.next_mem hw
    exact hz ▸ hout z (by simp)
  · obtain ⟨z, ps, rfl, hz⟩ := h'.next_mem hw
    rw [← hz]
    exact h.headersApart (by simp) (by simp) fun he => h.ne_of_split.2 z (by simp) he.symm

lemma Blocks.mergeNext (h : Blocks m head regions (pre ++ x :: post))
    (hs : blockNext m x.addr ≠ 0 → blockFree m (blockNext m x.addr) = true →
      SameRegion regions x.addr (blockNext m x.addr)) :
    Blocks (Heap.mergeNext m x.addr) head regions (pre ++ joinNext x post) ∧
      ∀ a, (∀ b ∈ pre ++ x :: post, ¬ InHeader b.addr a) → Heap.mergeNext m x.addr a = m a := by
  by_cases hc : blockNext m x.addr ≠ 0 ∧ blockFree m (blockNext m x.addr) = true
  · obtain ⟨y, ps, rfl, hy⟩ := h.next_mem hc.1
    have hin := h.fields y (by simp)
    have hfree : y.free = true := hin.2.1.symm.trans (hy ▸ hc.2)
    obtain ⟨hb, hframe⟩ := h.merge (mergeNext m x.addr) (hy ▸ hs hc.1 hc.2)
      fun h1 h2 h3 => mergeNext_absorbs h1 h2 (by
        have := (h.range (b := x) (by simp)).2
        unfold payload at this
        omega) h3 hy.symm (hy ▸ hc.1) (hy ▸ hc.2)
    exact ⟨by rw [joinNext, if_pos hfree]; exact hb, hframe⟩
  · have he : Heap.mergeNext m x.addr = m := if_neg hc
    have hj : joinNext x post = x :: post := by
      cases post with
      | nil => rfl
      | cons y ps =>
        have hnext : blockNext m x.addr = y.addr := (ptr_eq_some.mp (by simpa using h.next_eq)).1
        have := h.addr_pos (b := y) (by simp)
        rw [joinNext, if_neg]
        rw [hnext, (h.fields y (by simp)).2.1] at hc
        exact fun hf => hc ⟨by omega, hf⟩
    rw [he, hj]
    exact ⟨h, fun a _ => rfl⟩

lemma Blocks.mergePrev (h : Blocks m head regions (pre ++ x :: post)) (hx : x.free = true)
    (hs : blockPrev m x.addr ≠ 0 → blockFree m (blockPrev m x.addr) = true →
      SameRegion regions x.addr (blockPrev m x.addr)) :
    (∀ ps y, pre = ps ++ [y] → Blocks (Heap.mergePrev m x.addr) head regions
        (ps ++ if y.free then joinNext y (x :: post) else y :: x :: post)) ∧
      (pre = [] → Blocks (Heap.mergePrev m x.addr) head regions (x :: post)) ∧
      ∀ a, (∀ b ∈ pre ++ x :: post, ¬ InHeader b.addr a) → Heap.mergePrev m x.addr a = m a := by
  by_cases hc : blockPrev m x.addr ≠ 0 ∧ blockFree m (blockPrev m x.addr) = true
  · obtain ⟨y, ps, rfl, hy⟩ := h.prev_mem hc.1
    have hin := h.fields y (by simp)
    have hfree : y.free = true := hin.2.1.symm.trans (hy ▸ hc.2)
    have h' : Blocks m head regions (ps ++ y :: x :: post) := by simpa using h
    obtain ⟨hb, hframe⟩ := h'.merge (mergePrev m x.addr) (hy ▸ (hs hc.1 hc.2).symm)
      fun h1 h2 h3 => mergePrev_absorbs h1 h2 (by
        have := (h'.range (b := y) (by simp)).2
        unfold payload at this
        omega) h3 hy.symm (hy ▸ hc.1) (hy ▸ hc.2)
    refine ⟨fun ps' y' he => ?_, by simp, by simpa using hframe⟩
    obtain ⟨rfl, hy'⟩ := append_inj' he rfl
    obtain rfl := singleton_inj.mp hy'
    rw [if_pos hfree, joinNext, if_pos hx]
    exact hb
  · have he : Heap.mergePrev m x.addr = m := if_neg hc
    rw [he]
    refine ⟨?_, fun hpre => by simpa [hpre] using h, fun a _ => rfl⟩
    rintro ps y rfl
    have hprev : blockPrev m x.addr = y.addr := (ptr_eq_some.mp (by simpa using h.prev_eq)).1
    have := h.addr_pos (b := y) (by simp)
    rw [if_neg]
    · simpa using h
    · rw [hprev, (h.fields y (by simp)).2.1] at hc
      exact fun hf => hc ⟨by omega, hf⟩

/-- Every merge that freeing block `b` leads to stays inside a region. -/
def MergesInside (m : Mem) (regions : List Extent) (b : Nat) : Prop :=
  (blockNext m b ≠ 0 → blockFree m (blockNext m b) = true →
    SameRegion regions b (blockNext m b)) ∧
  (blockPrev m b ≠ 0 → blockFree m (blockPrev m b) = true →
    SameRegion regions b (blockPrev m b))

instance (m : Mem) (regions : List Extent) (b : Nat) : Decidable (MergesInside m regions b) :=
  inferInstanceAs (Decidable (_ ∧ _))

lemma ptr_inj {a b : Nat} (h : ptr a = ptr b) : a = b := by
  by_cases ha : a = 0
  · subst ha
    exact (ptr_eq_none.mp h.symm).symm
  · exact (ptr_eq_some.mp ((ptr_of_ne ha).symm.trans h).symm).1.symm

lemma Blocks.free (h : Blocks m head regions (pre ++ x :: post))
    (hs : MergesInside m regions x.addr) :
    Blocks (Heap.mergePrev (Heap.mergeNext (Heap.setFree m x.addr true) x.addr) x.addr)
        head regions (release x.addr (pre ++ x :: post)) ∧
      ∀ a, (∀ b ∈ pre ++ x :: post, ¬ InHeader b.addr a) →
        Heap.mergePrev (Heap.mergeNext (Heap.setFree m x.addr true) x.addr) x.addr a = m a := by
  have h1 := h.setFree true
  have hframe1 : ∀ a, ¬ InHeader x.addr a → Heap.setFree m x.addr true a = m a := fun a ha =>
    setFree_frame ha true
  have haddr : ∀ b ∈ pre, b.addr ≠ x.addr := fun b hb he =>
    h.ne_of_split.1 b hb (inj_on_of_nodup_map h.nodup (by simp [hb]) (by simp) he)
  generalize Heap.setFree m x.addr true = m1 at *
  have hnext : blockNext m1 x.addr = blockNext m x.addr := ptr_inj (h1.next_eq.trans h.next_eq.symm)
  -- The neighbours read the same before and after the block is marked.
  obtain ⟨h2, hframe2⟩ := h1.mergeNext (by
    intro hne hf
    rw [hnext] at hne hf ⊢
    obtain ⟨y, ps, rfl, hy⟩ := h.next_mem hne
    refine hs.1 hne ?_
    rw [← hy] at hf ⊢
    rw [(h.fields y (by simp)).2.1, ← (h1.fields y (by simp)).2.1, hf])
  obtain ⟨k, post2, hj, hpost2⟩ : ∃ k post2, joinNext ⟨x.addr, x.size, true⟩ post =
      ⟨x.addr, k, true⟩ :: post2 ∧ ∀ b ∈ post2, b ∈ post := by
    cases post with
    | nil => exact ⟨x.size, [], rfl, by simp⟩
    | cons y ps =>
      rw [joinNext]
      split_ifs
      · exact ⟨_, ps, rfl, by simp +contextual⟩
      · exact ⟨x.size, y :: ps, rfl, fun b hb => hb⟩
  rw [hj] at h2
  generalize Heap.mergeNext m1 x.addr = m2 at *
  have hprev : blockPrev m2 x.addr = blockPrev m x.addr := ptr_inj (h2.prev_eq.trans h.prev_eq.symm)
  obtain ⟨hjoin, hfirst, hframe3⟩ := h2.mergePrev rfl (by
    intro hne hf
    rw [hprev] at hne hf ⊢
    obtain ⟨y, ps, rfl, hy⟩ := h.prev_mem hne
    refine hs.2 hne ?_
    rw [← hy] at hf ⊢
    rw [(h.fields y (by simp)).2.1, ← (h2.fields y (by simp)).2.1, hf])
  constructor
  · rcases eq_nil_or_concat pre with rfl | ⟨ps, y, rfl⟩
    · rw [nil_append, release_self, hj]
      exact hfirst rfl
    · rw [concat_eq_append] at *
      have hy : y.addr ≠ x.addr := haddr y (by simp)
      have hps : ∀ b ∈ ps, b.addr ≠ x.addr := fun b hb => haddr b (by simp [hb])
      rw [append_assoc, singleton_append, release_append hps hy, release_before hy, hj]
      exact hjoin ps y rfl
  · intro a hout
    have hx := hout x (by simp)
    have hpre : ∀ b ∈ pre, ¬ InHeader b.addr a := fun b hb => hout b (by simp [hb])
    have hpost : ∀ b ∈ post, ¬ InHeader b.addr a := fun b hb => hout b (by simp [hb])
    rw [hframe3 a ?_, hframe2 a ?_, hframe1 a hx]
    · simp only [mem_append, mem_cons]
      rintro b (hb | rfl | hb)
      exacts [hpre b hb, hx, hpost b hb]
    · simp only [mem_append, mem_cons]
      rintro b (hb | rfl | hb)
      exacts [hpre b hb, hx, hpost b (hpost2 b hb)]

/-! ## Adding a region -/

section Region

variable {r : Extent} (h : Blocks m head regions l) (hapart : ∀ r' ∈ regions, r'.Apart r)
  (hlo : Pmm.pageSize ≤ r.start) (hhi : r.stop < 2 ^ 64) (hsize : r.start + headerSize ≤ r.stop)
  (hnew : header m' r.start = ⟨r.stop - r.start - headerSize, true, 0, 0, heapMagic⟩)
  (hframe : ∀ a, ¬ InHeader r.start a → m' a = m a)
include h hapart

lemma Blocks.apart_region {b : Block} (hb : b ∈ l) :
    b.addr + b.span ≤ r.start ∨ r.stop ≤ b.addr := by
  obtain ⟨r', hr', h1, h2⟩ := h.tiling.mem_range hb
  have := hapart r' hr'
  unfold Extent.Apart at this
  omega

include hlo hhi hsize

lemma Blocks.regions_append :
    Tiling addr span (regions ++ [r]) (l ++ [whole r]) ∧
      (regions ++ [r]).Pairwise Extent.Apart ∧
      ∀ r' ∈ regions ++ [r], Pmm.pageSize ≤ r'.start ∧ r'.stop < 2 ^ 64 := by
  refine ⟨h.tiling.append (Tiling.single ⟨rfl, ?_⟩), ?_, fun r' hr' => ?_⟩
  · simp only [Tiles, Block.span, whole]
    omega
  · exact pairwise_append.mpr ⟨h.apart, pairwise_singleton _ _, by simpa using hapart⟩
  · rcases mem_append.mp hr' with hr' | hr'
    · exact h.bounds r' hr'
    · obtain rfl := mem_singleton.mp hr'
      exact ⟨hlo, hhi⟩

include hnew

lemma Blocks.start (hl : l = []) : Blocks m' r.start (regions ++ [r]) [whole r] := by
  subst hl
  obtain ⟨ht, ha, hb⟩ := h.regions_append hapart hlo hhi hsize
  have hne : r.start ≠ 0 := (lt_of_lt_of_le (by decide) hlo).ne'
  refine ⟨⟨some r.start, ptr_of_ne hne, ?_, rfl, ?_⟩, ?_, ht, ha, hb⟩
  · simp [prevBlock, whole, hnew]
  · simp [nextBlock, whole, hnew]
  · intro b hb
    obtain rfl := mem_singleton.mp hb
    exact Block.In.of_header hnew

include hframe

lemma Blocks.append (hl : l = pre ++ [x]) :
    Blocks (setPrev (setNext m' x.addr r.start) r.start x.addr) head (regions ++ [r])
      (l ++ [whole r]) := by
  subst hl
  have hr := h.range (b := x) (by simp)
  have hpos := h.addr_pos (b := x) (by simp)
  have hne : r.start ≠ 0 := (lt_of_lt_of_le (by decide) hlo).ne'
  have hcross : ∀ b ∈ pre ++ [x], HeadersApart b.addr r.start := by
    intro b hb
    have := h.apart_region hapart hb
    unfold Block.span at this
    unfold HeadersApart
    omega
  have hold : ∀ b ∈ pre ++ [x], header m' b.addr = header m b.addr := by
    intro b hb
    refine header_congr fun a h1 h2 => hframe a fun hin => ?_
    have := hcross b hb
    unfold HeadersApart at this
    unfold InHeader at hin
    omega
  have hx := hcross x (by simp)
  have hself : header (setPrev (setNext m' x.addr r.start) r.start x.addr) x.addr =
      { header m x.addr with next := r.start } := by
    rw [header_setPrev hx, header_setNext_self (by omega), hold x (by simp)]
  have htail : header (setPrev (setNext m' x.addr r.start) r.start x.addr) r.start =
      ⟨r.stop - r.start - headerSize, true, 0, x.addr, heapMagic⟩ := by
    rw [header_setPrev_self (by unfold payload at hr; omega), header_setNext hx.symm, hnew]
  have hpre : ∀ b ∈ pre, header (setPrev (setNext m' x.addr r.start) r.start x.addr) b.addr =
      header m b.addr := by
    intro b hb
    have hbx : HeadersApart b.addr x.addr :=
      h.headersApart (by simp [hb]) (by simp) (h.ne_of_split.1 b hb)
    rw [header_setPrev (hcross b (by simp [hb])), header_setNext hbx, hold b (by simp [hb])]
  obtain ⟨ht, ha, hb⟩ := h.regions_append hapart hlo hhi hsize
  have hin := h.fields x (by simp)
  have h' : Blocks m head regions (pre ++ x :: ([] ++ [])) := by simpa using h
  have ht' : Tiling addr span (regions ++ [r]) (pre ++ x :: ([whole r] ++ [])) := by
    simpa using ht
  have := h'.edit x [whole r] (some r.start) rfl ⟨?_, ?_, rfl, ?_⟩ ?_ ?_ ?_ hpre (by simp)
    ht' ha hb
  · simpa using this
  · simp only [nextBlock, hself]
    exact ptr_of_ne hne
  · simp only [prevBlock, whole, htail]
    exact ptr_of_ne hpos.ne'
  · simp [nextBlock, whole, htail]
  · simp [prevBlock, hself]
  · refine hin.congr ?_ ?_ ?_ <;> rw [hself]
  · intro b hb
    obtain rfl := mem_singleton.mp hb
    exact Block.In.of_header htail

end Region

end YamKernel.Heap

import YamKernel.Mem.Heap.BlockOps
import YamKernel.Mem.Pmm.Bounds

/-!
# The state of the heap

`Rep s l slots chain` says what the state `s` stands for: the blocks `l`, the bucket
objects `slots` ever carved out of them, and for each bucket the objects on its list. The
objects lie in blocks that are in use but belong to no caller, so nothing a caller stores
can reach a header or a bucket list.
-/

namespace YamKernel.Heap

open Lib List Block

/-! ## Bytes of blocks -/

section Bytes

variable {m : Mem} {head a : Nat} {regions : List Extent} {l : List Block} {b c : Block}

def Block.Stores (b : Block) (a : Nat) : Prop := b.payload ≤ a ∧ a < b.payload + b.size

section

variable (h : Blocks m head regions l)
include h

lemma Blocks.stores_header (hb : b ∈ l) (ha : b.Stores a) (hc : c ∈ l) : ¬ InHeader c.addr a := by
  rcases h.eq_or_apart hb hc with rfl | hap
  · unfold Block.Stores payload at ha
    unfold InHeader
    omega
  · unfold Block.Stores payload at ha
    unfold Block.span at hap
    unfold InHeader
    omega

lemma Blocks.stores_covers (hb : b ∈ l) (ha : b.Stores a) (hc : c ∈ l) (hne : b ≠ c) :
    ¬ c.Covers a := by
  have hap := (h.eq_or_apart hb hc).resolve_left hne
  unfold Block.Stores payload at ha
  unfold Block.span at hap
  unfold Block.Covers Block.span
  omega

lemma Blocks.payload_inj (hb : b ∈ l) (hc : c ∈ l) (he : b.payload = c.payload) : b = c := by
  have := b.span_pos
  have := c.span_pos
  rcases h.eq_or_apart hb hc with he | hap
  · exact he
  · unfold payload at he
    omega

end

end Bytes

/-! ## Bucket objects -/

def nextObject (m : Mem) (a : Nat) : Option Nat := ptr (m.read a 8)

lemma nextObject_congr {m m' : Mem} {a : Nat} (h : ∀ k, a ≤ k → k < a + 8 → m' k = m k) :
    nextObject m' a = nextObject m a := by
  unfold nextObject
  rw [Mem.read_congr h]

def Block.Holds (b : Block) (x : Slot) : Prop :=
  b.payload ≤ x.addr ∧ x.addr + x.size ≤ b.payload + b.size

def Slot.Apart (x y : Slot) : Prop := x.addr + x.size ≤ y.addr ∨ y.addr + y.size ≤ x.addr

/-- The objects of the buckets: which there are, which are on a list, which handed out. -/
structure Slabs (m : Mem) (buckets : Nat → Nat) (large : List Nat) (small : List Slot)
    (l : List Block) (slots : List Slot) (chain : Nat → List Nat) : Prop where
  chained : ∀ i, Chain (nextObject m) (ptr (buckets i)) (chain i)
  nodup : ∀ i, (chain i).Nodup
  chain_slot : ∀ i, ∀ a ∈ chain i, (⟨a, bucketSize i⟩ : Slot) ∈ slots
  chain_inj : ∀ i j a, a ∈ chain i → a ∈ chain j → i = j
  small_slot : ∀ x ∈ small, x ∈ slots
  small_chain : ∀ x ∈ small, ∀ i, x.addr ∉ chain i
  size_pos : ∀ x ∈ slots, 8 ≤ x.size
  apart : ∀ x ∈ slots, ∀ y ∈ slots, x = y ∨ x.Apart y
  held : ∀ x ∈ slots, ∃ b ∈ l, b.free = false ∧ b.payload ∉ large ∧ b.Holds x

section Slabs

variable {m m' : Mem} {buckets : Nat → Nat} {large large' : List Nat} {small : List Slot}
  {l l' : List Block} {slots : List Slot} {chain : Nat → List Nat}

/-- The slabs depend on the links of the listed objects and on the blocks that hold them. -/
theorem Slabs.transport (h : Slabs m buckets large small l slots chain)
    (hm : ∀ i, ∀ a ∈ chain i, ∀ k, a ≤ k → k < a + 8 → m' k = m k)
    (hl : ∀ b ∈ l, b.free = false → b.payload ∉ large → b ∈ l' ∧ b.payload ∉ large') :
    Slabs m' buckets large' small l' slots chain := by
  refine ⟨fun i => (h.chained i).frame fun a ha => nextObject_congr (hm i a ha), h.nodup,
    h.chain_slot, h.chain_inj, h.small_slot, h.small_chain, h.size_pos, h.apart, ?_⟩
  intro x hx
  obtain ⟨b, hb, hfree, hlarge, hholds⟩ := h.held x hx
  obtain ⟨hb', hlarge'⟩ := hl b hb hfree hlarge
  exact ⟨b, hb', hfree, hlarge', hholds⟩

/-- The link of a listed object lies in a block that is in use and belongs to no caller. -/
theorem Slabs.link_stored (h : Slabs m buckets large small l slots chain) {i a k : Nat}
    (ha : a ∈ chain i) (h1 : a ≤ k) (h2 : k < a + 8) :
    ∃ b ∈ l, b.free = false ∧ b.payload ∉ large ∧ b.Stores k := by
  have hx := h.chain_slot i a ha
  obtain ⟨b, hb, hfree, hlarge, hlo, hhi⟩ := h.held _ hx
  have hsize := h.size_pos _ hx
  dsimp only at hlo hhi hsize
  exact ⟨b, hb, hfree, hlarge, by omega, by omega⟩

end Slabs

/-! ## The invariant -/

/-- The regions are memory the physical allocator handed out, below the end of memory. -/
structure Source (pmm : Pmm.State) (hhdm : Nat) (regions : List Extent) : Prop where
  good : Pmm.Good pmm
  roof : ∃ limit, Pmm.Within limit pmm ∧ limit + hhdm < 2 ^ 64
  obtained : ∀ r ∈ regions, ∃ base size, Pmm.Allocated pmm base size ∧
    r.start = base + hhdm ∧ r.stop ≤ r.start + size

structure Rep (s : State) (l : List Block) (slots : List Slot) (chain : Nat → List Nat) : Prop where
  source : Source s.pmm s.hhdm s.regions
  blocks : Blocks s.mem s.head s.regions l
  slabs : Slabs s.mem s.buckets s.large s.small l slots chain
  large : ∀ p ∈ s.large, ∃ b ∈ l, b.free = false ∧ b.payload = p
  large_nodup : s.large.Nodup

def State.OwnsRange (s : State) (lo hi : Nat) : Prop :=
  (∃ p ∈ s.large, p ≤ lo ∧ hi ≤ p + blockSize s.mem (p - headerSize)) ∨
    ∃ x ∈ s.small, x.addr ≤ lo ∧ hi ≤ x.addr + x.size

section Rep

variable {s : State} {l : List Block} {slots : List Slot} {chain : Nat → List Nat}

section

variable (h : Rep s l slots chain)
include h

lemma Rep.large_block {p : Nat} (hp : p ∈ s.large) :
    ∃ b ∈ l, b.free = false ∧ b.payload = p ∧ p - headerSize = b.addr ∧
      blockSize s.mem (p - headerSize) = b.size := by
  obtain ⟨b, hb, hfree, rfl⟩ := h.large p hp
  have he : b.payload - headerSize = b.addr := Nat.add_sub_cancel ..
  exact ⟨b, hb, hfree, rfl, he, by rw [he, (h.blocks.fields b hb).1]⟩

lemma Rep.write (lo hi : Nat) (ho : s.OwnsRange lo hi) {m' : Mem}
    (hm : ∀ k, ¬ (lo ≤ k ∧ k < hi) → m' k = s.mem k) : Rep { s with mem := m' } l slots chain := by
  have houtside : (∀ c ∈ l, ∀ k, InHeader c.addr k → ¬ (lo ≤ k ∧ k < hi)) ∧
      ∀ i, ∀ a ∈ chain i, ∀ k, a ≤ k → k < a + 8 → ¬ (lo ≤ k ∧ k < hi) := by
    rcases ho with ⟨p, hp, h1, h2⟩ | ⟨x, hx, h1, h2⟩
    · obtain ⟨b, hb, -, rfl, -, hsize⟩ := h.large_block hp
      refine ⟨fun c hc k hk hin => h.blocks.stores_header hb ⟨by omega, by omega⟩ hc hk, ?_⟩
      intro i a ha k hk1 hk2 hin
      obtain ⟨c, hc, -, hlarge, hst⟩ := h.slabs.link_stored ha hk1 hk2
      have hne : b ≠ c := fun he => hlarge (he ▸ hp)
      refine h.blocks.stores_covers (a := k) hb ⟨by omega, by omega⟩ hc hne ?_
      unfold Block.Stores payload at hst
      unfold Block.Covers Block.span
      omega
    · obtain ⟨b, hb, -, -, hlo, hhi⟩ := h.slabs.held x (h.slabs.small_slot x hx)
      refine ⟨fun c hc k hk hin => h.blocks.stores_header hb ⟨by omega, by omega⟩ hc hk, ?_⟩
      intro i a ha k hk1 hk2 hin
      have hslot := h.slabs.chain_slot i a ha
      have hsize := h.slabs.size_pos _ hslot
      rcases h.slabs.apart x (h.slabs.small_slot x hx) _ hslot with rfl | hap
      · exact h.slabs.small_chain _ hx i ha
      · unfold Slot.Apart at hap
        dsimp only at hap hsize
        omega
  refine ⟨h.source, h.blocks.frame fun c hc k hk => hm k (houtside.1 c hc k hk), ?_, h.large,
    h.large_nodup⟩
  exact h.slabs.transport (fun i a ha k h1 h2 => hm k (houtside.2 i a ha k h1 h2))
    fun b hb _ hlarge => ⟨hb, hlarge⟩

lemma Rep.holds_inj {b c : Block} {y : Slot} (hb : b ∈ l) (hc : c ∈ l) (hy : y ∈ slots)
    (hby : b.Holds y) (hcy : c.Holds y) : b = c := by
  have := h.slabs.size_pos y hy
  rcases h.blocks.eq_or_apart hb hc with he | hap
  · exact he
  · unfold Block.Holds payload at hby hcy
    unfold Block.span at hap
    omega

lemma Rep.writeBlock {x : Block} (hx : x ∈ l) (hslab : ∀ y ∈ slots, ¬ x.Holds y) {m' : Mem}
    (hm : ∀ k, ¬ x.Stores k → m' k = s.mem k) : Rep { s with mem := m' } l slots chain := by
  refine ⟨h.source, ?_, ?_, h.large, h.large_nodup⟩
  · exact h.blocks.frame fun c hc k hk => hm k fun hst => h.blocks.stores_header hx hst hc hk
  · refine h.slabs.transport (fun i a ha k h1 h2 => hm k fun hst => ?_)
      fun b hb _ hlarge => ⟨hb, hlarge⟩
    have hslot := h.slabs.chain_slot i a ha
    have hsize := h.slabs.size_pos _ hslot
    obtain ⟨c, hc, -, -, hholds⟩ := h.slabs.held _ hslot
    have hcx : c ≠ x := fun he => hslab _ hslot (he ▸ hholds)
    have hap := (h.blocks.eq_or_apart hc hx).resolve_left hcx
    unfold Block.Stores payload at hst
    unfold Block.Holds payload at hholds
    unfold Block.span at hap
    dsimp only at hholds hsize
    omega

/-! ## Taking and freeing blocks -/

/-- What taking a block leaves: the new block is in use, and everything that was in use
before is untouched. -/
theorem Rep.take {a n : Nat} {l' : List Block} (ht : takeFirst n l = some (a, l')) :
    ∃ x ∈ l', x.addr = a ∧ x.free = false ∧ n ≤ x.size ∧ x.payload ∉ s.large ∧
      (∀ y ∈ slots, ¬ x.Holds y) ∧
      Rep { s with mem := takeBlock s.mem a n } l' slots chain := by
  obtain ⟨pre, y, post, rfl, -, ⟨hfree, hn⟩, rfl, rfl⟩ := takeFirst_eq_some ht
  obtain ⟨hb, hframe⟩ := h.blocks.take hn
  obtain ⟨k, mid, hcut, hxn, -, hmid⟩ := cut_eq hn
  generalize hx : (⟨y.addr, k, false⟩ : Block) = x at hcut
  have haddr : x.addr = y.addr := by rw [← hx]
  have hxf : x.free = false := by rw [← hx]
  replace hxn : n ≤ x.size := by rw [← hx]; exact hxn
  simp only [hcut] at hb ⊢
  have hkeep : ∀ c ∈ pre ++ y :: post, c.free = false →
      c ∈ pre ++ x :: (mid ++ post) ∧ c ≠ x ∧ c ≠ y := by
    intro c hc hcf
    have hcy : c ≠ y := fun he => by simp [he, hfree] at hcf
    refine ⟨?_, fun he => ?_, hcy⟩
    · grind
    · exact hcy (h.blocks.payload_inj hc (by simp) (by unfold payload; rw [he, haddr]))
  have hrep : Rep { s with mem := takeBlock s.mem y.addr n } (pre ++ x :: (mid ++ post)) slots
      chain := by
    refine ⟨h.source, hb, ?_, ?_, h.large_nodup⟩
    · refine h.slabs.transport (fun i a ha k h1 h2 => ?_) fun c hc hcf hlarge =>
        ⟨(hkeep c hc hcf).1, hlarge⟩
      obtain ⟨c, hc, hcf, -, hst⟩ := h.slabs.link_stored ha h1 h2
      refine hframe k (h.blocks.stores_covers hc hst (by simp) (hkeep c hc hcf).2.2) fun d hd => ?_
      refine h.blocks.stores_header hc hst ?_
      rcases mem_append.mp hd with hd | hd <;> simp [hd]
    · intro p hp
      obtain ⟨c, hc, hcf, he⟩ := h.large p hp
      exact ⟨c, (hkeep c hc hcf).1, hcf, he⟩
  refine ⟨x, by simp, haddr, hxf, hxn, fun hp => ?_, fun z hz hxz => ?_, hrep⟩
  · obtain ⟨c, hc, hcf, he⟩ := h.large _ hp
    obtain ⟨hc', hne, -⟩ := hkeep c hc hcf
    exact hne (hb.payload_inj hc' (by simp) he)
  · obtain ⟨c, hc, hcf, -, hcz⟩ := h.slabs.held z hz
    obtain ⟨hc', hne, -⟩ := hkeep c hc hcf
    exact hne (hrep.holds_inj hc' (by simp) hz hcz hxz)

lemma Rep.handOut {x : Block} (hx : x ∈ l) (hfree : x.free = false) (hnew : x.payload ∉ s.large)
    (hslab : ∀ y ∈ slots, ¬ x.Holds y) :
    Rep { s with large := x.payload :: s.large } l slots chain := by
  refine ⟨h.source, h.blocks, ?_, ?_, nodup_cons.mpr ⟨hnew, h.large_nodup⟩⟩
  · refine ⟨h.slabs.chained, h.slabs.nodup, h.slabs.chain_slot, h.slabs.chain_inj,
      h.slabs.small_slot, h.slabs.small_chain, h.slabs.size_pos, h.slabs.apart, fun y hy => ?_⟩
    obtain ⟨b, hb, hbf, hlarge, hholds⟩ := h.slabs.held y hy
    refine ⟨b, hb, hbf, ?_, hholds⟩
    rw [mem_cons, not_or]
    refine ⟨fun he => hslab y hy ?_, hlarge⟩
    rwa [← h.blocks.payload_inj hb hx he]
  · intro p hp
    rcases mem_cons.mp hp with rfl | hp
    · exact ⟨x, hx, hfree, rfl⟩
    · exact h.large p hp

lemma Rep.kfree {p : Nat} (hp : p ∈ s.large)
    (hs : MergesInside s.mem s.regions (p - headerSize)) :
    Heap.kfree s p = { s with mem := (kfree s p).mem, large := s.large.erase p } ∧
      Rep (kfree s p) (release (p - headerSize) l) slots chain := by
  obtain ⟨x, hx, hfree, hpay, haddr, -⟩ := h.large_block hp
  obtain ⟨pre, post, rfl⟩ := append_of_mem hx
  have hin := h.blocks.fields x hx
  rw [haddr] at hs ⊢
  obtain ⟨hb, hframe⟩ := h.blocks.free hs
  have hpre : ∀ b ∈ pre, b.addr ≠ x.addr := fun b hb he => h.blocks.ne_of_split.1 b hb
    (inj_on_of_nodup_map h.blocks.nodup (by simp [hb]) (by simp) he)
  have hne : p ≠ 0 := by
    have := h.blocks.addr_pos hx
    omega
  have he : kfree s p = { s with
      mem := mergePrev (mergeNext (setFree s.mem x.addr true) x.addr) x.addr
      large := s.large.erase p } := by
    simp [kfree, hne, haddr, hin.2.2, hin.2.1, hfree]
  rw [he]
  have hkeep : ∀ c ∈ pre ++ x :: post, c.free = false → c ≠ x →
      c ∈ release x.addr (pre ++ x :: post) := by
    intro c hc hcf hcx
    rw [mem_release hpre hcf]
    grind
  refine ⟨rfl, h.source, hb, ?_, ?_, h.large_nodup.erase p⟩
  · refine h.slabs.transport (fun i a ha k h1 h2 => ?_) fun c hc hcf hlarge => ?_
    · obtain ⟨c, hc, -, -, hst⟩ := h.slabs.link_stored ha h1 h2
      exact hframe k fun d hd => h.blocks.stores_header hc hst hd
    · have hcx : c ≠ x := fun he => hlarge (by rw [he, hpay]; exact hp)
      exact ⟨hkeep c hc hcf hcx, fun hm => hlarge (mem_of_mem_erase hm)⟩
  · intro q hq
    obtain ⟨hqp, hq⟩ := (Nodup.mem_erase_iff h.large_nodup).mp hq
    obtain ⟨c, hc, hcf, rfl⟩ := h.large q hq
    exact ⟨c, hkeep c hc hcf fun he => hqp (by rw [he, hpay]), hcf, rfl⟩

end

end Rep

end YamKernel.Heap

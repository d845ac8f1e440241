import Mathlib.Data.List.Nodup
import Mathlib.Data.List.Pairwise
import YamKernel.Lib.DList
import YamKernel.Mem.Heap.Model

/-!
# The block list

`Blocks m head regions l`: memory holds the blocks `l`, linked both ways from `head`, and
they tile the regions. Taking a block, cutting its tail off, joining two neighbours of one
region and appending a region keep this, each with the list it should have.
-/

namespace YamKernel.Heap

open Lib List Nat Mem

/-! ## Headers -/

section Fields

-- Outside of this section headers are read and written through its lemmas only.
attribute [local semireducible] blockSize blockFree blockNext blockPrev blockMagic
attribute [local semireducible] setSize setFree setNext setPrev setMagic

structure Header where
  size : Nat
  free : Bool
  next : Nat
  prev : Nat
  magic : Nat

def header (m : Mem) (b : Nat) : Header :=
  ⟨blockSize m b, blockFree m b, blockNext m b, blockPrev m b, blockMagic m b⟩

lemma blockNext_of_header {m : Mem} {b : Nat} {hd : Header} (h : header m b = hd) :
    blockNext m b = hd.next := congrArg Header.next h

def HeadersApart (a b : Nat) : Prop := a + headerSize ≤ b ∨ b + headerSize ≤ a

lemma HeadersApart.symm {a b : Nat} (h : HeadersApart a b) : HeadersApart b a := Or.symm h

section Header

variable {m m' : Mem} {a b v n : Nat}

lemma header_congr (h : ∀ x, b ≤ x → x < b + headerSize → m' x = m x) :
    header m' b = header m b := by
  have hr : ∀ a n, b ≤ a → a + n ≤ b + headerSize → m'.read a n = m.read a n := fun a n h1 h2 =>
    read_congr fun x h3 h4 => h x (by omega) (by omega)
  unfold headerSize at hr
  simp (disch := omega) only [header, blockSize, blockFree, blockNext, blockPrev, blockMagic, hr]

lemma header_write_of_apart (hv : v ≤ a) (hn : a + n ≤ v + headerSize) (h : HeadersApart b v)
    (w : Nat) : header (m.write a n w) b = header m b := by
  refine header_congr fun x h1 h2 => write_of_notMem ?_
  unfold HeadersApart at h
  omega

lemma header_setSize_self (hv : v < 2 ^ 64) :
    header (setSize m b v) b = { header m b with size := v } := by
  simp (disch := omega) [header, setSize, blockSize, blockFree, blockNext, blockPrev, blockMagic,
    read_write, read_write_of_disjoint]

lemma header_setFree_self (f : Bool) :
    header (setFree m b f) b = { header m b with free := f } := by
  have hf : f.toNat < 256 ^ 1 := by cases f <;> decide
  have hb : (f.toNat != 0) = f := by cases f <;> rfl
  simp [header, setFree, blockSize, blockFree, blockNext, blockPrev, blockMagic, read_write hf,
    read_write_of_disjoint]

lemma header_setNext_self (hv : v < 2 ^ 64) :
    header (setNext m b v) b = { header m b with next := v } := by
  simp (disch := omega) [header, setNext, blockSize, blockFree, blockNext, blockPrev, blockMagic,
    read_write, read_write_of_disjoint]

lemma header_setPrev_self (hv : v < 2 ^ 64) :
    header (setPrev m b v) b = { header m b with prev := v } := by
  simp (disch := omega) [header, setPrev, blockSize, blockFree, blockNext, blockPrev, blockMagic,
    read_write, read_write_of_disjoint]

lemma header_setMagic_self : header (setMagic m b) b = { header m b with magic := heapMagic } := by
  have hm : heapMagic < 256 ^ 4 := by decide
  simp [header, setMagic, blockSize, blockFree, blockNext, blockPrev,
    blockMagic, read_write hm, read_write_of_disjoint]

variable (h : HeadersApart a b)
include h

lemma header_setSize : header (setSize m b v) a = header m a :=
  header_write_of_apart le_rfl (by unfold headerSize; omega) h v

lemma header_setFree (f : Bool) : header (setFree m b f) a = header m a :=
  header_write_of_apart (le_add_right _ _) (by unfold headerSize; omega) h _

lemma header_setNext : header (setNext m b v) a = header m a :=
  header_write_of_apart (le_add_right _ _) (by unfold headerSize; omega) h v

lemma header_setPrev : header (setPrev m b v) a = header m a :=
  header_write_of_apart (le_add_right _ _) (by unfold headerSize; omega) h v

lemma header_setMagic : header (setMagic m b) a = header m a :=
  header_write_of_apart (le_add_right _ _) (by unfold headerSize; omega) h _

end Header

lemma blockSize_lt (m : Mem) (b : Nat) : blockSize m b < 2 ^ 64 := by
  simpa [blockSize] using read_lt m b 8

lemma blockNext_lt (m : Mem) (b : Nat) : blockNext m b < 2 ^ 64 := by
  simpa [blockNext] using read_lt m (b + 16) 8

def InHeader (b x : Nat) : Prop := b ≤ x ∧ x < b + headerSize

section Frame

variable {m : Mem} {b x v : Nat} (h : ¬ InHeader b x)
include h

lemma setSize_frame : setSize m b v x = m x :=
  write_of_notMem (by unfold InHeader headerSize at h; omega)

lemma setFree_frame (f : Bool) : setFree m b f x = m x :=
  write_of_notMem (by unfold InHeader headerSize at h; omega)

lemma setNext_frame : setNext m b v x = m x :=
  write_of_notMem (by unfold InHeader headerSize at h; omega)

lemma setPrev_frame : setPrev m b v x = m x :=
  write_of_notMem (by unfold InHeader headerSize at h; omega)

lemma setMagic_frame : setMagic m b x = m x :=
  write_of_notMem (by unfold InHeader headerSize at h; omega)

end Frame

end Fields

/-! ## What the edits do to headers -/

/-- Block `x` takes over block `y` and its link; the block after `y` points back to `x`. -/
structure Absorbs (m m' : Mem) (x y : Nat) : Prop where
  self : header m' x = { header m x with
    size := blockSize m x + (headerSize + blockSize m y), next := blockNext m y }
  after : blockNext m y ≠ 0 →
    header m' (blockNext m y) = { header m (blockNext m y) with prev := x }
  other : ∀ z, HeadersApart z x → (blockNext m y ≠ 0 → HeadersApart z (blockNext m y)) →
    header m' z = header m z
  frame : ∀ a, ¬ InHeader x a → (blockNext m y ≠ 0 → ¬ InHeader (blockNext m y) a) → m' a = m a

section Absorbs

variable {m : Mem} {x y : Nat} (hxy : HeadersApart x y)
  (hx : blockNext m y ≠ 0 → HeadersApart x (blockNext m y))
  (hlt : x < 2 ^ 64)
  (hsize : blockSize m x + (headerSize + blockSize m y) < 2 ^ 64)
include hx hlt hsize

/-- The size and the forward link of the block that grows are written first. -/
theorem grow_header (m1 : Mem) (hm1 : m1 = setNext (setSize m x
    (u64 (blockSize m x + (headerSize + blockSize m y)))) x (blockNext m y)) :
    Absorbs m (if blockNext m y ≠ 0 then setPrev m1 (blockNext m y) x else m1) x y := by
  have hself : header m1 x = { header m x with
      size := blockSize m x + (headerSize + blockSize m y), next := blockNext m y } := by
    rw [hm1, header_setNext_self (blockNext_lt m y), u64_of_lt hsize, header_setSize_self hsize]
  have hother : ∀ z, HeadersApart z x → header m1 z = header m z := fun z hz => by
    rw [hm1, header_setNext hz, header_setSize hz]
  have hframe : ∀ a, ¬ InHeader x a → m1 a = m a := fun a ha => by
    rw [hm1, setNext_frame ha, setSize_frame ha]
  split_ifs with hw
  · refine ⟨?_, fun _ => ?_, fun z hz hz' => ?_, fun a ha ha' => ?_⟩
    · rw [header_setPrev (hx hw), hself]
    · rw [header_setPrev_self hlt, hother _ (hx hw).symm]
    · rw [header_setPrev (hz' hw), hother z hz]
    · rw [setPrev_frame (ha' hw), hframe a ha]
  · exact ⟨hself, fun hw' => absurd hw' hw, fun z hz _ => hother z hz, fun a ha _ => hframe a ha⟩

include hxy

lemma mergeNext_absorbs (hn : blockNext m x = y) (hy0 : y ≠ 0) (hf : blockFree m y = true) :
    Absorbs m (mergeNext m x) x y := by
  have h1 : blockNext (setSize m x (u64 (blockSize m x + (headerSize + blockSize m y)))) y =
      blockNext m y := blockNext_of_header (header_setSize hxy.symm)
  have h2 : ∀ m1 : Mem, blockNext (setNext m1 x (blockNext m y)) x = blockNext m y := fun m1 =>
    blockNext_of_header (header_setNext_self (blockNext_lt m y))
  simp only [mergeNext, hn, hf, h1, h2, ne_eq, hy0]
  exact grow_header hx hlt hsize _ rfl

lemma mergePrev_absorbs (hp : blockPrev m y = x) (hx0 : x ≠ 0) (hf : blockFree m x = true) :
    Absorbs m (mergePrev m y) x y := by
  have h1 : blockNext (setSize m x (u64 (blockSize m x + (headerSize + blockSize m y)))) y =
      blockNext m y := blockNext_of_header (header_setSize hxy.symm)
  have h2 : ∀ m1 : Mem, blockNext (setNext m1 x (blockNext m y)) y = blockNext m1 y := fun m1 =>
    blockNext_of_header (header_setNext hxy.symm)
  simp only [mergePrev, hp, hf, h1, h2, ne_eq, hx0]
  exact grow_header hx hlt hsize _ rfl

end Absorbs

/-- Block `x` keeps `n` bytes; its tail becomes a free block at `x + headerSize + n`. -/
structure Cuts (m m' : Mem) (x n : Nat) : Prop where
  self : header m' x = { header m x with size := n, next := x + headerSize + n }
  tail : header m' (x + headerSize + n) = {
    size := blockSize m x - n - headerSize
    free := true
    next := blockNext m x
    prev := x
    magic := heapMagic }
  after : blockNext m x ≠ 0 →
    header m' (blockNext m x) = { header m (blockNext m x) with prev := x + headerSize + n }
  other : ∀ z, HeadersApart z x → HeadersApart z (x + headerSize + n) →
    (blockNext m x ≠ 0 → HeadersApart z (blockNext m x)) → header m' z = header m z
  frame : ∀ a, ¬ InHeader x a → ¬ InHeader (x + headerSize + n) a →
    (blockNext m x ≠ 0 → ¬ InHeader (blockNext m x) a) → m' a = m a

lemma splitBlock_cuts {m : Mem} {x n : Nat} (hn : n + headerSize ≤ blockSize m x)
    (hlt : x + headerSize + n < 2 ^ 64) (hx : blockNext m x ≠ 0 → HeadersApart x (blockNext m x))
    (ht : blockNext m x ≠ 0 → HeadersApart (x + headerSize + n) (blockNext m x)) :
    Cuts m (splitBlock m x n) x n := by
  have hsize := blockSize_lt m x
  have hxt : HeadersApart x (x + headerSize + n) := .inl (by omega)
  have htail : sub64 (sub64 (blockSize m x) n) headerSize = blockSize m x - n - headerSize := by
    rw [sub64_of_le (by omega) hsize, sub64_of_le]
  unfold splitBlock
  dsimp only
  generalize hnb : x + headerSize + n = nb at *
  rw [htail]
  -- The five stores that write the new header.
  generalize hm1 : setSize m nb (blockSize m x - n - headerSize) = m1
  have hnext1 : blockNext (setFree m1 nb true) x = blockNext m x := by
    subst hm1
    exact blockNext_of_header ((header_setFree hxt true).trans (header_setSize hxt))
  rw [hnext1]
  generalize hm2 : setMagic (setPrev (setNext (setFree m1 nb true) nb (blockNext m x)) nb x) nb = m2
  have hnew : header m2 nb = ⟨blockSize m x - n - headerSize, true,
      blockNext m x, x, heapMagic⟩ := by
    subst hm2 hm1
    rw [header_setMagic_self, header_setPrev_self (by omega),
      header_setNext_self (blockNext_lt m x),
      header_setFree_self, header_setSize_self (by omega)]
  have hold : ∀ z, HeadersApart z nb → header m2 z = header m z := fun z hz => by
    subst hm2 hm1
    rw [header_setMagic hz, header_setPrev hz, header_setNext hz, header_setFree hz,
      header_setSize hz]
  have hframe : ∀ a, ¬ InHeader nb a → m2 a = m a := fun a ha => by
    subst hm2 hm1
    rw [setMagic_frame ha, setPrev_frame ha, setNext_frame ha, setFree_frame ha, setSize_frame ha]
  have hnext2 : blockNext m2 x = blockNext m x := blockNext_of_header (hold x hxt)
  rw [hnext2]
  split_ifs with hw
  · have hx := hx hw
    have ht := ht hw
    refine ⟨?_, ?_, fun _ => ?_, fun z hz hzn hz' => ?_, fun a ha han ha' => ?_⟩
    · rw [header_setSize_self (by omega), header_setNext_self (by omega), header_setPrev hx,
        hold x hxt, hnb]
    · rw [hnb, header_setSize hxt.symm, header_setNext hxt.symm, header_setPrev ht, hnew]
    · rw [header_setSize hx.symm, header_setNext hx.symm, header_setPrev_self (by omega),
        hold _ ht.symm, hnb]
    · rw [header_setSize hz, header_setNext hz, header_setPrev (hz' hw), hold z (hnb ▸ hzn)]
    · rw [setSize_frame ha, setNext_frame ha, setPrev_frame (ha' hw), hframe a (hnb ▸ han)]
  · refine ⟨?_, ?_, fun hw' => absurd hw' hw, fun z hz hzn hz' => ?_, fun a ha han ha' => ?_⟩
    · rw [header_setSize_self (by omega), header_setNext_self (by omega), hold x hxt, hnb]
    · rw [hnb, header_setSize hxt.symm, header_setNext hxt.symm, hnew]
    · rw [header_setSize hz, header_setNext hz, hold z (hnb ▸ hzn)]
    · rw [setSize_frame ha, setNext_frame ha, hframe a (hnb ▸ han)]

/-! ## The list of blocks -/

/-- A link: 0 is `NULL`. -/
def ptr (a : Nat) : Option Nat := if a = 0 then none else some a

@[simp] theorem ptr_zero : ptr 0 = none := rfl

lemma ptr_of_ne {a : Nat} (h : a ≠ 0) : ptr a = some a := if_neg h

lemma ptr_eq_some {a b : Nat} : ptr a = some b ↔ a = b ∧ b ≠ 0 := by
  unfold ptr
  split_ifs
  · simp only [false_iff]
    omega
  · simp only [Option.some.injEq]
    omega

lemma ptr_eq_none {a : Nat} : ptr a = none ↔ a = 0 := by
  unfold ptr
  split_ifs with h <;> simp [h]

def nextBlock (m : Mem) (b : Nat) : Option Nat := ptr (header m b).next

def prevBlock (m : Mem) (b : Nat) : Option Nat := ptr (header m b).prev

/-- A block: the address of its header, the size of its payload, and whether it is free. -/
structure Block where
  addr : Nat
  size : Nat
  free : Bool
  deriving DecidableEq, Repr

namespace Block

def span (b : Block) : Nat := headerSize + b.size

def payload (b : Block) : Nat := b.addr + headerSize

def In (b : Block) (m : Mem) : Prop :=
  blockSize m b.addr = b.size ∧ blockFree m b.addr = b.free ∧ blockMagic m b.addr = heapMagic

lemma In.of_header {b : Block} {m' : Mem} {next prev : Nat}
    (h : header m' b.addr = ⟨b.size, b.free, next, prev, heapMagic⟩) : b.In m' :=
  ⟨congrArg Header.size h, congrArg Header.free h, congrArg Header.magic h⟩

lemma In.congr {b : Block} {m m' : Mem} (hb : b.In m)
    (hs : (header m' b.addr).size = (header m b.addr).size)
    (hf : (header m' b.addr).free = (header m b.addr).free)
    (hm : (header m' b.addr).magic = (header m b.addr).magic) : b.In m' :=
  ⟨hs.trans hb.1, hf.trans hb.2.1, hm.trans hb.2.2⟩

end Block

/-- The blocks `l` are in memory, linked from `head`, and tile the regions. -/
structure Blocks (m : Mem) (head : Nat) (regions : List Extent) (l : List Block) : Prop where
  links : DList (nextBlock m) (prevBlock m) (ptr head) (l.map Block.addr)
  fields : ∀ b ∈ l, b.In m
  tiling : Tiling Block.addr Block.span regions l
  apart : regions.Pairwise Extent.Apart
  bounds : ∀ r ∈ regions, Pmm.pageSize ≤ r.start ∧ r.stop < 2 ^ 64

def Block.Apart (b c : Block) : Prop := b.addr + b.span ≤ c.addr ∨ c.addr + c.span ≤ b.addr

instance : Std.Symm Block.Apart := ⟨fun _ _ => Or.symm⟩

lemma Block.span_pos (b : Block) : 0 < b.span := Nat.add_pos_left (by decide) _

section Blocks

variable {m m' : Mem} {head n : Nat} {regions : List Extent} {l pre post : List Block}
  {b c x y : Block}

section

variable (h : Blocks m head regions l)
include h

lemma Blocks.range (hb : b ∈ l) : Pmm.pageSize ≤ b.addr ∧ b.payload + b.size < 2 ^ 64 := by
  obtain ⟨r, hr, h1, h2⟩ := h.tiling.mem_range hb
  have := h.bounds r hr
  unfold Block.span at h2
  unfold Block.payload
  omega

lemma Blocks.addr_pos (hb : b ∈ l) : 0 < b.addr :=
  lt_of_lt_of_le (by decide) (h.range hb).1

lemma Blocks.pairwise : l.Pairwise Block.Apart :=
  h.tiling.apart h.apart

lemma Blocks.eq_or_apart (hb : b ∈ l) (hc : c ∈ l) :
    b = c ∨ b.addr + b.span ≤ c.addr ∨ c.addr + c.span ≤ b.addr := by
  by_cases he : b = c
  · exact .inl he
  · exact .inr (h.pairwise.forall hb hc he)

lemma Blocks.nodup : (l.map Block.addr).Nodup := by
  refine pairwise_map.mpr (h.pairwise.imp fun {b c} hbc => ?_)
  have := b.span_pos
  have := c.span_pos
  unfold Block.Apart at hbc
  omega

end

section

variable (h : Blocks m head regions (pre ++ x :: post))
include h

lemma Blocks.next_eq : ptr (blockNext m x.addr) = (post.map Block.addr).head? := by
  have := h.links
  rw [map_append] at this
  exact this.next_eq

lemma Blocks.prev_eq : ptr (blockPrev m x.addr) = (pre.map Block.addr).getLast? := by
  have := h.links
  rw [map_append] at this
  exact this.prev_eq

lemma Blocks.next_mem (hn : blockNext m x.addr ≠ 0) :
    ∃ y ps, post = y :: ps ∧ y.addr = blockNext m x.addr := by
  have := h.next_eq
  rw [ptr_of_ne hn] at this
  cases post with
  | nil => simp at this
  | cons y ps => exact ⟨y, ps, rfl, by simpa using this.symm⟩

lemma Blocks.prev_mem (hp : blockPrev m x.addr ≠ 0) :
    ∃ y ps, pre = ps ++ [y] ∧ y.addr = blockPrev m x.addr := by
  have := h.prev_eq
  rw [ptr_of_ne hp] at this
  rcases eq_nil_or_concat pre with rfl | ⟨ps, y, rfl⟩
  · simp at this
  · exact ⟨y, ps, by simp, by simpa using this.symm⟩

end

lemma Blocks.headersApart (h : Blocks m head regions l) (hb : b ∈ l) (hc : c ∈ l) (hne : b ≠ c) :
    HeadersApart b.addr c.addr := by
  have := (h.eq_or_apart hb hc).resolve_left hne
  unfold Block.span at this
  unfold HeadersApart
  omega

lemma Blocks.frame (h : Blocks m head regions l)
    (he : ∀ b ∈ l, ∀ a, InHeader b.addr a → m' a = m a) : Blocks m' head regions l := by
  have hh : ∀ b ∈ l, header m' b.addr = header m b.addr := fun b hb =>
    header_congr fun a h1 h2 => he b hb a ⟨h1, h2⟩
  refine ⟨?_, fun b hb => ?_, h.tiling, h.apart, h.bounds⟩
  · obtain ⟨q, hs⟩ := h.links
    refine ⟨q, hs.frame fun a ha => ?_⟩
    obtain ⟨b, hb, rfl⟩ := mem_map.mp ha
    simp [nextBlock, prevBlock, hh b hb]
  · refine (h.fields b hb).congr ?_ ?_ ?_ <;> rw [hh b hb]

/-- The blocks other than `x` are not adjacent copies of it. -/
theorem Blocks.ne_of_split (h : Blocks m head regions (pre ++ x :: post)) :
    (∀ b ∈ pre, b ≠ x) ∧ ∀ b ∈ post, b ≠ x := by
  have hn := (Nodup.of_map _ h.nodup)
  have hn' := nodup_middle.mp hn
  obtain ⟨hx, -⟩ := nodup_cons.mp hn'
  rw [mem_append, not_or] at hx
  exact ⟨fun b hb he => hx.1 (he ▸ hb), fun b hb he => hx.2 (he ▸ hb)⟩

/-- The general edit: `x` becomes `x'` at the same address, and the blocks `mid` stand
between it and `post` where `l` stood. -/
theorem Blocks.edit {regions' : List Extent} (h : Blocks m head regions (pre ++ x :: (l ++ post)))
    (x' : Block) (mid : List Block) (q : Option Nat) (haddr : x'.addr = x.addr)
    (hseg : DSeg (nextBlock m') (prevBlock m') (some x.addr) (nextBlock m' x.addr)
      (mid.map Block.addr) q (post.map Block.addr).head?)
    (hprev : prevBlock m' x.addr = prevBlock m x.addr) (hin : x'.In m')
    (hmid : ∀ b ∈ mid, b.In m')
    (hpre : ∀ b ∈ pre, header m' b.addr = header m b.addr)
    (hpost : ∀ b ∈ post, ∃ p, header m' b.addr = { header m b.addr with prev := p } ∧
      (post.head? ≠ some b → p = (header m b.addr).prev) ∧ (post.head? = some b → ptr p = q))
    (ht : Tiling Block.addr Block.span regions' (pre ++ x' :: (mid ++ post)))
    (ha : regions'.Pairwise Extent.Apart) (hb : ∀ r ∈ regions',
      Pmm.pageSize ≤ r.start ∧ r.stop < 2 ^ 64) :
    Blocks m' head regions' (pre ++ x' :: (mid ++ post)) := by
  have hnd := h.nodup
  refine ⟨?_, fun b hb => ?_, ht, ha, hb⟩
  · have hl := h.links
    simp only [map_append, map_cons, haddr] at hl hnd ⊢
    refine hl.splice hnd hseg hprev ?_ ?_ ?_
    · intro a ha
      obtain ⟨b, hb, rfl⟩ := mem_map.mp ha
      simp [nextBlock, prevBlock, hpre b hb]
    · intro a ha
      obtain ⟨b, hb, rfl⟩ := mem_map.mp ha
      obtain ⟨p, hp, hkeep, -⟩ := hpost b hb
      refine ⟨by simp only [nextBlock, hp], fun hne => ?_⟩
      have : post.head? ≠ some b := fun he => hne (by rw [head?_map, he]; rfl)
      simp [prevBlock, hp, hkeep this]
    · intro a ha
      obtain ⟨b, hb, rfl⟩ := Option.map_eq_some_iff.mp (head?_map ▸ ha)
      obtain ⟨p, hp, -, hfirst⟩ := hpost b (mem_of_head? hb)
      simp [prevBlock, hp, hfirst hb]
  · simp only [mem_append, mem_cons] at hb
    rcases hb with hb | rfl | hb | hb
    · refine (h.fields b (by simp [hb])).congr ?_ ?_ ?_ <;> rw [hpre b hb]
    · exact hin
    · exact hmid b hb
    · obtain ⟨p, hp, -⟩ := hpost b hb
      refine (h.fields b (by simp [hb])).congr ?_ ?_ ?_ <;> rw [hp]

/-- The edit when the link out of what stood in front of `post` is `w`, and what stands there now
is at `q`: only the headers of `x`, of `mid` and at `w` have changed. -/
theorem Blocks.relink {w q : Nat} (h : Blocks m head regions (pre ++ x :: (l ++ post)))
    (x' : Block) (mid : List Block) (haddr : x'.addr = x.addr)
    (hw : ptr w = (post.map Block.addr).head?) (hq : q ≠ 0)
    (hseg : DSeg (nextBlock m') (prevBlock m') (some x.addr) (nextBlock m' x.addr)
      (mid.map Block.addr) (some q) (post.map Block.addr).head?)
    (hprev : prevBlock m' x.addr = prevBlock m x.addr) (hin : x'.In m') (hmid : ∀ b ∈ mid, b.In m')
    (hafter : w ≠ 0 → header m' w = { header m w with prev := q })
    (hother : ∀ b ∈ pre ++ x :: (l ++ post), b ≠ x → (w ≠ 0 → HeadersApart b.addr w) →
      header m' b.addr = header m b.addr)
    (ht : Tiling Block.addr Block.span regions (pre ++ x' :: (mid ++ post))) :
    Blocks m' head regions (pre ++ x' :: (mid ++ post)) := by
  have hfirst : ∀ {b}, b ∈ pre ++ x :: (l ++ post) → b ≠ x → post.head? ≠ some b →
      header m' b.addr = header m b.addr := by
    intro b hb hne hhead
    refine hother b hb hne fun h0 => ?_
    rw [ptr_of_ne h0, head?_map] at hw
    obtain ⟨z, hz, rfl⟩ := Option.map_eq_some_iff.mp hw.symm
    exact h.headersApart hb (by simp [mem_of_head? hz]) fun he => hhead (he ▸ hz)
  obtain ⟨hpre, hpost⟩ := h.ne_of_split
  refine h.edit x' mid (some q) haddr hseg hprev hin hmid ?_ ?_ ht h.apart h.bounds
  · intro b hb
    refine hfirst (by simp [hb]) (hpre b hb) fun hhead => ?_
    have hd := pairwise_append.mp (Nodup.of_map _ h.nodup)
    exact hd.2.2 b hb b (by simp [mem_of_head? hhead]) rfl
  · intro b hb
    by_cases hhead : post.head? = some b
    · rw [head?_map, hhead] at hw
      obtain ⟨rfl, h0⟩ := ptr_eq_some.mp hw
      exact ⟨q, hafter h0, fun hne => absurd hhead hne, fun _ => ptr_of_ne hq⟩
    · exact ⟨_, hfirst (by simp [hb]) (hpost b (by simp [hb])) hhead, fun _ => rfl,
        fun he => absurd he hhead⟩

lemma Blocks.setFree (h : Blocks m head regions (pre ++ x :: post)) (f : Bool) :
    Blocks (Heap.setFree m x.addr f) head regions (pre ++ ⟨x.addr, x.size, f⟩ :: post) := by
  obtain ⟨hpre, hpost⟩ := h.ne_of_split
  have hself := header_setFree_self (m := m) (b := x.addr) f
  have hother : ∀ b ∈ pre ++ x :: post, b ≠ x →
      header (Heap.setFree m x.addr f) b.addr = header m b.addr := fun b hb hne =>
    header_setFree (h.headersApart hb (by simp) hne) f
  have hx := h.fields x (by simp)
  refine h.edit (l := []) _ [] (some x.addr) rfl ⟨rfl, ?_⟩ ?_ ?_ (by simp) ?_ ?_ ?_
    h.apart h.bounds
  · simp only [nextBlock, hself]
    exact h.next_eq.symm
  · simp [prevBlock, hself]
  · exact ⟨(congrArg Header.size hself).trans hx.1, congrArg Header.free hself,
      (congrArg Header.magic hself).trans hx.2.2⟩
  · exact fun b hb => hother b (by simp [hb]) (hpre b hb)
  · intro b hb
    refine ⟨_, hother b (by simp [hb]) (hpost b hb), fun _ => rfl, fun hfirst => ?_⟩
    obtain ⟨ps, rfl⟩ := head?_eq_some_iff.mp hfirst
    have h' : Blocks m head regions ((pre ++ [x]) ++ b :: ps) := by simpa using h
    simpa using h'.prev_eq
  · have hm : Tiles Block.addr Block.span x.addr [⟨x.addr, x.size, f⟩] (x.addr + x.span) :=
      ⟨rfl, rfl⟩
    have := h.tiling.replace hm
    simpa using this

lemma Blocks.absorb (h : Blocks m head regions (pre ++ x :: y :: post))
    (ha : Absorbs m m' x.addr y.addr) (hs : ∃ r ∈ regions, r.Mem x.addr ∧ r.Mem y.addr) :
    Blocks m' head regions (pre ++ ⟨x.addr, x.size + y.span, x.free⟩ :: post) := by
  have h' : Blocks m head regions ((pre ++ [x]) ++ y :: post) := by simpa using h
  have hnext := h'.next_eq
  have hx := h.fields x (by simp)
  have hy := h.fields y (by simp)
  have hsize : blockSize m x.addr + (headerSize + blockSize m y.addr) = x.size + y.span := by
    rw [hx.1, hy.1]; rfl
  refine h.relink (l := [y]) _ [] rfl hnext (h.addr_pos (by simp)).ne' ⟨rfl, ?_⟩ ?_ ?_
    (by simp) ha.after (fun b hb hne => ha.other _ (h.headersApart hb (by simp) hne)) ?_
  · simp only [nextBlock, ha.self]
    exact hnext.symm
  · simp [prevBlock, ha.self]
  · exact ⟨(congrArg Header.size ha.self).trans hsize,
      (congrArg Header.free ha.self).trans hx.2.1,
      (congrArg Header.magic ha.self).trans hx.2.2⟩
  · have hlen : Block.span ⟨x.addr, x.size + y.span, x.free⟩ = x.span + y.span := by
      simp only [Block.span]
      omega
    exact (h.tiling.join h.apart Block.span_pos hs (d := ⟨x.addr, x.size + y.span, x.free⟩)
      rfl hlen).2

lemma Blocks.cut (h : Blocks m head regions (pre ++ x :: post)) (hc : Cuts m m' x.addr n)
    (hn : n + headerSize ≤ x.size) :
    Blocks m' head regions (pre ++ ⟨x.addr, n, x.free⟩ ::
      ⟨x.addr + headerSize + n, x.size - n - headerSize, true⟩ :: post) := by
  have hnext := h.next_eq
  have hx := h.fields x (by simp)
  have hpos := h.addr_pos (b := x) (by simp)
  have htail : (⟨x.addr + headerSize + n, x.size - n - headerSize, true⟩ : Block).In m' := by
    refine ⟨(congrArg Header.size hc.tail).trans ?_, congrArg Header.free hc.tail,
      congrArg Header.magic hc.tail⟩
    rw [hx.1]
  refine h.relink (l := []) (q := x.addr + headerSize + n) _ [_] rfl hnext (by omega)
    ⟨?_, ?_, rfl, ?_⟩ ?_ ?_ (by simpa using htail) hc.after (fun b hb hne => ?_) ?_
  · simp only [nextBlock, hc.self]
    exact ptr_of_ne (by omega)
  · simp only [prevBlock, hc.tail]
    exact ptr_of_ne hpos.ne'
  · simp only [nextBlock, hc.tail]
    exact hnext.symm
  · simp [prevBlock, hc.self]
  · exact ⟨congrArg Header.size hc.self, (congrArg Header.free hc.self).trans hx.2.1,
      (congrArg Header.magic hc.self).trans hx.2.2⟩
  · refine hc.other _ (h.headersApart hb (by simp) hne) ?_
    have := (h.eq_or_apart hb (by simp)).resolve_left hne
    unfold Block.span at this
    unfold HeadersApart
    omega
  · have hm : Tiles Block.addr Block.span x.addr [⟨x.addr, n, x.free⟩,
        ⟨x.addr + headerSize + n, x.size - n - headerSize, true⟩] (x.addr + x.span) := by
      refine ⟨rfl, ?_, ?_⟩ <;> simp only [Tiles, Block.span] <;> omega
    have := h.tiling.replace hm
    simpa using this

end Blocks

end YamKernel.Heap

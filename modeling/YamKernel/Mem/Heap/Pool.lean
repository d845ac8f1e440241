import YamKernel.Mem.Heap.Blocks

/-!
# The heap without memory

A heap is a list of blocks in the order of their links and, for every bucket, a list of
objects. `Pool` is that, together with the physical allocator it grows from and what it has
handed out; its operations are those of `heap.c` on lists. Nothing in it can be reached by a
store, so what refines it does not depend on the bytes that callers keep in their memory.
-/

namespace YamKernel.Heap

open Lib List

/-! ## Lists of blocks -/

def Block.Fits (n : Nat) (b : Block) : Prop := b.free = true ∧ n ≤ b.size

instance (n : Nat) (b : Block) : Decidable (b.Fits n) := inferInstanceAs (Decidable (_ ∧ _))

/-- A block that is taken for `n` bytes, and the tail that is cut off if it is long enough. -/
def Block.cut (n : Nat) (b : Block) : List Block :=
  if n + headerSize + heapAlign < b.size then
    [⟨b.addr, n, false⟩, ⟨b.addr + headerSize + n, b.size - n - headerSize, true⟩]
  else [⟨b.addr, b.size, false⟩]

/-- Take the first block that fits: its address and the new list. -/
def takeFirst (n : Nat) : List Block → Option (Nat × List Block)
  | [] => none
  | b :: l =>
    if b.Fits n then some (b.addr, b.cut n ++ l)
    else (takeFirst n l).map fun out => (out.1, b :: out.2)

/-- Block `x` takes over the first block of the list if that one is free. -/
def joinNext (x : Block) : List Block → List Block
  | [] => [x]
  | y :: l => if y.free then ⟨x.addr, x.size + y.span, x.free⟩ :: l else x :: y :: l

/-- Free the block at `a` and join it with its neighbours in the list. -/
def release (a : Nat) : List Block → List Block
  | [] => []
  | x :: l =>
    if x.addr = a then joinNext ⟨x.addr, x.size, true⟩ l
    else if x.free ∧ l.head?.map Block.addr = some a then joinNext x (release a l)
    else x :: release a l

section Lists

variable {n a : Nat} {l l' pre post : List Block} {x y b : Block}

/-- The taken block stays where it was; what is cut off is free. -/
theorem Block.cut_eq (hn : n ≤ x.size) : ∃ k mid, x.cut n = ⟨x.addr, k, false⟩ :: mid ∧
    n ≤ k ∧ k ≤ x.size ∧ ∀ b ∈ mid, b.free = true := by
  unfold cut
  split_ifs
  · exact ⟨n, _, rfl, le_rfl, hn, by simp⟩
  · exact ⟨x.size, [], rfl, hn, le_rfl, by simp⟩

lemma takeFirst_eq_none : takeFirst n l = none ↔ ∀ b ∈ l, ¬ b.Fits n := by
  induction l with
  | nil => simp [takeFirst]
  | cons b l ih =>
    rw [takeFirst]
    split_ifs with hb
    · simp [hb]
    · simp [ih, hb]

lemma takeFirst_eq_some (h : takeFirst n l = some (a, l')) : ∃ pre x post,
    l = pre ++ x :: post ∧ (∀ b ∈ pre, ¬ b.Fits n) ∧ x.Fits n ∧ x.addr = a ∧
      l' = pre ++ (x.cut n ++ post) := by
  induction l generalizing l' with
  | nil => simp [takeFirst] at h
  | cons b l ih =>
    rw [takeFirst] at h
    split_ifs at h with hb
    · obtain ⟨rfl, rfl⟩ := Prod.mk.inj (Option.some.inj h)
      exact ⟨[], b, l, rfl, by simp, hb, rfl, rfl⟩
    · obtain ⟨⟨a', l''⟩, hout, he⟩ := Option.map_eq_some_iff.mp h
      obtain ⟨rfl, rfl⟩ := Prod.mk.inj he
      obtain ⟨pre, x, post, rfl, hpre, hx, haddr, rfl⟩ := ih hout
      exact ⟨b :: pre, x, post, rfl, by simpa [hb] using hpre, hx, haddr, rfl⟩

lemma takeFirst_isSome (hb : b ∈ l) (hf : b.Fits n) : ∃ a l', takeFirst n l = some (a, l') := by
  cases h : takeFirst n l with
  | none => exact absurd hf (takeFirst_eq_none.mp h b hb)
  | some out => exact ⟨out.1, out.2, rfl⟩

lemma release_self (x : Block) (post : List Block) :
    release x.addr (x :: post) = joinNext ⟨x.addr, x.size, true⟩ post := if_pos rfl

/-- The blocks before the one that precedes the freed block are not touched. -/
theorem release_append (hpre : ∀ b ∈ pre, b.addr ≠ a) (hx : x.addr ≠ a) :
    release a (pre ++ x :: l) = pre ++ release a (x :: l) := by
  induction pre with
  | nil => rfl
  | cons b pre ih =>
    have hhead : (pre ++ x :: l).head?.map Block.addr ≠ some a := by
      cases pre with
      | nil => simpa using hx
      | cons c pre => simpa using hpre c (by simp)
    rw [cons_append, release, if_neg (hpre b (by simp)), if_neg fun h => hhead h.2,
      ih fun c hc => hpre c (by simp [hc])]
    rfl

lemma release_before (hy : y.addr ≠ x.addr) : release x.addr (y :: x :: post) =
    if y.free then joinNext y (joinNext ⟨x.addr, x.size, true⟩ post)
    else y :: joinNext ⟨x.addr, x.size, true⟩ post := by
  rw [release, if_neg hy, release_self]
  simp

/-- Joining two free blocks leaves those in use as they are. -/
theorem mem_joinNext (hx : x.free = true) (hb : b.free = false) : b ∈ joinNext x l ↔ b ∈ l := by
  have hbx : b ≠ x := fun he => by simp [he, hx] at hb
  cases l with
  | nil => simpa [joinNext] using hbx
  | cons y l =>
    rw [joinNext]
    split_ifs with hy
    · have hby : b ≠ y := fun he => by simp [he, hy] at hb
      have hbj : b ≠ ⟨x.addr, x.size + y.span, x.free⟩ := fun he => by simp [he, hx] at hb
      simp [hby, hbj]
    · simp [hbx]

lemma mem_release (hpre : ∀ b ∈ pre, b.addr ≠ x.addr) (hb : b.free = false) :
    b ∈ release x.addr (pre ++ x :: post) ↔ b ∈ pre ++ post := by
  rcases eq_nil_or_concat pre with rfl | ⟨ps, y, rfl⟩
  · rw [nil_append, release_self, mem_joinNext rfl hb, nil_append]
  · have hy : y.addr ≠ x.addr := hpre y (by simp)
    have hps : ∀ b ∈ ps, b.addr ≠ x.addr := fun b hb => hpre b (by simp [hb])
    rw [concat_eq_append, append_assoc, singleton_append, release_append hps hy, release_before hy]
    simp only [mem_append, mem_singleton]
    split_ifs with hfree
    · have hby : b ≠ y := fun he => by simp [he, hfree] at hb
      rw [mem_joinNext hfree hb, mem_joinNext rfl hb]
      simp [hby]
    · rw [mem_cons, mem_joinNext rfl hb]
      tauto

end Lists

/-! ## The pool -/

def Block.whole (r : Extent) : Block := ⟨r.start, r.stop - r.start - headerSize, true⟩

structure Pool where
  pmm : Pmm.State
  hhdm : Nat
  regions : List Extent
  blocks : List Block
  /-- The objects of each bucket. -/
  chain : Nat → List Nat
  large : List Nat
  small : List Slot

namespace Pool

/-- The objects a page at `block` is carved into. -/
def objects (block idx : Nat) : List Nat :=
  (range ((Pmm.pageSize - heapAlign) / bucketSize idx)).map fun i =>
    block + heapAlign + i * bucketSize idx

/-- A page for a bucket, if there is one: the objects are listed from the last to the first. -/
def refill (A : Pool) (idx : Nat) : Pool :=
  match takeFirst (alignUp Pmm.pageSize) A.blocks with
  | none => A
  | some (b, blocks) =>
    { A with
      blocks
      chain := Function.update A.chain idx
        ((objects (b + headerSize) idx).reverse ++ A.chain idx) }

def expand (A : Pool) : Option Pool :=
  match Pmm.pmmAllocPages A.pmm heapExpandPages with
  | (phys, pmm) =>
    if phys = 0 then none
    else
      let base := u64 (phys + A.hhdm)
      let r := Extent.mk base (base + heapExpandPages * Pmm.pageSize)
      some { A with pmm, regions := A.regions ++ [r], blocks := A.blocks ++ [Block.whole r] }

def kmallocBlock : Nat → Pool → Nat → Nat × Pool
  | 0, A, _ => (0, A)
  | fuel + 1, A, size =>
    match takeFirst size A.blocks with
    | some (b, blocks) =>
      (b + headerSize, { A with blocks, large := (b + headerSize) :: A.large })
    | none =>
      match A.expand with
      | some A => kmallocBlock fuel A size
      | none => (0, A)

def pop (A : Pool) (idx : Nat) : Option (Nat × Pool) :=
  match A.chain idx with
  | [] => none
  | obj :: rest => some (obj, { A with
      chain := Function.update A.chain idx rest
      small := ⟨obj, bucketSize idx⟩ :: A.small })

def kmalloc (A : Pool) (size : Nat) : Nat × Pool :=
  if size = 0 then (0, A)
  else
    match bucketIndex size with
    | some idx =>
      let A := if A.chain idx = [] then A.refill idx else A
      (A.pop idx).getD (kmallocBlock (A.pmm.freeMem + 1) A (alignUp size))
    | none => kmallocBlock (A.pmm.freeMem + 1) A (alignUp size)

/-- Only blocks are taken back. -/
def kfree (A : Pool) (ptr : Nat) : Pool :=
  if ptr ∈ A.large then
    { A with blocks := release (ptr - headerSize) A.blocks, large := A.large.erase ptr }
  else A

end Pool

end YamKernel.Heap

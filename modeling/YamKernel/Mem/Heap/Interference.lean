import YamKernel.Mem.Heap.States

/-!
# What callers store and what the heap does

`kfree` takes a pointer for that of a block if the four bytes 16 bytes before it are the magic
number. For an object of a bucket those are bytes of the object before it, which belong to
another caller. As long as no freed object has the magic number there, and no free joins blocks
of different regions, the heap does the same whatever its callers store.
-/

namespace YamKernel.Heap

open List

variable {s : State} {A : Pool}

/-- The calls of the interface other than `krealloc`, and stores. -/
def Op.Plain : Op → Prop
  | .krealloc _ _ => False
  | _ => True

instance : (op : Op) → Decidable op.Plain
  | .kmalloc _ => .isTrue trivial
  | .kfree _ => .isTrue trivial
  | .krealloc _ _ => .isFalse id
  | .store _ _ => .isTrue trivial

def Op.isCall : Op → Bool
  | .store _ _ => false
  | _ => true

/-- What can be seen of the heap after a call: the pointer it returned, the block list and the
bucket lists. -/
structure Seen where
  ptr : Nat
  blocks : List Block
  buckets : List (List Nat)
  deriving DecidableEq, Repr

def trace (s : State) : List Op → List Seen
  | [] => []
  | op :: ops =>
    let out := step s op
    if op.isCall then
      ⟨out.1, out.2.blockList, (range bucketSizes.length).map out.2.bucketList⟩ ::
        trace out.2 ops
    else trace out.2 ops

/-- The same run on a pool; stores do not exist there. -/
def Pool.trace (A : Pool) : List Op → List Seen
  | [] => []
  | .kmalloc size :: ops =>
    let out := A.kmalloc size
    ⟨out.1, out.2.blocks, (range bucketSizes.length).map out.2.chain⟩ :: Pool.trace out.2 ops
  | .kfree ptr :: ops =>
    let A := A.kfree ptr
    ⟨0, A.blocks, (range bucketSizes.length).map A.chain⟩ :: Pool.trace A ops
  | .krealloc _ _ :: ops => Pool.trace A ops
  | .store _ _ :: ops => Pool.trace A ops

lemma Pool.trace_calls (A : Pool) (ops : List Op) :
    A.trace (ops.filter Op.isCall) = A.trace ops := by
  induction ops generalizing A with
  | nil => rfl
  | cons op ops ih =>
    cases op with
    | kmalloc | kfree | krealloc => rw [filter_cons_of_pos rfl, trace, trace, ih]
    | store => rw [filter_cons_of_neg Bool.false_ne_true, trace, ih]

lemma Refines.seen (h : Refines s A) (p : Nat) :
    (⟨p, s.blockList, (range bucketSizes.length).map s.bucketList⟩ : Seen) =
      ⟨p, A.blocks, (range bucketSizes.length).map A.chain⟩ := by
  rw [h.blockList_eq, funext h.bucketList_eq]

lemma trace_refines (h : Refines s A) {ops : List Op}
    (hops : step.Along (fun s op => op.Plain ∧ op.Proper s ∧ op.Safe s) s ops) :
    trace s ops = A.trace ops := by
  induction ops generalizing s A with
  | nil => rfl
  | cons op ops ih =>
    obtain ⟨⟨hplain, hproper, hsafe⟩, hops⟩ := hops
    rw [trace]
    cases op with
    | kmalloc n =>
      obtain ⟨hptr, h'⟩ := kmalloc_refines h n
      simp only [step, Op.isCall, if_true, Pool.trace] at ⊢
      rw [hptr, h'.seen, ih h' hops]
    | kfree p =>
      have h' := kfree_refines h (hsafe.1 _ rfl)
      simp only [step, Op.isCall, if_true, Pool.trace] at ⊢
      rw [h'.seen, ih h' hops]
    | krealloc p n => exact hplain.elim
    | store a byte => exact ih (store_refines h hproper byte) hops

/-- Two runs with the same calls, in which callers store what they like into their own
allocations, show the same after every call, if in both of them all frees are safe. -/
theorem trace_stores {s : State} (hs : Reached s) {ops ops' : List Op}
    (hcalls : ops.filter Op.isCall = ops'.filter Op.isCall)
    (hops : step.Along (fun s op => op.Plain ∧ op.Proper s ∧ op.Safe s) s ops)
    (hops' : step.Along (fun s op => op.Plain ∧ op.Proper s ∧ op.Safe s) s ops') :
    trace s ops = trace s ops' := by
  obtain ⟨A, h⟩ := hs.formed.refines
  calc trace s ops = A.trace ops := trace_refines h hops
    _ = A.trace (ops.filter Op.isCall) := (A.trace_calls ops).symm
    _ = A.trace (ops'.filter Op.isCall) := by rw [hcalls]
    _ = A.trace ops' := A.trace_calls ops'
    _ = trace s ops' := (trace_refines h hops').symm

/-- Over whole runs the heap in memory answers as the pool, which has no memory, does. -/
theorem trace_pool {s : State} (hs : Reached s) : ∃ A, Refines s A ∧ ∀ ops,
    step.Along (fun s op => op.Plain ∧ op.Proper s ∧ op.Safe s) s ops →
      trace s ops = A.trace ops := by
  obtain ⟨A, h⟩ := hs.formed.refines
  exact ⟨A, h, fun _ => trace_refines h⟩

theorem trace_pool_fresh : ∃ s A, Refines s A ∧ ∀ ops,
    step.Along (fun s op => op.Plain ∧ op.Proper s ∧ op.Safe s) s ops →
      trace s ops = A.trace ops := by
  obtain ⟨s, hs, -⟩ := freshHeap
  exact ⟨s, trace_pool ⟨_, [], hs, trivial, rfl⟩⟩

/-! ## A forged header -/

def storeWord (a n v : Nat) : List Op :=
  (range n).map fun i => .store (a + i) (UInt8.ofNat (v / 256 ^ i))

/-- Two objects of 1024 bytes, of which the second in memory is handed out first, the stores
of their owners, and the free of the second one. -/
def twoObjects (stores : List Op) : List Op :=
  [.kmalloc 1024, .kmalloc 1024] ++ stores ++ [.kfree 0xffff800004000840]

theorem trace_stores_twoObjects : ∃ s, Reached s ∧
    trace s (twoObjects (storeWord 0xffff800004000440 8 heapMagic)) = trace s (twoObjects []) := by
  have hrun : ∀ pmm ∈ Pmm.pmmInit twoPieces, ∀ stores ∈
      [storeWord 0xffff800004000440 8 heapMagic, []],
      step.Along (fun s op => op.Plain ∧ op.Proper s ∧ op.Safe s)
        (heapInit (boot (fun _ => 0) pmm higherHalf)) (twoObjects stores) := by decide +kernel
  obtain ⟨pmm, hp⟩ := twoPieces_init
  have hs : Reached (heapInit (boot (fun _ => 0) pmm higherHalf)) :=
    ⟨_, [], started_twoPieces hp, trivial, rfl⟩
  exact ⟨_, hs, trace_stores hs rfl (hrun pmm hp _ (by simp)) (hrun pmm hp [] (by simp))⟩

/-- The owner of the first object writes a header in front of the second: the magic number,
and a back link to the free block behind the page. -/
def forgedHeader : List Op :=
  storeWord 0xffff800004000828 8 0xffff800004001030 ++ storeWord 0xffff800004000830 4 heapMagic

/-- Freeing the second object then makes the free block larger. -/
theorem kfree_forged : ∃ s, Reached s ∧
    step.Along (fun s op => op.Plain ∧ op.Proper s) s (twoObjects forgedHeader) ∧
    step.Along (fun s op => op.Plain ∧ op.Proper s) s (twoObjects []) ∧
    (twoObjects forgedHeader).filter Op.isCall = (twoObjects []).filter Op.isCall ∧
    trace s (twoObjects forgedHeader) ≠ trace s (twoObjects []) := by
  have hrun : ∀ pmm ∈ Pmm.pmmInit twoPieces,
      let s := heapInit (boot (fun _ => 0) pmm higherHalf)
      step.Along (fun s op => op.Plain ∧ op.Proper s) s (twoObjects forgedHeader) ∧
      step.Along (fun s op => op.Plain ∧ op.Proper s) s (twoObjects []) ∧
      trace s (twoObjects forgedHeader) ≠ trace s (twoObjects []) := by decide +kernel
  obtain ⟨pmm, hp⟩ := twoPieces_init
  obtain ⟨h1, h2, hne⟩ := hrun pmm hp
  exact ⟨_, ⟨_, [], started_twoPieces hp, trivial, rfl⟩, h1, h2, rfl, hne⟩

end YamKernel.Heap

import YamKernel.Mem.Vmm.StackTables

/-!
# Runs with kernel stacks

A run of `vmm_alloc_kernel_stack`, `vmm_free_kernel_stack` and `vmm_create_user_pml4`, during which
other parts of the kernel take and give back pages. As long as the cursor stays in its slot, live
stacks are disjoint, mapped, between unmapped pages, and seen from all user roots.
-/

namespace YamKernel.Vmm

open Lib Pmm List Nat

/-! ## The loops -/

/-- `Stacked`, up to the entries of the root that are not for the stacks. -/
def Shown (k : Nat) (B : Prop) (U O L : Set Nat) (s : State) : Prop :=
  ∃ v, Agree k s v ∧ Stacked k B U O L v

section Loops

variable {k : Nat} {B : Prop} {U O L : Set Nat} {s : State} {vas : List Nat}

lemma Shown.kernel (h : Shown k B U O L s) : s.kernelPml4 = k :=
  let ⟨_, hag, hst⟩ := h
  hag.kernel.symm.trans hst.root

lemma Shown.stackPages (h : Shown k B U O L s) (hslot : ∀ va ∈ vas, InSlot (pageOf va))
    (hnew : ∀ va ∈ vas, pageOf va ∉ L) (hnodup : (vas.map pageOf).Nodup) :
    ∃ b s' D, stackPages k s vas = (b, s') ∧ Shown k B U O (L ∪ D) s' ∧
      D ⊆ {p | p ∈ vas.map pageOf} ∧ (b = true → {p | p ∈ vas.map pageOf} ⊆ D) := by
  induction vas generalizing s L with
  | nil => exact ⟨true, s, ∅, rfl, by rwa [Set.union_empty], by simp, by simp⟩
  | cons va vas ih =>
    obtain ⟨v, hag, hst⟩ := h
    obtain ⟨s', hs', hag'⟩ := hag.stackPage hst.sound (hslot va mem_cons_self)
    rw [map_cons, nodup_cons] at hnodup
    unfold stackPages
    rw [hs']
    rcases hst.stackPage (hslot va mem_cons_self) (hnew va mem_cons_self) with
      ⟨hb, hst'⟩ | ⟨hb, hst'⟩
    · have hrest : ∀ va' ∈ vas, pageOf va' ∉ insert (pageOf va) L := fun va' hva' => by
        rintro (he | hL)
        · exact hnodup.1 (he ▸ mem_map_of_mem hva')
        · exact hnew va' (.tail va hva') hL
      obtain ⟨b, s'', D, hrun, hsh, hsub, hall⟩ := ih ⟨_, hag', hst'⟩
        (fun va' hva' => hslot va' (.tail va hva')) hrest hnodup.2
      refine ⟨b, s'', insert (pageOf va) D, by rw [hb]; exact hrun, ?_, ?_, fun hb => ?_⟩
      · rwa [Set.union_insert, ← Set.insert_union]
      · rintro p (rfl | hp)
        · exact mem_cons_self
        · exact .tail _ (hsub hp)
      · intro p hp
        rw [Set.mem_ofPred_eq, map_cons, mem_cons] at hp
        exact hp.imp id fun hp => hall hb hp
    · refine ⟨false, s', ∅, by rw [hb], ?_, by simp, by simp⟩
      rw [Set.union_empty]
      exact ⟨_, hag', hst'⟩

lemma Shown.unmapPages (h : Shown k B U O L s) (hpage : ∀ va ∈ vas, pageSize ∣ va)
    (hslot : ∀ va ∈ vas, InSlot (pageOf va)) :
    Shown k B U O (L \ {p | p ∈ vas.map pageOf}) (vas.foldl (unmapDropping pmmFreePage k) s) := by
  induction vas generalizing s L with
  | nil => simpa using h
  | cons va vas ih =>
    obtain ⟨v, hag, hst⟩ := h
    have hva := hslot va mem_cons_self
    have hhead : Shown k B U O (L \ {pageOf va}) (unmapDropping pmmFreePage k s va) :=
      ⟨_, hag.unmapDropping hst.sound hva pmmFreePage,
        hst.unmapPage (hpage va mem_cons_self) hva⟩
    have hset : L \ {p | p ∈ (va :: vas).map pageOf} =
        (L \ {pageOf va}) \ {p | p ∈ vas.map pageOf} := by
      ext p
      simp [and_assoc]
    rw [hset]
    exact ih hhead (fun va' hva' => hpage va' (.tail va hva')) fun va' hva' =>
      hslot va' (.tail va hva')

end Loops

/-! ## The ranges of stacks -/

def slotAddr (p : Nat) : Nat := (p + (2 ^ 52 - 2 ^ 36)) * pageSize

def usableBytes (usableSize : Nat) : Nat := (usableSize + (pageSize - 1)) / pageSize * pageSize

def slotPages (start len : Nat) : Set Nat :=
  {p | InSlot p ∧ start ≤ slotAddr p ∧ slotAddr p < start + len}

section Ranges

variable {va start n : Nat}

lemma slotAddr_pageOf (h1 : stackBase ≤ va) (h2 : va < stackBase + 2 ^ 39) :
    slotAddr (pageOf va) = va / pageSize * pageSize := by
  rw [slotAddr, (pageOf_slot h1 h2).2]
  unfold stackBase at h1
  unfold pageSize
  omega

/-- The page of an address is in the range if the address is. -/
theorem mem_slotPages {len : Nat} (hstart : pageSize ∣ start) (hlen : pageSize ∣ len)
    (h1 : stackBase ≤ va) (h2 : va < stackBase + 2 ^ 39) :
    pageOf va ∈ slotPages start len ↔ start ≤ va ∧ va < start + len := by
  unfold slotPages
  rw [Set.mem_ofPred_eq, slotAddr_pageOf h1 h2, and_iff_right (pageOf_slot h1 h2).1]
  obtain ⟨a, rfl⟩ := hstart
  obtain ⟨b, rfl⟩ := hlen
  unfold pageSize
  omega

lemma pageCount_eq (h : n + pageSize ≤ 2 ^ 64) : pageCount n * pageSize = usableBytes n := by
  unfold pageCount usableBytes
  rw [u64, mod_eq_of_lt (by unfold pageSize at *; omega)]

lemma pageRange_slot {pages : Nat} (hstart : pageSize ∣ start) (h1 : stackBase ≤ start)
    (h2 : start + pages * pageSize ≤ stackBase + 2 ^ 39) :
    (∀ va ∈ pageRange start pages, pageSize ∣ va ∧ InSlot (pageOf va)) ∧
      {p | p ∈ (pageRange start pages).map pageOf} = slotPages start (pages * pageSize) ∧
      ((pageRange start pages).map pageOf).Nodup := by
  have hva : ∀ i < pages, u64 (start + i * pageSize) = start + i * pageSize := fun i hi => by
    rw [u64]
    unfold stackBase pageSize at *
    omega
  have hin : ∀ i < pages, start + i * pageSize < stackBase + 2 ^ 39 := fun i hi => by
    unfold pageSize at *
    omega
  have hpage : ∀ i < pages, InSlot (pageOf (start + i * pageSize)) ∧
      pageOf (start + i * pageSize) = (start + i * pageSize) / pageSize - (2 ^ 52 - 2 ^ 36) :=
    fun i hi => pageOf_slot (by omega) (hin i hi)
  have hmap : (pageRange start pages).map pageOf =
      (range pages).map fun i => start / pageSize - (2 ^ 52 - 2 ^ 36) + i := by
    rw [pageRange, map_map]
    refine map_congr_left fun i hi => ?_
    rw [mem_range] at hi
    rw [Function.comp_apply, hva i hi, (hpage i hi).2]
    unfold stackBase pageSize at *
    omega
  refine ⟨fun va hmem => ?_, Set.ext fun p => ?_, ?_⟩
  · obtain ⟨i, hi, rfl⟩ := mem_map.mp hmem
    rw [mem_range] at hi
    rw [hva i hi]
    exact ⟨hstart.add (dvd_mul_left _ _), (hpage i hi).1⟩
  · rw [Set.mem_ofPred_eq, hmap, mem_map]
    unfold slotPages InSlot slotAddr stackSlot
    unfold stackBase pageSize at *
    simp only [mem_range, Set.mem_ofPred_eq]
    constructor
    · rintro ⟨i, hi, rfl⟩
      omega
    · rintro ⟨-, hlo, hhi⟩
      exact ⟨p - (start / 4096 - (2 ^ 52 - 2 ^ 36)), by omega, by omega⟩
  · rw [hmap]
    exact nodup_range.map fun i j hij => add_left_cancel hij

lemma pageSize_dvd_usableBytes (n : Nat) : pageSize ∣ usableBytes n := dvd_mul_left _ _

lemma le_usableBytes (n : Nat) : n ≤ usableBytes n := by
  unfold usableBytes pageSize
  omega

end Ranges

/-! ## The calls -/

section Calls

variable {k st next n : Nat} {B : Prop} {U O L : Set Nat} {s : State}

/-- Nothing wraps in an allocation that stays below `2 ^ 64`. -/
theorem stack_arith (hfits : next + n + 3 * pageSize ≤ 2 ^ 64) :
    pageCount n * pageSize = usableBytes n ∧
      u64 (usableBytes n + 2 * pageSize) = usableBytes n + 2 * pageSize ∧
      u64 (next + (usableBytes n + 2 * pageSize)) = next + usableBytes n + 2 * pageSize ∧
      u64 (next + pageSize) = next + pageSize := by
  refine ⟨pageCount_eq (by omega), ?_⟩
  unfold usableBytes u64
  unfold pageSize at *
  omega

lemma Shown.vmmFreeKernelStack (h : Shown k B U O L s) (hst : pageSize ∣ st) (hlo : stackBase ≤ st)
    (hn : n + pageSize ≤ 2 ^ 64) (hhi : st + usableBytes n ≤ stackBase + 2 ^ 39) :
    Shown k B U O (L \ slotPages st (usableBytes n)) (vmmFreeKernelStack s st n) := by
  have h0 : st ≠ 0 := by
    unfold stackBase at hlo
    omega
  unfold Vmm.vmmFreeKernelStack
  by_cases hn0 : n = 0
  · subst hn0
    rw [if_pos (.inr rfl)]
    have hnone : slotPages st (usableBytes 0) = ∅ := by
      refine Set.eq_empty_of_forall_notMem fun p hp => ?_
      have hlt : slotAddr p < st + 0 := hp.2.2
      exact absurd hlt (not_lt.mpr hp.2.1)
    rwa [hnone, Set.sdiff_empty]
  · rw [if_neg (by simp [h0, hn0]), h.kernel, ← pageCount_eq hn]
    rw [← pageCount_eq hn] at hhi
    obtain ⟨hall, hset, -⟩ := pageRange_slot hst hlo hhi
    rw [← hset]
    exact h.unmapPages (fun va hva => (hall va hva).1) fun va hva => (hall va hva).2

/-- An allocation maps its range, or leaves everything as it was. -/
theorem Shown.vmmAllocKernelStack (h : Shown k B U O L s) (hpage : pageSize ∣ next)
    (hlo : stackBase ≤ next) (hn : 0 < n) (hfits : next + n + 3 * pageSize ≤ 2 ^ 64)
    (hhi : next + usableBytes n + 2 * pageSize ≤ stackBase + 2 ^ 39)
    (hnew : ∀ p ∈ slotPages (next + pageSize) (usableBytes n), p ∉ L) :
    ∃ r s', vmmAllocKernelStack s next n = (r, s', next + usableBytes n + 2 * pageSize) ∧
      (r = some (next + pageSize) ∧
          Shown k True U O (L ∪ slotPages (next + pageSize) (usableBytes n)) s' ∨
        r = none ∧ Shown k B U O L s') := by
  obtain ⟨hbytes, htotal, hcursor, husable⟩ := stack_arith hfits
  have hstart : pageSize ∣ next + pageSize := hpage.add (dvd_refl _)
  obtain ⟨hall, hset, hnodup⟩ := pageRange_slot hstart (by omega)
    (by rw [hbytes]; omega)
  rw [hbytes] at hset
  obtain ⟨b, s', D, hrun, hsh, hsub, hdone⟩ := h.stackPages (fun va hva => (hall va hva).2)
    (fun va hva => hnew _ (hset ▸ mem_map_of_mem hva)) hnodup
  rw [hset] at hsub hdone
  unfold Vmm.vmmAllocKernelStack
  rw [if_neg hn.ne']
  dsimp only
  rw [hbytes, htotal, hcursor, husable, h.kernel, hrun]
  cases b with
  | true =>
    obtain rfl : D = slotPages (next + pageSize) (usableBytes n) := hsub.antisymm (hdone rfl)
    refine ⟨_, _, rfl, .inl ⟨rfl, ?_⟩⟩
    obtain ⟨v, hag, hst⟩ := hsh
    have hfirst : pageOf (next + pageSize) ∈ slotPages (next + pageSize) (usableBytes n) := by
      have := le_usableBytes n
      exact (mem_slotPages hstart (pageSize_dvd_usableBytes n) (by omega)
        (by unfold pageSize at *; omega)).mpr ⟨le_rfl, by omega⟩
    exact ⟨v, hag, { hst with ready := fun _ => hst.ready_of_mem (.inr hfirst) }⟩
  | false =>
    refine ⟨_, _, rfl, .inr ⟨rfl, ?_⟩⟩
    have hagain : usableBytes (usableBytes n) = usableBytes n := by
      unfold usableBytes pageSize
      omega
    have hfree := hsh.vmmFreeKernelStack hstart (by omega)
      (show usableBytes n + pageSize ≤ 2 ^ 64 by unfold stackBase at *; omega)
      (by rw [hagain]; omega)
    rw [hagain, Set.union_sdiff_distrib, Set.sdiff_eq_empty.mpr hsub, Set.union_empty] at hfree
    rwa [sdiff_eq_left.mpr (Set.disjoint_right.mpr hnew)] at hfree

end Calls

/-! ## Runs -/

/-- The kernel, the cursor, the live stacks with the sizes asked for, the user roots, the pages
that other parts have taken, and whether a stack has been given out. -/
structure StackWorld where
  vm : State
  next : Nat
  live : List (Nat × Nat)
  users : List Nat
  others : List Nat
  started : Bool

inductive StackOp where
  | alloc (usableSize : Nat)
  | free (stack usableSize : Nat)
  | create
  /-- Another part takes a page. -/
  | take
  /-- Another part gives a page back. -/
  | give (phys : Nat)

/-- The call, its answer, and what has to be remembered of it. -/
def stackStep : Machine StackWorld StackOp (Option Nat)
  | w, .alloc usableSize =>
    match vmmAllocKernelStack w.vm w.next usableSize with
    | (none, vm, next) => (none, { w with vm, next })
    | (some stack, vm, next) =>
      (some stack, { w with vm, next, live := (stack, usableSize) :: w.live, started := true })
  | w, .free stack usableSize =>
    (none, { w with
      vm := vmmFreeKernelStack w.vm stack usableSize
      live := w.live.filter (· ≠ (stack, usableSize)) })
  | w, .create =>
    match vmmCreateUserPml4 w.vm with
    | (none, vm) => (none, { w with vm })
    | (some new, vm) => (some new, { w with vm, users := new :: w.users })
  | w, .take =>
    let (phys, pmm) := pmmAllocPage w.vm.pmm
    if phys = 0 then (none, { w with vm := { w.vm with pmm } })
    else (some phys, { w with vm := { w.vm with pmm }, others := phys :: w.others })
  | w, .give phys =>
    (none, { w with vm := w.vm.freePage phys, others := w.others.filter (· ≠ phys) })

/-- The first stack is allocated before the first user root, the cursor, moved on by the whole
stack and its two guard pages, stays in the slot, and only what is live is freed. -/
def InOrder (w : StackWorld) : StackOp → Prop
  | .alloc usableSize =>
    0 < usableSize → w.next + usableBytes usableSize + 2 * pageSize ≤ stackBase + 2 ^ 39
  | .free stack usableSize => (stack, usableSize) ∈ w.live
  | .create => w.started = true
  | .take => True
  | .give phys => phys ∈ w.others

instance (w : StackWorld) : (op : StackOp) → Decidable (InOrder w op)
  | .alloc _ => inferInstanceAs (Decidable (_ → _))
  | .free _ _ => inferInstanceAs (Decidable (_ ∈ _))
  | .create => inferInstanceAs (Decidable (_ = _))
  | .take => .isTrue trivial
  | .give _ => inferInstanceAs (Decidable (_ ∈ _))

def WritableAt (s : State) (va : Nat) : Prop :=
  vmmVirtToPhys s.mem s.kernelPml4 va ≠ 0 ∧
    has (vmmGetPteFlags s.mem s.kernelPml4 va) flagPresent = true ∧
    has (vmmGetPteFlags s.mem s.kernelPml4 va) flagWrite = true

def UnmappedAt (s : State) (va : Nat) : Prop :=
  vmmVirtToPhys s.mem s.kernelPml4 va = 0 ∧
    has (vmmGetPteFlags s.mem s.kernelPml4 va) flagPresent = false

def usableEnd (x : Nat × Nat) : Nat := x.1 + usableBytes x.2

structure StackLaw (w : StackWorld) : Prop where
  disjoint : w.live.Pairwise fun x y => usableEnd x ≤ y.1 ∨ usableEnd y ≤ x.1
  mapped : ∀ x ∈ w.live, ∀ va, x.1 ≤ va → va < usableEnd x → WritableAt w.vm va
  guards : ∀ x ∈ w.live, ∀ va, x.1 - pageSize ≤ va ∧ va < x.1 ∨
    usableEnd x ≤ va ∧ va < usableEnd x + pageSize → UnmappedAt w.vm va
  seen : ∀ u ∈ w.users, ∀ va, stackBase ≤ va → va < stackBase + 2 ^ 39 →
    vmmVirtToPhys w.vm.mem u va = vmmVirtToPhys w.vm.mem w.vm.kernelPml4 va ∧
      vmmGetPteFlags w.vm.mem u va = vmmGetPteFlags w.vm.mem w.vm.kernelPml4 va

/-- An allocation that fails leaves no page of its range mapped. -/
def FailsClean (w : StackWorld) (op : StackOp) : Prop :=
  ∀ usableSize, op = .alloc usableSize → 0 < usableSize → (stackStep w op).1 = none →
    ∀ va, w.next ≤ va → va < w.next + usableBytes usableSize + 2 * pageSize →
      UnmappedAt (stackStep w op).2.vm va

/-- The kernel before its first stack. Nothing is assumed of the other entries of its root. -/
structure StackStart (w : StackWorld) : Prop where
  good : Good w.vm.pmm
  within : Within (2 ^ 52) w.vm.pmm
  page : pageSize ∣ w.vm.kernelPml4
  held : Held w.vm.pmm w.vm.kernelPml4
  absent : has (entry w.vm.mem w.vm.kernelPml4 stackSlot) flagPresent = false
  others : ∀ f ∈ w.others, (∃ n, Allocated w.vm.pmm f n) ∧ Off w.vm.pmm f w.vm.kernelPml4
  next : w.next = stackBase
  live : w.live = []
  users : w.users = []
  started : w.started = false

def pagesOf (live : List (Nat × Nat)) : Set Nat :=
  {p | ∃ x ∈ live, p ∈ slotPages x.1 (usableBytes x.2)}

lemma pagesOf_cons (x : Nat × Nat) (live : List (Nat × Nat)) :
    pagesOf (x :: live) = pagesOf live ∪ slotPages x.1 (usableBytes x.2) := by
  ext p
  simp [pagesOf, or_comm]

def StacksApart (x y : Nat × Nat) : Prop :=
  usableEnd x + 2 * pageSize ≤ y.1 ∨ usableEnd y + 2 * pageSize ≤ x.1

instance : Std.Symm StacksApart := ⟨fun _ _ => Or.symm⟩

structure StackInv (k : Nat) (w : StackWorld) : Prop where
  shown : Shown k (w.started = true) {u | u ∈ w.users} {f | f ∈ w.others} (pagesOf w.live) w.vm
  page : pageSize ∣ w.next
  low : stackBase ≤ w.next
  high : w.next ≤ stackBase + 2 ^ 39
  ranges : ∀ x ∈ w.live, pageSize ∣ x.1 ∧ stackBase + pageSize ≤ x.1 ∧
    usableEnd x + pageSize ≤ w.next
  clear : w.live.Pairwise StacksApart

section Law

variable {k va : Nat} {w : StackWorld}

lemma Shown.at {B : Prop} {U O L : Set Nat} {s : State} (h : Shown k B U O L s)
    (h1 : stackBase ≤ va) (h2 : va < stackBase + 2 ^ 39) :
    (pageOf va ∈ L → WritableAt s va) ∧ (pageOf va ∉ L → UnmappedAt s va) := by
  have hk := h.kernel
  obtain ⟨v, hag, hst⟩ := h
  have hslot := (pageOf_slot h1 h2).1
  have htop : pageOf va < 512 * 2 ^ 27 := hslot.lt
  unfold WritableAt UnmappedAt
  rw [hk, (hag.translate hst.sound hslot).1, (hag.translate hst.sound hslot).2,
    vmmVirtToPhys_eq htop, vmmGetPteFlags_eq htop, has_and, has_and]
  refine ⟨fun hL => ?_, fun hL => ?_⟩
  · obtain ⟨f, hf, -, hpte⟩ := hst.mapped _ hL
    rw [hpte]
    have hframe : leafEntry f stackFlags &&& addrMask = f :=
      leafEntry_frame (hf.page hst.sound) (hf.lt hst.sound) (by decide)
    refine ⟨fun h0 => ?_, leafEntry_present, leafEntry_has⟩
    rw [Pte.phys, Pte.present, leafEntry_present, hframe] at h0
    exact (hf.pos hst.sound).ne' (or_eq_zero_iff.mp h0).1
  · have hp := hst.absent _ hslot hL
    refine ⟨?_, hp⟩
    rw [Pte.phys, pte_absent_small hp, hp]
    rfl

/-- A user root leads to the same pages of the slot. -/
theorem Shown.seen {B : Prop} {U O L : Set Nat} {s : State} (h : Shown k B U O L s) {u : Nat}
    (hu : u ∈ U) (h1 : stackBase ≤ va) (h2 : va < stackBase + 2 ^ 39) :
    walkPd s.mem u va = walkPd s.mem k va := by
  obtain ⟨v, hag, hst⟩ := h
  have hroot := hst.users u hu
  have hap : PagesApart u k := .of_ne (hroot.owned.page hst.sound) (hst.sound.root k rfl) fun he =>
    hroot.owned.notTable hst.sound ⟨k, rfl, 0, 0, he ▸ Radix.node_zero⟩
  have hslot := hroot.table
  have hpres := hroot.present
  rw [slotTable_eq, hag.entry_slot] at hslot
  rw [hag.entry_apart (by decide) hap] at hslot hpres
  split_ifs at hslot with hk
  have hidx : pml4Index va = stackSlot := by
    unfold pml4Index stackSlot
    unfold stackBase at h1 h2
    omega
  have hframe : entry s.mem k stackSlot &&& addrMask = entry s.mem u stackSlot &&& addrMask :=
    Option.some.inj hslot
  unfold walkPd
  rw [hidx]
  dsimp only
  rw [hk, hpres, hframe]

lemma StackInv.at (h : StackInv k w) (h1 : stackBase ≤ va) (h2 : va < stackBase + 2 ^ 39) :
    ((∃ x ∈ w.live, x.1 ≤ va ∧ va < usableEnd x) → WritableAt w.vm va) ∧
      ((¬∃ x ∈ w.live, x.1 ≤ va ∧ va < usableEnd x) → UnmappedAt w.vm va) := by
  have hmem : pageOf va ∈ pagesOf w.live ↔ ∃ x ∈ w.live, x.1 ≤ va ∧ va < usableEnd x :=
    exists_congr fun x => and_congr_right fun hx =>
      mem_slotPages (h.ranges x hx).1 (pageSize_dvd_usableBytes _) h1 h2
  rw [← hmem]
  exact h.shown.at h1 h2

lemma StackInv.law (h : StackInv k w) : StackLaw w := by
  have hk := h.shown.kernel
  have := h.high
  refine ⟨h.clear.imp fun hc => ?_, fun x hx va h1 h2 => ?_, fun x hx va hva => ?_,
    fun u hu va h1 h2 => ?_⟩
  · unfold StacksApart at hc
    omega
  · obtain ⟨-, hlo, hhi⟩ := h.ranges x hx
    exact (h.at (by omega) (by omega)).1 ⟨x, hx, h1, h2⟩
  · obtain ⟨-, hlo, hhi⟩ := h.ranges x hx
    have : x.1 ≤ usableEnd x := le_add_right _ _
    refine (h.at (by omega) (by omega)).2 ?_
    rintro ⟨y, hy, h1, h2⟩
    -- A guard page is neither in its own stack nor in another one.
    by_cases hxy : x = y
    · subst hxy
      omega
    · have hclear : StacksApart x y := h.clear.forall hx hy hxy
      unfold StacksApart at hclear
      omega
  · have hwalk := h.shown.seen hu h1 h2
    unfold vmmVirtToPhys vmmGetPteFlags
    rw [hk, hwalk]
    exact ⟨rfl, rfl⟩

end Law

/-! ## Steps -/

section Steps

variable {k n : Nat} {x : Nat × Nat} {w : StackWorld}

/-- Taking the pages of one stack away leaves those of the others. -/
theorem pagesOf_filter {live : List (Nat × Nat)} (h : live.Pairwise StacksApart) (hx : x ∈ live) :
    pagesOf live \ slotPages x.1 (usableBytes x.2) = pagesOf (live.filter (· ≠ x)) := by
  ext p
  constructor
  · rintro ⟨⟨y, hy, hp⟩, hnot⟩
    refine ⟨y, mem_filter.mpr ⟨hy, decide_eq_true ?_⟩, hp⟩
    rintro rfl
    exact hnot hp
  · rintro ⟨y, hy, hp⟩
    obtain ⟨hy, hne⟩ := mem_filter.mp hy
    refine ⟨⟨y, hy, hp⟩, fun hc => ?_⟩
    have hap : StacksApart y x := h.forall hy hx (of_decide_eq_true hne)
    obtain ⟨-, h1, h2⟩ := hp
    obtain ⟨-, h3, h4⟩ := hc
    unfold StacksApart usableEnd at hap
    omega

section

variable (h : StackInv k w)
include h

lemma StackInv.alloc (ho : InOrder w (.alloc n)) :
    StackInv k (stackStep w (.alloc n)).2 ∧ FailsClean w (.alloc n) := by
  by_cases hn0 : n = 0
  · subst hn0
    refine ⟨h, fun m hm hpos => ?_⟩
    obtain rfl := StackOp.alloc.inj hm
    exact absurd hpos (lt_irrefl 0)
  have hn : 0 < n := pos_of_ne_zero hn0
  have hhi : w.next + usableBytes n + 2 * pageSize ≤ stackBase + 2 ^ 39 := ho hn
  -- The slot ends far below `2 ^ 64`, so nothing wraps.
  have hf : w.next + n + 3 * pageSize ≤ 2 ^ 64 := by
    have := le_usableBytes n
    unfold stackBase pageSize at *
    omega
  have hnew : ∀ p ∈ slotPages (w.next + pageSize) (usableBytes n), p ∉ pagesOf w.live := by
    rintro p ⟨-, hlo, -⟩ ⟨x, hx, -, -, hlt⟩
    have hend := (h.ranges x hx).2.2
    unfold usableEnd at hend
    omega
  have hpage : pageSize ∣ w.next + usableBytes n + 2 * pageSize :=
    (h.page.add (pageSize_dvd_usableBytes n)).add (dvd_mul_left _ _)
  obtain ⟨r, s', hcall, hr⟩ := h.shown.vmmAllocKernelStack h.page h.low hn hf hhi hnew
  rcases hr with ⟨rfl, hsh⟩ | ⟨rfl, hsh⟩
  · have hstep : stackStep w (.alloc n) = (some (w.next + pageSize), { w with
        vm := s'
        next := w.next + usableBytes n + 2 * pageSize
        live := (w.next + pageSize, n) :: w.live
        started := true }) := by
      rw [stackStep, hcall]
    rw [FailsClean, hstep]
    refine ⟨⟨?_, hpage, ?_, hhi, ?_, ?_⟩, fun m _ _ hnone => nomatch hnone⟩
    · rw [show pagesOf ((w.next + pageSize, n) :: w.live) = _ from pagesOf_cons _ _]
      simpa using hsh
    · have := h.low
      dsimp only
      omega
    · rintro x (_ | ⟨_, hx⟩)
      · have := h.low
        unfold usableEnd
        exact ⟨h.page.add (dvd_refl _), by dsimp only; omega, by dsimp only; omega⟩
      · obtain ⟨h1, h2, h3⟩ := h.ranges x hx
        exact ⟨h1, h2, by dsimp only; omega⟩
    · refine pairwise_cons.mpr ⟨fun x hx => .inr ?_, h.clear⟩
      have := (h.ranges x hx).2.2
      omega
  · have hstep : stackStep w (.alloc n) = (none, { w with
        vm := s'
        next := w.next + usableBytes n + 2 * pageSize }) := by
      rw [stackStep, hcall]
    have := h.low
    have hinv : StackInv k (stackStep w (.alloc n)).2 := by
      rw [hstep]
      refine ⟨hsh, hpage, by dsimp only; omega, hhi, fun x hx => ?_, h.clear⟩
      obtain ⟨h1, h2, h3⟩ := h.ranges x hx
      exact ⟨h1, h2, by dsimp only; omega⟩
    refine ⟨hinv, fun m hm _ _ va h1 h2 => ?_⟩
    obtain rfl := StackOp.alloc.inj hm
    refine (hinv.at (by omega) (by omega)).2 ?_
    rw [hstep]
    rintro ⟨x, hx, -, hlt⟩
    have hend := (h.ranges x hx).2.2
    omega

lemma StackInv.free (hx : x ∈ w.live) : StackInv k (stackStep w (.free x.1 x.2)).2 := by
  obtain ⟨hdvd, hlo, hend⟩ := h.ranges x hx
  have := h.high
  have := le_usableBytes x.2
  have hbound : x.1 + usableBytes x.2 ≤ stackBase + 2 ^ 39 := by
    unfold usableEnd at hend
    omega
  have hfree := h.shown.vmmFreeKernelStack hdvd (by omega)
    (by unfold stackBase pageSize at *; omega) hbound
  rw [pagesOf_filter h.clear hx] at hfree
  exact ⟨hfree, h.page, h.low, h.high, fun y hy => h.ranges y (mem_filter.mp hy).1,
    h.clear.filter _⟩

lemma StackInv.create (hstart : w.started = true) : StackInv k (stackStep w .create).2 := by
  obtain ⟨v, hag, hst⟩ := h.shown
  rcases hst.create hag hstart with hfail | ⟨new, s', v', hnew, hag', hst'⟩
  · rw [stackStep, hfail]
    exact h
  · rw [stackStep, hnew]
    refine { h with shown := ⟨v', hag', ?_⟩ }
    simpa [Set.insert_def] using hst'

/-- Other parts of the kernel take pages and give them back. -/
theorem StackInv.take : StackInv k (stackStep w .take).2 := by
  obtain ⟨v, hag, hst⟩ := h.shown
  rw [stackStep]
  dsimp only
  split_ifs with h0
  · rw [pmmAllocPage_fail (hag.pmm ▸ hst.sound.good) h0]
    exact h
  · rw [← hag.pmm] at h0 ⊢
    refine { h with shown := ⟨_, hag.withPmm _, ?_⟩ }
    simpa [Set.insert_def] using (hst.take (pmmAllocPage_fresh hst.sound.good h0)).2

lemma StackInv.give {f : Nat} (hf : f ∈ w.others) : StackInv k (stackStep w (.give f)).2 := by
  obtain ⟨v, hag, hst⟩ := h.shown
  refine { h with shown := ⟨_, hag.freePage f, ?_⟩ }
  have hset : {g | g ∈ w.others.filter (· ≠ f)} = {g | g ∈ w.others} \ {f} := by
    ext g
    simp
  have hfree := hst.freePage hf
  rwa [← hset] at hfree

lemma StackInv.step (op : StackOp) (ho : InOrder w op) :
    StackInv k (stackStep w op).2 ∧ FailsClean w op := by
  cases op with
  | alloc n => exact h.alloc ho
  | free st n => exact ⟨h.free ho, fun _ hm => nomatch hm⟩
  | create => exact ⟨h.create ho, fun _ hm => nomatch hm⟩
  | take => exact ⟨h.take, fun _ hm => nomatch hm⟩
  | give f => exact ⟨h.give ho, fun _ hm => nomatch hm⟩

end

lemma sound_alone {top k : Nat} {v : State} (hgood : Good v.pmm) (hwithin : Within (2 ^ 52) v.pmm)
    (hpage : pageSize ∣ k) (hheld : Held v.pmm k)
    (hempty : ∀ i < 512, has (entry v.mem k i) flagPresent = false) :
    Sound top {k} v ∧ ∀ d n, tableAt top v.mem k d n = if d = 0 ∧ n = 0 then some k else none := by
  have hnone : ∀ i < 512, next top v.mem 0 k i = none := fun i hi => nextOf_absent (hempty i hi)
  have halone := Radix.node_alone hnone (by decide)
  refine ⟨⟨hgood, hwithin, ?_, ?_, ?_⟩, halone⟩
  · rintro r rfl
    exact hpage
  · rintro r rfl r' rfl d n d' n' t ht ht'
    rw [halone] at ht ht'
    split_ifs at ht ht'
    exact ⟨rfl, by omega, by omega⟩
  · rintro t ⟨r, rfl, d, n, ht⟩
    rw [halone] at ht
    split_ifs at ht
    exact Option.some.inj ht ▸ hheld

/-- Before the first stack, no page of the slot is mapped. -/
theorem StackStart.inv (h : StackStart w) : StackInv w.vm.kernelPml4 w := by
  obtain ⟨hgood, hwithin, hpage, hheld, habsent, hothers, hnext, hlive, husers, hstarted⟩ := h
  have hnone : pagesOf w.live = ∅ := by
    rw [hlive]
    simp [pagesOf]
  refine ⟨?_, ?_, hnext.ge, by rw [hnext]; omega, by simp [hlive], hlive ▸ Pairwise.nil⟩
  · rw [hnone]
    generalize hk : w.vm.kernelPml4 = k at *
    -- The state whose root has no entry but the one for the stacks.
    let v : State := ⟨fun a => if (k + 8 * stackSlot ≤ a ∧ a < k + 8 * stackSlot + 8) ∨
      ¬ (k ≤ a ∧ a < k + pageSize) then w.vm.mem a else 0, w.vm.pmm, k⟩
    have hag : Agree k w.vm v := ⟨rfl, hk.symm, fun a ha => if_pos ha⟩
    have hempty : ∀ i < 512, has (entry v.mem k i) flagPresent = false := fun i hi => by
      by_cases hs : i = stackSlot
      · rw [hs, hag.entry_slot]
        exact habsent
      · have hzero : entry v.mem k i = entry (fun _ => 0) k i :=
          Mem.read_congr fun a h1 h2 => if_neg (by unfold stackSlot pageSize at *; omega)
        rw [hzero, entry_blank]
        decide
    obtain ⟨hs, halone⟩ : Sound 512 {k} v ∧ _ := sound_alone hgood hwithin hpage hheld hempty
    have hpte : ∀ p, pte 512 v.mem k p = ⟨0, false⟩ := fun p => by
      rw [pte, leafSlot, halone]
      simp
    refine ⟨v, hag, hs, rfl, ?_, by simp, fun p _ _ => ?_, by simp, by simp, ?_, ?_, ?_⟩
    · rintro p - ⟨d, -, t, ht, hpres, -⟩
      rw [halone] at ht
      split_ifs at ht
      obtain rfl := Option.some.inj ht
      rw [hempty _ (tableIdx_lt p d)] at hpres
      exact absurd hpres Bool.false_ne_true
    · rw [hpte]
      decide
    · rw [husers]
      simp
    · intro f hf
      refine ⟨⟨(hothers f hf).1, ?_⟩, by simp [husers]⟩
      rintro t ⟨r, hr, d, n, ht⟩
      obtain rfl : r = k := hr
      replace ht := (halone d n).symm.trans ht
      split_ifs at ht
      exact Option.some.inj ht ▸ (hothers f hf).2
    · simp [hstarted]
  · rw [hnext]
    decide

end Steps

/-- The law holds after every call, and failures leave nothing behind. -/
theorem kernel_stacks_run {w : StackWorld} (h : StackStart w) {ops : List StackOp}
    (hops : stackStep.Along InOrder w ops) :
    StackLaw (stackStep.run w ops) ∧ stackStep.Along FailsClean w ops := by
  obtain ⟨hinv, hclean⟩ := Machine.run_along (fun w op hi ho => hi.step op ho) h.inv hops
  exact ⟨hinv.law, hclean⟩

def bootWorld (pmm : Pmm.State) : StackWorld :=
  ⟨⟨fun _ => 0, pmm, 2 ^ 20⟩, stackBase, [], [], [], false⟩

lemma bootWorld_start {pmm : Pmm.State} (hpmm : Running pmm)
    (hheld : ∀ f, 2 ^ 20 ≤ f → Held pmm f) :
    StackStart (bootWorld pmm) where
  good := hpmm.good
  within := hpmm.within
  page := show pageSize ∣ 2 ^ 20 by decide
  held := hheld _ le_rfl
  absent := by
    rw [bootWorld, entry_blank]
    decide
  others := by simp [bootWorld]
  next := rfl
  live := rfl
  users := rfl
  started := rfl

/-- A stack, a user root, a second stack for which no page is left, and the first stack freed. -/
theorem kernel_stacks_run_fivePages : ∃ pmm, pmmInit [fivePages] = some pmm ∧
    ∃ ops, ops = [StackOp.alloc 4096, .create, .alloc 4096, .free (stackBase + 4096) 4096] ∧
      StackLaw (stackStep.run (bootWorld pmm) ops) ∧
        stackStep.Along FailsClean (bootWorld pmm) ops := by
  obtain ⟨pmm, h0, hrun, hheld⟩ := fivePages_running
  have hops : ∀ pmm ∈ pmmInit [fivePages],
      stackStep.Along InOrder (bootWorld pmm)
        [.alloc 4096, .create, .alloc 4096, .free (stackBase + 4096) 4096] := by decide +kernel
  exact ⟨pmm, h0, _, rfl, kernel_stacks_run (bootWorld_start hrun hheld) (hops pmm h0)⟩

end YamKernel.Vmm

import YamKernel.Mem.Vmm.Ownership

/-!
# Kernel stacks

`vmm_alloc_kernel_stack` takes an ever growing range of addresses from one entry of the root, and
maps its pages one by one; a page less at either end stays unmapped. `vmm_free_kernel_stack`
translates each page again and gives its frame back, also for a range that is mapped in part.

Nothing is assumed of the rest of the kernel's tables, which are the boot loader's. `Agree` relates
the state to one whose root has no other entry, in which the tables form a tree.
-/

namespace YamKernel.Vmm

open Lib Pmm

/-! ## The code -/

def stackFlags : Nat := flagWrite ||| flagNx

/-- The body of the loop of `vmm_alloc_kernel_stack`. -/
def stackPage (pml4 : Nat) (s : State) (va : Nat) : Bool × State :=
  let (phys, pmm) := pmmAllocPage s.pmm
  let s := { s with pmm }
  if phys = 0 then (false, s)
  else
    match vmmMapPage s pml4 va phys stackFlags with
    | (false, s) => (false, s.freePage phys)
    | (true, s) => (true, s)

/-- The loop, which ends at the first page that cannot be mapped. -/
def stackPages (pml4 : Nat) : State → List Nat → Bool × State
  | s, [] => (true, s)
  | s, va :: vas =>
    match stackPage pml4 s va with
    | (false, s) => (false, s)
    | (true, s) => stackPages pml4 s vas

def vmmFreeKernelStack (s : State) (stack usableSize : Nat) : State :=
  if stack = 0 ∨ usableSize = 0 then s
  else (pageRange stack (pageCount usableSize)).foldl (unmapDropping pmmFreePage s.kernelPml4) s

/-- `vmm_alloc_kernel_stack`: the stack, the state and `g_next_kernel_stack` after the call. -/
def vmmAllocKernelStack (s : State) (next usableSize : Nat) : Option Nat × State × Nat :=
  if usableSize = 0 then (none, s, next)
  else
    let pages := pageCount usableSize
    let usableSize := pages * pageSize
    let total := u64 (usableSize + 2 * pageSize)
    let base := next
    let next := u64 (next + total)
    let usable := u64 (base + pageSize)
    match stackPages s.kernelPml4 s (pageRange usable pages) with
    | (true, s) => (some usable, s, next)
    | (false, s) => (none, vmmFreeKernelStack s usable usableSize, next)

/-! ## The slot -/

def stackBase : Nat := 0xFFFFE10000000000

def stackSlot : Nat := 450

def InSlot (p : Nat) : Prop := p / 2 ^ 27 = stackSlot

section Slot

variable {p va : Nat}

lemma InSlot.lt (h : InSlot p) : p < 2 ^ 36 := by
  unfold InSlot stackSlot at h
  omega

lemma InSlot.idx (h : InSlot p) : tableIdx p 0 = stackSlot := by
  unfold InSlot stackSlot at *
  unfold tableIdx
  omega

lemma pageOf_slot (h1 : stackBase ≤ va) (h2 : va < stackBase + 2 ^ 39) :
    InSlot (pageOf va) ∧ pageOf va = va / pageSize - (2 ^ 52 - 2 ^ 36) := by
  unfold InSlot pageOf stackSlot
  unfold stackBase pageSize at *
  omega

end Slot

/-- The states differ at most in the entries of the root `k` other than the one for the stacks. -/
structure Agree (k : Nat) (s v : State) : Prop where
  pmm : v.pmm = s.pmm
  kernel : v.kernelPml4 = s.kernelPml4
  mem : ∀ a, (k + 8 * stackSlot ≤ a ∧ a < k + 8 * stackSlot + 8) ∨ ¬ (k ≤ a ∧ a < k + pageSize) →
    v.mem a = s.mem a

section Agree

variable {k t i e d n : Nat} {s v : State}

section

variable (h : Agree k s v)
include h

lemma Agree.setEntry (t i e : Nat) : Agree k (s.setEntry t i e) (v.setEntry t i e) := by
  refine ⟨h.pmm, h.kernel, fun a ha => ?_⟩
  unfold State.setEntry Mem.write
  dsimp only
  split_ifs
  · rfl
  · exact h.mem a ha

lemma Agree.fill (pmm : Pmm.State) (f : Nat) :
    Agree k { s with pmm, mem := s.mem.fill f pageSize 0 }
      { v with pmm, mem := v.mem.fill f pageSize 0 } := by
  refine ⟨rfl, h.kernel, fun a ha => ?_⟩
  unfold Mem.fill
  dsimp only
  split_ifs
  · rfl
  · exact h.mem a ha

lemma Agree.withPmm (pmm : Pmm.State) : Agree k { s with pmm } { v with pmm } :=
  ⟨rfl, h.kernel, h.mem⟩

lemma Agree.freePage (f : Nat) : Agree k (s.freePage f) (v.freePage f) := by
  unfold State.freePage
  rw [h.pmm]
  exact h.withPmm _

/-- Pages apart from the root, and the entry for the stacks, read the same. -/
theorem Agree.entry_apart (hi : i < 512) (ht : PagesApart t k) :
    entry v.mem t i = entry s.mem t i := by
  refine entry_congr hi fun a h1 h2 => h.mem a (.inr ?_)
  unfold PagesApart at ht
  omega

lemma Agree.entry_slot : entry v.mem k stackSlot = entry s.mem k stackSlot :=
  Mem.read_congr fun a h1 h2 => h.mem a (.inl ⟨h1, h2⟩)

end

lemma Sound.table_apart (hv : Sound 512 {k} v) (ht : tableAt 512 v.mem k (d + 1) n = some t) :
    PagesApart t k := by
  have htab : IsTable 512 v.mem {k} t := ⟨k, rfl, d + 1, n, ht⟩
  refine .of_ne (isTable_dvd hv.root htab) (hv.root k rfl) ?_
  rintro rfl
  have := (hv.separate t rfl t rfl _ _ _ _ t ht Radix.node_zero).2.1
  omega

section

variable (h : Agree k s v)
include h

/-- What a walk to a page of the slot reads is the same in both states. -/
theorem Agree.entry_way (hv : Sound 512 {k} v) {p : Nat} (hp : InSlot p)
    (ht : tableAt 512 v.mem k d (tableNo p d) = some t) :
    entry v.mem t (tableIdx p d) = entry s.mem t (tableIdx p d) := by
  cases d with
  | zero =>
    rw [tableNo_zero hp.lt] at ht
    obtain rfl := Option.some.inj (Radix.node_zero.symm.trans ht)
    rw [hp.idx]
    exact h.entry_slot
  | succ d => exact h.entry_apart (tableIdx_lt p _) (hv.table_apart ht)

lemma Agree.get_table (he : entry v.mem t i = entry s.mem t i) (flags : Nat) :
    (getOrCreateTable v t i flags).1 = (getOrCreateTable s t i flags).1 ∧
      Agree k (getOrCreateTable s t i flags).2 (getOrCreateTable v t i flags).2 := by
  unfold getOrCreateTable allocPageTable
  rw [he, h.pmm]
  dsimp only
  split_ifs
  · exact ⟨rfl, h⟩
  · exact ⟨rfl, h⟩
  · exact ⟨rfl, h.withPmm _⟩
  · exact ⟨rfl, (h.fill _ _).setEntry _ _ _⟩

/-- One level of the walk that makes tables. -/
theorem Agree.next {v0 : State} {p : Nat} {l : List Nat} (g : Descent 512 {k} v0 v k p d l)
    (hp : InSlot p) (ht : tableAt 512 v.mem k d (tableNo p d) = some t) (flags : Nat) :
    ∃ s', getOrCreateTable s t (tableIdx p d) flags =
      ((getOrCreateTable v t (tableIdx p d) flags).1, s') ∧
      Agree k s' (getOrCreateTable v t (tableIdx p d) flags).2 := by
  obtain ⟨he, ha⟩ := h.get_table (h.entry_way g.grows.sound hp ht) flags
  exact ⟨_, by rw [he], ha⟩

section

variable {va : Nat} (hv : Sound 512 {k} v) (hp : InSlot (pageOf va))
include hv hp

lemma Agree.map_page (phys flags : Nat) :
    ∃ s', vmmMapPage s k va phys flags = ((vmmMapPage v k va phys flags).1, s') ∧
      Agree k s' (vmmMapPage v k va phys flags).2 := by
  unfold vmmMapPage
  rw [pml4Index_way, pdptIndex_way, pdIndex_way]
  generalize pageOf va = p at *
  have hidx : ∀ d, d = 0 → tableIdx p d < 512 := fun d _ => tableIdx_lt p d
  have g0 : Descent 512 {k} v v k p 0 [] := .start hv hp.lt
  have ht0 : tableAt 512 v.mem k 0 (tableNo p 0) = some k := tableAt_root hp.lt
  obtain ⟨sa, ea, ha⟩ := h.next g0 hp ht0 (flags &&& flagUser)
  rcases g0.next hv rfl (by decide) (hidx 0) ht0 flags with ⟨he, -⟩ | ⟨pdpt, va', la, he, ga, hpdpt⟩
  all_goals
    rw [he] at ea ha ⊢
    rw [ea]
  · exact ⟨sa, rfl, ha⟩
  dsimp only at ⊢
  obtain ⟨sb, eb, hb⟩ := ha.next ga hp hpdpt (flags &&& flagUser)
  rcases ga.next hv rfl (by decide) (hidx 1) hpdpt flags with ⟨he, -⟩ | ⟨pd, vb, lb, he, gb, hpd⟩
  all_goals
    rw [he] at eb hb ⊢
    rw [eb]
  · exact ⟨sb, rfl, hb⟩
  dsimp only at ⊢
  obtain ⟨sc, ec, hc⟩ := hb.next gb hp hpd (flags &&& flagUser)
  rcases gb.next hv rfl (by decide) (hidx 2) hpd flags with ⟨he, -⟩ | ⟨pt, vc, lc, he, gc, hpt⟩
  all_goals
    rw [he] at ec hc ⊢
    rw [ec]
  · exact ⟨sc, rfl, hc⟩
  exact ⟨_, rfl, hc.setEntry _ _ _⟩

/-- The entries on the way to a page of the slot, down to the page directory. -/
theorem Agree.walk : walkPd s.mem k va = walkPd v.mem k va := by
  unfold walkPd
  rw [pml4Index_way, pdptIndex_way, pdIndex_way]
  generalize pageOf va = p at *
  dsimp only
  have ht0 : tableAt 512 v.mem k 0 (tableNo p 0) = some k := tableAt_root hp.lt
  rw [← h.entry_way hv hp ht0]
  cases h4 : has (entry v.mem k (tableIdx p 0)) flagPresent with
  | false => simp
  | true =>
    have ht1 : tableAt 512 v.mem k 1 (tableNo p 1) =
        some (frame (entry v.mem k (tableIdx p 0))) := by
      rw [tableNo_succ p (by decide), tableAt_kid ht0 (tableIdx_lt p 0),
        nextOf_zero (tableIdx_lt p 0),
        if_pos h4]
    rw [show entry v.mem k (tableIdx p 0) &&& addrMask =
      frame (entry v.mem k (tableIdx p 0)) from rfl,
      ← h.entry_way hv hp ht1]
    cases h3 : has (entry v.mem (frame (entry v.mem k (tableIdx p 0))) (tableIdx p 1))
      flagPresent with
    | false => simp
    | true =>
      have ht2 : tableAt 512 v.mem k 2 (tableNo p 2) =
          some (frame (entry v.mem (frame (entry v.mem k (tableIdx p 0))) (tableIdx p 1))) := by
        rw [tableNo_succ p (by decide), tableAt_kid ht1 (tableIdx_lt p 1), nextOf_one, if_pos h3]
      have he := h.entry_way hv hp ht2
      unfold frame at he ⊢
      rw [← he]

/-- The page directory that is found, and the table of the page if it has one, read the same. -/
theorem Agree.leaf {pd : Nat} (hpd : walkPd v.mem k va = some pd) :
    entry s.mem pd (pdIndex va) = entry v.mem pd (pdIndex va) ∧
      (has (entry v.mem pd (pdIndex va)) flagHuge = false →
        entry s.mem (entry v.mem pd (pdIndex va) &&& addrMask) (ptIndex va) =
          entry v.mem (entry v.mem pd (pdIndex va) &&& addrMask) (ptIndex va)) := by
  have htop : pageOf va < 512 * 2 ^ 27 := Nat.mod_lt _ (by decide)
  have i1 : ptIndex va = tableIdx (pageOf va) 3 := (ptIndex_eq va).trans (tableIdx_three _).symm
  rw [walkPd_eq htop, ← tableNo_two, ← tableIdx_two, Option.bind_eq_some_iff] at hpd
  obtain ⟨t, ht2, hpd⟩ := hpd
  split_ifs at hpd with hpres
  obtain rfl := Option.some.inj hpd
  rw [pdIndex_way, i1, h.entry_way hv hp ht2]
  refine ⟨rfl, fun hhuge => ?_⟩
  rw [← h.entry_way hv hp ht2] at hhuge ⊢
  have ht3 : tableAt 512 v.mem k 3 (tableNo (pageOf va) 3) =
      some (frame (entry v.mem t (tableIdx (pageOf va) 2))) := by
    rw [tableNo_succ _ (by decide), tableAt_kid ht2 (tableIdx_lt _ 2),
      nextOf_two, if_pos hpres, hhuge]
    rfl
  exact (h.entry_way hv hp ht3).symm

lemma Agree.translate :
    vmmVirtToPhys s.mem k va = vmmVirtToPhys v.mem k va ∧
      vmmGetPteFlags s.mem k va = vmmGetPteFlags v.mem k va := by
  unfold vmmVirtToPhys vmmGetPteFlags
  rw [h.walk hv hp]
  cases hpd : walkPd v.mem k va with
  | none => exact ⟨rfl, rfl⟩
  | some pd =>
    obtain ⟨he, hleaf⟩ := h.leaf hv hp hpd
    dsimp only
    rw [he]
    cases hh : has (entry v.mem pd (pdIndex va)) flagHuge with
    | true => simp
    | false => simp [hleaf hh]

lemma Agree.unmapDropping (drop : Pmm.State → Nat → Pmm.State) :
    Agree k (unmapDropping drop k s va) (unmapDropping drop k v va) := by
  have hunmap : Agree k (vmmUnmapPage s k va) (vmmUnmapPage v k va) := by
    unfold vmmUnmapPage
    rw [h.walk hv hp]
    cases hpd : walkPd v.mem k va with
    | none => exact h
    | some pd =>
      dsimp only
      rw [(h.leaf hv hp hpd).1]
      exact h.setEntry _ _ _
  unfold Vmm.unmapDropping
  rw [(h.translate hv hp).1]
  dsimp only
  split_ifs
  · exact h
  · rw [hunmap.pmm]
    exact hunmap.withPmm _

lemma Agree.stackPage :
    ∃ s', stackPage k s va = ((stackPage k v va).1, s') ∧ Agree k s' (stackPage k v va).2 := by
  unfold Vmm.stackPage
  rw [← h.pmm]
  dsimp only
  split_ifs with h0
  · exact ⟨_, rfl, h.withPmm _⟩
  · obtain ⟨s', hs', ha⟩ := (h.withPmm (pmmAllocPage v.pmm).2).map_page
      (hv.take (pmmAllocPage_fresh hv.good h0)) hp (pmmAllocPage v.pmm).1 stackFlags
    rw [hs']
    clear hs'
    generalize vmmMapPage _ k va _ stackFlags = out at *
    obtain ⟨b, v'⟩ := out
    cases b with
    | false => exact ⟨_, rfl, ha.freePage _⟩
    | true => exact ⟨_, rfl, ha⟩

end

end

end Agree

end YamKernel.Vmm

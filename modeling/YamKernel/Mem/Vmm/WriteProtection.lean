import YamKernel.Mem.Vmm.ForkLaw
import YamKernel.Mem.Vmm.Spaces

/-!
# Write protection under fork

A page that was never given write permission, in its space or in the spaces that was forked
from, should stay read-only. Fork marks every page COW, whether it was writable or not, and the
handler of a write fault makes a COW page writable. So the protection holds in the runs in which
no such fault is taken on a page without permission.
-/

namespace YamKernel.Vmm

open Lib Pmm List Function Bool Pte

def Pte.writable (e : Pte) : Bool := e.present && has e.entry flagWrite

abbrev Granted := Nat → Nat → Prop

noncomputable def inherit (w : World) (granted : Granted) : SpaceOp → Granted
  | .fork src =>
    if src ∈ w.roots then
      match (vmmForkAddressSpace w.vm src).1 with
      | some new => update granted new (granted src)
      | none => granted
    else granted
  | .fault .. => granted
  | .store .. => granted

noncomputable def guardStep : Machine (World × Granted) SpaceOp Unit := fun s op =>
  ((), s.1.exec op, inherit s.1 s.2 op)

/-- Pages that are writable, or in an area with `PROT_WRITE`, were given permission. -/
structure Guarded (s : World × Granted) : Prop where
  intact : Intact s.1.spaces s.1.vm
  areas : ∀ r ∈ s.1.roots, ∀ v ∈ s.1.areas r, has v.prot protWrite = true →
    ∀ va, v.start ≤ va → va < v.stop → s.2 r (pageOf va)
  entries : ∀ r ∈ s.1.roots, ∀ p, (pte 256 s.1.vm.mem r p).writable = true → s.2 r p

/-- A write fault on a COW page is taken only where all pages behind the entry have permission. -/
def CowGranted (s : World × Granted) (pml4 : Nat) (va : UserAddr) (error : Nat) : Prop :=
  let e := pte 256 s.1.vm.mem pml4 (pageOf va)
  error % 4 = 3 → e.shared (pageOf va) = true → ∀ q, SameLeaf e.huge (pageOf va) q → s.2 pml4 q

/-- The same for the faults of stores. -/
def Obeys (s : World × Granted) : SpaceOp → Prop
  | .fork _ => True
  | .fault pml4 va error => CowGranted s pml4 va error
  | .store pml4 va byte => userStores s.1.vm pml4 va byte = none →
      CowGranted s pml4 va (storeError s.1.vm pml4 va)

section Steps

variable {R : Set Nat} {vm vm' : State} {g : Nat → Prop} {r p src new : Nat}
  {s : World × Granted}

lemma sharedEntry_write {huge : Bool} {e : Nat}
    (h : has (sharedEntry (leafDepth huge) e) flagWrite = true) : has e flagWrite = true := by
  unfold sharedEntry at h
  split_ifs at h
  · exact h
  · rw [has_or, has_or, has_and_apart, has_clear_self (by decide)] at h
    exact absurd h (by decide)
  · rw [has_or, has_or, has_or, has_and_apart, has_clear_self (by decide)] at h
    exact absurd h (by decide)

lemma Pte.forked_writable {m : Mem} (hp : (pte 256 m r p).present = true)
    (h : (pte 256 m r p).forked.writable = true) : (pte 256 m r p).writable = true := by
  unfold writable at *
  rw [and_eq_true] at *
  exact ⟨hp, sharedEntry_write h.2⟩

/-- A page that is writable after a fork was so before, in the space or in the one it is made
from. -/
theorem Forked.writable (g : Forked R vm vm' src new) (hr : r ∈ insert new R)
    (hp : (pte 256 vm'.mem r p).writable = true) :
    r = new ∧ (pte 256 vm.mem src p).writable = true ∨
      r ≠ new ∧ r ∈ R ∧ (pte 256 vm.mem r p).writable = true := by
  by_cases hrn : r = new
  · subst hrn
    rw [g.child] at hp
    split_ifs at hp with hc
    · exact .inl ⟨rfl, forked_writable hc.1 hp⟩
    · exact absurd hp (by decide)
  · have hr := hr.resolve_left hrn
    refine .inr ⟨hrn, hr, ?_⟩
    by_cases hrs : r = src
    · subst hrs
      rw [g.source] at hp
      split_ifs at hp with hc
      · exact forked_writable hc.1 hp
      · exact hp
    · rwa [g.other hr hrs] at hp

variable {va : UserAddr} {error : Nat}

/-- A fault makes only pages writable that have permission. -/
theorem Intact.fault_writable (h : Intact R vm) (hr : r ∈ R) {vmas : List Vma}
    (hareas : ∀ prot, areaProt vmas va = some prot → has prot protWrite = true → g (pageOf va))
    (hcow : error % 4 = 3 → (pte 256 vm.mem r (pageOf va)).shared (pageOf va) = true →
      ∀ q, SameLeaf (pte 256 vm.mem r (pageOf va)).huge (pageOf va) q → g q)
    {r' : Nat} (hr' : r' ∈ R) {q : Nat}
    (hq : (pte 256 (vmmHandlePageFault vm r vmas va error).2.mem r' q).writable = true) :
    (pte 256 vm.mem r' q).writable = true ∨ r' = r ∧ g q := by
  rcases h.sound.fault_cases hr va.page_lt (h.held hr) h.counts.lt vmas error with
    ⟨⟨h3, hsh⟩, -, s', he, k⟩ | ⟨⟨h3, hsh⟩, -, f, s', he, k⟩ |
      ⟨-, prot, f, s', hprot, he, k⟩ | ⟨he, -⟩
  · rw [he, k.pte_eq r' hr'] at hq
    split_ifs at hq with hc
    · exact .inr ⟨hc.1, hcow h3 hsh q hc.2⟩
    · exact .inl hq
  · rw [he] at hq
    by_cases hb : Blocked 256 vm.mem r (pageOf va)
    · rw [k.unmapped hb r' hr'] at hq
      exact .inl hq
    · rw [k.mapped hb r' hr'] at hq
      split_ifs at hq with hc
      · exact .inr ⟨hc.1, hc.2 ▸ hcow h3 hsh _ (.refl _ _)⟩
      · exact .inl hq
  · rw [he] at hq
    by_cases hpop : Populable 256 vm r (pageOf va)
    · rw [k.mapped hpop r' hr'] at hq
      split_ifs at hq with hc
      · unfold writable at hq
        rw [and_eq_true, leafEntry_has, areaFlags_write] at hq
        exact .inr ⟨hc.1, hc.2 ▸ hareas prot hprot hq.2⟩
      · exact .inl hq
    · rw [k.unmapped hpop r' hr'] at hq
      exact .inl hq
  · rw [he] at hq
    exact .inl hq

/-- The permission of an area is one of its pages. -/
theorem Guarded.areaProt (h : Guarded s) (hr : r ∈ s.1.roots) {va prot : Nat}
    (hprot : areaProt (s.1.areas r) va = some prot) (hw : has prot protWrite = true) :
    s.2 r (pageOf va) := by
  obtain ⟨v, hv, rfl⟩ := Option.map_eq_some_iff.mp hprot
  have hin := find?_some hv
  simp only [decide_eq_true_eq] at hin
  exact h.areas r hr v (mem_of_find?_eq_some hv) hw va hin.1 hin.2

lemma Guarded.fault (h : Guarded s) (hr : r ∈ s.1.roots) (hcow : CowGranted s r va error) :
    Guarded ({ s.1 with vm := (vmmHandlePageFault s.1.vm r (s.1.areas r) va error).2 }, s.2) := by
  refine ⟨h.intact.fault hr va.page_lt _ _, h.areas, fun r' hr' q hq => ?_⟩
  rcases h.intact.fault_writable hr (fun prot hp hw => h.areaProt hr hp hw) hcow hr' hq with
    hq | ⟨rfl, hg⟩
  · exact h.entries r' hr' q hq
  · exact hg

lemma Guarded.stores (h : Guarded s) (hr : r ∈ s.1.roots)
    {byte : UInt8} {vm : State} (hs : userStores s.1.vm r va byte = some vm) :
    Guarded ({ s.1 with vm }, s.2) := by
  obtain ⟨hk, hi⟩ := h.intact.stores hr va.2 hs
  refine ⟨hi, h.areas, fun r' hr' q hq => h.entries r' hr' q ?_⟩
  rwa [← hk.pte_eq hr']

lemma Guarded.step (h : Guarded s) (op : SpaceOp) (hop : Obeys s op) :
    Guarded (guardStep s op).2 := by
  cases op with
  | fork src =>
    rw [guardStep, World.exec, inherit]
    split_ifs with hsrc
    · rcases h.intact.fork_cases hsrc with ⟨hout, he⟩ | ⟨new, vm, hout, he, hnew, g⟩
      · rw [hout, he]
        exact h
      · rw [hout, he]
        refine ⟨by rw [spaces_cons]; exact h.intact.forked g hsrc, fun r hr v hv hw va h1 h2 => ?_,
          fun r hr p hp => ?_⟩
        · dsimp only at hv ⊢
          by_cases hrn : r = new
          · subst hrn
            rw [update_self] at hv ⊢
            exact h.areas src hsrc v hv hw va h1 h2
          · rw [update_of_ne hrn] at hv ⊢
            exact h.areas r (mem_of_ne_of_mem hrn hr) v hv hw va h1 h2
        · dsimp only
          rcases g.writable (mem_cons.mp hr) hp with ⟨rfl, hb⟩ | ⟨hrn, hr, hb⟩
          · rw [update_self]
            exact h.entries src hsrc p hb
          · rw [update_of_ne hrn]
            exact h.entries r hr p hb
    · exact h
  | fault pml4 va error =>
    rw [guardStep, World.exec]
    split_ifs with hr
    · exact h.fault hr hop
    · exact h
  | store pml4 va byte =>
    rw [guardStep, World.exec]
    split_ifs with hr
    · unfold userStore
      cases hs : userStores s.1.vm pml4 va byte with
      | some vm => exact h.stores hr hs
      | none =>
        have hf := h.fault hr (hop hs)
        dsimp only
        generalize hs' : userStores _ pml4 va byte = out
        cases out with
        | some vm => exact hf.stores hr hs'
        | none => exact hf
    · exact h

end Steps

/-- Write protection: in a run that obeys the condition, no page without permission is writable. -/
theorem write_protection {s : World × Granted} (h : Guarded s) {ops : List SpaceOp}
    (hops : guardStep.Along Obeys s ops) {r p : Nat} (hr : r ∈ (guardStep.run s ops).1.roots)
    (hp : ¬ (guardStep.run s ops).2 r p) :
    (pte 256 (guardStep.run s ops).1.vm.mem r p).writable = false := by
  have hinv : Guarded (guardStep.run s ops) :=
      Machine.run_invariant (fun _ _ hi ho => hi.step _ ho) h hops
  exact eq_false_of_not_eq_true fun hw => hp (hinv.entries r hr p hw)

section OnePage

variable {pmm : Pmm.State} {flags : Nat}

def onePageWorld (pmm : Pmm.State) (flags : Nat) : World :=
  ⟨onePage pmm flags, [2 ^ 20], fun _ => []⟩

lemma OnePage.intact {s : State} (h : OnePage s flags) (hf : frame flags = 0) :
    Intact {2 ^ 20} s := by
  refine ⟨h.sound, h.counts, fun r hr p hp => ?_⟩
  obtain rfl := Set.mem_singleton_iff.mp hr
  rw [h.pte_eq] at hp ⊢
  split_ifs at hp ⊢
  · rw [frameOf_small rfl hp, leafEntry_frame (by decide) (by decide) hf]
    refine data_of_held h.sound (h.held _ (by decide)) (by decide) fun ht => ?_
    exact absurd (h.tables _ ht) (by decide)
  · exact absurd hp (by decide)

/-- In the world with one read-only page nothing needs permission. -/
theorem OnePage.guarded (h : OnePage (onePage pmm flags) flags) (hf : frame flags = 0)
    (hw : has flags flagWrite = false) : Guarded (onePageWorld pmm flags, fun _ _ => False) := by
  have hroots : (onePageWorld pmm flags).spaces = {2 ^ 20} := by
    ext r
    simp [World.spaces, onePageWorld]
  refine ⟨?_, fun r _ v hv => by simp [onePageWorld] at hv, fun r hr p hp => ?_⟩
  · rw [hroots]
    exact h.intact hf
  · obtain rfl : r = 2 ^ 20 := by simpa [onePageWorld] using hr
    change (pte 256 (onePage pmm flags).mem (2 ^ 20) p).writable = true at hp
    rw [h.pte_eq] at hp
    split_ifs at hp
    · unfold writable at hp
      rw [and_eq_true, leafEntry_has, hw] at hp
      exact absurd hp.2 (by decide)
    · exact absurd hp (by decide)

/-- A page of the source is COW after the fork, and writable after a write fault. -/
theorem OnePage.fork_fault {s : State} (h : OnePage s flagUser) (h5 : Provides s.pmm 5) :
    ∃ new vm, vmmForkAddressSpace s (2 ^ 20) = (some new, vm) ∧
      (pte 256 (vmmHandlePageFault vm (2 ^ 20) [] 0x400000 7).2.mem
        (2 ^ 20) 0x400).writable = true := by
  have hpte := h.pte_eq 0x400
  rw [if_pos rfl] at hpte
  have hi := h.intact (by decide)
  rcases h.sound.fork rfl h.counts with ⟨hz, -⟩ | ⟨new, vm, he, g⟩
  · exact absurd hz (provides_one.mp (h5.mono (by decide)))
  refine ⟨new, vm, he, ?_⟩
  have htabs := h.tabs_le
  have hc : Copies s (2 ^ 20) 0x400 :=
    ⟨by rw [hpte]; decide, h5.mono ((Nat.add_le_add_left (htabs _) 1).trans (by decide))⟩
  have hcow : pte 256 vm.mem (2 ^ 20) 0x400 =
      (Pte.mk (leafEntry (2 ^ 21) flagUser) false).forked := by
    rw [g.source, if_pos hc, hpte]
  have hsh : (pte 256 vm.mem (2 ^ 20) 0x400).shared 0x400 = true := by
    rw [hcow]
    decide
  have hi' := hi.forked g rfl
  have hroot : 2 ^ 20 ∈ insert new ({2 ^ 20} : Set Nat) := Set.mem_insert_of_mem _ rfl
  rcases hi'.sound.fault_cases hroot (show pageOf 0x400000 < 256 * 2 ^ 27 by decide)
    (hi'.held hroot)
    hi'.counts.lt [] 7 with
    ⟨-, -, s', he, k⟩ | ⟨-, -, f, s', he, k⟩ | ⟨hno, -⟩ | ⟨-, hno, -⟩
  · rw [he, k.pte_eq _ hroot, if_pos ⟨rfl, .refl _ _⟩]
    unfold writable present
    rw [relabel_present, relabel_has _ (by decide) (by decide) (by decide) (by decide),
      cowFlags_write]
    rfl
  · have hb : ¬ Blocked 256 vm.mem (2 ^ 20) 0x400 := fun hb =>
      h.clear _ (g.blocked 0x400 (by decide) (.inl hb))
    rw [he, k.mapped hb _ hroot, if_pos ⟨rfl, rfl⟩]
    unfold writable present
    rw [leafEntry_present, leafEntry_has, cowFlags_write]
    rfl
  · exact absurd ⟨rfl, hsh⟩ hno
  · -- There is a page left for a copy.
    refine absurd (hno ⟨rfl, hsh⟩).2 ?_
    rw [g.pmm.alloc.1]
    exact h5 _ (Nat.lt_succ_of_le (Nat.add_le_add_left (htabs _) 1))

end OnePage

/-- A read-only page is forked twice and read through faults in between. -/
theorem write_protection_onePage : ∃ pmm, pmmInit [eightPages] = some pmm ∧
    let s := guardStep.run (onePageWorld pmm flagUser, fun _ _ => False)
      [.fork (2 ^ 20), .fault (2 ^ 20) ⟨0x400000, by decide⟩ 5, .fork (2 ^ 20)];
    ∀ r ∈ s.1.roots, ∀ p, ¬ s.2 r p → (pte 256 s.1.vm.mem r p).writable = false := by
  obtain ⟨pmm, h0, hrun, hheld⟩ := eightPages_running
  have hprov : ∀ pmm ∈ pmmInit [eightPages], Provides pmm 3 := by decide +kernel
  have h := onePage_spec hrun hheld (hprov pmm h0) flagUser (by decide)
  refine ⟨pmm, h0, fun r hr p hp => write_protection (h.guarded (by decide) (by decide)) ?_ hr hp⟩
  exact ⟨trivial, fun h3 => absurd h3 (by decide), trivial, trivial⟩

/-- A read-only page is forked; the write fault that follows makes it writable. -/
theorem protection_lost : ∃ pmm, pmmInit [eightPages] = some pmm ∧
    Guarded (onePageWorld pmm flagUser, fun _ _ => False) ∧
    let s := guardStep.run (onePageWorld pmm flagUser, fun _ _ => False)
      [.fork (2 ^ 20), .fault (2 ^ 20) ⟨0x400000, by decide⟩ 7];
    2 ^ 20 ∈ s.1.roots ∧ ¬ s.2 (2 ^ 20) 0x400 ∧
      (pte 256 s.1.vm.mem (2 ^ 20) 0x400).writable = true := by
  obtain ⟨pmm, h0, hrun, hheld⟩ := eightPages_running
  have hprov : ∀ pmm ∈ pmmInit [eightPages], Provides pmm 3 ∧
      Provides (onePage pmm flagUser).pmm 5 := by
    decide +kernel
  obtain ⟨h3, h5⟩ := hprov pmm h0
  have h := onePage_spec hrun hheld h3 flagUser (by decide)
  have hg := h.guarded (by decide) (by decide)
  refine ⟨pmm, h0, hg, ?_⟩
  obtain ⟨new, vm, he, hw⟩ := h.fork_fault h5
  have hstep : guardStep.run (onePageWorld pmm flagUser, fun _ _ => False)
      [.fork (2 ^ 20), .fault (2 ^ 20) ⟨0x400000, by decide⟩ 7] =
      (⟨(vmmHandlePageFault vm (2 ^ 20) [] 0x400000 7).2, [new, 2 ^ 20], fun _ => []⟩,
        fun _ _ => False) := by
    simp [-Nat.reducePow, Machine.run, guardStep, World.exec, World.fork, inherit, onePageWorld, he]
  rw [hstep]
  exact ⟨by simp, id, hw⟩

end YamKernel.Vmm

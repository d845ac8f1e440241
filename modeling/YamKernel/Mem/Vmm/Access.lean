import YamKernel.Mem.Vmm.Spaces

/-!
# Accesses by user code

User code reads, writes and fetches instructions through its page tables. An access that the
entry of the page does not grant takes a page fault and is tried once more. `access_iff` says
which accesses go through: those the entry grants, writes to pages that are marked COW, and those
that the protection of an area grants once a frame is mapped.
-/

namespace YamKernel.Vmm

open Lib Pmm Pte

/-- What user code does at an address. -/
inductive Access where
  | read
  | write (byte : UInt8)
  | fetch

namespace Access

def isWrite : Access → Bool
  | .write _ => true
  | _ => false

/-- The flags of an entry that let the access through. -/
def grantedBy (flags : Nat) : Access → Bool
  | .read => has flags flagPresent && has flags flagUser
  | .write _ => has flags flagPresent && has flags flagUser && has flags flagWrite
  | .fetch => has flags flagPresent && has flags flagUser && !has flags flagNx

/-- The protection that is meant to let the access through. -/
def allowedBy (prot : Nat) : Access → Bool
  | .read => has prot protRead
  | .write _ => has prot protWrite
  | .fetch => has prot protExec

/-- The error code of the page fault: present, write, user, fetch. -/
def error (flags : Nat) : Access → Nat
  | .read => if has flags flagPresent then 5 else 4
  | .write _ => if has flags flagPresent then 7 else 6
  | .fetch => if has flags flagPresent then 0x15 else 0x14

def perform (s : State) (pml4 va : Nat) (a : Access) : Option State :=
  if a.grantedBy (vmmGetPteFlags s.mem pml4 va) then
    match a with
    | .write byte => some { s with mem := Function.update s.mem (vmmVirtToPhys s.mem pml4 va) byte }
    | _ => some s
  else none

end Access

/-- An access that takes a page fault if need be: whether it went through, and the state. -/
def userAccess (s : State) (pml4 : Nat) (vmas : List Vma) (va : Nat) (a : Access) : Bool × State :=
  match a.perform s pml4 va with
  | some s' => (true, s')
  | none =>
    let error := a.error (vmmGetPteFlags s.mem pml4 va)
    let s' := (vmmHandlePageFault s pml4 vmas va error).2
    match a.perform s' pml4 va with
    | some s'' => (true, s'')
    | none => (false, s')

/-- A task with the given tables and areas that does nothing but access its memory. -/
def accessStep (pml4 : Nat) (vmas : List Vma) : Machine State (UserAddr × Access) Bool :=
  fun s op => userAccess s pml4 vmas op.1 op.2

def Pte.grants (e : Pte) (a : Access) : Bool := a.grantedBy e.entry

/-- The access goes through, if need be after a fault that the COW bit or an area answers. -/
def Permitted (s : State) (r : Nat) (vmas : List Vma) (va : Nat) (a : Access) : Prop :=
  let p := pageOf va
  let e := pte 256 s.mem r p
  e.grants a = true ∨
    (a.isWrite = true ∧ e.shared p = true ∧ has e.entry flagUser = true ∧
      (pmmPageRefcount s.pmm (e.frameOf p) ≤ 1 ∨ Provides s.pmm 1)) ∨
    (¬ (a.isWrite = true ∧ e.shared p = true) ∧
      ∃ prot, areaProt vmas va = some prot ∧ Populable 256 s r p ∧
        a.grantedBy (areaFlags prot) = true)

section Entries

variable {R : Set Nat} {s : State} {r va f : Nat} {e : Pte} {a : Access}

lemma Access.grantedBy_congr {x y : Nat} (hp : has x flagPresent = has y flagPresent)
    (hu : has x flagUser = has y flagUser) (hw : has x flagWrite = has y flagWrite)
    (hn : has x flagNx = has y flagNx) (a : Access) : a.grantedBy x = a.grantedBy y := by
  cases a <;> simp [grantedBy, hp, hu, hw, hn]

lemma Access.perform_isSome (hva : pageOf va < 256 * 2 ^ 27) :
    (a.perform s r va).isSome = (pte 256 s.mem r (pageOf va)).grants a := by
  have hgr : a.grantedBy (vmmGetPteFlags s.mem r va) = (pte 256 s.mem r (pageOf va)).grants a := by
    rw [vmmGetPteFlags_eq hva]
    exact a.grantedBy_congr (has_and) (has_and) (has_and)
      (has_and)
  unfold perform
  rw [hgr]
  cases (pte 256 s.mem r (pageOf va)).grants a <;> cases a <;> rfl

/-- The fault is one for `vmm_handle_cow_fault` when the access is a write to a shared page. -/
theorem Access.error_cow (hva : pageOf va < 256 * 2 ^ 27) :
    (a.error (vmmGetPteFlags s.mem r va) % 4 = 3 ∧
      (pte 256 s.mem r (pageOf va)).shared (pageOf va) = true) ↔
    (a.isWrite = true ∧ (pte 256 s.mem r (pageOf va)).shared (pageOf va) = true) := by
  refine and_congr_left fun hsh => ?_
  have hp : has (vmmGetPteFlags s.mem r va) flagPresent = true := by
    rw [vmmGetPteFlags_eq hva, has_and]
    exact shared_present hsh
  cases a <;> simp [error, isWrite, hp]

lemma userAccess_fst (s : State) (r : Nat) (vmas : List Vma) (va : Nat) (a : Access) :
    (userAccess s r vmas va a).1 = ((a.perform s r va).isSome ||
      (a.perform (vmmHandlePageFault s r vmas va (a.error (vmmGetPteFlags s.mem r va))).2 r
        va).isSome) := by
  unfold userAccess
  cases a.perform s r va with
  | some s' => rfl
  | none =>
    dsimp only
    cases a.perform (vmmHandlePageFault s r vmas va (a.error (vmmGetPteFlags s.mem r va))).2 r va
      <;> rfl

/-- The write fault on a COW page lets the write through if the page is the user's. -/
theorem Pte.grants_relabel_cow (ha : a.isWrite = true) :
    (mk (e.relabel e.cowFlags) e.huge).grants a = has e.entry flagUser := by
  cases a with
  | write byte =>
    rw [grants, Access.grantedBy, relabel_present, e.relabel_has, e.relabel_has,
      e.cowFlags_write, e.cowFlags_has]
    simp
  | read | fetch => exact absurd ha (by decide)

lemma Pte.grants_leaf_cow (ha : a.isWrite = true) :
    (mk (leafEntry f e.cowFlags) false).grants a = has e.entry flagUser := by
  cases a with
  | write byte =>
    rw [grants, Access.grantedBy, leafEntry_present, leafEntry_has, leafEntry_has,
      e.cowFlags_write, e.cowFlags_has]
    simp
  | read | fetch => exact absurd ha (by decide)

lemma areaFlags_user (prot : Nat) :
    has (areaFlags prot) flagPresent = true ∧ has (areaFlags prot) flagUser = true := by
  unfold areaFlags
  split_ifs <;> decide

/-- An area lets the accesses through that its protection allows, and all reads. -/
theorem Access.grantedBy_area (prot : Nat) :
    a.grantedBy (areaFlags prot) = match a with
      | .read => true
      | a => a.allowedBy prot := by
  obtain ⟨hp, hu⟩ := areaFlags_user prot
  cases a <;> simp [grantedBy, allowedBy, hp, hu, areaFlags_write, areaFlags_nx]

lemma Pte.grants_leaf_area (prot : Nat) :
    (mk (leafEntry f (areaFlags prot)) false).grants a = a.grantedBy (areaFlags prot) := by
  refine a.grantedBy_congr ?_ ?_ ?_ ?_
  · rw [leafEntry_present, (areaFlags_user prot).1]
  all_goals exact leafEntry_has

end Entries

section Law

variable {R : Set Nat} {s : State} {r : Nat} {va : UserAddr} {a : Access}

lemma Intact.access_iff (h : Intact R s) (hr : r ∈ R) (hb : ¬ Blocked 256 s.mem r (pageOf va))
    (vmas : List Vma) : (userAccess s r vmas va a).1 = true ↔ Permitted s r vmas va a := by
  have hva := va.page_lt
  rw [userAccess_fst, Access.perform_isSome hva, Access.perform_isSome hva, Bool.or_eq_true]
  refine or_congr_right' fun hno => ?_
  have hcases := h.sound.fault_cases hr hva (h.held hr) h.counts.lt vmas
    (a.error (vmmGetPteFlags s.mem r va))
  dsimp only at hcases
  rw [Access.error_cow hva] at hcases
  rcases hcases with ⟨hcow, hle, s', hs', g⟩ | ⟨hcow, hgt, f, s', hs', g⟩ |
      ⟨hcow, prot, f, s', harea, hs', g⟩ | ⟨hs', hwhy, hwhy'⟩
  · rw [hs', g.pte_eq r hr, if_pos ⟨rfl, .refl _ _⟩, grants_relabel_cow hcow.1]
    simp [hcow, hle]
  · rw [hs', g.mapped hb r hr, if_pos ⟨rfl, rfl⟩, grants_leaf_cow hcow.1]
    simp [hcow, g.fresh.provides h.sound.good]
  · rw [hs', or_iff_right fun hc => hcow ⟨hc.1, hc.2.1⟩, and_iff_right hcow]
    by_cases hpop : Populable 256 s r (pageOf va)
    · rw [g.mapped hpop r hr, if_pos ⟨rfl, rfl⟩, grants_leaf_area]
      simp [harea, hpop]
    · rw [g.unmapped hpop r hr]
      simp [hno, hpop]
  · rw [hs']
    refine iff_of_false hno ?_
    rintro (⟨hw, hsh, -, hmem⟩ | ⟨hcow, prot, harea, hpop, -⟩)
    · obtain ⟨hgt, h0⟩ := hwhy ⟨hw, hsh⟩
      rcases hmem with hle | hprov
      · omega
      · exact provides_one.mp hprov h0
    · rcases hwhy' hcow with hnone | h0
      · simp [hnone] at harea
      · exact provides_one.mp (hpop.2.mono (by omega)) h0

end Law

/-! ## Runs of accesses -/

section Runs

variable {R : Set Nat} {s s' : State} {r : Nat} {va : UserAddr} {a : Access} {vmas : List Vma}

lemma Intact.perform (h : Intact R s) (hr : r ∈ R) (hs : a.perform s r va = some s') :
    KeepsTables 256 R s.mem s'.mem ∧ Intact R s' := by
  unfold Access.perform at hs
  split_ifs at hs with hg
  cases a with
  | write byte =>
    have hstore : userStores s r va byte = some s' := hs ▸ if_pos hg
    exact h.stores hr va.2 hstore
  | read | fetch =>
    obtain rfl := Option.some.inj hs
    exact ⟨fun _ _ _ _ => rfl, h⟩

lemma userAccess_invariant {I : State → Prop} (hr : r ∈ R) (hi : ∀ s, I s → Intact R s)
    (hkeep : ∀ s s', I s → KeepsTables 256 R s.mem s'.mem → Intact R s' → I s')
    (hfault : ∀ s error, I s → I (vmmHandlePageFault s r vmas va error).2) (h : I s) :
    I (userAccess s r vmas va a).2 := by
  have hperform : ∀ {s s'}, I s → a.perform s r va = some s' → I s' := fun h hs =>
    hkeep _ _ h ((hi _ h).perform hr hs).1 ((hi _ h).perform hr hs).2
  unfold userAccess
  cases hs : a.perform s r va with
  | some s' => exact hperform h hs
  | none =>
    have hf := hfault s (a.error (vmmGetPteFlags s.mem r va)) h
    dsimp only
    cases hs' : a.perform (vmmHandlePageFault s r vmas va
      (a.error (vmmGetPteFlags s.mem r va))).2 r va with
    | some s'' => exact hperform hf hs'
    | none => exact hf

end Runs

end YamKernel.Vmm

import Mathlib.Data.List.Nodup
import YamKernel.Sched.Model

/-!
# Tasks and the address spaces they share

An abstract view of the task table: of a task only its relatives, its address space and
its thread group are kept. A task without a thread group is a process, the others are
threads. `Family` says how address spaces are shared: two processes never share one, and a
thread shares the one of the process that created it for as long as that process lives.
`Family.sole` is what this is for: a process none of whose children shares its address
space is the only task that uses it.
-/

namespace YamKernel.Sched

structure Kin where
  id : Nat
  exited : Bool
  parent : Option Ptr
  children : List Ptr
  pml4 : Option Ptr
  threadGroup : Nat

structure Family (live : List Ptr) (kin : Ptr → Kin) (spaces : List Ptr) (nextId : Nat) :
    Prop where
  nodup : live.Nodup
  id_lt : ∀ t ∈ live, (kin t).id < nextId
  group_lt : ∀ t ∈ live, (kin t).threadGroup ≠ 0 → (kin t).threadGroup < (kin t).id
  space : ∀ t ∈ live, ∀ p, (kin t).pml4 = some p → p ∈ spaces
  child : ∀ t ∈ live, ∀ c ∈ (kin t).children, c ∈ live ∧ (kin c).parent = some t
  child_ne : ∀ t ∈ live, t ∉ (kin t).children
  child_nodup : ∀ t ∈ live, (kin t).children.Nodup
  exited : ∀ t ∈ live, (kin t).exited = true → (kin t).children = []
  process : ∀ t ∈ live, ∀ u ∈ live, ∀ p, (kin t).threadGroup = 0 → (kin u).threadGroup = 0 →
    (kin t).pml4 = some p → (kin u).pml4 = some p → t = u
  thread : ∀ t ∈ live, ∀ p, (kin t).threadGroup ≠ 0 → (kin t).pml4 = some p →
    (kin t).parent = none ∨ ∃ u ∈ live, (kin t).parent = some u ∧ t ∈ (kin u).children ∧
      (kin u).threadGroup = 0 ∧ (kin u).pml4 = some p
  orphan : ∀ t ∈ live, ∀ u ∈ live, ∀ p, (kin t).threadGroup ≠ 0 → (kin t).parent = none →
    (kin t).pml4 = some p → (kin u).threadGroup = 0 → (kin u).pml4 ≠ some p

namespace Family

variable {live spaces spaces' : List Ptr} {kin kin' : Ptr → Kin} {n : Nat} {t u cur p : Ptr}

lemma sole (h : Family live kin spaces n) (ht : t ∈ live) (hg : (kin t).threadGroup = 0)
    (hp : (kin t).pml4 = some p) (hc : ∀ c ∈ (kin t).children, (kin c).pml4 ≠ some p)
    (hu : u ∈ live) (hup : (kin u).pml4 = some p) : u = t := by
  by_cases hgu : (kin u).threadGroup = 0
  · exact h.process u hu t ht p hgu hg hup hp
  obtain hnone | ⟨v, hv, -, hmem, hgv, hpv⟩ := h.thread u hu p hgu hup
  · exact absurd hp (h.orphan u hu t ht p hgu hnone hup hg)
  · obtain rfl := h.process v hv t ht p hgv hg hpv hp
    exact absurd hup (hc u hmem)

/-- A new task is a process with an address space of its own, or has none, or is a thread
of the process that creates it. -/
structure Newcomer (kin : Ptr → Kin) (cur : Ptr) (spaces spaces' : List Ptr) (n : Nat)
    (k : Kin) (listed : Bool) : Prop where
  id : k.id = n
  exited : k.exited = false
  parent : k.parent = some cur
  children : k.children = []
  group_lt : k.threadGroup ≠ 0 → k.threadGroup < n
  space : ∀ p, k.pml4 = some p → p ∈ spaces'
  owner : (k.threadGroup = 0 ∧ ∀ p, k.pml4 = some p → p ∉ spaces) ∨ k.pml4 = none ∨
    (listed = true ∧ k.threadGroup ≠ 0 ∧ (kin cur).threadGroup = 0 ∧ k.pml4 = (kin cur).pml4)

section

variable (h : Family live kin spaces n)
include h

lemma add (ht : t ∉ live) (hcur : cur ∈ live)
    (hex : (kin cur).exited = false) {k : Kin} {listed : Bool}
    (hk : Newcomer kin cur spaces spaces' n k listed) (hsub : ∀ p ∈ spaces, p ∈ spaces')
    (hself : kin' t = k)
    (hparent : kin' cur = { kin cur with
      children := if listed then (kin cur).children ++ [t] else (kin cur).children })
    (hother : ∀ u, u ≠ t → u ≠ cur → kin' u = kin u) :
    Family (t :: live) kin' spaces' (n + 1) := by
  -- All fields but the list of children of `cur` are as before in the old tasks.
  have hold : ∀ u ∈ live, (kin' u).id = (kin u).id ∧ (kin' u).exited = (kin u).exited ∧
      (kin' u).parent = (kin u).parent ∧ (kin' u).pml4 = (kin u).pml4 ∧
      (kin' u).threadGroup = (kin u).threadGroup ∧
      ((kin' u).children = (kin u).children ∨
        u = cur ∧ listed = true ∧ (kin' u).children = (kin u).children ++ [t]) := by
    grind
  have : ∀ u ∈ live, ∀ c ∈ (kin u).children, c ∈ (kin' u).children := by grind
  obtain ⟨hid, hkex, hpar, hch, hgrp, hsp, hown⟩ := hk
  obtain ⟨hnd, hid_lt, hgroup, hspace, hchild, hne, hchild_nd, hexited, hprocess, hthread,
    horphan⟩ := h
  refine ⟨List.nodup_cons.mpr ⟨ht, hnd⟩, ?_, ?_, ?_, ?_, ?_, ?_, ?_, ?_, ?_, ?_⟩
  · grind
  · grind
  · grind
  · grind
  · grind
  · intro u hu
    obtain rfl | hu := List.mem_cons.mp hu
    · rw [hself, hch]; exact List.nodup_nil
    · obtain ⟨-, -, -, -, -, he | ⟨-, -, he⟩⟩ := hold u hu
      · rw [he]; exact hchild_nd u hu
      · grind
  · grind
  · grind
  · grind
  · grind

/-- A task exits: its children become orphans, and if one of them shares its address space
the task lets go of it. -/
theorem exit (hcur : cur ∈ live) {pml4 : Option Ptr}
    (hpml4 : pml4 = none ∨ pml4 = (kin cur).pml4 ∧
      ∀ c ∈ (kin cur).children, ∀ p, (kin cur).pml4 = some p → (kin c).pml4 ≠ some p)
    (hself : kin' cur = { kin cur with exited := true, children := [], pml4 })
    (hkids : ∀ c ∈ (kin cur).children, kin' c = { kin c with parent := none })
    (hother : ∀ u, u ≠ cur → u ∉ (kin cur).children → kin' u = kin u) :
    Family live kin' spaces n := by
  have : ∀ u, (kin' u).id = (kin u).id ∧ (kin' u).threadGroup = (kin u).threadGroup ∧
      (u ≠ cur → (kin' u).pml4 = (kin u).pml4 ∧ (kin' u).children = (kin u).children ∧
        (kin' u).exited = (kin u).exited) ∧
      ((kin' u).parent = (kin u).parent ∨ u ∈ (kin cur).children ∧ (kin' u).parent = none) := by
    intro u
    by_cases u ∈ (kin cur).children <;> grind
  obtain ⟨hnd, hid_lt, hgroup, hspace, hchild, hne, hchild_nd, hexited, hprocess, hthread,
    horphan⟩ := h
  refine ⟨hnd, ?_, ?_, ?_, ?_, ?_, ?_, ?_, ?_, ?_, ?_⟩
  all_goals grind

/-- A process none of whose children shares its address space moves to a new one. -/
theorem exec (hcur : cur ∈ live) (hg : (kin cur).threadGroup = 0) (hp : p ∉ spaces)
    (hc : ∀ c ∈ (kin cur).children, ∀ q, (kin cur).pml4 = some q → (kin c).pml4 ≠ some q)
    (hself : kin' cur = { kin cur with pml4 := some p }) (hother : ∀ u, u ≠ cur → kin' u = kin u)
    (hnew : p ∈ spaces') (hspaces : ∀ q ∈ spaces, (kin cur).pml4 ≠ some q → q ∈ spaces') :
    Family live kin' spaces' n := by
  obtain ⟨hnd, hid_lt, hgroup, hspace, hchild, hne, hchild_nd, hexited, hprocess, hthread,
    horphan⟩ := h
  refine ⟨hnd, ?_, ?_, ?_, ?_, ?_, ?_, ?_, ?_, ?_, ?_⟩
  all_goals grind

/-- A task without children is freed and taken off its parent's list. Its address space
goes with it only if it is a process. -/
theorem remove (ht : t ∈ live) (hch : (kin t).children = [])
    (hkeep : ∀ u ∈ live, u ≠ t → kin' u = { kin u with children := (kin' u).children } ∧
      (kin' u).children.Nodup ∧
      ∀ c, c ∈ (kin' u).children ↔ c ∈ (kin u).children ∧ c ≠ t)
    (hspaces : ∀ q ∈ spaces, q ∈ spaces' ∨
      (kin t).threadGroup = 0 ∧ (kin t).pml4 = some q) :
    Family (live.erase t) kin' spaces' n := by
  have hmem : ∀ u, u ∈ live.erase t ↔ u ≠ t ∧ u ∈ live := fun u => h.nodup.mem_erase_iff
  obtain ⟨hnd, hid_lt, hgroup, hspace, hchild, hne, hchild_nd, hexited, hprocess, hthread,
    horphan⟩ := h
  refine ⟨hnd.erase t, ?_, ?_, ?_, ?_, ?_, ?_, fun u hu hex => ?_, ?_, ?_, ?_⟩
  case refine_7 =>
    obtain ⟨hut, hu⟩ := (hmem u).mp hu
    obtain ⟨hsame, -, hiff⟩ := hkeep u hu hut
    rw [hsame] at hex
    refine List.eq_nil_iff_forall_not_mem.mpr fun c hc => ?_
    simpa [hexited u hu hex] using ((hiff c).mp hc).1
  all_goals grind

/-- A child whose address space is not its parent's is a process. -/
theorem child_process (hcur : cur ∈ live) (hc : t ∈ (kin cur).children) (hp : (kin t).pml4 = some p)
    (hne : (kin cur).pml4 ≠ some p) : (kin t).threadGroup = 0 := by
  obtain ⟨ht, hpar⟩ := h.child cur hcur t hc
  by_contra hg
  obtain hnone | ⟨u, -, hu, -, -, hpu⟩ := h.thread t ht p hg hp
  · rw [hpar] at hnone; simp at hnone
  · rw [hpar] at hu
    obtain rfl := Option.some.inj hu
    exact hne hpu

end

end Family

end YamKernel.Sched

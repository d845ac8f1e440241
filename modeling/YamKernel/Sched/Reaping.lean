import Mathlib.Data.List.Perm.Subperm
import YamKernel.Lib.Chain
import YamKernel.Sched.Family

/-!
# Reaping tasks

`State.kin` is the view of the task table as a `Family`, `Queue` the list of tasks to be
reaped, and `Quiet` says that no address space was destroyed so far while a task that had
not exited used it. Freeing and reaping tasks keeps all three.
-/

namespace YamKernel.Sched

open Lib List

def Task.kin (t : Task) : Kin where
  id := t.id
  exited := t.state.exited
  parent := t.parent
  children := t.children
  pml4 := t.pml4
  threadGroup := t.threadGroup

def State.kin (s : State) (t : Ptr) : Kin := (s.task t).kin

/-- The list of tasks to be reaped is `l`; the tasks of `r` have been taken off it and not
been looked at yet. -/
structure Queue (s : State) (l r : List Ptr) : Prop where
  chain : Chain s.link s.deferredReapHead l
  nodup : (l ++ r).Nodup
  queued : ∀ t, t ∈ l ++ r ↔ t ∈ s.live ∧ (s.task t).reapQueued = true
  dead : ∀ t ∈ l ++ r, (s.task t).state = .dead
  orphan : ∀ t ∈ s.live, (s.task t).state = .dead → (s.task t).parent = none

def Quiet (s : State) : Prop := ∀ e ∈ s.destroyed, e.2 = []

variable {s s' : State} {l r : List Ptr} {t u c p : Ptr}

lemma kin_setTask (s : State) (t : Ptr) (v : Task) (u : Ptr) :
    (s.setTask t v).kin u = if u = t then v.kin else s.kin u := by
  simp only [State.kin, setTask_task]
  split_ifs <;> rfl

lemma users_eq_nil (h : ∀ u ∈ s.live, (s.kin u).pml4 = some p → (s.kin u).exited = true) :
    users s p = [] := by
  rw [users, filter_eq_nil_iff]
  intro u hu hused
  simp only [decide_eq_true_eq] at hused
  have hex := h u hu hused.1
  simp [State.kin, Task.kin, hused.2] at hex

/-! ## Small steps -/

structure Task.Alike (a b : Task) : Prop where
  parent : b.parent = a.parent
  dead : b.state = .dead ↔ a.state = .dead
  queued : b.reapQueued = a.reapQueued
  link : a.reapQueued = true → b.waitNext = a.waitNext

lemma Task.Alike.refl (a : Task) : a.Alike a := ⟨rfl, Iff.rfl, rfl, fun _ => rfl⟩

/-- A task keeps its place on the list; it may die if it has no parent then. -/
structure Task.Stays (a b : Task) : Prop where
  queued : b.reapQueued = a.reapQueued
  link : a.reapQueued = true → b.waitNext = a.waitNext
  dead : a.state = .dead → b.state = .dead
  orphan : b.state = .dead → b.parent = none ∨ a.state = .dead ∧ b.parent = a.parent

lemma Task.Alike.stays {a b : Task} (h : a.Alike b) : a.Stays b :=
  ⟨h.queued, h.link, h.dead.mpr, fun hd => .inr ⟨h.dead.mp hd, h.parent⟩⟩

lemma Task.Stays.refl (a : Task) : a.Stays a := (Task.Alike.refl a).stays

/-- The tasks on the list stay, and no task is on it that is new. -/
theorem Queue.transfer (h : Queue s l r) (hmem : ∀ u ∈ l ++ r, u ∈ s'.live)
    (hu : ∀ u ∈ s'.live, u ∈ s.live ∧ (s.task u).Stays (s'.task u) ∨
      u ∉ s.live ∧ (s'.task u).reapQueued = false ∧ (s'.task u).state ≠ .dead)
    (hhead : s'.deferredReapHead = s.deferredReapHead) : Queue s' l r := by
  have hstays : ∀ u ∈ l ++ r, (s.task u).reapQueued = true ∧ (s.task u).Stays (s'.task u) :=
    fun u hm => ⟨((h.queued u).mp hm).2,
      ((hu u (hmem u hm)).resolve_right fun hc => hc.1 ((h.queued u).mp hm).1).2⟩
  refine ⟨?_, h.nodup, fun u => ⟨fun hm => ?_, fun ⟨hl, hq⟩ => ?_⟩, fun u hm => ?_,
    fun u hl hd => ?_⟩
  · rw [hhead]
    refine h.chain.frame fun u hm => ?_
    obtain ⟨hq, hs⟩ := hstays u (mem_append_left r hm)
    exact hs.link hq
  · exact ⟨hmem u hm, (hstays u hm).2.queued.trans (hstays u hm).1⟩
  · obtain ⟨hl', hs⟩ := (hu u hl).resolve_right fun hc => by simp [hc.2.1] at hq
    exact (h.queued u).mpr ⟨hl', hs.queued.symm.trans hq⟩
  · exact (hstays u hm).2.dead (h.dead u hm)
  · obtain ⟨hl', hs⟩ := (hu u hl).resolve_right fun hc => hc.2.2 hd
    rcases hs.orphan hd with hn | ⟨hd', hp⟩
    · exact hn
    · exact hp.trans (h.orphan u hl' hd')

lemma Queue.congr (h : Queue s l r) (hu : ∀ u ∈ s.live, (s.task u).Stays (s'.task u))
    (hlive : s'.live = s.live) (hhead : s'.deferredReapHead = s.deferredReapHead) : Queue s' l r :=
  h.transfer (fun u hm => hlive ▸ ((h.queued u).mp hm).1)
    (fun u hl => .inl ⟨hlive ▸ hl, hu u (hlive ▸ hl)⟩) hhead

structure SameTable (s s' : State) : Prop where
  live : s'.live = s.live
  spaces : s'.spaces = s.spaces
  nextId : s'.nextId = s.nextId
  destroyed : s'.destroyed = s.destroyed

lemma SameTable.refl (s : State) : SameTable s s := ⟨rfl, rfl, rfl, rfl⟩

lemma SameTable.trans {s1 s2 s3 : State} (h : SameTable s1 s2) (h' : SameTable s2 s3) :
    SameTable s1 s3 :=
  ⟨h'.live.trans h.live, h'.spaces.trans h.spaces, h'.nextId.trans h.nextId,
    h'.destroyed.trans h.destroyed⟩

/-- Only the task `t` changes, to `v`. -/
structure Edits (s s' : State) (t : Ptr) (v : Task) : Prop where
  self : s'.task t = v
  other : ∀ u, u ≠ t → s'.task u = s.task u
  same : SameTable s s'
  head : s'.deferredReapHead = s.deferredReapHead

lemma edits_setTask (s : State) (t : Ptr) (v : Task) : Edits s (s.setTask t v) t v :=
  ⟨by simp [setTask_task], fun u hu => by simp [setTask_task, hu], ⟨rfl, rfl, rfl, rfl⟩, rfl⟩

lemma Edits.trans {s1 s2 : State} {v w : Task} (h : Edits s s1 t v) (h' : Edits s1 s2 t w) :
    Edits s s2 t w :=
  ⟨h'.self, fun u hu => (h'.other u hu).trans (h.other u hu), h.same.trans h'.same,
    h'.head.trans h.head⟩

lemma Edits.kin {v : Task} (h : Edits s s' t v) (u : Ptr) :
    s'.kin u = if u = t then v.kin else s.kin u := by
  split_ifs with hu
  · rw [hu, State.kin, h.self]
  · exact congrArg Task.kin (h.other u hu)

lemma Edits.kin_eq {v : Task} (h : Edits s s' t v) (hv : v.kin = s.kin t) : s'.kin = s.kin := by
  funext u
  rw [h.kin, hv]
  split_ifs with hu
  · rw [hu]
  · rfl

lemma Edits.queue {v : Task} (h : Edits s s' t v) (hq : Queue s l r) (hv : (s.task t).Stays v) :
    Queue s' l r := by
  refine hq.congr (fun u _ => ?_) h.same.live h.head
  by_cases hu : u = t
  · rw [hu, h.self]; exact hv
  · rw [h.other u hu]; exact .refl _

lemma Queue.push (h : Queue s l r) (ht : t ∈ s.live) (hd : (s.task t).state = .dead) :
    ∃ l', Queue (schedQueueDeferredReap s t) l' r ∧
      ∀ u ∈ r, (schedQueueDeferredReap s t).link u = s.link u := by
  unfold schedQueueDeferredReap
  split_ifs with hq
  · exact ⟨l, h, fun _ _ => rfl⟩
  have hnot : t ∉ l ++ r := fun hm => hq ((h.queued t).mp hm).2
  have hedit := edits_setTask s t { s.task t with
    reapQueued := true, waitNext := s.deferredReapHead }
  have hnext : ∀ u ∈ l ++ r, (s.setTask t _).link u = s.link u := fun u hu =>
    congrArg Task.waitNext (hedit.other u fun he => hnot (he ▸ hu))
  refine ⟨t :: l, ⟨⟨rfl, ?_⟩, nodup_cons.mpr ⟨hnot, h.nodup⟩, fun u => ?_, ?_, ?_⟩,
    fun u hu => hnext u (mem_append_right l hu)⟩
  · convert h.chain.frame fun u hu => hnext u (mem_append_left r hu) using 1
    · rfl
    · exact congrArg Task.waitNext hedit.self
  · have := h.queued u
    simp only [setTask_task]
    split_ifs with hut
    · simpa [hut] using ht
    · simpa [hut] using this
  · intro u hu
    simp only [setTask_task]
    split_ifs with hut
    · exact hd
    · exact h.dead u ((mem_cons.mp hu).resolve_left hut)
  · intro u hu hdu
    simp only [setTask_task] at hdu ⊢
    split_ifs at hdu ⊢
    · exact h.orphan t ht hd
    · exact h.orphan u hu hdu

/-! ## Freeing a task -/

lemma Queue.free (h : Queue s l r) (hnd : s.live.Nodup) (ht : t ∉ l ++ r)
    (hu : ∀ u ∈ s.live, u ≠ t → (s.task u).Alike (s'.task u)) (hlive : s'.live = s.live.erase t)
    (hhead : s'.deferredReapHead = s.deferredReapHead) : Queue s' l r := by
  have herase : ∀ u, u ∈ s'.live ↔ u ≠ t ∧ u ∈ s.live := fun u => by
    rw [hlive, hnd.mem_erase_iff]
  refine h.transfer (fun u hm => ?_) (fun u hl => ?_) hhead
  · exact (herase u).mpr ⟨fun he => ht (he ▸ hm), ((h.queued u).mp hm).1⟩
  · obtain ⟨hne, hl⟩ := (herase u).mp hl
    exact .inl ⟨hl, (hu u hl hne).stays⟩

lemma schedDestroyTaskResources_spec (s : State) (t : Ptr) (owns : Bool) :
    let s' := schedDestroyTaskResources s t owns
    s'.live = s.live.erase t ∧ (∀ u, u ≠ t → s'.task u = s.task u) ∧ s'.nextId = s.nextId ∧
      s'.deferredReapHead = s.deferredReapHead ∧
      (s'.spaces = s.spaces ∧ s'.destroyed = s.destroyed ∨
        ∃ p, owns = true ∧ (s.task t).pml4 = some p ∧ s'.spaces = s.spaces.erase p ∧
          s'.destroyed = s.destroyed ++ [(p, users s p)]) := by
  unfold schedDestroyTaskResources
  cases owns with
  | false => simp
  | true =>
    cases (s.task t).pml4 with
    | none => simp
    | some p =>
      refine ⟨rfl, fun u hu => ?_, rfl, rfl, .inr ⟨p, rfl, rfl, rfl, rfl⟩⟩
      simp [setTask_task, hu, vmmDestroyUserPml4]

/-- `s1` is `s` with the exited task `t` taken off the lists of children. -/
structure Detached (s s1 : State) (t : Ptr) : Prop where
  live : s1.live = s.live
  spaces : s1.spaces = s.spaces
  nextId : s1.nextId = s.nextId
  exited : (s1.kin t).exited = true
  pml4 : (s1.kin t).pml4 = (s.kin t).pml4
  keep : ∀ u ∈ s.live, u ≠ t → s1.kin u = { s.kin u with children := (s1.kin u).children } ∧
    (s1.kin u).children.Nodup ∧
    ∀ c, c ∈ (s1.kin u).children ↔ c ∈ (s.kin u).children ∧ c ≠ t

lemma Detached.free {s1 : State} (h : Detached s s1 t) (hf : Family s.live s.kin s.spaces s.nextId)
    (ht : t ∈ s.live) (hex : (s.kin t).exited = true) {owns : Bool}
    (hown : owns = true → ∀ p, (s.kin t).pml4 = some p → (s.kin t).threadGroup = 0)
    (hquiet : Quiet s1) : let s' := schedDestroyTaskResources s1 t owns
    Family s'.live s'.kin s'.spaces s'.nextId ∧ Quiet s' := by
  intro s'
  obtain ⟨hlive, htask, hid, -, hspaces⟩ := schedDestroyTaskResources_spec s1 t owns
  have hkin : ∀ u, u ≠ t → s'.kin u = s1.kin u := fun u hu => congrArg Task.kin (htask u hu)
  have hkeep : ∀ u ∈ s.live, u ≠ t →
      s'.kin u = { s.kin u with children := (s'.kin u).children } ∧
      (s'.kin u).children.Nodup ∧
      ∀ c, c ∈ (s'.kin u).children ↔ c ∈ (s.kin u).children ∧ c ≠ t := by
    intro u hl hu
    rw [hkin u hu]
    exact h.keep u hl hu
  rw [hlive, hid, h.live, h.nextId]
  obtain ⟨hs, hd⟩ | ⟨p, howns, hp, hs, hd⟩ := hspaces
  · refine ⟨hf.remove ht (hf.exited t ht hex) hkeep fun q hq => .inl ?_, ?_⟩
    · rw [hs, h.spaces]; exact hq
    · intro e he
      rw [hd] at he
      exact hquiet e he
  have hpt : (s.kin t).pml4 = some p := h.pml4.symm.trans hp
  refine ⟨hf.remove ht (hf.exited t ht hex) hkeep fun q hq => ?_, ?_⟩
  · by_cases hqp : q = p
    · exact .inr ⟨hown howns p hpt, hqp ▸ hpt⟩
    · left
      rw [hs, h.spaces]; exact (mem_erase_of_ne hqp).mpr hq
  · have hsole : users s1 p = [] := users_eq_nil fun u hu hup => by
      by_cases hut : u = t
      · rw [hut]; exact h.exited
      · rw [(h.keep u (h.live ▸ hu) hut).1] at hup
        have hnone : ∀ c ∈ (s.kin t).children, (s.kin c).pml4 ≠ some p := by
          rw [hf.exited t ht hex]; simp
        exact absurd (hf.sole ht (hown howns p hpt) hpt hnone (h.live ▸ hu) hup) hut
    intro e he
    rw [hd, mem_append, mem_singleton] at he
    obtain he | rfl := he
    · exact hquiet e he
    · exact hsole

/-! ## Reaping -/

structure Lawful (s : State) (l r : List Ptr) : Prop where
  family : Family s.live s.kin s.spaces s.nextId
  queue : Queue s l r
  quiet : Quiet s

lemma schedDropTaskCount_edits (s : State) (t : Ptr) :
    ∃ b, Edits s (schedDropTaskCount s t) t { s.task t with accounted := b } := by
  unfold schedDropTaskCount
  split_ifs
  · exact ⟨false, (edits_setTask s t _).self, (edits_setTask s t _).other,
      ⟨rfl, rfl, rfl, rfl⟩, rfl⟩
  · exact ⟨(s.task t).accounted, rfl, fun _ _ => rfl, .refl s, rfl⟩

lemma schedQueueDeferredReap_kin (s : State) (t : Ptr) :
    (∀ u, (schedQueueDeferredReap s t).kin u = s.kin u) ∧
      SameTable s (schedQueueDeferredReap s t) := by
  unfold schedQueueDeferredReap
  split_ifs
  · exact ⟨fun _ => rfl, .refl s⟩
  · exact ⟨congrFun ((edits_setTask s t _).kin_eq rfl), rfl, rfl, rfl, rfl⟩

lemma Lawful.push (h : Lawful s l r) (ht : t ∈ s.live) (hd : (s.task t).state = .dead) :
    ∃ l', Lawful (schedQueueDeferredReap s t) l' r ∧
      ∀ u ∈ r, (schedQueueDeferredReap s t).link u = s.link u := by
  obtain ⟨l', hq, hlink⟩ := h.queue.push ht hd
  obtain ⟨hkin, hsame⟩ := schedQueueDeferredReap_kin s t
  refine ⟨l', ⟨?_, hq, fun e he => h.quiet e (hsame.destroyed ▸ he)⟩, hlink⟩
  rw [hsame.live, hsame.spaces, hsame.nextId, funext hkin]
  exact h.family

/-- A dead task that is on no list is reaped, or queued if it cannot be freed yet. -/
theorem Lawful.reap (h : Lawful s l r) (ht : t ∈ s.live) (hd : (s.task t).state = .dead)
    (hnq : (s.task t).reapQueued = false) :
    ∃ l', Lawful (schedReapDetachedDeadTask s t) l' r ∧
      ∀ u ∈ r, (schedReapDetachedDeadTask s t).link u = s.link u := by
  have hpar := h.queue.orphan t ht hd
  have hnot : t ∉ l ++ r := fun hm => by
    have := ((h.queue.queued t).mp hm).2
    simp [hnq] at this
  have hex : (s.kin t).exited = true := by simp [State.kin, Task.kin, hd, TaskState.exited]
  unfold schedReapDetachedDeadTask
  split_ifs
  · exact h.push ht hd
  have hunlink : schedUnlinkFromParent s t = s := by simp [schedUnlinkFromParent, hpar]
  obtain ⟨b, hdrop⟩ := schedDropTaskCount_edits s t
  have hedit := hdrop.trans (edits_setTask _ t { (schedDropTaskCount s t).task t with
    state := .dead, reapQueued := false, waitNext := none })
  rw [hdrop.self] at hedit
  simp only [hunlink, hdrop.self]
  generalize (schedDropTaskCount s t).setTask t _ = s1 at hedit
  have hdet : Detached s s1 t := by
    refine ⟨hedit.same.live, hedit.same.spaces,
      hedit.same.nextId, by rw [hedit.kin, if_pos rfl]; rfl,
      by rw [hedit.kin, if_pos rfl]; rfl, fun u hl hu => ?_⟩
    rw [hedit.kin, if_neg hu]
    refine ⟨rfl, h.family.child_nodup u hl, fun c => ⟨fun hc => ⟨hc, ?_⟩, fun hc => hc.1⟩⟩
    rintro rfl
    have hp := (h.family.child u hl c hc).2
    simp [State.kin, Task.kin, hpar] at hp
  have hown : schedTaskOwnsAddressSpace s1 t = true → ∀ p, (s.kin t).pml4 = some p →
      (s.kin t).threadGroup = 0 := fun ho p _ => by
    simp only [schedTaskOwnsAddressSpace, decide_eq_true_eq, hedit.self] at ho
    exact ho.2
  obtain ⟨hf, hquiet⟩ := hdet.free h.family ht hex hown
    fun e he => h.quiet e (hedit.same.destroyed ▸ he)
  obtain ⟨hlive, htask', -, hhead, -⟩ :=
    schedDestroyTaskResources_spec s1 t (schedTaskOwnsAddressSpace s1 t)
  have hsame : ∀ u, u ≠ t →
      (schedDestroyTaskResources s1 t (schedTaskOwnsAddressSpace s1 t)).task u = s.task u :=
    fun u hu => (htask' u hu).trans (hedit.other u hu)
  refine ⟨l, ⟨hf, ?_, hquiet⟩, fun u hu => ?_⟩
  · refine h.queue.free h.family.nodup hnot (fun u _ hu => ?_) (hlive.trans (by rw [hdet.live]))
      (hhead.trans hedit.head)
    rw [hsame u hu]; exact .refl _
  · have hut : u ≠ t := fun he => hnot (he ▸ mem_append_right l hu)
    exact congrArg Task.waitNext (hsame u hut)

lemma Lawful.takeOff (h : Lawful s l (t :: r)) :
    Lawful (s.setTask t { s.task t with waitNext := none, reapQueued := false }) l r := by
  have hnd := h.queue.nodup
  rw [nodup_middle] at hnd
  obtain ⟨hnot, hnd⟩ := nodup_cons.mp hnd
  obtain ⟨ht, -⟩ := (h.queue.queued t).mp (by simp)
  have hne : ∀ u ∈ l ++ r, u ≠ t := fun u hu he => hnot (he ▸ hu)
  refine ⟨?_, ⟨?_, hnd, fun u => ?_, fun u hu => ?_, fun u hu hd => ?_⟩, h.quiet⟩
  · rw [(edits_setTask s t { s.task t with waitNext := none, reapQueued := false }).kin_eq rfl]
    exact h.family
  · refine h.queue.chain.frame fun u hu => ?_
    simp [State.link, setTask_task, hne u (mem_append_left r hu)]
  · have hq := h.queue.queued u
    simp only [setTask_task]
    split_ifs with hut
    · subst hut; simpa using hnot
    · simpa [hut] using hq
  · rw [setTask_task, if_neg (hne u hu)]
    refine h.queue.dead u ?_
    simp only [mem_append, mem_cons] at hu ⊢
    exact hu.imp_right .inr
  · simp only [setTask_task] at hd ⊢
    split_ifs at hd ⊢
    · exact h.queue.orphan t ht hd
    · exact h.queue.orphan u hu hd

/-- The loop of `sched_reap_deferred_dead_tasks`, with `r` still to come. -/
theorem Lawful.reapList {fuel : Nat} {head : Option Ptr} (h : Lawful s l r)
    (hc : Chain s.link head r) (hf : r.length < fuel) :
    ∃ l', Lawful (reapList fuel s head) l' [] := by
  induction fuel generalizing s l r head with
  | zero => omega
  | succ fuel ih =>
    cases r with
    | nil =>
      obtain rfl : head = none := hc
      exact ⟨l, h⟩
    | cons t r =>
      obtain ⟨rfl, hc⟩ := hc
      have hnd := h.queue.nodup
      rw [nodup_middle] at hnd
      have hnot : t ∉ l ++ r := (nodup_cons.mp hnd).1
      obtain ⟨ht, -⟩ := (h.queue.queued t).mp (by simp)
      have hd : (s.task t).state = .dead := h.queue.dead t (by simp)
      have h1 := h.takeOff
      have hedit := edits_setTask s t { s.task t with waitNext := none, reapQueued := false }
      unfold reapList
      simp only
      generalize s.setTask t _ = s1 at *
      have hlink : ∀ u ∈ r, s1.link u = s.link u := fun u hu =>
        congrArg Task.waitNext (hedit.other u fun he => hnot (he ▸ mem_append_right l hu))
      have hd1 : (s1.task t).state = .dead := by rw [hedit.self]; exact hd
      have hnq : (s1.task t).reapQueued = false := by rw [hedit.self]
      have hlive : t ∈ s1.live := hedit.same.live ▸ ht
      split_ifs
      · obtain ⟨l', h2, hlink2⟩ := h1.push hlive hd1
        exact ih h2 (hc.frame fun u hu => (hlink2 u hu).trans (hlink u hu)) (by simpa using hf)
      · obtain ⟨l', h2, hlink2⟩ := h1.reap hlive hd1 hnq
        exact ih h2 (hc.frame fun u hu => (hlink2 u hu).trans (hlink u hu)) (by simpa using hf)

lemma Queue.length_le (h : Queue s l r) : (l ++ r).length ≤ s.live.length :=
  (h.nodup.subperm fun u hu => ((h.queued u).mp hu).1).length_le

lemma Lawful.reapDeferred (h : Lawful s l []) :
    ∃ l', Lawful (schedReapDeferredDeadTasks s) l' [] := by
  have hlen := h.queue.length_le
  rw [append_nil] at hlen
  have h1 : Lawful { s with deferredReapHead := none } [] l := by
    obtain ⟨hf, ⟨hc, hnd, hq, hd, ho⟩, hquiet⟩ := h
    rw [append_nil] at hnd hq hd
    exact ⟨hf, ⟨rfl, hnd, hq, hd, ho⟩, hquiet⟩
  exact h1.reapList h.queue.chain (by omega)

end YamKernel.Sched

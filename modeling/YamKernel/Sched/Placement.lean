import YamKernel.Lib.Chain
import YamKernel.Lib.Spread
import YamKernel.Sched.Model

/-!
# Where a task is

A `Layout` lists the tasks at every place: the CPU, the run queue, the sleep list and the wait
queues. `Placed` relates it to the state. Operations are taken apart into moves of one task; a
task that has been taken off one place and not yet put on the next is in limbo.
-/

namespace YamKernel.Sched

open Lib List

inductive Place where
  | current | run | sleep | wait (q : Nat) | limbo
  deriving DecidableEq

def Place.state : Place → TaskState
  | .current => .running
  | .run => .ready
  | _ => .blocked

def Place.linked : Place → Bool
  | .sleep | .wait _ => true
  | _ => false

structure Layout where
  on : Place → List Ptr
  heads : Place → Option Ptr

structure Placed (s : State) (L : Layout) : Prop where
  spread : Spread s.live L.on
  run : s.rq = L.on .run
  chain : ∀ p, p.linked = true → Chain s.link (L.heads p) (L.on p)
  state : ∀ p t, t ∈ L.on p → p ≠ .limbo → (s.task t).state = p.state
  signal : ∀ t ∈ s.live, (s.task t).signalPending = 0
  reap : s.deferredReapHead = none

def Layout.move (L : Layout) (t : Ptr) (a b : Place) (l : List Ptr) : Layout :=
  { L with on := moveItem L.on t a b l }

structure Task.Same (a b : Task) : Prop where
  state : b.state = a.state
  waitNext : b.waitNext = a.waitNext
  signal : b.signalPending = a.signalPending

lemma Task.Same.refl (a : Task) : a.Same a := ⟨rfl, rfl, rfl⟩

/-- Only `t`, and the links of the tasks in `l`, may change. -/
structure Touches (s s' : State) (t : Ptr) (l : List Ptr) : Prop where
  live : s'.live = s.live
  reap : s'.deferredReapHead = s.deferredReapHead
  state : ∀ u, u ≠ t → (s'.task u).state = (s.task u).state
  link : ∀ u, u ≠ t → u ∉ l → s'.link u = s.link u
  signal : ∀ u, (s'.task u).signalPending = (s.task u).signalPending

section Placed

variable {s s' : State} {L : Layout} {t : Ptr} {a b : Place} {v : Task} {pre rest : List Ptr}

lemma touches_of_task (htask : s'.task = Function.update s.task t v)
    (hv : v.signalPending = (s.task t).signalPending) (hlive : s'.live = s.live)
    (hreap : s'.deferredReapHead = s.deferredReapHead) : Touches s s' t [] := by
  refine ⟨hlive, hreap, fun u hu => ?_, fun u hu _ => ?_, fun u => ?_⟩
  · simp [htask, hu]
  · simp [State.link, htask, hu]
  · by_cases hu : u = t
    · subst hu; simp [htask, hv]
    · simp [htask, hu]

lemma Placed.congr (h : Placed s L) (ht : ∀ u, (s.task u).Same (s'.task u))
    (hlive : s'.live = s.live) (hrq : s'.rq = s.rq)
    (hreap : s'.deferredReapHead = s.deferredReapHead) : Placed s' L := by
  have hlink : s'.link = s.link := funext fun u => (ht u).waitNext
  refine ⟨?_, ?_, ?_, ?_, ?_, ?_⟩ <;>
    simp [hlink, hlive, hrq, hreap, (ht _).state, (ht _).signal]
  exacts [h.spread, h.run, h.chain, h.state, h.signal, h.reap]

lemma Placed.setTask (h : Placed s L) (hv : (s.task t).Same v) : Placed (s.setTask t v) L := by
  refine h.congr (fun u => ?_) rfl rfl rfl
  by_cases hu : u = t
  · subst hu; simpa [State.setTask] using hv
  · simpa [State.setTask, hu] using Task.Same.refl (s.task u)

lemma Placed.move (h : Placed s L) (ht : t ∈ L.on a) (hab : a ≠ b) {l : List Ptr}
    (hl : l.Perm (t :: L.on b)) {heads : Place → Option Ptr} (hm : Touches s s' t (L.on a))
    (hrq : s'.rq = moveItem L.on t a b l .run) (hstate : b ≠ .limbo → (s'.task t).state = b.state)
    (hheads : ∀ p, p ≠ a → p ≠ b → heads p = L.heads p)
    (hchain : ∀ p, p.linked = true → p = a ∨ p = b →
      Chain s'.link (heads p) (moveItem L.on t a b l p)) :
    Placed s' { L.move t a b l with heads } := by
  refine ⟨hm.live ▸ h.spread.move ht hab hl, hrq, fun p hp => ?_, fun p u hu hpl => ?_,
    fun u hu => (hm.signal u).trans (h.signal u (hm.live ▸ hu)), hm.reap.trans h.reap⟩
  · by_cases hpab : p = a ∨ p = b
    · exact hchain p hp hpab
    rw [not_or] at hpab
    simp only [Layout.move, hheads p hpab.1 hpab.2, moveItem_other hpab.1 hpab.2]
    refine (h.chain p hp).frame fun u hu => hm.link u ?_ ?_
    · rintro rfl
      exact h.spread.notMem ht hpab.1 hu
    · exact h.spread.notMem hu (symm hpab.1)
  · rw [Layout.move, h.spread.mem_moveItem ht hab hl] at hu
    split_ifs at hu with hut
    · subst hut hu
      exact hstate hpl
    · exact (hm.state u hut).trans (h.state p u hu hpl)

/-- A move between places that are no linked lists. -/
theorem Placed.moveUnlinked (h : Placed s L) (ht : t ∈ L.on a) (hab : a ≠ b) {l : List Ptr}
    (hl : l.Perm (t :: L.on b)) (hm : Touches s s' t []) (hrq : s'.rq = moveItem L.on t a b l .run)
    (hstate : b ≠ .limbo → (s'.task t).state = b.state) (ha : a.linked = false)
    (hb : b.linked = false) : Placed s' (L.move t a b l) := by
  refine h.move ht hab hl ⟨hm.live, hm.reap, hm.state, fun u hu _ => hm.link u hu (by simp),
    hm.signal⟩ hrq hstate (fun _ _ _ => rfl) fun p hp hpab => ?_
  rcases hpab with rfl | rfl
  · simp [hp] at ha
  · simp [hp] at hb

/-! ## The run queue -/

lemma rqInsert_eq (hroom : s.rq.length < rqCapacity) : ∃ rq load minv,
    rq.Perm (t :: s.rq) ∧ rqInsert s t =
      { s.setTask t { s.task t with state := .ready } with
        rq, loadWeight := load, minVruntime := minv } := by
  have hnot : ¬ rqCapacity ≤ s.rq.length := by omega
  unfold rqInsert
  rw [if_neg hnot]
  refine ⟨_, _, _, ?_, rfl⟩
  refine perm_middle.trans ?_
  rw [take_append_drop]
  rfl

/-- A task in limbo or in the current slot is queued. -/
theorem Placed.enqueue (h : Placed s L) (ht : t ∈ L.on a) (ha : a = .limbo ∨ a = .current)
    (hroom : s.rq.length < rqCapacity) :
    Placed (rqInsert s t) (L.move t a .run (rqInsert s t).rq) ∧
      (rqInsert s t).rq.length = s.rq.length + 1 := by
  obtain ⟨rq, load, minv, hperm, he⟩ := rqInsert_eq hroom
  rw [he]
  refine ⟨?_, hperm.length_eq⟩
  refine h.moveUnlinked ht ?_ (h.run ▸ hperm) (touches_of_task rfl rfl rfl rfl) (by simp)
    (fun _ => by simp [State.setTask, Place.state]) ?_ rfl
  · rcases ha with rfl | rfl <;> simp
  · rcases ha with rfl | rfl <;> rfl

lemma Placed.pick (h : Placed s L) (hrq : s.rq = t :: rest) :
    ∃ s1, rqPickNext s = (some t, s1) ∧ s1.rq = rest ∧
      Placed s1 (L.move t .run .limbo (t :: L.on .limbo)) ∧ s1 = { s with
        rq := s1.rq, loadWeight := s1.loadWeight, minVruntime := s1.minVruntime } := by
  have hpick : ∃ s1, rqPickNext s = (some t, s1) ∧ s1.rq = rest ∧ s1 = { s with
      rq := s1.rq, loadWeight := s1.loadWeight, minVruntime := s1.minVruntime } := by
    rw [rqPickNext, hrq]
    exact ⟨_, rfl, rfl, rfl⟩
  obtain ⟨s1, he, hrest, hs1⟩ := hpick
  have hon : L.on .run = t :: rest := h.run.symm.trans hrq
  refine ⟨s1, he, hrest, ?_, hs1⟩
  refine h.moveUnlinked (by simp [hon]) (by simp) (.refl _) ?_ ?_ (by simp) rfl rfl
  · rw [hs1]
    exact ⟨rfl, rfl, fun _ _ => rfl, fun _ _ _ => rfl, fun _ => rfl⟩
  · rw [hrest, moveItem_from (by simp), hon, erase_cons_head]

lemma Placed.switch (h : Placed s L) (ht : t ∈ L.on .limbo) :
    Placed (switchTo s t) (L.move t .limbo .current (t :: L.on .current)) :=
  h.moveUnlinked ht (by simp) (.refl _) (touches_of_task rfl rfl rfl rfl)
    (by rw [moveItem_other (by simp) (by simp)]; exact h.run)
    (fun _ => by simp [switchTo, setTask_task, Place.state]) rfl rfl

/-! ## The linked lists -/

lemma Place.linked_state (hb : b.linked = true) :
    b.state = .blocked ∧ b ≠ .run ∧ b ≠ .current ∧ b ≠ .limbo := by
  cases b <;> simp_all [linked, state]

lemma Placed.push (h : Placed s L) (ht : t ∈ L.on .current) (hb : b.linked = true) (s' : State)
    (htask : s'.task = Function.update s.task t v) (hstate : v.state = .blocked)
    (hlink : v.waitNext = L.heads b) (hsig : v.signalPending = (s.task t).signalPending)
    (hlive : s'.live = s.live) (hrq : s'.rq = s.rq)
    (hreap : s'.deferredReapHead = s.deferredReapHead) :
    Placed s' ⟨moveItem L.on t .current b (t :: L.on b),
      Function.update L.heads b (some t)⟩ := by
  obtain ⟨hblocked, hrun, hcur, -⟩ := Place.linked_state hb
  have hm := touches_of_task htask hsig hlive hreap
  have hself : s'.link t = L.heads b := by simp [State.link, htask, hlink]
  refine h.move ht (symm hcur) (.refl _) ⟨hm.live, hm.reap, hm.state,
    fun u hu _ => hm.link u hu (by simp), hm.signal⟩ ?_ (fun _ => ?_)
    (fun p _ hp => Function.update_of_ne hp _ _) fun p hp hpab => ?_
  · rw [hrq, h.run, moveItem_other (by simp) (symm hrun)]
  · rw [htask, Function.update_self, hstate, hblocked]
  · obtain rfl : p = b := hpab.resolve_left fun hp' => by simp [hp', Place.linked] at hp
    rw [Function.update_self, moveItem_to]
    refine ⟨rfl, ?_⟩
    rw [hself]
    refine (h.chain p hp).frame fun u hu => hm.link u ?_ (by simp)
    rintro rfl
    exact h.spread.notMem ht hcur hu

lemma Placed.unlink (h : Placed s L) (ha : a.linked = true) (hon : L.on a = pre ++ t :: rest)
    (hm : Touches s s' t pre) (hrq : s'.rq = s.rq)
    (hlast : ∀ u, pre.getLast? = some u → s'.link u = s.link t)
    (hpre : ∀ u ∈ pre, pre.getLast? ≠ some u → s'.link u = s.link u) :
    Placed s' ⟨moveItem L.on t a .limbo (t :: L.on .limbo),
        Function.update L.heads a (if pre = [] then s.link t else L.heads a)⟩ ∧
      moveItem L.on t a .limbo (t :: L.on .limbo) a = pre ++ rest := by
  obtain ⟨-, hrun, -, hlimbo⟩ := Place.linked_state ha
  have ht : t ∈ L.on a := by rw [hon]; simp
  have hnd : (pre ++ t :: rest).Nodup := hon ▸ h.spread.nodup a
  obtain ⟨hnot, -⟩ := nodup_cons.mp (nodup_middle.mp hnd)
  have hleft : moveItem L.on t a .limbo (t :: L.on .limbo) a = pre ++ rest := by
    rw [moveItem_from hlimbo, hon, erase_append_right _ fun hp => hnot (by simp [hp]),
      erase_cons_head]
  refine ⟨h.move ht hlimbo (.refl _) ⟨hm.live, hm.reap, hm.state,
    fun u hu hua => hm.link u hu fun hp => hua (by simp [hon, hp]), hm.signal⟩ ?_ (by simp)
    (fun p hp _ => Function.update_of_ne hp _ _) fun p hp hpab => ?_, hleft⟩
  · rw [hrq, h.run, moveItem_other (symm hrun) (by simp)]
  · obtain rfl : p = a := hpab.resolve_right fun hp' => by simp [hp', Place.linked] at hp
    rw [Function.update_self, hleft]
    refine (hon ▸ h.chain p hp).unlink hnd rfl hlast fun u hu hne => ?_
    by_cases hp : u ∈ pre
    · exact hpre u hp hne
    · exact hm.link u (fun he => hnot (he ▸ hu)) hp

lemma Placed.birth (h : Placed s L) (hn : t ∉ s.live) (hv : v.signalPending = 0) :
    Placed { s.setTask t v with live := t :: s.live }
      { L with on := Function.update L.on .limbo (t :: L.on .limbo) } := by
  have hne : ∀ p u, u ∈ L.on p → u ≠ t := fun p u hu he => hn (h.spread.mem_live (he ▸ hu))
  refine ⟨h.spread.birth hn, ?_, fun p hp => ?_, fun p u hu hpl => ?_, fun u hu => ?_, h.reap⟩
  · simpa using h.run
  · simp only [Function.update_of_ne (Place.linked_state hp).2.2.2]
    refine (h.chain p hp).frame fun u hu => ?_
    simp [State.link, setTask_task, hne p u hu]
  · simp only [Function.update_of_ne hpl] at hu
    simp only [setTask_task, if_neg (hne p u hu)]
    exact h.state p u hu hpl
  · simp only [setTask_task]
    split_ifs with hut
    · exact hv
    · exact h.signal u ((mem_cons.mp hu).resolve_left hut)

end Placed

end YamKernel.Sched

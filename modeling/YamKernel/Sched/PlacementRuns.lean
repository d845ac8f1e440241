import Mathlib.Data.List.Perm.Subperm
import YamKernel.Sched.Placement

/-!
# Runs of the scheduler

Every operation, as long as the run queue has room for the tasks it queues and there is a
task to switch to when the current one blocks, keeps every task at exactly one place.
-/

namespace YamKernel.Sched

open Lib List Function

def Layout.HeadsOf (L : Layout) (s : State) : Prop :=
  L.heads .sleep = s.sleepHead ∧ ∀ q, L.heads (.wait q) = s.wq q

structure Settled (s : State) (L : Layout) : Prop where
  placed : Placed s L
  cur : L.on .current = [s.current]
  limbo : L.on .limbo = []
  heads : L.HeadsOf s
  cap : s.rq.length ≤ rqCapacity

section Steps

variable {s s' : State} {L : Layout} {t : Ptr} {rest : List Ptr}

lemma Settled.mem_current (h : Settled s L) : s.current ∈ L.on .current := by simp [h.cur]

lemma Settled.congr (h : Settled s L) (hp : Placed s' L) (hcur : s'.current = s.current)
    (hheads : s'.sleepHead = s.sleepHead ∧ s'.wq = s.wq) (hrq : s'.rq = s.rq) : Settled s' L :=
  ⟨hp, h.cur.trans (by rw [hcur]), h.limbo,
    ⟨h.heads.1.trans hheads.1.symm, fun q => (h.heads.2 q).trans (by rw [hheads.2])⟩, hrq ▸ h.cap⟩

lemma Placed.settle (h : Placed s L) (hl : L.on .limbo = [t]) (hc : L.on .current = [])
    (hw : L.HeadsOf s) (hcap : s.rq.length ≤ rqCapacity) : ∃ L', Settled (switchTo s t) L' := by
  refine ⟨_, h.switch (by simp [hl]), ?_, ?_, hw, hcap⟩
  · simp [Layout.move, hc, switchTo]
  · simp [Layout.move, moveItem, hl]

/-- Apart from the tasks and the run queue nothing has changed. -/
def SameRest (s s' : State) : Prop :=
  s' = { s with
    task := s'.task, rq := s'.rq, loadWeight := s'.loadWeight, minVruntime := s'.minVruntime }

variable {s1 : State} {L' : Layout} {x : Option Ptr} {q : Nat}

lemma SameRest.trans (h : SameRest s s1) (h' : SameRest s1 s') : SameRest s s' := by
  rw [SameRest, h', h]

lemma Layout.HeadsOf.congr (h : L.HeadsOf s) (hs : SameRest s s') : L.HeadsOf s' := by
  rw [hs]
  exact h

lemma Layout.HeadsOf.updateSleep (h : L.HeadsOf s)
    (hheads : L'.heads = update L.heads .sleep x) : L'.HeadsOf { s with sleepHead := x } := by
  rw [HeadsOf, hheads]
  exact ⟨by simp, fun q => by simpa using h.2 q⟩

lemma Layout.HeadsOf.updateWait (h : L.HeadsOf s) (hheads : L'.heads = update L.heads (.wait q) x) :
    L'.HeadsOf { s with wq := update s.wq q x } := by
  rw [HeadsOf, hheads]
  refine ⟨by simpa using h.1, fun r => ?_⟩
  by_cases hr : r = q
  · subst hr; simp
  · simpa [hr] using h.2 r

lemma rqInsert_frame (s : State) (t : Ptr) : SameRest s (rqInsert s t) ∧
    ∀ u, ((rqInsert s t).task u).wakeupTick = (s.task u).wakeupTick := by
  unfold rqInsert
  split_ifs
  · exact ⟨rfl, fun _ => rfl⟩
  · refine ⟨rfl, fun u => ?_⟩
    simp only [setTask_task]
    split_ifs with hu
    · rw [hu]
    · rfl

/-! ## Switching -/

lemma schedReapDeferredDeadTasks_none (h : s.deferredReapHead = none) :
    schedReapDeferredDeadTasks s = s := by
  cases s
  subst h
  rfl

/-- `sched_yield` takes the head of the run queue, which is not dead. -/
theorem Placed.pickLive (h : Placed s L) (hrq : s.rq = t :: rest)
    (he : rqPickNext s = (some t, s1)) (hs1 : s1.task = s.task) :
    pickLive (s.rq.length + 1) s [] = (some t, [], s1) := by
  have hready := h.state .run t (by rw [← h.run, hrq]; simp) (by simp)
  have hdead : (s.task t).state ≠ .dead := by rw [hready]; simp [Place.state]
  simp [Sched.pickLive, he, hs1, hdead]

/-- The current task yields: it goes to the run queue, from which one task has just been
taken, so that there is room. -/
theorem Settled.yield (h : Settled s L) : ∃ L', Settled (schedYield s) L' := by
  unfold schedYield
  split_ifs
  · rw [schedReapDeferredDeadTasks_none h.placed.reap]
    cases hrq : s.rq with
    | nil => simpa [pickLive, rqPickNext, hrq] using ⟨L, h⟩
    | cons t rest =>
      obtain ⟨s1, he, hrest, hp, hs1⟩ := h.placed.pick hrq
      have hpick := h.placed.pickLive hrq he (by rw [hs1])
      have hcur : s1.current = s.current := by rw [hs1]
      simp only [hpick, hcur]
      have hrun : (s1.task s.current).state = .running := by
        rw [hs1]; exact h.placed.state _ _ h.mem_current (by simp)
      have hcap := h.cap
      rw [hrq, length_cons] at hcap
      rw [if_pos hrun]
      obtain ⟨hp3, hlen⟩ := (hp.setTask (v := { s1.task s.current with
        sliceTicks := 0, needResched := false }) ⟨rfl, rfl, rfl⟩).enqueue
        (by simpa [Layout.move, moveItem] using h.mem_current) (.inr rfl)
        (by rw [setTask_rq, hrest]; omega)
      refine hp3.settle ?_ ?_ ?_ (by rw [hlen, setTask_rq, hrest]; omega)
      · simp [Layout.move, moveItem, h.limbo]
      · simp [Layout.move, moveItem, h.cur]
      · refine Layout.HeadsOf.congr ?_ (rqInsert_frame (s1.setTask _ _) _).1
        rw [hs1]
        exact h.heads
  · exact ⟨L, h⟩

/-- The current task has gone to some list; the CPU goes to the head of the run queue. -/
theorem Placed.leave (h : Placed s L) (hrq : s.rq = t :: rest) (hc : L.on .current = [])
    (hl : L.on .limbo = []) (hw : L.HeadsOf s) (hcap : s.rq.length ≤ rqCapacity) :
    ∃ s1, rqPickNext s = (some t, s1) ∧ s1.task = s.task ∧ s1.current = s.current ∧
      ∃ L', Settled (switchTo s1 t) L' := by
  obtain ⟨s1, he, hrest, hp, hs1⟩ := h.pick hrq
  refine ⟨s1, he, by rw [hs1], by rw [hs1], hp.settle ?_ ?_ ?_ ?_⟩
  · simp [Layout.move, hl]
  · simpa [Layout.move, moveItem] using hc
  · rw [hs1]
    exact hw
  · rw [hrq, length_cons] at hcap
    rw [hrest]; omega

lemma Settled.sleepUntil (h : Settled s L) (deadline : Nat) (hne : s.rq ≠ []) :
    ∃ L', Settled (schedSleepUntil s deadline) L' := by
  obtain ⟨t, rest, hrq⟩ := exists_cons_of_ne_nil hne
  have hp := h.placed.push h.mem_current rfl
    { s.setTask s.current { s.task s.current with
      state := .blocked, wakeupTick := deadline, waitNext := s.sleepHead } with
      sleepHead := some s.current } rfl rfl h.heads.1.symm rfl rfl rfl rfl
  obtain ⟨s1, he, -, -, hdone⟩ := hp.leave hrq (by simp [moveItem, h.cur])
    (by simpa [moveItem] using h.limbo) ((h.heads.updateSleep rfl).congr rfl) h.cap
  unfold schedSleepUntil
  simp only [he]
  exact hdone

/-- The current task has gone to some list and yields. -/
theorem Placed.yieldBlocked (h : Placed s L) (hen : s.schedEnabled = true) (hrq : s.rq = t :: rest)
    (hst : (s.task s.current).state ≠ .running) (hc : L.on .current = []) (hl : L.on .limbo = [])
    (hw : L.HeadsOf s) (hcap : s.rq.length ≤ rqCapacity) : ∃ L', Settled (schedYield s) L' := by
  obtain ⟨s1, he, htask, hcur, hdone⟩ := h.leave hrq hc hl hw hcap
  unfold schedYield
  rw [if_pos hen, schedReapDeferredDeadTasks_none h.reap]
  simp only [h.pickLive hrq he htask, htask, hcur]
  rw [if_neg hst]
  exact hdone

lemma Settled.wqSleep (h : Settled s L) (q : Nat) (hne : s.rq ≠ []) (hen : s.schedEnabled = true) :
    ∃ L', Settled (wqSleep s q) L' := by
  obtain ⟨t, rest, hrq⟩ := exists_cons_of_ne_nil hne
  have hp := h.placed.push h.mem_current rfl
    { s.setTask s.current { s.task s.current with
      state := .blocked, waitNext := s.wq q } with
      wq := update s.wq q (some s.current) } rfl rfl (h.heads.2 q).symm rfl rfl rfl rfl
  exact hp.yieldBlocked hen hrq (by simp [State.setTask]) (by simp [moveItem, h.cur])
    (by simpa [moveItem] using h.limbo) ((h.heads.updateWait rfl).congr rfl) h.cap

/-! ## Waking -/

lemma Placed.unblock (h : Placed s L) (hl : L.on .limbo = [t]) (hb : (s.task t).state = .blocked)
    (hroom : s.rq.length < rqCapacity) :
    schedUnblock s t = rqInsert s t ∧ (rqInsert s t).rq.length = s.rq.length + 1 ∧
      ∃ L', Placed (rqInsert s t) L' ∧ L'.on .limbo = [] ∧ L'.heads = L.heads ∧
        ∀ p, p ≠ .limbo → p ≠ .run → L'.on p = L.on p := by
  obtain ⟨hp, hlen⟩ := h.enqueue (t := t) (by simp [hl]) (.inl rfl) hroom
  refine ⟨if_pos (.inl hb), hlen, _, hp, ?_, rfl, fun p hp hp' => moveItem_other hp hp'⟩
  simp [Layout.move, moveItem, hl]

lemma Placed.wake (h : Placed s L) (hl : L.on .limbo = []) {a : Place} (ha : a.linked = true)
    (pre : List Ptr) (hon : L.on a = pre ++ t :: rest) (hm : Touches s s' t pre)
    (hself : (s'.task t).state = (s.task t).state) (hrq : s'.rq = s.rq)
    (hlast : ∀ u, pre.getLast? = some u → s'.link u = s.link t)
    (hpre : ∀ u ∈ pre, pre.getLast? ≠ some u → s'.link u = s.link u)
    (hroom : s.rq.length < rqCapacity) :
    schedUnblock s' t = rqInsert s' t ∧ (rqInsert s' t).rq.length = s.rq.length + 1 ∧
      ∃ L', Placed (rqInsert s' t) L' ∧ L'.on .limbo = [] ∧ L'.on a = pre ++ rest ∧
        L'.on .current = L.on .current ∧
        L'.heads = update L.heads a (if pre = [] then s.link t else L.heads a) := by
  obtain ⟨hblocked, hrun, hcur, hlimbo⟩ := Place.linked_state ha
  obtain ⟨hp, hleft⟩ := h.unlink ha hon hm hrq hlast hpre
  have hst := h.state a t (by rw [hon]; simp) hlimbo
  obtain ⟨he, hlen, L', hp', hl', hheads, hother⟩ := hp.unblock (t := t)
    (by simp [hl]) (by rw [hself, hst, hblocked]) (hrq ▸ hroom)
  refine ⟨he, by rw [hlen, hrq], L', hp', hl', (hother a hlimbo hrun).trans hleft, ?_, hheads⟩
  rw [hother _ (by simp) (by simp)]
  simp [moveItem_other (symm hcur) (show Place.current ≠ .limbo by simp)]

lemma Placed.wakeFirst (h : Placed s L) (hl : L.on .limbo = [])
    (hw : L.on (.wait q) = t :: rest) (hroom : s.rq.length < rqCapacity) :
    let s' := schedUnblock (s.setTask t { s.task t with waitNext := none }) t
    SameRest s s' ∧ s'.rq.length = s.rq.length + 1 ∧ ∃ L', Placed s' L' ∧ L'.on .limbo = [] ∧
      L'.on (.wait q) = rest ∧ L'.on .current = L.on .current ∧
      L'.heads = update L.heads (.wait q) (s.task t).waitNext := by
  have hm : Touches s (s.setTask t { s.task t with waitNext := none }) t [] :=
    touches_of_task rfl rfl rfl rfl
  obtain ⟨he, hlen, hdone⟩ := h.wake hl rfl [] hw hm (by simp [setTask_task]) rfl
    (by simp) (by simp) hroom
  rw [he]
  exact ⟨(rqInsert_frame _ t).1, hlen, hdone⟩

lemma Settled.wakeOne (h : Settled s L) (q : Nat)
    (hroom : s.wq q ≠ none → s.rq.length < rqCapacity) : ∃ L', Settled (wqWakeOne s q) L' := by
  cases hq : s.wq q with
  | none => exact ⟨L, by simpa [wqWakeOne, hq] using h⟩
  | some t =>
    have hchain := h.placed.chain (.wait q) rfl
    rw [h.heads.2, hq] at hchain
    obtain ⟨rest, hw, -⟩ := hchain.eq_cons
    have hp : Placed { s with wq := update s.wq q (s.task t).waitNext } L :=
      h.placed.congr (fun _ => .refl _) rfl rfl rfl
    have hr : s.rq.length < rqCapacity := hroom (by simp [hq])
    obtain ⟨hrest, hlen, L', hp', hl', -, hc', hheads⟩ := hp.wakeFirst h.limbo hw hr
    simp only [wqWakeOne, hq]
    refine ⟨L', hp', hc'.trans (by rw [hrest]; exact h.cur), hl', ?_, by rw [hlen]; exact hr⟩
    exact (h.heads.updateWait hheads).congr hrest

/-- The loop of `wq_wake_all`: the rest of the detached list is still chained from the old
head, which `L.heads (.wait q)` stands for. -/
theorem Placed.wakeList (h : Placed s L) (hl : L.on .limbo = []) (q fuel : Nat)
    (hfuel : (L.on (.wait q)).length < fuel)
    (hroom : s.rq.length + (L.on (.wait q)).length ≤ rqCapacity) :
    let s' := wakeList fuel s (L.heads (.wait q))
    SameRest s s' ∧ s'.rq.length ≤ rqCapacity ∧ ∃ L', Placed s' L' ∧ L'.on .limbo = [] ∧
      L'.on .current = L.on .current ∧ L'.heads = update L.heads (.wait q) none := by
  induction fuel generalizing s L with
  | zero => omega
  | succ fuel ih =>
    have hchain := h.chain (.wait q) rfl
    cases hw : L.on (.wait q) with
    | nil =>
      rw [hw] at hchain hroom
      have hnone : L.heads (.wait q) = none := hchain
      have hupd : update L.heads (.wait q) none = L.heads := by
        rw [← hnone, update_eq_self]
      rw [hnone, hupd]
      exact ⟨rfl, hroom, L, h, hl, rfl, rfl⟩
    | cons t rest =>
      rw [hw] at hchain hroom hfuel
      rw [length_cons] at hroom hfuel
      rw [hchain.1]
      obtain ⟨hrest, hlen, L1, hp1, hl1, hw1, hc1, hheads⟩ := h.wakeFirst hl hw (by omega)
      obtain ⟨hrest2, hcap, L2, hp2, hl2, hc2, hheads2⟩ :=
        ih hp1 hl1 (by rw [hw1]; omega) (by rw [hw1]; omega)
      rw [show L1.heads (.wait q) = (s.task t).waitNext by rw [hheads]; simp] at hrest2 hp2 hcap
      refine ⟨hrest.trans hrest2, hcap, L2, hp2, hl2, hc2.trans hc1, ?_⟩
      rw [hheads2, hheads, update_idem]

lemma Placed.length_le (h : Placed s L) (p : Place) : (L.on p).length ≤ s.live.length :=
  ((h.spread.nodup p).subperm fun _ hu => h.spread.mem_live hu).length_le

def waiters (s : State) (q : Nat) : List Ptr := follow s.link s.live.length (s.wq q)

def sleepers (s : State) : List Ptr := follow s.link s.live.length s.sleepHead

lemma Settled.wakeAll (h : Settled s L) (q : Nat)
    (hroom : s.rq.length + (waiters s q).length ≤ rqCapacity) :
    ∃ L', Settled (wqWakeAll s q) L' := by
  have hle := h.placed.length_le (.wait q)
  have hwait : waiters s q = L.on (.wait q) := by
    unfold waiters
    rw [← h.heads.2]
    exact (h.placed.chain _ rfl).follow_eq hle
  have hp : Placed { s with wq := update s.wq q none } L :=
    h.placed.congr (fun _ => .refl _) rfl rfl rfl
  obtain ⟨hrest, hcap, L', hp', hl', hc', hheads⟩ :=
    hp.wakeList h.limbo q (s.live.length + 1) (by omega) (hwait ▸ hroom)
  rw [h.heads.2] at hrest hp' hcap
  exact ⟨L', hp', hc'.trans (h.cur.trans (by rw [wqWakeAll, hrest])), hl',
    (h.heads.updateWait hheads).congr hrest, hcap⟩

/-! ## The timer -/

lemma getLink_eq (s : State) (pre : List Ptr) :
    getLink s pre.getLast? = lastLink s.link s.sleepHead pre := by
  unfold getLink lastLink
  cases pre.getLast? <;> rfl

/-- Unlinking the task after `pre` from the sleep list. -/
theorem setLink_frame (s : State) (t : Ptr) (pre : List Ptr) (ht : t ∉ pre) :
    let s' := (setLink s pre.getLast? (s.task t).waitNext)
    let s' := s'.setTask t { s'.task t with waitNext := none }
    SameRest { s with sleepHead := if pre = [] then s.link t else s.sleepHead } s' ∧ s'.rq = s.rq ∧
      (∀ u, (s'.task u).wakeupTick = (s.task u).wakeupTick ∧
        (s'.task u).state = (s.task u).state) ∧ Touches s s' t pre ∧
      (∀ u, pre.getLast? = some u → s'.link u = s.link t) ∧
      ∀ u ∈ pre, pre.getLast? ≠ some u → s'.link u = s.link u := by
  cases hlast : pre.getLast? with
  | none =>
    obtain rfl := getLast?_eq_none_iff.mp hlast
    refine ⟨rfl, rfl, fun u => ?_, touches_of_task rfl rfl rfl rfl, by simp, by simp⟩
    simp only [setLink, setTask_task]
    split_ifs with hu <;> simp [hu]
  | some w =>
    have hw : w ∈ pre := mem_of_getLast? hlast
    have hwt : w ≠ t := fun he => ht (he ▸ hw)
    have hne : pre ≠ [] := ne_nil_of_mem hw
    refine ⟨by rw [if_neg hne]; rfl, rfl, fun u => ?_, ⟨rfl, rfl, fun u hu => ?_,
      fun u hu hp => ?_, fun u => ?_⟩, fun u hu => ?_, fun u hu hne => ?_⟩
    · simp only [setLink, setTask_task]
      split_ifs <;> simp_all
    · simp only [setLink, setTask_task]
      split_ifs <;> simp_all
    · have huw : u ≠ w := fun he => hp (he ▸ hw)
      simp [setLink, State.link, setTask_task, hu, huw]
    · simp only [setLink, setTask_task]
      split_ifs <;> simp_all
    · obtain rfl := Option.some.inj hu
      simp [setLink, State.link, setTask_task, hwt]
    · have hut : u ≠ t := fun he => ht (he ▸ hu)
      have huw : u ≠ w := fun he => hne (by rw [he])
      simp [setLink, State.link, setTask_task, hut, huw]

/-- The loop of `sched_tick` over the sleep list, when `pre` has been passed and `post` is
still to come; the tasks that are due leave `post` for the run queue. -/
theorem Placed.wakeSleepers (h : Placed s L) (hl : L.on .limbo = []) (hhead : L.HeadsOf s)
    (due : Ptr → Bool) (pre post : List Ptr) (hw : L.on .sleep = pre ++ post) (fuel : Nat)
    (hfuel : post.length < fuel) (hdue : ∀ u, due u = true ↔ (s.task u).wakeupTick ≤ s.ticks)
    (hroom : s.rq.length + (post.filter due).length ≤ rqCapacity) :
    let s' := wakeSleepers fuel s pre.getLast?
    s'.rq.length ≤ rqCapacity ∧ s'.current = s.current ∧
      ∃ L', Placed s' L' ∧ L'.on .limbo = [] ∧ L'.on .current = L.on .current ∧ L'.HeadsOf s' := by
  induction fuel generalizing s L pre post with
  | zero => omega
  | succ fuel ih =>
    have hchain := h.chain .sleep rfl
    rw [hw, hhead.1] at hchain
    have hnext := hchain.suffix
    rw [← getLink_eq] at hnext
    cases post with
    | nil =>
      have hnone : getLink s pre.getLast? = none := hnext
      have he : wakeSleepers (fuel + 1) s pre.getLast? = s := by
        simp [wakeSleepers, hnone]
      rw [he]
      exact ⟨by simpa using hroom, rfl, L, h, hl, rfl, hhead⟩
    | cons t rest =>
      rw [length_cons] at hfuel
      simp only [wakeSleepers, hnext.1]
      by_cases ht : (s.task t).wakeupTick ≤ s.ticks
      · rw [if_pos ht]
        rw [filter_cons_of_pos ((hdue t).mpr ht), length_cons] at hroom
        have hnot : t ∉ pre := fun hp => (nodup_cons.mp
          (nodup_middle.mp hchain.nodup)).1 (by simp [hp])
        obtain ⟨hrest, hrq, htask, hm, hlast, hpre⟩ := setLink_frame s t pre hnot
        generalize State.setTask (setLink s pre.getLast? (s.task t).waitNext) t _ = s1 at *
        obtain ⟨he, hlen, L2, hp2, hl2, hon2, hc2, hheads2⟩ := h.wake hl rfl pre hw hm
          (htask t).2 hrq hlast hpre (by omega)
        obtain ⟨hrest2, hwake2⟩ := rqInsert_frame s1 t
        replace hrest2 := hrest.trans hrest2
        rw [he]
        obtain ⟨hcap, hcur3, hdone⟩ := ih hp2 hl2
          ((hhead.updateSleep (by rw [hheads2, hhead.1])).congr hrest2) pre rest hon2 (by omega)
          (fun u => by rw [hdue u, hwake2 u, (htask u).1, hrest2]) (by omega)
        refine ⟨hcap, hcur3.trans (by rw [hrest2]), ?_⟩
        rwa [hc2] at hdone
      · rw [if_neg ht]
        rw [filter_cons_of_neg (fun hd => ht ((hdue t).mp hd))] at hroom
        have hnext := ih h hl hhead (pre ++ [t]) rest (by simpa using hw) (by omega) hdue hroom
        simpa using hnext

lemma tickCurrent_frame (s : State) : (∀ u, (s.task u).Same ((tickCurrent s).task u) ∧
      ((tickCurrent s).task u).wakeupTick = (s.task u).wakeupTick) ∧
    (tickCurrent s).live = s.live ∧ (tickCurrent s).rq = s.rq ∧
    (tickCurrent s).sleepHead = s.sleepHead ∧
    (tickCurrent s).deferredReapHead = s.deferredReapHead ∧
    (tickCurrent s).current = s.current ∧ (tickCurrent s).wq = s.wq ∧
    (tickCurrent s).ticks = s.ticks := by
  unfold tickCurrent
  simp only
  split_ifs
  all_goals
    refine ⟨fun u => ?_, rfl, rfl, rfl, rfl, rfl, rfl, rfl⟩
    simp only [setTask_task]
    split_ifs with hu
    · subst hu; exact ⟨⟨rfl, rfl, rfl⟩, rfl⟩
    · exact ⟨.refl _, rfl⟩

def dueSleepers (s : State) : List Ptr :=
  (sleepers s).filter fun u => (s.task u).wakeupTick ≤ u64 (s.ticks + 1)

section

variable (h : Settled s L)
include h

lemma Settled.tick (hroom : s.rq.length + (dueSleepers s).length ≤ rqCapacity) :
    ∃ L', Settled (schedTick s) L' := by
  have hle := h.placed.length_le .sleep
  have hsl : sleepers s = L.on .sleep := by
    unfold sleepers
    rw [← h.heads.1]
    exact (h.placed.chain _ rfl).follow_eq hle
  obtain ⟨htask, hlive, hrq, hhead, hreap, hcur, hwq, hticks⟩ :=
    tickCurrent_frame { s with ticks := u64 (s.ticks + 1) }
  have hp := h.placed.congr (fun u => (htask u).1) hlive hrq hreap
  unfold dueSleepers at hroom
  rw [hsl] at hroom
  obtain ⟨hcap, hcur', L', hp', hl', hc', hheads⟩ := hp.wakeSleepers h.limbo
    ⟨h.heads.1.trans hhead.symm, fun q => (h.heads.2 q).trans (by rw [hwq])⟩
    (fun u => (s.task u).wakeupTick ≤ u64 (s.ticks + 1)) [] (L.on .sleep) rfl
    (s.live.length + 1) (by omega)
    (fun u => by rw [hticks, (htask u).2]; exact decide_eq_true_iff) (by rw [hrq]; exact hroom)
  unfold schedTick
  simp only [hlive, getLast?_nil] at hp' hcap hcur' hheads ⊢
  generalize wakeSleepers _ _ _ = s2 at *
  have hcur2 : L'.on .current = [s2.current] := by
    rw [hc', hcur', hcur]; exact h.cur
  have hsig : (s2.task s2.current).signalPending = 0 :=
    hp'.signal _ (hp'.spread.mem_live (a := .current) (by simp [hcur2]))
  have hnone : tickSignals s2 = s2 := by simp [tickSignals, hsig]
  rw [hnone]
  exact ⟨L', hp', hcur2, hl', hheads, hcap⟩

/-! ## New tasks -/

/-- A new task is queued after fields of it and of its parent have been filled in. -/
theorem Settled.admitted (hn : t ∉ s.live) (v : Task)
    (hv : v.signalPending = 0) (hroom : s.rq.length < rqCapacity) {s1 : State}
    (hsame : ∀ u, (update s.task t v u).Same (s1.task u))
    (he : s1 = { s with task := s1.task, live := t :: s.live, nextId := s1.nextId
                        spaces := s1.spaces }) : ∃ L', Settled (queueNew s1 t) L' := by
  have hp := (h.placed.birth hn hv).congr hsame (by rw [he]) (by rw [he]; rfl) (by rw [he]; rfl)
  have hrq : s1.rq = s.rq := by rw [he]
  obtain ⟨hp2, hlen⟩ := hp.enqueue (t := t) (by simp) (.inl rfl)
    (by rw [hrq]; exact hroom)
  have hframe := (rqInsert_frame s1 t).1
  have hheads : L.HeadsOf (rqInsert s1 t) :=
    Layout.HeadsOf.congr (by rw [he]; exact h.heads) hframe
  have hp3 := (hp2.setTask (v := { (rqInsert s1 t).task t with accounted := true })
    ⟨rfl, rfl, rfl⟩).congr (Task.Same.refl <| (queueNew s1 t).task ·) rfl rfl rfl
  refine ⟨_, hp3, ?_, ?_, hheads, ?_⟩
  · have hcur' : (queueNew s1 t).current = s.current := by rw [queueNew, hframe, he]; rfl
    rw [hcur']
    simpa [Layout.move, moveItem] using h.cur
  · simp [Layout.move, moveItem, h.limbo]
  · change (rqInsert s1 t).rq.length ≤ _
    rw [hlen, hrq]; exact hroom

lemma Settled.spawn (o : Option Ptr) (ok : Bool) (hroom : s.rq.length < rqCapacity) :
    ∃ L', Settled (schedSpawn s o ok).2 L' := by
  unfold schedSpawn
  cases o with
  | none => exact ⟨L, h⟩
  | some t =>
    by_cases hn : t ∈ s.live
    · simpa [hn] using ⟨L, h⟩
    simp only [hn, if_false]
    cases ok with
    | false =>
      exact ⟨L, h.congr (h.placed.congr (fun _ => .refl _) rfl rfl rfl) rfl ⟨rfl, rfl⟩ rfl⟩
    | true =>
      let v : Task := { Task.zero with
        id := s.nextId, weight := weightForNice 0, parent := some s.current
        vruntime := s.minVruntime }
      simp only [if_true]
      split_ifs
      · refine h.admitted hn v rfl hroom (fun u => ?_) rfl
        simp only [addChild, State.setTask]
        by_cases hu : u = s.current
        · subst hu; simpa using ⟨rfl, rfl, rfl⟩
        · simpa [hu] using Task.Same.refl _
      · exact h.admitted hn v rfl hroom (fun u => Task.Same.refl _) rfl

/-- The end of `sys_fork`, with ids and address spaces already handed out. -/
theorem Settled.publish (hn : t ∉ s.live) {child : Task} (hc : child.signalPending = 0)
    (hroom : s.rq.length < rqCapacity) : ∃ L', Settled (publishChild s t child) L' := by
  have hct : s.current ≠ t := fun he => hn (he ▸ h.placed.spread.mem_live h.mem_current)
  refine h.admitted hn child hc hroom (fun u => ?_) rfl
  simp only [addChild, State.setTask]
  by_cases hu : u = t
  · subst hu; simpa [symm hct] using ⟨rfl, rfl, rfl⟩
  · by_cases huc : u = s.current
    · subst huc; simpa [hct] using ⟨rfl, rfl, rfl⟩
    · simpa [hu, huc] using Task.Same.refl _

lemma Settled.fork (o : Option Ptr) (stackOk : Bool) (space : Option Ptr) (restOk : Bool)
    (hroom : s.rq.length < rqCapacity) : ∃ L', Settled (sysFork s o stackOk space restOk).2 L' := by
  have hid : ∀ spaces destroyed,
      Settled { s with nextId := u64 (s.nextId + 1), spaces, destroyed } L :=
    fun _ _ => h.congr (h.placed.congr (fun _ => .refl _) rfl rfl rfl) rfl ⟨rfl, rfl⟩ rfl
  unfold sysFork
  by_cases hfull : maxChildren ≤ (s.task s.current).children.length
  · rw [if_pos hfull]; exact ⟨L, h⟩
  rw [if_neg hfull]
  cases o with
  | none => exact ⟨L, h⟩
  | some t =>
    by_cases hn : t ∈ s.live
    · simpa [hn] using ⟨L, h⟩
    simp only [hn, if_false]
    cases stackOk with
    | false => exact ⟨L, hid _ _⟩
    | true =>
      simp only [if_true]
      cases (s.task s.current).pml4 with
      | none =>
        split_ifs
        · exact (hid _ _).publish hn rfl hroom
        · exact ⟨L, hid _ _⟩
      | some p0 =>
        cases space with
        | none => exact ⟨L, hid _ _⟩
        | some p =>
          simp only
          split_ifs
          · exact ⟨L, hid _ _⟩
          · exact (hid _ _).publish hn rfl hroom
          · exact ⟨L, hid _ _⟩

lemma Settled.unblock (ht : t ∈ s.live) (hb : (s.task t).state ≠ .blocked) :
    Settled (schedUnblock s t) L := by
  obtain ⟨p, hp⟩ := (h.placed.spread.mem t).mp ht
  have hst := h.placed.state p t hp (by rintro rfl; simp [h.limbo] at hp)
  have hns : (s.task t).state ≠ .stopped := by
    rw [hst]
    cases p <;> simp [Place.state]
  unfold schedUnblock
  rwa [if_neg (by simp [hb, hns])]

end

end Steps

/-! ## Runs -/

/-- The calls the scheduler is driven by; `sched_enable` is made once at boot. -/
inductive Op where
  | enable
  | spawn (t : Option Ptr) (ok : Bool)
  | fork (t : Option Ptr) (stackOk : Bool) (space : Option Ptr) (restOk : Bool)
  | yield
  | sleepUntil (deadline : Nat)
  | wqSleep (q : Nat)
  | wakeOne (q : Nat)
  | wakeAll (q : Nat)
  | unblock (t : Ptr)
  | tick

def step : Machine State Op Unit := fun s op => ((), match op with
  | .enable => { s with schedEnabled := true }
  | .spawn t ok => (schedSpawn s t ok).2
  | .fork t stackOk space restOk => (sysFork s t stackOk space restOk).2
  | .yield => schedYield s
  | .sleepUntil deadline => schedSleepUntil s deadline
  | .wqSleep q => Sched.wqSleep s q
  | .wakeOne q => wqWakeOne s q
  | .wakeAll q => wqWakeAll s q
  | .unblock t => schedUnblock s t
  | .tick => schedTick s)

/-- What an operation must find: room in the run queue for the tasks it may queue, a task
to switch to when the current one blocks, and no `sched_unblock` of a task that is still
on a list. -/
def Op.Safe (s : State) : Op → Prop
  | .enable | .yield => True
  | .spawn _ _ | .fork _ _ _ _ => s.rq.length < rqCapacity
  | .sleepUntil _ => s.rq ≠ []
  | .wqSleep _ => s.rq ≠ [] ∧ s.schedEnabled = true
  | .wakeOne q => s.wq q ≠ none → s.rq.length < rqCapacity
  | .wakeAll q => s.rq.length + (waiters s q).length ≤ rqCapacity
  | .unblock t => t ∈ s.live ∧ (s.task t).state ≠ .blocked
  | .tick => s.rq.length + (dueSleepers s).length ≤ rqCapacity

instance (s : State) : (op : Op) → Decidable (op.Safe s)
  | .enable | .yield => .isTrue trivial
  | .spawn _ _ | .fork _ _ _ _ => inferInstanceAs (Decidable (s.rq.length < rqCapacity))
  | .sleepUntil _ => inferInstanceAs (Decidable (s.rq ≠ []))
  | .wqSleep _ => inferInstanceAs (Decidable (s.rq ≠ [] ∧ s.schedEnabled = true))
  | .wakeOne q => inferInstanceAs (Decidable (s.wq q ≠ none → s.rq.length < rqCapacity))
  | .wakeAll q => inferInstanceAs (Decidable (s.rq.length + (waiters s q).length ≤ rqCapacity))
  | .unblock t => inferInstanceAs (Decidable (t ∈ s.live ∧ (s.task t).state ≠ .blocked))
  | .tick => inferInstanceAs (Decidable (s.rq.length + (dueSleepers s).length ≤ rqCapacity))

lemma Settled.step {s : State} {L : Layout} (h : Settled s L) {op : Op} (hop : op.Safe s) :
    ∃ L', Settled (step s op).2 L' := by
  cases op with
  | enable =>
    exact ⟨L, h.congr (h.placed.congr (fun _ => .refl _) rfl rfl rfl) rfl ⟨rfl, rfl⟩ rfl⟩
  | spawn t ok => exact h.spawn t ok hop
  | fork t stackOk space restOk => exact h.fork t stackOk space restOk hop
  | yield => exact h.yield
  | sleepUntil deadline => exact h.sleepUntil deadline hop
  | wqSleep q => exact h.wqSleep q hop.1 hop.2
  | wakeOne q => exact h.wakeOne q hop
  | wakeAll q => exact h.wakeAll q hop
  | unblock t => exact ⟨L, h.unblock hop.1 hop.2⟩
  | tick => exact h.tick hop

lemma schedInit_settled (boot : Ptr) : ∃ L, Settled (schedInit boot) L := by
  refine ⟨⟨fun p => if p = .current then [boot] else [], fun _ => none⟩,
    ⟨⟨fun p => ?_, fun t => ?_, fun p q t hp hq => ?_⟩, rfl, fun p hp => ?_, fun p t ht _ => ?_, ?_,
      rfl⟩, rfl, rfl, ⟨rfl, fun _ => rfl⟩, Nat.zero_le _⟩
  · dsimp only
    split_ifs <;> simp
  · simp [schedInit]
  · simp_all
  · simp only [if_neg (Place.linked_state hp).2.2.1]
    rfl
  · obtain ⟨rfl, rfl⟩ : p = .current ∧ t = boot := by simpa using ht
    simp [schedInit, Place.state]
  · simp [schedInit, Task.zero]

def At (s : State) (t : Ptr) : Place → Prop
  | .current => s.current = t
  | .run => t ∈ s.rq
  | .sleep => OnChain s.link s.sleepHead t
  | .wait q => OnChain s.link (s.wq q) t
  | .limbo => False

/-- Every task that is not stopped and has not exited is at exactly one place, once, and in
the state that belongs to the place. -/
structure SinglePlacement (s : State) : Prop where
  run_nodup : s.rq.Nodup
  sleep_list : ∃ l : List Ptr, l.Nodup ∧ Chain s.link s.sleepHead l
  wait_list : ∀ q, ∃ l : List Ptr, l.Nodup ∧ Chain s.link (s.wq q) l
  single : ∀ t ∈ s.live, (s.task t).state ≠ .stopped → (s.task t).state.exited = false →
    ∃ p, At s t p ∧ (∀ p', At s t p' → p' = p) ∧ (s.task t).state = p.state

lemma Settled.at_iff {s : State} {L : Layout} (h : Settled s L) {t : Ptr} (p : Place) :
    At s t p ↔ t ∈ L.on p := by
  cases p with
  | current => simp [At, h.cur, eq_comm]
  | run => rw [At, h.placed.run]
  | sleep => rw [At, ← h.heads.1, (h.placed.chain _ rfl).onChain_iff]
  | wait q => rw [At, ← h.heads.2, (h.placed.chain _ rfl).onChain_iff]
  | limbo => simp [At, h.limbo]

lemma Settled.singlePlacement {s : State} {L : Layout} (h : Settled s L) : SinglePlacement s := by
  refine ⟨h.placed.run ▸ h.placed.spread.nodup _,
    ⟨_, h.placed.spread.nodup _, h.heads.1 ▸ h.placed.chain .sleep rfl⟩,
    fun q => ⟨_, h.placed.spread.nodup _, h.heads.2 q ▸ h.placed.chain (.wait q) rfl⟩,
    fun t ht _ _ => ?_⟩
  obtain ⟨p, hp⟩ := (h.placed.spread.mem t).mp ht
  refine ⟨p, (h.at_iff p).mpr hp,
    fun p' hp' => h.placed.spread.single p' p t ((h.at_iff p').mp hp') hp,
    h.placed.state p t hp ?_⟩
  rintro rfl
  simp [h.limbo] at hp

/-- In every run from boot in which every operation finds what it needs, every task is at
exactly one place. -/
theorem run_singlePlacement (boot : Ptr) (ops : List Op)
    (hops : step.Along (fun s op => op.Safe s) (schedInit boot) ops) :
    SinglePlacement (step.run (schedInit boot) ops) := by
  obtain ⟨L, h⟩ := Machine.run_invariant (I := fun s => ∃ L, Settled s L)
    (fun s op ⟨L, hL⟩ hop => hL.step hop) (schedInit_settled boot) hops
  exact h.singlePlacement

theorem run_singlePlacement_wait : SinglePlacement (step.run (schedInit 0)
    [.enable, .spawn (some 1) true, .wqSleep 0, .tick, .wakeOne 0, .yield]) :=
  run_singlePlacement 0 _ (by decide)

/-- With an empty run queue `wq_sleep` returns to its caller, which is then both the
current task and on the wait queue. -/
theorem wqSleep_alone_two_places :
    ¬ SinglePlacement (step.run (schedInit 0) [.enable, .wqSleep 0]) := by
  intro h
  obtain ⟨p, -, hone, -⟩ := h.single 0 (by decide) (by decide) (by decide)
  have hcur : Place.current = p := hone .current rfl
  have hwait : Place.wait 0 = p := hone (.wait 0) (.here 0)
  rw [← hcur] at hwait
  simp at hwait

end YamKernel.Sched

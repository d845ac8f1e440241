import YamKernel.Sched.PlacementRuns

/-!
# Fairness of `sched_yield`

Which tasks run when the tasks only yield. `rq_insert` puts a task before those with an equal
vruntime, and `sched_yield` picks the next task before it queues the current one, so from the
second call on two tasks alternate.
-/

namespace YamKernel.Sched

open List Function

def State.vr (s : State) (t : Ptr) : Nat := (s.task t).vruntime

/-- A task runs, and the tasks in the run queue are ready. -/
structure Ready (s : State) : Prop where
  enabled : s.schedEnabled = true
  reap : s.deferredReapHead = none
  running : (s.task s.current).state = .running
  ready : ∀ t ∈ s.rq, (s.task t).state = .ready
  nodup : (s.current :: s.rq).Nodup
  cap : s.rq.length ≤ rqCapacity

def yields (s : State) : Nat → State
  | 0 => s
  | n + 1 => schedYield (yields s n)

/-- A task does not run again before each task that was ready when it started to run, with a
vruntime that is not greater, has run. -/
def RoundRobin (s : State) : Prop :=
  ∀ i j, i < j → (yields s j).current = (yields s i).current → ∀ u ∈ (yields s i).rq,
    (yields s i).vr u ≤ (yields s i).vr (yields s i).current →
      ∃ k, i < k ∧ k < j ∧ (yields s k).current = u

/-- Of the running task and the ready tasks, two come before all others. -/
def TwoFirst (s : State) : Prop :=
  match s.rq with
  | a :: b :: rest =>
    if s.vr s.current ≤ s.vr b then s.vr s.current < s.vr b ∧ s.vr a < s.vr b
    else ∀ w ∈ rest, s.vr b < s.vr w
  | _ => True

/-- The slot lies between the smaller keys and the others. -/
theorem searchSlot_spec {f : Ptr → Nat} {rq : List Ptr} {v fuel lo hi : Nat} (hf : hi ≤ lo + fuel)
    (hle : lo ≤ hi) (hhi : hi ≤ rq.length) (hlow : ∀ i, i + 1 = lo → f (rq.getD i 0) < v)
    (hup : hi < rq.length → v ≤ f (rq.getD hi 0)) :
    (∀ i, i + 1 = searchSlot f rq v fuel lo hi → i < rq.length ∧ f (rq.getD i 0) < v) ∧
      (searchSlot f rq v fuel lo hi < rq.length →
        v ≤ f (rq.getD (searchSlot f rq v fuel lo hi) 0)) := by
  induction fuel generalizing lo hi with
  | zero =>
    obtain rfl : lo = hi := by omega
    exact ⟨fun i hi => ⟨by rw [searchSlot] at hi; omega, hlow i hi⟩, hup⟩
  | succ fuel ih =>
    rw [searchSlot]
    split_ifs
    · dsimp only
      split_ifs with hmid
      · exact ih (by omega) (by omega) hhi (fun i hi => by rwa [Nat.succ.inj hi]) hup
      · exact ih (by omega) (by omega) (by omega) hlow fun _ => Nat.le_of_not_lt hmid
    · obtain rfl : lo = hi := by omega
      exact ⟨fun i hi => ⟨by omega, hlow i hi⟩, hup⟩

section Yield

variable {s : State} {a b t x y : Ptr} {r rest : List Ptr} {f : Ptr → Nat}

/-- Where `rq_insert` puts the task. -/
def State.slot (s : State) (t : Ptr) : Nat :=
  searchSlot s.vr s.rq (s.vr t) s.rq.length 0 s.rq.length

lemma setTask_vr {v : Task} (hv : v.vruntime = s.vr t) : (s.setTask t v).vr = s.vr := by
  funext u
  simp only [State.vr, setTask_task]
  split_ifs with hu
  · rw [hv, hu, State.vr]
  · rfl

lemma switchTo_vr : (switchTo s t).vr = s.vr := setTask_vr rfl

lemma rqInsert_vr : (rqInsert s t).vr = s.vr := by
  unfold rqInsert
  split
  · rfl
  · exact setTask_vr rfl

lemma rqInsert_rq (hroom : s.rq.length < rqCapacity) :
    (rqInsert s t).rq = s.rq.take (s.slot t) ++ t :: s.rq.drop (s.slot t) := by
  have hvr : (s.setTask t { s.task t with state := .ready }).vr = s.vr := setTask_vr rfl
  unfold rqInsert State.slot
  rw [if_neg (by omega), ← hvr]
  rfl

lemma Ready.yield (h : Ready s) (hrq : s.rq = a :: rest) :
    ∃ lo, ((∀ i, i + 1 = lo → i < rest.length ∧ s.vr (rest.getD i 0) < s.vr s.current) ∧
        (lo < rest.length → s.vr s.current ≤ s.vr (rest.getD lo 0))) ∧
      Ready (schedYield s) ∧ (schedYield s).vr = s.vr ∧ (schedYield s).current = a ∧
      (schedYield s).rq = rest.take lo ++ s.current :: rest.drop lo := by
  obtain ⟨load, minv, hpick⟩ : ∃ load minv, rqPickNext s =
      (some a, { s with rq := rest, loadWeight := load, minVruntime := minv }) := by
    rw [rqPickNext, hrq]
    exact ⟨_, _, rfl⟩
  have ha : (s.task a).state = .ready := h.ready a (by simp [hrq])
  have hcap := h.cap
  have hnd := h.nodup
  rw [hrq] at hnd hcap
  obtain ⟨s2, hs2⟩ : ∃ s2, s2 =
      { s with rq := rest, loadWeight := load, minVruntime := minv }.setTask s.current
        { s.task s.current with sliceTicks := 0, needResched := false } := ⟨_, rfl⟩
  have hy : schedYield s = switchTo (rqInsert s2 s.current) a := by
    simp [schedYield, h.enabled, schedReapDeferredDeadTasks_none h.reap, pickLive, hpick, ha,
      h.running, hs2]
  have hvr : s2.vr = s.vr := by
    rw [hs2]
    exact setTask_vr rfl
  have hrest : s2.rq = rest := by rw [hs2]; rfl
  have hroom : s2.rq.length < rqCapacity := by
    rw [hrest]
    exact hcap
  obtain ⟨rq, load', minv', hperm, hins⟩ := rqInsert_eq hroom
  have hq := rqInsert_rq (t := s.current) hroom
  rw [State.slot, hvr, hrest, hins] at hq
  rw [hrest] at hperm
  have hvr' : (schedYield s).vr = s.vr := by rw [hy, switchTo_vr, rqInsert_vr, hvr]
  rw [hy, hins] at hvr' ⊢
  refine ⟨_, searchSlot_spec (by omega) (Nat.zero_le _) (Nat.le_refl _) (by simp)
    fun hlt => absurd hlt (Nat.lt_irrefl _), ⟨?_, ?_, ?_, fun t ht => ?_, ?_, ?_⟩, hvr', rfl, hq⟩
  · rw [hs2]
    exact h.enabled
  · rw [hs2]
    exact h.reap
  · simp [switchTo, setTask_task]
  · have hta : t ≠ a := by
      rintro rfl
      have := hperm.mem_iff.mp ht
      simp_all
    simp only [switchTo, setTask_task, if_neg hta]
    split_ifs with htc
    · rfl
    · have := (mem_cons.mp (hperm.mem_iff.mp ht)).resolve_left htc
      rw [hs2, setTask_task, if_neg htc]
      exact h.ready t (by simp [hrq, this])
  · exact (hperm.cons a).nodup_iff.mpr ((Perm.swap ..).nodup_iff.mp hnd)
  · exact hperm.length_eq ▸ hcap

/-- Two tasks come before all others, and one of them runs. -/
structure Alternates (f : Ptr → Nat) (s : State) (x y : Ptr) (r : List Ptr) : Prop where
  ready : Ready s
  vr : s.vr = f
  current : s.current = x
  rq : s.rq = y :: r
  first : ∀ w ∈ r, f x ≤ f w ∧ f y ≤ f w

section Alternates

variable (h : Alternates f s x y r)
include h

lemma Alternates.yield : Alternates f (schedYield s) y x r := by
  obtain ⟨lo, hslot, hr, hvr, hcur, hrq⟩ := h.ready.yield h.rq
  have hzero : lo = 0 := by
    by_contra hne
    obtain ⟨i, hi⟩ : ∃ i, i + 1 = lo := ⟨lo - 1, by omega⟩
    obtain ⟨hlt, hv⟩ := hslot.1 i hi
    rw [getD_eq_getElem?_getD, getElem?_eq_getElem hlt, h.vr, h.current] at hv
    exact Nat.not_lt.mpr (h.first _ (getElem_mem hlt)).1 hv
  rw [hzero, h.current] at hrq
  exact ⟨hr, hvr.trans h.vr, hcur, hrq, fun w hw => (h.first w hw).symm⟩

lemma Alternates.yields (n : Nat) :
    Alternates f (yields s n) x y r ∨ Alternates f (yields s n) y x r := by
  induction n with
  | zero => exact .inl h
  | succ n ih => exact ih.symm.imp (·.yield) (·.yield)

lemma Alternates.nodup : (x :: y :: r).Nodup := by
  have := h.ready.nodup
  rwa [h.current, h.rq] at this

omit h in
/-- Two tasks that alternate are fair to each other, and to nobody else. -/
theorem Alternates.roundRobin_iff (h : Alternates f s x y r) :
    RoundRobin s ↔ ∀ w ∈ r, f x < f w ∧ f y < f w := by
  constructor
  · intro hrr w hw
    have hbefore : ∀ i x y, Alternates f (Sched.yields s i) x y r → f x < f w := by
      intro i x y g
      by_contra hle
      obtain ⟨k, hk, hk', hrun⟩ := hrr i (i + 2) (by omega)
        (g.yield.yield.current.trans g.current.symm)
        w (by simp [g.rq, hw]) (by rw [g.vr, g.current]; omega)
      obtain rfl : k = i + 1 := by omega
      obtain rfl : y = w := g.yield.current.symm.trans hrun
      have := g.nodup
      simp_all
    exact ⟨hbefore 0 x y h, hbefore 1 y x h.yield⟩
  · intro hlt i j hij hcur u hu hle
    have hother : ∀ x y, (∀ w ∈ r, f x < f w) → Alternates f (Sched.yields s i) x y r →
        ∃ k, i < k ∧ k < j ∧ (Sched.yields s k).current = u := by
      intro x y hx g
      rw [g.vr, g.current] at hle
      rw [g.rq, mem_cons] at hu
      obtain rfl : u = y := hu.resolve_right fun hr => by
        have := hx u hr
        omega
      have hne : j ≠ i + 1 := by
        rintro rfl
        have hsame : u = x := g.yield.current.symm.trans (hcur.trans g.current)
        have := g.nodup
        simp [hsame] at this
      exact ⟨i + 1, by omega, by omega, g.yield.current⟩
    exact (h.yields i).elim (hother x y fun w hw => (hlt w hw).1)
      (hother y x fun w hw => (hlt w hw).2)

end Alternates

lemma yields_succ (s : State) (n : Nat) : yields s (n + 1) = yields (schedYield s) n := by
  induction n with
  | zero => rfl
  | succ n ih => rw [yields, ih, yields]

/-- A task that does not run again is treated fairly whatever the others do. -/
theorem roundRobin_yield (h : ∀ n, (yields (schedYield s) n).current ≠ s.current) :
    RoundRobin s ↔ RoundRobin (schedYield s) := by
  constructor
  · intro hrr i j hij hcur u hu hle
    simp only [← yields_succ] at hcur hu hle ⊢
    obtain ⟨k, hk, hk', hrun⟩ := hrr (i + 1) (j + 1) (by omega) hcur u hu hle
    obtain ⟨k, rfl⟩ : ∃ n, k = n + 1 := ⟨k - 1, by omega⟩
    exact ⟨k, by omega, by omega, hrun⟩
  · intro hrr i j hij hcur u hu hle
    obtain ⟨j, rfl⟩ : ∃ n, j = n + 1 := ⟨j - 1, by omega⟩
    cases i with
    | zero =>
      rw [yields_succ] at hcur
      exact absurd hcur (h j)
    | succ i =>
      simp only [yields_succ] at hcur hu hle
      obtain ⟨k, hk, hk', hrun⟩ := hrr i j (by omega) hcur u hu hle
      exact ⟨k + 1, by omega, by omega, by rwa [yields_succ]⟩

/-- Among tasks that only yield there is round robin exactly if two of them come before all
others. -/
theorem round_robin_iff (h : Ready s) (hsort : s.rq.Pairwise fun a b => s.vr a ≤ s.vr b) :
    RoundRobin s ↔ TwoFirst s := by
  unfold TwoFirst
  cases hrq : s.rq with
  | nil =>
    have hstay : schedYield s = s := by
      simp [schedYield, schedReapDeferredDeadTasks_none h.reap, pickLive, rqPickNext, hrq]
    have hsame : ∀ n, yields s n = s := by
      intro n
      induction n with
      | zero => rfl
      | succ n ih => rw [yields, ih, hstay]
    exact iff_of_true (fun i j _ _ u hu => by simp [hsame, hrq] at hu) trivial
  | cons a rest =>
    rw [hrq, pairwise_cons] at hsort
    obtain ⟨ha, hsort⟩ := hsort
    cases rest with
    | nil =>
      have halt : Alternates s.vr s s.current a [] := ⟨h, rfl, rfl, hrq, by simp⟩
      simpa using halt.roundRobin_iff
    | cons b rest =>
      obtain ⟨hb, -⟩ := pairwise_cons.mp hsort
      have := ha b (by simp)
      dsimp only
      split_ifs with hle
      · have halt : Alternates s.vr s s.current a (b :: rest) := by
          refine ⟨h, rfl, rfl, hrq, fun w hw => ⟨?_, ha w hw⟩⟩
          rcases mem_cons.mp hw with rfl | hw
          · exact hle
          · exact Nat.le_trans hle (hb w hw)
        rw [halt.roundRobin_iff]
        refine ⟨fun hall => hall b (by simp), fun hlt w hw => ?_⟩
        rcases mem_cons.mp hw with rfl | hw
        · exact hlt
        · have := hb w hw
          omega
      · -- The running task is queued behind two others, which alternate from then on.
        obtain ⟨lo, hslot, hr, hvr, hcur, hq⟩ := h.yield hrq
        obtain ⟨lo, rfl⟩ : ∃ n, lo = n + 1 :=
          Nat.exists_eq_add_one_of_ne_zero fun h0 => by simp [h0, hle] at hslot
        rw [take_succ_cons, drop_succ_cons, cons_append] at hq
        have hmem : ∀ w, w ∈ rest.take lo ++ s.current :: rest.drop lo ↔
            w = s.current ∨ w ∈ rest := by
          intro w
          rw [perm_middle.mem_iff, take_append_drop, mem_cons]
        generalize rest.take lo ++ s.current :: rest.drop lo = r at *
        have halt : Alternates s.vr (schedYield s) a b r := by
          refine ⟨hr, hvr, hcur, hq, fun w hw => ?_⟩
          rcases (hmem w).mp hw with rfl | hw
          · omega
          · exact ⟨ha w (by simp [hw]), hb w hw⟩
        rw [roundRobin_yield, halt.roundRobin_iff]
        · refine ⟨fun hall w hw => (hall w ((hmem w).mpr (.inr hw))).2, fun hlt w hw => ?_⟩
          rcases (hmem w).mp hw with rfl | hw
          · omega
          · have := hlt w hw
            omega
        · intro n hn
          have hnd := h.nodup
          rw [hrq] at hnd
          rcases halt.yields n with g | g <;> rw [g.current] at hn <;> simp [hn] at hnd

end Yield

def twoSpawned : List Op := [.enable, .spawn (some 1) true, .spawn (some 2) true]

/-- After a tick the boot task is behind the two others. -/
theorem round_robin_iff_tick : RoundRobin (step.run (schedInit 0) (twoSpawned ++ [.tick])) := by
  refine (round_robin_iff ⟨rfl, rfl, rfl, by decide, by decide, by decide⟩ (by decide)).mpr ?_
  have hrq : (step.run (schedInit 0) (twoSpawned ++ [.tick])).rq = [2, 1] := by decide
  rw [TwoFirst, hrq]
  decide

/-- Three tasks with one vruntime: the first two alternate. -/
theorem third_task_starves : Ready (step.run (schedInit 0) twoSpawned) ∧
    ¬ RoundRobin (step.run (schedInit 0) twoSpawned) := by
  refine ⟨⟨rfl, rfl, rfl, by decide, by decide, by decide⟩, fun h => ?_⟩
  obtain ⟨k, hk, hk', hrun⟩ := h 0 2 (by decide) (by decide) 1 (by decide) (by decide)
  obtain rfl : k = 1 := by omega
  exact absurd hrun (by decide)

end YamKernel.Sched

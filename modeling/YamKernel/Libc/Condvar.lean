import Mathlib.Data.Fintype.Basic
import YamKernel.Libc.Pthread

/-!
# Signals of a condition variable

`pthread_cond_signal` increments the counter and then wakes one thread asleep on it. A thread
that loads the counter between the two and is asleep before the wake can take it from a thread
that waited when the call began. If no thread loads the counter there, and the counter does not
come around to a value somebody still waits for, every signal reaches a thread that was waiting.
-/

namespace YamKernel.Pthread

open Lib List

/-- The counter the thread has loaded for a futex wait it has not begun. -/
def Pc.val : Pc → Option Nat
  | .loaded val | .condWait val => some val
  | .store val | .wake val => val
  | _ => none

/-- The thread has released the mutex inside `pthread_cond_wait` and has not returned from its
futex wait. -/
def Pc.waits : Pc → Bool
  | .wake (some _) | .condWait _ | .condAsleep => true
  | _ => false

lemma Pc.awake_of_waits {p : Pc} (h : p.waits) (hc : p ≠ .condAsleep) : p.awake := by
  cases p <;> simp_all [waits, awake]

variable {T : Type*} [DecidableEq T]

def Increments (s : State T) (e : T × Call × T) : Prop :=
  (s.pc e.1 = .out ∨ s.pc e.1 = .holds) ∧ (e.2.1 = .signal ∨ e.2.1 = .broadcast)

/-- The counter is not loaded between the increment and the wake of a signal, and is not
incremented to a value that a thread is about to wait for. -/
def Timely (s : State T) (e : T × Call × T) : Prop :=
  (s.pc e.1 = .holds → e.2.1 = .condWait → ∀ u held, s.pc u ≠ .signal held) ∧
  (Increments s e → ∀ u, (s.pc u).val ≠ some (u32 (s.seq + 1)))

instance [Fintype T] (s : State T) (e : T × Call × T) : Decidable (Increments s e) :=
  inferInstanceAs (Decidable (_ ∧ _))

instance [Fintype T] (s : State T) (e : T × Call × T) : Decidable (Timely s e) :=
  inferInstanceAs (Decidable (_ ∧ _))

/-- The thread leaves its futex wait, in or before the run. -/
def Left (s : State T) (es : List (T × Call × T)) (w : T) : Prop :=
  ∃ es' ∈ es.inits, ((step.run s es').pc w).waits = false

/-- A thread that waits in `s` leaves its futex wait in the run, or has yet to begin it. -/
def Heard (s : State T) (es : List (T × Call × T)) : Prop :=
  ∃ w, (s.pc w).waits ∧ (Left s es w ∨ (step.run s es).pc w ≠ .condAsleep)

/-! ## What a step does to the condition variable -/

/-- The step of `t` leaves the counter alone, and lets nobody load it or sleep on it. -/
structure Quiet (s : State T) (t : T) (s' : State T) : Prop where
  seq : s'.seq = s.seq
  val : ∀ u v, (s'.pc u).val = some v → (s.pc u).val = some v
  waiting : ∀ u ∈ s'.waiting, u ∈ s.waiting
  other : ∀ u ≠ t, s'.pc u = s.pc u ∨ u ∈ s.sleeping ∨ u ∈ s.waiting

variable {s s' s₀ : State T} {t u w : T} {p : Pc} {held : Bool} {e : T × Call × T}
  {es : List (T × Call × T)}

omit [DecidableEq T] in
lemma Quiet.refl (s : State T) (t : T) : Quiet s t s :=
  ⟨rfl, fun _ _ => id, fun _ => id, by simp⟩

lemma Quiet.go (h : Quiet s t s') {w : Int} {q : List T}
    (hp : ∀ v, p.val = some v → (s.pc t).val = some v) :
    Quiet s t ({ s' with word := w, sleeping := q }.go t p) where
  seq := h.seq
  val u v := by grind [h.val]
  waiting := h.waiting
  other u hu := by grind [h.other]

lemma Quiet.cas (hp : p.val = none) : Quiet s t (cas s t p) := by
  unfold Pthread.cas
  split_ifs
  · exact (refl s t).go (by simp [Pc.val])
  · exact (refl s t).go (by simp [hp])

lemma Quiet.unlock {val : Option Nat} (hv : ∀ v, val = some v → (s.pc t).val = some v) :
    Quiet s t (pthreadMutexUnlock s t val) := by
  refine (refl s t).go fun v hp => hv v ?_
  split_ifs at hp
  · exact hp
  · cases val <;> exact hp

lemma Quiet.wakeSleeping (hu : u ∈ s.sleeping) : Quiet s t (wakeSleeping s u) where
  seq := rfl
  val v := by grind [wakeSleeping, Pc.val]
  waiting _ := id
  other v _ := by grind [wakeSleeping]

lemma Quiet.wakeWaiting (h : Quiet s t s') (hu : u ∈ s'.waiting) :
    Quiet s t (wakeWaiting s' u) where
  seq := h.seq
  val v := by grind [h.val, wakeWaiting, Pc.val]
  waiting v hv := h.waiting v (mem_of_mem_erase hv)
  other v hv := by grind [h.other, h.waiting, wakeWaiting]

lemma Quiet.wakeAll {us : List T} (h : Quiet s t s') (hn : us.Nodup)
    (hu : ∀ u ∈ us, u ∈ s'.waiting) : Quiet s t (us.foldl Pthread.wakeWaiting s') := by
  induction us generalizing s' with
  | nil => exact h
  | cons u us ih =>
    apply ih (h.wakeWaiting (hu u mem_cons_self)) hn.of_cons
    grind [Pthread.wakeWaiting, State.go]

/-- Every step is quiet, or loads the counter, or increments it, or falls asleep on it. -/
theorem step_cases (h : Inv s) (e : T × Call × T) :
    Quiet s e.1 (step s e).2 ∨
    (s.pc e.1 = .holds ∧ e.2.1 = .condWait ∧ (step s e).2 = s.go e.1 (.loaded s.seq)) ∨
    (Increments s e ∧ ∃ p : Pc, p.val = none ∧
      (step s e).2 = { s with seq := u32 (s.seq + 1) }.go e.1 p) ∨
    (s.pc e.1 = .condWait s.seq ∧
      (step s e).2 = { s with waiting := e.1 :: s.waiting }.go e.1 .condAsleep) := by
  obtain ⟨t, call, pick⟩ := e
  have hback : ∀ held, (back held).val = none := by decide
  cases hpc : s.pc t with
  | out =>
    cases call <;> simp only [step, hpc]
    case signal => exact .inr (.inr (.inl ⟨⟨.inl hpc, .inl rfl⟩, _, rfl, rfl⟩))
    case broadcast => exact .inr (.inr (.inl ⟨⟨.inl hpc, .inr rfl⟩, _, rfl, rfl⟩))
    case lock | trylock => exact .inl (.cas rfl)
    all_goals exact .inl (.refl s t)
  | holds =>
    cases call <;> simp only [step, hpc]
    case signal => exact .inr (.inr (.inl ⟨⟨.inr hpc, .inl rfl⟩, _, rfl, rfl⟩))
    case broadcast => exact .inr (.inr (.inl ⟨⟨.inr hpc, .inr rfl⟩, _, rfl, rfl⟩))
    case condWait => exact .inr (.inl ⟨trivial, trivial, trivial⟩)
    case unlock => exact .inl (.unlock (by simp [Pc.val]))
    all_goals exact .inl (.cas rfl)
  | condWait val =>
    simp only [step, hpc]
    split_ifs with hv
    · subst hv
      exact .inr (.inr (.inr ⟨rfl, rfl⟩))
    · exact .inl ((Quiet.refl s t).go (by simp [Pc.val]))
  | signal held =>
    refine .inl ?_
    simp only [step, hpc]
    split
    case h_1 u hc => exact ((Quiet.refl s t).wakeWaiting (chosen_mem hc)).go (by simp [hback])
    case h_2 => exact (Quiet.refl s t).go (by simp [hback])
  | broadcast held =>
    refine .inl ?_
    simp only [step, hpc]
    have hsub : ∀ u ∈ s.waiting.take 0x7fffffff, u ∈ s.waiting := fun u => mem_of_mem_take
    exact ((Quiet.refl s t).wakeAll (h.nodup.2.sublist (take_sublist ..)) hsub).go
      (by simp [hback])
  | wake val =>
    refine .inl ?_
    have hval : ∀ v, (unlocked val).val = some v → (s.pc t).val = some v := by
      rw [hpc]
      cases val <;> exact fun _ => id
    simp only [step, hpc]
    split
    case h_1 u hc => exact (Quiet.wakeSleeping (chosen_mem hc)).go hval
    case h_2 => exact (Quiet.refl s t).go hval
  | exchange held woken =>
    refine .inl ?_
    simp only [step, hpc]
    split_ifs <;> exact (Quiet.refl s t).go (by simp [Pc.val])
  | wait held =>
    refine .inl ?_
    simp only [step, hpc]
    split_ifs <;> exact (Quiet.refl s t).go (by simp [Pc.val])
  | store val => simpa only [step, hpc] using .inl ((Quiet.refl s t).go fun v hv => hpc ▸ hv)
  | loaded val => simpa only [step, hpc] using .inl (.unlock fun v hv => hpc ▸ hv)
  | relock => simpa only [step, hpc] using .inl (.cas rfl)
  | asleep held => simpa only [step, hpc] using .inl (.refl s t)
  | condAsleep => simpa only [step, hpc] using .inl (.refl s t)

/-- A step of another thread leaves a thread that is not asleep where it is. -/
theorem step_other (h : Inv s) (hu : u ≠ e.1) (awake : (s.pc u).awake) :
    (step s e).2.pc u = s.pc u := by
  obtain ⟨ha, hc⟩ := Pc.awake_iff.mp awake
  obtain hq | ⟨-, -, hs⟩ | ⟨-, p, -, hs⟩ | ⟨-, hs⟩ := step_cases h e
  · grind [hq.other u hu, h.asleep, h.condAsleep]
  all_goals rw [hs]; grind

/-- A value that is not loaded in the step was there before, and in a timely step stays behind
the counter. -/
theorem step_stale (h : Inv s) (he : Timely s e)
    (hl : ¬ (u = e.1 ∧ s.pc u = .holds ∧ e.2.1 = .condWait)) (hs : (s.pc u).val ≠ some s.seq) :
    ((step s e).2.pc u).val ≠ some (step s e).2.seq := by
  obtain hq | ⟨hh, hc, hs'⟩ | ⟨hi, p, hp, hs'⟩ | ⟨-, hs'⟩ := step_cases h e
  · rw [hq.seq]
    exact fun hv => hs (hq.val u _ hv)
  · have hu : u ≠ e.1 := by grind
    rw [hs']
    simpa [State.go, hu] using hs
  · have hv := he.2 hi u
    grind [State.go]
  · grind [State.go, Pc.val]

/-- While nobody waits for the current value of the counter nobody falls asleep on it. -/
theorem step_waiting (h : Inv s) (e : T × Call × T) (hs : ∀ u, (s.pc u).val ≠ some s.seq) :
    ∀ u ∈ (step s e).2.waiting, u ∈ s.waiting := by
  obtain hq | ⟨-, -, hs'⟩ | ⟨-, p, -, hs'⟩ | ⟨hpc, -⟩ := step_cases h e
  · exact hq.waiting
  · rw [hs']; exact fun _ => id
  · rw [hs']; exact fun _ => id
  · exact absurd (by rw [hpc]; rfl) (hs e.1)

/-! ## Runs -/

/-- While `t` is between the increment and the wake of a signal nobody is about to wait for the
current value, and nobody has fallen asleep on the counter since `s₀`. -/
structure Signalling (s₀ : State T) (t : T) (held : Bool) (s : State T) : Prop where
  inv : Inv s
  signal : s.pc t = .signal held
  stale : ∀ u, (s.pc u).val ≠ some s.seq
  waiting : ∀ u ∈ s.waiting, u ∈ s₀.waiting

lemma Signalling.step (h : Signalling s₀ t held s) (he : Timely s e) (ht : e.1 ≠ t) :
    Signalling s₀ t held (step s e).2 where
  inv := h.inv.step e
  signal := (step_other h.inv ht.symm (by rw [h.signal]; rfl)).trans h.signal
  stale u := step_stale h.inv he (by
    rintro ⟨rfl, hh, hc⟩
    exact he.1 hh hc t held h.signal) (h.stale u)
  waiting u hu := h.waiting u (step_waiting h.inv e h.stale u hu)

lemma Signalling.run (h : Signalling s₀ t held s) (hp : Pthread.step.Along Timely s es)
    (ht : ∀ e ∈ es, e.1 ≠ t) : Signalling s₀ t held (Pthread.step.run s es) := by
  induction es generalizing s with
  | nil => exact h
  | cons e es ih =>
    rw [forall_mem_cons] at ht
    exact ih (h.step hp.1 ht.1) hp.2 ht.2

/-- The thread is before its futex wait, and the value it has loaded is behind the counter. -/
structure Late (w : T) (s : State T) : Prop where
  inv : Inv s
  stale : (s.pc w).val ≠ some s.seq
  waits : (s.pc w).waits
  awake : s.pc w ≠ .condAsleep

lemma Late.step (h : Late w s) (he : Timely s e) :
    Late w (step s e).2 ∨ ((step s e).2.pc w).waits = false := by
  have hstale : ((Pthread.step s e).2.pc w).val ≠ some (Pthread.step s e).2.seq :=
    step_stale h.inv he (by grind [h.waits, Pc.waits]) h.stale
  obtain ⟨inv, stale, waits, awake⟩ := h
  by_cases hw : w = e.1
  · subst hw
    cases hpc : s.pc e.1 with
    | wake val =>
      obtain _ | v := val
      · simp [hpc, Pc.waits] at waits
      · have hgo : (step s e).2.pc e.1 = .condWait v := by
          simp only [step, hpc]
          split <;> simp [State.go, unlocked]
        exact .inl ⟨inv.step e, hstale, by rw [hgo]; rfl, by simp [hgo]⟩
    | condWait v =>
      have hv : s.seq ≠ v := fun hv => stale (by rw [hpc, hv]; rfl)
      exact .inr (by simp [step, hpc, hv, State.go, Pc.waits])
    | condAsleep => exact absurd hpc awake
    | _ => simp [hpc, Pc.waits] at waits
  · have hpc := step_other inv hw (Pc.awake_of_waits waits awake)
    exact .inl ⟨inv.step e, hstale, hpc ▸ waits, hpc ▸ awake⟩

lemma Left.append_left (h : Left s es w) (es' : List (T × Call × T)) : Left s (es ++ es') w := by
  obtain ⟨l, hl, hw⟩ := h
  exact ⟨l, (mem_inits ..).mpr (((mem_inits ..).mp hl).trans (prefix_append ..)), hw⟩

lemma Left.append_right (es : List (T × Call × T)) {es' : List (T × Call × T)}
    (h : Left (step.run s es) es' w) : Left s (es ++ es') w := by
  obtain ⟨l, hl, hw⟩ := h
  refine ⟨es ++ l, (mem_inits ..).mpr ?_, by rwa [Machine.run_append]⟩
  exact (prefix_append_right_inj es).mpr ((mem_inits ..).mp hl)

lemma Late.run (h : Late w s) (hp : Pthread.step.Along Timely s es) :
    Left s es w ∨ Late w (Pthread.step.run s es) := by
  induction es generalizing s with
  | nil => exact .inr h
  | cons e es ih =>
    obtain hl | hleft := h.step hp.1
    · exact (ih hl hp.2).imp_left (Left.append_right [e])
    · exact .inl ⟨[e], by simp, hleft⟩

/-- The increment of a signal begins the phase in which nobody falls asleep on the counter. -/
theorem Signalling.begin (h : Inv s) {p : T} (hcall : s.pc t = .out ∨ s.pc t = .holds)
    (hp : Timely s (t, .signal, p)) :
    ∃ held, Signalling s t held (Pthread.step s (t, .signal, p)).2 := by
  obtain ⟨held, hs₁⟩ : ∃ held, (Pthread.step s (t, .signal, p)).2 =
      { s with seq := u32 (s.seq + 1) }.go t (.signal held) := by
    obtain hpc | hpc := hcall
    · exact ⟨false, by simp [Pthread.step, hpc]⟩
    · exact ⟨true, by simp [Pthread.step, hpc]⟩
  have := hp.2 ⟨hcall, .inl rfl⟩
  refine ⟨held, h.step _, ?_, ?_, ?_⟩ <;> rw [hs₁]
  · simp [State.go]
  · grind [State.go, Pc.val]
  · exact fun _ => id

/-- The wake of a signal reaches a thread that slept when the call began, unless nobody sleeps. -/
theorem Signalling.wake (h : Signalling s₀ t held s) (e : Call × T) :
    (∃ u ∈ s₀.waiting, (Pthread.step s (t, e)).2.pc u = .relock) ∨
      s.waiting = [] := by
  cases hc : chosen s.waiting e.2 with
  | none => exact .inr (chosen_none.mp hc)
  | some u =>
    have hmem := chosen_mem hc
    have hut : u ≠ t := by grind [h.inv.condAsleep, h.signal]
    refine .inl ⟨u, h.waiting u hmem, ?_⟩
    simp [Pthread.step, h.signal, hc, wakeWaiting, State.go, hut]

/-- In every run of any number of threads whose steps are all timely, a signal is heard: after its
wake one of the threads that waited when the call began has left its futex wait, or has yet to
begin it. -/
theorem run_signal_heard (before mid after : List (T × Call × T)) (t : T) (c : Call) (p p' : T)
    (timely : step.Along Timely init
      (before ++ (t, .signal, p) :: (mid ++ (t, c, p') :: after)))
    (call : (step.run init before).pc t = .out ∨ (step.run init before).pc t = .holds)
    (hmid : ∀ e ∈ mid, e.1 ≠ t) (waits : ∃ w, ((step.run init before).pc w).waits) :
    Heard (step.run init before) ((t, .signal, p) :: (mid ++ (t, c, p') :: after)) := by
  obtain ⟨hbefore, hfirst, hrest⟩ := Machine.along_append.mp timely
  obtain ⟨hpmid, hwake, hafter⟩ := Machine.along_append.mp hrest
  have inv : Inv (step.run init before) :=
    Machine.run_invariant (fun s e hs _ => hs.step e) Inv.init hbefore
  obtain ⟨w, hw⟩ := waits
  generalize step.run init before = s at *
  obtain ⟨held, hs₁⟩ := Signalling.begin inv call hfirst
  have hs₂ := hs₁.run hpmid hmid
  obtain ⟨u, hu, hleft⟩ | hnone := hs₂.wake (c, p')
  · have hslept := (inv.condAsleep u).mp hu
    refine ⟨u, by rw [hslept]; rfl, .inl ?_⟩
    refine Left.append_right ((t, .signal, p) :: mid) ⟨[(t, c, p')], by simp, ?_⟩
    exact (congrArg Pc.waits hleft).trans rfl
  · refine ⟨w, hw, ?_⟩
    by_cases hw₂ : ((step.run s ((t, .signal, p) :: mid)).pc w).waits
    · -- nobody sleeps at the wake, so the thread is late for its own futex wait
      have hlate : Late w (step.run s ((t, .signal, p) :: mid)) :=
        ⟨hs₂.inv, hs₂.stale w, hw₂, fun hpc => by
          simpa [hnone] using (hs₂.inv.condAsleep w).mpr hpc⟩
      have hrest : step.Along Timely (step.run s ((t, .signal, p) :: mid)) ((t, c, p') :: after) :=
        ⟨hwake, hafter⟩
      obtain hleft | hlate := hlate.run hrest
      · exact .inl (Left.append_right ((t, .signal, p) :: mid) hleft)
      · exact .inr (by simpa only [← Machine.run_append, cons_append] using hlate.awake)
    · have hleft : Left s ((t, .signal, p) :: mid) w :=
        ⟨_, (mem_inits ..).mpr prefix_rfl, by simpa using hw₂⟩
      exact .inl (hleft.append_left _)

theorem run_signal_heard_three :
    Heard (step.run (init : State (Fin 3)) [(0, .lock, 0), (0, .condWait, 0), (0, .lock, 0),
      (0, .lock, 0)]) [(1, .signal, 0), (2, .lock, 0), (1, .signal, 0)] :=
  run_signal_heard _ [(2, .lock, 0)] [] 1 .signal 0 0 (by decide) (by decide) (by decide)
    ⟨0, by decide⟩

/-- Thread 0 sleeps on the counter when thread 1 calls `pthread_cond_signal`. Before the wake
thread 2 loads the new counter and falls asleep on it, and is the one that is woken. -/
theorem signal_stolen :
    let s := step.run (init : State (Fin 3)) [(0, .lock, 0), (0, .condWait, 0), (0, .lock, 0),
      (0, .lock, 0)]
    let mid := [(2, .lock, 0), (2, .condWait, 0), (2, .lock, 0), (2, .lock, 0)]
    s.pc 1 = .out ∧ (∀ e ∈ mid, e.1 ≠ 1) ∧ (∃ w, (s.pc w).waits) ∧
      ¬ Heard s ((1, .signal, 0) :: (mid ++ [(1, .signal, 2)])) := by
  simp only [Heard, Left]
  decide

end YamKernel.Pthread

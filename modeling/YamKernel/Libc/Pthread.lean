import YamKernel.Lib.Machine
import YamKernel.Lib.Word

/-!
# Mutexes and condition variables of user space

`os/lib/libc/pthread.c`: one mutex and one condition variable used by any number of threads. A
thread takes one atomic operation or one futex call at a time, and the futex is ideal: a wait
compares the word and sleeps in one step, a wake of one thread wakes any one that sleeps on the
word. Which thread goes next, what it calls when it is outside of any call and whom it wakes is
up to the schedule.
-/

namespace YamKernel.Pthread

open Lib List Function

/-- Where a thread is. Inside `pthread_cond_wait` the pieces of `pthread_mutex_unlock` carry the
value of the counter that was loaded. -/
inductive Pc where
  | out
  /-- in `pthread_mutex_lock`, before an exchange; `held` is set if the thread holds the mutex
  already, `woken` if a wake has ended its futex wait -/
  | exchange (held woken : Bool)
  | wait (held : Bool)
  | asleep (held : Bool)
  | holds
  /-- in `pthread_mutex_unlock`, before the store of 0 -/
  | store (val : Option Nat)
  | wake (val : Option Nat)
  /-- in `pthread_cond_wait`, before the mutex is unlocked -/
  | loaded (val : Nat)
  | condWait (val : Nat)
  | condAsleep
  | relock
  /-- after the increment, before the wake -/
  | signal (held : Bool)
  | broadcast (held : Bool)
  deriving DecidableEq

/-- What a thread outside of any call does next. -/
inductive Call where
  | lock | trylock | unlock | condWait | signal | broadcast
  deriving DecidableEq

/-- `sleeping` and `waiting` are the threads asleep on the word of the mutex and on the counter
of the condition variable. -/
structure State (T : Type*) where
  word : Int
  seq : Nat
  sleeping : List T
  waiting : List T
  pc : T → Pc

variable {T : Type*} [DecidableEq T]

def init : State T := ⟨0, 0, [], [], fun _ => .out⟩

def State.go (s : State T) (t : T) (p : Pc) : State T := { s with pc := update s.pc t p }

@[grind =] theorem State.go_pc (s : State T) (t u : T) (p : Pc) :
    (s.go t p).pc u = if u = t then p else s.pc u := update_apply ..

/-- The compare-and-exchange of 0 for 1; `p` is where the thread goes when it fails. -/
def cas (s : State T) (t : T) (p : Pc) : State T :=
  if s.word = 0 then { s with word := 1 }.go t .holds else s.go t p

def unlocked : Option Nat → Pc
  | none => .out
  | some v => .condWait v

def pthreadMutexUnlock (s : State T) (t : T) (val : Option Nat) : State T :=
  { s with word := s.word - 1 }.go t (if s.word ≠ 1 then .store val else unlocked val)

/-- Where a thread returns to when it has called with the mutex held or not. -/
def back (held : Bool) : Pc := if held then .holds else .out

/-- A futex wake of one thread: `pick` if it sleeps there. -/
def chosen (queue : List T) (pick : T) : Option T :=
  if pick ∈ queue then some pick else queue.head?

def wakeSleeping (s : State T) (u : T) : State T :=
  let held := match s.pc u with
    | .asleep held => held
    | _ => false
  { s with sleeping := s.sleeping.erase u }.go u (.exchange held true)

def wakeWaiting (s : State T) (u : T) : State T :=
  { s with waiting := s.waiting.erase u }.go u .relock

/-- Thread `t` takes its next step. -/
def step : Machine (State T) (T × Call × T) Unit := fun s (t, call, pick) => ((),
  match s.pc t, call with
  | .out, .lock => cas s t (.exchange false false)
  | .out, .trylock => cas s t .out
  | .out, .signal => { s with seq := u32 (s.seq + 1) }.go t (.signal false)
  | .out, .broadcast => { s with seq := u32 (s.seq + 1) }.go t (.broadcast false)
  | .out, _ => s
  | .holds, .lock => cas s t (.exchange true false)
  | .holds, .trylock => cas s t .holds
  | .holds, .unlock => pthreadMutexUnlock s t none
  | .holds, .condWait => s.go t (.loaded s.seq)
  | .holds, .signal => { s with seq := u32 (s.seq + 1) }.go t (.signal true)
  | .holds, .broadcast => { s with seq := u32 (s.seq + 1) }.go t (.broadcast true)
  | .exchange held _, _ => { s with word := 2 }.go t (if s.word = 0 then .holds else .wait held)
  | .wait held, _ =>
    if s.word = 2 then { s with sleeping := t :: s.sleeping }.go t (.asleep held)
    else s.go t (.exchange held false)
  | .store val, _ => { s with word := 0 }.go t (.wake val)
  | .wake val, _ => match chosen s.sleeping pick with
    | some u => (wakeSleeping s u).go t (unlocked val)
    | none => s.go t (unlocked val)
  | .loaded val, _ => pthreadMutexUnlock s t (some val)
  | .condWait val, _ =>
    if s.seq = val then { s with waiting := t :: s.waiting }.go t .condAsleep else s.go t .relock
  | .relock, _ => cas s t (.exchange false false)
  | .signal held, _ => match chosen s.waiting pick with
    | some u => (wakeWaiting s u).go t (back held)
    | none => s.go t (back held)
  | .broadcast held, _ =>
    ((s.waiting.take 0x7fffffff).foldl wakeWaiting s).go t (back held)
  | .asleep _, _ | .condAsleep, _ => s)

/-! ## The mutex -/

def Pc.holding : Pc → Bool
  | .holds | .store _ | .loaded _ | .signal true | .broadcast true => true
  | .exchange held _ | .wait held | .asleep held => held
  | _ => false

/-- The thread is about to wake someone, or has been woken and not exchanged the word yet. -/
def Pc.pending : Pc → Bool
  | .store _ | .wake _ | .exchange _ true => true
  | _ => false

def Pc.isAsleep : Pc → Bool
  | .asleep _ => true
  | _ => false

def Pc.awake : Pc → Bool
  | .asleep _ | .condAsleep => false
  | _ => true

/-- Mutual exclusion, and while threads sleep on the word the word says so or somebody is going
to see to them. -/
structure Inv (s : State T) : Prop where
  one : ∀ t u, (s.pc t).holding → (s.pc u).holding → t = u
  locked : ∀ t, (s.pc t).holding → s.word ≠ 0
  word : s.word = 0 ∨ s.word = 1 ∨ s.word = 2
  pending : s.sleeping ≠ [] → s.word = 2 ∨ ∃ t, (s.pc t).pending
  asleep : ∀ t, t ∈ s.sleeping ↔ (s.pc t).isAsleep
  condAsleep : ∀ t, t ∈ s.waiting ↔ s.pc t = .condAsleep
  nodup : s.sleeping.Nodup ∧ s.waiting.Nodup

variable {s : State T} {t u : T}

omit [DecidableEq T] in
lemma Inv.init : Inv (init : State T) where
  one := by simp [Pthread.init, Pc.holding]
  locked := by simp [Pthread.init, Pc.holding]
  word := .inl rfl
  pending := by simp [Pthread.init]
  asleep := by simp [Pthread.init, Pc.isAsleep]
  condAsleep := by simp [Pthread.init]
  nodup := ⟨.nil, .nil⟩

lemma Pc.isAsleep_iff {p : Pc} : p.isAsleep ↔ ∃ held, p = .asleep held := by
  cases p <;> simp [isAsleep]

lemma Pc.awake_iff {p : Pc} : p.awake ↔ p.isAsleep = false ∧ p ≠ .condAsleep := by
  cases p <;> simp [isAsleep, awake]

lemma unlocked_spec (val : Option Nat) : (unlocked val).holding = false ∧ (unlocked val).awake := by
  cases val <;> exact ⟨rfl, rfl⟩

lemma back_spec (held : Bool) : (back held).holding = held ∧ (back held).awake := by
  cases held <;> exact ⟨rfl, rfl⟩

section

variable (h : Inv s)
include h

/-- A thread moves on, and may change the word and the counter, but neither goes to sleep nor
was asleep. It acquires the mutex only from 0 and sets the word to 0 only as its holder, and what
kept the sleepers from being forgotten is passed on. -/
theorem Inv.move {w : Int} {n : Nat} {p q : Pc} (hpc : s.pc t = q)
    (hold : p.holding → w ≠ 0 ∧ (q.holding ∨ s.word = 0))
    (free : w = 0 → s.word = 0 ∨ q.holding) (hw : w = 0 ∨ w = 1 ∨ w = 2)
    (hp : s.sleeping ≠ [] → s.word = 2 ∨ q.pending →
      w = 2 ∨ p.pending ∨ ∃ u ≠ t, (s.pc u).pending)
    (awake : q.awake) (awake' : p.awake) : Inv ({ s with word := w, seq := n }.go t p) := by
  subst hpc
  constructor <;> simp only [State.go]
  · grind [h.one, h.locked]
  · grind [h.one, h.locked]
  · exact hw
  · intro hs
    have hs' : w = 2 ∨ p.pending ∨ ∃ u ≠ t, (s.pc u).pending := by
      obtain h2 | ⟨u, hu⟩ := h.pending hs
      · exact hp hs (.inl h2)
      · by_cases ht : u = t
        · exact hp hs (.inr (ht ▸ hu))
        · exact .inr (.inr ⟨u, ht, hu⟩)
    obtain h2 | hp | ⟨u, ht, hu⟩ := hs'
    · exact .inl h2
    · exact .inr ⟨t, by simpa using hp⟩
    · exact .inr ⟨u, by simpa [ht] using hu⟩
  · grind [h.asleep, Pc.awake_iff]
  · grind [h.condAsleep, Pc.awake_iff]
  · exact h.nodup

lemma Inv.keep (n : Nat) {p q : Pc} (hpc : s.pc t = q) (hold : p.holding = q.holding)
    (pending : q.pending → p.pending) (awake : q.awake) (awake' : p.awake) :
    Inv ({ s with seq := n }.go t p) := by
  have locked : q.holding → s.word ≠ 0 := hpc ▸ h.locked t
  exact h.move hpc (fun hh => ⟨locked (hold ▸ hh), .inl (hold ▸ hh)⟩) .inl h.word
    (fun _ hw => hw.imp_right fun hq => .inl (pending hq)) awake awake'

lemma Inv.cas {p q : Pc} (hpc : s.pc t = q) (hp : p.holding = q.holding)
    (pending : q.pending = false) (awake : q.awake) (awake' : p.awake) : Inv (cas s t p) := by
  unfold Pthread.cas
  split_ifs with h0
  · exact h.move hpc (by simp [h0]) (by simp) (by simp) (by simp [h0, pending]) awake rfl
  · exact h.keep s.seq hpc hp (by simp [pending]) awake awake'

/-- The holder unlocks: the word is 1 or 2, and only in the second case are there sleepers. -/
theorem Inv.unlock (val : Option Nat) {q : Pc} (hpc : s.pc t = q) (hold : q.holding)
    (awake : q.awake) (pending : q.pending = false) : Inv (pthreadMutexUnlock s t val) := by
  have := h.locked t (hpc ▸ hold)
  have := h.word
  obtain ⟨hu, ha⟩ := unlocked_spec val
  unfold pthreadMutexUnlock
  split_ifs with h1
  · exact h.move hpc (fun _ => ⟨by omega, .inl hold⟩) (fun _ => .inr hold) (by omega)
      (fun _ _ => .inr (.inl rfl)) awake rfl
  · have h1 : s.word = 1 := not_not.mp h1
    exact h.move hpc (by simp [hu]) (fun _ => .inr hold) (by omega) (by simp [h1, pending]) awake ha

lemma Inv.sleeps {p : Pc} {q r : List T} (hold : p.holding = (s.pc t).holding)
    (pending : q ≠ [] → s.word = 2 ∨ ∃ u, (update s.pc t p u).pending)
    (asleep : ∀ u, u ∈ q ↔ (update s.pc t p u).isAsleep)
    (condAsleep : ∀ u, u ∈ r ↔ update s.pc t p u = .condAsleep) (nodup : q.Nodup ∧ r.Nodup) :
    Inv ({ s with sleeping := q, waiting := r }.go t p) := by
  have same : ∀ u, (update s.pc t p u).holding = (s.pc u).holding := by grind
  refine ⟨?_, ?_, h.word, pending, asleep, condAsleep, nodup⟩ <;> simp only [State.go, same]
  · exact h.one
  · exact h.locked

lemma Inv.sleep {held : Bool} (hpc : s.pc t = .wait held) (hw : s.word = 2) :
    Inv ({ s with sleeping := t :: s.sleeping }.go t (.asleep held)) := by
  apply h.sleeps
  · rw [hpc]; rfl
  · exact fun _ => .inl hw
  · grind [h.asleep, Pc.isAsleep]
  · grind [h.condAsleep]
  · grind [h.nodup, h.asleep, Pc.isAsleep]

lemma Inv.pending_update {p : Pc} (hp : (s.pc t).pending = false) (hs : s.sleeping ≠ []) :
    s.word = 2 ∨ ∃ u, (update s.pc t p u).pending := by
  refine (h.pending hs).imp_right fun ⟨u, hu⟩ => ⟨u, ?_⟩
  grind

lemma Inv.condSleep {v : Nat} (hpc : s.pc t = .condWait v) :
    Inv ({ s with waiting := t :: s.waiting }.go t .condAsleep) := by
  apply h.sleeps
  · rw [hpc]; rfl
  · exact h.pending_update (by rw [hpc]; rfl)
  · grind [h.asleep, Pc.isAsleep]
  · grind [h.condAsleep]
  · grind [h.nodup, h.condAsleep]

lemma Inv.wakeSleeping (hu : u ∈ s.sleeping) : Inv (wakeSleeping s u) := by
  obtain ⟨held, hpc⟩ := Pc.isAsleep_iff.mp ((h.asleep u).mp hu)
  apply h.sleeps
  · rw [hpc]; rfl
  · exact fun _ => .inr ⟨u, by simp [Pc.pending]⟩
  · grind [h.asleep, h.nodup, Pc.isAsleep]
  · grind [h.condAsleep]
  · exact ⟨h.nodup.1.erase u, h.nodup.2⟩

lemma Inv.wakeWaiting (hu : u ∈ s.waiting) : Inv (wakeWaiting s u) := by
  have hpc := (h.condAsleep u).mp hu
  apply h.sleeps
  · rw [hpc]; rfl
  · exact h.pending_update (by rw [hpc]; rfl)
  · grind [h.asleep, Pc.isAsleep]
  · grind [h.condAsleep, h.nodup]
  · exact ⟨h.nodup.1, h.nodup.2.erase u⟩

end

lemma chosen_mem {q : List T} {pick u : T} (h : chosen q pick = some u) : u ∈ q := by
  unfold chosen at h
  split_ifs at h with hp
  · cases h; exact hp
  · exact mem_of_mem_head? h

lemma chosen_none {q : List T} {pick : T} : chosen q pick = none ↔ q = [] := by
  unfold chosen
  split_ifs with hp
  · simp [ne_nil_of_mem hp]
  · exact head?_eq_none_iff

lemma Inv.wakeAll {us : List T} (h : Inv s) (hn : us.Nodup) (hu : ∀ u ∈ us, u ∈ s.waiting) :
    Inv (us.foldl Pthread.wakeWaiting s) := by
  induction us generalizing s with
  | nil => exact h
  | cons u us ih =>
    have hw := hu u mem_cons_self
    apply ih (h.wakeWaiting hw) hn.of_cons
    grind [Pthread.wakeWaiting, State.go]

/-- A thread done with a wake of the mutex goes on: nobody is left asleep, or the one it has
woken takes over. -/
theorem Inv.wake (h : Inv s) {val : Option Nat} (hpc : s.pc t = .wake val) (pick : T) :
    Inv (match chosen s.sleeping pick with
      | some u => (Pthread.wakeSleeping s u).go t (unlocked val)
      | none => s.go t (unlocked val)) := by
  obtain ⟨hu, ha⟩ := unlocked_spec val
  cases hc : chosen s.sleeping pick with
  | none =>
    have hs := chosen_none.mp hc
    exact h.move hpc (by simp [hu]) .inl h.word (absurd hs) rfl ha
  | some u =>
    have hmem := chosen_mem hc
    have hut : u ≠ t := by grind [h.asleep, Pc.isAsleep]
    have hpc' : (Pthread.wakeSleeping s u).pc t = .wake val := by
      simpa [Pthread.wakeSleeping, State.go, hut.symm] using hpc
    refine (h.wakeSleeping hmem).move hpc' (by simp [hu]) .inl h.word (fun _ _ => ?_) rfl ha
    exact .inr (.inr ⟨u, hut, by simp [Pthread.wakeSleeping, State.go, Pc.pending]⟩)

lemma wakeAll_pc (us : List T) (ht : t ∉ us) : (us.foldl Pthread.wakeWaiting s).pc t = s.pc t := by
  induction us generalizing s with
  | nil => rfl
  | cons u us ih =>
    rw [foldl_cons, ih (not_mem_of_not_mem_cons ht)]
    simp [wakeWaiting, State.go, ne_of_not_mem_cons ht]

lemma Inv.back (h : Inv s) {held : Bool} (hpc : s.pc t = .signal held ∨ s.pc t = .broadcast held) :
    Inv (s.go t (back held)) := by
  obtain ⟨hb, ha⟩ := back_spec held
  obtain hpc | hpc := hpc
  all_goals exact h.keep s.seq hpc (by cases held <;> rfl) (by simp [Pc.pending]) rfl ha

lemma Inv.step (h : Inv s) (e : T × Call × T) : Inv (step s e).2 := by
  obtain ⟨t, call, pick⟩ := e
  cases hpc : s.pc t with
  | out =>
    cases call <;> simp only [Pthread.step, hpc]
    case lock | trylock => exact h.cas hpc rfl rfl rfl rfl
    case signal | broadcast => exact h.keep _ hpc rfl nofun rfl rfl
    all_goals exact h
  | holds =>
    cases call <;> simp only [Pthread.step, hpc]
    case lock | trylock => exact h.cas hpc rfl rfl rfl rfl
    case unlock => exact h.unlock none hpc rfl rfl rfl
    all_goals exact h.keep _ hpc rfl nofun rfl rfl
  | exchange held woken =>
    simp only [Pthread.step, hpc]
    split_ifs with h0
    · exact h.move hpc (by simp [h0]) (by simp) (by simp) (by simp) rfl rfl
    · exact h.move hpc (fun hh => ⟨by simp, .inl hh⟩) (by simp) (by simp) (by simp) rfl rfl
  | wait held =>
    simp only [Pthread.step, hpc]
    split_ifs with h2
    · exact h.sleep hpc h2
    · exact h.keep s.seq hpc rfl nofun rfl rfl
  | store val =>
    simp only [Pthread.step, hpc]
    exact h.move hpc nofun (fun _ => .inr rfl) (by simp) (fun _ _ => .inr (.inl rfl)) rfl rfl
  | wake val =>
    simp only [Pthread.step, hpc]
    exact h.wake hpc pick
  | loaded val =>
    simp only [Pthread.step, hpc]
    exact h.unlock (some val) hpc rfl rfl rfl
  | condWait val =>
    simp only [Pthread.step, hpc]
    split_ifs
    · exact h.condSleep hpc
    · exact h.keep s.seq hpc rfl nofun rfl rfl
  | relock =>
    simp only [Pthread.step, hpc]
    exact h.cas hpc rfl rfl rfl rfl
  | signal held =>
    simp only [Pthread.step, hpc]
    split
    case h_1 u hc =>
      have hmem := chosen_mem hc
      have hut : t ≠ u := by grind [h.condAsleep]
      refine (h.wakeWaiting hmem).back (.inl ?_)
      simpa [Pthread.wakeWaiting, State.go, hut] using hpc
    case h_2 => exact h.back (.inl hpc)
  | broadcast held =>
    simp only [Pthread.step, hpc]
    have hsub : ∀ u ∈ s.waiting.take 0x7fffffff, u ∈ s.waiting := fun u => mem_of_mem_take
    have ht : t ∉ s.waiting.take 0x7fffffff := fun hm => by grind [h.condAsleep]
    refine (h.wakeAll (h.nodup.2.sublist (take_sublist ..)) hsub).back (.inr ?_)
    exact (wakeAll_pc _ ht).trans hpc
  | asleep held => simpa only [Pthread.step, hpc] using h
  | condAsleep => simpa only [Pthread.step, hpc] using h

/-- In every run of any number of threads at most one is between acquiring and releasing the
mutex, and the word is never 0 with a thread asleep on it unless some thread is about to wake
another or has been woken and not exchanged the word yet. -/
theorem run_mutex (es : List (T × Call × T)) :
    (∀ t u, ((step.run init es).pc t).holding → ((step.run init es).pc u).holding → t = u) ∧
    ¬ ((step.run init es).word = 0 ∧ (∃ t, ((step.run init es).pc t).isAsleep) ∧
      ∀ t, ((step.run init es).pc t).pending = false) := by
  have h : Inv (step.run (init : State T) es) := Machine.run_invariant
    (fun s e hs _ => hs.step e) Inv.init (Machine.along_of_forall (fun _ _ => trivial) _ _)
  refine ⟨h.one, ?_⟩
  rintro ⟨h0, ⟨t, ht⟩, hp⟩
  obtain h2 | ⟨u, hu⟩ := h.pending (ne_nil_of_mem ((h.asleep t).mpr ht))
  · simp [h2] at h0
  · simp [hp] at hu

end YamKernel.Pthread

import Mathlib.Algebra.Group.Nat.Defs
import Mathlib.Tactic.Common
import YamKernel.Lib.Machine

/-!
# The readers-writer lock

`sched/wait.c`: wait queues, and the lock with one of them for readers and one for writers. With
cooperative tasks one round of a lock call's loop is one step: the task takes the lock, or falls
asleep and tries again once it is woken. The number of readers is an `i32`; as long as that does
not overflow, the lock excludes whom it should and forgets nobody.
-/

namespace YamKernel.Sched

open Lib List

/-- The tasks asleep, the last one first, and those that were woken and have not run since. -/
structure WaitQueue (T : Type*) where
  asleep : List T
  woken : List T

variable {T : Type*} [DecidableEq T]

namespace WaitQueue

variable (q : WaitQueue T) (t : T)

def wqSleep : WaitQueue T := { q with asleep := t :: q.asleep }

def wqWakeOne : WaitQueue T :=
  match q.asleep with
  | [] => q
  | t :: rest => ⟨rest, t :: q.woken⟩

def wqWakeAll : WaitQueue T := ⟨[], q.asleep ++ q.woken⟩

/-- Task `t` runs. -/
def resume : WaitQueue T := { q with woken := q.woken.erase t }

/-- Nobody sleeps, or somebody was woken and has yet to run. -/
def Served : Prop := q.asleep = [] ∨ q.woken ≠ []

omit [DecidableEq T] in
lemma wqWakeOne_served : q.wqWakeOne.Served := by
  cases h : q.asleep with
  | nil => simp [wqWakeOne, Served, h]
  | cons => simp [wqWakeOne, Served, h]

end WaitQueue

/-- `rwlock_t`, and who holds it. -/
structure RwLock (T : Type*) where
  readers : Int
  writeLocked : Bool
  readWaiters : WaitQueue T
  writeWaiters : WaitQueue T
  readHolders : List T
  writeHolders : List T

def i32 (x : Int) : Int := x.bmod (2 ^ 32)

def rwlockInit : RwLock T := ⟨0, false, ⟨[], []⟩, ⟨[], []⟩, [], []⟩

def rwlockReadLock (l : RwLock T) (t : T) : RwLock T :=
  let l := { l with readWaiters := l.readWaiters.resume t }
  if ¬ l.writeLocked then
    { l with readers := i32 (l.readers + 1), readHolders := t :: l.readHolders }
  else { l with readWaiters := l.readWaiters.wqSleep t }

def rwlockReadUnlock (l : RwLock T) (t : T) : RwLock T :=
  let l := { l with readers := i32 (l.readers - 1), readHolders := l.readHolders.erase t }
  if l.readers = 0 then { l with writeWaiters := l.writeWaiters.wqWakeOne } else l

def rwlockWriteLock (l : RwLock T) (t : T) : RwLock T :=
  let l := { l with writeWaiters := l.writeWaiters.resume t }
  if ¬ l.writeLocked ∧ l.readers = 0 then
    { l with writeLocked := true, writeHolders := t :: l.writeHolders }
  else { l with writeWaiters := l.writeWaiters.wqSleep t }

def rwlockWriteUnlock (l : RwLock T) (t : T) : RwLock T :=
  { l with
    writeLocked := false
    writeHolders := l.writeHolders.erase t
    readWaiters := l.readWaiters.wqWakeAll
    writeWaiters := l.writeWaiters.wqWakeOne }

inductive RwCall where
  | readLock | readUnlock | writeLock | writeUnlock

def rwStep : Machine (RwLock T) (RwCall × T) Unit := fun l (call, t) => ((),
  match call with
  | .readLock => rwlockReadLock l t
  | .readUnlock => rwlockReadUnlock l t
  | .writeLock => rwlockWriteLock l t
  | .writeUnlock => rwlockWriteUnlock l t)

/-- Only holders unlock, and one more reader does not overflow the number of readers. -/
def RwLock.Proper (l : RwLock T) : RwCall × T → Prop
  | (.readLock, _) => l.readHolders.length + 1 < 2 ^ 31
  | (.readUnlock, t) => t ∈ l.readHolders
  | (.writeLock, _) => True
  | (.writeUnlock, t) => t ∈ l.writeHolders

structure RwLaw (l : RwLock T) : Prop where
  readers : l.readers = l.readHolders.length
  exclusive : l.writeHolders ≠ [] → l.readHolders = [] ∧ l.writeHolders.length = 1
  free : l.readHolders = [] → l.writeHolders = [] →
    l.readWaiters.asleep = [] ∧ l.writeWaiters.asleep = [] ∨
      l.readWaiters.woken ≠ [] ∨ l.writeWaiters.woken ≠ []

/-- Readers sleep only while the lock is written under; whoever frees it wakes a writer, and
whoever tries to take it finds it held or holds it. -/
structure RwLock.Inv (l : RwLock T) : Prop where
  readers : l.readers = l.readHolders.length
  small : l.readHolders.length < 2 ^ 31
  writers : l.writeHolders.length = if l.writeLocked then 1 else 0
  apart : l.writeLocked → l.readHolders = []
  reading : l.writeLocked ∨ l.readWaiters.asleep = []
  writing : l.writeLocked ∨ l.readHolders ≠ [] ∨ l.writeWaiters.Served

lemma i32_of_lt {n : Nat} (h : n < 2 ^ 31) : i32 n = n :=
  Int.bmod_eq_of_le (by omega) (by omega)

lemma RwLock.Inv.step {l : RwLock T} {e : RwCall × T} (h : l.Inv) (hp : l.Proper e) :
    (rwStep l e).2.Inv := by
  obtain ⟨readers, small, writers, apart, reading, writing⟩ := h
  obtain ⟨call, t⟩ := e
  have hserved := l.writeWaiters.wqWakeOne_served
  cases call with
  | readLock =>
    have hadd : i32 (l.readers + 1) = (l.readHolders.length + 1 : Nat) := by
      rw [readers]
      exact i32_of_lt hp
    simp only [rwStep, rwlockReadLock]
    split_ifs with hw
    · exact ⟨readers, small, writers, apart, .inl hw, writing⟩
    · exact ⟨hadd, hp, writers, fun h => absurd h hw, reading, .inr (.inl (by simp))⟩
  | readUnlock =>
    have hlen := length_erase_of_mem hp
    have := length_pos_of_mem hp
    have hlt : (l.readHolders.erase t).length < 2 ^ 31 := by omega
    have hsub : i32 (l.readers - 1) = (l.readHolders.erase t).length := by
      rw [← i32_of_lt hlt]
      congr 1
      omega
    have hw : ¬ l.writeLocked := fun h => ne_nil_of_mem hp (apart h)
    simp only [rwStep, rwlockReadUnlock]
    split_ifs
    · exact ⟨hsub, hlt, writers, fun h => absurd h hw, reading, .inr (.inr hserved)⟩
    · exact ⟨hsub, hlt, writers, fun h => absurd h hw, reading, .inr (.inl (by grind))⟩
  | writeLock =>
    have hfree : l.readers = 0 ↔ l.readHolders = [] := by simp [readers]
    simp only [rwStep, rwlockWriteLock]
    split_ifs with hw
    · refine ⟨readers, small, ?_, fun _ => hfree.mp hw.2, .inl rfl, .inl rfl⟩
      simpa [hw.1] using writers
    · exact ⟨readers, small, writers, apart, reading, by grind⟩
  | writeUnlock =>
    have hlen := length_erase_of_mem hp
    have hw : (l.writeHolders.erase t).length = 0 := by grind
    exact ⟨readers, small, hw, nofun, .inr rfl, .inr (.inr hserved)⟩

/-- In every run of any number of tasks where only holders unlock and the number of readers does
not overflow, the state reached is as it should be. -/
theorem run_rwlock (es : List (RwCall × T)) (h : rwStep.Along RwLock.Proper rwlockInit es) :
    RwLaw (rwStep.run rwlockInit es) := by
  have hinit : (rwlockInit : RwLock T).Inv :=
    ⟨rfl, Nat.two_pow_pos 31, rfl, nofun, .inr rfl, .inr (.inr (.inl rfl))⟩
  obtain ⟨readers, -, writers, apart, reading, writing⟩ :=
    Machine.run_invariant (fun _ _ hl he => hl.step he) hinit h
  exact ⟨readers, by grind, by grind [WaitQueue.Served]⟩

/-- A writer waits for a reader, and another reader for the writer. -/
theorem run_rwlock_three : RwLaw (rwStep.run (rwlockInit : RwLock Nat) [(.readLock, 0),
    (.writeLock, 1), (.readUnlock, 0), (.writeLock, 1), (.readLock, 2), (.writeUnlock, 1)]) :=
  have hone : 1 < 2 ^ 31 := by decide
  run_rwlock _ ⟨hone, trivial, .head _, trivial, hone, .head _, trivial⟩

lemma run_readLocks (n : Nat) : let l := rwStep.run rwlockInit ((range n).map (RwCall.readLock, ·))
    l.readers = i32 n ∧ l.readHolders.length = n ∧ ¬ l.writeLocked := by
  induction n with
  | zero => simp [Machine.run, rwlockInit, i32]
  | succ n ih =>
    obtain ⟨hr, hh, hw⟩ := ih
    rw [range_succ, map_append, Machine.run_append]
    simp [Machine.run, rwStep, rwlockReadLock, hw, hr, hh, i32]

/-- That many readers make the number of readers negative. -/
theorem readers_overflow :
    ¬ RwLaw (rwStep.run rwlockInit ((range (2 ^ 31)).map (RwCall.readLock, ·))) := by
  intro h
  obtain ⟨hr, hh, -⟩ := run_readLocks (2 ^ 31)
  have hcount := h.readers
  rw [hr, hh] at hcount
  simp [i32, Int.bmod] at hcount

end YamKernel.Sched

import YamKernel.Lib.Memory
import YamKernel.Lib.Ring
import YamKernel.Lib.Word
import YamKernel.Sched.RwLock

/-!
# Pipes

`ipc/pipe.c`: a ring of bytes between the tasks that write and the tasks that read. A call
that finds nothing to do sleeps and tries again, so a call is a sequence of attempts, and
between two attempts anything may happen. A run is a list of attempts and closes, by any
tasks in any order. `stream_run` says that the bytes read are the bytes written, in order, and
`run_unstranded` in which runs nobody sleeps for what is there.
-/

namespace YamKernel.Ipc

open Lib List Option Sched WaitQueue

def pipeBufSize : Nat := 4096

/-- `pipe_t` without the lock and the wait queues. -/
structure Pipe where
  buf : Mem
  readPos : Nat
  writePos : Nat
  count : Nat
  readersOpen : Nat
  writersOpen : Nat

def sysPipe : Pipe := ⟨fun _ => 0, 0, 0, 0, 1, 1⟩

/-- One attempt of `pipe_read`: `none` if the caller goes to sleep. -/
def pipeRead (p : Pipe) (count : Nat) : Option (List UInt8) × Pipe :=
  if p.count = 0 then
    if p.writersOpen = 0 then (some [], p) else (none, p)
  else
    let toRead := if count < p.count then count else p.count
    let (dst, readPos) := ringGet pipeBufSize p.buf toRead p.readPos
    (some dst, { p with readPos, count := p.count - toRead })

/-- One attempt of `pipe_write`: `none` if the caller goes to sleep, otherwise the number of
bytes accepted or -1. -/
def pipeWrite (p : Pipe) (src : List UInt8) : Option (Option Nat) × Pipe :=
  if p.count ≥ pipeBufSize then
    if p.readersOpen = 0 then (some none, p) else (none, p)
  else
    let space := pipeBufSize - p.count
    let toWrite := if src.length < space then src.length else space
    let (buf, writePos) := ringPut pipeBufSize (src.take toWrite) p.buf p.writePos
    (some (some toWrite), { p with buf, writePos, count := p.count + toWrite })

/-- `none` once the pipe is freed. -/
def pipeCloseRead (p : Pipe) : Option Pipe :=
  let p := { p with readersOpen := sub32 p.readersOpen 1 }
  if p.readersOpen = 0 ∧ p.writersOpen = 0 then none else some p

def pipeCloseWrite (p : Pipe) : Option Pipe :=
  let p := { p with writersOpen := sub32 p.writersOpen 1 }
  if p.readersOpen = 0 ∧ p.writersOpen = 0 then none else some p

/-! ## Runs -/

inductive Attempt where
  | read (task count : Nat)
  | write (task : Nat) (src : List UInt8)
  | closeRead
  | closeWrite

/-- The pipe, the bytes that writes accepted and the bytes that reads returned, in the
order of the copies. -/
structure Stream where
  pipe : Option Pipe
  accepted : List UInt8
  returned : List UInt8

def Stream.init : Stream := ⟨some sysPipe, [], []⟩

inductive Result where
  | asleep
  | read (dst : List UInt8)
  | wrote (n : Option Nat)
  | closed

def Stream.step : Machine Stream Attempt Result := fun s a =>
  match s.pipe with
  | none => (.asleep, s)
  | some p =>
    match a with
    | .read _ count =>
      match pipeRead p count with
      | (none, p) => (.asleep, { s with pipe := some p })
      | (some dst, p) => (.read dst, { s with pipe := some p, returned := s.returned ++ dst })
    | .write _ src =>
      match pipeWrite p src with
      | (none, p) => (.asleep, { s with pipe := some p })
      | (some n, p) => (.wrote n, { s with
          pipe := some p, accepted := s.accepted ++ src.take (n.getD 0) })
    | .closeRead => (.closed, { s with pipe := pipeCloseRead p })
    | .closeWrite => (.closed, { s with pipe := pipeCloseWrite p })

/-- The ring holds the bytes `xs`. -/
structure Pipe.Holds (p : Pipe) (xs : List UInt8) : Prop where
  count : p.count = xs.length
  count_le : p.count ≤ pipeBufSize
  readPos : p.readPos < pipeBufSize
  writePos : p.writePos = (p.readPos + xs.length) % pipeBufSize
  ring : RingHolds pipeBufSize p.buf p.readPos xs

/-- What was accepted and not returned yet is in the ring. -/
def Stream.Sound (s : Stream) : Prop :=
  ∃ rest, s.accepted = s.returned ++ rest ∧ ∀ p, s.pipe = some p → p.Holds rest

/-- A read of at least one byte returns nothing only from an empty pipe without writers. -/
def EofOnly (s : Stream) (a : Attempt) : Prop :=
  ∀ task count, a = .read task count → count ≠ 0 → (Stream.step s a).1 = .read [] →
    ∃ p, s.pipe = some p ∧ p.count = 0 ∧ p.writersOpen = 0

section Step

variable {p : Pipe} {xs : List UInt8} {s : Stream}

lemma pipeRead_empty (h : p.count = 0) (count : Nat) :
    pipeRead p count = (if p.writersOpen = 0 then some [] else none, p) := by
  rw [pipeRead]
  split_ifs <;> rfl

lemma pipeWrite_full (h : p.count ≥ pipeBufSize) (src : List UInt8) :
    pipeWrite p src = (if p.readersOpen = 0 then some none else none, p) := by
  rw [pipeWrite]
  split_ifs <;> rfl

lemma pipeRead_spec (h : p.Holds xs) (count : Nat) :
    pipeRead p count = (if p.writersOpen = 0 then some [] else none, p) ∧ xs = [] ∨
    ∃ dst rest p', xs = dst ++ rest ∧ (count ≠ 0 → dst ≠ []) ∧
      pipeRead p count = (some dst, p') ∧ p'.Holds rest := by
  by_cases hempty : p.count = 0
  · exact .inl ⟨pipeRead_empty hempty count, length_eq_zero_iff.mp (by rw [← h.count, hempty])⟩
  rw [pipeRead, if_neg hempty]
  set n := if count < p.count then count else p.count with hn
  have hle : n ≤ xs.length := by rw [← h.count, hn]; split_ifs <;> omega
  have hxs : xs.take n ++ xs.drop n = xs := take_append_drop n xs
  have hlen : (xs.take n).length = n := length_take_of_le hle
  have hring : RingHolds pipeBufSize p.buf p.readPos (xs.take n ++ xs.drop n) := hxs.symm ▸ h.ring
  have hget := ringGet_eq h.readPos hring
  rw [hlen] at hget
  refine .inr ⟨xs.take n, xs.drop n,
    { p with readPos := (p.readPos + n) % pipeBufSize, count := p.count - n }, hxs.symm,
    fun hc hnil => ?_, by dsimp only; rw [hget], ?_⟩
  · rw [hnil, length_nil] at hlen
    split_ifs at hn <;> omega
  · refine ⟨?_, ?_, Nat.mod_lt _ (by decide), ?_, ?_⟩
    · rw [length_drop, ← h.count]
    · exact (Nat.sub_le _ _).trans h.count_le
    · rw [h.writePos, length_drop, Nat.mod_add_mod]
      congr 1
      omega
    · have hdrop := hring.drop
      rwa [hlen] at hdrop

lemma pipeWrite_spec (h : p.Holds xs) (src : List UInt8) :
    pipeWrite p src = (if p.readersOpen = 0 then some none else none, p) ∨
    ∃ n p', pipeWrite p src = (some (some n), p') ∧ p'.Holds (xs ++ src.take n) := by
  by_cases hfull : p.count ≥ pipeBufSize
  · exact .inl (pipeWrite_full hfull src)
  rw [pipeWrite, if_neg hfull]
  set n := if src.length < pipeBufSize - p.count then src.length else pipeBufSize - p.count with hn
  have hle : n ≤ src.length ∧ p.count + n ≤ pipeBufSize := by
    rw [hn]
    split_ifs <;> omega
  have hlen : (src.take n).length = n := length_take_of_le hle.1
  have hroom : xs.length + (src.take n).length ≤ pipeBufSize := by
    rw [hlen, ← h.count]
    exact hle.2
  have hput := ringPut_spec h.ring hroom
  rw [← h.writePos] at hput
  have hcount : p.count + n = (xs ++ src.take n).length := by
    rw [length_append, hlen, h.count]
  exact .inr ⟨n, _, rfl, hcount, hle.2, h.readPos, hput.2, hput.1⟩

lemma Holds.congr (h : p.Holds xs) (r w : Nat) :
    ({ p with readersOpen := r, writersOpen := w } : Pipe).Holds xs :=
  ⟨h.count, h.count_le, h.readPos, h.writePos, h.ring⟩

lemma Stream.Sound.step (h : s.Sound) (a : Attempt) : (Stream.step s a).2.Sound ∧ EofOnly s a := by
  obtain ⟨rest, hacc, hpipe⟩ := h
  cases hp : s.pipe with
  | none =>
    simp only [EofOnly, Stream.step, hp]
    exact ⟨⟨rest, hacc, hpipe⟩, nofun⟩
  | some p =>
    have hold := hpipe p hp
    cases a with
    | read task count =>
      simp only [EofOnly, Stream.step, hp]
      rcases pipeRead_spec hold count with ⟨hread, rfl⟩ | ⟨dst, rest', p', rfl, hne, hread, hold'⟩
      · -- The pipe is empty: end of file, or the caller sleeps.
        rw [hread]
        split_ifs with hw
        · exact ⟨⟨[], by simpa using hacc, fun q hq => some.inj hq ▸ hold⟩,
            fun _ _ _ _ _ => ⟨p, rfl, hold.count, hw⟩⟩
        · exact ⟨⟨[], hacc, fun q hq => some.inj hq ▸ hold⟩, nofun⟩
      · rw [hread]
        refine ⟨⟨rest', ?_, fun q hq => some.inj hq ▸ hold'⟩, fun t c ha hc hr => ?_⟩
        · rw [append_assoc]
          exact hacc
        · obtain ⟨-, rfl⟩ := Attempt.read.inj ha
          exact absurd (Result.read.inj hr) (hne hc)
    | write task src =>
      refine ⟨?_, nofun⟩
      simp only [Stream.step, hp]
      rcases pipeWrite_spec hold src with hwrite | ⟨n, p', hwrite, hold'⟩
      · rw [hwrite]
        split_ifs
        · exact ⟨rest, by simpa using hacc, fun q hq => some.inj hq ▸ hold⟩
        · exact ⟨rest, hacc, fun q hq => some.inj hq ▸ hold⟩
      · rw [hwrite]
        refine ⟨rest ++ src.take n, ?_, fun q hq => some.inj hq ▸ hold'⟩
        rw [← append_assoc, ← hacc]
        rfl
    | closeRead | closeWrite =>
      refine ⟨⟨rest, ?_, fun q hq => ?_⟩, nofun⟩
      · simpa only [Stream.step, hp] using hacc
      · simp only [Stream.step, hp, pipeCloseRead, pipeCloseWrite] at hq
        split_ifs at hq
        exact some.inj hq ▸ Holds.congr hold _ _

lemma init_sound : Stream.init.Sound := by
  refine ⟨[], rfl, fun p hp => ?_⟩
  obtain rfl := some.inj hp
  exact ⟨rfl, by decide, by decide, rfl, fun i hi => absurd hi (by simp)⟩

end Step

/-- The bytes returned are a prefix of the bytes accepted, the ring holds exactly the rest,
and a read reports the end only when there is nothing to come. -/
theorem stream_run (as : List Attempt) :
    (∃ rest, (Stream.step.run Stream.init as).accepted =
        (Stream.step.run Stream.init as).returned ++ rest ∧
      ∀ p, (Stream.step.run Stream.init as).pipe = some p → p.count ≤ pipeBufSize ∧
        p.count = rest.length ∧
        ∀ i (h : i < rest.length), p.buf ((p.readPos + i) % pipeBufSize) = rest[i]) ∧
      Stream.step.Along EofOnly Stream.init as := by
  have hstep : ∀ s a, s.Sound → True → (Stream.step s a).2.Sound ∧ EofOnly s a :=
    fun s a h _ => h.step a
  obtain ⟨⟨rest, hacc, hpipe⟩, heof⟩ := Machine.run_along hstep init_sound
    (Machine.along_of_forall (fun _ _ => trivial) Stream.init as)
  refine ⟨⟨rest, hacc, fun p hp => ?_⟩, heof⟩
  have hold := hpipe p hp
  exact ⟨hold.count_le, hold.count, hold.ring⟩

/-! ## Wait queues

Every transfer wakes one task of the other side, whatever was transferred, and none of its own. -/

/-- The pipe with the queues of its readers and its writers. -/
structure Queues where
  pipe : Option Pipe
  readers : WaitQueue Nat
  writers : WaitQueue Nat

namespace Queues

def init : Queues := ⟨some sysPipe, ⟨[], []⟩, ⟨[], []⟩⟩

def step : Machine Queues Attempt Unit := fun s a => ((), match s.pipe, a with
  | none, _ => s
  | some p, .read t count =>
    let s := { s with readers := s.readers.resume t }
    match pipeRead p count with
    | (none, _) => { s with readers := s.readers.wqSleep t }
    | (some _, p') =>
      -- The end of the file wakes nobody.
      if p.count = 0 then s else { s with pipe := some p', writers := s.writers.wqWakeOne }
  | some p, .write t src =>
    let s := { s with writers := s.writers.resume t }
    match pipeWrite p src with
    | (none, _) => { s with writers := s.writers.wqSleep t }
    | (some none, _) => s
    | (some (some _), p') => { s with pipe := some p', readers := s.readers.wqWakeOne }
  | some p, .closeRead => { s with pipe := pipeCloseRead p, writers := s.writers.wqWakeAll }
  | some p, .closeWrite => { s with pipe := pipeCloseWrite p, readers := s.readers.wqWakeAll })

/-- Nobody sleeps for what is there, unless somebody woken has yet to run. -/
def Unstranded (s : Queues) : Prop :=
  ∀ p, s.pipe = some p →
    (0 < p.count → s.readers.Served) ∧ (p.count < pipeBufSize → s.writers.Served)

/-- A read takes all that is there and a write fills the pipe, or the other tasks of the side do
not need what is left. -/
def Thorough (s : Queues) : Attempt → Prop
  | .read t count => ∀ p, s.pipe = some p → p.count ≤ count ∨ (s.readers.resume t).Served
  | .write t src => ∀ p, s.pipe = some p →
    pipeBufSize ≤ p.count + src.length ∨ (s.writers.resume t).Served
  | _ => True

variable {s : Queues} {p : Pipe} {readers writers : WaitQueue Nat} {a : Attempt}

lemma unstranded_some : Unstranded ⟨some p, readers, writers⟩ ↔
    (0 < p.count → readers.Served) ∧ (p.count < pipeBufSize → writers.Served) := by
  simp [Unstranded]

lemma Unstranded.step (h : s.Unstranded) (ha : s.Thorough a) : (step s a).2.Unstranded := by
  obtain ⟨_ | p, readers, writers⟩ := s
  · exact fun _ => nofun
  obtain ⟨hread, hwrite⟩ := unstranded_some.mp h
  unfold step
  cases a with
  | read t count =>
    dsimp only
    by_cases hempty : p.count = 0
    · rw [pipeRead_empty hempty]
      split_ifs <;> exact unstranded_some.mpr ⟨fun hpos => absurd hempty hpos.ne', hwrite⟩
    · simp only [pipeRead, if_neg hempty, unstranded_some]
      refine ⟨fun hpos => (ha p rfl).resolve_left fun hle => ?_, fun _ => wqWakeOne_served _⟩
      rw [if_neg (by omega)] at hpos
      omega
  | write t src =>
    dsimp only
    by_cases hfull : p.count ≥ pipeBufSize
    · rw [pipeWrite_full hfull]
      split_ifs <;> exact unstranded_some.mpr ⟨hread, fun hlt => absurd hfull hlt.not_ge⟩
    · simp only [pipeWrite, if_neg hfull, unstranded_some]
      refine ⟨fun _ => wqWakeOne_served _, fun hlt => (ha p rfl).resolve_left fun hle => ?_⟩
      rw [if_neg (by omega)] at hlt
      omega
  | closeRead =>
    dsimp only [pipeCloseRead]
    split_ifs
    · exact fun _ => nofun
    · exact unstranded_some.mpr ⟨hread, fun _ => .inl rfl⟩
  | closeWrite =>
    dsimp only [pipeCloseWrite]
    split_ifs
    · exact fun _ => nofun
    · exact unstranded_some.mpr ⟨fun _ => .inl rfl, hwrite⟩

end Queues

theorem run_unstranded (as : List Attempt) (h : Queues.step.Along Queues.Thorough .init as) :
    (Queues.step.run .init as).Unstranded :=
  Machine.run_invariant (fun _ _ hs ha => hs.step ha)
    (fun _ _ => ⟨fun _ => .inl rfl, fun _ => .inl rfl⟩) h

theorem run_unstranded_one :
    (Queues.step.run .init [.read 1 4, .write 2 [7], .read 1 4]).Unstranded :=
  run_unstranded _ ⟨fun _ hp => .inl (some.inj hp ▸ Nat.zero_le 4), fun _ _ => .inr (.inl rfl),
    fun _ _ => .inr (.inl rfl), trivial⟩

/-- Two bytes are written for two readers; the one that is woken takes one. -/
theorem reader_stranded :
    ¬ (Queues.step.run .init [.read 1 1, .read 2 1, .write 3 [5, 6], .read 2 1]).Unstranded := by
  intro h
  rcases (h _ rfl).1 (by decide) with hnone | hnone
  · exact absurd hnone (by decide)
  · exact hnone rfl

end YamKernel.Ipc

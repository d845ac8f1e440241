import YamKernel.Lib.Machine
import YamKernel.Lib.Word

/-!
# The scheduler and the life of tasks

`sched/sched.c` and the wait queues of `sched/wait.c`, on CPU 0, the only CPU the kernel
schedules (`smp_sched_cpu_count` is 1, and a task whose affinity mask excludes CPU 0 is
queued there all the same).

A task is known by the address of its `task_t`. The sleep list, the wait queues and the
list of tasks to be reaped are linked through one field, `waitNext`. Kernel stacks, FPU
state, descriptors, names and statistics play no part in what follows and are left out.
The calls that allocate get the outcome of the allocations as arguments.
-/

namespace YamKernel.Sched

open Lib Function

abbrev Ptr := Nat

inductive TaskState where
  | ready | running | blocked | zombie | stopped | dead
  deriving DecidableEq, Repr

def TaskState.exited : TaskState → Bool
  | .zombie | .dead => true
  | _ => false

inductive AiHint where
  | none | batch | realtime | training
  deriving DecidableEq, Repr

def maxChildren : Nat := 32
def rqCapacity : Nat := 256
def sigkill : Nat := 9
def sigstop : Nat := 17

def niceToWeight : List Nat :=
  [88761, 71755, 56483, 46273, 36291, 29154, 23254, 18705, 14949, 11916,
   9548, 7620, 6100, 4904, 3906, 3121, 2501, 1991, 1586, 1277,
   1024, 820, 655, 526, 423, 335, 272, 215, 172, 137,
   110, 87, 70, 56, 45, 36, 29, 23, 18, 15]

def weightForNice (nice : Int) : Nat :=
  niceToWeight.getD (min (nice + 20).toNat 39) 0

structure Task where
  id : Nat
  state : TaskState
  nice : Int
  weight : Nat
  aiHint : AiHint
  vruntime : Nat
  wakeupTick : Nat
  sliceTicks : Nat
  needResched : Bool
  accounted : Bool
  reapQueued : Bool
  parent : Option Ptr
  /-- `children[0 .. child_count-1]` -/
  children : List Ptr
  exitCode : Int
  signalPending : Nat
  pml4 : Option Ptr
  threadGroup : Nat
  waitNext : Option Ptr
  deriving DecidableEq, Repr

/-- The static variables. `live` lists the task objects in use, `spaces` the address
spaces in use, and `destroyed` every call of `vmm_destroy_user_pml4` so far, with the
tasks that had not exited and used the address space at that moment. -/
structure State where
  task : Ptr → Task
  live : List Ptr
  /-- `rq.tasks[0 .. rq.count-1]` -/
  rq : List Ptr
  minVruntime : Nat
  loadWeight : Nat
  current : Ptr
  idle : Ptr
  sleepHead : Option Ptr
  wq : Nat → Option Ptr
  deferredReapHead : Option Ptr
  nextId : Nat
  totalTasks : Nat
  ticks : Nat
  schedEnabled : Bool
  spaces : List Ptr
  destroyed : List (Ptr × List Ptr)

def State.setTask (s : State) (t : Ptr) (v : Task) : State :=
  { s with task := update s.task t v }

section

variable {s : State} {t : Ptr} {v : Task}

lemma setTask_task (u : Ptr) : (s.setTask t v).task u = if u = t then v else s.task u := by
  by_cases hu : u = t
  · subst hu; simp [State.setTask]
  · simp [State.setTask, hu]

@[simp] theorem setTask_live : (s.setTask t v).live = s.live := rfl
@[simp] theorem setTask_rq : (s.setTask t v).rq = s.rq := rfl
@[simp] theorem setTask_current : (s.setTask t v).current = s.current := rfl
@[simp] theorem setTask_spaces : (s.setTask t v).spaces = s.spaces := rfl
@[simp] theorem setTask_nextId : (s.setTask t v).nextId = s.nextId := rfl

end

def State.link (s : State) (t : Ptr) : Option Ptr := (s.task t).waitNext

def Task.zero : Task where
  id := 0
  state := .ready
  nice := 0
  weight := 0
  aiHint := .none
  vruntime := 0
  wakeupTick := 0
  sliceTicks := 0
  needResched := false
  accounted := false
  reapQueued := false
  parent := none
  children := []
  exitCode := 0
  signalPending := 0
  pml4 := none
  threadGroup := 0
  waitNext := none

/-! ## The run queue -/

def Task.load (t : Task) : Nat := if t.weight = 0 then 1 else t.weight

/-- The binary search of `rq_insert`; the interval shrinks in every step, so `hi - lo`
steps are enough. -/
def searchSlot (vr : Ptr → Nat) (rq : List Ptr) (v : Nat) : Nat → Nat → Nat → Nat
  | 0, lo, _ => lo
  | fuel + 1, lo, hi =>
    if lo < hi then
      let mid := (lo + hi) / 2
      if vr (rq.getD mid 0) < v then searchSlot vr rq v fuel (mid + 1) hi
      else searchSlot vr rq v fuel lo mid
    else lo

def rqInsert (s : State) (t : Ptr) : State :=
  if rqCapacity ≤ s.rq.length then s
  else
    let s := s.setTask t { s.task t with state := .ready }
    let v := (s.task t).vruntime
    let lo := searchSlot (fun u => (s.task u).vruntime) s.rq v s.rq.length 0 s.rq.length
    let rq := s.rq.take lo ++ t :: s.rq.drop lo
    { s with
      rq
      loadWeight := u64 (s.loadWeight + (s.task t).load)
      minVruntime := if rq.length = 1 ∨ v < s.minVruntime then v else s.minVruntime }

def rqPickNext (s : State) : Option Ptr × State :=
  match s.rq with
  | [] => (none, s)
  | t :: rest =>
    (some t, { s with
      rq := rest
      loadWeight := if (s.task t).load ≤ s.loadWeight then s.loadWeight - (s.task t).load else 0
      minVruntime := match rest with
        | [] => 0
        | u :: _ => (s.task u).vruntime })

def switchTo (s : State) (next : Ptr) : State :=
  { s.setTask next { s.task next with
      state := .running, sliceTicks := 0, needResched := false } with
    current := next }

def schedUnblock (s : State) (t : Ptr) : State :=
  if (s.task t).state = .blocked ∨ (s.task t).state = .stopped then rqInsert s t else s

/-! ## Reaping -/

/-- The tasks that have not exited and run in the address space `p`. -/
def users (s : State) (p : Ptr) : List Ptr :=
  s.live.filter fun t => (s.task t).pml4 = some p ∧ (s.task t).state.exited = false

def vmmDestroyUserPml4 (s : State) (p : Ptr) : State :=
  { s with
    spaces := s.spaces.erase p
    destroyed := s.destroyed ++ [(p, users s p)] }

def schedDropTaskCount (s : State) (t : Ptr) : State :=
  if (s.task t).accounted then
    { s.setTask t { s.task t with accounted := false } with totalTasks := s.totalTasks - 1 }
  else s

def schedQueueDeferredReap (s : State) (t : Ptr) : State :=
  if (s.task t).reapQueued then s
  else
    { s.setTask t { s.task t with reapQueued := true, waitNext := s.deferredReapHead } with
      deferredReapHead := some t }

/-- The first occurrence of `t` is replaced by the last entry and the list shortened. -/
def removeChild (children : List Ptr) (t : Ptr) : List Ptr :=
  match children.idxOf? t, children.getLast? with
  | some i, some last => (children.set i last).dropLast
  | _, _ => children

def schedUnlinkFromParent (s : State) (t : Ptr) : State :=
  match (s.task t).parent with
  | none => s
  | some p =>
    let s := s.setTask p { s.task p with children := removeChild (s.task p).children t }
    s.setTask t { s.task t with parent := none }

/-- `sched_destroy_task_resources` with `free_object` set. -/
def schedDestroyTaskResources (s : State) (t : Ptr) (destroyAddressSpace : Bool) : State :=
  let s := match destroyAddressSpace, (s.task t).pml4 with
    | true, some p =>
      let s := vmmDestroyUserPml4 s p
      s.setTask t { s.task t with pml4 := none }
    | _, _ => s
  { s with live := s.live.erase t }

def schedTaskOwnsAddressSpace (s : State) (t : Ptr) : Bool :=
  (s.task t).pml4.isSome ∧ (s.task t).threadGroup = 0

def schedReapDetachedDeadTask (s : State) (t : Ptr) : State :=
  if t = s.current ∨ t ∈ s.rq then schedQueueDeferredReap s t
  else
    let s := schedUnlinkFromParent s t
    let s := schedDropTaskCount s t
    let s := s.setTask t { s.task t with state := .dead, reapQueued := false, waitNext := none }
    schedDestroyTaskResources s t (schedTaskOwnsAddressSpace s t)

/-- The loop of `sched_reap_deferred_dead_tasks` over the detached list. -/
def reapList : Nat → State → Option Ptr → State
  | 0, s, _ => s
  | _ + 1, s, none => s
  | fuel + 1, s, some t =>
    let next := (s.task t).waitNext
    let s := s.setTask t { s.task t with waitNext := none, reapQueued := false }
    let s := if t = s.current then schedQueueDeferredReap s t else schedReapDetachedDeadTask s t
    reapList fuel s next

def schedReapDeferredDeadTasks (s : State) : State :=
  reapList (s.live.length + 1) { s with deferredReapHead := none } s.deferredReapHead

/-! ## Switching -/

/-- The loop of `sched_yield` that skips dead tasks in the run queue; returns the task to
run next and the dead tasks to reap. Only 16 of those fit into the array. -/
def pickLive : Nat → State → List Ptr → Option Ptr × List Ptr × State
  | 0, s, dead => (none, dead, s)
  | fuel + 1, s, dead =>
    match rqPickNext s with
    | (none, s) => (none, dead, s)
    | (some t, s) =>
      if (s.task t).state = .dead then
        if (s.task t).reapQueued then pickLive fuel s dead
        else if dead.length < 16 then pickLive fuel s (dead ++ [t])
        else pickLive fuel (schedQueueDeferredReap s t) dead
      else (some t, dead, s)

def schedYield (s : State) : State :=
  if s.schedEnabled then
    let s := schedReapDeferredDeadTasks s
    match pickLive (s.rq.length + 1) s [] with
    | (none, dead, s) => dead.foldl schedReapDetachedDeadTask s
    | (some next, dead, s) =>
      let cur := s.current
      let s := if (s.task cur).state = .running then
          rqInsert (s.setTask cur { s.task cur with sliceTicks := 0, needResched := false }) cur
        else s
      switchTo (dead.foldl schedReapDetachedDeadTask s) next
  else s

def schedSleepUntil (s : State) (deadline : Nat) : State :=
  let cur := s.current
  let s := { s.setTask cur { s.task cur with
      state := .blocked, wakeupTick := deadline, waitNext := s.sleepHead } with
    sleepHead := some cur }
  match rqPickNext s with
  | (none, s) => s
  | (some next, s) => switchTo s next

def wqSleep (s : State) (q : Nat) : State :=
  let cur := s.current
  let s := { s.setTask cur { s.task cur with state := .blocked, waitNext := s.wq q } with
    wq := update s.wq q (some cur) }
  schedYield s

def wqWakeOne (s : State) (q : Nat) : State :=
  match s.wq q with
  | none => s
  | some t =>
    let s := { s with wq := update s.wq q (s.task t).waitNext }
    let s := s.setTask t { s.task t with waitNext := none }
    schedUnblock s t

/-- The loop of `wq_wake_all` over the detached list. -/
def wakeList : Nat → State → Option Ptr → State
  | 0, s, _ => s
  | _ + 1, s, none => s
  | fuel + 1, s, some t =>
    let next := (s.task t).waitNext
    let s := s.setTask t { s.task t with waitNext := none }
    wakeList fuel (schedUnblock s t) next

def wqWakeAll (s : State) (q : Nat) : State :=
  wakeList (s.live.length + 1) { s with wq := update s.wq q none } (s.wq q)

/-! ## Creation and exit -/

/-- `parent->children[parent->child_count++] = child` -/
def addChild (s : State) (parent child : Ptr) : State :=
  s.setTask parent { s.task parent with children := (s.task parent).children ++ [child] }

def queueNew (s : State) (t : Ptr) : State :=
  let s := rqInsert s t
  { s.setTask t { s.task t with accounted := true } with totalTasks := s.totalTasks + 1 }

/-- `sched_spawn`. `t` is the object the slab allocator hands out, `none` if it has none,
and `ok` says whether the graph node, the stack and the FPU state could be allocated. -/
def schedSpawn (s : State) (t : Option Ptr) (ok : Bool) : Option Ptr × State :=
  match t with
  | none => (none, s)
  | some t =>
    if t ∈ s.live then (none, s)
    else
      let id := s.nextId
      let s := { s with nextId := u64 (id + 1) }
      if ok then
        let cur := s.current
        let s := { s.setTask t { Task.zero with
            id, weight := weightForNice 0, parent := some cur, vruntime := s.minVruntime } with
          live := t :: s.live }
        let s := if (s.task cur).children.length < maxChildren then addChild s cur t else s
        (some t, queueNew s t)
      else (none, s)

/-- The common end of `sys_fork` and `sched_thread_create`: `child` becomes a child of the
current task and is queued. -/
def publishChild (s : State) (t : Ptr) (child : Task) : State :=
  let s := { s.setTask t child with live := t :: s.live }
  let s := addChild s s.current t
  queueNew (s.setTask t { s.task t with vruntime := s.minVruntime }) t

/-- The copy of the parent that both start from. -/
def childOf (s : State) (id : Nat) : Task :=
  { s.task s.current with
    id, parent := some s.current, children := [], state := .ready, exitCode := 0
    signalPending := 0, sliceTicks := 0, needResched := false, accounted := false
    reapQueued := false, waitNext := none }

/-- `sys_fork`. `stackOk` covers the stack and the FPU state, `space` is the result of
`vmm_fork_address_space`, and `restOk` covers what is allocated after it. The boot task, which
stays the idle task, has no stack of its own: `sched_fork_arm_child` refuses it. -/
def sysFork (s : State) (t : Option Ptr) (stackOk : Bool) (space : Option Ptr) (restOk : Bool) :
    Option Nat × State :=
  if maxChildren ≤ (s.task s.current).children.length then (none, s)
  else
    match t with
    | none => (none, s)
    | some t =>
      if t ∈ s.live then (none, s)
      else
        let id := s.nextId
        let s := { s with nextId := u64 (id + 1) }
        let child := { childOf s id with threadGroup := 0 }
        let restOk : Bool := restOk ∧ s.current ≠ s.idle
        if stackOk then
          match (s.task s.current).pml4, space with
          | none, _ =>
            if restOk then (some id, publishChild s t { child with pml4 := none }) else (none, s)
          | some _, none => (none, s)
          | some _, some p =>
            if p ∈ s.spaces then (none, s)
            else
              let s := { s with spaces := p :: s.spaces }
              if restOk then (some id, publishChild s t { child with pml4 := some p })
              else (none, vmmDestroyUserPml4 s p)
        else (none, s)

def schedThreadCreate (s : State) (t : Option Ptr) (ok : Bool) : Option Ptr × State :=
  if maxChildren ≤ (s.task s.current).children.length then (none, s)
  else
    match t with
    | none => (none, s)
    | some t =>
      if t ∈ s.live then (none, s)
      else
        let id := s.nextId
        let s := { s with nextId := u64 (id + 1) }
        let parent := s.task s.current
        if ok then
          (some t, publishChild s t { childOf s id with
            threadGroup := if parent.threadGroup ≠ 0 then parent.threadGroup else parent.id })
        else (none, s)

def orphanChild (s : State) (c : Ptr) : State :=
  let s := s.setTask c { s.task c with parent := none }
  if (s.task c).state.exited then
    let s := s.setTask c { s.task c with state := .dead }
    let s := schedDropTaskCount s c
    if c ∈ s.rq then s else schedQueueDeferredReap s c
  else s

def schedOrphanChildren (s : State) (p : Ptr) : State :=
  let children := (s.task p).children
  let shared := children.any fun c => (s.task p).pml4.isSome ∧ (s.task c).pml4 = (s.task p).pml4
  let s := children.foldl orphanChild s
  let s := s.setTask p { s.task p with children := [] }
  if shared then s.setTask p { s.task p with pml4 := none } else s

def schedExitCurrent (s : State) (code : Int) : State :=
  let cur := s.current
  let s := s.setTask cur { s.task cur with exitCode := code }
  let s := schedOrphanChildren s cur
  if (s.task cur).parent.isSome then s.setTask cur { s.task cur with state := .zombie }
  else
    let s := s.setTask cur { s.task cur with state := .dead }
    schedQueueDeferredReap (schedDropTaskCount s cur) cur

/-- One pass of the loop of `sched_waitpid` over the children: the id of a child that has
exited and is reaped now, or `none` if there is no such child. -/
def schedWaitpid (s : State) (pid : Int) : Option Nat × State :=
  let cur := s.current
  match (s.task cur).children.find? fun c =>
      (pid ≤ 0 ∨ (s.task c).id = pid) ∧ (s.task c).state.exited with
  | none => (none, s)
  | some c =>
    let id := (s.task c).id
    let s := schedDropTaskCount s c
    let s := s.setTask c { s.task c with state := .dead }
    let owns := (s.task c).pml4.isSome ∧ (s.task c).pml4 ≠ (s.task cur).pml4
    let s := s.setTask cur { s.task cur with children := removeChild (s.task cur).children c }
    (some id, schedDestroyTaskResources s c owns)

/-- `elf_exec_resolved_argv_envp` once the image is prepared in the new address space
`space`; `none` when no image could be prepared. -/
def elfExec (s : State) (space : Option Ptr) : State :=
  match space with
  | none => s
  | some p =>
    if p ∈ s.spaces then s
    else
      let s := { s with spaces := p :: s.spaces }
      let cur := s.current
      if (s.task cur).threadGroup ≠ 0 ∧ (s.task cur).threadGroup ≠ (s.task cur).id then
        vmmDestroyUserPml4 s p
      else
        let old := (s.task cur).pml4
        let s := s.setTask cur { s.task cur with
          pml4 := some p, signalPending := 0, threadGroup := 0 }
        match old with
        | some q => if q ≠ p then vmmDestroyUserPml4 s q else s
        | none => s

/-- The end of `elf_spawn_argv_envp`: a task for the address space `space`, or the space
destroyed again if there is no task. -/
def elfSpawn (s : State) (t : Option Ptr) (ok : Bool) (space : Option Ptr) : State :=
  match space with
  | none => s
  | some p =>
    if p ∈ s.spaces then s
    else
      match schedSpawn { s with spaces := p :: s.spaces } t ok with
      | (none, s) => vmmDestroyUserPml4 s p
      | (some t, s) => s.setTask t { s.task t with pml4 := some p }

/-! ## The timer -/

def schedEffectiveSliceTicks (s : State) (t : Ptr) : Nat :=
  let base := min (max (8 / (s.rq.length + 1)) 1) 6
  let base := if (s.task t).nice < 0 ∧ base < 6 then base + 1 else base
  let base := if 5 < (s.task t).nice ∧ 1 < base then base - 1 else base
  let base := if (s.task t).aiHint = .realtime ∧ base < 6 then base + 1 else base
  if (s.task t).aiHint = .batch ∧ 1 < base then base - 1 else base

def tickCurrent (s : State) : State :=
  let cur := s.current
  let c := s.task cur
  let v := u64 (c.vruntime + 1048576 / c.load)
  let v := if c.aiHint = .batch then sub64 v 128 else v
  let s := s.setTask cur { c with vruntime := v, sliceTicks := u32 (c.sliceTicks + 1) }
  if cur ≠ s.idle ∧ schedEffectiveSliceTicks s cur ≤ (s.task cur).sliceTicks then
    s.setTask cur { s.task cur with needResched := true }
  else s

/-- Write through `pp`: the head of the sleep list, or the link of the task before. -/
def setLink (s : State) (pp : Option Ptr) (v : Option Ptr) : State :=
  match pp with
  | none => { s with sleepHead := v }
  | some u => s.setTask u { s.task u with waitNext := v }

def getLink (s : State) (pp : Option Ptr) : Option Ptr :=
  match pp with
  | none => s.sleepHead
  | some u => (s.task u).waitNext

/-- The loop of `sched_tick` that wakes sleepers. -/
def wakeSleepers : Nat → State → Option Ptr → State
  | 0, s, _ => s
  | fuel + 1, s, pp =>
    match getLink s pp with
    | none => s
    | some t =>
      if (s.task t).wakeupTick ≤ s.ticks then
        let s := setLink s pp (s.task t).waitNext
        let s := s.setTask t { s.task t with waitNext := none }
        wakeSleepers fuel (schedUnblock s t) pp
      else wakeSleepers fuel s (some t)

def tickSignals (s : State) : State :=
  let cur := s.current
  if (s.task cur).signalPending.testBit sigkill then
    let s := schedExitCurrent s (128 + sigkill)
    s.setTask cur { s.task cur with needResched := true }
  else if (s.task cur).signalPending.testBit sigstop then
    s.setTask cur { s.task cur with
      state := .stopped, signalPending := (s.task cur).signalPending - 2 ^ sigstop }
  else s

def schedTick (s : State) : State :=
  let s := { s with ticks := u64 (s.ticks + 1) }
  let s := tickCurrent s
  let s := wakeSleepers (s.live.length + 1) s none
  tickSignals s

/-! ## Boot -/

/-- The state after `sched_init`: the boot task at address `boot` is running. -/
def schedInit (boot : Ptr) : State where
  task := update (fun _ => Task.zero) boot
    { Task.zero with state := .running, weight := weightForNice 0, accounted := true }
  live := [boot]
  rq := []
  minVruntime := 0
  loadWeight := 0
  current := boot
  idle := boot
  sleepHead := none
  wq _ := none
  deferredReapHead := none
  nextId := 1
  totalTasks := 1
  ticks := 0
  schedEnabled := false
  spaces := []
  destroyed := []

end YamKernel.Sched

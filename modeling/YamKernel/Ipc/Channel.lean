import Mathlib.Data.List.Forall2
import YamKernel.Lib.Machine
import YamKernel.Lib.Ring
import YamKernel.Nexus.Capability

/-!
# Channels

`nexus/channel.c`: two rings of messages between two nodes. A call of `channel_send` gets the
graph of that moment as an argument, so the graph may change in any way between the calls.
`channel_run` says that each ring is a bounded queue.
-/

namespace YamKernel.Nexus

open Lib List Function

def ringSize : Nat := 64
def msgMaxSize : Nat := 256

structure Message where
  sender : Nat
  msgType : Nat
  length : Nat
  data : Nat → UInt8

structure Ring where
  ring : Nat → Message
  head : Nat
  tail : Nat
  count : Nat

structure Channel where
  nodeId : Nat
  endpointA : Nat
  endpointB : Nat
  aToB : Ring
  bToA : Ring
  active : Bool

/-- The arguments of `channel_send`; without data the bytes of the cell stay. -/
structure Send where
  sender : Nat
  msgType : Nat
  length : Nat
  data : Option (Nat → UInt8)

def Ring.push (r : Ring) (x : Send) : Ring :=
  let old := (r.ring r.tail).data
  let data := match x.data with
    | some d => fun i => if i < x.length then d i else old i
    | none => old
  { r with ring := update r.ring r.tail ⟨x.sender, x.msgType, x.length, data⟩
           tail := (r.tail + 1) % ringSize, count := r.count + 1 }

def Ring.pop (r : Ring) : Ring :=
  { r with head := (r.head + 1) % ringSize, count := r.count - 1 }

/-- The channel of the graph's node `id`. -/
def channelCreate (id a b : Nat) : Channel :=
  let empty := ⟨fun _ => ⟨0, 0, 0, fun _ => 0⟩, 0, 0, 0⟩
  ⟨id, a, b, empty, empty, true⟩

def channelSend (g : Graph) (c : Channel) (x : Send) : Bool × Channel :=
  if ¬ c.active then (false, c)
  else if msgMaxSize < x.length then (false, c)
  else if x.sender ≠ c.endpointA ∧ x.sender ≠ c.endpointB then (false, c)
  else if ¬ yamgraphHasPermission g x.sender c.nodeId permWrite then (false, c)
  else if x.sender = c.endpointA then
    if ringSize ≤ c.aToB.count then (false, c) else (true, { c with aToB := c.aToB.push x })
  else
    if ringSize ≤ c.bToA.count then (false, c) else (true, { c with bToA := c.bToA.push x })

def channelRecv (c : Channel) (receiver : Nat) : Option Message × Channel :=
  if ¬ c.active then (none, c)
  else if receiver = c.endpointB then
    if c.aToB.count = 0 then (none, c)
    else (some (c.aToB.ring c.aToB.head), { c with aToB := c.aToB.pop })
  else if receiver = c.endpointA then
    if c.bToA.count = 0 then (none, c)
    else (some (c.bToA.ring c.bToA.head), { c with bToA := c.bToA.pop })
  else (none, c)

structure Log where
  chan : Channel
  sentA : List Send
  sentB : List Send
  gotA : List Message
  gotB : List Message

inductive Op where
  | send (g : Graph) (x : Send)
  | recv (receiver : Nat)

def step : Machine Log Op Unit := fun n op => ((), match op with
  | .send g x =>
    let (ok, c) := channelSend g n.chan x
    { n with chan := c
             sentA := if ok ∧ x.sender = c.endpointA then n.sentA ++ [x] else n.sentA
             sentB := if ok ∧ x.sender = c.endpointB then n.sentB ++ [x] else n.sentB }
  | .recv receiver =>
    let (m, c) := channelRecv n.chan receiver
    { n with chan := c
             gotA := if receiver = c.endpointA then n.gotA ++ m.toList else n.gotA
             gotB := if receiver = c.endpointB then n.gotB ++ m.toList else n.gotB })

def Matches (x : Send) (m : Message) : Prop :=
  m.sender = x.sender ∧ m.msgType = x.msgType ∧ m.length = x.length ∧
    ∀ d, x.data = some d → ∀ i < x.length, m.data i = d i

/-- What was received is a prefix of what was sent, and the ring has room for the rest. -/
def Delivers (sent : List Send) (got : List Message) : Prop :=
  got.length ≤ sent.length ∧ sent.length ≤ got.length + ringSize ∧
    Forall₂ Matches (sent.take got.length) got

/-- Only the ends send and receive, and a send of theirs fails for one of three reasons: they may
not write to the channel's node, the message is too long, or the ring is full. -/
def CallLaw (id a b : Nat) (n : Log) : Op → Prop
  | .send g x => if (channelSend g n.chan x).1 then x.sender = a ∨ x.sender = b
    else (x.sender ≠ a ∧ x.sender ≠ b) ∨ ¬ Permitted g x.sender id permWrite ∨
      msgMaxSize < x.length ∨
      (x.sender = a ∧ n.sentA.length = n.gotB.length + ringSize) ∨
      (x.sender = b ∧ n.sentB.length = n.gotA.length + ringSize)
  | .recv receiver => (channelRecv n.chan receiver).1 ≠ none → receiver = a ∨ receiver = b

/-- The ring holds `xs`, which were sent and not received yet. -/
structure Carries (r : Ring) (sent : List Send) (got xs : List Message) : Prop where
  head : r.head < ringSize
  tail : r.tail = (r.head + xs.length) % ringSize
  count : r.count = xs.length
  fits : xs.length ≤ ringSize
  holds : RingHolds ringSize r.ring r.head xs
  same : Forall₂ Matches sent (got ++ xs)

def Queues (r : Ring) (sent : List Send) (got : List Message) : Prop :=
  ∃ xs, Carries r sent got xs

namespace Queues

variable {r : Ring} {sent : List Send} {got : List Message}

lemma push (h : Queues r sent got) (x : Send) (hroom : r.count < ringSize) :
    Queues (r.push x) (sent ++ [x]) got := by
  obtain ⟨xs, h⟩ := h
  have hlen : xs.length < ringSize := h.count ▸ hroom
  refine ⟨xs ++ [(r.push x).ring r.tail], h.head, ?_, ?_, ?_, ?_, ?_⟩
  · simp [Ring.push, h.tail, add_assoc]
  · simp [Ring.push, h.count]
  · rwa [length_append]
  · have := h.holds.snoc (x := (r.push x).ring r.tail) hlen
    rw [← h.tail] at this
    simpa [Ring.push] using this
  · rw [← append_assoc]
    refine rel_append h.same (.cons ?_ .nil)
    simp only [Ring.push, update_self]
    grind [Matches]

lemma pop (h : Queues r sent got) (hpos : r.count ≠ 0) :
    Queues r.pop sent (got ++ [r.ring r.head]) := by
  obtain ⟨xs, hhead, htail, hcount, hfits, hholds, hsame⟩ := h
  cases xs with
  | nil => exact absurd hcount hpos
  | cons x xs =>
    have hx : r.ring r.head = x := by
      have := hholds 0 (Nat.succ_pos _)
      rwa [add_zero, Nat.mod_eq_of_lt hhead] at this
    refine ⟨xs, Nat.mod_lt _ (by decide), ?_, ?_, ?_, hholds.tail, ?_⟩
    · rw [Ring.pop, htail, length_cons, Nat.mod_add_mod, add_right_comm, add_assoc]
    · simp [Ring.pop, hcount]
    · exact (Nat.le_succ _).trans hfits
    · simpa [hx] using hsame

lemma delivers (h : Queues r sent got) : Delivers sent got := by
  obtain ⟨xs, h⟩ := h
  have hlen := h.same.length_eq
  rw [length_append] at hlen
  have := h.fits
  refine ⟨by omega, by omega, ?_⟩
  have hpre := forall₂_take got.length h.same
  rwa [take_left] at hpre

lemma full (h : Queues r sent got) (hfull : ringSize ≤ r.count) :
    sent.length = got.length + ringSize := by
  obtain ⟨xs, h⟩ := h
  have := h.same.length_eq
  grind [h.fits, h.count]

end Queues

/-- The channel is open between `a` and `b`, and its rings are queues. -/
structure Inv (id a b : Nat) (n : Log) : Prop where
  active : n.chan.active = true
  node : n.chan.nodeId = id
  endA : n.chan.endpointA = a
  endB : n.chan.endpointB = b
  toB : Queues n.chan.aToB n.sentA n.gotB
  toA : Queues n.chan.bToA n.sentB n.gotA

section

variable {id a b : Nat} {n : Log}

lemma Inv.send (h : Inv id a b n) (hne : a ≠ b) (g : Graph) (x : Send) :
    Inv id a b (step n (.send g x)).2 ∧ CallLaw id a b n (.send g x) := by
  obtain ⟨hactive, rfl, hA, hB, htoB, htoA⟩ := h
  have := htoB.push x
  have := htoA.push x
  have := htoB.full
  have := htoA.full
  have := hasPermission_iff g x.sender n.chan.nodeId permWrite
  simp only [CallLaw, step, channelSend]
  split_ifs <;> refine ⟨⟨hactive, rfl, hA, hB, ?_, ?_⟩, ?_⟩ <;> grind

lemma Inv.recv (h : Inv id a b n) (hne : a ≠ b) (receiver : Nat) :
    Inv id a b (step n (.recv receiver)).2 ∧ CallLaw id a b n (.recv receiver) := by
  obtain ⟨hactive, hnode, hA, hB, htoB, htoA⟩ := h
  have := htoB.pop
  have := htoA.pop
  simp only [CallLaw, step, channelRecv]
  split_ifs <;> refine ⟨⟨hactive, hnode, hA, hB, ?_, ?_⟩, ?_⟩ <;> grind

end

/-- In every run of calls on a channel of two nodes, each direction hands over the messages
sent, in their order, with at most the ring's size on the way, and only to and from its ends. -/
theorem channel_run (id a b : Nat) (hne : a ≠ b) (ops : List Op) :
    let start : Log := ⟨channelCreate id a b, [], [], [], []⟩
    let n := step.run start ops
    (Delivers n.sentA n.gotB ∧ Delivers n.sentB n.gotA) ∧
      step.Along (CallLaw id a b) start ops := by
  intro start n
  have hempty : Queues start.chan.aToB [] [] :=
    ⟨[], Nat.succ_pos 63, rfl, rfl, Nat.zero_le _, fun _ hi => absurd hi (Nat.not_lt_zero _), .nil⟩
  obtain ⟨hinv, hlaw⟩ := Machine.run_along (I := Inv id a b)
    (fun n op h _ => by
      cases op with
      | send g x => exact h.send hne g x
      | recv receiver => exact h.recv hne receiver)
    ⟨rfl, rfl, rfl, rfl, hempty, hempty⟩ (Machine.along_of_forall (fun _ _ => trivial) _ ops)
  exact ⟨⟨hinv.toB.delivers, hinv.toA.delivers⟩, hlaw⟩

/-- Nodes 1 and 2 may write to node 3. -/
def linked : Graph :=
  let nodes := ⟨fun i => ⟨i < 4, [], [], 1⟩, fun _ => ⟨0, 0, 0, 0, false⟩, 1, 1, 0⟩
  (yamgraphEdgeLink (yamgraphEdgeLink nodes 1 3 permWrite).2 2 3 permWrite).2

/-- Two messages, a stranger and an answer; the last message is still on its way. -/
def talk : List Op :=
  [.send linked ⟨1, 7, 2, some fun i => [10, 20].getD i 0⟩, .send linked ⟨0, 7, 0, none⟩,
   .send linked ⟨1, 8, 1, some fun _ => 30⟩, .recv 2,
   .send linked ⟨2, 9, 3, some fun i => [40, 50, 60].getD i 0⟩, .recv 1,
   .send linked ⟨1, 8, 1, some fun _ => 70⟩, .recv 2]

theorem channel_run_talk :
    let n := step.run ⟨channelCreate 3 1 2, [], [], [], []⟩ talk
    let content (m : Message) := (m.msgType, (range m.length).map m.data)
    n.gotB.map content = [(7, [10, 20]), (8, [30])] ∧ n.gotA.map content = [(9, [40, 50, 60])] ∧
    n.sentA.length = 3 ∧ Delivers n.sentA n.gotB ∧ Delivers n.sentB n.gotA :=
  ⟨by decide, by decide, by decide, (channel_run 3 1 2 (by decide) talk).1⟩

end YamKernel.Nexus

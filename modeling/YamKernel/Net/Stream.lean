import YamKernel.Lib.Ring
import YamKernel.Net.Segments

/-!
# The stream a connection receives

Segments and calls of `tcp_recv` on one connection. The code drops data that the buffer has no
room for and still acknowledges it, and it counts every FIN. While data in order fits and the
only FIN comes in order, `tcp_recv` returns the bytes that segments assign to the numbers
after the initial one, and acknowledgements cover nothing else.
-/

namespace YamKernel.Tcp

open Lib List

structure Conn where
  sock : Sock
  delivered : List UInt8
  segments : List Segment
  /-- The acknowledgements sent, each with the bytes delivered or buffered by then. -/
  sent : List (UInt32 × Nat)

inductive ConnOp where
  | segment (g : Segment) (mem : Nat → Bool)
  | recv (maxLen : Nat)

def connStep : Machine Conn ConnOp Unit := fun c op => ((), match op with
  | .segment g mem =>
    -- an inactive socket is not found
    if c.sock.active then
      let s := connReceive { c.sock with acks := [] } g mem
      ⟨s, c.delivered, g :: c.segments,
        s.acks.map (·, c.delivered.length + avail s) ++ c.sent⟩
    else c
  | .recv maxLen =>
    let (bytes, s) := tcpRecv c.sock maxLen
    ⟨s, c.delivered ++ bytes, c.segments, c.sent⟩)

structure Established (isn : UInt32) (s : Sock) : Prop where
  state : s.state = .established
  next : s.rcvNxt = isn + 1
  empty : s.recvHead = s.recvTail
  tail : s.recvTail < recvBufSize
  acks : s.acks = []

/-- Data in order fits the buffer, and the only FIN comes in order. -/
def InTurn (c : Conn) : ConnOp → Prop
  | .segment g _ => c.sock.active →
    (InOrder c.sock g → avail c.sock + g.data.length < recvBufSize) ∧
    (g.fin → c.sock.state = .established ∧
      (InOrder c.sock g ∨ g.seq + UInt32.ofNat g.data.length = c.sock.rcvNxt))
  | .recv _ => True

/-- A segment assigns `b` to the number `isn + 1 + k`. -/
def Assigned (isn : UInt32) (segs : List Segment) (k : Nat) (b : UInt8) : Prop :=
  ∃ g ∈ segs, ∃ j, g.data[j]? = some b ∧ g.seq + UInt32.ofNat j = isn + 1 + UInt32.ofNat k

/-- The acknowledgement, read as one of the last `2 ^ 31` numbers, covers at most `n` bytes, and
after them perhaps a FIN. -/
def Covers (isn : UInt32) (segs : List Segment) (n : Nat) (a : UInt32) : Prop :=
  ∃ m ≤ n, n < m + 2 ^ 31 ∧ (a = isn + 1 + UInt32.ofNat m ∨ a = isn + 1 + UInt32.ofNat m + 1 ∧
    ∃ g ∈ segs, g.fin ∧ g.seq + UInt32.ofNat g.data.length = isn + 1 + UInt32.ofNat m)

structure StreamLaw (isn : UInt32) (c : Conn) : Prop where
  delivered : ∀ k b, c.delivered[k]? = some b → Assigned isn c.segments k b
  acks : ∀ x ∈ c.sent, Covers isn c.segments x.2 x.1

/-- The buffer holds `xs`. -/
structure Buffers (buf : Nat → UInt8) (head tail : Nat) (xs : List UInt8) : Prop where
  tail_lt : tail < recvBufSize
  head_eq : head = (tail + xs.length) % recvBufSize
  fits : xs.length < recvBufSize
  holds : RingHolds recvBufSize buf tail xs

variable {s : Sock} {xs bs d : List UInt8} {isn : UInt32} {segs : List Segment} {g : Segment}

lemma Buffers.avail_eq (h : Buffers s.recvBuf s.recvHead s.recvTail xs) : avail s = xs.length := by
  obtain ⟨htail, hhead, hfits, -⟩ := h
  unfold avail recvBufSize at *
  split_ifs <;> omega

theorem Buffers.copyData (h : Buffers s.recvBuf s.recvHead s.recvTail xs)
    (hroom : xs.length + bs.length < recvBufSize) :
    Buffers (copyData bs s).recvBuf (copyData bs s).recvHead s.recvTail (xs ++ bs) := by
  induction bs generalizing s xs with
  | nil => simpa [copyData] using h
  | cons b bs ih =>
    have hnext : (s.recvHead + 1) % recvBufSize ≠ s.recvTail := by
      rw [h.head_eq]
      unfold recvBufSize length at *
      omega
    rw [copyData, if_neg hnext, ← singleton_append, ← append_assoc]
    rw [length_cons] at hroom
    refine ih ⟨h.tail_lt, ?_, ?_, ?_⟩ ?_
    · rw [h.head_eq]
      simp [add_assoc]
    · simp; omega
    · rw [h.head_eq]
      exact h.holds.snoc h.fits
    · simp; omega

theorem Buffers.recv (h : Buffers s.recvBuf s.recvHead s.recvTail xs) (n : Nat) :
    (tcpRecv s n).1 = xs.take n ∧
      Buffers s.recvBuf s.recvHead (tcpRecv s n).2.recvTail (xs.drop n) := by
  have hcell (i) (hi : i < xs.length) : xs[i] = s.recvBuf
      (if s.recvTail + i < recvBufSize then s.recvTail + i else s.recvTail + i - recvBufSize) := by
    rw [← h.holds i hi]
    congr 1
    have := h.tail_lt
    have := h.fits
    unfold recvBufSize at *
    split_ifs <;> omega
  have hcopy : (if xs.length < n then xs.length else n) = min n xs.length := by
    split_ifs <;> omega
  simp only [tcpRecv, h.avail_eq, hcopy]
  obtain ⟨htail, hhead, hfits, hholds⟩ := h
  refine ⟨?_, Nat.mod_lt _ (by decide), ?_, ?_, ?_⟩
  · split_ifs
    · refine ext_getElem (by simp) fun i h1 h2 => ?_
      rw [length_take] at h2
      simp only [getElem_map, getElem_range, getElem_take, hcell]
      rw [if_pos (by omega)]
    · refine ext_getElem (by simp; omega) fun i h1 h2 => ?_
      simp only [getElem_append, getElem_map, getElem_range, getElem_take, hcell, length_map,
        length_range]
      split_ifs <;> first | omega | exact congrArg s.recvBuf (by omega)
  · rw [length_drop]
    unfold recvBufSize at *
    omega
  · rw [length_drop]
    omega
  · rw [← take_append_drop n xs] at hholds
    simpa using hholds.drop

/-- What holds between the calls, with `xs` in the buffer. -/
structure Streams (isn : UInt32) (d : List UInt8) (segs : List Segment) (xs : List UInt8)
    (s : Sock) : Prop extends Buffers s.recvBuf s.recvHead s.recvTail xs where
  state : s.active → s.state = .established ∨ s.state = .closeWait
  bytes : ∀ k b, (d ++ xs)[k]? = some b → Assigned isn segs k b
  next : s.state = .established → s.rcvNxt = isn + 1 + UInt32.ofNat (d ++ xs).length
  acks : ∀ a ∈ s.acks, Covers isn segs (d ++ xs).length a

section

variable (h : Streams isn d segs xs s)
include h

lemma Streams.send (hs : s.state = .established) (ok : Bool) :
    Streams isn d segs xs (tcpSendSegment s false false true 0 ok) := by
  have hnew : Covers isn segs (d ++ xs).length s.rcvNxt :=
    ⟨_, le_rfl, by omega, .inl (h.next hs)⟩
  cases ok with
  | false => exact h
  | true => exact ⟨h.toBuffers, h.state, h.bytes, h.next, forall_mem_cons.2 ⟨hnew, h.acks⟩⟩

lemma Streams.cons (g : Segment) : Streams isn d (g :: segs) xs { s with acks := [] } :=
  ⟨h.toBuffers, h.state, fun k b hb => by grind [Assigned, h.bytes k b hb], h.next, by simp⟩

lemma Streams.ack (ha : s.active) (a : UInt32) : Streams isn d segs xs (receiveAck s a) ∧
    (receiveAck s a).state = s.state ∧ (receiveAck s a).rcvNxt = s.rcvNxt ∧
    (receiveAck s a).acks = s.acks := by
  obtain ⟨u, hu⟩ : ∃ u, receiveAck s a = { s with sndUna := u } := by
    have := h.state ha
    unfold receiveAck
    split_ifs <;> dsimp only <;> split <;> first | exact ⟨_, rfl⟩ | simp_all
  rw [hu]
  exact ⟨⟨h.toBuffers, h.state, h.bytes, h.next, h.acks⟩, rfl, rfl, rfl⟩

/-- Data in order goes behind the rest. -/
lemma Streams.data (hg : g ∈ segs) (hacks : s.acks = []) (ok : Bool)
    (hroom : g.data ≠ [] ∧ s.state = .established ∧ g.seq = s.rcvNxt →
      xs.length + g.data.length < recvBufSize) :
    ∃ ys, Streams isn d segs ys (receiveData s g ok) := by
  unfold receiveData
  split_ifs with hd hseq
  · have hlen := hroom ⟨hd.1, hd.2, hseq⟩
    have hbuf := h.toBuffers.copyData hlen
    have hnext := h.next hd.2
    obtain ⟨buf, head, hcopy⟩ := copyData_eq g.data s
    rw [hcopy] at hbuf ⊢
    refine ⟨xs ++ g.data, send ?_ ?_ ok⟩
    · refine ⟨hbuf, h.state, fun k b hb => ?_, fun _ => ?_, by simp [hacks]⟩
      · rw [← append_assoc, getElem?_append] at hb
        split_ifs at hb
        · exact h.bytes k b hb
        · refine ⟨g, hg, _, hb, ?_⟩
          rw [hseq, hnext, UInt32.add_assoc, ← UInt32.ofNat_add]
          congr 2
          omega
      · rw [← append_assoc, length_append, UInt32.ofNat_add, ← UInt32.add_assoc, ← hnext]
    · exact hd.2
  · exact ⟨xs, h.send hd.2 ok⟩
  · exact ⟨xs, h⟩

lemma Streams.fin (hg : g ∈ segs) (hf : g.fin) (hs : s.state = .established)
    (hseq : g.seq + UInt32.ofNat g.data.length = s.rcvNxt) (ok : Bool) :
    Streams isn d segs xs (receiveFin s ok) := by
  have hnext := h.next hs
  have hnew : Covers isn segs (d ++ xs).length (s.rcvNxt + 1) :=
    ⟨_, le_rfl, by omega, .inr ⟨by rw [hnext], g, hg, hf, hseq.trans hnext⟩⟩
  have hne : SockState.closeWait ≠ .established := by decide
  cases ok <;> simp only [receiveFin, hs]
  · exact ⟨h.toBuffers, fun _ => .inr rfl, h.bytes, fun hc => absurd hc hne, h.acks⟩
  · exact ⟨h.toBuffers, fun _ => .inr rfl, h.bytes, fun hc => absurd hc hne,
      forall_mem_cons.2 ⟨hnew, h.acks⟩⟩

end

theorem Streams.receive (h : Streams isn d segs xs s) (ha : s.active) (hg : g ∈ segs)
    (hacks : s.acks = []) (mem : Nat → Bool)
    (hroom : InOrder s g → avail s + g.data.length < recvBufSize)
    (hfin : g.fin → s.state = .established ∧
      (InOrder s g ∨ g.seq + UInt32.ofNat g.data.length = s.rcvNxt)) :
    ∃ ys, Streams isn d segs ys (connReceive s g mem) := by
  have : ¬ Completes s g := by grind [h.state ha]
  rw [connReceive]
  dsimp only
  obtain ⟨h₁, hstate₁, hnext₁, hacks₁⟩ : Streams isn d segs xs
      (if g.ack then receiveAck s g.ackNum else s) ∧
      (if g.ack then receiveAck s g.ackNum else s).state = s.state ∧
      (if g.ack then receiveAck s g.ackNum else s).rcvNxt = s.rcvNxt ∧
      (if g.ack then receiveAck s g.ackNum else s).acks = s.acks := by
    split_ifs
    · exact h.ack ha _
    · exact ⟨h, rfl, rfl, rfl⟩
  generalize (if g.ack then receiveAck s g.ackNum else s) = s₁ at *
  obtain ⟨ys, h₂⟩ := h₁.data hg (hacks₁.trans hacks) (mem 0) (by grind [h.avail_eq])
  generalize hs₂ : receiveData s₁ g (mem 0) = s₂ at *
  obtain ⟨-, hstate₂, -, hnext₂⟩ := receiveData_spec hs₂
  have h₃ : Streams isn d segs ys (if g.fin then receiveFin s₂ (mem 1) else s₂) := by
    split_ifs with hf
    · exact h₂.fin hg hf (by grind) (by grind) _
    · exact h₂
  generalize (if g.fin then receiveFin s₂ (mem 1) else s₂) = s₃ at *
  split_ifs
  · exact ⟨ys, h₃.toBuffers, by simp, h₃.bytes, by simp, h₃.acks⟩
  · exact ⟨ys, h₃⟩

lemma Covers.cons {n : Nat} {a : UInt32} (h : Covers isn segs n a) (g : Segment) :
    Covers isn (g :: segs) n a := by
  grind [Covers]

theorem Streams.step {c : Conn} {op : ConnOp} (h : Streams isn c.delivered c.segments xs c.sock)
    (hsent : ∀ x ∈ c.sent, Covers isn c.segments x.2 x.1) (hop : InTurn c op) :
    (∃ ys, Streams isn (connStep c op).2.delivered (connStep c op).2.segments ys
      (connStep c op).2.sock) ∧
    ∀ x ∈ (connStep c op).2.sent, Covers isn (connStep c op).2.segments x.2 x.1 := by
  cases op with
  | segment g mem =>
    unfold connStep
    by_cases ha : c.sock.active
    swap
    · simp only [ha]
      exact ⟨⟨xs, h⟩, hsent⟩
    obtain ⟨ys, hys⟩ := (h.cons g).receive ha mem_cons_self rfl mem (hop ha).1 (hop ha).2
    dsimp only
    rw [if_pos ha]
    refine ⟨⟨ys, hys⟩, fun x hx => ?_⟩
    rcases mem_append.1 hx with hx | hx
    · obtain ⟨a, hmem, rfl⟩ := mem_map.1 hx
      rw [hys.avail_eq, ← length_append]
      exact hys.acks a hmem
    · exact (hsent x hx).cons g
  | recv n =>
    obtain ⟨hbytes, hbuf⟩ := h.toBuffers.recv n
    have hall : (c.delivered ++ xs.take n) ++ xs.drop n = c.delivered ++ xs := by simp
    simp only [connStep, hbytes]
    exact ⟨⟨xs.drop n, hbuf, h.state, by rw [hall]; exact h.bytes, by rw [hall]; exact h.next,
      by rw [hall]; exact h.acks⟩, hsent⟩

/-- In every run whose segments come in turn, what is delivered is the stream. -/
theorem conn_streams (isn : UInt32) (s : Sock) (h : Established isn s) (ops : List ConnOp)
    (hops : connStep.Along InTurn ⟨s, [], [], []⟩ ops) :
    StreamLaw isn (connStep.run ⟨s, [], [], []⟩ ops) := by
  obtain ⟨hstate, hnext, hempty, htail, hacks⟩ := h
  have hinit : Streams isn [] [] [] s :=
    ⟨⟨htail, by simp [hempty, Nat.mod_eq_of_lt htail], by decide, nofun⟩, fun _ => .inl hstate,
      by simp, fun _ => by simp [hnext], by simp [hacks]⟩
  obtain ⟨⟨xs, hrun⟩, hsent⟩ := Machine.run_invariant
    (I := fun c => (∃ xs, Streams isn c.delivered c.segments xs c.sock) ∧
      ∀ x ∈ c.sent, Covers isn c.segments x.2 x.1)
    (fun c op ⟨⟨xs, hc⟩, hsent⟩ hop => hc.step hsent hop) ⟨⟨[], hinit⟩, by simp⟩ hops
  refine ⟨fun k b hb => hrun.bytes k b ?_, hsent⟩
  rw [getElem?_append_left (List.getElem?_eq_some_iff.1 hb).1]
  exact hb

def established : Sock := { Sock.zero with active := true, state := .established, rcvNxt := 1 }

def segmentAt (seq : UInt32) (fin : Bool) (data : List UInt8) : ConnOp :=
  .segment ⟨1, 80, 32768, fin, false, false, true, seq, 0, data⟩ fun _ => true

theorem conn_streams_fin : StreamLaw 0 (connStep.run ⟨established, [], [], []⟩
    [segmentAt 1 false [7, 8], .recv 1, segmentAt 3 true [9], .recv 5]) := by
  refine conn_streams 0 established ⟨rfl, rfl, rfl, by decide, rfl⟩ _
    ⟨?_, trivial, ?_, trivial, trivial⟩
  · exact fun _ => by decide
  · exact fun _ => by decide

/-- A FIN that comes before the data is acknowledged. -/
theorem early_fin_acknowledged :
    ¬ StreamLaw 0 (connStep.run ⟨established, [], [], []⟩ [segmentAt 9 true []]) := by
  intro h
  obtain ⟨m, hm, -, hc⟩ := h.acks (2, 0) (by decide)
  obtain rfl : m = 0 := Nat.le_zero.1 hm
  rcases hc with hc | ⟨-, g, hg, -, hseq⟩
  · exact absurd hc (by decide)
  · obtain rfl := mem_singleton.1 hg
    exact absurd hseq (by decide)

end YamKernel.Tcp

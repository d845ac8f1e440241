import Mathlib.Algebra.Group.Nat.Defs
import Mathlib.Data.List.Range
import YamKernel.Lib.Machine

/-!
# TCP

`net/tcp.c`: the table of sockets, the state machine of a connection and the demultiplexing of
incoming segments. Addresses of this host, checksums, the window of the peer and the texts of
messages are left out. A call that sends gets the outcome of its allocations as an argument.
-/

namespace YamKernel.Tcp

open Function

def maxSockets : Nat := 32
def recvBufSize : Nat := 16384
def windowSize : UInt32 := 8192
def acceptSize : Nat := 8

inductive SockState where
  | closed | listen | synSent | synRcvd | established | finWait1 | finWait2 | closeWait
  | closing | lastAck | timeWait
  deriving DecidableEq, Repr

structure Sock where
  active : Bool
  state : SockState
  localPort : Nat
  remoteIp : Nat
  remotePort : Nat
  sndUna : UInt32
  sndNxt : UInt32
  sndIsn : UInt32
  rcvNxt : UInt32
  rcvIsn : UInt32
  recvBuf : Nat → UInt8
  recvHead : Nat
  recvTail : Nat
  waitingSynAck : Bool
  listening : Bool
  acceptQueue : Nat → Nat
  acceptHead : Nat
  acceptTail : Nat
  /-- The acknowledgement numbers sent so far, the newest first. -/
  acks : List UInt32
  /-- The number of the FIN, if it was sent. -/
  finSeq : Option UInt32

/-- A socket after `memset`. -/
def Sock.zero : Sock :=
  ⟨false, .closed, 0, 0, 0, 0, 0, 0, 0, 0, fun _ => 0, 0, 0, false, false, fun _ => 0, 0, 0, [],
    none⟩

structure Segment where
  srcIp : Nat
  srcPort : Nat
  dstPort : Nat
  fin : Bool
  syn : Bool
  rst : Bool
  ack : Bool
  seq : UInt32
  ackNum : UInt32
  data : List UInt8

/-! ## One connection -/

/-- `tcp_send_segment`; nothing happens without memory for the segment. -/
def tcpSendSegment (s : Sock) (syn fin ack : Bool) (len : Nat) (ok : Bool) : Sock :=
  if ok then { s with
    acks := if ack then s.rcvNxt :: s.acks else s.acks
    finSeq := if fin then some (s.sndNxt + UInt32.ofNat len + if syn then 1 else 0) else s.finSeq
    sndNxt := s.sndNxt + UInt32.ofNat len + (if syn then 1 else 0) + (if fin then 1 else 0) }
  else s

def receiveAck (s : Sock) (ackNum : UInt32) : Sock :=
  let s := if s.sndUna < ackNum then { s with sndUna := ackNum } else s
  match s.state with
  | .synRcvd => { s with state := .established }
  | .finWait1 => { s with state := .finWait2 }
  | .lastAck => { s with state := .closed, active := false }
  | _ => s

def copyData : List UInt8 → Sock → Sock
  | [], s => s
  | b :: bs, s =>
    let next := (s.recvHead + 1) % recvBufSize
    if next = s.recvTail then s
    else copyData bs { s with recvBuf := update s.recvBuf s.recvHead b, recvHead := next }

def receiveData (s : Sock) (g : Segment) (ok : Bool) : Sock :=
  if g.data ≠ [] ∧ s.state = .established then
    let s := if g.seq = s.rcvNxt then
        { copyData g.data s with rcvNxt := s.rcvNxt + UInt32.ofNat g.data.length }
      else s
    tcpSendSegment s false false true 0 ok
  else s

def receiveFin (s : Sock) (ok : Bool) : Sock :=
  let s := tcpSendSegment { s with rcvNxt := s.rcvNxt + 1 } false false true 0 ok
  match s.state with
  | .established => { s with state := .closeWait }
  | .finWait2 => { s with state := .closed, active := false }
  | _ => s

abbrev Completes (s : Sock) (g : Segment) : Prop := g.syn ∧ g.ack ∧ s.state = .synSent

/-- `tcp_receive` once the socket is found; `mem` are the outcomes of the allocations. -/
def connReceive (s : Sock) (g : Segment) (mem : Nat → Bool) : Sock :=
  if Completes s g then
    tcpSendSegment { s with
      rcvIsn := g.seq, rcvNxt := g.seq + 1, sndUna := g.ackNum, state := .established
      waitingSynAck := false } false false true 0 (mem 0)
  else
    let s := if g.ack then receiveAck s g.ackNum else s
    let s := receiveData s g (mem 0)
    let s := if g.fin then receiveFin s (mem 1) else s
    if g.rst then { s with state := .closed, active := false } else s

def avail (s : Sock) : Nat :=
  if s.recvTail ≤ s.recvHead then s.recvHead - s.recvTail
  else recvBufSize - s.recvTail + s.recvHead

/-- `tcp_recv` once it has stopped waiting: the bytes copied. -/
def tcpRecv (s : Sock) (maxLen : Nat) : List UInt8 × Sock :=
  let copy := if avail s < maxLen then avail s else maxLen
  let linear := recvBufSize - s.recvTail
  let cells := fun start n => (List.range n).map fun i => s.recvBuf (start + i)
  (if copy ≤ linear then cells s.recvTail copy
    else cells s.recvTail linear ++ cells 0 (copy - linear),
    { s with recvTail := (s.recvTail + copy) % recvBufSize })

/-! ## The table -/

structure Table where
  socks : Nat → Sock
  isnCounter : UInt32
  ephemeralPort : Nat

def Table.set (t : Table) (i : Nat) (s : Sock) : Table := { t with socks := update t.socks i s }

@[grind =]
lemma Table.set_socks (t : Table) (i j : Nat) (s : Sock) :
    (t.set i s).socks j = if j = i then s else t.socks j :=
  update_apply ..

def tcpFindSock (t : Table) (remoteIp remotePort localPort : Nat) : Option Nat :=
  (List.range maxSockets).find? fun i =>
    let s := t.socks i
    s.active ∧ s.localPort = localPort ∧ (s.remoteIp = remoteIp ∨ s.listening) ∧
      (s.remotePort = remotePort ∨ s.listening)

def tcpFindListener (t : Table) (localPort : Nat) : Option Nat :=
  (List.range maxSockets).find? fun i =>
    (t.socks i).active ∧ (t.socks i).listening ∧ (t.socks i).localPort = localPort

def tcpSocket (t : Table) : Option Nat × Table :=
  match (List.range maxSockets).find? fun i => ¬ (t.socks i).active with
  | none => (none, t)
  | some i => (some i, t.set i { Sock.zero with active := true })

/-- Who takes a segment: a socket that was found, or a listener that opens a connection. -/
inductive Handler where
  | sock (i : Nat)
  | passive (l : Nat)
  | none
  deriving DecidableEq

def handler (t : Table) (g : Segment) : Handler :=
  match tcpFindSock t g.srcIp g.srcPort g.dstPort with
  | some i => .sock i
  | none =>
    if g.syn ∧ ¬ g.ack then
      match tcpFindListener t g.dstPort with
      | some l => .passive l
      | none => .none
    else .none

def passiveOpen (t : Table) (g : Segment) (l : Nat) (mem : Nat → Bool) : Table :=
  match tcpSocket t with
  | (none, t) => t
  | (some n, t) =>
    let isn := t.isnCounter
    let t := { t with isnCounter := isn + 64521 }
    let t := t.set n (tcpSendSegment { t.socks n with
      localPort := g.dstPort, remoteIp := g.srcIp, remotePort := g.srcPort, rcvIsn := g.seq
      rcvNxt := g.seq + 1, sndIsn := isn, sndUna := isn, sndNxt := isn, state := .synRcvd }
      true false true 0 (mem 0))
    let ls := t.socks l
    let next := (ls.acceptHead + 1) % acceptSize
    if next ≠ ls.acceptTail then t.set l { ls with
      acceptQueue := update ls.acceptQueue ls.acceptHead n, acceptHead := next }
    else t

def tcpReceive (t : Table) (g : Segment) (mem : Nat → Bool) : Table :=
  match handler t g with
  | .sock i => t.set i (connReceive (t.socks i) g mem)
  | .passive l => passiveOpen t g l mem
  | .none => t

/-- `tcp_accept`, at once or after a wait; a blocking call does not look at `active` again. -/
def tcpAccept (t : Table) (l : Nat) (waited : Bool) : Option Nat × Table :=
  let ls := t.socks l
  if (waited ∨ ls.active) ∧ ls.acceptHead ≠ ls.acceptTail then
    (some (ls.acceptQueue ls.acceptTail),
      t.set l { ls with acceptTail := (ls.acceptTail + 1) % acceptSize })
  else (none, t)

def tcpListen (t : Table) (i port : Nat) : Table :=
  if (t.socks i).active then t.set i { t.socks i with
    localPort := port, listening := true, state := .listen, acceptHead := 0, acceptTail := 0 }
  else t

/-- `tcp_connect` up to its wait for the answer. -/
def tcpConnect (t : Table) (i dstIp dstPort : Nat) (ok : Bool) : Table :=
  if (t.socks i).active then
    let port := (t.ephemeralPort + 1) % 2 ^ 16
    Table.set ⟨t.socks, t.isnCounter + 64521, if port = 0 then 32768 else port⟩ i
      (tcpSendSegment { t.socks i with
        localPort := t.ephemeralPort, remoteIp := dstIp, remotePort := dstPort
        sndIsn := t.isnCounter, sndUna := t.isnCounter, sndNxt := t.isnCounter, state := .synSent
        waitingSynAck := true, finSeq := none } true false false 0 ok)
  else t

/-- `tcp_close` up to its wait for the end of the connection. -/
def tcpClose (t : Table) (i : Nat) (ok : Bool) : Table :=
  let s := t.socks i
  if s.active ∧ (s.state = .established ∨ s.state = .closeWait) then
    t.set i (tcpSendSegment { s with state := .finWait1 } false true true 0 ok)
  else t

def tcpClosed (t : Table) (i : Nat) : Table := t.set i { t.socks i with active := false }

end YamKernel.Tcp

import Mathlib.Data.Nat.Find
import YamKernel.Net.Tcp

/-!
# What a segment may do

Three laws of `tcp_receive`. A connection should believe a segment only if its numbers fit;
a segment should reach the connection of its sender before a listener; and a slot should stay
with the socket file that holds it. The code checks too little for each, and each theorem
gives the segments, tables or steps for which the law holds all the same.
-/

namespace YamKernel.Tcp

open Lib List Function

/-! ## The numbers of a segment -/

abbrev InOrder (s : Sock) (g : Segment) : Prop :=
  g.data ≠ [] ∧ g.seq = s.rcvNxt ∧ (s.state = .established ∨ s.state = .synRcvd ∧ g.ack)

/-- The number expected once the data of `g` is taken. -/
def afterData (s : Sock) (g : Segment) : UInt32 :=
  if InOrder s g then s.rcvNxt + UInt32.ofNat g.data.length else s.rcvNxt

/-- The FIN of `g` took effect: it was counted, or it closed the peer's half. -/
def FinTaken (s s' : Sock) (g : Segment) : Prop :=
  s'.rcvNxt = afterData s g + 1 ∨ s.state ≠ .closeWait ∧ s'.state = .closeWait ∨
    s.state = .finWait2 ∧ s'.state = .closed

/-- The connection was ended. -/
def Ended (s s' : Sock) : Prop :=
  (s.active ∨ s.state ≠ .closed) ∧ ¬ s'.active ∧ s'.state = .closed

/-- What `g` may change from `s` to `s'`. -/
structure SegmentLaw (s s' : Sock) (g : Segment) : Prop where
  connect : s.state = .synSent → s'.state = .established → g.ack ∧ g.ackNum = s.sndIsn + 1
  una : s'.sndUna - s.sndUna ≤ s.sndNxt - s.sndUna
  finAcked : s.state = .finWait1 → s'.state ≠ .finWait1 → ¬ g.rst →
    g.ack ∧ ∃ n, s.finSeq = some n ∧ g.ackNum = n + 1
  fin : g.fin → ¬ Completes s g → FinTaken s s' g →
    g.seq + UInt32.ofNat g.data.length = afterData s g
  rst : g.rst → Ended s s' → g.seq - s.rcvNxt < windowSize

/-- The numbers of `g` fit `s`. -/
structure Fits (s : Sock) (g : Segment) : Prop where
  connect : Completes s g → g.ackNum = s.sndIsn + 1
  una : g.ack → Completes s g ∨ s.sndUna < g.ackNum →
    g.ackNum - s.sndUna ≤ s.sndNxt - s.sndUna
  finAcked : g.ack → s.state = .finWait1 → ¬ g.rst → ∃ n, s.finSeq = some n ∧ g.ackNum = n + 1
  fin : g.fin → ¬ Completes s g →
    InOrder s g ∨ g.seq + UInt32.ofNat g.data.length = s.rcvNxt
  rst : g.rst → ¬ Completes s g → s.active ∨ s.state ≠ .closed → g.seq - s.rcvNxt < windowSize

variable {s s' : Sock} {g : Segment} {mem : Nat → Bool} {ok : Bool}

abbrev Frees (s : Sock) (g : Segment) : Prop :=
  ¬ Completes s g ∧ (g.rst ∨ g.ack ∧ s.state = .lastAck ∨
    g.fin ∧ (s.state = .finWait2 ∨ g.ack ∧ s.state = .finWait1))

lemma copyData_eq (bs : List UInt8) (s : Sock) : ∃ buf head, copyData bs s =
    { s with recvBuf := buf, recvHead := head } := by
  fun_induction copyData bs s with
  | case1 s => exact ⟨_, _, rfl⟩
  | case2 s => exact ⟨_, _, rfl⟩
  | case3 s b bs next hnext ih => exact ih

lemma receiveAck_spec {a : UInt32} (hs' : receiveAck s a = s') :
    (s'.sndUna = if s.sndUna < a then a else s.sndUna) ∧ s'.rcvNxt = s.rcvNxt ∧
    (s'.state = .established ↔ s.state = .established ∨ s.state = .synRcvd) ∧
    (s'.state = .finWait2 ↔ s.state = .finWait2 ∨ s.state = .finWait1) ∧
    (s'.active ↔ s.active ∧ s.state ≠ .lastAck) := by
  unfold receiveAck at hs'
  cases hs : s.state <;> grind

lemma receiveData_spec (hs' : receiveData s g ok = s') :
    s'.sndUna = s.sndUna ∧ s'.state = s.state ∧ s'.active = s.active ∧
    s'.rcvNxt = if g.data ≠ [] ∧ s.state = .established ∧ g.seq = s.rcvNxt then
        s.rcvNxt + UInt32.ofNat g.data.length
      else s.rcvNxt := by
  obtain ⟨buf, head, hcopy⟩ := copyData_eq g.data s
  rw [receiveData] at hs'
  grind [tcpSendSegment]

lemma receiveFin_spec (hs' : receiveFin s ok = s') :
    s'.sndUna = s.sndUna ∧ s'.rcvNxt = s.rcvNxt + 1 ∧ s'.state ≠ .established ∧
    (s'.state = .finWait1 ↔ s.state = .finWait1) ∧
    (s'.active ↔ s.active ∧ s.state ≠ .finWait2) := by
  unfold receiveFin at hs'
  cases hs : s.state <;> grind [tcpSendSegment]

section

variable (hs' : connReceive s g mem = s')
include hs'

lemma connReceive_of_completes (h : Completes s g) :
    s'.sndUna = g.ackNum ∧ s'.state = .established ∧ s'.active = s.active := by
  rw [← hs', connReceive]
  grind [tcpSendSegment]

lemma connReceive_of_not (h : ¬ Completes s g) :
    (s'.sndUna = if g.ack ∧ s.sndUna < g.ackNum then g.ackNum else s.sndUna) ∧
    (s'.rcvNxt = afterData s g + if g.fin then 1 else 0) ∧
    (s.state = .synSent → s'.state ≠ .established) ∧
    (s.state = .finWait1 → (s'.state = .finWait1 ↔ ¬ g.ack ∧ ¬ g.rst)) ∧
    (g.rst → s'.state = .closed ∧ ¬ s'.active) ∧ (s'.active ↔ s.active ∧ ¬ Frees s g) := by
  rw [connReceive, if_neg h] at hs'
  have := receiveAck_spec (s := s) (a := g.ackNum) rfl
  generalize hs₁ : (if g.ack then receiveAck s g.ackNum else s) = s₁ at hs'
  generalize hs₂ : receiveData s₁ g (mem 0) = s₂ at hs'
  generalize hs₃ : receiveFin s₂ (mem 1) = s₃ at hs'
  have := receiveData_spec hs₂
  have := receiveFin_spec hs₃
  refine ⟨?_, ?_, ?_, ?_, ?_, ?_⟩ <;> grind [afterData]

lemma connReceive_active : s'.active ↔ s.active ∧ ¬ Frees s g := by
  by_cases hc : Completes s g
  · grind [connReceive_of_completes hs' hc]
  · exact (connReceive_of_not hs' hc).2.2.2.2.2

end

/-- The law holds of exactly the segments whose numbers fit. -/
theorem segmentLaw_iff (s : Sock) (g : Segment) (mem : Nat → Bool) :
    SegmentLaw s (connReceive s g mem) g ↔ Fits s g := by
  by_cases hc : Completes s g
  · obtain ⟨huna, hstate, -⟩ := connReceive_of_completes (refl (connReceive s g mem)) hc
    constructor
    · intro h
      constructor <;> grind [SegmentLaw]
    · intro h
      constructor <;> grind [Fits, Ended]
  · obtain ⟨huna, hnxt, hsent, hwait, hrst, -⟩ :=
      connReceive_of_not (refl (connReceive s g mem)) hc
    constructor
    · intro h
      constructor
      · grind
      · grind [h.una]
      · grind [h.finAcked]
      · intro hf _
        have := h.fin hf hc (.inl (by grind))
        grind [afterData]
      · exact fun hr _ hopen => h.rst hr ⟨hopen, (hrst hr).2, (hrst hr).1⟩
    · intro h
      constructor
      · grind
      · grind [h.una]
      · intro hs hleft hr
        have hack : g.ack = true := by grind
        exact ⟨hack, h.finAcked hack hs hr⟩
      · grind [h.fin, afterData]
      · exact fun hr hend => h.rst hr hc hend.1

def connecting : Sock :=
  { Sock.zero with active := true, state := .synSent, localPort := 32768, remoteIp := 1
                   remotePort := 80, sndNxt := 1 }

/-- A SYN-ACK for a SYN that was never sent. -/
def forgedSynAck : Segment := ⟨1, 80, 32768, false, true, false, true, 0, 7, []⟩

theorem forgedSynAck_connects :
    ¬ SegmentLaw connecting (connReceive connecting forgedSynAck fun _ => true) forgedSynAck := by
  intro h
  exact absurd (h.connect rfl (connReceive_of_completes rfl (by decide)).2.1).2 (by decide)

/-! ## The socket of a segment -/

def Exact (t : Table) (g : Segment) (i : Nat) : Prop :=
  i < maxSockets ∧ (t.socks i).active ∧ ¬ (t.socks i).listening ∧
    (t.socks i).remoteIp = g.srcIp ∧ (t.socks i).remotePort = g.srcPort ∧
    (t.socks i).localPort = g.dstPort

def Listens (t : Table) (g : Segment) (l : Nat) : Prop :=
  l < maxSockets ∧ (t.socks l).active ∧ (t.socks l).listening ∧
    (t.socks l).localPort = g.dstPort

def BareSyn (g : Segment) : Prop := g.syn ∧ ¬ g.ack

/-- The connection that `g` opened in `t`, as `t'` has it. -/
def Opened (t t' : Table) (g : Segment) (l n : Nat) : Prop :=
  (t'.socks n).active ∧ (t'.socks n).state = .synRcvd ∧ (t'.socks n).remoteIp = g.srcIp ∧
  (t'.socks n).remotePort = g.srcPort ∧ (t'.socks n).localPort = g.dstPort ∧
  -- the acknowledgement of the SYN-ACK makes it the next one accepted
  ((t.socks l).acceptHead = (t.socks l).acceptTail → ∀ mem seq,
    (tcpAccept (tcpReceive t' { g with
      syn := false, ack := true, seq := seq, ackNum := (t'.socks n).sndIsn + 1 } mem) l false).1 =
        some n)

structure DemuxLaw (t : Table) (g : Segment) (mem : Nat → Bool) : Prop where
  exact : (∃ i, Exact t g i) → ∃ i, Exact t g i ∧ handler t g = .sock i
  listener : ¬ (∃ i, Exact t g i) → BareSyn g → (∃ l, Listens t g l) →
    ∃ l, Listens t g l ∧ handler t g = .passive l
  none : ¬ (∃ i, Exact t g i) → ¬ (BareSyn g ∧ ∃ l, Listens t g l) → handler t g = .none
  opens : ¬ (∃ i, Exact t g i) → BareSyn g → (∃ l, Listens t g l) →
    (∃ i < maxSockets, ¬ (t.socks i).active) →
    ∃ l n, Listens t g l ∧ Opened t (tcpReceive t g mem) g l n

variable {t : Table} {i : Nat}

/-- The scan stops at the first socket that is either. -/
theorem handler_eq_sock : handler t g = .sock i ↔
    (Exact t g i ∨ Listens t g i) ∧ ∀ j < i, ¬ (Exact t g j ∨ Listens t g j) := by
  have hfind : handler t g = .sock i ↔ tcpFindSock t g.srcIp g.srcPort g.dstPort = some i := by
    grind [handler]
  rw [hfind, tcpFindSock, find?_range_eq_some]
  grind [Exact, Listens]

lemma exists_handler (h : Exact t g i ∨ Listens t g i) : ∃ j ≤ i, handler t g = .sock j := by
  classical
  have hex : ∃ j, Exact t g j ∨ Listens t g j := ⟨i, h⟩
  exact ⟨Nat.find hex, Nat.find_min' hex h,
    handler_eq_sock.2 ⟨Nat.find_spec hex, fun _ hj => Nat.find_min hex hj⟩⟩

/-- No segment opens a connection: the scan finds the listener itself. -/
theorem handler_ne_passive (t : Table) (g : Segment) (l : Nat) : handler t g ≠ .passive l := by
  intro h
  have hl : tcpFindListener t g.dstPort = some l := by grind [handler]
  rw [tcpFindListener] at hl
  have hlistens : Listens t g l := by grind [Listens]
  obtain ⟨j, -, hj⟩ := exists_handler (.inr hlistens)
  simp [hj] at h

/-- The law holds exactly if the sender's connection comes before every listener on the port. -/
theorem demuxLaw_iff (t : Table) (g : Segment) (mem : Nat → Bool) :
    DemuxLaw t g mem ↔ ∀ l, Listens t g l → ∃ i < l, Exact t g i := by
  constructor
  · intro h l hl
    obtain ⟨j, hjl, hj⟩ := exists_handler (.inr hl)
    by_cases he : ∃ i, Exact t g i
    · obtain ⟨i, hi, hsock⟩ := h.exact he
      grind [Exact, Listens]
    · by_cases hb : BareSyn g
      · grind [h.listener he hb ⟨l, hl⟩]
      · grind [h.none he (fun h => hb h.1)]
  · intro h
    have hnone : ¬ (∃ i, Exact t g i) → ¬ ∃ l, Listens t g l := by grind
    constructor
    · rintro ⟨i, hi⟩
      obtain ⟨j, -, hj⟩ := exists_handler (.inl hi)
      exact ⟨j, by grind [handler_eq_sock.1 hj], hj⟩
    · exact fun he _ hl => absurd hl (hnone he)
    · intro he _
      cases hh : handler t g with
      | none => rfl
      | sock j => grind [handler_eq_sock.1 hh]
      | passive l => exact absurd hh (handler_ne_passive t g l)
    · exact fun he _ hl => absurd hl (hnone he)

def listenerTable : Table :=
  ⟨fun i => if i = 0 then { Sock.zero with
      active := true, state := .listen, listening := true, localPort := 80 }
    else Sock.zero, 0, 32768⟩

/-- The SYN is taken by the listener as if it were the connection. -/
theorem syn_opens_nothing :
    ¬ DemuxLaw listenerTable ⟨1, 2, 80, false, true, false, false, 0, 0, []⟩ fun _ => true := by
  intro h
  obtain ⟨l, -, hl⟩ := h.listener (by grind [Exact, listenerTable, Sock.zero])
    (by simp [BareSyn]) ⟨0, by simp [Listens, listenerTable, maxSockets]⟩
  exact handler_ne_passive _ _ l hl

/-! ## The files of a slot -/

/-- The slots of the open socket files and of the calls of `tcp_close` that wait. -/
structure Net where
  table : Table
  files : List Nat
  closing : List Nat

def Net.init : Net := ⟨⟨fun _ => Sock.zero, 0xDEAD0001, 32768⟩, [], []⟩

/-- System calls on the `f`-th open file, the end of a wait, and segments. A flag `ok` says
whether memory and descriptors suffice. -/
inductive NetOp where
  | socket (ok : Bool)
  | connect (f dstIp dstPort : Nat) (ok : Bool)
  | listen (f port : Nat)
  | accept (f : Nat) (waited ok : Bool)
  | close (f : Nat) (ok : Bool)
  | closed (k : Nat)
  | segment (g : Segment) (mem : Nat → Bool)

/-- `tcp_close`, which waits if the slot is active. -/
def Net.close (n : Net) (i : Nat) (ok : Bool) : Net :=
  if (n.table.socks i).active then
    { n with table := tcpClose n.table i ok, closing := i :: n.closing }
  else n

/-- `socket_wrap_tcp_fd`. -/
def Net.wrap (n : Net) (i : Nat) (ok : Bool) : Net :=
  if ok then { n with files := i :: n.files } else n.close i ok

def netStep : Machine Net NetOp Unit := fun n op => ((), match op with
  | .socket ok => match tcpSocket n.table with
    | (none, _) => n
    | (some i, t) => { n with table := t }.wrap i ok
  | .connect f dstIp dstPort ok => match n.files[f]? with
    | none => n
    | some i => { n with table := tcpConnect n.table i dstIp dstPort ok }
  | .listen f port => match n.files[f]? with
    | none => n
    | some i => if port = 0 then n else { n with table := tcpListen n.table i port }
  | .accept f waited ok => match n.files[f]? with
    | none => n
    | some i => match tcpAccept n.table i waited with
      | (none, _) => n
      | (some c, t) => { n with table := t }.wrap c ok
  | .close f ok => match n.files[f]? with
    | none => n
    | some i => { n with files := n.files.eraseIdx f }.close i ok
  | .closed k => match n.closing[k]? with
    | none => n
    | some i => { n with table := tcpClosed n.table i, closing := n.closing.eraseIdx k }
  | .segment g mem => { n with table := tcpReceive n.table g mem })

/-- The step takes no slot from an open file: the segment does not end its connection, and
the call of `tcp_close` that returns was not left with a slot that has a new file. -/
def Keeps (n : Net) : NetOp → Prop
  | .segment g _ => ∀ i ∈ n.files, handler n.table g = .sock i → ¬ Frees (n.table.socks i) g
  | .closed k => ∀ i, n.closing[k]? = some i → i ∉ n.files
  | _ => True

structure Held (n : Net) : Prop where
  nodup : n.files.Nodup
  active : ∀ i ∈ n.files, (n.table.socks i).active
  /-- No connection waits to be accepted. -/
  empty : ∀ i, (n.table.socks i).acceptHead = (n.table.socks i).acceptTail

variable {n : Net}

lemma connReceive_accept : (connReceive s g mem).acceptHead = s.acceptHead ∧
    (connReceive s g mem).acceptTail = s.acceptTail := by
  have hack (a) : (receiveAck s a).acceptHead = s.acceptHead ∧
      (receiveAck s a).acceptTail = s.acceptTail := by grind [receiveAck]
  have hdata (s ok) : (receiveData s g ok).acceptHead = s.acceptHead ∧
      (receiveData s g ok).acceptTail = s.acceptTail := by
    obtain ⟨buf, head, hcopy⟩ := copyData_eq g.data s
    rw [receiveData]
    grind [tcpSendSegment]
  have hfin (s ok) : (receiveFin s ok).acceptHead = s.acceptHead ∧
      (receiveFin s ok).acceptTail = s.acceptTail := by grind [receiveFin, tcpSendSegment]
  unfold connReceive
  grind [tcpSendSegment]

/-- A step that changes one slot and opens no file. -/
theorem Held.of_slot {n' : Net} (h : Held n) (i : Nat) (hfiles : n'.files <+ n.files)
    (hsame : ∀ j ≠ i, n'.table.socks j = n.table.socks j)
    (hactive : i ∈ n'.files → (n'.table.socks i).active)
    (hempty : (n'.table.socks i).acceptHead = (n'.table.socks i).acceptTail) : Held n' := by
  constructor
  · exact h.nodup.sublist hfiles
  · intro j hj
    grind [h.active j (hfiles.subset hj)]
  · intro j
    grind [h.empty j]

lemma Held.close (h : Held n) {i : Nat} (ok : Bool) : Held (n.close i ok) := by
  refine h.of_slot i ?_ ?_ ?_ ?_ <;> grind [Net.close, tcpClose, tcpSendSegment, Held]

lemma Held.step (h : Held n) (op : NetOp) (hk : Keeps n op) : Held (netStep n op).2 := by
  have hsend (s : Sock) (a b c d ok) : (tcpSendSegment s a b c d ok).active = s.active ∧
      (tcpSendSegment s a b c d ok).acceptHead = s.acceptHead ∧
      (tcpSendSegment s a b c d ok).acceptTail = s.acceptTail := by grind [tcpSendSegment]
  cases op with
  | socket ok =>
    simp only [netStep, tcpSocket]
    cases hfind : (range maxSockets).find? fun i => ¬ (n.table.socks i).active with
    | none => exact h
    | some i =>
      have hfree : i ∉ n.files := by
        grind [h.active i]
      have hnew : Held { n with table := n.table.set i { Sock.zero with active := true } } := by
        refine h.of_slot i (Sublist.refl _) ?_ ?_ ?_ <;> grind [Sock.zero]
      cases ok with
      | false => exact hnew.close false
      | true =>
        refine ⟨nodup_cons.2 ⟨hfree, h.nodup⟩, fun j hj => ?_, hnew.empty⟩
        rcases mem_cons.1 hj with rfl | hj
        · simp [Net.wrap, Table.set_socks]
        · exact hnew.active j hj
  | connect f dstIp dstPort ok =>
    simp only [netStep]
    split
    · exact h
    next i hi =>
      refine h.of_slot i (Sublist.refl _) ?_ ?_ ?_ <;> grind [tcpConnect, Held]
  | listen f port =>
    simp only [netStep]
    split
    · exact h
    next i hi =>
      refine h.of_slot i ?_ ?_ ?_ ?_ <;> grind [tcpListen, Held]
  | accept f waited ok =>
    have : ∀ i, tcpAccept n.table i waited = (none, n.table) := by grind [tcpAccept, h.empty]
    simp only [netStep]
    grind
  | close f ok =>
    simp only [netStep]
    split
    · exact h
    · have hrest : Held { n with files := n.files.eraseIdx f } :=
        ⟨h.nodup.sublist (eraseIdx_sublist ..), fun i hi => h.active i (mem_of_mem_eraseIdx hi),
          h.empty⟩
      exact hrest.close ok
  | closed k =>
    simp only [netStep]
    split
    · exact h
    next i hi =>
      refine h.of_slot i (Sublist.refl _) ?_ ?_ ?_ <;> grind [tcpClosed, Held, Keeps]
  | segment g mem =>
    cases hh : handler n.table g with
    | none => simpa [netStep, tcpReceive, hh] using h
    | passive l => exact absurd hh (handler_ne_passive _ _ l)
    | sock i =>
      simp only [netStep, tcpReceive, hh]
      refine h.of_slot i (Sublist.refl _) (by grind) (fun hi => ?_)
        (by grind [connReceive_accept, h.empty i])
      rw [Table.set_socks, if_pos rfl, connReceive_active rfl]
      exact ⟨h.active i hi, hk i hi hh⟩

/-- While no step takes a slot from an open file, every open file has a slot of its own. -/
theorem files_nodup (ops : List NetOp) (h : netStep.Along Keeps Net.init ops) :
    (netStep.run Net.init ops).files.Nodup ∧
      ∀ i ∈ (netStep.run Net.init ops).files,
        ((netStep.run Net.init ops).table.socks i).active := by
  have hheld : Held (netStep.run Net.init ops) :=
    Machine.run_invariant (fun n op hn hk => hn.step op hk) ⟨by simp [Net.init],
      by simp [Net.init], fun _ => rfl⟩ h
  exact ⟨hheld.nodup, hheld.active⟩

/-- A connection is opened and answered by `g`; then comes another socket. -/
def twoSockets (g : Segment) : List NetOp :=
  [.socket true, .connect 0 1 80 true, .segment g fun _ => true, .socket true]

theorem files_nodup_twoSockets :
    (netStep.run Net.init (twoSockets { forgedSynAck with ackNum := 0xDEAD0002 })).files.Nodup :=
  (files_nodup (twoSockets _) ⟨trivial, trivial, by simp only [Keeps]; decide, trivial, trivial⟩).1

/-- After a reset the slot of the first file is given to the second. -/
theorem reset_shares_slot :
    ¬ (netStep.run Net.init
      (twoSockets { forgedSynAck with rst := true, syn := false })).files.Nodup := by
  decide

end YamKernel.Tcp

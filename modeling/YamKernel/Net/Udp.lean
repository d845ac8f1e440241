import Mathlib.Algebra.GroupWithZero.Nat
import Mathlib.Data.List.Range
import YamKernel.Lib.Machine

/-!
# The UDP sockets of the resolver and the DHCP client

Every query takes a socket, and none is given back.
-/

namespace YamKernel.Udp

open Lib List

def udpMaxSockets : Nat := 32

/-- The ports of the active sockets. -/
structure State where
  socks : Nat → Option Nat := fun _ => none
  ephemeralPort : Nat := 49152

def udpSocket (s : State) : Option Nat × State :=
  match (range udpMaxSockets).find? fun i => s.socks i = none with
  | some i => (some i, { socks := Function.update s.socks i (some s.ephemeralPort)
                         ephemeralPort := if s.ephemeralPort = 65535 then 49152
                           else s.ephemeralPort + 1 })
  | none => (none, s)

def udpBind (s : State) (fd : Option Nat) (port : Nat) : State :=
  match fd with
  | some i => if i < udpMaxSockets ∧ s.socks i ≠ none then
      { s with socks := Function.update s.socks i (some port) } else s
  | none => s

/-- Whether `udp_sendto` sends; memory is to be had. -/
def udpSendto (s : State) (fd : Option Nat) : Bool :=
  match fd with
  | some i => i < udpMaxSockets ∧ s.socks i ≠ none
  | none => false

/-- A query from `port`: `udp_socket`, `udp_bind`, `udp_sendto`. -/
def query (s : State) (port : Nat) : Bool × State :=
  let (fd, s) := udpSocket s
  let s := udpBind s fd port
  (udpSendto s fd, s)

inductive Call where
  | dnsResolve
  | dhcpStart

/-- With a server that answers every query `dns_resolve` returns its answer if the query was
sent, and `dhcp_start` sends a DISCOVER and, when that was answered, a REQUEST. -/
def step : Machine State Call Bool
  | s, .dnsResolve => query s 1053
  | s, .dhcpStart =>
    let (sent, s) := query s 68
    if sent then query s 68 else (false, s)

def Call.sockets : Call → Nat
  | .dnsResolve => 1
  | .dhcpStart => 2

/-- The first `n` sockets are active. -/
def Taken (n : Nat) (s : State) : Prop := ∀ i < udpMaxSockets, s.socks i ≠ none ↔ i < n

variable {n p : Nat} {s : State}

lemma query_taken (h : Taken n s) :
    (query s p).1 = decide (n < udpMaxSockets) ∧ Taken (n + 1) (query s p).2 := by
  by_cases hn : n < udpMaxSockets
  · have hfind : (range udpMaxSockets).find? (fun i => s.socks i = none) = some n := by
      simp only [find?_range_eq_some, decide_eq_true_eq]
      refine ⟨?_, by simpa using hn, fun j hj => ?_⟩ <;> grind [Taken]
    simp only [query, udpSocket, hfind, udpBind, udpSendto, Function.update_self]
    refine ⟨by simp [hn], fun i hi => ?_⟩
    by_cases hin : i = n
    · simp [hn, hin]
    · simpa [hn, hin] using (h i hi).trans (by omega : i < n ↔ i < n + 1)
  · have hfind : (range udpMaxSockets).find? (fun i => s.socks i = none) = none := by
      simp only [find?_eq_none, mem_range, decide_eq_true_eq]
      exact fun i hi => (h i hi).mpr (by omega)
    simp only [query, udpSocket, hfind, udpBind, udpSendto]
    exact ⟨by simp [hn], fun i hi => by grind [Taken]⟩

lemma taken_run (calls : List Call) (h : Taken n s) :
    Taken (n + (calls.map Call.sockets).sum) (step.run s calls) := by
  induction calls generalizing n s with
  | nil => exact h
  | cons c calls ih =>
    rw [map_cons, sum_cons, ← Nat.add_assoc]
    refine ih ?_
    cases c with
    | dnsResolve => exact (query_taken h).2
    | dhcpStart =>
      have hfirst := query_taken (p := 68) h
      simp only [step, hfirst.1, decide_eq_true_eq]
      split
      · exact (query_taken hfirst.2).2
      · exact fun i hi => by grind [Taken, Call.sockets, hfirst.2 i hi]

/-- A name is resolved as long as the calls before it took fewer than 32 sockets. -/
theorem resolves_iff (calls : List Call) :
    (step (step.run {} calls) .dnsResolve).1 ↔ (calls.map Call.sockets).sum < udpMaxSockets := by
  have h := taken_run calls (n := 0) (s := {}) (by simp [Taken])
  rw [Nat.zero_add] at h
  exact (congrArg (· = true) (query_taken h).1).to_iff.trans decide_eq_true_iff

theorem resolver_exhausted :
    ¬ (step (step.run {} (replicate 32 .dnsResolve)) .dnsResolve).1 := by
  have h := taken_run (replicate 32 .dnsResolve) (n := 0) (s := {}) (by simp [Taken])
  have := (query_taken (p := 1053) h).1
  simpa [step, Call.sockets, udpMaxSockets] using this

end YamKernel.Udp

import Mathlib.Data.List.OfFn
import YamKernel.Cpu.Syscall

/-!
# Where system calls store

The kernel half of the address space begins at 2^47. `deliver_pending_signals` looks at the
pointer it stores through, and the other handlers do not: a call stays below the limit exactly
where each object it hands out fits below the limit at the place user mode asked for.
-/

namespace YamKernel.Syscall

open Lib List Option

def userLimit : Nat := 0x0000800000000000

/-- All stores recorded so far touch the user half only. -/
def Kernel.Low {σ : Type} (k : Kernel σ) : Prop :=
  ∀ st ∈ k.stores, ∀ a, st.Touches a → a < userLimit

/-- `n` bytes at `p` end below the kernel half. -/
def Fits (p n : Nat) : Prop := n = 0 ∨ p + n ≤ userLimit

/-- `n` bytes at `p`, where a null pointer asks for nothing. -/
def FitsOut (p n : Nat) : Prop := p = 0 ∨ Fits p n

/-! ### Sizes -/

@[simp] theorem length_le (w v : Nat) : (le w v).length = w := by simp [le]

@[simp] theorem length_leInt (w : Nat) (v : Int) : (leInt w v).length = w := length_le w _

@[simp] theorem length_text (n : Nat) (s : List UInt8) : (text n s).length = n := by
  simp only [text, length_append, length_take, length_replicate]
  omega

@[simp] theorem YamStat.length_bytes (s : YamStat) : s.bytes.length = 88 := by simp [bytes]

@[simp] theorem VfsDirent.length_bytes (d : VfsDirent) : d.bytes.length = 208 := by simp [bytes]

lemma length_array (n w : Nat) (f : Fin n → Nat) :
    (ofFn fun i => le w (f i)).flatten.length = n * w := by
  simp [Function.comp_def]

@[simp] theorem SchedInfo.length_bytes (s : SchedInfo) : s.bytes.length = 232 := by
  unfold bytes
  simp only [length_append, length_le, length_array]

@[simp] theorem Task.length_rusage (t : Task) : t.rusage.length = 88 := by simp [rusage]

@[simp] theorem length_osInfo (n : Nat) : (osInfo n).length = 88 := by
  simp [osInfo]

@[simp] theorem length_sigactionBytes (h m : Nat) : (sigactionBytes h m).length = 32 := by
  simp [sigactionBytes]

@[simp] theorem Message.length_bytes (m : Message) : m.bytes.length = 272 := by
  simp [bytes, m.data.2]

/-! ### Single stores -/

variable {σ : Type} {k k' : Kernel σ} {p n : Nat} {b : List UInt8}

lemma fits_iff (hp : p < 2 ^ 64) : Fits p n ↔ ∀ i < n, u64 (p + i) < userLimit := by
  unfold Fits u64 userLimit
  constructor
  · omega
  · intro h
    by_contra hc
    -- the first byte, or the byte at itself
    by_cases p < 0x0000800000000000
    · have := h (0x0000800000000000 - p) (by omega)
      omega
    · have := h 0 (by omega)
      omega

lemma low_congr (h : k'.stores = k.stores) : k'.Low ↔ k.Low := by
  unfold Kernel.Low
  rw [h]

@[simp] theorem low_await : (k.await k').Low ↔ k.Low := .rfl

lemma low_setSlots (sl : Option Slots) : Kernel.Low { k with slots := sl } ↔ k.Low := .rfl

lemma low_setCurrent (t : Task) : Kernel.Low { k with current := t } ↔ k.Low := .rfl

lemma low_store (hp : p < 2 ^ 64) : (k.store p b).Low ↔ k.Low ∧ Fits p b.length := by
  have hone : (∀ a, Store.Touches ⟨p, b⟩ a → a < userLimit) ↔ Fits p b.length := by
    rw [fits_iff hp]
    exact ⟨fun h i hi => h _ ⟨i, hi, rfl⟩, fun h a ⟨i, hi, ha⟩ => ha ▸ h i hi⟩
  simp [Kernel.Low, Kernel.store, or_imp, forall_and, hone]

lemma low_store_again (hp : p < 2 ^ 64) (h : k.Low → Fits p b.length) :
    (k.store p b).Low ↔ k.Low := by
  rw [low_store hp]
  exact and_iff_left_of_imp h

lemma low_copyToUser (hp : p < 2 ^ 64) : (copyToUser p b k).2.Low ↔ k.Low ∧ FitsOut p b.length := by
  unfold copyToUser FitsOut
  split_ifs with h
  · rcases h with h | h <;> simp [h, Fits]
  · rw [low_store hp]
    tauto

lemma low_storeOut (hp : p < 2 ^ 64) :
    (if p = 0 then k else k.store p b).Low ↔ k.Low ∧ FitsOut p b.length := by
  unfold FitsOut
  split_ifs with h
  · simp [h]
  · rw [low_store hp]
    tauto

/-! ### Signals -/

lemma fits_rsp (h : userRspPlausible p = true) : p < 2 ^ 64 ∧ Fits p 8 := by
  simp only [userRspPlausible, decide_eq_true_eq] at h
  unfold Fits userLimit
  omega

lemma low_push {rip : Nat} (hrsp : userRspPlausible p = true) (hk : k'.stores = k.stores) :
    (copyToUser p (le 8 rip) k').2.Low ↔ k.Low := by
  obtain ⟨hlt, hfits⟩ := fits_rsp hrsp
  have hout : FitsOut p 8 := .inr hfits
  rw [low_copyToUser hlt, length_le, and_iff_left hout]
  exact low_congr hk

lemma low_deliverSignals (sigs : List Nat) (sl : Slots) (k : Kernel σ) :
    (deliverSignals sigs sl k).Low ↔ k.Low := by
  induction sigs generalizing k with
  | nil => rfl
  | cons sig sigs ih =>
    unfold deliverSignals
    dsimp only
    iterate 2
      split
      · exact ih k
    iterate 2
      split
      · exact (ih _).trans (low_congr rfl)
    next hrsp =>
      split
      · exact (ih _).trans (low_push (not_not.mp hrsp) rfl)
      · rw [low_setSlots]
        exact low_push (not_not.mp hrsp) rfl

lemma low_deliverPendingSignals (k : Kernel σ) : (deliverPendingSignals k).Low ↔ k.Low := by
  unfold deliverPendingSignals
  split_ifs
  · rfl
  · cases k.slots with
    | none => rfl
    | some sl => exact low_deliverSignals _ sl k

/-! ### Polling -/

section Polling

variable {sv : Services σ} {fds nfds readfds writefds i : Nat} {timeout : Int}
  {α : Type} {pass : Kernel σ → (Nat × α) × Kernel σ}

lemma reventsAddr_lt (fds i : Nat) : reventsAddr fds i < 2 ^ 64 := u64_lt _

lemma low_orRevents (flag : Nat) (h : k.Low → Fits (reventsAddr fds i) 2) :
    (orRevents fds i flag k).Low ↔ k.Low := by
  unfold orRevents
  split_ifs
  · exact low_store_again (reventsAddr_lt fds i) (by simpa using h)
  · rfl

/-- An entry's `revents` is cleared first, so that it is touched whatever follows. -/
theorem low_pollEntry : (pollEntry sv fds i k).2.Low ↔ k.Low ∧ Fits (reventsAddr fds i) 2 := by
  have hclear := low_store (k := k) (b := le 2 0) (reventsAddr_lt fds i)
  rw [length_le] at hclear
  unfold pollEntry
  dsimp only
  generalize k.store (reventsAddr fds i) (le 2 0) = k₁ at *
  have hfit : k₁.Low → Fits (reventsAddr fds i) 2 := fun h => (hclear.mp h).2
  rw [← hclear]
  split
  · rfl
  split
  · exact low_store_again (reventsAddr_lt fds i) (by simpa using hfit)
  · have hin := low_orRevents pollIn hfit
    exact (low_orRevents pollOut fun h => hfit (hin.mp h)).trans hin
  · rfl

lemma low_pollPass : (pollPass sv fds nfds k).2.Low ↔
    k.Low ∧ ∀ i < nfds, Fits (reventsAddr fds i) 2 := by
  have hloop : ∀ (l : List Nat) (r : Nat × Kernel σ),
      (l.foldl (fun r i => let e := pollEntry sv fds i r.2; (r.1 + e.1, e.2)) r).2.Low ↔
        r.2.Low ∧ ∀ i ∈ l, Fits (reventsAddr fds i) 2 := by
    intro l
    induction l with
    | nil => simp
    | cons i l ih =>
      intro r
      rw [foldl_cons, ih, low_pollEntry, forall_mem_cons, and_assoc]
  unfold pollPass
  simpa only [mem_range] using hloop (range nfds) (0, k)

/-- Later passes touch what the first one touched. -/
theorem low_pollLoop {P : Prop}
    (hpass : ∀ k, (pass k).2.Low ↔ k.Low ∧ P) (timeout : Int) (deadline fuel : Nat) (k : Kernel σ) :
    (pollLoop sv pass timeout deadline fuel k).2.Low ↔ k.Low ∧ P := by
  induction fuel generalizing k with
  | zero =>
    unfold pollLoop
    dsimp only
    split_ifs <;> exact hpass k
  | succ fuel ih =>
    unfold pollLoop
    dsimp only
    split_ifs
    iterate 3 exact hpass k
    · rw [ih, low_await, hpass, and_assoc, and_self_iff]

lemma low_sysPoll {fuel : Nat} : (sysPoll sv fuel fds nfds timeout k).2.Low ↔
      k.Low ∧ (fds = 0 ∨ ∀ i < nfds, Fits (reventsAddr fds i) 2) := by
  unfold sysPoll
  split_ifs with h
  · rcases h with h | h <;> simp [h]
  · rw [low_pollLoop fun _ => low_pollPass]
    simp [(not_or.mp h).1]

lemma low_yfdsSet {u fd : Nat} (hfd : fd < 128) (h : k.Low → Fits u 16) :
    (yfdsSet u k fd).Low ↔ k.Low := by
  refine low_store_again (u64_lt _) fun hk => ?_
  have := h hk
  rw [length_le]
  unfold Fits userLimit u64 at *
  omega

lemma low_storeFds {u events : Nat} {pfds : List PollFd} (hu : u < 2 ^ 64)
    (hfd : ∀ p ∈ pfds, p.fd < 128) : (storeFds u events pfds k).Low ↔ k.Low ∧ FitsOut u 16 := by
  have hloop : ∀ (l : List Nat) (k : Kernel σ), (∀ fd ∈ l, fd < 128) → (k.Low → Fits u 16) →
      ((l.foldl (yfdsSet u) k).Low ↔ k.Low) := by
    intro l
    induction l with
    | nil => exact fun _ _ _ => .rfl
    | cons fd l ih =>
      intro k hl hk
      have hset := low_yfdsSet (hl fd (by simp)) hk
      exact (ih _ (fun x hx => hl x (by simp [hx])) fun h => hk (hset.mp h)).trans hset
  unfold storeFds FitsOut
  split_ifs with h0
  · simp [h0]
  · have hclear := low_store (k := k) (b := replicate 16 0) hu
    rw [hloop _ _ ?_ fun h => (hclear.mp h).2, hclear]
    · simp [h0]
    · intro fd hfd'
      obtain ⟨p, hp, rfl⟩ := mem_map.mp hfd'
      exact hfd p (mem_filter.mp hp).1

lemma pollLoop_result {Q : α → Prop}
    (hpass : ∀ k, Q (pass k).1.2) (timeout : Int) (deadline fuel : Nat) (k : Kernel σ) {r : Nat × α}
    (hr : (pollLoop sv pass timeout deadline fuel k).1 = some r) : Q r.2 := by
  induction fuel generalizing k with
  | zero =>
    unfold pollLoop at hr
    dsimp only at hr
    split_ifs at hr <;> exact some.inj hr ▸ hpass k
  | succ fuel ih =>
    unfold pollLoop at hr
    dsimp only at hr
    split_ifs at hr
    iterate 3 exact some.inj hr ▸ hpass k
    · exact ih _ hr

def selectPoll (sv : Services σ) (fuel : Nat) (nfds : Int) (readfds writefds : Nat)
    (timeout : Int) (k : Kernel σ) : Option (Nat × List PollFd) × Kernel σ :=
  pollLoop sv (selectPass sv (selectFds nfds.toNat (fdSet k readfds) (fdSet k writefds))) timeout
    (pollDeadline sv timeout k) fuel k

lemma low_selectPoll (sv : Services σ) (fuel : Nat) (nfds : Int) (readfds writefds : Nat)
    (timeout : Int) (k : Kernel σ) :
    (selectPoll sv fuel nfds readfds writefds timeout k).2.Low ↔ k.Low := by
  have hpass : ∀ pfds k, (selectPass sv pfds k).2.Low ↔ k.Low ∧ True :=
    fun _ k => (and_iff_left trivial).symm
  exact (low_pollLoop (hpass _) _ _ _ _).trans (and_iff_left trivial)

lemma selectPoll_fd {sv : Services σ} {fuel : Nat} {nfds : Int} {k : Kernel σ}
    {r : Nat × List PollFd} (hn : nfds ≤ 128)
    (hr : (selectPoll sv fuel nfds readfds writefds timeout k).1 = some r) :
    ∀ p ∈ r.2, p.fd < 128 := by
  refine pollLoop_result (Q := fun l => ∀ p ∈ l, p.fd < 128) (fun k' p hp => ?_) _ _ _ _ hr
  obtain ⟨q, hq, rfl⟩ := mem_map.mp hp
  obtain ⟨i, hi, hi'⟩ := mem_filterMap.mp hq
  have hfd : q.fd < 128 := by
    have := mem_range.mp hi
    split at hi'
    · obtain rfl := some.inj hi'
      dsimp only
      omega
    · cases hi'
  unfold PollFd.poll
  split <;> exact hfd

lemma low_sysSelectUser {fuel : Nat} {nfds : Int} (hr : readfds < 2 ^ 64) (hw : writefds < 2 ^ 64) :
    (sysSelectUser sv fuel nfds readfds writefds timeout k).2.Low ↔
      k.Low ∧ (nfds ≤ 0 ∨ 128 < nfds ∨
        selectFds nfds.toNat (fdSet k readfds) (fdSet k writefds) = [] ∨
        (selectPoll sv fuel nfds readfds writefds timeout k).1 = none ∨
        FitsOut readfds 16 ∧ FitsOut writefds 16) := by
  have hpoll := low_selectPoll sv fuel nfds readfds writefds timeout k
  have hfd : ∀ r, nfds ≤ 128 →
      (selectPoll sv fuel nfds readfds writefds timeout k).1 = some r → ∀ p ∈ r.2, p.fd < 128 :=
    fun _ => selectPoll_fd
  unfold sysSelectUser
  dsimp only
  rw [← selectPoll]
  split_ifs with hn hempty
  · exact (and_iff_left (hn.imp_right .inl)).symm
  · simp [hempty]
  generalize selectPoll sv fuel nfds readfds writefds timeout k = r at *
  obtain ⟨hpos, hle⟩ := not_or.mp hn
  cases hres : r.1 with
  | none => simp [hpoll]
  | some r' =>
    have hlt := hfd r' (by omega) hres
    rw [low_storeFds hw hlt, low_storeFds hr hlt, hpoll]
    simp only [hpos, hle, hempty, reduceCtorEq, false_or]
    exact and_assoc

end Polling

/-! ### Calls -/

section Calls

variable {sv : Services σ} {upath index : Nat}

lemma low_setClipboard (c : List UInt8) : Kernel.Low { k with clipboard := c } ↔ k.Low := .rfl

lemma low_sysClipboardSet {utext len : Nat} : (sysClipboardSet utext len k).2.Low ↔ k.Low := by
  unfold sysClipboardSet
  split
  · rfl
  · exact low_setClipboard _

variable (hp : p < 2 ^ 64)

include hp

lemma low_installer {st : Record 564} {rc : Int} :
    (copyInstallerStatusToUser p st rc k).2.Low ↔ k.Low ∧ FitsOut p 564 := by
  have hout := low_storeOut (k := k) (b := st.1) hp
  rw [st.2] at hout
  rw [← hout]
  unfold copyInstallerStatusToUser
  split_ifs <;> rfl

lemma low_sysClipboardGet {cap : Nat} :
    (sysClipboardGet p cap k).2.Low ↔
      k.Low ∧ (cap = 0 ∨ FitsOut p (k.clipped cap + 1)) := by
  have : k.clipped cap ≤ k.clipboard.length := by
    unfold Kernel.clipped
    split_ifs <;> omega
  unfold sysClipboardGet
  split_ifs with h
  · rcases h with h | h <;> simp [h, FitsOut]
  · rw [low_store (u64_lt _), low_store hp, and_assoc, length_take]
    simp only [FitsOut, length_singleton]
    refine and_congr_right fun _ => ?_
    unfold Fits userLimit u64
    omega

lemma low_sysGetcwdUser {size : Nat} :
    (sysGetcwdUser p size k).2.Low ↔
      k.Low ∧ (256 < k.current.cwdText.length + 1 ∨ size < k.current.cwdText.length + 1 ∨
        FitsOut p (k.current.cwdText.length + 1)) := by
  unfold sysGetcwdUser
  dsimp only
  split
  · next h => rcases h with h | h | h <;> simp [h, FitsOut]
  next h1 =>
  split
  · next h => simp [h]
  next h2 =>
  rw [low_copyToUser hp]
  simp [not_or.mp h1, h2]

lemma low_sysWaitpidUser {pid : Int} {options : Nat} :
    (sysWaitpidUser sv pid p options k).2.Low ↔
      k.Low ∧ ((sv.schedWaitpid k pid options).1.1 ≤ 0 ∨ FitsOut p 4) := by
  unfold sysWaitpidUser
  dsimp only
  split
  · next h => simp [h]
  next hwaited =>
  split
  · next h => simp [h, FitsOut]
  · rw [low_copyToUser hp]
    simp [hwaited]

lemma low_sysPipe :
    (sysPipe sv p k).2.Low ↔ k.Low ∧ ((sv.pipeFds k).1 = none ∨ Fits p 8) := by
  unfold sysPipe
  dsimp only
  split
  · simp_all
  · next hfds =>
    rw [low_store (u64_lt _), low_store hp, and_assoc, length_leInt, length_leInt, hfds]
    refine and_congr_right fun _ => ?_
    simp only [reduceCtorEq, false_or]
    unfold Fits userLimit u64
    omega

lemma low_sysStatUser : (sysStatUser sv upath p k).2.Low ↔
      k.Low ∧ (copyUserString k.mem 256 upath = [] ∨
        sv.sysStat k (copyUserString k.mem 256 upath) = none ∨ FitsOut p 88) := by
  unfold sysStatUser
  dsimp only
  split
  · next h => rcases h with h | h <;> simp [h, FitsOut]
  next h =>
  cases sv.sysStat k (copyUserString k.mem 256 upath) with
  | none => simp
  | some st => simp [low_copyToUser hp, (not_or.mp h).1]

lemma low_sysReaddirUser : (sysReaddirUser sv upath index p k).2.Low ↔
      k.Low ∧ (copyUserString k.mem 256 upath = [] ∨
        sv.sysReaddir k (copyUserString k.mem 256 upath) index = none ∨ FitsOut p 208) := by
  unfold sysReaddirUser
  dsimp only
  split
  · next h => rcases h with h | h <;> simp [h, FitsOut]
  next h =>
  cases sv.sysReaddir k (copyUserString k.mem 256 upath) index with
  | none => simp
  | some dent => simp [low_copyToUser hp, (not_or.mp h).1]

lemma low_sysFstatUser {fd : Int} :
    (sysFstatUser sv fd p k).2.Low ↔ k.Low ∧ (sv.sysFstat k fd = none ∨ FitsOut p 88) := by
  unfold sysFstatUser
  split
  · next h => simp [h, FitsOut]
  cases sv.sysFstat k fd with
  | none => simp
  | some st => simp [low_copyToUser hp]

lemma low_sysFstatatUser {dirfd : Int} : (sysFstatatUser sv dirfd upath p k).2.Low ↔
      k.Low ∧ ((resolveAtPath sv dirfd upath k).bind (sv.sysStat k) = none ∨
        FitsOut p 88) := by
  unfold sysFstatatUser
  split
  · next h => simp [h, FitsOut]
  cases resolveAtPath sv dirfd upath k with
  | none => simp
  | some path =>
    rw [bind_some]
    dsimp only
    cases sv.sysStat k path with
    | none => simp
    | some st => simp [low_copyToUser hp]

lemma low_sysAppQuery : (sysAppQuery index p k).2.Low ↔
      k.Low ∧ ((k.apps.filterMap id)[index]? = none ∨ FitsOut p 224) := by
  unfold sysAppQuery
  cases (k.apps.filterMap id)[index]? with
  | none => simp
  | some record => simp [low_copyToUser hp, record.2]

lemma low_sysChannelRecv {nodeId : Nat} :
    (sysChannelRecv nodeId p k).2.Low ↔
      k.Low ∧ ((∀ r, k.message nodeId ≠ .ok r) ∨ Fits p 272) := by
  unfold sysChannelRecv
  cases k.message nodeId with
  | error e => simp
  | ok r =>
    refine (low_store hp).trans ?_
    rw [Message.length_bytes]
    exact and_congr .rfl ⟨.inr, fun h => h.resolve_left fun h => h r rfl⟩

lemma low_sysWlPollEvent {surfaceId : Nat} :
    (sysWlPollEvent surfaceId p k).2.Low ↔
      k.Low ∧ ((∀ r, k.event surfaceId ≠ .ok r) ∨ Fits p 8) := by
  unfold sysWlPollEvent
  cases k.event surfaceId with
  | error e => simp
  | ok r =>
    refine (low_store hp).trans ?_
    exact and_congr .rfl ⟨.inr, fun h => h.resolve_left fun h => h r rfl⟩

lemma low_sysGetrusage :
    (sysGetrusage p k).2.Low ↔ k.Low ∧ FitsOut p 88 := by
  rw [← k.current.length_rusage, ← low_storeOut hp]
  unfold sysGetrusage
  split_ifs <;> rfl

lemma low_sysSchedInfo :
    (sysSchedInfo sv p k).2.Low ↔ k.Low ∧ FitsOut p 232 := by
  rw [← (sv.schedGetInfo k).length_bytes, ← low_storeOut hp]
  unfold sysSchedInfo
  split_ifs <;> rfl

lemma low_sysOsInfo :
    (sysOsInfo sv p k).2.Low ↔ k.Low ∧ FitsOut p 88 := by
  rw [← length_osInfo (sv.smpCpuCount k)]
  exact low_copyToUser hp

lemma low_sysSigaction {signum : Int} {uact : Nat} :
    (sysSigaction signum uact p k).2.Low ↔
      k.Low ∧ (catchable signum = false ∨ FitsOut p 32) := by
  unfold sysSigaction
  split
  · simp_all
  next h =>
  have hout := low_storeOut (k := k) (b := sigactionBytes
    (k.current.sigHandlers signum.toNat) k.current.sigMask) hp
  rw [length_sigactionBytes] at hout
  simp only [not_not.mp h, Bool.true_eq_false, false_or]
  rw [← hout]
  split
  · rfl
  · exact low_setCurrent _

lemma low_sysSigprocmask {how : Int} {uset : Nat} :
    (sysSigprocmask how uset p k).2.Low ↔ k.Low ∧ FitsOut p 8 := by
  have hout := low_storeOut (k := k) (b := le 8 k.current.sigMask) hp
  rw [length_le] at hout
  rw [← hout]
  unfold sysSigprocmask
  generalize (if p = 0 then k else _) = k₁
  split
  · rfl
  iterate 3
    split
    · exact low_setCurrent _
  rfl

end Calls

/-- The condition on a call's arguments and the state it starts in: whatever the call hands out
fits below the kernel half at the place the caller asked for. -/
def OutputsFit (sv : Services σ) (fuel : Nat) (nr a1 a2 a3 a4 : Nat) (k : Kernel σ) : Prop :=
  match Call.ofNr nr with
  | .read => Fits a2 (sv.sysRead k (toI32 a1) a3).1.2.length
  | .pipe => (sv.pipeFds k).1 = none ∨ Fits a1 8
  | .poll => a1 = 0 ∨ ∀ i < u32 a2, Fits (reventsAddr a1 i) 2
  | .waitpid => (sv.schedWaitpid k (toI64 a1) (u32 a3)).1.1 ≤ 0 ∨ FitsOut a2 4
  | .getrusage => FitsOut a1 88
  | .wlPollEvent => (∀ r, k.event (u32 a1) ≠ .ok r) ∨ Fits a2 8
  | .readdir => copyUserString k.mem 256 a1 = [] ∨
      sv.sysReaddir k (copyUserString k.mem 256 a1) (u32 a2) = none ∨ FitsOut a3 208
  | .getcwd => 256 < k.current.cwdText.length + 1 ∨ a2 < k.current.cwdText.length + 1 ∨
      FitsOut a1 (k.current.cwdText.length + 1)
  | .schedInfo => FitsOut a1 232
  | .channelRecv => (∀ r, k.message (u32 a1) ≠ .ok r) ∨ Fits a2 272
  | .clipboardGet => u32 a2 = 0 ∨ FitsOut a1 (k.clipped (u32 a2) + 1)
  | .installerStatus | .installerRequest => FitsOut a2 564
  | .osInfo => FitsOut a1 88
  | .appQuery => (k.apps.filterMap id)[u32 a1]? = none ∨ FitsOut a2 224
  | .stat => copyUserString k.mem 256 a1 = [] ∨
      sv.sysStat k (copyUserString k.mem 256 a1) = none ∨ FitsOut a2 88
  | .fstat => sv.sysFstat k (toI32 a1) = none ∨ FitsOut a2 88
  | .fstatat => (resolveAtPath sv (toI32 a1) a2 k).bind (sv.sysStat k) = none ∨ FitsOut a3 88
  | .sigaction => catchable (toI32 a1) = false ∨ FitsOut a3 32
  | .sigprocmask => FitsOut a3 8
  | .select => toI32 a1 ≤ 0 ∨ 128 < toI32 a1 ∨
      selectFds (toI32 a1).toNat (fdSet k a2) (fdSet k a3) = [] ∨
      (selectPoll sv fuel (toI32 a1) a2 a3 (toI64 a4) k).1 = none ∨
      FitsOut a2 16 ∧ FitsOut a3 16
  | .exit | .threadExit | .clipboardSet | .sigreturn | .other | .unknown => True

lemma low_handle (sv : Services σ) (fuel nr a1 a2 a3 a4 a5 : Nat) (k : Kernel σ) (h1 : a1 < 2 ^ 64)
    (h2 : a2 < 2 ^ 64) (h3 : a3 < 2 ^ 64) :
    (handle sv fuel nr a1 a2 a3 a4 a5 k).2.Low ↔
      k.Low ∧ OutputsFit sv fuel nr a1 a2 a3 a4 k := by
  unfold handle OutputsFit
  cases Call.ofNr nr with
  | exit | threadExit | other | unknown => exact (and_iff_left trivial).symm
  | read => exact low_store h2
  | pipe => exact low_sysPipe h1
  | poll => exact low_sysPoll
  | waitpid => exact low_sysWaitpidUser h2
  | getrusage => exact low_sysGetrusage h1
  | wlPollEvent => exact low_sysWlPollEvent h2
  | readdir => exact low_sysReaddirUser h3
  | getcwd => exact low_sysGetcwdUser h1
  | schedInfo => exact low_sysSchedInfo h1
  | channelRecv => exact low_sysChannelRecv h2
  | clipboardSet => exact low_sysClipboardSet.trans (and_iff_left trivial).symm
  | clipboardGet => exact low_sysClipboardGet h1
  | installerStatus | installerRequest => exact low_installer h2
  | osInfo => exact low_sysOsInfo h1
  | appQuery => exact low_sysAppQuery h2
  | stat => exact low_sysStatUser h2
  | fstat => exact low_sysFstatUser h2
  | fstatat => exact low_sysFstatatUser h3
  | sigaction => exact low_sysSigaction h3
  | sigprocmask => exact low_sysSigprocmask h3
  | sigreturn => exact (low_deliverPendingSignals k).trans (and_iff_left trivial).symm
  | select => exact low_sysSelectUser h2 h3

lemma low_syscallDispatch (sv : Services σ) (fuel : Nat) (nr a1 a2 a3 a4 a5 : UInt64)
    (k : Kernel σ) :
    (syscallDispatch sv fuel nr a1 a2 a3 a4 a5 k).2.Low ↔
      k.Low ∧ OutputsFit sv fuel nr.toNat a1.toNat a2.toNat a3.toNat a4.toNat k := by
  rw [← low_handle sv fuel nr.toNat a1.toNat a2.toNat a3.toNat a4.toNat a5.toNat k
    a1.toNat_lt a2.toNat_lt a3.toNat_lt]
  unfold syscallDispatch
  dsimp only
  split
  · rfl
  · exact low_deliverPendingSignals _

def callStores (sv : Services σ) (fuel : Nat) (nr a1 a2 a3 a4 a5 : UInt64) (k : Kernel σ) :
    List Store :=
  (syscallDispatch sv fuel nr a1 a2 a3 a4 a5 { k with stores := [] }).2.stores

/-- Whatever the number and the arguments, a call's stores through user pointers touch addresses
below the kernel half only, exactly if the objects it hands out fit there. -/
theorem output_pointers_iff (sv : Services σ) (fuel : Nat) (nr a1 a2 a3 a4 a5 : UInt64)
    (k : Kernel σ) :
    (∀ st ∈ callStores sv fuel nr a1 a2 a3 a4 a5 k, ∀ a, st.Touches a → a < 0x0000800000000000) ↔
      OutputsFit sv fuel nr.toNat a1.toNat a2.toNat a3.toNat a4.toNat { k with stores := [] } := by
  refine (low_syscallDispatch sv fuel nr a1 a2 a3 a4 a5 { k with stores := [] }).trans ?_
  exact and_iff_right fun st hst => absurd hst not_mem_nil

/-- A first process just after its start: no file is open and nothing is pending. -/
def firstTask : Task where
  id := 3
  parent := some 1
  ticks := 0
  utime := 0
  stime := 0
  volSwitches := 0
  involSwitches := 0
  startTick := 100
  rssPages := 0
  nice := 0
  cpu := 0
  cpuAffinity := 1
  graphNode := 7
  cwd := [47]
  signalPending := 0
  sigMask := 0
  sigHandlers := fun _ => 0
  exitCode := none

def quietKernel : Kernel Unit where
  mem := fun _ => 0
  stores := []
  current := firstTask
  slots := some ⟨0x400000, 0x7FFFFFFFE000, 0⟩
  clipboard := []
  channels := []
  surfaces := []
  apps := []
  rest := ()

def quietServices : Services Unit where
  sysStat := fun _ _ => none
  sysFstat := fun _ _ => none
  sysReaddir := fun _ _ _ => none
  fdPath := fun _ _ => none
  sysRead := fun k _ _ => ((-1, []), k)
  pipeFds := fun k => (none, k)
  filePoll := fun _ _ => none
  pitGetTicks := fun _ => 0
  taskSleep := id
  schedWaitpid := fun k _ _ => ((-1, 0), k)
  schedGetInfo := fun _ => ⟨1, 1, 2, 1, 0, 1, 0, 0, fun _ => 0, fun _ => 0,
    0, 0, 0, 0, 0, 0, 0, 0, 0, 0, 0, 0⟩
  smpCpuCount := fun _ => 1
  installerStatus := fun k _ => ((-1, ⟨replicate 564 0, length_replicate⟩), k)
  installerRequest := fun k _ => ((-1, ⟨replicate 564 0, length_replicate⟩), k)
  other := fun k _ _ _ _ _ _ => (-1, k)

/-- `sys_getrusage` with a pointer into the direct map of physical memory: the record lands in
kernel memory. -/
theorem getrusage_stores_high :
    ¬ ∀ st ∈ callStores quietServices 0 19 0xFFFF800000100000 0 0 0 0 quietKernel,
      ∀ a, st.Touches a → a < 0x0000800000000000 := by
  intro h
  have hlow := h ⟨0xFFFF800000100000, firstTask.rusage⟩ (mem_singleton.mpr rfl)
    0xFFFF800000100000 ⟨0, by simp, rfl⟩
  exact absurd hlow (by decide)

end YamKernel.Syscall

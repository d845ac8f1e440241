import YamKernel.Fs.Bcache.Coherence

/-!
# Acknowledged writes

Which data the cache still owes its callers: the sectors whose last write succeeded, as long
as no later call has reported an error. A failed read is reported, so it loses nothing. A
failed write-back is not: `bcache_evict` and `bcache_flush` drop the driver's result and mark
the page clean.
-/

namespace YamKernel.Bcache

open Lib List Function Option

variable {δ σ : Type*} [DecidableEq δ]

/-- The sectors the callers may rely on, after a call with the given result. -/
def acknowledge (g : δ → Nat → Option σ) : Op δ σ → Option (List σ) → δ → Nat → Option σ
  | _, none => fun _ _ => none
  | .write (some d) lba buf, some _ => update g d (storeSectors (g d) lba (buf.map some))
  | _, some _ => g

def ackStep (env : Env δ) :
    Machine (State δ σ × (δ → Nat → Option σ)) (Op δ σ) (Option (List σ))
  | (s, g), op =>
    let (r, s') := step env s op
    (r, s', acknowledge g op r)

/-- Every acknowledged sector is on the device, or a read through the cache returns it. -/
def Kept (env : Env δ) (s : State δ σ) (g : δ → Nat → Option σ) : Prop :=
  ∀ d a x, g d a = some x → s.disk d a = x ∨ (bcacheRead env s (some d) a 1).1 = some [x]

/-- No device write that the call issues fails. A call stops at a read that fails and
reports it, so such a read accounts for one failure of a call without a result. -/
def WritesSucceed (env : Env δ) (s : State δ σ) (op : Op δ σ) : Prop :=
  (step env s op).2.failed ≤ s.failed + if (step env s op).1 = none then 1 else 0

instance (env : Env δ) (s : State δ σ) (op : Op δ σ) [DecidableEq σ] :
    Decidable (WritesSucceed env s op) :=
  inferInstanceAs (Decidable (_ ≤ _))

/-- What `block_register` and the mounting code ask of a device. -/
structure Device.Registered (dev : Device) : Prop where
  sectorSize : dev.sectorSize = 512
  hasRead : dev.hasRead = true

/-! ## Runs -/

section Runs

variable {env : Env δ} {s : State δ σ} {arr : δ → Nat → σ} {g : δ → Nat → Option σ}

def Holds (arr : Nat → σ) (g : Nat → Option σ) : Prop :=
  ∀ a x, g a = some x → a < 2 ^ 64 ∧ arr a = x

omit [DecidableEq δ] in
lemma Holds.store {a : Nat → σ} {g : Nat → Option σ} (h : Holds a g) (lba : Nat) (buf : List σ) :
    Holds (storeSectors a lba buf) (storeSectors g lba (buf.map some)) := by
  induction buf generalizing a g lba with
  | nil => exact h
  | cons x buf ih =>
    refine ih (fun k y hy => ?_) (lba + 1)
    by_cases hk : k = u64 lba
    · subst hk
      rw [update_self] at hy ⊢
      exact ⟨u64_lt lba, some.inj hy⟩
    · rw [update_of_ne hk] at hy ⊢
      exact h k y hy

lemma acknowledge_holds (env : Env δ) {op : Op δ σ} {r : Option (List σ)} {arr' : δ → Nat → σ}
    (h : ∀ d, Holds (arr d) (g d)) (hr : r ≠ none → arr' = (arrayStep env arr op).2)
    (hw : ∀ d lba buf, op = .write (some d) lba buf → r ≠ none → (env.device d).hasWrite = true)
    (d : δ) : Holds (arr' d) (acknowledge g op r d) := by
  cases r with
  | none => intro a x hx; simp [acknowledge] at hx
  | some l =>
    rw [hr (by simp)]
    cases op with
    | read dev lba count => cases dev <;> exact h d
    | flush dev => exact h d
    | write dev lba buf =>
      cases dev with
      | none => exact h d
      | some d' =>
        simp only [arrayStep, hw d' lba buf rfl (by simp), if_true, acknowledge]
        by_cases hd : d = d'
        · subst hd
          rw [update_self, update_self]
          exact (h d).store lba buf
        · rw [update_of_ne hd, update_of_ne hd]
          exact h d

lemma hasWrite_of_step {d : δ} {lba : Nat} {buf : List σ}
    (h : (step env s (.write (some d) lba buf)).1 ≠ none) : (env.device d).hasWrite = true := by
  by_contra hw
  simp [step, bcacheWrite, hw] at h

lemma bcacheRead_cached {d : δ} (hdev : (env.device d).Registered) {i a : Nat}
    (hc : Clean env s arr) (hi : i < bcacheMaxPages) (hd : (s.cache i).dev = some d)
    (hp : (s.cache i).pageLba = pageOf a) (ha : a < 2 ^ 64) :
    (bcacheRead env s (some d) a 1).1 = some [arr d a] := by
  simp only [bcacheRead, hdev.hasRead, sectorsPerPage_512 hdev.sectorSize, u64_of_lt ha, readLoop]
  cases hf : bcacheFind s d (a / 8 * 8) with
  | mk found s1 =>
  cases found with
  | none => exact absurd hp ((bcacheFind_none hf).2 i hi hd)
  | some j =>
    obtain ⟨hj, hdj, hpj, hsame, -⟩ := bcacheFind_some hf
    have hmin : min (8 - (a - a / 8 * 8)) 1 = 1 := by omega
    have hsum : a / 8 * 8 + (a - a / 8 * 8) = a := by omega
    simp only [getPage, hf, hmin, (hsame j).data]
    rw [range_one, map_singleton, add_zero,
      hc.data j hj d hdj _ (by omega) (fun hf => hf), hpj, hsum]
    rfl

lemma Clean.kept (hdev : ∀ d, (env.device d).Registered) (hc : Clean env s arr)
    (h : ∀ d, Holds (arr d) (g d)) : Kept env s g := by
  intro d a x hx
  obtain ⟨ha, rfl⟩ := h d a x hx
  by_cases hin : ∃ i < bcacheMaxPages, (s.cache i).dev = some d ∧ (s.cache i).pageLba = pageOf a
  · obtain ⟨i, hi, hd, hp⟩ := hin
    exact .inr (bcacheRead_cached (hdev d) hc hi hd hp ha)
  · exact .inl (hc.disk d a fun i hi hd hp => absurd ⟨i, hi, hd, hp⟩ hin)

/-- In every run whose device writes succeed, no acknowledged sector is lost, whatever reads
fail. -/
theorem run_kept (hdev : ∀ d, (env.device d).Registered) (zero : σ) (disk : δ → Nat → σ)
    (ops : List (Op δ σ))
    (hw : (ackStep env).Along (fun t op => WritesSucceed env t.1 op)
      (bcacheInit zero disk, fun _ _ => none) ops) :
    Kept env ((ackStep env).run (bcacheInit zero disk, fun _ _ => none) ops).1
      ((ackStep env).run (bcacheInit zero disk, fun _ _ => none) ops).2 := by
  suffices ∃ arr, Clean env ((ackStep env).run (bcacheInit zero disk, fun _ _ => none) ops).1 arr ∧
      ∀ d, Holds (arr d)
        (((ackStep env).run (bcacheInit zero disk, fun _ _ => none) ops).2 d) by
    obtain ⟨arr, hc, hg⟩ := this
    exact hc.kept hdev hg
  refine Machine.run_invariant (I := fun t => ∃ arr, Clean env t.1 arr ∧
    ∀ d, Holds (arr d) (t.2 d)) (fun t op hi hok => ?_)
    ⟨disk, Clean.init env zero disk, fun _ _ _ hx => by simp at hx⟩ hw
  obtain ⟨arr, hc, hg⟩ := hi
  obtain ⟨arr', hc', harr⟩ := hc.step (fun d => (hdev d).sectorSize) hok
  refine ⟨arr', hc', fun d => acknowledge_holds env hg (fun hne => (harr (.inl hne)).2) ?_ d⟩
  rintro d lba buf rfl hne
  exact hasWrite_of_step hne

/-- A write across two pages, whose reads of the old pages succeed. -/
theorem run_kept_oneDevice :
    ((ackStep oneDevice).run (bcacheInit 0 fun _ a => a, fun _ _ => none)
        [.write (some ()) 7 [100, 101]]).2 () 8 = some 101 ∧
      Kept oneDevice
        ((ackStep oneDevice).run (bcacheInit 0 fun _ a => a, fun _ _ => none)
          [.write (some ()) 7 [100, 101]]).1
        ((ackStep oneDevice).run (bcacheInit 0 fun _ a => a, fun _ _ => none)
          [.write (some ()) 7 [100, 101]]).2 := by
  refine ⟨by decide +kernel, run_kept (fun _ => ⟨rfl, rfl⟩) 0 (fun _ a => a) _ ?_⟩
  decide +kernel

end Runs

/-! ## A failed write-back

Page 0 is written, and 256 other pages are read. The last one takes the slot of page 0, and
the device refuses the write-back: operation 255 of the run. -/

section Lost

/-- A device that refuses one operation, the write-back of the run below. -/
def refusesOne : Env Unit := ⟨fun _ => ⟨512, true, true⟩, fun n => n ≠ 255⟩

def lostRun (n : Nat) : List (Op Unit Nat) :=
  .write (some ()) 0 (replicate 8 1) ::
    (range n).map fun i => .read (some ()) (8 * (i + 1)) 1

/-- Slot `i` holds page `i`, for the first `n` pages, and the others are free. Page 0 is dirty. -/
def filled (n : Nat) : State Unit Nat where
  cache i :=
    if i < n then ⟨some (), 8 * i, 8, i + 1, i = 0,
      fun k => if i = 0 then ((replicate 8 1)[k]?).getD 0 else 0⟩
    else ⟨none, 0, 0, 0, false, fun _ => 0⟩
  ticks := n
  disk _ _ := 0
  io := n - 1
  failed := 0

variable {n : Nat}

omit [DecidableEq δ] in
lemma allocScan_free {cache : Nat → Entry δ σ} {is js : List Nat} {i o t : Nat}
    (h : ∀ j ∈ is, (cache j).dev ≠ none) (hi : (cache i).dev = none) :
    allocScan cache (is ++ i :: js) o t = .inl i := by
  induction is generalizing o t with
  | nil => simp [allocScan, hi]
  | cons j is ih =>
    have hj : (cache j).dev.isNone = false := by
      simpa [isSome_iff_ne_none] using h j (by simp)
    have hrest := fun o t => ih (o := o) (t := t) fun l hl => h l (by simp [hl])
    simp [allocScan, hj, hrest]

lemma bcacheFind_absent {s : State δ σ} {d : δ} {p : Nat}
    (h : ∀ j < bcacheMaxPages, (s.cache j).dev = some d → (s.cache j).pageLba ≠ p) :
    bcacheFind s d p = (none, s) := by
  unfold bcacheFind
  rw [find?_eq_none.mpr fun i hi => ?_]
  simpa using h i (mem_range.mp hi)

/-- The first free slot is taken. -/
lemma bcacheAlloc_filled (hn : n < 256) (p : Nat) :
    bcacheAlloc refusesOne (filled n) () p 8 = (n, claimEntry (filled n) n () p 8) := by
  obtain ⟨k, hk⟩ : ∃ k, 256 = n + (k + 1) := ⟨255 - n, by omega⟩
  unfold bcacheAlloc bcacheMaxPages
  rw [hk, range_add, range_succ_eq_map, map_cons, add_zero,
    allocScan_free (fun j hj => by simp [filled, mem_range.mp hj]) (by simp [filled])]

lemma filled_read (h0 : 0 < n) (hn : n < 256) :
    step refusesOne (filled n) (.read (some ()) (8 * n) 1) = (some [0], filled (n + 1)) := by
  have habsent : bcacheFind (filled n) () (8 * n) = (none, filled n) := by
    refine bcacheFind_absent fun j _ => ?_
    by_cases hj : j < n
    · simp [filled, hj]; omega
    · simp [filled, hj]
  have hok : refusesOne.ok (claimEntry (filled n) n () (8 * n) 8).io = true := by
    simp [refusesOne, claimEntry, State.setEntry, filled]; omega
  have hget : getPage refusesOne (filled n) () (8 * n) 8 true = (some n, filled (n + 1)) := by
    simp only [getPage, habsent, bcacheAlloc_filled hn, devRead, hok, and_true]
    simp only [show (refusesOne.device ()).hasRead = true from rfl, if_true]
    refine Prod.ext rfl ?_
    simp only [State.setEntry, claimEntry, filled, State.mk.injEq]
    refine ⟨funext fun i => ?_, u64_of_lt, trivial, by omega, trivial⟩
    by_cases hi : i = n
    · subst hi; simp [h0.ne', u64_of_lt (show i + 1 < 2 ^ 64 by omega)]
    · simp [hi, show i < n + 1 ↔ i < n by omega]
  have hdev : (refusesOne.device ()).Registered := ⟨rfl, rfl⟩
  have hdiv : 8 * n / 8 * 8 = 8 * n := by omega
  simp only [step, bcacheRead, hdev.hasRead, sectorsPerPage_512 hdev.sectorSize, readLoop,
    u64_of_lt (show 8 * n < 2 ^ 64 by omega), hdiv, hget]
  simp [filled, h0.ne']

lemma filled_one : (step refusesOne (bcacheInit 0 fun _ _ => 0)
    (.write (some ()) 0 (replicate 8 1))).2 = filled 1 := by
  change State.setEntry (claimEntry (bcacheInit 0 fun _ _ => 0) 0 () 0 8) 0
    (fillEntry ((claimEntry (bcacheInit 0 fun _ _ => 0) 0 () 0 8).cache 0) 0 (replicate 8 1)) = _
  simp only [State.setEntry, claimEntry, filled, bcacheInit, State.mk.injEq]
  refine ⟨funext fun i => ?_, rfl, trivial, trivial, trivial⟩
  by_cases hi : i = 0
  · subst hi; simp [fillEntry, u64]
  · simp [hi]

lemma run_lostRun_succ (n : Nat) (st : State Unit Nat × (Unit → Nat → Option Nat)) :
    (ackStep refusesOne).run st (lostRun (n + 1)) =
      (ackStep refusesOne ((ackStep refusesOne).run st (lostRun n))
        (.read (some ()) (8 * (n + 1)) 1)).2 := by
  rw [lostRun, range_succ, map_append, ← cons_append, Machine.run_append]
  rfl

lemma lostRun_filled (hn : n < 256) : ∃ g : Unit → Nat → Option Nat, g () 0 = some 1 ∧
    (ackStep refusesOne).run (bcacheInit 0 fun _ _ => 0, fun _ _ => none) (lostRun n) =
      (filled (n + 1), g) := by
  induction n with
  | zero => exact ⟨_, by decide +kernel, Prod.ext filled_one rfl⟩
  | succ n ih =>
    obtain ⟨g, hg, hrun⟩ := ih (by omega)
    refine ⟨g, hg, ?_⟩
    rw [run_lostRun_succ, hrun, ackStep, filled_read (by omega) hn]
    rfl

/-- Every call succeeds, sector 0 was written with 1, and neither the device nor a read
through the cache returns it. -/
theorem acknowledged_lost :
    (∀ d, (refusesOne.device d).Registered) ∧
      ¬ Kept refusesOne
        ((ackStep refusesOne).run (bcacheInit 0 fun _ _ => 0, fun _ _ => none) (lostRun 256)).1
        ((ackStep refusesOne).run (bcacheInit 0 fun _ _ => 0, fun _ _ => none)
          (lostRun 256)).2 := by
  refine ⟨fun _ => ⟨rfl, rfl⟩, fun hkept => ?_⟩
  obtain ⟨g, hg, hrun⟩ := lostRun_filled (n := 255) (by decide)
  rw [run_lostRun_succ 255, hrun] at hkept
  -- Reading one page more evicts page 0, whose write-back fails.
  have hlast : let out := step refusesOne (filled 256) (.read (some ()) (8 * 256) 1)
      out.1 = some [0] ∧ out.2.disk () 0 = 0 ∧ (bcacheRead refusesOne out.2 (some ()) 0 1).1 =
        some [0] := by
    decide +kernel
  obtain ⟨hout, hdisk, hread⟩ := hlast
  simp only [ackStep, hout] at hkept
  rcases hkept () 0 1 hg with hd | hr
  · simp [hdisk] at hd
  · simp [hread] at hr

end Lost

end YamKernel.Bcache

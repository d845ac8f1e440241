import YamKernel.Mem.Vmm.Cow
import YamKernel.Mem.Vmm.Munmap

/-!
# Page faults

`vmm_handle_page_fault` takes a write to a present page to `vmm_handle_cow_fault`, and maps a
cleared frame for every other fault inside an area. It does not ask whether the page is there
already, nor whether the area allows the access. `fault_law_iff` says for which faults its
answer is right.
-/

namespace YamKernel.Vmm

open Pmm Option Nat Pte

def protRead : Nat := 2 ^ 0

def isWrite (error : Nat) : Bool := has error (2 ^ 1)

def isFetch (error : Nat) : Bool := has error (2 ^ 4)

def Pte.permits (e : Pte) (error : Nat) : Bool :=
  e.present && (!isWrite error || has e.entry flagWrite) && (!isFetch error || !has e.entry flagNx)

def protAllows (prot error : Nat) : Bool :=
  (!isWrite error || has prot protWrite) && (!isFetch error || has prot protExec) &&
    (isWrite error || isFetch error || has prot protRead)

def Pte.cowPage (e : Pte) : Bool := e.present && has e.entry flagCow

def areaFlags (prot : Nat) : Nat :=
  let flags := flagPresent ||| flagUser
  let flags := if has prot protWrite then flags ||| flagWrite else flags
  if ¬ has prot protExec then flags ||| flagNx else flags

section Areas

variable {prot error : Nat}

lemma areaFlags_plain (prot : Nat) : areaFlags prot < 2 ^ 64 ∧ frame (areaFlags prot) = 0 := by
  unfold areaFlags
  split_ifs <;> decide

lemma areaFlags_write (prot : Nat) : has (areaFlags prot) flagWrite = has prot protWrite := by
  unfold areaFlags
  split_ifs <;> simp_all <;> decide

lemma areaFlags_nx (prot : Nat) : has (areaFlags prot) flagNx = !has prot protExec := by
  unfold areaFlags
  split_ifs <;> simp_all <;> decide

lemma Pte.permits_iff {e : Pte} : e.permits error = true ↔ e.present = true ∧
    (isWrite error = true → has e.entry flagWrite = true) ∧
    (isFetch error = true → has e.entry flagNx = false) := by
  unfold permits
  cases e.present <;> cases isWrite error <;> cases isFetch error <;> simp

lemma protAllows_iff : protAllows prot error = true ↔
    (isWrite error = true → has prot protWrite = true) ∧
    (isFetch error = true → has prot protExec = true) ∧
    (isWrite error = false → isFetch error = false → has prot protRead = true) := by
  unfold protAllows
  cases isWrite error <;> cases isFetch error <;> simp

lemma isWrite_of_mod (h : error % 4 = 3) : isWrite error = true := by
  have hbit : error.testBit 1 = true := by
    rw [testBit_eq_decide_div_mod_eq]
    simp only [decide_eq_true_eq]
    omega
  have : error &&& 2 ^ 1 = 2 ^ 1 := by rw [and_two_pow, hbit]; rfl
  rw [isWrite, has, this]
  decide

end Areas

/-! ## What a fault does -/

section Cases

variable {top : Nat} {R : Set Nat} {s : State} {r fault error : Nat} {vmas : List Vma}

lemma vmmHandlePageFault_cow (h3 : error % 4 = 3) {s' : State}
    (h : vmmHandleCowFault s r fault = (true, s')) :
    vmmHandlePageFault s r vmas fault error = (true, s') := by
  unfold vmmHandlePageFault
  rw [if_pos h3, h]
  simp

lemma vmmHandlePageFault_area (h : error % 4 = 3 → vmmHandleCowFault s r fault = (false, s)) :
    vmmHandlePageFault s r vmas fault error =
      match areaProt vmas fault with
      | none => (false, s)
      | some prot => mapZeroPage s r (fault / pageSize * pageSize) (areaFlags prot) := by
  have hcow : (if error % 4 = 3 then vmmHandleCowFault s r fault else (false, s)) = (false, s) := by
    split_ifs with h3
    · exact h h3
    · rfl
  unfold vmmHandlePageFault areaProt
  rw [hcow]
  cases vmas.find? fun v => decide (v.start ≤ fault ∧ fault < v.stop) with
  | none => rfl
  | some v => rfl

/-- The ways `vmm_handle_page_fault` can end: the page becomes writable, it is copied, a cleared
frame is mapped, or nothing happens. -/
theorem Sound.fault_cases (h : Sound top R s) (hr : r ∈ R) (htop : pageOf fault < top * 2 ^ 27)
    (hheld : (pte top s.mem r (pageOf fault)).present = true →
      Held s.pmm ((pte top s.mem r (pageOf fault)).frameOf (pageOf fault)))
    (hcount : ∀ f, pmmPageRefcount s.pmm f < 2 ^ 32) (vmas : List Vma) (error : Nat) :
    let e := pte top s.mem r (pageOf fault)
    let old := e.frameOf (pageOf fault)
    let cow := error % 4 = 3 ∧ e.shared (pageOf fault) = true
    (cow ∧ pmmPageRefcount s.pmm old ≤ 1 ∧ ∃ s',
      vmmHandlePageFault s r vmas fault error = (true, s') ∧
      Stored top R s s' r (pageOf fault) e.huge (e.relabel e.cowFlags)) ∨
    (cow ∧ 1 < pmmPageRefcount s.pmm old ∧
      ∃ f s', vmmHandlePageFault s r vmas fault error = (true, s') ∧
        Copied top R s s' r (pageOf fault) f old e.cowFlags) ∨
    (¬ cow ∧ ∃ prot f s', areaProt vmas fault = some prot ∧
      vmmHandlePageFault s r vmas fault error = (true, s') ∧
        Zeroed top R s s' r (pageOf fault) f (areaFlags prot)) ∨
    (vmmHandlePageFault s r vmas fault error = (false, s) ∧
      (cow → 1 < pmmPageRefcount s.pmm old ∧ (pmmAllocPage s.pmm).1 = 0) ∧
      (¬ cow → areaProt vmas fault = none ∨ (pmmAllocPage s.pmm).1 = 0)) := by
  intro e old cow
  -- Once it is clear that `vmm_handle_cow_fault` has refused, the area decides.
  have harea : (error % 4 = 3 → vmmHandleCowFault s r fault = (false, s)) →
      (∃ prot f s', areaProt vmas fault = some prot ∧
        vmmHandlePageFault s r vmas fault error = (true, s') ∧
        Zeroed top R s s' r (pageOf fault) f (areaFlags prot)) ∨
      (vmmHandlePageFault s r vmas fault error = (false, s) ∧
        (areaProt vmas fault = none ∨ (pmmAllocPage s.pmm).1 = 0)) := by
    intro hno
    rw [vmmHandlePageFault_area hno]
    cases areaProt vmas fault with
    | none => exact .inr ⟨rfl, .inl rfl⟩
    | some prot =>
      have hpage : pageOf (fault / pageSize * pageSize) < top * 2 ^ 27 := by rwa [pageOf_page]
      rcases h.mapZeroPage_spec hr hpage (areaFlags_plain prot).1 with ⟨hfail, h0⟩ |
        ⟨f, s', hs', hz⟩
      · exact .inr ⟨hfail, .inr h0⟩
      · rw [pageOf_page] at hz
        exact .inl ⟨prot, f, s', rfl, hs', hz⟩
  by_cases h3 : error % 4 = 3
  · rcases h.cow_cases hr htop hheld hcount with
      ⟨hsh, hno⟩ | ⟨hsh, hle, s', hs', hst⟩ | ⟨hsh, hgt, h0, hno⟩ | ⟨hsh, hgt, f, s', hs', hc⟩
    · have hncow : ¬ cow := fun hc => Bool.false_ne_true (hsh.symm.trans hc.2)
      rcases harea fun _ => hno with hz | ⟨hfail, hwhy⟩
      · exact .inr (.inr (.inl ⟨hncow, hz⟩))
      · exact .inr (.inr (.inr ⟨hfail, fun hc => absurd hc hncow, fun _ => hwhy⟩))
    · exact .inl ⟨⟨h3, hsh⟩, hle, s', vmmHandlePageFault_cow h3 hs', hst⟩
    · rcases harea fun _ => hno with ⟨prot, f, s', -, -, hz⟩ | ⟨hfail, -⟩
      · -- The frame would have been free and in use.
        exact absurd h0 (provides_one.mp (hz.fresh.provides h.good))
      · exact .inr (.inr (.inr ⟨hfail, fun _ => ⟨hgt, h0⟩, fun hc => absurd ⟨h3, hsh⟩ hc⟩))
    · exact .inr (.inl ⟨⟨h3, hsh⟩, hgt, f, s', vmmHandlePageFault_cow h3 hs', hc⟩)
  · have hncow : ¬ cow := fun hc => h3 hc.1
    rcases harea fun hc => absurd hc h3 with hz | ⟨hfail, hwhy⟩
    · exact .inr (.inr (.inl ⟨hncow, hz⟩))
    · exact .inr (.inr (.inr ⟨hfail, fun hc => absurd hc hncow, fun _ => hwhy⟩))

end Cases

/-! ## The law -/

/-- The page at `f` is neither free nor a table. -/
def Data (top : Nat) (R : Set Nat) (s : State) (f : Nat) : Prop :=
  ∀ a, f ≤ a → a < f + pageSize → ¬ FreeAt s.pmm a ∧
    ∀ t, IsTable top s.mem R t → ¬ (t ≤ a ∧ a < t + pageSize)

/-- A reference to the frame was given back: its count dropped by one, or it is free now. -/
def Released (pmm pmm' : Pmm.State) (f : Nat) : Prop :=
  pmmPageRefcount pmm' f + 1 = pmmPageRefcount pmm f ∨
    (∃ n, Allocated pmm f n) ∧ ∀ n, ¬ Allocated pmm' f n

/-- The access can be retried, it was allowed, and a page that was there reads as before; its
frame is the one mapped, or the reference to it was given back. -/
structure FaultLaw (top : Nat) (s s' : State) (r : Nat) (vmas : List Vma) (fault error : Nat) :
    Prop where
  permitted : (pte top s'.mem r (pageOf fault)).permits error = true
  allowed : (∃ prot, areaProt vmas fault = some prot ∧ protAllows prot error = true) ∨
    (pte top s.mem r (pageOf fault)).cowPage = true
  contents : (pte top s.mem r (pageOf fault)).present = true → ∀ i < pageSize,
    s'.mem ((pte top s'.mem r (pageOf fault)).frameOf (pageOf fault) + i) =
      s.mem ((pte top s.mem r (pageOf fault)).frameOf (pageOf fault) + i)
  reference : (pte top s.mem r (pageOf fault)).present = true →
    (pte top s'.mem r (pageOf fault)).frameOf (pageOf fault) =
      (pte top s.mem r (pageOf fault)).frameOf (pageOf fault) ∨
    Released s.pmm s'.pmm ((pte top s.mem r (pageOf fault)).frameOf (pageOf fault))

/-- A write to a shared page of 4 KB, or one with a single reference, must not be a fetch from a
page that is not executable; a shared page of 2 MB has to permit the access already. In an
area the page must not be there and the area has to allow the access; if the page cannot
be mapped, its entry has to permit the access and the area or a COW bit to allow it. -/
def FaultOk (top : Nat) (s : State) (r : Nat) (vmas : List Vma) (fault error : Nat) : Prop :=
  let p := pageOf fault
  let e := pte top s.mem r p
  let count := pmmPageRefcount s.pmm (e.frameOf p)
  if error % 4 = 3 ∧ e.shared p = true then
    count ≤ 1 ∨ Provides s.pmm 1 → (isFetch error = true → has e.entry flagNx = false) ∧
      (1 < count → Blocked top s.mem r p → has e.entry flagWrite = true)
  else ∀ prot, areaProt vmas fault = some prot → Provides s.pmm 1 →
    (Populable top s r p → e.present = false ∧ protAllows prot error = true) ∧
    (¬ Populable top s r p →
      e.permits error = true ∧ (protAllows prot error = true ∨ e.cowPage = true))

section Law

variable {top : Nat} {R : Set Nat} {s s' : State} {r p f fault error prot : Nat} {e : Pte}
  {vmas : List Vma}

lemma Pte.relabel_frameOf (e : Pte) (p : Nat) {flags : Nat} (hp : e.present = true)
    (h1 : frame flags = 0) (h2 : flags &&& hugeMask = 0) :
    (mk (e.relabel flags) e.huge).frameOf p = e.frameOf p := by
  cases hh : e.huge with
  | false =>
    rw [frameOf_small (e := ⟨e.relabel flags, false⟩) rfl (relabel_present e flags),
      frameOf_small hh hp, relabel,
      if_neg (by simp [hh]), leafEntry, frame_or, frame_or, frame_frame, h1,
      show frame flagPresent = 0 by decide, or_zero, or_zero]
  | true =>
    have hmask : e.relabel flags &&& hugeMask = e.entry &&& hugeMask := by
      rw [relabel, if_pos hh, and_or_distrib_right, and_or_distrib_right,
        and_or_distrib_right, h2, Nat.and_assoc, Nat.and_self,
        show flagPresent &&& hugeMask = 0 by decide, show flagHuge &&& hugeMask = 0 by decide,
        or_zero, or_zero, or_zero]
    rw [frameOf, frameOf, phys, phys, if_pos rfl, if_pos hh, hmask]

lemma Pte.cowFlags_frame (e : Pte) : frame e.cowFlags = 0 ∧ e.cowFlags &&& hugeMask = 0 := by
  have hmask : ∀ mask, flagMask &&& mask = 0 →
      clear (e.entry &&& flagMask) flagCow &&& mask = 0 := by
    intro mask hm
    rw [clear, Nat.and_right_comm, Nat.and_assoc e.entry, hm, and_zero, zero_and]
  constructor
  · rw [cowFlags, frame_or, frame, hmask _ (by decide)]
    decide
  · rw [cowFlags, and_or_distrib_right, hmask _ (by decide)]
    decide

lemma Pte.relabel_cowFlags_nx (e : Pte) :
    has (e.relabel e.cowFlags) flagNx = has e.entry flagNx := by
  rw [e.relabel_has, e.cowFlags_has]

lemma Pte.leaf_cowFlags_nx (e : Pte) :
    has (leafEntry f e.cowFlags) flagNx = has e.entry flagNx := by
  rw [leafEntry_has, e.cowFlags_has]

lemma leafPte_frameOf {pmm pmm' : Pmm.State} {flags : Nat} (p : Nat) (hf : Fresh pmm pmm' f)
    (hw : Within (2 ^ 52) pmm) (hflags : frame flags = 0) :
    (mk (leafEntry f flags) false).frameOf p = f := by
  have hlt := (hf.within hw).1
  rw [frameOf_small (e := ⟨leafEntry f flags, false⟩) rfl leafEntry_present]
  refine leafEntry_frame hf.page ?_ hflags
  unfold pageSize at hlt
  omega

section

variable (he : pte top s.mem r (pageOf fault) = e)
include he

section

variable (hsh : e.shared (pageOf fault) = true)
include hsh

/-- A shared page is mapped by an entry that can be written and executes as before, and reads as
before. -/
theorem faultLaw_writable {e' : Pte} (hpte : pte top s'.mem r (pageOf fault) = e')
    (hp : e'.present = true) (hwrite : has e'.entry flagWrite = true)
    (hnx : has e'.entry flagNx = has e.entry flagNx)
    (hcontents : ∀ i < pageSize, s'.mem (e'.frameOf (pageOf fault) + i) =
      s.mem (e.frameOf (pageOf fault) + i))
    (href : e'.frameOf (pageOf fault) = e.frameOf (pageOf fault) ∨
      Released s.pmm s'.pmm (e.frameOf (pageOf fault))) :
    FaultLaw top s s' r vmas fault error ↔ (isFetch error = true → has e.entry flagNx = false) := by
  subst he hpte
  constructor
  · intro law hfetch
    exact hnx.symm.trans ((permits_iff.mp law.permitted).2.2 hfetch)
  · intro hfetch
    have hcow : (pte top s.mem r (pageOf fault)).cowPage = true := by
      rw [cowPage, shared_present hsh, (Bool.and_eq_true_iff.mp hsh).1]
      rfl
    exact ⟨permits_iff.mpr ⟨hp, fun _ => hwrite, fun hf => hnx.trans (hfetch hf)⟩, .inr hcow,
      fun _ => hcontents, fun _ => href⟩

lemma faultLaw_stored (hr : r ∈ R) (hdata : Data top R s (e.frameOf (pageOf fault)))
    (g : Stored top R s s' r (pageOf fault) e.huge (e.relabel e.cowFlags)) :
    FaultLaw top s s' r vmas fault error ↔ (isFetch error = true → has e.entry flagNx = false) := by
  have hpte := g.pte_eq r hr (pageOf fault)
  rw [if_pos ⟨rfl, .refl _ _⟩] at hpte
  have hp : e.present = true := he ▸ shared_present (he ▸ hsh)
  have hframe := e.relabel_frameOf (pageOf fault) hp e.cowFlags_frame.1 e.cowFlags_frame.2
  refine faultLaw_writable he hsh hpte (relabel_present _ _) ?_ e.relabel_cowFlags_nx
    (fun i hi => ?_) (.inl hframe)
  · rw [e.relabel_has, e.cowFlags_write]
  · rw [hframe]
    exact g.bytes _ (hdata _ (by omega) (by omega)).2

lemma faultLaw_copied (hr : r ∈ R) (hmany : 1 < pmmPageRefcount s.pmm (e.frameOf (pageOf fault)))
    (hb : ¬ Blocked top s.mem r (pageOf fault)) (hw : Within (2 ^ 52) s.pmm)
    (g : Copied top R s s' r (pageOf fault) f (e.frameOf (pageOf fault)) e.cowFlags) :
    FaultLaw top s s' r vmas fault error ↔ (isFetch error = true → has e.entry flagNx = false) := by
  have hpte := g.mapped hb r hr (pageOf fault)
  rw [if_pos ⟨rfl, rfl⟩] at hpte
  have hframe := leafPte_frameOf (pageOf fault) g.fresh hw e.cowFlags_frame.1
  refine faultLaw_writable he hsh hpte leafEntry_present ?_ e.leaf_cowFlags_nx (fun i hi => ?_)
    (.inr (.inl ?_))
  · rw [leafEntry_has, e.cowFlags_write]
  · rw [hframe]
    exact g.copy i hi
  · have hlt : e.frameOf (pageOf fault) < countLimit := by
      by_contra hge
      rw [pmmPageRefcount_high (not_lt.mp hge)] at hmany
      omega
    rw [g.pmm, pmmPageRefcount_setRefcount (e.frameOf_dvd _) (e.frameOf_dvd _) hlt, if_pos rfl]
    omega

end

lemma faultLaw_kept
    (hsame : pte top s'.mem r (pageOf fault) = e)
    (hbytes : e.present = true → ∀ i < pageSize,
      s'.mem (e.frameOf (pageOf fault) + i) = s.mem (e.frameOf (pageOf fault) + i)) :
    FaultLaw top s s' r vmas fault error ↔ e.permits error = true ∧
      ((∃ prot, areaProt vmas fault = some prot ∧ protAllows prot error = true) ∨
        e.cowPage = true) := by
  subst he
  constructor
  · intro law
    have := law.permitted
    rw [hsame] at this
    exact ⟨this, law.allowed⟩
  · rintro ⟨hperm, hallow⟩
    refine ⟨by rw [hsame]; exact hperm, hallow, fun hp i hi => ?_, fun _ => .inl (by rw [hsame])⟩
    rw [hsame]
    exact hbytes hp i hi

lemma faultLaw_zeroed (h : Sound top R s) (hr : r ∈ R) (harea : areaProt vmas fault = some prot)
    (hpop : Populable top s r (pageOf fault))
    (hdata : e.present = true → Data top R s (e.frameOf (pageOf fault)))
    (g : Zeroed top R s s' r (pageOf fault) f (areaFlags prot)) :
    FaultLaw top s s' r vmas fault error ↔ e.present = false ∧ protAllows prot error = true := by
  have hpte := g.mapped hpop r hr (pageOf fault)
  rw [if_pos ⟨rfl, rfl⟩] at hpte
  have := leafPte_frameOf (pageOf fault) g.fresh h.within (areaFlags_plain prot).2
  subst he
  obtain ⟨l, htakes⟩ := g.takes
  have : 0 < pageSize := by decide
  constructor
  · intro law
    have habs : (pte top s.mem r (pageOf fault)).present = false := by
      by_contra hp
      rw [Bool.not_eq_false] at hp
      have hheld := fun a h1 h2 => (hdata hp a h1 h2).1
      -- The frame that was mapped is in use as before, and the new one is another.
      rcases law.reference hp with hsame | hcount | ⟨⟨n, hn⟩, hnone⟩
      · rw [hpte] at hsame
        exact hheld f (by omega) (by omega) (g.fresh.free f le_rfl (by omega))
      · rw [htakes.refcount_eq h.good hheld (frameOf_dvd _ _)] at hcount
        omega
      · exact hnone n (htakes.allocated hn)
    refine ⟨habs, ?_⟩
    rcases law.allowed with ⟨prot', hprot, hallow⟩ | hcow
    · rw [harea] at hprot
      rwa [some.inj hprot]
    · rw [cowPage, habs] at hcow
      simp at hcow
  · rintro ⟨habs, hallow⟩
    obtain ⟨hw, hx, -⟩ := protAllows_iff.mp hallow
    refine ⟨?_, .inl ⟨prot, harea, hallow⟩, fun hp => ?_, fun hp => ?_⟩
    · rw [hpte, permits_iff, leafEntry_has, leafEntry_has, areaFlags_write, areaFlags_nx]
      exact ⟨leafEntry_present, hw, fun hf => by rw [hx hf]; rfl⟩
    · simp [habs] at hp
    · simp [habs] at hp

end

end Law

/-- The answer of `vmm_handle_page_fault` is right exactly for the faults of `FaultOk`. -/
theorem fault_law_iff {top : Nat} {R : Set Nat} {s : State} {r fault : Nat} (h : Sound top R s)
    (hr : r ∈ R) (htop : pageOf fault < top * 2 ^ 27)
    (hdata : (pte top s.mem r (pageOf fault)).present = true →
      Data top R s ((pte top s.mem r (pageOf fault)).frameOf (pageOf fault)))
    (hcount : SmallCounts s.pmm) (vmas : List Vma) (error : Nat) :
    ((vmmHandlePageFault s r vmas fault error).1 = true →
        FaultLaw top s (vmmHandlePageFault s r vmas fault error).2 r vmas fault error) ↔
      FaultOk top s r vmas fault error := by
  have hheld := fun hp a h1 h2 => (hdata hp a h1 h2).1
  unfold FaultOk
  dsimp only
  rcases h.fault_cases hr htop hheld hcount.lt vmas error with
    ⟨hcow, hle, s', hs', hst⟩ | ⟨hcow, hgt, f, s', hs', hc⟩ | ⟨hcow, prot, f, s', harea, hs', hz⟩ |
      ⟨hno, hwhy, hwhy'⟩
  · rw [hs', if_pos hcow]
    have hp := shared_present hcow.2
    simp only [forall_const, faultLaw_stored rfl hcow.2 hr (hdata hp) hst]
    constructor
    · exact fun hx _ => ⟨hx, fun hgt => absurd hgt (not_lt.mpr hle)⟩
    · exact fun hx => (hx (.inl hle)).1
  · rw [hs', if_pos hcow]
    have hp := shared_present hcow.2
    by_cases hb : Blocked top s.mem r (pageOf fault)
    · have hcowPage : (pte top s.mem r (pageOf fault)).cowPage = true := by
        rw [cowPage, hp, (Bool.and_eq_true_iff.mp hcow.2).1]
        rfl
      rw [forall_prop_of_true rfl, faultLaw_kept rfl (hc.unmapped hb r hr _) fun hp i hi =>
        hc.bytes _ (hheld hp _ (by omega) (by omega)) (hdata hp _ (by omega) (by omega)).2,
        permits_iff]
      constructor
      · exact fun hx _ => ⟨hx.1.2.2, fun _ _ => hx.1.2.1 (isWrite_of_mod hcow.1)⟩
      · intro hx
        obtain ⟨hfetch, hwrite⟩ := hx (.inr (hc.fresh.provides h.good))
        exact ⟨⟨hp, fun _ => hwrite hgt hb, hfetch⟩, .inr hcowPage⟩
    · rw [forall_prop_of_true rfl, faultLaw_copied rfl hcow.2 hr hgt hb h.within hc]
      constructor
      · exact fun hx _ => ⟨hx, fun _ hblocked => absurd hblocked hb⟩
      · exact fun hx => (hx (.inr (hc.fresh.provides h.good))).1
  · rw [hs', if_neg hcow]
    simp only [harea, some.injEq, forall_eq', hz.fresh.provides h.good, true_imp_iff]
    by_cases hpop : Populable top s r (pageOf fault)
    · rw [faultLaw_zeroed rfl h hr harea hpop hdata hz]
      exact ⟨fun hx => ⟨fun _ => hx, fun hn => absurd hpop hn⟩, fun hx => hx.1 hpop⟩
    · rw [faultLaw_kept rfl (hz.unmapped hpop r hr _) fun hp i hi =>
        hz.bytes _ (hheld hp _ (by omega) (by omega)) (hdata hp _ (by omega) (by omega)).2]
      simp only [harea, some.injEq, exists_eq_left']
      exact ⟨fun hx => ⟨fun hc => absurd hc hpop, fun _ => hx⟩, fun hx => hx.2 hpop⟩
  · rw [hno]
    refine iff_of_true (fun hc => by simp at hc) ?_
    split_ifs with hcow
    · obtain ⟨hgt, h0⟩ := hwhy hcow
      rintro (hle | hprov)
      · omega
      · exact absurd h0 (provides_one.mp hprov)
    · intro prot hprot hprov
      rcases hwhy' hcow with hnone | h0
      · simp [hnone] at hprot
      · exact absurd h0 (provides_one.mp hprov)

/-- The first read from an area. -/
theorem fault_law_iff_firstRead : ∃ pmm, pmmInit [fivePages] = some pmm ∧
    (let out := vmmHandlePageFault ⟨fun _ => 0, pmm, 0⟩ (2 ^ 20)
      [⟨0x400000, 0x401000, 3⟩] 0x400123 4;
      out.1 = true ∧ FaultLaw 256 ⟨fun _ => 0, pmm, 0⟩ out.2 (2 ^ 20) [⟨0x400000, 0x401000, 3⟩]
        0x400123 4) := by
  obtain ⟨pmm, h0, hrun, hheld⟩ := fivePages_running
  have hblank := sound_oneRoot hrun hheld
  have hpte := pte_blank 256 (2 ^ 20) (pageOf 0x400123)
  have hok : FaultOk 256 ⟨fun _ => 0, pmm, 0⟩ (2 ^ 20) [⟨0x400000, 0x401000, 3⟩] 0x400123 4 := by
    unfold FaultOk
    dsimp only
    intro prot hprot _
    obtain rfl : 3 = prot := some.inj (trans (by decide) hprot)
    have hfour : ∀ pmm ∈ pmmInit [fivePages], Provides pmm 4 := by decide +kernel
    have hle : 1 + missing 256 (fun _ => 0) (2 ^ 20) (pageOf 0x400123) 3 ≤ 4 := by
      simp only [missing]
      split_ifs <;> omega
    refine ⟨fun _ => ⟨by rw [hpte]; decide, by decide⟩, fun hn => absurd ⟨?_, ?_⟩ hn⟩
    · exact not_blocked_blank _ _ _
    · exact (hfour pmm h0).mono hle
  have hlaw := (fault_law_iff hblank rfl (by decide)
    (fun hp => by rw [hpte] at hp; exact absurd hp (by decide))
    hrun.smallCounts [⟨0x400000, 0x401000, 3⟩] 4).mpr hok
  have hyes : ∀ pmm ∈ pmmInit [fivePages], (vmmHandlePageFault ⟨fun _ => 0, pmm, 0⟩ (2 ^ 20)
      [⟨0x400000, 0x401000, 3⟩] 0x400123 4).1 = true := by decide +kernel
  exact ⟨pmm, h0, hyes pmm h0, hlaw (hyes pmm h0)⟩

/-- A write to a page of an area that is mapped without write permission: the handler says that
it has resolved the fault, and the data is gone. -/
theorem fault_loses_data : ∃ pmm, pmmInit [fivePages] = some pmm ∧
    (let s := (vmmMapPage ⟨fun a => if a = 2 ^ 21 then 7 else 0, pmm, 0⟩ (2 ^ 20) 0x400000 (2 ^ 21)
        flagUser).2
      let out := vmmHandlePageFault s (2 ^ 20) [⟨0x400000, 0x401000, 1⟩] 0x400000 7;
      out.1 = true ∧ ¬ FaultLaw 256 s out.2 (2 ^ 20) [⟨0x400000, 0x401000, 1⟩] 0x400000 7) := by
  obtain ⟨pmm, h0, -⟩ := fivePages_running
  have hval : ∀ pmm ∈ pmmInit [fivePages],
      let s := (vmmMapPage ⟨fun a => if a = 2 ^ 21 then 7 else 0, pmm, 0⟩ (2 ^ 20) 0x400000 (2 ^ 21)
        flagUser).2
      let out := vmmHandlePageFault s (2 ^ 20) [⟨0x400000, 0x401000, 1⟩] 0x400000 7
      out.1 = true ∧ (pte 256 s.mem (2 ^ 20) (pageOf 0x400000)).present = true ∧
        out.2.mem ((pte 256 out.2.mem (2 ^ 20) (pageOf 0x400000)).frameOf (pageOf 0x400000) + 0) ≠
          s.mem ((pte 256 s.mem (2 ^ 20) (pageOf 0x400000)).frameOf (pageOf 0x400000) + 0) := by
    decide +kernel
  obtain ⟨hyes, hp, hne⟩ := hval pmm h0
  exact ⟨pmm, h0, hyes, fun law => hne (law.contents hp 0 (by decide))⟩

end YamKernel.Vmm

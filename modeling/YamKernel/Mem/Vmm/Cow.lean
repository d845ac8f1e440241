import YamKernel.Mem.Pmm.Counts
import YamKernel.Mem.Vmm.Leaves

/-!
# Copy-on-write faults

`vmm_handle_cow_fault` on a page with the COW bit: with one reference left the page becomes
writable (`Stored`), with several it is replaced by a copy (`Copied`). The COW bit is all it
looks at.
-/

namespace YamKernel.Vmm

open Lib Pmm Nat Pte

/-- The physical address of page `p` behind the entry. -/
def Pte.frameOf (e : Pte) (p : Nat) : Nat := e.phys (p * pageSize)

/-- `vmm_handle_cow_fault` takes page `p` for one that is shared. -/
def Pte.shared (e : Pte) (p : Nat) : Bool := has e.entry flagCow && e.frameOf p != 0

def Pte.cowFlags (e : Pte) : Nat := clear (e.entry &&& flagMask) flagCow ||| flagWrite

section Frame

variable {e : Pte} {p : Nat}

lemma Pte.frameOf_small (h : e.huge = false) (hp : e.present = true) :
    e.frameOf p = frame e.entry := by
  rw [frameOf, phys_mul e h, if_pos hp]

lemma Pte.frameOf_dvd (e : Pte) (p : Nat) : pageSize ∣ e.frameOf p := by
  have hmask : ∀ x, pageSize ∣ x &&& hugeMask := fun x => by
    refine dvd_of_mod_eq_zero ?_
    rw [show pageSize = 2 ^ 12 from rfl, and_mod_two_pow]
    exact and_zero _
  have hoff : pageSize ∣ p * pageSize % hugePageSize :=
    (dvd_mod_iff (by decide)).mpr (dvd_mul_left _ _)
  cases hh : e.huge with
  | false =>
    rw [frameOf, phys_mul e hh]
    split_ifs
    · exact frame_dvd _
    · exact dvd_zero _
  | true =>
    rw [frameOf, phys, if_pos hh]
    refine dvd_of_mod_eq_zero ?_
    rw [show pageSize = 2 ^ 12 from rfl, or_mod_two_pow]
    simp only [← show pageSize = 2 ^ 12 from rfl, mod_eq_zero_of_dvd (hmask _),
      mod_eq_zero_of_dvd hoff]
    rfl

lemma Pte.shared_present {top : Nat} {m : Mem} {r : Nat} (h : (pte top m r p).shared p = true) :
    (pte top m r p).present = true := by
  unfold shared at h
  rw [Bool.and_eq_true, bne_iff_ne] at h
  by_contra hp
  have hsmall := pte_absent_small (Bool.eq_false_of_not_eq_true hp)
  exact h.2 (by rw [frameOf, phys_mul _ hsmall, if_neg hp])

lemma Pte.cowFlags_lt (e : Pte) : e.cowFlags < 2 ^ 64 := by
  have hmask : e.entry &&& flagMask < 2 ^ 64 := lt_of_le_of_lt and_le_right (by decide)
  exact or_lt_two_pow (lt_of_le_of_lt and_le_left hmask) (by decide)

lemma Pte.cowFlags_write (e : Pte) : has e.cowFlags flagWrite = true := by
  rw [cowFlags, has_or, show has flagWrite flagWrite = true by decide, Bool.or_true]

lemma Pte.cowFlags_has (e : Pte) {f : Nat} (h1 : (2 ^ 64 - (flagCow + 1)) &&& f = f := by decide)
    (h2 : flagMask &&& f = f := by decide) (h3 : has flagWrite f = false := by decide) :
    has e.cowFlags f = has e.entry f := by
  rw [cowFlags, has_or, has_clear h1, has_and h2, h3, Bool.or_false]

end Frame

/-- The page `p` of the space `r` at `old` was copied to the fresh frame `f`, which is mapped in
its place unless a HUGE bit is in the way; one reference to `old` is gone. -/
structure Copied (top : Nat) (R : Set Nat) (s s' : State) (r p f old flags : Nat) : Prop where
  sound : Sound top R s'
  fresh : Fresh s.pmm (pmmAllocPage s.pmm).2 f
  pmm : s'.pmm = (pmmAllocPage s.pmm).2.setRefcount (physToPfn old) (pmmPageRefcount s.pmm old - 1)
  tables : ∀ r' ∈ R, ∀ d n, tableAt top s'.mem r' d n = tableAt top s.mem r' d n
  mapped : ¬ Blocked top s.mem r p → ∀ r' ∈ R, ∀ q, pte top s'.mem r' q =
    if r' = r ∧ q = p then ⟨leafEntry f flags, false⟩ else pte top s.mem r' q
  unmapped : Blocked top s.mem r p → ∀ r' ∈ R, ∀ q, pte top s'.mem r' q = pte top s.mem r' q
  copy : ∀ i < pageSize, s'.mem (f + i) = s.mem (old + i)
  bytes : ∀ a, ¬ FreeAt s.pmm a → (∀ t, IsTable top s.mem R t → ¬ (t ≤ a ∧ a < t + pageSize)) →
    s'.mem a = s.mem a

section Cow

variable {top : Nat} {R : Set Nat} {s : State} {r fault p f old flags : Nat}

lemma pageOf_page (fault : Nat) : pageOf (fault / pageSize * pageSize) = pageOf fault := by
  unfold pageOf pageSize
  omega

/-- Whether the fault is one for `vmm_handle_cow_fault`, and what it does. -/
theorem vmmHandleCowFault_eq (htop : pageOf fault < top * 2 ^ 27) : vmmHandleCowFault s r fault =
    let page := fault / pageSize * pageSize
    let e := pte top s.mem r (pageOf fault)
    let old := e.frameOf (pageOf fault)
    if e.shared (pageOf fault) = true then
      if pmmPageRefcount s.pmm old ≤ 1 then (true, (vmmUpdateFlags s r page e.cowFlags).2)
      else if (pmmAllocPage s.pmm).1 = 0 then (false, { s with pmm := (pmmAllocPage s.pmm).2 })
      else (true, (vmmMapPage { s with
        pmm := (pmmAllocPage s.pmm).2
        mem := s.mem.copy (pmmAllocPage s.pmm).1 old pageSize } r page (pmmAllocPage s.pmm).1
          e.cowFlags).2.pageUnref old)
    else (false, s) := by
  have htop' : pageOf (fault / pageSize * pageSize) < top * 2 ^ 27 := by rwa [pageOf_page]
  have hcow : ∀ x, has (x &&& flagMask) flagCow = has x flagCow := fun _ => has_and
  have hphys : ∀ e : Pte, e.phys (fault / pageSize * pageSize) = e.frameOf (pageOf fault) := by
    intro e
    have h1 : fault / pageSize * pageSize % hugePageSize =
        pageOf fault * pageSize % hugePageSize := by
      unfold pageOf pageSize hugePageSize
      omega
    have h2 : fault / pageSize * pageSize % pageSize = pageOf fault * pageSize % pageSize := by
      rw [mul_mod_left, mul_mod_left]
    rw [frameOf, phys, phys, h1, h2]
  unfold vmmHandleCowFault
  dsimp only
  rw [vmmGetPteFlags_eq htop', vmmVirtToPhys_eq htop', pageOf_page, hphys,
    Nat.div_mul_cancel (frameOf_dvd _ _), hcow]
  generalize pte top s.mem r (pageOf fault) = e
  unfold shared cowFlags
  generalize e.frameOf (pageOf fault) = old
  cases has e.entry flagCow with
  | false => simp
  | true =>
    by_cases old = 0 <;> simp

/-- A page with a table of its own needs no further one. -/
theorem missing_of_table (h : tableAt top s.mem r 3 (p / 512) ≠ none) {d : Nat} (hd : d ≤ 3) :
    missing top s.mem r p d = 0 := by
  induction d with
  | zero => rfl
  | succ d ih =>
    have hsome : tableAt top s.mem r (d + 1) (tableNo p (d + 1)) ≠ none := fun hn => by
      have := tableAt_below (by decide) hd hn
      exact h this
    rw [missing, ih (by omega), if_neg hsome]

lemma tablesWanted_present (hp : (pte top s.mem r p).present = true) :
    tablesWanted top s.mem r p = 0 := by
  by_cases hb : Blocked top s.mem r p
  · rw [tablesWanted, if_pos hb]
  · obtain ⟨pt, hpt, -⟩ := pte_table hp (pte_small hb)
    rw [tablesWanted, if_neg hb]
    exact missing_of_table (by rw [hpt]; simp) le_rfl

lemma Mapped.tableAt_same {s' : State} {e r' : Nat} (g : Mapped top R s s' r p e [])
    (hr' : r' ∈ R) (d n : Nat) : tableAt top s'.mem r' d n = tableAt top s.mem r' d n := by
  cases ht : tableAt top s'.mem r' d n with
  | none =>
    cases ht0 : tableAt top s.mem r' d n with
    | none => rfl
    | some t => rw [g.kept r' hr' d n t ht0] at ht; simp at ht
  | some t =>
    have htab : IsTable top s.mem R t := by simpa using (g.tables t).mp ⟨r', hr', d, n, ht⟩
    obtain ⟨r0, hr0, d0, n0, h0⟩ := htab
    obtain ⟨rfl, rfl, rfl⟩ :=
      g.sound.separate r' hr' r0 hr0 _ _ _ _ t ht (g.kept r0 hr0 d0 n0 t h0)
    exact h0.symm

lemma Sound.copied (h : Sound top R s) (hr : r ∈ R) (htop : pageOf fault < top * 2 ^ 27)
    (hp : (pte top s.mem r (pageOf fault)).present = true) (hold : Held s.pmm old)
    (hd : pageSize ∣ old) (hmany : 1 < pmmPageRefcount s.pmm old)
    (hcount : pmmPageRefcount s.pmm old < 2 ^ 32) (h0 : (pmmAllocPage s.pmm).1 ≠ 0)
    (hf : flags < 2 ^ 64) :
    Copied top R s ((vmmMapPage { s with
      pmm := (pmmAllocPage s.pmm).2
      mem := s.mem.copy (pmmAllocPage s.pmm).1 old pageSize } r (fault / pageSize * pageSize)
        (pmmAllocPage s.pmm).1 flags).2.pageUnref old) r (pageOf fault) (pmmAllocPage s.pmm).1 old
      flags := by
  have hfresh := pmmAllocPage_fresh h.good h0
  have hrc := hfresh.refcount_eq h.good hold hd
  generalize (pmmAllocPage s.pmm).1 = f at *
  have := hfresh.apart hold
  -- The copy goes to a page that is no table.
  have hcopy : KeepsTables top R s.mem (s.mem.copy f old pageSize) := fun t ht i hi =>
    entry_congr hi fun a h1 h2 => Mem.copy_of_notMem (by
      have := h.fresh_apart hfresh ht
      unfold PagesApart at this
      omega) _
  have h1 : Sound top R { s with
      pmm := (pmmAllocPage s.pmm).2, mem := s.mem.copy f old pageSize } :=
    h.keeps hcopy hfresh.good (hfresh.within h.within).2 fun t ht => hfresh.keeps t (h.held t ht)
  have hpte1 := hcopy.pte_eq hr (pageOf fault)
  have hwanted : tablesWanted top (s.mem.copy f old pageSize) r (pageOf fault) = 0 :=
    tablesWanted_present (s := { s with mem := s.mem.copy f old pageSize }) (by rwa [hpte1])
  have hpage : pageOf (fault / pageSize * pageSize) < top * 2 ^ 27 := by rwa [pageOf_page]
  obtain ⟨l, g, -⟩ := h1.mapped hr hpage f hf
  rw [pageOf_page] at g
  have hpmm := g.pmm
  rw [hwanted] at hpmm
  generalize (vmmMapPage _ r _ f flags).2 = s2 at *
  replace hpmm : s2.pmm = (pmmAllocPage s.pmm).2 := hpmm
  have hunref : (s2.pageUnref old).pmm = (pmmAllocPage s.pmm).2.setRefcount (physToPfn old)
      (pmmPageRefcount s.pmm old - 1) := by
    have := pmmPageUnref_several (s := s2.pmm) (by rw [hpmm, hrc]; exact hmany)
      (by rw [hpmm, hrc]; exact hcount)
    rw [hpmm, hrc] at this
    rw [State.pageUnref, hpmm, this]
  have hblocked : Blocked top (s.mem.copy f old pageSize) r (pageOf fault) ↔
      Blocked top s.mem r (pageOf fault) := by
    refine ⟨hcopy.blocked hr, fun hb => ?_⟩
    have hback : KeepsTables top R (s.mem.copy f old pageSize) s.mem := fun t ht i hi =>
      (hcopy t (hcopy.isTable_iff.mp ht) i hi).symm
    exact hback.blocked hr hb
  have hmappable : Mappable top { s with
      pmm := (pmmAllocPage s.pmm).2, mem := s.mem.copy f old pageSize } r (pageOf fault) ↔
      ¬ Blocked top s.mem r (pageOf fault) := by
    rw [Mappable, hblocked, and_iff_left_iff_imp]
    intro hb
    rw [tablesWanted, if_neg (mt hblocked.mp hb)] at hwanted
    rw [hwanted]
    exact provides_zero _
  have hheld : ∀ t, IsTable top s2.mem R t → Held (s2.pageUnref old).pmm t := fun t ht => by
    rw [hunref]
    refine (hfresh.good.held_setRefcount _ _).mpr ?_
    rw [← hpmm]
    exact g.sound.held t ht
  have hl : l = [] := g.takes.eq_nil hfresh.good fun b n => by rw [hpmm]
  refine
    { sound := g.sound.keeps (fun _ _ _ _ => rfl)
        (by rw [hunref]; exact hfresh.good.setRefcount _ _)
        (by rw [hunref]; exact (hfresh.within h.within).2) hheld
      fresh := hfresh
      pmm := hunref
      tables := fun r' hr' d n => ?_
      mapped := fun hb r' hr' q => ?_
      unmapped := fun hb r' hr' q => ?_
      copy := fun i hi => ?_
      bytes := fun a ha hta => ?_ }
  · exact ((hl ▸ g).tableAt_same hr' d n).trans (hcopy.tableAt_eq hr' d n)
  · exact (g.mapped (hmappable.mpr hb) r' hr' q).trans (by rw [hcopy.pte_eq hr'])
  · exact (g.unmapped (fun hm => hmappable.mp hm hb) r' hr' q).trans (hcopy.pte_eq hr' q)
  · have hout : s2.mem (f + i) = s.mem.copy f old pageSize (f + i) :=
      g.bytes (f + i) (hfresh.held _ (by omega) (by omega)) fun t ht hin => by
        have := h.fresh_apart hfresh (hcopy.isTable_iff.mp ht)
        unfold PagesApart at this
        omega
    exact hout.trans (Mem.copy_of_mem (by omega) hi)
  · have hout : ¬ (f ≤ a ∧ a < f + pageSize) := fun hin => ha (hfresh.free a hin.1 hin.2)
    refine (g.bytes a (fun hf => ha (hfresh.freeAt h.good hf)) fun t ht =>
      hta t (hcopy.isTable_iff.mp ht)).trans (Mem.copy_of_notMem (by omega) _)

/-- The four ways `vmm_handle_cow_fault` can end. -/
theorem Sound.cow_cases (h : Sound top R s) (hr : r ∈ R) (htop : pageOf fault < top * 2 ^ 27)
    (hheld : (pte top s.mem r (pageOf fault)).present = true →
      Held s.pmm ((pte top s.mem r (pageOf fault)).frameOf (pageOf fault)))
    (hcount : ∀ f, pmmPageRefcount s.pmm f < 2 ^ 32) :
    let e := pte top s.mem r (pageOf fault)
    let old := e.frameOf (pageOf fault)
    (e.shared (pageOf fault) = false ∧ vmmHandleCowFault s r fault = (false, s)) ∨
    (e.shared (pageOf fault) = true ∧ pmmPageRefcount s.pmm old ≤ 1 ∧
      ∃ s', vmmHandleCowFault s r fault = (true, s') ∧
        Stored top R s s' r (pageOf fault) e.huge (e.relabel e.cowFlags)) ∨
    (e.shared (pageOf fault) = true ∧ 1 < pmmPageRefcount s.pmm old ∧ (pmmAllocPage s.pmm).1 = 0 ∧
      vmmHandleCowFault s r fault = (false, s)) ∨
    (e.shared (pageOf fault) = true ∧ 1 < pmmPageRefcount s.pmm old ∧
      ∃ f s', vmmHandleCowFault s r fault = (true, s') ∧
        Copied top R s s' r (pageOf fault) f old e.cowFlags) := by
  intro e old
  have heq := vmmHandleCowFault_eq (s := s) (r := r) htop
  cases hsh : e.shared (pageOf fault) with
  | false =>
    exact .inl ⟨rfl, by rw [heq, if_neg (by rw [show shared _ _ = false from hsh]; decide)]⟩
  | true =>
    have hp := shared_present hsh
    rw [if_pos hsh] at heq
    by_cases hle : pmmPageRefcount s.pmm old ≤ 1
    · rw [if_pos hle] at heq
      have hpage : pageOf (fault / pageSize * pageSize) < top * 2 ^ 27 := by rwa [pageOf_page]
      obtain ⟨s', hs', hst⟩ := h.updateFlags_spec hr hpage (by rwa [pageOf_page]) e.cowFlags_lt
      rw [pageOf_page] at hst
      exact .inr (.inl ⟨rfl, hle, s', by rw [heq, hs'], hst⟩)
    · rw [if_neg hle] at heq
      by_cases h0 : (pmmAllocPage s.pmm).1 = 0
      · rw [pmmAllocPage_fail h.good h0] at heq
        exact .inr (.inr (.inl ⟨rfl, not_le.mp hle, h0, heq⟩))
      · rw [if_neg h0] at heq
        exact .inr (.inr (.inr ⟨rfl, not_le.mp hle, _, _, heq, h.copied hr htop hp (hheld hp)
          (frameOf_dvd _ _) (not_le.mp hle) (hcount _) h0 e.cowFlags_lt⟩))

end Cow

end YamKernel.Vmm

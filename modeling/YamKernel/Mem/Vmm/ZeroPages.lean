import YamKernel.Mem.Vmm.Calls
import YamKernel.Mem.Vmm.Mapping

/-!
# Pages that are taken, mapped and cleared

`sys_mmap`, `sys_brk` and the fault handler populate a page in the same way: `Zeroed` is what
the three of them do to a page. For a series of pages, the number of requests to the physical
allocator is one for each page and one for each table that is missing on the way to one of
them (`wants`).
-/

namespace YamKernel.Vmm

open Lib Pmm List

/-- The page can be mapped to a frame that is still to be taken. -/
def Populable (top : Nat) (s : State) (r p : Nat) : Prop :=
  ¬ Blocked top s.mem r p ∧ Provides s.pmm (1 + missing top s.mem r p 3)

/-- The frame `f` was taken for page `p` of the space `r`, cleared, and mapped if that was
possible. -/
structure Zeroed (top : Nat) (R : Set Nat) (s s' : State) (r p f flags : Nat) : Prop where
  sound : Sound top R s'
  fresh : Fresh s.pmm (pmmAllocPage s.pmm).2 f
  takes : ∃ l, Takes s.pmm s'.pmm (l ++ [f])
  pmm : s'.pmm = draws (1 + tablesWanted top s.mem r p) s.pmm
  mapped : Populable top s r p → ∀ r' ∈ R, ∀ q, pte top s'.mem r' q =
    if r' = r ∧ q = p then ⟨leafEntry f flags, false⟩ else pte top s.mem r' q
  unmapped : ¬ Populable top s r p → ∀ r' ∈ R, ∀ q, pte top s'.mem r' q = pte top s.mem r' q
  upper : ∀ r' ∈ R, ∀ i < 512, top ≤ i → entry s'.mem r' i = entry s.mem r' i
  zero : ∀ a, f ≤ a → a < f + pageSize → s'.mem a = 0
  bytes : ∀ a, ¬ FreeAt s.pmm a → (∀ t, IsTable top s.mem R t → ¬ (t ≤ a ∧ a < t + pageSize)) →
    s'.mem a = s.mem a
  notTable : ¬ IsTable top s'.mem R f
  tables : ∀ t, IsTable top s'.mem R t → IsTable top s.mem R t ∨
    ∀ a, t ≤ a → a < t + pageSize → FreeAt s.pmm a
  kept : ∀ r' ∈ R, ∀ d n t, tableAt top s.mem r' d n = some t → tableAt top s'.mem r' d n = some t
  shape : ∀ d n, tableAt top s'.mem r d n ≠ none →
    tableAt top s.mem r d n ≠ none ∨ d ≤ 3 ∧ n = tableNo p d
  paved : Populable top s r p → ∀ d ≤ 3, tableAt top s'.mem r d (tableNo p d) ≠ none
  huge : ∀ q, Blocked top s'.mem r q → Blocked top s.mem r q

section Zeroed

variable {top : Nat} {R : Set Nat} {s s' : State} {r p f flags va : Nat}

lemma Sound.keepsTables_fill (h : Sound top R s) (hf : pageSize ∣ f)
    (hnot : ¬ IsTable top s.mem R f) : KeepsTables top R s.mem (s.mem.fill f pageSize 0) := by
  intro t ht i hi
  have hap := PagesApart.of_ne (isTable_dvd h.root ht) hf fun he => hnot (he ▸ ht)
  refine entry_congr hi fun a h1 h2 => Mem.fill_of_notMem ?_
  unfold PagesApart at hap
  omega

/-- A fresh page can be cleared after it was mapped: it is none of the tables. -/
theorem Sound.clear (h : Sound top R s) (hf : pageSize ∣ f) (hnot : ¬ IsTable top s.mem R f) :
    Sound top R { s with mem := s.mem.fill f pageSize 0 } :=
  h.keeps (h.keepsTables_fill hf hnot) h.good h.within h.held

lemma Sound.take (h : Sound top R s) {pmm' : Pmm.State} (hf : Fresh s.pmm pmm' f) :
    Sound top R { s with pmm := pmm' } :=
  h.keeps (fun _ _ _ _ => rfl) hf.good (hf.within h.within).2
    fun t ht => hf.keeps t (h.held t ht)

lemma KeepsTables.blocked {m m' : Mem} (h : KeepsTables top R m m') (hr : r ∈ R) {q : Nat}
    (hq : Blocked top m' r q) : Blocked top m r q := by
  obtain ⟨d, hd, t, ht, hp, hh⟩ := hq
  replace ht := (h.tableAt_eq hr d _).symm.trans ht
  rw [h t ⟨r, hr, d, _, ht⟩ _ (tableIdx_lt q d)] at hp hh
  exact ⟨d, hd, t, ht, hp, hh⟩

/-- A store into a table of leaf entries leaves the way to every page as it is. -/
theorem Sound.blocked_set (h : Sound top R s) (hr : r ∈ R) {n pt i e q : Nat}
    (ht : tableAt top s.mem r 3 n = some pt) (hi : i < 512) (he : e < 2 ^ 64)
    (hq : Blocked top (s.setEntry pt i e).mem r q) : Blocked top s.mem r q := by
  obtain ⟨d, hd, t, htab, hp, hh⟩ := hq
  replace htab := (h.tableAt_set hr ht hi he (nextOf_leaf i _ _) hr d _).symm.trans htab
  have hne : t ≠ pt := by
    rintro rfl
    have := (h.separate r hr r hr _ _ _ _ t htab ht).2.1
    omega
  rw [h.entry_set ⟨r, hr, 3, n, ht⟩ hi he ⟨r, hr, d, _, htab⟩ (tableIdx_lt q d),
    if_neg fun hc => hne hc.1] at hp hh
  exact ⟨d, hd, t, htab, hp, hh⟩

/-- What `vmm_map_page` leaves, whether it succeeds or not. -/
structure Mapped (top : Nat) (R : Set Nat) (s s' : State) (r p : Nat) (e : Nat) (l : List Nat) :
    Prop where
  sound : Sound top R s'
  kernel : s'.kernelPml4 = s.kernelPml4
  takes : Takes s.pmm s'.pmm l
  pmm : s'.pmm = draws (tablesWanted top s.mem r p) s.pmm
  mapped : Mappable top s r p → ∀ r' ∈ R, ∀ q, pte top s'.mem r' q =
    if r' = r ∧ q = p then ⟨e, false⟩ else pte top s.mem r' q
  unmapped : ¬ Mappable top s r p → ∀ r' ∈ R, ∀ q, pte top s'.mem r' q = pte top s.mem r' q
  upper : ∀ r' ∈ R, ∀ i < 512, top ≤ i → entry s'.mem r' i = entry s.mem r' i
  bytes : ∀ a, ¬ FreeAt s.pmm a → (∀ t, IsTable top s.mem R t → ¬ (t ≤ a ∧ a < t + pageSize)) →
    s'.mem a = s.mem a
  tables : ∀ t, IsTable top s'.mem R t ↔ IsTable top s.mem R t ∨ t ∈ l
  kept : ∀ r' ∈ R, ∀ d n t, tableAt top s.mem r' d n = some t → tableAt top s'.mem r' d n = some t
  shape : ∀ d n, tableAt top s'.mem r d n ≠ none →
    tableAt top s.mem r d n ≠ none ∨ d ≤ 3 ∧ n = tableNo p d
  paved : Mappable top s r p → ∀ d ≤ 3, tableAt top s'.mem r d (tableNo p d) ≠ none
  huge : ∀ q, Blocked top s'.mem r q → Blocked top s.mem r q

lemma Sound.mapped (h : Sound top R s) (hr : r ∈ R) (htop : pageOf va < top * 2 ^ 27) (phys : Nat)
    (hflags : flags < 2 ^ 64) :
    ∃ l, Mapped top R s (vmmMapPage s r va phys flags).2 r (pageOf va) (leafEntry phys flags) l ∧
      ((vmmMapPage s r va phys flags).1 = true ↔ Mappable top s r (pageOf va)) := by
  obtain ⟨s1, l, pv, ⟨hout, hno⟩ | ⟨pt, hpt, hout, hyes, hpaved⟩⟩ :=
    h.vmmMapPage_paves hr htop phys flags
  · rw [hout]
    exact ⟨l, ⟨pv.grows.sound, pv.grows.kernel, pv.grows.takes, pv.pmm, fun hm => absurd hm hno,
      fun _ => pv.grows.pte_eq, pv.grows.upper, pv.grows.bytes, pv.grows.tables,
        pv.grows.kept, pv.shape,
      fun hm => absurd hm hno, pv.huge⟩, by simp [hno]⟩
  · rw [hout]
    have g := pv.grows.sound.stored_small hr hpt (leafEntry_lt hflags : leafEntry phys _ < _)
    refine ⟨l, ⟨g.sound, pv.grows.kernel, pv.grows.takes, pv.pmm,
      fun _ r' hr' q => ?_, fun hm => absurd hyes hm,
      fun r' hr' i hi hti => (g.upper r' hr' i hi hti).trans (pv.grows.upper r' hr' i hi hti),
      fun a ha hta => ?_, fun t => g.isTable_iff.trans (pv.grows.tables t),
      fun r' hr' d n t ht => (g.tables r' hr' d n).trans (pv.grows.kept r' hr' d n t ht),
      fun d n hn => pv.shape d n (g.tables r hr d n ▸ hn), fun _ d hd => ?_,
      fun q hq => pv.huge q (pv.grows.sound.blocked_set hr hpt (Nat.mod_lt _ (by decide))
        (leafEntry_lt hflags) hq)⟩, by simp [hyes]⟩
    · rw [g.pte_eq r' hr', pv.grows.pte_eq r' hr']
      rfl
    · -- The leaf entry is stored into a table, old or new.
      rw [g.bytes a, pv.grows.bytes a ha hta]
      intro t ht hin
      rcases (pv.grows.tables t).mp ht with hold | hnew
      · exact hta t hold hin
      · exact ha ((pv.grows.takes.mem h.good hnew).2.2.1 a hin.1 hin.2)
    · rw [g.tables r hr]
      exact hpaved d hd

lemma mapZeroPage_taken (h0 : (pmmAllocPage s.pmm).1 ≠ 0) :
    mapZeroPage s r va flags = (true,
      let s1 := (vmmMapPage { s with pmm := (pmmAllocPage s.pmm).2 } r va (pmmAllocPage s.pmm).1
        flags).2
      { s1 with mem := s1.mem.fill (pmmAllocPage s.pmm).1 pageSize 0 }) := by
  exact if_neg h0

lemma Sound.mapZeroPage_spec (h : Sound top R s) (hr : r ∈ R) (htop : pageOf va < top * 2 ^ 27)
    (hflags : flags < 2 ^ 64) :
    mapZeroPage s r va flags = (false, s) ∧ (pmmAllocPage s.pmm).1 = 0 ∨
      ∃ f s', mapZeroPage s r va flags = (true, s') ∧ Zeroed top R s s' r (pageOf va) f flags := by
  by_cases h0 : (pmmAllocPage s.pmm).1 = 0
  · have hfail := pmmAllocPage_fail h.good h0
    exact .inl ⟨by simp [mapZeroPage, hfail], h0⟩
  have hfresh := pmmAllocPage_fresh h.good h0
  have : draws 1 s.pmm = (pmmAllocPage s.pmm).2 := rfl
  have : Provides s.pmm 1 := provides_one.mpr h0
  refine .inr ⟨(pmmAllocPage s.pmm).1, _, mapZeroPage_taken h0, ?_⟩
  generalize (pmmAllocPage s.pmm).1 = f at *
  obtain ⟨l, g, -⟩ := (h.take hfresh).mapped hr htop f hflags
  have hmappable : Mappable top { s with pmm := (pmmAllocPage s.pmm).2 } r (pageOf va) ↔
      Populable top s r (pageOf va) := by
    rw [Mappable, Populable, provides_add]
    tauto
  have hnot : ¬ IsTable top (vmmMapPage { s with pmm := (pmmAllocPage s.pmm).2 } r va f flags).2.mem
      R f := by
    intro ht
    rcases (g.tables f).mp ht with ht | ht
    · exact h.fresh_notTable hfresh ht
    · have : 0 < pageSize := by decide
      exact hfresh.held f le_rfl (by omega) ((g.takes.mem hfresh.good ht).2.2.1 f le_rfl (by omega))
  have hk := g.sound.keepsTables_fill hfresh.page hnot
  refine
    { sound := g.sound.clear hfresh.page hnot
      fresh := hfresh
      takes := ⟨l, (Takes.cons .nil hfresh).trans g.takes⟩
      pmm := ?_
      mapped := fun hm r' hr' q => (hk.pte_eq hr' q).trans (g.mapped (hmappable.mpr hm) r' hr' q)
      unmapped := fun hm r' hr' q =>
        (hk.pte_eq hr' q).trans (g.unmapped (fun hc => hm (hmappable.mp hc)) r' hr' q)
      upper := fun r' hr' i hi hti =>
        (hk r' ⟨r', hr', 0, 0, Radix.node_zero⟩ i hi).trans (g.upper r' hr' i hi hti)
      zero := fun a h1 h2 => ?_
      bytes := fun a ha hta => ?_
      notTable := fun ht => hnot (hk.isTable_iff.mp ht)
      tables := fun t ht => ?_
      kept := fun r' hr' d n t ht => (hk.tableAt_eq hr' d n).trans (g.kept r' hr' d n t ht)
      shape := fun d n hn => g.shape d n (by rwa [hk.tableAt_eq hr] at hn)
      paved := fun hm d hd => by
        rw [hk.tableAt_eq hr]
        exact g.paved (hmappable.mpr hm) d hd
      huge := fun q hq => g.huge q (hk.blocked hr hq) }
  · rw [draws_add]
    exact g.pmm
  · exact if_pos ⟨h1, h2⟩
  · have : ¬ (f ≤ a ∧ a < f + pageSize) := fun hin => ha (hfresh.free a hin.1 hin.2)
    refine Eq.trans (Mem.fill_of_notMem (by omega)) (g.bytes a (fun hf => ha ?_) hta)
    exact hfresh.freeAt h.good hf
  · rcases (g.tables t).mp (hk.isTable_iff.mp ht) with ht | ht
    · exact .inl ht
    · exact .inr fun a h1 h2 =>
        hfresh.freeAt h.good ((g.takes.mem hfresh.good ht).2.2.1 a h1 h2)

/-- A byte outside free memory and the tables stays outside, and unchanged. -/
theorem Zeroed.outside (g : Zeroed top R s s' r p f flags) (hg : Good s.pmm) {a : Nat}
    (ha : ¬ FreeAt s.pmm a) (hta : ∀ t, IsTable top s.mem R t → ¬ (t ≤ a ∧ a < t + pageSize)) :
    ¬ FreeAt s'.pmm a ∧ (∀ t, IsTable top s'.mem R t → ¬ (t ≤ a ∧ a < t + pageSize)) ∧
      s'.mem a = s.mem a := by
  obtain ⟨l, htakes⟩ := g.takes
  refine ⟨fun hf => ha (htakes.freeAt hg hf), fun t ht hin => ?_, g.bytes a ha hta⟩
  rcases g.tables t ht with ht | hfree
  · exact hta t ht hin
  · exact ha (hfree a hin.1 hin.2)

/-- The frame is from now on outside free memory and the tables. -/
theorem Zeroed.frame_outside (g : Zeroed top R s s' r p f flags) (hg : Good s.pmm) {a : Nat}
    (h1 : f ≤ a) (h2 : a < f + pageSize) :
    ¬ FreeAt s'.pmm a ∧ ∀ t, IsTable top s'.mem R t → ¬ (t ≤ a ∧ a < t + pageSize) := by
  obtain ⟨l, htakes⟩ := g.takes
  refine ⟨(htakes.mem hg (by simp)).2.2.2 a h1 h2, fun t ht hin => ?_⟩
  have hap := PagesApart.of_ne (isTable_dvd g.sound.root ht) g.fresh.page
    fun he => g.notTable (he ▸ ht)
  unfold PagesApart at hap
  omega

end Zeroed

/-! ## The requests for a series of pages -/

/-- The tables on the way to page `p`, by depth and number. -/
def way (p : Nat) : Finset (Nat × Nat) :=
  (Finset.range 3).image fun d => (d + 1, tableNo p (d + 1))

def missingTables (top : Nat) (m : Mem) (root : Nat) (ps : List Nat) : Finset (Nat × Nat) :=
  (ps.toFinset.biUnion way).filter fun x => tableAt top m root x.1 x.2 = none

/-- The requests it takes to populate the pages: their frames and the missing tables. -/
def wants (top : Nat) (m : Mem) (root : Nat) (ps : List Nat) : Nat :=
  ps.length + (missingTables top m root ps).card

section Wants

variable {top : Nat} {m m' : Mem} {root p : Nat} {ps : List Nat}

lemma mem_way {x : Nat × Nat} : x ∈ way p ↔ 0 < x.1 ∧ x.1 ≤ 3 ∧ x.2 = tableNo p x.1 := by
  obtain ⟨d, n⟩ := x
  simp only [way, Finset.mem_image, Finset.mem_range, Prod.mk.injEq]
  constructor
  · rintro ⟨k, hk, rfl, rfl⟩
    exact ⟨by omega, by omega, rfl⟩
  · rintro ⟨h0, h3, rfl⟩
    obtain ⟨k, rfl⟩ : ∃ k, d = k + 1 := ⟨d - 1, by omega⟩
    exact ⟨k, by omega, rfl, rfl⟩

lemma mem_missingTables {x : Nat × Nat} : x ∈ missingTables top m root ps ↔
    (∃ q ∈ ps, x ∈ way q) ∧ tableAt top m root x.1 x.2 = none := by
  simp [missingTables]

/-- For a single page, `missing` counts them. -/
theorem card_way_absent (top : Nat) (m : Mem) (root p : Nat) :
    ((way p).filter fun x => tableAt top m root x.1 x.2 = none).card = missing top m root p 3 := by
  have hinj : Function.Injective fun d => (d + 1, tableNo p (d + 1)) :=
    fun a b hab => by simpa using congrArg Prod.fst hab
  rw [way, Finset.filter_image, Finset.card_image_of_injective _ hinj, Finset.card_filter,
    Finset.sum_range_succ, Finset.sum_range_succ, Finset.sum_range_one]
  simp [missing]

/-- Once the tables for a page have been made, the others need the rest. -/
theorem wants_cons (hkept : ∀ d n, tableAt top m root d n ≠ none → tableAt top m' root d n ≠ none)
    (hshape : ∀ d n, tableAt top m' root d n ≠ none →
      tableAt top m root d n ≠ none ∨ d ≤ 3 ∧ n = tableNo p d)
    (hpaved : ∀ d ≤ 3, tableAt top m' root d (tableNo p d) ≠ none) :
    wants top m root (p :: ps) = 1 + missing top m root p 3 + wants top m' root ps := by
  have hunion : missingTables top m root (p :: ps) =
      ((way p).filter fun x => tableAt top m root x.1 x.2 = none) ∪
        missingTables top m' root ps := by
    ext x
    simp only [mem_missingTables, Finset.mem_union, Finset.mem_filter, mem_cons, exists_eq_or_imp]
    constructor
    · rintro ⟨hw | hw, hnone⟩
      · exact .inl ⟨hw, hnone⟩
      · by_cases hp : x ∈ way p
        · exact .inl ⟨hp, hnone⟩
        · refine .inr ⟨hw, by_contra fun hsome => ?_⟩
          obtain ⟨q, -, hq⟩ := hw
          rcases hshape x.1 x.2 hsome with hs | hs
          · exact hs hnone
          · exact hp (mem_way.mpr ⟨(mem_way.mp hq).1, hs⟩)
    · rintro (⟨hw, hnone⟩ | ⟨hw, hnone⟩)
      · exact ⟨.inl hw, hnone⟩
      · exact ⟨.inr hw, by_contra fun hs => hkept x.1 x.2 hs hnone⟩
  have hdisj : Disjoint ((way p).filter fun x => tableAt top m root x.1 x.2 = none)
      (missingTables top m' root ps) := by
    rw [Finset.disjoint_left]
    intro x hx hx'
    obtain ⟨-, h3, hn⟩ := mem_way.mp (mem_filter.mp hx).1
    have := (mem_missingTables.mp hx').2
    rw [hn] at this
    exact hpaved x.1 h3 this
  rw [wants, wants, hunion, Finset.card_union_of_disjoint hdisj, card_way_absent, length_cons]
  omega

lemma wants_tail (p : Nat) (ps : List Nat)
    (hkept : ∀ d n, tableAt top m root d n ≠ none → tableAt top m' root d n ≠ none) :
    1 + wants top m' root ps ≤ wants top m root (p :: ps) := by
  have hsub : missingTables top m' root ps ⊆ missingTables top m root (p :: ps) := by
    intro x hx
    obtain ⟨⟨q, hq, hw⟩, hnone⟩ := mem_missingTables.mp hx
    exact mem_missingTables.mpr ⟨⟨q, mem_cons_of_mem p hq, hw⟩,
      by_contra fun hs => hkept _ _ hs hnone⟩
  have := Finset.card_le_card hsub
  rw [wants, wants, length_cons]
  omega

/-- The first page needs its frame and the tables missing for it. -/
theorem missing_le_wants (top : Nat) (m : Mem) (root p : Nat) (ps : List Nat) :
    1 + missing top m root p 3 ≤ wants top m root (p :: ps) := by
  have hsub : ((way p).filter fun x => tableAt top m root x.1 x.2 = none) ⊆
      missingTables top m root (p :: ps) := fun x hx =>
    mem_missingTables.mpr ⟨⟨p, by simp, (mem_filter.mp hx).1⟩, (Finset.mem_filter.mp hx).2⟩
  have := Finset.card_le_card hsub
  rw [wants, ← card_way_absent, length_cons]
  omega

end Wants

section Wants

variable {top : Nat} {R : Set Nat} {s s' : State} {r p f flags : Nat} {ps : List Nat}

section

variable (g : Zeroed top R s s' r p f flags)
include g

lemma Zeroed.kept_ne (hr : r ∈ R) (d n : Nat) (h : tableAt top s.mem r d n ≠ none) :
    tableAt top s'.mem r d n ≠ none := by
  obtain ⟨t, ht⟩ := Option.ne_none_iff_exists'.mp h
  rw [g.kept r hr d n t ht]
  simp

/-- Populating a page uses up its share of the requests. -/
theorem Zeroed.wants_cons (hr : r ∈ R) (hp : Populable top s r p) :
    wants top s.mem r (p :: ps) = 1 + tablesWanted top s.mem r p + wants top s'.mem r ps := by
  rw [tablesWanted, if_neg hp.1]
  exact Vmm.wants_cons (g.kept_ne hr) g.shape (g.paved hp)

lemma Zeroed.provides (hr : r ∈ R) (h : Provides s.pmm (wants top s.mem r (p :: ps))) :
    Provides s'.pmm (wants top s'.mem r ps) := by
  rw [g.pmm]
  by_cases hb : Blocked top s.mem r p
  · have hle := wants_tail p ps (g.kept_ne hr)
    rw [tablesWanted, if_pos hb]
    exact (provides_add.mp (h.mono hle)).2
  · have hp : Populable top s r p := ⟨hb, h.mono (missing_le_wants top s.mem r p ps)⟩
    rw [g.wants_cons hr hp] at h
    exact (provides_add.mp h).2

/-- A page that cannot be populated although nothing blocks the way: the memory is used up. -/
theorem Zeroed.exhausted (hg : Good s.pmm) (hb : ¬ Blocked top s.mem r p)
    (hp : ¬ Populable top s r p) : (pmmAllocPage s'.pmm).1 = 0 := by
  rw [g.pmm, tablesWanted, if_neg hb]
  exact not_provides_exhausted hg fun hc => hp ⟨hb, hc⟩

end

end Wants

end YamKernel.Vmm

import YamKernel.Mem.Vmm.Unmapping

/-!
# The break of a task

`sys_brk` grows page by page, skipping addresses that translate already and ending at the
first page without a frame, and shrinks by unmapping. What it promises (`BrkLaw`) it keeps
exactly when the break stays in the lower half, the pages it relies on are writable, and the
memory suffices for the whole growth or not even for its first page (`BrkOk`).
-/

namespace YamKernel.Vmm

open Lib Pmm List Nat

def untranslated (m : Mem) (root : Nat) (ps : List Nat) : List Nat :=
  ps.filter fun p => vmmVirtToPhys m root (p * pageSize) = 0

section Translate

variable {top : Nat} {m m' : Mem} {r p f : Nat} {ps : List Nat}

lemma untranslated_congr (hlt : ∀ p ∈ ps, p < 2 ^ 36 ∧ p < top * 2 ^ 27)
    (h : ∀ p ∈ ps, pte top m' r p = pte top m r p) :
    untranslated m' r ps = untranslated m r ps := by
  refine filter_congr fun p hp => ?_
  rw [translate_congr (hlt p hp).1 (hlt p hp).2 (h p hp)]

lemma translate_leaf (hp : p < 2 ^ 36) (htop : p < top * 2 ^ 27)
    (h : pte top m r p = ⟨leafEntry f brkFlags, false⟩) (hf : pageSize ∣ f) (hlt : f < 2 ^ 52) :
    vmmVirtToPhys m r (p * pageSize) = f := by
  rw [translate_eq hp htop, h, phys_mul _ rfl, Pte.present, leafEntry_present, if_pos rfl,
    leafEntry_frame hf hlt (by decide)]

end Translate

/-! ## Growing -/

section Grow

variable {top : Nat} {R : Set Nat} {s s' : State} {r : Nat} {ps todo : List Nat}

/-- The pages `todo` were populated and the others left alone. -/
structure Grown (top : Nat) (R : Set Nat) (s s' : State) (r : Nat) (todo : List Nat) : Prop where
  old : ∀ q, q ∉ todo → pte top s'.mem r q = pte top s.mem r q
  new : ∀ q ∈ todo, ∃ f, 0 < f ∧ pageSize ∣ f ∧ f < 2 ^ 52 ∧
    pte top s'.mem r q = ⟨leafEntry f brkFlags, false⟩ ∧
    ∀ a, f ≤ a → a < f + pageSize → s'.mem a = 0
  upper : ∀ i < 512, top ≤ i → entry s'.mem r i = entry s.mem r i
  bytes : ∀ a, ¬ FreeAt s.pmm a → (∀ t, IsTable top s.mem R t → ¬ (t ≤ a ∧ a < t + pageSize)) →
    s'.mem a = s.mem a

lemma Grown.refl (s : State) (r : Nat) : Grown top R s s r [] :=
  ⟨fun _ _ => rfl, by simp, fun _ _ _ => rfl, fun _ _ _ => rfl⟩

lemma Zeroed.grown {s1 : State} {p f : Nat} (g : Zeroed top R s s1 r p f brkFlags)
    (hs : Sound top R s) (hr : r ∈ R) (hpop : Populable top s r p) (hp : p ∉ todo)
    (h : Grown top R s1 s' r todo) : Grown top R s s' r (p :: todo) where
  old q hq := by
    obtain ⟨hne, hq⟩ := ne_and_not_mem_of_not_mem_cons hq
    rw [h.old q hq, g.mapped hpop r hr, if_neg fun hc => hne hc.2]
  new q hq := by
    rcases mem_cons.mp hq with rfl | hq
    · refine ⟨f, g.fresh.pos, g.fresh.page, ?_, ?_, fun a h1 h2 => ?_⟩
      · have := (g.fresh.within hs.within).1
        unfold pageSize at this
        omega
      · rw [h.old q hp, g.mapped hpop r hr, if_pos ⟨rfl, rfl⟩]
      · obtain ⟨hfree, htab⟩ := g.frame_outside hs.good h1 h2
        rw [h.bytes a hfree htab, g.zero a h1 h2]
    · exact h.new q hq
  upper i hi hti := (h.upper i hi hti).trans (g.upper r hr i hi hti)
  bytes a ha hta := by
    obtain ⟨hfree, htab, heq⟩ := g.outside hs.good ha hta
    rw [h.bytes a hfree htab, heq]

lemma brkGrow_exhausted (hg : Good s.pmm) (h : (pmmAllocPage s.pmm).1 = 0) (vas : List Nat) :
    brkGrow r s vas =
      (if ∃ va ∈ vas, vmmVirtToPhys s.mem r va = 0 then false else true, s) := by
  have hzero : ∀ va, mapZeroPage s r va brkFlags = (false, s) := fun va => by
    simp [mapZeroPage, pmmAllocPage_fail hg h]
  induction vas with
  | nil => simp [brkGrow]
  | cons va vas ih =>
    by_cases hva : vmmVirtToPhys s.mem r va = 0
    · simp [brkGrow, hva, hzero]
    · simp [brkGrow, hva, ih]

/-- The loop populates every page without a translation if the memory suffices; otherwise it
gives up, or leaves such a page without one. -/
theorem Sound.brkGrow_spec (h : Sound top R s) (hr : r ∈ R) (hnd : ps.Nodup)
    (hlt : ∀ p ∈ ps, p < 2 ^ 36 ∧ p < top * 2 ^ 27) (hclear : ∀ p ∈ ps, ¬ Blocked top s.mem r p) :
    (Provides s.pmm (wants top s.mem r (untranslated s.mem r ps)) →
      ∃ s', brkGrow r s (ps.map (· * pageSize)) = (true, s') ∧
        Grown top R s s' r (untranslated s.mem r ps)) ∧
    (¬ Provides s.pmm (wants top s.mem r (untranslated s.mem r ps)) →
      (brkGrow r s (ps.map (· * pageSize))).1 = false ∨ ∃ p ∈ ps,
        vmmVirtToPhys (brkGrow r s (ps.map (· * pageSize))).2.mem r (p * pageSize) = 0) := by
  induction ps generalizing s with
  | nil => exact ⟨fun _ => ⟨s, rfl, .refl s r⟩, fun hc => absurd (provides_zero _) hc⟩
  | cons p ps ih =>
    obtain ⟨hpnot, hnd⟩ := nodup_cons.mp hnd
    have hlt' : ∀ q ∈ ps, q < 2 ^ 36 ∧ q < top * 2 ^ 27 := fun q hq => hlt q (.tail p hq)
    have hclear' : ∀ q ∈ ps, ¬ Blocked top s.mem r q := fun q hq => hclear q (.tail p hq)
    have hlift : ∀ {out : Bool × State}, (out.1 = false ∨ ∃ q ∈ ps,
        vmmVirtToPhys out.2.mem r (q * pageSize) = 0) → out.1 = false ∨ ∃ q ∈ p :: ps,
        vmmVirtToPhys out.2.mem r (q * pageSize) = 0 := fun ho =>
      ho.imp_right fun ⟨q, hq, he⟩ => ⟨q, .tail p hq, he⟩
    rw [map_cons, brkGrow]
    by_cases hv : vmmVirtToPhys s.mem r (p * pageSize) = 0
    · -- The page is populated, unless the memory ends here.
      have htodo : untranslated s.mem r (p :: ps) = p :: untranslated s.mem r ps := by
        simp [untranslated, hv]
      rw [if_neg (not_not.mpr hv), htodo]
      obtain ⟨hp36, hptop⟩ := hlt p mem_cons_self
      have hpage := pageOf_mul_lt hp36 hptop
      rcases h.mapZeroPage_spec hr hpage (show brkFlags < 2 ^ 64 by decide) with
        ⟨he, hfail⟩ | ⟨f, s1, he, g⟩
      · rw [he]
        refine ⟨fun hprov => absurd hfail ?_, fun _ => .inl rfl⟩
        exact provides_one.mp (hprov.mono (by rw [wants, length_cons]; omega))
      rw [he]
      rw [pageOf_mul hp36] at g
      dsimp only
      have hb := hclear p mem_cons_self
      by_cases hpop : Populable top s r p
      · have hkeep : ∀ q ∈ ps, pte top s1.mem r q = pte top s.mem r q := fun q hq => by
          rw [g.mapped hpop r hr, if_neg]
          rintro ⟨-, rfl⟩
          exact hpnot hq
        have hsame := untranslated_congr hlt' hkeep
        obtain ⟨ihyes, ihno⟩ := ih g.sound hnd hlt' fun q hq hq' => hclear' q hq (g.huge q hq')
        rw [hsame] at ihyes ihno
        rw [g.wants_cons hr hpop, provides_add, ← g.pmm]
        have hfirst : Provides s.pmm (1 + tablesWanted top s.mem r p) := by
          rw [tablesWanted, if_neg hb]
          exact hpop.2
        refine ⟨fun hprov => ?_, fun hno => hlift (ihno fun hc => hno ⟨hfirst, hc⟩)⟩
        obtain ⟨s', he', hgrown⟩ := ihyes hprov.2
        refine ⟨s', he', g.grown h hr hpop ?_ hgrown⟩
        exact fun hc => hpnot (mem_of_mem_filter hc)
      · refine ⟨fun hprov => absurd (hprov.mono (missing_le_wants top s.mem r p _)) fun hc =>
          hpop ⟨hb, hc⟩, fun _ => .inr ⟨p, mem_cons_self, ?_⟩⟩
        rw [brkGrow_exhausted g.sound.good (g.exhausted h.good hb hpop)]
        rw [translate_congr hp36 hptop (g.unmapped hpop r hr p), hv]
    · have htodo : untranslated s.mem r (p :: ps) = untranslated s.mem r ps := by
        simp [untranslated, hv]
      rw [if_pos hv, htodo]
      obtain ⟨ihyes, ihno⟩ := ih h hnd hlt' hclear'
      exact ⟨ihyes, fun hno => hlift (ihno hno)⟩

end Grow

/-! ## The frames of a growth that fails -/

section Frames

variable {s : State} {r : Nat}

lemma getOrCreateTable_takes (hg : Good s.pmm) (t i flags : Nat) :
    ∃ l, Takes s.pmm (getOrCreateTable s t i flags).2.pmm l := by
  unfold getOrCreateTable allocPageTable
  dsimp only
  split_ifs
  · exact ⟨[], .nil⟩
  · exact ⟨[], .nil⟩
  · next h0 =>
    rw [pmmAllocPage_fail hg h0]
    exact ⟨[], .nil⟩
  · next h0 => exact ⟨[_], .cons .nil (pmmAllocPage_fresh hg h0)⟩

lemma vmmMapPage_takes (hg : Good s.pmm) (virt phys flags : Nat) :
    ∃ l, Takes s.pmm (vmmMapPage s r virt phys flags).2.pmm l := by
  unfold vmmMapPage
  have hstep : ∀ {s1 : State} {l : List Nat} (t i flags : Nat), Takes s.pmm s1.pmm l →
      ∃ l', Takes s.pmm (getOrCreateTable s1 t i flags).2.pmm l' := fun t i flags h1 => by
    obtain ⟨l', h2⟩ := getOrCreateTable_takes (h1.good hg) t i flags
    exact ⟨_, h1.trans h2⟩
  obtain ⟨l1, h1⟩ := hstep r (pml4Index virt) (flags &&& flagUser) (.nil)
  generalize getOrCreateTable s r (pml4Index virt) (flags &&& flagUser) = out1 at h1
  obtain ⟨_ | pdpt, s1⟩ := out1
  · exact ⟨l1, h1⟩
  dsimp only
  obtain ⟨l2, h2⟩ := hstep pdpt (pdptIndex virt) (flags &&& flagUser) h1
  generalize getOrCreateTable s1 pdpt (pdptIndex virt) (flags &&& flagUser) = out2 at h2
  obtain ⟨_ | pd, s2⟩ := out2
  · exact ⟨l2, h2⟩
  dsimp only
  obtain ⟨l3, h3⟩ := hstep pd (pdIndex virt) (flags &&& flagUser) h2
  generalize getOrCreateTable s2 pd (pdIndex virt) (flags &&& flagUser) = out3 at h3
  obtain ⟨_ | pt, s3⟩ := out3
  · exact ⟨l3, h3⟩
  · exact ⟨l3, h3⟩

lemma mapZeroPage_takes (hg : Good s.pmm) (va flags : Nat) :
    mapZeroPage s r va flags = (false, s) ∧ (pmmAllocPage s.pmm).1 = 0 ∨
      ∃ l, l ≠ [] ∧ (mapZeroPage s r va flags).1 = true ∧
        Takes s.pmm (mapZeroPage s r va flags).2.pmm l := by
  by_cases h0 : (pmmAllocPage s.pmm).1 = 0
  · exact .inl ⟨by simp [mapZeroPage, pmmAllocPage_fail hg h0], h0⟩
  · have hfresh := pmmAllocPage_fresh hg h0
    obtain ⟨l, hl⟩ := vmmMapPage_takes (s := { s with pmm := (pmmAllocPage s.pmm).2 })
      hfresh.good va (pmmAllocPage s.pmm).1 flags
    rw [mapZeroPage_taken h0]
    exact .inr ⟨l ++ [_], by simp, rfl, (Takes.cons .nil hfresh).trans hl⟩

/-- A growth that fails has taken frames, or the memory was used up before its first page. -/
theorem brkGrow_fails (hg : Good s.pmm) (r : Nat) (vas : List Nat)
    (h : (brkGrow r s vas).1 = false) :
    ((pmmAllocPage s.pmm).1 = 0 ∧ ∃ va ∈ vas, vmmVirtToPhys s.mem r va = 0) ∨
      ∃ l, l ≠ [] ∧ Takes s.pmm (brkGrow r s vas).2.pmm l := by
  -- Frames taken at one page are still taken at the end.
  have hrun : ∀ (vas : List Nat) (s1 : State) (l : List Nat), Takes s.pmm s1.pmm l →
      ∃ l', Takes s.pmm (brkGrow r s1 vas).2.pmm (l' ++ l) := by
    intro vas
    induction vas with
    | nil => exact fun s1 l h1 => ⟨[], h1⟩
    | cons va vas ih =>
      intro s1 l h1
      rw [brkGrow]
      split_ifs
      · exact ih s1 l h1
      · rcases mapZeroPage_takes (h1.good hg) va brkFlags with ⟨he, -⟩ | ⟨k, -, htrue, hk⟩
        · rw [he]
          exact ⟨[], h1⟩
        · generalize mapZeroPage s1 r va brkFlags = out at htrue hk
          obtain ⟨ok, s2⟩ := out
          obtain rfl : ok = true := htrue
          obtain ⟨l', hl'⟩ := ih s2 _ (h1.trans hk)
          exact ⟨l' ++ k, by rwa [append_assoc]⟩
  induction vas with
  | nil => simp [brkGrow] at h
  | cons va vas ih =>
    rw [brkGrow] at h ⊢
    by_cases hv : vmmVirtToPhys s.mem r va = 0
    · rw [if_neg (not_not.mpr hv)] at ⊢
      rcases mapZeroPage_takes hg va brkFlags with ⟨-, h0⟩ | ⟨k, hne, htrue, hk⟩
      · exact .inl ⟨h0, va, mem_cons_self, hv⟩
      · generalize mapZeroPage s r va brkFlags = out at htrue hk
        obtain ⟨ok, s1⟩ := out
        obtain rfl : ok = true := htrue
        obtain ⟨l', hl'⟩ := hrun vas s1 k hk
        exact .inr ⟨l' ++ k, by simp [hne], hl'⟩
    · rw [if_pos hv] at h ⊢
      rcases ih h with ⟨h0, va', hmem, hv'⟩ | htaken
      · exact .inl ⟨h0, va', .tail va hmem, hv'⟩
      · exact .inr htaken

end Frames

/-! ## The law of `sys_brk` -/

/-- Page `p` of the lower half translates and can be written by the user. -/
def UserWritable (m : Mem) (root p : Nat) : Prop :=
  p * pageSize < userEnd ∧ vmmVirtToPhys m root (p * pageSize) ≠ 0 ∧
    has (vmmGetPteFlags m root (p * pageSize)) flagWrite = true ∧
    has (vmmGetPteFlags m root (p * pageSize)) flagUser = true

/-- A new break is granted with every page below it writable, the new ones cleared and those
above it gone; otherwise nothing changed. The upper half is never touched. -/
structure BrkLaw (s : State) (t : Task) (newBrk : Nat) : Prop where
  granted : (sysBrk s t newBrk).1 = newBrk → newBrk ≠ 0 →
    (∀ p, t.initBrk.brkStart / pageSize ≤ p → p * pageSize < newBrk →
      UserWritable (sysBrk s t newBrk).2.1.mem t.pml4 p ∧
      (vmmVirtToPhys s.mem t.pml4 (p * pageSize) = 0 → ∀ o < pageSize,
        let m' := (sysBrk s t newBrk).2.1.mem
        m' (vmmVirtToPhys m' t.pml4 (p * pageSize) + o) = 0)) ∧
    ∀ p, pageAlignUp newBrk ≤ p * pageSize → p * pageSize < t.initBrk.brkCurrent →
      vmmVirtToPhys (sysBrk s t newBrk).2.1.mem t.pml4 (p * pageSize) = 0
  refused : (sysBrk s t newBrk).1 ≠ newBrk →
    (sysBrk s t newBrk).2.2.brkCurrent = t.initBrk.brkCurrent ∧
    KeepsTables 256 {t.pml4} s.mem (sysBrk s t newBrk).2.1.mem ∧
    ∀ b n, Allocated (sysBrk s t newBrk).2.1.pmm b n ↔ Allocated s.pmm b n
  upper : UpperKept s.mem (sysBrk s t newBrk).2.1.mem t.pml4

def brkPages (t : Task) (newBrk : Nat) : List Nat :=
  if t.brkCurrent < newBrk then
    range' (pageAlignUp t.brkCurrent / pageSize)
      (pageAlignUp newBrk / pageSize - pageAlignUp t.brkCurrent / pageSize)
  else []

/-- The new break is below the start of the area; or the memory is used up and a page would be
needed; or the break stays in the lower half, the memory suffices for all pages without a
translation and the other pages below the break are writable. -/
def BrkOk (s : State) (t : Task) (newBrk : Nat) : Prop :=
  newBrk < t.initBrk.brkStart ∨
  ((pmmAllocPage s.pmm).1 = 0 ∧ untranslated s.mem t.pml4 (brkPages t.initBrk newBrk) ≠ []) ∨
  (newBrk ≤ userEnd ∧
    Provides s.pmm (wants 256 s.mem t.pml4 (untranslated s.mem t.pml4
      (brkPages t.initBrk newBrk))) ∧
    ∀ p, t.initBrk.brkStart / pageSize ≤ p → p * pageSize < newBrk →
      p ∉ untranslated s.mem t.pml4 (brkPages t.initBrk newBrk) → UserWritable s.mem t.pml4 p)

section Law

lemma pageAlignUp_dvd (x : Nat) : pageSize ∣ pageAlignUp x := dvd_mul_left _ _

lemma pageAlignUp_spec {x : Nat} (h : x + (pageSize - 1) < 2 ^ 64) :
    x ≤ pageAlignUp x ∧ pageAlignUp x < x + pageSize := by
  unfold pageAlignUp
  rw [u64_of_lt h]
  unfold pageSize at *
  omega

lemma pageAlignUp_le {x : Nat} (h : x ≤ userEnd) : pageAlignUp x ≤ userEnd := by
  unfold pageAlignUp userEnd pageSize at *
  rw [u64_of_lt]
  omega

lemma pagesBetween_eq {a b : Nat} (ha : pageSize ∣ a) (hb : pageSize ∣ b) :
    pagesBetween a b =
      (range' (a / pageSize) (b / pageSize - a / pageSize)).map (· * pageSize) := by
  obtain ⟨i, rfl⟩ := ha
  obtain ⟨j, rfl⟩ := hb
  have hpos : 0 < pageSize := by decide
  rw [pagesBetween, ← Nat.mul_sub, Nat.mul_div_cancel_left _ hpos, Nat.mul_div_cancel_left _ hpos,
    Nat.mul_div_cancel_left _ hpos, range'_eq_map_range, map_map]
  refine map_congr_left fun k _ => ?_
  simp only [Function.comp_apply]
  rw [add_mul, mul_comm pageSize i]

lemma user_page {p : Nat} (h : p * pageSize < userEnd) : p < 2 ^ 36 ∧ p < 256 * 2 ^ 27 := by
  unfold userEnd pageSize at h
  omega

lemma UserWritable.congr {m m' : Mem} {r p : Nat} (h : UserWritable m r p)
    (he : pte 256 m' r p = pte 256 m r p) : UserWritable m' r p := by
  obtain ⟨hlt, hv, hw, hu⟩ := h
  obtain ⟨h36, htop⟩ := user_page hlt
  refine ⟨hlt, ?_, ?_, ?_⟩
  · rwa [translate_congr h36 htop he]
  · rwa [flags_congr h36 htop he]
  · rwa [flags_congr h36 htop he]

lemma userWritable_leaf {m : Mem} {r p f : Nat} (hlt : p * pageSize < userEnd)
    (h : pte 256 m r p = ⟨leafEntry f brkFlags, false⟩) (hpos : 0 < f) (hf : pageSize ∣ f)
    (hf52 : f < 2 ^ 52) : UserWritable m r p := by
  obtain ⟨h36, htop⟩ := user_page hlt
  have hpage := pageOf_mul_lt h36 htop
  have hflags : vmmGetPteFlags m r (p * pageSize) = brkFlags ||| flagPresent := by
    rw [vmmGetPteFlags_eq hpage, pageOf_mul h36, h]
    exact leafEntry_flags (by decide)
  refine ⟨hlt, ?_, ?_, ?_⟩
  · rw [translate_leaf h36 htop h hf hf52]
    exact hpos.ne'
  · rw [hflags]
    decide
  · rw [hflags]
    decide

lemma initBrk_pos (t : Task) : 0 < t.initBrk.brkStart := by
  unfold Task.initBrk
  split_ifs with h
  · exact (by decide : 0 < userBrkDefault)
  · exact pos_of_ne_zero h

lemma initBrk_pml4 (t : Task) : t.initBrk.pml4 = t.pml4 := by
  unfold Task.initBrk
  split_ifs <;> rfl

variable {s : State} {t : Task} {newBrk : Nat}

lemma sysBrk_below (h : newBrk < t.initBrk.brkStart) :
    sysBrk s t newBrk = (t.initBrk.brkCurrent, s, t.initBrk) := by
  unfold sysBrk
  dsimp only
  split_ifs <;> rfl

lemma sysBrk_grow (hlo : t.initBrk.brkStart ≤ newBrk) (h : t.initBrk.brkCurrent < newBrk) :
    sysBrk s t newBrk =
      match brkGrow t.pml4 s ((brkPages t.initBrk newBrk).map (· * pageSize)) with
      | (false, s) => (t.initBrk.brkCurrent, s, t.initBrk)
      | (true, s) => (newBrk, s, { t.initBrk with brkCurrent := newBrk }) := by
  have h0 : newBrk ≠ 0 := by omega
  have hpages : pagesBetween (pageAlignUp t.initBrk.brkCurrent) (pageAlignUp newBrk) =
      (brkPages t.initBrk newBrk).map (· * pageSize) := by
    rw [pagesBetween_eq (pageAlignUp_dvd _) (pageAlignUp_dvd _), brkPages, if_pos h]
  unfold sysBrk
  rw [if_neg h0, if_neg (not_lt.mpr hlo), if_pos h, hpages]
  rcases hout : brkGrow t.pml4 s ((brkPages t.initBrk newBrk).map (· * pageSize)) with
    ⟨_ | _, s'⟩ <;>
    simp [initBrk_pml4, hout]

lemma sysBrk_shrink (hlo : t.initBrk.brkStart ≤ newBrk) (h : newBrk ≤ t.initBrk.brkCurrent) :
    sysBrk s t newBrk = (newBrk,
      ((range' (pageAlignUp newBrk / pageSize)
        (pageAlignUp t.initBrk.brkCurrent / pageSize - pageAlignUp newBrk / pageSize)).map
          (· * pageSize)).foldl (brkShrinkPage t.pml4) s,
      { t.initBrk with brkCurrent := newBrk }) := by
  have h0 : newBrk ≠ 0 := by
    have := initBrk_pos t
    omega
  unfold sysBrk
  simp only [h0, if_false, not_lt.mpr hlo, not_lt.mpr h, initBrk_pml4,
    pagesBetween_eq (pageAlignUp_dvd _) (pageAlignUp_dvd _)]
  rcases lt_or_eq_of_le h with hlt | rfl
  · rw [if_pos hlt]
  · simp

lemma mem_brkPages {p : Nat} (hp : p ∈ brkPages t newBrk) (hnew : newBrk ≤ userEnd) :
    p * pageSize < newBrk ∧ p < 2 ^ 35 := by
  unfold brkPages at hp
  split_ifs at hp
  · obtain ⟨hge, hlt⟩ := mem_range'_1.mp hp
    obtain ⟨hle, hup⟩ := pageAlignUp_spec (x := newBrk) (by unfold userEnd pageSize at *; omega)
    unfold userEnd pageSize at *
    omega
  · simp at hp

lemma brkPages_nodup (t : Task) (newBrk : Nat) : (brkPages t newBrk).Nodup := by
  unfold brkPages
  split_ifs
  · exact nodup_range'
  · exact nodup_nil

lemma brkGrow_refused (hg : Good s.pmm) (r : Nat) (ps : List Nat)
    (h0 : (pmmAllocPage s.pmm).1 = 0) (hps : untranslated s.mem r ps ≠ []) :
    brkGrow r s (ps.map (· * pageSize)) = (false, s) := by
  obtain ⟨p, hp⟩ := exists_mem_of_ne_nil _ hps
  obtain ⟨hp, hv⟩ := mem_filter.mp hp
  have hex : ∃ va ∈ ps.map (· * pageSize), vmmVirtToPhys s.mem r va = 0 :=
    ⟨_, mem_map_of_mem hp, of_decide_eq_true hv⟩
  rw [brkGrow_exhausted hg h0, if_pos hex]

/-- A growth that comes to its end. -/
theorem brkLaw_grown {s' : State} {todo : List Nat} (hs : Sound 256 {t.pml4} s)
    (hup : UpperApart s t.pml4)
    (hle : t.initBrk.brkCurrent ≤ newBrk) (hnew : newBrk ≤ userEnd) (h0 : newBrk ≠ 0)
    (hout : sysBrk s t newBrk = (newBrk, s', { t.initBrk with brkCurrent := newBrk }))
    (g : Grown 256 {t.pml4} s s' t.pml4 todo) : BrkLaw s t newBrk ↔ ∀ p,
      t.initBrk.brkStart / pageSize ≤ p → p * pageSize < newBrk → p ∉ todo →
      UserWritable s.mem t.pml4 p := by
  constructor
  · intro h p hlo hhi hnot
    have := ((h.granted (by rw [hout]) h0).1 p hlo hhi).1
    rw [hout] at this
    exact this.congr (g.old p hnot).symm
  · intro h
    constructor
    · intro _ _
      rw [hout]
      refine ⟨fun p hlo hhi => ?_, fun p h1 h2 => ?_⟩
      · dsimp only
        by_cases htodo : p ∈ todo
        · obtain ⟨f, hpos, hf, hf52, hpte, hzero⟩ := g.new p htodo
          refine ⟨userWritable_leaf (by omega) hpte hpos hf hf52, fun _ o ho => ?_⟩
          rw [translate_leaf (user_page (by omega)).1 (user_page (by omega)).2 hpte hf hf52]
          exact hzero _ (by omega) (by omega)
        · have hw := h p hlo hhi htodo
          exact ⟨hw.congr (g.old p htodo), fun hv => absurd hv hw.2.1⟩
      · have := (pageAlignUp_spec (x := newBrk) (by unfold userEnd pageSize at *; omega)).1
        omega
    · intro hne
      rw [hout] at hne
      exact absurd rfl hne
    · rw [hout]
      exact hup.kept (hs.root _ rfl) g.upper g.bytes

/-- A growth is refused at once, fails on its way, or comes to its end. -/
theorem brkLaw_grow (hs : Sound 256 {t.pml4} s) (hup : UpperApart s t.pml4)
    (hhi : t.initBrk.brkCurrent ≤ userEnd) (hle : t.initBrk.brkStart ≤ t.initBrk.brkCurrent)
    (hclear : ∀ p < 2 ^ 35, ¬ Blocked 256 s.mem t.pml4 p) (hgrow : t.initBrk.brkCurrent < newBrk) :
    BrkLaw s t newBrk ↔ BrkOk s t newBrk := by
  have hnew0 : newBrk ≠ 0 := by omega
  have hstep := sysBrk_grow (s := s) (hle.trans hgrow.le) hgrow
  have hbelow : ¬ newBrk < t.initBrk.brkStart := by omega
  have hrefuse := brkGrow_refused hs.good t.pml4 (brkPages t.initBrk newBrk)
  have hfails := brkGrow_fails hs.good t.pml4 ((brkPages t.initBrk newBrk).map (· * pageSize))
  have hspec := fun hnew => hs.brkGrow_spec rfl (brkPages_nodup t.initBrk newBrk)
    (fun p hp => by have := (mem_brkPages hp hnew).2; omega)
    (fun p hp => hclear p (mem_brkPages hp hnew).2)
  rw [BrkOk, or_iff_right hbelow]
  generalize brkGrow t.pml4 s ((brkPages t.initBrk newBrk).map (· * pageSize)) = out at *
  obtain ⟨ok, s'⟩ := out
  cases ok with
  | false =>
    -- The call returns the old break; the law asks for the frames to be those before it.
    have hlaw : BrkLaw s t newBrk → ∀ b n, Allocated s'.pmm b n ↔ Allocated s.pmm b n := fun h => by
      have := (h.refused (by rw [hstep]; exact hgrow.ne)).2.2
      rwa [hstep] at this
    constructor
    · intro h
      rcases hfails rfl with ⟨h0, va, hva, hv⟩ | ⟨l, hne, htakes⟩
      · obtain ⟨p, hp, rfl⟩ := mem_map.mp hva
        exact .inl ⟨h0, ne_nil_of_mem (mem_filter.mpr ⟨hp, decide_eq_true hv⟩)⟩
      · exact absurd (htakes.eq_nil hs.good (hlaw h)) hne
    · rintro (⟨h0, hps⟩ | ⟨hnew, hprov, -⟩)
      · obtain rfl : s' = s := (Prod.mk.inj (hrefuse h0 hps)).2
        refine ⟨fun hc => ?_, fun _ => ?_, ?_⟩
        · rw [hstep] at hc
          exact absurd hc hgrow.ne
        · rw [hstep]
          exact ⟨rfl, fun _ _ _ _ => rfl, fun _ _ => .rfl⟩
        · rw [hstep]
          exact .refl _ _
      · obtain ⟨s'', he, -⟩ := (hspec hnew).1 hprov
        simp at he
  | true =>
    have hnone : ¬ ((pmmAllocPage s.pmm).1 = 0 ∧
        untranslated s.mem t.pml4 (brkPages t.initBrk newBrk) ≠ []) := fun ⟨h0, hps⟩ => by
      have := hrefuse h0 hps
      simp at this
    rw [or_iff_right hnone]
    constructor
    · intro h
      have hgranted := (h.granted (by rw [hstep]) hnew0).1
      rw [hstep] at hgranted
      -- A page at the end of the lower half cannot be writable for the user.
      have hnew : newBrk ≤ userEnd := by
        by_contra hgt
        have := (hgranted (userEnd / pageSize) (by unfold userEnd pageSize at *; omega)
          (by unfold userEnd pageSize at *; omega)).1.1
        exact absurd this (by decide)
      by_cases hprov : Provides s.pmm
          (wants 256 s.mem t.pml4 (untranslated s.mem t.pml4 (brkPages t.initBrk newBrk)))
      · obtain ⟨s'', he, g⟩ := (hspec hnew).1 hprov
        obtain rfl : s' = s'' := (Prod.mk.inj he).2
        exact ⟨hnew, hprov, (brkLaw_grown hs hup hgrow.le hnew hnew0 hstep g).mp h⟩
      · rcases (hspec hnew).2 hprov with hc | ⟨p, hp, hv⟩
        · simp at hc
        · have hlow : t.initBrk.brkStart / pageSize ≤ p := by
            unfold brkPages at hp
            rw [if_pos hgrow] at hp
            have h1 := (mem_range'_1.mp hp).1
            have h2 := (pageAlignUp_spec (x := t.initBrk.brkCurrent)
              (by unfold userEnd pageSize at *; omega)).1
            exact (Nat.div_le_div_right (hle.trans h2)).trans h1
          exact absurd hv (hgranted p hlow (mem_brkPages hp hnew).1).1.2.1
    · rintro ⟨hnew, hprov, hw⟩
      obtain ⟨s'', he, g⟩ := (hspec hnew).1 hprov
      obtain rfl : s' = s'' := (Prod.mk.inj he).2
      exact (brkLaw_grown hs hup hgrow.le hnew hnew0 hstep g).mpr hw

lemma brkLaw_shrink (hs : Sound 256 {t.pml4} s) (hup : UpperApart s t.pml4)
    (hhi : t.initBrk.brkCurrent ≤ userEnd) (hclear : ∀ p < 2 ^ 35, ¬ Blocked 256 s.mem t.pml4 p)
    (hlo : t.initBrk.brkStart ≤ newBrk) (hshrink : newBrk ≤ t.initBrk.brkCurrent) :
    BrkLaw s t newBrk ↔ BrkOk s t newBrk := by
  have hnew0 : newBrk ≠ 0 := by
    have := initBrk_pos t
    omega
  have hstep := sysBrk_shrink (s := s) hlo hshrink
  have hpages : brkPages t.initBrk newBrk = [] := by
    unfold brkPages
    rw [if_neg (not_lt.mpr hshrink)]
  have := pageAlignUp_le hhi
  obtain ⟨hge, -⟩ := pageAlignUp_spec (x := newBrk) (by unfold userEnd pageSize at *; omega)
  obtain ⟨hge', -⟩ := pageAlignUp_spec (x := t.initBrk.brkCurrent)
    (by unfold userEnd pageSize at *; omega)
  obtain ⟨i, hi⟩ := pageAlignUp_dvd newBrk
  obtain ⟨j, hj⟩ := pageAlignUp_dvd t.initBrk.brkCurrent
  generalize hps : range' _ _ = ps at hstep
  have hlt : ∀ p ∈ ps, p < 2 ^ 35 ∧ newBrk ≤ p * pageSize := fun p hp => by
    obtain ⟨h1, h2⟩ := mem_range'_1.mp (hps ▸ hp)
    unfold userEnd pageSize at *
    omega
  obtain ⟨hun, -⟩ := hs.unmap_spec (fun pmm f => (pmmPageUnref pmm f).2) rfl
    (hps ▸ nodup_range') (fun p hp => by have := (hlt p hp).1; omega)
    fun p hp => hclear p (hlt p hp).1
  rw [brkShrinkPage] at hstep
  generalize foldl (unmapDropping _ t.pml4) s _ = s' at *
  have hsame : ∀ p, p * pageSize < newBrk → pte 256 s'.mem t.pml4 p = pte 256 s.mem t.pml4 p :=
    fun p hp => (hun.pte_eq p).trans (if_neg fun hc => by
      have := (hlt p hc.1).2
      omega)
  rw [BrkOk, hpages]
  constructor
  · intro h
    have hgranted := (h.granted (by rw [hstep]) hnew0).1
    rw [hstep] at hgranted
    refine .inr (.inr ⟨hshrink.trans hhi, provides_zero _, fun p h1 h2 _ => ?_⟩)
    exact (hgranted p h1 h2).1.congr (hsame p h2).symm
  · rintro (hb | ⟨-, hps⟩ | ⟨hnew, -, hw⟩)
    · omega
    · exact absurd rfl hps
    · refine ⟨fun _ _ => ?_, fun hne => ?_, ?_⟩
      · rw [hstep]
        refine ⟨fun p h1 h2 => ?_, fun p h1 h2 => ?_⟩
        · have hwp := hw p h1 h2 (by simp [untranslated])
          exact ⟨hwp.congr (hsame p h2), fun hv => absurd hv hwp.2.1⟩
        · have hmem : p ∈ ps := hps ▸ mem_range'_1.mpr (by unfold pageSize at *; omega)
          have h36 := user_page (h2.trans_le hhi)
          have hpte := hun.pte_eq p
          by_cases hv : vmmVirtToPhys s.mem t.pml4 (p * pageSize) = 0
          · rw [if_neg fun hc => hc.2 hv] at hpte
            rw [translate_congr h36.1 h36.2 hpte, hv]
          · rw [if_pos ⟨hmem, hv⟩] at hpte
            rw [translate_eq h36.1 h36.2, hpte]
            rfl
      · rw [hstep] at hne
        exact absurd rfl hne
      · rw [hstep]
        exact hup.kept (hs.root _ rfl) hun.upper fun a _ hta => hun.bytes a hta

end Law

/-- `sys_brk` keeps its law exactly for the breaks described by `BrkOk`. -/
theorem brk_law_iff {s : State} {t : Task} {newBrk : Nat} (hs : Sound 256 {t.pml4} s)
    (hup : UpperApart s t.pml4) (hle : t.initBrk.brkStart ≤ t.initBrk.brkCurrent)
    (hhi : t.initBrk.brkCurrent ≤ userEnd) (hclear : ∀ p < 2 ^ 35, ¬ Blocked 256 s.mem t.pml4 p) :
    BrkLaw s t newBrk ↔ BrkOk s t newBrk := by
  by_cases hlo : newBrk < t.initBrk.brkStart
  · refine iff_of_true ?_ (.inl hlo)
    have hstep := sysBrk_below (s := s) hlo
    refine ⟨fun hc => ?_, fun _ => ?_, ?_⟩
    · rw [hstep] at hc
      omega
    · rw [hstep]
      exact ⟨rfl, fun _ _ _ _ => rfl, fun _ _ => .rfl⟩
    · rw [hstep]
      exact .refl _ _
  · rcases lt_or_ge t.initBrk.brkCurrent newBrk with hgrow | hshrink
    · exact brkLaw_grow hs hup hhi hle hclear hgrow
    · exact brkLaw_shrink hs hup hhi hclear (not_lt.mp hlo) hshrink

/-! ## An empty address space -/

def freshTask : Task := ⟨2 ^ 20, [], 0, 0⟩

/-- The first page of the area is granted. -/
theorem brk_law_iff_firstPage : ∃ pmm, pmmInit [fivePages] = some pmm ∧
    BrkLaw ⟨fun _ => 0, pmm, 0⟩ freshTask (userBrkDefault + pageSize) := by
  obtain ⟨pmm, h0, hrun, hheld⟩ := fivePages_running
  have hprov : ∀ pmm ∈ pmmInit [fivePages], Provides pmm (wants 256 (fun _ => 0) (2 ^ 20)
      (untranslated (fun _ => 0) (2 ^ 20)
        (brkPages freshTask.initBrk (userBrkDefault + pageSize)))) := by decide +kernel
  refine ⟨pmm, h0, (brk_law_iff (sound_oneRoot hrun hheld) (upperApart_blank _ _ _) (by decide)
    (by decide) fun p _ => not_blocked_blank _ _ p).mpr (.inr (.inr ⟨by decide, hprov pmm h0, ?_⟩))⟩
  intro p h1 h2 hnot
  obtain rfl : p = 1024 := by
    have h1 : 1024 ≤ p := h1
    unfold userBrkDefault pageSize at h2
    omega
  exact absurd (by decide +kernel : 1024 ∈ untranslated (fun _ => 0) (2 ^ 20)
    (brkPages freshTask.initBrk (userBrkDefault + pageSize))) hnot

/-- Eight pages are asked for where five are left: the call returns the old break, with frames
taken and pages mapped. -/
theorem brk_keeps_frames : ∃ pmm, pmmInit [fivePages] = some pmm ∧ Running pmm ∧
    Sound 256 {freshTask.pml4} ⟨fun _ => 0, pmm, 0⟩ ∧
    (sysBrk ⟨fun _ => 0, pmm, 0⟩ freshTask (userBrkDefault + 8 * pageSize)).1 = userBrkDefault ∧
    ¬ BrkLaw ⟨fun _ => 0, pmm, 0⟩ freshTask (userBrkDefault + 8 * pageSize) := by
  obtain ⟨pmm, h0, hrun, hheld⟩ := fivePages_running
  have hsound : Sound 256 {freshTask.pml4} ⟨fun _ => 0, pmm, 0⟩ := sound_oneRoot hrun hheld
  have hval : ∀ pmm ∈ pmmInit [fivePages],
      (sysBrk ⟨fun _ => 0, pmm, 0⟩ freshTask (userBrkDefault + 8 * pageSize)).1 = userBrkDefault ∧
      (pmmAllocPage pmm).1 ≠ 0 ∧ ¬ Provides pmm (wants 256 (fun _ => 0) (2 ^ 20)
        (untranslated (fun _ => 0) (2 ^ 20)
          (brkPages freshTask.initBrk (userBrkDefault + 8 * pageSize)))) := by decide +kernel
  obtain ⟨hret, halloc, hno⟩ := hval pmm h0
  refine ⟨pmm, h0, hrun, hsound, hret, fun hlaw => ?_⟩
  rcases (brkLaw_grow hsound (upperApart_blank _ _ _) (by decide) (by decide)
    (fun p _ => not_blocked_blank _ _ p) (by decide)).mp hlaw with hb | ⟨hz, -⟩ | ⟨-, hprov, -⟩
  · exact absurd hb (by decide)
  · exact halloc hz
  · exact hno hprov

end YamKernel.Vmm

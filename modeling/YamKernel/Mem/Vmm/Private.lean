import YamKernel.Mem.Vmm.Spaces

/-!
# Address spaces under construction

A space that a loader fills has frames of its own: `Private`. What user code will read in it is
`userView`, a memory over virtual addresses. A store through a translation is a store of this
memory, and mapping a frame replaces one page of it.
-/

namespace YamKernel.Vmm

open Lib Pmm Nat

/-- Each page of the lower half has a frame that belongs to no other page, no table and no free
memory. -/
structure Private (r : Nat) (s : State) : Prop where
  sound : Sound 256 {r} s
  clear : ∀ p < 2 ^ 35, ¬ Blocked 256 s.mem r p
  data : ∀ p < 2 ^ 35, (pte 256 s.mem r p).present = true →
    Data 256 {r} s ((pte 256 s.mem r p).frameOf p)
  pos : ∀ p < 2 ^ 35, (pte 256 s.mem r p).present = true → 0 < (pte 256 s.mem r p).frameOf p
  alone : ∀ p < 2 ^ 35, ∀ q < 2 ^ 35, (pte 256 s.mem r p).present = true →
    (pte 256 s.mem r q).present = true →
    (pte 256 s.mem r p).frameOf p = (pte 256 s.mem r q).frameOf q → p = q

/-- The memory of the space `r`; addresses that are not mapped read as zero. -/
def userView (r : Nat) (s : State) : Mem := fun va =>
  if va < userEnd ∧ vmmVirtToPhys s.mem r va ≠ 0 then s.mem (vmmVirtToPhys s.mem r va) else 0

section View

variable {r p va : Nat} {s s' : State}

lemma pageOf_user (hva : va < userEnd) : pageOf va = va / pageSize ∧ va / pageSize < 2 ^ 35 := by
  unfold pageOf userEnd pageSize at *
  omega

lemma pte_huge_blocked (h : (pte 256 s.mem r p).huge = true) : Blocked 256 s.mem r p := by
  cases hs : leafSlot 256 s.mem r p with
  | none => simp [pte, hs] at h
  | some x =>
    obtain ⟨t, i, huge⟩ := x
    obtain rfl : huge = true := by simpa [pte, hs] using h
    obtain ⟨ht, rfl, hp, hh⟩ := leafSlot_huge.mp hs
    refine ⟨2, by decide, t, ?_, ?_, ?_⟩
    · rwa [tableNo_two]
    · rwa [tableIdx_two]
    · rwa [tableIdx_two]

section

variable (h : Private r s)
include h

lemma Private.small (hp : p < 2 ^ 35) : (pte 256 s.mem r p).huge = false :=
  Bool.eq_false_iff.mpr fun hh => h.clear p hp (pte_huge_blocked hh)

lemma Private.virtToPhys (hva : va < userEnd) :
    vmmVirtToPhys s.mem r va = if (pte 256 s.mem r (va / pageSize)).present then
      (pte 256 s.mem r (va / pageSize)).frameOf (va / pageSize) + va % pageSize else 0 := by
  obtain ⟨hpage, hlt⟩ := pageOf_user hva
  rw [vmmVirtToPhys_eq (show pageOf va < 256 * 2 ^ 27 by omega), hpage]
  split_ifs with hp
  · rw [Pte.phys_eq hp, hpage]
  · rw [Pte.phys, h.small hlt]
    simp [hp]

lemma Private.virtToPhys_ne (hva : va < userEnd) :
    vmmVirtToPhys s.mem r va ≠ 0 ↔ (pte 256 s.mem r (va / pageSize)).present = true := by
  rw [h.virtToPhys hva]
  split_ifs with hp
  · have := h.pos _ (pageOf_user hva).2 hp
    exact ⟨fun _ => hp, fun _ => by omega⟩
  · exact ⟨fun hc => absurd rfl hc, fun hc => absurd hc hp⟩

lemma Private.view_eq (hva : va < userEnd) :
    userView r s va = if (pte 256 s.mem r (va / pageSize)).present then
      s.mem ((pte 256 s.mem r (va / pageSize)).frameOf (va / pageSize) + va % pageSize) else 0 := by
  unfold userView
  by_cases hp : (pte 256 s.mem r (va / pageSize)).present = true
  · rw [if_pos ⟨hva, (h.virtToPhys_ne hva).mpr hp⟩, h.virtToPhys hva, if_pos hp, if_pos hp]
  · rw [if_neg fun hc => hp ((h.virtToPhys_ne hva).mp hc.2), if_neg hp]

lemma Private.apart {q : Nat} (hp : p < 2 ^ 35) (hq : q < 2 ^ 35)
    (hpp : (pte 256 s.mem r p).present = true) (hqp : (pte 256 s.mem r q).present = true)
    (hne : p ≠ q) : PagesApart ((pte 256 s.mem r p).frameOf p) ((pte 256 s.mem r q).frameOf q) :=
  .of_ne (Pte.frameOf_dvd _ _) (Pte.frameOf_dvd _ _) fun he => hne (h.alone p hp q hq hpp hqp he)

/-- Bytes outside the tables may change. -/
theorem Private.congr (hk : KeepsTables 256 {r} s.mem s'.mem) (hpmm : s'.pmm = s.pmm) :
    Private r s' ∧ ∀ p, pte 256 s'.mem r p = pte 256 s.mem r p := by
  have hpte := hk.pte_eq rfl
  refine ⟨⟨?_, fun p hp hb => h.clear p hp (hk.blocked rfl hb), fun p hp hpp => ?_, ?_, ?_⟩, hpte⟩
  · exact h.sound.keeps hk (hpmm ▸ h.sound.good) (hpmm ▸ h.sound.within)
      fun t ht => hpmm ▸ h.sound.held t ht
  · rw [hpte] at hpp ⊢
    exact (h.data p hp hpp).grow (fun a ha => hpmm ▸ ha) fun t ht => .inl (hk.isTable_iff.mp ht)
  · simp only [hpte]
    exact h.pos
  · simp only [hpte]
    exact h.alone

end

end View

section Store

variable {r p : Nat} {s : State} {m : Mem}

lemma Data.keepsTables {R : Set Nat} {f : Nat} (h : Data 256 R s f)
    (hm : ∀ a, ¬ (f ≤ a ∧ a < f + pageSize) → m a = s.mem a) : KeepsTables 256 R s.mem m := by
  intro t ht i hi
  refine entry_congr hi fun a h1 h2 => hm a fun hin => ?_
  exact (h a hin.1 hin.2).2 t ht ⟨h1, h2⟩

/-- Rewriting the frame of a page rewrites the page. -/
theorem Private.rewrite (h : Private r s) (hp : p < 2 ^ 35)
    (hpp : (pte 256 s.mem r p).present = true)
    (hm : ∀ a,
      ¬ ((pte 256 s.mem r p).frameOf p ≤ a ∧ a < (pte 256 s.mem r p).frameOf p + pageSize) →
        m a = s.mem a) :
    Private r { s with mem := m } ∧ (∀ q, pte 256 m r q = pte 256 s.mem r q) ∧
      ∀ va, userView r { s with mem := m } va =
        if va / pageSize = p then m ((pte 256 s.mem r p).frameOf p + va % pageSize)
        else userView r s va := by
  have hk := (h.data p hp hpp).keepsTables hm
  obtain ⟨h', hpte⟩ : Private r { s with mem := m } ∧ ∀ q, pte 256 m r q = pte 256 s.mem r q :=
    h.congr hk rfl
  refine ⟨h', hpte, fun va => ?_⟩
  by_cases hva : va < userEnd
  · rw [h'.view_eq hva, h.view_eq hva]
    rw [hpte]
    have hlt := (pageOf_user hva).2
    by_cases hvp : va / pageSize = p
    · rw [if_pos hvp, hvp, if_pos hpp]
    · split_ifs with hq
      · have hap := h.apart hp hlt hpp hq (symm hvp)
        have : va % pageSize < pageSize := mod_lt _ (by decide)
        refine hm _ ?_
        unfold PagesApart at hap
        omega
      · rfl
  · have hne : va / pageSize ≠ p := by
      unfold userEnd at hva
      unfold pageSize
      omega
    rw [if_neg hne, userView, userView, if_neg fun hc => hva hc.1, if_neg fun hc => hva hc.1]

lemma Private.store (h : Private r s) {a : Nat} {l : List UInt8} (ha : a < userEnd)
    (hl : a % pageSize + l.length ≤ pageSize) (hne : vmmVirtToPhys s.mem r a ≠ 0) :
    let s' := { s with mem := s.mem.store (vmmVirtToPhys s.mem r a) l }
    Private r s' ∧ (∀ q, pte 256 s'.mem r q = pte 256 s.mem r q) ∧
      userView r s' = (userView r s).store a l := by
  have hpp := (h.virtToPhys_ne ha).mp hne
  have hp := (pageOf_user ha).2
  have hphys : vmmVirtToPhys s.mem r a =
      (pte 256 s.mem r (a / pageSize)).frameOf (a / pageSize) + a % pageSize := by
    rw [h.virtToPhys ha, if_pos hpp]
  generalize vmmVirtToPhys s.mem r a = phys at hphys
  obtain ⟨h', hpte, hview⟩ := h.rewrite (m := s.mem.store phys l) hp hpp fun x hx =>
    Mem.store_of_notMem (by omega)
  refine ⟨h', hpte, funext fun va => ?_⟩
  rw [hview]
  by_cases hvp : va / pageSize = a / pageSize
  · -- Inside the page, addresses and physical addresses differ by a constant.
    have hdiv := div_add_mod va pageSize
    have := div_add_mod a pageSize
    rw [hvp] at hdiv
    have hva : va < userEnd := by
      unfold userEnd pageSize at *
      omega
    rw [if_pos hvp, Mem.store, Mem.store, h.view_eq hva, hvp, if_pos hpp]
    by_cases hle : a ≤ va
    · rw [if_pos hle, if_pos (by omega)]
      congr 2
      omega
    · rw [if_neg hle, if_neg (by omega)]
  · rw [if_neg hvp, Mem.store_of_notMem]
    by_contra hin
    refine hvp ?_
    unfold pageSize at *
    omega

end Store

section Map

variable {r f flags va : Nat} {s t : State}

/-- The page at `f` is no free memory of `pmm`, which has taken pages only, and the space does not
use it. -/
structure Spare (r : Nat) (s : State) (pmm : Pmm.State) (f : Nat) : Prop where
  good : Good pmm
  within : Within (2 ^ 52) pmm
  taken : ∀ a, FreeAt pmm a → FreeAt s.pmm a
  pos : 0 < f
  page : pageSize ∣ f
  lt : f < 2 ^ 52
  held : Held pmm f
  table : ¬ IsTable 256 s.mem {r} f
  frame : ∀ p < 2 ^ 35, (pte 256 s.mem r p).present = true → (pte 256 s.mem r p).frameOf p ≠ f

lemma Private.spare_fresh (h : Private r s) {pmm : Pmm.State} (hfresh : Fresh s.pmm pmm f) :
    Spare r s pmm f where
  good := hfresh.good
  within := (hfresh.within h.sound.within).2
  taken _ ha := hfresh.freeAt h.sound.good ha
  pos := hfresh.pos
  page := hfresh.page
  lt := by
    have := (hfresh.within h.sound.within).1
    unfold pageSize at this
    omega
  held := hfresh.held
  table ht := by
    have hpos : f < f + pageSize := Nat.lt_add_of_pos_right (by decide)
    exact h.sound.held f ht f le_rfl hpos (hfresh.free f le_rfl hpos)
  frame p hp hpp he := by
    have hpos : f < f + pageSize := Nat.lt_add_of_pos_right (by decide)
    have := (h.data p hp hpp f (by rw [he]) (by rwa [he])).1
    exact this (hfresh.free f le_rfl hpos)

lemma Private.spare_apart (h : Private r s) {pmm : Pmm.State} (hspare : Spare r s pmm f) {u : Nat}
    (hu : IsTable 256 s.mem {r} u) : PagesApart u f :=
  .of_ne (isTable_dvd h.sound.root hu) hspare.page fun he => hspare.table (he ▸ hu)

lemma Private.spare_sound (h : Private r s) (hspare : Spare r s t.pmm f)
    (hm : ∀ a, ¬ (f ≤ a ∧ a < f + pageSize) → t.mem a = s.mem a) :
    KeepsTables 256 {r} s.mem t.mem ∧ Sound 256 {r} t := by
  have hk : KeepsTables 256 {r} s.mem t.mem := fun u ht i hi => by
    refine entry_congr hi fun a h1 h2 => hm a ?_
    have := h.spare_apart hspare ht
    unfold PagesApart at this
    omega
  exact ⟨hk, h.sound.keeps hk hspare.good hspare.within
    fun u ht a h1 h2 ha => h.sound.held u ht a h1 h2 (hspare.taken a ha)⟩

lemma missing_le (top : Nat) (m : Mem) (root p d : Nat) : missing top m root p d ≤ d := by
  induction d with
  | zero => exact le_rfl
  | succ d ih =>
    rw [missing]
    split_ifs <;> omega

section

variable (h : Private r s) (hspare : Spare r s t.pmm f)
  (hm : ∀ a, ¬ (f ≤ a ∧ a < f + pageSize) → t.mem a = s.mem a) (hva : va < userEnd)
  (hflags : flags < 2 ^ 64)
include h hspare hm hva hflags

/-- Mapping a spare frame takes three pages at most, and three are enough. -/
theorem Private.map_supply :
    (∃ k ≤ 3, (vmmMapPage t r va f flags).2.pmm = draws k t.pmm) ∧
      (Provides t.pmm 3 → (vmmMapPage t r va f flags).1 = true) := by
  obtain ⟨hpage, hp⟩ := pageOf_user hva
  obtain ⟨hk, hsound⟩ := h.spare_sound hspare hm
  obtain ⟨l, g, hiff⟩ := hsound.mapped rfl (by rw [hpage]; omega) f hflags
  rw [hpage] at hiff
  refine ⟨⟨_, ?_, g.pmm⟩, fun hprov => hiff.mpr ⟨fun hb => h.clear _ hp (hk.blocked rfl hb), ?_⟩⟩
  · unfold tablesWanted
    split_ifs
    · exact zero_le _
    · exact missing_le ..
  · exact hprov.mono (missing_le ..)

/-- A frame that is not in use is mapped with any contents, or not at all. -/
theorem Private.map (hframe : frame flags = 0) : let out := vmmMapPage t r va f flags
    Private r out.2 ∧
      (out.1 = true →
        (∀ q, pte 256 out.2.mem r q =
          if q = va / pageSize then ⟨leafEntry f flags, false⟩ else pte 256 s.mem r q) ∧
        ∀ x, userView r out.2 x =
          if x / pageSize = va / pageSize then t.mem (f + x % pageSize) else userView r s x) ∧
      (out.1 = false → (∀ q, pte 256 out.2.mem r q = pte 256 s.mem r q) ∧
        userView r out.2 = userView r s) := by
  intro out
  obtain ⟨hpage, hp⟩ := pageOf_user hva
  have htab := fun u => h.spare_apart hspare (u := u)
  obtain ⟨hk, hsound⟩ := h.spare_sound hspare hm
  have hpte₀ := hk.pte_eq rfl
  obtain ⟨l, g, hiff⟩ := hsound.mapped rfl (by rw [hpage]; omega) f hflags
  rw [hpage] at g hiff
  have hgrow : ∀ {x}, Data 256 {r} s x → Data 256 {r} out.2 x := fun {x} hd => by
    refine hd.grow (fun a ha => hspare.taken a (g.takes.freeAt hspare.good ha)) fun u ht => ?_
    rcases (g.tables u).mp ht with ht | hl
    · exact .inl (hk.isTable_iff.mp ht)
    · exact .inr fun a h1 h2 => hspare.taken a ((g.takes.mem hspare.good hl).2.2.1 a h1 h2)
  have hnew : Data 256 {r} out.2 f := by
    intro a h1 h2
    refine ⟨g.takes.keeps hspare.good hspare.held a h1 h2, fun u ht hin => ?_⟩
    rcases (g.tables u).mp ht with ht | hl
    · have := htab u (hk.isTable_iff.mp ht)
      unfold PagesApart at this
      omega
    · exact hspare.held a h1 h2 ((g.takes.mem hspare.good hl).2.2.1 a hin.1 hin.2)
  have hclear : ∀ q < 2 ^ 35, ¬ Blocked 256 out.2.mem r q := fun q hq hb =>
    h.clear q hq (hk.blocked rfl (g.huge q hb))
  have hbytes : ∀ q < 2 ^ 35, (pte 256 s.mem r q).present = true → ∀ a,
      (pte 256 s.mem r q).frameOf q ≤ a → a < (pte 256 s.mem r q).frameOf q + pageSize →
      out.2.mem a = s.mem a := fun q hq hqp a h1 h2 => by
    obtain ⟨hno, hout⟩ := h.data q hq hqp a h1 h2
    have hap : PagesApart ((pte 256 s.mem r q).frameOf q) f :=
      .of_ne (Pte.frameOf_dvd _ _) hspare.page (hspare.frame q hq hqp)
    rw [← hm a (by unfold PagesApart at hap; omega)]
    refine g.bytes a (fun hf => hno (hspare.taken a hf)) fun u ht => ?_
    exact hout u (hk.isTable_iff.mp ht)
  have hnewBytes : ∀ a, f ≤ a → a < f + pageSize → out.2.mem a = t.mem a := fun a h1 h2 => by
    refine g.bytes a (hspare.held a h1 h2) fun u ht hin => ?_
    have := htab u (hk.isTable_iff.mp ht)
    unfold PagesApart at this
    omega
  have hprivate : (∀ q, pte 256 out.2.mem r q = pte 256 s.mem r q ∨
      q = va / pageSize ∧ (pte 256 out.2.mem r q).frameOf q = f) → Private r out.2 := fun hpte => by
    refine ⟨g.sound, hclear, fun q hq hqp => ?_, fun q hq hqp => ?_,
      fun q hq q' hq' hqp hqp' he => ?_⟩
    · rcases hpte q with hold | ⟨-, hf⟩
      · rw [hold] at hqp ⊢
        exact hgrow (h.data q hq hqp)
      · rw [hf]
        exact hnew
    · rcases hpte q with hold | ⟨-, hf⟩
      · rw [hold] at hqp ⊢
        exact h.pos q hq hqp
      · rw [hf]
        exact hspare.pos
    · rcases hpte q with hold | ⟨rfl, hf⟩ <;> rcases hpte q' with hold' | ⟨rfl, hf'⟩
      · rw [hold] at hqp he
        rw [hold'] at hqp' he
        exact h.alone q hq q' hq' hqp hqp' he
      · rw [hold] at hqp he
        exact absurd (he.trans hf') (hspare.frame q hq hqp)
      · rw [hold'] at hqp' he
        exact absurd (he.symm.trans hf) (hspare.frame q' hq' hqp')
      · rfl
  have hview : Private r out.2 → ∀ x, pte 256 out.2.mem r (x / pageSize) =
      pte 256 s.mem r (x / pageSize) → userView r out.2 x = userView r s x := fun h' x hx => by
    by_cases hlt : x < userEnd
    · have hoff : x % pageSize < pageSize := mod_lt _ (by decide)
      rw [h'.view_eq hlt, h.view_eq hlt, hx]
      split_ifs with hq
      · exact hbytes _ (pageOf_user hlt).2 hq _ (by omega) (by omega)
      · rfl
    · rw [userView, userView, if_neg fun hc => hlt hc.1, if_neg fun hc => hlt hc.1]
  by_cases hok : out.1 = true
  · have hpte : ∀ q, pte 256 out.2.mem r q =
        if q = va / pageSize then ⟨leafEntry f flags, false⟩ else pte 256 s.mem r q := fun q => by
      rw [g.mapped (hiff.mp hok) r rfl q, hpte₀]
      simp
    have hnewFrame : ∀ q, (Pte.mk (leafEntry f flags) false).frameOf q = f := fun q =>
      (Pte.frameOf_small (e := ⟨leafEntry f flags, false⟩) rfl leafEntry_present).trans
        (leafEntry_frame hspare.page hspare.lt hframe)
    have h' := hprivate fun q => by
      rw [hpte]
      split_ifs with hq
      · exact .inr ⟨hq, hnewFrame q⟩
      · exact .inl rfl
    refine ⟨h', fun _ => ⟨hpte, fun x => ?_⟩, fun hc => absurd hok (by simp [hc])⟩
    split_ifs with hc
    · have hx : x < userEnd := by
        unfold userEnd pageSize at *
        omega
      have hoff : x % pageSize < pageSize := mod_lt _ (by decide)
      rw [h'.view_eq hx, hpte, if_pos hc, hnewFrame]
      exact (if_pos leafEntry_present).trans (hnewBytes _ (by omega) (by omega))
    · exact hview h' x ((hpte _).trans (if_neg hc))
  · have hpte : ∀ q, pte 256 out.2.mem r q = pte 256 s.mem r q := fun q => by
      rw [g.unmapped (fun hc => hok (hiff.mpr hc)) r rfl q, hpte₀]
    have h' := hprivate fun q => .inl (hpte q)
    exact ⟨h', fun hc => absurd hc hok, fun _ => ⟨hpte, funext fun x => hview h' x (hpte _)⟩⟩

end

end Map

lemma private_blank {r : Nat} {pmm : Pmm.State} (kernel : Nat) (hpmm : Running pmm)
    (hd : pageSize ∣ r) (hheld : Held pmm r) : Private r ⟨fun _ => 0, pmm, kernel⟩ := by
  have habs : ∀ p, (pte 256 (fun _ => 0) r p).present = false := fun p => by
    rw [pte_blank]
    decide
  refine ⟨sound_blank 256 hpmm ?_ ?_, fun p _ hb => ?_, fun p _ hp => ?_, fun p _ hp => ?_,
    fun p _ q _ hp => ?_⟩
  · rintro _ rfl
    exact hd
  · rintro _ rfl
    exact hheld
  · obtain ⟨d, -, t, -, hp, -⟩ := hb
    rw [entry_blank] at hp
    exact absurd hp (by decide)
  all_goals exact absurd (habs p) (by simp [hp])

end YamKernel.Vmm

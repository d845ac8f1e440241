import YamKernel.Mem.Vmm.ZeroPages

/-!
# Unmapping pages

`vmm_unmap_page` clears the leaf entry of a page that has a table of its own. It does not
look for the HUGE bit: for a page of 2 MB it stores into the memory the page maps. The upper
half of an address space is untouched as long as only tables of the lower half and free
memory are written.
-/

namespace YamKernel.Vmm

open Lib Pmm List Option Nat

section Unmap

variable {top : Nat} {R : Set Nat} {s : State} {r p virt : Nat}

lemma pageOf_mul (hp : p < 2 ^ 36) : pageOf (p * pageSize) = p := by
  unfold pageOf pageSize
  omega

lemma pageOf_mul_lt {n : Nat} (hp : p < 2 ^ 36) (h : p < n) : pageOf (p * pageSize) < n := by
  rwa [pageOf_mul hp]

lemma phys_mul (e : Pte) (h : e.huge = false) :
    e.phys (p * pageSize) = if e.present then frame e.entry else 0 := by
  simp only [Pte.phys, frame]
  split_ifs <;> simp_all

lemma pte_small (h : ¬ Blocked top s.mem r p) : (pte top s.mem r p).huge = false := by
  rw [pte]
  cases hs : leafSlot top s.mem r p with
  | none => rfl
  | some x =>
    obtain ⟨t, i, huge⟩ := x
    cases huge with
    | false => rfl
    | true =>
      obtain ⟨ht, rfl, hp, hh⟩ := leafSlot_huge.mp hs
      rw [← tableNo_two] at ht
      exact absurd ⟨2, by decide, t, ht, hp, hh⟩ h

/-- The entry of a 4 KB page that is present is in a table of leaf entries. -/
theorem pte_table (hp : (pte top s.mem r p).present = true)
    (hh : (pte top s.mem r p).huge = false) :
    ∃ pt, tableAt top s.mem r 3 (p / 512) = some pt ∧
      leafSlot top s.mem r p = some (pt, p % 512, false) := by
  unfold Pte.present pte at hp
  unfold pte at hh
  cases hs : leafSlot top s.mem r p with
  | none =>
    rw [hs] at hp
    exact absurd hp (show ¬ has 0 flagPresent = true by decide)
  | some x =>
    obtain ⟨t, i, huge⟩ := x
    rw [hs] at hh
    obtain rfl : huge = false := hh
    obtain ⟨ht, rfl⟩ := leafSlot_small.mp hs
    exact ⟨t, ht, rfl⟩

lemma vmmUnmapPage_eq (htop : pageOf virt < top * 2 ^ 27) : vmmUnmapPage s r virt =
    match leafSlot top s.mem r (pageOf virt) with
    | none => s
    | some (t, i, true) => s.setEntry (frame (entry s.mem t i)) (pageOf virt % 512) 0
    | some (t, i, false) => s.setEntry t i 0 := by
  rw [vmmUnmapPage, walkPd_eq htop, leafSlot, pdIndex_eq, ptIndex_eq]
  cases tableAt top s.mem r 2 (pageOf virt / 512 / 512) with
  | none => simp
  | some pd =>
    simp only [bind_some]
    split_ifs <;> simp_all [frame]

lemma vmmUnmapPage_spec (htop : pageOf virt < top * 2 ^ 27)
    (hp : (pte top s.mem r (pageOf virt)).present = true)
    (hh : (pte top s.mem r (pageOf virt)).huge = false) :
    ∃ pt, tableAt top s.mem r 3 (pageOf virt / 512) = some pt ∧
      vmmUnmapPage s r virt = s.setEntry pt (pageOf virt % 512) 0 := by
  obtain ⟨pt, hpt, hslot⟩ := pte_table hp hh
  exact ⟨pt, hpt, by rw [vmmUnmapPage_eq htop, hslot]⟩

end Unmap

section Translate

variable {top : Nat} {m m' : Mem} {r p : Nat}

lemma translate_eq (hp : p < 2 ^ 36) (htop : p < top * 2 ^ 27) :
    vmmVirtToPhys m r (p * pageSize) = (pte top m r p).phys (p * pageSize) := by
  rw [vmmVirtToPhys_eq (pageOf_mul_lt hp htop), pageOf_mul hp]

lemma translate_congr (hp : p < 2 ^ 36) (htop : p < top * 2 ^ 27)
    (h : pte top m' r p = pte top m r p) :
    vmmVirtToPhys m' r (p * pageSize) = vmmVirtToPhys m r (p * pageSize) := by
  rw [translate_eq hp htop, translate_eq hp htop, h]

lemma flags_congr (hp : p < 2 ^ 36) (htop : p < top * 2 ^ 27) (h : pte top m' r p = pte top m r p) :
    vmmGetPteFlags m' r (p * pageSize) = vmmGetPteFlags m r (p * pageSize) := by
  have hpage := pageOf_mul_lt hp htop
  rw [vmmGetPteFlags_eq hpage, vmmGetPteFlags_eq hpage, pageOf_mul hp, h]

end Translate

section Loop

variable {top : Nat} {R : Set Nat} {s : State} {pmm : Pmm.State} {r : Nat} {ps : List Nat}

/-- A page that translates has a leaf entry, which is cleared. -/
theorem unmapDropping_eq {p : Nat} (hp36 : p < 2 ^ 36) (hptop : p < top * 2 ^ 27)
    (hclear : ¬ Blocked top s.mem r p) (drop : Pmm.State → Nat → Pmm.State)
    (hv : vmmVirtToPhys s.mem r (p * pageSize) ≠ 0) :
    ∃ pt, tableAt top s.mem r 3 (p / 512) = some pt ∧
      unmapDropping drop r s (p * pageSize) = { s.setEntry pt (p % 512) 0 with
        pmm := drop s.pmm (vmmVirtToPhys s.mem r (p * pageSize) / pageSize * pageSize) } := by
  have hsmall := pte_small hclear
  have : (pte top s.mem r p).present = true := by
    by_contra hc
    rw [translate_eq hp36 hptop, phys_mul _ hsmall, if_neg hc] at hv
    exact hv rfl
  obtain ⟨pt, hpt, hunmap⟩ := vmmUnmapPage_spec (pageOf_mul_lt hp36 hptop)
    (by rwa [pageOf_mul hp36]) (by rwa [pageOf_mul hp36])
  rw [pageOf_mul hp36] at hpt hunmap
  refine ⟨pt, hpt, ?_⟩
  simp only [unmapDropping, hv, hunmap]
  rfl

def mappedFrames (m : Mem) (r : Nat) (ps : List Nat) : List Nat :=
  (ps.map fun p => vmmVirtToPhys m r (p * pageSize)).filter (· ≠ 0)

lemma translate_page {p : Nat} (hp36 : p < 2 ^ 36) (hptop : p < top * 2 ^ 27)
    (hclear : ¬ Blocked top s.mem r p) : pageSize ∣ vmmVirtToPhys s.mem r (p * pageSize) := by
  have hsmall := pte_small hclear
  rw [translate_eq hp36 hptop, phys_mul _ hsmall]
  split_ifs
  · exact frame_dvd _
  · exact dvd_zero _

structure Unmapped (top : Nat) (R : Set Nat) (s s' : State) (r : Nat) (ps : List Nat) : Prop where
  pte_eq : ∀ q, pte top s'.mem r q =
    if q ∈ ps ∧ vmmVirtToPhys s.mem r (q * pageSize) ≠ 0 then ⟨0, false⟩ else pte top s.mem r q
  upper : ∀ i < 512, top ≤ i → entry s'.mem r i = entry s.mem r i
  bytes : ∀ a, (∀ t, IsTable top s.mem R t → ¬ (t ≤ a ∧ a < t + pageSize)) → s'.mem a = s.mem a

lemma Sound.unmap_page (h : Sound top R { s with pmm }) (drop : Pmm.State → Nat → Pmm.State)
    (hr : r ∈ R) {p : Nat} (hp36 : p < 2 ^ 36) (hptop : p < top * 2 ^ 27)
    (hclear : ¬ Blocked top s.mem r p) : let s' := unmapDropping drop r s (p * pageSize)
    Unmapped top R s s' r [p] ∧ s'.pmm = (mappedFrames s.mem r [p]).foldl drop s.pmm ∧
      Sound top R { s' with pmm } ∧ (∀ q, Blocked top s'.mem r q → Blocked top s.mem r q) ∧
      ∀ t, IsTable top s'.mem R t ↔ IsTable top s.mem R t := by
  by_cases hv : vmmVirtToPhys s.mem r (p * pageSize) = 0
  · have hskip : unmapDropping drop r s (p * pageSize) = s := by simp [unmapDropping, hv]
    rw [hskip]
    refine ⟨⟨fun q => ?_, fun _ _ _ => rfl, fun _ _ => rfl⟩, by simp [mappedFrames, hv], h,
      fun _ hq => hq, fun _ => .rfl⟩
    rw [if_neg]
    rintro ⟨hq, hne⟩
    rw [mem_singleton.mp hq] at hne
    exact hne hv
  · obtain ⟨pt, hpt, hunmap⟩ := unmapDropping_eq hp36 hptop hclear drop hv
    have g := h.stored_small hr hpt (show 0 < 2 ^ 64 by decide)
    have hround : vmmVirtToPhys s.mem r (p * pageSize) / pageSize * pageSize =
        vmmVirtToPhys s.mem r (p * pageSize) :=
      Nat.div_mul_cancel (translate_page hp36 hptop hclear)
    rw [hunmap, hround]
    refine ⟨⟨fun q => (g.pte_small hr q).trans ?_, g.upper r hr, g.bytes⟩,
      by simp [mappedFrames, hv], g.sound,
      fun q hq => h.blocked_set hr hpt (mod_lt _ (by decide)) (by decide) hq,
      fun t => g.isTable_iff⟩
    by_cases hqp : q = p
    · subst hqp
      simp [hv]
    · simp [hqp]

/-- A loop that unmaps pages leaves the others alone. What happens to the frames does not matter
for memory, so the tables are those of an allocator `pmm` that stands still. -/
theorem Sound.unmap_spec (h : Sound top R { s with pmm }) (drop : Pmm.State → Nat → Pmm.State)
    (hr : r ∈ R) (hnd : ps.Nodup) (hlt : ∀ p ∈ ps, p < 2 ^ 36 ∧ p < top * 2 ^ 27)
    (hclear : ∀ p ∈ ps, ¬ Blocked top s.mem r p) :
    let s' := (ps.map (· * pageSize)).foldl (unmapDropping drop r) s
    Unmapped top R s s' r ps ∧ s'.pmm = (mappedFrames s.mem r ps).foldl drop s.pmm := by
  induction ps generalizing s with
  | nil => exact ⟨⟨fun _ => by simp, fun _ _ _ => rfl, fun _ _ => rfl⟩, rfl⟩
  | cons p ps ih =>
    obtain ⟨hpnot, hnd⟩ := nodup_cons.mp hnd
    have hlt' : ∀ q ∈ ps, q < 2 ^ 36 ∧ q < top * 2 ^ 27 := fun q hq => hlt q (.tail p hq)
    obtain ⟨hp36, hptop⟩ := hlt p mem_cons_self
    obtain ⟨hone, hpmm, hs1, hblocked, htables⟩ :=
      h.unmap_page drop hr hp36 hptop (hclear p mem_cons_self)
    rw [map_cons, foldl_cons]
    generalize unmapDropping drop r s (p * pageSize) = s1 at *
    obtain ⟨hrest, hpmm'⟩ :=
      ih hs1 hnd hlt' fun q hq hq' => hclear q (.tail p hq) (hblocked q hq')
    -- The pages to come translate as they did.
    have hsame : ∀ q ∈ ps, vmmVirtToPhys s1.mem r (q * pageSize) =
        vmmVirtToPhys s.mem r (q * pageSize) := fun q hq => by
      refine translate_congr (hlt' q hq).1 (hlt' q hq).2 ((hone.pte_eq q).trans (if_neg ?_))
      rintro ⟨hqp, -⟩
      exact hpnot (mem_singleton.mp hqp ▸ hq)
    refine ⟨⟨fun q => ?_, fun i hi hti => (hrest.upper i hi hti).trans (hone.upper i hi hti),
      fun a hta => ?_⟩, ?_⟩
    · rw [hrest.pte_eq, hone.pte_eq]
      by_cases hq : q ∈ ps
      · have hne : q ≠ p := fun he => hpnot (he ▸ hq)
        simp [hsame q hq, hne]
      · simp [hq]
    · rw [hrest.bytes a fun t ht => hta t ((htables t).mp ht), hone.bytes a hta]
    · have hmap : mappedFrames s1.mem r ps = mappedFrames s.mem r ps := by
        unfold mappedFrames
        rw [map_congr_left hsame]
      have hcons : mappedFrames s.mem r (p :: ps) =
          mappedFrames s.mem r [p] ++ mappedFrames s.mem r ps := by
        simp only [mappedFrames, ← filter_append]
        rfl
      rw [hpmm', hmap, hpmm, hcons, foldl_append]

end Loop

/-! ## The upper half -/

/-- The tables of the upper half: those behind the entries of a root from 256 on. -/
def upperNext (m : Mem) (d t i : Nat) : Option Nat :=
  let e := entry m t i
  if has e flagPresent ∧ d < 3 ∧ (d = 0 → 256 ≤ i) ∧ ¬ (0 < d ∧ has e flagHuge) then some (frame e)
  else none

/-- The tables of the upper half are neither tables of the lower half nor free memory. -/
def UpperApart (s : State) (root : Nat) : Prop :=
  ∀ d n t, Radix.node 512 (upperNext s.mem) root (d + 1) n = some t →
    Held s.pmm t ∧ ¬ IsTable 256 s.mem {root} t

/-- No entry for an address of the upper half differs. -/
def UpperKept (m m' : Mem) (root : Nat) : Prop :=
  ∀ d n t, Radix.node 512 (upperNext m) root d n = some t → ∀ i < 512, (d = 0 → 256 ≤ i) →
    entry m' t i = entry m t i

lemma upperApart_of_empty {s : State} {root : Nat}
    (h : ∀ i < 512, 256 ≤ i → has (entry s.mem root i) flagPresent = false) :
    UpperApart s root := by
  have hnone : ∀ d n, Radix.node 512 (upperNext s.mem) root (d + 1) n = none := by
    intro d
    induction d with
    | zero =>
      intro n
      refine bind_eq_none_iff.mpr fun t ht => if_neg fun hc => ?_
      rw [Radix.node] at ht
      split_ifs at ht
      obtain rfl := some.inj ht
      have := h _ (mod_lt n (by decide)) (hc.2.2.1 rfl)
      simp [this] at hc
    | succ d ih =>
      intro n
      rw [Radix.node_succ, ih, bind_none]
  intro d n t ht
  rw [hnone] at ht
  simp at ht

lemma UpperKept.refl (m : Mem) (root : Nat) : UpperKept m m root := fun _ _ _ _ _ _ _ => rfl

/-- Stores into free memory and tables of the lower half leave the upper half alone, if those
into the root do. -/
theorem UpperApart.kept {s : State} {root : Nat} {m' : Mem} (h : UpperApart s root)
    (hroot : pageSize ∣ root) (htop : ∀ i < 512, 256 ≤ i → entry m' root i = entry s.mem root i)
    (hbytes : ∀ a, ¬ FreeAt s.pmm a →
      (∀ t, IsTable 256 s.mem {root} t → ¬ (t ≤ a ∧ a < t + pageSize)) → m' a = s.mem a) :
    UpperKept s.mem m' root := by
  intro d n t ht i hi hd
  cases d with
  | zero =>
    rw [Radix.node] at ht
    split_ifs at ht
    obtain rfl := some.inj ht
    exact htop i hi (hd rfl)
  | succ d =>
    obtain ⟨hheld, hnot⟩ := h d n t ht
    have hdvd : pageSize ∣ t := by
      obtain ⟨q, -, hq⟩ := Radix.node_parent ht
      unfold upperNext at hq
      dsimp only at hq
      split_ifs at hq
      exact some.inj hq ▸ frame_dvd _
    refine entry_congr hi fun a h1 h2 => hbytes a (hheld a h1 h2) fun u hu hin => ?_
    have hud := isTable_dvd (fun r hr => by rw [Set.mem_singleton_iff.mp hr]; exact hroot) hu
    have hap := PagesApart.of_ne hdvd hud fun he => hnot (he ▸ hu)
    unfold PagesApart at hap
    omega

/-! ## An empty address space -/

lemma upperApart_blank (pmm : Pmm.State) (kernel root : Nat) :
    UpperApart ⟨fun _ => 0, pmm, kernel⟩ root :=
  upperApart_of_empty fun i _ _ => by
    rw [entry_blank]
    decide

lemma not_blocked_blank (top root p : Nat) : ¬ Blocked top (fun _ => 0) root p := by
  rintro ⟨d, -, t, -, hp, -⟩
  rw [entry_blank] at hp
  exact absurd hp (by decide)

end YamKernel.Vmm

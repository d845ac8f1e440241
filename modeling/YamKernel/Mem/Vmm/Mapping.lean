import YamKernel.Mem.Pmm.Safety
import YamKernel.Mem.Pmm.Supply
import YamKernel.Mem.Vmm.Tables

/-!
# Mapping a page

`vmm_map_page` adds the tables that are missing on the way to a page and then stores the leaf
entry: it grows the tree, which changes no translation, and changes one leaf entry.
-/

namespace YamKernel.Vmm

open Lib Pmm Option Nat

/-- The entry `get_or_create_table` makes for a fresh table. -/
def tableEntry (new flags : Nat) : Nat := new ||| flagPresent ||| flagWrite ||| (flags &&& flagUser)

section TableEntry

variable {top d i new : Nat}

lemma tableEntry_frame (flags : Nat) (hd : pageSize ∣ new) (hlt : new < 2 ^ 52) :
    frame (tableEntry new flags) = new := by
  have h1 : frame (flags &&& flagUser) = 0 := frame_and (by decide)
  have h2 : frame flagPresent = 0 := by decide
  have h3 : frame flagWrite = 0 := by decide
  rw [tableEntry, frame_or, frame_or, frame_or, h1, h2, h3, or_zero, or_zero, or_zero]
  exact frame_of_page hd hlt

lemma has_page {f : Nat} (hd : pageSize ∣ new) (hf : f < pageSize) : has new f = false := by
  obtain ⟨k, rfl⟩ := hd
  have : pageSize * k &&& f = 0 := by
    refine eq_of_testBit_eq fun j => ?_
    rw [testBit_and, show pageSize = 2 ^ 12 from rfl, testBit_two_pow_mul]
    by_cases hj : 12 ≤ j
    · have : f.testBit j = false :=
        testBit_lt_two_pow (lt_of_lt_of_le hf (Nat.pow_le_pow_right (show 0 < 2 by decide) hj))
      simp [this]
    · simp [hj]
  simp [has, this]

lemma tableEntry_present (flags : Nat) : has (tableEntry new flags) flagPresent = true := by
  rw [tableEntry, has_or, has_or, has_or, show has flagPresent flagPresent = true by decide]
  simp

lemma tableEntry_huge (flags : Nat) (hd : pageSize ∣ new) :
    has (tableEntry new flags) flagHuge = false := by
  rw [tableEntry, has_or, has_or, has_or, has_page hd (by decide), has_and_apart]
  decide

lemma tableEntry_lt (flags : Nat) (hlt : new < 2 ^ 52) : tableEntry new flags < 2 ^ 64 := by
  have h1 : flags &&& flagUser < 2 ^ 64 := lt_of_le_of_lt and_le_right (by decide)
  exact or_lt_two_pow (or_lt_two_pow (or_lt_two_pow (by omega) (by decide))
    (by decide)) h1

lemma nextOf_tableEntry (flags : Nat) (hd : pageSize ∣ new) (hlt : new < 2 ^ 52) (h3 : d < 3)
    (hi : d = 0 → i < top) : nextOf top d i (tableEntry new flags) = some new := by
  rw [nextOf, if_pos ⟨tableEntry_present flags, h3, hi,
    fun hc => by simp [tableEntry_huge flags hd] at hc⟩, tableEntry_frame flags hd hlt]

end TableEntry

/-! ## The way to a page -/

/-- The number, among the tables at depth `d`, of the one on the way to page `p`. -/
def tableNo (p d : Nat) : Nat := p / 512 ^ (4 - d)

/-- The index of the entry for page `p` in a table at depth `d`. -/
def tableIdx (p d : Nat) : Nat := p / 512 ^ (3 - d) % 512

/-- The entry at depth `d` on the way to page `p` has the HUGE bit. -/
def HugeAt (top : Nat) (m : Mem) (root p d : Nat) : Prop :=
  ∃ t, tableAt top m root d (tableNo p d) = some t ∧
    has (entry m t (tableIdx p d)) flagPresent = true ∧
      has (entry m t (tableIdx p d)) flagHuge = true

/-- `vmm_map_page` meets a HUGE bit on its way to page `p`. -/
def Blocked (top : Nat) (m : Mem) (root p : Nat) : Prop := ∃ d < 3, HugeAt top m root p d

/-- The number of tables that are missing on the way to page `p` down to depth `d`. -/
def missing (top : Nat) (m : Mem) (root p : Nat) : Nat → Nat
  | 0 => 0
  | d + 1 => missing top m root p d +
      if tableAt top m root (d + 1) (tableNo p (d + 1)) = none then 1 else 0

section Way

variable {top : Nat} {m : Mem} {root p d : Nat}

lemma tableNo_succ (p : Nat) (hd : d < 4) :
    tableNo p (d + 1) = 512 * tableNo p d + tableIdx p d := by
  have h1 : 4 - d = 3 - d + 1 := by omega
  have h2 : 4 - (d + 1) = 3 - d := by omega
  rw [tableNo, tableNo, tableIdx, h1, h2, pow_succ, ← Nat.div_div_eq_div_mul, div_add_mod]

lemma tableNo_zero (hp : p < 2 ^ 36) : tableNo p 0 = 0 := div_eq_of_lt hp

lemma tableNo_two (p : Nat) : tableNo p 2 = p / 512 / 512 := by
  rw [Nat.div_div_eq_div_mul]
  rfl

lemma tableIdx_two (p : Nat) : tableIdx p 2 = p / 512 % 512 := by
  rw [tableIdx, pow_one]

lemma tableNo_three (p : Nat) : tableNo p 3 = p / 512 := by rw [tableNo, pow_one]

lemma tableIdx_three (p : Nat) : tableIdx p 3 = p % 512 := by
  rw [tableIdx, pow_zero, Nat.div_one]

lemma tableIdx_lt (p d : Nat) : tableIdx p d < 512 := mod_lt _ (by decide)

lemma pml4Index_way (virt : Nat) : pml4Index virt = tableIdx (pageOf virt) 0 := by
  rw [pml4Index_eq, Nat.div_div_eq_div_mul, Nat.div_div_eq_div_mul]
  rfl

lemma pdptIndex_way (virt : Nat) : pdptIndex virt = tableIdx (pageOf virt) 1 := by
  rw [pdptIndex_eq, Nat.div_div_eq_div_mul]
  rfl

lemma pdIndex_way (virt : Nat) : pdIndex virt = tableIdx (pageOf virt) 2 :=
  (pdIndex_eq virt).trans (tableIdx_two _).symm

lemma tableAt_root (hp : p < 2 ^ 36) : tableAt top m root 0 (tableNo p 0) = some root := by
  rw [tableNo_zero hp]
  exact Radix.node_zero

lemma tableAt_below {k : Nat} (hk : k < 4) (hdk : d ≤ k)
    (h : tableAt top m root d (tableNo p d) = none) :
    tableAt top m root k (tableNo p k) = none := by
  induction k, hdk using le_induction with
  | base => exact h
  | succ k _ ih =>
    have hno : tableNo p (k + 1) / 512 = tableNo p k := by
      rw [tableNo_succ p (by omega), Radix.div_digit (tableIdx_lt p k)]
    have hk : Radix.node 512 (next top m) root k (tableNo p k) = none := ih (by omega)
    rw [tableAt, Radix.node_succ, hno, hk, bind_none]

lemma missing_mono (top : Nat) (m : Mem) (root p : Nat) {d k : Nat} (h : d ≤ k) :
    missing top m root p d ≤ missing top m root p k := by
  induction k, h using le_induction with
  | base => exact le_rfl
  | succ k _ ih => exact ih.trans (le_add_right _ _)

end Way

section Mapping

variable {top : Nat} {R : Set Nat} {s s' : State} {r p d t flags : Nat} {l : List Nat}

lemma getOrCreateTable_absent {i : Nat} (habs : has (entry s.mem t i) flagPresent = false) :
    getOrCreateTable s t i (flags &&& flagUser) =
      if (pmmAllocPage s.pmm).1 = 0 then (none, { s with pmm := (pmmAllocPage s.pmm).2 })
      else (some (pmmAllocPage s.pmm).1, s.link (pmmAllocPage s.pmm).2 (pmmAllocPage s.pmm).1 t i
        (tableEntry (pmmAllocPage s.pmm).1 flags)) := by
  unfold getOrCreateTable allocPageTable
  simp only [habs, Bool.false_eq_true, if_false]
  split_ifs <;> rfl

/-- The tables on the way to page `p` down to depth `d` have been found or made, those made
being the pages `l`. A table that was made is followed by others that were made. -/
structure Descent (top : Nat) (R : Set Nat) (s s' : State) (r p d : Nat) (l : List Nat) : Prop where
  grows : Grows top R s s' l
  pmm : s'.pmm = draws l.length s.pmm
  supply : Provides s.pmm l.length
  count : l.length = missing top s.mem r p d
  clear : ∀ k < d, ¬ HugeAt top s.mem r p k
  old : l = [] → s' = s
  fresh : l ≠ [] → tableAt top s.mem r d (tableNo p d) = none ∧
    ∀ t, tableAt top s'.mem r d (tableNo p d) = some t → ∀ i < 512, entry s'.mem t i = 0
  shape : ∀ d' n', tableAt top s'.mem r d' n' ≠ none ↔
    tableAt top s.mem r d' n' ≠ none ∨ d' ≤ d ∧ n' = tableNo p d'
  huge : ∀ q k, HugeAt top s'.mem r q k → HugeAt top s.mem r q k

lemma Descent.start (h : Sound top R s) (hp : p < 2 ^ 36) : Descent top R s s r p 0 [] where
  grows := .refl h
  pmm := rfl
  supply := provides_zero _
  count := rfl
  clear k hk := absurd hk (not_lt_zero k)
  old _ := rfl
  fresh hl := absurd rfl hl
  shape d' n' := by
    refine ⟨.inl, fun hc => hc.elim id ?_⟩
    rintro ⟨hd, rfl⟩
    rw [le_zero.mp hd, tableNo_zero hp]
    exact fun hn => by simp at hn
  huge _ _ hh := hh

/-- An entry that the walk finds absent was absent, or its table did not exist. -/
theorem Descent.absent (g : Descent top R s s' r p d l) (hd : d < 3)
    (ht : tableAt top s'.mem r d (tableNo p d) = some t)
    (habs : has (entry s'.mem t (tableIdx p d)) flagPresent = false) :
    tableAt top s.mem r (d + 1) (tableNo p (d + 1)) = none ∧ ¬ HugeAt top s.mem r p d := by
  by_cases hl : l = []
  · obtain rfl := g.old hl
    rw [tableNo_succ p (by omega), tableAt_kid ht (tableIdx_lt p d), nextOf_absent habs]
    refine ⟨rfl, fun hh => ?_⟩
    obtain ⟨u, hu, hpres, -⟩ := hh
    obtain rfl := some.inj (ht.symm.trans hu)
    simp [habs] at hpres
  · have hnone := (g.fresh hl).1
    refine ⟨tableAt_below (by omega) (le_succ d) hnone, fun hh => ?_⟩
    obtain ⟨u, hu, -⟩ := hh
    simp [hnone] at hu

/-- One step down: the next table is found, or it is made; or the entry has the HUGE bit, or
the allocator has no page. -/
theorem Descent.next (g : Descent top R s s' r p d l) (h : Sound top R s) (hr : r ∈ R) (hd : d < 3)
    (htop : d = 0 → tableIdx p d < top) (ht : tableAt top s'.mem r d (tableNo p d) = some t)
    (flags : Nat) :
    (getOrCreateTable s' t (tableIdx p d) (flags &&& flagUser) = (none, s') ∧
      (s' = s ∧ HugeAt top s.mem r p d ∨
        ¬ Provides s'.pmm 1 ∧ ¬ HugeAt top s.mem r p d ∧
          tableAt top s.mem r (d + 1) (tableNo p (d + 1)) = none)) ∨
    ∃ u s'' l', getOrCreateTable s' t (tableIdx p d) (flags &&& flagUser) = (some u, s'') ∧
      Descent top R s s'' r p (d + 1) l' ∧
      tableAt top s''.mem r (d + 1) (tableNo p (d + 1)) = some u := by
  have hi := tableIdx_lt p d
  have hs' := g.grows.sound
  have hno := tableNo_succ p (show d < 4 by omega)
  cases hp : has (entry s'.mem t (tableIdx p d)) flagPresent with
  | true =>
    -- An entry that is present is not in a fresh table.
    have hl : l = [] := by
      by_contra hl
      rw [(g.fresh hl).2 t ht _ hi] at hp
      exact absurd hp (by decide)
    obtain rfl := g.old hl
    cases hh : has (entry s'.mem t (tableIdx p d)) flagHuge with
    | true =>
      exact .inl ⟨by simp [getOrCreateTable, hp, hh], .inl ⟨rfl, t, ht, hp, hh⟩⟩
    | false =>
      have hu : tableAt top s'.mem r (d + 1) (tableNo p (d + 1)) =
          some (frame (entry s'.mem t (tableIdx p d))) := by
        rw [hno, tableAt_kid ht hi, nextOf, if_pos ⟨hp, hd, htop, by simp [hh]⟩]
      refine .inr ⟨_, s', l, by simp [getOrCreateTable, hp, hh, frame], ?_, hu⟩
      refine { g with
        count := by rw [missing, if_neg (by simp [hu]), g.count, add_zero]
        clear := fun k hk => ?_
        fresh := fun hne => absurd hl hne
        shape := fun d' n' => ⟨.inl, fun hc => hc.elim id ?_⟩ }
      · rcases Nat.lt_succ_iff_lt_or_eq.mp hk with hk | rfl
        · exact g.clear k hk
        · rintro ⟨u, hu, -, hhuge⟩
          obtain rfl := some.inj (ht.symm.trans hu)
          simp [hh] at hhuge
      · rintro ⟨hd', rfl⟩
        rcases lt_or_eq_of_le hd' with hlt | rfl
        · exact (g.shape d' _).mpr (.inr ⟨by omega, rfl⟩)
        · simp [hu]
  | false =>
    obtain ⟨hnone, hnot⟩ := g.absent hd ht hp
    rw [getOrCreateTable_absent hp]
    rcases pmmAllocPage_cases hs'.good with hfail | ⟨new, pmm', hsome, hfresh⟩
    · exact .inl ⟨by simp [hfail], .inr ⟨fun hc => provides_one.mp hc (by rw [hfail]), hnot, hnone⟩⟩
    have hlt := (hfresh.within hs'.within).1
    have hlt : new < 2 ^ 52 := by unfold pageSize at hlt; omega
    have hnext := nextOf_tableEntry flags hfresh.page hlt hd htop
    have he := tableEntry_lt flags hlt
    have hg := hs'.grows_link hfresh hr ht hi hp he hnext
    have hlink := hs'.tableAt_link hfresh hr ht hi hp he hnext hr
    rw [← hno] at hlink
    refine .inr ⟨new, s'.link pmm' new t (tableIdx p d) (tableEntry new flags), new :: l,
      by simp [hsome, hfresh.pos.ne'], ?_, by rw [hlink, if_pos ⟨rfl, rfl, rfl⟩]⟩
    refine
      { grows := g.grows.trans h hg
        pmm := ?_
        supply := ?_
        count := by rw [missing, if_pos hnone, List.length_cons, g.count]
        clear := fun k hk => ?_
        old := by simp
        fresh := fun _ => ⟨hnone, fun u hu i hi' => ?_⟩
        shape := fun d' n' => ?_
        huge := fun q k hq => g.huge q k ?_ }
    · rw [List.length_cons, draws_succ, ← g.pmm, hsome]
      rfl
    · rw [List.length_cons, provides_add, provides_one, ← g.pmm, hsome]
      exact ⟨g.supply, hfresh.pos.ne'⟩
    · rcases Nat.lt_succ_iff_lt_or_eq.mp hk with hk | rfl
      · exact g.clear k hk
      · exact hnot
    · rw [hlink, if_pos ⟨rfl, rfl, rfl⟩] at hu
      obtain rfl := some.inj hu
      exact hs'.entry_link_new hfresh hr ht hi hi'
    · rw [hlink]
      split_ifs with hc
      · obtain ⟨-, rfl, rfl⟩ := hc
        exact ⟨fun _ => .inr ⟨le_rfl, rfl⟩, fun _ => by simp⟩
      · rw [g.shape]
        constructor
        · rintro (ho | ⟨hd', rfl⟩)
          · exact .inl ho
          · exact .inr ⟨by omega, rfl⟩
        · rintro (ho | ⟨hd', rfl⟩)
          · exact .inl ho
          · refine .inr ⟨?_, rfl⟩
            by_contra hgt
            obtain rfl : d' = d + 1 := by omega
            exact hc ⟨rfl, rfl, rfl⟩
    · -- The new table is empty, and the entry for it has no HUGE bit.
      obtain ⟨u, hu, hpres, hhuge⟩ := hq
      rw [hlink] at hu
      split_ifs at hu
      · obtain rfl := some.inj hu
        rw [hs'.entry_link_new hfresh hr ht hi (tableIdx_lt q k)] at hpres
        exact absurd hpres (by decide)
      · rw [hs'.entry_link hfresh hr ht hi he ⟨r, hr, k, _, hu⟩ (tableIdx_lt q k)] at hpres hhuge
        split_ifs at hpres hhuge
        · rw [tableEntry_huge flags hfresh.page] at hhuge
          exact absurd hhuge (by decide)
        · exact ⟨u, hu, hpres, hhuge⟩

/-- What `vmm_map_page` needs: no HUGE bit on the way, and pages for the missing tables. -/
def Mappable (top : Nat) (s : State) (r p : Nat) : Prop :=
  ¬ Blocked top s.mem r p ∧ Provides s.pmm (missing top s.mem r p 3)

open Classical in
/-- The number of pages `vmm_map_page` asks for. -/
noncomputable def tablesWanted (top : Nat) (m : Mem) (root p : Nat) : Nat :=
  if Blocked top m root p then 0 else missing top m root p 3

/-- The tree before the leaf entry is stored: what `vmm_map_page` makes of it on the way. -/
structure Paved (top : Nat) (R : Set Nat) (s s1 : State) (r p : Nat) (l : List Nat) : Prop where
  grows : Grows top R s s1 l
  pmm : s1.pmm = draws (tablesWanted top s.mem r p) s.pmm
  shape : ∀ d n, tableAt top s1.mem r d n ≠ none →
    tableAt top s.mem r d n ≠ none ∨ d ≤ 3 ∧ n = tableNo p d
  huge : ∀ q, Blocked top s1.mem r q → Blocked top s.mem r q

lemma Descent.stops (g : Descent top R s s' r p d l) (hd : d < 3)
    (hstop : s' = s ∧ HugeAt top s.mem r p d ∨ ¬ Provides s'.pmm 1 ∧ ¬ HugeAt top s.mem r p d ∧
      tableAt top s.mem r (d + 1) (tableNo p (d + 1)) = none) :
    Paved top R s s' r p l ∧ ¬ Mappable top s r p := by
  rcases hstop with ⟨hs, hh⟩ | ⟨hno, hh, hnone⟩
  · have hb : Blocked top s.mem r p := ⟨d, hd, hh⟩
    refine ⟨⟨g.grows, ?_, fun d' n' hn => .inl (hs ▸ hn), fun q hq => hs ▸ hq⟩, fun hm => hm.1 hb⟩
    rw [tablesWanted, if_pos hb, hs]
    rfl
  have hclear : ¬ Blocked top s.mem r p := by
    rintro ⟨k, hk, hkh⟩
    rcases lt_trichotomy k d with hlt | rfl | hgt
    · exact g.clear k hlt hkh
    · exact hh hkh
    · obtain ⟨u, hu, -⟩ := hkh
      simp [tableAt_below (by omega) hgt hnone] at hu
  have hle : l.length + 1 ≤ missing top s.mem r p 3 := by
    have := missing_mono top s.mem r p (show d + 1 ≤ 3 by omega)
    rwa [missing, if_pos hnone, ← g.count] at this
  refine ⟨⟨g.grows, ?_, fun d' n' hn => ?_, fun q ⟨k, hk, hq⟩ => ⟨k, hk, g.huge q k hq⟩⟩,
    fun hm => ?_⟩
  · have hgood : Good (draws l.length s.pmm) := g.pmm ▸ g.grows.sound.good
    rw [g.pmm] at hno
    rw [tablesWanted, if_neg hclear, g.pmm]
    exact (draws_stop hgood hno (by omega)).symm
  · rcases (g.shape d' n').mp hn with ho | ⟨h1, h2⟩
    · exact .inl ho
    · exact .inr ⟨by omega, h2⟩
  · have := (provides_add.mp (hm.2.mono hle)).2
    rw [← g.pmm] at this
    exact hno this

/-- Mapping a page makes the tables that are missing and then, if it succeeds, stores the leaf
entry. -/
theorem Sound.vmmMapPage_paves (h : Sound top R s) (hr : r ∈ R) {virt : Nat}
    (htop : pageOf virt < top * 2 ^ 27) (phys flags : Nat) :
    ∃ s1 l, Paved top R s s1 r (pageOf virt) l ∧
      (vmmMapPage s r virt phys flags = (false, s1) ∧ ¬ Mappable top s r (pageOf virt) ∨
      ∃ pt, tableAt top s1.mem r 3 (pageOf virt / 512) = some pt ∧
        vmmMapPage s r virt phys flags =
          (true, s1.setEntry pt (pageOf virt % 512) (leafEntry phys flags)) ∧
        Mappable top s r (pageOf virt) ∧
        ∀ d ≤ 3, tableAt top s1.mem r d (tableNo (pageOf virt) d) ≠ none) := by
  have hlt : pageOf virt < 2 ^ 36 := mod_lt _ (by decide)
  unfold vmmMapPage
  rw [pml4Index_way, pdptIndex_way, pdIndex_way, ptIndex_eq]
  generalize pageOf virt = p at *
  have hidx : tableIdx p 0 < top := by unfold tableIdx; omega
  -- One table after the other; a failure leaves what was made so far.
  have g0 : Descent top R s s r p 0 [] := .start h hlt
  rcases g0.next h hr (by decide) (fun _ => hidx) (tableAt_root hlt) flags with
    ⟨he, hstop⟩ | ⟨pdpt, sa, la, he, ga, hpdpt⟩
  · obtain ⟨hp, hm⟩ := g0.stops (by decide) hstop
    exact ⟨s, [], hp, .inl ⟨by rw [he], hm⟩⟩
  rw [he]
  rcases ga.next h hr (by decide) (by simp) hpdpt flags with ⟨he, hstop⟩ | ⟨pd, sb, lb, he, gb, hpd⟩
  · obtain ⟨hp, hm⟩ := ga.stops (by decide) hstop
    exact ⟨sa, la, hp, .inl ⟨by simp only [he], hm⟩⟩
  simp only [he]
  rcases gb.next h hr (by decide) (by simp) hpd flags with ⟨he, hstop⟩ | ⟨pt, sc, lc, he, gc, hpt⟩
  · obtain ⟨hp, hm⟩ := gb.stops (by decide) hstop
    exact ⟨sb, lb, hp, .inl ⟨by simp only [he], hm⟩⟩
  simp only [he]
  have hclear : ¬ Blocked top s.mem r p := fun ⟨k, hk, hh⟩ => gc.clear k hk hh
  refine ⟨sc, lc, ⟨gc.grows, ?_, fun d n => (gc.shape d n).mp,
    fun q ⟨k, hk, hq⟩ => ⟨k, hk, gc.huge q k hq⟩⟩,
    .inr ⟨pt, tableNo_three p ▸ hpt, rfl, ⟨hclear, gc.count ▸ gc.supply⟩,
      fun d hd => (gc.shape d _).mpr (.inr ⟨hd, rfl⟩)⟩⟩
  rw [tablesWanted, if_neg hclear, gc.pmm, gc.count]

end Mapping

/-! ## The law of `vmm_map_page` -/

def Pte.Maps (e : Pte) (f : Nat) : Prop :=
  e.present = true ∧
    if e.huge then pageSize ∣ f ∧ e.entry &&& hugeMask ≤ f ∧
      f < (e.entry &&& hugeMask) + hugePageSize
    else f = frame e.entry

/-- The tables of an address space form a tree, apart from the frames it maps. -/
structure Tree (top : Nat) (m : Mem) (root : Nat) : Prop where
  aligned : pageSize ∣ root
  separate : Radix.Separate 512 (next top m) {root}
  leaves : ∀ p f, (pte top m root p).Maps f → ¬ IsTable top m {root} f

/-- No table and no mapped frame is free memory. -/
structure Backed (top : Nat) (s : State) (root : Nat) : Prop where
  tables : ∀ t, IsTable top s.mem {root} t → Held s.pmm t
  leaves : ∀ p f, (pte top s.mem root p).Maps f → Held s.pmm f

section Law

variable {top : Nat} {s : State} {root : Nat}

lemma Tree.sound (h : Tree top s.mem root) (hb : Backed top s root) (hpmm : Running s.pmm) :
    Sound top {root} s :=
  ⟨hpmm.good, hpmm.within, fun r hr => by rw [Set.mem_singleton_iff.mp hr]; exact h.aligned,
    h.separate, hb.tables⟩

lemma Grows.notTable {R : Set Nat} {s s' : State} {l : List Nat} (g : Grows top R s s' l)
    (hg : Good s.pmm) {f : Nat} (hf : Held s.pmm f) (hnot : ¬ IsTable top s.mem R f) :
    ¬ IsTable top s'.mem R f := by
  intro ht
  rcases (g.tables f).mp ht with ht | hl
  · exact hnot ht
  · have hfree := (g.takes.mem hg hl).2.2.1
    exact hf f le_rfl (by unfold pageSize; omega) (hfree f le_rfl (by unfold pageSize; omega))

lemma leafEntry_flags {phys flags : Nat} (hf : flags &&& flagMask = flags) :
    leafEntry phys flags &&& flagMask = flags ||| flagPresent := by
  have h1 : (phys &&& addrMask) &&& flagMask = 0 := by
    rw [Nat.and_assoc, show addrMask &&& flagMask = 0 by decide, and_zero]
  rw [leafEntry, and_or_distrib_right, and_or_distrib_right, h1, zero_or, hf,
    show flagPresent &&& flagMask = flagPresent by decide]

end Law

/-- Mapping a frame that is neither a table nor free memory: on success the page has the frame
and the flags, every other page keeps translation and flags, and the tables form a tree; on
failure every page keeps them. `top` is the number of root entries looked at: 256 for the lower
half, 512 for all. -/
theorem map_page_law {s : State} {top pml4 virt phys flags : Nat} (hpmm : Running s.pmm)
    (htop : 256 ≤ top) (htree : Tree top s.mem pml4) (hback : Backed top s pml4)
    (hvirt : virt < 2 ^ 47) (hva : pageSize ∣ virt) (hphys : phys < 2 ^ 52) (hpa : pageSize ∣ phys)
    (hflags : flags &&& flagMask = flags) (hnot : ¬ IsTable top s.mem {pml4} phys)
    (hheld : Held s.pmm phys) : let out := vmmMapPage s pml4 virt phys flags
    (out.1 = true → vmmVirtToPhys out.2.mem pml4 virt = phys ∧
      vmmGetPteFlags out.2.mem pml4 virt = flags ||| flagPresent ∧
      (∀ v, pageOf v < top * 2 ^ 27 → pageOf v ≠ pageOf virt →
        vmmVirtToPhys out.2.mem pml4 v = vmmVirtToPhys s.mem pml4 v ∧
        vmmGetPteFlags out.2.mem pml4 v = vmmGetPteFlags s.mem pml4 v) ∧
      Tree top out.2.mem pml4) ∧
    (out.1 = false → ∀ v, pageOf v < top * 2 ^ 27 →
      vmmVirtToPhys out.2.mem pml4 v = vmmVirtToPhys s.mem pml4 v ∧
      vmmGetPteFlags out.2.mem pml4 v = vmmGetPteFlags s.mem pml4 v) := by
  have h := htree.sound hback hpmm
  have hr : pml4 ∈ ({pml4} : Set Nat) := rfl
  have hpage : pageOf virt < top * 2 ^ 27 := by unfold pageOf pageSize; omega
  obtain ⟨s1, l, ⟨g, -⟩, hout⟩ := h.vmmMapPage_paves hr hpage phys flags
  rcases hout with ⟨hout, -⟩ | ⟨pt, hpt, hout, -⟩
  · rw [hout]
    refine ⟨by simp, fun _ v hv => ?_⟩
    rw [vmmVirtToPhys_eq hv, vmmVirtToPhys_eq hv, vmmGetPteFlags_eq hv, vmmGetPteFlags_eq hv,
      g.pte_eq pml4 hr]
    exact ⟨rfl, rfl⟩
  rw [hout]
  refine ⟨fun _ => ?_, by simp⟩
  have hfl : flags < 2 ^ 64 := by rw [← hflags]; exact lt_of_le_of_lt and_le_right (by decide)
  have hstored := g.sound.stored_small hr hpt (leafEntry_lt hfl : leafEntry phys _ < _)
  have hframe : frame (leafEntry phys flags) = phys := leafEntry_frame hpa hphys (by
    rw [← hflags, Nat.and_assoc, show flagMask &&& addrMask = 0 by decide, and_zero])
  have hpte : ∀ p, pte top (s1.setEntry pt (pageOf virt % 512) (leafEntry phys flags)).mem pml4 p =
      if p = pageOf virt then ⟨leafEntry phys flags, false⟩ else pte top s.mem pml4 p := by
    intro p
    rw [hstored.pte_small hr, g.pte_eq pml4 hr]
  refine ⟨?_, ?_, fun v hv hne => ?_, htree.aligned, hstored.sound.separate, fun p f hmaps => ?_⟩
  · rw [vmmVirtToPhys_eq hpage, hpte, if_pos rfl]
    have hoff : virt % pageSize = 0 := mod_eq_zero_of_dvd hva
    simp only [Pte.phys, Pte.present, leafEntry_present, hoff, or_zero]
    exact hframe
  · rw [vmmGetPteFlags_eq hpage, hpte, if_pos rfl]
    exact leafEntry_flags hflags
  · rw [vmmVirtToPhys_eq hv, vmmVirtToPhys_eq hv, vmmGetPteFlags_eq hv, vmmGetPteFlags_eq hv, hpte,
      if_neg hne]
    exact ⟨rfl, rfl⟩
  · -- The tables are those after the growth; none of them is a frame that was held.
    rw [hstored.isTable_iff]
    rw [hpte] at hmaps
    split_ifs at hmaps
    · obtain rfl : f = phys := hmaps.2.trans hframe
      exact g.notTable h.good hheld hnot
    · exact g.notTable h.good (hback.leaves p f hmaps) (htree.leaves p f hmaps)

/-! ## A blank address space -/

lemma entry_blank (t i : Nat) : entry (fun _ => 0) t i = 0 := by
  have := Mem.read_of_bytes (m := fun _ => 0) (a := t + 8 * i) (n := 8)
    fun j _ => by rw [Nat.zero_div]; rfl
  rw [entry, this, zero_mod]

lemma next_blank (top d t i : Nat) : next top (fun _ => 0) d t i = none := by
  rw [next, entry_blank]
  exact nextOf_absent (by decide)

lemma tableAt_blank (top root d n : Nat) :
    tableAt top (fun _ => 0) root d n = if d = 0 ∧ n = 0 then some root else none :=
  Radix.node_alone (fun i _ => next_blank top 0 root i) (by decide) d n

lemma pte_blank (top root p : Nat) : pte top (fun _ => 0) root p = ⟨0, false⟩ := by
  rw [pte, leafSlot, tableAt_blank]
  simp

lemma isTable_blank {top t : Nat} {R : Set Nat} (ht : IsTable top (fun _ => 0) R t) : t ∈ R := by
  obtain ⟨r, hr, d, n, ht⟩ := ht
  replace ht := (tableAt_blank top _ d n).symm.trans ht
  split_ifs at ht
  exact some.inj ht ▸ hr

lemma separate_blank (top : Nat) (R : Set Nat) : Radix.Separate 512 (next top fun _ => 0) R := by
  intro r hr r' hr' d n d' n' t ht ht'
  replace ht := (tableAt_blank top _ d n).symm.trans ht
  replace ht' := (tableAt_blank top _ d' n').symm.trans ht'
  split_ifs at ht ht'
  exact ⟨(some.inj ht).trans (some.inj ht').symm, by omega, by omega⟩

lemma sound_blank (top : Nat) {R : Set Nat} {pmm : Pmm.State} {kernel : Nat} (hpmm : Running pmm)
    (hd : ∀ r ∈ R, pageSize ∣ r) (hheld : ∀ r ∈ R, Held pmm r) :
    Sound top R ⟨fun _ => 0, pmm, kernel⟩ :=
  ⟨hpmm.good, hpmm.within, hd, separate_blank top R, fun t ht => hheld t (isTable_blank ht)⟩

lemma tree_blank (top : Nat) {root : Nat} (hd : pageSize ∣ root) : Tree top (fun _ => 0) root := by
  refine ⟨hd, separate_blank top _, fun p f hm => ?_⟩
  rw [pte_blank] at hm
  exact absurd hm.1 (by decide)

lemma backed_blank (top : Nat) {pmm : Pmm.State} {root kernel : Nat} (hheld : Held pmm root) :
    Backed top ⟨fun _ => 0, pmm, kernel⟩ root := by
  refine ⟨fun t ht => ?_, fun p f hm => ?_⟩
  · obtain rfl := isTable_blank ht
    exact hheld
  · rw [pte_blank] at hm
    exact absurd hm.1 (by decide)

/-- Usable memory below 1 MB. -/
theorem init_running {e : MemmapEntry} (hsome : (pmmInit [e]).isSome = true) (h0 : e.base ≠ 0)
    (hend : e.base + e.length ≤ 2 ^ 20) : ∃ pmm, pmmInit [e] = some pmm ∧ Running pmm ∧
    ∀ f, 2 ^ 20 ≤ f → Held pmm f := by
  obtain ⟨pmm, hpmm⟩ := isSome_iff_exists.mp hsome
  have hd : UsableDisjoint [e] := by simp [UsableDisjoint]
  have hz : NoPageZero [e] := by simp [NoPageZero, h0]
  have hlow : EndsWithin (2 ^ 20) [e] := by simpa [EndsWithin] using fun _ => hend
  have hin : EndsWithin (2 ^ 52) [e] := fun x hx hu => (hlow x hx hu).trans (by decide)
  refine ⟨pmm, hpmm, ⟨_, pmm, [], hd, hz, hin, hpmm, rfl⟩, fun f hf a h1 _ ha => ?_⟩
  have := ha.lt (pmmInit_good hd hz hpmm) (pmmInit_within hz hlow hpmm)
  omega

/-- An empty space with the root at 1 MB. -/
theorem sound_oneRoot {pmm : Pmm.State} (hrun : Running pmm)
    (hheld : ∀ f, 2 ^ 20 ≤ f → Held pmm f) : Sound 256 {2 ^ 20} ⟨fun _ => 0, pmm, 0⟩ :=
  sound_blank 256 hrun (fun r hr => by rw [Set.mem_singleton_iff.mp hr]; decide)
    fun r hr => hheld r (by rw [Set.mem_singleton_iff.mp hr])

/-- Five usable pages, of which the tables below can be made. -/
theorem fivePages_running : ∃ pmm, pmmInit [fivePages] = some pmm ∧ Running pmm ∧
    ∀ f, 2 ^ 20 ≤ f → Held pmm f :=
  init_running (by decide) (by decide) (by decide)

/-- A page of an empty address space is mapped to a frame outside the managed memory. -/
theorem map_page_law_blank : ∃ pmm, pmmInit [fivePages] = some pmm ∧
    vmmVirtToPhys (vmmMapPage ⟨fun _ => 0, pmm, 0⟩ (2 ^ 20) 0x400000 (2 ^ 21) flagUser).2.mem
      (2 ^ 20) 0x400000 = 2 ^ 21 := by
  obtain ⟨pmm, h0, hrun, hheld⟩ := fivePages_running
  have hroot : pageSize ∣ 2 ^ 20 := by decide
  have hval : (pmmInit [fivePages]).map (fun pmm =>
      (vmmMapPage ⟨fun _ => 0, pmm, 0⟩ (2 ^ 20) 0x400000 (2 ^ 21) flagUser).1) = some true := by
    decide +kernel
  rw [h0] at hval
  have hnot : ¬ IsTable 512 (fun _ => 0) {2 ^ 20} (2 ^ 21) := fun ht =>
    absurd (isTable_blank ht) (by decide)
  have hlaw := map_page_law (s := ⟨fun _ => 0, pmm, 0⟩) hrun (by decide)
    (tree_blank 512 hroot) (backed_blank 512 (hheld _ le_rfl)) (show 0x400000 < 2 ^ 47 by decide)
    (by decide) (by decide) (by decide)
    (show flagUser &&& flagMask = flagUser by decide) hnot (hheld _ (by decide))
  exact ⟨pmm, h0, (hlaw.1 (some.inj hval)).1⟩

/-- The root of an empty address space is mapped as a page of it: the call succeeds, and the
frames the space maps are no longer apart from its tables. -/
theorem map_root_breaks_tree : ∃ pmm, pmmInit [fivePages] = some pmm ∧ Running pmm ∧
    Tree 512 (fun _ => 0) (2 ^ 20) ∧ Backed 512 ⟨fun _ => 0, pmm, 0⟩ (2 ^ 20) ∧
    (vmmMapPage ⟨fun _ => 0, pmm, 0⟩ (2 ^ 20) 0x400000 (2 ^ 20) flagUser).1 = true ∧
    ¬ Tree 512 (vmmMapPage ⟨fun _ => 0, pmm, 0⟩ (2 ^ 20) 0x400000 (2 ^ 20) flagUser).2.mem
      (2 ^ 20) := by
  obtain ⟨pmm, h0, hrun, hheld⟩ := fivePages_running
  have hval : (pmmInit [fivePages]).map (fun pmm =>
      (fun out => (out.1, pte 512 out.2.mem (2 ^ 20) 0x400))
        (vmmMapPage ⟨fun _ => 0, pmm, 0⟩ (2 ^ 20) 0x400000 (2 ^ 20) flagUser)) =
      some (true, ⟨2 ^ 20 + 5, false⟩) := by
    decide +kernel
  rw [h0] at hval
  obtain ⟨hok, hpte⟩ := Prod.mk.inj (some.inj hval)
  refine ⟨pmm, h0, hrun, tree_blank 512 (by decide), backed_blank 512 (hheld _ le_rfl), hok,
    fun htree => ?_⟩
  have hmaps : (pte 512 (vmmMapPage ⟨fun _ => 0, pmm, 0⟩ (2 ^ 20) 0x400000 (2 ^ 20)
      flagUser).2.mem (2 ^ 20) 0x400).Maps (2 ^ 20) := by
    rw [hpte]
    exact ⟨by decide, by decide⟩
  exact htree.leaves _ _ hmaps ⟨2 ^ 20, rfl, 0, 0, rfl⟩

end YamKernel.Vmm

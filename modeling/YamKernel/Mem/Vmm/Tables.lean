import YamKernel.Lib.Radix
import YamKernel.Mem.Pmm.FreeMemory
import YamKernel.Mem.Vmm.Entries

/-!
# Page-table trees

The tables below a root form a radix tree in physical memory; `pte` is the map from page
numbers to leaf entries that the tree stands for, and the walks of the source are functions
of it. `Sound top R s`: the trees below the roots `R` are separate, and their tables are not in
free memory. Only the first `top` entries of a root are looked at, since the address spaces
share the upper half of the kernel.

The lemmas at the end are the elementary changes of the code: a store outside the tables, a
store into an entry that leads where it did, and the link of a fresh table into an absent entry.
-/

namespace YamKernel.Vmm

open Lib Pmm Option Nat Radix

/-- The table that the entry `e` at index `i` of a table at depth `d` leads to. -/
def nextOf (top d i e : Nat) : Option Nat :=
  if has e flagPresent ∧ d < 3 ∧ (d = 0 → i < top) ∧ ¬ (d = 2 ∧ has e flagHuge) then some (frame e)
  else none

section NextOf

variable {top i e : Nat}

lemma nextOf_zero (hi : i < top) :
    nextOf top 0 i e = if has e flagPresent then some (frame e) else none := by
  simp [nextOf, hi]

lemma nextOf_one : nextOf top 1 i e = if has e flagPresent then some (frame e) else none := by
  simp [nextOf]

lemma nextOf_two : nextOf top 2 i e =
    if has e flagPresent then if has e flagHuge then none else some (frame e) else none := by
  cases h1 : has e flagPresent <;> cases h2 : has e flagHuge <;> simp [nextOf, h1, h2]

lemma nextOf_three : nextOf top 3 i e = none := by simp [nextOf]

lemma nextOf_absent {d : Nat} (h : has e flagPresent = false) : nextOf top d i e = none := by
  simp [nextOf, h]

lemma nextOf_root {u : Nat} (h : nextOf top 0 i e = some u) : i < top := by
  by_contra hge
  rw [nextOf, if_neg fun hc => hge (hc.2.2.1 rfl)] at h
  simp at h

end NextOf

def next (top : Nat) (m : Mem) (d t i : Nat) : Option Nat := nextOf top d i (entry m t i)

/-- The table with number `n` among those at depth `d`; depth 0 is the root. -/
abbrev tableAt (top : Nat) (m : Mem) (root d n : Nat) : Option Nat :=
  node 512 (next top m) root d n

/-- The tables of the address spaces with the roots `R`. -/
abbrev IsTable (top : Nat) (m : Mem) (R : Set Nat) (t : Nat) : Prop :=
  Radix.IsNode 512 (next top m) R t

/-- Where the leaf entry for page `p` is: table, index, and whether it maps 2 MB. -/
def leafSlot (top : Nat) (m : Mem) (root p : Nat) : Option (Nat × Nat × Bool) :=
  (tableAt top m root 2 (p / 512 / 512)).bind fun pd =>
    let e := entry m pd (p / 512 % 512)
    if ¬ has e flagPresent then none
    else if has e flagHuge then some (pd, p / 512 % 512, true)
    else some (frame e, p % 512, false)

/-- A leaf entry; `huge` for an entry of a page directory. -/
structure Pte where
  entry : Nat
  huge : Bool
  deriving DecidableEq, Repr

/-- The leaf entry for page `p`, 0 if there is no table for it. -/
def pte (top : Nat) (m : Mem) (root p : Nat) : Pte :=
  match leafSlot top m root p with
  | none => ⟨0, false⟩
  | some (t, i, huge) => ⟨entry m t i, huge⟩

def Pte.present (e : Pte) : Bool := has e.entry flagPresent

def Pte.phys (e : Pte) (virt : Nat) : Nat :=
  if e.huge then (e.entry &&& hugeMask) ||| (virt % hugePageSize)
  else if ¬ e.present then 0 else (e.entry &&& addrMask) ||| (virt % pageSize)

def pageOf (virt : Nat) : Nat := virt / pageSize % 2 ^ 36

section Walk

variable {top : Nat} {m m' : Mem} {root p virt : Nat}

lemma pml4Index_eq (virt : Nat) : pml4Index virt = pageOf virt / 512 / 512 / 512 % 512 := by
  unfold pml4Index pageOf pageSize
  omega

lemma pdptIndex_eq (virt : Nat) : pdptIndex virt = pageOf virt / 512 / 512 % 512 := by
  unfold pdptIndex pageOf pageSize
  omega

lemma pdIndex_eq (virt : Nat) : pdIndex virt = pageOf virt / 512 % 512 := by
  unfold pdIndex pageOf pageSize
  omega

lemma ptIndex_eq (virt : Nat) : ptIndex virt = pageOf virt % 512 := by
  unfold ptIndex pageOf pageSize
  omega

lemma tableAt_kid {d n t i : Nat} (ht : tableAt top m root d n = some t) (hi : i < 512) :
    tableAt top m root (d + 1) (512 * n + i) = nextOf top d i (entry m t i) :=
  node_kid hi ht

lemma tableAt_three : tableAt top m root 3 (p / 512) =
    (tableAt top m root 2 (p / 512 / 512)).bind fun pd =>
      nextOf top 2 (p / 512 % 512) (entry m pd (p / 512 % 512)) := rfl

lemma leafSlot_small {t i : Nat} : leafSlot top m root p = some (t, i, false) ↔
    tableAt top m root 3 (p / 512) = some t ∧ i = p % 512 := by
  rw [tableAt_three, leafSlot]
  cases tableAt top m root 2 (p / 512 / 512) with
  | none => simp
  | some pd =>
    simp only [bind_some, nextOf]
    by_cases h1 : has (entry m pd (p / 512 % 512)) flagPresent = true <;>
      by_cases h2 : has (entry m pd (p / 512 % 512)) flagHuge = true <;>
      simp [h1, h2, eq_comm]

lemma leafSlot_huge {t i : Nat} : leafSlot top m root p = some (t, i, true) ↔
    tableAt top m root 2 (p / 512 / 512) = some t ∧ i = p / 512 % 512 ∧
      has (entry m t i) flagPresent = true ∧ has (entry m t i) flagHuge = true := by
  rw [leafSlot]
  cases tableAt top m root 2 (p / 512 / 512) with
  | none => simp
  | some pd =>
    simp only [bind_some, some.injEq]
    by_cases h1 : has (entry m pd (p / 512 % 512)) flagPresent = true <;>
      by_cases h2 : has (entry m pd (p / 512 % 512)) flagHuge = true
    · simp only [h1, h2, not_true_eq_false, if_false, if_true, some.injEq, Prod.mk.injEq, and_true]
      constructor
      · rintro ⟨rfl, rfl⟩
        exact ⟨rfl, rfl, h1, h2⟩
      · rintro ⟨rfl, rfl, -⟩
        exact ⟨rfl, rfl⟩
    · simp only [h1, h2, not_true_eq_false, if_false, some.injEq, Prod.mk.injEq,
        Bool.false_eq_true, and_false, false_iff]
      rintro ⟨rfl, rfl, -, h⟩
      exact h2 h
    · simp only [h1, not_false_eq_true, if_true, reduceCtorEq, false_iff]
      rintro ⟨rfl, rfl, h, -⟩
      exact h1 h
    · simp only [h1, not_false_eq_true, if_true, reduceCtorEq, false_iff]
      rintro ⟨rfl, rfl, h, -⟩
      exact h1 h

lemma pte_congr
    (hdir : tableAt top m' root 2 (p / 512 / 512) = tableAt top m root 2 (p / 512 / 512))
    (hpd : ∀ pd, tableAt top m root 2 (p / 512 / 512) = some pd →
      entry m' pd (p / 512 % 512) = entry m pd (p / 512 % 512))
    (hpt : ∀ t, tableAt top m root 3 (p / 512) = some t →
      entry m' t (p % 512) = entry m t (p % 512)) :
    pte top m' root p = pte top m root p := by
  rw [pte, pte, leafSlot, leafSlot, hdir]
  cases h2 : tableAt top m root 2 (p / 512 / 512) with
  | none => simp only [bind_none]
  | some pd =>
    simp only [bind_some, hpd pd h2]
    cases hp : has (entry m pd (p / 512 % 512)) flagPresent with
    | false => simp
    | true =>
      cases hh : has (entry m pd (p / 512 % 512)) flagHuge with
      | true => simp [hpd pd h2]
      | false =>
        have h3 : tableAt top m root 3 (p / 512) = some (frame (entry m pd (p / 512 % 512))) := by
          rw [tableAt_three, h2, bind_some, nextOf_two, hp, hh]
          simp
        simp [hpt _ h3]

lemma pte_absent_small (h : (pte top m root p).present = false) :
    (pte top m root p).huge = false := by
  cases hs : leafSlot top m root p with
  | none => simp [pte, hs]
  | some x =>
    obtain ⟨t, i, huge⟩ := x
    cases huge with
    | false => simp [pte, hs]
    | true => simp [Pte.present, pte, hs, (leafSlot_huge.mp hs).2.2.1] at h

section

variable (htop : pageOf virt < top * 2 ^ 27)
include htop

/-- The checks the walks of the source start with. -/
theorem walkPd_eq : walkPd m root virt =
    (tableAt top m root 2 (pageOf virt / 512 / 512)).bind fun pd =>
      if has (entry m pd (pageOf virt / 512 % 512)) flagPresent then some pd else none := by
  have h0 : pageOf virt / 512 / 512 / 512 / 512 = 0 := by unfold pageOf; omega
  have hlt : pageOf virt / 512 / 512 / 512 % 512 < top := by omega
  rw [tableAt, node_succ, node_succ, node, h0, if_pos rfl, bind_some, next,
    nextOf_zero hlt, walkPd, pml4Index_eq, pdptIndex_eq, pdIndex_eq]
  cases has (entry m root (pageOf virt / 512 / 512 / 512 % 512)) flagPresent with
  | false => simp
  | true =>
    simp only [next, nextOf_one]
    cases h3 : has (entry m (frame (entry m root (pageOf virt / 512 / 512 / 512 % 512)))
        (pageOf virt / 512 / 512 % 512)) flagPresent with
    | false => simp_all [frame]
    | true =>
      simp_all only [frame, not_true_eq_false, if_false, if_true, bind_some]
      split_ifs <;> simp_all

lemma vmmVirtToPhys_eq : vmmVirtToPhys m root virt = (pte top m root (pageOf virt)).phys virt := by
  rw [vmmVirtToPhys, walkPd_eq htop, pte, leafSlot, pdIndex_eq, ptIndex_eq]
  cases tableAt top m root 2 (pageOf virt / 512 / 512) with
  | none => simp [Pte.phys, Pte.present, has]
  | some pd =>
    simp only [bind_some]
    split_ifs <;> simp_all [Pte.phys, Pte.present, has, frame]

lemma vmmGetPteFlags_eq :
    vmmGetPteFlags m root virt = (pte top m root (pageOf virt)).entry &&& flagMask := by
  rw [vmmGetPteFlags, walkPd_eq htop, pte, leafSlot, pdIndex_eq, ptIndex_eq]
  cases tableAt top m root 2 (pageOf virt / 512 / 512) with
  | none => simp
  | some pd =>
    simp only [bind_some]
    split_ifs <;> simp_all [frame]

end

end Walk

lemma vmmUpdateFlags_eq {top : Nat} {s : State} {root virt : Nat} (flags : Nat)
    (htop : pageOf virt < top * 2 ^ 27) : vmmUpdateFlags s root virt flags =
      match leafSlot top s.mem root (pageOf virt) with
      | none => (false, s)
      | some (t, i, true) => (true, s.setEntry t i
          ((entry s.mem t i &&& hugeMask) ||| flags ||| flagPresent ||| flagHuge))
      | some (t, i, false) =>
        if ¬ has (entry s.mem t i) flagPresent then (false, s)
        else (true, s.setEntry t i (leafEntry (entry s.mem t i) flags)) := by
  rw [vmmUpdateFlags, walkPd_eq htop, leafSlot, pdIndex_eq, ptIndex_eq]
  cases tableAt top s.mem root 2 (pageOf virt / 512 / 512) with
  | none => simp
  | some pd =>
    simp only [bind_some]
    split_ifs <;> simp_all [frame, leafEntry]

/-! ## Address spaces -/

/-- The trees below the roots are separate and out of free memory. -/
structure Sound (top : Nat) (R : Set Nat) (s : State) : Prop where
  good : Good s.pmm
  within : Within (2 ^ 52) s.pmm
  root : ∀ r ∈ R, pageSize ∣ r
  separate : Radix.Separate 512 (next top s.mem) R
  held : ∀ t, IsTable top s.mem R t → Held s.pmm t

def KeepsTables (top : Nat) (R : Set Nat) (m m' : Mem) : Prop :=
  ∀ t, IsTable top m R t → ∀ i < 512, entry m' t i = entry m t i

section Tables

variable {top : Nat} {R : Set Nat} {s s' : State} {m m' : Mem} {r r' d d' n n' t u i e p : Nat}

lemma isTable_dvd (hroot : ∀ r ∈ R, pageSize ∣ r) (ht : IsTable top m R t) : pageSize ∣ t := by
  obtain ⟨r, hr, d, n, hn⟩ := ht
  cases d with
  | zero =>
    rw [node] at hn
    split_ifs at hn
    exact some.inj hn ▸ hroot r hr
  | succ d =>
    obtain ⟨q, -, hq⟩ := node_parent hn
    unfold next nextOf at hq
    split_ifs at hq
    exact some.inj hq ▸ frame_dvd _

lemma PagesApart.of_ne {f g : Nat} (hf : pageSize ∣ f) (hg : pageSize ∣ g) (hne : f ≠ g) :
    PagesApart f g := by
  unfold PagesApart pageSize at *
  omega

lemma Sound.apart (h : Sound top R s) (ht : IsTable top s.mem R t) (hu : IsTable top s.mem R u)
    (hne : t ≠ u) : PagesApart t u :=
  .of_ne (isTable_dvd h.root ht) (isTable_dvd h.root hu) hne

lemma KeepsTables.tableAt_eq (h : KeepsTables top R m m') (hr : r ∈ R) (d n : Nat) :
    tableAt top m' r d n = tableAt top m r d n := by
  refine node_congr (fun d n t ht i hi => ?_) (by decide) d n
  rw [next, next, h t ⟨r, hr, d, n, ht⟩ i hi]

variable {huge : Bool} {j : Nat}

lemma leafSlot_isTable (hr : r ∈ R) (h : leafSlot top m r p = some (t, i, huge)) :
    IsTable top m R t ∧ i < 512 := by
  cases huge with
  | false =>
    obtain ⟨ht, rfl⟩ := leafSlot_small.mp h
    exact ⟨⟨r, hr, 3, _, ht⟩, mod_lt _ (by decide)⟩
  | true =>
    obtain ⟨ht, rfl, -⟩ := leafSlot_huge.mp h
    exact ⟨⟨r, hr, 2, _, ht⟩, mod_lt _ (by decide)⟩

lemma KeepsTables.pte_eq (h : KeepsTables top R m m') (hr : r ∈ R) (p : Nat) :
    pte top m' r p = pte top m r p :=
  pte_congr (h.tableAt_eq hr _ _) (fun pd hpd => h pd ⟨r, hr, 2, _, hpd⟩ _ (mod_lt _ (by decide)))
    fun t ht => h t ⟨r, hr, 3, _, ht⟩ _ (mod_lt _ (by decide))

lemma KeepsTables.isTable_iff (h : KeepsTables top R m m') :
    IsTable top m' R t ↔ IsTable top m R t :=
  isNode_congr fun _ hr => h.tableAt_eq hr

lemma Sound.keeps (h : Sound top R s) (hk : KeepsTables top R s.mem s'.mem) (hg : Good s'.pmm)
    (hw : Within (2 ^ 52) s'.pmm) (hh : ∀ t, IsTable top s.mem R t → Held s'.pmm t) :
    Sound top R s' :=
  ⟨hg, hw, h.root, h.separate.congr fun _ hr => hk.tableAt_eq hr,
    fun t ht => hh t (hk.isTable_iff.mp ht)⟩

/-! ## A store into an entry that leads where it did -/

lemma entry_set (hi : i < 512) (hj : j < 512) (he : e < 2 ^ 64) (hap : u ≠ t → PagesApart u t) :
    entry (s.setEntry t i e).mem u j = if u = t ∧ j = i then e else entry s.mem u j := by
  by_cases hut : u = t
  · subst hut
    by_cases hji : j = i
    · rw [hji, entry_setEntry_self he, if_pos ⟨rfl, rfl⟩]
    · rw [entry_setEntry_ne hji, if_neg fun hc => hji hc.2]
  · rw [entry_setEntry_apart hi hj (hap hut), if_neg fun hc => hut hc.1]

lemma Sound.entry_set (h : Sound top R s) (ht : IsTable top s.mem R t) (hi : i < 512)
    (he : e < 2 ^ 64) (hu : IsTable top s.mem R u) (hj : j < 512) :
    entry (s.setEntry t i e).mem u j = if u = t ∧ j = i then e else entry s.mem u j :=
  Vmm.entry_set hi hj he (h.apart hu ht)

section Set

variable (h : Sound top R s) (hr : r ∈ R) (ht : tableAt top s.mem r d n = some t) (hi : i < 512)
  (he : e < 2 ^ 64) (hnext : nextOf top d i e = nextOf top d i (entry s.mem t i))

include h hr ht hi he hnext

lemma Sound.tableAt_set (hr' : r' ∈ R) (d' n' : Nat) :
    tableAt top (s.setEntry t i e).mem r' d' n' = tableAt top s.mem r' d' n' := by
  refine node_congr (fun d1 n1 u hu j hj => ?_) (by decide) d' n'
  rw [next, h.entry_set ⟨r, hr, d, n, ht⟩ hi he ⟨r', hr', d1, n1, hu⟩ hj]
  split_ifs with hc
  · obtain ⟨rfl, rfl⟩ := hc
    obtain ⟨-, rfl, -⟩ := h.separate r' hr' r hr _ _ _ _ u hu ht
    exact hnext
  · rfl

lemma Sound.isTable_set {u : Nat} :
    IsTable top (s.setEntry t i e).mem R u ↔ IsTable top s.mem R u :=
  isNode_congr fun _ hr' => h.tableAt_set hr ht hi he hnext hr'

lemma Sound.set : Sound top R (s.setEntry t i e) :=
  ⟨h.good, h.within, h.root, h.separate.congr fun _ hr' => h.tableAt_set hr ht hi he hnext hr',
    fun u hu => h.held u ((h.isTable_set hr ht hi he hnext).mp hu)⟩

end Set

lemma nextOf_leaf (i e e' : Nat) : nextOf top 3 i e = nextOf top 3 i e' := by
  rw [nextOf_three, nextOf_three]

/-! ## A store into a leaf entry -/

/-- Page `q` is behind the leaf entry of page `p`. -/
def SameLeaf (huge : Bool) (p q : Nat) : Prop := if huge then q / 512 = p / 512 else q = p

instance (huge : Bool) (p q : Nat) : Decidable (SameLeaf huge p q) := by
  unfold SameLeaf
  infer_instance

lemma SameLeaf.refl (huge : Bool) (p : Nat) : SameLeaf huge p p := by
  unfold SameLeaf
  split_ifs <;> rfl

/-- The leaf entry of page `p` of the space `r` is now `e`. -/
structure Stored (top : Nat) (R : Set Nat) (s s' : State) (r p : Nat) (huge : Bool) (e : Nat) :
    Prop where
  sound : Sound top R s'
  pmm : s'.pmm = s.pmm
  tables : ∀ r' ∈ R, ∀ d n, tableAt top s'.mem r' d n = tableAt top s.mem r' d n
  pte_eq : ∀ r' ∈ R, ∀ q, pte top s'.mem r' q =
    if r' = r ∧ SameLeaf huge p q then ⟨e, huge⟩ else pte top s.mem r' q
  upper : ∀ r' ∈ R, ∀ i < 512, top ≤ i → entry s'.mem r' i = entry s.mem r' i
  bytes : ∀ a, (∀ t, IsTable top s.mem R t → ¬ (t ≤ a ∧ a < t + pageSize)) → s'.mem a = s.mem a

lemma Stored.isTable_iff (g : Stored top R s s' r p huge e) :
    IsTable top s'.mem R t ↔ IsTable top s.mem R t := isNode_congr g.tables

lemma nextOf_leafSlot (hs : leafSlot top s.mem r p = some (t, i, huge))
    (hkeep : huge = true → has e flagPresent = true ∧ has e flagHuge = true) :
    ∃ d n, 2 ≤ d ∧ tableAt top s.mem r d n = some t ∧
      nextOf top d i e = nextOf top d i (entry s.mem t i) := by
  cases huge with
  | false =>
    obtain ⟨ht, -⟩ := leafSlot_small.mp hs
    exact ⟨3, _, by decide, ht, nextOf_leaf _ _ _⟩
  | true =>
    obtain ⟨ht, -, hp, hh⟩ := leafSlot_huge.mp hs
    obtain ⟨hp', hh'⟩ := hkeep rfl
    exact ⟨2, _, by decide, ht, by simp [nextOf_two, hh, hh']⟩

/-- A table with the leaf entry of `p` is on the way to the pages behind the entry only. -/
theorem Sound.sameLeaf (h : Sound top R s) (hr : r ∈ R) (hr' : r' ∈ R) {q : Nat}
    (hs : leafSlot top s.mem r p = some (t, i, huge)) :
    (tableAt top s.mem r' 2 (q / 512 / 512) = some t → q / 512 % 512 = i →
      r' = r ∧ SameLeaf huge p q) ∧
    (tableAt top s.mem r' 3 (q / 512) = some t → q % 512 = i → r' = r ∧ SameLeaf huge p q) := by
  cases huge with
  | false =>
    obtain ⟨ht, rfl⟩ := leafSlot_small.mp hs
    refine ⟨fun hu => ?_, fun hu hi => ?_⟩ <;>
      obtain ⟨rfl, hd, hn⟩ := h.separate r' hr' r hr _ _ _ _ t hu ht
    · omega
    · exact ⟨rfl, show q = p by omega⟩
  | true =>
    obtain ⟨ht, rfl, -⟩ := leafSlot_huge.mp hs
    refine ⟨fun hu hi => ?_, fun hu => ?_⟩ <;>
      obtain ⟨rfl, hd, hn⟩ := h.separate r' hr' r hr _ _ _ _ t hu ht
    · exact ⟨rfl, show q / 512 = p / 512 by omega⟩
    · omega

lemma Sound.stored (h : Sound top R s) (hr : r ∈ R)
    (hs : leafSlot top s.mem r p = some (t, i, huge)) (he : e < 2 ^ 64)
    (hkeep : huge = true → has e flagPresent = true ∧ has e flagHuge = true) :
    Stored top R s (s.setEntry t i e) r p huge e := by
  obtain ⟨htab, hi⟩ := leafSlot_isTable hr hs
  obtain ⟨d, n, hd, ht, hnext⟩ := nextOf_leafSlot hs hkeep
  have htrees := fun {r'} (hr' : r' ∈ R) => h.tableAt_set hr ht hi he hnext hr'
  have hentry := fun {u} (hu : IsTable top s.mem R u) {j} => h.entry_set htab hi he hu (j := j)
  refine ⟨h.set hr ht hi he hnext, rfl, fun r' => htrees, fun r' hr' q => ?_,
    fun r' hr' j hj _ => ?_, fun a ha => Mem.write_of_notMem ?_⟩
  · have hlt : q / 512 % 512 < 512 := mod_lt _ (by decide)
    have hlt' : q % 512 < 512 := mod_lt _ (by decide)
    split_ifs with hc
    · obtain ⟨rfl, hq⟩ := hc
      have hslot : leafSlot top (s.setEntry t i e).mem r' q = some (t, i, huge) := by
        cases huge with
        | false =>
          obtain rfl : q = p := hq
          rw [leafSlot_small, htrees hr]
          exact leafSlot_small.mp hs
        | true =>
          obtain ⟨ht, hidx, -⟩ := leafSlot_huge.mp hs
          rw [leafSlot_huge, htrees hr, hq, entry_setEntry_self he]
          exact ⟨ht, hidx, hkeep rfl⟩
      rw [pte, hslot]
      simp [entry_setEntry_self he]
    · refine pte_congr (htrees hr' 2 _) (fun pd hpd => ?_) fun u hu => ?_
      · rw [hentry ⟨r', hr', 2, _, hpd⟩ hlt, if_neg]
        rintro ⟨rfl, hj⟩
        exact hc ((h.sameLeaf hr hr' hs).1 hpd hj)
      · rw [hentry ⟨r', hr', 3, _, hu⟩ hlt', if_neg]
        rintro ⟨rfl, hj⟩
        exact hc ((h.sameLeaf hr hr' hs).2 hu hj)
  · rw [hentry ⟨r', hr', 0, 0, node_zero⟩ hj, if_neg]
    rintro ⟨rfl, -⟩
    have := (h.separate r' hr' r hr _ _ _ _ r' node_zero ht).2.1
    omega
  · have := ha t htab
    unfold pageSize at this
    omega

lemma Sound.stored_small (h : Sound top R s) (hr : r ∈ R)
    (ht : tableAt top s.mem r 3 (p / 512) = some t) (he : e < 2 ^ 64) :
    Stored top R s (s.setEntry t (p % 512) e) r p false e :=
  h.stored hr (leafSlot_small.mpr ⟨ht, rfl⟩) he nofun

lemma Stored.pte_small (g : Stored top R s s' r p false e) (hr : r ∈ R) (q : Nat) :
    pte top s'.mem r q = if q = p then ⟨e, false⟩ else pte top s.mem r q := by
  rw [g.pte_eq r hr]
  simp [SameLeaf]

/-! ## Fresh tables -/

/-- The fresh page `new`, cleared and entered at index `i` of table `t` with the entry `e`. -/
def State.link (s : State) (pmm : Pmm.State) (new t i e : Nat) : State :=
  State.setEntry { s with pmm, mem := s.mem.fill new pageSize 0 } t i e

/-- Tables were added, the pages `l`, without any leaf entry. -/
structure Grows (top : Nat) (R : Set Nat) (s s' : State) (l : List Nat) : Prop where
  sound : Sound top R s'
  kernel : s'.kernelPml4 = s.kernelPml4
  takes : Takes s.pmm s'.pmm l
  kept : ∀ r ∈ R, ∀ d n t, tableAt top s.mem r d n = some t → tableAt top s'.mem r d n = some t
  tables : ∀ t, IsTable top s'.mem R t ↔ IsTable top s.mem R t ∨ t ∈ l
  pte_eq : ∀ r ∈ R, ∀ p, pte top s'.mem r p = pte top s.mem r p
  upper : ∀ r ∈ R, ∀ i < 512, top ≤ i → entry s'.mem r i = entry s.mem r i
  bytes : ∀ a, ¬ FreeAt s.pmm a → (∀ t, IsTable top s.mem R t → ¬ (t ≤ a ∧ a < t + pageSize)) →
    s'.mem a = s.mem a

lemma Grows.refl (h : Sound top R s) : Grows top R s s [] :=
  ⟨h, rfl, .nil, fun _ _ _ _ _ ht => ht, fun _ => by simp, fun _ _ _ => rfl, fun _ _ _ _ _ => rfl,
    fun _ _ _ => rfl⟩

lemma Grows.trans {s'' : State} {l l' : List Nat} (h : Grows top R s s' l) (hs : Sound top R s)
    (g : Grows top R s' s'' l') : Grows top R s s'' (l' ++ l) where
  sound := g.sound
  kernel := g.kernel.trans h.kernel
  takes := h.takes.trans g.takes
  kept r hr d n t ht := g.kept r hr d n t (h.kept r hr d n t ht)
  tables t := by
    rw [g.tables, h.tables, List.mem_append]
    tauto
  pte_eq r hr p := (g.pte_eq r hr p).trans (h.pte_eq r hr p)
  upper r hr i hi hti := (g.upper r hr i hi hti).trans (h.upper r hr i hi hti)
  bytes a hfree htab := by
    rw [g.bytes a (fun hf => hfree (h.takes.freeAt hs.good hf)) ?_, h.bytes a hfree htab]
    intro t ht hin
    rcases (h.tables t).mp ht with ht | ht
    · exact htab t ht hin
    · exact hfree ((h.takes.mem hs.good ht).2.2.1 a hin.1 hin.2)

section Link

variable {pmm' : Pmm.State} {new : Nat} (h : Sound top R s) (hfresh : Fresh s.pmm pmm' new)
  (hr : r ∈ R) (ht : tableAt top s.mem r d n = some t) (hi : i < 512)
  (habs : has (entry s.mem t i) flagPresent = false) (he : e < 2 ^ 64)
  (hnew : nextOf top d i e = some new)

include h hfresh

lemma Sound.fresh_apart (hu : IsTable top s.mem R u) : PagesApart u new :=
  hfresh.apart (h.held u hu)

lemma Sound.fresh_notTable : ¬ IsTable top s.mem R new := by
  intro hm
  have := h.fresh_apart hfresh hm
  unfold PagesApart pageSize at this
  omega

include hr ht hi

lemma Sound.entry_link (he : e < 2 ^ 64) (hu : IsTable top s.mem R u) {j : Nat} (hj : j < 512) :
    entry (s.link pmm' new t i e).mem u j = if u = t ∧ j = i then e else entry s.mem u j := by
  have hap := h.fresh_apart hfresh hu
  have hfill : entry (s.mem.fill new pageSize 0) u j = entry s.mem u j := by
    refine entry_congr hj fun a h1 h2 => Mem.fill_of_notMem ?_
    unfold PagesApart at hap
    omega
  rw [← hfill]
  exact Vmm.entry_set hi hj he (h.apart hu ⟨r, hr, d, n, ht⟩)

lemma Sound.entry_link_new {j : Nat} (hj : j < 512) :
    entry (s.link pmm' new t i e).mem new j = 0 := by
  have hap := h.fresh_apart hfresh ⟨r, hr, d, n, ht⟩
  refine (entry_setEntry_apart hi hj hap.symm).trans (Mem.read_fill_zero ?_ ?_)
  · omega
  · unfold pageSize
    omega

include habs he hnew

lemma Sound.link_spec :
    Radix.Link 512 (next top s.mem) (next top (s.link pmm' new t i e).mem) R d t i new := by
  have hentry := fun {u} (hu : IsTable top s.mem R u) {j} =>
    h.entry_link hfresh hr ht hi he hu (j := j)
  refine ⟨nextOf_absent habs, ?_, fun d j hj => ?_, fun d u hu j hj hne => ?_⟩
  · rw [next, hentry ⟨r, hr, d, n, ht⟩ hi, if_pos ⟨rfl, rfl⟩, hnew]
  · rw [next, h.entry_link_new hfresh hr ht hi hj]
    exact nextOf_absent (by decide)
  · rw [next, next, hentry hu hj, if_neg hne]

lemma Sound.tableAt_link (hr' : r' ∈ R) (d' n' : Nat) :
    tableAt top (s.link pmm' new t i e).mem r' d' n' =
      if r' = r ∧ d' = d + 1 ∧ n' = 512 * n + i then some new else tableAt top s.mem r' d' n' :=
  node_link (h.link_spec hfresh hr ht hi habs he hnew) h.separate hr ht hi hr' d' n'

lemma Sound.pte_link (hr' : r' ∈ R) (p : Nat) :
    pte top (s.link pmm' new t i e).mem r' p = pte top s.mem r' p := by
  have hentry := fun {u} (hu : IsTable top s.mem R u) {j} =>
    h.entry_link hfresh hr ht hi he hu (j := j)
  have hzero := fun {j} => h.entry_link_new hfresh hr ht hi (e := e) (j := j)
  have hlink := h.tableAt_link hfresh hr ht hi habs he hnew hr'
  have hlt : p / 512 % 512 < 512 := mod_lt _ (by decide)
  have hlt' : p % 512 < 512 := mod_lt _ (by decide)
  by_cases hdir : r' = r ∧ 2 = d + 1 ∧ p / 512 / 512 = 512 * n + i
  · -- The new table is a page directory: there was none for the page before.
    obtain ⟨rfl, hd, hn⟩ := hdir
    obtain rfl : d = 1 := by omega
    have hnone : tableAt top s.mem r' 2 (p / 512 / 512) = none := by
      rw [hn]
      exact (tableAt_kid ht hi).trans (nextOf_absent habs)
    rw [pte, pte, leafSlot, leafSlot, hlink, if_pos ⟨rfl, rfl, hn⟩, hnone]
    simp [hzero hlt, has]
  by_cases hleaf : r' = r ∧ 3 = d + 1 ∧ p / 512 = 512 * n + i
  · -- The new table is for the page: its entry is 0 where there was none.
    obtain ⟨rfl, hd, hn⟩ := hleaf
    obtain rfl : d = 2 := by omega
    have hslot : leafSlot top (s.link pmm' new t i e).mem r' p = some (new, p % 512, false) :=
      leafSlot_small.mpr ⟨by rw [hlink, if_pos ⟨rfl, rfl, hn⟩], rfl⟩
    obtain ⟨hn', hi'⟩ : p / 512 / 512 = n ∧ p / 512 % 512 = i := by omega
    rw [pte, hslot, pte, leafSlot, hn', ht, hi']
    simp [habs, hzero hlt']
  refine pte_congr (by rw [hlink, if_neg hdir]) (fun pd hpd => ?_) fun u hu => ?_
  · rw [hentry ⟨r', hr', 2, _, hpd⟩ hlt, if_neg]
    rintro ⟨rfl, hj⟩
    obtain ⟨rfl, rfl, hn⟩ := h.separate r' hr' r hr _ _ _ _ pd hpd ht
    exact hleaf ⟨rfl, rfl, by omega⟩
  · rw [hentry ⟨r', hr', 3, _, hu⟩ hlt', if_neg]
    rintro ⟨rfl, -⟩
    obtain ⟨-, rfl, -⟩ := h.separate r' hr' r hr _ _ _ _ u hu ht
    simp [nextOf_three] at hnew

lemma Sound.grows_link : Grows top R s (s.link pmm' new t i e) [new] := by
  have hl := h.link_spec hfresh hr ht hi habs he hnew
  have htab : IsTable top s.mem R t := ⟨r, hr, d, n, ht⟩
  have htables := fun {u} => isNode_link h.separate hl hr ht hi (u := u)
  refine ⟨⟨hfresh.good, (hfresh.within h.within).2, h.root,
    h.separate.link hl hr ht hi (h.fresh_notTable hfresh), fun u hu => ?_⟩, rfl,
    .cons .nil hfresh, fun r' hr' d' n' u hu => ?_, fun u => ?_,
    fun r' hr' p => h.pte_link hfresh hr ht hi habs he hnew hr' p, fun r' hr' j hj htj => ?_,
    fun a hfree hout => ?_⟩
  · rcases htables.mp hu with hu | rfl
    · exact hfresh.keeps u (h.held u hu)
    · exact hfresh.held
  · rw [h.tableAt_link hfresh hr ht hi habs he hnew hr', if_neg, hu]
    rintro ⟨rfl, rfl, rfl⟩
    rw [tableAt_kid ht hi, nextOf_absent habs] at hu
    simp at hu
  · rw [List.mem_singleton]
    exact htables
  · rw [h.entry_link hfresh hr ht hi he ⟨r', hr', 0, 0, node_zero⟩ hj, if_neg]
    rintro ⟨rfl, rfl⟩
    obtain ⟨-, rfl, -⟩ := h.separate r' hr' r hr _ _ _ _ r' node_zero ht
    have := nextOf_root hnew
    omega
  · have hbyte : (s.mem.fill new pageSize 0) a = s.mem a := by
      refine Mem.fill_of_notMem ?_
      by_contra hin
      exact hfree (hfresh.free a (by omega) (by omega))
    rw [← hbyte]
    refine Mem.write_of_notMem ?_
    have := hout t htab
    unfold pageSize at this
    omega

end Link

end Tables

end YamKernel.Vmm

import YamKernel.Mem.Vmm.Create
import YamKernel.Mem.Vmm.KernelStacks

/-!
# The tables of the kernel stacks

`Stacked`: in the tables of the slot, just the pages `L` are mapped, each to a frame of its own, the
roots `U` of user spaces lead to the same tables, and the frames `O` are in use elsewhere; if `B`,
the slot has a table. Mapping and unmapping a page of a stack, creating a user root, and taking and
giving back frames keep this.
-/

namespace YamKernel.Vmm

open Lib Pmm List Nat Set

/-- A root outside the kernel's tables that leads to the tables of the slot. -/
structure UserRoot (k : Nat) (v : State) (u : Nat) : Prop where
  owned : Owned 512 {k} v u
  present : has (entry v.mem u stackSlot) flagPresent = true
  table : tableAt 512 v.mem k 1 stackSlot = some (frame (entry v.mem u stackSlot))

structure Stacked (k : Nat) (B : Prop) (U O L : Set Nat) (v : State) : Prop where
  sound : Sound 512 {k} v
  root : v.kernelPml4 = k
  clear : ∀ p, InSlot p → ¬ Blocked 512 v.mem k p
  slot : ∀ p ∈ L, InSlot p
  absent : ∀ p, InSlot p → p ∉ L → (pte 512 v.mem k p).present = false
  mapped : ∀ p ∈ L, ∃ f, Owned 512 {k} v f ∧ f ∉ U ∪ O ∧
    pte 512 v.mem k p = ⟨leafEntry f stackFlags, false⟩
  apart : ∀ p ∈ L, ∀ q ∈ L, pte 512 v.mem k p = pte 512 v.mem k q → p = q
  users : ∀ u ∈ U, UserRoot k v u
  others : ∀ f ∈ O, Owned 512 {k} v f ∧ f ∉ U
  ready : B → tableAt 512 v.mem k 1 stackSlot ≠ none

section Pages

variable {k f g p va : Nat} {B : Prop} {U O L : Set Nat} {v v' : State} {l : List Nat}

lemma leafEntry_inj (hf : pageSize ∣ f ∧ f < 2 ^ 52) (hg : pageSize ∣ g ∧ g < 2 ^ 52)
    (h : leafEntry f stackFlags = leafEntry g stackFlags) : f = g := by
  rw [← leafEntry_frame hf.1 hf.2 (show stackFlags &&& addrMask = 0 by decide), h,
    leafEntry_frame hg.1 hg.2 (by decide)]

/-- The bytes of an owned page are neither free nor in a table. -/
theorem Owned.outside {a : Nat} (h : Owned 512 {k} v f) (hs : Sound 512 {k} v) (h1 : f ≤ a)
    (h2 : a < f + pageSize) :
    ¬ FreeAt v.pmm a ∧ ∀ t, IsTable 512 v.mem {k} t → ¬ (t ≤ a ∧ a < t + pageSize) := by
  refine ⟨h.held hs a h1 h2, fun t ht hin => ?_⟩
  have hap := PagesApart.of_ne (isTable_dvd hs.root ht) (h.page hs) fun he =>
    h.notTable hs (he ▸ ht)
  unfold PagesApart at hap
  omega

lemma UserRoot.keep {u : Nat} (h : UserRoot k v u) (ho : Owned 512 {k} v' u)
    (hkept : ∀ t, tableAt 512 v.mem k 1 stackSlot = some t →
      tableAt 512 v'.mem k 1 stackSlot = some t)
    (he : entry v'.mem u stackSlot = entry v.mem u stackSlot) : UserRoot k v' u :=
  ⟨ho, by rw [he]; exact h.present, by rw [he]; exact hkept _ h.table⟩

section

variable (h : Stacked k B U O L v)
include h

/-- A frame in use elsewhere backs no page of the slot. -/
theorem Stacked.frame_ne (hf : f ∈ O) (hp : p ∈ L) :
    pte 512 v.mem k p ≠ ⟨leafEntry f stackFlags, false⟩ := by
  obtain ⟨g, hg, hgO, hpte⟩ := h.mapped p hp
  rw [hpte]
  intro he
  have hfo := (h.others f hf).1
  obtain rfl := leafEntry_inj ⟨hg.page h.sound, hg.lt h.sound⟩ ⟨hfo.page h.sound, hfo.lt h.sound⟩
    (congrArg Pte.entry he)
  exact hgO (.inr hf)

lemma Stacked.take {pmm' : Pmm.State} (hf : Fresh v.pmm pmm' f) :
    f ∉ O ∧ Stacked k B U (insert f O) L { v with pmm := pmm' } := by
  have hne : ∀ g, Owned 512 {k} v g → g ≠ f := fun g hg => hg.ne_fresh h.sound hf
  refine ⟨fun hc => hne f (h.others f hc).1 rfl, { h with
    sound := h.sound.take hf
    mapped := fun p hp => ?_
    users := fun u hu => ?_
    others := ?_ }⟩
  · obtain ⟨g, hg, hgO, hpte⟩ := h.mapped p hp
    refine ⟨g, hg.fresh h.sound hf, ?_, hpte⟩
    rintro (hc | rfl | hc)
    · exact hgO (.inl hc)
    · exact hne g hg rfl
    · exact hgO (.inr hc)
  · exact (h.users u hu).keep ((h.users u hu).owned.fresh h.sound hf) (fun _ ht => ht) rfl
  · rintro g (rfl | hg)
    · exact ⟨h.sound.owned_fresh hf, fun hc => hne g (h.users g hc).owned rfl⟩
    · exact ⟨(h.others g hg).1.fresh h.sound hf, (h.others g hg).2⟩

lemma Stacked.freePage (hf : f ∈ O) : Stacked k B U (O \ {f}) L (v.freePage f) := by
  obtain ⟨hown, hU⟩ := h.others f hf
  refine { h with
    sound := h.sound.freePage hown
    mapped := fun p hp => ?_
    users := fun u hu => ?_
    others := fun g hg => ⟨(h.others g hg.1).1.freePage h.sound hg.2, (h.others g hg.1).2⟩ }
  · obtain ⟨g, hg, hgO, hpte⟩ := h.mapped p hp
    refine ⟨g, hg.freePage h.sound ?_, fun hc => hgO (hc.imp id And.left), hpte⟩
    rintro rfl
    exact hgO (.inr hf)
  · refine (h.users u hu).keep ((h.users u hu).owned.freePage h.sound ?_) (fun _ ht => ht) rfl
    rintro rfl
    exact hU hu

lemma Stacked.map_page (hf : f ∈ O) (hp : InSlot (pageOf va)) (hL : pageOf va ∉ L) :
    ∃ b v', vmmMapPage v k va f stackFlags = (b, v') ∧
      if b then Stacked k B U (O \ {f}) (insert (pageOf va) L) v' else Stacked k B U O L v' := by
  obtain ⟨l, w, hyes⟩ := h.sound.mapped rfl
    (mod_lt _ (by decide)) f (show stackFlags < 2 ^ 64 by decide)
  generalize vmmMapPage v k va f stackFlags = out at *
  obtain ⟨b, v'⟩ := out
  refine ⟨b, v', rfl, ?_⟩
  have howned : ∀ g, Owned 512 {k} v g → Owned 512 {k} v' g := fun g hg => hg.mapped h.sound w
  have hroot : v'.kernelPml4 = k := w.kernel.trans h.root
  have hclear : ∀ q, InSlot q → ¬ Blocked 512 v'.mem k q :=
      fun q hq hb => h.clear q hq (w.huge q hb)
  have husers : ∀ u ∈ U, UserRoot k v' u := fun u hu => by
    have hold := (h.users u hu).owned
    refine (h.users u hu).keep (howned u hold) (fun t ht => w.kept k rfl 1 _ t ht) ?_
    refine entry_congr (by decide) fun a h1 h2 => ?_
    exact w.bytes a (hold.outside h.sound h1 h2).1 (hold.outside h.sound h1 h2).2
  have hothers : ∀ g ∈ O, Owned 512 {k} v' g ∧ g ∉ U := fun g hg =>
    ⟨howned g (h.others g hg).1, (h.others g hg).2⟩
  have hready : B → tableAt 512 v'.mem k 1 stackSlot ≠ none := fun hb hn => by
    obtain ⟨t, ht⟩ := Option.ne_none_iff_exists'.mp (h.ready hb)
    rw [w.kept k rfl 1 _ t ht] at hn
    exact absurd hn (Option.some_ne_none t)
  cases b with
  | true =>
    have hpte : ∀ q, pte 512 v'.mem k q =
        if q = pageOf va then ⟨leafEntry f stackFlags, false⟩ else pte 512 v.mem k q := fun q => by
      rw [w.mapped (hyes.mp rfl) k rfl]
      simp
    have hold : ∀ {q}, q ∈ L → pte 512 v'.mem k q = pte 512 v.mem k q := fun {q} hq => by
      rw [hpte, if_neg]
      rintro rfl
      exact hL hq
    have hnew : pte 512 v'.mem k (pageOf va) = ⟨leafEntry f stackFlags, false⟩ := by
      rw [hpte, if_pos rfl]
    refine ⟨w.sound, hroot, hclear, ?_, fun q hq hqL => ?_, ?_, ?_, husers,
      fun g hg => hothers g hg.1, hready⟩
    · rintro q (rfl | hq)
      · exact hp
      · exact h.slot q hq
    · rw [mem_insert_iff, not_or] at hqL
      rw [hpte, if_neg hqL.1]
      exact h.absent q hq hqL.2
    · rintro q (rfl | hq)
      · refine ⟨f, (hothers f hf).1, ?_, hnew⟩
        rintro (hc | hc)
        · exact (hothers f hf).2 hc
        · exact hc.2 rfl
      · obtain ⟨g, hg, hgO, he⟩ := h.mapped q hq
        exact ⟨g, howned g hg, fun hc => hgO (hc.imp id And.left), (hold hq).trans he⟩
    · rintro q (rfl | hq) q' (rfl | hq') he
      · rfl
      · rw [hnew, hold hq'] at he
        exact absurd he.symm (h.frame_ne hf hq')
      · rw [hnew, hold hq] at he
        exact absurd he (h.frame_ne hf hq)
      · rw [hold hq, hold hq'] at he
        exact h.apart q hq q' hq' he
  | false =>
    have hpte : ∀ q, pte 512 v'.mem k q = pte 512 v.mem k q :=
      w.unmapped (fun hm => Bool.false_ne_true (hyes.mpr hm)) k rfl
    refine ⟨w.sound, hroot, hclear, h.slot, fun q hq hqL => ?_, fun q hq => ?_,
      fun q hq q' hq' he => ?_, husers, hothers, hready⟩
    · rw [hpte]
      exact h.absent q hq hqL
    · obtain ⟨g, hg, hgO, he⟩ := h.mapped q hq
      exact ⟨g, howned g hg, hgO, (hpte q).trans he⟩
    · rw [hpte, hpte] at he
      exact h.apart q hq q' hq' he

lemma Stacked.stackPage (hp : InSlot (pageOf va)) (hL : pageOf va ∉ L) :
    ((stackPage k v va).1 = true ∧ Stacked k B U O (insert (pageOf va) L) (stackPage k v va).2) ∨
      ((stackPage k v va).1 = false ∧ Stacked k B U O L (stackPage k v va).2) := by
  unfold Vmm.stackPage
  dsimp only
  by_cases h0 : (pmmAllocPage v.pmm).1 = 0
  · rw [pmmAllocPage_fail h.sound.good h0]
    exact .inr ⟨rfl, h⟩
  rw [if_neg h0]
  obtain ⟨hO, htake⟩ := h.take (pmmAllocPage_fresh h.sound.good h0)
  have hback : insert (pmmAllocPage v.pmm).1 O \ {(pmmAllocPage v.pmm).1} = O :=
    insert_sdiff_self_of_notMem hO
  obtain ⟨b, v', hmap, hst⟩ := htake.map_page (mem_insert _ _) hp hL
  rw [hmap]
  cases b with
  | true =>
    rw [hback] at hst
    exact .inl ⟨rfl, hst⟩
  | false =>
    have hfree := hst.freePage (mem_insert _ _)
    rw [hback] at hfree
    exact .inr ⟨rfl, hfree⟩

end

/-- Only the page number of an address counts. -/
theorem unmapDropping_pageOf (ha : pageSize ∣ va) (drop : Pmm.State → Nat → Pmm.State) (r : Nat)
    (s : State) : unmapDropping drop r s va = unmapDropping drop r s (pageOf va * pageSize) := by
  have hlt : pageOf va < 2 ^ 36 := mod_lt _ (by decide)
  have hpage : pageOf (pageOf va * pageSize) = pageOf va := pageOf_mul hlt
  have htop : pageOf va < 512 * 2 ^ 27 := hlt
  have htop' : pageOf (pageOf va * pageSize) < 512 * 2 ^ 27 := by rwa [hpage]
  have hphys : ∀ e : Pte, e.phys va = e.phys (pageOf va * pageSize) := fun e => by
    have h1 : va % hugePageSize = pageOf va * pageSize % hugePageSize := by
      obtain ⟨c, rfl⟩ := ha
      unfold pageOf pageSize hugePageSize
      omega
    have h2 : va % pageSize = pageOf va * pageSize % pageSize := by
      rw [mul_mod_left, mod_eq_zero_of_dvd ha]
    rw [Pte.phys, Pte.phys, h1, h2]
  unfold unmapDropping
  rw [vmmVirtToPhys_eq htop, vmmVirtToPhys_eq htop', vmmUnmapPage_eq htop,
    vmmUnmapPage_eq htop', hpage,
    hphys]

lemma Stacked.unmapPage (h : Stacked k B U O L v) (ha : pageSize ∣ va) (hp : InSlot (pageOf va)) :
    Stacked k B U O (L \ {pageOf va}) (unmapDropping pmmFreePage k v va) := by
  rw [unmapDropping_pageOf ha]
  generalize pageOf va = p at *
  have hlt := hp.lt
  have htrans := translate_eq (m := v.mem) (r := k) hlt (show p < 512 * 2 ^ 27 from hlt)
  rw [phys_mul _ (pte_small (h.clear p hp))] at htrans
  by_cases hL : p ∈ L
  · obtain ⟨f, hf, hfO, hpte⟩ := h.mapped p hL
    have hframe : frame (leafEntry f stackFlags) = f :=
      leafEntry_frame (hf.page h.sound) (hf.lt h.sound) (by decide)
    rw [hpte, Pte.present, leafEntry_present, if_pos rfl, hframe] at htrans
    obtain ⟨pt, hpt, hunmap⟩ := unmapDropping_eq hlt hlt (h.clear p hp)
      pmmFreePage (by rw [htrans]; exact (hf.pos h.sound).ne')
    rw [hunmap, htrans, Nat.div_mul_cancel (hf.page h.sound)]
    have hi : p % 512 < 512 := mod_lt _ (by decide)
    have hs := h.sound.stored_small rfl hpt (show 0 < 2 ^ 64 by decide)
    have hset := hs.pte_small rfl
    have hold : ∀ {q}, q ∈ L \ {p} → pte 512 (v.setEntry pt (p % 512) 0).mem k q =
        pte 512 v.mem k q :=
      fun {q} hq => by rw [hset, if_neg (show ¬ q = p from hq.2)]
    have howned : ∀ g, Owned 512 {k} v g → Owned 512 {k} (v.setEntry pt (p % 512) 0) g :=
      fun g hg => hg.congr rfl fun _ => hs.isTable_iff.mp
    -- The frame is first in use without a page.
    have hst : Stacked k B U (insert f O) (L \ {p}) (v.setEntry pt (p % 512) 0) := by
      refine ⟨hs.sound, h.root,
        fun q hq hb => h.clear q hq (h.sound.blocked_set rfl hpt hi (by decide) hb),
        fun q hq => h.slot q hq.1, fun q hq hqL => ?_, fun q hq => ?_, fun q hq q' hq' he => ?_,
        fun u hu => ?_, ?_, fun hb => ?_⟩
      · rw [hset]
        split_ifs with hqp
        · decide
        · exact h.absent q hq fun hc => hqL ⟨hc, hqp⟩
      · obtain ⟨g, hg, hgO, he⟩ := h.mapped q hq.1
        refine ⟨g, howned g hg, ?_, (hold hq).trans he⟩
        rintro (hc | rfl | hc)
        · exact hgO (.inl hc)
        · exact hq.2 (h.apart q hq.1 p hL (he.trans hpte.symm))
        · exact hgO (.inr hc)
      · rw [hold hq, hold hq'] at he
        exact h.apart q hq.1 q' hq'.1 he
      · have hu := h.users u hu
        refine hu.keep (howned u hu.owned) (fun t ht => ?_) ?_
        · exact (hs.tables k rfl 1 _).trans ht
        · refine entry_setEntry_apart hi (by decide) ?_
          exact .of_ne (hu.owned.page h.sound) (isTable_dvd h.sound.root ⟨k, rfl, 3, _, hpt⟩)
            fun hc => hu.owned.notTable h.sound (hc ▸ ⟨k, rfl, 3, _, hpt⟩)
      · rintro g (rfl | hg)
        · exact ⟨howned g hf, fun hc => hfO (.inl hc)⟩
        · exact ⟨howned g (h.others g hg).1, (h.others g hg).2⟩
      · exact (hs.tables k rfl 1 _).trans_ne (h.ready hb)
    have hfree := hst.freePage (mem_insert f O)
    rw [insert_sdiff_self_of_notMem fun hc => hfO (.inr hc)] at hfree
    exact hfree
  · rw [h.absent p hp hL] at htrans
    rw [sdiff_singleton_eq_self hL]
    unfold unmapDropping
    rw [htrans]
    exact h

end Pages

/-! ## User roots -/

section Create

variable {k : Nat} {B : Prop} {U O L : Set Nat} {s v : State}

/-- The entries of the upper half are those of the kernel's root. -/
theorem copyUpper_entry (new k : Nat) (l : List Nat) (hl : ∀ i ∈ l, i < 512) (s : State)
    (hap : PagesApart k new) (hk : s.kernelPml4 = k) {i : Nat} (hi : i ∈ l) :
    entry (l.foldl (fun s i => s.setEntry new i (entry s.mem s.kernelPml4 i)) s).mem new i =
      entry s.mem k i := by
  induction l generalizing s with
  | nil => simp at hi
  | cons j l ih =>
    have hj := hl j (by simp)
    have hrest : ∀ i ∈ l, i < 512 := fun i hi => hl i (.tail j hi)
    have hkeep : ∀ i < 512, entry (s.setEntry new j (entry s.mem s.kernelPml4 j)).mem k i =
        entry s.mem k i := fun i hi => entry_setEntry_apart hj hi hap
    rw [foldl_cons]
    by_cases hil : i ∈ l
    · exact (ih hrest (s.setEntry new j (entry s.mem s.kernelPml4 j)) hk hil).trans
        (hkeep i (hl i (.tail j hil)))
    · obtain rfl : i = j := (mem_cons.mp hi).resolve_right hil
      -- The rest of the loop stores other entries.
      have hsame : ∀ (l : List Nat) (s : State), i ∉ l →
          entry (l.foldl (fun s i => s.setEntry new i (entry s.mem s.kernelPml4 i)) s).mem new i =
            entry s.mem new i := by
        intro l
        induction l with
        | nil => exact fun _ _ => rfl
        | cons a l ih' =>
          intro s hn
          rw [foldl_cons, ih' _ (fun hc => hn (.tail a hc))]
          exact entry_setEntry_ne fun he => hn (he ▸ mem_cons_self)
      rw [hsame l _ hil, entry_setEntry_self (entry_lt _ _ _), hk]

/-- The table of the slot, from the entry of the root. -/
theorem slotTable_eq (m : Mem) (k : Nat) : tableAt 512 m k 1 stackSlot =
    if has (entry m k stackSlot) flagPresent then some (frame (entry m k stackSlot)) else none := by
  have hroot : tableAt 512 m k 0 0 = some k := Radix.node_zero
  exact (tableAt_kid hroot (show stackSlot < 512 by decide)).trans (nextOf_zero (by decide))

lemma Stacked.ready_of_mem (h : Stacked k B U O L v) {p : Nat} (hp : p ∈ L) :
    tableAt 512 v.mem k 1 stackSlot ≠ none := by
  obtain ⟨f, -, -, hpte⟩ := h.mapped p hp
  obtain ⟨pt, ht, -⟩ := pte_table (by rw [hpte]; exact leafEntry_present)
    (pte_small (h.clear p (h.slot p hp)))
  obtain ⟨pd, hpd, -⟩ := Radix.node_parent ht
  obtain ⟨pdpt, hpdpt, -⟩ := Radix.node_parent hpd
  have hslot : p / 512 / 512 / 512 = stackSlot := by
    rw [Nat.div_div_eq_div_mul, Nat.div_div_eq_div_mul]
    exact h.slot p hp
  rw [hslot] at hpdpt
  rw [tableAt, hpdpt]
  exact Option.some_ne_none pdpt

/-- A user root is created: it leads to the tables of the slot. -/
theorem Stacked.create (h : Stacked k B U O L v) (hag : Agree k s v) (hB : B) :
    vmmCreateUserPml4 s = (none, s) ∨
      ∃ new s' v', vmmCreateUserPml4 s = (some new, s') ∧ Agree k s' v' ∧
        Stacked k B (insert new U) O L v' := by
  have hslot := h.ready hB
  have hgood : Good s.pmm := hag.pmm ▸ h.sound.good
  by_cases h0 : (pmmAllocPage s.pmm).1 = 0
  · exact .inl (by simp [vmmCreateUserPml4, allocPageTable, pmmAllocPage_fail hgood h0])
  have hfresh := pmmAllocPage_fresh hgood h0
  rw [← hag.pmm] at hfresh
  rw [vmmCreateUserPml4_taken h0, ← hag.pmm]
  generalize (pmmAllocPage v.pmm).1 = new at *
  generalize (pmmAllocPage v.pmm).2 = pmm' at *
  have hk : s.kernelPml4 = k := hag.kernel.symm.trans h.root
  have hapart : PagesApart k new := h.sound.fresh_apart hfresh ⟨k, rfl, 0, 0, Radix.node_zero⟩
  obtain ⟨hpmm, hkernel, hbytes⟩ := copyUpper_spec new (range' 256 256)
    (fun i hi => by rw [mem_range'_1] at hi; omega)
    { s with pmm := pmm', mem := s.mem.fill new pageSize 0 }
  have hentry := copyUpper_entry new k (range' 256 256)
    (fun i hi => by rw [mem_range'_1] at hi; omega)
    { s with pmm := pmm', mem := s.mem.fill new pageSize 0 } hapart hk (i := stackSlot) (by decide)
  generalize (range' 256 256).foldl (fun s i => s.setEntry new i (entry s.mem s.kernelPml4 i))
    { s with pmm := pmm', mem := s.mem.fill new pageSize 0 } = s' at *
  have hout : ∀ a, ¬ (new ≤ a ∧ a < new + pageSize) → s'.mem a = s.mem a := fun a ha =>
    (hbytes a (by omega)).trans (Mem.fill_of_notMem (by omega))
  have hroot : entry s'.mem new stackSlot = entry v.mem k stackSlot := by
    rw [hentry, hag.entry_slot]
    refine entry_congr (by decide) fun a h1 h2 => Mem.fill_of_notMem ?_
    unfold PagesApart at hapart
    omega
  -- The state with an empty root gets the new page as well.
  let v' : State := ⟨fun a => if new ≤ a ∧ a < new + pageSize then s'.mem a else v.mem a, pmm', k⟩
  have hout' : ∀ {t}, PagesApart t new → ∀ i < 512,
      entry v'.mem t i = entry v.mem t i := fun {t} ht i hi =>
    entry_congr hi fun a h1 h2 => if_neg (by unfold PagesApart at ht; omega)
  have hkeeps : KeepsTables 512 {k} v.mem v'.mem :=
      fun t ht => hout' (h.sound.fresh_apart hfresh ht)
  have htab := fun t => (hkeeps.isTable_iff (t := t)).mp
  have hs : Sound 512 {k} v' := h.sound.keeps hkeeps hfresh.good (hfresh.within h.sound.within).2
    fun t ht => hfresh.keeps t (h.sound.held t ht)
  have howned : ∀ g, Owned 512 {k} v g → Owned 512 {k} v' g := fun g hg =>
    (hg.fresh h.sound hfresh).congr rfl htab
  have hnew : entry v'.mem new stackSlot = entry v.mem k stackSlot := by
    rw [← hroot]
    exact entry_congr (by decide) fun a h1 h2 => if_pos ⟨h1, h2⟩
  have hpte := hkeeps.pte_eq rfl
  have hsame := hkeeps.tableAt_eq rfl 1 stackSlot
  have hpres : has (entry v.mem k stackSlot) flagPresent = true := by
    by_contra hc
    rw [slotTable_eq, if_neg hc] at hslot
    exact hslot rfl
  have hfor : ∀ g, Owned 512 {k} v g → g ≠ new := fun g hg => hg.ne_fresh h.sound hfresh
  refine .inr ⟨new, s', v', rfl, ⟨?_, ?_, fun a ha => ?_⟩, ⟨hs, rfl, ?_, h.slot, ?_, ?_, ?_, ?_, ?_,
    fun _ => hsame.trans_ne hslot⟩⟩
  · exact hpmm.symm
  · exact (hkernel.trans hk).symm
  · by_cases hin : new ≤ a ∧ a < new + pageSize
    · exact if_pos hin
    · exact (if_neg hin).trans ((hag.mem a ha).trans (hout a hin).symm)
  · exact fun q hq hb => h.clear q hq (hkeeps.blocked rfl hb)
  · intro q hq hqL
    rw [hpte]
    exact h.absent q hq hqL
  · intro q hq
    obtain ⟨g, hg, hgO, he⟩ := h.mapped q hq
    refine ⟨g, howned g hg, ?_, (hpte q).trans he⟩
    rintro ((rfl | hc) | hc)
    · exact hfor g hg rfl
    · exact hgO (.inl hc)
    · exact hgO (.inr hc)
  · intro q hq q' hq' he
    rw [hpte, hpte] at he
    exact h.apart q hq q' hq' he
  · rintro u (rfl | hu)
    · refine ⟨(h.sound.owned_fresh hfresh).congr rfl htab, by rw [hnew, hpres], ?_⟩
      rw [hsame, slotTable_eq, if_pos hpres, hnew]
    · have hu := h.users u hu
      refine hu.keep (howned u hu.owned) (fun t ht => hsame.trans ht) (hout' ?_ _ (by decide))
      exact hfresh.apart (hu.owned.held h.sound)
  · intro g hg
    obtain ⟨hg, hgU⟩ := h.others g hg
    refine ⟨howned g hg, ?_⟩
    rintro (rfl | hc)
    · exact hfor g hg rfl
    · exact hgU hc

end Create

end YamKernel.Vmm

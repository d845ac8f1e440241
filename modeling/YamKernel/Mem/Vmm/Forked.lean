import YamKernel.Mem.Vmm.ForkLoops

/-!
# What a fork leaves

A present page of the source is in the new space when the memory sufficed for the requests up
to that for the table with its leaf entry (`Copies`); its entry is then the same in both spaces.
Other pages are absent in the new space and untouched in the source.
-/

namespace YamKernel.Vmm

open Lib Pmm Option Nat

def leafDepth (huge : Bool) : Nat := if huge then 2 else 3

def Pte.forked (e : Pte) : Pte := ⟨sharedEntry (leafDepth e.huge) e.entry, e.huge⟩

/-- The turn of the table with the leaf entry for page `p`. -/
def leafTurn (huge : Bool) (p : Nat) : Nat := rank (leafDepth huge) (tableNo p (leafDepth huge))

/-- Page `p` makes it into the new space. -/
def Copies (s : State) (src p : Nat) : Prop :=
  (pte 256 s.mem src p).present = true ∧
    Provides s.pmm (1 + tabs s.mem src (leafTurn (pte 256 s.mem src p).huge p + 1))

noncomputable instance (s : State) (src p : Nat) : Decidable (Copies s src p) :=
  inferInstanceAs (Decidable (_ ∧ _))

/-- The entry at depth `d` on the way to page `p`. -/
def wayEntry (m : Mem) (root p d : Nat) : Nat :=
  match tableAt 256 m root d (tableNo p d) with
  | none => 0
  | some t => entry m t (tableIdx p d)

/-- Instructions can be fetched from the page: no entry on the way to it forbids it. -/
def executable (m : Mem) (root p : Nat) : Prop :=
  ∀ d ≤ leafDepth (pte 256 m root p).huge, has (wayEntry m root p d) flagNx = false

/-- User code can access the page: every entry on the way to it allows it. -/
def userPage (m : Mem) (root p : Nat) : Prop :=
  ∀ d ≤ leafDepth (pte 256 m root p).huge, has (wayEntry m root p d) flagUser = true

section Start

variable {R : Set Nat} {s0 : State} {src new : Nat}

lemma Forking.start (h : Sound 256 (insert new R) s0) (hlower : ∀ i < 256, entry s0.mem new i = 0)
    (hcounts : SmallCounts s0.pmm) : Forking R s0 s0 src new 1 := by
  have hempty : ∀ i < 512, next 256 s0.mem 0 new i = none := fun i _ => by
    by_cases hi : i < 256
    · exact nextOf_absent (by rw [hlower i hi]; decide)
    · exact if_neg fun hc => hi (hc.2.2.1 rfl)
  have halone := Radix.node_alone hempty (by decide)
  have hrank : ∀ d m, ¬ rank (d + 1) m < 1 := fun d m => by
    unfold rank
    omega
  refine
    { sound := h
      trees := fun _ _ _ _ => rfl
      others := fun _ _ _ _ _ _ _ _ _ => rfl
      source := fun d n t _ i _ => by rw [if_neg fun hc => hrank _ _ hc.2.1]
      copy := fun d n => ?_
      child := fun d n t t' _ ht' i hi hroot => ?_
      made := fun d n u hu => ?_
      pmm := by rw [tabs_one]; exact .refl _
      free := fun _ ha => ha
      counts := hcounts }
  · rw [tableAt, halone]
    split_ifs with hc
    · obtain ⟨rfl, rfl⟩ := hc
      refine iff_of_true (by simp) ⟨by simp, by decide, ?_⟩
      rw [Made, show rank 0 0 + 1 = 1 from rfl, tabs_one]
      exact provides_zero _
    · refine iff_of_false (by simp) fun hx => hc ?_
      obtain rfl : d = 0 := by
        have := hx.2.1
        unfold rank at this
        omega
      exact ⟨rfl, tableAt_zero hx.1⟩
  · rw [tableAt, halone] at ht'
    split_ifs at ht' with hc
    obtain ⟨rfl, rfl⟩ := hc
    obtain rfl := some.inj ht'
    have hnone : tableAt 256 s0.mem new (0 + 1) (512 * 0 + i) = none := by
      rw [tableAt, halone, if_neg (by simp)]
    rw [if_neg fun hc => hrank _ _ hc.2, hnone, hlower i (hroot rfl)]
  · rw [tableAt, halone] at hu
    split_ifs at hu
    exact .inl (some.inj hu).symm

end Start

section Entries

variable {e : Nat}

lemma sharedEntry_frame : frame (sharedEntry 3 e) = frame e := by
  rw [sharedEntry, if_pos rfl]
  split_ifs
  · rfl
  · have h1 : frame (clear (e &&& flagMask) flagWrite) = 0 := frame_clear (frame_and (by decide))
    rw [frame_or, frame_or, frame_frame, h1, show frame flagCow = 0 by decide, or_zero, or_zero]

lemma sharedEntry_hugeMask : sharedEntry 2 e &&& hugeMask = e &&& hugeMask := by
  have h1 : clear (e &&& 0xFFF) flagWrite &&& hugeMask = 0 := by
    rw [clear, Nat.and_right_comm, Nat.and_assoc e, show 0xFFF &&& hugeMask = 0 by decide, and_zero,
      zero_and]
  rw [sharedEntry, if_neg (by decide), and_or_distrib_right, and_or_distrib_right,
    and_or_distrib_right, h1, Nat.and_assoc, Nat.and_self,
    show flagCow &&& hugeMask = 0 by decide, show flagHuge &&& hugeMask = 0 by decide,
    or_zero, or_zero, or_zero]

/-- The flags of a page of 2 MB are the low ones. -/
theorem sharedEntry_has_huge {f : Nat} (h1 : hugeMask &&& f = 0 := by decide)
    (h2 : (2 ^ 64 - (flagWrite + 1)) &&& f = f := by decide) (h3 : 0xFFF &&& f = f := by decide)
    (h4 : has flagCow f = false := by decide) (h5 : has flagHuge f = false := by decide) :
    has (sharedEntry 2 e) f = has e f := by
  rw [sharedEntry, if_neg (by decide), has_or, has_or, has_or, has_and_apart h1, has_clear h2,
    has_and h3, h4, h5, Bool.false_or, Bool.or_false, Bool.or_false]

end Entries

section Leaf

variable {top : Nat} {m : Mem} {r p d t : Nat}

lemma pte_leaf (hp : (pte top m r p).present = true) :
    ∃ t, tableAt top m r (leafDepth (pte top m r p).huge)
        (tableNo p (leafDepth (pte top m r p).huge)) = some t ∧
      (pte top m r p).entry = entry m t (tableIdx p (leafDepth (pte top m r p).huge)) ∧
      isLeaf (leafDepth (pte top m r p).huge) (pte top m r p).entry = true := by
  obtain ⟨t, i, hs, hent⟩ := pte_leafSlot hp
  unfold Pte.present at hp
  cases hh : (pte top m r p).huge with
  | false =>
    rw [hh] at hs
    obtain ⟨ht, rfl⟩ := leafSlot_small.mp hs
    refine ⟨t, ?_, ?_, ?_⟩
    · exact ht
    · rw [leafDepth, if_neg (by decide), tableIdx_three, hent]
    · simp [isLeaf, leafDepth, hp]
  | true =>
    rw [hh] at hs
    obtain ⟨ht, rfl, -, hhuge⟩ := leafSlot_huge.mp hs
    rw [← hent] at hhuge
    refine ⟨t, ?_, ?_, ?_⟩
    · rw [leafDepth, if_pos rfl, tableNo_two]
      exact ht
    · rw [leafDepth, if_pos rfl, tableIdx_two, hent]
    · simp [isLeaf, leafDepth, hp, hhuge]

lemma pte_of_leaf (ht : tableAt top m r d (tableNo p d) = some t)
    (hl : isLeaf d (entry m t (tableIdx p d)) = true) :
    pte top m r p = ⟨entry m t (tableIdx p d), d == 2⟩ ∧ leafDepth (d == 2) = d := by
  rcases isLeaf_depth hl with rfl | rfl
  · simp only [isLeaf, Bool.and_eq_true] at hl
    rw [tableNo_two] at ht
    have hs : leafSlot top m r p = some (t, tableIdx p 2, true) :=
      leafSlot_huge.mpr ⟨ht, tableIdx_two p, hl.1, by tauto⟩
    exact ⟨by rw [pte, hs]; rfl, rfl⟩
  · have hs : leafSlot top m r p = some (t, tableIdx p 3, false) :=
      leafSlot_small.mpr ⟨ht, tableIdx_three p⟩
    exact ⟨by rw [pte, hs]; rfl, rfl⟩

end Leaf

section Pte

variable {R : Set Nat} {s0 s : State} {src new p d t : Nat}

/-- Page `p` is reached by the loops. -/
def Reached (s0 : State) (src p : Nat) : Prop :=
  (pte 256 s0.mem src p).present = true ∧
    Made s0 src (leafDepth (pte 256 s0.mem src p).huge)
      (tableNo p (leafDepth (pte 256 s0.mem src p).huge))

noncomputable instance (s0 : State) (src p : Nat) : Decidable (Reached s0 src p) :=
  inferInstanceAs (Decidable (_ ∧ _))

lemma leaf_rank (ht : tableAt 256 s0.mem src d (tableNo p d) = some t)
    (hl : isLeaf d (entry s0.mem t (tableIdx p d)) = true) :
    rank (d + 1) (512 * tableNo p d + tableIdx p d) < stop 1 255 := by
  obtain ⟨j, rfl⟩ : ∃ j, d = j + 1 := ⟨d - 1, by have := isLeaf_depth hl; omega⟩
  exact slot_rank (by rw [ht]; simp) (tableIdx_lt _ _)

section

variable (h : Forking R s0 s src new (stop 1 255))
include h

/-- The leaf entries of the source, when all is done. -/
theorem Forking.pte_source (hsrc : src ∈ R) (p : Nat) :
    pte 256 s.mem src p =
      if Reached s0 src p then (pte 256 s0.mem src p).forked else pte 256 s0.mem src p := by
  by_cases hp : (pte 256 s0.mem src p).present = true
  · obtain ⟨t, ht, hent, hl⟩ := pte_leaf hp
    have hmade : Reached s0 src p ↔ Made s0 src (leafDepth (pte 256 s0.mem src p).huge)
      (tableNo p (leafDepth (pte 256 s0.mem src p).huge)) := and_iff_right hp
    simp only [hmade]
    rw [hent] at hl
    set d := leafDepth (pte 256 s0.mem src p).huge with hd
    have hpte := (pte_of_leaf ht hl).1
    have hts := (h.trees src hsrc d _).trans ht
    have hsrc' := h.source d _ t ht _ (tableIdx_lt p d)
    have hlr := leaf_rank ht hl
    by_cases hm : Made s0 src d (tableNo p d)
    · rw [if_pos ⟨hl, hlr, hm⟩] at hsrc'
      rw [if_pos hm, (pte_of_leaf hts (by rw [hsrc']; exact sharedEntry_isLeaf hl)).1, hsrc',
        Pte.forked, ← hd, hpte]
    · rw [if_neg fun hc => hm hc.2.2] at hsrc'
      rw [if_neg hm, (pte_of_leaf hts (by rw [hsrc']; exact hl)).1, hsrc', ← hpte]
  · -- An entry that maps no page stays what it is.
    rw [if_neg fun hc => hp hc.1]
    have hkeep : ∀ d t, tableAt 256 s0.mem src d (tableNo p d) = some t →
        entry s.mem t (tableIdx p d) = entry s0.mem t (tableIdx p d) := fun d t ht => by
      rw [h.source d _ t ht _ (tableIdx_lt p d), if_neg]
      intro hc
      refine hp ?_
      rw [(pte_of_leaf ht hc.1).1]
      simp only [isLeaf, Bool.and_eq_true] at hc
      exact hc.1.1
    refine pte_congr (h.trees src hsrc _ _) (fun pd hpd => ?_) fun t ht => ?_
    · have := hkeep 2 pd (by rw [tableNo_two]; exact hpd)
      rwa [tableIdx_two] at this
    · have := hkeep 3 t (by rw [tableNo_three]; exact ht)
      rwa [tableIdx_three] at this

lemma Forking.child_leaf {t' : Nat} (ht : tableAt 256 s0.mem src d (tableNo p d) = some t)
    (ht' : tableAt 256 s.mem new d (tableNo p d) = some t')
    (hl : isLeaf d (entry s.mem t' (tableIdx p d)) = true) :
    isLeaf d (entry s0.mem t (tableIdx p d)) = true := by
  have hi := tableIdx_lt p d
  have hent := h.child d _ t t' ht ht' _ hi fun h0 => by
    rcases isLeaf_depth hl with rfl | rfl <;> simp at h0
  by_cases hc : isLeaf d (entry s0.mem t (tableIdx p d)) = true ∧
      rank (d + 1) (512 * tableNo p d + tableIdx p d) < stop 1 255
  · exact hc.1
  · rw [if_neg hc, tableAt_kid ht' hi, nextOf_isLeaf hl] at hent
    rw [hent] at hl
    simp [isLeaf, show has 0 flagPresent = false by decide] at hl

lemma Forking.pte_child (p : Nat) :
    pte 256 s.mem new p = if Reached s0 src p then
      (pte 256 s0.mem src p).forked else ⟨0, false⟩ := by
  have hsrc : ∀ d n t', tableAt 256 s.mem new d n = some t' →
      ∃ t, tableAt 256 s0.mem src d n = some t ∧ Made s0 src d n := fun d n t' ht' => by
    obtain ⟨hsome, -, hmade⟩ := (h.copy d n).mp (by rw [ht']; simp)
    obtain ⟨t, ht⟩ := ne_none_iff_exists'.mp hsome
    exact ⟨t, ht, hmade⟩
  split_ifs with hreach
  · obtain ⟨hp, hmade⟩ := hreach
    obtain ⟨t, ht, hent, hl⟩ := pte_leaf hp
    rw [Pte.forked]
    set d := leafDepth (pte 256 s0.mem src p).huge
    rw [hent] at hl
    have hpte := (pte_of_leaf ht hl).1
    obtain ⟨t', ht'⟩ := ne_none_iff_exists'.mp
      ((h.copy d (tableNo p d)).mpr ⟨by rw [ht]; simp, tableAt_rank (by rw [ht]; simp), hmade⟩)
    have hchild := h.child d _ t t' ht ht' _ (tableIdx_lt p d) fun h0 => by
      rcases isLeaf_depth hl with hd2 | hd2 <;> omega
    rw [if_pos ⟨hl, leaf_rank ht hl⟩] at hchild
    rw [(pte_of_leaf ht' (by rw [hchild]; exact sharedEntry_isLeaf hl)).1, hchild, hpte]
  · have habs : (pte 256 s.mem new p).present ≠ true := by
      intro hp
      obtain ⟨t', ht', hent, hl⟩ := pte_leaf hp
      rw [hent] at hl
      obtain ⟨t, ht, hmade⟩ := hsrc _ _ _ ht'
      have hleaf := h.child_leaf ht ht' hl
      obtain ⟨hpte, hdepth⟩ := pte_of_leaf ht hleaf
      refine hreach ⟨?_, ?_⟩
      · simp only [isLeaf, Bool.and_eq_true] at hleaf
        rw [hpte]
        exact hleaf.1
      · rw [hpte]
        rw [hdepth]
        exact hmade
    rw [pte] at habs ⊢
    cases hs : leafSlot 256 s.mem new p with
    | none => rfl
    | some x =>
      obtain ⟨t', i, huge⟩ := x
      rw [hs] at habs
      dsimp only at habs ⊢
      cases huge with
      | true =>
        exact absurd (leafSlot_huge.mp hs).2.2.1 habs
      | false =>
        obtain ⟨ht', rfl⟩ := leafSlot_small.mp hs
        obtain ⟨t, ht, -⟩ := hsrc _ _ _ ht'
        have hi : p % 512 < 512 := mod_lt _ (by decide)
        have hchild := h.child 3 _ t t' ht ht' _ hi (fun h0 => by simp at h0)
        rw [tableAt_kid ht' hi, nextOf_three] at hchild
        split_ifs at hchild with hc
        · refine absurd ?_ habs
          have := sharedEntry_isLeaf hc.1
          simp only [isLeaf, Bool.and_eq_true] at this
          rw [hchild]
          exact this.1
        · rw [hchild]

lemma Forking.keeps : KeepsTables 256 (R \ {src}) s0.mem s.mem := by
  rintro t ⟨r, hr, d, n, ht⟩ i hi
  exact h.others r hr.1 hr.2 d n t ht i hi

end

end Pte

/-! ## The way to a page -/

section Way

variable {R : Set Nat} {s0 s : State} {src new p d : Nat} {m : Mem} {top r : Nat}

lemma wayEntry_of {t : Nat} (ht : tableAt 256 m r d (tableNo p d) = some t) :
    wayEntry m r p d = entry m t (tableIdx p d) := by
  rw [wayEntry, ht]

lemma wayEntry_leaf (hp : (pte 256 m r p).present = true) :
    wayEntry m r p (leafDepth (pte 256 m r p).huge) = (pte 256 m r p).entry := by
  obtain ⟨t, ht, hent, -⟩ := pte_leaf hp
  rw [wayEntry_of ht, hent]

lemma tableAt_way {k : Nat} (hdk : d ≤ k) (hk : k ≤ 4)
    (h : tableAt top m r k (tableNo p k) ≠ none) : tableAt top m r d (tableNo p d) ≠ none := by
  obtain ⟨j, rfl⟩ := Nat.exists_eq_add_of_le hdk
  have := tableAt_above h
  rw [tableNo, Nat.div_div_eq_div_mul, ← pow_add] at this
  rwa [tableNo, show 4 - d = 4 - (d + j) + j by omega]

/-- The address of a table below the root has no flags. -/
theorem tableAt_flag {n u f : Nat} (h : tableAt top m r (d + 1) n = some u)
    (hf : addrMask &&& f = 0) : has u f = false := by
  obtain ⟨q, -, hq⟩ := Radix.node_parent h
  unfold next nextOf at hq
  split_ifs at hq
  rw [← some.inj hq]
  exact has_and_apart hf

lemma Pte.forked_present {e : Pte} (h : isLeaf (leafDepth e.huge) e.entry = true) :
    e.forked.present = true := by
  have := sharedEntry_isLeaf h
  simp only [isLeaf, Bool.and_eq_true] at this
  exact this.1

lemma Pte.forked_phys {e : Pte} (h : isLeaf (leafDepth e.huge) e.entry = true) (virt : Nat) :
    e.forked.phys virt = e.phys virt := by
  have hp := forked_present h
  have hp0 : e.present = true := by
    simp only [isLeaf, Bool.and_eq_true] at h
    exact h.1
  unfold phys
  rw [hp, hp0, forked]
  cases e.huge with
  | false =>
    have hframe : sharedEntry (leafDepth false) e.entry &&& addrMask = e.entry &&& addrMask :=
      sharedEntry_frame
    simp [hframe]
  | true => simp [leafDepth, sharedEntry_hugeMask]

lemma Reached.forked_present (h : Reached s0 src p) :
    (pte 256 s0.mem src p).forked.present = true :=
  let ⟨_, _, _, hl⟩ := pte_leaf h.1
  Pte.forked_present hl

lemma sharedEntry_nx {huge : Bool} {e : Nat} :
    has (sharedEntry (leafDepth huge) e) flagNx = (!huge && has e flagNx) := by
  cases huge with
  | false =>
    rw [leafDepth, if_neg (by decide), sharedEntry_has]
    rfl
  | true =>
    rw [sharedEntry, if_neg (by decide), has_or, has_or, has_or, has_and_apart, clear,
      has_and, has_and_apart]
    rfl

lemma sharedEntry_user {huge : Bool} {e : Nat} :
    has (sharedEntry (leafDepth huge) e) flagUser = has e flagUser := by
  cases huge with
  | false =>
    rw [leafDepth, if_neg (by decide), sharedEntry_has]
  | true =>
    rw [leafDepth, if_pos rfl, sharedEntry_has_huge]

section

variable (h : Forking R s0 s src new (stop 1 255)) (hreach : Reached s0 src p)
include h hreach

/-- The entries on the way to a page that is reached are copied without the flags above bit 11. -/
theorem Forking.way (hd : d < leafDepth (pte 256 s0.mem src p).huge) :
    ∃ u, tableAt 256 s.mem new (d + 1) (tableNo p (d + 1)) = some u ∧
      wayEntry s.mem new p d = u ||| (wayEntry s0.mem src p d &&& 0xFFF) := by
  obtain ⟨hp, hmade⟩ := hreach
  obtain ⟨t, ht, -⟩ := pte_leaf hp
  set k := leafDepth (pte 256 s0.mem src p).huge
  have : k ≤ 3 := tableAt_le_three ht
  have hsome : tableAt 256 s0.mem src k (tableNo p k) ≠ none := by rw [ht]; simp
  have hnew := (h.copy k _).mpr ⟨hsome, tableAt_rank hsome, hmade⟩
  have hi := tableIdx_lt p d
  have hno := tableNo_succ p (show d < 4 by omega)
  obtain ⟨v, hv⟩ := ne_none_iff_exists'.mp (tableAt_way hd.le (by omega) hsome)
  obtain ⟨w, hw⟩ := ne_none_iff_exists'.mp (tableAt_way (succ_le_of_lt hd) (by omega) hsome)
  obtain ⟨v', hv'⟩ := ne_none_iff_exists'.mp (tableAt_way hd.le (by omega) hnew)
  obtain ⟨u, hu⟩ := ne_none_iff_exists'.mp (tableAt_way (succ_le_of_lt hd) (by omega) hnew)
  refine ⟨u, hu, ?_⟩
  rw [hno] at hw hu
  have hnext : nextOf 256 d (tableIdx p d) (entry s0.mem v (tableIdx p d)) = some w :=
    (tableAt_kid hv hi).symm.trans hw
  have hleaf : ¬ isLeaf d (entry s0.mem v (tableIdx p d)) = true := fun hl => by
    rw [nextOf_isLeaf hl] at hnext
    simp at hnext
  rw [wayEntry_of hv', wayEntry_of hv, h.child d _ v v' hv hv' _ hi,
    if_neg fun hc => hleaf hc.1, hu]
  rintro rfl
  exact nextOf_root hnext

lemma Forking.last :
    wayEntry s.mem new p (leafDepth (pte 256 s0.mem src p).huge) =
      (pte 256 s0.mem src p).forked.entry ∧
    (pte 256 s.mem new p).huge = (pte 256 s0.mem src p).huge := by
  have hpte : pte 256 s.mem new p = (pte 256 s0.mem src p).forked := by
    rw [h.pte_child, if_pos hreach]
  have hlast := wayEntry_leaf (by rw [hpte]; exact hreach.forked_present)
  rw [hpte] at hlast ⊢
  exact ⟨hlast, rfl⟩

/-- The new space forbids fetches from a page only with an entry for 4 KB. -/
theorem Forking.executable_iff : executable s.mem new p ↔
      (pte 256 s0.mem src p).huge = true ∨ has (pte 256 s0.mem src p).entry flagNx = false := by
  obtain ⟨hlast, hhuge⟩ := h.last hreach
  have hnx : has (pte 256 s0.mem src p).forked.entry flagNx =
      (!(pte 256 s0.mem src p).huge && has (pte 256 s0.mem src p).entry flagNx) := sharedEntry_nx
  have hiff : executable s.mem new p ↔ has (pte 256 s0.mem src p).forked.entry flagNx = false := by
    rw [← hlast, executable, hhuge]
    constructor
    · exact fun hx => hx _ le_rfl
    · intro hx d hd
      rcases eq_or_lt_of_le hd with rfl | hlt
      · exact hx
      · obtain ⟨u, hu, hway⟩ := h.way hreach hlt
        rw [hway, has_or, tableAt_flag hu (by decide), has_and_apart]
        rfl
  rw [hiff, hnx]
  cases (pte 256 s0.mem src p).huge <;> simp

lemma Forking.userPage_iff : userPage s.mem new p ↔ userPage s0.mem src p := by
  obtain ⟨hlast, hhuge⟩ := h.last hreach
  have huser : has (pte 256 s0.mem src p).forked.entry flagUser = _ := sharedEntry_user
  unfold userPage
  rw [hhuge]
  refine forall₂_congr fun d hd => ?_
  rcases eq_or_lt_of_le hd with rfl | hlt
  · rw [hlast, huser, wayEntry_leaf hreach.1]
  · obtain ⟨u, hu, hway⟩ := h.way hreach hlt
    rw [hway, has_or, tableAt_flag hu (by decide), has_and, Bool.false_or]

end

end Way

/-! ## HUGE bits -/

section Rest

variable {R : Set Nat} {s0 s : State} {src new p d : Nat}

/-- What is shared at depth `d` has the HUGE bit if it had it before. -/
theorem sharedEntry_huge {e : Nat} (h : isLeaf d e = true) (hd : d < 3) :
    has e flagPresent = true ∧ has e flagHuge = true := by
  simp only [isLeaf, Bool.and_eq_true, Bool.or_eq_true, beq_iff_eq] at h
  exact ⟨h.1, by rcases h.2 with h3 | h2 <;> [omega; exact h2.2]⟩

/-- No HUGE bit appears on the way to a page. -/
theorem Forking.blocked_source (h : Forking R s0 s src new (stop 1 255)) (hsrc : src ∈ R)
    (hb : Blocked 256 s.mem src p) : Blocked 256 s0.mem src p := by
  obtain ⟨d, hd, t, ht, hp, hh⟩ := hb
  replace ht := (h.trees src hsrc d _).symm.trans ht
  refine ⟨d, hd, t, ht, ?_⟩
  rw [h.source d _ t ht _ (tableIdx_lt p d)] at hp hh
  split_ifs at hp hh with hc
  · exact sharedEntry_huge hc.1 hd
  · exact ⟨hp, hh⟩

lemma Forking.blocked_child (h : Forking R s0 s src new (stop 1 255)) (hb : Blocked 256 s.mem new p)
    (hp35 : p < 2 ^ 35) : Blocked 256 s0.mem src p := by
  obtain ⟨d, hd, t', ht', hp, hh⟩ := hb
  have hi := tableIdx_lt p d
  obtain ⟨hsome, -⟩ := (h.copy d _).mp (by rw [ht']; simp)
  obtain ⟨t, ht⟩ := ne_none_iff_exists'.mp hsome
  refine ⟨d, hd, t, ht, ?_⟩
  have hroot : d = 0 → tableIdx p d < 256 := by
    rintro rfl
    unfold tableIdx
    omega
  rw [h.child d _ t t' ht ht' _ hi hroot] at hp hh
  split_ifs at hp hh with hc
  · exact sharedEntry_huge hc.1 hd
  · cases hu : tableAt 256 s.mem new (d + 1) (512 * tableNo p d + tableIdx p d) with
    | none =>
      rw [hu] at hp
      exact absurd hp (show ¬ has 0 flagPresent = true by decide)
    | some u =>
      rw [hu] at hp hh
      rw [has_or, tableAt_flag hu (by decide), has_and] at hp hh
      exact ⟨hp, hh⟩

end Rest

/-! ## The whole call -/

/-- The space `new` was made from `src`. -/
structure Forked (R : Set Nat) (s s' : State) (src new : Nat) : Prop where
  sound : Sound 256 (insert new R) s'
  supply : Provides s.pmm 1
  notTable : ¬ IsTable 256 s.mem R new
  source : ∀ p, pte 256 s'.mem src p =
    if Copies s src p then (pte 256 s.mem src p).forked else pte 256 s.mem src p
  child : ∀ p, pte 256 s'.mem new p =
    if Copies s src p then (pte 256 s.mem src p).forked else ⟨0, false⟩
  keeps : KeepsTables 256 (R \ {src}) s.mem s'.mem
  blocked : ∀ p < 2 ^ 35, Blocked 256 s'.mem src p ∨ Blocked 256 s'.mem new p →
    Blocked 256 s.mem src p
  tables : ∀ t, IsTable 256 s'.mem (insert new R) t → IsTable 256 s.mem R t ∨
    ∀ a, t ≤ a → a < t + pageSize → FreeAt s.pmm a
  pmm : SameCells (draws (1 + tabs s.mem src (stop 1 255)) s.pmm) s'.pmm
  free : ∀ a, FreeAt s'.pmm a → FreeAt s.pmm a
  counts : SmallCounts s'.pmm
  exec : ∀ p, Copies s src p → (executable s'.mem new p ↔
    (pte 256 s.mem src p).huge = true ∨ has (pte 256 s.mem src p).entry flagNx = false)
  user : ∀ p, Copies s src p → (userPage s'.mem new p ↔ userPage s.mem src p)

section Call

variable {R : Set Nat} {s s0 s' : State} {src new p : Nat}

section

variable (g : Created R s s0 new)
include g

lemma Created.tabs_eq (hsrc : src ∈ R) (k : Nat) : tabs s0.mem src k = tabs s.mem src k := by
  have : TableTurn s0.mem src = TableTurn s.mem src := by
    funext j
    simp [TableTurn, g.keeps.tableAt_eq hsrc]
  unfold tabs
  congr 1

lemma Created.provides_iff (h0 : (pmmAllocPage s.pmm).1 ≠ 0) (k : Nat) :
    Provides s.pmm (1 + k) ↔ Provides s0.pmm k := by
  rw [add_comm, provides_succ, g.pmm]
  exact and_iff_right h0

lemma Created.reached_iff (h0 : (pmmAllocPage s.pmm).1 ≠ 0) (hsrc : src ∈ R) :
    Reached s0 src p ↔ Copies s src p := by
  unfold Reached Copies Made leafTurn
  rw [g.keeps.pte_eq hsrc, g.provides_iff h0, g.tabs_eq hsrc]

lemma Created.userPage_iff (hsrc : src ∈ R) : userPage s0.mem src p ↔ userPage s.mem src p := by
  unfold userPage
  rw [g.keeps.pte_eq hsrc]
  refine forall₂_congr fun d _ => ?_
  have hway : wayEntry s0.mem src p d = wayEntry s.mem src p d := by
    rw [wayEntry, wayEntry, g.keeps.tableAt_eq hsrc]
    cases ht : tableAt 256 s.mem src d (tableNo p d) with
    | none => rfl
    | some t => exact g.keeps t ⟨src, hsrc, d, _, ht⟩ _ (tableIdx_lt p d)
  rw [hway]

end

lemma Forked.other (f : Forked R s s' src new) {r : Nat} (hr : r ∈ R) (hne : r ≠ src) (p : Nat) :
    pte 256 s'.mem r p = pte 256 s.mem r p := f.keeps.pte_eq ⟨hr, hne⟩ p

/-- `vmm_fork_address_space` fails with nothing done, or makes a space. -/
theorem Sound.fork (h : Sound 256 R s) (hsrc : src ∈ R) (hcounts : SmallCounts s.pmm) :
    (pmmAllocPage s.pmm).1 = 0 ∧ vmmForkAddressSpace s src = (none, s) ∨
      ∃ new s', vmmForkAddressSpace s src = (some new, s') ∧ Forked R s s' src new := by
  rcases h.create with ⟨h0, he⟩ | ⟨new, s0, he, g⟩
  · exact .inl ⟨h0, by rw [vmmForkAddressSpace, he]⟩
  have h0 : (pmmAllocPage s.pmm).1 ≠ 0 := fun hz => by
    have hheld := g.fresh.held
    rw [g.pmm, pmmAllocPage_fail h.good hz] at hheld
    exact hheld new le_rfl (by unfold pageSize; omega)
      (g.fresh.free new le_rfl (by unfold pageSize; omega))
  have hnewR : new ∉ R := fun hr => g.notTable ⟨new, hr, 0, 0, Radix.node_zero⟩
  have hc0 : SmallCounts s0.pmm := by
    rw [g.pmm]
    exact hcounts.alloc h.good 1 .normal false
  have hstart : Forking R s0 s0 src new 1 := .start g.sound g.lower hc0
  have f := hstart.root g.fresh.good hsrc hnewR
  refine .inr ⟨new, _, by rw [vmmForkAddressSpace, he], ?_⟩
  have hreach := fun p => g.reached_iff (p := p) h0 hsrc
  have hkept := g.keeps.pte_eq hsrc
  refine
    { sound := f.sound
      supply := provides_one.mpr h0
      notTable := g.notTable
      source := fun p => by simp only [f.pte_source hsrc p, hreach, hkept]
      child := fun p => by simp only [f.pte_child p, hreach, hkept]
      keeps := fun t ht i hi => ?_
      blocked := fun p hp hb => g.keeps.blocked hsrc ?_
      tables := fun t ht => ?_
      pmm := ?_
      free := fun a ha => g.fresh.freeAt h.good (f.free a ha)
      counts := f.counts
      exec := fun p hp => by rw [f.executable_iff ((hreach p).mpr hp), hkept]
      user := fun p hp => (f.userPage_iff ((hreach p).mpr hp)).trans (g.userPage_iff hsrc) }
  · obtain ⟨r, hr, d, n, hd⟩ := ht
    rw [← g.keeps t ⟨r, hr.1, d, n, hd⟩ i hi]
    exact f.keeps t ⟨r, hr, d, n, (g.keeps.tableAt_eq hr.1 d n).trans hd⟩ i hi
  · exact hb.elim (f.blocked_source hsrc) fun hb => f.blocked_child hb hp
  · obtain ⟨r, rfl | hr, d, n, ht⟩ := ht
    · rcases f.made d n t ht with rfl | hfree
      · exact .inr g.fresh.free
      · exact .inr fun a h1 h2 => g.fresh.freeAt h.good (hfree a h1 h2)
    · exact .inl ⟨r, hr, d, n, (g.keeps.tableAt_eq hr d n).symm.trans
        ((f.trees r hr d n).symm.trans ht)⟩
  · have := f.pmm
    rw [g.pmm, g.tabs_eq hsrc] at this
    rwa [add_comm, draws]

end Call

end YamKernel.Vmm

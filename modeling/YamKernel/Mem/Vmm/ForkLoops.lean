import YamKernel.Mem.Vmm.Fork

/-!
# The loops of a fork

Each of the four loops takes `Forking` from the turn of the first entry of a table to the time
when everything below the table is done.
-/

namespace YamKernel.Vmm

open Lib Pmm List Nat Set

section Leaves

variable {R : Set Nat} {s0 s : State} {src new d n t t' i : Nat}

lemma mask_split {e : Nat} (he : e < 2 ^ 64) : (e &&& addrMask) ||| (e &&& flagMask) = e := by
  rw [← and_or_distrib_left, show addrMask ||| flagMask = 2 ^ 64 - 1 by decide,
    and_two_pow_sub_one_eq_mod, mod_eq_of_lt he]

lemma forkLeaf_eq (t t' : Nat) (s : State) (i : Nat) : forkLeaf t t' s i =
    let e := entry s.mem t i
    if isLeaf 3 e = true then
      (if has e flagDontFree then s.setEntry t' i (sharedEntry 3 e)
      else (s.setEntry t i (sharedEntry 3 e)).setEntry t' i (sharedEntry 3 e)).addRef (leafRef 3 e)
    else s := by
  have hflag : has (entry s.mem t i &&& flagMask) flagDontFree =
      has (entry s.mem t i) flagDontFree :=
    has_and
  have hleaf : isLeaf 3 (entry s.mem t i) = has (entry s.mem t i) flagPresent := by simp [isLeaf]
  unfold forkLeaf
  dsimp only
  rw [hflag, hleaf]
  cases has (entry s.mem t i) flagPresent with
  | false => rfl
  | true =>
    cases hd : has (entry s.mem t i) flagDontFree with
    | false => simp [sharedEntry, leafRef, hd, State.addRef, State.pageRef, State.setEntry]
    | true =>
      simp [sharedEntry, leafRef, hd, State.addRef, mask_split (entry_lt s.mem t i)]

/-- The innermost loop body: a page of 4 KB. -/
theorem Forking.leaf (h : Forking R s0 s src new (rank (3 + 1) (512 * n + i))) (hg : Good s0.pmm)
    (hsrc : src ∈ R) (hnew : new ∉ R) (ht : tableAt 256 s0.mem src 3 n = some t)
    (ht' : tableAt 256 s.mem new 3 n = some t') (hi : i < 512) :
    Forking R s0 (forkLeaf t t' s i) src new (stop (3 + 1) (512 * n + i)) ∧
      KeepsChild new s (forkLeaf t t' s i) := by
  have hent := h.source_before ht hi le_rfl
  rw [forkLeaf_eq]
  dsimp only
  rw [hent]
  cases hleaf : isLeaf 3 (entry s0.mem t i) with
  | false =>
    exact ⟨h.skip_slot hg ht hi hleaf (.inl ((tableAt_kid ht hi).trans nextOf_three)),
      fun _ _ _ hu => hu⟩
  | true =>
    refine h.share hsrc hnew ht ht' hi hleaf ?_
    have hmem : new ∈ insert new R := mem_insert _ _
    have hx : sharedEntry 3 (entry s0.mem t i) < 2 ^ 64 := sharedEntry_lt 3 (entry_lt _ _ _)
    split_ifs with hd
    · refine h.sound.store_one hmem ht' hi hx (nextOf_leaf _ _ _) ?_
      rw [hent, sharedEntry, if_pos rfl, if_pos hd]
    · exact h.sound.store_both (mem_insert_of_mem _ hsrc) hmem ((h.trees src hsrc 3 n).trans ht)
        ht' hi hx (nextOf_leaf _ _ _) (nextOf_leaf _ _ _)

/-- A page of 2 MB. -/
theorem Forking.hugeLeaf (h : Forking R s0 s src new (rank (2 + 1) (512 * n + i))) (hsrc : src ∈ R)
    (hnew : new ∉ R) (ht : tableAt 256 s0.mem src 2 n = some t)
    (ht' : tableAt 256 s.mem new 2 n = some t') (hi : i < 512)
    (hleaf : isLeaf 2 (entry s0.mem t i) = true) : let e := entry s0.mem t i
    let s' := ((s.setEntry t' i (sharedEntry 2 e)).setEntry t i
      (sharedEntry 2 e)).addRef (leafRef 2 e)
    Forking R s0 s' src new (stop (2 + 1) (512 * n + i)) ∧ KeepsChild new s s' := by
  intro e s'
  have hent := h.source_before ht hi le_rfl
  have hzero := h.child_before ht ht' hi (fun hc => absurd hc (by decide)) le_rfl
  have hmem : new ∈ insert new R := mem_insert _ _
  have hmem' := mem_insert_of_mem new hsrc
  have hts := (h.trees src hsrc 2 n).trans ht
  have hnone : nextOf 256 2 i (sharedEntry 2 e) = none := nextOf_isLeaf (sharedEntry_isLeaf hleaf)
  have g := h.sound.store_both hmem hmem' ht' hts hi (sharedEntry_lt 2 (entry_lt _ _ _))
    (by rw [hnone, hzero]; exact (nextOf_absent (by decide)).symm)
    (by rw [hnone, hent]; exact (nextOf_isLeaf hleaf).symm)
  have g' : BothStored (insert new R) s
      ((s.setEntry t' i (sharedEntry 2 e)).setEntry t i (sharedEntry 2 e)) t t'
        i (sharedEntry 2 e) :=
    { g with entries := fun u hu j hj =>
        (g.entries u hu j hj).trans (if_congr (and_congr_left' or_comm) rfl rfl) }
  obtain ⟨hf, hk⟩ := h.share hsrc hnew ht ht' hi hleaf g'
  refine ⟨?_, hk⟩
  -- Below the page there is nothing.
  have hkid : tableAt 256 s0.mem src (2 + 1) (512 * n + i) = none :=
    (tableAt_kid ht hi).trans (nextOf_isLeaf hleaf)
  have hlt := rank_lt_stop (show 2 + 1 ≤ 4 by decide) (512 * n + i)
  refine hf.skip (succ_pos _) hlt ?_ ?_ ?_
  · rw [tabs_skip hlt]
    rintro j hlo hhi ⟨d', n', h0', -, rfl, hsome⟩
    exact table_below (by decide) (by decide) hsome h0' (by omega) hhi hkid
  · intro d' n' u j hu hj hlo hhi _ _
    rcases slot_below (by decide) (by decide) hu hj (by omega) hhi with
      ⟨hd', hn'⟩ | ⟨hsome, -⟩
    · rw [hd', hn'] at hlo
      omega
    · exact hsome hkid
  · intro d' n' h0' hsome hlo hhi _
    exact table_below (by decide) (by decide) hsome h0' (by omega) hhi hkid

end Leaves

/-! ## The loops -/

/-- What the three outer loop bodies have in common: `sub` deals with the table. -/
def forkTable (sub : Nat → Nat → State → State) (src dst : Nat) (s : State) (i : Nat) : State :=
  let e := entry s.mem src i
  if ¬ has e flagPresent then s
  else
    match allocPageTable s with
    | (none, s) => s
    | (some new, s) =>
      sub (e &&& addrMask) new (s.setEntry dst i (new ||| (entry s.mem src i &&& 0xFFF)))

def forkPt (src dst : Nat) (s : State) : State := (range 512).foldl (forkLeaf src dst) s

def forkPds (src dst : Nat) (s : State) : State := (range 512).foldl (forkPd src dst) s

def forkPdpts (src dst : Nat) (s : State) : State := (range 512).foldl (forkPdpt src dst) s

lemma forkPml4_eq (src dst : Nat) : forkPml4 src dst = forkTable forkPdpts src dst := rfl

lemma forkPdpt_eq (src dst : Nat) : forkPdpt src dst = forkTable forkPds src dst := rfl

section Loops

variable {R : Set Nat} {s0 s : State} {src new d n t t' i : Nat}

lemma forkPd_small (h : isLeaf 2 (entry s.mem t i) = false) :
    forkPd t t' s i = forkTable forkPt t t' s i := by
  unfold forkPd forkTable
  dsimp only
  cases hp : has (entry s.mem t i) flagPresent with
  | false => rfl
  | true =>
    have hh : has (entry s.mem t i) flagHuge = false := by simpa [isLeaf, hp] using h
    simp only [hh]
    rfl

lemma forkPd_huge (h : isLeaf 2 (entry s.mem t i) = true) : forkPd t t' s i =
    let e := entry s.mem t i
    ((s.setEntry t' i (sharedEntry 2 e)).setEntry t i (sharedEntry 2 e)).addRef (leafRef 2 e) := by
  have hp : has (entry s.mem t i) flagPresent = true := by
    simp only [isLeaf, Bool.and_eq_true] at h
    exact h.1
  have hh : has (entry s.mem t i) flagHuge = true := by simpa [isLeaf, hp] using h
  unfold forkPd
  simp only [hp, hh]
  rfl

/-- An entry of one of the upper tables that is no page of 2 MB. -/
theorem Forking.table {sub : Nat → Nat → State → State}
    (h : Forking R s0 s src new (rank (d + 1) (512 * n + i))) (hg : Good s0.pmm) (hsrc : src ∈ R)
    (hnew : new ∉ R) (ht : tableAt 256 s0.mem src d n = some t)
    (ht' : tableAt 256 s.mem new d n = some t') (hd : d < 3) (hi : i < 512)
    (hroot : d = 0 → i < 256)
    (hleaf : isLeaf d (entry s0.mem t i) = false)
    (hsub : ∀ s' u u', Forking R s0 s' src new (rank (d + 1) (512 * n + i) + 1) →
      tableAt 256 s0.mem src (d + 1) (512 * n + i) = some u →
      tableAt 256 s'.mem new (d + 1) (512 * n + i) = some u' →
      Forking R s0 (sub u u' s') src new (stop (d + 1) (512 * n + i)) ∧
        KeepsChild new s' (sub u u' s')) :
    Forking R s0 (forkTable sub t t' s i) src new (stop (d + 1) (512 * n + i)) ∧
      KeepsChild new s (forkTable sub t t' s i) := by
  have hent := h.source_before ht hi le_rfl
  have hkid := tableAt_kid ht hi
  unfold forkTable
  dsimp only
  rw [hent]
  cases hp : has (entry s0.mem t i) flagPresent with
  | false =>
    exact ⟨h.skip_slot hg ht hi hleaf (.inl (hkid.trans (nextOf_absent hp))), fun _ _ _ hu => hu⟩
  | true =>
    have hnext : nextOf 256 d i (entry s0.mem t i) = some (frame (entry s0.mem t i)) := by
      refine if_pos ⟨hp, hd, hroot, ?_⟩
      rintro ⟨rfl, hh⟩
      simp [isLeaf, hp, hh] at hleaf
    rw [hnext] at hkid
    unfold allocPageTable
    cases halloc : pmmAllocPage s.pmm with
    | mk u pmm' =>
      by_cases h0 : u = 0
      · -- No memory for the table.
        subst h0
        have hfail := pmmAllocPage_fail h.sound.good (by rw [halloc])
        obtain rfl : pmm' = s.pmm := by
          rw [halloc] at hfail
          exact (Prod.mk.inj hfail).2
        refine ⟨h.skip_slot hg ht hi hleaf (.inr fun hmade => ?_), fun _ _ _ hu => hu⟩
        have hturn : TableTurn s0.mem src (rank (d + 1) (512 * n + i)) :=
          tableTurn_rank (succ_pos d) hd (by rw [hkid]; simp)
        rw [Made, tabs_succ hturn, provides_add, provides_one, ← h.pmm.alloc.1, halloc] at hmade
        exact hmade.2 rfl
      · have hfresh := pmmAllocPage_fresh h.sound.good (by rw [halloc]; exact h0)
        rw [halloc] at hfresh
        have hfill : entry (s.mem.fill u pageSize 0) t i = entry s0.mem t i := by
          rw [← hent]
          refine entry_congr hi fun a h1 h2 => Mem.fill_of_notMem ?_
          have := h.sound.fresh_apart hfresh (h.isTable hsrc ht)
          unfold PagesApart at this
          omega
        obtain ⟨hf, hu, hk⟩ := h.link hg hsrc hnew ht ht' hi hroot hkid halloc h0
        obtain ⟨hf', hk'⟩ := hsub _ _ _ hf hkid hu
        simp only [h0, if_false, hfill]
        exact ⟨hf', fun d' n' v hv => hk' d' n' v (hk d' n' v hv)⟩

lemma Forking.loop {body : State → Nat → State} (hd : d < 4) (N : Nat) (hN : N < 512)
    (h : Forking R s0 s src new (rank d n + 1))
    (hbody : ∀ i ≤ N, ∀ s', Forking R s0 s' src new (rank (d + 1) (512 * n + i)) →
      KeepsChild new s s' →
      Forking R s0 (body s' i) src new (stop (d + 1) (512 * n + i)) ∧
        KeepsChild new s' (body s' i)) :
    Forking R s0 ((range (N + 1)).foldl body s) src new (stop (d + 1) (512 * n + N)) ∧
      KeepsChild new s ((range (N + 1)).foldl body s) := by
  induction N with
  | zero =>
    rw [← rank_first hd] at h
    exact hbody 0 le_rfl s h fun _ _ _ hu => hu
  | succ N ih =>
    obtain ⟨hf, hk⟩ := ih (by omega) fun i hi => hbody i (by omega)
    rw [range_succ, foldl_append]
    -- No entry has its turn between two of the same table.
    have hgap : ∀ {d' m' : Nat}, 0 < d' → d' ≤ 4 → stop (d + 1) (512 * n + N) ≤ rank d' m' →
        rank (d + 1) (512 * n + N + 1) ≤ rank d' m' := fun h0 h4 => rank_gap hd hN h0 h4
    have hle : stop (d + 1) (512 * n + N) ≤ rank (d + 1) (512 * n + N + 1) := by
      unfold stop rank
      omega
    have hnext : Forking R s0 ((range (N + 1)).foldl body s) src new
        (rank (d + 1) (512 * n + N + 1)) := by
      refine hf.skip (succ_pos _) hle ?_ ?_ ?_
      · rw [tabs_skip hle]
        rintro j hlo hhi ⟨d', n', h0', h3', rfl, -⟩
        have := hgap h0' (by omega) hlo
        omega
      · intro d' n' u i hu _ hlo hhi _ _
        have h3' := tableAt_le_three hu
        have := hgap (by omega) (by omega) hlo
        omega
      · intro d' n' h0' hsome hlo hhi _
        have := hgap h0' ((tableAt_depth hsome).trans (by decide)) hlo
        omega
    obtain ⟨hf', hk'⟩ := hbody (N + 1) le_rfl _ hnext hk
    exact ⟨hf', fun d' n' v hv => hk' d' n' v (hk d' n' v hv)⟩

section Levels

variable (hg : Good s0.pmm) (hsrc : src ∈ R) (hnew : new ∉ R)

include hg hsrc hnew

lemma Forking.pt (h : Forking R s0 s src new (rank 3 n + 1))
    (ht : tableAt 256 s0.mem src 3 n = some t) (ht' : tableAt 256 s.mem new 3 n = some t') :
    Forking R s0 (forkPt t t' s) src new (stop 3 n) ∧ KeepsChild new s (forkPt t t' s) := by
  rw [← stop_last (by decide)]
  exact h.loop (by decide) 511 (by decide) fun i hi s' hs' hk =>
    hs'.leaf hg hsrc hnew ht (hk 3 n t' ht') (by omega)

lemma Forking.pds (h : Forking R s0 s src new (rank 2 n + 1))
    (ht : tableAt 256 s0.mem src 2 n = some t) (ht' : tableAt 256 s.mem new 2 n = some t') :
    Forking R s0 (forkPds t t' s) src new (stop 2 n) ∧ KeepsChild new s (forkPds t t' s) := by
  rw [← stop_last (by decide)]
  refine h.loop (by decide) 511 (by decide) fun i hi s' hs' hk => ?_
  have ht' := hk 2 n t' ht'
  have hent := hs'.source_before ht (by omega) le_rfl
  cases hleaf : isLeaf 2 (entry s0.mem t i) with
  | false =>
    rw [forkPd_small (by rw [hent]; exact hleaf)]
    exact hs'.table hg hsrc hnew ht ht' (by decide) (by omega)
      (fun hc => absurd hc (by decide)) hleaf
      fun s'' u u' hs'' hu hu' => hs''.pt hg hsrc hnew hu hu'
  | true =>
    rw [forkPd_huge (by rw [hent]; exact hleaf), hent]
    exact hs'.hugeLeaf hsrc hnew ht ht' (by omega) hleaf

lemma Forking.pdpts (h : Forking R s0 s src new (rank 1 n + 1))
    (ht : tableAt 256 s0.mem src 1 n = some t) (ht' : tableAt 256 s.mem new 1 n = some t') :
    Forking R s0 (forkPdpts t t' s) src new (stop 1 n) ∧ KeepsChild new s (forkPdpts t t' s) := by
  rw [← stop_last (by decide)]
  refine h.loop (by decide) 511 (by decide) fun i hi s' hs' hk => ?_
  rw [forkPdpt_eq]
  exact hs'.table hg hsrc hnew ht (hk 1 n t' ht') (by decide) (by omega)
    (fun hc => absurd hc (by decide)) (by simp [isLeaf])
    fun s'' u u' hs'' hu hu' => hs''.pds hg hsrc hnew hu hu'

/-- The loop over the lower half of the root. -/
theorem Forking.root (h : Forking R s0 s src new 1) :
    Forking R s0 ((range 256).foldl (forkPml4 src new) s) src new (stop 1 255) := by
  have h0 : tableAt 256 s0.mem src 0 0 = some src := Radix.node_zero
  have h0' : tableAt 256 s.mem new 0 0 = some new := Radix.node_zero
  refine (loop (n := 0) (by decide) 255 (by decide) h fun i hi s' hs' hk => ?_).1
  rw [forkPml4_eq]
  exact hs'.table hg hsrc hnew h0 (hk 0 0 new h0') (by decide) (by omega) (fun _ => by omega)
    (by simp [isLeaf]) fun s'' u u' hs'' hu hu' => hs''.pdpts hg hsrc hnew hu hu'

end Levels

end Loops

end YamKernel.Vmm

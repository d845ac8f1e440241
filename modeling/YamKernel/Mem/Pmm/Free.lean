import YamKernel.Mem.Pmm.Alloc

/-!
# Freeing keeps the forest

Releasing a cell replaces a used leaf by a free one, and then the parent may have four
free children. `cell_try_merge` replaces that parent by a free leaf and goes on with
the parent's parent; it stops at a node that is not full, so that in the end no node is.
-/

namespace YamKernel.Pmm

open Lib QuadTree List Function

variable {F : Forest} {i p r : Nat} {kids : Fin 4 → CellTree} {s : State}

/-- The allocator after a release: `idx` is a free leaf, and its parent may be full. -/
structure Freed (s : State) (F : Forest) (r idx : Nat) : Prop where
  inv : Inv s F
  accounts : Accounts s F (s.cells idx).parent
  root_mem : r ∈ F.roots
  leaf : Sub (.leaf idx false) (F.tree r)

lemma Inv.used_leaf (h : Inv s F) (hi : i < s.cellCount) (hst : (s.cells i).state = .used) :
    ∃ r ∈ F.roots, Sub (.leaf i true) (F.tree r) := h.leaf_mem (h.used_mem i hi hst) hst

lemma Inv.used_fits {q : Nat} (h : Inv s F) (a : Accounts s F q) (hi : i < s.cellCount)
    (hst : (s.cells i).state = .used) : s.freeMem + (s.cells i).size < 2 ^ 64 := by
  have hroots := h.sum_roots_lt
  rw [← h.sum_leaves, Finset.sum_add_distrib, ← a.free_eq] at hroots
  have hone := Finset.single_le_sum (f := fun j => (s.cells j).usedBytes)
    (fun _ _ => Nat.zero_le _) (h.used_mem i hi hst)
  simp only [Cell.usedBytes, hst, if_true] at hone hroots
  omega

lemma releaseCell_freed (h : Inv s F) (a : Accounts s F noCell) (hr : r ∈ F.roots)
    (hu : Sub (.leaf i true) (F.tree r)) :
    Freed (releaseCell s i) (F.subst r i (.leaf i false)) r i := by
  obtain ⟨par, b, k, hrep, -⟩ := (h.rep r hr).sub hu
  have hat : (s.cells i).At par b k .used := hrep
  have hw : Replaces s (releaseCell s i) F (.leaf i true) (.leaf i false) :=
    .mark h rfl rfl ⟨rfl, rfl, rfl, rfl⟩
  have hparent : ((releaseCell s i).cells i).parent = (s.cells i).parent := by
    simp [releaseCell]
  have hfits := h.used_fits a (h.lt_count i (Forest.sub_mem hr hu)) hat.state_eq
  refine ⟨h.subst hr hu hw, ?_, hr, ?_⟩
  · rw [hparent]
    refine a.subst h hr hu hw rfl ?_ ?_ ?_
    · simp [releaseCell, Cell.freeBytes, hat.state_eq, u64_of_lt hfits]
    · exact fun q hq _ => h.noCell_notMem hq
    · refine TightOff.subst_free (p := i) ((a.tight r hr).all (h.noCell_notMem hr)) ?_
      intro p kids hs hne j he
      exact hne (by rw [← he, (h.rep r hr).kid_parent hs j])
  · rw [Forest.subst_tree]
    exact (h.distinct r hr).sub_subst hu _

/-! ## Merging -/

/-- The children of `p` become RESERVED and are unlinked; nothing else changes. -/
structure Reserves (p : Nat) (is : List (Fin 4)) (s s' : State) : Prop where
  rest : s' = { s with cells := s'.cells }
  frame : ∀ j ≠ p, (∀ i ∈ is, (s.cells p).children i ≠ j) → s'.cells j = s.cells j
  self : s'.cells p = { s.cells p with children := (s'.cells p).children }
  parent : ∀ j, (s'.cells j).parent = (s.cells j).parent
  used : ∀ j, (s'.cells j).state = .used → (s.cells j).state = .used

lemma reserveChildren_spec (p : Nat) (is : List (Fin 4)) (s : State) (hn : is.Nodup)
    (hp : ∀ i ∈ is, (s.cells p).children i ≠ p) : Reserves p is s (reserveChildren p is s) := by
  induction is generalizing s with
  | nil => exact ⟨rfl, fun _ _ _ => rfl, rfl, fun _ => rfl, fun _ h => h⟩
  | cons i is ih =>
    obtain ⟨hi, hn⟩ := nodup_cons.mp hn
    have hk : (s.cells p).children i ≠ p := hp i (by simp)
    rw [reserveChildren]
    generalize hs1 : ((s.setCell ((s.cells p).children i) _).setCell p _) = s1
    have hself : s1.cells p = { s.cells p with
        children := update (s.cells p).children i noCell } := by
      subst hs1; simp [State.setCell, hk.symm]
    have hkids : ∀ j ∈ is, (s1.cells p).children j = (s.cells p).children j := by
      intro j hj
      rw [hself]
      exact update_of_ne (show j ≠ i from fun he => hi (he ▸ hj)) _ _
    have hkid : s1.cells ((s.cells p).children i) =
        { s.cells ((s.cells p).children i) with state := .reserved } := by
      subst hs1; simp [State.setCell, hk]
    have hother : ∀ j ≠ p, j ≠ (s.cells p).children i → s1.cells j = s.cells j := by
      intro j h1 h2
      subst hs1; simp [State.setCell, h1, h2]
    have w := ih s1 hn fun j hj => by rw [hkids j hj]; exact hp j (by simp [hj])
    refine ⟨?_, ?_, ?_, ?_, ?_⟩
    · rw [w.rest]; subst hs1; rfl
    · intro j hj hne
      rw [w.frame j hj fun l hl => by rw [hkids l hl]; exact hne l (by simp [hl])]
      exact hother j hj fun he => hne i (by simp) he.symm
    · rw [w.self, hself]
    · intro j
      rw [w.parent j]
      by_cases h1 : j = p
      · subst h1; rw [hself]
      · by_cases h2 : j = (s.cells p).children i
        · rw [h2, hkid]
        · rw [hother j h1 h2]
    · intro j hst
      have hold := w.used j hst
      by_cases h1 : j = p
      · subst h1; rwa [hself] at hold
      · by_cases h2 : j = (s.cells p).children i
        · rw [h2, hkid] at hold; simp at hold
        · rwa [hother j h1 h2] at hold

/-- A full node is replaced by a free leaf. -/
theorem mergeAt_replaces (h : Inv s F) (hr : r ∈ F.roots) (hs : Sub (.node p kids) (F.tree r))
    (hfull : FullFree kids) :
    Replaces s (mergeAt s p) F (.node p kids) (.leaf p false) ∧
      KeepsUsed s (mergeAt s p) ∧ (∀ i ∈ (node p kids).ids, (s.cells i).state ≠ .used) ∧
      (mergeAt s p).cells p = { s.cells p with
        state := .free, children := ((mergeAt s p).cells p).children } := by
  obtain ⟨par, b, k, ⟨j, -, hat, hkids⟩, -⟩ := (h.rep r hr).sub hs
  have hkid : ∀ i, (s.cells (kids i).id).state = .free := fun i => by
    have := (hkids i).2
    rw [hfull i] at this
    exact this.state_eq
  have hids : ∀ i, i ∈ (node p kids).ids ↔ i = p ∨ ∃ l, i = (kids l).id := fun i => by
    rw [mem_ids_node]
    refine or_congr_right (exists_congr fun l => ?_)
    rw [hfull l]; simp
  have hne : ∀ i, (kids i).id ≠ p := fun i he =>
    ((h.distinct r hr).sub hs).1.1 i (he ▸ id_mem_ids (kids i))
  have spec := reserveChildren_spec p [0, 1, 2, 3] s (by decide)
    fun i _ => by rw [(hkids i).1]; exact hne i
  have hself : (mergeAt s p).cells p = { s.cells p with
      state := .free, children := ((mergeAt s p).cells p).children } := by
    simp only [mergeAt, State.setCell, update_self]
    rw [spec.self]
  have hframe : ∀ i, i ∉ (node p kids).ids → (mergeAt s p).cells i = s.cells i := by
    intro i hi
    rw [hids, not_or, not_exists] at hi
    simp only [mergeAt, State.setCell, update_of_ne hi.1]
    exact spec.frame i hi.1 fun l _ he => hi.2 l (by rw [← he, (hkids l).1])
  have hrest : mergeAt s p = { s with cells := (mergeAt s p).cells } := by
    unfold mergeAt
    rw [spec.rest]; rfl
  have hcount : (mergeAt s p).cellCount = s.cellCount := by rw [hrest]
  have hused : ∀ i, ((mergeAt s p).cells i).state = .used → (s.cells i).state = .used := by
    intro i hst
    by_cases hip : i = p
    · subst hip; rw [hself] at hst; simp at hst
    · simp only [mergeAt, State.setCell, update_of_ne hip] at hst
      exact spec.used i hst
  have hnot : ∀ i ∈ (node p kids).ids, (s.cells i).state ≠ .used := by
    intro i hi
    rcases (hids i).mp hi with rfl | ⟨l, rfl⟩
    · rw [hat.state_eq]; simp
    · rw [hkid l]; simp
  refine ⟨⟨rfl, trivial, hcount.ge, by rw [hcount]; exact h.count_le, ?_, ?_, ?_, ?_, ?_⟩,
    ⟨by rw [hcount]; exact hrest, hcount.ge, ?_, ?_⟩, hnot, hself⟩
  · intro i hi
    rw [ids_leaf, Finset.mem_singleton] at hi
    exact .inl (by simp [hi])
  · exact fun i _ hi => hframe i hi
  · rintro par b k - ⟨_, -, hat, -⟩
    change ((mergeAt s p).cells p).At par b k .free
    rw [hself]
    exact ⟨hat.parent_eq, hat.base_eq, hat.size_eq, rfl⟩
  · intro i hi hpar
    refine ⟨hcount ▸ hi, ?_⟩
    by_cases hip : i = p
    · subst hip; rw [hself] at hpar; exact hpar
    · simp only [mergeAt, State.setCell, update_of_ne hip] at hpar
      rwa [spec.parent i] at hpar
  · intro i hi hst
    have hold := hused i hst
    exact .inr ⟨fun hm => hnot i hm hold, hcount ▸ hi, hold⟩
  · exact fun i _ hst => hframe i fun hm => hnot i hm hst
  · exact fun i hi hst => ⟨hcount ▸ hi, hused i hst⟩

lemma mergeAt_freed (h : Inv s F) (a : Accounts s F p) (hr : r ∈ F.roots)
    (hs : Sub (.node p kids) (F.tree r)) (hfull : FullFree kids) :
    Freed (mergeAt s p) (F.subst r p (.leaf p false)) r p := by
  obtain ⟨hw, hkeep, hnot, hself⟩ := mergeAt_replaces h hr hs hfull
  obtain ⟨par, b, k, hrep, hlo, hhi⟩ := (h.rep r hr).sub hs
  have hnew := hw.rep par b k (hhi.trans (h.end_le r hr)) hrep
  have hparent : ((mergeAt s p).cells p).parent = (s.cells p).parent := by rw [hself]
  refine ⟨h.subst hr hs hw, ?_, hr, ?_⟩
  · rw [hparent]
    refine a.subst h hr hs hw (by rw [hkeep.rest]) ?_ ?_ ?_
    · have hsum := hnew.sum_free trivial fun i hi => by
        rw [ids_leaf, Finset.mem_singleton] at hi
        rw [hi, hself]; simp
      rw [hsum, hrep.sum_free ((h.distinct r hr).sub hs) hnot, hkeep.rest]
    · exact fun q hq hqr hm => h.notMem_sub hr hq hqr hs hm (by simp)
    · refine TightOff.subst_free (a.tight r hr) ?_
      intro p' ks hs' hne i he
      have hkid := (h.rep r hr).kid_parent hs' i
      rw [he] at hkid
      exact hne hkid.symm
  · rw [Forest.subst_tree]
    exact (h.distinct r hr).sub_subst hs _

lemma Inv.mergeable_iff (h : Inv s F) (hr : r ∈ F.roots) (hs : Sub (.node p kids) (F.tree r)) :
    (∀ i, (s.cells p).children i ≠ noCell ∧
      (s.cells ((s.cells p).children i)).state = .free) ↔ FullFree kids := by
  obtain ⟨par, b, k, ⟨j, -, -, hkids⟩, -⟩ := (h.rep r hr).sub hs
  refine forall_congr' fun i => ?_
  obtain ⟨st, hat, -, hfree, -⟩ := (hkids i).2.root
  have hm : (kids i).id ∈ F.ids := Forest.mem_ids.mpr ⟨r, hr, hs.ids_subset
    (mem_ids_node.mpr (.inr ⟨i, id_mem_ids _⟩))⟩
  rw [(hkids i).1, hat.state_eq, hfree]
  exact and_iff_right (h.lt_noCell hm).ne

lemma Freed.tryMerge {idx : Nat} (w : Freed s F r idx) (fuel : Nat) {k : Nat}
    (hk : (s.cells idx).size = levelSize k) (hf : 26 < k + fuel) :
    (∃ F', Inv (cellTryMerge fuel s idx) F' ∧ Accounts (cellTryMerge fuel s idx) F' noCell) ∧
      KeepsUsed s (cellTryMerge fuel s idx) := by
  induction fuel generalizing s F idx k with
  | zero =>
    -- The level of a cell never exceeds 26, so the fuel is never used up.
    obtain ⟨j, hj, hsize⟩ := w.inv.size_at (Forest.sub_mem w.root_mem w.leaf)
    have := levelSize_inj (hk.symm.trans hsize)
    omega
  | succ fuel ih =>
    rw [cellTryMerge]
    rcases (w.inv.rep r w.root_mem).parent w.leaf with ⟨-, hp⟩ | ⟨kids, i, hs, hi⟩
    · rw [id_leaf] at hp
      simp only [hp]
      exact ⟨⟨F, w.inv, hp ▸ w.accounts⟩, .refl s⟩
    · rw [id_leaf] at hs
      obtain ⟨par, b, j, ⟨j', rfl, hat, hkids⟩, -⟩ := (w.inv.rep r w.root_mem).sub hs
      have hm : (s.cells idx).parent < noCell :=
        w.inv.lt_noCell (Forest.sub_mem w.root_mem hs)
      simp only [hm.ne, if_false, hat.state_eq, ne_eq, not_true_eq_false]
      split_ifs with hc
      · have hfull := (w.inv.mergeable_iff w.root_mem hs).mp hc
        have w' := mergeAt_freed w.inv w.accounts w.root_mem hs hfull
        obtain ⟨-, hkeep, -, hself⟩ := mergeAt_replaces w.inv w.root_mem hs hfull
        have : k = j' := by
          have h1 := (hkids i).2
          rw [hi] at h1
          have h2 : (s.cells idx).size = levelSize j' := h1.size_eq
          exact levelSize_inj (hk.symm.trans h2)
        obtain ⟨hF, hkeep'⟩ := ih w' (by rw [hself]; exact hat.size_eq) (by omega)
        exact ⟨hF, hkeep.trans hkeep'⟩
      · have hnot := (w.inv.mergeable_iff w.root_mem hs).not.mp hc
        refine ⟨⟨F, w.inv, w.accounts.free_eq, w.accounts.total_eq, fun q hq => ?_⟩, .refl s⟩
        by_cases hqr : q = r
        · subst hqr
          refine AllNodes.mono (w.accounts.tight q hq) fun p ks hsub hp => .inr ?_
          rcases hp with rfl | hp
          · have := (w.inv.distinct q hq).sub_unique hsub hs rfl
            cases this
            exact hnot
          · exact hp
        · exact (w.accounts.tight q hq).all (w.inv.parent_other w.root_mem hq hqr w.leaf)

/-! ## The calls -/

lemma findUsed_spec {addr : Nat} (h : findUsed s addr = some i) :
    i < s.cellCount ∧ (s.cells i).base = addr ∧ (s.cells i).state = .used := by
  have h1 := find?_some h
  have h2 := mem_of_find?_eq_some h
  simp only [decide_eq_true_eq] at h1
  exact ⟨mem_range.mp h2, h1⟩

end YamKernel.Pmm

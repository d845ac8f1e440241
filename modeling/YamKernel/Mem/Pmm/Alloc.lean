import YamKernel.Mem.Pmm.Accounts

/-!
# Allocation keeps the forest

`splitLoop_spec` says what the loop of `cell_split` leaves behind, also when the pool
runs out in the middle. From it a completed split replaces a free leaf by a node with
four free leaves, and an abandoned one replaces nothing. `splitDown` and `takeCell`
are then replacements of leaves.
-/

namespace YamKernel.Pmm

open Lib QuadTree List Function

variable {F : Forest} {found idx k p r : Nat} {s s' : State} {strict : Bool} {t : CellTree}
  {zone : Zone}

/-! ## Splitting -/

/-- The state after the loop of `cell_split` over the child slots `is`. -/
structure SplitSpec (idx childSize : Nat) (is : List (Fin 4)) (s : State) (ok : Bool)
    (s' : State) : Prop where
  rest : s' = { s with cells := s'.cells, cellCount := s'.cellCount }
  count_le : s.cellCount ≤ s'.cellCount
  pool : s'.cellCount ≤ cellPoolSize
  frame : ∀ i < s.cellCount, i ≠ idx → s'.cells i = s.cells i
  self : s'.cells idx = { s.cells idx with children := (s'.cells idx).children }
  kept : ∀ i ∉ is, (s'.cells idx).children i = (s.cells idx).children i
  fresh : ∀ i, s.cellCount ≤ i → i < s'.cellCount →
    (s'.cells i).parent = idx ∧ (s'.cells i).state = .free
  done : ok = true → s'.cellCount = s.cellCount + is.length ∧ ∀ i ∈ is,
    (s'.cells idx).children i = s.cellCount + is.idxOf i ∧
    (s'.cells (s.cellCount + is.idxOf i)).base = u64 ((s.cells idx).base + i * childSize) ∧
    (s'.cells (s.cellCount + is.idxOf i)).size = childSize

def splitStep (s : State) (idx childSize : Nat) (i : Fin 4) : State :=
  linkChild (cellAllocNode s).2 idx childSize s.cellCount i

lemma splitStep_eq (childSize : Nat) (i : Fin 4) (hs : s.cellCount < cellPoolSize)
    (hidx : idx < s.cellCount) :
    (splitStep s idx childSize i).cellCount = s.cellCount + 1 ∧
    splitStep s idx childSize i =
      { s with cells := (splitStep s idx childSize i).cells, cellCount := s.cellCount + 1 } ∧
    (splitStep s idx childSize i).cells idx =
      { s.cells idx with children := update (s.cells idx).children i s.cellCount } ∧
    ((splitStep s idx childSize i).cells s.cellCount).parent = idx ∧
    ((splitStep s idx childSize i).cells s.cellCount).state = .free ∧
    ((splitStep s idx childSize i).cells s.cellCount).size = childSize ∧
    ((splitStep s idx childSize i).cells s.cellCount).base =
      u64 ((s.cells idx).base + i * childSize) ∧
    ∀ j, j ≠ idx → j ≠ s.cellCount → (splitStep s idx childSize i).cells j = s.cells j := by
  have h1 : ¬ cellPoolSize ≤ s.cellCount := by omega
  have h2 : idx ≠ s.cellCount := by omega
  refine ⟨?_, ?_, ?_, ?_, ?_, ?_, ?_, ?_⟩
  all_goals simp +contextual [splitStep, linkChild, cellAllocNode, State.setCell, h1, h2,
    symm h2]

lemma splitLoop_cons (idx childSize : Nat) (i : Fin 4) (is : List (Fin 4)) (s : State) :
    splitLoop idx childSize (i :: is) s = if cellPoolSize ≤ s.cellCount then (false, s)
      else splitLoop idx childSize is (splitStep s idx childSize i) := by
  split_ifs with hfull
  · simp [splitLoop, cellAllocNode, hfull]
  · have hne : s.cellCount ≠ noCell := by unfold cellPoolSize at hfull; unfold noCell; omega
    simp [splitLoop, splitStep, cellAllocNode, hfull, hne]

lemma splitLoop_spec (idx childSize : Nat) (is : List (Fin 4)) (s : State) (hn : is.Nodup)
    (hidx : idx < s.cellCount) (hpool : s.cellCount ≤ cellPoolSize) :
    SplitSpec idx childSize is s (splitLoop idx childSize is s).1
      (splitLoop idx childSize is s).2 := by
  induction is generalizing s with
  | nil => exact ⟨rfl, le_rfl, hpool, fun _ _ _ => rfl, rfl, fun _ _ => rfl,
      fun i h1 h2 => absurd h2 (not_lt.mpr h1), fun _ => ⟨rfl, by simp⟩⟩
  | cons i is ih =>
    obtain ⟨hi, hn⟩ := nodup_cons.mp hn
    rw [splitLoop_cons]
    by_cases hfull : cellPoolSize ≤ s.cellCount
    · rw [if_pos hfull]
      exact ⟨rfl, le_rfl, hpool, fun _ _ _ => rfl, rfl, fun _ _ => rfl,
        fun i h1 h2 => absurd h2 (not_lt.mpr h1), by simp⟩
    · have hs : s.cellCount < cellPoolSize := by omega
      rw [if_neg hfull]
      obtain ⟨hc, hrest, hself, hpar, hst, hsz, hbase, hframe⟩ :=
        splitStep_eq childSize i hs hidx
      have w := ih (splitStep s idx childSize i) hn (by omega) (by omega)
      generalize splitStep s idx childSize i = s1 at *
      generalize splitLoop idx childSize is s1 = out at w
      obtain ⟨ok, s'⟩ := out
      have hkeep : s'.cells s.cellCount = s1.cells s.cellCount :=
        w.frame _ (by omega) (by omega)
      refine ⟨?_, ?_, w.pool, ?_, ?_, ?_, ?_, ?_⟩
      · rw [w.rest, hrest]
      · have := w.count_le; omega
      · intro j hj hne
        rw [w.frame j (by omega) hne, hframe j hne (by omega)]
      · rw [w.self, hself]
      · intro j hj
        rw [mem_cons, not_or] at hj
        rw [w.kept j hj.2, hself]
        simp [hj.1]
      · intro j h1 h2
        by_cases hj : j = s.cellCount
        · subst hj
          rw [hkeep]; exact ⟨hpar, hst⟩
        · exact w.fresh j (by omega) h2
      · intro hok
        obtain ⟨hcount, hkids⟩ := w.done hok
        refine ⟨by rw [length_cons]; omega, fun j hj => ?_⟩
        by_cases hji : j = i
        · subst hji
          simp only [idxOf_cons_self, add_zero]
          rw [w.kept j hi, hself, hkeep]
          exact ⟨by simp, hbase, hsz⟩
        · have hj' : j ∈ is := (mem_cons.mp hj).resolve_left hji
          have hidx' : s.cellCount + (i :: is).idxOf j = s1.cellCount + is.idxOf j := by
            rw [idxOf_cons_ne _ (symm hji)]; omega
          obtain ⟨h1, h2, h3⟩ := hkids j hj'
          rw [hidx']
          refine ⟨h1, ?_, h3⟩
          rw [h2, hself]

/-- The tree of a cell that was just split: four free leaves at the end of the pool. -/
def splitTree (s : State) (p : Nat) : CellTree :=
  .node p fun i => .leaf (s.cellCount + i) false

/-- An unsuccessful split changes no cell of the forest but for the unused `children`. -/
theorem cellSplit_failed (h : Inv s F) (hr : r ∈ F.roots) (hu : Sub (.leaf p false) (F.tree r))
    (hc : cellSplit s p = (false, s')) :
    Replaces s s' F (.leaf p false) (.leaf p false) ∧
      s' = { s with cells := s'.cells, cellCount := s'.cellCount } ∧
      (∀ i < s.cellCount, i ≠ p → s'.cells i = s.cells i) ∧
      s'.cells p = { s.cells p with children := (s'.cells p).children } := by
  have hp : p < s.cellCount := h.lt_count p (Forest.sub_mem hr hu)
  have spec := splitLoop_spec p ((s.cells p).size / 4) [0, 1, 2, 3] s (by decide) hp h.count_le
  have key : s' = s ∨ s' = (splitLoop p ((s.cells p).size / 4) [0, 1, 2, 3] s).2 := by
    unfold cellSplit at hc
    split_ifs at hc
    · exact .inl (Prod.mk.inj hc).2.symm
    · exact .inl (Prod.mk.inj hc).2.symm
    · split at hc
      · next heq => exact .inr (by rw [heq]; exact (Prod.mk.inj hc).2.symm)
      · exact absurd (Prod.mk.inj hc).1 (by simp)
  rcases key with rfl | rfl
  · refine ⟨⟨rfl, trivial, le_rfl, h.count_le, fun i hi => .inl hi, fun _ _ _ => rfl,
      fun _ _ _ _ hrep => hrep, fun i hi hp => ⟨hi, hp⟩, fun i hi hst => ?_⟩, rfl,
      fun _ _ _ => rfl, rfl⟩
    by_cases hip : i = p
    · exact .inl (by simp [hip])
    · exact .inr ⟨by simpa using hip, hi, hst⟩
  · generalize splitLoop p ((s.cells p).size / 4) [0, 1, 2, 3] s = out at spec
    obtain ⟨ok, s'⟩ := out
    have hself := spec.self
    refine ⟨⟨rfl, trivial, spec.count_le, spec.pool, fun i hi => .inl hi, ?_, ?_, ?_, ?_⟩,
      spec.rest, spec.frame, hself⟩
    · intro i hi hne
      exact spec.frame i (h.lt_count i hi) (by simpa using hne)
    · rintro parent base k - hat
      change (s'.cells p).At parent base k .free
      rw [hself]
      exact ⟨hat.parent_eq, hat.base_eq, hat.size_eq, hat.state_eq⟩
    · intro i hi hpar
      by_cases hlt : i < s.cellCount
      · refine ⟨hlt, ?_⟩
        by_cases hip : i = p
        · subst hip; rw [hself] at hpar; exact hpar
        · rwa [spec.frame i hlt hip] at hpar
      · have := (spec.fresh i (by omega) hi).1
        have := h.count_le
        unfold cellPoolSize noCell at *
        omega
    · intro i hi hst
      by_cases hip : i = p
      · exact .inl (by simp [hip])
      · by_cases hlt : i < s.cellCount
        · rw [spec.frame i hlt hip] at hst
          exact .inr ⟨by simpa using hip, hlt, hst⟩
        · rw [(spec.fresh i (by omega) hi).2] at hst
          exact absurd hst (by simp)

lemma cellSplit_true (hc : cellSplit s p = (true, s')) :
    pageSize * 4 ≤ (s.cells p).size ∧
    ∃ s1, splitLoop p ((s.cells p).size / 4) [0, 1, 2, 3] s = (true, s1) ∧
      s' = s1.setCell p { s1.cells p with state := .split } := by
  unfold cellSplit at hc
  split_ifs at hc
  · simp at hc
  · simp at hc
  · refine ⟨by omega, ?_⟩
    split at hc
    · simp at hc
    · next s1 heq => exact ⟨s1, heq, (Prod.mk.inj hc).2.symm⟩

/-- A successful split turns the free leaf into a node of four free leaves. -/
theorem cellSplit_done (h : Inv s F) (hr : r ∈ F.roots) (hu : Sub (.leaf p false) (F.tree r))
    (hc : cellSplit s p = (true, s')) :
    Replaces s s' F (.leaf p false) (splitTree s p) ∧
      s' = { s with cells := s'.cells, cellCount := s'.cellCount } ∧
      (∀ i < s.cellCount, i ≠ p → s'.cells i = s.cells i) ∧
      (s'.cells p).children 0 = s.cellCount ∧
      (∀ i : Fin 4, (s'.cells (s.cellCount + i)).size = (s.cells p).size / 4) ∧
      (s'.cells s.cellCount).base = (s.cells p).base ∧
      pageSize * 4 ≤ (s.cells p).size := by
  have hp : p < s.cellCount := h.lt_count p (Forest.sub_mem hr hu)
  have spec := splitLoop_spec p ((s.cells p).size / 4) [0, 1, 2, 3] s (by decide) hp h.count_le
  obtain ⟨h2, s1, heq, rfl⟩ := cellSplit_true hc
  rw [heq] at spec
  replace spec : SplitSpec p ((s.cells p).size / 4) [0, 1, 2, 3] s true s1 := spec
  obtain ⟨hcount, hkids⟩ := spec.done rfl
  replace hcount : s1.cellCount = s.cellCount + 4 := hcount
  have hnp : ∀ i : Fin 4, s.cellCount + i ≠ p := fun i => by omega
  -- The children sit at the end of the pool in the order of the loop.
  have hkid : ∀ i : Fin 4, (s1.cells p).children i = s.cellCount + i ∧
      (s1.cells (s.cellCount + i)).base = u64 ((s.cells p).base + i * ((s.cells p).size / 4)) ∧
      (s1.cells (s.cellCount + i)).size = (s.cells p).size / 4 := by
    intro i
    have hidx : [0, 1, 2, 3].idxOf i = (i : Nat) := by revert i; decide
    have := hkids i (by revert i; decide)
    rwa [hidx] at this
  have hfresh : ∀ i : Fin 4, (s1.cells (s.cellCount + i)).parent = p ∧
      (s1.cells (s.cellCount + i)).state = .free := fun i =>
    spec.fresh _ (by omega) (by have := i.isLt; omega)
  have : (s1.cells s.cellCount).base = (s.cells p).base := by
    obtain ⟨par, b, k, hrep, hlo, hhi⟩ := (h.rep r hr).sub hu
    have hat : (s.cells p).At par b k .free := hrep
    have hend := h.end_le r hr
    have hpos := levelSize_pos k
    have h0 := (hkid 0).2.1
    simp only [Fin.val_zero, add_zero, zero_mul] at h0
    rw [h0, u64_of_lt (by rw [hat.base_eq]; omega)]
  refine ⟨⟨rfl, ?_, spec.count_le, spec.pool, ?_, ?_, ?_, ?_, ?_⟩, ?_, ?_, ?_, ?_, ?_, h2⟩
  · refine ⟨⟨fun i => by simpa using (hnp i).symm, fun i j hij => ?_⟩, fun i => trivial⟩
    simpa [Fin.val_inj] using hij
  · intro i hi
    rcases mem_ids_node.mp hi with rfl | ⟨j, hj⟩
    · exact .inl (by simp)
    · have hj : i = s.cellCount + j := by simpa using hj
      exact .inr ⟨by omega, by simp only [State.setCell]; have := j.isLt; omega⟩
  · intro i hi hne
    have hne : i ≠ p := by simpa using hne
    simp only [State.setCell, update_of_ne hne]
    exact spec.frame i (h.lt_count i hi) hne
  · intro par b k hend hrep
    have hat : (s.cells p).At par b k .free := hrep
    obtain ⟨j, rfl⟩ : ∃ j, k = j + 1 := by
      cases k with
      | zero => rw [hat.size_eq] at h2; simp [levelSize] at h2; unfold pageSize at h2; omega
      | succ j => exact ⟨j, rfl⟩
    have hquarter : (s.cells p).size / 4 = levelSize j := by
      rw [hat.size_eq, levelSize_succ]; omega
    refine ⟨j, rfl, ?_, fun i => ?_⟩
    · simp only [State.setCell, update_self]
      rw [spec.self]
      exact ⟨hat.parent_eq, hat.base_eq, hat.size_eq, rfl⟩
    · have := kid_range i j
      have hpos := levelSize_pos j
      refine ⟨by simpa [State.setCell] using (hkid i).1, ?_⟩
      simp only [State.setCell, Rep, update_of_ne (hnp i)]
      refine ⟨(hfresh i).1, ?_, (hkid i).2.2.trans hquarter, (hfresh i).2⟩
      rw [(hkid i).2.1, hquarter, hat.base_eq, u64_of_lt]
  · intro i hi hpar
    simp only [State.setCell] at hpar
    by_cases hip : i = p
    · subst hip
      rw [update_self, spec.self] at hpar
      exact ⟨hp, hpar⟩
    · rw [update_of_ne hip] at hpar
      by_cases hlt : i < s.cellCount
      · rw [spec.frame i hlt hip] at hpar
        exact ⟨hlt, hpar⟩
      · rw [(spec.fresh i (by omega) hi).1] at hpar
        exact absurd hpar (h.lt_noCell (Forest.sub_mem hr hu)).ne
  · intro i hi hst
    simp only [State.setCell] at hst
    by_cases hip : i = p
    · exact .inl (by simp [hip, splitTree])
    · rw [update_of_ne hip] at hst
      by_cases hlt : i < s.cellCount
      · rw [spec.frame i hlt hip] at hst
        exact .inr ⟨by simpa using hip, hlt, hst⟩
      · rw [(spec.fresh i (by omega) hi).2] at hst
        exact absurd hst (by simp)
  · rw [spec.rest]; rfl
  · intro i hi hne
    simp only [State.setCell, update_of_ne hne]
    exact spec.frame i hi hne
  · simpa [State.setCell] using (hkid 0).1
  · intro i
    simpa [State.setCell, hnp i] using (hkid i).2.2
  · have := hnp 0
    simp only [State.setCell]
    rwa [update_of_ne (by simpa using this)]

/-! ## The descent to the requested size -/

lemma Inv.parent_kid (h : Inv s F) (hr : r ∈ F.roots) {u : CellTree} (hu : Sub u (F.tree r))
    {kids : Fin 4 → CellTree} (hs : Sub (.node (s.cells u.id).parent kids) (F.tree r)) :
    ∃ i, (kids i).id = u.id := by
  rcases (h.rep r hr).parent hu with ⟨-, hp⟩ | ⟨ks, i, hks, rfl⟩
  · rw [hp] at hs
    exact absurd (hs.ids_subset (by simp)) (h.noCell_notMem hr)
  · have := (h.distinct r hr).sub_unique hs hks rfl
    cases this
    exact ⟨i, rfl⟩

/-- The parent of a cell of one tree occurs in no other tree. -/
theorem Inv.parent_other (h : Inv s F) {q : Nat} (hr : r ∈ F.roots) (hq : q ∈ F.roots) (hqr : q ≠ r)
    {u : CellTree} (hu : Sub u (F.tree r)) : (s.cells u.id).parent ∉ (F.tree q).ids := by
  intro hm
  rcases (h.rep r hr).parent hu with ⟨-, hp⟩ | ⟨ks, i, hks, -⟩
  · rw [hp] at hm
    exact h.noCell_notMem hq hm
  · exact h.notMem_sub hr hq hqr hks hm (by simp)

/-- Taking a cell and giving it back change the mark of its leaf. -/
theorem Replaces.mark (h : Inv s F) {i : Nat} {a b : Bool} {c : Cell}
    (hcells : s'.cells = update s.cells i c) (hcount : s'.cellCount = s.cellCount)
    (hc : c.parent = (s.cells i).parent ∧ c.base = (s.cells i).base ∧ c.size = (s.cells i).size ∧
      c.state = leafState b) : Replaces s s' F (.leaf i a) (.leaf i b) := by
  obtain ⟨h1, h2, h3, h4⟩ := hc
  refine ⟨rfl, trivial, hcount.ge, hcount ▸ h.count_le, fun j hj => .inl hj, ?_, ?_, ?_, ?_⟩
  · intro j _ hne
    rw [hcells, update_of_ne (by simpa using hne)]
  · rintro par b k - ⟨hp, hb, hk, -⟩
    simp only [Rep, hcells, update_self]
    exact ⟨h1.trans hp, h2.trans hb, h3.trans hk, h4⟩
  · intro j hj hpar
    refine ⟨hcount ▸ hj, ?_⟩
    by_cases hji : j = i
    · subst hji; simpa [hcells, h1] using hpar
    · simpa [hcells, hji] using hpar
  · intro j hj hst
    by_cases hji : j = i
    · exact .inl (by simp [hji])
    · exact .inr ⟨by simpa using hji, hcount ▸ hj, by simpa [hcells, hji] using hst⟩

/-- The allocator at work: `found` is a free leaf of the tree of root `r`, large enough,
at address `base`, and the parent of `found` may be full. -/
structure Holding (s : State) (F : Forest) (r found base req : Nat) : Prop where
  inv : Inv s F
  accounts : Accounts s F (s.cells found).parent
  root_mem : r ∈ F.roots
  leaf : Sub (.leaf found false) (F.tree r)
  base_eq : (s.cells found).base = base
  req_le : req ≤ (s.cells found).size

/-- A step that changes nothing but cells that are not in use. -/
structure KeepsUsed (s s' : State) : Prop where
  rest : s' = { s with cells := s'.cells, cellCount := s'.cellCount }
  count_le : s.cellCount ≤ s'.cellCount
  used : ∀ i < s.cellCount, (s.cells i).state = .used → s'.cells i = s.cells i
  used_old : ∀ i < s'.cellCount, (s'.cells i).state = .used →
    i < s.cellCount ∧ (s.cells i).state = .used

lemma KeepsUsed.refl (s : State) : KeepsUsed s s :=
  ⟨rfl, le_rfl, fun _ _ _ => rfl, fun _ hi hst => ⟨hi, hst⟩⟩

lemma KeepsUsed.trans {s'' : State} (h : KeepsUsed s s') (g : KeepsUsed s' s'') :
    KeepsUsed s s'' where
  rest := by rw [g.rest, h.rest]
  count_le := h.count_le.trans g.count_le
  used i hi hst := by
    have he := h.used i hi hst
    rw [g.used i (lt_of_lt_of_le hi h.count_le) (by rw [he]; exact hst), he]
  used_old i hi hst := by
    obtain ⟨hi, hst⟩ := g.used_old i hi hst
    exact h.used_old i hi hst

section Holding

variable {base req : Nat}

section

variable (w : Holding s F r found base req)
include w

lemma Holding.leaf_at : ∃ par k, (s.cells found).At par base k .free := by
  obtain ⟨par, b, k, hrep, -⟩ := (w.inv.rep r w.root_mem).sub w.leaf
  have hat : (s.cells found).At par b k .free := hrep
  obtain rfl := hat.base_eq.symm.trans w.base_eq
  exact ⟨par, k, hat⟩

lemma Holding.mem_ids : found ∈ F.ids := Forest.sub_mem w.root_mem w.leaf

lemma Holding.not_used : (s.cells found).state ≠ .used := by
  obtain ⟨par, k, hat⟩ := w.leaf_at
  rw [hat.state_eq]; simp

/-- A replacement of the leaf at hand by a tree without used cells leaves the used cells
and the free bytes alone. -/
theorem Holding.replace {q : Nat} (hw : Replaces s s' F (.leaf found false) t)
    (hrest : s' = { s with cells := s'.cells, cellCount := s'.cellCount })
    (hframe : ∀ i < s.cellCount, i ≠ found → s'.cells i = s.cells i)
    (hfree : ∀ i ∈ t.ids, (s'.cells i).state ≠ .used)
    (htight : TightOff q ((F.tree r).subst found t)) :
    Inv s' (F.subst r found t) ∧ Accounts s' (F.subst r found t) q ∧ KeepsUsed s s' := by
  refine ⟨w.inv.subst w.root_mem w.leaf hw, ?_, hrest, hw.count_le, ?_, ?_⟩
  · refine w.accounts.subst w.inv w.root_mem w.leaf hw (by rw [hrest]) ?_
      (fun q hq hqr => w.inv.parent_other w.root_mem hq hqr w.leaf) htight
    obtain ⟨par, b, k, hrep, hlo, hhi⟩ := (w.inv.rep r w.root_mem).sub w.leaf
    have := w.inv.end_le r w.root_mem
    have hold := hrep.sum_free trivial fun i hi => by
      rw [ids_leaf, Finset.mem_singleton] at hi
      exact hi ▸ w.not_used
    rw [hold, (hw.rep par b k (by omega) hrep).sum_free hw.distinct hfree, hrest]
  · exact fun i hi hst => hframe i hi fun he => w.not_used (he ▸ hst)
  · intro i hi hst
    rcases hw.used i hi hst with hm | ⟨-, hlt, hold⟩
    · exact absurd hst (hfree i hm)
    · exact ⟨hlt, hold⟩

lemma Holding.split_failed (hc : cellSplit s found = (false, s')) :
    (∃ F', Holding s' F' r found base req) ∧ KeepsUsed s s' := by
  obtain ⟨hw, hrest, hframe, hself⟩ := cellSplit_failed w.inv w.root_mem w.leaf hc
  have hsame : (F.tree r).subst found (.leaf found false) = F.tree r :=
    (w.inv.distinct r w.root_mem).subst_self w.leaf
  have hstate : (s'.cells found).state = (s.cells found).state := by rw [hself]
  obtain ⟨hinv, hacc, hdesc⟩ := w.replace hw hrest hframe
    (by simpa [hstate] using w.not_used) (by rw [hsame]; exact w.accounts.tight r w.root_mem)
  refine ⟨⟨_, hinv, ?_, w.root_mem, ?_, ?_, ?_⟩, hdesc⟩
  · rw [hself]; exact hacc
  · rw [Forest.subst_tree, hsame]; exact w.leaf
  · rw [hself]; exact w.base_eq
  · rw [hself]; exact w.req_le

lemma Holding.split_done (hreq : req ≤ (s.cells found).size / 4)
    (hc : cellSplit s found = (true, s')) :
    (∃ F', Holding s' F' r ((s'.cells found).children 0) base req) ∧ KeepsUsed s s' := by
  obtain ⟨hw, hrest, hframe, hchild, hsize, hbase⟩ :=
    cellSplit_done w.inv w.root_mem w.leaf hc
  have hdist := w.inv.distinct r w.root_mem
  obtain ⟨par, b, k, hrep, hlo, hhi⟩ := (w.inv.rep r w.root_mem).sub w.leaf
  obtain ⟨j, -, hat, hkids⟩ := hw.rep par b k (hhi.trans (w.inv.end_le r w.root_mem)) hrep
  have hkid : ∀ i : Fin 4, (s'.cells (s.cellCount + i)).At found (b + i * levelSize j) j .free :=
    fun i => (hkids i).2
  have hfree : ∀ i ∈ (splitTree s found).ids, (s'.cells i).state ≠ .used := by
    intro i hi
    rcases mem_ids_node.mp hi with rfl | ⟨l, hl⟩
    · rw [hat.state_eq]; simp
    · rw [ids_leaf, Finset.mem_singleton] at hl
      rw [hl, (hkid l).state_eq]; simp
  have htight : TightOff found ((F.tree r).subst found (splitTree s found)) :=
    TightOff.subst_busy (r := splitTree s found) (w.accounts.tight r w.root_mem)
      ⟨.inl rfl, fun _ => trivial⟩ (by simp [splitTree])
      fun kids hs => w.inv.parent_kid w.root_mem w.leaf hs
  obtain ⟨hinv, hacc, hdesc⟩ := w.replace hw hrest hframe hfree htight
  rw [hchild]
  refine ⟨⟨_, hinv, ?_, w.root_mem, ?_, hbase.1.trans w.base_eq, ?_⟩, hdesc⟩
  · have := (hkid 0).parent_eq
    rw [Fin.val_zero, add_zero] at this
    rwa [this]
  · rw [Forest.subst_tree]
    refine Sub.trans ?_ (hdist.sub_subst w.leaf (splitTree s found))
    exact .kid found _ 0 (.refl _)
  · have := hsize 0
    rw [Fin.val_zero, add_zero] at this
    rwa [this]

/-- The descent ends at a free leaf that is large enough, whether or not the pool ran out
on the way. -/
theorem Holding.splitDown (fuel : Nat) :
    (∃ F', Holding (splitDown fuel s found req).2 F' r (splitDown fuel s found req).1 base req) ∧
      KeepsUsed s (splitDown fuel s found req).2 := by
  induction fuel generalizing s F found with
  | zero => exact ⟨⟨F, w⟩, .refl s⟩
  | succ fuel ih =>
    unfold splitDown
    split_ifs with hc
    · split
      · next s1 heq => exact w.split_failed heq
      · next s1 heq =>
        obtain ⟨⟨F1, w1⟩, hd1⟩ := w.split_done hc.1 heq
        obtain ⟨hF2, hd2⟩ := ih w1
        exact ⟨hF2, hd1.trans hd2⟩
    · exact ⟨⟨F, w⟩, .refl s⟩

/-- The descent stops by itself: fuel beyond the level of the cell is never used. -/
theorem Holding.splitDown_fuel {fuel : Nat} (hk : (s.cells found).size = levelSize k)
    (hf : k ≤ fuel) : Pmm.splitDown fuel s found req = Pmm.splitDown k s found req := by
  induction k generalizing s F found fuel with
  | zero =>
    have : ¬ pageSize * 4 ≤ (s.cells found).size := by
      rw [hk]; simp [levelSize, pageSize]
    cases fuel <;> simp [Pmm.splitDown, this]
  | succ k ih =>
    obtain ⟨fuel, rfl⟩ : ∃ n, fuel = n + 1 := ⟨fuel - 1, by omega⟩
    simp only [Pmm.splitDown]
    split_ifs with hc
    · split
      · rfl
      · next s1 heq =>
        obtain ⟨⟨F1, w1⟩, -⟩ := w.split_done hc.1 heq
        obtain ⟨-, -, -, hchild, hsize, -⟩ := cellSplit_done w.inv w.root_mem w.leaf heq
        refine ih w1 ?_ (by omega)
        have := hsize 0
        rw [Fin.val_zero, add_zero] at this
        rw [hchild, this, hk, levelSize_succ]; omega
    · rfl

/-! ## Taking the cell -/

lemma Holding.size_le_free : (s.cells found).size ≤ s.freeMem ∧ s.freeMem < 2 ^ 64 := by
  obtain ⟨par, k, hat⟩ := w.leaf_at
  constructor
  · rw [w.accounts.free_eq]
    have : (s.cells found).size = (s.cells found).freeBytes := by
      simp [Cell.freeBytes, hat.state_eq]
    rw [this]
    exact Finset.single_le_sum (f := fun i => (s.cells i).freeBytes) (fun _ _ => Nat.zero_le _)
      w.mem_ids
  · rw [w.accounts.free_eq]
    refine lt_of_le_of_lt ?_ w.inv.sum_roots_lt
    rw [← w.inv.sum_leaves]
    exact Finset.sum_le_sum fun i _ => Nat.le_add_right _ _

lemma Holding.takeCell (idx : Nat) :
    Inv (takeCell s idx found) (F.subst r found (.leaf found true)) ∧
      Accounts (takeCell s idx found) (F.subst r found (.leaf found true)) noCell := by
  obtain ⟨par, k, hat⟩ := w.leaf_at
  obtain ⟨hle, hlt⟩ := w.size_le_free
  have hw : Replaces s (Pmm.takeCell s idx found) F (.leaf found false) (.leaf found true) :=
    .mark w.inv rfl rfl ⟨rfl, rfl, rfl, rfl⟩
  refine ⟨w.inv.subst w.root_mem w.leaf hw, ?_⟩
  refine w.accounts.subst w.inv w.root_mem w.leaf hw rfl ?_
    (fun q hq hqr => w.inv.parent_other w.root_mem hq hqr w.leaf) ?_
  · simp only [Pmm.takeCell, ids_leaf, Finset.sum_singleton, Cell.freeBytes, hat.state_eq,
      update_self, sub64_of_le hle hlt]
    simp only [if_true, if_false, reduceCtorEq]
    omega
  · exact TightOff.subst_busy (r := .leaf found true) (w.accounts.tight r w.root_mem) trivial
      (by simp) fun kids hs => w.inv.parent_kid w.root_mem w.leaf hs

end

end Holding

/-! ## The search -/

section Search

variable {minSize : Nat}

lemma findFreeCellZone_free (fuel : Nat) (hst : (s.cells p).state = .free) :
    findFreeCellZone (fuel + 1) s p minSize zone strict =
      if minSize ≤ (s.cells p).size ∧
        ¬ (strict ∧ zoneLimit zone < u64 ((s.cells p).base + minSize)) then p else noCell := by
  rw [findFreeCellZone, hst]
  by_cases h1 : minSize ≤ (s.cells p).size <;>
    by_cases h2 : strict = true ∧ zoneLimit zone < u64 ((s.cells p).base + minSize) <;>
    simp [h2]

lemma findFreeCellZone_used (fuel : Nat) (hst : (s.cells p).state = .used) :
    findFreeCellZone (fuel + 1) s p minSize zone strict = noCell := by
  rw [findFreeCellZone, hst]

lemma findFreeCellZone_split (fuel : Nat) (hst : (s.cells p).state = .split)
    (hne : findFreeCellZone (fuel + 1) s p minSize zone strict ≠ noCell) :
    ∃ i, findFreeCellZone (fuel + 1) s p minSize zone strict =
      findFreeCellZone fuel s ((s.cells p).children i) minSize zone strict := by
  rw [findFreeCellZone, hst] at hne ⊢
  simp only at hne
  generalize hs : findSome? _ _ = o at hne
  cases o with
  | none => exact absurd rfl hne
  | some q =>
    obtain ⟨i, -, hi⟩ := exists_of_findSome?_eq_some hs
    split_ifs at hi
    exact ⟨i, (Option.some.inj hi).symm⟩

lemma findFreeCellZone_sound (fuel : Nat) {parent base : Nat} (h : Rep s.cells t parent base k)
    (hf : findFreeCellZone fuel s t.id minSize zone strict = found) (hne : found ≠ noCell) :
    Sub (.leaf found false) t ∧ minSize ≤ (s.cells found).size := by
  induction fuel generalizing t parent base k with
  | zero => exact absurd hf.symm hne
  | succ fuel ih =>
    cases t with
    | leaf p used =>
      have hat : (s.cells p).At parent base k (leafState used) := h
      cases used with
      | true =>
        rw [id_leaf, findFreeCellZone_used fuel hat.state_eq] at hf
        exact absurd hf.symm hne
      | false =>
        rw [id_leaf, findFreeCellZone_free fuel hat.state_eq] at hf
        split_ifs at hf with h1
        · subst hf; exact ⟨.refl _, h1.1⟩
        · exact absurd hf.symm hne
    | node p kids =>
      obtain ⟨j, -, hat, hkids⟩ := h
      rw [id_node] at hf
      obtain ⟨i, hi⟩ := findFreeCellZone_split fuel hat.state_eq (by rw [hf]; exact hne)
      rw [hf, (hkids i).1] at hi
      obtain ⟨hsub, hsize⟩ := ih (hkids i).2 hi.symm
      exact ⟨.kid p kids i hsub, hsize⟩

/-- Fuel beyond the level of the tree is never used by the search. -/
theorem findFreeCellZone_fuel {parent base fuel : Nat} (h : Rep s.cells t parent base k)
    (hf : k < fuel) :
    findFreeCellZone fuel s t.id minSize zone strict =
      findFreeCellZone (k + 1) s t.id minSize zone strict := by
  induction t generalizing parent base k fuel with
  | leaf p used =>
    obtain ⟨fuel, rfl⟩ : ∃ n, fuel = n + 1 := ⟨fuel - 1, by omega⟩
    have hat : (s.cells p).At parent base k (leafState used) := h
    cases used with
    | true => rw [id_leaf, findFreeCellZone_used _ hat.state_eq,
      findFreeCellZone_used _ hat.state_eq]
    | false => rw [id_leaf, findFreeCellZone_free _ hat.state_eq,
      findFreeCellZone_free _ hat.state_eq]
  | node p kids ih =>
    obtain ⟨fuel, rfl⟩ : ∃ n, fuel = n + 1 := ⟨fuel - 1, by omega⟩
    obtain ⟨j, rfl, hat, hkids⟩ := h
    have hi : ∀ i, findFreeCellZone fuel s ((s.cells p).children i) minSize zone strict =
        findFreeCellZone (j + 1) s ((s.cells p).children i) minSize zone strict := fun i => by
      rw [(hkids i).1]
      exact ih i (hkids i).2 (by omega)
    rw [id_node, findFreeCellZone, findFreeCellZone]
    simp [hi]

end Search

lemma scanRoots_sound (h : Inv s F) {req : Nat}
    (hs : scanRoots s req zone strict = some (idx, found)) :
    idx ∈ F.roots ∧ Sub (.leaf found false) (F.tree idx) ∧ req ≤ (s.cells found).size := by
  obtain ⟨i, hi, he⟩ := exists_of_findSome?_eq_some hs
  have hlt : (s.lastUsedCell + i) % s.cellCount < s.cellCount :=
    Nat.mod_lt _ (by have := mem_range.mp hi; omega)
  dsimp only at he
  split_ifs at he with hpar hf
  obtain ⟨rfl, rfl⟩ := Prod.mk.inj (Option.some.inj he)
  have hr := h.root_mem _ hlt (not_not.mp hpar)
  obtain ⟨hsub, hsize⟩ := findFreeCellZone_sound cellPoolSize (h.rep _ hr)
    (by rw [h.root_id _ hr]) hf
  exact ⟨hr, hsub, hsize⟩

lemma Holding.of_scan (h : Inv s F) (a : Accounts s F noCell) {req : Nat}
    (hs : scanRoots s req zone strict = some (idx, found)) :
    Holding s F idx found (s.cells found).base req ∧ 0 < (s.cells found).base := by
  obtain ⟨hr, hsub, hsize⟩ := scanRoots_sound h hs
  have hquiet : ∀ r ∈ F.roots, TightOff (s.cells found).parent (F.tree r) := fun r hr =>
    (a.tight r hr).all (h.noCell_notMem hr)
  have hlo := ((h.rep idx hr).sub_range hsub).1
  exact ⟨⟨h, ⟨a.free_eq, a.total_eq, hquiet⟩, hr, hsub, rfl, hsize⟩,
    lt_of_lt_of_le (h.base_pos idx hr) hlo⟩

/-- A pass either finds nothing and changes nothing, or takes a cell reached by a descent. -/
theorem allocPass_cases (h : Inv s F) (a : Accounts s F noCell) {count result : Nat}
    (he : allocPass s count zone strict = (result, s')) :
    (result = 0 ∧ s' = s) ∨ ∃ s1 F1 r found, 0 < result ∧ KeepsUsed s s1 ∧
      Holding s1 F1 r found result (u64 (count * pageSize)) ∧ s' = takeCell s1 r found := by
  unfold allocPass at he
  dsimp only at he
  cases hs : scanRoots s (u64 (count * pageSize)) zone strict with
  | none => rw [hs] at he; exact .inl ⟨(Prod.mk.inj he).1.symm, (Prod.mk.inj he).2.symm⟩
  | some pr =>
    obtain ⟨idx, found⟩ := pr
    rw [hs] at he
    obtain ⟨w, hpos⟩ := Holding.of_scan h a hs
    obtain ⟨⟨F1, w1⟩, hd⟩ := w.splitDown cellPoolSize
    obtain ⟨rfl, rfl⟩ := Prod.mk.inj he
    refine .inr ⟨_, F1, idx, _, ?_, hd, ?_, rfl⟩
    · rw [w1.base_eq]; exact hpos
    · rw [w1.base_eq]; exact w1

end YamKernel.Pmm

import Mathlib.Algebra.BigOperators.Fin
import Mathlib.Algebra.Order.BigOperators.Group.Finset
import YamKernel.Mem.Pmm.Forest

/-!
# Byte accounting over the forest

The leaves of a tree add up to its root, so the free and the used bytes of the forest
add up to the sizes of the roots. Roots are disjoint ranges of 64-bit addresses that
leave address 0 out, hence no counter of the allocator ever wraps.

`TightOff q` is the second half of full merging: no SPLIT cell other than possibly `q`
has four free children. An allocation and a free pass through states in which the
parent of the cell at hand is such a `q`.
-/

namespace YamKernel.Pmm

open Lib QuadTree Finset

variable {F : Forest} {q q' : Nat} {r t : CellTree} {s : State}

def Cell.freeBytes (c : Cell) : Nat := if c.state = .free then c.size else 0
def Cell.usedBytes (c : Cell) : Nat := if c.state = .used then c.size else 0

variable {cells : Nat → Cell} {base k p parent : Nat} {u : CellTree} {kids : Fin 4 → CellTree}

lemma Rep.sum_leaves (h : Rep cells t parent base k)
    (hd : t.Distinct) : ∑ i ∈ t.ids, ((cells i).freeBytes + (cells i).usedBytes) = levelSize k := by
  induction t generalizing parent base k with
  | leaf p used =>
    have hat : (cells p).At parent base k (leafState used) := h
    cases used <;>
      simp [Cell.freeBytes, Cell.usedBytes, hat.state_eq, hat.size_eq, leafState]
  | node p kids ih =>
    obtain ⟨j, rfl, hat, hkids⟩ := h
    have hp : p ∉ univ.biUnion fun i => (kids i).ids := by
      simpa using hd.1.1
    rw [ids, sum_insert hp, sum_biUnion fun i _ l _ hil => hd.1.2 i l hil,
      sum_congr rfl fun i _ => ih i (hkids i).2 (hd.kid i)]
    simp [Cell.freeBytes, Cell.usedBytes, hat.state_eq, levelSize_succ]

/-- A tree without used cells is free in full. -/
theorem Rep.sum_free (h : Rep cells t parent base k)
    (hd : t.Distinct) (hfree : ∀ i ∈ t.ids, (cells i).state ≠ .used) :
    ∑ i ∈ t.ids, (cells i).freeBytes = levelSize k := by
  rw [← h.sum_leaves hd]
  exact sum_congr rfl fun i hi => by simp [Cell.usedBytes, hfree i hi]

lemma Inv.sum_leaves (h : Inv s F) :
    ∑ i ∈ F.ids, ((s.cells i).freeBytes + (s.cells i).usedBytes) =
      ∑ r ∈ F.roots, (s.cells r).size := by
  rw [Forest.ids, sum_biUnion fun r hr q hq hne => h.disjoint r hr q hq hne]
  refine sum_congr rfl fun r hr => ?_
  rw [(h.rep r hr).sum_leaves (h.distinct r hr)]
  obtain ⟨st, hat⟩ := h.root_at hr
  exact hat.size_eq.symm

/-- Disjoint roots that leave address 0 out fit into 64 bits. -/
theorem Inv.sum_roots_lt (h : Inv s F) : ∑ r ∈ F.roots, (s.cells r).size < 2 ^ 64 := by
  have hrange : ∀ r ∈ F.roots, ∀ a,
      a ∈ Ico (s.cells r).base ((s.cells r).base + (s.cells r).size) →
        1 ≤ a ∧ a < 2 ^ 64 := by
    intro r hr a ha
    obtain ⟨st, hat⟩ := h.root_at hr
    have := h.base_pos r hr
    have := h.end_le r hr
    rw [mem_Ico, hat.size_eq] at ha
    omega
  have hdisj : ∀ r ∈ F.roots, ∀ q ∈ F.roots, r ≠ q →
      Disjoint (Ico (s.cells r).base ((s.cells r).base + (s.cells r).size))
        (Ico (s.cells q).base ((s.cells q).base + (s.cells q).size)) := by
    intro r hr q hq hne
    rw [disjoint_left]
    intro a ha hb
    rw [mem_Ico] at ha hb
    have := h.apart r hr q hq hne
    unfold Cell.Apart at this
    omega
  have hcard := card_biUnion hdisj
  simp only [Nat.card_Ico, Nat.add_sub_cancel_left] at hcard
  have hsub : (F.roots.biUnion fun r =>
      Ico (s.cells r).base ((s.cells r).base + (s.cells r).size)) ⊆
        Ico 1 (2 ^ 64) := by
    intro a ha
    obtain ⟨r, hr, ha⟩ := mem_biUnion.mp ha
    exact mem_Ico.mpr (hrange r hr a ha)
  have := card_le_card hsub
  rw [Nat.card_Ico] at this
  omega

/-- Sums over the forest under a replacement. -/
theorem Inv.sum_subst (h : Inv s F) {r : Nat} (hr : r ∈ F.roots)
    (hu : Sub u (F.tree r)) (hfresh : ∀ i ∈ t.ids, i ∈ F.ids → i ∈ u.ids) {f g : Nat → Nat}
    (hfg : ∀ i ∈ F.ids, i ∉ u.ids → g i = f i) :
    ∑ i ∈ (F.subst r u.id t).ids, g i + ∑ i ∈ u.ids, f i =
      ∑ i ∈ F.ids, f i + ∑ i ∈ t.ids, g i := by
  have hsub : u.ids ⊆ F.ids := fun i hi =>
    Forest.mem_ids.mpr ⟨r, hr, hu.ids_subset hi⟩
  have heq : (F.subst r u.id t).ids = (F.ids \ u.ids) ∪ t.ids := by
    ext i
    rw [h.mem_ids_subst hr t hu, mem_union, mem_sdiff]
  have hdisj : Disjoint (F.ids \ u.ids) t.ids := by
    rw [disjoint_left]
    intro i hi ht
    rw [mem_sdiff] at hi
    exact hi.2 (hfresh i ht hi.1)
  have : ∑ i ∈ F.ids \ u.ids, g i = ∑ i ∈ F.ids \ u.ids, f i :=
    sum_congr rfl fun i hi =>
      hfg i (mem_sdiff.mp hi).1 (mem_sdiff.mp hi).2
  rw [heq, sum_union hdisj, ← sum_sdiff hsub]
  omega

/-! ## Full merging -/

/-- Four free children: the state a merge removes. -/
def FullFree (kids : Fin 4 → CellTree) : Prop := ∀ i, kids i = .leaf (kids i).id false

def TightOff (q : Nat) (t : CellTree) : Prop :=
  t.AllNodes fun p kids => p = q ∨ ¬ FullFree kids

lemma TightOff.all (h : TightOff q t) (hq : q ∉ t.ids) : TightOff q' t := by
  refine AllNodes.mono h fun p kids hs hp => ?_
  rcases hp with rfl | hp
  · exact absurd (hs.ids_subset (by simp)) hq
  · exact .inr hp

/-- A tight tree without a used leaf is a single free cell. -/
theorem TightOff.eq_leaf (h : TightOff q t) (hq : q ∉ t.ids) (hfree : ∀ p, ¬ Sub (.leaf p true) t) :
    t = .leaf t.id false := by
  induction t with
  | leaf p used =>
    cases used with
    | false => rfl
    | true => exact absurd (.refl _) (hfree p)
  | node p kids ih =>
    rw [mem_ids_node, not_or, not_exists] at hq
    have hkids : FullFree kids := fun i =>
      ih i (h.2 i) (hq.2 i) fun p' hs => hfree p' (.kid p kids i hs)
    rcases h.1 with rfl | h1
    · exact absurd rfl hq.1
    · exact absurd hkids h1

lemma eq_leaf_of_subst {a : Nat} (hr : r ≠ .leaf r.id false) (h : t.subst r.id r = .leaf a false) :
    t = .leaf a false := by
  cases t with
  | leaf q used =>
    by_cases hq : q = r.id
    · rw [subst_of_id_eq (by simpa using hq)] at h
      exact absurd (by rw [h]; rfl) hr
    · simpa [subst, hq] using h
  | node q kids =>
    by_cases hq : q = r.id
    · rw [subst_of_id_eq (by simpa using hq)] at h
      exact absurd (by rw [h]; rfl) hr
    · simp [subst, hq] at h

/-- Putting anything but a free leaf below a node makes no full node. -/
theorem FullFree.of_subst (hr : r ≠ .leaf r.id false)
    (h : FullFree fun i => (kids i).subst r.id r) : FullFree kids := fun i => by
  have hi := h i
  rw [id_subst rfl] at hi
  exact eq_leaf_of_subst hr hi

/-- A substitution strictly below the children of a node makes no full node. -/
theorem FullFree.of_subst_below (hne : ∀ i, (kids i).id ≠ p)
    (h : FullFree fun i => (kids i).subst p r) : FullFree kids := fun i => by
  have hi := h i
  have hp := hne i
  cases hk : kids i with
  | leaf q used => simpa [hk, subst, show q ≠ p by simpa [hk] using hp] using hi
  | node q ks => simp [hk, subst, show q ≠ p by simpa [hk] using hp] at hi

/-- Replacing a child of `q` by something that is not a free leaf. -/
theorem TightOff.subst_busy (h : TightOff q t) (hr : TightOff q' r) (hbusy : r ≠ .leaf r.id false)
    (hq : ∀ kids, Sub (.node q kids) t → ∃ i, (kids i).id = r.id) :
    TightOff q' (t.subst r.id r) := by
  refine AllNodes.subst h hr ?_
  rintro p kids hs - (rfl | hp)
  · obtain ⟨i, hi⟩ := hq kids hs
    refine .inr fun hfull => hbusy ?_
    have : (kids i).subst r.id r = .leaf ((kids i).subst r.id r).id false := hfull i
    rwa [subst_of_id_eq hi] at this
  · exact .inr fun hfull => hp (hfull.of_subst hbusy)

/-- Replacing a subtree by a free leaf can only make its parent `q` full. -/
theorem TightOff.subst_free (h : TightOff p t)
    (hq : ∀ p' kids, Sub (.node p' kids) t → p' ≠ q → ∀ i, (kids i).id ≠ p) :
    TightOff q (t.subst p (.leaf p false)) := by
  refine AllNodes.subst h trivial ?_
  intro p' kids hs hne hp'
  by_cases hpq : p' = q
  · exact .inl hpq
  · exact .inr fun hfull =>
      hp'.elim hne fun hn => hn (hfull.of_subst_below (hq p' kids hs hpq))

/-- The counters of the allocator, with no full node except possibly `q`. -/
structure Accounts (s : State) (F : Forest) (q : Nat) : Prop where
  free_eq : s.freeMem = ∑ i ∈ F.ids, (s.cells i).freeBytes
  total_eq : s.totalMem = ∑ r ∈ F.roots, (s.cells r).size
  tight : ∀ r ∈ F.roots, TightOff q (F.tree r)

/-- A replacement keeps the counters when the free bytes it moves are counted. -/
theorem Accounts.subst {s' : State} {r : Nat}
    (a : Accounts s F q) (h : Inv s F) (hr : r ∈ F.roots) (hu : Sub u (F.tree r))
    (w : Replaces s s' F u t) (htotal : s'.totalMem = s.totalMem)
    (hfree : s'.freeMem + ∑ i ∈ u.ids, (s.cells i).freeBytes =
      s.freeMem + ∑ i ∈ t.ids, (s'.cells i).freeBytes)
    (hother : ∀ p ∈ F.roots, p ≠ r → q ∉ (F.tree p).ids)
    (htight : TightOff q' ((F.tree r).subst u.id t)) :
    Accounts s' (F.subst r u.id t) q' where
  free_eq := by
    have := h.sum_subst hr hu
      (g := fun i => (s'.cells i).freeBytes) (fun i => w.mem_sub h)
      fun i hi hn => by rw [w.frame i hi hn]
    have := a.free_eq
    omega
  total_eq := by
    rw [htotal, a.total_eq]
    exact sum_congr rfl fun p hp => (w.root_range h hr hu hp).2.symm
  tight p hp := by
    by_cases hpr : p = r
    · subst hpr; rw [Forest.subst_tree]; exact htight
    · rw [Forest.subst_tree_of_ne _ _ _ hpr]
      exact (a.tight p hp).all (hother p hp hpr)

end YamKernel.Pmm

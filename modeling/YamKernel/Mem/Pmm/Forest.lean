import Mathlib.Tactic.Linarith
import Mathlib.Tactic.Ring
import YamKernel.Lib.QuadTree
import YamKernel.Mem.Pmm.Model

/-!
# The cell pool as a forest of quad trees

`Rep cells t parent base k` reads a quad tree out of the pool: the tree's identities
are cell indices, a node is a SPLIT cell whose children are those of the tree, and a
cell at level `k` is a range of `4096 * 4 ^ k` bytes. A leaf says nothing about the
`children` array of its cell, which an abandoned split leaves half filled.

`Inv` is the invariant of the allocator. Cells outside the forest exist: the children
of merged cells stay behind as RESERVED with their parent index, and the children of
an abandoned split stay behind as FREE. What keeps them harmless is that every root
and every USED cell belongs to the forest.
-/

namespace YamKernel.Pmm

open Lib QuadTree Finset Nat

/-- Trees of cell indices; the mark of a leaf says whether the cell is in use. -/
abbrev CellTree := QuadTree Nat Bool

def levelSize (k : Nat) : Nat := pageSize * 4 ^ k

lemma levelSize_succ (k : Nat) : levelSize (k + 1) = 4 * levelSize k := by
  unfold levelSize; ring

lemma pageSize_le_levelSize (k : Nat) : pageSize ≤ levelSize k :=
  Nat.le_mul_of_pos_right _ (Nat.pow_pos (by decide))

lemma levelSize_pos (k : Nat) : 0 < levelSize k :=
  lt_of_lt_of_le (by decide) (pageSize_le_levelSize k)

lemma levelSize_inj {j k : Nat} (h : levelSize j = levelSize k) : j = k :=
  Nat.pow_right_injective (by decide) (Nat.eq_of_mul_eq_mul_left (by decide) h)

lemma kid_range (i : Fin 4) (k : Nat) : i * levelSize k + levelSize k ≤ levelSize (k + 1) := by
  rw [levelSize_succ]
  have := mul_le_mul_right (levelSize k) i.isLt
  linarith

lemma kids_apart {i l : Fin 4} (h : i ≠ l) (k : Nat) :
    i * levelSize k + levelSize k ≤ l * levelSize k ∨
      l * levelSize k + levelSize k ≤ i * levelSize k := by
  simp only [← succ_mul]
  rcases lt_or_gt_of_ne (fun he => h (Fin.ext he)) with hlt | hlt
  · exact .inl (mul_le_mul_right _ (succ_le_of_lt hlt))
  · exact .inr (mul_le_mul_right _ (succ_le_of_lt hlt))

/-- A cell that fits into the address space is at most 26 levels above a page. -/
theorem level_le {k : Nat} (h : levelSize k ≤ 2 ^ 64) : k ≤ 26 := by
  by_contra hk
  have h1 : 4 ^ 27 ≤ 4 ^ k := Nat.pow_le_pow_right (by decide) (by omega)
  have h2 : pageSize * 4 ^ 27 ≤ levelSize k := mul_le_mul_left _ h1
  exact absurd (h2.trans h) (by decide)

structure Cell.At (c : Cell) (parent base k : Nat) (st : CellState) : Prop where
  parent_eq : c.parent = parent
  base_eq : c.base = base
  size_eq : c.size = levelSize k
  state_eq : c.state = st

def leafState (used : Bool) : CellState := if used then .used else .free

def Rep (cells : Nat → Cell) : CellTree → (parent base k : Nat) → Prop
  | .leaf p used, parent, base, k => (cells p).At parent base k (leafState used)
  | .node p kids, parent, base, k => ∃ j, k = j + 1 ∧ (cells p).At parent base k .split ∧
      ∀ i : Fin 4, (cells p).children i = (kids i).id ∧
        Rep cells (kids i) p (base + i * levelSize j) j

section

variable {cells cells' : Nat → Cell} {u r t : CellTree} {base k p q par : Nat}
  (h : Rep cells t par base k)
include h

lemma Rep.frame (he : ∀ i ∈ t.ids, cells' i = cells i) : Rep cells' t par base k := by
  induction t generalizing par base k with
  | leaf p used => rw [Rep, he p (by simp)]; exact h
  | node p kids ih =>
    obtain ⟨j, hj, hat, hkids⟩ := h
    have hp := he p (by simp)
    refine ⟨j, hj, hp ▸ hat, fun i => ⟨by rw [hp]; exact (hkids i).1, ?_⟩⟩
    exact ih i (hkids i).2 fun q hq => he q (mem_ids_node.mpr (.inr ⟨i, hq⟩))

lemma Rep.root :
    ∃ st, (cells t.id).At par base k st ∧
      (st = .used ↔ t = .leaf t.id true) ∧ (st = .free ↔ t = .leaf t.id false) ∧
      (st = .split ↔ ∃ kids, t = .node t.id kids) ∧ st ≠ .reserved := by
  cases t with
  | leaf p used => exact ⟨_, h, by cases used <;> simp [leafState]⟩
  | node p kids =>
    obtain ⟨j, -, hat, -⟩ := h
    exact ⟨_, hat, by simp⟩

/-- A subtree is represented inside the range of the tree. -/
theorem Rep.sub (hu : Sub u t) :
    ∃ parent' base' k', Rep cells u parent' base' k' ∧
      base ≤ base' ∧ base' + levelSize k' ≤ base + levelSize k := by
  induction hu generalizing par base k with
  | refl => exact ⟨par, base, k, h, le_rfl, le_rfl⟩
  | kid p kids i _ ih =>
    obtain ⟨j, rfl, -, hkids⟩ := h
    obtain ⟨parent', base', k', hr, hlo, hhi⟩ := ih (hkids i).2
    have := kid_range i j
    exact ⟨parent', base', k', hr, by omega, by omega⟩

lemma Rep.sub_aligned (hu : Sub u t) (ha : pageSize ∣ base) : pageSize ∣ (cells u.id).base := by
  induction hu generalizing par base k with
  | refl =>
    obtain ⟨st, hat, -⟩ := h.root
    rw [hat.base_eq]; exact ha
  | kid p kids i _ ih =>
    obtain ⟨j, rfl, -, hkids⟩ := h
    exact ih (hkids i).2 (Nat.dvd_add ha (Dvd.dvd.mul_left (dvd_mul_right _ _) _))

lemma Rep.parent (hu : Sub u t) :
    (u = t ∧ (cells u.id).parent = par) ∨
      ∃ kids i, Sub (.node (cells u.id).parent kids) t ∧ kids i = u := by
  induction hu generalizing par base k with
  | refl =>
    obtain ⟨st, hat, -⟩ := h.root
    exact .inl ⟨rfl, hat.parent_eq⟩
  | kid p kids i _ ih =>
    obtain ⟨j, -, -, hkids⟩ := h
    refine .inr ?_
    rcases ih (hkids i).2 with ⟨rfl, hp⟩ | ⟨ks, l, hs, hl⟩
    · exact ⟨kids, i, hp ▸ .refl _, rfl⟩
    · exact ⟨ks, l, .kid p kids i hs, hl⟩

lemma Rep.kid_parent {kids : Fin 4 → CellTree}
    (hs : Sub (.node p kids) t) (i : Fin 4) : (cells (kids i).id).parent = p := by
  obtain ⟨_, _, _, ⟨j, -, -, hkids⟩, -⟩ := h.sub hs
  obtain ⟨st, hat, -⟩ := (hkids i).2.root
  exact hat.parent_eq

/-- Replacing a subtree, where the pool changed only below it. -/
theorem Rep.subst (hd : t.Distinct) (hu : Sub u t) (hid : r.id = u.id)
    (hframe : ∀ i ∈ t.ids, i ∉ u.ids → cells' i = cells i)
    (hnew : ∀ parent' base' k', base ≤ base' → base' + levelSize k' ≤ base + levelSize k →
      Rep cells u parent' base' k' → Rep cells' r parent' base' k') :
    Rep cells' (t.subst u.id r) par base k := by
  induction hu generalizing par base k with
  | refl => rw [subst_of_id_eq rfl]; exact hnew _ _ _ le_rfl le_rfl h
  | kid p kids i hi ih =>
    obtain ⟨j, rfl, hat, hkids⟩ := h
    have hp : cells' p = cells p :=
      hframe p (by simp) fun hm => hd.1.1 i (hi.ids_subset hm)
    rw [subst_node_of_ne (hd.kid_id_ne hi)]
    refine ⟨j, rfl, hp ▸ hat, fun l => ⟨by rw [hp, (hkids l).1, id_subst hid], ?_⟩⟩
    by_cases hl : l = i
    · subst hl
      refine ih (hkids l).2 (hd.kid l)
        (fun q hq => hframe q (mem_ids_node.mpr (.inr ⟨l, hq⟩))) ?_
      intro parent' base' k' hlo hhi
      have := kid_range l j
      exact hnew parent' base' k' (by omega) (by omega)
    · beta_reduce
      rw [hd.subst_other hi hl]
      refine (hkids l).2.frame fun q hq => hframe q (mem_ids_node.mpr (.inr ⟨l, hq⟩)) ?_
      exact fun hm => disjoint_left.mp (hd.1.2 i l (symm hl)) (hi.ids_subset hm) hq

/-! ## Ranges -/

def Cell.Apart (c d : Cell) : Prop := c.base + c.size ≤ d.base ∨ d.base + d.size ≤ c.base

lemma Rep.sub_range (hu : Sub u t) :
    base ≤ (cells u.id).base ∧
      (cells u.id).base + (cells u.id).size ≤ base + levelSize k := by
  obtain ⟨parent', base', k', hr, hlo, hhi⟩ := h.sub hu
  obtain ⟨st, hat, -⟩ := hr.root
  rw [hat.base_eq, hat.size_eq]
  exact ⟨hlo, hhi⟩

lemma Rep.leaves_apart {a b : Bool}
    (hp : Sub (.leaf p a) t) (hq : Sub (.leaf q b) t) (hne : p ≠ q) :
    (cells p).Apart (cells q) := by
  induction t generalizing par base k with
  | leaf r c =>
    have h1 := sub_leaf hp
    have h2 := sub_leaf hq
    exact absurd (congrArg QuadTree.id (h1.trans h2.symm)) hne
  | node r kids ih =>
    obtain ⟨j, rfl, -, hkids⟩ := h
    cases hp with
    | kid _ _ i hi =>
    cases hq with
    | kid _ _ l hl =>
      by_cases hil : i = l
      · subst hil
        exact ih i (hkids i).2 hi hl
      · have hri := (hkids i).2.sub_range hi
        have hrl := (hkids l).2.sub_range hl
        simp only [id_leaf] at hri hrl
        have := kids_apart hil j
        unfold Cell.Apart
        omega

end

/-! ## The invariant -/

structure Forest where
  roots : Finset Nat
  tree : Nat → CellTree
  level : Nat → Nat

def Forest.ids (F : Forest) : Finset Nat := F.roots.biUnion fun r => (F.tree r).ids

variable {s s' : State} {F : Forest} {r q i : Nat} {u t : CellTree}

lemma Forest.mem_ids : i ∈ F.ids ↔ ∃ r ∈ F.roots, i ∈ (F.tree r).ids := mem_biUnion

/-- Replace, in the tree of root `r`, the subtree at `p`. -/
def Forest.subst (F : Forest) (r p : Nat) (t : CellTree) : Forest :=
  { F with tree := Function.update F.tree r ((F.tree r).subst p t) }

@[simp] theorem Forest.subst_roots (F : Forest) (r p : Nat) (t : CellTree) :
    (F.subst r p t).roots = F.roots := rfl
@[simp] theorem Forest.subst_tree (F : Forest) (r p : Nat) (t : CellTree) :
    (F.subst r p t).tree r = (F.tree r).subst p t := by simp [subst]
lemma Forest.subst_tree_of_ne (F : Forest) (p : Nat) (t : CellTree) (h : q ≠ r) :
    (F.subst r p t).tree q = F.tree q := by simp [subst, h]

structure Inv (s : State) (F : Forest) : Prop where
  count_le : s.cellCount ≤ cellPoolSize
  root_id : ∀ r ∈ F.roots, (F.tree r).id = r
  rep : ∀ r ∈ F.roots, Rep s.cells (F.tree r) noCell (s.cells r).base (F.level r)
  distinct : ∀ r ∈ F.roots, (F.tree r).Distinct
  disjoint : ∀ r ∈ F.roots, ∀ q ∈ F.roots, r ≠ q → Disjoint (F.tree r).ids (F.tree q).ids
  lt_count : ∀ i ∈ F.ids, i < s.cellCount
  root_mem : ∀ i < s.cellCount, (s.cells i).parent = noCell → i ∈ F.roots
  used_mem : ∀ i < s.cellCount, (s.cells i).state = .used → i ∈ F.ids
  base_pos : ∀ r ∈ F.roots, 0 < (s.cells r).base
  aligned : ∀ r ∈ F.roots, pageSize ∣ (s.cells r).base
  end_le : ∀ r ∈ F.roots, (s.cells r).base + levelSize (F.level r) ≤ 2 ^ 64
  apart : ∀ r ∈ F.roots, ∀ q ∈ F.roots, r ≠ q → (s.cells r).Apart (s.cells q)

lemma Inv.root_at (h : Inv s F) (hr : r ∈ F.roots) :
    ∃ st, (s.cells r).At noCell (s.cells r).base (F.level r) st := by
  obtain ⟨st, hat, -⟩ := (h.rep r hr).root
  rw [h.root_id r hr] at hat
  exact ⟨st, hat⟩

lemma Forest.sub_mem (hr : r ∈ F.roots) (hu : Sub u (F.tree r)) : u.id ∈ F.ids :=
  mem_ids.mpr ⟨r, hr, hu.ids_subset (id_mem_ids u)⟩

section

variable (h : Inv s F)
include h

lemma Inv.root_lt (hr : r ∈ F.roots) : r < s.cellCount ∧ (s.cells r).parent = noCell := by
  obtain ⟨_, hat⟩ := h.root_at hr
  have := Forest.sub_mem hr (.refl _)
  rw [h.root_id r hr] at this
  exact ⟨h.lt_count r this, hat.parent_eq⟩

lemma Inv.cell (hi : i ∈ F.ids) :
    ∃ r ∈ F.roots, ∃ u par b k, Rep s.cells u par b k ∧ Sub u (F.tree r) ∧ u.id = i := by
  obtain ⟨r, hr, hm⟩ := Forest.mem_ids.mp hi
  obtain ⟨u, hu, rfl⟩ := mem_ids_iff.mp hm
  obtain ⟨par, b, k, hrep, -⟩ := (h.rep r hr).sub hu
  exact ⟨r, hr, u, par, b, k, hrep, hu, rfl⟩

lemma Inv.size_at (hi : i ∈ F.ids) : ∃ k ≤ 26, (s.cells i).size = levelSize k := by
  obtain ⟨r, hr, u, _, _, k, hrep, hu, rfl⟩ := h.cell hi
  obtain ⟨_, hat, -⟩ := hrep.root
  obtain ⟨-, hhi⟩ := (h.rep r hr).sub_range hu
  have := h.end_le r hr
  rw [hat.size_eq] at hhi
  exact ⟨k, level_le (by omega), hat.size_eq⟩

/-- A cell that is FREE or USED is a leaf. -/
theorem Inv.leaf_mem (hi : i ∈ F.ids) {b : Bool}
    (hst : (s.cells i).state = leafState b) : ∃ r ∈ F.roots, Sub (.leaf i b) (F.tree r) := by
  obtain ⟨r, hr, u, _, _, _, hrep, hu, rfl⟩ := h.cell hi
  obtain ⟨_, hat, hused, hfree, -⟩ := hrep.root
  have hst := hat.state_eq.symm.trans hst
  refine ⟨r, hr, ?_⟩
  cases b with
  | false => rwa [hfree.mp hst] at hu
  | true => rwa [hused.mp hst] at hu

lemma Inv.lt_noCell (hi : i ∈ F.ids) : i < noCell := by
  have := h.lt_count i hi
  have h2 := h.count_le
  unfold cellPoolSize at h2
  unfold noCell
  omega

lemma Inv.noCell_notMem (hr : r ∈ F.roots) : noCell ∉ (F.tree r).ids := fun hm =>
  lt_irrefl _ (h.lt_noCell (Forest.mem_ids.mpr ⟨r, hr, hm⟩))

/-- The identities of the trees of other roots are not among those of a subtree. -/
theorem Inv.notMem_sub (hr : r ∈ F.roots) (hq : q ∈ F.roots) (hqr : q ≠ r)
    (hu : Sub u (F.tree r)) (hi : i ∈ (F.tree q).ids) : i ∉ u.ids := fun hm =>
  disjoint_left.mp (h.disjoint q hq r hr hqr) hi (hu.ids_subset hm)

lemma Inv.mem_ids_subst (hr : r ∈ F.roots) (t : CellTree)
    (hu : Sub u (F.tree r)) : i ∈ (F.subst r u.id t).ids ↔ (i ∈ F.ids ∧ i ∉ u.ids) ∨ i ∈ t.ids := by
  have hdis := h.distinct r hr
  rw [Forest.mem_ids]
  constructor
  · rintro ⟨q, hq, hi⟩
    by_cases hqr : q = r
    · subst hqr
      rw [Forest.subst_tree, hdis.mem_ids_subst hu] at hi
      exact hi.imp (fun hi => ⟨Forest.mem_ids.mpr ⟨q, hq, hi.1⟩, hi.2⟩) fun hi => hi
    · rw [Forest.subst_tree_of_ne _ _ _ hqr] at hi
      exact .inl ⟨Forest.mem_ids.mpr ⟨q, hq, hi⟩, h.notMem_sub hr hq hqr hu hi⟩
  · rintro (⟨hi, hni⟩ | hi)
    · obtain ⟨q, hq, hi⟩ := Forest.mem_ids.mp hi
      refine ⟨q, hq, ?_⟩
      by_cases hqr : q = r
      · subst hqr
        rw [Forest.subst_tree, hdis.mem_ids_subst hu]; exact .inl ⟨hi, hni⟩
      · rw [Forest.subst_tree_of_ne _ _ _ hqr]; exact hi
    · exact ⟨r, hr, by rw [Forest.subst_tree, hdis.mem_ids_subst hu]; exact .inr hi⟩

end

/-- The one update every operation makes: a subtree `u` of the tree of root `r` is
replaced by `t`, and the pool changed only in cells of `u` and in cells outside the
forest. -/
structure Replaces (s s' : State) (F : Forest) (u t : CellTree) : Prop where
  id_eq : t.id = u.id
  distinct : t.Distinct
  count_le : s.cellCount ≤ s'.cellCount
  pool : s'.cellCount ≤ cellPoolSize
  fresh : ∀ i ∈ t.ids, i ∈ u.ids ∨ s.cellCount ≤ i ∧ i < s'.cellCount
  frame : ∀ i ∈ F.ids, i ∉ u.ids → s'.cells i = s.cells i
  rep : ∀ parent base k, base + levelSize k ≤ 2 ^ 64 → Rep s.cells u parent base k →
    Rep s'.cells t parent base k
  root : ∀ i < s'.cellCount, (s'.cells i).parent = noCell →
    i < s.cellCount ∧ (s.cells i).parent = noCell
  used : ∀ i < s'.cellCount, (s'.cells i).state = .used →
    i ∈ t.ids ∨ i ∉ u.ids ∧ i < s.cellCount ∧ (s.cells i).state = .used

section

variable (w : Replaces s s' F u t)
include w

lemma Replaces.mem_sub (h : Inv s F) (hi : i ∈ t.ids) (hm : i ∈ F.ids) : i ∈ u.ids := by
  rcases w.fresh i hi with hi | hi
  · exact hi
  · have := h.lt_count i hm; omega

section

variable (h : Inv s F) (hr : r ∈ F.roots) (hu : Sub u (F.tree r)) (hq : q ∈ F.roots)
include h hr hu hq

lemma Replaces.root_at :
    ((F.subst r u.id t).tree q).id = q ∧
    Rep s'.cells ((F.subst r u.id t).tree q) noCell (s.cells q).base (F.level q) := by
  by_cases hqr : q = r
  · subst hqr
    rw [Forest.subst_tree]
    refine ⟨(id_subst w.id_eq).trans (h.root_id q hq), (h.rep q hq).subst (h.distinct q hq) hu
      w.id_eq (fun i hi => w.frame i (Forest.mem_ids.mpr ⟨q, hq, hi⟩)) ?_⟩
    intro parent base k _ hhi
    exact w.rep parent base k (hhi.trans (h.end_le q hq))
  · rw [Forest.subst_tree_of_ne _ _ _ hqr]
    exact ⟨h.root_id q hq, (h.rep q hq).frame fun i hi =>
      w.frame i (Forest.mem_ids.mpr ⟨q, hq, hi⟩) (h.notMem_sub hr hq hqr hu hi)⟩

lemma Replaces.root_range :
    (s'.cells q).base = (s.cells q).base ∧ (s'.cells q).size = (s.cells q).size := by
  obtain ⟨hid, hrep⟩ := w.root_at h hr hu hq
  obtain ⟨st, hat, -⟩ := hrep.root
  rw [hid] at hat
  obtain ⟨_, hat'⟩ := h.root_at hq
  exact ⟨hat.base_eq, hat.size_eq.trans hat'.size_eq.symm⟩

lemma Replaces.disjoint (hqr : q ≠ r) : Disjoint ((F.tree r).subst u.id t).ids (F.tree q).ids := by
  rw [disjoint_left]
  intro i hi hm
  rcases ((h.distinct r hr).mem_ids_subst hu).mp hi with ⟨hi, -⟩ | hi
  · exact disjoint_left.mp (h.disjoint r hr q hq (symm hqr)) hi hm
  · exact h.notMem_sub hr hq hqr hu hm (w.mem_sub h hi (Forest.mem_ids.mpr ⟨q, hq, hm⟩))

end

end

lemma Inv.subst (h : Inv s F) (hr : r ∈ F.roots) (hu : Sub u (F.tree r)) (w : Replaces s s' F u t) :
    Inv s' (F.subst r u.id t) where
  count_le := w.pool
  root_id q hq := (w.root_at h hr hu hq).1
  rep q hq := by
    rw [(w.root_range h hr hu hq).1]
    exact (w.root_at h hr hu hq).2
  distinct q hq := by
    by_cases hqr : q = r
    · subst hqr
      rw [Forest.subst_tree]
      exact (h.distinct q hq).subst hu w.distinct fun i hi hm =>
        w.mem_sub h hi (Forest.mem_ids.mpr ⟨q, hq, hm⟩)
    · rw [Forest.subst_tree_of_ne _ _ _ hqr]; exact h.distinct q hq
  disjoint q hq q' hq' hne := by
    by_cases hqr : q = r
    · subst hqr
      rw [Forest.subst_tree, Forest.subst_tree_of_ne _ _ _ (symm hne)]
      exact w.disjoint h hr hu hq' (symm hne)
    · rw [Forest.subst_tree_of_ne _ _ _ hqr]
      by_cases hqr' : q' = r
      · subst hqr'
        rw [Forest.subst_tree]; exact (w.disjoint h hr hu hq hqr).symm
      · rw [Forest.subst_tree_of_ne _ _ _ hqr']; exact h.disjoint q hq q' hq' hne
  lt_count i hi := by
    have hle := w.count_le
    rcases (h.mem_ids_subst hr t hu).mp hi with ⟨hi, -⟩ | hi
    · exact lt_of_lt_of_le (h.lt_count i hi) hle
    · rcases w.fresh i hi with hi | hi
      · exact lt_of_lt_of_le
          (h.lt_count i (Forest.mem_ids.mpr ⟨r, hr, hu.ids_subset hi⟩)) hle
      · exact hi.2
  root_mem i hi hp := by
    obtain ⟨hi, hp⟩ := w.root i hi hp
    exact h.root_mem i hi hp
  used_mem i hi hst := by
    rw [h.mem_ids_subst hr t hu]
    rcases w.used i hi hst with hi | ⟨hni, hi, hst⟩
    · exact .inr hi
    · exact .inl ⟨h.used_mem i hi hst, hni⟩
  base_pos q hq := by rw [(w.root_range h hr hu hq).1]; exact h.base_pos q hq
  aligned q hq := by rw [(w.root_range h hr hu hq).1]; exact h.aligned q hq
  end_le q hq := by rw [(w.root_range h hr hu hq).1]; exact h.end_le q hq
  apart q hq q' hq' hne := by
    have h1 := w.root_range h hr hu hq
    have h2 := w.root_range h hr hu hq'
    have := h.apart q hq q' hq' hne
    unfold Cell.Apart at ⊢
    rwa [h1.1, h1.2, h2.1, h2.2]

end YamKernel.Pmm

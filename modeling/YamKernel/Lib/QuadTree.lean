import Mathlib.Data.Finset.Lattice.Fold
import Mathlib.Data.Finset.Union
import Mathlib.Data.Fintype.Basic

/-!
# Quad trees with node identities

A tree whose inner nodes have exactly four children and whose nodes carry an
identity, such as an index into a pool. Leaves carry a mark. An update of the
structure that such a tree describes replaces one subtree, so `subst` is the only
edit, and every law below is a law of `subst`.

`Distinct` says that no identity occurs twice. It makes "the subtree at `p`"
well defined, and it is what lets a pool write be framed away from the rest of
the tree.
-/

namespace YamKernel.Lib

inductive QuadTree (ι μ : Type*) where
  | leaf (id : ι) (mark : μ)
  | node (id : ι) (kids : Fin 4 → QuadTree ι μ)

namespace QuadTree

variable {ι μ : Type*}

def id : QuadTree ι μ → ι
  | .leaf p _ => p
  | .node p _ => p

@[simp] theorem id_leaf (p : ι) (m : μ) : (leaf p m).id = p := rfl
@[simp] theorem id_node (p : ι) (kids : Fin 4 → QuadTree ι μ) : (node p kids).id = p := rfl

/-- `Sub u t`: `u` is `t` itself or a subtree below it. -/
inductive Sub : QuadTree ι μ → QuadTree ι μ → Prop where
  | refl (t : QuadTree ι μ) : Sub t t
  | kid {u : QuadTree ι μ} (p : ι) (kids : Fin 4 → QuadTree ι μ) (i : Fin 4) :
      Sub u (kids i) → Sub u (.node p kids)

variable {p q : ι} {m : μ} {r t u v : QuadTree ι μ} {kids : Fin 4 → QuadTree ι μ} {i j : Fin 4}

lemma Sub.trans (h : Sub u v) (g : Sub v t) : Sub u t := by
  induction g with
  | refl => exact h
  | kid p kids i _ ih => exact .kid p kids i ih

lemma sub_leaf (h : Sub u (.leaf p m)) : u = .leaf p m := by
  cases h; rfl

/-- Every inner node satisfies `P`, where `P` sees the identity and the children. -/
def AllNodes (P : ι → (Fin 4 → QuadTree ι μ) → Prop) : QuadTree ι μ → Prop
  | .leaf _ _ => True
  | .node p kids => P p kids ∧ ∀ i, (kids i).AllNodes P

variable {P Q : ι → (Fin 4 → QuadTree ι μ) → Prop}

lemma AllNodes.mono (h : t.AllNodes P)
    (hpq : ∀ p kids, Sub (.node p kids) t → P p kids → Q p kids) : t.AllNodes Q := by
  induction t with
  | leaf => trivial
  | node p kids ih =>
    exact ⟨hpq p kids (.refl _) h.1,
      fun i => ih i (h.2 i) fun q ks hs => hpq q ks (.kid p kids i hs)⟩

lemma AllNodes.sub (h : t.AllNodes P)
    (hu : Sub u t) : u.AllNodes P := by
  induction hu with
  | refl => exact h
  | kid p kids i _ ih => exact ih (h.2 i)

variable [DecidableEq ι]

def ids : QuadTree ι μ → Finset ι
  | .leaf p _ => {p}
  | .node p kids => insert p (Finset.univ.biUnion fun i => (kids i).ids)

@[simp] theorem ids_leaf (p : ι) (m : μ) : (leaf p m).ids = {p} := rfl

@[simp] theorem mem_ids_node :
    q ∈ (node p kids).ids ↔ q = p ∨ ∃ i, q ∈ (kids i).ids := by
  simp [ids]

@[simp] theorem id_mem_ids (t : QuadTree ι μ) : t.id ∈ t.ids := by
  cases t <;> simp

lemma mem_ids_iff : p ∈ t.ids ↔ ∃ u, Sub u t ∧ u.id = p := by
  constructor
  · intro h
    induction t with
    | leaf q m => exact ⟨_, .refl _, by simpa using (Finset.mem_singleton.mp h).symm⟩
    | node q kids ih =>
      rcases mem_ids_node.mp h with rfl | ⟨i, hi⟩
      · exact ⟨_, .refl _, rfl⟩
      · obtain ⟨u, hu, he⟩ := ih i hi
        exact ⟨u, .kid q kids i hu, he⟩
  · rintro ⟨u, hu, rfl⟩
    induction hu with
    | refl => exact id_mem_ids u
    | kid p kids i _ ih => exact mem_ids_node.mpr (.inr ⟨i, ih⟩)

lemma Sub.ids_subset (h : Sub u t) : u.ids ⊆ t.ids := by
  intro p hp
  obtain ⟨v, hv, he⟩ := mem_ids_iff.mp hp
  exact mem_ids_iff.mpr ⟨v, hv.trans h, he⟩

def Distinct : QuadTree ι μ → Prop :=
  AllNodes fun p kids => (∀ i, p ∉ (kids i).ids) ∧
    ∀ i j, i ≠ j → Disjoint (kids i).ids (kids j).ids

lemma Distinct.sub (h : t.Distinct) (hu : Sub u t) : u.Distinct :=
  AllNodes.sub h hu

lemma Distinct.kid (h : (node p kids).Distinct) (i : Fin 4) :
    (kids i).Distinct := h.2 i

/-- In a distinct tree an identity below a child is not the identity of the node. -/
theorem Distinct.kid_id_ne
    (h : (node p kids).Distinct) (hu : Sub u (kids i)) : p ≠ u.id := fun he =>
  h.1.1 i (he ▸ hu.ids_subset (id_mem_ids u))

/-- In a distinct tree a subtree is determined by its identity. -/
theorem Distinct.sub_unique (h : t.Distinct) (hu : Sub u t) (hv : Sub v t)
    (he : u.id = v.id) : u = v := by
  induction t with
  | leaf => rw [sub_leaf hu, sub_leaf hv]
  | node p kids ih =>
    cases hu with
    | refl =>
      cases hv with
      | refl => rfl
      | kid _ _ i hi => exact absurd he (h.kid_id_ne hi)
    | kid _ _ i hi =>
      cases hv with
      | refl => exact absurd he.symm (h.kid_id_ne hi)
      | kid _ _ j hj =>
        by_cases hij : i = j
        · subst hij
          exact ih i (h.2 i) hi hj
        · have := Finset.disjoint_left.mp (h.1.2 i j hij) (hi.ids_subset (id_mem_ids u))
          exact absurd (he ▸ hj.ids_subset (id_mem_ids v)) this

/-- Replace the subtree with identity `p` by `r`. -/
def subst : QuadTree ι μ → ι → QuadTree ι μ → QuadTree ι μ
  | .leaf q m, p, r => if q = p then r else .leaf q m
  | .node q kids, p, r => if q = p then r else .node q fun i => (kids i).subst p r

lemma subst_of_id_eq (h : t.id = p) : t.subst p r = r := by
  cases t <;> simp_all [subst]

lemma subst_node_of_ne (h : q ≠ p) :
    (node q kids).subst p r = .node q fun i => (kids i).subst p r := by
  simp [subst, h]

lemma subst_of_notMem (h : p ∉ t.ids) : t.subst p r = t := by
  induction t with
  | leaf q m =>
    have : q ≠ p := by rintro rfl; simp at h
    simp [subst, this]
  | node q kids ih =>
    rw [mem_ids_node, not_or, not_exists] at h
    rw [subst_node_of_ne (symm h.1)]
    congr 1
    funext i
    exact ih i (h.2 i)

lemma id_subst (hr : r.id = p) : (t.subst p r).id = t.id := by
  cases t <;> simp only [subst] <;> split_ifs with h <;> simp [hr, h]

/-- A substitution below one child of a distinct node leaves the other children alone. -/
theorem Distinct.subst_other
    (h : (node p kids).Distinct) (hu : Sub u (kids i)) (hj : j ≠ i) (r : QuadTree ι μ) :
    (kids j).subst u.id r = kids j :=
  subst_of_notMem fun hm => Finset.disjoint_left.mp (h.1.2 i j (symm hj))
    (hu.ids_subset (id_mem_ids u)) hm

lemma Distinct.subst_self (h : t.Distinct) (hu : Sub u t) :
    t.subst u.id u = t := by
  induction hu with
  | refl => exact subst_of_id_eq rfl
  | kid p kids i hi ih =>
    rw [subst_node_of_ne (h.kid_id_ne hi)]
    congr 1
    funext j
    by_cases hji : j = i
    · subst hji; exact ih (h.kid j)
    · exact h.subst_other hi hji u

lemma Distinct.sub_subst (h : t.Distinct) (hu : Sub u t) (r : QuadTree ι μ) :
    Sub r (t.subst u.id r) := by
  induction hu with
  | refl => rw [subst_of_id_eq rfl]; exact .refl r
  | kid p kids i hi ih =>
    rw [subst_node_of_ne (h.kid_id_ne hi)]
    exact .kid p _ i (ih (h.kid i))

/-- The identities after a substitution: those of the replaced subtree are gone. -/
theorem Distinct.mem_ids_subst (h : t.Distinct) (hu : Sub u t) :
    q ∈ (t.subst u.id r).ids ↔ (q ∈ t.ids ∧ q ∉ u.ids) ∨ q ∈ r.ids := by
  induction hu with
  | refl => rw [subst_of_id_eq rfl]; simp
  | kid p kids i hi ih =>
    have hsub := hi.ids_subset
    rw [subst_node_of_ne (h.kid_id_ne hi), mem_ids_node, mem_ids_node]
    have other := fun j hj => h.subst_other (j := j) hi hj r
    constructor
    · rintro (rfl | ⟨j, hj⟩)
      · exact .inl ⟨.inl rfl, fun hq => h.1.1 i (hsub hq)⟩
      · by_cases hji : j = i
        · subst hji
          rcases (ih (h.2 j)).mp hj with ⟨h1, h2⟩ | h1
          · exact .inl ⟨.inr ⟨j, h1⟩, h2⟩
          · exact .inr h1
        · rw [other j hji] at hj
          exact .inl ⟨.inr ⟨j, hj⟩, fun hq =>
            Finset.disjoint_left.mp (h.1.2 i j (symm hji)) (hsub hq) hj⟩
    · rintro (⟨rfl | ⟨j, hj⟩, hq⟩ | hq)
      · exact .inl rfl
      · by_cases hji : j = i
        · subst hji
          exact .inr ⟨j, (ih (h.2 j)).mpr (.inl ⟨hj, hq⟩)⟩
        · exact .inr ⟨j, by rw [other j hji]; exact hj⟩
      · exact .inr ⟨i, (ih (h.2 i)).mpr (.inr hq)⟩

/-- Inner nodes after a substitution: those of the new subtree, and old ones whose
children may have changed. -/
theorem AllNodes.subst
    (h : t.AllNodes P) (hr : r.AllNodes Q)
    (hp : ∀ q kids, Sub (.node q kids) t → q ≠ p → P q kids → Q q fun i => (kids i).subst p r) :
    (t.subst p r).AllNodes Q := by
  induction t with
  | leaf q m =>
    simp only [QuadTree.subst]
    split_ifs
    · exact hr
    · trivial
  | node q kids ih =>
    by_cases hq : q = p
    · rw [subst_of_id_eq (by simpa using hq)]; exact hr
    · rw [subst_node_of_ne hq]
      exact ⟨hp q kids (.refl _) hq h.1,
        fun i => ih i (h.2 i) fun q' ks hs => hp q' ks (.kid q kids i hs)⟩

/-- Replacing a subtree by one with fresh identities keeps a tree distinct. -/
theorem Distinct.subst (h : t.Distinct) (hu : Sub u t) (hr : r.Distinct)
    (hfresh : ∀ q ∈ r.ids, q ∈ t.ids → q ∈ u.ids) : (t.subst u.id r).Distinct := by
  induction hu with
  | refl => rw [subst_of_id_eq rfl]; exact hr
  | kid p kids i hi ih =>
    have hsub := hi.ids_subset
    have other := fun j hj => h.subst_other (j := j) hi hj r
    have below : ∀ q ∈ ((kids i).subst u.id r).ids, q ∈ (node p kids).ids →
        q ∈ (kids i).ids := by
      intro q hq hqt
      rcases ((h.kid i).mem_ids_subst hi).mp hq with ⟨h1, -⟩ | h1
      · exact h1
      · exact hsub (hfresh q h1 hqt)
    rw [subst_node_of_ne (h.kid_id_ne hi)]
    refine ⟨⟨fun j => ?_, fun j k hjk => ?_⟩, fun j => ?_⟩ <;> beta_reduce
    · by_cases hji : j = i
      · subst hji
        exact fun hm => h.1.1 j (below p hm (mem_ids_node.mpr (.inl rfl)))
      · rw [other j hji]; exact h.1.1 j
    · -- At most one of the two children is the changed one.
      have apart : ∀ k, k ≠ i → Disjoint ((kids i).subst u.id r).ids (kids k).ids := by
        intro k hk
        rw [Finset.disjoint_left]
        intro q hq hqk
        exact Finset.disjoint_left.mp (h.1.2 i k (symm hk))
          (below q hq (mem_ids_node.mpr (.inr ⟨k, hqk⟩))) hqk
      by_cases hji : j = i
      · subst hji
        rw [other k (symm hjk)]; exact apart k (symm hjk)
      · rw [other j hji]
        by_cases hki : k = i
        · subst hki; exact (apart j hji).symm
        · rw [other k hki]; exact h.1.2 j k hjk
    · by_cases hji : j = i
      · subst hji
        exact ih (h.2 j) fun q hq hqk => hfresh q hq (mem_ids_node.mpr (.inr ⟨j, hqk⟩))
      · rw [other j hji]; exact h.2 j

end QuadTree

end YamKernel.Lib

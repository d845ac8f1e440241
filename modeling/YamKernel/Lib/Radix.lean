import Mathlib.Data.Set.Insert
import Mathlib.Tactic.Common

/-!
# Radix trees in a store

Nodes are addresses in a store; `next d t i` is the node that slot `i` of the node `t` at depth
`d` leads to. `node next r d n` is the node reached from the root `r` in `d` steps along the
digits of `n`. The trees below a set of roots are `Separate` when no node is reached in two
ways. What an update of the store does to the trees is then a matter of the one slot it
changes: `node_congr` when the slot leads where it did, `node_link` when it leads to a node
without successors that was in no tree.
-/

namespace YamKernel.Lib.Radix

open Option Nat

variable {α : Type*} {width : Nat} {next next' : Nat → α → Nat → Option α} {R : Set α}
  {r r' t new : α} {d n i : Nat}

/-- The node with number `n` among those at depth `d` below the root `r`. -/
def node (width : Nat) (next : Nat → α → Nat → Option α) (r : α) : Nat → Nat → Option α
  | 0, n => if n = 0 then some r else none
  | d + 1, n => (node width next r d (n / width)).bind fun t => next d t (n % width)

@[simp] theorem node_zero : node width next r 0 0 = some r := rfl

lemma node_succ : node width next r (d + 1) n =
    (node width next r d (n / width)).bind fun t => next d t (n % width) := rfl

lemma div_digit (hi : i < width) : (width * n + i) / width = n := by
  rw [mul_add_div (by omega), div_eq_of_lt hi, Nat.add_zero]

lemma mod_digit (hi : i < width) : (width * n + i) % width = i := by
  rw [mul_add_mod, mod_eq_of_lt hi]

lemma node_kid (hi : i < width) (ht : node width next r d n = some t) :
    node width next r (d + 1) (width * n + i) = next d t i := by
  rw [node_succ, div_digit hi, mod_digit hi, ht]
  rfl

lemma node_parent (ht : node width next r (d + 1) n = some t) :
    ∃ p, node width next r d (n / width) = some p ∧ next d p (n % width) = some t :=
  bind_eq_some_iff.mp ht

/-- Stores whose nodes lead to the same nodes have the same tree. -/
theorem node_congr
    (h : ∀ d n t, node width next r d n = some t → ∀ i < width, next' d t i = next d t i)
    (hw : 0 < width) (d n : Nat) : node width next' r d n = node width next r d n := by
  induction d generalizing n with
  | zero => rfl
  | succ d ih =>
    rw [node_succ, node_succ, ih]
    cases ht : node width next r d (n / width) with
    | none => rfl
    | some t => exact h d _ t ht _ (mod_lt _ hw)

/-- The nodes of the trees below the roots `R`. -/
def IsNode (width : Nat) (next : Nat → α → Nat → Option α) (R : Set α) (t : α) : Prop :=
  ∃ r ∈ R, ∃ d n, node width next r d n = some t

lemma isNode_congr (hn : ∀ r ∈ R, ∀ d n, node width next' r d n = node width next r d n) :
    IsNode width next' R t ↔ IsNode width next R t :=
  ⟨fun ⟨r, hr, d, n, ht⟩ => ⟨r, hr, d, n, (hn r hr d n).symm.trans ht⟩,
    fun ⟨r, hr, d, n, ht⟩ => ⟨r, hr, d, n, (hn r hr d n).trans ht⟩⟩

/-- No node is reached in two ways. -/
def Separate (width : Nat) (next : Nat → α → Nat → Option α) (R : Set α) : Prop :=
  ∀ r ∈ R, ∀ r' ∈ R, ∀ d n d' n' t, node width next r d n = some t →
    node width next r' d' n' = some t → r = r' ∧ d = d' ∧ n = n'

lemma Separate.congr (h : Separate width next R)
    (hn : ∀ r ∈ R, ∀ d n, node width next' r d n = node width next r d n) :
    Separate width next' R := by
  intro r hr r' hr' d n d' n' t ht ht'
  rw [hn r hr] at ht
  rw [hn r' hr'] at ht'
  exact h r hr r' hr' d n d' n' t ht ht'

/-- The store `next'` differs from `next` in slot `i` of the node `t` at depth `d`, which leads
nowhere in `next` and to the node `new` in `next'`; `new` has no successors. -/
structure Link (width : Nat) (next next' : Nat → α → Nat → Option α) (R : Set α) (d : Nat) (t : α)
    (i : Nat) (new : α) : Prop where
  free : next d t i = none
  linked : next' d t i = some new
  leaf : ∀ d, ∀ j < width, next' d new j = none
  same : ∀ d u, IsNode width next R u → ∀ j < width, ¬ (u = t ∧ j = i) → next' d u j = next d u j

/-- A link adds the one node and changes no other. -/
theorem node_link (hl : Link width next next' R d t i new) (hsep : Separate width next R)
    (hr : r ∈ R) (ht : node width next r d n = some t) (hi : i < width) (hr' : r' ∈ R) (d' n' : Nat)
    [Decidable (r' = r)] : node width next' r' d' n' =
      if r' = r ∧ d' = d + 1 ∧ n' = width * n + i then some new
      else node width next r' d' n' := by
  have hw : 0 < width := by omega
  have hkid : node width next r (d + 1) (width * n + i) = none := by rw [node_kid hi ht, hl.free]
  induction d' generalizing n' with
  | zero => simp [node]
  | succ d' ih =>
    rw [node_succ, ih]
    have hdm := div_add_mod n' width
    have hlt := mod_lt n' hw
    split_ifs with hpar hkids hkids
    · omega
    · -- Below the new node there is nothing, as there was before.
      obtain ⟨rfl, rfl, hn'⟩ := hpar
      rw [node_succ, hn', hkid]
      exact hl.leaf _ _ hlt
    · obtain ⟨rfl, hd, rfl⟩ := hkids
      obtain rfl : d' = d := by omega
      rw [div_digit hi, mod_digit hi, ht]
      exact hl.linked
    · rw [node_succ]
      cases hu : node width next r' d' (n' / width) with
      | none => rfl
      | some u =>
        refine hl.same d' u ⟨r', hr', d', _, hu⟩ _ hlt ?_
        rintro ⟨rfl, hmod⟩
        obtain ⟨rfl, rfl, hdiv⟩ := hsep r' hr' r hr _ _ _ _ u hu ht
        refine hkids ⟨rfl, rfl, ?_⟩
        rw [← hdiv, ← hmod]
        exact hdm.symm

section

variable (hsep : Separate width next R) (hl : Link width next next' R d t i new) (hr : r ∈ R)
  (ht : node width next r d n = some t) (hi : i < width)
include hsep hl hr ht hi

lemma Separate.link (hfresh : ¬ IsNode width next R new) : Separate width next' R := by
  classical
  intro a ha b hb d1 n1 d2 n2 u h1 h2
  rw [node_link hl hsep hr ht hi ha] at h1
  rw [node_link hl hsep hr ht hi hb] at h2
  split_ifs at h1 h2 with hc1 hc2
  · exact ⟨hc1.1.trans hc2.1.symm, hc1.2.1.trans hc2.2.1.symm, hc1.2.2.trans hc2.2.2.symm⟩
  · obtain rfl := some.inj h1
    exact absurd ⟨b, hb, d2, n2, h2⟩ hfresh
  · obtain rfl := some.inj h2
    exact absurd ⟨a, ha, d1, n1, h1⟩ hfresh
  · exact hsep a ha b hb d1 n1 d2 n2 u h1 h2

lemma isNode_link {u : α} :
    IsNode width next' R u ↔ IsNode width next R u ∨ u = new := by
  classical
  constructor
  · rintro ⟨r', hr', d', n', hu⟩
    rw [node_link hl hsep hr ht hi hr'] at hu
    split_ifs at hu
    · exact .inr (some.inj hu).symm
    · exact .inl ⟨r', hr', d', n', hu⟩
  · rintro (⟨r', hr', d', n', hu⟩ | rfl)
    · refine ⟨r', hr', d', n', ?_⟩
      rw [node_link hl hsep hr ht hi hr', if_neg, hu]
      rintro ⟨rfl, rfl, rfl⟩
      rw [node_kid hi ht, hl.free] at hu
      simp at hu
    · refine ⟨r, hr, d + 1, width * n + i, ?_⟩
      rw [node_link hl hsep hr ht hi hr, if_pos ⟨rfl, rfl, rfl⟩]

end

/-- A root without successors is alone in its tree. -/
theorem node_alone (hleaf : ∀ i < width, next 0 r i = none) (hw : 0 < width) (d n : Nat) :
    node width next r d n = if d = 0 ∧ n = 0 then some r else none := by
  cases d with
  | zero => simp [node]
  | succ d =>
    induction d generalizing n with
    | zero =>
      rw [node_succ]
      by_cases hn : n / width = 0
      · rw [hn]
        exact hleaf _ (mod_lt _ hw)
      · simp [node, hn]
    | succ d ih => rw [node_succ, ih]; rfl

lemma Separate.insert (hsep : Separate width next R) (hleaf : ∀ i < width, next 0 r i = none)
    (hw : 0 < width) (hfresh : ¬ IsNode width next R r) : Separate width next (insert r R) := by
  intro a ha b hb d n d' n' t ht ht'
  rcases ha with rfl | ha <;> rcases hb with rfl | hb
  · rw [node_alone hleaf hw] at ht ht'
    split_ifs at ht ht'
    exact ⟨rfl, by omega, by omega⟩
  · rw [node_alone hleaf hw] at ht
    split_ifs at ht
    obtain rfl := some.inj ht
    exact absurd ⟨b, hb, d', n', ht'⟩ hfresh
  · rw [node_alone hleaf hw] at ht'
    split_ifs at ht'
    obtain rfl := some.inj ht'
    exact absurd ⟨a, ha, d, n, ht⟩ hfresh
  · exact hsep a ha b hb d n d' n' t ht ht'

end YamKernel.Lib.Radix

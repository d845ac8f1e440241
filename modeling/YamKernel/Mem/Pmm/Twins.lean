import YamKernel.Mem.Pmm.Bounds

/-!
# States that serve requests alike

The forest is determined, up to the identities of its cells, by the roots and the ranges in
use. Two states with the same roots, the same ranges in use and the same cursor are `Twins`:
the search settles on the same range in both.
-/

namespace YamKernel.Pmm

open Lib QuadTree List Nat

/-! ## Trees with the same leaves -/

/-- Trees of one shape with the same leaves in use. -/
def Alike : CellTree → CellTree → Prop
  | .leaf _ a, .leaf _ b => a = b
  | .node _ kids, .node _ kids' => ∀ i, Alike (kids i) (kids' i)
  | _, _ => False

/-- A used leaf of the tree covers exactly the `n` bytes at `b`. -/
def InUse (cells : Nat → Cell) (t : CellTree) (b n : Nat) : Prop :=
  ∃ p, Sub (.leaf p true) t ∧ (cells p).base = b ∧ (cells p).size = n

section Alike

variable {cells cells' : Nat → Cell} {t t' : CellTree} {par par' base k : Nat}

variable {b n p : Nat} {kids : Fin 4 → CellTree}

lemma inUse_leaf {used : Bool} (h : Rep cells (.leaf p used) par base k) :
    InUse cells (.leaf p used) b n ↔ used = true ∧ b = base ∧ n = levelSize k := by
  have hat : (cells p).At par base k (leafState used) := h
  constructor
  · rintro ⟨q, hq, rfl, rfl⟩
    obtain ⟨rfl, hu⟩ := leaf.inj (sub_leaf hq)
    exact ⟨hu.symm, hat.base_eq, hat.size_eq⟩
  · rintro ⟨rfl, rfl, rfl⟩
    exact ⟨p, .refl _, hat.base_eq, hat.size_eq⟩

lemma inUse_node : InUse cells (.node p kids) b n ↔ ∃ i, InUse cells (kids i) b n := by
  constructor
  · rintro ⟨q, hq, hb⟩
    cases hq with
    | kid _ _ i hi => exact ⟨i, q, hi, hb⟩
  · rintro ⟨i, q, hq, hb⟩
    exact ⟨q, .kid p kids i hq, hb⟩

lemma InUse.range (h : InUse cells t b n) (hr : Rep cells t par base k) :
    base ≤ b ∧ b + n ≤ base + levelSize k ∧ 0 < n := by
  obtain ⟨p, hp, rfl, rfl⟩ := h
  obtain ⟨hlo, hhi⟩ := hr.sub_range hp
  obtain ⟨_, _, j, hrep, -⟩ := hr.sub hp
  have hat : (cells p).At _ _ j .used := hrep
  exact ⟨hlo, hhi, by rw [hat.size_eq]; exact levelSize_pos j⟩

/-- A tight node has a range in use below it, and none as large as itself. -/
theorem inUse_tight_node
    (h : Rep cells (.node p kids) par base k) (ht : TightOff noCell (.node p kids))
    (hn : noCell ∉ (node p kids).ids) :
    (∃ b n, InUse cells (.node p kids) b n) ∧ ¬ InUse cells (.node p kids) base (levelSize k) := by
  constructor
  · by_contra hnone
    have hleaf := ht.eq_leaf hn fun q hq => hnone ⟨_, _, q, hq, rfl, rfl⟩
    simp at hleaf
  · intro hin
    obtain ⟨i, hi⟩ := inUse_node.mp hin
    obtain ⟨j, rfl, -, hkids⟩ := h
    have hrange := hi.range (hkids i).2
    rw [levelSize_succ] at hrange
    omega

/-- Tight trees over the same range with the same ranges in use are alike. -/
theorem alike_of_inUse (h : Rep cells t par base k) (h' : Rep cells' t' par' base k)
    (ht : TightOff noCell t) (ht' : TightOff noCell t') (hn : noCell ∉ t.ids)
    (hn' : noCell ∉ t'.ids) (hsame : ∀ b n, InUse cells t b n ↔ InUse cells' t' b n) :
    Alike t t' := by
  induction t generalizing t' par par' base k with
  | leaf p used =>
    cases t' with
    | leaf q used' =>
      have he := hsame base (levelSize k)
      rw [inUse_leaf h, inUse_leaf h'] at he
      simp only [and_true] at he
      exact Bool.eq_iff_iff.mpr he
    | node q kids' =>
      obtain ⟨⟨b, n, hin⟩, hbig⟩ := inUse_tight_node h' ht' hn'
      have huse := (inUse_leaf h).mp ((hsame b n).mpr hin)
      exact absurd ((hsame _ _).mp ((inUse_leaf h).mpr ⟨huse.1, rfl, rfl⟩)) hbig
  | node p kids ih =>
    cases t' with
    | leaf q used' =>
      obtain ⟨⟨b, n, hin⟩, hbig⟩ := inUse_tight_node h ht hn
      have huse := (inUse_leaf h').mp ((hsame b n).mp hin)
      exact absurd ((hsame _ _).mpr ((inUse_leaf h').mpr ⟨huse.1, rfl, rfl⟩)) hbig
    | node q kids' =>
      obtain ⟨j, rfl, -, hkids⟩ := h
      obtain ⟨j', hj', -, hkids'⟩ := h'
      obtain rfl : j = j' := by omega
      -- A range lies below one child only, so the children agree one by one.
      have hone : ∀ {i l : Fin 4} {b n : Nat}, base + i * levelSize j ≤ b →
          b + n ≤ base + i * levelSize j + levelSize j → 0 < n → base + l * levelSize j ≤ b →
          b + n ≤ base + l * levelSize j + levelSize j → i = l := by
        intro i l b n h1 h2 h3 h4 h5
        by_contra hne
        have := kids_apart hne j
        omega
      intro i
      have hi : noCell ∉ (kids i).ids := fun hm => hn (mem_ids_node.mpr (.inr ⟨i, hm⟩))
      have hi' : noCell ∉ (kids' i).ids := fun hm => hn' (mem_ids_node.mpr (.inr ⟨i, hm⟩))
      refine ih i (hkids i).2 (hkids' i).2 (ht.2 i) (ht'.2 i) hi hi' fun b n => ?_
      constructor
      · intro hin
        obtain ⟨h1, h2, h3⟩ := hin.range (hkids i).2
        obtain ⟨l, hl⟩ := inUse_node.mp ((hsame b n).mp (inUse_node.mpr ⟨i, hin⟩))
        obtain ⟨h4, h5, -⟩ := hl.range (hkids' l).2
        rwa [hone h1 h2 h3 h4 h5]
      · intro hin
        obtain ⟨h1, h2, h3⟩ := hin.range (hkids' i).2
        obtain ⟨l, hl⟩ := inUse_node.mp ((hsame b n).mpr (inUse_node.mpr ⟨i, hin⟩))
        obtain ⟨h4, h5, -⟩ := hl.range (hkids l).2
        rwa [hone h1 h2 h3 h4 h5]

end Alike

/-! ## The search in two states -/

lemma findSome?_rel {α β γ : Type*} {R : β → γ → Prop} {f : α → Option β} {g : α → Option γ}
    (l : List α) (h : ∀ x ∈ l, Option.Rel R (f x) (g x)) :
    Option.Rel R (l.findSome? f) (l.findSome? g) := by
  induction l with
  | nil => exact .none
  | cons x l ih =>
    have hx := h x (by simp)
    rw [findSome?_cons, findSome?_cons]
    generalize f x = a at hx
    generalize g x = b at hx
    cases hx with
    | none => exact ih fun y hy => h y (by simp [hy])
    | some hxy => exact .some hxy

/-- Two searches found nothing, or cells of one range. -/
def SameCell (s s' : State) (p q : Nat) : Prop :=
  (p = noCell ↔ q = noCell) ∧
    (p ≠ noCell → (s.cells p).base = (s'.cells q).base ∧ (s.cells p).size = (s'.cells q).size)

lemma SameCell.of_rel {s s' : State} {o o' : Option Nat}
    (h : Option.Rel (fun p q => p ≠ noCell ∧ q ≠ noCell ∧ SameCell s s' p q) o o') :
    SameCell s s' (o.getD noCell) (o'.getD noCell) := by
  cases h with
  | none => exact ⟨Iff.rfl, fun hne => absurd rfl hne⟩
  | some hr => exact hr.2.2

lemma findFreeCellZone_alike {s s' : State} {t t' : CellTree} {par par' base k : Nat}
    (h : Rep s.cells t par base k) (h' : Rep s'.cells t' par' base k) (hn : noCell ∉ t.ids)
    (hn' : noCell ∉ t'.ids) (ha : Alike t t') (fuel req : Nat) (zone : Zone) (strict : Bool) :
    SameCell s s' (findFreeCellZone fuel s t.id req zone strict)
      (findFreeCellZone fuel s' t'.id req zone strict) := by
  induction fuel generalizing t t' par par' base k with
  | zero => exact ⟨by simp [findFreeCellZone], fun hne => absurd rfl hne⟩
  | succ fuel ih =>
    cases t with
    | leaf p used =>
      cases t' with
      | node q kids' => exact absurd ha id
      | leaf q used' =>
        obtain rfl : used = used' := ha
        have hat : (s.cells p).At par base k (leafState used) := h
        have hat' : (s'.cells q).At par' base k (leafState used) := h'
        have hp : p ≠ noCell := fun he => hn (by simp [he])
        have hq : q ≠ noCell := fun he => hn' (by simp [he])
        rw [id_leaf, id_leaf]
        cases used with
        | true =>
          rw [findFreeCellZone_used fuel hat.state_eq, findFreeCellZone_used fuel hat'.state_eq]
          exact ⟨Iff.rfl, fun hne => absurd rfl hne⟩
        | false =>
          rw [findFreeCellZone_free fuel hat.state_eq, findFreeCellZone_free fuel hat'.state_eq,
            hat.base_eq, hat'.base_eq, hat.size_eq, hat'.size_eq]
          split_ifs
          · exact ⟨by simp [hp, hq], fun _ =>
              ⟨hat.base_eq.trans hat'.base_eq.symm, hat.size_eq.trans hat'.size_eq.symm⟩⟩
          · exact ⟨Iff.rfl, fun hne => absurd rfl hne⟩
    | node p kids =>
      cases t' with
      | leaf q used' => exact absurd ha id
      | node q kids' =>
        obtain ⟨j, rfl, hat, hkids⟩ := h
        obtain ⟨j', hj', hat', hkids'⟩ := h'
        obtain rfl : j = j' := by omega
        have hkid : ∀ i, noCell ∉ (kids i).ids := fun i hm =>
          hn (mem_ids_node.mpr (.inr ⟨i, hm⟩))
        have hkid' : ∀ i, noCell ∉ (kids' i).ids := fun i hm =>
          hn' (mem_ids_node.mpr (.inr ⟨i, hm⟩))
        have hrel : ∀ i : Fin 4, SameCell s s'
            (findFreeCellZone fuel s (kids i).id req zone strict)
            (findFreeCellZone fuel s' (kids' i).id req zone strict) := fun i =>
          ih (hkids i).2 (hkids' i).2 (hkid i) (hkid' i) (ha i)
        have hne : ∀ i, (kids i).id ≠ noCell := fun i he => hkid i (he ▸ id_mem_ids _)
        have hne' : ∀ i, (kids' i).id ≠ noCell := fun i he => hkid' i (he ▸ id_mem_ids _)
        rw [id_node, id_node, findFreeCellZone, findFreeCellZone]
        simp only [hat.state_eq, hat'.state_eq, (hkids _).1, (hkids' _).1, hne, hne', ne_eq]
        refine SameCell.of_rel (findSome?_rel _ fun i _ => ?_)
        by_cases h0 : findFreeCellZone fuel s (kids i).id req zone strict = noCell
        · have h1 := (hrel i).1.mp h0
          simp only [h0, h1]
          exact .none
        · have h1 := mt (hrel i).1.mpr h0
          simp only [h0, h1]
          exact .some ⟨h0, h1, hrel i⟩

lemma findSome?_congr {α β : Type*} {f g : α → Option β} (l : List α) (h : ∀ x ∈ l, f x = g x) :
    l.findSome? f = l.findSome? g := by
  induction l with
  | nil => rfl
  | cons x l ih =>
    rw [findSome?_cons, findSome?_cons, h x (by simp), ih fun y hy => h y (by simp [hy])]

/-- A rotated scan in which the indices from `n` on find nothing is a scan of the indices
below `n`. -/
theorem findSome?_rotate {β : Type*} {f g : Nat → Option β} {k n c : Nat} (hk : k ≤ n) (hn : n ≤ c)
    (hfg : ∀ i < n, f i = g i) (hnone : ∀ i < c, n ≤ i → f i = none) :
    (range c).findSome? (fun i => f ((k + i) % c)) =
      (range' k (n - k) ++ range k).findSome? g := by
  have hsplit : range c = range (n - k) ++
      ((range (c - n)).map (n - k + ·) ++ (range k).map (c - k + ·)) := by
    have hadd : c = n - k + (c - n + k) := by omega
    conv_lhs => rw [hadd, range_add, range_add]
    have hc : n - k + (c - n) = c - k := by omega
    simp [hc]
  have hlow : (range (n - k)).findSome? (fun i => f ((k + i) % c)) =
      (range' k (n - k)).findSome? g := by
    rw [range'_eq_map_range, findSome?_map]
    refine findSome?_congr _ fun i hi => ?_
    have := mem_range.mp hi
    rw [mod_eq_of_lt (by omega)]
    exact hfg _ (by omega)
  have hmid : ((range (c - n)).map (n - k + ·)).findSome? (fun i => f ((k + i) % c)) =
      none := by
    rw [findSome?_eq_none_iff]
    intro x hx
    obtain ⟨i, hi, rfl⟩ := mem_map.mp hx
    have := mem_range.mp hi
    rw [mod_eq_of_lt (by omega)]
    exact hnone _ (by omega) (by omega)
  have hhigh : ((range k).map (c - k + ·)).findSome? (fun i => f ((k + i) % c)) =
      (range k).findSome? g := by
    rw [findSome?_map]
    refine findSome?_congr _ fun i hi => ?_
    have := mem_range.mp hi
    have hwrap : (k + (c - k + i)) % c = i := by
      rw [show k + (c - k + i) = i + c by omega, add_mod_right, mod_eq_of_lt (by omega)]
    simp only [Function.comp_def, hwrap]
    exact hfg _ (by omega)
  rw [hsplit, findSome?_append, findSome?_append, hlow, hmid, hhigh,
    findSome?_append, Option.none_or]

/-- The cells without a parent are the first `n` of the pool. -/
def RootsBelow (n : Nat) (s : State) : Prop :=
  n ≤ s.cellCount ∧ ∀ i < s.cellCount, (s.cells i).parent = noCell ↔ i < n

lemma RootsBelow.extends {n : Nat} {s s' : State} (h : RootsBelow n s) (he : Extends s s') :
    RootsBelow n s' := by
  refine ⟨h.1.trans he.count_le, fun i hi => ?_⟩
  rw [he.root_iff hi]
  constructor
  · exact fun hp => (h.2 i hp.1).mp hp.2
  · exact fun hlt => ⟨hlt.trans_le h.1, (h.2 i (hlt.trans_le h.1)).mpr hlt⟩

/-- What the scan finds below the root `idx`. -/
def probe (s : State) (req : Nat) (zone : Zone) (strict : Bool) (idx : Nat) :
    Option (Nat × Nat) :=
  let found := findFreeCellZone cellPoolSize s idx req zone strict
  if found = noCell then none else some (idx, found)

lemma scanRoots_eq {n : Nat} {s : State} (h : RootsBelow n s) (hl : s.lastUsedCell ≤ n)
    (req : Nat) (zone : Zone) (strict : Bool) : scanRoots s req zone strict =
      (range' s.lastUsedCell (n - s.lastUsedCell) ++ range s.lastUsedCell).findSome?
        (probe s req zone strict) := by
  refine findSome?_rotate (f := fun idx =>
    if (s.cells idx).parent ≠ noCell then none else probe s req zone strict idx) hl h.1 ?_ ?_
  · intro i hi
    have hp := (h.2 i (hi.trans_le h.1)).mpr hi
    simp [hp]
  · intro i hi hge
    exact if_pos fun hp => absurd ((h.2 i hi).mp hp) (not_lt.mpr hge)

/-! ## States that serve requests alike -/

/-- States with the same roots, the same ranges in use and the same cursor. Every range in
use has one reference, so that a free gives it back. -/
structure Twins (n : Nat) (s t : State) : Prop where
  good : Good s
  good' : Good t
  roots : RootsBelow n s
  roots' : RootsBelow n t
  extent : ∀ r < n, (s.cells r).base = (t.cells r).base ∧ (s.cells r).size = (t.cells r).size
  allocated : ∀ b k, Allocated s b k ↔ Allocated t b k
  cursor : s.lastUsedCell = t.lastUsedCell
  cursor_le : t.lastUsedCell ≤ n
  count_le : t.cellCount ≤ s.cellCount
  single : ∀ b k, Allocated s b k → pmmPageRefcount s b ≤ 1
  single' : ∀ b k, Allocated t b k → pmmPageRefcount t b ≤ 1

lemma Inv.inUse_iff {s : State} {F : Forest} (h : Inv s F) {r : Nat} (hr : r ∈ F.roots)
    {b n : Nat} : InUse s.cells (F.tree r) b n ↔ Allocated s b n ∧
      (s.cells r).base ≤ b ∧ b + n ≤ (s.cells r).base + (s.cells r).size := by
  obtain ⟨_, hat⟩ := h.root_at hr
  constructor
  · intro hin
    obtain ⟨hlo, hhi, -⟩ := hin.range (h.rep r hr)
    obtain ⟨p, hp, rfl, rfl⟩ := hin
    obtain ⟨_, _, _, hrep, -⟩ := (h.rep r hr).sub hp
    exact ⟨⟨p, h.lt_count p (Forest.sub_mem hr hp), Cell.At.state_eq hrep, rfl, rfl⟩, hlo,
      by rw [hat.size_eq]; exact hhi⟩
  · rintro ⟨⟨p, hp, hst, rfl, rfl⟩, hlo, hhi⟩
    obtain ⟨q, hq, hu⟩ := h.used_leaf hp hst
    by_cases hqr : q = r
    · subst hqr
      exact ⟨p, hu, rfl, rfl⟩
    · have hin : InUse s.cells (F.tree q) _ _ := ⟨p, hu, rfl, rfl⟩
      obtain ⟨h1, h2, h3⟩ := hin.range (h.rep q hq)
      have hap := h.apart q hq r hr hqr
      obtain ⟨_, hat'⟩ := h.root_at hq
      have := hat'.size_eq
      unfold Cell.Apart at hap
      omega

section Twins

variable {n : Nat} {s t : State}

lemma Twins.sameCell (h : Twins n s t) {r : Nat} (hr : r < n) (fuel req : Nat) (zone : Zone)
    (strict : Bool) :
    SameCell s t (findFreeCellZone fuel s r req zone strict)
      (findFreeCellZone fuel t r req zone strict) := by
  obtain ⟨F, hi, ha⟩ := h.good
  obtain ⟨G, hi', ha'⟩ := h.good'
  obtain ⟨hbase, hsize⟩ := h.extent r hr
  have hlt := hr.trans_le h.roots.1
  have hlt' := hr.trans_le h.roots'.1
  have hF := hi.root_mem r hlt ((h.roots.2 r hlt).mpr hr)
  have hG := hi'.root_mem r hlt' ((h.roots'.2 r hlt').mpr hr)
  obtain ⟨_, hat⟩ := hi.root_at hF
  obtain ⟨_, hat'⟩ := hi'.root_at hG
  have hlevel : F.level r = G.level r :=
    levelSize_inj (by rw [← hat.size_eq, ← hat'.size_eq, hsize])
  have hrep := hi.rep r hF
  have hrep' := hi'.rep r hG
  rw [← hbase, ← hlevel] at hrep'
  have halike : Alike (F.tree r) (G.tree r) := by
    refine alike_of_inUse hrep hrep' (ha.tight r hF) (ha'.tight r hG) (hi.noCell_notMem hF)
      (hi'.noCell_notMem hG) fun b k => ?_
    rw [hi.inUse_iff hF, hi'.inUse_iff hG, h.allocated, hbase, hsize]
  have hfind := findFreeCellZone_alike hrep hrep' (hi.noCell_notMem hF) (hi'.noCell_notMem hG)
    halike fuel req zone strict
  rwa [hi.root_id r hF, hi'.root_id r hG] at hfind

lemma Twins.scanRoots (h : Twins n s t) (req : Nat) (zone : Zone) (strict : Bool) :
    Option.Rel (fun x y => x.1 = y.1 ∧ x.1 < n ∧ (s.cells x.2).base = (t.cells y.2).base ∧
        (s.cells x.2).size = (t.cells y.2).size)
      (scanRoots s req zone strict) (scanRoots t req zone strict) := by
  rw [scanRoots_eq h.roots (h.cursor ▸ h.cursor_le), scanRoots_eq h.roots' h.cursor_le, h.cursor]
  refine findSome?_rel _ fun r hr => ?_
  have hrn : r < n := by
    have := h.cursor_le
    rw [mem_append, mem_range'_1, mem_range] at hr
    omega
  have hsame := h.sameCell hrn cellPoolSize req zone strict
  unfold probe
  by_cases h0 : findFreeCellZone cellPoolSize s r req zone strict = noCell
  · simp only [h0, hsame.1.mp h0]
    exact .none
  · simp only [h0, mt hsame.1.mpr h0]
    exact .some ⟨rfl, hrn, hsame.2 h0⟩

end Twins

end YamKernel.Pmm

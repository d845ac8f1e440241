import YamKernel.Mem.Pmm.Bounds

/-!
# Free memory

The free memory is what the allocator manages less the ranges in use (`Good.freeAt_iff`), so
a call changes it by the range it takes or gives back. `Fresh` is what a successful
one-page request tells its caller.
-/

namespace YamKernel.Pmm

open Lib QuadTree

/-- The byte at `a` belongs to a FREE cell below the roots. -/
def FreeAt (s : State) (a : Nat) : Prop :=
  ∃ i, Reachable s i ∧ (s.cells i).state = .free ∧ (s.cells i).base ≤ a ∧
    a < (s.cells i).base + (s.cells i).size

def InPool (s : State) (a : Nat) : Prop :=
  ∃ r < s.cellCount, (s.cells r).parent = noCell ∧ (s.cells r).base ≤ a ∧
    a < (s.cells r).base + (s.cells r).size

lemma Rep.leaf_covers {cells : Nat → Cell} {t : CellTree} {parent base k a : Nat}
    (h : Rep cells t parent base k) (hlo : base ≤ a) (hhi : a < base + levelSize k) :
    ∃ p used, Sub (.leaf p used) t ∧ (cells p).base ≤ a ∧ a < (cells p).base + (cells p).size := by
  induction t generalizing parent base k with
  | leaf p used =>
    have hat : (cells p).At parent base k (leafState used) := h
    exact ⟨p, used, .refl _, by rw [hat.base_eq]; exact hlo,
      by rw [hat.base_eq, hat.size_eq]; exact hhi⟩
  | node p kids ih =>
    obtain ⟨j, rfl, -, hkids⟩ := h
    have hpos := levelSize_pos j
    have hlt : (a - base) / levelSize j < 4 := by
      rw [Nat.div_lt_iff_lt_mul hpos]
      rw [levelSize_succ] at hhi
      omega
    have hdm := Nat.div_add_mod (a - base) (levelSize j)
    have := Nat.mod_lt (a - base) hpos
    rw [mul_comm] at hdm
    obtain ⟨q, used, hsub, hin⟩ := ih ⟨_, hlt⟩ (hkids ⟨_, hlt⟩).2
      (by dsimp only; omega) (by dsimp only; omega)
    exact ⟨q, used, .kid p kids _ hsub, hin⟩

section FreeAt

variable {s s' : State} {base size a : Nat}

lemma Extends.inPool_iff (h : Extends s s') : InPool s' a ↔ InPool s a := by
  constructor
  · rintro ⟨r, hr, hp, hin⟩
    obtain ⟨hlt, hp⟩ := (h.root_iff hr).mp hp
    rw [h.base_eq r hlt, h.size_eq r hlt] at hin
    exact ⟨r, hlt, hp, hin⟩
  · rintro ⟨r, hr, hp, hin⟩
    have hlt := hr.trans_le h.count_le
    refine ⟨r, hlt, (h.root_iff hlt).mpr ⟨hr, hp⟩, ?_⟩
    rwa [h.base_eq r hr, h.size_eq r hr]

lemma Inv.sub_inPool {F : Forest} (h : Inv s F) {r : Nat} (hr : r ∈ F.roots) {u : CellTree}
    (hu : Sub u (F.tree r)) (hlo : (s.cells u.id).base ≤ a)
    (hhi : a < (s.cells u.id).base + (s.cells u.id).size) : InPool s a := by
  obtain ⟨h1, h2⟩ := (h.rep r hr).sub_range hu
  obtain ⟨_, hat⟩ := h.root_at hr
  obtain ⟨hlt, hp⟩ := h.root_lt hr
  have := hat.size_eq
  exact ⟨r, hlt, hp, by omega, by omega⟩

lemma Good.allocated_inPool (h : Good s) (ha : Allocated s base size) (hlo : base ≤ a)
    (hhi : a < base + size) : InPool s a := by
  obtain ⟨F, hinv, -⟩ := h
  obtain ⟨i, hi, hst, rfl, rfl⟩ := ha
  obtain ⟨r, hr, hu⟩ := hinv.used_leaf hi hst
  exact hinv.sub_inPool hr hu hlo hhi

/-- Free memory is the managed memory that is not in use. -/
theorem Good.freeAt_iff (h : Good s) :
    FreeAt s a ↔ InPool s a ∧ ∀ b n, Allocated s b n → ¬ (b ≤ a ∧ a < b + n) := by
  obtain ⟨F, hinv, -⟩ := h
  constructor
  · rintro ⟨i, hi, hst, hlo, hhi⟩
    obtain ⟨r, hr, hu⟩ := hinv.leaf_mem (b := false) (hinv.reachable_iff.mp hi) hst
    refine ⟨hinv.sub_inPool hr hu hlo hhi, ?_⟩
    rintro b n ⟨j, hj, hused, rfl, rfl⟩ hin
    obtain ⟨q, hq, hleaf⟩ := hinv.used_leaf hj hused
    have hne : i ≠ j := fun he => by rw [← he, hst] at hused; simp at hused
    have hap := hinv.leaves_apart hr hq hu hleaf hne
    unfold Cell.Apart at hap
    omega
  · rintro ⟨⟨r, hr, hp, hlo, hhi⟩, hnot⟩
    have hroot := hinv.root_mem r hr hp
    obtain ⟨_, hat⟩ := hinv.root_at hroot
    rw [hat.size_eq] at hhi
    obtain ⟨p, used, hsub, hin⟩ := (hinv.rep r hroot).leaf_covers hlo hhi
    have hmem : p ∈ F.ids := Forest.sub_mem hroot hsub
    obtain ⟨_, _, _, hrep, -⟩ := (hinv.rep r hroot).sub hsub
    have hst : (s.cells p).state = leafState used := Cell.At.state_eq hrep
    cases used with
    | true => exact absurd hin (hnot _ _ ⟨p, hinv.lt_count p hmem, hst, rfl, rfl⟩)
    | false => exact ⟨p, hinv.reachable_iff.mpr hmem, hst, hin⟩

lemma Allocates.was_free (w : Allocates s s' base size) (he : Extends s s') (hg : Good s)
    (hlo : base ≤ a) (hhi : a < base + size) : FreeAt s a := by
  rw [hg.freeAt_iff]
  refine ⟨he.inPool_iff.mp (w.good.allocated_inPool w.self hlo hhi), fun b n ha hin => ?_⟩
  have := w.apart b n ha
  omega

lemma Allocates.freeAt_iff (w : Allocates s s' base size) (he : Extends s s') (hg : Good s) :
    FreeAt s' a ↔ FreeAt s a ∧ ¬ (base ≤ a ∧ a < base + size) := by
  rw [hg.freeAt_iff, w.good.freeAt_iff, he.inPool_iff]
  constructor
  · rintro ⟨hin, hnot⟩
    exact ⟨⟨hin, fun b n ha => hnot b n ((w.allocated b n).mpr (.inl ha))⟩,
      hnot base size w.self⟩
  · rintro ⟨⟨hin, hnot⟩, hnew⟩
    refine ⟨hin, fun b n ha => ?_⟩
    rcases (w.allocated b n).mp ha with ha | ⟨rfl, rfl⟩
    · exact hnot b n ha
    · exact hnew

lemma Releases.freeAt (w : Releases s s' base size) (he : Extends s s') (hg : Good s)
    (h : FreeAt s' a) : FreeAt s a ∨ base ≤ a ∧ a < base + size := by
  rw [w.good.freeAt_iff, he.inPool_iff] at h
  rw [hg.freeAt_iff]
  obtain ⟨hin, hnot⟩ := h
  by_cases hb : base ≤ a ∧ a < base + size
  · exact .inr hb
  · refine .inl ⟨hin, fun b n ha => ?_⟩
    by_cases hbb : b = base
    · obtain rfl := hbb
      rwa [hg.allocated_unique ha w.was]
    · exact hnot b n ((w.allocated b n).mpr ⟨ha, hbb⟩)

/-- No byte of the page at `f` is free. -/
def Held (s : State) (f : Nat) : Prop := ∀ a, f ≤ a → a < f + pageSize → ¬ FreeAt s a

lemma Good.held_of_allocated (h : Good s) {f n : Nat} (ha : Allocated s f n) : Held s f := by
  obtain ⟨-, -, -, k, rfl⟩ := h.allocated_range ha
  have := pageSize_le_levelSize k
  exact fun a h1 h2 hf => (h.freeAt_iff.mp hf).2 f _ ha ⟨h1, by omega⟩

end FreeAt

lemma InPool.lt {s : State} {a limit : Nat} (h : InPool s a) (hw : Within limit s) : a < limit := by
  obtain ⟨r, hr, -, -, hhi⟩ := h
  have := hw r hr
  omega

lemma FreeAt.lt {s : State} {a limit : Nat} (h : FreeAt s a) (hg : Good s) (hw : Within limit s) :
    a < limit :=
  (hg.freeAt_iff.mp h).1.lt hw

/-- A state the allocator reaches, on a well-formed memory map below 2^52. -/
def Running (s : State) : Prop :=
  ∃ memmap s0 calls, UsableDisjoint memmap ∧ NoPageZero memmap ∧ EndsWithin (2 ^ 52) memmap ∧
    pmmInit memmap = some s0 ∧ s = runCalls s0 calls

lemma Running.good {s : State} (h : Running s) : Good s := by
  obtain ⟨memmap, s0, calls, hd, hz, -, he, rfl⟩ := h
  exact runCalls_good (pmmInit_good hd hz he) calls

lemma Running.within {s : State} (h : Running s) : Within (2 ^ 52) s := by
  obtain ⟨memmap, s0, calls, hd, hz, hw, he, rfl⟩ := h
  exact runCalls_within (pmmInit_good hd hz he) (pmmInit_within hz hw he) calls

/-! ## One-page requests -/

/-- What a caller knows of the page `f` it was just given. -/
structure Fresh (s s' : State) (f : Nat) : Prop where
  good : Good s'
  ext : Extends s s'
  pos : 0 < f
  page : pageSize ∣ f
  free : ∀ a, f ≤ a → a < f + pageSize → FreeAt s a
  held : Held s' f
  keeps : ∀ g, Held s g → Held s' g
  takes : ∃ size, pageSize ≤ size ∧ Allocates s s' f size

lemma pmmAllocPage_cases {s : State} (h : Good s) :
    pmmAllocPage s = (0, s) ∨ ∃ f s', pmmAllocPage s = (f, s') ∧ Fresh s s' f := by
  have hcases := alloc_cases h 1 .normal false
  have hext := alloc_extends h 1 .normal false
  unfold pmmAllocPage
  generalize pmmAllocPagesInternal s 1 .normal false = out at hcases hext
  obtain ⟨f, s'⟩ := out
  rcases hcases with he | ⟨size, -, w⟩
  · exact .inl he
  obtain ⟨hpos, -, hd, k, rfl⟩ := w.good.allocated_range w.self
  have hle := pageSize_le_levelSize k
  refine .inr ⟨f, s', rfl, w.good, hext, hpos, hd, fun a h1 h2 => ?_, ?_, fun g hg a h1 h2 hf => ?_,
    _, hle, w⟩
  · exact w.was_free hext h h1 (by omega)
  · exact w.good.held_of_allocated w.self
  · exact hg a h1 h2 ((w.freeAt_iff hext h).mp hf).1

section Fresh

variable {s s' : State} {f g : Nat}

lemma Fresh.apart (h : Fresh s s' f) (hg : Held s g) : g + pageSize ≤ f ∨ f + pageSize ≤ g := by
  by_contra hover
  exact hg (max f g) (by omega) (by omega) (h.free _ (by omega) (by omega))

lemma Fresh.within {limit : Nat} (h : Fresh s s' f) (hw : Within limit s) :
    f + pageSize ≤ limit ∧ Within limit s' := by
  have hw' := hw.extends h.ext
  obtain ⟨size, hle, w⟩ := h.takes
  have := hw'.allocated w.self
  exact ⟨by omega, hw'⟩

end Fresh

/-- The pages `l` were given to one-page requests, the last one first. -/
inductive Takes (s : State) : State → List Nat → Prop where
  | nil : Takes s s []
  | cons {s' s'' : State} {f : Nat} {l : List Nat} :
      Takes s s' l → Fresh s' s'' f → Takes s s'' (f :: l)

section Takes

variable {s s' s'' : State} {f g : Nat} {l l' : List Nat}

lemma Fresh.freeAt (h : Fresh s s' f) (hg : Good s) {a : Nat} (ha : FreeAt s' a) : FreeAt s a := by
  obtain ⟨_, -, w⟩ := h.takes
  exact ((w.freeAt_iff h.ext hg).mp ha).1

section

variable (h : Takes s s' l)
include h

lemma Takes.trans (g : Takes s' s'' l') : Takes s s'' (l' ++ l) := by
  induction g with
  | nil => exact h
  | cons _ hf ih => exact .cons ih hf

lemma Takes.good (hg : Good s) : Good s' := by
  cases h with
  | nil => exact hg
  | cons _ hf => exact hf.good

lemma Takes.ext : Extends s s' := by
  induction h with
  | nil => exact .refl s
  | cons _ hf ih => exact ih.trans hf.ext

lemma Takes.freeAt (hg : Good s) {a : Nat} (ha : FreeAt s' a) : FreeAt s a := by
  induction h with
  | nil => exact ha
  | cons ht hf ih => exact ih (hf.freeAt (ht.good hg) ha)

lemma Takes.keeps (hg : Good s) (hh : Held s g) : Held s' g :=
  fun a h1 h2 ha => hh a h1 h2 (h.freeAt hg ha)

lemma Takes.mem (hg : Good s) (hf : f ∈ l) :
    0 < f ∧ pageSize ∣ f ∧ (∀ a, f ≤ a → a < f + pageSize → FreeAt s a) ∧ Held s' f := by
  induction h with
  | nil => simp at hf
  | cons ht hfresh ih =>
    rcases List.mem_cons.mp hf with rfl | hf
    · exact ⟨hfresh.pos, hfresh.page, fun a h1 h2 => ht.freeAt hg (hfresh.free a h1 h2),
        hfresh.held⟩
    · obtain ⟨h1, h2, h3, h4⟩ := ih hf
      exact ⟨h1, h2, h3, hfresh.keeps _ h4⟩

end

end Takes

end YamKernel.Pmm

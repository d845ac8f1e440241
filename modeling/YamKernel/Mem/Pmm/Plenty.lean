import YamKernel.Mem.Pmm.Adequacy
import YamKernel.Mem.Pmm.Supply

/-!
# Memory enough

A request takes one stretch of free memory. So if `n` free bytes are kept apart by bytes that are
not free, the next `n` requests succeed, whatever the sizes of the cells that serve them. A memory
map with every other page usable is of that kind.
-/

namespace YamKernel.Pmm

open Lib QuadTree Nat List

/-- Free bytes, in order, with a byte that is not free between any two of them. -/
structure Scattered (s : State) (l : List Nat) : Prop where
  free : ∀ a ∈ l, FreeAt s a
  apart : l.Pairwise fun a b => ∃ c, a ≤ c ∧ c ≤ b ∧ ¬ FreeAt s c

section Scattered

variable {s s' : State} {l : List Nat} {f : Nat}

lemma Good.page_le_size (h : Good s) {i : Nat} (hi : Reachable s i) :
    pageSize ≤ (s.cells i).size := by
  obtain ⟨F, hinv, -⟩ := h
  obtain ⟨k, -, hk⟩ := hinv.size_at (hinv.reachable_iff.mp hi)
  rw [hk]
  exact pageSize_le_levelSize k

lemma pmmAllocPage_ne (h : Good s) {a : Nat} (ha : FreeAt s a) : (pmmAllocPage s).1 ≠ 0 := by
  intro h0
  obtain ⟨i, hi, hst, -⟩ := ha
  have hlt := alloc_failed h h0 hi hst
  exact absurd (h.page_le_size hi) (not_le.mpr hlt)

lemma Scattered.fresh (h : Scattered s l) (hg : Good s) (hf : Fresh s s' f) :
    ∃ l', Scattered s' l' ∧ l.length ≤ l'.length + 1 := by
  obtain ⟨size, -, w⟩ := hf.takes
  let inside := fun a => decide (f ≤ a ∧ a < f + size)
  refine ⟨l.filter fun a => !inside a, ⟨fun a ha => ?_, ?_⟩, ?_⟩
  · rw [mem_filter] at ha
    refine (w.freeAt_iff hf.ext hg).mpr ⟨h.free a ha.1, fun hin => ?_⟩
    simp [inside, hin] at ha
  · refine (h.apart.filter _).imp fun hab => ?_
    obtain ⟨c, h1, h2, hc⟩ := hab
    exact ⟨c, h1, h2, fun hc' => hc (hf.freeAt hg hc')⟩
  · have : (l.filter inside).length ≤ 1 := by
      have hpair := h.apart.filter inside
      cases hl : l.filter inside with
      | nil => exact zero_le _
      | cons a rest =>
        cases rest with
        | nil => exact le_rfl
        | cons b rest =>
          -- Two of them would be in the stretch that was taken.
          rw [hl] at hpair
          have ha : a ∈ l.filter inside := by simp [hl]
          have hb : b ∈ l.filter inside := by simp [hl]
          obtain ⟨c, h1, h2, hc⟩ := (pairwise_cons.mp hpair).1 b (by simp)
          have : f ≤ a ∧ a < f + size := by simpa [inside] using (mem_filter.mp ha).2
          have : f ≤ b ∧ b < f + size := by simpa [inside] using (mem_filter.mp hb).2
          exact absurd (w.was_free hf.ext hg (by omega) (by omega)) hc
    have := length_eq_length_filter_add (l := l) inside
    omega

lemma Scattered.provides (h : Scattered s l) (hg : Good s) {n : Nat} (hn : n ≤ l.length) :
    Provides s n := by
  induction n generalizing s l with
  | zero => exact provides_zero s
  | succ n ih =>
    obtain ⟨a, ha⟩ := exists_mem_of_length_pos (l := l) (by omega)
    have hne := pmmAllocPage_ne hg (h.free a ha)
    have hfresh := pmmAllocPage_fresh hg hne
    obtain ⟨l', h', hlen⟩ := h.fresh hg hfresh
    exact provides_succ.mpr ⟨hne, ih h' hfresh.good (by omega)⟩

end Scattered

/-! ## Every other page -/

def oddPage (i : Fin 4096) : MemmapEntry :=
  ⟨(2 * i.1 + 1) * pageSize, pageSize, .usable, by unfold pageSize; omega⟩

/-- Every other page of the first 32 MB. -/
def oddPages : List MemmapEntry := ofFn oddPage

lemma length_oddPages : oddPages.length = 4096 := length_ofFn

/-- The pool holds one root cell for each of the first `k` of them. -/
structure OddRoots (k : Nat) (s : State) : Prop where
  count : s.cellCount = k
  cell : ∀ i < k, (s.cells i).base = (2 * i + 1) * pageSize ∧ (s.cells i).size = pageSize ∧
    (s.cells i).parent = noCell

lemma OddRoots.addRoot {k : Nat} {s : State} (h : OddRoots k s) (hk : k < 4096) :
    OddRoots (k + 1) (addRoot s ((2 * k + 1) * pageSize) pageSize) := by
  have hpool : ¬ cellPoolSize ≤ k := by
    unfold cellPoolSize
    omega
  have hno : k ≠ noCell := by
    unfold noCell
    omega
  unfold Pmm.addRoot cellAllocNode
  rw [h.count, if_neg hpool]
  dsimp only
  rw [if_neg hno]
  refine ⟨rfl, fun i hi => ?_⟩
  by_cases hik : i = k
  · subst hik
    simp
  · have := h.cell i (by omega)
    simpa [Function.update_of_ne hik] using this

lemma OddRoots.addEntry {k : Nat} {s : State} (h : OddRoots k s) (hk : k < 4096) :
    ∃ s', addEntry s (oddPage ⟨k, hk⟩) = some s' ∧ OddRoots (k + 1) s' := by
  have hbase : u64 ((2 * k + 1) * pageSize + (pageSize - 1)) / pageSize * pageSize =
      (2 * k + 1) * pageSize := by
    unfold u64 pageSize
    omega
  have hend : u64 ((2 * k + 1) * pageSize + pageSize) / pageSize * pageSize =
      (2 * k + 1) * pageSize + pageSize := by
    unfold u64 pageSize
    omega
  have hsize : sub64 ((2 * k + 1) * pageSize + pageSize) ((2 * k + 1) * pageSize) = pageSize := by
    rw [sub64_of_le (le_add_right _ _) (by unfold pageSize; omega)]
    omega
  have : chunkLoop 32 pageSize pageSize = some pageSize := by decide
  unfold Pmm.addEntry oddPage
  dsimp only
  rw [hbase, hend, hsize]
  exact ⟨_, rfl, addRoot ⟨h.count, h.cell⟩ hk⟩

lemma OddRoots.addEntries {k n : Nat} {s : State} (h : OddRoots k s) (hn : k + n = 4096) :
    ∃ s', (oddPages.drop k).foldlM Pmm.addEntry s = some s' ∧ OddRoots 4096 s' := by
  induction n generalizing k s with
  | zero =>
    rw [drop_eq_nil_of_le (by rw [length_oddPages]; omega)]
    obtain rfl : k = 4096 := by omega
    exact ⟨s, rfl, h⟩
  | succ n ih =>
    have hk : k < oddPages.length := by rw [length_oddPages]; omega
    obtain ⟨s', he, h'⟩ := h.addEntry (by omega)
    obtain ⟨s'', he', h''⟩ := ih h' (by omega)
    refine ⟨s'', ?_, h''⟩
    rw [drop_eq_getElem_cons hk, foldlM_cons]
    have hget : oddPages[k] = oddPage ⟨k, by omega⟩ := List.getElem_ofFn ..
    rw [hget, he, Option.bind_eq_bind, Option.bind_some]
    exact he'

/-- There is a state with 4096 pages that can be had one by one, and a page that is not free. -/
theorem exists_plenty : ∃ s, Running s ∧ Provides s 4096 ∧ Held s (2 ^ 20) := by
  have hmem : ∀ e ∈ oddPages, ∃ i, e = oddPage i := fun e he => by
    obtain ⟨i, rfl⟩ := mem_ofFn.mp he
    exact ⟨i, rfl⟩
  have hd : UsableDisjoint oddPages := by
    refine pairwise_ofFn.mpr fun i j hij _ _ => .inl ?_
    unfold oddPage pageSize
    dsimp only
    omega
  have hz : NoPageZero oddPages := fun e he _ hc => by
    obtain ⟨i, rfl⟩ := hmem e he
    unfold oddPage pageSize at hc
    dsimp only at hc
    omega
  have hw : EndsWithin (2 ^ 52) oddPages := fun e he _ => by
    obtain ⟨i, rfl⟩ := hmem e he
    unfold oddPage pageSize
    dsimp only
    omega
  obtain ⟨s, he, h⟩ := OddRoots.addEntries (k := 0) (n := 4096) (s := pmmReset)
    ⟨rfl, fun i hi => absurd hi (not_lt_zero i)⟩ rfl
  rw [drop_zero] at he
  have hinit : pmmInit oddPages =
      some { s with zones := fun z => zoneUpdateWatermarks (s.zones z) } := by
    unfold pmmInit
    rw [he]
  generalize hs' : { s with zones := fun z => zoneUpdateWatermarks (s.zones z) } = s' at hinit
  replace h : OddRoots 4096 s' := by
    rw [← hs']
    exact ⟨h.count, h.cell⟩
  have hgood := pmmInit_good hd hz hinit
  have hfree : ∀ a, FreeAt s' a ↔ InPool s' a := fun a => by
    rw [hgood.freeAt_iff]
    exact and_iff_left fun b n ha => absurd ha (pmmInit_unused hd hz hinit b n)
  have hodd : ∀ a, FreeAt s' a → a / pageSize % 2 = 1 := fun a ha => by
    obtain ⟨k, hk, -, h1, h2⟩ := (hfree a).mp ha
    obtain ⟨hb, hs, -⟩ := h.cell k (h.count ▸ hk)
    unfold pageSize at *
    omega
  have hscat : Scattered s' ((range 4096).map fun i => (2 * i + 1) * pageSize) := by
    refine ⟨fun a ha => ?_, pairwise_map.mpr ?_⟩
    · obtain ⟨i, hi, rfl⟩ := mem_map.mp ha
      rw [mem_range] at hi
      obtain ⟨hb, hs, hp⟩ := h.cell i hi
      refine (hfree _).mpr ⟨i, by rw [h.count]; exact hi, hp, hb.le, ?_⟩
      rw [hb, hs]
      exact Nat.lt_add_of_pos_right (by decide)
    · refine pairwise_lt_range.imp fun {i j} hij => ⟨(2 * i + 2) * pageSize, ?_, ?_, fun hc => ?_⟩
      · exact mul_le_mul_right _ (by omega)
      · exact mul_le_mul_right _ (by omega)
      · have := hodd _ hc
        rw [Nat.mul_div_cancel _ (by decide)] at this
        omega
  refine ⟨s', ⟨_, s', [], hd, hz, hw, hinit, rfl⟩, hscat.provides hgood (by simp),
    fun a h1 h2 ha => ?_⟩
  have := hodd a ha
  unfold pageSize at *
  omega

end YamKernel.Pmm

import YamKernel.Mem.Pmm.Safety

/-!
# Requests and what serves them

The search misses no free cell, so a request fails only when no free cell is large enough.
What it asks for is `count * 4096` on 64 bits: a count of 2^52 or more wraps around, and
the cell that serves it is then too small.
-/

namespace YamKernel.Pmm

open Lib QuadTree List Option Nat

section Search

variable {s : State} {F : Forest} {minSize req : Nat} {zone : Zone}

/-- A child whose search succeeds makes the search below its SPLIT parent succeed. -/
theorem findFreeCellZone_split_ne {p fuel : Nat} {strict : Bool} (hst : (s.cells p).state = .split)
    (i : Fin 4) (hc : (s.cells p).children i ≠ noCell)
    (hne : findFreeCellZone fuel s ((s.cells p).children i) minSize zone strict ≠ noCell) :
    findFreeCellZone (fuel + 1) s p minSize zone strict ≠ noCell := by
  rw [findFreeCellZone, hst]
  simp only
  generalize hs : findSome? _ _ = o
  cases o with
  | none =>
    have hall : ∀ i : Fin 4, i ∈ [0, 1, 2, 3] := by decide
    have hi := findSome?_eq_none_iff.mp hs i (hall i)
    rw [if_pos hc, if_pos hne] at hi
    exact absurd hi (by simp)
  | some q =>
    obtain ⟨j, -, hj⟩ := exists_of_findSome?_eq_some hs
    split_ifs at hj with h1 h2
    rw [← some.inj hj]
    exact h2

lemma findFreeCellZone_complete (zone : Zone) {t : CellTree} {parent base k fuel p : Nat}
    (h : Rep s.cells t parent base k) (hf : k < fuel) (hids : noCell ∉ t.ids)
    (hleaf : Sub (.leaf p false) t) (hsize : minSize ≤ (s.cells p).size) :
    findFreeCellZone fuel s t.id minSize zone false ≠ noCell := by
  induction t generalizing parent base k fuel with
  | leaf q used =>
    obtain ⟨rfl, rfl⟩ := leaf.inj (sub_leaf hleaf)
    obtain ⟨fuel, rfl⟩ : ∃ n, fuel = n + 1 := ⟨fuel - 1, by omega⟩
    have hat : (s.cells p).At parent base k .free := h
    have hp : p ≠ noCell := fun he => hids (by simp [he])
    rw [id_leaf, findFreeCellZone_free fuel hat.state_eq, if_pos ⟨hsize, by simp⟩]
    exact hp
  | node q kids ih =>
    obtain ⟨j, rfl, hat, hkids⟩ := h
    obtain ⟨fuel, rfl⟩ : ∃ n, fuel = n + 1 := ⟨fuel - 1, by omega⟩
    cases hleaf with
    | kid _ _ i hi =>
      have hkid : noCell ∉ (kids i).ids := fun hm => hids (mem_ids_node.mpr (.inr ⟨i, hm⟩))
      have hfind := ih i (hkids i).2 (lt_of_succ_lt_succ hf) hkid hi
      rw [← (hkids i).1] at hfind
      have hne : (s.cells q).children i ≠ noCell := fun he => hkid (by
        rw [← he, (hkids i).1]
        exact id_mem_ids _)
      exact findFreeCellZone_split_ne hat.state_eq i hne hfind

lemma Inv.level_lt (h : Inv s F) {r : Nat} (hr : r ∈ F.roots) : F.level r < cellPoolSize := by
  have := level_le (k := F.level r) (by have := h.end_le r hr; omega)
  unfold cellPoolSize
  omega

lemma scan_visits (s : State) {r : Nat} (hr : r < s.cellCount) :
    ∃ i < s.cellCount, (s.lastUsedCell + i) % s.cellCount = r := by
  have hlast := mod_lt s.lastUsedCell (show 0 < s.cellCount by omega)
  have hsplit := div_add_mod s.lastUsedCell s.cellCount
  generalize s.lastUsedCell % s.cellCount = m at hlast hsplit
  generalize s.lastUsedCell / s.cellCount = q at hsplit
  by_cases m ≤ r
  · refine ⟨r - m, by omega, ?_⟩
    rw [← hsplit, show s.cellCount * q + m + (r - m) = r + s.cellCount * q by omega,
      add_mul_mod_self_left, mod_eq_of_lt hr]
  · refine ⟨r + s.cellCount - m, by omega, ?_⟩
    have he : s.cellCount * q + m + (r + s.cellCount - m) = r + s.cellCount * (q + 1) := by
      rw [mul_succ]
      omega
    rw [← hsplit, he, add_mul_mod_self_left, mod_eq_of_lt hr]

/-- The scan fails only when no free cell below the roots is large enough. -/
theorem Inv.scanRoots_none (h : Inv s F) (hs : scanRoots s req zone false = none) {i : Nat}
    (hi : Reachable s i) (hst : (s.cells i).state = .free) : (s.cells i).size < req := by
  by_contra hge
  obtain ⟨r, hr, hleaf⟩ := h.leaf_mem (b := false) (h.reachable_iff.mp hi) hst
  obtain ⟨hlt, hparent⟩ := h.root_lt hr
  obtain ⟨k, hk, hkr⟩ := scan_visits s hlt
  have hnone := findSome?_eq_none_iff.mp hs k (mem_range.mpr hk)
  have hfind := findFreeCellZone_complete zone (h.rep r hr) (h.level_lt hr)
    (h.noCell_notMem hr) hleaf (not_lt.mp hge)
  rw [h.root_id r hr] at hfind
  simp only [hkr, hparent, if_neg hfind] at hnone
  exact absurd hnone (by simp)

end Search

/-- A request fails only when no free cell has the size it asks for. -/
theorem alloc_failed {s : State} (h : Good s) {count : Nat} {zone : Zone} {strict : Bool}
    (h0 : (pmmAllocPagesInternal s count zone strict).1 = 0) {i : Nat} (hi : Reachable s i)
    (hst : (s.cells i).state = .free) : (s.cells i).size < u64 (count * pageSize) := by
  obtain ⟨F, hinv, hacc⟩ := h
  -- Whether or not the call was strict, its last pass is not.
  have hlast : (allocPass s count zone false).1 = 0 := by
    rcases allocPass_spec ⟨F, hinv, hacc⟩ count zone strict with he | ⟨size, -, ha⟩
    · cases strict with
      | false => exact congrArg Prod.fst he
      | true => simpa [pmmAllocPagesInternal, he] using h0
    · have hne : (allocPass s count zone strict).1 ≠ 0 := ha.base_pos.ne'
      rw [pmmAllocPagesInternal] at h0
      simp only [hne, false_and, if_false] at h0
  cases hs : scanRoots s (u64 (count * pageSize)) zone false with
  | none => exact hinv.scanRoots_none hs hi hst
  | some pr =>
    obtain ⟨w, hpos⟩ := Holding.of_scan hinv hacc hs
    obtain ⟨⟨F1, w1⟩, -⟩ := w.splitDown cellPoolSize
    simp only [allocPass, hs, w1.base_eq] at hlast
    omega

/-- A request that is served was served from a free cell of the size it asks for. -/
theorem alloc_served {s : State} (h : Good s) {count : Nat} {zone : Zone} {strict : Bool}
    (hne : (pmmAllocPagesInternal s count zone strict).1 ≠ 0) :
    ∃ i, Reachable s i ∧ (s.cells i).state = .free ∧ u64 (count * pageSize) ≤ (s.cells i).size := by
  obtain ⟨b, he⟩ := alloc_eq_pass h count zone strict
  rw [he] at hne
  obtain ⟨F, hinv, hacc⟩ := h
  cases hs : scanRoots s (u64 (count * pageSize)) zone b with
  | none => simp [allocPass, hs] at hne
  | some pr =>
    obtain ⟨idx, found⟩ := pr
    obtain ⟨w, -⟩ := Holding.of_scan hinv hacc hs
    obtain ⟨_, _, hat⟩ := w.leaf_at
    exact ⟨found, hinv.reachable_iff.mpr w.mem_ids, hat.state_eq, w.req_le⟩

/-- A nonzero answer is the base of a USED cell of at least `count` pages; the answer 0 means
that no FREE cell is that large, and leaves the allocator as it was. -/
structure Adequate (s : State) (count : Nat) (out : Nat × State) : Prop where
  enough : out.1 ≠ 0 → ∃ i < out.2.cellCount, (out.2.cells i).state = .used ∧
    (out.2.cells i).base = out.1 ∧ count * pageSize ≤ (out.2.cells i).size
  refused : out.1 = 0 → (∀ i, Reachable s i → (s.cells i).state = .free →
    (s.cells i).size < count * pageSize) ∧ out.2 = s

/-- The size asked for does not wrap, or no FREE cell would serve even the wrapped size. -/
def Unwrapped (s : State) (count : Nat) : Prop :=
  count * pageSize < 2 ^ 64 ∨
    ∀ i, Reachable s i → (s.cells i).state = .free → (s.cells i).size < u64 (count * pageSize)

lemma alloc_adequate_iff {s : State} (h : Good s) (count : Nat) (zone : Zone) (strict : Bool) :
    Adequate s count (pmmAllocPagesInternal s count zone strict) ↔ Unwrapped s count := by
  have hle : u64 (count * pageSize) ≤ count * pageSize := mod_le _ _
  have hcases := alloc_cases h count zone strict
  have hfail := @alloc_failed s h count zone strict
  have hserved := @alloc_served s h count zone strict
  generalize pmmAllocPagesInternal s count zone strict = out at hcases hfail hserved
  constructor
  · intro ha
    by_cases h0 : out.1 = 0
    · exact .inr fun i hi hst => hfail h0 hi hst
    · left
      obtain ⟨i, hi, hst, hb, hsize⟩ := ha.enough h0
      rcases hcases with he | ⟨size, -, hall⟩
      · rw [he] at h0
        exact absurd rfl h0
      · obtain ⟨hpos, hend, -⟩ := hall.good.allocated_range ⟨i, hi, hst, rfl, rfl⟩
        omega
  · intro hw
    refine ⟨fun hne => ?_, fun h0 => ⟨fun i hi hst => (hfail h0 hi hst).trans_le hle, ?_⟩⟩
    · rcases hcases with he | ⟨size, hreq, hall⟩
      · rw [he] at hne
        exact absurd rfl hne
      · rcases hw with hlt | hnone
        · rw [u64_of_lt hlt] at hreq
          obtain ⟨i, hi, hst, hb, hn⟩ := hall.self
          exact ⟨i, hi, hst, hb, hn ▸ hreq⟩
        · obtain ⟨i, hi, hst, hge⟩ := hserved hne
          exact absurd (hnone i hi hst) (not_lt.mpr hge)
    · rcases hcases with he | ⟨size, -, hall⟩
      · rw [he]
      · exact absurd h0 hall.base_pos.ne'

/-- In every state the allocator can reach, a request for `count` pages is answered adequately
exactly when its size does not wrap around to something the free cells can serve. -/
theorem request_adequate_iff {memmap : List MemmapEntry} {s0 : State} (hd : UsableDisjoint memmap)
    (hz : NoPageZero memmap) (hinit : pmmInit memmap = some s0) (calls : List Call) (count : Nat) :
    (Adequate (runCalls s0 calls) count (pmmAllocPages (runCalls s0 calls) count) ↔
      Unwrapped (runCalls s0 calls) count) ∧
    ∀ zone, (Adequate (runCalls s0 calls) count (pmmAllocPagesZone (runCalls s0 calls) count zone) ↔
      Unwrapped (runCalls s0 calls) count) := by
  have hgood := runCalls_good (pmmInit_good hd hz hinit) calls
  exact ⟨alloc_adequate_iff hgood count .normal false,
    fun zone => alloc_adequate_iff hgood count zone true⟩

/-- Three pages are asked for after one page was taken. -/
theorem request_adequate_iff_fivePages : ∃ s0, pmmInit [fivePages] = some s0 ∧
    Adequate (runCalls s0 [.allocPage]) 3 (pmmAllocPages (runCalls s0 [.allocPage]) 3) := by
  have hsome : (pmmInit [fivePages]).isSome = true := by decide
  obtain ⟨s0, h0⟩ := isSome_iff_exists.mp hsome
  have hiff := (request_adequate_iff (by simp [UsableDisjoint]) (by simp [NoPageZero, fivePages])
    h0 [.allocPage] 3).1
  exact ⟨s0, h0, hiff.mpr (.inl (by decide))⟩

/-- A request for 2^52 pages asks for 0 bytes and is given a single page. -/
theorem request_wraps : ∃ s0, pmmInit [fivePages] = some s0 ∧
    (pmmAllocPages s0 (2 ^ 52)).1 = 4096 ∧
    ¬ Adequate s0 (2 ^ 52) (pmmAllocPages s0 (2 ^ 52)) := by
  have hsome : (pmmInit [fivePages]).isSome = true := by decide
  obtain ⟨s0, h0⟩ := isSome_iff_exists.mp hsome
  have hval : (pmmInit [fivePages]).map (fun s => (pmmAllocPages s (2 ^ 52)).1) = some 4096 := by
    decide +kernel
  rw [h0] at hval
  have hbase : (pmmAllocPages s0 (2 ^ 52)).1 = 4096 := some.inj hval
  refine ⟨s0, h0, hbase, fun ha => ?_⟩
  obtain ⟨i, hi, hst, -, hsize⟩ := ha.enough (by rw [hbase]; decide)
  have hgood : Good (pmmAllocPages s0 (2 ^ 52)).2 :=
    alloc_good (pmmInit_good (by simp [UsableDisjoint]) (by simp [NoPageZero, fivePages]) h0) _ _ _
  obtain ⟨hpos, hend, -⟩ := hgood.allocated_range ⟨i, hi, hst, rfl, rfl⟩
  unfold pageSize at hsize
  omega

end YamKernel.Pmm

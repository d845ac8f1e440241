import YamKernel.Mem.Pmm.FreeMemory

/-!
# Series of one-page requests

The callers of the allocator that take pages one at a time differ only in how many they ask
for. A request that fails changes nothing, so the state after a series is a function of its
length (`draws`), whether or not the memory sufficed (`Provides`).
-/

namespace YamKernel.Pmm

open Lib Nat

def draws : Nat → State → State
  | 0, s => s
  | n + 1, s => draws n (pmmAllocPage s).2

/-- The next `n` one-page requests succeed. -/
def Provides (s : State) (n : Nat) : Prop := ∀ k < n, (pmmAllocPage (draws k s)).1 ≠ 0

instance (s : State) (n : Nat) : Decidable (Provides s n) :=
  inferInstanceAs (Decidable (∀ k < n, _))

section Supply

variable {s : State} {m n : Nat}

lemma draws_add (m n : Nat) (s : State) : draws (m + n) s = draws n (draws m s) := by
  induction m generalizing s with
  | zero => rw [zero_add, draws]
  | succ m ih => rw [succ_add, draws, draws, ih]

lemma draws_succ (n : Nat) (s : State) : draws (n + 1) s = (pmmAllocPage (draws n s)).2 := by
  rw [draws_add, draws, draws]

lemma provides_zero (s : State) : Provides s 0 := fun _ hk => absurd hk (not_lt_zero _)

lemma Provides.mono (h : Provides s n) (hle : m ≤ n) : Provides s m :=
  fun k hk => h k (hk.trans_le hle)

lemma provides_add : Provides s (m + n) ↔ Provides s m ∧ Provides (draws m s) n := by
  constructor
  · intro h
    exact ⟨h.mono (le_add_right m n), fun k hk => by rw [← draws_add]; exact h _ (by omega)⟩
  · rintro ⟨h1, h2⟩ k hk
    by_cases hkm : k < m
    · exact h1 k hkm
    · have := h2 (k - m) (by omega)
      rwa [← draws_add, Nat.add_sub_cancel' (by omega)] at this

lemma provides_one : Provides s 1 ↔ (pmmAllocPage s).1 ≠ 0 :=
  ⟨fun h => h 0 one_pos, fun h k hk => by rwa [lt_one_iff.mp hk]⟩

lemma provides_succ :
    Provides s (n + 1) ↔ (pmmAllocPage s).1 ≠ 0 ∧ Provides (pmmAllocPage s).2 n := by
  rw [add_comm, provides_add, provides_one]
  rfl

lemma pmmAllocPage_fail (hg : Good s) (h : (pmmAllocPage s).1 = 0) : pmmAllocPage s = (0, s) := by
  rcases pmmAllocPage_cases hg with he | ⟨f, s', he, hf⟩
  · exact he
  · rw [he] at h
    exact absurd h hf.pos.ne'

lemma pmmAllocPage_fresh (hg : Good s) (h : (pmmAllocPage s).1 ≠ 0) :
    Fresh s (pmmAllocPage s).2 (pmmAllocPage s).1 := by
  rcases pmmAllocPage_cases hg with he | ⟨f, s', he, hf⟩
  · rw [he] at h
    exact absurd rfl h
  · rw [he]
    exact hf

lemma Fresh.provides {f : Nat} (h : Fresh s (pmmAllocPage s).2 f) (hg : Good s) :
    Provides s 1 := by
  refine provides_one.mpr fun h0 => ?_
  rw [pmmAllocPage_fail hg h0] at h
  have : 0 < pageSize := by decide
  exact h.held f le_rfl (by omega) (h.free f le_rfl (by omega))

lemma draws_exhausted (hg : Good s) (h : (pmmAllocPage s).1 = 0) (n : Nat) : draws n s = s := by
  induction n with
  | zero => rfl
  | succ n ih => rw [draws, pmmAllocPage_fail hg h, ih]

lemma draws_stop (hg : Good (draws m s)) (h : ¬ Provides (draws m s) 1) (hle : m ≤ n) :
    draws n s = draws m s := by
  obtain ⟨k, rfl⟩ := Nat.exists_eq_add_of_le hle
  rw [draws_add, draws_exhausted hg (by_contra fun hc => h (provides_one.mpr hc))]

lemma draws_good (hg : Good s) (n : Nat) : Good (draws n s) := by
  induction n with
  | zero => exact hg
  | succ n ih =>
    rw [draws_succ]
    by_cases h : (pmmAllocPage (draws n s)).1 = 0
    · rw [pmmAllocPage_fail ih h]
      exact ih
    · exact (pmmAllocPage_fresh ih h).good

/-- After a series in which a request failed, the next one fails. -/
theorem not_provides_exhausted (hg : Good s) (h : ¬ Provides s n) :
    (pmmAllocPage (draws n s)).1 = 0 := by
  unfold Provides at h
  push Not at h
  obtain ⟨k, hk, hfail⟩ := h
  have hstop : draws n s = draws k s :=
    draws_stop (draws_good hg k) (fun hc => provides_one.mp hc hfail) hk.le
  rw [hstop, hfail]

lemma not_provides_stop (hg : Good s) (h : ¬ Provides s (n + 1)) (hle : n ≤ m) :
    draws m s = draws n s := by
  unfold Provides at h
  push Not at h
  obtain ⟨k, hk, hfail⟩ := h
  have hstop := fun {j} => draws_stop (n := j) (draws_good hg k) fun hc => provides_one.mp hc hfail
  exact (hstop (by omega)).trans (hstop (by omega)).symm

end Supply

section Takes

variable {s s' : State} {f : Nat} {l : List Nat}

lemma Takes.allocated (h : Takes s s' l) {b n : Nat} (ha : Allocated s b n) : Allocated s' b n := by
  induction h with
  | nil => exact ha
  | cons _ hf ih =>
    obtain ⟨size, -, w⟩ := hf.takes
    exact (w.allocated b n).mpr (.inl ih)

lemma Takes.allocated_mem (h : Takes s s' l) (hg : Good s) (hf : f ∈ l) :
    (∃ n, Allocated s' f n) ∧ ∀ n, ¬ Allocated s f n := by
  refine ⟨?_, fun n ha => ?_⟩
  · induction h with
    | nil => simp at hf
    | cons _ hfresh ih =>
      obtain ⟨size, -, w⟩ := hfresh.takes
      rcases List.mem_cons.mp hf with rfl | hf
      · exact ⟨size, w.self⟩
      · obtain ⟨n, hn⟩ := ih hf
        exact ⟨n, (w.allocated _ _).mpr (.inl hn)⟩
  · exact hg.held_of_allocated ha f le_rfl (by unfold pageSize; omega)
      ((h.mem hg hf).2.2.1 f le_rfl (by unfold pageSize; omega))

lemma Takes.eq_nil (h : Takes s s' l) (hg : Good s)
    (hsame : ∀ b n, Allocated s' b n ↔ Allocated s b n) : l = [] := by
  by_contra hne
  obtain ⟨f, hf⟩ := List.exists_mem_of_ne_nil l hne
  obtain ⟨⟨n, hn⟩, hnot⟩ := h.allocated_mem hg hf
  exact hnot n ((hsame f n).mp hn)

end Takes

/-! ## Requests and page descriptors -/

def State.withPages (s : State) (pages : Nat → Page) : State := { s with pageArray := pages }

section Descriptors

variable (s : State) (pages : Nat → Page)

lemma findFreeCellZone_withPages (fuel idx req : Nat) (zone : Zone) (strict : Bool) :
    findFreeCellZone fuel (s.withPages pages) idx req zone strict =
      findFreeCellZone fuel s idx req zone strict := by
  induction fuel generalizing idx with
  | zero => rfl
  | succ fuel ih =>
    simp only [findFreeCellZone, ih]
    rfl

lemma scanRoots_withPages (req : Nat) (zone : Zone) (strict : Bool) :
    scanRoots (s.withPages pages) req zone strict = scanRoots s req zone strict := by
  simp only [scanRoots, findFreeCellZone_withPages]
  rfl

lemma cellAllocNode_withPages : cellAllocNode (s.withPages pages) =
    ((cellAllocNode s).1, (cellAllocNode s).2.withPages pages) := by
  have hcount : (s.withPages pages).cellCount = s.cellCount := rfl
  unfold cellAllocNode
  rw [hcount]
  split_ifs <;> rfl

lemma splitLoop_withPages (idx size : Nat) (l : List (Fin 4)) :
    splitLoop idx size l (s.withPages pages) =
      ((splitLoop idx size l s).1, (splitLoop idx size l s).2.withPages pages) := by
  induction l generalizing s with
  | nil => rfl
  | cons i l ih =>
    rw [splitLoop, splitLoop, cellAllocNode_withPages]
    dsimp only
    split_ifs
    · rfl
    · exact ih (linkChild (cellAllocNode s).2 idx size (cellAllocNode s).1 i)

lemma cellSplit_withPages (idx : Nat) : cellSplit (s.withPages pages) idx =
    ((cellSplit s idx).1, (cellSplit s idx).2.withPages pages) := by
  unfold cellSplit
  have hcells : (s.withPages pages).cells = s.cells := rfl
  rw [hcells, splitLoop_withPages]
  split_ifs
  · rfl
  · rfl
  · rcases splitLoop idx ((s.cells idx).size / 4) [0, 1, 2, 3] s with ⟨_ | _, s'⟩ <;> rfl

lemma splitDown_withPages (fuel found req : Nat) : splitDown fuel (s.withPages pages) found req =
    ((splitDown fuel s found req).1, (splitDown fuel s found req).2.withPages pages) := by
  induction fuel generalizing s found with
  | zero => rfl
  | succ fuel ih =>
    have hcells : (s.withPages pages).cells = s.cells := rfl
    rw [splitDown, splitDown, hcells, cellSplit_withPages]
    split_ifs
    · rcases cellSplit s found with ⟨_ | _, s'⟩
      · rfl
      · exact ih s' _
    · rfl

lemma pmmAllocPage_withPages : ∃ pages', pmmAllocPage (s.withPages pages) =
    ((pmmAllocPage s).1, (pmmAllocPage s).2.withPages pages') := by
  unfold pmmAllocPage pmmAllocPagesInternal allocPass
  simp only [Bool.false_eq_true, and_false]
  rw [scanRoots_withPages]
  cases scanRoots s (u64 (1 * pageSize)) .normal false with
  | none => exact ⟨pages, rfl⟩
  | some x =>
    simp only [splitDown_withPages]
    exact ⟨_, rfl⟩

end Descriptors

/-- The states have the same cells; their page descriptors may differ. -/
def SameCells (s t : State) : Prop := ∃ pages, t = s.withPages pages

section SameCells

variable {s t u : State}

lemma SameCells.refl (s : State) : SameCells s s := ⟨s.pageArray, rfl⟩

lemma SameCells.trans (h : SameCells s t) (h' : SameCells t u) : SameCells s u := by
  obtain ⟨p, rfl⟩ := h
  obtain ⟨q, rfl⟩ := h'
  exact ⟨q, rfl⟩

lemma SameCells.setRefcount (h : SameCells s t) (pfn n : Nat) :
    SameCells s (t.setRefcount pfn n) := h.trans ⟨_, rfl⟩

lemma SameCells.alloc (h : SameCells s t) : (pmmAllocPage t).1 = (pmmAllocPage s).1 ∧
    SameCells (pmmAllocPage s).2 (pmmAllocPage t).2 := by
  obtain ⟨pages, rfl⟩ := h
  obtain ⟨pages', he⟩ := pmmAllocPage_withPages s pages
  rw [he]
  exact ⟨rfl, pages', rfl⟩

end SameCells

end YamKernel.Pmm

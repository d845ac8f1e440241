import Mathlib.Data.Nat.Count
import YamKernel.Mem.Vmm.Cow

/-!
# The order of a fork

`vmm_fork_address_space` goes through the entries of the source depth first. The entry for the
`m`-th table at depth `d`, or the `m`-th page for `d = 4`, has its turn at time `rank d m`, and
everything below it before `stop d m`. A table is asked for when its entry has its turn, so the
number of requests before a time is the number of tables that come before it (`tabs`).
-/

namespace YamKernel.Vmm

open Lib Nat

/-- When the entry for number `m` at depth `d` has its turn. -/
def rank (d m : Nat) : Nat := 4 * (m * 512 ^ (4 - d)) + d

/-- When everything below it is done. -/
def stop (d m : Nat) : Nat := 4 * ((m + 1) * 512 ^ (4 - d)) + 1

section Rank

variable {d m d' m' n i : Nat}

lemma width_split (h : d ≤ d') (h4 : d' ≤ 4) : 512 ^ (4 - d) = 512 ^ (d' - d) * 512 ^ (4 - d') := by
  rw [← pow_add]
  congr 1
  omega

lemma width_succ (hd : d < 4) : 512 ^ (4 - d) = 512 * 512 ^ (4 - (d + 1)) := by
  simpa using width_split (le_succ d) hd

lemma rank_inj (h0 : 0 < d) (h4 : d ≤ 4) (h0' : 0 < d') (h4' : d' ≤ 4) (h : rank d m = rank d' m') :
    d = d' ∧ m = m' := by
  unfold rank at h
  obtain rfl : d = d' := by omega
  exact ⟨rfl, eq_of_mul_eq_mul_right (show 0 < 512 ^ (4 - d) by positivity) (by omega)⟩

lemma rank_zero_lt (h0 : 0 < d) (m : Nat) : 0 < rank d m := by
  unfold rank
  omega

/-- The entries below a table come right after its own. -/
theorem rank_first (hd : d < 4) (n : Nat) : rank (d + 1) (512 * n) = rank d n + 1 := by
  rw [rank, rank, width_succ hd]
  ring

lemma rank_lt_stop (hd : d ≤ 4) (m : Nat) : rank d m < stop d m := by
  have : 0 < 512 ^ (4 - d) := by positivity
  unfold rank stop
  rw [add_mul]
  omega

lemma stop_last (hd : d < 4) (n : Nat) : stop (d + 1) (512 * n + 511) = stop d n := by
  rw [stop, stop, width_succ hd]
  ring

/-- What has its turn before everything below an entry is done is below it. -/
theorem rank_below (h0 : 0 < d) (h4 : d ≤ 4) (h0' : 0 < d') (h4' : d' ≤ 4)
    (hlo : rank d m ≤ rank d' m') (hhi : rank d' m' < stop d m) :
    d ≤ d' ∧ m' / 512 ^ (d' - d) = m := by
  unfold rank stop at *
  rcases lt_or_ge d' d with hlt | hge
  · -- An entry further up starts a range that this one is in the middle of.
    have hw : m' * 512 ^ (4 - d') = m' * 512 ^ (d - d') * 512 ^ (4 - d) := by
      rw [width_split hlt.le h4, mul_assoc]
    have h1 : m < m' * 512 ^ (d - d') :=
      Nat.lt_of_mul_lt_mul_right (a := 512 ^ (4 - d)) (by omega)
    have h2 : m' * 512 ^ (d - d') < m + 1 :=
      Nat.lt_of_mul_lt_mul_right (a := 512 ^ (4 - d)) (by omega)
    omega
  · have hw : ∀ k, k * 512 ^ (4 - d) = k * 512 ^ (d' - d) * 512 ^ (4 - d') := fun k => by
      rw [width_split hge h4', mul_assoc]
    rw [hw] at hlo hhi
    have h1 := le_of_mul_le_mul_right
      (show m * 512 ^ (d' - d) * 512 ^ (4 - d') ≤ m' * 512 ^ (4 - d') by omega) (by positivity)
    have h2 := lt_of_mul_lt_mul_right
      (show m' * 512 ^ (4 - d') < (m + 1) * 512 ^ (d' - d) * 512 ^ (4 - d') by omega) (zero_le _)
    exact ⟨hge, Nat.div_eq_of_lt_le h1 h2⟩

lemma rank_le_below (h : d ≤ d') (h4 : d' ≤ 4) (hm : m' / 512 ^ (d' - d) = m) :
    rank d m ≤ rank d' m' := by
  have hle : m * 512 ^ (d' - d) ≤ m' := by
    rw [← hm]
    exact div_mul_le_self _ _
  have := mul_le_mul_right (512 ^ (4 - d')) hle
  rw [mul_assoc, ← width_split h h4] at this
  unfold rank
  omega

/-- Nothing has its turn between two entries of a table. -/
theorem rank_gap (hd : d < 4) (hi : i + 1 < 512) (h0' : 0 < d') (h4' : d' ≤ 4)
    (hlo : stop (d + 1) (512 * n + i) ≤ rank d' m') :
    rank (d + 1) (512 * n + i + 1) ≤ rank d' m' := by
  unfold rank stop at *
  rcases lt_or_ge d d' with hlt | hge
  · omega
  · have : m' * 512 ^ (4 - d') = m' * 512 ^ (d - d') * 512 * 512 ^ (4 - (d + 1)) := by
      rw [width_split (by omega) hd, show d + 1 - d' = d - d' + 1 by omega]
      ring
    have := le_of_mul_le_mul_right (show (512 * n + i + 1) * 512 ^ (4 - (d + 1)) ≤
      m' * 512 ^ (d - d') * 512 * 512 ^ (4 - (d + 1)) by omega) (by positivity)
    -- The entry is not the first one of its table.
    have h2 : (512 * n + i + 2) * 512 ^ (4 - (d + 1)) ≤
        m' * 512 ^ (d - d') * 512 * 512 ^ (4 - (d + 1)) := mul_le_mul_right _ (by omega)
    have : 0 < 512 ^ (4 - (d + 1)) := by positivity
    rw [succ_mul] at h2
    omega

lemma rank_mono (hd : d < 4) (hi : i < 512) : rank d n < rank (d + 1) (512 * n + i) := by
  rw [← succ_le_iff, succ_eq_add_one, ← rank_first hd]
  unfold rank
  gcongr
  omega

end Rank

/-! ## Requests -/

/-- A table of the source has its turn at time `k`. -/
def TableTurn (m : Mem) (src k : Nat) : Prop :=
  ∃ d n, 0 < d ∧ d ≤ 3 ∧ rank d n = k ∧ tableAt 256 m src d n ≠ none

noncomputable instance (m : Mem) (src : Nat) : DecidablePred (TableTurn m src) :=
  Classical.decPred _

/-- The number of tables of the source whose turn is before time `k`. -/
noncomputable def tabs (m : Mem) (src k : Nat) : Nat := count (TableTurn m src) k

section Tabs

variable {m : Mem} {src d n k k' : Nat}

lemma tabs_mono (h : k ≤ k') : tabs m src k ≤ tabs m src k' := count_monotone _ h

lemma tableTurn_rank (h0 : 0 < d) (h3 : d ≤ 3) (h : tableAt 256 m src d n ≠ none) :
    TableTurn m src (rank d n) := ⟨d, n, h0, h3, rfl, h⟩

lemma tabs_succ (h : TableTurn m src k) : tabs m src (k + 1) = tabs m src k + 1 := by
  rw [tabs, tabs, count_succ, if_pos h]

lemma tabs_skip (hle : k ≤ k') (h : ∀ j, k ≤ j → j < k' → ¬ TableTurn m src j) :
    tabs m src k' = tabs m src k := by
  unfold tabs
  induction k', hle using le_induction with
  | base => rfl
  | succ j hj ih =>
    rw [count_succ, if_neg (h j hj (by omega)), add_zero, ih fun i h1 h2 => h i h1 (by omega)]

lemma tabs_one : tabs m src 1 = 0 := by
  rw [tabs, count_succ, count_zero, if_neg]
  rintro ⟨d, n, h0, -, hr, -⟩
  exact absurd hr (rank_zero_lt h0 n).ne'

lemma tableAt_above {top r j : Nat} (h : tableAt top m r (d + j) n ≠ none) :
    tableAt top m r d (n / 512 ^ j) ≠ none := by
  induction j generalizing n with
  | zero => simpa using h
  | succ j ih =>
    obtain ⟨t, ht⟩ := Option.ne_none_iff_exists'.mp h
    obtain ⟨q, hq, -⟩ := Radix.node_parent (d := d + j) ht
    have := ih (fun hn => by rw [tableAt, hq] at hn; simp at hn)
    rwa [Nat.div_div_eq_div_mul, ← pow_succ'] at this

/-- There are no tables of pages below the fourth level. -/
theorem tableAt_depth {top r : Nat} (h : tableAt top m r d n ≠ none) : d ≤ 3 := by
  by_contra hd
  obtain ⟨j, rfl⟩ : ∃ j, d = 4 + j := ⟨d - 4, by omega⟩
  refine tableAt_above h ?_
  refine Option.bind_eq_none_iff.mpr fun t _ => ?_
  exact nextOf_three

lemma tableAt_le_three {top r t : Nat} (h : tableAt top m r d n = some t) : d ≤ 3 :=
  tableAt_depth (by rw [h]; simp)

/-- A table that has its turn while the entry `m` at depth `d` is dealt with is below the table
of that entry. -/
theorem table_below {e d' n' : Nat} (h0 : 0 < d) (h4 : d ≤ 4)
    (hsome : tableAt 256 m src d' n' ≠ none) (h0' : 0 < d') (hlo : rank d e ≤ rank d' n')
    (hhi : rank d' n' < stop d e) : tableAt 256 m src d e ≠ none := by
  have := tableAt_depth hsome
  obtain ⟨hd', hn'⟩ := rank_below h0 h4 h0' (by omega) hlo hhi
  obtain ⟨j, rfl⟩ := Nat.exists_eq_add_of_le hd'
  rw [Nat.add_sub_cancel_left] at hn'
  exact hn' ▸ tableAt_above hsome

/-- An entry that has its turn meanwhile is that one, or in a table below it. -/
theorem slot_below {e d' n' i u : Nat} (h0 : 0 < d) (h4 : d ≤ 4)
    (hu : tableAt 256 m src d' n' = some u) (hi : i < 512)
    (hlo : rank d e ≤ rank (d' + 1) (512 * n' + i))
    (hhi : rank (d' + 1) (512 * n' + i) < stop d e) :
    (d' + 1 = d ∧ 512 * n' + i = e) ∨
      tableAt 256 m src d e ≠ none ∧ rank d e ≤ rank d' n' := by
  have := tableAt_le_three hu
  obtain ⟨hd', hn'⟩ := rank_below h0 h4 (succ_pos d') (by omega) hlo hhi
  rcases eq_or_lt_of_le hd' with rfl | hlt
  · rw [Nat.sub_self, pow_zero, Nat.div_one] at hn'
    exact .inl ⟨rfl, hn'⟩
  · rw [show d' + 1 - d = d' - d + 1 by omega, pow_succ', ← Nat.div_div_eq_div_mul,
      Radix.div_digit hi] at hn'
    have hle := rank_le_below (by omega) (by omega) hn'
    obtain ⟨j, rfl⟩ := Nat.exists_eq_add_of_le (show d ≤ d' by omega)
    rw [Nat.add_sub_cancel_left] at hn'
    exact .inr ⟨hn' ▸ tableAt_above (by rw [hu]; simp), hle⟩

/-- The numbers of the tables of the lower half. -/
theorem tableAt_number (h : tableAt 256 m src (d + 1) n ≠ none) : n < 256 * 512 ^ d := by
  have h1 : tableAt 256 m src 1 (n / 512 ^ d) ≠ none := tableAt_above (by rwa [add_comm])
  obtain ⟨t, ht⟩ := Option.ne_none_iff_exists'.mp h1
  obtain ⟨q, hq, hnext⟩ := Radix.node_parent ht
  have : n / 512 ^ d / 512 = 0 := by
    rw [Radix.node] at hq
    split_ifs at hq with hn
    exact hn
  have hlt : n / 512 ^ d % 512 < 256 := nextOf_root hnext
  have hlt : n / 512 ^ d < 256 := by omega
  rwa [div_lt_iff_lt_mul (by positivity)] at hlt

lemma rank_lt_end (hd : d ≤ 3) (hn : n < 256 * 512 ^ d) : rank (d + 1) n < stop 1 255 := by
  have hle : (n + 1) * 512 ^ (4 - (d + 1)) ≤ 256 * 512 ^ d * 512 ^ (4 - (d + 1)) :=
    mul_le_mul_right _ hn
  have : 256 * 512 ^ d * 512 ^ (4 - (d + 1)) = 256 * 512 ^ 3 := by
    rw [mul_assoc, ← pow_add]
    congr 2
    omega
  have : 0 < 512 ^ (4 - (d + 1)) := by positivity
  unfold rank stop
  rw [succ_mul] at hle
  omega

lemma tableAt_rank (h : tableAt 256 m src d n ≠ none) : rank d n < stop 1 255 := by
  have := tableAt_depth h
  cases d with
  | zero =>
    rw [tableAt, Radix.node] at h
    split_ifs at h with hn
    · subst hn
      decide
    · exact absurd rfl h
  | succ d => exact rank_lt_end (by omega) (tableAt_number h)

lemma slot_rank {i : Nat} (h : tableAt 256 m src (d + 1) n ≠ none) (hi : i < 512) :
    rank (d + 1 + 1) (512 * n + i) < stop 1 255 := by
  have := tableAt_depth h
  have := tableAt_number h
  refine rank_lt_end (by omega) ?_
  omega

end Tabs

end YamKernel.Vmm

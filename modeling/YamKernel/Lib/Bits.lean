import Mathlib.Data.Nat.Bitwise

/-!
# Bit fields

Masks of consecutive bits and single-bit tests on natural numbers, in the forms in which
C code uses them.
-/

namespace YamKernel.Lib

open Nat

variable {n lo hi : Nat}

/-- The mask of the bits from `lo` up to `hi`. -/
theorem testBit_field (h : lo ≤ hi) (i : Nat) :
    (2 ^ hi - 2 ^ lo).testBit i = decide (lo ≤ i ∧ i < hi) := by
  have hmul : 2 ^ hi - 2 ^ lo = (2 ^ (hi - lo) - 1) <<< lo := by
    rw [shiftLeft_eq, Nat.sub_mul, one_mul, ← pow_add, Nat.sub_add_cancel h]
  rw [hmul, testBit_shiftLeft, testBit_two_pow_sub_one]
  by_cases hi' : lo ≤ i
  · simp only [hi', decide_true, Bool.true_and, true_and, decide_eq_decide]
    omega
  · simp [hi']

lemma and_field (h : lo ≤ hi) (n : Nat) :
    n &&& (2 ^ hi - 2 ^ lo) = n / 2 ^ lo % 2 ^ (hi - lo) * 2 ^ lo := by
  refine eq_of_testBit_eq fun i => ?_
  rw [testBit_and, testBit_field h, ← shiftLeft_eq, testBit_shiftLeft,
    testBit_mod_two_pow, testBit_div_two_pow]
  by_cases hi' : lo ≤ i
  · have hlt : (i < hi) = (i - lo < hi - lo) := by
      rw [eq_iff_iff]; omega
    simp [hi', hlt, Bool.and_comm]
  · simp [hi']

end YamKernel.Lib

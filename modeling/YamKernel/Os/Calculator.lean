import Mathlib.Tactic.Linarith

/-!
# The calculator's arithmetic

A value of the calculator is a signed 64-bit number of units of 1/10000. Where an operation of
the machine overflows or traps its result here is `none`. An operation of the calculator then
has three outcomes: `none`, `some none` when it reports an error, and the value it stores.
-/

namespace YamKernel.Calculator

/-- A value of type `i64`. -/
def Fits (v : Int) : Prop := -2 ^ 63 ≤ v ∧ v < 2 ^ 63

instance (v : Int) : Decidable (Fits v) := inferInstanceAs (Decidable (_ ∧ _))

/-- The result of a signed operation with the mathematical result `v`. -/
def i64 (v : Int) : Option Int := if Fits v then some v else none

/-- Machine division truncates and traps on a zero divisor and on an overflow. -/
def div (a b : Int) : Option Int := if b = 0 then none else i64 (a.tdiv b)

/-! ## The square root -/

/-- `while (y < x) { x = y; y = (x + n / x) / 2; }` on numbers that are not negative. -/
def isqrtLoop (n x y : Nat) : Option Nat :=
  if y < x then
    if y ≠ 0 ∧ Fits (y + n / y : Nat) then isqrtLoop n y ((y + n / y) / 2) else none
  else some x
termination_by x

def isqrt64 (n : Int) : Option Nat :=
  if n ≤ 0 then some 0
  else if Fits (n + 1) then isqrtLoop n.toNat n.toNat ((n.toNat + 1) / 2)
  else none

variable {n x : Nat}

/-- A step does not go below the root: twice the mean of `x` and `n / x` is at most one short. -/
lemma lt_newton (hx : 0 < x) : n < ((x + n / x) / 2 + 1) * ((x + n / x) / 2 + 1) := by
  have hq := Nat.lt_mul_div_succ n hx
  have hm : x + (n / x + 1) ≤ 2 * ((x + n / x) / 2 + 1) := by omega
  generalize (x + n / x) / 2 + 1 = m at hm ⊢
  generalize n / x + 1 = q at hq hm
  have : 4 * (x * q) ≤ (x + q) * (x + q) := by nlinarith [sq_nonneg ((x : ℤ) - q)]
  nlinarith [Nat.mul_le_mul hm hm]

lemma add_div_le (hx : 0 < x) (hxn : x ≤ n) : x + n / x ≤ n + 1 := by
  have : 0 < n / x := Nat.div_pos hxn hx
  nlinarith [Nat.mul_div_le n x]

lemma isqrtLoop_eq (hn : n < 2 ^ 63 - 1) (hx : 0 < x) (hxn : x ≤ n) (hlt : n < (x + 1) * (x + 1)) :
    isqrtLoop n x ((x + n / x) / 2) = some n.sqrt := by
  induction x using Nat.strongRecOn with
  | _ x ih =>
    have : 0 < n / x := Nat.div_pos hxn hx
    rw [isqrtLoop]
    split
    · next hy =>
      have hnew := lt_newton (n := n) hx
      have hpos : 0 < (x + n / x) / 2 := by omega
      generalize (x + n / x) / 2 = y at hy hpos hnew ⊢
      have hsum := add_div_le hpos (n := n) (by omega)
      have hfit : Fits (y + n / y : Nat) := by
        generalize n / y = q at hsum ⊢
        unfold Fits
        omega
      rw [if_pos ⟨by omega, hfit⟩]
      exact ih y hy hpos (by omega) hnew
    · next hy =>
      have hle : x * x ≤ n := (Nat.mul_le_mul_left x (by omega)).trans (Nat.mul_div_le n x)
      rw [Nat.eq_sqrt.mpr ⟨hle, hlt⟩]

lemma isqrt64_eq {v : Int} (h : v < 2 ^ 63 - 1) : isqrt64 v = some v.toNat.sqrt := by
  unfold isqrt64
  split
  · next hv => rw [Int.toNat_eq_zero.mpr hv, Nat.sqrt_zero]
  · next hv =>
    have hn : v.toNat / v.toNat = 1 := Nat.div_self (by omega)
    have := isqrtLoop_eq (n := v.toNat) (x := v.toNat) (by omega) (by omega) le_rfl (by nlinarith)
    rwa [hn, ← if_pos (t := isqrtLoop _ _ _) (e := none)
      (show Fits (v + 1) by unfold Fits; omega)] at this

/-- The loop ends (`isqrtLoop` is total) without an overflow, at the root rounded down. -/
theorem isqrt64_spec (n : Int) (h0 : 0 ≤ n) (hn : n ≤ 2 ^ 63 - 2) :
    ∃ r : Nat, isqrt64 n = some r ∧ (r * r : Int) ≤ n ∧ n < (r + 1) * (r + 1) := by
  refine ⟨n.toNat.sqrt, isqrt64_eq (by omega), ?_, ?_⟩
  · have := n.toNat.sqrt_le
    zify at this
    omega
  · have := n.toNat.lt_succ_sqrt
    zify at this
    omega

theorem isqrt64_spec_99 : ∃ r : Nat, isqrt64 99 = some r ∧ (r * r : Int) ≤ 99 ∧
    99 < ((r : Int) + 1) * (r + 1) :=
  isqrt64_spec 99 (by decide) (by decide)

/-! ## The operations -/

def SCALE : Int := 10000

def applyOp (left right : Int) (op : Char) : Option (Option Int) :=
  if op = '+' then (i64 (left + right)).map some
  else if op = '-' then (i64 (left - right)).map some
  else if op = '*' then ((i64 (left * right)).bind (div · SCALE)).map some
  else if op = '/' then
    if right = 0 then some none else ((i64 (left * SCALE)).bind (div · right)).map some
  else some (some right)

def unarySquare (value : Int) : Option (Option Int) :=
  ((i64 (value * value)).bind (div · SCALE)).map some

def unarySqrt (value : Int) : Option (Option Int) :=
  if value < 0 then some none
  else ((i64 (value * SCALE)).bind isqrt64).map fun r => some (r : Int)

def unaryReciprocal (value : Int) : Option (Option Int) :=
  if value = 0 then some none else (div (SCALE * SCALE) value).map some

/-- The operation reports an error or stores `v`, and the machine neither traps nor overflows. -/
def Exact (out : Option (Option Int)) (v : Int) : Prop := out = some none ∨ out = some (some v)

variable {a b v : Int}

lemma exact_i64 : Exact ((i64 v).map some) v ↔ Fits v := by
  unfold Exact i64
  split <;> simp_all

lemma exact_div (hb : b ≠ 0) (h : Fits a → Fits (a.tdiv b)) :
    Exact (((i64 a).bind (div · b)).map some) (a.tdiv b) ↔ Fits a := by
  unfold Exact i64 div
  split
  · next ha => simp [i64, h ha, ha]
  · next ha => simp [ha]

lemma fits_tdiv_scale (ha : Fits a) : Fits (a.tdiv SCALE) := by
  unfold Fits SCALE at *
  rw [Int.tdiv_eq_ediv, Int.sign_eq_one_of_pos (by decide)]
  split <;> omega

/-- No multiple of 10000 is `INT64_MIN`, which traps when divided by -1. -/
lemma fits_scale_tdiv (ha : Fits (a * SCALE)) : Fits ((a * SCALE).tdiv b) := by
  have := Int.natAbs_tdiv_le_natAbs (a * SCALE) b
  unfold Fits SCALE at *
  omega

lemma exact_sqrt :
    Exact (((i64 (v * SCALE)).bind isqrt64).map fun r => some (r : Int)) (v * SCALE).toNat.sqrt ↔
      Fits (v * SCALE) := by
  unfold Exact i64
  split
  · next h =>
    have : v * SCALE < 2 ^ 63 - 1 := by unfold Fits SCALE at *; omega
    simp [isqrt64_eq this, h]
  · next h => simp [h]

/-- Each operation is exact when the sum, the difference or the product the code forms first fits
in 64 bits, and only then. A reciprocal always is. -/
theorem operations_exact_iff (l r : Int) :
    (Exact (applyOp l r '+') (l + r) ↔ Fits (l + r)) ∧
    (Exact (applyOp l r '-') (l - r) ↔ Fits (l - r)) ∧
    (Exact (applyOp l r '*') ((l * r).tdiv SCALE) ↔ Fits (l * r)) ∧
    (Exact (applyOp l r '/') ((l * SCALE).tdiv r) ↔ r = 0 ∨ Fits (l * SCALE)) ∧
    (Exact (unarySquare l) ((l * l).tdiv SCALE) ↔ Fits (l * l)) ∧
    (Exact (unarySqrt l) (l * SCALE).toNat.sqrt ↔ l < 0 ∨ Fits (l * SCALE)) ∧
    Exact (unaryReciprocal l) ((SCALE * SCALE).tdiv l) := by
  have herr : ∀ v, Exact (some none) v := fun v => .inl rfl
  refine ⟨exact_i64, exact_i64, exact_div (by decide) fits_tdiv_scale, ?_,
    exact_div (by decide) fits_tdiv_scale, ?_, ?_⟩
  · by_cases hr : r = 0
    · simp [applyOp, hr, herr]
    · simpa [applyOp, hr] using exact_div hr fits_scale_tdiv
  · by_cases hl : l < 0
    · simp [unarySqrt, hl, herr]
    · simpa [unarySqrt, hl] using exact_sqrt (v := l)
  · by_cases hl : l = 0
    · simp [unaryReciprocal, hl, herr]
    · have := Int.natAbs_tdiv_le_natAbs (SCALE * SCALE) l
      have hfit : Fits ((SCALE * SCALE).tdiv l) := by unfold Fits SCALE at *; omega
      simp [unaryReciprocal, hl, div, i64, hfit, Exact]

/-- 400000 * 400000 fits, but the product before the division does not. -/
theorem multiplication_overflows : Fits (4000000000 * 4000000000 / SCALE) ∧
    applyOp 4000000000 4000000000 '*' = none := by decide

end YamKernel.Calculator

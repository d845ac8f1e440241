import Mathlib.Algebra.Group.Nat.Defs
import Mathlib.Tactic.Common

/-!
# Machine words

C's unsigned types are natural numbers reduced modulo a power of two at the point
where the source computes them.
-/

namespace YamKernel.Lib

/-- The value of a `u64` expression. -/
def u64 (n : Nat) : Nat := n % 2 ^ 64

def u32 (n : Nat) : Nat := n % 2 ^ 32

def sub64 (a b : Nat) : Nat := u64 (a + (2 ^ 64 - u64 b))

def sub32 (a b : Nat) : Nat := u32 (a + (2 ^ 32 - u32 b))

lemma u64_lt (n : Nat) : u64 n < 2 ^ 64 := Nat.mod_lt _ (by decide)
lemma u32_lt (n : Nat) : u32 n < 2 ^ 32 := Nat.mod_lt _ (by decide)

lemma u64_of_lt {n : Nat} (h : n < 2 ^ 64 := by omega) : u64 n = n := Nat.mod_eq_of_lt h
lemma u32_of_lt {n : Nat} (h : n < 2 ^ 32 := by omega) : u32 n = n := Nat.mod_eq_of_lt h

lemma sub64_of_le {a b : Nat} (hb : b ≤ a := by omega) (ha : a < 2 ^ 64 := by omega) :
    sub64 a b = a - b := by
  unfold sub64 u64; omega

lemma sub32_of_le {a b : Nat} (hb : b ≤ a) (ha : a < 2 ^ 32) : sub32 a b = a - b := by
  unfold sub32 u32; omega

end YamKernel.Lib

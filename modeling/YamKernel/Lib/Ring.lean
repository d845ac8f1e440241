import Mathlib.Data.List.Basic
import Mathlib.Data.Nat.ModEq

/-!
# Ring buffers

A buffer of `cap` cells, read and written at positions that wrap around. `RingHolds` says
that the cells from a position on hold a list; `ringGet` takes elements off its front and
`ringPut` adds elements at its back.
-/

namespace YamKernel.Lib

open List Function Nat

variable {α : Type*} {cap pos : Nat} {buf : Nat → α} {xs ys : List α}

def RingHolds (cap : Nat) (buf : Nat → α) (pos : Nat) (xs : List α) : Prop :=
  ∀ i (h : i < xs.length), buf ((pos + i) % cap) = xs[i]

/-- Read `n` cells from `pos` on, and the position behind them. -/
def ringGet (cap : Nat) (buf : Nat → α) : Nat → Nat → List α × Nat
  | 0, pos => ([], pos)
  | n + 1, pos =>
    let (xs, pos') := ringGet cap buf n ((pos + 1) % cap)
    (buf pos :: xs, pos')

/-- Write the elements from `pos` on. -/
def ringPut (cap : Nat) : List α → (Nat → α) → Nat → (Nat → α) × Nat
  | [], buf, pos => (buf, pos)
  | x :: xs, buf, pos => ringPut cap xs (update buf pos x) ((pos + 1) % cap)

lemma RingHolds.tail {x : α} (h : RingHolds cap buf pos (x :: xs)) :
    RingHolds cap buf ((pos + 1) % cap) xs := by
  intro i hi
  rw [mod_add_mod, add_assoc, add_comm 1 i]
  exact h (i + 1) (succ_lt_succ hi)

lemma RingHolds.drop (h : RingHolds cap buf pos (xs ++ ys)) :
    RingHolds cap buf ((pos + xs.length) % cap) ys := by
  intro i hi
  rw [mod_add_mod, add_assoc]
  have hlt : xs.length + i < (xs ++ ys).length := by rw [length_append]; omega
  rw [h (xs.length + i) hlt]
  simp

lemma ringGet_eq (hpos : pos < cap) (h : RingHolds cap buf pos (xs ++ ys)) :
    ringGet cap buf xs.length pos = (xs, (pos + xs.length) % cap) := by
  induction xs generalizing pos with
  | nil => simp [ringGet, mod_eq_of_lt hpos]
  | cons x xs ih =>
    have hhead : buf pos = x := by
      have := h 0 (by simp)
      rwa [add_zero, mod_eq_of_lt hpos] at this
    have hrest := ih (mod_lt _ (by omega)) h.tail
    rw [length_cons, ringGet, hrest, hhead, mod_add_mod, add_assoc,
      add_comm 1 xs.length]

/-- One element more fits while the list is shorter than the buffer. -/
theorem RingHolds.snoc {x : α} (h : RingHolds cap buf pos xs) (hlen : xs.length < cap) :
    RingHolds cap (update buf ((pos + xs.length) % cap) x) pos (xs ++ [x]) := by
  intro i hi
  rw [length_append, length_singleton] at hi
  by_cases hlast : i = xs.length
  · subst hlast
    simp
  · have hne : (pos + i) % cap ≠ (pos + xs.length) % cap := by
      intro he
      have hmod := ModEq.add_left_cancel' pos he
      rw [ModEq, mod_eq_of_lt (by omega), mod_eq_of_lt hlen] at hmod
      exact hlast hmod
    rw [update_of_ne hne, h i (by omega), getElem_append_left]

lemma ringPut_spec (h : RingHolds cap buf pos xs) (hlen : xs.length + ys.length ≤ cap) :
    RingHolds cap (ringPut cap ys buf ((pos + xs.length) % cap)).1 pos (xs ++ ys) ∧
      (ringPut cap ys buf ((pos + xs.length) % cap)).2 = (pos + (xs ++ ys).length) % cap := by
  induction ys generalizing buf xs with
  | nil => exact ⟨by rw [append_nil]; exact h, by rw [append_nil]; rfl⟩
  | cons y ys ih =>
    rw [length_cons] at hlen
    have hstep := ih (h.snoc (x := y) (by omega)) (by rw [length_append]; simp; omega)
    have hpos : (pos + (xs ++ [y]).length) % cap = ((pos + xs.length) % cap + 1) % cap := by
      rw [length_append, length_singleton, ← add_assoc, mod_add_mod]
    rw [hpos, append_assoc] at hstep
    exact hstep

end YamKernel.Lib

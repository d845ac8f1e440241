import Mathlib.Data.List.Induction
import Mathlib.Order.Basic

/-!
# Later writes win

A loop writes one item after the other into a state. If each item either decides what is observed
or leaves it alone, then after the loop the last item that decides it has done so.
-/

namespace YamKernel.Lib

open List

variable {β γ δ : Type}

def lastHit (p : β → Prop) [DecidablePred p] (l : List β) : Option β :=
  (l.filter fun b => p b).getLast?

section LastHit

variable {p : β → Prop} [DecidablePred p] {l : List β} {b : β}

lemma lastHit_append (l : List β) (b : β) :
    lastHit p (l ++ [b]) = if p b then some b else lastHit p l := by
  unfold lastHit
  by_cases h : p b <;> simp [h]

lemma lastHit_some (h : lastHit p l = some b) : b ∈ l ∧ p b := by
  simpa using mem_of_getLast? h

lemma exists_lastHit (hb : b ∈ l) (hp : p b) : ∃ b', lastHit p l = some b' := by
  have hmem : b ∈ l.filter fun b => p b := by simpa using ⟨hb, hp⟩
  exact ⟨_, getLast?_eq_some_getLast (ne_nil_of_mem hmem)⟩

lemma lastHit_none (h : ∀ b ∈ l, ¬ p b) : lastHit p l = none := by
  simpa [lastHit] using h

/-- What is observed after the loop. -/
theorem foldl_lastHit {step : γ → β → γ} {o : γ → δ} {val : β → δ}
    (h : ∀ b ∈ l, ∀ c, o (step c b) = if p b then val b else o c) (c : γ) :
    o (l.foldl step c) = (lastHit p l).elim (o c) val := by
  induction l using reverseRecOn with
  | nil => rfl
  | append_singleton l b ih =>
    rw [foldl_append, foldl_cons, foldl_nil, h b (by simp), lastHit_append,
      ih fun b hb => h b (by simp [hb])]
    split_ifs <;> rfl

end LastHit

end YamKernel.Lib

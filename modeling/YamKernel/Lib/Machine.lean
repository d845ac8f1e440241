import Mathlib.Logic.Basic

/-!
# Machines and their runs

A machine answers an operation with an output and a new state. `Along P` says that `P`
holds of every step of a run, which is how an assumption about the environment is put
on a run. The two rules turn a fact about one step into a fact about whole runs.
-/

namespace YamKernel.Lib

/-- Deterministic machines with operations `ι` and outputs `ω`. -/
abbrev Machine (σ ι ω : Type*) := σ → ι → ω × σ

namespace Machine

variable {σ τ ι ω : Type*}

def run (step : Machine σ ι ω) : σ → List ι → σ
  | s, [] => s
  | s, op :: ops => run step (step s op).2 ops

def outputs (step : Machine σ ι ω) : σ → List ι → List ω
  | _, [] => []
  | s, op :: ops => (step s op).1 :: outputs step (step s op).2 ops

/-- `P` holds of every state and operation of the run. -/
def Along (step : Machine σ ι ω) (P : σ → ι → Prop) : σ → List ι → Prop
  | _, [] => True
  | s, op :: ops => P s op ∧ Along step P (step s op).2 ops

instance instDecidableAlong (step : Machine σ ι ω) (P : σ → ι → Prop) [∀ s op, Decidable (P s op)] :
    (s : σ) → (ops : List ι) → Decidable (step.Along P s ops)
  | _, [] => .isTrue trivial
  | s, op :: ops =>
    have := instDecidableAlong step P (step s op).2 ops
    inferInstanceAs (Decidable (P s op ∧ step.Along P (step s op).2 ops))

variable {step : Machine σ ι ω} {P : σ → ι → Prop} {s : σ} {ops : List ι}

lemma along_of_forall (h : ∀ s op, P s op) (s : σ) (ops : List ι) : step.Along P s ops := by
  induction ops generalizing s with
  | nil => trivial
  | cons op ops ih => exact ⟨h s op, ih _⟩

lemma run_append (step : Machine σ ι ω) (s : σ) (ops ops' : List ι) :
    step.run s (ops ++ ops') = step.run (step.run s ops) ops' := by
  induction ops generalizing s with
  | nil => rfl
  | cons op ops ih => exact ih _

lemma along_append {ops' : List ι} :
    step.Along P s (ops ++ ops') ↔ step.Along P s ops ∧ step.Along P (step.run s ops) ops' := by
  induction ops generalizing s with
  | nil => simp [Along, run]
  | cons op ops ih => simp [Along, run, ih, and_assoc]

/-- Invariants of steps are invariants of runs. -/
theorem run_invariant {I : σ → Prop} (hstep : ∀ s op, I s → P s op → I (step s op).2) (h : I s)
    (hp : step.Along P s ops) : I (step.run s ops) := by
  induction ops generalizing s with
  | nil => exact h
  | cons op ops ih => exact ih (hstep s op h hp.1) hp.2

/-- What an invariant says of single steps, it says of the steps of runs. -/
theorem run_along {Q : σ → ι → Prop} {I : σ → Prop}
    (hstep : ∀ s op, I s → P s op → I (step s op).2 ∧ Q s op) (h : I s) (hp : step.Along P s ops) :
    I (step.run s ops) ∧ step.Along Q s ops := by
  induction ops generalizing s with
  | nil => exact ⟨h, trivial⟩
  | cons op ops ih =>
    obtain ⟨hi, hq⟩ := hstep s op h hp.1
    obtain ⟨hrun, hrest⟩ := ih hi hp.2
    exact ⟨hrun, hq, hrest⟩

/-- A step-wise simulation with equal outputs is a simulation of runs. -/
theorem run_simulation (step : Machine σ ι ω) (spec : Machine τ ι ω)
    {R : σ → τ → Prop}
    (hstep : ∀ s t op, R s t → P s op →
      (step s op).1 = (spec t op).1 ∧ R (step s op).2 (spec t op).2) {t : τ} (h : R s t)
    (hp : step.Along P s ops) :
    step.outputs s ops = spec.outputs t ops ∧ R (step.run s ops) (spec.run t ops) := by
  induction ops generalizing s t with
  | nil => exact ⟨rfl, h⟩
  | cons op ops ih =>
    obtain ⟨hout, hr⟩ := hstep s t op h hp.1
    obtain ⟨houts, hr⟩ := ih hr hp.2
    exact ⟨by rw [outputs, outputs, hout, houts], hr⟩

end Machine

end YamKernel.Lib

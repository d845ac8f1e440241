import Mathlib.Algebra.GroupWithZero.Nat

/-!
# Programs with a log

A program over a state that logs events, and returns a value or stops with an error. The log
takes no part in the computation: it is there to say what a run did. `Gives` is the judgement
for such programs: unless the log has a bad event, the program returns a value with the
property, or stops with an error that is allowed.
-/

namespace YamKernel.Lib

open List

/-- Programs over the states `σ` with events `ε` and errors `κ`. -/
def Traced (ε κ σ α : Type) : Type := σ → List ε × Except κ α × σ

namespace Traced

variable {ε κ σ α β ι : Type}

protected def bind (x : Traced ε κ σ α) (f : α → Traced ε κ σ β) : Traced ε κ σ β := fun s =>
  match x s with
  | (l, .error k, s) => (l, .error k, s)
  | (l, .ok a, s) => (l ++ (f a s).1, (f a s).2)

instance : Monad (Traced ε κ σ) where
  pure a := fun s => ([], .ok a, s)
  bind := Traced.bind

def stop (k : κ) : Traced ε κ σ α := fun s => ([], .error k, s)

def log (e : ε) : Traced ε κ σ Unit := fun s => ([e], .ok (), s)

def act (f : σ → α × σ) : Traced ε κ σ α := fun s => ([], .ok (f s).1, (f s).2)

section Run

variable {x : Traced ε κ σ α} {f : α → Traced ε κ σ β} {s s' : σ} {l : List ε} {a : α} {k : κ}

lemma bind_ok (h : x s = (l, .ok a, s')) : (x >>= f) s = (l ++ (f a s').1, (f a s').2) := by
  change Traced.bind x f s = _
  rw [Traced.bind, h]

lemma bind_error (h : x s = (l, .error k, s')) : (x >>= f) s = (l, .error k, s') := by
  change Traced.bind x f s = _
  rw [Traced.bind, h]

end Run

/-- The program leaves every state as it is, and always ends with `r`. -/
def Fixed (x : Traced ε κ σ α) (r : Except κ α) : Prop := ∀ s, (x s).2 = (r, s)

section Fixed

variable {x : Traced ε κ σ α} {f : α → Traced ε κ σ β} {a : α} {r : Except κ β}

lemma fixed_pure (a : α) : Fixed (pure a : Traced ε κ σ α) (.ok a) := fun _ => rfl

lemma fixed_stop (k : κ) : Fixed (stop k : Traced ε κ σ α) (.error k) := fun _ => rfl

lemma fixed_log (e : ε) : Fixed (log e : Traced ε κ σ Unit) (.ok ()) := fun _ => rfl

lemma Fixed.bind (hx : Fixed x (.ok a)) (hf : Fixed (f a) r) : Fixed (x >>= f) r := by
  intro s
  have hs : x s = ((x s).1, .ok a, s) := Prod.ext rfl (hx s)
  rw [bind_ok hs]
  exact hf s

lemma Fixed.bind_error {k : κ} (hx : Fixed x (.error k)) : Fixed (x >>= f) (.error k) := by
  intro s
  have hs : x s = ((x s).1, .error k, s) := Prod.ext rfl (hx s)
  rw [Traced.bind_error hs]

end Fixed

/-- Unless there is a bad event in the log, the program returns a value with the property `Q` or
stops with an error that is allowed. -/
def Gives (x : Traced ε κ σ α) (s : σ) (bad : ε → Prop) (stops : κ → Prop) (Q : α → σ → Prop) :
    Prop :=
  (∃ e ∈ (x s).1, bad e) ∨
    match (x s).2 with
    | (.ok a, s) => Q a s
    | (.error k, _) => stops k

section Gives

variable {x : Traced ε κ σ α} {f : α → Traced ε κ σ β} {s : σ} {bad : ε → Prop} {stops : κ → Prop}
  {P Q : α → σ → Prop} {R : β → σ → Prop}

lemma gives_pure {a : α} (h : Q a s) : Gives (pure a) s bad stops Q := .inr h

lemma gives_stop {k : κ} (h : stops k) : Gives (stop k) s bad stops Q := .inr h

lemma gives_act {g : σ → α × σ} (h : Q (g s).1 (g s).2) : Gives (act g) s bad stops Q := .inr h

lemma gives_log {e : ε} {Q : Unit → σ → Prop} (h : Q () s) : Gives (log e) s bad stops Q := .inr h

lemma gives_bad {e : ε} {Q : Unit → σ → Prop} (h : bad e) : Gives (log e) s bad stops Q :=
  .inl ⟨e, by simp [log], h⟩

lemma Fixed.gives_stop {k : κ} (hx : Fixed x (.error k)) (h : stops k) : Gives x s bad stops Q := by
  right
  rw [hx s]
  exact h

lemma Gives.mono (h : Gives x s bad stops P) (hQ : ∀ a s, P a s → Q a s) :
    Gives x s bad stops Q := by
  refine h.imp id fun h => ?_
  rcases hx : (x s).2 with ⟨r, s'⟩
  rw [hx] at h
  cases r with
  | ok a => exact hQ a s' h
  | error k => exact h

lemma Gives.bind (h : Gives x s bad stops P) (hf : ∀ a s, P a s → Gives (f a) s bad stops R) :
    Gives (x >>= f) s bad stops R := by
  rcases hx : x s with ⟨l, r, s'⟩
  unfold Gives at h
  rw [hx] at h
  cases r with
  | error k =>
    unfold Gives
    rwa [bind_error hx]
  | ok a =>
    unfold Gives
    rw [bind_ok hx]
    rcases h with ⟨e, he, hbad⟩ | h
    · exact .inl ⟨e, mem_append_left _ he, hbad⟩
    · refine (hf a s' h).imp_left ?_
      rintro ⟨e, he, hbad⟩
      exact ⟨e, mem_append_right _ he, hbad⟩

lemma Fixed.gives_bind {a : α} (hx : Fixed x (.ok a)) (hf : Gives (f a) s bad stops R) :
    Gives (x >>= f) s bad stops R := by
  have hs : x s = ((x s).1, .ok a, s) := Prod.ext rfl (hx s)
  unfold Gives
  rw [bind_ok hs]
  refine hf.imp_left ?_
  rintro ⟨e, he, hbad⟩
  exact ⟨e, mem_append_right _ he, hbad⟩

/-- A loop whose steps follow those of a fold follows the fold, if there is enough of what the
steps use up. -/
theorem gives_forM_foldl {γ : Type} {f : ι → Traced ε κ σ PUnit} {step : γ → ι → γ}
    {I : γ → σ → Prop} {R : Nat → σ → Prop} {cost : ι → Nat} {l : List ι} {n : Nat}
    (hstep : ∀ c, ∀ i ∈ l, ∀ n s, I c s → R (n + cost i) s →
      Gives (f i) s bad stops fun _ s' => I (step c i) s' ∧ R n s') {c : γ}
    (h : I c s) (hR : R (n + (l.map cost).sum) s) :
    Gives (l.forM f) s bad stops fun _ s' => I (l.foldl step c) s' ∧ R n s' := by
  induction l generalizing s c with
  | nil => exact gives_pure ⟨h, hR⟩
  | cons i l ih =>
    rw [map_cons, sum_cons, Nat.add_comm (cost i), ← Nat.add_assoc] at hR
    refine (hstep c i (by simp) _ s h hR).bind ?_
    rintro _ s' ⟨h', hR'⟩
    exact ih (fun c j hj => hstep c j (mem_cons_of_mem _ hj)) h' hR'

lemma gives_forM {f : ι → Traced ε κ σ PUnit} {I : σ → Prop} {l : List ι}
    (hstep : ∀ i ∈ l, ∀ s, I s → Gives (f i) s bad stops fun _ => I) (h : I s) :
    Gives (l.forM f) s bad stops fun _ => I := by
  induction l generalizing s with
  | nil => exact gives_pure h
  | cons i l ih =>
    refine (hstep i (by simp) s h).bind fun _ s' h' => ?_
    exact ih (fun j hj => hstep j (mem_cons_of_mem _ hj)) h'

/-- A program without bad events that stops with no error returns. -/
theorem Gives.returns (h : Gives x s bad stops Q) (hbad : ∀ e ∈ (x s).1, ¬ bad e)
    (hstops : ∀ k, ¬ stops k) : ∃ l a s', x s = (l, .ok a, s') ∧ Q a s' := by
  rcases h with ⟨e, he, hb⟩ | h
  · exact absurd hb (hbad e he)
  · rcases hx : x s with ⟨l, r, s'⟩
    rw [hx] at h
    cases r with
    | ok a => exact ⟨l, a, s', rfl, h⟩
    | error k => exact absurd h (hstops k)

/-- What a program that has returned gives. -/
theorem Gives.of_eq {l : List ε} {a : α} {s' : σ} (h : Gives x s bad stops Q)
    (hx : x s = (l, .ok a, s')) (hbad : ∀ e ∈ l, ¬ bad e) : Q a s' := by
  unfold Gives at h
  rw [hx] at h
  rcases h with ⟨e, he, hb⟩ | h
  · exact absurd hb (hbad e he)
  · exact h

end Gives

end Traced

end YamKernel.Lib

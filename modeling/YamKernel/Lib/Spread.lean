import Mathlib.Data.List.Nodup

/-!
# Items spread over places

`Spread live on`: the items of `live` are spread over places, each at one place and listed there
once. Moving an item to another place keeps this, wherever in the list of that place it is put.
-/

namespace YamKernel.Lib

variable {ι κ : Type*} {live l : List ι} {on : κ → List ι} {t u : ι} {a b c : κ}

structure Spread (live : List ι) (on : κ → List ι) : Prop where
  nodup : ∀ p, (on p).Nodup
  mem : ∀ t, t ∈ live ↔ ∃ p, t ∈ on p
  single : ∀ p q t, t ∈ on p → t ∈ on q → p = q

lemma Spread.mem_live (h : Spread live on) (ht : t ∈ on a) : t ∈ live := (h.mem t).mpr ⟨a, ht⟩

lemma Spread.notMem (h : Spread live on) (ht : t ∈ on a) (hab : b ≠ a) : t ∉ on b :=
  fun hb => hab (h.single b a t hb ht)

section

variable [DecidableEq ι] [DecidableEq κ]

/-- `t` goes from `a` to `b`, where the list is `l` then. -/
def moveItem (on : κ → List ι) (t : ι) (a b : κ) (l : List ι) : κ → List ι :=
  Function.update (Function.update on a ((on a).erase t)) b l

@[simp] theorem moveItem_to : moveItem on t a b l b = l := Function.update_self ..

lemma moveItem_from (hab : a ≠ b) : moveItem on t a b l a = (on a).erase t := by
  simp [moveItem, hab]

lemma moveItem_other (ha : c ≠ a) (hb : c ≠ b) : moveItem on t a b l c = on c := by
  simp [moveItem, ha, hb]

lemma Spread.mem_moveItem (h : Spread live on) (ht : t ∈ on a) (hab : a ≠ b)
    (hl : l.Perm (t :: on b)) : u ∈ moveItem on t a b l c ↔ if u = t then c = b else u ∈ on c := by
  by_cases hb : c = b
  · subst hb
    rw [moveItem_to, hl.mem_iff]
    split_ifs <;> simp_all
  by_cases ha : c = a
  · subst ha
    rw [moveItem_from hab, (h.nodup c).mem_erase_iff]
    split_ifs <;> simp_all
  · rw [moveItem_other ha hb]
    split_ifs with hu
    · exact ⟨fun hc => absurd (hu ▸ hc) (h.notMem ht ha), fun hc => absurd hc hb⟩
    · rfl

lemma Spread.move (h : Spread live on) (ht : t ∈ on a) (hab : a ≠ b) (hl : l.Perm (t :: on b)) :
    Spread live (moveItem on t a b l) := by
  refine ⟨fun p => ?_, fun u => ?_, fun p q u hp hq => ?_⟩
  · by_cases hb : p = b
    · rw [hb, moveItem_to, hl.nodup_iff, List.nodup_cons]
      exact ⟨h.notMem ht (symm hab), h.nodup b⟩
    by_cases ha : p = a
    · rw [ha, moveItem_from hab]
      exact (h.nodup a).erase t
    · rw [moveItem_other ha hb]
      exact h.nodup p
  · simp only [h.mem_moveItem ht hab hl]
    split_ifs with hu
    · exact ⟨fun _ => ⟨b, rfl⟩, fun _ => hu ▸ h.mem_live ht⟩
    · exact h.mem u
  · rw [h.mem_moveItem ht hab hl] at hp hq
    split_ifs at hp hq
    · rw [hp, hq]
    · exact h.single p q u hp hq

omit [DecidableEq ι] in
lemma Spread.birth (h : Spread live on) (ht : t ∉ live) :
    Spread (t :: live) (Function.update on a (t :: on a)) := by
  have hnot : ∀ p, t ∉ on p := fun p hp => ht (h.mem_live hp)
  have hmem : ∀ p u, u ∈ Function.update on a (t :: on a) p ↔ u ∈ on p ∨ p = a ∧ u = t := by
    intro p u
    by_cases hp : p = a
    · subst hp; simp [or_comm]
    · simp [hp]
  refine ⟨fun p => ?_, fun u => ?_, fun p q u hp hq => ?_⟩
  · by_cases hp : p = a
    · subst hp
      simpa using ⟨hnot p, h.nodup p⟩
    · simpa [hp] using h.nodup p
  · simp only [hmem, List.mem_cons, h.mem]
    grind
  · rw [hmem] at hp hq
    have := h.single p q u
    grind

end

end YamKernel.Lib

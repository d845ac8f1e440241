import Mathlib.Data.List.Basic

/-!
# Intrusive singly linked lists

`Chain next h l`: following `next` from the head `h` visits exactly the nodes of `l` and
stops. The nodes are shared with other structures, so the laws say which links a list
depends on (`Chain.frame`) and what unlinking a node in the middle does to it
(`Chain.unlink`).
-/

namespace YamKernel.Lib

open List

variable {ι : Type*} {next next' : ι → Option ι} {h : Option ι} {l : List ι} {t : ι}

def Chain (next : ι → Option ι) : Option ι → List ι → Prop
  | h, [] => h = none
  | h, t :: ts => h = some t ∧ Chain next (next t) ts

lemma Chain.frame (hc : Chain next h l) (he : ∀ t ∈ l, next' t = next t) : Chain next' h l := by
  induction l generalizing h with
  | nil => exact hc
  | cons t ts ih =>
    refine ⟨hc.1, ?_⟩
    rw [he t (by simp)]
    exact ih hc.2 fun u hu => he u (by simp [hu])

lemma Chain.eq_nil (hc : Chain next none l) : l = [] := by
  cases l with
  | nil => rfl
  | cons t ts => exact absurd hc.1 (by simp)

lemma Chain.eq_cons (hc : Chain next (some t) l) : ∃ ts, l = t :: ts ∧ Chain next (next t) ts := by
  cases l with
  | nil => exact absurd hc (by simp [Chain])
  | cons u ts =>
    obtain rfl := Option.some.inj hc.1
    exact ⟨ts, rfl, hc.2⟩

lemma Chain.unique {l' : List ι} (hc : Chain next h l) (hc' : Chain next h l') : l = l' := by
  induction l generalizing h l' with
  | nil =>
    rw [show h = none from hc] at hc'
    exact hc'.eq_nil.symm
  | cons t ts ih =>
    rw [hc.1] at hc'
    obtain ⟨ts', rfl, hts⟩ := hc'.eq_cons
    rw [ih hc.2 hts]

variable {post pre : List ι} {h' : Option ι}

lemma Chain.rest (hc : Chain next h (pre ++ t :: post)) : Chain next (next t) post := by
  induction pre generalizing h with
  | nil => exact hc.2
  | cons u us ih => exact ih hc.2

lemma Chain.nodup (hc : Chain next h l) : l.Nodup := by
  induction l generalizing h with
  | nil => exact nodup_nil
  | cons t ts ih =>
    refine nodup_cons.mpr ⟨fun hmem => ?_, ih hc.2⟩
    obtain ⟨pre, post, rfl⟩ := append_of_mem hmem
    have heq := congrArg length (hc.2.unique hc.2.rest)
    simp at heq
    omega

inductive OnChain (next : ι → Option ι) : Option ι → ι → Prop where
  | here (t : ι) : OnChain next (some t) t
  | there (u t : ι) : OnChain next (next u) t → OnChain next (some u) t

lemma Chain.onChain_iff (hc : Chain next h l) : OnChain next h t ↔ t ∈ l := by
  induction l generalizing h with
  | nil =>
    obtain rfl : h = none := hc
    constructor
    · intro ho; cases ho
    · intro hm; cases hm
  | cons u ts ih =>
    rw [hc.1, mem_cons]
    constructor
    · rintro (_ | ⟨_, _, ho⟩)
      · exact .inl rfl
      · exact .inr ((ih hc.2).mp ho)
    · rintro (rfl | hm)
      · exact .here t
      · exact .there u t ((ih hc.2).mpr hm)

def follow (next : ι → Option ι) : Nat → Option ι → List ι
  | 0, _ => []
  | _ + 1, none => []
  | n + 1, some t => t :: follow next n (next t)

lemma Chain.follow_eq (hc : Chain next h l) {n : Nat} (hn : l.length ≤ n) :
    follow next n h = l := by
  induction n generalizing h l with
  | zero => simpa [follow] using (length_eq_zero_iff.mp (Nat.le_zero.mp hn)).symm
  | succ n ih =>
    cases l with
    | nil => rw [show h = none from hc]; rfl
    | cons t ts =>
      rw [hc.1, follow, ih hc.2 (by simpa using hn)]

/-- The link through which the node after `pre` is reached. -/
def lastLink (next : ι → Option ι) (h : Option ι) (pre : List ι) : Option ι :=
  match pre.getLast? with
  | none => h
  | some u => next u

lemma Chain.suffix (hc : Chain next h (pre ++ post)) : Chain next (lastLink next h pre) post := by
  induction pre generalizing h with
  | nil => exact hc
  | cons t ts ih =>
    have := ih hc.2
    cases ts with
    | nil => exact this
    | cons u us =>
      obtain ⟨v, hv⟩ := Option.isSome_iff_exists.mp (getLast?_isSome.mpr
        (cons_ne_nil u us))
      simpa only [lastLink, getLast?_cons_cons, hv] using this

/-- Unlinking the node after `pre`: only the link it was reached through changes. -/
theorem Chain.unlink (hc : Chain next h (pre ++ t :: post))
    (hd : (pre ++ t :: post).Nodup) (hh : h' = if pre = [] then next t else h)
    (hlast : ∀ u, pre.getLast? = some u → next' u = next t)
    (he : ∀ u ∈ pre ++ post, pre.getLast? ≠ some u → next' u = next u) :
    Chain next' h' (pre ++ post) := by
  induction pre generalizing h h' with
  | nil =>
    rw [hh]
    exact frame hc.2 fun u hu => he u hu (by simp)
  | cons u us ih =>
    obtain ⟨hnot, hd⟩ := nodup_cons.mp hd
    refine ⟨by rw [hh]; exact hc.1, ?_⟩
    refine ih hc.2 hd ?_ (fun v hv => hlast v ?_) fun v hv hne => he v (mem_cons_of_mem u hv) ?_
    · cases us with
      | nil => exact hlast u rfl
      | cons v vs =>
        refine he u (by simp) ?_
        exact fun hu => hnot (mem_append_left _ (mem_of_getLast? hu))
    all_goals cases us <;> grind

end YamKernel.Lib

import YamKernel.Lib.Chain

/-!
# Doubly linked lists

`DSeg next prev p h l q t`: the nodes of `l` are linked both ways; the segment is entered
through the head `h` from the node `p`, and left through the link `t` from the node `q`. A
list is a segment that is entered from nowhere and left through no link.
-/

namespace YamKernel.Lib

open List

variable {ι : Type*} {next prev next' prev' : ι → Option ι} {p q h t : Option ι}
  {l l₁ l₂ pre post : List ι} {x y : ι}

def DSeg (next prev : ι → Option ι) : Option ι → Option ι → List ι → Option ι → Option ι → Prop
  | p, h, [], q, t => q = p ∧ t = h
  | p, h, x :: xs, q, t => h = some x ∧ prev x = p ∧ DSeg next prev (some x) (next x) xs q t

/-- The list of nodes `l` with head `h`. -/
def DList (next prev : ι → Option ι) (h : Option ι) (l : List ι) : Prop :=
  ∃ q, DSeg next prev none h l q none

lemma DSeg.append_iff : DSeg next prev p h (l₁ ++ l₂) q t ↔
    ∃ q' t', DSeg next prev p h l₁ q' t' ∧ DSeg next prev q' t' l₂ q t := by
  induction l₁ generalizing p h with
  | nil => simp [DSeg]
  | cons x xs ih =>
    simp only [cons_append, DSeg, ih]
    constructor
    · rintro ⟨h1, h2, q', t', h3, h4⟩
      exact ⟨q', t', ⟨h1, h2, h3⟩, h4⟩
    · rintro ⟨q', t', ⟨h1, h2, h3⟩, h4⟩
      exact ⟨h1, h2, q', t', h3, h4⟩

lemma DSeg.frame (hs : DSeg next prev p h l q t)
    (he : ∀ x ∈ l, next' x = next x ∧ prev' x = prev x) : DSeg next' prev' p h l q t := by
  induction l generalizing p h with
  | nil => exact hs
  | cons x xs ih =>
    obtain ⟨hh, hp, hs⟩ := hs
    obtain ⟨hn, hpr⟩ := he x (by simp)
    refine ⟨hh, hpr.trans hp, ?_⟩
    rw [hn]
    exact ih hs fun y hy => he y (by simp [hy])

lemma DSeg.chain (hs : DSeg next prev p h l q none) : Chain next h l := by
  induction l generalizing p h with
  | nil => exact hs.2.symm
  | cons x l ih => exact ⟨hs.1, ih hs.2.2⟩

lemma DSeg.last_eq (hs : DSeg next prev p h l q t) : q = l.getLast?.or p := by
  induction l generalizing p h with
  | nil => exact hs.1
  | cons y ys ih =>
    rw [ih hs.2.2]
    cases ys with
    | nil => rfl
    | cons z zs =>
      rfl

/-- A segment entered from another node: only the back link of its first node differs. -/
theorem DSeg.enter (hs : DSeg next prev p h l q none) (p' : Option ι)
    (hn : ∀ x ∈ l, next' x = next x) (hp : ∀ x ∈ l, h ≠ some x → prev' x = prev x)
    (hfirst : ∀ x, h = some x → prev' x = p') (hd : l.Nodup) :
    ∃ q', DSeg next' prev' p' h l q' none := by
  cases l with
  | nil =>
    obtain ⟨-, rfl⟩ := hs
    exact ⟨p', rfl, rfl⟩
  | cons x xs =>
    obtain ⟨rfl, -, hs⟩ := hs
    obtain ⟨hx, -⟩ := nodup_cons.mp hd
    refine ⟨q, rfl, hfirst x rfl, ?_⟩
    rw [hn x (by simp)]
    refine hs.frame fun y hy => ⟨hn y (by simp [hy]), hp y (by simp [hy]) ?_⟩
    rintro ⟨rfl⟩
    exact hx hy

lemma DList.next_eq (hl : DList next prev h (pre ++ x :: post)) : next x = post.head? := by
  obtain ⟨q, hs⟩ := hl
  obtain ⟨_, _, -, -, -, hs⟩ := DSeg.append_iff.mp hs
  cases post with
  | nil => exact hs.2.symm
  | cons y ys => exact hs.1

lemma DList.prev_eq (hl : DList next prev h (pre ++ x :: post)) : prev x = pre.getLast? := by
  obtain ⟨q, hs⟩ := hl
  obtain ⟨q', t', hpre, -, hp, -⟩ := DSeg.append_iff.mp hs
  rw [hp]
  simpa using hpre.last_eq

/-- A change of the links at `x` and of the back link of the node after it. The nodes `mid`
are what stands between `x` and the rest afterwards. -/
theorem DList.splice {mid : List ι} (hl : DList next prev h (pre ++ x :: (l ++ post)))
    (hd : (pre ++ x :: (l ++ post)).Nodup) {q' : Option ι}
    (hmid : DSeg next' prev' (some x) (next' x) mid q' post.head?) (hx : prev' x = prev x)
    (hpre : ∀ z ∈ pre, next' z = next z ∧ prev' z = prev z)
    (hpost : ∀ z ∈ post, next' z = next z ∧ (post.head? ≠ some z → prev' z = prev z))
    (hfirst : ∀ z, post.head? = some z → prev' z = q') :
    DList next' prev' h (pre ++ x :: (mid ++ post)) := by
  obtain ⟨q, hs⟩ := hl
  obtain ⟨q1, t1, h1, ht1, hp1, hs⟩ := DSeg.append_iff.mp hs
  obtain ⟨q2, t2, -, h2⟩ := DSeg.append_iff.mp hs
  have hhead : t2 = post.head? := by
    cases post with
    | nil => exact h2.2.symm
    | cons y ys => exact h2.1
  have hnd : post.Nodup :=
    ((nodup_cons.mp (nodup_append.mp hd).2.1).2 |> nodup_append.mp).2.1
  subst hhead
  obtain ⟨q3, h3⟩ := h2.enter q' (fun z hz => (hpost z hz).1)
    (fun z hz => (hpost z hz).2) hfirst hnd
  exact ⟨q3, DSeg.append_iff.mpr ⟨q1, t1, h1.frame hpre, ht1, hx.trans hp1,
    DSeg.append_iff.mpr ⟨q', _, hmid, h3⟩⟩⟩

end YamKernel.Lib

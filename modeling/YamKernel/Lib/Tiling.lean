import Mathlib.Data.List.Forall2
import Mathlib.Data.List.Flatten

/-!
# Tilings of disjoint extents

A list of pieces tiles an extent when each piece starts where the one before it ends. A
tiling of several extents lists the pieces of the first, then those of the second, and so
on. The laws are the edits of such a list that keep it a tiling: cutting a piece, joining
two neighbours that lie in the same extent, and adding an extent.
-/

namespace YamKernel.Lib

open List

/-- The addresses from `start` up to `stop`. -/
structure Extent where
  start : Nat
  stop : Nat
  deriving DecidableEq, Repr

namespace Extent

def Mem (r : Extent) (a : Nat) : Prop := r.start ≤ a ∧ a < r.stop

instance (r : Extent) (a : Nat) : Decidable (r.Mem a) := inferInstanceAs (Decidable (_ ∧ _))

def Apart (r r' : Extent) : Prop := r.stop ≤ r'.start ∨ r'.stop ≤ r.start

lemma Apart.symm {r r' : Extent} (h : r.Apart r') : r'.Apart r := Or.symm h

lemma Apart.notMem {r r' : Extent} (h : r.Apart r') {a : Nat} (ha : r.Mem a) : ¬ r'.Mem a := by
  unfold Apart Mem at *
  omega

end Extent

section Tiling

variable {β : Type*} (lo len : β → Nat)

/-- The pieces of `l` follow one another from `a` to `e`. -/
def Tiles : Nat → List β → Nat → Prop
  | a, [], e => a = e
  | a, b :: l, e => lo b = a ∧ Tiles (a + len b) l e

/-- `l` lists the pieces of the extents one extent after the other. -/
def Tiling (rs : List Extent) (l : List β) : Prop :=
  ∃ parts, l = parts.flatten ∧
    Forall₂ (fun (r : Extent) part => Tiles lo len r.start part r.stop) rs parts

variable {lo len} {rs rs' : List Extent} {r : Extent} {l l₁ l₂ pre post mid : List β} {b c : β}
  {a e : Nat}

lemma tiles_append_iff :
    Tiles lo len a (l₁ ++ l₂) e ↔ ∃ m, Tiles lo len a l₁ m ∧ Tiles lo len m l₂ e := by
  induction l₁ generalizing a with
  | nil => simp [Tiles]
  | cons b l₁ ih => simp [Tiles, ih, and_assoc]

section

variable (h : Tiles lo len a l e)
include h

lemma Tiles.le : a ≤ e := by
  induction l generalizing a with
  | nil => exact Nat.le_of_eq h
  | cons b l ih =>
    have := ih h.2
    omega

lemma Tiles.mem_range (hb : b ∈ l) : a ≤ lo b ∧ lo b + len b ≤ e := by
  obtain ⟨l₁, l₂, rfl⟩ := append_of_mem hb
  obtain ⟨m, h1, hlo, h2⟩ := tiles_append_iff.mp h
  have := h1.le
  have := h2.le
  omega

lemma Tiles.ascending : l.Pairwise fun b c => lo b + len b ≤ lo c := by
  induction l generalizing a with
  | nil => exact .nil
  | cons b l ih =>
    refine pairwise_cons.mpr ⟨fun c hc => ?_, ih h.2⟩
    rw [h.1]
    exact (h.2.mem_range hc).1

lemma Tiles.map {γ : Type*} {f : β → γ} {lo' len' : γ → Nat}
    (hf : ∀ b ∈ l, lo' (f b) = lo b ∧ len' (f b) = len b) : Tiles lo' len' a (l.map f) e := by
  induction l generalizing a with
  | nil => exact h
  | cons b l ih =>
    obtain ⟨h1, h2⟩ := hf b (by simp)
    refine ⟨h1.trans h.1, ?_⟩
    rw [h2]
    exact ih h.2 fun c hc => hf c (by simp [hc])

end

lemma Tiling.nil : Tiling lo len [] ([] : List β) := ⟨[], rfl, .nil⟩

lemma tiling_cons_iff : Tiling lo len (r :: rs) l ↔
    ∃ part rest, l = part ++ rest ∧ Tiles lo len r.start part r.stop ∧ Tiling lo len rs rest := by
  constructor
  · rintro ⟨_, rfl, ⟨⟩⟩
    next part parts hp hps => exact ⟨part, parts.flatten, rfl, hp, parts, rfl, hps⟩
  · rintro ⟨part, _, rfl, hp, parts, rfl, hps⟩
    exact ⟨part :: parts, rfl, .cons hp hps⟩

/-- The extent a piece of a tiling belongs to, with its neighbours in that extent. -/
theorem Tiling.locate (h : Tiling lo len rs (pre ++ b :: post)) :
    ∃ rs₁ r rs₂ l₁ p q l₂, rs = rs₁ ++ r :: rs₂ ∧ pre = l₁ ++ p ∧ post = q ++ l₂ ∧
      Tiling lo len rs₁ l₁ ∧ Tiling lo len rs₂ l₂ ∧
      Tiles lo len r.start (p ++ b :: q) r.stop := by
  induction rs generalizing pre with
  | nil =>
    obtain ⟨_, he, ⟨⟩⟩ := h
    simp at he
  | cons r rs ih =>
    obtain ⟨part, rest, he, hp, hr⟩ := tiling_cons_iff.mp h
    rcases append_eq_append_iff.mp he with ⟨k, rfl, hk⟩ | ⟨k, rfl, rfl⟩
    · cases k with
      | nil =>
        -- The extent ends just before the piece.
        obtain rfl : rest = b :: post := by simpa using hk.symm
        have hr : Tiling lo len rs ([] ++ b :: post) := hr
        obtain ⟨rs₁, r', rs₂, l₁, p, q, l₂, rfl, hpre, rfl, h1, h2, ht⟩ := ih hr
        obtain ⟨rfl, rfl⟩ := append_eq_nil_iff.mp hpre.symm
        exact ⟨r :: rs₁, r', rs₂, pre ++ [], [], q, l₂, rfl, by simp, rfl,
          tiling_cons_iff.mpr ⟨pre, [], rfl, by simpa using hp, h1⟩, h2, ht⟩
      | cons b' q =>
        obtain ⟨rfl, rfl⟩ := cons.inj hk
        exact ⟨[], r, rs, [], pre, q, rest, rfl, rfl, rfl, nil, hr, hp⟩
    · obtain ⟨rs₁, r', rs₂, l₁, p, q, l₂, rfl, rfl, rfl, h1, h2, ht⟩ := ih hr
      exact ⟨r :: rs₁, r', rs₂, part ++ l₁, p, q, l₂, rfl, by simp, rfl,
        tiling_cons_iff.mpr ⟨part, l₁, rfl, hp, h1⟩, h2, ht⟩

lemma Tiling.append (h : Tiling lo len rs l) (h' : Tiling lo len rs' l₁) :
    Tiling lo len (rs ++ rs') (l ++ l₁) := by
  obtain ⟨parts, rfl, hp⟩ := h
  obtain ⟨parts', rfl, hp'⟩ := h'
  exact ⟨parts ++ parts', by simp, rel_append hp hp'⟩

lemma Tiling.single (h : Tiles lo len r.start l r.stop) : Tiling lo len [r] l :=
  ⟨[l], by simp, .cons h .nil⟩

/-- Putting pieces that cover the same addresses in the place of one. -/
theorem Tiling.replace (h : Tiling lo len rs (pre ++ b :: post))
    (hm : Tiles lo len (lo b) mid (lo b + len b)) : Tiling lo len rs (pre ++ (mid ++ post)) := by
  obtain ⟨rs₁, r, rs₂, l₁, p, q, l₂, rfl, rfl, rfl, h1, h2, ht⟩ := h.locate
  obtain ⟨m, hp, hb, hq⟩ := tiles_append_iff.mp ht
  have hr : Tiles lo len r.start (p ++ (mid ++ q)) r.stop :=
    tiles_append_iff.mpr ⟨m, hp, tiles_append_iff.mpr ⟨_, hb ▸ hm, hb ▸ hq⟩⟩
  have := h1.append ((single hr).append h2)
  simpa using this

lemma Tiling.mem_range (h : Tiling lo len rs l) (hb : b ∈ l) :
    ∃ r ∈ rs, r.start ≤ lo b ∧ lo b + len b ≤ r.stop := by
  obtain ⟨pre, post, rfl⟩ := append_of_mem hb
  obtain ⟨rs₁, r, rs₂, l₁, p, q, l₂, rfl, rfl, rfl, -, -, ht⟩ := h.locate
  exact ⟨r, by simp, ht.mem_range (by simp)⟩

section Apart

variable (hd : rs.Pairwise Extent.Apart) (hpos : ∀ b, 0 < len b)
include hd

lemma Tiling.apart (h : Tiling lo len rs l) :
    l.Pairwise fun b c => lo b + len b ≤ lo c ∨ lo c + len c ≤ lo b := by
  induction rs generalizing l with
  | nil =>
    obtain ⟨_, rfl, ⟨⟩⟩ := h
    exact .nil
  | cons r rs ih =>
    obtain ⟨hr, hd⟩ := pairwise_cons.mp hd
    obtain ⟨part, rest, rfl, hp, hrest⟩ := tiling_cons_iff.mp h
    refine pairwise_append.mpr ⟨hp.ascending.imp Or.inl, ih hd hrest, fun b hb c hc => ?_⟩
    obtain ⟨r', hr', h1, h2⟩ := hrest.mem_range hc
    have := hp.mem_range hb
    have h4 := hr r' hr'
    unfold Extent.Apart at h4
    omega

include hpos

lemma Tiling.join (h : Tiling lo len rs (pre ++ b :: c :: post))
    (hs : ∃ r ∈ rs, r.Mem (lo b) ∧ r.Mem (lo c)) {d : β} (hlo : lo d = lo b)
    (hlen : len d = len b + len c) : lo c = lo b + len b ∧ Tiling lo len rs (pre ++ d :: post) := by
  obtain ⟨rs₁, r, rs₂, l₁, p, q, l₂, rfl, rfl, hq, h1, h2, ht⟩ := h.locate
  obtain ⟨r', hr', hb', hc'⟩ := hs
  have hb := ht.mem_range (b := b) (by simp)
  have := hpos b
  have hbr : r.Mem (lo b) := ⟨hb.1, by omega⟩
  have hsplit := pairwise_append.mp hd
  obtain ⟨hr2, -⟩ := pairwise_cons.mp hsplit.2.1
  -- Both pieces lie in `r`, the extent of the first.
  have hrr : r' = r := by
    rcases mem_append.mp hr' with hm | hm
    · exact absurd hbr ((hsplit.2.2 r' hm r (by simp)).notMem hb')
    · rcases mem_cons.mp hm with rfl | hm
      · rfl
      · exact absurd hb' ((hr2 r' hm).notMem hbr)
  subst hrr
  cases q with
  | nil =>
    -- The second piece would open a later extent, which is disjoint from `r`.
    obtain rfl : l₂ = c :: post := by simpa using hq.symm
    obtain ⟨r₂, hm, hc⟩ := h2.mem_range (b := c) (by simp)
    have := hpos c
    exact absurd (⟨hc.1, by omega⟩) ((hr2 r₂ hm).notMem hc')
  | cons c' q =>
    obtain ⟨rfl, rfl⟩ := cons.inj hq
    obtain ⟨m, hp, hbm, hcm, hq⟩ := tiles_append_iff.mp ht
    refine ⟨by omega, ?_⟩
    have hr : Tiles lo len r'.start (p ++ d :: q) r'.stop := by
      refine tiles_append_iff.mpr ⟨m, hp, by omega, ?_⟩
      rwa [hlen, ← Nat.add_assoc]
    have := h1.append ((single hr).append h2)
    simpa using this

/-- The pieces inside one of the extents tile it. -/
theorem Tiling.filter (h : Tiling lo len rs l) (hr : r ∈ rs) :
    Tiles lo len r.start (l.filter fun b => r.Mem (lo b)) r.stop := by
  induction rs generalizing l with
  | nil => cases hr
  | cons r₀ rs ih =>
    obtain ⟨hr₀, hd⟩ := pairwise_cons.mp hd
    obtain ⟨part, rest, rfl, hp, hrest⟩ := tiling_cons_iff.mp h
    rw [filter_append]
    have hin : ∀ {r' : Extent} {b : β}, r'.start ≤ lo b → lo b + len b ≤ r'.stop →
        r'.Mem (lo b) := fun {r' b} h1 h2 => ⟨h1, by have := hpos b; omega⟩
    rcases mem_cons.mp hr with rfl | hr
    · have h1 : part.filter (fun b => r.Mem (lo b)) = part := by
        refine filter_eq_self.mpr fun b hb => ?_
        obtain ⟨h1, h2⟩ := hp.mem_range hb
        simpa using hin h1 h2
      have h2 : rest.filter (fun b => r.Mem (lo b)) = [] := by
        refine filter_eq_nil_iff.mpr fun b hb => ?_
        obtain ⟨r', hr', h1, h2⟩ := hrest.mem_range hb
        simpa using (hr₀ r' hr').symm.notMem (hin h1 h2)
      rw [h1, h2, append_nil]
      exact hp
    · have h1 : part.filter (fun b => r.Mem (lo b)) = [] := by
        refine filter_eq_nil_iff.mpr fun b hb => ?_
        obtain ⟨h1, h2⟩ := hp.mem_range hb
        simpa using (hr₀ r hr).notMem (hin h1 h2)
      rw [h1]
      exact ih hd hrest hr

end Apart

end Tiling

end YamKernel.Lib

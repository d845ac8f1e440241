import YamKernel.Mem.Pmm.Ownership
import YamKernel.Mem.Vmm.Unmapping

/-!
# Frames that belong to a mapping

`Owned`: the frame is the base of a range in use that no table meets, so that it can be given
back to the allocator without taking a table away.
-/

namespace YamKernel.Vmm

open Pmm

/-- The range in use at `f` is apart from the tables. -/
structure Owned (top : Nat) (R : Set Nat) (s : State) (f : Nat) : Prop where
  used : ∃ n, Allocated s.pmm f n
  off : ∀ t, IsTable top s.mem R t → Off s.pmm f t

section Owned

variable {top : Nat} {R : Set Nat} {s s' : State} {r p e f g : Nat} {l : List Nat}

section

variable (h : Owned top R s f)
include h

section

variable (hs : Sound top R s)
include hs

lemma Owned.page : pageSize ∣ f :=
  let ⟨_, ha⟩ := h.used
  (hs.good.allocated_range ha).2.2.1

lemma Owned.pos : 0 < f :=
  let ⟨_, ha⟩ := h.used
  (hs.good.allocated_range ha).1

lemma Owned.lt : f < 2 ^ 52 := by
  obtain ⟨n, ha⟩ := h.used
  have := hs.within.allocated ha
  have := hs.good.allocated_size_pos ha
  omega

lemma Owned.held : Held s.pmm f :=
  let ⟨_, ha⟩ := h.used
  hs.good.held_of_allocated ha

lemma Owned.notTable : ¬ IsTable top s.mem R f := by
  intro ht
  obtain ⟨n, ha⟩ := h.used
  have := hs.good.allocated_size_pos ha
  have := h.off f ht n ha
  unfold pageSize at this
  omega

end

end

variable {pmm' : Pmm.State}

/-- A range is given out: the tables stay, it belongs to its caller, and so do those before. -/
theorem Sound.allocates (h : Sound top R s) {base size : Nat}
    (w : Allocates s.pmm pmm' base size) (he : Extends s.pmm pmm') :
    Sound top R { s with pmm := pmm' } ∧ Owned top R { s with pmm := pmm' } base ∧
      ∀ g, Owned top R s g → g ≠ base ∧ Owned top R { s with pmm := pmm' } g := by
  have hkept : ∀ b n, Allocated s.pmm b n → Allocated pmm' b n := fun b n ha =>
    (w.allocated b n).mpr (.inl ha)
  refine ⟨h.keeps (fun _ _ _ _ => rfl) w.good (h.within.extends he) fun t ht =>
      w.keeps he h.good (h.held t ht),
    ⟨⟨size, w.self⟩, fun t ht =>
      w.off he h.good (h.held t ht)⟩, fun g hg => ?_⟩
  obtain ⟨n, ha⟩ := hg.used
  exact ⟨w.ne_base h.good ha, ⟨n, hkept g n ha⟩,
    fun t ht => (hg.off t ht).mono w.good ha (hkept g n ha)⟩

lemma Sound.owned_fresh (h : Sound top R s) (hf : Fresh s.pmm pmm' f) :
    Owned top R { s with pmm := pmm' } f :=
  let ⟨_, _, w⟩ := hf.takes
  (h.allocates w hf.ext).2.1

section

variable (h : Owned top R s g)
include h

lemma Owned.fresh (hs : Sound top R s) {pmm' : Pmm.State} (hf : Fresh s.pmm pmm' f) :
    Owned top R { s with pmm := pmm' } g :=
  let ⟨_, _, w⟩ := hf.takes
  ((hs.allocates w hf.ext).2.2 g h).2

lemma Owned.ne_fresh (hs : Sound top R s) {pmm' : Pmm.State} (hf : Fresh s.pmm pmm' f) :
    g ≠ f := by
  rintro rfl
  have := hf.apart (h.held hs)
  unfold pageSize at this
  omega

/-- Mapping a page makes tables of free memory only. -/
theorem Owned.mapped (hs : Sound top R s) (w : Mapped top R s s' r p e l) : Owned top R s' g := by
  obtain ⟨n, ha⟩ := h.used
  refine ⟨⟨n, w.takes.allocated ha⟩, fun t ht => ?_⟩
  rcases (w.tables t).mp ht with ht | ht
  · exact (h.off t ht).mono (w.takes.good hs.good) ha (w.takes.allocated ha)
  · exact w.takes.off hs.good ha ht

lemma Owned.congr (hp : s'.pmm = s.pmm) (ht : ∀ t, IsTable top s'.mem R t → IsTable top s.mem R t) :
    Owned top R s' g :=
  ⟨hp ▸ h.used, fun t htab => hp ▸ h.off t (ht t htab)⟩

end

lemma Sound.drops (h : Sound top R s) (hoff : ∀ t, IsTable top s.mem R t → Off s.pmm f t)
    (hd : Drops s.pmm pmm' f) : Sound top R { s with pmm := pmm' } :=
  h.keeps (fun _ _ _ _ => rfl) hd.good (h.within.extends hd.ext) fun t ht =>
    (h.held t ht).drops hd (hoff t ht)

lemma Owned.drops (h : Owned top R s g) (hd : Drops s.pmm pmm' f) (hne : g ≠ f) :
    Owned top R { s with pmm := pmm' } g := by
  obtain ⟨n, ha⟩ := h.used
  exact ⟨⟨n, hd.stays g n ha hne⟩, fun t ht => (h.off t ht).drops hd⟩

lemma Sound.freePage (h : Sound top R s) (hf : Owned top R s f) : Sound top R (s.freePage f) :=
  h.drops hf.off (pmmFreePage_drops h.good f)

lemma Owned.freePage (h : Owned top R s g) (hs : Sound top R s) (hne : g ≠ f) :
    Owned top R (s.freePage f) g :=
  h.drops (pmmFreePage_drops hs.good f) hne

end Owned

end YamKernel.Vmm

import YamKernel.Mem.Pmm.Counts

/-!
# Pages apart from a range in use

A page given to a caller is the base of a range that may be longer than a page. `Off s f t`: the
page at `t` does not meet the range at `f`, so that giving the range back leaves the page held.
`Drops` is what the two calls that drop a reference have in common.
-/

namespace YamKernel.Pmm

def Off (s : State) (f t : Nat) : Prop := ∀ n, Allocated s f n → t + pageSize ≤ f ∨ f + n ≤ t

section Off

variable {s s' : State} {f g t n base size : Nat} {l : List Nat}

lemma Good.off_of_free (h : Good s) (ht : ∀ a, t ≤ a → a < t + pageSize → FreeAt s a) :
    Off s f t := by
  intro n ha
  by_contra hover
  have := h.allocated_size_pos ha
  have hlt : max t f < t + pageSize := by unfold pageSize at *; omega
  exact (h.freeAt_iff.mp (ht (max t f) (le_max_left t f) hlt)).2 f n ha ⟨le_max_right t f, by omega⟩

lemma Off.mono (h : Off s f t) (hg : Good s') (ha : Allocated s f n) (ha' : Allocated s' f n) :
    Off s' f t := by
  intro k hk
  obtain rfl := hg.allocated_unique ha' hk
  exact h n ha

lemma Allocates.off (w : Allocates s s' base size) (he : Extends s s') (hg : Good s)
    (ht : Held s t) : Off s' base t := by
  intro n ha
  obtain rfl := w.good.allocated_unique w.self ha
  have : 0 < size := w.good.allocated_size_pos ha
  by_contra hover
  have hlt : max t base < t + pageSize := by unfold pageSize at *; omega
  exact ht (max t base) (le_max_left t base) hlt (w.was_free he hg (le_max_right t base) (by omega))

lemma Allocates.keeps (w : Allocates s s' base size) (he : Extends s s') (hg : Good s)
    (ht : Held s t) : Held s' t :=
  fun a h1 h2 hf => ht a h1 h2 ((w.freeAt_iff he hg).mp hf).1

lemma Allocates.ne_base (w : Allocates s s' base size) (hg : Good s) (ha : Allocated s f n) :
    f ≠ base := by
  rintro rfl
  have := hg.allocated_size_pos ha
  have := w.good.allocated_size_pos w.self
  have := w.apart f n ha
  omega

lemma Takes.off (h : Takes s s' l) (hg : Good s) (ha : Allocated s f n) (ht : t ∈ l) : Off s' f t :=
  (hg.off_of_free (h.mem hg ht).2.2.1).mono (h.good hg) ha (h.allocated ha)

end Off

/-- A reference to `f` was dropped: at most the range in use at `f` was given back. -/
structure Drops (s s' : State) (f : Nat) : Prop where
  good : Good s'
  ext : Extends s s'
  was : ∀ b n, Allocated s' b n → Allocated s b n
  stays : ∀ b n, Allocated s b n → b ≠ f → Allocated s' b n
  freed : ∀ a, FreeAt s' a → FreeAt s a ∨ ∃ n, Allocated s f n ∧ f ≤ a ∧ a < f + n

section Drops

variable {s s' : State} {f g t n : Nat}

lemma pmmFreePage_drops (h : Good s) (f : Nat) : Drops s (pmmFreePage s f) f := by
  refine ⟨pmmFreePage_good h f, pmmFreePages_extends s f 1,
    fun b n ha => ((pmmFreePage_allocated h).mp ha).1,
    fun b n ha hne => (pmmFreePage_allocated h).mpr ⟨ha, fun he => absurd he hne⟩, fun a ha => ?_⟩
  rcases pmmFreePages_cases h f 1 with ⟨he, -⟩ | ⟨_, -, -, he⟩ | ⟨n, -, w⟩
  · rw [pmmFreePage, he] at ha
    exact .inl ha
  · rw [pmmFreePage, he, h.freeAt_setRefcount] at ha
    exact .inl ha
  · exact (w.freeAt (pmmFreePages_extends s f 1) h ha).imp id fun hin => ⟨n, w.was, hin⟩

lemma pmmPageUnref_drops (h : Good s) (f : Nat) : Drops s (pmmPageUnref s f).2 f := by
  have hcount : ∀ pfn n, Drops s (s.setRefcount pfn n) f := fun pfn n =>
    ⟨h.setRefcount pfn n, .of_cells rfl fun _ => ⟨rfl, rfl, rfl⟩, fun _ _ ha => ha,
      fun _ _ ha _ => ha, fun a ha => .inl ((h.freeAt_setRefcount pfn n).mp ha)⟩
  unfold pmmPageUnref
  dsimp only
  split_ifs
  · exact ⟨h, .refl s, fun _ _ ha => ha, fun _ _ ha _ => ha, fun a ha => .inl ha⟩
  · have h1 := hcount (physToPfn f) (Lib.sub32 (s.pageArray (physToPfn f)).refcount 1)
    have h2 := pmmFreePage_drops h1.good f
    refine ⟨h2.good, h1.ext.trans h2.ext, fun b n ha => h1.was b n (h2.was b n ha),
      fun b n ha hne => h2.stays b n (h1.stays b n ha hne) hne, fun a ha => ?_⟩
    rcases h2.freed a ha with hf | ⟨n, hn, hin⟩
    · exact h1.freed a hf
    · exact .inr ⟨n, h1.was f n hn, hin⟩
  · exact hcount _ _

lemma Off.drops (h : Off s g t) (hd : Drops s s' f) : Off s' g t :=
  fun n ha => h n (hd.was g n ha)

lemma Held.drops (h : Held s t) (hd : Drops s s' f) (ho : Off s f t) : Held s' t := by
  intro a h1 h2 hf
  rcases hd.freed a hf with hf | ⟨n, hn, h3, h4⟩
  · exact h a h1 h2 hf
  · have := ho n hn
    omega

end Drops

end YamKernel.Pmm

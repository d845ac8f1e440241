import YamKernel.Fs.Elf.Model
import YamKernel.Mem.Vmm.UserSpace

/-!
# Pages of a program

The loader maps fresh cleared pages, for the segments of a program and for its stack. A step that
puts one page (`Puts`) needs at most four pages of memory: one for the page and three for tables.
-/

namespace YamKernel.Elf

open Lib Vmm Pmm Traced Nat

section Take

variable {r : Nat} {c : Space} {s : Vmm.State} {bad : Event → Prop} {stops : Stop → Prop} {q : Prop}

/-- There are `n` pages to be had, unless failures are ruled out anyway. -/
def Rich (bad : Event → Prop) (n : Nat) (s : Vmm.State) : Prop := bad .failed ∨ Provides s.pmm n

lemma userLayout : userStackBase = 0x7FFF00000000 ∧ userStackTop = 0x7FFF00100000 ∧
    userEnd = 0x800000000000 := by
  decide

lemma Rich.draws {n k j : Nat} {pmm : Pmm.State} (h : Rich bad (n + k) s) (hj : j ≤ k)
    (hpmm : pmm = draws j s.pmm) (m : Mem) (kernel : Nat) : Rich bad n ⟨m, pmm, kernel⟩ := by
  refine h.imp_right fun hp => ?_
  rw [hpmm]
  exact (provides_add.mp (hp.mono (by omega))).2

lemma gives_takePage (hgood : Good s.pmm) (hex : Rich bad 1 s ∨ stops .error) :
    Gives takePage s bad stops fun f s' =>
      s' = { s with pmm := draws 1 s.pmm } ∧ Fresh s.pmm (draws 1 s.pmm) f := by
  refine Gives.bind (gives_act (Q := fun f s' =>
    f = (pmmAllocPage s.pmm).1 ∧ s' = { s with pmm := (pmmAllocPage s.pmm).2 }) ⟨rfl, rfl⟩) ?_
  rintro f s' ⟨rfl, rfl⟩
  split_ifs with h0
  · rcases hex with (hbad | hprov) | hstop
    · exact Gives.bind (P := fun _ _ => False) (gives_bad hbad) fun _ _ hf => hf.elim
    · exact absurd h0 (provides_one.mp hprov)
    · exact (fixed_log _).gives_bind (gives_stop hstop)
  · exact gives_pure ⟨rfl, pmmAllocPage_fresh hgood h0⟩

/-- A new frame is mapped. If it cannot be and failures are allowed for, nothing happens. -/
theorem gives_mapPage {va f flags n : Nat} {pmm : Pmm.State} {m : Mem} (h : Holds r c s)
    (hfresh : Fresh s.pmm pmm f) (hm : ∀ a, ¬ (f ≤ a ∧ a < f + pageSize) → m a = s.mem a)
    (hva : va < userEnd) (hmask : flags &&& flagMask = flags)
    (hpres : flags ||| flagPresent = flags)
    (hex : Rich bad (n + 3) { s with pmm := pmm, mem := m } ∨ q) :
    Gives (mapPage r va f flags) { s with pmm := pmm, mem := m } bad stops fun _ s' =>
      Holds r (c.put (va / pageSize) flags fun x => m (f + x % pageSize)) s' ∧ (Rich bad n s' ∨ q) ∨
        q ∧ Holds r c s' := by
  refine Gives.bind (gives_act (Q := fun ok s' => (ok, s') = vmmMapPage
    { s with pmm := pmm, mem := m } r va f flags) rfl) ?_
  intro ok s' hout
  have hspare := h.own.spare_fresh hfresh
  have hlt : flags < 2 ^ 64 := hmask ▸ lt_of_le_of_lt and_le_right (by decide)
  have hmap := h.map (t := { s with pmm := pmm, mem := m }) hspare hm hva hmask
  obtain ⟨⟨k, hk, hpmm⟩, hthree⟩ :=
    h.own.map_supply (t := { s with pmm := pmm, mem := m }) hspare hm hva hlt
  rw [← hout, hpres] at hmap
  rw [← hout] at hpmm hthree
  cases ok with
  | true =>
    exact gives_pure (.inl ⟨hmap.1 rfl, hex.imp_left fun hrich => hrich.draws hk hpmm _ _⟩)
  | false =>
    rcases hex with (hbad | hprov) | hq
    · exact gives_bad hbad
    · exact absurd (hthree (hprov.mono (by omega))) (by simp)
    · exact gives_log (.inr ⟨hq, hmap.2 rfl⟩)

end Take

/-! ## Putting pages -/

/-- The program `x` puts page `p`. Where failures are allowed for, it may do nothing. -/
def Puts (r p flags : Nat) (contents : Mem) (bad : Event → Prop) (stops : Stop → Prop)
    (x : Loader Unit) : Prop :=
  ∀ (q : Prop) (c : Space) (s : Vmm.State) (n : Nat), Holds r c s →
    (Rich bad (n + 4) s ∨ stops .error ∧ q) → Gives x s bad stops fun _ s' =>
      Holds r (c.put p flags contents) s' ∧ (Rich bad n s' ∨ q) ∨ q ∧ Holds r c s'

section Puts

variable {r flags n : Nat} {contents : Mem} {c : Space} {s : Vmm.State} {bad : Event → Prop}
  {stops : Stop → Prop} {f : Nat → Loader Unit} {ps : List Nat}

/-- A frame with the contents of its page, apart from which memory is as it was. -/
structure Filled (f va : Nat) (contents m m' : Mem) : Prop where
  inside : ∀ x, x / pageSize = va / pageSize → m' (f + x % pageSize) = contents x
  outside : ∀ a, ¬ (f ≤ a ∧ a < f + pageSize) → m' a = m a

/-- A fresh page is taken and cleared, filled, and mapped. -/
theorem puts_page {p : Nat} {w : Nat → Loader Unit} (hp : p * pageSize < userEnd)
    (hmask : flags &&& flagMask = flags) (hpres : flags ||| flagPresent = flags)
    (hfill : ∀ f (s : Vmm.State), (∀ a, f ≤ a → a < f + pageSize → s.mem a = 0) →
      Gives (w f) s bad stops fun _ s' =>
        ∃ m, s' = { s with mem := m } ∧ Filled f (p * pageSize) contents s.mem m) :
    Puts r p flags contents bad stops (do
      let f ← takePage
      editMem fun m => m.fill f pageSize 0
      w f
      mapPage r (p * pageSize) f flags) := by
  intro q c s n h hex
  have hpage : p * pageSize / pageSize = p := Nat.mul_div_cancel p (by decide)
  refine (gives_takePage h.own.sound.good (hex.imp (fun hrich => hrich.imp_right fun hprov =>
    hprov.mono (by omega)) And.left)).bind ?_
  rintro f _ ⟨rfl, hfresh⟩
  refine Gives.bind (gives_act (Q := fun _ s' =>
    s' = { s with pmm := draws 1 s.pmm, mem := s.mem.fill f pageSize 0 }) rfl) ?_
  rintro _ _ rfl
  refine (hfill f _ fun a h1 h2 => if_pos ⟨h1, h2⟩).bind ?_
  rintro _ _ ⟨m, rfl, hfilled⟩
  refine (gives_mapPage h hfresh (fun a ha => (hfilled.outside a ha).trans (if_neg ha)) hp hmask
    hpres (hex.imp (fun hrich => Rich.draws hrich le_rfl rfl _ _)
      And.right)).mono fun _ s' hs' => ?_
  rwa [hpage, Space.put_congr fun x hx => hfilled.inside x (hx.trans hpage.symm)] at hs'

lemma gives_putPages (hf : ∀ p ∈ ps, Puts r p flags contents bad stops (f (p * pageSize)))
    (h : Holds r c s) (hrich : Rich bad (n + 4 * ps.length) s) :
    Gives ((ps.map (· * pageSize)).forM f) s bad stops fun _ s' =>
      Holds r (ps.foldl (fun c p => c.put p flags contents) c) s' ∧ Rich bad n s' := by
  induction ps generalizing s c with
  | nil => exact gives_pure ⟨h, hrich⟩
  | cons p ps ih =>
    have hfour : Rich bad (n + 4 * ps.length + 4) s := hrich
    refine (hf p List.mem_cons_self False c s _ h (.inl hfour)).bind fun _ s' hs' => ?_
    obtain ⟨h', hrich'⟩ : Holds r (c.put p flags contents) s' ∧ _ := by simpa using hs'
    exact ih (fun p hp => hf p (List.mem_cons_of_mem _ hp)) h' hrich'

/-- Whatever fails, the other pages stay as they are. -/
theorem gives_putPages_off {A : Nat → Prop} (hA : ∀ p ∈ ps, A p) (hstop : stops .error)
    (hf : ∀ p ∈ ps, Puts r p flags contents bad stops (f (p * pageSize)))
    (h : ∃ c', Holds r c' s ∧ c.AgreesOff A c') :
    Gives ((ps.map (· * pageSize)).forM f) s bad stops fun _ s' =>
      ∃ c', Holds r c' s' ∧ c.AgreesOff A c' := by
  refine gives_forM (fun va hva s hs => ?_) h
  obtain ⟨p, hp, rfl⟩ := List.mem_map.mp hva
  obtain ⟨c', hs, hoff⟩ := hs
  refine (hf p hp True c' s 0 hs (.inr ⟨hstop, trivial⟩)).mono fun _ s' hs' => ?_
  rcases hs' with ⟨hs', -⟩ | ⟨-, hs'⟩
  · exact ⟨_, hs', hoff.put (hA p hp)⟩
  · exact ⟨c', hs', hoff⟩

end Puts

/-! ## The pages of the stack -/

section Stack

variable {r : Nat} {c : Space} {s : Vmm.State} {bad : Event → Prop} {stops : Stop → Prop}

def StackPage (p : Nat) : Prop :=
  userStackBase / pageSize ≤ p ∧ p < userStackBase / pageSize + userStackPages

lemma StackPage.lt {p : Nat} (hp : StackPage p) : p < 2 ^ 35 := by
  have h2 := hp.2
  unfold userStackBase userStackPages pageSize at h2
  omega

lemma stackPage_of_mem {x : Nat} (h1 : userStackBase ≤ x) (h2 : x < userStackTop) :
    StackPage (x / pageSize) := by
  have := userLayout.2.1
  unfold StackPage
  unfold userStackBase at *
  unfold userStackPages pageSize
  omega

lemma stackPage_of_below {x : Nat} (hx : x < userStackBase) : ¬ StackPage (x / pageSize) := by
  rintro ⟨hp, -⟩
  have : userStackBase = userStackBase / pageSize * pageSize := by decide
  have := div_mul_le_self x pageSize
  have := mul_le_mul_right pageSize hp
  omega

def stackPages : List Nat := List.range' (userStackBase / pageSize) userStackPages

lemma mem_stackPages {p : Nat} : p ∈ stackPages ↔ StackPage p := List.mem_range'_1

lemma allocateUserStack_eq :
    allocateUserStack r = (stackPages.map (· * pageSize)).forM (mapStackPage r) := by
  unfold allocateUserStack stackPages
  refine congrArg (List.forM · (mapStackPage r)) ?_
  refine List.ext_getElem (by simp) fun i h1 h2 => ?_
  rw [List.getElem_range', List.getElem_map, List.getElem_range', add_mul, one_mul,
    mul_comm pageSize]
  rfl

lemma puts_mapStackPage {p : Nat} (hp : p ∈ stackPages) :
    Puts r p stackFlags (fun _ => 0) bad stops (mapStackPage r (p * pageSize)) := by
  have huser : p * pageSize < userEnd := by
    obtain ⟨-, h2⟩ := mem_stackPages.mp hp
    unfold userStackBase userStackPages at h2
    unfold userEnd
    unfold pageSize at *
    omega
  exact puts_page (w := fun _ => pure ()) huser (by decide) (by decide) fun f s hzero =>
    gives_pure ⟨s.mem, rfl, fun x _ => hzero _ (le_add_right _ _)
      (Nat.add_lt_add_left (mod_lt x (by decide)) f), fun _ _ => rfl⟩

def withStackPages (c : Space) : Space :=
  stackPages.foldl (fun c p => c.put p stackFlags fun _ => 0) c

lemma withStackPages_flags (c : Space) {p : Nat} (hp : StackPage p) :
    (withStackPages c).flags p = stackFlags := by
  rw [withStackPages, Space.foldl_put]
  exact if_pos (mem_stackPages.mpr hp)

lemma gives_allocateUserStack {n : Nat} (h : Holds r c s)
    (hrich : Rich bad (n + 4 * userStackPages) s) :
    Gives (allocateUserStack r) s bad stops fun _ s' =>
      Holds r (withStackPages c) s' ∧ Rich bad n s' := by
  have hlen : stackPages.length = userStackPages := List.length_range'
  rw [← hlen] at hrich
  rw [allocateUserStack_eq]
  exact gives_putPages (fun p => puts_mapStackPage) h hrich

lemma gives_allocateUserStack_off (h : Holds r c s) (hstop : stops .error) :
    Gives (allocateUserStack r) s bad stops fun _ s' =>
      ∃ c', Holds r c' s' ∧ c.AgreesOff StackPage c' := by
  rw [allocateUserStack_eq]
  exact gives_putPages_off (fun p => mem_stackPages.mp) hstop (fun p => puts_mapStackPage)
    ⟨c, h, .refl _ _⟩

end Stack

end YamKernel.Elf

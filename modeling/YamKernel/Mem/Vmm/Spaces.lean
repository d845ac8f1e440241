import YamKernel.Mem.Vmm.Faults
import YamKernel.Mem.Vmm.Forked

/-!
# Address spaces with user code

User code stores through its page tables: a store goes through if the entry is present, user and
writable, and otherwise takes a page fault first. `Intact`: the trees of all spaces are sound and
the frames of their pages are neither free nor tables. Forks, faults and stores keep it; in
particular no store ever reaches a table.
-/

namespace YamKernel.Vmm

open Lib Pmm Nat Function Pte

abbrev UserAddr := { va : Nat // va < userEnd }

lemma UserAddr.page_lt (va : UserAddr) : pageOf va < 256 * 2 ^ 27 := by
  have := va.2
  unfold userEnd at this
  unfold pageOf pageSize
  omega

/-- A store of one byte by user code, if the tables permit it. -/
def userStores (s : State) (pml4 va : Nat) (byte : UInt8) : Option State :=
  let flags := vmmGetPteFlags s.mem pml4 va
  if has flags flagPresent && has flags flagUser && has flags flagWrite then
    some { s with mem := update s.mem (vmmVirtToPhys s.mem pml4 va) byte }
  else none

/-- The error code of a store that is not permitted: user, write, and whether the page is there. -/
def storeError (s : State) (pml4 va : Nat) : Nat :=
  if has (vmmGetPteFlags s.mem pml4 va) flagPresent then 7 else 6

def userStore (s : State) (pml4 : Nat) (vmas : List Vma) (va : Nat) (byte : UInt8) : State :=
  match userStores s pml4 va byte with
  | some s' => s'
  | none =>
    let s' := (vmmHandlePageFault s pml4 vmas va (storeError s pml4 va)).2
    (userStores s' pml4 va byte).getD s'

/-- The frames of all pages are neither free nor tables. -/
structure Intact (R : Set Nat) (s : State) : Prop where
  sound : Sound 256 R s
  counts : SmallCounts s.pmm
  data : ∀ r ∈ R, ∀ p, (pte 256 s.mem r p).present = true →
    Data 256 R s ((pte 256 s.mem r p).frameOf p)

section Data

variable {R R' : Set Nat} {s s' : State} {r p q f : Nat}

/-- Data stays data when tables are made of free pages only. -/
theorem Data.grow (h : Data 256 R s f) (hfree : ∀ a, FreeAt s'.pmm a → FreeAt s.pmm a)
    (htab : ∀ t, IsTable 256 s'.mem R' t → IsTable 256 s.mem R t ∨
      ∀ a, t ≤ a → a < t + pageSize → FreeAt s.pmm a) : Data 256 R' s' f := by
  intro a h1 h2
  obtain ⟨hno, hout⟩ := h a h1 h2
  refine ⟨fun ha => hno (hfree a ha), fun t ht hin => ?_⟩
  rcases htab t ht with ht | hall
  · exact hout t ht hin
  · exact hno (hall a hin.1 hin.2)

lemma data_of_held (hs : Sound 256 R s) (hheld : Held s.pmm f) (hf : pageSize ∣ f)
    (hnot : ¬ IsTable 256 s.mem R f) : Data 256 R s f := by
  intro a h1 h2
  refine ⟨hheld a h1 h2, fun t ht hin => ?_⟩
  have := PagesApart.of_ne (isTable_dvd hs.root ht) hf fun he => hnot (he ▸ ht)
  unfold PagesApart at this
  omega

lemma pte_sameLeaf {m : Mem} (h : SameLeaf (pte 256 m r p).huge p q) :
    pte 256 m r q = pte 256 m r p := by
  cases hh : (pte 256 m r p).huge with
  | false =>
    rw [hh] at h
    obtain rfl : q = p := h
    rfl
  | true =>
    rw [hh] at h
    have hq : q / 512 = p / 512 := h
    cases hs : leafSlot 256 m r p with
    | none => simp [pte, hs] at hh
    | some x =>
      obtain ⟨t, i, huge⟩ := x
      obtain rfl : huge = true := by simpa [pte, hs] using hh
      have hs' : leafSlot 256 m r q = some (t, i, true) := by
        rw [leafSlot_huge] at hs ⊢
        rwa [hq]
      rw [pte, pte, hs, hs']

lemma Pte.forked_frameOf {e : Pte} (h : isLeaf (leafDepth e.huge) e.entry = true) (p : Nat) :
    e.forked.frameOf p = e.frameOf p := forked_phys h _

lemma pte_forked_frameOf {m : Mem} (hp : (pte 256 m r p).present = true) :
    (pte 256 m r p).forked.frameOf p = (pte 256 m r p).frameOf p :=
  let ⟨_, _, _, hl⟩ := pte_leaf hp
  forked_frameOf hl p

end Data

section Steps

variable {R : Set Nat} {s s' : State} {src new r p f : Nat}

section

variable (h : Intact R s)
include h

lemma Intact.forked (g : Forked R s s' src new) (hsrc : src ∈ R) : Intact (insert new R) s' := by
  have hgrow := fun {f} (hd : Data 256 R s f) => hd.grow g.free g.tables
  refine ⟨g.sound, g.counts, fun r hr p hp => ?_⟩
  have hcopied : Copies s src p → Data 256 (insert new R) s'
      ((pte 256 s.mem src p).forked.frameOf p) :=
    fun hc => by
      rw [pte_forked_frameOf hc.1]
      exact hgrow (h.data src hsrc p hc.1)
  rcases hr with rfl | hr
  · rw [g.child] at hp ⊢
    split_ifs at hp ⊢ with hc
    · exact hcopied hc
    · exact absurd hp (by decide)
  · by_cases hrs : r = src
    · subst hrs
      rw [g.source] at hp ⊢
      split_ifs at hp ⊢ with hc
      · exact hcopied hc
      · exact hgrow (h.data r hr p hp)
    · rw [g.other hr hrs] at hp ⊢
      exact hgrow (h.data r hr p hp)

lemma Intact.stored {flags : Nat} (hp : (pte 256 s.mem r p).present = true)
    (hf : frame flags = 0 ∧ flags &&& hugeMask = 0)
    (g : Stored 256 R s s' r p (pte 256 s.mem r p).huge ((pte 256 s.mem r p).relabel flags)) :
    Intact R s' := by
  have hgrow : ∀ {f}, Data 256 R s f → Data 256 R s' f := fun hd =>
    hd.grow (fun a ha => by rwa [← g.pmm]) fun t ht => by
      obtain ⟨r', hr', d, n, ht⟩ := ht
      exact .inl ⟨r', hr', d, n, (g.tables r' hr' d n).symm.trans ht⟩
  refine ⟨g.sound, by rw [g.pmm]; exact h.counts, fun r' hr' q hq => ?_⟩
  rw [g.pte_eq r' hr'] at hq ⊢
  split_ifs at hq ⊢ with hc
  · obtain ⟨rfl, hsame⟩ := hc
    have hsameq := pte_sameLeaf hsame
    rw [relabel_frameOf _ q hp hf.1 hf.2]
    rw [← hsameq] at hp ⊢
    exact hgrow (h.data r' hr' q hp)
  · exact hgrow (h.data r' hr' q hq)

lemma Intact.copied {old flags : Nat} (hf : frame flags = 0)
    (g : Copied 256 R s s' r p f old flags) : Intact R s' := by
  have hgood := g.fresh.good
  have hfree : ∀ a, FreeAt s'.pmm a → FreeAt s.pmm a := fun a ha => by
    rw [g.pmm, hgood.freeAt_setRefcount] at ha
    exact g.fresh.freeAt h.sound.good ha
  have htab : ∀ t, IsTable 256 s'.mem R t → IsTable 256 s.mem R t := by
    rintro t ⟨r', hr', d, n, ht⟩
    exact ⟨r', hr', d, n, (g.tables r' hr' d n).symm.trans ht⟩
  have hgrow : ∀ {f}, Data 256 R s f → Data 256 R s' f :=
      fun hd => hd.grow hfree fun t ht => .inl (htab t ht)
  have hcounts : SmallCounts s'.pmm := by
    rw [g.pmm]
    refine (h.counts.alloc h.sound.good 1 .normal false).setRefcount _ ?_
    have := h.counts.lt old
    omega
  refine ⟨g.sound, hcounts, fun r' hr' q hq => ?_⟩
  by_cases hb : Blocked 256 s.mem r p
  · rw [g.unmapped hb r' hr'] at hq ⊢
    exact hgrow (h.data r' hr' q hq)
  rw [g.mapped hb r' hr'] at hq ⊢
  split_ifs at hq ⊢
  · rw [leafPte_frameOf q g.fresh h.sound.within hf]
    refine data_of_held g.sound ?_ g.fresh.page fun ht => h.sound.fresh_notTable g.fresh (htab f ht)
    rw [g.pmm, hgood.held_setRefcount]
    exact g.fresh.held
  · exact hgrow (h.data r' hr' q hq)

lemma Intact.zeroed {flags : Nat} (hf : frame flags = 0) (g : Zeroed 256 R s s' r p f flags) :
    Intact R s' := by
  obtain ⟨l, htakes⟩ := g.takes
  have hfree : ∀ a, FreeAt s'.pmm a → FreeAt s.pmm a := fun a ha => htakes.freeAt h.sound.good ha
  have hgrow : ∀ {f}, Data 256 R s f → Data 256 R s' f := fun hd => hd.grow hfree g.tables
  have hcounts : SmallCounts s'.pmm := by
    rw [g.pmm]
    exact h.counts.draws h.sound.good _
  refine ⟨g.sound, hcounts, fun r' hr' q hq => ?_⟩
  by_cases hpop : Populable 256 s r p
  · rw [g.mapped hpop r' hr'] at hq ⊢
    split_ifs at hq ⊢
    · rw [leafPte_frameOf q g.fresh h.sound.within hf]
      exact data_of_held g.sound (htakes.mem h.sound.good (by simp)).2.2.2 g.fresh.page g.notTable
    · exact hgrow (h.data r' hr' q hq)
  · rw [g.unmapped hpop r' hr'] at hq ⊢
    exact hgrow (h.data r' hr' q hq)

lemma Intact.held (hr : r ∈ R) (hp : (pte 256 s.mem r p).present = true) :
    Held s.pmm ((pte 256 s.mem r p).frameOf p) := fun a h1 h2 => (h.data r hr p hp a h1 h2).1

lemma Intact.fault (hr : r ∈ R) {va : Nat} (hva : pageOf va < 256 * 2 ^ 27) (vmas : List Vma)
    (error : Nat) : Intact R (vmmHandlePageFault s r vmas va error).2 := by
  rcases h.sound.fault_cases hr hva (h.held hr) h.counts.lt vmas error with
    ⟨⟨-, hsh⟩, -, s', he, g⟩ | ⟨-, -, f, s', he, g⟩ | ⟨-, prot, f, s', -, he, g⟩ | ⟨he, -⟩
  · rw [he]
    exact h.stored (shared_present hsh) (cowFlags_frame _) g
  · rw [he]
    exact h.copied (cowFlags_frame _).1 g
  · rw [he]
    exact h.zeroed (areaFlags_plain prot).2 g
  · rwa [he]

end

end Steps

/-! ## Stores -/

section Stores

variable {R : Set Nat} {s s' : State} {r p va a : Nat} {byte : UInt8}

/-- What a store by user code needs. -/
def Pte.userWritable (e : Pte) : Bool :=
  e.present && has e.entry flagUser && has e.entry flagWrite

lemma userStores_eq (hva : pageOf va < 256 * 2 ^ 27) : userStores s r va byte =
    if (pte 256 s.mem r (pageOf va)).userWritable then
      some { s with mem := update s.mem ((pte 256 s.mem r (pageOf va)).phys va) byte }
    else none := by
  unfold userStores userWritable present
  dsimp only
  rw [vmmGetPteFlags_eq hva, vmmVirtToPhys_eq hva, has_and, has_and, has_and]

lemma Pte.phys_eq {e : Pte} (hp : e.present = true) (va : Nat) :
    e.phys va = e.frameOf (pageOf va) + va % pageSize := by
  have hor : ∀ {k x : Nat} (i : Nat), 2 ^ i ∣ k → x < 2 ^ i → k ||| x = k + x := by
    rintro k x i ⟨c, rfl⟩ hx
    exact (two_pow_add_eq_or_of_lt hx c).symm
  cases hh : e.huge with
  | false =>
    rw [frameOf_small hh hp, phys, hh, hp]
    have hlt : va % pageSize < 2 ^ 12 := mod_lt va (by decide)
    simpa [frame] using hor 12 (frame_dvd e.entry) hlt
  | true =>
    have hdvd : 2 ^ 21 ∣ e.entry &&& hugeMask := by
      refine dvd_of_mod_eq_zero ?_
      rw [and_mod_two_pow]
      exact and_zero _
    have hlt : ∀ x, x % hugePageSize < 2 ^ 21 := fun x => mod_lt x (by decide)
    rw [frameOf, phys, phys, hh, if_pos rfl, if_pos rfl, hor 21 hdvd (hlt _),
      hor 21 hdvd (hlt _)]
    unfold pageOf hugePageSize pageSize
    omega

lemma Intact.update (h : Intact R s) (hr : r ∈ R) (hp : (pte 256 s.mem r p).present = true)
    (h1 : (pte 256 s.mem r p).frameOf p ≤ a) (h2 : a < (pte 256 s.mem r p).frameOf p + pageSize)
    (byte : UInt8) :
    KeepsTables 256 R s.mem (update s.mem a byte) ∧
      Intact R { s with mem := update s.mem a byte } := by
  have hout := (h.data r hr p hp a h1 h2).2
  have hk : KeepsTables 256 R s.mem (Function.update s.mem a byte) := fun t ht i hi => by
    refine entry_congr hi fun b hb1 hb2 => update_of_ne ?_ _ _
    rintro rfl
    exact hout t ht ⟨hb1, hb2⟩
  refine ⟨hk, h.sound.keeps hk h.sound.good h.sound.within h.sound.held, h.counts,
    fun r' hr' q hq => ?_⟩
  rw [hk.pte_eq hr'] at hq ⊢
  exact (h.data r' hr' q hq).grow (fun _ ha => ha) fun t ht => .inl (hk.isTable_iff.mp ht)

lemma Intact.stores (h : Intact R s) (hr : r ∈ R) (hva : va < userEnd)
    (hs : userStores s r va byte = some s') : KeepsTables 256 R s.mem s'.mem ∧ Intact R s' := by
  have hpage : pageOf va < 256 * 2 ^ 27 := UserAddr.page_lt ⟨va, hva⟩
  rw [userStores_eq hpage] at hs
  split_ifs at hs with hw
  obtain rfl := Option.some.inj hs
  unfold userWritable at hw
  simp only [Bool.and_eq_true] at hw
  have := phys_eq hw.1.1 va
  have : va % pageSize < pageSize := mod_lt _ (by decide)
  exact h.update hr hw.1.1 (by omega) (by omega) byte

end Stores

/-! ## Spaces side by side -/

/-- The address spaces, by their roots, and the areas of the tasks that run in them. -/
structure World where
  vm : State
  roots : List Nat
  areas : Nat → List Vma

def World.spaces (w : World) : Set Nat := { r | r ∈ w.roots }

/-- What happens to the spaces: a fork, a page fault with any error code, a store by user code. -/
inductive SpaceOp where
  | fork (src : Nat)
  | fault (pml4 : Nat) (va : UserAddr) (error : Nat)
  | store (pml4 : Nat) (va : UserAddr) (byte : UInt8)

/-- `sys_fork` gives the child a copy of the areas. -/
def World.fork (w : World) (src : Nat) : World :=
  match vmmForkAddressSpace w.vm src with
  | (none, vm) => { w with vm }
  | (some new, vm) =>
    { vm, roots := new :: w.roots, areas := update w.areas new (w.areas src) }

def World.exec (w : World) : SpaceOp → World
  | .fork src => if src ∈ w.roots then w.fork src else w
  | .fault pml4 va error =>
    if pml4 ∈ w.roots then
      { w with vm := (vmmHandlePageFault w.vm pml4 (w.areas pml4) va error).2 }
    else w
  | .store pml4 va byte =>
    if pml4 ∈ w.roots then { w with vm := userStore w.vm pml4 (w.areas pml4) va byte } else w

section World

variable {w : World}

lemma spaces_cons (vm : State) (new : Nat) (areas : Nat → List Vma) :
    World.spaces { vm, roots := new :: w.roots, areas } = insert new w.spaces := by
  ext r
  simp [World.spaces]

/-- A fork fails with nothing done, or adds a space. -/
theorem Intact.fork_cases (h : Intact w.spaces w.vm) {src : Nat} (hsrc : src ∈ w.roots) :
    vmmForkAddressSpace w.vm src = (none, w.vm) ∧ w.fork src = w ∨
      ∃ new vm, vmmForkAddressSpace w.vm src = (some new, vm) ∧
        w.fork src =
          { vm, roots := new :: w.roots, areas := Function.update w.areas new (w.areas src) } ∧
        new ∉ w.roots ∧ Forked w.spaces w.vm vm src new := by
  rcases h.sound.fork hsrc h.counts with ⟨-, he⟩ | ⟨new, vm, he, g⟩
  · exact .inl ⟨he, by rw [World.fork, he]⟩
  · refine .inr ⟨new, vm, he, by rw [World.fork, he], fun hn => ?_, g⟩
    exact g.notTable ⟨new, hn, 0, 0, Radix.node_zero⟩

end World

end YamKernel.Vmm

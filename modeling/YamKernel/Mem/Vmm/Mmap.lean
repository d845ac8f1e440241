import YamKernel.Mem.Vmm.ZeroPages

/-!
# Runs of `sys_mmap`

Every call takes its addresses from one cursor, so the regions of all tasks lie one after the
other as long as the cursor neither wraps around nor leaves the lower half.
-/

namespace YamKernel.Vmm

open Lib Pmm List Function Nat

structure MmapState where
  vm : State
  /-- `next_mmap_addr`. -/
  next : Nat
  tasks : Nat → Task

/-- A call by a task; `room` says whether the heap has a `vma_t` at hand. -/
structure MmapCall where
  task : Nat
  room : Bool
  length : Nat
  prot : Nat
  flags : Nat

def mmapStep : Machine MmapState MmapCall Nat := fun s c =>
  let (r, vm, next, t) :=
    sysMmap s.vm s.next (s.tasks c.task) c.room c.length c.prot c.flags
  (r, { vm, next, tasks := update s.tasks c.task t })

def regions (s : MmapState) : List MmapCall → List Extent
  | [] => []
  | c :: cs =>
    let r := (mmapStep s c).1
    (if r = mapFailed then [] else [⟨r, r + c.length⟩]) ++ regions (mmapStep s c).2 cs

/-- A region is in the lower half, inside an area of the task and apart from the earlier ones;
a call that fails changes neither the areas nor memory nor the physical allocator. -/
def Honoured (s : MmapState) (earlier : List Extent) (c : MmapCall) : Prop :=
  let r := (mmapStep s c).1
  let s' := (mmapStep s c).2
  (r ≠ mapFailed → r + c.length ≤ userEnd ∧
    (∃ v ∈ (s'.tasks c.task).vmas, v.start ≤ r ∧ r + c.length ≤ v.stop) ∧
    ∀ x ∈ earlier, x.Apart ⟨r, r + c.length⟩) ∧
  (r = mapFailed → (s'.tasks c.task).vmas = (s.tasks c.task).vmas ∧ s'.vm = s.vm)

def MmapCall.pages (c : MmapCall) (s : MmapState) : List Nat :=
  (pageRange s.next (pageCount c.length)).map pageOf

/-- The length can be rounded up to pages, the region ends in the lower half, and the
allocator has the pages for a region that is populated at once. -/
def Fits (s : MmapState) (c : MmapCall) : Prop :=
  c.length = 0 ∨ c.length + (pageSize - 1) < 2 ^ 64 ∧
    s.next + pageCount c.length * pageSize ≤ userEnd ∧
    (has c.flags mapAnonymous = true ∨ (kmallocVma s.vm c.room).1 = false ∨
      Provides (kmallocVma s.vm c.room).2.pmm
        (wants 256 s.vm.mem (s.tasks c.task).pml4 (c.pages s)))

instance (s : MmapState) (c : MmapCall) : Decidable (Fits s c) :=
    inferInstanceAs (Decidable (_ ∨ _))

section Step

variable {top : Nat} {R : Set Nat} {s : State} {r flags : Nat}

/-- A heap that grows takes memory that was free. -/
theorem Sound.kmallocVma_spec (h : Sound top R s) (room : Bool) :
    kmallocVma s room = (false, s) ∨
      ∃ pmm, kmallocVma s room = (true, { s with pmm }) ∧ Sound top R { s with pmm } := by
  cases room with
  | true => exact .inr ⟨s.pmm, rfl, h⟩
  | false =>
    have hcases := alloc_cases h.good Heap.heapExpandPages .normal false
    have hext := alloc_extends h.good Heap.heapExpandPages .normal false
    simp only [kmallocVma, pmmAllocPages]
    generalize pmmAllocPagesInternal s.pmm Heap.heapExpandPages .normal false = out at hcases hext
    obtain ⟨base, pmm⟩ := out
    rcases hcases with he | ⟨size, -, w⟩
    · obtain ⟨rfl, rfl⟩ := Prod.mk.inj he
      exact .inl (by simp)
    · obtain ⟨hpos, -⟩ := w.good.allocated_range w.self
      refine .inr ⟨pmm, by simp [hpos.ne'], h.keeps (fun _ _ _ _ => rfl) w.good
        (h.within.extends hext) fun t ht a h1 h2 hf => ?_⟩
      exact h.held t ht a h1 h2 ((w.freeAt_iff hext h.good).mp hf).1

lemma Sound.mmapPages_spec (h : Sound top R s) (hr : r ∈ R) (hflags : flags < 2 ^ 64)
    {vas : List Nat} (hvas : ∀ va ∈ vas, pageOf va < top * 2 ^ 27) :
    Sound top R (mmapPages r flags s vas).2 ∧
      (Provides s.pmm (wants top s.mem r (vas.map pageOf)) →
        (mmapPages r flags s vas).1 = true) := by
  induction vas generalizing s with
  | nil => exact ⟨h, fun _ => rfl⟩
  | cons va vas ih =>
    have hva := hvas va mem_cons_self
    rw [mmapPages, map_cons]
    rcases h.mapZeroPage_spec hr hva hflags with ⟨he, hfail⟩ | ⟨f, s', he, g⟩
    · rw [he]
      refine ⟨h, fun hprov => absurd hfail ?_⟩
      exact provides_one.mp (hprov.mono (by rw [wants, length_cons]; omega))
    · rw [he]
      obtain ⟨hsound, hok⟩ := ih g.sound fun va hva => hvas va (mem_cons_of_mem _ hva)
      exact ⟨hsound, fun hprov => hok (g.provides hr hprov)⟩

lemma pageOf_pageRange {addr pages p : Nat} (h : addr + pages * pageSize ≤ userEnd)
    (hp : p ∈ pageRange addr pages) : pageOf p < 256 * 2 ^ 27 := by
  obtain ⟨i, hi, rfl⟩ := mem_map.mp hp
  have hi := mem_range.mp hi
  unfold userEnd pageSize pageOf pageSize at *
  rw [u64_of_lt]
  omega

end Step

structure MmapInv (R : Set Nat) (s : MmapState) : Prop where
  sound : Sound 256 R s.vm
  root : ∀ i, (s.tasks i).pml4 ∈ R

lemma pageCount_le {length : Nat} (h : length + (pageSize - 1) < 2 ^ 64) :
    length ≤ pageCount length * pageSize := by
  unfold pageCount pageSize at *
  rw [u64_of_lt h]
  omega

/-- What one call does: it fails without a trace but for the cursor, or it returns the address
of the cursor. -/
theorem mmapStep_cases {R : Set Nat} {s : MmapState} {c : MmapCall} (h : MmapInv R s)
    (hfits : Fits s c) :
    (∃ next, mmapStep s c = (mapFailed, { s with next }) ∧ s.next ≤ next) ∨
    ∃ vm, Sound 256 R vm ∧ c.length ≤ pageCount c.length * pageSize ∧
      s.next + pageCount c.length * pageSize ≤ userEnd ∧
      mmapStep s c = (s.next,
        { vm
          next := s.next + pageCount c.length * pageSize
          tasks := update s.tasks c.task { s.tasks c.task with
            vmas := ⟨s.next, s.next + pageCount c.length * pageSize, c.prot⟩ ::
              (s.tasks c.task).vmas } }) := by
  unfold mmapStep sysMmap
  by_cases h0 : c.length = 0
  · exact .inl ⟨s.next, by simp [h0], le_rfl⟩
  obtain ⟨hlen, hend, hsupply⟩ := hfits.resolve_left h0
  have hu : u64 (s.next + pageCount c.length * pageSize) =
      s.next + pageCount c.length * pageSize := u64_of_lt (by unfold userEnd at hend; omega)
  simp only [h0, hu]
  rcases h.sound.kmallocVma_spec c.room with he | ⟨pmm, he, hsound⟩
  · exact .inl ⟨s.next + pageCount c.length * pageSize, by simp [he], le_add_right _ _⟩
  rw [he] at hsupply ⊢
  by_cases hanon : has c.flags mapAnonymous = true
  · exact .inr ⟨_, hsound, pageCount_le hlen, hend, by simp [hanon]⟩
  -- A region that is populated at once.
  have hprov := (hsupply.resolve_left hanon).resolve_left (by simp)
  simp only [hanon]
  have hflags : ∀ b : Prop, [Decidable b] →
      (if b then flagPresent ||| flagWrite ||| flagUser ||| flagNx
      else flagPresent ||| flagWrite ||| flagUser) < 2 ^ 64 := fun b _ => by
    split_ifs <;> decide
  obtain ⟨hs', hok⟩ := hsound.mmapPages_spec (h.root c.task) (hflags (¬ has c.prot protExec))
    fun va hva => pageOf_pageRange hend hva
  replace hok := hok hprov
  generalize mmapPages _ _ _ _ = out at hs' hok
  obtain ⟨ok, vm⟩ := out
  obtain rfl : ok = true := hok
  exact .inr ⟨vm, hs', pageCount_le hlen, hend, rfl⟩

lemma mmapStep_honoured {R : Set Nat} {s : MmapState} {c : MmapCall} {earlier : List Extent}
    (h : MmapInv R s) (hfits : Fits s c) (he : ∀ x ∈ earlier, x.stop ≤ s.next) :
    Honoured s earlier c ∧ MmapInv R (mmapStep s c).2 ∧
      ∀ x ∈ earlier ++ (if (mmapStep s c).1 = mapFailed then []
        else [⟨(mmapStep s c).1, (mmapStep s c).1 + c.length⟩]),
          x.stop ≤ (mmapStep s c).2.next := by
  unfold Honoured
  rcases mmapStep_cases h hfits with ⟨next, hstep, hle⟩ | ⟨vm, hvm, hlen, hend, hstep⟩
  · rw [hstep]
    refine ⟨⟨fun hne => absurd rfl hne, fun _ => ⟨rfl, rfl⟩⟩, ⟨h.sound, h.root⟩, fun x hx => ?_⟩
    rw [if_pos rfl, append_nil] at hx
    exact (he x hx).trans hle
  · rw [hstep]
    have hne : s.next ≠ mapFailed := by
      unfold userEnd mapFailed at *
      omega
    refine ⟨⟨fun _ => ⟨by omega, ⟨_, by simp only [update_self]; exact mem_cons_self,
      le_rfl, by dsimp only; omega⟩, fun x hx => .inl (he x hx)⟩, fun hc => absurd hc hne⟩,
      ⟨hvm, fun i => ?_⟩, fun x hx => ?_⟩
    · dsimp only
      by_cases hi : i = c.task
      · rw [hi, update_self]
        exact h.root c.task
      · rw [update_of_ne hi]
        exact h.root i
    · rw [if_neg hne] at hx
      rcases mem_append.mp hx with hx | hx
      · exact (he x hx).trans (le_add_right _ _)
      · rw [mem_singleton.mp hx]
        dsimp only
        omega

/-- In a run whose calls all fit, every call gets a region of its own or fails without a
trace. -/
theorem mmap_regions {R : Set Nat} {s : MmapState} (hsound : Sound 256 R s.vm)
    (hroot : ∀ i, (s.tasks i).pml4 ∈ R) (calls : List MmapCall)
    (hfits : mmapStep.Along Fits s calls) (before : List MmapCall) (c : MmapCall)
    (after : List MmapCall) (hcalls : calls = before ++ c :: after) :
    Honoured (mmapStep.run s before) (regions s before) c := by
  -- The regions returned so far end at or below the cursor.
  have hrun : ∀ (before : List MmapCall) (s : MmapState) (earlier : List Extent), MmapInv R s →
      (∀ x ∈ earlier, x.stop ≤ s.next) → mmapStep.Along Fits s (before ++ c :: after) →
      Honoured (mmapStep.run s before) (earlier ++ regions s before) c := by
    intro before
    induction before with
    | nil =>
      intro s earlier h he hal
      rw [regions, append_nil]
      exact (mmapStep_honoured h hal.1 he).1
    | cons b before ih =>
      intro s earlier h he hal
      obtain ⟨-, hinv, hle⟩ := mmapStep_honoured h hal.1 he
      have := ih _ _ hinv hle hal.2
      rw [append_assoc] at this
      exact this
  simpa using hrun before s [] ⟨hsound, hroot⟩ (by simp) (hcalls ▸ hfits)

def twoTasks (pmm : Pmm.State) : MmapState where
  vm := ⟨fun _ => 0, pmm, 0⟩
  next := mmapBase
  tasks i := ⟨2 ^ 20 + i % 2 * pageSize, [], 0, 0⟩

lemma twoTasks_sound {pmm : Pmm.State} (hpmm : Running pmm) (hheld : ∀ f, 2 ^ 20 ≤ f → Held pmm f) :
    Sound 256 {r | pageSize ∣ r ∧ 2 ^ 20 ≤ r} (twoTasks pmm).vm :=
  sound_blank 256 hpmm (fun _ hr => hr.1) fun r hr => hheld r hr.2

lemma twoTasks_root (pmm : Pmm.State) (i : Nat) :
    ((twoTasks pmm).tasks i).pml4 ∈ {r | pageSize ∣ r ∧ 2 ^ 20 ≤ r} :=
  ⟨dvd_add (by decide) (dvd_mul_left _ _), le_add_right _ _⟩

/-- One task reserves two pages; another one's page, populated at once, lies elsewhere. -/
theorem mmap_regions_twoTasks : ∃ pmm, pmmInit [fivePages] = some pmm ∧
    Honoured (mmapStep.run (twoTasks pmm) [⟨0, true, 8192, 3, mapAnonymous⟩])
      (regions (twoTasks pmm) [⟨0, true, 8192, 3, mapAnonymous⟩]) ⟨1, true, 4096, 3, 0⟩ := by
  obtain ⟨pmm, h0, hrun, hheld⟩ := fivePages_running
  have hfits : ∀ pmm ∈ pmmInit [fivePages], mmapStep.Along Fits (twoTasks pmm)
      [⟨0, true, 8192, 3, mapAnonymous⟩, ⟨1, true, 4096, 3, 0⟩] := by decide +kernel
  exact ⟨pmm, h0, mmap_regions (twoTasks_sound hrun hheld) (twoTasks_root pmm) _
    (hfits pmm h0) [⟨0, true, 8192, 3, mapAnonymous⟩] ⟨1, true, 4096, 3, 0⟩ [] rfl⟩

/-- Three ways in which a call is not honoured: a length that wraps around when it is rounded
up, a cursor at the end of the lower half, and a region for which there is not enough memory. -/
theorem mmap_breaks : ∃ pmm, pmmInit [fivePages] = some pmm ∧
    Sound 256 {r | pageSize ∣ r ∧ 2 ^ 20 ≤ r} (twoTasks pmm).vm ∧
    ¬ Honoured (twoTasks pmm) [] ⟨0, true, 2 ^ 64 - 1, 3, mapAnonymous⟩ ∧
    ¬ Honoured (mmapStep.run (twoTasks pmm) [⟨0, true, 2 ^ 40, 3, mapAnonymous⟩]) []
      ⟨1, true, 4096, 3, mapAnonymous⟩ ∧
    ¬ Honoured (twoTasks pmm) [] ⟨0, true, 8 * 4096, 3, 0⟩ := by
  obtain ⟨pmm, h0, hrun, hheld⟩ := fivePages_running
  have hout : ∀ pmm ∈ pmmInit [fivePages],
      (mmapStep (mmapStep.run (twoTasks pmm) [⟨0, true, 2 ^ 40, 3, mapAnonymous⟩])
        ⟨1, true, 4096, 3, mapAnonymous⟩).1 = userEnd ∧
      let out := mmapStep (twoTasks pmm) ⟨0, true, 8 * 4096, 3, 0⟩
      out.1 = mapFailed ∧ (out.2.tasks 0).vmas.length = 1 := by decide +kernel
  obtain ⟨hlast, hr, hlen⟩ := hout pmm h0
  refine ⟨pmm, h0, twoTasks_sound hrun hheld, fun h => ?_, fun h => ?_, fun h => ?_⟩
  · exact absurd (h.1 (show mmapBase ≠ mapFailed by decide)).1
      (show ¬ mmapBase + (2 ^ 64 - 1) ≤ userEnd by decide)
  · unfold Honoured at h
    rw [hlast] at h
    exact absurd (h.1 (by decide)).1 (by decide)
  · rw [(h.2 hr).1] at hlen
    exact absurd hlen (show ¬ 0 = 1 by decide)

end YamKernel.Vmm

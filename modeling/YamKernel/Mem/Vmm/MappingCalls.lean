import YamKernel.Mem.Vmm.Isolation
import YamKernel.Mem.Vmm.Spaces

/-!
# Runs of the mapping system calls

A task calls `sys_mmap`, `sys_brk`, `sys_wl_map_buffer` and `sys_map_mmio` with any arguments, while
other parts of the kernel take memory. None of the calls looks at its addresses. As long as they are
addresses of the lower half, the devices are no memory of the allocator, and no pixels are given
back with the break, the calls change only the lower half of the task's tables and the task gets no
frame of others.
-/

namespace YamKernel.Vmm

open Lib Pmm List Bool

/-! ## The calls -/

/-- The fields of `wl_surface_t` that `sys_wl_map_buffer` uses. The buffer is the physical address
of its pixels, if it has some, and its size. -/
structure Surface where
  active : Bool
  id : Nat
  owner : Nat
  buffer : Option (Nat × Nat)

/-- The search of `sys_wl_map_buffer`: the surface with the identifier, or else the last one of the
task. The answer is the buffer to map or an error. -/
def wlMapSurface (surfaces : List Surface) (tid surfaceId : Nat) : Except Int (Nat × Nat) :=
  match surfaces.find? (fun x => x.active && x.id == surfaceId) <|>
      surfaces.reverse.find? (fun x => x.active && x.owner == tid) with
  | none => .error (-3)
  | some x =>
    if x.owner ≠ tid then .error (-4)
    else
      match x.buffer with
      | none => .error (-5)
      | some buffer => .ok buffer

/-- The kernel, `next_mmap_addr`, the task with its identifier, the surfaces, and the bases of what
the allocator has handed to the kernel and to other tasks. -/
structure MapWorld where
  vm : State
  next : Nat
  task : Task
  tid : Nat
  surfaces : List Surface
  foreign : List Nat

inductive MapOp where
  | mmap (room : Bool) (length prot flags : Nat)
  | brk (newBrk : Nat)
  | wlMapBuffer (surfaceId uvaddr : Nat)
  | mapMmio (phys virt size : Nat)
  /-- The kernel or another task takes pages. -/
  | take (count : Nat)

def mapStep : Machine MapWorld MapOp Int
  | w, .mmap room length prot flags =>
    let (addr, vm, next, task) := sysMmap w.vm w.next w.task room length prot flags
    -- A region that the heap took for the area.
    let region := (pmmAllocPages w.vm.pmm Heap.heapExpandPages).1
    let foreign := if length = 0 ∨ room ∨ region = 0 then w.foreign else region :: w.foreign
    (addr, { w with vm, next, task, foreign })
  | w, .brk newBrk =>
    let (brk, vm, task) := sysBrk w.vm w.task newBrk
    (brk, { w with vm, task })
  | w, .wlMapBuffer surfaceId uvaddr =>
    match wlMapSurface w.surfaces w.tid (surfaceId % 2 ^ 32) with
    | .error e => (e, w)
    | .ok (phys, size) =>
      match sysWlMapBuffer w.vm w.task uvaddr phys size with
      | (false, vm) => (-6, { w with vm })
      | (true, vm) => (0, { w with vm })
  | w, .mapMmio phys virt size => (0, { w with vm := sysMapMmio w.vm w.task phys virt size })
  | w, .take count =>
    match pmmAllocPages w.vm.pmm count with
    | (0, pmm) => (0, { w with vm := { w.vm with pmm } })
    | (base, pmm) => (base, { w with vm := { w.vm with pmm }, foreign := base :: w.foreign })

/-! ## What the calls should keep -/

/-- The pages with the pixels of the task's surfaces. -/
def pixelPages (w : MapWorld) : Set Nat :=
  {f | ∃ x ∈ w.surfaces, x.active = true ∧ x.owner = w.tid ∧
    ∃ phys size, x.buffer = some (phys, size) ∧
    ∃ i < pageCount size, f = frame (u64 (phys + i * pageSize))}

/-- The byte belongs to memory that the allocator has handed to the kernel or to another task. -/
def Handed (w : MapWorld) (a : Nat) : Prop :=
  ∃ b n, Allocated w.vm.pmm b n ∧ b ≤ a ∧ a < b + n ∧
    (b ∈ w.foreign ∨ IsTable 256 w.vm.mem {w.task.pml4} b)

/-- The frames that the task can access are not those of others, pixels of its surfaces apart. -/
def FramesApart (w : MapWorld) : Prop :=
  ∀ va < userEnd, has (vmmGetPteFlags w.vm.mem w.task.pml4 va) flagPresent = true →
    has (vmmGetPteFlags w.vm.mem w.task.pml4 va) flagUser = true →
    ∀ f, f = vmmVirtToPhys w.vm.mem w.task.pml4 va / pageSize * pageSize →
      ∀ a, f ≤ a → a < f + pageSize → Handed w a → f ∈ pixelPages w

/-- A call changes no entry for an address of the upper half, and no memory in use other than the
tables for the lower half of the task. -/
def EntriesKept (w : MapWorld) (op : MapOp) : Prop :=
  UpperKept w.vm.mem (mapStep w op).2.vm.mem w.task.pml4 ∧
    ∀ a, ¬ FreeAt w.vm.pmm a →
      (∀ t, IsTable 256 w.vm.mem {w.task.pml4} t → ¬ (t ≤ a ∧ a < t + pageSize)) →
      (mapStep w op).2.vm.mem a = w.vm.mem a

/-- The addresses are below the end of the lower half, frames of devices are not the allocator's,
and the break does not give back pages marked as not its own. -/
def InBounds (w : MapWorld) : MapOp → Prop
  | .mmap _ length _ flags =>
    has flags mapAnonymous = true ∨ ∀ i < pageCount length, u64 (w.next + i * pageSize) < userEnd
  | .brk newBrk =>
    newBrk < w.task.initBrk.brkStart ∨ newBrk ≤ userEnd ∧
      ∀ va ∈ pagesBetween (pageAlignUp newBrk) (pageAlignUp w.task.initBrk.brkCurrent),
        has (vmmGetPteFlags w.vm.mem w.task.pml4 va) flagDontFree = false
  | .wlMapBuffer surfaceId uvaddr => ∀ phys size,
    wlMapSurface w.surfaces w.tid (surfaceId % 2 ^ 32) = .ok (phys, size) →
      ∀ i < pageCount size, u64 (uvaddr + i * pageSize) < userEnd
  | .mapMmio phys virt size => ∀ i < pageCount size, u64 (virt + i * pageSize) < userEnd ∧
    Device w.vm.pmm (frame (u64 (phys + i * pageSize)))
  | .take _ => True

/-- What is assumed of the task before its first call. -/
structure MapStart (w : MapWorld) : Prop where
  isolated : Isolated w.task.pml4 {b | b ∈ w.foreign} ∅ (pixelPages w) w.vm
  brk : w.task.initBrk.brkCurrent ≤ userEnd

/-- The same with frames of the task that are not mapped, which the calls may leave behind. -/
structure MapInv (w : MapWorld) : Prop where
  isolated : ∃ X, Isolated w.task.pml4 {b | b ∈ w.foreign} X (pixelPages w) w.vm
  brk : w.task.initBrk.brkCurrent ≤ userEnd

/-! ## The loops -/

section Loops

variable {r flags : Nat} {F X P : Set Nat} {s : State}

section

variable (h : Isolated r F X P s)
include h

lemma Isolated.mmapPages {vas : List Nat} (hvas : ∀ va ∈ vas, pageOf va < 2 ^ 35)
    (hflags : flags < 2 ^ 64) (hmask : flags &&& addrMask = 0)
    (hdont : has flags flagDontFree = false) :
    ∃ b s' X', mmapPages r flags s vas = (b, s') ∧ Isolated r F X' P s' ∧ Advances r s s' := by
  induction vas generalizing s X with
  | nil => exact ⟨true, s, X, rfl, h, .refl r s⟩
  | cons va vas ih =>
    obtain ⟨b, s1, X1, hone, h1, hadv⟩ := h.zeroPage (hvas va mem_cons_self) flags hflags hmask
      hdont
    rw [mmapPages, hone]
    cases b with
    | false => exact ⟨false, s1, X1, rfl, h1, hadv⟩
    | true =>
      obtain ⟨b, s2, X2, hrest, h2, hadv'⟩ := ih h1 fun va' hva' => hvas va' (.tail va hva')
      exact ⟨b, s2, X2, hrest, h2, hadv.trans hadv'⟩

lemma Isolated.brkGrow {vas : List Nat} (hvas : ∀ va ∈ vas, pageOf va < 2 ^ 35) :
    ∃ b s' X', brkGrow r s vas = (b, s') ∧ Isolated r F X' P s' ∧ Advances r s s' := by
  induction vas generalizing s X with
  | nil => exact ⟨true, s, X, rfl, h, .refl r s⟩
  | cons va vas ih =>
    have hrest : ∀ va' ∈ vas, pageOf va' < 2 ^ 35 := fun va' hva' => hvas va' (.tail va hva')
    rw [brkGrow]
    split_ifs
    · exact ih h hrest
    · obtain ⟨b, s1, X1, hone, h1, hadv⟩ := h.zeroPage (hvas va mem_cons_self) brkFlags
        (by decide) (by decide) (by decide)
      rw [hone]
      cases b with
      | false => exact ⟨false, s1, X1, rfl, h1, hadv⟩
      | true =>
        obtain ⟨b, s2, X2, hgrow, h2, hadv'⟩ := ih h1 hrest
        exact ⟨b, s2, X2, hgrow, h2, hadv.trans hadv'⟩

lemma Isolated.wlMapPages {l : List (Nat × Nat)}
    (hl : ∀ x ∈ l, pageOf x.1 < 2 ^ 35 ∧ frame x.2 ∈ P) :
    ∃ b s' X', wlMapPages r s l = (b, s') ∧ Isolated r F X' P s' ∧ Advances r s s' := by
  induction l generalizing s X with
  | nil => exact ⟨true, s, X, rfl, h, .refl r s⟩
  | cons x l ih =>
    obtain ⟨va, phys⟩ := x
    obtain ⟨hva, hP⟩ := hl _ mem_cons_self
    obtain ⟨hmap, hadv, -⟩ := h.map_page hva phys
      (flagPresent ||| flagUser ||| flagWrite ||| flagNx ||| flagDontFree) (by decide) (by decide)
      (by rw [if_pos (by decide)]; exact hP)
    rw [wlMapPages]
    generalize vmmMapPage s r va phys _ = out at *
    obtain ⟨b, s1⟩ := out
    cases b with
    | false => exact ⟨false, s1, _, rfl, hmap, hadv⟩
    | true =>
      obtain ⟨b, s2, X2, hrest, h2, hadv'⟩ := ih hmap fun y hy => hl y (.tail _ hy)
      exact ⟨b, s2, X2, hrest, h2, hadv.trans hadv'⟩

lemma Isolated.mmioPages {l : List (Nat × Nat)}
    (hl : ∀ x ∈ l, pageOf x.1 < 2 ^ 35 ∧ Device s.pmm (frame x.2)) :
    ∃ X', let s' := l.foldl (fun s x => (vmmMapPage s r x.1 x.2
        (flagPresent ||| flagUser ||| flagWrite ||| flagNx ||| flagNocache)).2) s
      Isolated r F X' P s' ∧ Advances r s s' := by
  induction l generalizing s X with
  | nil => exact ⟨X, h, .refl r s⟩
  | cons x l ih =>
    obtain ⟨hva, hdev⟩ := hl x mem_cons_self
    obtain ⟨hmap, hadv, -⟩ := h.map_page hva x.2
      (flagPresent ||| flagUser ||| flagWrite ||| flagNx ||| flagNocache) (by decide) (by decide)
      (by rw [if_neg (by decide)]; exact .inr hdev)
    obtain ⟨X2, h2, hadv'⟩ := ih hmap fun y hy =>
      ⟨(hl y (.tail x hy)).1, (hl y (.tail x hy)).2.extends hadv.ext⟩
    exact ⟨X2, h2, hadv.trans hadv'⟩

lemma Isolated.brkShrink {ps : List Nat} (hnd : ps.Nodup) (hps : ∀ p ∈ ps, p < 2 ^ 35)
    (hdont : ∀ p ∈ ps, has (pte 256 s.mem r p).entry flagDontFree = false) :
    ∃ X', Isolated r F X' P ((ps.map (· * pageSize)).foldl (brkShrinkPage r) s) := by
  induction ps generalizing s X with
  | nil => exact ⟨X, h⟩
  | cons p ps ih =>
    obtain ⟨hpnot, hnd⟩ := nodup_cons.mp hnd
    have hp := hps p mem_cons_self
    have hone : Unmapped 256 {r} s (brkShrinkPage r s (p * pageSize)) r [p] :=
      (h.sound.unmap_page _ rfl (by omega) hp (h.clear p hp)).1
    obtain ⟨X1, h1⟩ := h.unmap_page (fun pmm f => (pmmPageUnref pmm f).2)
      (fun pmm f hg => pmmPageUnref_drops hg f) hp fun _ => hdont p mem_cons_self
    refine ih h1 hnd (fun q hq => hps q (.tail p hq)) fun q hq => ?_
    have hqp : q ≠ p := fun he => hpnot (he ▸ hq)
    have hsame := hone.pte_eq q
    rw [if_neg (by simp [hqp])] at hsame
    rw [hsame]
    exact hdont q (.tail p hq)

lemma Isolated.alloc (count : Nat) :
    pmmAllocPages s.pmm count = (0, s.pmm) ∨ ∃ base pmm', pmmAllocPages s.pmm count = (base, pmm') ∧
      base ≠ 0 ∧ (∃ X', Isolated r (insert base F) X' P { s with pmm := pmm' }) ∧
      Advances r s { s with pmm := pmm' } := by
  have hcases := alloc_cases h.sound.good count .normal false
  have hext := alloc_extends h.sound.good count .normal false
  unfold pmmAllocPages
  generalize pmmAllocPagesInternal s.pmm count .normal false = out at hcases hext
  obtain ⟨base, pmm'⟩ := out
  rcases hcases with he | ⟨size, -, w⟩
  · exact .inl he
  · obtain ⟨htake, hadv⟩ := h.take w hext
    exact .inr ⟨base, pmm', rfl, w.base_pos.ne', ⟨_, htake.cede (Set.mem_insert _ _)⟩, hadv⟩

end

end Loops

/-! ## The law in one state -/

lemma MapInv.framesApart {w : MapWorld} (h : MapInv w) : FramesApart w := by
  obtain ⟨X, hi⟩ := h.isolated
  rintro va hva hpres - f rfl a h1 h2 ⟨b, n, ha, h3, h4, hb⟩
  have hpage : pageOf va < 256 * 2 ^ 27 := UserAddr.page_lt ⟨va, hva⟩
  have hsmall := pte_small (hi.clear (pageOf va) hpage)
  rw [vmmGetPteFlags_eq hpage, has_and] at hpres
  have hframe : vmmVirtToPhys w.vm.mem w.task.pml4 va / pageSize * pageSize =
      frame (pte 256 w.vm.mem w.task.pml4 (pageOf va)).entry := by
    have hdvd := frame_dvd (pte 256 w.vm.mem w.task.pml4 (pageOf va)).entry
    rw [vmmVirtToPhys_eq hpage, Pte.phys_eq hpres, Pte.frameOf_small hsmall hpres]
    unfold pageSize at hdvd ⊢
    omega
  rw [hframe] at h1 h2 ⊢
  have hright := hi.pages (pageOf va) hpage hpres
  unfold Rightful at hright
  split_ifs at hright
  · exact hright
  · rcases hright with ⟨hm, -⟩ | hdev
    · -- The range of the frame is the one the byte belongs to.
      obtain ⟨k, hk⟩ := hm.owned.used
      obtain ⟨-, -, -, j, rfl⟩ := hi.sound.good.allocated_range hk
      have := pageSize_le_levelSize j
      rcases hi.sound.good.allocated_apart hk ha with ⟨he, -⟩ | hap
      · rcases hb with hb | hb
        · exact absurd (he ▸ hb) hm.other
        · exact absurd (he ▸ hb) (hm.owned.notTable hi.sound)
      · omega
    · exact absurd (hi.sound.good.allocated_inPool ha h3 h4) (hdev a h1 h2)

/-! ## Steps -/

section Steps

variable {w : MapWorld}

/-- What follows from a step of the kernel that frees nothing. -/
theorem MapInv.advance (h : MapInv w) (w' : MapWorld) {op : MapOp} (hop : (mapStep w op).2 = w')
    (hpml4 : w'.task.pml4 = w.task.pml4) (hpix : pixelPages w' = pixelPages w)
    (hbrk : w'.task.initBrk.brkCurrent ≤ userEnd)
    (hi : ∃ X, Isolated w.task.pml4 {b | b ∈ w'.foreign} X (pixelPages w) w'.vm)
    (hadv : Advances w.task.pml4 w.vm w'.vm) : MapInv (mapStep w op).2 ∧ EntriesKept w op := by
  obtain ⟨X, hold⟩ := h.isolated
  unfold EntriesKept
  rw [hop]
  refine ⟨⟨?_, hbrk⟩, (hadv.upper hold.toHoldings).1, hadv.bytes⟩
  rw [hpml4, hpix]
  exact hi

/-- The addresses of a loop are those of pages of the lower half. -/
theorem pageRange_user {addr pages : Nat} (h : ∀ i < pages, u64 (addr + i * pageSize) < userEnd) :
    ∀ va ∈ pageRange addr pages, pageOf va < 2 ^ 35 := by
  intro va hva
  obtain ⟨i, hi, rfl⟩ := mem_map.mp hva
  exact UserAddr.page_lt ⟨_, h i (mem_range.mp hi)⟩

lemma zip_user {virt phys n : Nat} {Q : Nat → Prop}
    (h1 : ∀ i < n, u64 (virt + i * pageSize) < userEnd)
    (h2 : ∀ i < n, Q (frame (u64 (phys + i * pageSize)))) :
    ∀ x ∈ (pageRange virt n).zip (pageRange phys n), pageOf x.1 < 2 ^ 35 ∧ Q (frame x.2) := by
  intro x hx
  obtain ⟨hv, hp⟩ := of_mem_zip hx
  obtain ⟨i, hi, he⟩ := mem_map.mp hp
  exact ⟨pageRange_user h1 x.1 hv, he ▸ h2 i (mem_range.mp hi)⟩

lemma Isolated.kmallocVma {r : Nat} {X P : Set Nat} {s : State} {foreign : List Nat}
    (h : Isolated r {b | b ∈ foreign} X P s) (room : Bool) :
    let region := (pmmAllocPages s.pmm Heap.heapExpandPages).1
    (∃ X', Isolated r {b | b ∈ if room ∨ region = 0 then foreign else region :: foreign} X' P
      (kmallocVma s room).2) ∧ Advances r s (kmallocVma s room).2 := by
  cases room with
  | true => exact ⟨⟨X, by simpa [Vmm.kmallocVma] using h⟩, .refl r s⟩
  | false =>
    rcases h.alloc Heap.heapExpandPages with he | ⟨base, pmm', he, h0, ⟨X', hi⟩, hadv⟩
    · rw [Vmm.kmallocVma, he]
      exact ⟨⟨X, by simpa using h⟩, .refl r s⟩
    · rw [Vmm.kmallocVma, he]
      refine ⟨⟨X', ?_⟩, hadv⟩
      simpa [h0, Set.insert_def] using hi

lemma initBrk_vmas (t : Task) (vmas : List Vma) :
    ({ t with vmas } : Task).initBrk.brkCurrent = t.initBrk.brkCurrent := by
  unfold Task.initBrk
  split_ifs <;> rfl

def mmapFlags (prot : Nat) : Nat :=
  let pflags := flagPresent ||| flagWrite ||| flagUser
  if ¬ has prot protExec then pflags ||| flagNx else pflags

lemma mmapFlags_plain (prot : Nat) : mmapFlags prot < 2 ^ 64 ∧ mmapFlags prot &&& addrMask = 0 ∧
    has (mmapFlags prot) flagDontFree = false := by
  unfold mmapFlags
  split_ifs <;> decide

/-- What `sys_mmap` does to the kernel: the area, and the pages if it populates them. -/
theorem sysMmap_vm (s : State) (next : Nat) (t : Task) (room : Bool) {length : Nat}
    (prot flags : Nat) (h0 : length ≠ 0) :
    ((sysMmap s next t room length prot flags).2.1 = (kmallocVma s room).2 ∨
      has flags mapAnonymous = false ∧ (sysMmap s next t room length prot flags).2.1 =
        (mmapPages t.pml4 (mmapFlags prot) (kmallocVma s room).2
          (pageRange next (pageCount length))).2) ∧
    ∃ vmas, (sysMmap s next t room length prot flags).2.2.2 = { t with vmas } := by
  unfold sysMmap
  rw [if_neg h0]
  rcases kmallocVma s room with ⟨_ | _, s1⟩
  · exact ⟨.inl rfl, t.vmas, rfl⟩
  · dsimp only
    cases has flags mapAnonymous with
    | true => exact ⟨.inl rfl, _, rfl⟩
    | false =>
      have hpflags : (if ¬ has prot protExec = true then
          flagPresent ||| flagWrite ||| flagUser ||| flagNx
          else flagPresent ||| flagWrite ||| flagUser) = mmapFlags prot := rfl
      rw [hpflags]
      rcases mmapPages t.pml4 (mmapFlags prot) s1 (pageRange next (pageCount length)) with
        ⟨_ | _, s2⟩
      · exact ⟨.inr ⟨rfl, rfl⟩, _, rfl⟩
      · exact ⟨.inr ⟨rfl, rfl⟩, _, rfl⟩

lemma MapInv.mmap (h : MapInv w) {room : Bool} {length prot flags : Nat}
    (hc : InBounds w (.mmap room length prot flags)) :
    MapInv (mapStep w (.mmap room length prot flags)).2 ∧
      EntriesKept w (.mmap room length prot flags) := by
  obtain ⟨X, hi⟩ := h.isolated
  by_cases h0 : length = 0
  · subst h0
    exact h.advance w rfl rfl rfl h.brk h.isolated (.refl _ _)
  obtain ⟨⟨X1, h1⟩, hadv⟩ := hi.kmallocVma room
  obtain ⟨hvm, vmas, htask⟩ := sysMmap_vm w.vm w.next w.task room prot flags h0
  have hfor : (mapStep w (.mmap room length prot flags)).2.foreign =
      if room ∨ (pmmAllocPages w.vm.pmm Heap.heapExpandPages).1 = 0 then w.foreign
      else (pmmAllocPages w.vm.pmm Heap.heapExpandPages).1 :: w.foreign := by
    simp [mapStep, h0]
  have ht : (mapStep w (.mmap room length prot flags)).2.task = { w.task with vmas } := htask
  rw [← hfor] at h1
  have hafter : ∃ s', (mapStep w (.mmap room length prot flags)).2.vm = s' ∧
      (∃ X', Isolated w.task.pml4 {b | b ∈ (mapStep w (.mmap room length prot flags)).2.foreign} X'
        (pixelPages w) s') ∧ Advances w.task.pml4 w.vm s' := by
    rcases hvm with hvm | ⟨hanon, hvm⟩
    · exact ⟨_, hvm, ⟨X1, h1⟩, hadv⟩
    · have hc := hc.resolve_left (by rw [hanon]; decide)
      obtain ⟨h64, hmask, hdont⟩ := mmapFlags_plain prot
      obtain ⟨b, s2, X2, hrun, h2, hadv'⟩ := h1.mmapPages (pageRange_user hc) h64 hmask hdont
      exact ⟨s2, hvm.trans (by rw [hrun]), ⟨X2, h2⟩, hadv.trans hadv'⟩
  obtain ⟨s', rfl, hi', hadv'⟩ := hafter
  exact h.advance _ rfl (by rw [ht]) rfl (by rw [ht, initBrk_vmas]; exact h.brk) hi' hadv'

lemma MapInv.brk_step (h : MapInv w) {newBrk : Nat} (hc : InBounds w (.brk newBrk)) :
    MapInv (mapStep w (.brk newBrk)).2 ∧ EntriesKept w (.brk newBrk) := by
  obtain ⟨X, hi⟩ := h.isolated
  have hroot := hi.sound.root _ rfl
  -- The task keeps its tables and has its break below the end.
  have hinit : ∀ b, ({ w.task.initBrk with brkCurrent := b } : Task).initBrk.brkCurrent = b := by
    intro b
    have := initBrk_pos w.task
    rw [Task.initBrk, if_neg (by dsimp only; omega)]
  have hstay : w.task.initBrk.initBrk.brkCurrent ≤ userEnd := (hinit _).le.trans h.brk
  rcases lt_or_ge newBrk w.task.initBrk.brkStart with hlow | hge
  · exact h.advance { w with task := w.task.initBrk }
      (by rw [mapStep, sysBrk_below hlow]) (initBrk_pml4 _) rfl hstay h.isolated (.refl _ _)
  obtain ⟨hend, hdont⟩ := hc.resolve_left (not_lt.mpr hge)
  rcases lt_or_ge w.task.initBrk.brkCurrent newBrk with hgrow | hshrink
  · have hvas : ∀ va ∈ (brkPages w.task.initBrk newBrk).map (· * pageSize), pageOf va < 2 ^ 35 := by
      intro va hva
      obtain ⟨p, hp, rfl⟩ := mem_map.mp hva
      have h35 := (mem_brkPages hp hend).2
      rwa [pageOf_mul (by omega)]
    obtain ⟨b, s', X', hrun, hi', hadv⟩ := hi.brkGrow hvas
    cases b with
    | false =>
      exact h.advance { w with vm := s', task := w.task.initBrk }
        (by rw [mapStep, sysBrk_grow hge hgrow, hrun]) (initBrk_pml4 _) rfl hstay ⟨X', hi'⟩ hadv
    | true =>
      exact h.advance { w with vm := s', task := { w.task.initBrk with brkCurrent := newBrk } }
        (by rw [mapStep, sysBrk_grow hge hgrow, hrun]) (initBrk_pml4 _) rfl
        ((hinit newBrk).le.trans hend) ⟨X', hi'⟩ hadv
  · have hold := h.brk
    have := pageAlignUp_le hold
    have hpages := pagesBetween_eq (pageAlignUp_dvd newBrk)
      (pageAlignUp_dvd w.task.initBrk.brkCurrent)
    rw [hpages] at hdont
    generalize hps : range' _ _ = ps at hdont
    have hstep : (mapStep w (.brk newBrk)).2 = { w with
        vm := (ps.map (· * pageSize)).foldl (brkShrinkPage w.task.pml4) w.vm
        task := { w.task.initBrk with brkCurrent := newBrk } } := by
      rw [mapStep, sysBrk_shrink hge hshrink, hps]
    have h35 : ∀ p ∈ ps, p < 2 ^ 35 := fun p hp => by
      rw [← hps, mem_range'_1] at hp
      unfold userEnd pageSize at *
      omega
    have hnd : ps.Nodup := hps ▸ nodup_range'
    have hdont' : ∀ p ∈ ps, has (pte 256 w.vm.mem w.task.pml4 p).entry flagDontFree = false := by
      intro p hp
      have hp35 := h35 p hp
      have hpage : pageOf (p * pageSize) = p := pageOf_mul (by omega)
      have hlow : pageOf (p * pageSize) < 256 * 2 ^ 27 := hpage.symm ▸ hp35
      have := hdont (p * pageSize) (mem_map_of_mem hp)
      rwa [vmmGetPteFlags_eq hlow, has_and, hpage] at this
    obtain ⟨X', hi'⟩ := hi.brkShrink hnd h35 hdont'
    obtain ⟨hun, -⟩ := hi.sound.unmap_spec (fun pmm f => (pmmPageUnref pmm f).2) rfl hnd
      (fun p hp => ⟨by have := h35 p hp; omega, h35 p hp⟩) fun p hp => hi.clear p (h35 p hp)
    unfold EntriesKept
    rw [hstep]
    refine ⟨⟨⟨X', ?_⟩, (hinit newBrk).le.trans hend⟩,
      hi.upper.kept hroot hun.upper fun a _ hta => hun.bytes a hta, fun a _ hta => hun.bytes a hta⟩
    rw [initBrk_pml4]
    exact hi'

lemma wlMapSurface_ok {surfaces : List Surface} {tid id : Nat} {buffer : Nat × Nat}
    (h : wlMapSurface surfaces tid id = .ok buffer) :
    ∃ x ∈ surfaces, x.active = true ∧ x.owner = tid ∧ x.buffer = some buffer := by
  unfold wlMapSurface at h
  split at h
  · cases h
  · rename_i x hx
    have hmem : x ∈ surfaces ∧ x.active = true := by
      rw [Option.orElse_eq_orElse, Option.orElse_eq_or, Option.or_eq_some_iff] at hx
      rcases hx with hx | ⟨-, hx⟩
      · have hp := find?_some hx
        exact ⟨mem_of_find?_eq_some hx, (and_eq_true_iff.mp hp).1⟩
      · have hp := find?_some hx
        exact ⟨mem_reverse.mp (mem_of_find?_eq_some hx), (and_eq_true_iff.mp hp).1⟩
    split_ifs at h with hown
    split at h
    · cases h
    · rename_i b hb
      cases h
      exact ⟨x, hmem.1, hmem.2, not_not.mp hown, hb⟩

lemma MapInv.wlMapBuffer (h : MapInv w) {surfaceId uvaddr : Nat}
    (hc : InBounds w (.wlMapBuffer surfaceId uvaddr)) :
    MapInv (mapStep w (.wlMapBuffer surfaceId uvaddr)).2 ∧
      EntriesKept w (.wlMapBuffer surfaceId uvaddr) := by
  obtain ⟨X, hi⟩ := h.isolated
  cases hsur : wlMapSurface w.surfaces w.tid (surfaceId % 2 ^ 32) with
  | error e =>
    exact h.advance w (by rw [mapStep, hsur]) rfl rfl h.brk h.isolated (.refl _ _)
  | ok buffer =>
    obtain ⟨phys, size⟩ := buffer
    obtain ⟨x, hx, hact, hown, hbuf⟩ := wlMapSurface_ok hsur
    obtain ⟨b, s', X', hrun, hi', hadv⟩ := hi.wlMapPages (zip_user
      (hc phys size hsur) fun i hi => ⟨x, hx, hact, hown, phys, size, hbuf, i, hi, rfl⟩)
    refine h.advance { w with vm := s' } ?_ rfl rfl h.brk ⟨X', hi'⟩ hadv
    rw [mapStep, hsur]
    dsimp only
    rw [sysWlMapBuffer, hrun]
    cases b <;> rfl

lemma MapInv.mapMmio (h : MapInv w) {phys virt size : Nat}
    (hc : InBounds w (.mapMmio phys virt size)) :
    MapInv (mapStep w (.mapMmio phys virt size)).2 ∧ EntriesKept w (.mapMmio phys virt size) := by
  obtain ⟨X, hi⟩ := h.isolated
  obtain ⟨X', hi', hadv⟩ := hi.mmioPages
    (zip_user (fun i hi => (hc i hi).1) fun i hi => (hc i hi).2)
  exact h.advance { w with vm := sysMapMmio w.vm w.task phys virt size } rfl rfl rfl h.brk
    ⟨X', hi'⟩ hadv

lemma MapInv.take (h : MapInv w) (count : Nat) :
    MapInv (mapStep w (.take count)).2 ∧ EntriesKept w (.take count) := by
  obtain ⟨X, hi⟩ := h.isolated
  rcases hi.alloc count with he | ⟨base, pmm', he, h0, ⟨X', hi'⟩, hadv⟩
  · have hstep : mapStep w (.take count) = (0, w) := by simp [mapStep, he]
    exact h.advance w (congrArg Prod.snd hstep) rfl rfl h.brk h.isolated (.refl _ _)
  · refine h.advance { w with vm := { w.vm with pmm := pmm' }, foreign := base :: w.foreign } ?_
      rfl rfl h.brk ⟨X', ?_⟩ hadv
    · rw [mapStep, he]
      cases base with
      | zero => exact absurd rfl h0
      | succ base => rfl
    · simpa [Set.insert_def] using hi'

lemma MapInv.step (h : MapInv w) (op : MapOp) (hc : InBounds w op) :
    MapInv (mapStep w op).2 ∧ EntriesKept w op := by
  cases op with
  | mmap room length prot flags => exact h.mmap hc
  | brk newBrk => exact h.brk_step hc
  | wlMapBuffer surfaceId uvaddr => exact h.wlMapBuffer hc
  | mapMmio phys virt size => exact h.mapMmio hc
  | take count => exact h.take count

end Steps

/-- In a run whose calls are confined, the frames of the task are never those of others, and every
call keeps the entries and the memory of others. -/
theorem mapping_calls_isolated {w : MapWorld} (h : MapStart w) {ops : List MapOp}
    (hops : mapStep.Along InBounds w ops) :
    FramesApart (mapStep.run w ops) ∧ mapStep.Along EntriesKept w ops := by
  have h0 : MapInv w := ⟨⟨_, h.isolated⟩, h.brk⟩
  obtain ⟨hinv, hkept⟩ := Machine.run_along (fun _ op hi hc => hi.step op hc) h0 hops
  exact ⟨hinv.framesApart, hkept⟩

/-! ## A task with an empty address space -/

def blankTask (pmm : Pmm.State) : MapWorld := ⟨⟨fun _ => 0, pmm, 0⟩, mmapBase, freshTask, 7, [], []⟩

lemma blankTask_start {pmm : Pmm.State} (hpmm : Running pmm)
    (hheld : ∀ f, 2 ^ 20 ≤ f → Held pmm f) : MapStart (blankTask pmm) := by
  have habsent : ∀ p,
      (pte 256 (blankTask pmm).vm.mem (blankTask pmm).task.pml4 p).present = false :=
    fun p => by
      rw [show (blankTask pmm).vm.mem = fun _ => 0 from rfl, pte_blank]
      decide
  refine ⟨⟨⟨sound_blank 256 hpmm ?_ ?_, fun p _ => not_blocked_blank _ _ p, upperApart_blank _ _ _,
    fun b hb => ?_, fun f hf => ?_, fun f hf => hf.elim⟩, fun p _ hp => ?_,
      fun p _ q _ hp => ?_⟩, ?_⟩
  · rintro r rfl
    exact (by decide : pageSize ∣ 2 ^ 20)
  · rintro r rfl
    exact hheld _ le_rfl
  · exact absurd hb not_mem_nil
  · obtain ⟨x, hx, -⟩ := hf
    exact absurd hx not_mem_nil
  · rw [habsent] at hp
    exact absurd hp false_ne_true
  · rw [habsent] at hp
    exact absurd hp false_ne_true
  · exact (by decide : userBrkDefault ≤ userEnd)

/-- A device is mapped, a page of the break, and a page is handed to another task. -/
theorem mapping_calls_isolated_fivePages : ∃ pmm, pmmInit [fivePages] = some pmm ∧
    ∃ ops, ops = [MapOp.mapMmio (2 ^ 21) 0x500000 4096, .brk 0x401000, .take 1] ∧
      FramesApart (mapStep.run (blankTask pmm) ops) ∧
        mapStep.Along EntriesKept (blankTask pmm) ops := by
  obtain ⟨pmm, h0, hrun, hheld⟩ := fivePages_running
  have hdevice : Device pmm (2 ^ 21) := fun a h1 _ ha => by
    have hwithin : Within (2 ^ 20) pmm :=
      pmmInit_within (by simp [NoPageZero, fivePages]) (by simp [EndsWithin, fivePages]) h0
    have := InPool.lt ha hwithin
    omega
  have hbrk : ∀ pmm ∈ pmmInit [fivePages], (fun w : MapWorld => 0x401000 ≤ userEnd ∧
      ∀ va ∈ pagesBetween (pageAlignUp 0x401000) (pageAlignUp w.task.initBrk.brkCurrent),
        has (vmmGetPteFlags w.vm.mem w.task.pml4 va) flagDontFree = false)
      (mapStep (blankTask pmm) (.mapMmio (2 ^ 21) 0x500000 4096)).2 := by decide +kernel
  refine ⟨pmm, h0, _, rfl, mapping_calls_isolated (blankTask_start hrun hheld)
    ⟨fun i hi => ?_, .inr (hbrk pmm h0), trivial, trivial⟩⟩
  obtain rfl : i = 0 := by
    have hi : i < 1 := hi
    omega
  exact ⟨by decide, hdevice⟩

lemma EntriesKept.root {w : MapWorld} {op : MapOp} (h : EntriesKept w op) :
    entry (mapStep w op).2.vm.mem w.task.pml4 256 = entry w.vm.mem w.task.pml4 256 :=
  h.1 0 0 _ Radix.node_zero 256 (by decide) fun _ => le_rfl

/-- The calls reach beyond the lower half of the task, and `sys_map_mmio` maps a frame of another
task. -/
theorem mapping_calls_reach : ∃ pmm, pmmInit [fivePages] = some pmm ∧ MapStart (blankTask pmm) ∧
    ¬ FramesApart (mapStep.run (blankTask pmm) [.take 1, .mapMmio 4096 0x400000 4096]) ∧
    ¬ EntriesKept (blankTask pmm) (.mapMmio (2 ^ 21) 0xFFFF800000000000 4096) ∧
    ¬ EntriesKept (mapStep.run (blankTask pmm) [.brk (2 ^ 64 - 1), .brk 0xFFFF800000000000])
      (.brk 0xFFFF800000001000) := by
  obtain ⟨pmm, h0, hrun, hheld⟩ := fivePages_running
  refine ⟨pmm, h0, blankTask_start hrun hheld, fun h => ?_, fun h => ?_, fun h => ?_⟩
  · have hmapped : ∀ pmm ∈ pmmInit [fivePages], (fun w : MapWorld =>
        has (vmmGetPteFlags w.vm.mem w.task.pml4 0x400000) flagPresent = true ∧
        has (vmmGetPteFlags w.vm.mem w.task.pml4 0x400000) flagUser = true ∧
        vmmVirtToPhys w.vm.mem w.task.pml4 0x400000 / pageSize * pageSize = 4096 ∧
        (∃ i < w.vm.pmm.cellCount, (w.vm.pmm.cells i).state = .used ∧
          (w.vm.pmm.cells i).base = 4096 ∧
          (w.vm.pmm.cells i).size = 4096) ∧ 4096 ∈ w.foreign ∧ w.surfaces.length = 0)
        (mapStep.run (blankTask pmm) [.take 1, .mapMmio 4096 0x400000 4096]) := by decide +kernel
    replace hmapped := hmapped pmm h0
    obtain ⟨hpres, huser, hphys, hused, hforeign, hnone⟩ := hmapped
    obtain ⟨x, hx, -⟩ := h 0x400000 (by decide) hpres huser 4096 hphys.symm 4096 le_rfl (by decide)
      ⟨4096, 4096, hused, le_rfl, by decide, .inl hforeign⟩
    rw [length_eq_zero_iff.mp hnone] at hx
    exact absurd hx not_mem_nil
  · have hne : ∀ pmm ∈ pmmInit [fivePages], (fun w : MapWorld =>
        entry (mapStep w (.mapMmio (2 ^ 21) 0xFFFF800000000000 4096)).2.vm.mem w.task.pml4 256 ≠
          entry w.vm.mem w.task.pml4 256) (blankTask pmm) := by decide +kernel
    exact hne pmm h0 h.root
  · have hne : ∀ pmm ∈ pmmInit [fivePages], (fun w : MapWorld =>
        entry (mapStep w (.brk 0xFFFF800000001000)).2.vm.mem w.task.pml4 256 ≠
          entry w.vm.mem w.task.pml4 256)
        (mapStep.run (blankTask pmm) [.brk (2 ^ 64 - 1),
          .brk 0xFFFF800000000000]) := by decide +kernel
    exact hne pmm h0 h.root

end YamKernel.Vmm

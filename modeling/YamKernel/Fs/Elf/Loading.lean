import YamKernel.Fs.Elf.Relocations
import YamKernel.Fs.Elf.Segments

/-!
# Whole programs

The loader maps the segments, applies the relocations, maps the stack and fills it; for a program
with an interpreter it does the first two for both files. `bias_law_iff` says when all of it agrees
on the bias.
-/

namespace YamKernel.Elf

open Lib Vmm Pmm Traced List Nat

section Steps

variable {r : Nat} {c : Space} {s s' : Vmm.State} {m : Mem}

lemma Holds.shows (h : Holds r c s) : Shows r s c.mem s := ⟨h.own, fun _ => rfl, h.view, rfl⟩

lemma Shows.holds (h' : Shows r s m s') (h : Holds r c s) : Holds r ⟨c.flags, m⟩ s' :=
  ⟨h'.own, fun p hp => by rw [getPteFlags_page hp, h'.pages, ← getPteFlags_page hp, h.flags p hp],
    h'.view⟩

end Steps

/-! ## Files -/

/-- A file that can be loaded at a bias: its segments are in it and below the stack, and its
relocations are relative. -/
structure Image.Loadable (img : Image) (bias : Nat) : Prop where
  some_load : img.loads ≠ []
  fits : ∀ g ∈ img.loads, g.Fits img bias
  below : ∀ g ∈ img.loads, g.base bias + g.memsz ≤ userStackBase
  relocatable : img.Relocatable

section Files

variable {img : Image} {bias : Nat}

lemma Image.Loadable.size_lt (h : img.Loadable bias) : img.size < 2 ^ 64 := by
  have := h.relocatable.placed
  unfold pageSize at this
  omega

lemma Image.Loadable.target (h : img.Loadable bias) {e : Rela} (he : e ∈ img.relas) :
    ∃ g ∈ img.loads, g.base bias ≤ bias + e.offset ∧
      bias + e.offset + 8 ≤ g.base bias + g.memsz := by
  obtain ⟨g, hg, h1, h2⟩ := h.relocatable.inside e he
  refine ⟨g, hg, ?_⟩
  unfold Segment.base
  omega

lemma Image.Loadable.targets (h : img.Loadable bias) (hbias : bias % 8 = 0) :
    ∀ e ∈ img.relas, (bias + e.offset) % 8 = 0 ∧ bias + e.offset < userEnd := by
  intro e he
  obtain ⟨g, hg, -, h2⟩ := h.target he
  have := h.below g hg
  have := h.relocatable.aligned e he
  have : userStackBase < userEnd := by decide
  omega

lemma lowest_spec (m : Nat) (gs : List Segment) : lowest m gs ≤ m ∧
    (∀ g ∈ gs, lowest m gs ≤ g.vaddr) ∧ (lowest m gs = m ∨ ∃ g ∈ gs, lowest m gs = g.vaddr) := by
  induction gs generalizing m with
  | nil => exact ⟨le_rfl, by simp, .inl rfl⟩
  | cons g gs ih =>
    rw [lowest_cons]
    obtain ⟨h1, h2, h3⟩ := ih (if g.vaddr < m then g.vaddr else m)
    refine ⟨?_, fun g' hg' => ?_, ?_⟩
    · split_ifs at h1 ⊢ <;> omega
    · rcases mem_cons.mp hg' with rfl | hg'
      · split_ifs at h1 ⊢ <;> omega
      · exact h2 g' hg'
    · rcases h3 with h3 | ⟨g', hg', h3⟩
      · split_ifs at h3 ⊢
        · exact .inr ⟨g, mem_cons_self, h3⟩
        · exact .inl h3
      · exact .inr ⟨g', mem_cons_of_mem _ hg', h3⟩

/-- The lowest address is 0 if and only if a segment begins there. -/
theorem Image.Loadable.minVaddr_eq_zero (h : img.Loadable bias) :
    img.minVaddr = 0 ↔ ∃ g ∈ img.loads, g.vaddr = 0 := by
  obtain ⟨-, hle, hmem⟩ := lowest_spec (2 ^ 64 - 1) img.loads
  have hsmall : ∀ g ∈ img.loads, g.vaddr < 2 ^ 64 - 1 := fun g hg => by
    have := h.below g hg
    have hend : userStackBase = 0x7FFF00000000 := rfl
    unfold Segment.base at this
    omega
  obtain ⟨g₀, hg₀⟩ := exists_mem_of_ne_nil _ h.some_load
  have hlt := lt_of_le_of_lt (hle g₀ hg₀) (hsmall g₀ hg₀)
  obtain ⟨g, hg, hval⟩ := hmem.resolve_left hlt.ne
  have hmin : img.minVaddr = g.vaddr := by
    unfold minVaddr
    rw [if_neg hlt.ne, hval]
  rw [hmin]
  refine ⟨fun h0 => ⟨g, hg, h0⟩, ?_⟩
  rintro ⟨g', hg', h0⟩
  have := hle g' hg'
  omega

lemma Image.minVaddr_lt (img : Image) : img.minVaddr < 2 ^ 64 := by
  have := (lowest_spec (2 ^ 64 - 1) img.loads).1
  unfold minVaddr
  dsimp only
  split_ifs <;> omega

lemma highest_spec {b k : Nat} (hk : k < 2 ^ 64) (m : Nat) (gs : List Segment)
    (hgs : ∀ g ∈ gs, g.base b + g.memsz ≤ k) (hm : m ≤ k) :
    highest b m gs ≤ k ∧ m ≤ highest b m gs ∧ ∀ g ∈ gs, g.base b + g.memsz ≤ highest b m gs := by
  induction gs generalizing m with
  | nil => exact ⟨hm, le_rfl, by simp⟩
  | cons g gs ih =>
    have := hgs g mem_cons_self
    have hend : u64 (b + g.vaddr + g.memsz) = g.base b + g.memsz := by
      unfold Segment.base at *
      exact u64_of_lt
    rw [highest_cons, hend]
    obtain ⟨h1, h2, h3⟩ := ih (if g.base b + g.memsz > m then g.base b + g.memsz else m)
      (fun g' hg' => hgs g' (mem_cons_of_mem _ hg')) (by split_ifs <;> omega)
    refine ⟨h1, ?_, fun g' hg' => ?_⟩
    · split_ifs at h2 ⊢ <;> omega
    · rcases mem_cons.mp hg' with rfl | hg'
      · split_ifs at h2 ⊢ <;> omega
      · exact h3 g' hg'

end Files

/-! ## Static programs -/

section Static

variable {img : Image} {r bias : Nat} {c : Space} {s : Vmm.State} {bad : Event → Prop}
  {stops : Stop → Prop} (name : CStr) (args : Args)

/-- The segments and the relocations of one file; other pages stay as they are. -/
theorem gives_loadFile {β : Type} {f : Nat → Loader β} {Q : β → Vmm.State → Prop}
    (h : Holds r c s) (hload : img.Loadable bias) (hbias : bias % 8 = 0) (hstop : stops .error)
    (hf : ∀ c₁ c' s', c.AgreesOff (fun p => ∃ g ∈ img.loads, g.Covers bias p) c₁ →
      c' = ⟨c₁.flags, relocated (u64 (bias + img.minVaddr)) bias img.relas c₁.mem⟩ →
      Holds r c' s' → Gives (f img.minVaddr) s' bad stops Q) :
    Gives (do
      elfMapPtLoads r img bias
      let minV ← elfMinLoadVaddr img
      elfApplyRelocations r img (u64 (bias + minV)) bias
      f minV) s bad stops Q := by
  refine (gives_elfMapPtLoads_off h hload.size_lt hload.fits hstop).bind ?_
  rintro _ s₁ ⟨c₁, h₁, hoff⟩
  refine fixed_elfMinLoadVaddr.gives_bind ?_
  exact (gives_elfApplyRelocations (Holds.shows h₁) hload.relocatable (hload.targets hbias)
    fun _ => hstop).bind fun _ s' h' => hf c₁ _ s' hoff rfl (Shows.holds h' h₁)

lemma gives_loadStatic (h : Holds r c s) (hload : img.Loadable bias) (hbias : bias % 8 = 0)
    (hstop : stops .error) :
    Gives (loadStatic img r bias name args) s bad stops fun out s' =>
      out.pml4 = r ∧ out.entry = u64 (bias + img.eEntry) ∧ ∃ m, ∀ x < userStackBase,
        userView r s' x = relocated (u64 (bias + img.minVaddr)) bias img.relas m x := by
  refine gives_loadFile h hload hbias hstop fun c₁ c₂ s₂ hoff hc₂ h₂ => ?_
  refine (gives_allocateUserStack_off h₂ hstop).bind ?_
  rintro _ s₃ ⟨c₃, h₃, hoff₃⟩
  refine (gives_buildInitialStack name args (Holds.shows h₃) fun _ => hstop).bind ?_
  rintro _ s₄ ⟨rfl, h₄⟩
  refine (fixed_elfMaxLoadEnd bias).gives_bind ?_
  refine gives_pure ⟨rfl, rfl, c₁.mem, fun x hx => ?_⟩
  rw [h₄.view, withStatic_below name args _ hx, hoff₃.mem x (stackPage_of_below hx), hc₂]

/-- With memory enough, and a relocation table where it is said to be, the program is loaded. -/
theorem gives_loadStatic_rich (h : Private r s) (hload : img.Loadable bias) (hbias : bias % 8 = 0)
    (hfound : img.TableFound)
    (hprov : Provides s.pmm (4 * userStackPages + 4 * img.pageCount bias)) :
    Gives (loadStatic img r bias name args) s (fun _ => False) (fun _ => False)
      fun _ _ => True := by
  refine (gives_elfMapPtLoads h.holds hload.size_lt hload.fits (.inr hprov)).bind ?_
  rintro _ s₁ ⟨h₁, hrich₁⟩
  refine fixed_elfMinLoadVaddr.gives_bind ?_
  refine (gives_elfApplyRelocations (Holds.shows h₁) hload.relocatable (hload.targets hbias)
    fun hgap => ?_).bind fun _ s₂ h₂ => ?_
  · -- The pages of the targets are there.
    obtain ⟨e, he, a, ha1, ha2, habs⟩ := hgap hfound
    obtain ⟨g, hg, h1, h2⟩ := hload.target he
    have hcov : g.Covers bias (a / pageSize) := Segment.covers_of_mem (by omega) (by omega)
    rw [h₁.present ((hload.fits g hg).covers_lt hcov), (foldl_lay _ _).1] at habs
    obtain ⟨g', hlast⟩ : ∃ g', lastOn bias (a / pageSize) img.loads = some g' :=
      exists_lastHit hg hcov
    rw [hlast, Option.elim] at habs
    exact absurd habs (by rw [segmentFlags_has_present]; decide)
  have hrich₂ : Rich (fun _ => False) (0 + 4 * userStackPages) s₂ := by
    refine hrich₁.imp_right fun hp => ?_
    rwa [h₂.pmm]
  refine (gives_allocateUserStack (Shows.holds h₂ h₁) hrich₂).bind ?_
  rintro _ s₃ ⟨h₃, -⟩
  refine (gives_buildInitialStack name args (Holds.shows h₃) fun hgap => ?_).bind ?_
  · obtain ⟨a, ha1, ha2, habs⟩ := hgap
    have hp := stackPage_of_mem ha1 ha2
    rw [h₃.present hp.lt, withStackPages_flags _ hp] at habs
    exact absurd habs (by decide)
  · rintro _ s₄ ⟨rfl, -⟩
    exact (fixed_elfMaxLoadEnd bias).gives_bind (gives_pure trivial)

end Static

/-! ## Programs with an interpreter -/

/-- Where the interpreter goes: behind the program. -/
def Image.interpBias (img : Image) (bias : Nat) : Nat :=
  elfAlignUp (u64 (highest bias 0 img.loads + elfInterpGapBytes)) pageSize

/-- What the auxiliary vector at `a` says. -/
structure AuxSays (m : Mem) (a phdr entry base : Nat) : Prop where
  phdr : m.words a 2 = [atPhdr, phdr]
  base : m.words (a + 64) 2 = [atBase, base]
  entry : m.words (a + 96) 2 = [atEntry, entry]

/-- Where `build_initial_stack_ldso` puts the auxiliary vector. -/
def auxPlace (name : CStr) (args : Args) (execfn : CStr) : Nat :=
  randomAt name args execfn / 16 * 16 - (if execfn.1 = [] then 18 else 20) * 8

section Dynamic

variable {img interp : Image} {r bias : Nat} {c : Space} {s : Vmm.State} {bad : Event → Prop}
  {stops : Stop → Prop} (name : CStr) (args : Args) (execfn : CStr) (info : AuxInfo)

lemma phdrAddr_ok {phoff phdr : Nat} {gs : List Segment} (h : phdrAddr phoff bias gs = .ok phdr) :
    ∃ g ∈ gs, g.offset ≤ phoff ∧ phoff < u64 (g.offset + g.filesz) ∧
      phdr = u64 (bias + g.vaddr + (phoff - g.offset)) := by
  induction gs with
  | nil => simp [phdrAddr] at h
  | cons g gs ih =>
    rw [phdrAddr] at h
    split_ifs at h with hin
    · exact ⟨g, mem_cons_self, hin.1, hin.2, (Except.ok.inj h).symm⟩
    · obtain ⟨g', hg', hrest⟩ := ih h
      exact ⟨g', mem_cons_of_mem _ hg', hrest⟩

lemma phdrAddr_error {phoff : Nat} {k : Stop} {gs : List Segment}
    (h : phdrAddr phoff bias gs = .error k) : k = .error := by
  induction gs with
  | nil => exact (Except.error.inj h).symm
  | cons g gs ih =>
    rw [phdrAddr] at h
    split_ifs at h
    exact ih h

/-- The interpreter begins behind the program, on a page of its own. -/
theorem Image.Loadable.interpBias_spec (h : img.Loadable bias) :
    pageSize ∣ img.interpBias bias ∧
      highest bias 0 img.loads + elfInterpGapBytes ≤ img.interpBias bias ∧
      highest bias 0 img.loads ≤ userStackBase ∧
      ∀ g ∈ img.loads, g.base bias + g.memsz ≤ highest bias 0 img.loads := by
  have := userLayout.1
  have : elfInterpGapBytes = 2097152 := rfl
  obtain ⟨hle, -, hall⟩ := highest_spec (by decide) 0 img.loads h.below
    (zero_le _)
  have hfrom : u64 (highest bias 0 img.loads + elfInterpGapBytes) =
      highest bias 0 img.loads + elfInterpGapBytes := u64_of_lt
  have hup : u64 (highest bias 0 img.loads + elfInterpGapBytes + (pageSize - 1)) =
      highest bias 0 img.loads + elfInterpGapBytes + (pageSize - 1) :=
    u64_of_lt (by unfold pageSize; omega)
  unfold interpBias elfAlignUp
  rw [if_neg (by decide), hfrom, hup]
  refine ⟨dvd_mul_left _ _, ?_, hle, hall⟩
  unfold pageSize
  omega

/-- The auxiliary vector stays as it was put, whatever becomes of the words below it. -/
theorem withLdso_aux (m : Mem) :
    AuxSays (withLdso name args execfn info m) (auxPlace name args execfn) (u64 info.phdr)
      (u64 info.entry) (u64 info.base) := by
  obtain ⟨-, hsp, -, -, -, hargv, hrandom⟩ := ldsoAt_bounds name args execfn info
  have hlen : (auxOf name args execfn info).length = if execfn.1 = [] then 18 else 20 := by
    rw [auxOf, length_auxv, execfnUserAt]
    by_cases hnil : execfn.1 = []
    · rw [if_pos hnil, if_pos hnil, if_neg (by simp)]
    · rw [if_neg hnil, if_neg hnil, if_pos (by omega)]
  have : auxPlace name args execfn = auxAt name args execfn info := by
    rw [auxPlace, auxAt, hlen]
  have hread : ∀ i v, (auxOf name args execfn info)[i]? = some v →
      (withLdso name args execfn info m).read (auxPlace name args execfn + 8 * i) 8 = v := by
    intro i v hi
    have hget : (pointerWords name args execfn info)[(args.strings name).length + 1 +
        (args.env.length + 1 + i)]? = some v := by
      rw [pointerWords, getElem?_append_right (by rw [length_stringPtrs]; omega),
        length_stringPtrs, show (args.strings name).length + 1 + (args.env.length + 1 + i) -
          (args.strings name).length = args.env.length + 1 + i + 1 by omega, getElem?_cons_succ,
        getElem?_append_right (by rw [length_stringPtrs]; omega), length_stringPtrs,
        show args.env.length + 1 + i - args.env.length = i + 1 by omega, getElem?_cons_succ, hi]
    rw [← withLdso_word name args execfn info m (by omega) hget]
    congr 1
    omega
  have hpair : ∀ i v w, (auxOf name args execfn info)[i]? = some v →
      (auxOf name args execfn info)[i + 1]? = some w →
      (withLdso name args execfn info m).words (auxPlace name args execfn + 8 * i) 2 = [v, w] := by
    intro i v w hv hw
    rw [Mem.words, Mem.words, Mem.words, hread i v hv, add_assoc, ← mul_succ, hread _ w hw]
  exact ⟨hpair 0 _ _ rfl rfl, hpair 8 _ _ rfl rfl, hpair 12 _ _ rfl rfl⟩

lemma withLdso_below (m : Mem) {x : Nat} (hx : x < userStackBase) :
    withLdso name args execfn info m x = m x := by
  obtain ⟨hlow, hsp, -, -, -, hargv, hrandom⟩ := ldsoAt_bounds name args execfn info
  obtain ⟨h1, h2, h3⟩ := stringsAt_bounds name args
  have := execfnAt_bounds (argStringsAt name args) execfn
  obtain ⟨hbase, htop, -⟩ := userLayout
  have hexecfn : withExecfn (argStringsAt name args) execfn (withStrings name args m) x =
      withStrings name args m x := by
    unfold withExecfn
    split_ifs
    · rfl
    · exact Mem.store_of_notMem (.inl (by omega))
  unfold withLdso withRandom
  rw [Mem.store_of_notMem (.inl (by omega)), Mem.store_of_notMem (.inl (by omega)),
    Mem.store_of_notMem (.inl (by omega)), hexecfn]
  unfold withStrings
  rw [Mem.store_of_notMem (.inl (by omega)), Mem.store_of_notMem (.inl (by omega))]

lemma gives_loadDynamic (h : Holds r c s) (hload : img.Loadable bias) (hbias : bias % 8 = 0)
    (hint : interp.Loadable (img.interpBias bias)) (hstop : stops .error) :
    Gives (loadDynamic img interp r bias name args execfn) s bad stops fun out s' =>
      out.pml4 = r ∧ out.entry = u64 (img.interpBias bias + interp.eEntry) ∧
      (∃ m, ∀ x < highest bias 0 img.loads,
        userView r s' x = relocated (u64 (bias + img.minVaddr)) bias img.relas m x) ∧
      (∃ m, ∀ x < userStackBase, userView r s' x = relocated
        (u64 (img.interpBias bias + interp.minVaddr)) (img.interpBias bias) interp.relas m x) ∧
      ∃ phdr, phdrAddr img.ePhoff bias img.loads = .ok phdr ∧
        AuxSays (userView r s') (auxPlace name args execfn) (u64 phdr) (u64 (bias + img.eEntry))
          (u64 (img.interpBias bias + interp.minVaddr)) := by
  obtain ⟨hpage, hbehind, hbelow, -⟩ := hload.interpBias_spec
  have hiBias : img.interpBias bias % 8 = 0 := by
    unfold pageSize at hpage
    omega
  refine gives_loadFile h hload hbias hstop fun c₁ c₂ s₂ hoff₁ hc₂ h₂ => ?_
  refine (fixed_elfMaxLoadEnd bias).gives_bind ?_
  have hat : elfAlignUp (u64 (highest bias 0 img.loads + elfInterpGapBytes)) pageSize =
    img.interpBias bias := rfl
  rw [hat]
  refine gives_loadFile h₂ hint hiBias hstop
    fun c₃ c₄ s₄ hoff₃ hc₄ h₄ => ?_
  have hfixed : Fixed (elfPhdrRuntimeAddr img bias) _ := fixed_elfPhdrRuntimeAddr bias
  cases hphdr : phdrAddr img.ePhoff bias img.loads with
  | error k =>
    rw [hphdr] at hfixed
    obtain rfl := phdrAddr_error hphdr
    exact hfixed.bind_error.gives_stop hstop
  | ok phdr =>
    rw [hphdr] at hfixed
    refine hfixed.gives_bind ?_
    refine (gives_allocateUserStack_off h₄ hstop).bind ?_
    rintro _ s₅ ⟨c₅, h₅, hoff₅⟩
    refine (gives_buildInitialStackLdso name args execfn _ (Holds.shows h₅) fun _ => hstop).bind ?_
    rintro _ s₆ ⟨rfl, h₆⟩
    have hview : ∀ x < userStackBase, userView r s₆ x = c₄.mem x := fun x hx => by
      rw [h₆.view, withLdso_below _ _ _ _ _ hx, hoff₅.mem x (stackPage_of_below hx)]
    refine gives_pure ⟨rfl, rfl, ⟨c₁.mem, fun x hx => ?_⟩, ⟨c₃.mem, fun x hx => ?_⟩, phdr, rfl, ?_⟩
    · -- The interpreter is mapped and relocated behind the program.
      rw [hview x (by omega), hc₄]
      dsimp only
      rw [relocated_of_notMem fun e _ => .inl (by omega), hoff₃.mem x ?_, hc₂]
      rintro ⟨g, -, hcov, -⟩
      have hle : img.interpBias bias / pageSize ≤ x / pageSize :=
        (Nat.div_le_div_right (le_add_right _ _)).trans hcov
      obtain ⟨k, hk⟩ := hpage
      rw [hk] at hle hbehind
      unfold pageSize at hle hbehind
      omega
    · rw [hview x hx, hc₄]
    · rw [h₆.view]
      have := withLdso_aux name args execfn ⟨phdr, img.ePhentsize, img.ePhnum,
        u64 (bias + img.eEntry), u64 (img.interpBias bias + interp.minVaddr)⟩ c₅.mem
      rwa [u64_of_lt (u64_lt (bias + _)), u64_of_lt (u64_lt (img.interpBias bias + _))] at this

end Dynamic

/-! ## The bias -/

/-- The bases agree for the relocations of a file: it has none, or a segment begins at address 0
and no place has two addends. -/
def RelocsAgree (img : Image) : Prop :=
  img.relas = [] ∨ (∃ g ∈ img.loads, g.vaddr = 0) ∧ OneAddend img.relas

/-- What a position-independent static program is promised. -/
structure StaticAgrees (img : Image) (bias : Nat) (out : ExecImage) (s : Vmm.State) : Prop where
  entry : out.entry = u64 (bias + img.eEntry)
  words : ∀ e ∈ img.relas, (userView out.pml4 s).read (bias + e.offset) 8 = u64 (bias + e.addend)

/-- What a program with an interpreter is promised, with the auxiliary vector at `a`. -/
structure DynamicAgrees (img interp : Image) (bias a : Nat) (out : ExecImage) (s : Vmm.State) :
    Prop where
  entry : out.entry = u64 (img.interpBias bias + interp.eEntry)
  words : ∀ e ∈ img.relas, (userView out.pml4 s).read (bias + e.offset) 8 = u64 (bias + e.addend)
  interpWords : ∀ e ∈ interp.relas, (userView out.pml4 s).read (img.interpBias bias + e.offset) 8 =
    u64 (img.interpBias bias + e.addend)
  /-- The headers are at the address of a segment that has them, and the base is the bias. -/
  aux : ∃ g ∈ img.loads, g.offset ≤ img.ePhoff ∧ img.ePhoff < g.offset + g.filesz ∧
    AuxSays (userView out.pml4 s) a (u64 (bias + (g.vaddr + (img.ePhoff - g.offset))))
      (u64 (bias + img.eEntry)) (img.interpBias bias)

/-- The path in the file's `PT_INTERP`. -/
def Image.interpName (img : Image) : List UInt8 :=
  match img.phdrOf ptInterp with
  | none => []
  | some ph =>
    ((range (if (img.segmentAt ph).filesz ≥ 256 then 255 else (img.segmentAt ph).filesz)).map
      fun k => img.byte (u64 ((img.segmentAt ph).offset + k))).takeWhile fun c =>
        c != 0 && c != 10 && c != 13

section Law

variable {img interp : Image} {bias : Nat} {s : Vmm.State} {bad : Event → Prop}
  {stops : Stop → Prop}

lemma words_agree_iff (hload : img.Loadable bias) {v m : Mem} {k : Nat}
    (hk : ∀ g ∈ img.loads, g.base bias + g.memsz ≤ k)
    (hv : ∀ x < k, v x = relocated (u64 (bias + img.minVaddr)) bias img.relas m x) :
    (∀ e ∈ img.relas, v.read (bias + e.offset) 8 = u64 (bias + e.addend)) ↔ RelocsAgree img := by
  have hread : ∀ e ∈ img.relas, v.read (bias + e.offset) 8 =
      (relocated (u64 (bias + img.minVaddr)) bias img.relas m).read (bias + e.offset) 8 := by
    intro e he
    obtain ⟨g, hg, -, h2⟩ := hload.target he
    have := hk g hg
    exact Mem.read_congr fun x _ hx => hv x (by omega)
  have hwords := words_iff (b := bias) (m := m) img.minVaddr_lt hload.relocatable.aligned
    fun e => Image.relas_addend
  rw [RelocsAgree, ← hload.minVaddr_eq_zero, ← hwords]
  exact forall₂_congr fun e he => by rw [hread e he]

lemma gives_checked {β : Type} {f : Unit → Loader β} {Q : β → Vmm.State → Prop} {b : Bool}
    (h : b = false → stops .error) (hf : Gives (f ()) s bad stops Q) :
    Gives (checked b >>= f) s bad stops Q := by
  cases b with
  | true => exact (fixed_pure ()).gives_bind hf
  | false => exact (fixed_stop _).bind_error.gives_stop (h rfl)

lemma gives_withUserPml4 {β : Type} {body : Nat → Loader β} {Q : β → Vmm.State → Prop}
    (hgood : Good s.pmm) (hwithin : Within (2 ^ 52) s.pmm)
    (hstop : ¬ Provides s.pmm 1 → stops .error)
    (hbody : ∀ r s', Created ∅ s s' r → Gives (body r) s' bad stops Q) :
    Gives (withUserPml4 body) s bad stops Q := by
  have hsound : Sound 256 ∅ s := ⟨hgood, hwithin, by simp, by simp [Radix.Separate],
    fun t ht => by obtain ⟨r, hr, -⟩ := ht; simp at hr⟩
  rcases hsound.create with ⟨h0, hnone⟩ | ⟨r, s', hnew, hcreated⟩
  · unfold Gives withUserPml4
    rw [hnone]
    exact .inr (hstop fun hp => provides_one.mp hp h0)
  · have h := hbody r s' hcreated
    unfold Gives withUserPml4 at *
    rw [hnew]
    dsimp only
    generalize body r s' = out at h
    obtain ⟨l, (_ | _) | out, s''⟩ := out
    all_goals exact h

lemma gives_prepareStatic (name : CStr) (args : Args) (hgood : Good s.pmm)
    (hwithin : Within (2 ^ 52) s.pmm) (hdyn : img.eType = etDyn)
    (hload : img.Loadable userElfDynBase) (hstop : stops .error) :
    Gives (elfPrepareStaticImage img name args) s bad stops fun out s' =>
      StaticAgrees img userElfDynBase out s' ↔ RelocsAgree img := by
  refine gives_checked (fun _ => hstop) ?_
  refine (fixed_log _).gives_bind ?_
  refine gives_checked (fun _ => hstop) ?_
  refine gives_checked (fun _ => hstop) ?_
  refine gives_withUserPml4 hgood hwithin (fun _ => hstop) fun r s' hnew => ?_
  rw [show img.bias = userElfDynBase from if_pos hdyn]
  refine (gives_loadStatic name args hnew.own.holds hload (by decide) hstop).mono ?_
  rintro out s'' ⟨rfl, hentry, m, hview⟩
  rw [← words_agree_iff hload hload.below hview]
  exact ⟨fun h => h.words, fun h => ⟨hentry, h⟩⟩

lemma fixed_interpPath {ph : Nat} (hph : img.phdrOf ptInterp = some ph) :
    Fixed (interpPath img ph) (.ok img.interpName) := by
  have hname : img.interpName = ((range (if (img.segmentAt ph).filesz ≥ 256 then 255
      else (img.segmentAt ph).filesz)).map fun k =>
        img.byte (u64 ((img.segmentAt ph).offset + k))).takeWhile fun c =>
          c != 0 && c != 10 && c != 13 := by
    unfold Image.interpName
    rw [hph]
  rw [hname]
  exact (fixed_pFilesz ph).bind ((fixed_pOffset ph).bind ((fixed_log _).bind (fixed_pure _)))

lemma gives_checkInterp (hstop : stops .error) :
    Gives (checkInterp (some interp)) s bad stops fun i s' => i = interp ∧ s' = s := by
  refine gives_checked (fun _ => hstop) ?_
  refine (fixed_log _).gives_bind ?_
  refine gives_checked (fun _ => hstop) ?_
  refine gives_checked (fun _ => hstop) ?_
  exact gives_pure ⟨rfl, rfl⟩

lemma dynamicAgrees_iff {out : ExecImage} {s' : Vmm.State} {m m' : Mem} {a phdr : Nat}
    (hload : img.Loadable bias) (hint : interp.Loadable (img.interpBias bias))
    (hentry : out.entry = u64 (img.interpBias bias + interp.eEntry))
    (hmain : ∀ x < highest bias 0 img.loads, userView out.pml4 s' x =
      relocated (u64 (bias + img.minVaddr)) bias img.relas m x)
    (hinterp : ∀ x < userStackBase, userView out.pml4 s' x = relocated
      (u64 (img.interpBias bias + interp.minVaddr)) (img.interpBias bias) interp.relas m' x)
    (hphdr : phdrAddr img.ePhoff bias img.loads = .ok phdr)
    (haux : AuxSays (userView out.pml4 s') a (u64 phdr) (u64 (bias + img.eEntry))
      (u64 (img.interpBias bias + interp.minVaddr))) :
    DynamicAgrees img interp bias a out s' ↔
      RelocsAgree img ∧ RelocsAgree interp ∧ ∃ g ∈ interp.loads, g.vaddr = 0 := by
  obtain ⟨-, -, -, hends⟩ := hload.interpBias_spec
  obtain ⟨g, hg, h1, h2, rfl⟩ := phdrAddr_ok hphdr
  have hin := (hload.fits g hg).inFile
  rw [u64_of_lt (lt_of_le_of_lt hin hload.size_lt)] at h2
  rw [u64_of_lt (u64_lt _)] at haux
  -- The base is the bias if and only if the interpreter begins at address 0.
  have hbase : u64 (img.interpBias bias + interp.minVaddr) = img.interpBias bias ↔
      interp.minVaddr = 0 := by
    obtain ⟨g', hg'⟩ := exists_mem_of_ne_nil _ hint.some_load
    have hlt := hint.below g' hg'
    have := interp.minVaddr_lt
    have : userStackBase = 0x7FFF00000000 := rfl
    unfold Segment.base at hlt
    unfold u64
    omega
  rw [← hint.minVaddr_eq_zero, ← words_agree_iff hload hends hmain,
    ← words_agree_iff hint hint.below hinterp]
  constructor
  · intro h
    obtain ⟨_, -, -, -, haux'⟩ := h.aux
    have hsame := haux.base.symm.trans haux'.base
    exact ⟨h.words, h.interpWords, hbase.mp (by simpa using hsame)⟩
  · rintro ⟨hw, hiw, h0⟩
    rw [hbase.mpr h0, add_assoc] at haux
    exact ⟨hentry, hw, hiw, g, hg, h1, h2, haux⟩

lemma gives_prepareDynamic {files : List UInt8 → Option Image} (name : CStr) (args : Args)
    (execfn : CStr) (hgood : Good s.pmm) (hwithin : Within (2 ^ 52) s.pmm)
    (hdyn : img.eType = etDyn) (hload : img.Loadable userElfDynBase)
    (hfile : files img.interpName = some interp)
    (hint : interp.Loadable (img.interpBias userElfDynBase)) (hstop : stops .error) :
    Gives (elfPrepareDynamicImage img files name args execfn) s bad stops fun out s' =>
      DynamicAgrees img interp userElfDynBase (auxPlace name args execfn) out s' ↔
        RelocsAgree img ∧ RelocsAgree interp ∧ ∃ g ∈ interp.loads, g.vaddr = 0 := by
  refine gives_checked (fun _ => hstop) ?_
  refine (fixed_log _).gives_bind ?_
  refine gives_checked (fun _ => hstop) ?_
  refine gives_checked (fun _ => hstop) ?_
  refine (fixed_elfFindPhdr ptInterp).gives_bind ?_
  cases hph : img.phdrOf ptInterp with
  | none => exact gives_stop hstop
  | some ph =>
    refine (fixed_pFilesz ph).gives_bind ?_
    split_ifs
    · exact gives_stop hstop
    refine (fixed_pOffset ph).gives_bind ?_
    refine gives_checked (fun _ => hstop) ?_
    refine (fixed_interpPath hph).gives_bind ?_
    refine gives_checked (fun _ => hstop) ?_
    rw [hfile]
    refine (gives_checkInterp hstop).bind ?_
    rintro _ s ⟨rfl, rfl⟩
    refine gives_withUserPml4 hgood hwithin (fun _ => hstop) fun r s' hnew => ?_
    rw [show img.bias = userElfDynBase from if_pos hdyn]
    refine (gives_loadDynamic name args execfn hnew.own.holds hload (by decide) hint hstop).mono ?_
    rintro out s'' ⟨rfl, hentry, ⟨m, hmain⟩, ⟨m', hinterp⟩, phdr, hphdr, haux⟩
    exact dynamicAgrees_iff hload hint hentry hmain hinterp hphdr haux

/-- Whenever a position-independent program is loaded, its relocations and all that it is told of
addresses agree on the bias if and only if the lowest address of each file with relocations, and
that of the interpreter, is 0. -/
theorem bias_law_iff (hgood : Good s.pmm) (hwithin : Within (2 ^ 52) s.pmm)
    (hdyn : img.eType = etDyn) (hload : img.Loadable userElfDynBase)
    (files : List UInt8 → Option Image) (name : CStr) (args : Args) (execfn : CStr) :
    (∀ l out s', elfPrepareStaticImage img name args s = (l, .ok out, s') →
      (StaticAgrees img userElfDynBase out s' ↔ RelocsAgree img)) ∧
    ∀ interp, files img.interpName = some interp →
      interp.Loadable (img.interpBias userElfDynBase) →
      ∀ l out s', elfPrepareDynamicImage img files name args execfn s = (l, .ok out, s') →
        (DynamicAgrees img interp userElfDynBase (auxPlace name args execfn) out s' ↔
          RelocsAgree img ∧ RelocsAgree interp ∧ ∃ g ∈ interp.loads, g.vaddr = 0) := by
  refine ⟨fun l out s' hrun => ?_, fun interp hfile hint l out s' hrun => ?_⟩
  · have hgives : Gives _ _ (fun _ => False) (fun _ => True) _ :=
      gives_prepareStatic name args hgood hwithin hdyn hload trivial
    exact hgives.of_eq hrun fun _ _ => id
  · have hgives : Gives _ _ (fun _ => False) (fun _ => True) _ :=
      gives_prepareDynamic name args execfn hgood hwithin hdyn hload hfile hint trivial
    exact hgives.of_eq hrun fun _ _ => id

lemma elfPrepareStaticImage_returns (name : CStr) (args : Args) (hgood : Good s.pmm)
    (hwithin : Within (2 ^ 52) s.pmm) (hsize : ehdrSize ≤ img.size) (hid : img.identified = true)
    (hphdrs : img.phdrsChecked = true) (hload : img.Loadable img.bias)
    (hfound : img.TableFound)
    (hprov : Provides s.pmm (1 + (4 * userStackPages + 4 * img.pageCount img.bias))) :
    ∃ l out s', elfPrepareStaticImage img name args s = (l, .ok out, s') := by
  have hgives : Gives (elfPrepareStaticImage img name args) s (fun _ => False) (fun _ => False)
      fun _ _ => True := by
    refine gives_checked (fun hc => absurd hc (by simpa using hsize)) ?_
    refine (fixed_log _).gives_bind ?_
    refine gives_checked (fun hc => absurd hid (by simp [hc])) ?_
    refine gives_checked (fun hc => absurd hphdrs (by simp [hc])) ?_
    refine gives_withUserPml4 hgood hwithin (fun hno => hno (hprov.mono (by omega)))
      fun r s' hnew => ?_
    have hbias : img.bias % 8 = 0 := by
      unfold Image.bias
      split_ifs <;> rfl
    refine gives_loadStatic_rich name args hnew.own hload hbias hfound ?_
    rw [hnew.pmm]
    exact (provides_add.mp hprov).2
  obtain ⟨l, out, s', hrun, -⟩ := hgives.returns (fun _ _ => id) fun _ => id
  exact ⟨l, out, s', hrun⟩

end Law

/-! A file of 264 bytes at the address `low`: its headers, a dynamic table, and one relocation of
the word behind it. -/

def relocFile (low : Nat) : Image := imageOf <|
  elfFile etDyn low
    [(ptLoad, ⟨pfX ||| pfW ||| 4, 0, low, 0x108, 0x110⟩),
      (ptDynamic, ⟨pfW ||| 4, 0xB0, low + 0xB0, 64, 64⟩)]
    ([dtRela, low + 0xF0, dtRelasz, relaSize, dtRelaent, relaSize, dtNull, 0,
      low + 0x108, rX8664Relative, low].flatMap le64)

lemma relocFile_loadable {low : Nat} (hlow : low ∈ [0, 0x1000]) :
    (relocFile low).Loadable userElfDynBase := by
  have hload : ∀ low ∈ [0, 0x1000], (relocFile low).loads ≠ [] ∧ ∀ g ∈ (relocFile low).loads,
      (0 < g.memsz ∧ g.filesz ≤ g.memsz ∧ g.offset + g.filesz ≤ (relocFile low).size ∧
        g.base userElfDynBase + g.memsz ≤ userEnd) ∧
      g.base userElfDynBase + g.memsz ≤ userStackBase := by decide +kernel
  have htables : ∀ low ∈ [0, 0x1000],
      (relocFile low).addr + (relocFile low).size + pageSize ≤ 2 ^ 64 ∧
      (∀ ph ∈ (relocFile low).dynPhdr, ((relocFile low).segmentAt ph).offset +
        ((relocFile low).segmentAt ph).filesz ≤ (relocFile low).size) ∧
      (relocFile low).dynInfo.relaent = relaSize ∧
      ∀ off ∈ segmentsOff (relocFile low).dynInfo.relaVa (relocFile low).loads,
        off + (relocFile low).dynInfo.relasz ≤ (relocFile low).size := by decide +kernel
  have hentries : ∀ low ∈ [0, 0x1000], ∀ e ∈ (relocFile low).relas,
      e.info % 2 ^ 32 = rX8664Relative ∧ e.offset % 8 = 0 ∧ ∃ g ∈ (relocFile low).loads,
        g.vaddr ≤ e.offset ∧ e.offset + 8 ≤ g.vaddr + g.memsz := by decide +kernel
  obtain ⟨h1, h2⟩ := hload low hlow
  obtain ⟨h3, h4, h5, h6⟩ := htables low hlow
  have h7 := hentries low hlow
  exact ⟨h1, fits_of_decide fun g hg => (h2 g hg).1, fun g hg => (h2 g hg).2, h3, h4, h5, h6,
    fun e he => (h7 e he).1, fun e he => (h7 e he).2.1, fun e he => (h7 e he).2.2⟩

lemma relocFile_returns {low : Nat} (hlow : low ∈ [0, 0x1000]) :
    ∃ s : Vmm.State, Good s.pmm ∧ Within (2 ^ 52) s.pmm ∧
      ∃ l out s', elfPrepareStaticImage (relocFile low) appName sampleArgs s =
        (l, .ok out, s') := by
  obtain ⟨pmm, hrun, hprov, -⟩ := exists_plenty
  have hchecks : ∀ low ∈ [0, 0x1000], (relocFile low).eType = etDyn ∧
      ehdrSize ≤ (relocFile low).size ∧ (relocFile low).identified = true ∧
      (relocFile low).phdrsChecked = true ∧
      (relocFile low).dynInfo.relaVa ≠ 0 ∧
      segmentsOff (relocFile low).dynInfo.relaVa (relocFile low).loads ≠ none ∧
      (relocFile low).pageCount userElfDynBase = 1 := by decide +kernel
  obtain ⟨htype, hsize, hid, hphdrs, hva, hoff, hpages⟩ := hchecks low hlow
  have hbias : (relocFile low).bias = userElfDynBase := if_pos htype
  refine ⟨⟨fun _ => 0, pmm, 0⟩, hrun.good, hrun.within, ?_⟩
  refine elfPrepareStaticImage_returns appName sampleArgs hrun.good hrun.within hsize hid hphdrs ?_
    (.inr ⟨hva, hoff⟩) (hprov.mono ?_)
  · rw [hbias]
    exact relocFile_loadable hlow
  · rw [hbias, hpages]
    decide

/-- A file that begins at address 0. -/
theorem bias_law_iff_relocFile : ∃ (s : Vmm.State) (l : List Event) (out : ExecImage)
    (s' : Vmm.State), elfPrepareStaticImage (relocFile 0) appName sampleArgs s = (l, .ok out, s') ∧
      StaticAgrees (relocFile 0) userElfDynBase out s' := by
  obtain ⟨s, hgood, hwithin, l, out, s', hrun⟩ := relocFile_returns (show 0 ∈ [0, 0x1000] by decide)
  refine ⟨s, l, out, s', hrun, ((bias_law_iff hgood hwithin (by decide +kernel)
    (relocFile_loadable (by decide)) (fun _ => none) appName sampleArgs appName).1 l out s'
    hrun).mpr (.inr ⟨by decide +kernel, ?_⟩)⟩
  unfold OneAddend
  decide +kernel

/-- The same file from address 0x1000 on: its one relocated word is 0x1000 too large. -/
theorem word_off_by_lowest : ∃ (s : Vmm.State) (l : List Event) (out : ExecImage)
    (s' : Vmm.State), (relocFile 0x1000).Loadable userElfDynBase ∧
      elfPrepareStaticImage (relocFile 0x1000) appName sampleArgs s = (l, .ok out, s') ∧
      ¬ StaticAgrees (relocFile 0x1000) userElfDynBase out s' := by
  obtain ⟨s, hgood, hwithin, l, out, s', hrun⟩ := relocFile_returns
    (show 0x1000 ∈ [0, 0x1000] by decide)
  have hload := relocFile_loadable (show 0x1000 ∈ [0, 0x1000] by decide)
  have hgives : Gives _ _ (fun _ => False) (fun _ => True) _ :=
    gives_prepareStatic appName sampleArgs hgood hwithin (by decide +kernel) hload trivial
  refine ⟨s, l, out, s', hload, hrun, fun h => ?_⟩
  rcases (hgives.of_eq hrun fun _ _ => id).mp h with hnil | ⟨hzero, -⟩
  · exact absurd hnil (by decide +kernel)
  · exact absurd hzero (by decide +kernel)

end YamKernel.Elf

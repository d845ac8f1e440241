import YamKernel.Mem.Vmm.Brk
import YamKernel.Mem.Vmm.Ownership

/-!
# What an address space holds

`Isolated`: each page of the lower half of a space is mapped to a frame of its own, to pixels of a
surface (and then marked so), or to memory that the allocator does not manage. The frames `F` that
were handed to others and the tables of both halves are apart from the frames of the space. Taking
memory, mapping a page and unmapping a page keep this.
-/

namespace YamKernel.Vmm

open Lib Pmm

def UpperTable (m : Mem) (r t : Nat) : Prop :=
  ∃ d n, Radix.node 512 (upperNext m) r (d + 1) n = some t

/-- The page at `f` is not memory that the allocator manages. -/
def Device (pmm : Pmm.State) (f : Nat) : Prop := ∀ a, f ≤ a → a < f + pageSize → ¬ InPool pmm a

/-- The frame `f` belongs to the space: it was handed to none of `F`, and holds no table. -/
structure Mine (r : Nat) (F : Set Nat) (s : State) (f : Nat) : Prop where
  owned : Owned 256 {r} s f
  other : f ∉ F
  upper : ∀ t, UpperTable s.mem r t → Off s.pmm f t

/-- The tables, the frames handed to others, the pixels among them, and the frames of the space that
are not mapped. -/
structure Holdings (r : Nat) (F X P : Set Nat) (s : State) : Prop where
  sound : Sound 256 {r} s
  clear : ∀ p < 2 ^ 35, ¬ Blocked 256 s.mem r p
  upper : UpperApart s r
  foreign : ∀ b ∈ F, Owned 256 {r} s b
  pixels : ∀ f ∈ P, ∃ b ∈ F, ∃ n, Allocated s.pmm b n ∧ b ≤ f ∧ f + pageSize ≤ b + n
  spare : ∀ f ∈ X, Mine r F s f

def Rightful (r : Nat) (F X P : Set Nat) (s : State) (e : Pte) : Prop :=
  if has e.entry flagDontFree then frame e.entry ∈ P
  else (Mine r F s (frame e.entry) ∧ frame e.entry ∉ X) ∨ Device s.pmm (frame e.entry)

structure Isolated (r : Nat) (F X P : Set Nat) (s : State) : Prop extends Holdings r F X P s where
  pages : ∀ p < 2 ^ 35, (pte 256 s.mem r p).present = true → Rightful r F X P s (pte 256 s.mem r p)
  alone : ∀ p < 2 ^ 35, ∀ q < 2 ^ 35, (pte 256 s.mem r p).present = true →
    (pte 256 s.mem r q).present = true →
    frame (pte 256 s.mem r p).entry = frame (pte 256 s.mem r q).entry →
    p = q ∨ frame (pte 256 s.mem r p).entry ∈ P ∨ Device s.pmm (frame (pte 256 s.mem r p).entry)

lemma Rightful.imp {r : Nat} {F F' X X' P : Set Nat} {s s' : State} {e : Pte}
    (h : Rightful r F X P s e)
    (hmine : Mine r F s (frame e.entry) → frame e.entry ∉ X →
      Mine r F' s' (frame e.entry) ∧ frame e.entry ∉ X')
    (hdevice : Device s.pmm (frame e.entry) → Device s'.pmm (frame e.entry)) :
    Rightful r F' X' P s' e := by
  unfold Rightful at h ⊢
  split_ifs at h ⊢
  · exact h
  · exact h.imp (fun hm => hmine hm.1 hm.2) hdevice

/-! ## Steps that free nothing -/

/-- What a step that only takes memory leaves alone: memory in use outside the tables of the lower
half, and the upper half of the root. -/
structure Advances (r : Nat) (s s' : State) : Prop where
  ext : Extends s.pmm s'.pmm
  free : ∀ a, FreeAt s'.pmm a → FreeAt s.pmm a
  tables : ∀ t, IsTable 256 s'.mem {r} t → IsTable 256 s.mem {r} t ∨
    ∀ a, t ≤ a → a < t + pageSize → FreeAt s.pmm a
  root : ∀ i < 512, 256 ≤ i → entry s'.mem r i = entry s.mem r i
  bytes : ∀ a, ¬ FreeAt s.pmm a → (∀ t, IsTable 256 s.mem {r} t → ¬ (t ≤ a ∧ a < t + pageSize)) →
    s'.mem a = s.mem a

section Advances

variable {r f : Nat} {F X P : Set Nat} {s s' s'' : State}

lemma Advances.refl (r : Nat) (s : State) : Advances r s s :=
  ⟨.refl _, fun _ h => h, fun _ h => .inl h, fun _ _ _ => rfl, fun _ _ _ => rfl⟩

lemma Advances.trans (h : Advances r s s') (g : Advances r s' s'') : Advances r s s'' where
  ext := h.ext.trans g.ext
  free a ha := h.free a (g.free a ha)
  tables t ht := by
    rcases g.tables t ht with ht | hfree
    · exact h.tables t ht
    · exact .inr fun a h1 h2 => h.free a (hfree a h1 h2)
  root i hi hti := (g.root i hi hti).trans (h.root i hi hti)
  bytes a ha hta := by
    refine (g.bytes a (fun hf => ha (h.free a hf)) fun t ht hin => ?_).trans (h.bytes a ha hta)
    rcases h.tables t ht with ht | hfree
    · exact hta t ht hin
    · exact ha (hfree a hin.1 hin.2)

/-- Where the entries of the upper half stay, so do its tables. -/
theorem UpperKept.node_eq {m m' : Mem} (h : UpperKept m m' r) (d n : Nat) :
    Radix.node 512 (upperNext m') r d n = Radix.node 512 (upperNext m) r d n := by
  refine Radix.node_congr (fun d n t ht i hi => ?_) (by decide) d n
  unfold upperNext
  by_cases hd : d = 0 → 256 ≤ i
  · rw [h d n t ht i hi hd]
  · simp [hd]

lemma Advances.upper (w : Advances r s s') (h : Holdings r F X P s) :
    UpperKept s.mem s'.mem r ∧ UpperApart s' r := by
  have hkept : UpperKept s.mem s'.mem r := h.upper.kept (h.sound.root r rfl) w.root w.bytes
  refine ⟨hkept, fun d n t ht => ?_⟩
  rw [hkept.node_eq] at ht
  obtain ⟨hheld, hnot⟩ := h.upper d n t ht
  refine ⟨fun a h1 h2 hf => hheld a h1 h2 (w.free a hf), fun htab => ?_⟩
  rcases w.tables t htab with htab | hfree
  · exact hnot htab
  · exact hheld t le_rfl (by unfold pageSize; omega) (hfree t le_rfl (by unfold pageSize; omega))

lemma Device.extends {pmm pmm' : Pmm.State} (h : Device pmm f) (he : Extends pmm pmm') :
    Device pmm' f := fun a h1 h2 ha => h a h1 h2 (he.inPool_iff.mp ha)

lemma Device.not_allocated {pmm : Pmm.State} {n : Nat} (h : Device pmm f) (hg : Good pmm) :
    ¬ Allocated pmm f n := fun ha => by
  have := hg.allocated_size_pos ha
  exact h f le_rfl (by unfold pageSize; omega) (hg.allocated_inPool ha le_rfl (by omega))

/-- What the space holds is kept by a step that keeps the frames in use. -/
theorem Holdings.advance (h : Holdings r F X P s)
    (hu : UpperKept s.mem s'.mem r ∧ UpperApart s' r) (hs : Sound 256 {r} s')
    (hclear : ∀ q, Blocked 256 s'.mem r q → Blocked 256 s.mem r q)
    (howned : ∀ g, Owned 256 {r} s g → Owned 256 {r} s' g)
    (halloc : ∀ b n, Allocated s.pmm b n → Allocated s'.pmm b n) :
    Holdings r F X P s' ∧ ∀ f, Mine r F s f → Mine r F s' f := by
  have hmine : ∀ f, Mine r F s f → Mine r F s' f := fun f hf => by
    obtain ⟨n, ha⟩ := hf.owned.used
    refine ⟨howned f hf.owned, hf.other, ?_⟩
    rintro t ⟨d, m, ht⟩
    rw [hu.1.node_eq] at ht
    exact (hf.upper t ⟨d, m, ht⟩).mono hs.good ha (halloc f n ha)
  refine ⟨⟨hs, fun p hp hb => h.clear p hp (hclear p hb), hu.2,
    fun b hb => howned b (h.foreign b hb),
    fun f hf => ?_, fun f hf => hmine f (h.spare f hf)⟩, hmine⟩
  obtain ⟨b, hb, n, ha, hin⟩ := h.pixels f hf
  exact ⟨b, hb, n, halloc b n ha, hin⟩

/-- The same for the pages, of which some are no longer there. -/
theorem Isolated.fewer (h : Isolated r F X P s)
    (hold : Holdings r F X P s' ∧ ∀ f, Mine r F s f → Mine r F s' f) (he : Extends s.pmm s'.pmm)
    (hpte : ∀ q, (pte 256 s'.mem r q).present = true → pte 256 s'.mem r q = pte 256 s.mem r q) :
    Isolated r F X P s' := by
  refine ⟨hold.1, fun p hp hpres => ?_, fun p hp q hq h1 h2 heq => ?_⟩
  · have hsame := hpte p hpres
    rw [hsame] at hpres ⊢
    exact (h.pages p hp hpres).imp (fun hm hX => ⟨hold.2 _ hm, hX⟩) fun hd => hd.extends he
  · have hp' := hpte p h1
    have hq' := hpte q h2
    rw [hp'] at h1 heq ⊢
    rw [hq'] at h2 heq
    exact (h.alone p hp q hq h1 h2 heq).imp id (Or.imp id fun hd => hd.extends he)

end Advances

/-! ## The steps -/

section Steps

variable {r f p va : Nat} {F X P : Set Nat} {s s' : State}

lemma Isolated.forget (h : Isolated r F X P s) {Y : Set Nat} (hY : Y ⊆ X) :
    Isolated r F Y P s := by
  refine { h with spare := fun f hf => h.spare f (hY hf), pages := fun p hp hpres => ?_ }
  exact (h.pages p hp hpres).imp (fun hm hX => ⟨hm, fun hc => hX (hY hc)⟩) id

lemma Isolated.take (h : Isolated r F X P s) {pmm' : Pmm.State} {base size : Nat}
    (w : Allocates s.pmm pmm' base size) (he : Extends s.pmm pmm') :
    Isolated r F (insert base X) P { s with pmm := pmm' } ∧
      Advances r s { s with pmm := pmm' } := by
  obtain ⟨hs, hbase, howned⟩ := h.sound.allocates w he
  have hadv : Advances r s { s with pmm := pmm' } :=
    ⟨he, fun a ha => ((w.freeAt_iff he h.sound.good).mp ha).1, fun t ht => .inl ht,
      fun _ _ _ => rfl, fun _ _ _ => rfl⟩
  have hne : ∀ g, Owned 256 {r} s g → g ≠ base := fun g hg => (howned g hg).1
  have halloc : ∀ b n, Allocated s.pmm b n → Allocated pmm' b n := fun b n ha =>
    (w.allocated b n).mpr (.inl ha)
  have hhold := h.toHoldings.advance (hadv.upper h.toHoldings) hs (fun _ hb => hb)
    (fun g hg => (howned g hg).2) halloc
  have hgrow := h.fewer hhold he fun _ _ => rfl
  refine ⟨{ hgrow with spare := ?_, pages := fun p hp hpres => ?_ }, hadv⟩
  · rintro g (rfl | hg)
    · refine ⟨hbase, fun hc => hne g (h.foreign g hc) rfl, ?_⟩
      rintro t ⟨d, n, ht⟩
      exact w.off he h.sound.good (h.upper d n t ht).1
    · exact hgrow.spare g hg
  · refine (h.pages p hp hpres).imp (fun hm hX => ⟨hhold.2 _ hm, ?_⟩) fun hd => hd.extends he
    rintro (he | hc)
    · exact hne _ hm.owned he
    · exact hX hc

lemma Isolated.cede (h : Isolated r F X P s) (hf : f ∈ X) :
    Isolated r (insert f F) (X \ {f}) P s := by
  have hmine : ∀ g, g ≠ f → Mine r F s g → Mine r (insert f F) s g := fun g hne hg =>
    ⟨hg.owned, fun hc => hc.elim hne hg.other, hg.upper⟩
  refine { h with
    foreign := ?_
    pixels := fun g hg => ?_
    spare := fun g hg => hmine g hg.2 (h.spare g hg.1)
    pages := fun p hp hpres => ?_ }
  · rintro b (rfl | hb)
    · exact (h.spare b hf).owned
    · exact h.foreign b hb
  · obtain ⟨b, hb, hin⟩ := h.pixels g hg
    exact ⟨b, .inr hb, hin⟩
  · refine (h.pages p hp hpres).imp (fun hm hX => ⟨hmine _ ?_ hm, fun hc => hX hc.1⟩) id
    intro he
    exact hX (he ▸ hf)

lemma frame_leafEntry {phys flags : Nat} (hf : flags &&& addrMask = 0) :
    frame (leafEntry phys flags) = frame phys := by
  have h1 : frame flags = 0 := hf
  have h2 : frame flagPresent = 0 := by decide
  rw [leafEntry, frame_or, frame_or, frame_frame, h1, h2, Nat.or_zero, Nat.or_zero]

section

variable (h : Isolated r F X P s)
include h

/-- A page is mapped to a frame in reserve, to pixels, or to a device. -/
theorem Isolated.map_page (hva : pageOf va < 2 ^ 35) (phys flags : Nat)
    (hflags : flags < 2 ^ 64) (hmask : flags &&& addrMask = 0)
    (hkind : if has flags flagDontFree then frame phys ∈ P
      else frame phys ∈ X ∨ Device s.pmm (frame phys)) :
    Isolated r F (X \ {frame phys}) P (vmmMapPage s r va phys flags).2 ∧
      Advances r s (vmmMapPage s r va phys flags).2 ∧
      ∀ f, Mine r F s f → Mine r F (vmmMapPage s r va phys flags).2 f := by
  obtain ⟨l, w, -⟩ := h.sound.mapped rfl hva phys hflags
  generalize (vmmMapPage s r va phys flags).2 = s' at w
  have hadv : Advances r s s' := by
    refine ⟨w.takes.ext, fun a ha => w.takes.freeAt h.sound.good ha,
      fun t ht => ?_, w.upper r rfl, w.bytes⟩
    exact ((w.tables t).mp ht).imp id fun hl => (w.takes.mem h.sound.good hl).2.2.1
  obtain ⟨hholds, hmine⟩ := h.toHoldings.advance (hadv.upper h.toHoldings) w.sound w.huge
    (fun g hg => hg.mapped h.sound w) fun b n ha => w.takes.allocated ha
  refine ⟨?_, hadv, hmine⟩
  by_cases hm : Mappable 256 s r (pageOf va)
  · have hpte : ∀ q, pte 256 s'.mem r q =
        if q = pageOf va then ⟨leafEntry phys flags, false⟩ else pte 256 s.mem r q := fun q => by
      rw [w.mapped hm r rfl]
      simp
    have hframe : frame (leafEntry phys flags) = frame phys := frame_leafEntry hmask
    have hdont : has (leafEntry phys flags) flagDontFree = has flags flagDontFree :=
      leafEntry_has
    have hnew : pte 256 s'.mem r (pageOf va) = ⟨leafEntry phys flags, false⟩ := by
      rw [hpte, if_pos rfl]
    have hold : ∀ {q}, q ≠ pageOf va → pte 256 s'.mem r q = pte 256 s.mem r q := fun {q} hq => by
      rw [hpte, if_neg hq]
    -- No other page has a frame that was in reserve.
    have halone : ∀ q < 2 ^ 35, (pte 256 s.mem r q).present = true →
        frame (pte 256 s.mem r q).entry = frame phys →
        frame phys ∈ P ∨ Device s.pmm (frame phys) := fun q hq hpres he => by
      have hright := h.pages q hq hpres
      unfold Rightful at hright
      rw [he] at hright
      split_ifs at hright hkind
      · exact .inl hright
      · exact .inl hright
      · exact .inl hkind
      · rcases hkind with hX | hd
        · exact .inr (hright.resolve_left fun hm => hm.2 hX)
        · exact .inr hd
    have hext : ∀ {g}, g ∈ P ∨ Device s.pmm g → g ∈ P ∨ Device s'.pmm g :=
      Or.imp id fun hd => hd.extends hadv.ext
    refine ⟨{ hholds with spare := fun g hg => hholds.spare g hg.1 }, fun p hp hpres => ?_,
      fun p hp q hq h1 h2 he => ?_⟩
    · by_cases hpv : p = pageOf va
      · subst hpv
        rw [hnew]
        unfold Rightful
        rw [hdont, hframe]
        split_ifs at hkind ⊢
        · exact hkind
        · exact hkind.imp (fun hX => ⟨hmine _ (h.spare _ hX), fun hc => hc.2 rfl⟩) fun hd =>
            hd.extends hadv.ext
      · rw [hold hpv] at hpres ⊢
        exact (h.pages p hp hpres).imp (fun hm hX => ⟨hmine _ hm, fun hc => hX hc.1⟩) fun hd =>
          hd.extends hadv.ext
    · by_cases hpv : p = pageOf va <;> by_cases hqv : q = pageOf va
      · exact .inl (hpv.trans hqv.symm)
      · subst hpv
        rw [hnew, hold hqv, hframe] at he
        rw [hold hqv] at h2
        rw [hnew, hframe]
        exact .inr (hext (halone q hq h2 he.symm))
      · subst hqv
        rw [hnew, hold hpv, hframe] at he
        rw [hold hpv] at h1 ⊢
        rw [he]
        exact .inr (hext (halone p hp h1 he))
      · rw [hold hpv] at h1 he ⊢
        rw [hold hqv] at h2 he
        exact (h.alone p hp q hq h1 h2 he).imp id hext
  · exact (h.fewer ⟨hholds, hmine⟩ hadv.ext fun q _ =>
      w.unmapped hm r rfl q).forget Set.sdiff_subset

/-- Stores that leave the tables of both halves alone. -/
theorem Isolated.congr (hpmm : s'.pmm = s.pmm) (hk : KeepsTables 256 {r} s.mem s'.mem)
    (hu : UpperKept s.mem s'.mem r) : Isolated r F X P s' := by
  have htab := fun t => (hk.isTable_iff (t := t)).mp
  have hs := h.sound.keeps hk (hpmm ▸ h.sound.good) (hpmm ▸ h.sound.within) fun t ht =>
    hpmm ▸ h.sound.held t ht
  have hup : UpperApart s' r := fun d n t ht => by
    rw [hu.node_eq] at ht
    obtain ⟨hheld, hnot⟩ := h.upper d n t ht
    exact ⟨hpmm ▸ hheld, fun hc => hnot (htab t hc)⟩
  exact h.fewer (h.toHoldings.advance ⟨hu, hup⟩ hs (fun q hb => hk.blocked rfl hb)
    (fun g hg => hg.congr hpmm htab) (hpmm ▸ fun _ _ ha => ha)) (hpmm ▸ .refl _)
    fun q _ => hk.pte_eq rfl q

lemma Isolated.fill (hf : Mine r F s f) :
    Isolated r F X P { s with mem := s.mem.fill f pageSize 0 } := by
  have hdvd := hf.owned.page h.sound
  have hk := h.sound.keepsTables_fill hdvd (hf.owned.notTable h.sound)
  refine h.congr rfl hk fun d n t ht i hi _ => ?_
  cases d with
  | zero =>
    rw [Radix.node] at ht
    split_ifs at ht
    obtain rfl := Option.some.inj ht
    exact hk r ⟨r, rfl, 0, 0, Radix.node_zero⟩ i hi
  | succ d =>
    obtain ⟨m, ha⟩ := hf.owned.used
    have := hf.upper t ⟨d, n, ht⟩ m ha
    have : pageSize ≤ m := by
      obtain ⟨-, -, -, k, rfl⟩ := h.sound.good.allocated_range ha
      exact pageSize_le_levelSize k
    refine entry_congr hi fun a h1 h2 => Mem.fill_of_notMem ?_
    omega

/-- A page is populated with a fresh frame, as far as the memory suffices. -/
theorem Isolated.zeroPage (hva : pageOf va < 2 ^ 35) (flags : Nat) (hflags : flags < 2 ^ 64)
    (hmask : flags &&& addrMask = 0) (hdont : has flags flagDontFree = false) :
    ∃ b s' X', mapZeroPage s r va flags = (b, s') ∧ Isolated r F X' P s' ∧ Advances r s s' := by
  by_cases h0 : (pmmAllocPage s.pmm).1 = 0
  · refine ⟨false, s, X, ?_, h, .refl r s⟩
    simp [mapZeroPage, pmmAllocPage_fail h.sound.good h0]
  have hfresh := pmmAllocPage_fresh h.sound.good h0
  obtain ⟨size, -, w⟩ := hfresh.takes
  obtain ⟨htake, -⟩ := h.take w hfresh.ext
  have hframe : frame (pmmAllocPage s.pmm).1 = (pmmAllocPage s.pmm).1 :=
    frame_of_page hfresh.page (by
      have := (hfresh.within h.sound.within).1
      unfold pageSize at this
      omega)
  obtain ⟨hmap, -, hmine⟩ := htake.map_page hva (pmmAllocPage s.pmm).1 flags hflags hmask
    (by rw [hdont, hframe]; exact .inl (Set.mem_insert _ _))
  have hzero := hmap.fill (hmine _ (htake.spare _ (Set.mem_insert _ _)))
  refine ⟨true, _, _, mapZeroPage_taken h0, hzero, ?_⟩
  rcases h.sound.mapZeroPage_spec rfl hva hflags with
    ⟨-, hno⟩ | ⟨f, s', he, g⟩
  · exact absurd hno h0
  · rw [mapZeroPage_taken h0] at he
    obtain rfl := (Prod.mk.inj he).2
    obtain ⟨l, htakes⟩ := g.takes
    exact ⟨htakes.ext, fun a ha => htakes.freeAt h.sound.good ha, g.tables, g.upper r rfl, g.bytes⟩

end

/-! ## Unmapping -/

lemma Holdings.mine_apart (h : Holdings r F X P s) (hf : Mine r F s f) :
    f ∉ P ∧ ¬ Device s.pmm f := by
  obtain ⟨n, ha⟩ := hf.owned.used
  refine ⟨fun hP => ?_, fun hd => hd.not_allocated h.sound.good ha⟩
  obtain ⟨b, hb, m, hm, h1, h2⟩ := h.pixels f hP
  have := h.sound.good.allocated_size_pos ha
  rcases h.sound.good.allocated_apart ha hm with ⟨rfl, -⟩ | hap
  · exact hf.other hb
  · unfold pageSize at h2
    omega

section

variable (h : Isolated r F X P s)
include h

lemma Isolated.reserve (hf : Mine r F s f)
    (hno : ∀ q < 2 ^ 35, (pte 256 s.mem r q).present = true → frame (pte 256 s.mem r q).entry ≠ f) :
    Isolated r F (insert f X) P s := by
  refine { h with spare := ?_, pages := fun p hp hpres => ?_ }
  · rintro g (rfl | hg)
    · exact hf
    · exact h.spare g hg
  · refine (h.pages p hp hpres).imp (fun hm hX => ⟨hm, ?_⟩) id
    exact fun hc => hc.elim (hno p hp hpres) hX

/-- A reference to a frame in reserve or of a device is dropped. -/
theorem Isolated.drop (hf : f ∈ X ∨ Device s.pmm f) {pmm' : Pmm.State} (hd : Drops s.pmm pmm' f) :
    Isolated r F (X \ {f}) P { s with pmm := pmm' } := by
  have hnot : ∀ n, Device s.pmm f → ¬ Allocated s.pmm f n := fun n hdev =>
    hdev.not_allocated h.sound.good
  have hoff : ∀ t, IsTable 256 s.mem {r} t ∨ UpperTable s.mem r t → Off s.pmm f t := fun t ht => by
    rcases hf with hX | hdev
    · exact ht.elim ((h.spare f hX).owned.off t) ((h.spare f hX).upper t)
    · exact fun n ha => absurd ha (hnot n hdev)
  have hne : ∀ g, Owned 256 {r} s g → (f ∈ X → g ≠ f) → g ≠ f := fun g hg hX => by
    rcases hf with hf | hdev
    · exact hX hf
    · rintro rfl
      obtain ⟨n, ha⟩ := hg.used
      exact hnot n hdev ha
  have hmine : ∀ g, (f ∈ X → g ≠ f) → Mine r F s g →
      Mine r F { s with pmm := pmm' } g := fun g hX hg =>
    ⟨hg.owned.drops hd (hne g hg.owned hX), hg.other, fun t ht => (hg.upper t ht).drops hd⟩
  have hforeign : ∀ b ∈ F, b ≠ f := fun b hb => hne b (h.foreign b hb) fun hX he =>
    (h.spare f hX).other (he ▸ hb)
  refine ⟨⟨h.sound.drops (fun t ht => hoff t (.inl ht)) hd, h.clear, fun d n t ht => ?_,
    fun b hb => (h.foreign b hb).drops hd (hforeign b hb), fun g hg => ?_,
    fun g hg => hmine g (fun _ => hg.2) (h.spare g hg.1)⟩, fun p hp hpres => ?_, ?_⟩
  · obtain ⟨hheld, hnot⟩ := h.upper d n t ht
    exact ⟨hheld.drops hd (hoff t (.inr ⟨d, n, ht⟩)), hnot⟩
  · obtain ⟨b, hb, n, ha, hin⟩ := h.pixels g hg
    exact ⟨b, hb, n, hd.stays b n ha (hforeign b hb), hin⟩
  · refine (h.pages p hp hpres).imp (fun hm hX => ⟨hmine _ ?_ hm, fun hc => hX hc.1⟩) fun hdev =>
      hdev.extends hd.ext
    rintro hfX he
    exact hX (he ▸ hfX)
  · intro p hp q hq h1 h2 he
    exact (h.alone p hp q hq h1 h2 he).imp id (Or.imp id fun hdev => hdev.extends hd.ext)

lemma Isolated.clear_page {pt : Nat} (hpt : tableAt 256 s.mem r 3 (p / 512) = some pt) :
    Isolated r F X P (s.setEntry pt (p % 512) 0) ∧
      (∀ q, pte 256 (s.setEntry pt (p % 512) 0).mem r q =
        if q = p then ⟨0, false⟩ else pte 256 s.mem r q) ∧
      ∀ g, Mine r F s g → Mine r F (s.setEntry pt (p % 512) 0) g := by
  have hs := h.sound.stored_small rfl hpt (show 0 < 2 ^ 64 by decide)
  have hpte := hs.pte_small rfl
  have hadv : Advances r s (s.setEntry pt (p % 512) 0) :=
    ⟨.refl _, fun _ ha => ha, fun t ht => .inl (hs.isTable_iff.mp ht), hs.upper r rfl,
      fun a _ => hs.bytes a⟩
  have hhold := h.toHoldings.advance (hadv.upper h.toHoldings) hs.sound
    (fun q hb => h.sound.blocked_set rfl hpt (Nat.mod_lt _ (by decide)) (by decide) hb)
    (fun g hg => hg.congr rfl fun _ => hs.isTable_iff.mp) fun _ _ ha => ha
  refine ⟨h.fewer hhold hadv.ext fun q hq => ?_, hpte, hhold.2⟩
  rw [hpte] at hq ⊢
  split_ifs at hq ⊢
  · exact absurd hq (by decide)
  · rfl

lemma Isolated.unmap_page (drop : Pmm.State → Nat → Pmm.State)
    (hdrop : ∀ pmm f, Good pmm → Drops pmm (drop pmm f) f) (hp : p < 2 ^ 35)
    (hdont : (pte 256 s.mem r p).present = true →
      has (pte 256 s.mem r p).entry flagDontFree = false) :
    ∃ X', Isolated r F X' P (unmapDropping drop r s (p * pageSize)) := by
  have h36 : p < 2 ^ 36 := by omega
  have htop : p < 256 * 2 ^ 27 := hp
  by_cases hv : vmmVirtToPhys s.mem r (p * pageSize) = 0
  · refine ⟨X, ?_⟩
    rw [unmapDropping]
    simpa [hv] using h
  obtain ⟨pt, hpt, hunmap⟩ := unmapDropping_eq h36 htop (h.clear p hp) drop hv
  have hround := Nat.div_mul_cancel (translate_page h36 htop (h.clear p hp))
  have hphys := translate_eq (m := s.mem) (r := r) h36 htop
  rw [phys_mul _ (pte_small (h.clear p hp))] at hphys
  rw [hunmap, hround]
  have hpres : (pte 256 s.mem r p).present = true := by
    by_contra hc
    rw [if_neg hc] at hphys
    exact hv hphys
  rw [if_pos hpres] at hphys
  rw [hphys]
  obtain ⟨hclear, hpte, hmine⟩ := h.clear_page hpt
  have hd := hdrop s.pmm (frame (pte 256 s.mem r p).entry) h.sound.good
  have hright := h.pages p hp hpres
  unfold Rightful at hright
  rw [if_neg (by rw [hdont hpres]; decide)] at hright
  rcases hright with ⟨hm, -⟩ | hdev
  · have hno : ∀ q < 2 ^ 35, (pte 256 (s.setEntry pt (p % 512) 0).mem r q).present = true →
        frame (pte 256 (s.setEntry pt (p % 512) 0).mem r q).entry ≠
          frame (pte 256 s.mem r p).entry := by
      intro q hq hqpres he
      rw [hpte] at hqpres he
      split_ifs at hqpres he with hqp
      · exact absurd hqpres (by decide)
      · obtain ⟨hP, hD⟩ := h.toHoldings.mine_apart hm
        rcases h.alone p hp q hq hpres hqpres he.symm with hpq | hc | hc
        · exact hqp hpq.symm
        · exact hP hc
        · exact hD hc
    exact ⟨_, (hclear.reserve (hmine _ hm) hno).drop (.inl (Set.mem_insert _ _)) hd⟩
  · exact ⟨_, hclear.drop (.inr hdev) hd⟩

end

end Steps

end YamKernel.Vmm

import YamKernel.Mem.Vmm.Forked

/-!
# Fork completeness

When a fork fails, nothing has changed. When it succeeds, the new space is to have the pages of
the source with the same translation and the same permissions to fetch and for user code. This
is so exactly if the memory sufficed for the tables of all its pages, and no page is protected
against fetches by anything but its own entry for 4 KB: the loops go on where there is no memory
for a table, and drop the NX bit of tables and of pages of 2 MB.
-/

namespace YamKernel.Vmm

open Lib Pmm Finset Nat

/-- Page `p` is the same in both spaces. -/
structure SamePage (m m' : Mem) (src new p : Nat) : Prop where
  present : (pte 256 m' new p).present = (pte 256 m src p).present
  phys : ∀ i < pageSize,
    vmmVirtToPhys m' new (p * pageSize + i) = vmmVirtToPhys m src (p * pageSize + i)
  exec : (pte 256 m src p).present = true → (executable m' new p ↔ executable m src p)
  user : (pte 256 m src p).present = true → (userPage m' new p ↔ userPage m src p)

/-- The call leaves everything as it was, or makes a complete space. -/
def ForkLaw (s : State) (src : Nat) : Prop :=
  match vmmForkAddressSpace s src with
  | (none, s') => (∀ p d, wayEntry s'.mem src p d = wayEntry s.mem src p d) ∧
      ∀ b n, Allocated s'.pmm b n ↔ Allocated s.pmm b n
  | (some new, s') => ∀ p < 2 ^ 35, SamePage s.mem s'.mem src new p

/-- There is no page for the root; or there is one for every table up to that with the entry of
a page, and a page that is protected against fetches is so by its own entry for 4 KB. -/
def ForkOk (s : State) (src : Nat) : Prop :=
  (pmmAllocPage s.pmm).1 = 0 ∨ ∀ p < 2 ^ 35, (pte 256 s.mem src p).present = true →
    Provides s.pmm (1 + tabs s.mem src (leafTurn (pte 256 s.mem src p).huge p + 1)) ∧
      (executable s.mem src p ∨
        (pte 256 s.mem src p).huge = false ∧ has (pte 256 s.mem src p).entry flagNx = true)

section Law

variable {R : Set Nat} {s s' : State} {src new p : Nat}

lemma phys_offset {m : Mem} {r i : Nat} (hp : p < 2 ^ 35) (hi : i < pageSize) :
    vmmVirtToPhys m r (p * pageSize + i) = (pte 256 m r p).phys (p * pageSize + i) := by
  have hpage : pageOf (p * pageSize + i) = p := by
    unfold pageOf
    rw [mul_comm, mul_add_div (by decide), div_eq_of_lt hi]
    omega
  rw [vmmVirtToPhys_eq (show _ < 256 * 2 ^ 27 by rwa [hpage]), hpage]

lemma pte_absent_phys {m : Mem} {r : Nat} (h : (pte 256 m r p).present = false) (virt : Nat) :
    (pte 256 m r p).phys virt = 0 := by
  simp [Pte.phys, pte_absent_small h, h]

/-- A page that is in the new space. -/
theorem Forked.same_iff (g : Forked R s s' src new) (hc : Copies s src p) (hp : p < 2 ^ 35) :
    SamePage s.mem s'.mem src new p ↔ executable s.mem src p ∨
      (pte 256 s.mem src p).huge = false ∧ has (pte 256 s.mem src p).entry flagNx = true := by
  obtain ⟨t, ht, -, hl⟩ := pte_leaf hc.1
  have hchild : pte 256 s'.mem new p = (pte 256 s.mem src p).forked := by rw [g.child, if_pos hc]
  have hexec := g.exec p hc
  have hleaf : executable s.mem src p → has (pte 256 s.mem src p).entry flagNx = false := by
    intro hx
    rw [← wayEntry_leaf hc.1]
    exact hx _ le_rfl
  constructor
  · intro hsame
    by_contra hno
    push Not at hno
    refine hno.1 ((hsame.exec hc.1).mp (hexec.mpr ?_))
    by_cases hh : (pte 256 s.mem src p).huge = true
    · exact .inl hh
    · exact .inr (Bool.eq_false_of_not_eq_true (hno.2 (Bool.eq_false_of_not_eq_true hh)))
  · intro hx
    refine ⟨by rw [hchild, Pte.forked_present hl, hc.1], fun i hi => ?_, fun _ => ?_,
      fun _ => g.user p hc⟩
    · rw [phys_offset hp hi, phys_offset hp hi, hchild, Pte.forked_phys hl]
    · rw [hexec]
      refine ⟨fun hor => hx.resolve_right fun hno => ?_, fun he => .inr (hleaf he)⟩
      rcases hor with hh | hnx
      · simp [hno.1] at hh
      · simp [hno.2] at hnx

lemma Forked.same_absent (g : Forked R s s' src new) (hp : p < 2 ^ 35)
    (habs : (pte 256 s.mem src p).present = false) : SamePage s.mem s'.mem src new p := by
  have hchild : pte 256 s'.mem new p = ⟨0, false⟩ := by
    rw [g.child, if_neg]
    exact fun hc => absurd hc.1 (by simp [habs])
  refine ⟨by rw [hchild, habs]; decide, fun i hi => ?_, fun hp => ?_, fun hp => ?_⟩
  · rw [phys_offset hp hi, phys_offset hp hi, hchild, pte_absent_phys habs]
    simp [Pte.phys, Pte.present, has]
  · simp [habs] at hp
  · simp [habs] at hp

theorem fork_law_iff (h : Sound 256 R s) (hsrc : src ∈ R) (hcounts : SmallCounts s.pmm) :
    ForkLaw s src ↔ ForkOk s src := by
  unfold ForkLaw ForkOk
  rcases h.fork hsrc hcounts with ⟨h0, he⟩ | ⟨new, s', he, g⟩
  · rw [he]
    exact iff_of_true ⟨fun _ _ => rfl, fun _ _ => Iff.rfl⟩ (.inl h0)
  · rw [he]
    have h0 := provides_one.mp g.supply
    constructor
    · refine fun hlaw => .inr fun p hp hpres => ?_
      have hc : Copies s src p := by
        by_contra hc
        have := (hlaw p hp).present
        rw [g.child, if_neg hc, hpres] at this
        exact absurd this (by decide)
      exact ⟨hc.2, (g.same_iff hc hp).mp (hlaw p hp)⟩
    · rintro (hz | hok) p hp
      · exact absurd hz h0
      · cases hpres : (pte 256 s.mem src p).present with
        | true => exact (g.same_iff ⟨hpres, (hok p hp hpres).1⟩ hp).mpr (hok p hp hpres).2
        | false => exact g.same_absent hp hpres

end Law

/-! ## A space with one page -/

section OnePage

variable {pmm : Pmm.State} {flags : Nat}

/-- An empty space with the root at 1 MB, in which the page at 4 MB is mapped. -/
def onePage (pmm : Pmm.State) (flags : Nat) : State :=
  (vmmMapPage ⟨fun _ => 0, pmm, 0⟩ (2 ^ 20) 0x400000 (2 ^ 21) flags).2

/-- Its tables are the root and those on the way to the page. -/
structure OnePage (s : State) (flags : Nat) : Prop where
  sound : Sound 256 {2 ^ 20} s
  counts : SmallCounts s.pmm
  pte_eq : ∀ q, pte 256 s.mem (2 ^ 20) q =
    if q = 0x400 then ⟨leafEntry (2 ^ 21) flags, false⟩ else ⟨0, false⟩
  shape : ∀ d n, 0 < d → tableAt 256 s.mem (2 ^ 20) d n ≠ none → n = tableNo 0x400 d
  paved : ∀ d ≤ 3, tableAt 256 s.mem (2 ^ 20) d (tableNo 0x400 d) ≠ none
  clear : ∀ q, ¬ Blocked 256 s.mem (2 ^ 20) q
  tables : ∀ t, IsTable 256 s.mem {2 ^ 20} t → t ≤ 2 ^ 20
  held : ∀ f, 2 ^ 20 ≤ f → Held s.pmm f

lemma onePage_spec (hrun : Running pmm) (hheld : ∀ f, 2 ^ 20 ≤ f → Held pmm f)
    (hprov : Provides pmm 3) (flags : Nat) (hf : flags < 2 ^ 64) :
    OnePage (onePage pmm flags) flags := by
  have hblank := sound_oneRoot hrun hheld
  have hroot : 2 ^ 20 ∈ ({2 ^ 20} : Set Nat) := Set.mem_singleton _
  obtain ⟨l, g, -⟩ :=
    hblank.mapped hroot (show pageOf 0x400000 < 256 * 2 ^ 27 by decide) (2 ^ 21) hf
  have hmap : Mappable 256 ⟨fun _ => 0, pmm, 0⟩ (2 ^ 20) (pageOf 0x400000) := by
    refine ⟨not_blocked_blank _ _ _, hprov.mono ?_⟩
    simp only [missing]
    split_ifs <;> omega
  refine ⟨g.sound, ?_, fun q => ?_, fun d n hd hn => ?_, g.paved hmap,
    fun q hq => not_blocked_blank _ _ _ (g.huge q hq), fun t ht => ?_,
    fun f hf => g.takes.keeps hrun.good (hheld f hf)⟩
  · rw [onePage, g.pmm]
    exact hrun.smallCounts.draws hrun.good _
  · have := g.mapped hmap (2 ^ 20) hroot q
    rw [pte_blank, show pageOf 0x400000 = 0x400 by decide] at this
    simpa [onePage] using this
  · rcases g.shape d n hn with hold | ⟨-, hn⟩
    · rw [tableAt_blank, if_neg (by omega)] at hold
      exact absurd rfl hold
    · exact hn
  · rcases (g.tables t).mp ht with hold | hl
    · exact (Set.mem_singleton_iff.mp (isTable_blank hold)).le
    · -- A page that was free is below 1 MB.
      by_contra hgt
      have : 0 < pageSize := by decide
      exact hheld t (by omega) t le_rfl (by omega)
        ((g.takes.mem hrun.good hl).2.2.1 t le_rfl (by omega))

lemma OnePage.tabs_le {s : State} (h : OnePage s flags) (k : Nat) :
    tabs s.mem (2 ^ 20) k ≤ 3 := by
  rw [tabs, count_eq_card_filter_range]
  refine (card_le_card (t := {rank 1 (tableNo 0x400 1), rank 2 (tableNo 0x400 2),
    rank 3 (tableNo 0x400 3)}) fun j hj => ?_).trans card_le_three
  obtain ⟨d, n, h0, h3, rfl, hn⟩ := (mem_filter.mp hj).2
  rw [h.shape d n h0 hn]
  obtain rfl | rfl | rfl : d = 1 ∨ d = 2 ∨ d = 3 := by omega
  all_goals simp

/-- The tables on the way to a page have their turn before its leaf entry. -/
theorem tabs_way {m : Mem} {src p d : Nat} (hd : d ≤ 3)
    (h : tableAt 256 m src d (tableNo p d) ≠ none) : d ≤ tabs m src (rank d (tableNo p d) + 1) := by
  induction d with
  | zero => exact zero_le _
  | succ d ih =>
    have hprev := ih (by omega) (tableAt_way (le_succ d) (by omega) h)
    have hlt : rank d (tableNo p d) < rank (d + 1) (tableNo p (d + 1)) := by
      rw [tableNo_succ p (by omega)]
      exact rank_mono (by omega) (tableIdx_lt p d)
    rw [tabs_succ (tableTurn_rank (succ_pos d) hd h)]
    exact succ_le_succ (hprev.trans (tabs_mono hlt))

end OnePage

def eightPages : MemmapEntry := ⟨4096, 32768, .usable, by decide⟩

lemma eightPages_running : ∃ pmm, pmmInit [eightPages] = some pmm ∧ Running pmm ∧
    ∀ f, 2 ^ 20 ≤ f → Held pmm f :=
  init_running (by decide) (by decide) (by decide)

/-- A page that is protected against fetches is forked; there is memory for all tables. -/
theorem fork_law_iff_onePage : ∃ pmm, pmmInit [eightPages] = some pmm ∧
    ForkLaw (onePage pmm (flagUser ||| flagWrite ||| flagNx)) (2 ^ 20) := by
  obtain ⟨pmm, h0, hrun, hheld⟩ := eightPages_running
  have hprov : ∀ pmm ∈ pmmInit [eightPages], Provides pmm 3 ∧
      Provides (onePage pmm (flagUser ||| flagWrite ||| flagNx)).pmm 4 := by decide +kernel
  obtain ⟨h3, h4⟩ := hprov pmm h0
  have h := onePage_spec hrun hheld h3 (flagUser ||| flagWrite ||| flagNx) (by decide)
  refine ⟨pmm, h0, (fork_law_iff h.sound rfl h.counts).mpr (.inr fun p _ hp => ⟨?_, .inr ?_⟩)⟩
  · exact h4.mono (Nat.add_le_add_left (h.tabs_le _) 1)
  · rw [h.pte_eq] at hp ⊢
    split_ifs at hp ⊢
    · exact ⟨rfl, by decide⟩
    · exact absurd hp (by decide)

/-- Two pages are left when the space is forked: the root and one table. The call returns the new
root all the same, and the page is missing. -/
theorem fork_incomplete : ∃ pmm, pmmInit [fivePages] = some pmm ∧
    ¬ ForkLaw (onePage pmm (flagUser ||| flagWrite)) (2 ^ 20) := by
  obtain ⟨pmm, h0, hrun, hheld⟩ := fivePages_running
  have hprov : ∀ pmm ∈ pmmInit [fivePages], Provides pmm 3 ∧
      (pmmAllocPage (onePage pmm (flagUser ||| flagWrite)).pmm).1 ≠ 0 ∧
      ¬ Provides (onePage pmm (flagUser ||| flagWrite)).pmm 4 := by decide +kernel
  obtain ⟨h3, h1, h4⟩ := hprov pmm h0
  have h := onePage_spec hrun hheld h3 (flagUser ||| flagWrite) (by decide)
  refine ⟨pmm, h0, fun hlaw => ?_⟩
  have hpte := h.pte_eq 0x400
  unfold ForkLaw at hlaw
  rcases h.sound.fork rfl h.counts with ⟨hz, -⟩ | ⟨new, s', he, g⟩
  · exact h1 hz
  rw [he] at hlaw
  have hpres := (hlaw 0x400 (by decide)).present
  rw [g.child, if_neg, hpte] at hpres
  · exact absurd hpres (by decide)
  · rintro ⟨-, hc⟩
    have hthree := tabs_way le_rfl (h.paved 3 le_rfl)
    rw [hpte] at hc
    exact h4 (hc.mono (Nat.add_le_add_left hthree 1))

end YamKernel.Vmm

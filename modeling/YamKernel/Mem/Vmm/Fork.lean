import YamKernel.Mem.Vmm.Create
import YamKernel.Mem.Vmm.ForkOrder

/-!
# The fork of an address space

The four nested loops of `vmm_fork_address_space` do one thing to each entry of the source, in
the order of `rank`: they ask for a table, or share a page. `Forking k` describes the memory and
the allocator when exactly the entries with their turn before `k` have been dealt with. A table
for which there was no memory is left out with everything below it, and the loops go on; since a
request that fails once fails from then on, the tables made are those whose requests are among
the first ones that the memory suffices for (`Made`).
-/

namespace YamKernel.Vmm

open Lib Pmm Option Nat Set Bool

/-- The entry of a table at depth `d` maps a page. -/
def isLeaf (d e : Nat) : Bool := has e flagPresent && (d == 3 || d == 2 && has e flagHuge)

/-- What a fork makes of such an entry, in both address spaces. -/
def sharedEntry (d e : Nat) : Nat :=
  if d = 3 then
    if has e flagDontFree then e
    else (e &&& addrMask) ||| (clear (e &&& flagMask) flagWrite ||| flagCow)
  else (e &&& hugeMask) ||| (clear (e &&& 0xFFF) flagWrite ||| flagCow) ||| flagHuge

/-- The frame that gets another reference. -/
def leafRef (d e : Nat) : Option Nat :=
  if d = 3 then if has e flagDontFree then none else some (e &&& addrMask)
  else some (e &&& hugeMask)

/-- The memory suffices for the requests up to that for the table. -/
def Made (s0 : State) (src d n : Nat) : Prop :=
  Provides s0.pmm (tabs s0.mem src (rank d n + 1))

noncomputable instance (s0 : State) (src d n : Nat) : Decidable (Made s0 src d n) :=
  inferInstanceAs (Decidable (Provides _ _))

/-- The space `new` is being made from `src`, and `s0` was the state when it was still empty: the
entries with their turn before `k` have been dealt with. -/
structure Forking (R : Set Nat) (s0 s : State) (src new k : Nat) : Prop where
  sound : Sound 256 (insert new R) s
  trees : ∀ r ∈ R, ∀ d n, tableAt 256 s.mem r d n = tableAt 256 s0.mem r d n
  others : ∀ r ∈ R, r ≠ src → ∀ d n t, tableAt 256 s0.mem r d n = some t → ∀ i < 512,
    entry s.mem t i = entry s0.mem t i
  source : ∀ d n t, tableAt 256 s0.mem src d n = some t → ∀ i < 512, entry s.mem t i =
    if isLeaf d (entry s0.mem t i) = true ∧ rank (d + 1) (512 * n + i) < k ∧ Made s0 src d n then
      sharedEntry d (entry s0.mem t i)
    else entry s0.mem t i
  copy : ∀ d n, tableAt 256 s.mem new d n ≠ none ↔
    tableAt 256 s0.mem src d n ≠ none ∧ rank d n < k ∧ Made s0 src d n
  child : ∀ d n t t', tableAt 256 s0.mem src d n = some t → tableAt 256 s.mem new d n = some t' →
    ∀ i < 512, (d = 0 → i < 256) → entry s.mem t' i =
      if isLeaf d (entry s0.mem t i) = true ∧ rank (d + 1) (512 * n + i) < k then
        sharedEntry d (entry s0.mem t i)
      else match tableAt 256 s.mem new (d + 1) (512 * n + i) with
        | some u => u ||| (entry s0.mem t i &&& 0xFFF)
        | none => 0
  made : ∀ d n u, tableAt 256 s.mem new d n = some u →
    u = new ∨ ∀ a, u ≤ a → a < u + pageSize → FreeAt s0.pmm a
  pmm : SameCells (draws (tabs s0.mem src k) s0.pmm) s.pmm
  free : ∀ a, FreeAt s.pmm a → FreeAt s0.pmm a
  counts : SmallCounts s.pmm

/-- The tables of the new space stay where they are. -/
def KeepsChild (new : Nat) (s s' : State) : Prop :=
  ∀ d n u, tableAt 256 s.mem new d n = some u → tableAt 256 s'.mem new d n = some u

/-- The reference to a frame that is shared. -/
def State.addRef (s : State) : Option Nat → State
  | none => s
  | some f => s.pageRef f

/-- The entry `i` of both `t` and `t'` is `x`. -/
structure BothStored (R : Set Nat) (s s' : State) (t t' i x : Nat) : Prop where
  sound : Sound 256 R s'
  pmm : s'.pmm = s.pmm
  trees : ∀ r ∈ R, ∀ d n, tableAt 256 s'.mem r d n = tableAt 256 s.mem r d n
  entries : ∀ u, IsTable 256 s.mem R u → ∀ j < 512,
    entry s'.mem u j = if (u = t ∨ u = t') ∧ j = i then x else entry s.mem u j

section Entries

variable {d e i u : Nat}

lemma isLeaf_depth (h : isLeaf d e = true) : d = 2 ∨ d = 3 := by
  unfold isLeaf at h
  simp only [and_eq_true, or_eq_true, beq_iff_eq] at h
  omega

/-- An entry maps a page or leads to a table. -/
theorem nextOf_isLeaf (h : isLeaf d e = true) : nextOf 256 d i e = none := by
  rcases isLeaf_depth h with rfl | rfl
  · simp only [isLeaf, and_eq_true] at h
    have hh : has e flagHuge = true := by tauto
    simp [nextOf_two, hh]
  · exact nextOf_three

lemma sharedEntry_lt (d : Nat) (he : e < 2 ^ 64) : sharedEntry d e < 2 ^ 64 := by
  unfold sharedEntry clear
  have h1 : e &&& addrMask < 2 ^ 64 := lt_of_le_of_lt and_le_left he
  have h2 : ∀ x y, e &&& x &&& y < 2 ^ 64 := fun x y =>
    lt_of_le_of_lt (and_le_left.trans and_le_left) he
  have h3 : e &&& hugeMask < 2 ^ 64 := lt_of_le_of_lt and_le_left he
  split_ifs
  · exact he
  · exact or_lt_two_pow h1 (or_lt_two_pow (h2 _ _) (by decide))
  · exact or_lt_two_pow (or_lt_two_pow h3 (or_lt_two_pow (h2 _ _) (by decide))) (by decide)

lemma sharedEntry_has {f : Nat} (h1 : addrMask &&& f = 0 := by decide)
    (h2 : (2 ^ 64 - (flagWrite + 1)) &&& f = f := by decide) (h3 : flagMask &&& f = f := by decide)
    (h4 : has flagCow f = false := by decide) : has (sharedEntry 3 e) f = has e f := by
  rw [sharedEntry, if_pos rfl]
  split_ifs
  · rfl
  · rw [has_or, has_or, has_and_apart h1, has_clear h2, has_and h3, h4,
      Bool.false_or, Bool.or_false]

lemma sharedEntry_isLeaf (h : isLeaf d e = true) : isLeaf d (sharedEntry d e) = true := by
  rcases isLeaf_depth h with rfl | rfl
  · simp only [isLeaf, and_eq_true] at h
    have hp : has (sharedEntry 2 e) flagPresent = true := by
      rw [sharedEntry, if_neg (by decide), has_or, has_or, has_or, has_and_apart,
        has_clear (by decide), has_and, h.1]
      rfl
    have hh : has (sharedEntry 2 e) flagHuge = true := by
      rw [sharedEntry, if_neg (by decide), has_or, show has flagHuge flagHuge = true by decide,
        Bool.or_true]
    simp [isLeaf, hp, hh]
  · simp only [isLeaf, and_eq_true] at h
    have hp := sharedEntry_has (e := e) (f := flagPresent) (by decide) (by decide) (by decide)
      (by decide)
    simp [isLeaf, hp, h.1]

lemma copiedEntry_frame (hd : pageSize ∣ u) (hlt : u < 2 ^ 52) :
    frame (u ||| (e &&& 0xFFF)) = u := by
  rw [frame_or, frame_and (by decide), or_zero]
  exact frame_of_page hd hlt

lemma copiedEntry_has (hd : pageSize ∣ u) {f : Nat} (hf : f < pageSize) (hmask : 0xFFF &&& f = f) :
    has (u ||| (e &&& 0xFFF)) f = has e f := by
  rw [has_or, has_page hd hf, has_and hmask, Bool.false_or]

lemma copiedEntry_lt (hlt : u < 2 ^ 52) : u ||| (e &&& 0xFFF) < 2 ^ 64 := by
  have h1 : e &&& 0xFFF < 2 ^ 64 := lt_of_le_of_lt and_le_right (by decide)
  exact or_lt_two_pow (by omega) h1

lemma nextOf_copied (hd : pageSize ∣ u) (hlt : u < 2 ^ 52) {x : Nat}
    (h : nextOf 256 d i e = some x) : nextOf 256 d i (u ||| (e &&& 0xFFF)) = some u := by
  unfold nextOf at h ⊢
  rw [copiedEntry_has hd (by decide) (by decide), copiedEntry_has hd (by decide) (by decide),
    copiedEntry_frame hd hlt]
  split_ifs at h ⊢
  rfl

end Entries

section Stores

variable {R : Set Nat} {s : State} {r r' d n n' t t' i x f : Nat}

lemma Sound.store_one (h : Sound 256 R s) (hr : r ∈ R) (ht : tableAt 256 s.mem r d n = some t)
    (hi : i < 512) (hx : x < 2 ^ 64) (hnext : nextOf 256 d i x = nextOf 256 d i (entry s.mem t i))
    (ht' : entry s.mem t' i = x) :
    BothStored R s (s.setEntry t i x) t' t i x where
  sound := h.set hr ht hi hx hnext
  pmm := rfl
  trees _ hr' := h.tableAt_set hr ht hi hx hnext hr'
  entries u hu j hj := by
    rw [h.entry_set ⟨r, hr, d, n, ht⟩ hi hx hu hj]
    by_cases hj' : j = i
    · subst hj'
      by_cases hut : u = t
      · simp [hut]
      · by_cases hut' : u = t'
        · subst hut'
          simp [ht']
        · simp [hut']
    · simp [hj']

lemma Sound.store_both (h : Sound 256 R s) (hr : r ∈ R) (hr' : r' ∈ R)
    (ht : tableAt 256 s.mem r d n = some t) (ht' : tableAt 256 s.mem r' d n' = some t')
    (hi : i < 512) (hx : x < 2 ^ 64) (hnext : nextOf 256 d i x = nextOf 256 d i (entry s.mem t i))
    (hnext' : nextOf 256 d i x = nextOf 256 d i (entry s.mem t' i)) :
    BothStored R s ((s.setEntry t i x).setEntry t' i x) t t' i x := by
  have htab : IsTable 256 s.mem R t := ⟨r, hr, d, n, ht⟩
  have htab' : IsTable 256 s.mem R t' := ⟨r', hr', d, n', ht'⟩
  have h1 := h.set hr ht hi hx hnext
  have ht1 := (h.tableAt_set hr ht hi hx hnext hr' d n').trans ht'
  have hx1 : entry (s.setEntry t i x).mem t i = x := entry_setEntry_self hx
  have hnext1 : nextOf 256 d i x = nextOf 256 d i (entry (s.setEntry t i x).mem t' i) := by
    rw [h.entry_set htab hi hx htab' hi]
    split_ifs
    · rfl
    · exact hnext'
  have g := h1.store_one hr' ht1 hi hx hnext1 hx1
  refine ⟨g.sound, rfl, fun q hq d' n' =>
    (g.trees q hq d' n').trans (h.tableAt_set hr ht hi hx hnext hq d' n'), fun u hu j hj => ?_⟩
  rw [g.entries u ((h.isTable_set hr ht hi hx hnext).mpr hu) j hj, h.entry_set htab hi hx hu hj]
  by_cases hc : (u = t ∨ u = t') ∧ j = i
  · rw [if_pos hc, if_pos hc]
  · rw [if_neg hc, if_neg hc, if_neg fun hd => hc ⟨.inl hd.1, hd.2⟩]

lemma addRef_keeps {P : Pmm.State → Prop} (ref : Option Nat) (h : P s.pmm)
    (hset : ∀ pfn c, c < 2 ^ 32 → P (s.pmm.setRefcount pfn c)) : P (s.addRef ref).pmm := by
  cases ref with
  | none => exact h
  | some f =>
    unfold State.addRef State.pageRef pmmPageRef
    dsimp only
    split_ifs
    · exact h
    · exact hset _ _ (mod_lt _ (by decide))

lemma addRef_counts (h : SmallCounts s.pmm) (ref : Option Nat) : SmallCounts (s.addRef ref).pmm :=
  addRef_keeps ref h fun _ _ hc => h.setRefcount _ hc

lemma addRef_mem (s : State) (ref : Option Nat) : (s.addRef ref).mem = s.mem := by
  cases ref <;> rfl

lemma addRef_free (hg : Good s.pmm) (ref : Option Nat) {a : Nat} :
    FreeAt (s.addRef ref).pmm a ↔ FreeAt s.pmm a :=
  addRef_keeps (P := fun p => FreeAt p a ↔ FreeAt s.pmm a) ref Iff.rfl fun _ _ _ =>
    hg.freeAt_setRefcount _ _

lemma Sound.addRef {top : Nat} (h : Sound top R s) (ref : Option Nat) :
    Sound top R (s.addRef ref) := by
  have hm := addRef_mem s ref
  exact h.keeps (fun _ _ _ _ => by rw [hm])
    (addRef_keeps ref h.good fun _ _ _ => h.good.setRefcount _ _)
    (addRef_keeps ref h.within fun _ _ _ => h.within) fun t ht a h1 h2 hf =>
      h.held t ht a h1 h2 ((addRef_free h.good ref).mp hf)

end Stores

section Steps

variable {R : Set Nat} {s0 s s' : State} {src new k k' d n t t' i : Nat}

lemma tableAt_zero {m : Mem} {r : Nat} (h : tableAt 256 m r 0 n ≠ none) : n = 0 := by
  rw [tableAt, Radix.node] at h
  split_ifs at h with hn
  · exact hn
  · exact absurd rfl h

lemma slot_unique {m : Mem} {d' n' i' u : Nat} (ht : tableAt 256 m src d n = some t)
    (hi : i < 512) (hu : tableAt 256 m src d' n' = some u) (hi' : i' < 512)
    (h : rank (d' + 1) (512 * n' + i') = rank (d + 1) (512 * n + i)) :
    d' = d ∧ n' = n ∧ i' = i ∧ u = t := by
  have := tableAt_le_three ht
  have := tableAt_le_three hu
  obtain ⟨hd, hn⟩ := rank_inj (by omega) (by omega) (by omega) (by omega) h
  obtain rfl : d' = d := by omega
  obtain ⟨rfl, rfl⟩ : n' = n ∧ i' = i := by omega
  exact ⟨rfl, rfl, rfl, some.inj (hu.symm.trans ht)⟩

/-- The table that an entry leads to is the only one with the same turn. -/
theorem turn_cases {m : Mem} {d' n' q : Nat} (h : tableAt 256 m src d' n' ≠ none) (h3 : d ≤ 3)
    (hlt : rank d' n' < rank (d + 1) q + 1) :
    rank d' n' < rank (d + 1) q ∨ d' = d + 1 ∧ n' = q := by
  obtain hlt | heq : rank d' n' < rank (d + 1) q ∨ rank d' n' = rank (d + 1) q := by omega
  · exact .inl hlt
  rcases Nat.eq_zero_or_pos d' with rfl | hd'
  · obtain rfl := tableAt_zero h
    simp [rank] at heq
  · have := tableAt_depth h
    exact .inr (rank_inj hd' (by omega) (succ_pos d) (by omega) heq)

section

variable (h : Forking R s0 s src new k)
include h

lemma Forking.skip (h0 : 0 < k) (hle : k ≤ k')
    (hdraws : draws (tabs s0.mem src k') s0.pmm = draws (tabs s0.mem src k) s0.pmm)
    (hleaf : ∀ d n t i, tableAt 256 s0.mem src d n = some t → i < 512 →
      k ≤ rank (d + 1) (512 * n + i) → rank (d + 1) (512 * n + i) < k' →
      isLeaf d (entry s0.mem t i) = true → ¬ Made s0 src d n)
    (htab : ∀ d n, 0 < d → tableAt 256 s0.mem src d n ≠ none → k ≤ rank d n → rank d n < k' →
      ¬ Made s0 src d n) : Forking R s0 s src new k' where
  sound := h.sound
  trees := h.trees
  others := h.others
  source d n t ht i hi := by
    rw [h.source d n t ht i hi]
    congr 1
    refine propext ⟨fun hc => ⟨hc.1, by omega, hc.2.2⟩, fun hc => ⟨hc.1, ?_, hc.2.2⟩⟩
    by_contra hge
    exact hleaf d n t i ht hi (by omega) hc.2.1 hc.1 hc.2.2
  copy d n := by
    rw [h.copy]
    refine ⟨fun hc => ⟨hc.1, by omega, hc.2.2⟩, fun hc => ⟨hc.1, ?_, hc.2.2⟩⟩
    by_contra hge
    rcases Nat.eq_zero_or_pos d with rfl | hd
    · obtain rfl := tableAt_zero hc.1
      simp [rank] at hge
      omega
    · exact htab d n hd hc.1 (by omega) hc.2.1 hc.2.2
  child d n t t' ht ht' i hi hroot := by
    rw [h.child d n t t' ht ht' i hi hroot]
    congr 1
    have hmade := ((h.copy d n).mp (by rw [ht']; simp)).2.2
    refine propext ⟨fun hc => ⟨hc.1, by omega⟩, fun hc => ⟨hc.1, ?_⟩⟩
    by_contra hge
    exact hleaf d n t i ht hi (by omega) hc.2 hc.1 hmade
  made := h.made
  pmm := by
    rw [hdraws]
    exact h.pmm
  free := h.free
  counts := h.counts

/-- Nothing is done for an entry whose turn has not come. -/
theorem Forking.source_before (ht : tableAt 256 s0.mem src d n = some t) (hi : i < 512)
    (hk : k ≤ rank (d + 1) (512 * n + i)) : entry s.mem t i = entry s0.mem t i := by
  rw [h.source d n t ht i hi, if_neg fun hc => by omega]

lemma Forking.child_before (ht : tableAt 256 s0.mem src d n = some t)
    (ht' : tableAt 256 s.mem new d n = some t') (hi : i < 512) (hroot : d = 0 → i < 256)
    (hk : k ≤ rank (d + 1) (512 * n + i)) : entry s.mem t' i = 0 := by
  have hnone : tableAt 256 s.mem new (d + 1) (512 * n + i) = none := by
    by_contra hc
    have := ((h.copy _ _).mp hc).2.1
    omega
  rw [h.child d n t t' ht ht' i hi hroot, if_neg (fun hc => by omega), hnone]

section

variable {r r' d' n' : Nat} (hr : r ∈ R) (ht : tableAt 256 s0.mem r d n = some t)
include hr ht

lemma Forking.isTable : IsTable 256 s.mem (insert new R) t :=
  ⟨r, mem_insert_of_mem _ hr, d, n, (h.trees r hr d n).trans ht⟩

lemma Forking.source_unique (hr' : r' ∈ R) (ht' : tableAt 256 s0.mem r' d' n' = some t) :
    r = r' ∧ d = d' ∧ n = n' :=
  h.sound.separate r (mem_insert_of_mem _ hr) r' (mem_insert_of_mem _ hr') _ _ _ _ t
    ((h.trees r hr d n).trans ht) ((h.trees r' hr' d' n').trans ht')

lemma Forking.table_ne (hnew : new ∉ R) (ht' : tableAt 256 s.mem new d' n' = some t') :
    t ≠ t' := by
  rintro rfl
  obtain ⟨rfl, -⟩ := h.sound.separate r (mem_insert_of_mem _ hr) new (mem_insert _ _)
    _ _ _ _ t ((h.trees r hr d n).trans ht) ht'
  exact hnew hr

end

end

lemma Made.mono {d' n' : Nat} (h : Made s0 src d' n') (hle : rank d n ≤ rank d' n') :
    Made s0 src d n := Provides.mono h (tabs_mono (succ_le_succ hle))

lemma Forking.skip_slot (h : Forking R s0 s src new (rank (d + 1) (512 * n + i)))
    (hg : Good s0.pmm) (ht : tableAt 256 s0.mem src d n = some t) (hi : i < 512)
    (hleaf : isLeaf d (entry s0.mem t i) = false)
    (hno : tableAt 256 s0.mem src (d + 1) (512 * n + i) = none ∨
      ¬ Made s0 src (d + 1) (512 * n + i)) :
    Forking R s0 s src new (stop (d + 1) (512 * n + i)) := by
  have := tableAt_le_three ht
  have hlt := rank_lt_stop (show d + 1 ≤ 4 by omega) (512 * n + i)
  have h4 : d + 1 ≤ 4 := by omega
  refine h.skip (rank_zero_lt (succ_pos d) _) hlt.le ?_ ?_ ?_
  · by_cases hnone : tableAt 256 s0.mem src (d + 1) (512 * n + i) = none
    · rw [tabs_skip hlt.le]
      rintro j hlo hhi ⟨d', n', h0', -, rfl, hsome⟩
      exact table_below (succ_pos d) h4 hsome h0' hlo hhi hnone
    · have hmade := hno.resolve_left hnone
      have hturn : TableTurn s0.mem src (rank (d + 1) (512 * n + i)) :=
        tableTurn_rank (succ_pos d) (tableAt_depth hnone) hnone
      rw [Made, tabs_succ hturn] at hmade
      exact not_provides_stop hg hmade (tabs_mono hlt.le)
  · intro d' n' u i' hu hi' hlo hhi hl hmade
    rcases slot_below (succ_pos d) h4 hu hi' hlo hhi with ⟨hd', hn'⟩ | ⟨hsome, hle⟩
    · obtain rfl : d' = d := by omega
      obtain ⟨rfl, rfl⟩ : n' = n ∧ i' = i := by omega
      obtain rfl := some.inj (hu.symm.trans ht)
      simp [hleaf] at hl
    · exact hno.resolve_left hsome (hmade.mono hle)
  · intro d' n' h0' hsome hlo hhi hmade
    exact hno.resolve_left (table_below (succ_pos d) h4 hsome h0' hlo hhi) (hmade.mono hlo)

section

variable (h : Forking R s0 s src new (rank (d + 1) (512 * n + i)))
include h

lemma Forking.link (hg : Good s0.pmm) (hsrc : src ∈ R) (hnew : new ∉ R)
    (ht : tableAt 256 s0.mem src d n = some t) (ht' : tableAt 256 s.mem new d n = some t')
    (hi : i < 512) (hroot : d = 0 → i < 256) {x u : Nat} {pmm' : Pmm.State}
    (hkid : tableAt 256 s0.mem src (d + 1) (512 * n + i) = some x)
    (halloc : pmmAllocPage s.pmm = (u, pmm')) (h0 : u ≠ 0) :
    let s' := s.link pmm' u t' i (u ||| (entry s0.mem t i &&& 0xFFF))
    Forking R s0 s' src new (rank (d + 1) (512 * n + i) + 1) ∧
      tableAt 256 s'.mem new (d + 1) (512 * n + i) = some u ∧ KeepsChild new s s' := by
  intro s'
  have hs := h.sound
  have hfresh : Fresh s.pmm pmm' u := by
    have := pmmAllocPage_fresh hs.good (by rw [halloc]; exact h0)
    rwa [halloc] at this
  have hlt : u < 2 ^ 52 := by
    have := (hfresh.within hs.within).1
    unfold pageSize at this
    omega
  have hmem : new ∈ insert new R := mem_insert _ _
  have hnextsrc : nextOf 256 d i (entry s0.mem t i) = some x := (tableAt_kid ht hi).symm.trans hkid
  have hnext := nextOf_copied hfresh.page hlt hnextsrc
  have he : u ||| (entry s0.mem t i &&& 0xFFF) < 2 ^ 64 := copiedEntry_lt hlt
  have habs : has (entry s.mem t' i) flagPresent = false := by
    rw [h.child_before ht ht' hi hroot le_rfl]
    decide
  have g := hs.grows_link hfresh hmem ht' hi habs he hnext
  have hlink := fun {r'} (hr' : r' ∈ insert new R) =>
    hs.tableAt_link hfresh hmem ht' hi habs he hnext hr'
  have hent := fun {v} (hv : IsTable 256 s.mem (insert new R) v) {j} =>
    hs.entry_link hfresh hmem ht' hi he hv (j := j)
  have hnotleaf : isLeaf d (entry s0.mem t i) = false := by
    by_contra hc
    rw [nextOf_isLeaf (eq_true_of_not_eq_false hc)] at hnextsrc
    simp at hnextsrc
  have h3 := tableAt_le_three hkid
  have hturn : TableTurn s0.mem src (rank (d + 1) (512 * n + i)) :=
    tableTurn_rank (succ_pos d) h3 (by rw [hkid]; simp)
  -- The turn of a page is not now.
  have hleaf : ∀ d' n' v j, tableAt 256 s0.mem src d' n' = some v → j < 512 →
      isLeaf d' (entry s0.mem v j) = true →
      rank (d' + 1) (512 * n' + j) < rank (d + 1) (512 * n + i) + 1 →
      rank (d' + 1) (512 * n' + j) < rank (d + 1) (512 * n + i) := by
    intro d' n' v j hv hj hl hlt'
    refine lt_of_le_of_ne (by omega) fun heq => ?_
    obtain ⟨rfl, rfl, rfl, rfl⟩ := slot_unique ht hi hv hj heq
    simp [hnotleaf] at hl
  have hsame := h.pmm.alloc
  rw [halloc] at hsame
  have hmade : Made s0 src (d + 1) (512 * n + i) := by
    rw [Made, tabs_succ hturn, provides_add, provides_one, ← hsame.1]
    exact ⟨by_contra fun hno => h0 (hsame.1.trans (not_provides_exhausted hg hno)), h0⟩
  have hkidnew : tableAt 256 s'.mem new (d + 1) (512 * n + i) = some u := by
    rw [hlink hmem, if_pos ⟨rfl, rfl, rfl⟩]
  refine ⟨?_, hkidnew, fun d' n' v hv => g.kept new hmem d' n' v hv⟩
  refine
    { sound := g.sound
      trees := fun r hr d' n' => ?_
      others := fun r hr hne d' n' v hv j hj => ?_
      source := fun d' n' v hv j hj => ?_
      copy := fun d' n' => ?_
      child := fun d' n' v v' hv hv' j hj hroot' => ?_
      made := fun d' n' v hv => ?_
      pmm := ?_
      free := fun a ha => h.free a (hfresh.freeAt hs.good ha)
      counts := ?_ }
  · rw [hlink (mem_insert_of_mem _ hr), if_neg]
    · exact h.trees r hr d' n'
    · rintro ⟨rfl, -⟩
      exact hnew hr
  · rw [hent (h.isTable hr hv) hj, if_neg fun hc => h.table_ne hr hv hnew ht' hc.1]
    exact h.others r hr hne d' n' v hv j hj
  · rw [hent (h.isTable hsrc hv) hj, if_neg fun hc => h.table_ne hsrc hv hnew ht' hc.1,
      h.source d' n' v hv j hj]
    congr 1
    exact propext ⟨fun hc => ⟨hc.1, by omega, hc.2.2⟩,
      fun hc => ⟨hc.1, hleaf d' n' v j hv hj hc.1 hc.2.1, hc.2.2⟩⟩
  · rw [hlink hmem]
    split_ifs with hc
    · obtain ⟨-, rfl, rfl⟩ := hc
      exact iff_of_true (by simp) ⟨by rw [hkid]; simp, lt_succ_self _, hmade⟩
    · rw [h.copy]
      refine ⟨fun hx => ⟨hx.1, by omega, hx.2.2⟩, fun hx => ⟨hx.1, ?_, hx.2.2⟩⟩
      exact (turn_cases hx.1 (tableAt_le_three ht) hx.2.1).resolve_right fun he => hc ⟨rfl, he⟩
  · rw [hlink hmem] at hv'
    split_ifs at hv' with hc
    · -- The new table is still empty.
      obtain ⟨-, rfl, rfl⟩ := hc
      obtain rfl := some.inj hv'
      have := rank_mono (show d + 1 < 4 by omega) hj (n := 512 * n + i)
      have hnone : tableAt 256 s'.mem new (d + 1 + 1) (512 * (512 * n + i) + j) = none := by
        rw [hlink hmem, if_neg (by omega)]
        by_contra hsome
        have := ((h.copy _ _).mp hsome).2.1
        omega
      rw [hs.entry_link_new hfresh hmem ht' hi hj, if_neg (by omega), hnone]
    · rw [hent ⟨new, hmem, d', n', hv'⟩ hj]
      by_cases hthis : v' = t' ∧ j = i
      · obtain ⟨rfl, rfl⟩ := hthis
        obtain ⟨-, rfl, rfl⟩ := hs.separate new hmem new hmem _ _ _ _ v' hv' ht'
        obtain rfl := some.inj (hv.symm.trans ht)
        rw [if_pos ⟨rfl, rfl⟩, if_neg (by simp [hnotleaf]), hkidnew]
      · have hkids : tableAt 256 s'.mem new (d' + 1) (512 * n' + j) =
            tableAt 256 s.mem new (d' + 1) (512 * n' + j) := by
          rw [hlink hmem, if_neg]
          rintro ⟨-, hd', hn'⟩
          obtain rfl : d' = d := by omega
          obtain ⟨rfl, rfl⟩ : n' = n ∧ j = i := by omega
          exact hthis ⟨some.inj (hv'.symm.trans ht'), rfl⟩
        rw [if_neg hthis, hkids, h.child d' n' v v' hv hv' j hj hroot']
        congr 1
        exact propext ⟨fun hx => ⟨hx.1, by omega⟩,
          fun hx => ⟨hx.1, hleaf d' n' v j hv hj hx.1 hx.2⟩⟩
  · rw [hlink hmem] at hv
    split_ifs at hv
    · obtain rfl := some.inj hv
      exact .inr fun a h1 h2 => h.free a (hfresh.free a h1 h2)
    · exact h.made d' n' v hv
  · rw [tabs_succ hturn, draws_succ]
    exact hsame.2
  · have := h.counts.alloc hs.good 1 .normal false
    rwa [show pmmAllocPagesInternal s.pmm 1 .normal false = (u, pmm') from halloc] at this

lemma Forking.share (hsrc : src ∈ R) (hnew : new ∉ R) (ht : tableAt 256 s0.mem src d n = some t)
    (ht' : tableAt 256 s.mem new d n = some t') (hi : i < 512)
    (hleaf : isLeaf d (entry s0.mem t i) = true)
    (g : BothStored (insert new R) s s' t t' i (sharedEntry d (entry s0.mem t i))) :
    Forking R s0 (s'.addRef (leafRef d (entry s0.mem t i))) src new
        (rank (d + 1) (512 * n + i) + 1) ∧
      KeepsChild new s (s'.addRef (leafRef d (entry s0.mem t i))) := by
  have hmem : new ∈ insert new R := mem_insert _ _
  have hmade := ((h.copy d n).mp (by rw [ht']; simp)).2.2
  have hkid : tableAt 256 s0.mem src (d + 1) (512 * n + i) = none :=
    (tableAt_kid ht hi).trans (nextOf_isLeaf hleaf)
  have hturn : ¬ TableTurn s0.mem src (rank (d + 1) (512 * n + i)) := by
    rintro ⟨d', n', h0', h3', heq, hsome⟩
    have := tableAt_le_three ht
    obtain ⟨rfl, rfl⟩ := rank_inj h0' (by omega) (succ_pos d) (by omega) heq
    exact hsome hkid
  -- Another entry has had its turn now if it had it before.
  have hother : ∀ d' n' v j, tableAt 256 s0.mem src d' n' = some v → j < 512 → ¬ (v = t ∧ j = i) →
      (rank (d' + 1) (512 * n' + j) < rank (d + 1) (512 * n + i) + 1 ↔
        rank (d' + 1) (512 * n' + j) < rank (d + 1) (512 * n + i)) := by
    intro d' n' v j hv hj hne
    refine ⟨fun hlt => lt_of_le_of_ne (by omega) fun heq => ?_, fun hlt => by omega⟩
    obtain ⟨-, -, rfl, rfl⟩ := slot_unique ht hi hv hj heq
    exact hne ⟨rfl, rfl⟩
  refine ⟨?_, fun d' n' u hu => ?_⟩
  swap
  · rw [addRef_mem, g.trees new hmem, hu]
  refine
    { sound := g.sound.addRef _
      trees := fun r hr d' n' => ?_
      others := fun r hr hne d' n' v hv j hj => ?_
      source := fun d' n' v hv j hj => ?_
      copy := fun d' n' => ?_
      child := fun d' n' v v' hv hv' j hj hroot => ?_
      made := fun d' n' v hv => ?_
      pmm := ?_
      free := fun a ha => h.free a ?_
      counts := addRef_counts (by rw [g.pmm]; exact h.counts) _ }
  · rw [addRef_mem, g.trees r (mem_insert_of_mem _ hr)]
    exact h.trees r hr d' n'
  · rw [addRef_mem, g.entries v (h.isTable hr hv) j hj, if_neg]
    · exact h.others r hr hne d' n' v hv j hj
    · rintro ⟨rfl | rfl, -⟩
      · exact hne (h.source_unique hr hv hsrc ht).1
      · exact h.table_ne hr hv hnew ht' rfl
  · rw [addRef_mem, g.entries v (h.isTable hsrc hv) j hj]
    have hvt' : v ≠ t' := h.table_ne hsrc hv hnew ht'
    by_cases hthis : v = t ∧ j = i
    · obtain ⟨rfl, rfl⟩ := hthis
      obtain ⟨-, rfl, rfl⟩ := h.source_unique hsrc hv hsrc ht
      rw [if_pos ⟨.inl rfl, rfl⟩, if_pos ⟨hleaf, lt_succ_self _, hmade⟩]
    · rw [if_neg fun hc => hthis ⟨hc.1.resolve_right hvt', hc.2⟩, h.source d' n' v hv j hj]
      simp [hother d' n' v j hv hj hthis]
  · rw [addRef_mem, g.trees new hmem, h.copy]
    refine ⟨fun hx => ⟨hx.1, by omega, hx.2.2⟩, fun hx => ⟨hx.1, ?_, hx.2.2⟩⟩
    refine (turn_cases hx.1 (tableAt_le_three ht) hx.2.1).resolve_right ?_
    rintro ⟨rfl, rfl⟩
    exact hx.1 hkid
  · rw [addRef_mem, g.trees new hmem] at hv'
    rw [addRef_mem, g.trees new hmem, g.entries v' ⟨new, hmem, d', n', hv'⟩ j hj]
    by_cases hthis : v' = t' ∧ j = i
    · obtain ⟨rfl, rfl⟩ := hthis
      obtain ⟨-, rfl, rfl⟩ := h.sound.separate new hmem new hmem _ _ _ _ v' hv' ht'
      obtain rfl := some.inj (hv.symm.trans ht)
      rw [if_pos ⟨.inr rfl, rfl⟩, if_pos ⟨hleaf, lt_succ_self _⟩]
    · have hvt : v' ≠ t := (h.table_ne hsrc ht hnew hv').symm
      have hslot : ¬ (v = t ∧ j = i) := by
        rintro ⟨rfl, rfl⟩
        obtain ⟨-, rfl, rfl⟩ := h.source_unique hsrc hv hsrc ht
        exact hthis ⟨some.inj (hv'.symm.trans ht'), rfl⟩
      rw [if_neg fun hc => hthis ⟨hc.1.resolve_left hvt, hc.2⟩,
        h.child d' n' v v' hv hv' j hj hroot]
      simp [hother d' n' v j hv hj hslot]
  · rw [addRef_mem, g.trees new hmem] at hv
    exact h.made d' n' v hv
  · have hskip : tabs s0.mem src (rank (d + 1) (512 * n + i) + 1) =
        tabs s0.mem src (rank (d + 1) (512 * n + i)) :=
      tabs_skip (le_succ _) fun j h1 h2 => by
        obtain rfl : j = rank (d + 1) (512 * n + i) := by omega
        exact hturn
    have := h.pmm
    rw [hskip]
    rw [← g.pmm] at this
    exact addRef_keeps _ this fun _ _ _ => this.setRefcount _ _
  · rw [← g.pmm]
    exact (addRef_free g.sound.good _).mp ha

end

end Steps

end YamKernel.Vmm

import YamKernel.Mem.Vmm.Access

/-!
# Changing the protection of a range

`sys_mprotect` gives new flags to the pages of the range that are present, and a new protection
to the first area that holds the whole range. So an area that reaches beyond the range changes
there as well, an area that meets the range without holding it does not change at all, pages stay
COW, and `PROT_READ` is never looked at. `mprotect_law` says when the rights afterwards are those
asked for.
-/

namespace YamKernel.Vmm

open Lib Pmm List Pte

/-- The flags `sys_mprotect` gives to a page with the flags `old`. -/
def mprotectFlags (old prot : Nat) : Nat :=
  let new := flagPresent ||| flagUser
  let new := if has prot protWrite then new ||| flagWrite else new
  let new := if ¬ has prot protExec then new ||| flagNx else new
  let new := if has old flagCow then new ||| flagCow else new
  if has old flagDontFree then new ||| flagDontFree else new

def InRange (addr length va : Nat) : Prop := addr ≤ va ∧ va < addr + pageCount length * pageSize

def Vma.Has (v : Vma) (va : Nat) : Prop := v.start ≤ va ∧ va < v.stop

def Vma.Spans (v : Vma) (addr length : Nat) : Prop :=
  v.start ≤ addr ∧ addr + pageCount length * pageSize ≤ v.stop

instance (v : Vma) (addr length : Nat) : Decidable (v.Spans addr length) := by
  unfold Vma.Spans
  infer_instance

/-- After `sys_mprotect`, whatever the task accesses meanwhile, an access to the range goes
through only if the protection allows it; elsewhere the same accesses go through as before. -/
structure MprotectLaw (s : State) (r : Nat) (vmas : List Vma) (addr length prot : Nat) : Prop where
  inside : let out := sysMprotect s r vmas addr length prot
    ∀ (later : List (UserAddr × Access)) (va : UserAddr) (a : Access), InRange addr length va →
      (userAccess ((accessStep r out.2).run out.1 later) r out.2 va a).1 = true →
      a.allowedBy prot = true
  outside : let out := sysMprotect s r vmas addr length prot
    ∀ (va : UserAddr) (a : Access), ¬ InRange addr length va →
      (userAccess out.1 r out.2 va a).1 = (userAccess s r vmas va a).1

/-- Reading is allowed unless the range has neither pages nor areas; writing is allowed if the
range has a page that is shared; an area that meets the range without holding it
allows no more than is asked for; an area that holds the range allows just that, or the change
does not show since the pages outside the range are there with the right in question. -/
structure MprotectOk (s : State) (r : Nat) (vmas : List Vma) (addr length prot : Nat) : Prop where
  read : ∀ va : UserAddr, InRange addr length va →
    (pte 256 s.mem r (pageOf va)).present = true ∨ (∃ v ∈ vmas, v.Has va) → has prot protRead = true
  shared : ∀ va : UserAddr, InRange addr length va →
    (pte 256 s.mem r (pageOf va)).shared (pageOf va) = true → has prot protWrite = true
  areas : ∀ va : UserAddr, InRange addr length va → ∀ v ∈ vmas, v.Has va → ¬ v.Spans addr length →
    (has v.prot protWrite = true → has prot protWrite = true) ∧
      (has v.prot protExec = true → has prot protExec = true)
  others : ∀ va : UserAddr, ¬ InRange addr length va → ∀ v ∈ vmas, v.Has va → v.Spans addr length →
    let e := pte 256 s.mem r (pageOf va)
    (has v.prot protWrite = has prot protWrite ∨ e.grants (.write 0) = true ∨
        e.shared (pageOf va) = true) ∧
      (has v.prot protExec = has prot protExec ∨ e.grants .fetch = true)

/-! ## The pages -/

section Flags

variable {old prot : Nat} {e : Pte} {a : Access}

lemma mprotectFlags_lt (old prot : Nat) : mprotectFlags old prot < 2 ^ 64 := by
  unfold mprotectFlags
  split_ifs <;> decide

lemma mprotectFlags_frame (old prot : Nat) :
    frame (mprotectFlags old prot) = 0 ∧ mprotectFlags old prot &&& hugeMask = 0 := by
  unfold mprotectFlags
  split_ifs <;> decide

lemma mprotectFlags_cow (old prot : Nat) :
    has (mprotectFlags old prot) flagCow = has old flagCow := by
  unfold mprotectFlags
  split_ifs <;> simp_all <;> decide

lemma mprotectFlags_rights (old prot : Nat) : has (mprotectFlags old prot) flagUser = true ∧
    has (mprotectFlags old prot) flagWrite = has prot protWrite ∧
    has (mprotectFlags old prot) flagNx = !has prot protExec := by
  unfold mprotectFlags
  split_ifs <;> simp_all <;> decide

lemma mprotectPage_eq {s : State} {r va : Nat} (hva : pageOf va < 256 * 2 ^ 27) :
    mprotectPage r prot s va =
      let e := pte 256 s.mem r (pageOf va)
      if e.present then (vmmUpdateFlags s r va (mprotectFlags e.entry prot)).2 else s := by
  unfold mprotectPage mprotectFlags present
  dsimp only
  rw [vmmGetPteFlags_eq hva, has_and, has_and, has_and]
  cases has (pte 256 s.mem r (pageOf va)).entry flagPresent <;> simp

def Pte.protect (e : Pte) (prot : Nat) : Pte := ⟨e.relabel (mprotectFlags e.entry prot), e.huge⟩

lemma Pte.protect_present (e : Pte) (prot : Nat) : (e.protect prot).present = true :=
  relabel_present _ _

lemma Pte.protect_has (e : Pte) (prot : Nat) : has (e.protect prot).entry flagUser = true ∧
    has (e.protect prot).entry flagWrite = has prot protWrite ∧
    has (e.protect prot).entry flagNx = !has prot protExec := by
  unfold protect
  rw [e.relabel_has, e.relabel_has, e.relabel_has]
  exact mprotectFlags_rights _ _

lemma Pte.protect_grants (e : Pte) (prot : Nat) (a : Access) :
    (e.protect prot).grants a = a.grantedBy (areaFlags prot) := by
  obtain ⟨hu, hw, hx⟩ := e.protect_has prot
  refine a.grantedBy_congr ?_ ?_ ?_ ?_
  · exact (e.protect_present prot).trans (areaFlags_user prot).1.symm
  · rw [hu, (areaFlags_user prot).2]
  · rw [hw, areaFlags_write]
  · rw [hx, areaFlags_nx]

lemma Pte.protect_shared (p : Nat) (hp : e.present = true) :
    (e.protect prot).shared p = e.shared p := by
  have hcow : has (e.protect prot).entry flagCow = has e.entry flagCow := by
    unfold protect
    rw [e.relabel_has, mprotectFlags_cow]
  obtain ⟨h1, h2⟩ := mprotectFlags_frame e.entry prot
  unfold shared
  rw [hcow, show (e.protect prot).frameOf p = e.frameOf p from e.relabel_frameOf p hp h1 h2]

end Flags

/-- The pages `ps` of the space `r` that are present have the new protection. -/
structure Protected (R : Set Nat) (s s' : State) (r prot : Nat) (ps : List Nat) : Prop where
  intact : Intact R s'
  pmm : s'.pmm = s.pmm
  tables : ∀ d n, tableAt 256 s'.mem r d n = tableAt 256 s.mem r d n
  clear : ∀ q, Blocked 256 s'.mem r q → Blocked 256 s.mem r q
  pte_eq : ∀ q, pte 256 s'.mem r q =
    if q ∈ ps ∧ (pte 256 s.mem r q).present = true then (pte 256 s.mem r q).protect prot
    else pte 256 s.mem r q

section Pages

variable {R : Set Nat} {s s' s'' : State} {r p prot : Nat} {ps : List Nat}

/-- New flags for a page of 4 KB leave the way to every page as it is. -/
theorem Sound.updateFlags_blocked {top virt flags q : Nat} (h : Sound top R s) (hr : r ∈ R)
    (htop : pageOf virt < top * 2 ^ 27) (hp : (pte top s.mem r (pageOf virt)).present = true)
    (hsmall : (pte top s.mem r (pageOf virt)).huge = false) (hf : flags < 2 ^ 64)
    (hq : Blocked top (vmmUpdateFlags s r virt flags).2.mem r q) : Blocked top s.mem r q := by
  obtain ⟨t, i, hslot, -⟩ := pte_leafSlot hp
  rw [hsmall] at hslot
  rw [vmmUpdateFlags_eq flags htop, hslot] at hq
  obtain ⟨ht, rfl⟩ := leafSlot_small.mp hslot
  have hi : pageOf virt % 512 < 512 := Nat.mod_lt _ (by decide)
  dsimp only at hq
  split_ifs at hq
  · exact h.blocked_set hr ht hi (leafEntry_lt hf) hq
  · exact hq

lemma Intact.protect_page (h : Intact R s) (hr : r ∈ R) (hp35 : p < 2 ^ 35)
    (hb : ¬ Blocked 256 s.mem r p) :
    Protected R s (mprotectPage r prot s (p * pageSize)) r prot [p] := by
  have hpage : pageOf (p * pageSize) = p := pageOf_mul (by omega)
  have htop : pageOf (p * pageSize) < 256 * 2 ^ 27 := by omega
  rw [mprotectPage_eq htop, hpage]
  dsimp only
  cases hp : (pte 256 s.mem r p).present with
  | false =>
    refine ⟨h, rfl, fun _ _ => rfl, fun _ hq => hq, fun q => ?_⟩
    rw [if_neg Bool.false_ne_true, if_neg]
    rintro ⟨hq, hpres⟩
    rw [mem_singleton.mp hq, hp] at hpres
    exact absurd hpres (by decide)
  | true =>
    have hsmall := pte_small hb
    obtain ⟨s', hs', g⟩ := h.sound.updateFlags_spec hr htop (by rwa [hpage])
      (mprotectFlags_lt (pte 256 s.mem r p).entry prot)
    rw [if_pos rfl, hs']
    rw [hpage] at g
    refine ⟨h.stored hp (mprotectFlags_frame _ _) g, g.pmm, g.tables r hr, fun q hq => ?_,
      fun q => ?_⟩
    · refine h.sound.updateFlags_blocked hr htop (by rwa [hpage]) (by rwa [hpage])
        (mprotectFlags_lt (pte 256 s.mem r p).entry prot) ?_
      rwa [hs']
    · rw [g.pte_eq r hr, hsmall]
      by_cases hq : q = p
      · subst hq
        rw [if_pos ⟨rfl, rfl⟩, if_pos ⟨mem_singleton.mpr rfl, hp⟩, protect, hsmall]
      · rw [if_neg fun hc => hq hc.2, if_neg fun hc => hq (mem_singleton.mp hc.1)]

lemma Protected.trans (h : Protected R s s' r prot [p]) (g : Protected R s' s'' r prot ps)
    (hp : p ∉ ps) : Protected R s s'' r prot (p :: ps) := by
  refine ⟨g.intact, g.pmm.trans h.pmm, fun d n => (g.tables d n).trans (h.tables d n),
    fun q hq => h.clear q (g.clear q hq), fun q => ?_⟩
  rw [g.pte_eq, h.pte_eq]
  by_cases hq : q = p
  · subst hq
    simp [hp]
  · simp [hq]

lemma Intact.protect (h : Intact R s) (hr : r ∈ R) (hlt : ∀ p ∈ ps, p < 2 ^ 35)
    (hb : ∀ p ∈ ps, ¬ Blocked 256 s.mem r p) (hnd : ps.Nodup) :
    Protected R s ((ps.map (· * pageSize)).foldl (mprotectPage r prot) s) r prot ps := by
  induction ps generalizing s with
  | nil => exact ⟨h, rfl, fun _ _ => rfl, fun _ hq => hq, fun q => by simp⟩
  | cons p ps ih =>
    have hone : Protected R s (mprotectPage r prot s (p * pageSize)) r prot [p] :=
      h.protect_page hr (hlt p (by simp)) (hb p (by simp))
    obtain ⟨hp, hnd⟩ := nodup_cons.mp hnd
    refine hone.trans (ih hone.intact (fun q hq => hlt q (.tail p hq)) (fun q hq hbl => ?_) hnd) hp
    exact hb q (.tail p hq) (hone.clear q hbl)

end Pages

/-! ## The areas -/

/-- A call on pages of user space, by a task with disjoint areas and without huge pages. -/
structure ProtectCall (R : Set Nat) (s : State) (r : Nat) (vmas : List Vma) (addr length : Nat) :
    Prop where
  intact : Intact R s
  root : r ∈ R
  clear : ∀ p < 2 ^ 35, ¬ Blocked 256 s.mem r p
  apart : vmas.Pairwise fun v w => v.stop ≤ w.start ∨ w.stop ≤ v.start
  aligned : pageSize ∣ addr
  pos : 0 < length
  stop : addr + length ≤ userEnd

/-- The area that gets the new protection is the one that holds the range. -/
theorem protectAreas_eq {vmas : List Vma} {addr length prot : Nat}
    (hapart : vmas.Pairwise fun v w => v.stop ≤ w.start ∨ w.stop ≤ v.start)
    (hpos : 0 < pageCount length) :
    (match vmas.findIdx? fun v => decide (v.Spans addr length) with
      | some i => vmas.modify i fun v => { v with prot := prot }
      | none => vmas) =
    vmas.map fun v => if v.Spans addr length then { v with prot := prot } else v := by
  induction vmas with
  | nil => rfl
  | cons v vmas ih =>
    obtain ⟨hv, hapart⟩ := pairwise_cons.mp hapart
    rw [findIdx?_cons]
    by_cases hs : v.Spans addr length
    · -- No later area has the range as well.
      have hrest : ∀ w ∈ vmas, ¬ w.Spans addr length := fun w hw hsw => by
        have := hv w hw
        unfold Vma.Spans at hs hsw
        unfold pageSize at *
        omega
      have hmap :
          (vmas.map fun v => if v.Spans addr length then { v with prot := prot } else v) =
            vmas := by
        refine (map_congr_left fun w hw => if_neg (hrest w hw)).trans (map_id' _)
      simp [hs, hmap]
    · rw [if_neg (by simpa using hs), map_cons, if_neg hs, ← ih hapart]
      cases vmas.findIdx? fun v => decide (v.Spans addr length) <;> rfl

section Call

variable {R : Set Nat} {s s' : State} {r addr length prot : Nat} {vmas : List Vma}
  (h : ProtectCall R s r vmas addr length)

include h

lemma ProtectCall.range : 0 < pageCount length ∧ addr + pageCount length * pageSize ≤ userEnd := by
  obtain ⟨k, rfl⟩ := h.aligned
  have := h.pos
  have := h.stop
  unfold pageCount
  rw [u64_of_lt (by unfold userEnd pageSize at *; omega)]
  unfold userEnd pageSize at *
  omega

lemma ProtectCall.find_iff {va : Nat} {v : Vma} :
    vmas.find? (fun v => decide (v.start ≤ va ∧ va < v.stop)) = some v ↔ v ∈ vmas ∧ v.Has va := by
  refine ⟨fun hf => ⟨(find_area hf).1, (find_area hf).2⟩, fun ⟨hv, hin⟩ => ?_⟩
  cases hf : vmas.find? fun v => decide (v.start ≤ va ∧ va < v.stop) with
  | none =>
    exact absurd (decide_eq_true (p := v.start ≤ va ∧ va < v.stop) hin)
      (find?_eq_none.mp hf v hv)
  | some w => rw [areas_unique h.apart (find_area hf).1 hv (find_area hf).2 hin]

lemma ProtectCall.areaProt_eq (va : Nat) :
    areaProt (sysMprotect s r vmas addr length prot).2 va =
      (vmas.find? fun v => decide (v.start ≤ va ∧ va < v.stop)).map fun v =>
        if v.Spans addr length then prot else v.prot := by
  obtain ⟨hpos, hlt⟩ := h.range
  have hspans : (fun v : Vma => decide (v.start ≤ addr / pageSize * pageSize ∧
      u64 (addr / pageSize * pageSize + u64 (length + (pageSize - 1)) / pageSize * pageSize) ≤
        v.stop)) = fun v => decide (v.Spans addr length) := by
    funext v
    rw [Nat.div_mul_cancel h.aligned, ← pageCount, u64_of_lt (hlt.trans_lt (by decide))]
    rfl
  have hfind : ((fun v : Vma => decide (v.start ≤ va ∧ va < v.stop)) ∘ fun v : Vma =>
      if v.Spans addr length then { v with prot := prot } else v) =
      fun v => decide (v.start ≤ va ∧ va < v.stop) := by
    funext v
    simp only [Function.comp_apply]
    split_ifs <;> rfl
  unfold sysMprotect
  dsimp only
  rw [hspans]
  refine (congrArg (areaProt · va) (protectAreas_eq h.apart hpos)).trans ?_
  rw [areaProt, find?_map, Option.map_map, hfind]
  congr 1
  funext v
  simp only [Function.comp_apply]
  split_ifs <;> rfl

lemma ProtectCall.inRange_iff (va : UserAddr) :
    InRange addr length va ↔ pageOf va ∈ munmapPages addr length := by
  obtain ⟨k, rfl⟩ := h.aligned
  have := va.2
  rw [munmapPages, mem_range'_1]
  unfold InRange pageOf
  unfold userEnd pageSize at *
  omega

lemma ProtectCall.page_lt {p : Nat} (hp : p ∈ munmapPages addr length) : p < 2 ^ 35 := by
  obtain ⟨-, hlt⟩ := h.range
  obtain ⟨k, rfl⟩ := h.aligned
  rw [munmapPages, mem_range'_1] at hp
  unfold userEnd pageSize at *
  omega

lemma ProtectCall.pages (prot : Nat) :
    Protected R s (sysMprotect s r vmas addr length prot).1 r prot (munmapPages addr length) := by
  have hrange : mprotectRange addr length = (munmapPages addr length).map (· * pageSize) := by
    rw [munmapPages, ← pageRange_eq h.aligned (h.range.2.trans (by decide)), mprotectRange,
      Nat.div_mul_cancel h.aligned]
    rfl
  unfold sysMprotect
  rw [hrange]
  exact h.intact.protect h.root (fun _ => h.page_lt) (fun p hp => h.clear p (h.page_lt hp))
    nodup_range'

end Call

/-! ## Later accesses -/

/-- The entry gives no more than the protection allows, nor can it by way of the COW bit. -/
def Pte.Within (e : Pte) (p prot : Nat) : Prop :=
  e.present = true → has prot protRead = true ∧
    (has e.entry flagWrite = true → has prot protWrite = true) ∧
    (has e.entry flagNx = false → has prot protExec = true) ∧
    (e.shared p = true → has prot protWrite = true)

/-- An area with the protection `pr` allows no more than `prot` does. -/
def Narrower (prot pr : Nat) : Prop :=
  has prot protRead = true ∧ (has pr protWrite = true → has prot protWrite = true) ∧
    (has pr protExec = true → has prot protExec = true)

/-- The pages of `P` are within the protection. -/
structure Confined (R : Set Nat) (r prot : Nat) (P : Nat → Prop) (s : State) : Prop where
  intact : Intact R s
  flat : ∀ p < 2 ^ 35, (pte 256 s.mem r p).huge = false
  within : ∀ p, P p → (pte 256 s.mem r p).Within p prot

section Confined

variable {R : Set Nat} {s s' : State} {r p prot f : Nat} {P : Nat → Prop} {vmas : List Vma}
  {va : UserAddr} {a : Access} {e : Pte}

lemma Pte.Within.allowed (h : e.Within p prot) (hg : e.grants a = true) :
    a.allowedBy prot = true := by
  have hpres : e.present = true := by
    unfold grants at hg
    cases a <;> simp_all [Access.grantedBy, present]
  obtain ⟨hread, hwrite, hexec, -⟩ := h hpres
  cases a with
  | read => exact hread
  | write byte => exact hwrite (by simp_all [grants, Access.grantedBy])
  | fetch => exact hexec (by simp_all [grants, Access.grantedBy])

lemma Pte.Within.cow (h : e.Within p prot) (hp : e.present = true) (hsh : e.shared p = true)
    {e' : Pte} (hnx : has e'.entry flagNx = has e.entry flagNx) : e'.Within p prot := by
  obtain ⟨hread, -, hexec, hwrite⟩ := h hp
  exact fun _ => ⟨hread, fun _ => hwrite hsh, fun hn => hexec (hnx ▸ hn), fun _ => hwrite hsh⟩

lemma Pte.within_area {pr : Nat} (h : Narrower prot pr) :
    (mk (leafEntry f (areaFlags pr)) false).Within p prot := by
  have hcow : has (areaFlags pr) flagCow = false := by
    unfold areaFlags
    split_ifs <;> decide
  obtain ⟨hread, hwrite, hexec⟩ := h
  intro _
  unfold shared
  rw [leafEntry_has, leafEntry_has, leafEntry_has, areaFlags_write, areaFlags_nx, hcow]
  exact ⟨hread, hwrite, fun hx => hexec (by simpa using hx), by simp⟩

section

variable (h : Confined R r prot P s)
include h

lemma Confined.keeps (hr : r ∈ R) (hk : KeepsTables 256 R s.mem s'.mem) (hi : Intact R s') :
    Confined R r prot P s' := by
  refine ⟨hi, fun p hp => ?_, fun p hp => ?_⟩
  · rw [hk.pte_eq hr]
    exact h.flat p hp
  · rw [hk.pte_eq hr]
    exact h.within p hp

lemma Confined.set (hi : Intact R s') (he : e.huge = false)
    (hpte : ∀ q, pte 256 s'.mem r q = if q = p then e else pte 256 s.mem r q)
    (hin : P p → e.Within p prot) : Confined R r prot P s' := by
  refine ⟨hi, fun q hq => ?_, fun q hq => ?_⟩
  · rw [hpte]
    split_ifs
    · exact he
    · exact h.flat q hq
  · rw [hpte]
    split_ifs with hqp
    · subst hqp
      exact hin hq
    · exact h.within q hq

/-- A fault keeps the pages within the protection if the areas are. -/
theorem Confined.fault (hr : r ∈ R)
    (hareas : P (pageOf va) → ∀ pr, areaProt vmas va = some pr → Narrower prot pr) (error : Nat) :
    Confined R r prot P (vmmHandlePageFault s r vmas va error).2 := by
  have hva := va.page_lt
  have hi := h.intact.fault hr hva vmas error
  have hsmall := h.flat (pageOf va) (by omega)
  have hsame : ∀ {s'}, Intact R s' → (∀ q, pte 256 s'.mem r q = pte 256 s.mem r q) →
      Confined R r prot P s' := fun hi hpte =>
    h.set hi hsmall (fun q => by rw [hpte]; split_ifs with hq <;> simp [hq])
      (h.within _)
  rcases h.intact.sound.fault_cases hr hva (h.intact.held hr) h.intact.counts.lt vmas error with
    ⟨⟨-, hsh⟩, -, s', he, g⟩ | ⟨⟨-, hsh⟩, -, f, s', he, g⟩ | ⟨-, pr, f, s', harea, he, g⟩ | ⟨he, -⟩
  all_goals rw [he] at hi ⊢
  · refine h.set (e := ⟨relabel _ (cowFlags _), false⟩) hi rfl (fun q => ?_)
      fun hp => (h.within _ hp).cow (shared_present hsh) hsh (relabel_cowFlags_nx _)
    rw [g.pte_eq r hr, hsmall]
    simp [SameLeaf]
  · by_cases hb : Blocked 256 s.mem r (pageOf va)
    · exact hsame hi (g.unmapped hb r hr)
    · refine h.set (e := ⟨leafEntry f (cowFlags _), false⟩) hi rfl (fun q => ?_)
        fun hp => (h.within _ hp).cow (shared_present hsh) hsh (leaf_cowFlags_nx _)
      rw [g.mapped hb r hr]
      simp
  · by_cases hpop : Populable 256 s r (pageOf va)
    · refine h.set (p := pageOf va) (e := ⟨leafEntry f (areaFlags pr), false⟩) hi rfl (fun q => ?_)
        fun hp => ?_
      · rw [g.mapped hpop r hr]
        simp
      · exact within_area (hareas hp pr harea)
    · exact hsame hi (g.unmapped hpop r hr)
  · exact h

/-- Accesses keep the pages within the protection, and go through only if it allows them. -/
theorem Confined.access (hr : r ∈ R)
    (hareas : P (pageOf va) → ∀ pr, areaProt vmas va = some pr → Narrower prot pr) :
    Confined R r prot P (userAccess s r vmas va a).2 ∧
      (P (pageOf va) → (userAccess s r vmas va a).1 = true → a.allowedBy prot = true) := by
  refine ⟨userAccess_invariant hr (fun _ hc => hc.intact) (fun _ _ hc hk hi => hc.keeps hr hk hi)
    (fun _ error hc => hc.fault hr hareas error) h, fun hp hyes => ?_⟩
  rw [userAccess_fst, Access.perform_isSome va.page_lt, Access.perform_isSome va.page_lt,
    Bool.or_eq_true] at hyes
  rcases hyes with hg | hg
  · exact (h.within _ hp).allowed hg
  · exact ((h.fault hr hareas _).within _ hp).allowed hg

end

end Confined

/-! ## The law -/

section Law

variable {R : Set Nat} {s s' : State} {r addr length prot : Nat} {vmas : List Vma}

/-- The range is within the protection after `sys_mprotect`. -/
theorem MprotectOk.confined (hok : MprotectOk s r vmas addr length prot)
    (h : ProtectCall R s r vmas addr length)
    (g : Protected R s s' r prot (munmapPages addr length)) :
    Confined R r prot (· ∈ munmapPages addr length) s' := by
  refine ⟨g.intact, fun p hp => pte_small fun hb => h.clear p hp (g.clear p hb),
    fun p hp hpres => ?_⟩
  have := h.page_lt hp
  let va : UserAddr := ⟨p * pageSize, by unfold userEnd pageSize; omega⟩
  have hva : pageOf va = p := pageOf_mul (by omega)
  have hin : InRange addr length va := (h.inRange_iff va).mpr (by rwa [hva])
  rw [g.pte_eq] at hpres ⊢
  split_ifs at hpres ⊢ with hc
  · obtain ⟨-, hwrite, hexec⟩ := (pte 256 s.mem r p).protect_has prot
    rw [hwrite, hexec, protect_shared p hc.2]
    refine ⟨hok.read va hin (.inl (by rw [hva]; exact hc.2)), id,
      fun hx => by simpa using hx, fun hsh => ?_⟩
    exact hok.shared va hin (by rwa [hva])
  · exact absurd ⟨hp, hpres⟩ hc

/-- The areas at the range are within the protection after `sys_mprotect`. -/
theorem MprotectOk.area (hok : MprotectOk s r vmas addr length prot)
    (h : ProtectCall R s r vmas addr length) {va : UserAddr} (hin : InRange addr length va)
    {pr : Nat} (hpr : areaProt (sysMprotect s r vmas addr length prot).2 va = some pr) :
    Narrower prot pr := by
  rw [h.areaProt_eq, Option.map_eq_some_iff] at hpr
  obtain ⟨v, hv, rfl⟩ := hpr
  obtain ⟨hv, hhas⟩ := h.find_iff.mp hv
  refine ⟨hok.read va hin (.inr ⟨v, hv, hhas⟩), ?_⟩
  split_ifs with hs
  · exact ⟨id, id⟩
  · exact hok.areas va hin v hv hhas hs

lemma Protected.populable_iff {p : Nat} {ps : List Nat} (g : Protected R s s' r prot ps)
    (hb : ¬ Blocked 256 s.mem r p) : Populable 256 s' r p ↔ Populable 256 s r p := by
  have hmissing : missing 256 s'.mem r p 3 = missing 256 s.mem r p 3 := by
    simp [missing, g.tables]
  rw [Populable, Populable, hmissing, g.pmm, and_iff_right hb,
    and_iff_right fun hb' => hb (g.clear p hb')]

/-- Where the entry has not changed, only the areas count. -/
theorem Protected.permitted_iff {ps : List Nat} (g : Protected R s s' r prot ps) {va : UserAddr}
    (hb : ¬ Blocked 256 s.mem r (pageOf va)) (hp : pageOf va ∉ ps) (vmas : List Vma) (a : Access) :
    Permitted s' r vmas va a ↔ Permitted s r vmas va a := by
  have hpte : pte 256 s'.mem r (pageOf va) = pte 256 s.mem r (pageOf va) := by
    rw [g.pte_eq, if_neg fun hc => hp hc.1]
  unfold Permitted
  simp [hpte, g.pmm, g.populable_iff hb]

/-- What an area with the protection `pr` in the place of `v` lets through that `v` does not. -/
theorem MprotectOk.area_outside (hok : MprotectOk s r vmas addr length prot) {va : UserAddr}
    (hout : ¬ InRange addr length va) {v : Vma} (hv : v ∈ vmas) (hhas : v.Has va) (a : Access)
    (hno : ¬ (pte 256 s.mem r (pageOf va)).grants a = true)
    (hcow : ¬ (a.isWrite = true ∧ (pte 256 s.mem r (pageOf va)).shared (pageOf va) = true)) :
    a.grantedBy (areaFlags (if v.Spans addr length then prot else v.prot)) =
      a.grantedBy (areaFlags v.prot) := by
  split_ifs with hs
  · obtain ⟨hwrite, hexec⟩ := hok.others va hout v hv hhas hs
    rw [Access.grantedBy_area, Access.grantedBy_area]
    cases a with
    | read => rfl
    | write byte =>
      rcases hwrite with heq | hg | hsh
      · exact heq.symm
      · exact absurd hg hno
      · exact absurd ⟨rfl, hsh⟩ hcow
    | fetch =>
      rcases hexec with heq | hg
      · exact heq.symm
      · exact absurd hg hno
  · rfl

/-- Outside the range the change of the areas does not show. -/
theorem MprotectOk.permitted_iff (hok : MprotectOk s r vmas addr length prot)
    (h : ProtectCall R s r vmas addr length) {va : UserAddr} (hout : ¬ InRange addr length va)
    (a : Access) :
    Permitted s r (sysMprotect s r vmas addr length prot).2 va a ↔ Permitted s r vmas va a := by
  unfold Permitted
  rw [h.areaProt_eq, areaProt]
  refine or_congr_right' fun hno => or_congr_right (and_congr_right fun hcow => ?_)
  cases hf : vmas.find? fun v => decide (v.start ≤ va.1 ∧ va.1 < v.stop) with
  | none => simp
  | some v =>
    obtain ⟨hv, hhas⟩ := h.find_iff.mp hf
    simp [hok.area_outside hout hv hhas a hno hcow]

/-- Where neither the entry nor the COW bit helps, the area decides. -/
theorem permitted_area_iff {va : Nat} {a : Access} {pr : Nat}
    (hno : ¬ (pte 256 s.mem r (pageOf va)).grants a = true)
    (hcow : ¬ (a.isWrite = true ∧ (pte 256 s.mem r (pageOf va)).shared (pageOf va) = true))
    (hpop : Populable 256 s r (pageOf va)) (hpr : areaProt vmas va = some pr) :
    Permitted s r vmas va a ↔ a.grantedBy (areaFlags pr) = true := by
  unfold Permitted
  rw [or_iff_right hno, or_iff_right fun hc => hcow ⟨hc.1, hc.2.1⟩, and_iff_right hcow]
  simp [hpr, hpop]

lemma permitted_of_area {va : Nat} {a : Access} {pr : Nat}
    (hcow : ¬ (a.isWrite = true ∧ (pte 256 s.mem r (pageOf va)).shared (pageOf va) = true))
    (hpop : Populable 256 s r (pageOf va)) (hpr : areaProt vmas va = some pr)
    (hg : a.grantedBy (areaFlags pr) = true) : Permitted s r vmas va a :=
  .inr (.inr ⟨hcow, pr, hpr, hpop, hg⟩)

lemma populable_of_provides {p : Nat} (hb : ¬ Blocked 256 s.mem r p) (hmem : Provides s.pmm 4) :
    Populable 256 s r p := by
  refine ⟨hb, hmem.mono ?_⟩
  simp only [missing]
  split_ifs <;> omega

lemma MprotectOk.law (hok : MprotectOk s r vmas addr length prot)
    (h : ProtectCall R s r vmas addr length) : MprotectLaw s r vmas addr length prot := by
  have g := h.pages prot
  refine ⟨fun later va a hin hyes => ?_, fun va a hout => ?_⟩
  · have hareas : ∀ va : UserAddr, pageOf va ∈ munmapPages addr length → ∀ pr,
        areaProt (sysMprotect s r vmas addr length prot).2 va = some pr → _ := fun va hp pr hpr =>
      hok.area h ((h.inRange_iff va).mpr hp) hpr
    have hconf : Confined R r prot (· ∈ munmapPages addr length)
        ((accessStep r (sysMprotect s r vmas addr length prot).2).run
          (sysMprotect s r vmas addr length prot).1 later) :=
      Machine.run_invariant
        (fun _ op hc _ => (hc.access h.root (hareas op.1)).1)
        (hok.confined h g) (Machine.along_of_forall (fun _ _ => trivial) _ _)
    exact (hconf.access h.root (hareas va)).2 ((h.inRange_iff va).mp hin) hyes
  · have hb := h.clear (pageOf va) (by have := va.page_lt; omega)
    rw [Bool.eq_iff_iff, g.intact.access_iff h.root fun hb' => hb (g.clear _ hb'),
      h.intact.access_iff h.root hb, g.permitted_iff hb (mt (h.inRange_iff va).mpr hout),
      hok.permitted_iff h hout]

/-- The condition is necessary where there is memory to touch a page. -/
theorem MprotectLaw.ok (hlaw : MprotectLaw s r vmas addr length prot)
    (h : ProtectCall R s r vmas addr length) (hmem : Provides s.pmm 4) :
    MprotectOk s r vmas addr length prot := by
  have g := h.pages prot
  have hb : ∀ va : UserAddr, ¬ Blocked 256 s.mem r (pageOf va) := fun va =>
    h.clear _ (by have := va.page_lt; omega)
  have hpop : ∀ va : UserAddr, Populable 256 s r (pageOf va) :=
      fun va => populable_of_provides (hb va) hmem
  have harea : ∀ (va : UserAddr) {v : Vma}, v ∈ vmas → v.Has va →
      areaProt (sysMprotect s r vmas addr length prot).2 va =
        some (if v.Spans addr length then prot else v.prot) := fun va v hv hhas => by
    rw [h.areaProt_eq, h.find_iff.mpr ⟨hv, hhas⟩]
    rfl
  have hpte : ∀ va : UserAddr, InRange addr length va →
      (pte 256 s.mem r (pageOf va)).present = true →
      pte 256 (sysMprotect s r vmas addr length prot).1.mem r (pageOf va) =
        (pte 256 s.mem r (pageOf va)).protect prot := fun va hin hp => by
    rw [g.pte_eq, if_pos ⟨(h.inRange_iff va).mp hin, hp⟩]
  have hallow : ∀ (va : UserAddr) (a : Access), InRange addr length va →
      Permitted (sysMprotect s r vmas addr length prot).1 r
        (sysMprotect s r vmas addr length prot).2 va a →
      a.allowedBy prot = true := fun va a hin hperm =>
    hlaw.inside [] va a hin ((g.intact.access_iff h.root
      (fun hb' => hb va (g.clear _ hb')) _).mpr hperm)
  have hshared : ∀ va : UserAddr, InRange addr length va →
      (pte 256 s.mem r (pageOf va)).shared (pageOf va) = true → has prot protWrite = true :=
    fun va hin hsh => by
      have hp := shared_present hsh
      refine hallow va (.write 0) hin (.inr (.inl ⟨rfl, ?_, ?_, .inr ?_⟩))
      · rw [hpte va hin hp, protect_shared _ hp]
        exact hsh
      · rw [hpte va hin hp]
        exact (protect_has _ prot).1
      · rw [g.pmm]
        exact hmem.mono (by decide)
  refine ⟨fun va hin => ?_, hshared, fun va hin v hv hhas hs => ⟨fun hw => ?_, fun hx => ?_⟩,
    fun va hout v hv hhas hs => ?_⟩
  · rintro (hp | ⟨v, hv, hhas⟩)
    · refine hallow va .read hin (.inl ?_)
      rw [hpte va hin hp, protect_grants, Access.grantedBy_area]
    · refine hallow va .read hin (permitted_of_area (by simp [Access.isWrite])
        ((g.populable_iff (hb va)).mpr (hpop va)) (harea va hv hhas) ?_)
      rw [Access.grantedBy_area]
  · by_cases hsh : (pte 256 s.mem r (pageOf va)).shared (pageOf va) = true
    · exact hshared va hin hsh
    · refine hallow va (.write 0) hin (permitted_of_area (fun hc => hsh ?_)
        ((g.populable_iff (hb va)).mpr (hpop va)) (harea va hv hhas) ?_)
      · rw [g.pte_eq] at hc
        split_ifs at hc with hp
        · exact (protect_shared _ hp.2).symm.trans hc.2
        · exact hc.2
      · rw [if_neg hs, Access.grantedBy_area]
        exact hw
  · refine hallow va .fetch hin (permitted_of_area (by simp [Access.isWrite])
      ((g.populable_iff (hb va)).mpr (hpop va)) (harea va hv hhas) ?_)
    rw [if_neg hs, Access.grantedBy_area]
    exact hx
  · -- An access that the area alone decides about tells the old protection from the new one.
    have hsame : ∀ a : Access, ¬ (pte 256 s.mem r (pageOf va)).grants a = true →
        ¬ (a.isWrite = true ∧ (pte 256 s.mem r (pageOf va)).shared (pageOf va) = true) →
        a.grantedBy (areaFlags v.prot) = a.grantedBy (areaFlags prot) := fun a hno hcow => by
      have hacc := hlaw.outside va a hout
      rw [Bool.eq_iff_iff, g.intact.access_iff h.root fun hb' => hb va (g.clear _ hb'),
        h.intact.access_iff h.root (hb va), g.permitted_iff (hb va)
          (mt (h.inRange_iff va).mpr hout),
        permitted_area_iff hno hcow (hpop va) (harea va hv hhas), if_pos hs,
        permitted_area_iff hno hcow (hpop va)
          (by rw [areaProt, h.find_iff.mpr ⟨hv, hhas⟩]; rfl)] at hacc
      exact Bool.eq_iff_iff.mpr hacc.symm
    constructor
    · by_contra hc
      push Not at hc
      have := hsame (.write 0) (by simpa using hc.2.1) fun hsh => by simp [hc.2.2] at hsh
      rw [Access.grantedBy_area, Access.grantedBy_area] at this
      exact hc.1 this
    · by_contra hc
      push Not at hc
      have := hsame .fetch (by simpa using hc.2) (by simp [Access.isWrite])
      rw [Access.grantedBy_area, Access.grantedBy_area] at this
      exact hc.1 this

end Law

/-- The condition is sufficient for the law of `sys_mprotect`, and necessary where a frame and
the tables for it can be had. -/
theorem mprotect_law {R : Set Nat} {s : State} {r addr length prot : Nat} {vmas : List Vma}
    (h : Intact R s) (hr : r ∈ R) (hclear : ∀ p < 2 ^ 35, ¬ Blocked 256 s.mem r p)
    (hapart : vmas.Pairwise fun v w => v.stop ≤ w.start ∨ w.stop ≤ v.start) (ha : pageSize ∣ addr)
    (hlen : 0 < length) (hend : addr + length ≤ userEnd) :
    (MprotectOk s r vmas addr length prot → MprotectLaw s r vmas addr length prot) ∧
      (Provides s.pmm 4 → MprotectLaw s r vmas addr length prot →
        MprotectOk s r vmas addr length prot) :=
  have hcall : ProtectCall R s r vmas addr length := ⟨h, hr, hclear, hapart, ha, hlen, hend⟩
  ⟨fun hok => hok.law hcall, fun hmem hlaw => hlaw.ok hcall hmem⟩

lemma intact_blank {pmm : Pmm.State} (hs : Sound 256 {2 ^ 20} ⟨fun _ => 0, pmm, 0⟩)
    (hc : SmallCounts pmm) : Intact {2 ^ 20} ⟨fun _ => 0, pmm, 0⟩ :=
  ⟨hs, hc, fun r _ p hp => by rw [pte_blank] at hp; exact absurd hp (by decide)⟩

/-- An area of one page that was never touched becomes read-only. -/
theorem mprotect_law_onePage : ∃ pmm, pmmInit [fivePages] = some pmm ∧
    MprotectLaw ⟨fun _ => 0, pmm, 0⟩ (2 ^ 20) [⟨0x400000, 0x401000, 3⟩] 0x400000 0x1000 1 := by
  obtain ⟨pmm, h0, hrun, hheld⟩ := fivePages_running
  have hblank := sound_oneRoot hrun hheld
  refine ⟨pmm, h0, (mprotect_law (intact_blank hblank hrun.smallCounts) rfl
    (fun p _ => not_blocked_blank _ _ p) (by decide) (by decide) (by decide) (by decide)).1 ?_⟩
  refine ⟨fun _ _ _ => by decide, fun va _ hsh => ?_, fun va _ v hv _ hs => absurd ?_ hs,
    fun va hout v hv hhas _ => absurd ?_ hout⟩
  · have hp := shared_present hsh
    rw [pte_blank] at hp
    exact absurd hp (by decide)
  · obtain rfl := mem_singleton.mp hv
    decide
  · obtain rfl := mem_singleton.mp hv
    exact hhas

/-- The first of two pages of an area becomes read-only: the second one, never touched, can no
longer be written. And a page that is to be inaccessible is still read. -/
theorem mprotect_breaks : ∃ pmm, pmmInit [fivePages] = some pmm ∧
    ¬ MprotectLaw ⟨fun _ => 0, pmm, 0⟩ (2 ^ 20) [⟨0x400000, 0x402000, 3⟩] 0x400000 0x1000 1 ∧
    ¬ MprotectLaw ⟨fun _ => 0, pmm, 0⟩ (2 ^ 20) [⟨0x400000, 0x401000, 3⟩] 0x400000 0x1000 0 := by
  obtain ⟨pmm, h0, -⟩ := fivePages_running
  have hval : ∀ pmm ∈ pmmInit [fivePages],
      (let s : State := ⟨fun _ => 0, pmm, 0⟩
      let out := sysMprotect s (2 ^ 20) [⟨0x400000, 0x402000, 3⟩] 0x400000 0x1000 1
      (userAccess out.1 (2 ^ 20) out.2 0x401000 (.write 0)).1 = false ∧
        (userAccess s (2 ^ 20) [⟨0x400000, 0x402000, 3⟩] 0x401000 (.write 0)).1 = true) ∧
      let out := sysMprotect ⟨fun _ => 0, pmm, 0⟩ (2 ^ 20)
        [⟨0x400000, 0x401000, 3⟩] 0x400000 0x1000 0
      (userAccess out.1 (2 ^ 20) out.2 0x400000 .read).1 = true := by
    decide +kernel
  obtain ⟨⟨hafter, hbefore⟩, hread⟩ := hval pmm h0
  have : pageCount 0x1000 = 1 := by decide
  refine ⟨pmm, h0, fun law => ?_, fun law => ?_⟩
  · have := law.outside ⟨0x401000, by decide⟩ (.write 0) (by rw [InRange]; decide)
    rw [hafter, hbefore] at this
    exact absurd this (by decide)
  · exact absurd (law.inside [] ⟨0x400000, by decide⟩ .read (by rw [InRange]; decide) hread)
      (by decide)

end YamKernel.Vmm

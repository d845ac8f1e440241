import Mathlib.Tactic.Linarith
import YamKernel.Fs.Bcache.Model

/-!
# The block cache refines an array of sectors

`Coherent` relates the cache and the devices to the array: a cached page holds the array's
sectors, and the device holds them wherever no dirty page covers it. Every operation keeps
it while the device operations it issues succeed; which entry is evicted plays no part.
-/

namespace YamKernel.Bcache

open Lib List Function State

variable {δ σ : Type*} [DecidableEq δ]
variable {d : δ} {env : Env δ} {i lba p : Nat} {is : List Nat} {s : State δ σ}

/-! ## The array -/

/-- Store the sectors one after the other; addresses wrap as in the source. -/
def storeSectors (a : Nat → σ) : Nat → List σ → Nat → σ
  | _, [] => a
  | lba, x :: xs => storeSectors (update a (u64 lba) x) (lba + 1) xs

/-- A plain array of sectors for each device, without a cache. -/
def arrayStep (env : Env δ) : Machine (δ → Nat → σ) (Op δ σ) (Option (List σ))
  | a, .read (some d) lba count =>
    (if (env.device d).hasRead then
      some ((range count).map fun i => a d (u64 (lba + i))) else none, a)
  | a, .write (some d) lba buf =>
    if (env.device d).hasWrite then
      (some [], update a d (storeSectors (a d) lba buf)) else (none, a)
  | a, .read none _ _ => (none, a)
  | a, .write none _ _ => (none, a)
  | a, .flush _ => (some [], a)

lemma storeSectors_append (a : Nat → σ) (lba : Nat) (xs ys : List σ) :
    storeSectors a lba (xs ++ ys) = storeSectors (storeSectors a lba xs) (lba + xs.length) ys := by
  induction xs generalizing a lba with
  | nil => rfl
  | cons x xs ih => rw [cons_append, storeSectors, storeSectors, ih, length_cons, add_assoc,
    add_comm 1]

lemma storeSectors_congr (a : Nat → σ) {lba' : Nat} (h : u64 lba = u64 lba') (xs : List σ) :
    storeSectors a lba xs = storeSectors a lba' xs := by
  induction xs generalizing a lba lba' with
  | nil => rfl
  | cons x xs ih =>
    rw [storeSectors, h]
    exact ih _ (by unfold u64 at *; omega)

lemma storeSectors_apply (a : Nat → σ) {xs : List σ} (h : lba + xs.length ≤ 2 ^ 64) (k : Nat) :
    storeSectors a lba xs k =
      if lba ≤ k then (xs[k - lba]?).getD (a k) else a k := by
  induction xs generalizing a lba with
  | nil => simp [storeSectors]
  | cons x xs ih =>
    rw [length_cons] at h
    rw [storeSectors, ih _ (by omega), u64_of_lt]
    by_cases h1 : lba + 1 ≤ k
    · have h2 : k - lba = (k - (lba + 1)) + 1 := by omega
      simp [h1, show lba ≤ k by omega, h2, show k ≠ lba by omega]
    · by_cases h3 : k = lba
      · subst h3; simp
      · simp [h1, h3, show ¬ lba ≤ k by omega]

/-! ## Coherence -/

def pageOf (a : Nat) : Nat := a / 8 * 8

/-- `stale i k`: sector `k` of entry `i` is about to be overwritten and need not be right. -/
structure Coherent (env : Env δ) (s : State δ σ) (arr : δ → Nat → σ)
    (stale : Nat → Nat → Prop) : Prop where
  nodup : ∀ i < bcacheMaxPages, ∀ j < bcacheMaxPages, ∀ d, (s.cache i).dev = some d →
    (s.cache j).dev = some d → (s.cache i).pageLba = (s.cache j).pageLba → i = j
  page : ∀ i < bcacheMaxPages, ∀ d, (s.cache i).dev = some d →
    8 ∣ (s.cache i).pageLba ∧ (s.cache i).sectors = 8 ∧
      ((s.cache i).dirty = true → (env.device d).hasWrite = true)
  data : ∀ i < bcacheMaxPages, ∀ d, (s.cache i).dev = some d → ∀ k < 8, ¬ stale i k →
    (s.cache i).data k = arr d ((s.cache i).pageLba + k)
  disk : ∀ d a, (∀ i < bcacheMaxPages, (s.cache i).dev = some d →
    (s.cache i).pageLba = pageOf a → (s.cache i).dirty = false) → s.disk d a = arr d a

/-- Nothing is stale: the state between two calls. -/
abbrev Clean (env : Env δ) (s : State δ σ) (arr : δ → Nat → σ) : Prop :=
  Coherent env s arr fun _ _ => False

/-- The entry keeps what coherence looks at. -/
structure Entry.Same (e e' : Entry δ σ) : Prop where
  dev : e'.dev = e.dev
  pageLba : e'.pageLba = e.pageLba
  sectors : e'.sectors = e.sectors
  dirty : e'.dirty = e.dirty
  data : e'.data = e.data

section Coherent

variable {s' : State δ σ} {arr : δ → Nat → σ} {stale : Nat → Nat → Prop} {arr' : δ → Nat → σ}
  {stale' : Nat → Nat → Prop} {e : Entry δ σ} {fetch : Bool} {fuel remaining : Nat}

omit [DecidableEq δ] in
lemma Coherent.congr (h : Coherent env s arr stale) (he : ∀ i, (s.cache i).Same (s'.cache i))
    (hd : s'.disk = s.disk) : Coherent env s' arr stale := by
  refine ⟨fun i hi j hj d => ?_, fun i hi d => ?_, fun i hi d => ?_, fun d a => ?_⟩
  · rw [(he i).dev, (he j).dev, (he i).pageLba, (he j).pageLba]; exact h.nodup i hi j hj d
  · rw [(he i).dev, (he i).pageLba, (he i).sectors, (he i).dirty]; exact h.page i hi d
  · rw [(he i).dev, (he i).pageLba, (he i).data]; exact h.data i hi d
  · simp only [hd, (he _).dev, (he _).pageLba, (he _).dirty]; exact h.disk d a

omit [DecidableEq δ] in
lemma Coherent.weaken (h : Coherent env s arr stale)
    (hs : ∀ i k, stale i k → stale' i k) : Coherent env s arr stale' :=
  ⟨h.nodup, h.page, fun i hi d hd k hk hn => h.data i hi d hd k hk fun hst => hn (hs i k hst),
    h.disk⟩

lemma pageOf_add {k : Nat} (hp : 8 ∣ p) (hk : k < 8) : pageOf (p + k) = p := by
  unfold pageOf; omega

lemma writeBack_cache (env : Env δ) (s : State δ σ) (i : Nat) (d : δ) :
    (writeBack env s i d).cache = update s.cache i { s.cache i with dirty := false } := by
  simp only [writeBack, devWrite]
  split_ifs <;> rfl

lemma writeBack_failed (i : Nat) (d : δ) : s.failed ≤ (writeBack env s i d).failed := by
  simp only [writeBack, setEntry, devWrite]
  split_ifs <;> simp

omit [DecidableEq δ] in
/-- Entry `i`, whose data may be stale, is replaced; the array and the devices may change. -/
theorem Coherent.replace (h : Coherent env s arr fun j _ => j = i) (hi : i < bcacheMaxPages)
    (hs : s'.cache = update s.cache i e)
    (hpage : ∀ d, e.dev = some d → 8 ∣ e.pageLba ∧ e.sectors = 8 ∧
      (e.dirty = true → (env.device d).hasWrite = true))
    (hnodup : ∀ j < bcacheMaxPages, j ≠ i → ∀ d, e.dev = some d → (s.cache j).dev = some d →
      (s.cache j).pageLba ≠ e.pageLba)
    (hdata : ∀ d, e.dev = some d → ∀ k < 8, ¬ stale' i k → e.data k = arr' d (e.pageLba + k))
    (harr : ∀ j < bcacheMaxPages, j ≠ i → ∀ d, (s.cache j).dev = some d → ∀ k < 8,
      arr' d ((s.cache j).pageLba + k) = arr d ((s.cache j).pageLba + k))
    (hdisk : ∀ d a, (e.dev = some d → e.pageLba = pageOf a → e.dirty = false) →
      (∀ j < bcacheMaxPages, j ≠ i → (s.cache j).dev = some d →
        (s.cache j).pageLba = pageOf a → (s.cache j).dirty = false) → s'.disk d a = arr' d a) :
    Coherent env s' arr' stale' := by
  have hself : s'.cache i = e := by rw [hs, update_self]
  have hother : ∀ j, j ≠ i → s'.cache j = s.cache j := fun j hj => by rw [hs, update_of_ne hj]
  refine ⟨fun j hj l hl d hdj hdl hp => ?_, fun j hj d hd => ?_, fun j hj d hd k hk hst => ?_,
    fun d a hcov => hdisk d a (fun hd => ?_) fun j hj hji => ?_⟩
  · by_cases hji : j = i <;> by_cases hli : l = i
    · rw [hji, hli]
    · rw [hji, hself] at hdj hp
      rw [hother l hli] at hdl hp
      exact absurd hp.symm (hnodup l hl hli d hdj hdl)
    · rw [hli, hself] at hdl hp
      rw [hother j hji] at hdj hp
      exact absurd hp (hnodup j hj hji d hdl hdj)
    · rw [hother j hji] at hdj hp
      rw [hother l hli] at hdl hp
      exact h.nodup j hj l hl d hdj hdl hp
  · by_cases hji : j = i
    · rw [hji, hself] at hd ⊢
      exact hpage d hd
    · rw [hother j hji] at hd ⊢
      exact h.page j hj d hd
  · by_cases hji : j = i
    · subst hji
      rw [hself] at hd ⊢
      exact hdata d hd k hk hst
    · rw [hother j hji] at hd ⊢
      rw [h.data j hj d hd k hk hji, harr j hj hji d hd k hk]
  · have := hcov i hi
    rw [hself] at this
    exact this hd
  · have := hcov j hj
    rwa [hother j hji] at this

lemma Clean.writeBack (h : Clean env s arr) (hi : i < bcacheMaxPages)
    (hd : (s.cache i).dev = some d) (hdirty : (s.cache i).dirty = true)
    (hok : (writeBack env s i d).failed = s.failed) : Clean env (writeBack env s i d) arr := by
  obtain ⟨halign, hsect, hwrite⟩ := h.page i hi d hd
  replace hwrite := hwrite hdirty
  refine (h.weaken fun _ _ hf => hf.elim).replace hi (writeBack_cache env s i d)
    (fun d' hd' => ⟨halign, hsect, nofun⟩)
    (fun j hj hji d' hd' hdj hp => hji (h.nodup j hj i hi d' hdj hd' hp)) (h.data i hi)
    (fun _ _ _ _ _ _ _ => rfl) fun d' a _ hcov => ?_
  have hio : env.ok s.io = true := by
    by_contra hno
    simp [Bcache.writeBack, setEntry, hwrite, devWrite, hno] at hok
  simp only [Bcache.writeBack, setEntry, hwrite, devWrite, hio, if_true]
  by_cases hon : d' = d ∧ pageOf a = (s.cache i).pageLba
  · obtain ⟨rfl, hpa⟩ := hon
    unfold pageOf at hpa
    rw [update_self, if_pos (by omega), h.data i hi d' hd _ (by omega) (fun hf => hf)]
    congr 1
    omega
  · have : s.disk d' a = arr d' a := h.disk d' a fun j hj hdj hpj => hcov j hj (by
      rintro rfl
      exact hon ⟨Option.some.inj (hdj.symm.trans hd), hpj.symm⟩) hdj hpj
    by_cases hdd : d' = d
    · subst hdd
      rwa [update_self, if_neg fun hc => hon ⟨rfl, by unfold pageOf; omega⟩]
    · rwa [update_of_ne hdd]

omit [DecidableEq δ] in
lemma Coherent.drop (h : Coherent env s arr fun j _ => j = i) (hi : i < bcacheMaxPages)
    (hs : s'.cache = update s.cache i { s.cache i with dev := none }) (hdisk : s'.disk = s.disk)
    (hc : (s.cache i).dev ≠ none → (s.cache i).dirty = false) : Clean env s' arr := by
  refine h.replace hi hs nofun (fun _ _ _ _ => nofun) nofun (fun _ _ _ _ _ _ _ => rfl)
    fun d a _ hcov => ?_
  rw [hdisk]
  refine h.disk d a fun j hj hdj hpj => ?_
  by_cases hji : j = i
  · subst hji; exact hc (by rw [hdj]; simp)
  · exact hcov j hj hji hdj hpj

omit [DecidableEq δ] in
lemma Clean.drop (h : Clean env s arr) (hi : i < bcacheMaxPages)
    (hc : (s.cache i).dev ≠ none → (s.cache i).dirty = false) :
    Clean env (s.setEntry i { s.cache i with dev := none }) arr :=
  Coherent.drop (h.weaken fun _ _ hf => hf.elim) hi rfl rfl hc

lemma bcacheEvict_failed (i : Nat) : s.failed ≤ (bcacheEvict env s i).failed := by
  unfold bcacheEvict
  cases (s.cache i).dev with
  | none => exact le_rfl
  | some d =>
    split_ifs
    · exact writeBack_failed i d
    · exact le_rfl

lemma bcacheEvict_dev (i : Nat) : ((bcacheEvict env s i).cache i).dev = none := by
  simp [bcacheEvict, setEntry]

lemma Clean.evict (h : Clean env s arr) (hi : i < bcacheMaxPages)
    (hok : (bcacheEvict env s i).failed = s.failed) : Clean env (bcacheEvict env s i) arr := by
  unfold bcacheEvict at hok ⊢
  cases hd : (s.cache i).dev with
  | none => exact h.drop hi fun hne => absurd hd hne
  | some d =>
    simp only [hd] at hok
    by_cases hdirty : (s.cache i).dirty = true
    · simp only [hdirty] at hok ⊢
      refine (h.writeBack hi hd hdirty hok).drop hi fun _ => ?_
      rw [writeBack_cache, update_self]
    · simp only [hdirty] at ⊢
      exact h.drop hi fun _ => by simpa using hdirty

omit [DecidableEq δ] in
/-- An empty slot may take a page that is not cached; its data are stale. -/
theorem Clean.claim (h : Clean env s arr) (hi : i < bcacheMaxPages) (hfree : (s.cache i).dev = none)
    (hp : 8 ∣ p)
    (habsent : ∀ j < bcacheMaxPages, (s.cache j).dev = some d → (s.cache j).pageLba ≠ p) :
    Coherent env (claimEntry s i d p 8) arr fun j _ => j = i := by
  refine (h.weaken fun _ _ hf => hf.elim).replace hi rfl (fun _ _ => ⟨hp, rfl, nofun⟩) ?_
    (fun _ _ _ _ hst => absurd rfl hst) (fun _ _ _ _ _ _ _ => rfl) fun d' a _ hcov => ?_
  · rintro j hj - d' hd' hdj
    obtain rfl := Option.some.inj hd'
    exact habsent j hj hdj
  · refine h.disk d' a fun j hj hdj hpj => hcov j hj ?_ hdj hpj
    rintro rfl
    simp [hfree] at hdj

variable (env s) in
lemma evict_cache_of_ne {j : Nat} (hj : j ≠ i) :
    ((bcacheEvict env s i).cache j).dev = (s.cache j).dev ∧
      ((bcacheEvict env s i).cache j).pageLba = (s.cache j).pageLba := by
  unfold bcacheEvict
  cases (s.cache i).dev with
  | none => simp [setEntry, hj]
  | some d =>
    simp only [setEntry, update_of_ne hj]
    split_ifs
    · simp [writeBack_cache, hj]
    · exact ⟨rfl, rfl⟩

omit [DecidableEq δ] in
/-- Entry `i` gets new data, and the array new sectors on its page only. -/
theorem Coherent.setData (h : Coherent env s arr fun j _ => j = i)
    (hi : i < bcacheMaxPages) (hd : (s.cache i).dev = some d) (hp : (s.cache i).pageLba = p)
    (hs : s'.cache = update s.cache i e) (hdisk : s'.disk = s.disk)
    (hde : e.dev = some d) (hpe : e.pageLba = p) (hse : e.sectors = (s.cache i).sectors)
    (harr : ∀ d' a, ¬ (d' = d ∧ pageOf a = p) → arr' d' a = arr d' a)
    (hdata : ∀ k < 8, e.data k = arr' d (p + k))
    (hdirty : e.dirty = true → (env.device d).hasWrite = true)
    (hclean : e.dirty = false → ∀ a, pageOf a = p → s.disk d a = arr' d a) :
    Clean env s' arr' := by
  obtain ⟨halign, hsect, -⟩ := h.page i hi d hd
  have hdev : ∀ {d'}, e.dev = some d' → d' = d := fun hd' => Option.some.inj (hd'.symm.trans hde)
  have hfar : ∀ j < bcacheMaxPages, j ≠ i → (s.cache j).dev = some d → (s.cache j).pageLba ≠ p :=
    fun j hj hji hdj hpj => hji (h.nodup j hj i hi d hdj hd (hpj.trans hp.symm))
  rw [hp] at halign
  rw [← hse] at hsect
  subst hpe
  refine h.replace hi hs (fun d' hd' => ⟨halign, hsect, hdev hd' ▸ hdirty⟩)
    (fun j hj hji d' hd' => hdev hd' ▸ hfar j hj hji) (fun d' hd' k hk _ => hdev hd' ▸ hdata k hk)
    (fun j hj hji d' hdj k hk => harr d' _ ?_) fun d' a hcov hrest => ?_
  · rw [pageOf_add (h.page j hj d' hdj).1 hk]
    rintro ⟨rfl, hpj⟩
    exact hfar j hj hji hdj hpj
  · rw [hdisk]
    by_cases hon : d' = d ∧ pageOf a = e.pageLba
    · obtain ⟨rfl, hpa⟩ := hon
      exact hclean (hcov hde hpa.symm) a hpa
    · rw [harr d' a hon]
      refine h.disk d' a fun j hj hdj hpj => hrest j hj ?_ hdj hpj
      rintro rfl
      exact hon ⟨Option.some.inj (hdj.symm.trans hd), hpj.symm.trans hp⟩

/-! ## Finding and making room for a page -/

lemma bcacheFind_some (hf : bcacheFind s d p = (some i, s')) :
    i < bcacheMaxPages ∧ (s.cache i).dev = some d ∧ (s.cache i).pageLba = p ∧
      (∀ j, (s.cache j).Same (s'.cache j)) ∧ s'.disk = s.disk ∧ s'.failed = s.failed := by
  unfold bcacheFind at hf
  split at hf
  · next j hj =>
    have hi := find?_some hj
    have hm := mem_of_find?_eq_some hj
    simp only [decide_eq_true_eq] at hi
    obtain ⟨hji, rfl⟩ := Prod.mk.inj hf
    obtain rfl := Option.some.inj hji
    refine ⟨mem_range.mp hm, hi.1, hi.2, fun l => ?_, rfl, rfl⟩
    by_cases hl : l = j <;> constructor <;> simp [setEntry, hl]
  · simp at hf

lemma bcacheFind_none (hf : bcacheFind s d p = (none, s')) :
    s' = s ∧ ∀ j < bcacheMaxPages, (s.cache j).dev = some d → (s.cache j).pageLba ≠ p := by
  unfold bcacheFind at hf
  split at hf
  · simp at hf
  · next hnone =>
    refine ⟨(Prod.mk.inj hf).2.symm, fun j hj hd hp => ?_⟩
    have := find?_eq_none.mp hnone j (mem_range.mpr hj)
    simp [hd, hp] at this

omit [DecidableEq δ] in
lemma allocScan_inl {cache : Nat → Entry δ σ} {i₀ t₀ : Nat}
    (h : allocScan cache is i₀ t₀ = .inl i) : i ∈ is ∧ (cache i).dev = none := by
  induction is generalizing i₀ t₀ with
  | nil => simp [allocScan] at h
  | cons j js ih =>
    rw [allocScan] at h
    split_ifs at h with h1 h2
    · obtain rfl := Sum.inl.inj h
      exact ⟨by simp, by simpa using h1⟩
    · exact (ih h).imp_left (mem_cons_of_mem j)
    · exact (ih h).imp_left (mem_cons_of_mem j)

omit [DecidableEq δ] in
lemma allocScan_inr {cache : Nat → Entry δ σ} {i₀ t₀ : Nat}
    (h : allocScan cache is i₀ t₀ = .inr i) : i = i₀ ∨ i ∈ is := by
  induction is generalizing i₀ t₀ with
  | nil => exact .inl (Sum.inr.inj h).symm
  | cons j js ih =>
    rw [allocScan] at h
    split_ifs at h
    · rcases ih h with rfl | hm
      · exact .inr (by simp)
      · exact .inr (mem_cons_of_mem j hm)
    · exact (ih h).imp_right (mem_cons_of_mem j)

variable (env s) in
lemma bcacheAlloc_failed (d : δ) (p n : Nat) : s.failed ≤ (bcacheAlloc env s d p n).2.failed := by
  unfold bcacheAlloc
  split
  · exact le_rfl
  · exact bcacheEvict_failed _

lemma Clean.alloc (h : Clean env s arr) (hp : 8 ∣ p)
    (habsent : ∀ j < bcacheMaxPages, (s.cache j).dev = some d → (s.cache j).pageLba ≠ p)
    (he : bcacheAlloc env s d p 8 = (i, s')) (hok : s'.failed = s.failed) :
    i < bcacheMaxPages ∧ Coherent env s' arr (fun j _ => j = i) ∧
      (s'.cache i).dev = some d ∧ (s'.cache i).pageLba = p ∧ (s'.cache i).dirty = false := by
  unfold bcacheAlloc at he
  split at he
  · next j hj =>
    obtain ⟨rfl, rfl⟩ := Prod.mk.inj he
    obtain ⟨hm, hfree⟩ := allocScan_inl hj
    have hi := mem_range.mp hm
    exact ⟨hi, h.claim hi hfree hp habsent, by simp [claimEntry, setEntry]⟩
  · next j hj =>
    obtain ⟨rfl, rfl⟩ := Prod.mk.inj he
    have hi : j < bcacheMaxPages := by
      rcases allocScan_inr hj with rfl | hm
      · decide
      · exact mem_range.mp hm
    refine ⟨hi, (h.evict hi hok).claim hi (bcacheEvict_dev j) hp fun l hl hd hpl => ?_,
      by simp [claimEntry, setEntry]⟩
    have hlj : l ≠ j := by rintro rfl; rw [bcacheEvict_dev] at hd; simp at hd
    have hold := evict_cache_of_ne env s hlj
    rw [hold.1] at hd
    rw [hold.2] at hpl
    exact habsent l hl hd hpl

/-- The operations that fail are those of a call that reports an error, and more. -/
def Counted {α : Type*} (s : State δ σ) (r : Option α × State δ σ) : Prop :=
  s.failed + (if r.1 = none then 1 else 0) ≤ r.2.failed

/-- No operation fails but the read that an error reports. -/
def Accounts {α : Type*} (s : State δ σ) (r : Option α × State δ σ) : Prop :=
  r.2.failed ≤ s.failed + if r.1 = none then 1 else 0

variable (env s) in
lemma getPage_failed (d : δ) (p n : Nat) (fetch : Bool) :
    Counted s (getPage env s d p n fetch) := by
  unfold getPage
  cases hfind : bcacheFind s d p with
  | mk found s1 =>
  cases found with
  | some i => exact (bcacheFind_some hfind).2.2.2.2.2.ge
  | none =>
    obtain ⟨rfl, -⟩ := bcacheFind_none hfind
    have hmono := bcacheAlloc_failed env s1 d p n
    dsimp only
    cases fetch with
    | false => exact hmono
    | true =>
      simp only [if_true]
      unfold devRead
      split_ifs
      · exact hmono
      · exact Nat.succ_le_succ hmono

/-- After `getPage` the page is cached, and only a page that was not fetched is stale; or the
page could not be fetched. -/
theorem Clean.getPage (h : Clean env s arr) {r : Option Nat} (hp : 8 ∣ p)
    (he : getPage env s d p 8 fetch = (r, s')) (hok : Accounts s (r, s')) :
    (r = none → Clean env s' arr) ∧ ∀ i, r = some i → i < bcacheMaxPages ∧
      (s'.cache i).dev = some d ∧ (s'.cache i).pageLba = p ∧
      Coherent env s' arr fun j _ => j = i ∧ fetch = false := by
  unfold Bcache.getPage at he
  cases hfind : bcacheFind s d p with
  | mk found s1 =>
  rw [hfind] at he
  cases found with
  | some i =>
    obtain ⟨rfl, rfl⟩ := Prod.mk.inj he
    obtain ⟨hi, hd, hpl, hsame, hdisk, hfail⟩ := bcacheFind_some hfind
    refine ⟨nofun, ?_⟩
    rintro _ ⟨⟩
    refine ⟨hi, by rw [(hsame i).dev, hd], by rw [(hsame i).pageLba, hpl], ?_⟩
    exact (h.congr hsame hdisk).weaken fun _ _ hf => hf.elim
  | none =>
    obtain ⟨rfl, habsent⟩ := bcacheFind_none hfind
    dsimp only at he
    have hmono := bcacheAlloc_failed env s1 d p 8
    cases halloc : bcacheAlloc env s1 d p 8 with
    | mk i s2 =>
    rw [halloc] at he hmono
    have hroom := fun hle => h.alloc hp habsent halloc (le_antisymm hle hmono)
    cases fetch with
    | false =>
      obtain ⟨rfl, rfl⟩ := Prod.mk.inj he
      obtain ⟨hi, hc, hd, hpl, -⟩ := hroom hok
      refine ⟨nofun, ?_⟩
      rintro _ ⟨⟩
      exact ⟨hi, hd, hpl, hc.weaken fun _ _ hj => ⟨hj, rfl⟩⟩
    | true =>
      simp only [if_true] at he
      unfold devRead at he
      split_ifs at he <;> obtain ⟨rfl, rfl⟩ := Prod.mk.inj he
      · obtain ⟨hi, hc, hd, hpl, hclean⟩ := hroom hok
        refine ⟨nofun, ?_⟩
        rintro _ ⟨⟩
        refine ⟨hi, by simpa [setEntry] using hd, by simpa [setEntry] using hpl, ?_⟩
        -- The slot is clean, so the device still holds the array on this page.
        have hdisk : ∀ a, pageOf a = p → s2.disk d a = arr d a := fun a ha =>
          hc.disk d a fun j hj hdj hpj => by
            rw [hc.nodup j hj i hi d hdj hd (by rw [hpj, ha, hpl]), hclean]
        suffices hc1 : Coherent env _ arr fun _ _ => False from
          hc1.weaken fun _ _ hf => hf.elim
        refine hc.setData hi hd hpl rfl rfl hd hpl rfl (fun _ _ _ => rfl) (fun k hk => ?_)
          (fun hdirty => absurd hdirty (by simp [hclean])) fun _ => hdisk
        simp only [hk]
        exact hdisk _ (pageOf_add hp hk)
      · obtain ⟨hi, hc, -, -, hclean⟩ := hroom (Nat.le_of_succ_le_succ hok)
        exact ⟨fun _ => hc.drop hi rfl rfl fun _ => hclean, nofun⟩

/-! ## Reading and writing -/

lemma chunk_bounds (hlba : lba < 2 ^ 64) (hr : remaining ≠ 0) :
    8 ∣ lba / 8 * 8 ∧ lba / 8 * 8 + (lba - lba / 8 * 8) = lba ∧
      lba - lba / 8 * 8 + min (8 - (lba - lba / 8 * 8)) remaining ≤ 8 ∧
      0 < min (8 - (lba - lba / 8 * 8)) remaining ∧
      min (8 - (lba - lba / 8 * 8)) remaining ≤ remaining ∧
      lba + min (8 - (lba - lba / 8 * 8)) remaining ≤ 2 ^ 64 := by
  omega

variable (env s) in
lemma readLoop_failed (d : δ) (spp fuel lba remaining : Nat) :
    Counted s (readLoop env d spp fuel s lba remaining) := by
  induction fuel generalizing s lba remaining with
  | zero => exact le_rfl
  | succ fuel ih =>
    rw [readLoop]
    split_ifs
    · exact le_rfl
    dsimp only
    have hmono := getPage_failed env s d (lba / spp * spp) spp true
    split
    · next s1 hg => rwa [hg] at hmono
    · next i s1 hg =>
      rw [hg] at hmono
      have hrest := ih s1 (u64 (lba + min (spp - (lba - lba / spp * spp)) remaining))
        (remaining - min (spp - (lba - lba / spp * spp)) remaining)
      simp only [Counted, Option.map_eq_none_iff] at hmono hrest ⊢
      exact (Nat.add_le_add_right hmono _).trans hrest

/-- A read returns the array, or reports an error; it leaves the array as it was. -/
theorem Clean.readLoop (h : Clean env s arr) (hlba : lba < 2 ^ 64)
    (hf : remaining ≤ fuel) (hok : Accounts s (readLoop env d 8 fuel s lba remaining)) :
    Clean env (readLoop env d 8 fuel s lba remaining).2 arr ∧
      ((readLoop env d 8 fuel s lba remaining).1 = none ∨
        (readLoop env d 8 fuel s lba remaining).1 =
          some ((range remaining).map fun k => arr d (u64 (lba + k)))) := by
  induction fuel generalizing s lba remaining with
  | zero =>
    obtain rfl : remaining = 0 := by omega
    exact ⟨h, .inr rfl⟩
  | succ fuel ih =>
    rw [readLoop] at hok ⊢
    split_ifs at hok ⊢ with hr
    · subst hr; exact ⟨h, .inr rfl⟩
    obtain ⟨halign, hsum, hpage, hpos, hle, hend⟩ := chunk_bounds hlba hr
    dsimp only at hok ⊢
    generalize min (8 - (lba - lba / 8 * 8)) remaining = n at *
    generalize lba - lba / 8 * 8 = off at *
    generalize lba / 8 * 8 = p at *
    have hmono := getPage_failed env s d p 8 true
    cases hg : Bcache.getPage env s d p 8 true with
    | mk found s1 =>
    rw [hg] at hok hmono
    cases found with
    | none => exact ⟨(h.getPage halign hg hok).1 rfl, .inl rfl⟩
    | some i =>
      have hmono' := readLoop_failed env s1 d 8 fuel (u64 (lba + n)) (remaining - n)
      simp only [Counted, Accounts, Option.map_eq_none_iff] at hok hmono hmono' ⊢
      obtain ⟨hi, hd, hpl, hc⟩ :=
        (h.getPage halign hg (show s1.failed ≤ s.failed + 0 by omega)).2 i rfl
      have hc1 : Clean env s1 arr := hc.weaken fun _ _ hf => absurd hf.2 (by simp)
      obtain ⟨hc2, hrest⟩ := ih hc1 (u64_lt _) (by omega) (hok.trans (by omega))
      refine ⟨hc2, hrest.imp_right fun hrest => ?_⟩
      rw [hrest, Option.map_some]
      congr 1
      -- The chunk comes from the page, the rest from the remaining iterations.
      obtain ⟨m, rfl⟩ : ∃ m, remaining = n + m := ⟨remaining - n, by omega⟩
      rw [range_add, map_append, Nat.add_sub_cancel_left, map_map]
      congr 1
      · refine map_congr_left fun k hk => ?_
        have hk := mem_range.mp hk
        rw [hc1.data i hi d hd (off + k) (by omega) (fun hf => hf), u64_of_lt]
        congr 1
        omega
      · refine map_congr_left fun k _ => ?_
        simp only [comp_apply]
        congr 1
        unfold u64
        omega

variable (env s) in
lemma writeLoop_failed (d : δ) (spp fuel lba : Nat) (buf : List σ) :
    Counted s (writeLoop env d spp fuel s lba buf) := by
  induction fuel generalizing s lba buf with
  | zero => exact le_rfl
  | succ fuel ih =>
    rw [writeLoop]
    split_ifs
    · exact le_rfl
    dsimp only
    have hmono := getPage_failed env s d (lba / spp * spp) spp
      (min (spp - (lba - lba / spp * spp)) buf.length < spp)
    split
    · next s1 hg => rwa [hg] at hmono
    · next i s1 hg =>
      rw [hg] at hmono
      exact (Nat.add_le_add_right hmono _).trans (ih (s1.setEntry i (fillEntry _ _ _)) _ _)

/-- The chunk written into the page is the chunk stored into the array. -/
theorem Coherent.fill (h : Coherent env s arr fun j _ => j = i ∧ fetch = false)
    (off : Nat) (buf : List σ) (hi : i < bcacheMaxPages) (hd : (s.cache i).dev = some d)
    (hp : (s.cache i).pageLba = p) (halign : 8 ∣ p) (hfit : off + buf.length ≤ 8)
    (hfull : fetch = false → off = 0 ∧ buf.length = 8) (hend : p + off + buf.length ≤ 2 ^ 64)
    (hw : (env.device d).hasWrite = true) :
    Clean env (s.setEntry i (fillEntry (s.cache i) off buf))
      (update arr d (storeSectors (arr d) (p + off) buf)) := by
  refine (h.weaken fun _ _ hj => hj.1).setData hi hd hp rfl rfl hd hp rfl (fun d' a hn => ?_)
    (fun k hk => ?_) (fun _ => hw) fun hf => absurd hf (by simp [fillEntry])
  · by_cases hdd : d' = d
    · subst hdd
      rw [update_self, storeSectors_apply _ hend]
      split_ifs
      · have hout : buf.length ≤ a - (p + off) := by
          by_contra hin
          refine hn ⟨rfl, ?_⟩
          unfold pageOf
          omega
        rw [getElem?_eq_none hout, Option.getD_none]
      · rfl
    · rw [update_of_ne hdd]
  · rw [update_self, storeSectors_apply _ hend]
    simp only [fillEntry, show (p + off ≤ p + k) ↔ off ≤ k by omega,
      show p + k - (p + off) = k - off by omega]
    by_cases hin : off ≤ k ∧ k - off < buf.length
    · simp [hin.1, getElem?_eq_getElem hin.2]
    · have hold : (s.cache i).data k = arr d (p + k) := by
        rw [← hp]
        refine h.data i hi d hd k hk fun hst => hin ?_
        obtain ⟨h0, h8⟩ := hfull hst.2
        omega
      split_ifs
      · rw [getElem?_eq_none (by omega), Option.getD_none, Option.getD_none, hold]
      · exact hold

/-- A write that reports an error may have stored some of its sectors. -/
theorem Clean.writeLoop (h : Clean env s arr) {buf : List σ} (hlba : lba < 2 ^ 64)
    (hf : buf.length ≤ fuel) (hw : (env.device d).hasWrite = true)
    (hok : Accounts s (writeLoop env d 8 fuel s lba buf)) :
    ∃ arr', Clean env (writeLoop env d 8 fuel s lba buf).2 arr' ∧
      ((writeLoop env d 8 fuel s lba buf).1 ≠ none →
        arr' = update arr d (storeSectors (arr d) lba buf)) := by
  induction fuel generalizing s arr lba buf with
  | zero =>
    obtain rfl : buf = [] := length_eq_zero_iff.mp (by omega)
    exact ⟨arr, h, fun _ => by simp [storeSectors]⟩
  | succ fuel ih =>
    rw [writeLoop] at hok ⊢
    split_ifs at hok ⊢ with hr
    · obtain rfl := length_eq_zero_iff.mp hr
      exact ⟨arr, h, fun _ => by simp [storeSectors]⟩
    obtain ⟨halign, hsum, hpage, hpos, hle, hend⟩ := chunk_bounds hlba hr
    dsimp only at hok ⊢
    generalize min (8 - (lba - lba / 8 * 8)) buf.length = n at *
    generalize lba - lba / 8 * 8 = off at *
    generalize lba / 8 * 8 = p at *
    have hmono := getPage_failed env s d p 8 (n < 8)
    cases hg : Bcache.getPage env s d p 8 (n < 8) with
    | mk found s1 =>
    rw [hg] at hok hmono
    cases found with
    | none => exact ⟨arr, (h.getPage halign hg hok).1 rfl, by simp⟩
    | some i =>
      have : (buf.take n).length = n := by rw [length_take]; omega
      have hmono' := writeLoop_failed env
        (s1.setEntry i (fillEntry (s1.cache i) off (buf.take n))) d 8 fuel (u64 (lba + n))
        (buf.drop n)
      have hsame : (s1.setEntry i (fillEntry (s1.cache i) off (buf.take n))).failed = s1.failed :=
        rfl
      simp only [Counted, Accounts] at hok hmono hmono'
      obtain ⟨hi, hd, hpl, hc⟩ :=
        (h.getPage halign hg (show s1.failed ≤ s.failed + 0 by omega)).2 i rfl
      have hc1 := hc.fill off (buf.take n) hi hd hpl halign (by omega)
        (fun hnf => by simp only [decide_eq_false_iff_not] at hnf; omega) (by omega) hw
      obtain ⟨arr', hc2, hrest⟩ := ih hc1 (u64_lt _) (by rw [length_drop]; omega)
        (hok.trans (by rw [hsame]; omega))
      refine ⟨arr', hc2, fun hne => (hrest hne).trans ?_⟩
      rw [update_self, update_idem]
      congr 1
      conv_rhs => rw [← take_append_drop n buf]
      rw [storeSectors_append, hsum]
      exact storeSectors_congr _ (by unfold u64; omega) _

/-! ## Flushing -/

variable (env s) in
lemma flushEntry_failed (dev : Option δ) (i : Nat) :
    s.failed ≤ (flushEntry env dev s i).failed := by
  unfold flushEntry
  split
  · split_ifs
    · exact writeBack_failed i _
    · exact le_rfl
  · exact le_rfl

variable (env s) in
lemma flush_failed (dev : Option δ) (is : List Nat) :
    s.failed ≤ (is.foldl (flushEntry env dev) s).failed := by
  induction is generalizing s with
  | nil => exact le_rfl
  | cons i is ih => exact (flushEntry_failed _ _ dev i).trans (ih _)

/-- Entry `i` holds no unwritten data of the devices that `dev` selects. -/
def Flushed (s : State δ σ) (dev : Option δ) (i : Nat) : Prop :=
  ∀ d, (s.cache i).dev = some d → dev = none ∨ dev = some d → (s.cache i).dirty = false

lemma Clean.flushEntry (h : Clean env s arr) (dev : Option δ) (hi : i < bcacheMaxPages)
    (hok : (flushEntry env dev s i).failed = s.failed) :
    Clean env (flushEntry env dev s i) arr ∧ Flushed (flushEntry env dev s i) dev i ∧
      ∀ j, Flushed s dev j → Flushed (flushEntry env dev s i) dev j := by
  unfold Bcache.flushEntry at hok ⊢
  cases hd : (s.cache i).dev with
  | none => exact ⟨h, fun d hd' => by rw [hd] at hd'; simp at hd', fun _ hj => hj⟩
  | some d =>
    simp only [hd] at hok ⊢
    split_ifs at hok ⊢ with hc
    · refine ⟨h.writeBack hi hd hc.2 hok, fun d' _ _ => ?_, fun j hj d' hdj hsel => ?_⟩
      · rw [writeBack_cache, update_self]
      · rw [writeBack_cache] at hdj ⊢
        by_cases hji : j = i
        · rw [hji, update_self]
        · rw [update_of_ne hji] at hdj ⊢
          exact hj d' hdj hsel
    · refine ⟨h, fun d' hd' hsel => ?_, fun _ hj => hj⟩
      obtain rfl := Option.some.inj (hd.symm.trans hd')
      simpa using fun hdirty => hc ⟨hsel, hdirty⟩

lemma Clean.flush (h : Clean env s arr) (dev : Option δ) (his : ∀ i ∈ is, i < bcacheMaxPages)
    (hok : (is.foldl (Bcache.flushEntry env dev) s).failed = s.failed) :
    Clean env (is.foldl (Bcache.flushEntry env dev) s) arr ∧
      (∀ i ∈ is, Flushed (is.foldl (Bcache.flushEntry env dev) s) dev i) ∧
      ∀ j, Flushed s dev j → Flushed (is.foldl (Bcache.flushEntry env dev) s) dev j := by
  induction is generalizing s with
  | nil => exact ⟨h, fun i hi => absurd hi (by simp), fun _ hj => hj⟩
  | cons i is ih =>
    rw [foldl_cons] at hok
    have := flushEntry_failed env s dev i
    have := flush_failed env (Bcache.flushEntry env dev s i) dev is
    obtain ⟨hc, hfl, hkeep⟩ := h.flushEntry dev (his i (by simp)) (by omega)
    obtain ⟨hc', hfl', hkeep'⟩ := ih hc (fun j hj => his j (by simp [hj])) (by omega)
    refine ⟨hc', fun j hj => ?_, fun j hj => hkeep' j (hkeep j hj)⟩
    rcases mem_cons.mp hj with rfl | hj
    · exact hkeep' j hfl
    · exact hfl' j hj

lemma Clean.bcacheFlush (h : Clean env s arr) (dev : Option δ)
    (hok : (bcacheFlush env s dev).failed = s.failed) :
    Clean env (bcacheFlush env s dev) arr ∧
      ∀ d, dev = none ∨ dev = some d → (bcacheFlush env s dev).disk d = arr d := by
  have hrange : ∀ i, i ∈ range bcacheMaxPages ↔ i < bcacheMaxPages := fun _ => mem_range
  unfold Bcache.bcacheFlush at hok ⊢
  generalize range bcacheMaxPages = is at *
  obtain ⟨hc, hfl, -⟩ := h.flush dev (fun i => (hrange i).mp) hok
  refine ⟨hc, fun d hsel => funext fun a => ?_⟩
  exact hc.disk d a fun i hi hd _ => hfl i ((hrange i).mpr hi) d hd hsel

end Coherent

/-! ## Runs -/

def NoDuplicates (s : State δ σ) : Prop :=
  ∀ i < bcacheMaxPages, ∀ j < bcacheMaxPages, ∀ d, (s.cache i).dev = some d →
    (s.cache j).dev = some d → (s.cache i).pageLba = (s.cache j).pageLba → i = j

def IoSucceeds (env : Env δ) (s : State δ σ) (op : Op δ σ) : Prop :=
  (step env s op).2.failed = s.failed

lemma ioSucceeds_flush {dev : Option δ} :
    IoSucceeds env s (.flush dev) ↔ (bcacheFlush env s dev).failed = s.failed := by
  simp [IoSucceeds, step]

lemma sectorsPerPage_512 {dev : Device} (h : dev.sectorSize = 512) : sectorsPerPage dev = 8 := by
  simp [sectorsPerPage, h, bcachePageSize]

lemma storeSectors_u64 (a : Nat → σ) (lba : Nat) (xs : List σ) :
    storeSectors a (u64 lba) xs = storeSectors a lba xs :=
  storeSectors_congr a (by unfold u64; omega) xs

/-- One call of the cache leaves it coherent with some array. Without an error, and with one that
no device operation caused, it answers like the array, and the array is the one left. -/
theorem Clean.step (h512 : ∀ d, (env.device d).sectorSize = 512) {arr : δ → Nat → σ} {op : Op δ σ}
    (h : Clean env s arr) (hok : Accounts s (step env s op)) :
    ∃ arr', Clean env (step env s op).2 arr' ∧ ((step env s op).1 ≠ none ∨ IoSucceeds env s op →
      (step env s op).1 = (arrayStep env arr op).1 ∧ arr' = (arrayStep env arr op).2) := by
  unfold IoSucceeds
  cases op with
  | read dev lba count =>
    cases dev with
    | none => exact ⟨arr, h, fun _ => ⟨rfl, rfl⟩⟩
    | some d =>
      simp only [Bcache.step, bcacheRead, sectorsPerPage_512 (h512 d), arrayStep] at hok ⊢
      split_ifs at hok ⊢
      · obtain ⟨hc, hout⟩ := h.readLoop (u64_lt lba) le_rfl hok
        have hfail := readLoop_failed env s d 8 count (u64 lba) count
        refine ⟨arr, hc, fun hr => ⟨?_, rfl⟩⟩
        rcases hout with hnone | hout
        · simp only [Counted, hnone, if_true] at hfail
          rcases hr with hr | hr
          · exact absurd hnone hr
          · omega
        · rw [hout]
          congr 2
          funext k
          congr 1
          unfold u64
          omega
      · exact ⟨arr, h, fun _ => ⟨rfl, rfl⟩⟩
  | write dev lba buf =>
    cases dev with
    | none => exact ⟨arr, h, fun _ => ⟨rfl, rfl⟩⟩
    | some d =>
      simp only [Bcache.step, bcacheWrite, sectorsPerPage_512 (h512 d), arrayStep] at hok ⊢
      by_cases hw : (env.device d).hasWrite = true
      · simp only [hw, if_true, Accounts, Option.map_eq_none_iff] at hok ⊢
        obtain ⟨arr', hc, hout⟩ := h.writeLoop (u64_lt lba) le_rfl hw hok
        have hfail := writeLoop_failed env s d 8 buf.length (u64 lba) buf
        refine ⟨arr', hc, fun hr => ?_⟩
        cases hn : (Bcache.writeLoop env d 8 buf.length s (u64 lba) buf).1 with
        | none =>
          simp only [Counted, hn, if_true] at hfail
          simp only [hn, Option.map_none, ne_eq, not_true_eq_false, false_or] at hr
          omega
        | some _ =>
          rw [hout (by simp [hn]), storeSectors_u64]
          exact ⟨rfl, rfl⟩
      · simp only [hw]
        exact ⟨arr, h, fun _ => ⟨rfl, rfl⟩⟩
  | flush dev =>
    simp only [Accounts, Bcache.step, arrayStep] at hok ⊢
    have hmono : s.failed ≤ (Bcache.bcacheFlush env s dev).failed := flush_failed env s dev _
    exact ⟨arr, (h.bcacheFlush dev (le_antisymm hok hmono)).1, fun _ => ⟨trivial, rfl⟩⟩

lemma Clean.step_io (h512 : ∀ d, (env.device d).sectorSize = 512) {arr : δ → Nat → σ} {op : Op δ σ}
    (h : Clean env s arr) (hio : IoSucceeds env s op) :
    (Bcache.step env s op).1 = (arrayStep env arr op).1 ∧
      Clean env (Bcache.step env s op).2 (arrayStep env arr op).2 := by
  obtain ⟨arr', hc, hout⟩ := h.step h512 (hio.le.trans (Nat.le_add_right _ _))
  obtain ⟨hsame, rfl⟩ := hout (.inr hio)
  exact ⟨hsame, hc⟩

omit [DecidableEq δ] in
lemma Clean.init (env : Env δ) (zero : σ) (disk : δ → Nat → σ) :
    Clean env (bcacheInit zero disk) disk := by
  constructor <;> simp [bcacheInit]

/-- In every run whose device operations succeed, the calls answer like a plain array of
sectors, no page is cached twice, and a flush leaves the array on the device. -/
theorem run_coherent (h512 : ∀ d, (env.device d).sectorSize = 512) (zero : σ) (disk : δ → Nat → σ)
    (ops : List (Op δ σ)) (hio : (step env).Along (IoSucceeds env) (bcacheInit zero disk) ops) :
    (step env).outputs (bcacheInit zero disk) ops = (arrayStep env).outputs disk ops ∧
      NoDuplicates ((step env).run (bcacheInit zero disk) ops) ∧
      ∀ dev, IoSucceeds env ((step env).run (bcacheInit zero disk) ops) (.flush dev) →
        ∀ d, dev = none ∨ dev = some d →
          (bcacheFlush env ((step env).run (bcacheInit zero disk) ops) dev).disk d =
            (arrayStep env).run disk ops d := by
  have hsim := Machine.run_simulation (step env) (arrayStep env)
    (fun s arr op => Clean.step_io h512)
    (Clean.init env zero disk) hio
  have hc : Clean env ((step env).run (bcacheInit zero disk) ops)
    ((arrayStep env).run disk ops) := hsim.2
  refine ⟨hsim.1, hc.nodup, fun dev hok => ?_⟩
  rw [ioSucceeds_flush] at hok
  exact (hc.bcacheFlush dev hok).2

/-- One device with all its callbacks, whose operations succeed. -/
def oneDevice : Env Unit := ⟨fun _ => ⟨512, true, true⟩, fun _ => true⟩

/-- A write across a page boundary and a read of its surroundings. -/
theorem run_coherent_oneDevice :
    (step oneDevice).outputs (bcacheInit 0 fun _ a => a)
        [.write (some ()) 7 [100, 101], .read (some ()) 6 4] =
      [some [], some [6, 100, 101, 9]] := by
  have hio : (step oneDevice).Along (IoSucceeds oneDevice) (bcacheInit 0 fun _ a => a)
      [.write (some ()) 7 [100, 101], .read (some ()) 6 4] := by
    simp only [Machine.Along, IoSucceeds]
    decide +kernel
  exact (run_coherent (fun _ => rfl) 0 (fun _ a => a) _ hio).1

end YamKernel.Bcache

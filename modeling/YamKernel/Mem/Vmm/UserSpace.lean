import YamKernel.Mem.Vmm.Private

/-!
# What a loader makes of an address space

`Space` is an address space as its user sees it: the flags of each page and the bytes. `Holds` says
that the tables of a private space give it. Mapping a frame puts one page of a `Space`, so a loader
that maps page after page computes a fold of `Space.put`.
-/

namespace YamKernel.Vmm

open Lib Pmm

structure Space where
  flags : Nat → Nat
  mem : Mem

def Space.put (c : Space) (p flags : Nat) (f : Mem) : Space :=
  ⟨Function.update c.flags p flags, fun x => if x / pageSize = p then f x else c.mem x⟩

@[simp]
lemma Space.put_flags (c : Space) (p flags : Nat) (f : Mem) (q : Nat) :
    (c.put p flags f).flags q = if q = p then flags else c.flags q :=
  Function.update_apply ..

@[simp]
lemma Space.put_mem (c : Space) (p flags : Nat) (f : Mem) (x : Nat) :
    (c.put p flags f).mem x = if x / pageSize = p then f x else c.mem x := rfl

/-- The pages outside `A` are the same in both. -/
structure Space.AgreesOff (A : Nat → Prop) (c c' : Space) : Prop where
  flags : ∀ p, ¬ A p → c'.flags p = c.flags p
  mem : ∀ x, ¬ A (x / pageSize) → c'.mem x = c.mem x

section AgreesOff

variable {A : Nat → Prop} {c c' : Space}

lemma Space.AgreesOff.refl (A : Nat → Prop) (c : Space) : c.AgreesOff A c :=
  ⟨fun _ _ => rfl, fun _ _ => rfl⟩

lemma Space.AgreesOff.put {p flags : Nat} {f : Mem} (h : c.AgreesOff A c') (hp : A p) :
    c.AgreesOff A (c'.put p flags f) := by
  refine ⟨fun q hq => ?_, fun x hx => ?_⟩
  · rw [put_flags, if_neg fun he : q = p => hq (he ▸ hp), h.flags q hq]
  · rw [put_mem, if_neg fun he : x / pageSize = p => hx (he ▸ hp), h.mem x hx]

end AgreesOff

structure Holds (r : Nat) (c : Space) (s : State) : Prop where
  own : Private r s
  flags : ∀ p < 2 ^ 35, vmmGetPteFlags s.mem r (p * pageSize) = c.flags p
  view : userView r s = c.mem

def spaceOf (r : Nat) (s : State) : Space :=
  ⟨fun p => vmmGetPteFlags s.mem r (p * pageSize), userView r s⟩

lemma Private.holds {r : Nat} {s : State} (h : Private r s) : Holds r (spaceOf r s) s :=
  ⟨h, fun _ _ => rfl, rfl⟩

lemma getPteFlags_page {r p : Nat} {s : State} (hp : p < 2 ^ 35) :
    vmmGetPteFlags s.mem r (p * pageSize) = (pte 256 s.mem r p).entry &&& flagMask := by
  have hp36 : p < 2 ^ 36 := by omega
  rw [vmmGetPteFlags_eq (show _ < 256 * 2 ^ 27 from pageOf_mul_lt hp36 hp), pageOf_mul hp36]

lemma Holds.present {r p : Nat} {c : Space} {s : State} (h : Holds r c s) (hp : p < 2 ^ 35) :
    (pte 256 s.mem r p).present = has (c.flags p) flagPresent := by
  rw [← h.flags p hp, getPteFlags_page hp]
  exact (has_and).symm

section Put

variable {r f flags va : Nat} {s t : State} {c : Space}

lemma Space.put_congr {p : Nat} {g g' : Mem} (h : ∀ x, x / pageSize = p → g x = g' x) :
    c.put p flags g = c.put p flags g' := by
  unfold put
  congr 1
  funext x
  split_ifs with hx
  · exact h x hx
  · rfl

lemma Holds.map (h : Holds r c s) (hspare : Spare r s t.pmm f)
    (hm : ∀ a, ¬ (f ≤ a ∧ a < f + pageSize) → t.mem a = s.mem a) (hva : va < userEnd)
    (hflags : flags &&& flagMask = flags) : let out := vmmMapPage t r va f flags
    (out.1 = true → Holds r (c.put (va / pageSize) (flags ||| flagPresent)
      fun x => t.mem (f + x % pageSize)) out.2) ∧ (out.1 = false → Holds r c out.2) := by
  have hlt : flags < 2 ^ 64 := hflags ▸ lt_of_le_of_lt Nat.and_le_right (by decide)
  have hframe : frame flags = 0 := hflags ▸ frame_and (by decide)
  obtain ⟨hown, hyes, hno⟩ := h.own.map hspare hm hva hlt hframe
  refine ⟨fun hok => ?_, fun hok => ?_⟩
  · obtain ⟨hpte, hview⟩ := hyes hok
    refine ⟨hown, fun p hp => ?_, funext fun x => ?_⟩
    · rw [getPteFlags_page hp, hpte, Space.put_flags]
      split_ifs
      · exact leafEntry_flags hflags
      · rw [← getPteFlags_page hp, h.flags p hp]
    · rw [hview, Space.put_mem, h.view]
  · obtain ⟨hpte, hview⟩ := hno hok
    refine ⟨hown, fun p hp => ?_, by rw [hview, h.view]⟩
    rw [getPteFlags_page hp, hpte, ← getPteFlags_page hp, h.flags p hp]

end Put

section Fold

variable {flags : Nat} {f : Mem}

/-- Several pages with the same flags, and contents from one source. -/
theorem Space.foldl_put (c : Space) (ps : List Nat) :
    ps.foldl (fun c p => c.put p flags f) c =
      ⟨fun p => if p ∈ ps then flags else c.flags p,
        fun x => if x / pageSize ∈ ps then f x else c.mem x⟩ := by
  induction ps generalizing c with
  | nil => simp
  | cons q ps ih =>
    rw [List.foldl_cons, ih]
    congr 1
    · funext p
      by_cases h1 : p ∈ ps <;> by_cases h2 : p = q <;> simp [h2]
    · funext x
      by_cases h1 : x / pageSize ∈ ps <;> by_cases h2 : x / pageSize = q <;> simp [h2]

end Fold

/-! ## New spaces -/

section New

variable {s s' : State} {new : Nat}

lemma Created.tableAt_new {R : Set Nat} (g : Created R s s' new) (d n : Nat) :
    tableAt 256 s'.mem new d n = if d = 0 ∧ n = 0 then some new else none := by
  refine Radix.node_alone (fun i _ => ?_) (by decide) d n
  by_cases hi : i < 256
  · exact nextOf_absent (by rw [g.lower i hi]; decide)
  · exact if_neg fun hc => hi (hc.2.2.1 rfl)

lemma Created.pte_new {R : Set Nat} (g : Created R s s' new) (p : Nat) :
    pte 256 s'.mem new p = ⟨0, false⟩ := by
  rw [pte, leafSlot, g.tableAt_new]
  simp

/-- A new space has its lower half for itself. -/
theorem Created.own (g : Created ∅ s s' new) : Private new s' := by
  have habs : ∀ p, (pte 256 s'.mem new p).present = false := fun p => by
    rw [g.pte_new]
    decide
  refine ⟨by simpa using g.sound, fun p hp hb => ?_, fun p _ hp => ?_, fun p _ hp => ?_,
    fun p _ q _ hp => ?_⟩
  · obtain ⟨d, -, t, ht, hpres, -⟩ := hb
    rw [g.tableAt_new] at ht
    split_ifs at ht with hd
    obtain rfl := Option.some.inj ht
    have hidx : tableIdx p d < 256 := by
      rw [hd.1]
      unfold tableIdx
      omega
    rw [g.lower _ hidx] at hpres
    exact absurd hpres (by decide)
  all_goals exact absurd (habs p) (by simp [hp])

end New

end YamKernel.Vmm

import YamKernel.Mem.Vmm.Unmapping

/-!
# Changing leaf entries

`vmm_update_flags` is a store into the leaf entry of a page, of 4 KB or of 2 MB.
-/

namespace YamKernel.Vmm

open Lib Pmm Pte

/-! ## `vmm_update_flags` -/

def Pte.relabel (e : Pte) (flags : Nat) : Nat :=
  if e.huge then (e.entry &&& hugeMask) ||| flags ||| flagPresent ||| flagHuge
  else leafEntry e.entry flags

section Update

variable {top : Nat} {R : Set Nat} {s : State} {r p virt flags : Nat} {m : Mem}

lemma Pte.relabel_lt (e : Pte) (hf : flags < 2 ^ 64) : e.relabel flags < 2 ^ 64 := by
  unfold relabel
  split_ifs
  · have hmask : e.entry &&& hugeMask < 2 ^ 64 := lt_of_le_of_lt Nat.and_le_right (by decide)
    exact Nat.or_lt_two_pow (Nat.or_lt_two_pow (Nat.or_lt_two_pow hmask hf) (by decide)) (by decide)
  · exact leafEntry_lt hf

lemma Pte.relabel_has (e : Pte) {f : Nat} (h1 : addrMask &&& f = 0 := by decide)
    (h2 : hugeMask &&& f = 0 := by decide) (h3 : has flagPresent f = false := by decide)
    (h4 : has flagHuge f = false := by decide) : has (e.relabel flags) f = has flags f := by
  unfold relabel
  split_ifs
  · rw [has_or, has_or, has_or, has_and_apart h2, h3, h4, Bool.false_or, Bool.or_false,
      Bool.or_false]
  · exact leafEntry_has h1 h3

lemma Pte.relabel_present (e : Pte) (flags : Nat) : has (e.relabel flags) flagPresent = true := by
  unfold relabel
  split_ifs
  · rw [has_or, has_or, show has flagPresent flagPresent = true by decide]
    simp
  · exact leafEntry_present

lemma Pte.relabel_huge (e : Pte) (flags : Nat) (h : e.huge = true) :
    has (e.relabel flags) flagHuge = true := by
  unfold relabel
  rw [if_pos h, has_or, show has flagHuge flagHuge = true by decide, Bool.or_true]

lemma pte_leafSlot (hp : (pte top m r p).present = true) :
    ∃ t i, leafSlot top m r p = some (t, i, (pte top m r p).huge) ∧
      (pte top m r p).entry = entry m t i := by
  cases hs : leafSlot top m r p with
  | none =>
    unfold present pte at hp
    rw [hs] at hp
    exact absurd hp (show ¬ has 0 flagPresent = true by decide)
  | some x =>
    obtain ⟨t, i, huge⟩ := x
    exact ⟨t, i, by simp [pte, hs], by simp [pte, hs]⟩

lemma Sound.updateFlags_spec (h : Sound top R s) (hr : r ∈ R) (htop : pageOf virt < top * 2 ^ 27)
    (hp : (pte top s.mem r (pageOf virt)).present = true) (hf : flags < 2 ^ 64) :
    ∃ s', vmmUpdateFlags s r virt flags = (true, s') ∧
      Stored top R s s' r (pageOf virt) (pte top s.mem r (pageOf virt)).huge
        ((pte top s.mem r (pageOf virt)).relabel flags) := by
  obtain ⟨t, i, hs, hent⟩ := pte_leafSlot hp
  refine ⟨s.setEntry t i ((pte top s.mem r (pageOf virt)).relabel flags), ?_,
    h.stored hr hs (relabel_lt _ hf)
      fun hh => ⟨relabel_present _ _, relabel_huge _ _ hh⟩⟩
  have hpres : has (entry s.mem t i) flagPresent = true := by rwa [present, hent] at hp
  rw [vmmUpdateFlags_eq flags htop, hs, relabel, hent]
  cases (pte top s.mem r (pageOf virt)).huge <;> simp [hpres]

end Update

end YamKernel.Vmm

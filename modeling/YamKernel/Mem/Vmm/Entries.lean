import YamKernel.Lib.Bits
import YamKernel.Mem.Vmm.Model

/-!
# Table entries

What the flag tests and the frame address give for the entries the code composes, and what
a store into a table does to the entries of this and other tables.
-/

namespace YamKernel.Vmm

open Lib Pmm Nat

def frame (e : Nat) : Nat := e &&& addrMask

lemma frame_eq (e : Nat) : frame e = e / 4096 % 2 ^ 40 * 4096 := by
  have h := and_field (show 12 ≤ 52 by decide) e
  simpa [frame, addrMask] using h

lemma frame_dvd (e : Nat) : pageSize ∣ frame e := by
  rw [frame_eq]
  exact dvd_mul_left _ _

lemma frame_of_page {phys : Nat} (hd : pageSize ∣ phys) (hlt : phys < 2 ^ 52) :
    phys &&& addrMask = phys := by
  have := frame_eq phys
  unfold frame at this
  unfold pageSize at hd
  omega

lemma frame_or (a b : Nat) : frame (a ||| b) = frame a ||| frame b :=
  and_or_distrib_right ..

lemma frame_frame (e : Nat) : frame (e &&& addrMask) = frame e := by
  unfold frame
  rw [Nat.and_assoc, Nat.and_self]

variable {c c' e g mask t : Nat} {s : State}

lemma frame_and (h : mask &&& addrMask = 0) : frame (e &&& mask) = 0 := by
  unfold frame
  rw [Nat.and_assoc, h, and_zero]

lemma frame_clear {f : Nat} (h : frame e = 0) : frame (clear e f) = 0 := by
  unfold frame clear at *
  rw [Nat.and_right_comm, h, zero_and]

lemma has_or (a b f : Nat) : has (a ||| b) f = (has a f || has b f) := by
  unfold has
  rw [and_or_distrib_right, Bool.eq_iff_iff]
  simp only [bne_iff_ne, ne_eq, or_eq_zero_iff, Bool.or_eq_true, not_and_or]

/-- A mask that contains the flag keeps it. -/
theorem has_and {f : Nat} (h : mask &&& f = f := by decide) :
    has (e &&& mask) f = has e f := by
  unfold has
  rw [Nat.and_assoc, h]

/-- A mask apart from the flag drops it. -/
theorem has_and_apart {f : Nat} (h : mask &&& f = 0 := by decide) :
    has (e &&& mask) f = false := by
  unfold has
  rw [Nat.and_assoc, h, and_zero]
  rfl

lemma has_clear {f : Nat} (h : (2 ^ 64 - (f + 1)) &&& g = g) : has (clear e f) g = has e g :=
  has_and h

lemma has_clear_self {f : Nat} (h : (2 ^ 64 - (f + 1)) &&& f = 0) : has (clear e f) f = false :=
  has_and_apart h

/-! ## The entries the code composes -/

def leafEntry (phys flags : Nat) : Nat := (phys &&& addrMask) ||| flags ||| flagPresent

section Leaf

variable {phys flags f : Nat}

lemma leafEntry_frame (hd : pageSize ∣ phys) (hlt : phys < 2 ^ 52) (hf : flags &&& addrMask = 0) :
    frame (leafEntry phys flags) = phys := by
  have h1 : frame flags = 0 := hf
  have h2 : frame flagPresent = 0 := by decide
  rw [leafEntry, frame_or, frame_or, frame_frame, h1, h2, or_zero, or_zero]
  exact frame_of_page hd hlt

lemma leafEntry_present : has (leafEntry phys flags) flagPresent = true := by
  rw [leafEntry, has_or, show has flagPresent flagPresent = true by decide, Bool.or_true]

lemma leafEntry_has (h1 : addrMask &&& f = 0 := by decide)
    (h2 : has flagPresent f = false := by decide) : has (leafEntry phys flags) f = has flags f := by
  rw [leafEntry, has_or, has_or, has_and_apart h1, h2, Bool.false_or, Bool.or_false]

lemma leafEntry_lt (hf : flags < 2 ^ 64) : leafEntry phys flags < 2 ^ 64 := by
  have h1 : phys &&& addrMask < 2 ^ 64 := lt_of_le_of_lt and_le_right (by decide)
  exact or_lt_two_pow (or_lt_two_pow h1 hf) (by decide)

end Leaf

/-! ## Stores into tables -/

lemma entry_congr {m m' : Mem} (hc : c < 512)
    (h : ∀ a, t ≤ a → a < t + pageSize → m' a = m a) : entry m' t c = entry m t c := by
  refine Mem.read_congr fun a h1 h2 => h a ?_ ?_
  · omega
  · unfold pageSize
    omega

lemma entry_lt (m : Mem) (t c : Nat) : entry m t c < 2 ^ 64 := by
  simpa [entry] using Mem.read_lt m (t + 8 * c) 8

lemma entry_setEntry_self (he : e < 2 ^ 64) : entry (s.setEntry t c e).mem t c = e:=
  Mem.read_write (by simpa using he)

lemma entry_setEntry_ne (h : c' ≠ c) : entry (s.setEntry t c e).mem t c' = entry s.mem t c':=
  Mem.read_write_of_disjoint (by omega)

def PagesApart (f g : Nat) : Prop := f + pageSize ≤ g ∨ g + pageSize ≤ f

lemma PagesApart.symm {f : Nat} (h : PagesApart f g) : PagesApart g f := Or.symm h

lemma setEntry_apart {f a : Nat} (hc : c < 512) (h : PagesApart f t) (h1 : f ≤ a)
    (h2 : a < f + pageSize) : (s.setEntry t c e).mem a = s.mem a := by
  refine Mem.write_of_notMem ?_
  unfold PagesApart pageSize at *
  omega

lemma entry_setEntry_apart {f : Nat} (hc : c < 512) (hc' : c' < 512)
    (h : PagesApart f t) : entry (s.setEntry t c e).mem f c' = entry s.mem f c' :=
  entry_congr hc' fun _ h1 h2 => setEntry_apart hc h h1 h2

end YamKernel.Vmm

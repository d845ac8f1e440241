import Mathlib.Algebra.Order.Ring.Nat

/-!
# Byte-addressed memory

Little-endian loads and stores of any width, block fills and block copies. The laws say
what a load returns after a store at the same place, and that a store, fill or copy leaves
everything outside its range alone.
-/

namespace YamKernel.Lib

open List Nat

abbrev Mem := Nat → UInt8

def le64 (v : Nat) : List UInt8 := (range 8).map fun i => UInt8.ofNat (v / 256 ^ i)

@[simp]
lemma length_le64 (v : Nat) : (le64 v).length = 8 := rfl

namespace Mem

variable {m m' : Mem} {a b n k v : Nat}

def read (m : Mem) (a : Nat) : Nat → Nat
  | 0 => 0
  | n + 1 => (m a).toNat + 256 * read m (a + 1) n

def write (m : Mem) (a n v : Nat) : Mem := fun x =>
  if a ≤ x ∧ x < a + n then UInt8.ofNat (v / 256 ^ (x - a)) else m x

def fill (m : Mem) (a n : Nat) (v : UInt8) : Mem := fun x =>
  if a ≤ x ∧ x < a + n then v else m x

def load (m : Mem) (a n : Nat) : List UInt8 := (range n).map fun k => m (a + k)

def store (m : Mem) (a : Nat) (l : List UInt8) : Mem := fun x =>
  if a ≤ x then (l[x - a]?).getD (m x) else m x

def words (m : Mem) (a : Nat) : Nat → List Nat
  | 0 => []
  | n + 1 => read m a 8 :: words m (a + 8) n

/-- `n` bytes at `a`, the byte number `k` being `f k`. -/
def blit (m : Mem) (a n : Nat) (f : Nat → UInt8) : Mem := fun x =>
  if a ≤ x ∧ x < a + n then f (x - a) else m x

/-- `n` bytes copied one after the other, upwards. -/
def copy (m : Mem) (dst src : Nat) : Nat → Mem
  | 0, x => m x
  | n + 1, x => if x = dst + n then copy m dst src n (src + n) else copy m dst src n x

lemma length_load (m : Mem) (a n : Nat) : (m.load a n).length = n := by
  rw [load, length_map, length_range]

lemma load_add (m : Mem) (a n k : Nat) : m.load a (n + k) = m.load a n ++ m.load (a + n) k := by
  simp [load, range_add, add_assoc]

lemma load_congr (h : ∀ x, a ≤ x → x < a + n → m' x = m x) : load m' a n = load m a n := by
  refine map_congr_left fun k hk => ?_
  have := mem_range.mp hk
  exact h (a + k) (by omega) (by omega)

lemma store_of_notMem {l : List UInt8} (h : b < a ∨ a + l.length ≤ b) : store m a l b = m b := by
  unfold store
  split_ifs
  · rw [getElem?_eq_none (by omega), Option.getD_none]
  · rfl

lemma load_store (m : Mem) (a : Nat) (l : List UInt8) : load (store m a l) a l.length = l := by
  apply ext_getElem?
  intro j
  rw [load, getElem?_map]
  by_cases hj : j < l.length
  · rw [getElem?_range hj, Option.map_some, store, if_pos (le_add_right a j),
      Nat.add_sub_cancel_left, getElem?_eq_getElem hj, Option.getD_some]
  · rw [getElem?_eq_none (by simpa using hj), getElem?_eq_none (by omega)]
    rfl

lemma read_congr (h : ∀ x, a ≤ x → x < a + n → m' x = m x) : read m' a n = read m a n := by
  induction n generalizing a with
  | zero => rfl
  | succ n ih =>
    rw [read, read, h a le_rfl (by omega), ih fun x hx hx' => h x (by omega) (by omega)]

lemma read_lt (m : Mem) (a n : Nat) : read m a n < 256 ^ n := by
  induction n generalizing a with
  | zero => simp [read]
  | succ n ih =>
    have := (m a).toNat_lt
    have := ih (a + 1)
    rw [read]
    omega

lemma read_of_bytes (h : ∀ i < n, m (a + i) = UInt8.ofNat (v / 256 ^ i)) :
    read m a n = v % 256 ^ n := by
  induction n generalizing a v with
  | zero => simp [read, mod_one]
  | succ n ih =>
    have h0 : m a = UInt8.ofNat v := by simpa using h 0 (by omega)
    have hrest : read m (a + 1) n = v / 256 % 256 ^ n := by
      refine ih fun i hi => ?_
      have := h (i + 1) (by omega)
      rw [show a + 1 + i = a + (i + 1) by omega, this, Nat.div_div_eq_div_mul, pow_succ']
    rw [read, hrest, h0, pow_succ', mod_mul]
    simp

lemma write_of_notMem (h : b < a ∨ a + n ≤ b) : write m a n v b = m b :=
  if_neg (by omega)

lemma read_write_mod (m : Mem) (a n v : Nat) : read (write m a n v) a n = v % 256 ^ n := by
  refine read_of_bytes fun i hi => ?_
  rw [write, if_pos (by omega), Nat.add_sub_cancel_left]

lemma read_write (hv : v < 256 ^ n) : read (write m a n v) a n = v := by
  rw [read_write_mod, mod_eq_of_lt hv]

lemma read_write_of_disjoint (h : b + k ≤ a ∨ a + n ≤ b) : read (write m a n v) b k = read m b k :=
  read_congr fun _ _ _ => write_of_notMem (by omega)

lemma fill_of_notMem {w : UInt8} (h : b < a ∨ a + n ≤ b) : fill m a n w b = m b :=
  if_neg (by omega)

lemma read_fill_zero (h1 : a ≤ b) (h2 : b + k ≤ a + n) : read (fill m a n 0) b k = 0 := by
  have hbytes := read_of_bytes (m := fill m a n 0) (a := b) (n := k) fun i hi => by
    rw [fill, if_pos (by omega), Nat.zero_div]
    rfl
  rw [hbytes, zero_mod]

lemma copy_of_notMem (h : b < a ∨ a + n ≤ b) (src : Nat) : copy m a src n b = m b := by
  induction n with
  | zero => rfl
  | succ n ih => rw [copy, if_neg (by omega), ih (by omega)]

lemma copy_of_mem {src i : Nat} (h : a + n ≤ src ∨ src + n ≤ a) (hi : i < n) :
    copy m a src n (a + i) = m (src + i) := by
  induction n with
  | zero => omega
  | succ n ih =>
    rw [copy]
    split_ifs
    · obtain rfl : i = n := by omega
      exact copy_of_notMem (by omega) src
    · exact ih (by omega) (by omega)

lemma store_nil (m : Mem) (a : Nat) : m.store a [] = m := by
  funext x
  simp [store]

/-- Two stores one behind the other are one store. -/
theorem store_append (m : Mem) (a : Nat) (l l' : List UInt8) :
    (m.store a l).store (a + l.length) l' = m.store a (l ++ l') := by
  funext x
  unfold store
  by_cases hx : a ≤ x
  · rw [if_pos hx, if_pos hx, getElem?_append]
    by_cases hl : x - a < l.length
    · rw [if_neg (by omega), if_pos hl]
    · have hnone : l[x - a]? = none := getElem?_eq_none (by omega)
      rw [if_pos (by omega), if_neg hl, hnone, Option.getD_none, Nat.sub_sub]
  · rw [if_neg hx, if_neg hx, if_neg (by omega)]

/-- The order of the two does not matter. -/
theorem store_append_down (m : Mem) (a : Nat) (l l' : List UInt8) :
    (m.store (a + l.length) l').store a l = m.store a (l ++ l') := by
  rw [← store_append]
  funext x
  by_cases hx : x < a + l.length
  · rw [store_of_notMem (.inl hx)]
    unfold store
    rw [if_neg (not_le.mpr hx)]
  · have hle : a + l.length ≤ x := Nat.le_of_not_lt hx
    rw [store_of_notMem (.inr hle), store, store, store_of_notMem (.inr hle)]

lemma load_store_apart {l : List UInt8} (h : b + n ≤ a ∨ a + l.length ≤ b) :
    (m.store a l).load b n = m.load b n :=
  load_congr fun _ _ _ => store_of_notMem (by omega)

lemma words_congr (h : ∀ x, a ≤ x → x < a + 8 * n → m' x = m x) : words m' a n = words m a n := by
  induction n generalizing a with
  | zero => rfl
  | succ n ih =>
    rw [words, words, read_congr fun x h1 h2 => h x h1 (by omega),
      ih fun x h1 h2 => h x (by omega) (by omega)]

lemma getElem?_words {i : Nat} (h : i < n) : (words m a n)[i]? = some (read m (a + 8 * i) 8) := by
  induction n generalizing a i with
  | zero => omega
  | succ n ih =>
    cases i with
    | zero => rfl
    | succ i =>
      rw [words, getElem?_cons_succ, ih (by omega)]
      congr 2
      omega

lemma read_store_le64 (hv : v < 2 ^ 64) : read (m.store a (le64 v)) a 8 = v := by
  have hbytes := read_of_bytes (m := m.store a (le64 v)) (n := 8) (v := v) fun i hi => by
    have hlt : i < (le64 v).length := hi
    rw [store, Nat.add_sub_cancel_left, getElem?_eq_getElem hlt]
    simp [le64]
  rw [hbytes]
  exact mod_eq_of_lt (by simpa using hv)

lemma length_flatMap_le64 (ws : List Nat) : (ws.flatMap le64).length = 8 * ws.length := by
  induction ws with
  | nil => rfl
  | cons w ws ih =>
    rw [flatMap_cons, length_append, length_le64, length_cons]
    omega

lemma words_store {l : List Nat} (h : ∀ w ∈ l, w < 2 ^ 64) :
    (m.store a (l.flatMap le64)).words a l.length = l := by
  induction l generalizing a m with
  | nil => rfl
  | cons w l ih =>
    rw [flatMap_cons, ← store_append, length_cons, words, length_le64,
      ih fun w hw => h w (mem_cons_of_mem _ hw)]
    have hread : read ((m.store a (le64 w)).store (a + 8) (l.flatMap le64)) a 8 =
        read (m.store a (le64 w)) a 8 := read_congr fun x _ h2 => store_of_notMem (.inl h2)
    rw [hread, read_store_le64 (h w (by simp))]

end Mem

end YamKernel.Lib

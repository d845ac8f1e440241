import Mathlib.Algebra.Order.BigOperators.Group.Finset
import Mathlib.Data.Nat.Log
import Mathlib.Tactic.Linarith
import YamKernel.Fs.Ramfs.Model

/-!
# The budget of a RAM file system

What each function of the RAM file system does, and the accounts: capacities are powers of
two, `bytes_used` is their sum and at most 16 MB, and no file is larger than its buffer.
Every call keeps the accounts, whatever its arguments.
-/

namespace YamKernel.Ramfs

open Lib Vfs List Function Option Nat

/-! ## Lookup and creation -/

section Nodes

variable {fs : Fs} {path : Name} {i j : Nat} {n : Node}

lemma Fs.setNode_nodes (fs : Fs) (i : Nat) (n : Option Node) (j : Nat) :
    (fs.setNode i n).nodes j = if j = i then n else fs.nodes j := by
  simp [setNode, update_apply]

def Fs.labels (fs : Fs) (i : Nat) : Option (Name × Bool) :=
  (fs.nodes i).map fun n => (n.name, n.isDir)

lemma Fs.labels_setNode (fs : Fs) (i : Nat) (o : Option Node) :
    (fs.setNode i o).labels = update fs.labels i (o.map fun n => (n.name, n.isDir)) := by
  funext j
  unfold labels
  rw [setNode_nodes, update_apply]
  split_ifs <;> rfl

lemma Fs.labels_some (hn : fs.nodes i = some n) : fs.labels i = some (n.name, n.isDir) := by
  unfold labels
  rw [hn]
  rfl

lemma Fs.labels_same {m : Node} (hn : fs.nodes i = some n) (hname : m.name = n.name)
    (hdir : m.isDir = n.isDir) : (fs.setNode i (some m)).labels = fs.labels := by
  rw [labels_setNode, map_some, hname, hdir, ← labels_some hn, update_eq_self]

lemma ramfsFind_some (h : ramfsFind fs path = some i) :
    i < ramfsMaxFiles ∧ ∃ n, fs.nodes i = some n ∧ n.name = path := by
  unfold ramfsFind at h
  split_ifs at h
  have hi := find?_some h
  have hm := mem_of_find?_eq_some h
  cases hn : fs.nodes i with
  | none => simp [hn] at hi
  | some n => exact ⟨mem_range.mp hm, n, rfl, by simpa [hn] using hi⟩

lemma ramfsFind_none (h : ramfsFind fs path = none) (hp : path ≠ []) (hi : i < ramfsMaxFiles)
    (hn : fs.nodes i = some n) : n.name ≠ path := by
  unfold ramfsFind at h
  rw [if_neg hp] at h
  have := find?_eq_none.mp h i (mem_range.mpr hi)
  simpa [hn] using this

lemma ramfsCreate_cases (fs : Fs) (path : Name) (isDir : Bool) :
    ((path = [] ∨ ∀ i < ramfsMaxFiles, fs.nodes i ≠ none) ∧ ramfsFind fs path = none ∧
      ramfsCreate fs path isDir = (none, fs)) ∨
    (∃ i, ramfsFind fs path = some i ∧ ramfsCreate fs path isDir = (some i, fs)) ∨
    (∃ i < ramfsMaxFiles, path ≠ [] ∧ ramfsFind fs path = none ∧ fs.nodes i = none ∧
      ramfsCreate fs path isDir =
        (some i, fs.setNode i (some (emptyNode (path.take (nameSize - 1)) isDir)))) := by
  unfold ramfsCreate
  by_cases hp : path = []
  · exact .inl ⟨.inl hp, by simp [ramfsFind, hp], by simp [hp]⟩
  rw [if_neg hp]
  cases ramfsFind fs path with
  | some i => exact .inr (.inl ⟨i, rfl, rfl⟩)
  | none =>
    cases hfree : (range ramfsMaxFiles).find? fun i => (fs.nodes i).isNone with
    | some i =>
      have hi := find?_some hfree
      have hm := mem_of_find?_eq_some hfree
      exact .inr (.inr ⟨i, mem_range.mp hm, hp, rfl, by simpa using hi, rfl⟩)
    | none =>
      refine .inl ⟨.inr fun i hi => ?_, rfl, rfl⟩
      simpa using find?_eq_none.mp hfree i (mem_range.mpr hi)

/-- The file that a write works on. -/
structure Opened (fs fs' : Fs) (path : Name) (i : Nat) (n : Node) : Prop where
  lt : i < ramfsMaxFiles
  node : fs'.nodes i = some n
  /-- It was there, or it is new and empty. -/
  origin : (ramfsFind fs path = some i ∧ fs' = fs) ∨
    (path ≠ [] ∧ ramfsFind fs path = none ∧ fs.nodes i = none ∧
      n = emptyNode (path.take (nameSize - 1)) false ∧ fs' = fs.setNode i (some n))

lemma ramfsOpenFile_cases (fs : Fs) (path : Name) :
    (ramfsOpenFile fs path = (none, fs)) ∨
    ∃ i n fs', ramfsOpenFile fs path = (some (i, n), fs') ∧ Opened fs fs' path i n := by
  unfold ramfsOpenFile
  rcases ramfsCreate_cases fs path false with ⟨-, -, hc⟩ | ⟨i, hf, hc⟩ | ⟨i, hi, hp, hf, hfree, hc⟩
  · exact .inl (by rw [hc])
  · obtain ⟨hi, n, hn, -⟩ := ramfsFind_some hf
    rw [hc]
    dsimp only
    rw [hn]
    cases hd : n.isDir with
    | true => exact .inl (by simp [hd])
    | false => exact .inr ⟨i, n, fs, by simp [hd], hi, hn, .inl ⟨hf, rfl⟩⟩
  · rw [hc]
    have hnew : (fs.setNode i (some (emptyNode (path.take (nameSize - 1)) false))).nodes i =
        some (emptyNode (path.take (nameSize - 1)) false) := by
      rw [Fs.setNode_nodes, if_pos rfl]
    dsimp only
    rw [hnew]
    exact .inr ⟨i, _, _, rfl, hi, hnew, .inr ⟨hp, hf, hfree, rfl, rfl⟩⟩

end Nodes

/-! ## Growing a buffer -/

section Grow

variable {cap target fuel r p : Nat}

/-- The capacities that the code makes. -/
def Doubled (cap : Nat) : Prop := cap = 0 ∨ ∃ p, 8 ≤ p ∧ cap = 2 ^ p

/-- The first power of two that is large enough, and not below the old capacity or 256. -/
def grown (cap target : Nat) : Nat := max (if cap ≠ 0 then cap else 256) (2 ^ clog 2 target)

lemma le_grown (cap target : Nat) : target ≤ grown cap target :=
  (le_pow_clog (by decide) target).trans (le_max_right _ _)

lemma cap_le_grown (cap target : Nat) : cap ≤ grown cap target := by
  refine le_trans ?_ (le_max_left _ _)
  split_ifs <;> omega

lemma Doubled.start (h : Doubled cap) : ∃ p, 8 ≤ p ∧ (if cap ≠ 0 then cap else 256) = 2 ^ p := by
  rcases h with rfl | ⟨p, hp, rfl⟩
  · exact ⟨8, le_rfl, by decide⟩
  · exact ⟨p, hp, by simp⟩

lemma doubled_grown (h : Doubled cap) (target : Nat) : Doubled (grown cap target) := by
  obtain ⟨p, hp, hstart⟩ := h.start
  unfold grown
  rw [hstart]
  rcases le_total (2 ^ p) (2 ^ clog 2 target) with hle | hle
  · rw [max_eq_right hle]
    exact .inr ⟨_, hp.trans ((Nat.pow_le_pow_iff_right (by decide)).mp hle), rfl⟩
  · rw [max_eq_left hle]
    exact .inr ⟨p, hp, rfl⟩

lemma growBody_stop {c : Nat} (h : target ≤ c) : growBody target c = .inr c :=
  if_neg (by omega)

lemma growBody_next {c : Nat} (h : c < target) : growBody target c = .inl (u64 (c * 2)) :=
  if_pos h

/-- Doubling from a power of two ends at `grown`, if the target is at most `2^63`. -/
theorem grow_loop (ht : target ≤ 2 ^ 63) (k : Nat) : ∀ p, p + k = 63 →
    loop (growBody target) (k + 1) (2 ^ p) = some (max (2 ^ p) (2 ^ clog 2 target)) := by
  induction k with
  | zero =>
    intro p hp
    obtain rfl : p = 63 := by omega
    have hclog : clog 2 target ≤ 63 := clog_le_of_le_pow ht
    have hpow := Nat.pow_le_pow_right (show 0 < 2 by decide) hclog
    rw [loop_inr (growBody_stop ht), max_eq_left hpow]
  | succ k ih =>
    intro p hp
    by_cases hlt : 2 ^ p < target
    · have hnext : u64 (2 ^ p * 2) = 2 ^ (p + 1) := by
        rw [← pow_succ]
        exact u64_of_lt (Nat.pow_lt_pow_right (by decide) (by omega))
      have hclog : p + 1 ≤ clog 2 target := (lt_clog_iff_pow_lt (by decide)).mpr hlt
      have hle := Nat.pow_le_pow_right (show 0 < 2 by decide) hclog
      have hle' := Nat.pow_le_pow_right (show 0 < 2 by decide) (le_of_succ_le hclog)
      rw [loop_inl (growBody_next hlt), hnext, ih (p + 1) (by omega), max_eq_right hle,
        max_eq_right hle']
    · have hclog : clog 2 target ≤ p := clog_le_of_le_pow (by omega)
      have hpow := Nat.pow_le_pow_right (show 0 < 2 by decide) hclog
      rw [loop_inr (growBody_stop (by omega)), max_eq_left hpow]

/-- A target above `2^63` is never reached: the capacity doubles to zero. -/
theorem grow_forever (ht : 2 ^ 63 < target) (hp : p ≤ 63) (fuel : Nat) :
    loop (growBody target) fuel (2 ^ p) = none := by
  refine loop_invariant (I := fun c => c = 0 ∨ ∃ q ≤ 63, c = 2 ^ q) (fun c hc => ?_)
    (.inr ⟨p, hp, rfl⟩) fuel
  have hlt : c < target := by
    rcases hc with rfl | ⟨q, hq, rfl⟩
    · omega
    · exact (Nat.pow_le_pow_right (by decide) hq).trans_lt ht
  refine ⟨u64 (c * 2), growBody_next hlt, ?_⟩
  rcases hc with rfl | ⟨q, hq, rfl⟩
  · exact .inl rfl
  · rcases eq_or_lt_of_le hq with rfl | hq
    · exact .inl (by decide)
    · refine .inr ⟨q + 1, hq, ?_⟩
      rw [← pow_succ]
      exact u64_of_lt (Nat.pow_lt_pow_right (by decide) (by omega))

lemma growCap_start (hd : Doubled cap) (hcap : cap ≤ 2 ^ 63) :
    ∃ p ≤ 63, (if cap ≠ 0 then cap else 256) = 2 ^ p := by
  obtain ⟨p, -, hstart⟩ := hd.start
  refine ⟨p, (Nat.pow_le_pow_iff_right (show 1 < 2 by decide)).mp ?_, hstart⟩
  rw [← hstart]
  split_ifs <;> omega

lemma growCap_eq (hd : Doubled cap) (hcap : cap ≤ 2 ^ 63) (ht : target ≤ 2 ^ 63)
    (hf : 64 ≤ fuel) :
    growCap fuel cap target = some (grown cap target) := by
  obtain ⟨p, hp, hstart⟩ := growCap_start hd hcap
  unfold growCap grown
  rw [hstart]
  exact loop_mono (grow_loop ht (63 - p) p (by omega)) (by omega)

lemma growCap_none (hd : Doubled cap) (hcap : cap ≤ 2 ^ 63) (ht : 2 ^ 63 < target) :
    growCap fuel cap target = none := by
  obtain ⟨p, hp, hstart⟩ := growCap_start hd hcap
  unfold growCap
  rw [hstart]
  exact grow_forever ht hp fuel

/-- Whatever the fuel, a result of the loop is `grown`. -/
theorem growCap_some (hd : Doubled cap) (hcap : cap ≤ 2 ^ 63)
    (h : growCap fuel cap target = some r) :
    target ≤ 2 ^ 63 ∧ r = grown cap target := by
  by_cases ht : target ≤ 2 ^ 63
  · refine ⟨ht, some.inj ?_⟩
    rw [← growCap_eq hd hcap ht (le_max_right fuel 64)]
    exact (loop_mono h (le_max_left fuel 64)).symm
  · rw [growCap_none hd hcap (by omega)] at h
    exact absurd h (by simp)

end Grow

/-! ## The accounts -/

section Accounts

variable {fs fs' : Fs} {path : Name} {i : Nat} {n : Node} {fuel : Nat} {alloc : Nat → Bool}

def capOf (o : Option Node) : Nat := o.elim 0 Node.cap

def Fs.caps (fs : Fs) : Nat := ∑ i ∈ Finset.range ramfsMaxFiles, capOf (fs.nodes i)

lemma Fs.caps_setNode (hi : i < ramfsMaxFiles) (o : Option Node) :
    (fs.setNode i o).caps + capOf (fs.nodes i) = fs.caps + capOf o := by
  have hm : i ∈ range ramfsMaxFiles := mem_range.mpr hi
  have : ∑ j ∈ (Finset.range ramfsMaxFiles).erase i, capOf ((fs.setNode i o).nodes j) =
      ∑ j ∈ (Finset.range ramfsMaxFiles).erase i, capOf (fs.nodes j) :=
    Finset.sum_congr rfl fun j hj => by
      rw [setNode_nodes, if_neg (Finset.ne_of_mem_erase hj)]
  unfold caps
  rw [← Finset.add_sum_erase _ _ hm, ← Finset.add_sum_erase _ (fun j => capOf (fs.nodes j)) hm,
    setNode_nodes, if_pos rfl]
  omega

lemma Fs.capOf_le_caps (fs : Fs) (hi : i < ramfsMaxFiles) : capOf (fs.nodes i) ≤ fs.caps :=
  Finset.single_le_sum (f := fun j => capOf (fs.nodes j)) (fun _ _ => zero_le _)
    (mem_range.mpr hi)

structure Accounted (fs : Fs) : Prop where
  outside : ∀ i, ramfsMaxFiles ≤ i → fs.nodes i = none
  bytes : fs.bytesUsed = fs.caps
  bound : fs.bytesUsed ≤ ramfsMaxData
  node : ∀ i n, fs.nodes i = some n → n.size ≤ n.cap ∧ Doubled n.cap

lemma Accounted.lt (h : Accounted fs) (hn : fs.nodes i = some n) : i < ramfsMaxFiles := by
  by_contra hi
  rw [h.outside i (by omega)] at hn
  exact absurd hn (by simp)

lemma Accounted.cap_le (h : Accounted fs) (hn : fs.nodes i = some n) : n.cap ≤ fs.bytesUsed := by
  have := fs.capOf_le_caps (h.lt hn)
  rwa [hn, ← h.bytes] at this

/-- One entry changes, and `bytes_used` with it. -/
theorem Accounted.set (h : Accounted fs) (hi : i < ramfsMaxFiles) {o : Option Node} {b : Nat}
    (ho : ∀ n, o = some n → n.size ≤ n.cap ∧ Doubled n.cap)
    (hb : b + capOf (fs.nodes i) = fs.bytesUsed + capOf o) (hmax : b ≤ ramfsMaxData) :
    Accounted { fs.setNode i o with bytesUsed := b } := by
  refine ⟨fun j hj => ?_, ?_, hmax, fun j m hj => ?_⟩
  · have hji : j ≠ i := by omega
    exact (fs.setNode_nodes i o j).trans ((if_neg hji).trans (h.outside j hj))
  · have := fs.caps_setNode hi o
    have := h.bytes
    exact show b = (fs.setNode i o).caps by omega
  · replace hj := (fs.setNode_nodes i o j).symm.trans hj
    split_ifs at hj
    · exact ho m hj
    · exact h.node j m hj

/-- An entry may change as long as its capacity stays. -/
theorem Accounted.setNode (h : Accounted fs) (hi : i < ramfsMaxFiles) (hn : n.size ≤ n.cap)
    (hd : Doubled n.cap) (hcap : n.cap = capOf (fs.nodes i)) : Accounted (fs.setNode i (some n)) :=
  h.set hi (fun m hm => by obtain rfl := some.inj hm; exact ⟨hn, hd⟩)
    (by rw [hcap.symm]; rfl) h.bound

lemma accounted_init : Accounted ramfsInit := by
  refine ⟨fun i hi => ?_, by decide +kernel, by decide, fun i n hn => ?_⟩
  · have hi0 : i ≠ 0 := by unfold ramfsMaxFiles at hi; omega
    simp [ramfsInit, hi0]
  · simp only [ramfsInit] at hn
    split_ifs at hn
    obtain rfl := some.inj hn
    exact ⟨le_rfl, .inl rfl⟩

lemma Accounted.create (h : Accounted fs) (path : Name) (isDir : Bool) :
    Accounted (ramfsCreate fs path isDir).2 := by
  rcases ramfsCreate_cases fs path isDir with ⟨-, -, hc⟩ | ⟨i, -, hc⟩ | ⟨i, hi, -, -, hfree, hc⟩
  · rwa [hc]
  · rwa [hc]
  · rw [hc]
    exact h.setNode hi le_rfl (.inl rfl) (by rw [hfree]; rfl)

lemma Opened.accounted (ho : Opened fs fs' path i n) (h : Accounted fs) : Accounted fs' := by
  rcases ho.origin with ⟨-, rfl⟩ | ⟨-, -, hfree, rfl, rfl⟩
  · exact h
  · exact h.setNode ho.lt le_rfl (.inl rfl) (by rw [hfree]; rfl)

lemma enlarge_cases (h : Accounted fs) (hn : fs.nodes i = some n) {target keep : Nat}
    {r : Option (Node × Fs)} (he : enlarge fuel alloc fs i n target keep = some r) :
    (target ≤ n.cap ∧ r = some (n, fs)) ∨
    (n.cap < target ∧ target ≤ 2 ^ 63 ∧
      ((ramfsMaxData < fs.bytesUsed - n.cap + grown n.cap target ∨
          alloc (grown n.cap target) = false) ∧ r = none ∨
        (fs.bytesUsed - n.cap + grown n.cap target ≤ ramfsMaxData ∧
          alloc (grown n.cap target) = true ∧
          ∃ n' fs', r = some (n', fs') ∧
            n' = { n with data := fun k => if k < keep then n.data k else 0,
                          cap := grown n.cap target } ∧
            fs' = { fs.setNode i (some n') with
              bytesUsed := fs.bytesUsed - n.cap + grown n.cap target }))) := by
  obtain ⟨hsize, hd⟩ := h.node i n hn
  have hcap := h.cap_le hn
  have hbound := h.bound
  unfold ramfsMaxData at hbound
  unfold enlarge at he
  split_ifs at he with hgt
  · refine .inr ⟨hgt, ?_⟩
    cases hg : growCap fuel n.cap target with
    | none => rw [hg] at he; simp at he
    | some newcap =>
      obtain ⟨ht, rfl⟩ := growCap_some hd (by omega) hg
      refine ⟨ht, ?_⟩
      rw [hg] at he
      have hr := (some.inj he).symm
      -- The new capacity is at most `2^63`, so the sums do not wrap.
      have : grown n.cap target ≤ 2 ^ 63 := by
        refine max_le (by split_ifs <;> omega) ?_
        exact Nat.pow_le_pow_right (by decide) (clog_le_of_le_pow ht)
      have hsum : u64 (sub64 fs.bytesUsed n.cap + grown n.cap target) =
          fs.bytesUsed - n.cap + grown n.cap target := by
        rw [sub64_of_le hcap (by omega), u64_of_lt]
      dsimp only at hr
      rw [hsum] at hr
      split_ifs at hr with hq ha
      · exact .inl ⟨.inl hq, hr⟩
      · exact .inr ⟨by omega, ha, _, _, hr, rfl, rfl⟩
      · exact .inl ⟨.inr (by simpa using ha), hr⟩
  · exact .inl ⟨by omega, (some.inj he).symm⟩

/-- The buffer after `enlarge` holds the target and the accounts are right. -/
theorem enlarge_accounted (h : Accounted fs) (hn : fs.nodes i = some n) {target keep : Nat}
    {n' : Node} (he : enlarge fuel alloc fs i n target keep = some (some (n', fs'))) :
    Accounted fs' ∧ fs'.nodes i = some n' ∧ target ≤ n'.cap ∧
      n'.isDir = n.isDir ∧ n'.name = n.name ∧ ∀ j, j ≠ i → fs'.nodes j = fs.nodes j := by
  obtain ⟨hsize, hd⟩ := h.node i n hn
  have := h.cap_le hn
  rcases enlarge_cases h hn he with ⟨ht, hr⟩ | ⟨hlt, ht, ⟨-, hr⟩ | ⟨hq, -, m, fs2, hr, hm, hfs2⟩⟩
  · obtain ⟨rfl, rfl⟩ := Prod.mk.inj (some.inj hr)
    exact ⟨h, hn, ht, rfl, rfl, fun _ _ => rfl⟩
  · exact absurd hr (by simp)
  · obtain ⟨rfl, rfl⟩ := Prod.mk.inj (some.inj hr)
    have hold : capOf (fs.nodes i) = n.cap := by rw [hn]; rfl
    refine ⟨?_, ?_, ?_, ?_, ?_, fun j hj => ?_⟩
    · rw [hfs2]
      refine h.set (h.lt hn) (fun k hk => ?_) ?_ hq
      · obtain rfl := some.inj hk
        rw [hm]
        exact ⟨hsize.trans (cap_le_grown _ _), doubled_grown hd _⟩
      · rw [hold, hm]
        simp only [capOf, elim_some]
        omega
    · rw [hfs2]; exact (fs.setNode_nodes i _ i).trans (if_pos rfl)
    · rw [hm]; exact le_grown _ _
    · rw [hm]
    · rw [hm]
    · rw [hfs2]; exact (fs.setNode_nodes i _ j).trans (if_neg hj)

lemma enlarge_labels (h : Accounted fs) (hn : fs.nodes i = some n) {target keep : Nat}
    {n' : Node} (he : enlarge fuel alloc fs i n target keep = some (some (n', fs'))) :
    fs'.labels = fs.labels := by
  obtain ⟨-, hn', -, hdir, hname, hother⟩ := enlarge_accounted h hn he
  funext j
  by_cases hj : j = i
  · subst hj
    rw [Fs.labels_some hn', Fs.labels_some hn, hname, hdir]
  · unfold Fs.labels
    rw [hother j hj]

/-- New contents that keep the name and the kind of a file. -/
theorem enlarge_edit (h : Accounted fs) (hn : fs.nodes i = some n) {α : Type} {a b : α}
    {target keep : Nat} (f : Node → Node)
    (hf : ∀ m : Node, m.size ≤ m.cap → target ≤ m.cap → (f m).size ≤ m.cap ∧
      (f m).cap = m.cap ∧ (f m).name = m.name ∧ (f m).isDir = m.isDir) :
    Ensures ((enlarge fuel alloc fs i n target keep).map fun
      | none => (a, fs)
      | some (n, fs) => (b, fs.setNode i (some (f n))))
      fun q => Accounted q.2 ∧ q.2.labels = fs.labels := by
  refine .map fun r he => ?_
  cases r with
  | none => exact ⟨h, rfl⟩
  | some q =>
    obtain ⟨m, fs'⟩ := q
    obtain ⟨h', hm, ht, -⟩ := enlarge_accounted h hn he
    obtain ⟨hsize, hd⟩ := h'.node i m hm
    obtain ⟨hs, hc, hname, hdir⟩ := hf m hsize ht
    refine ⟨h'.setNode (h.lt hn) (hc ▸ hs) (hc ▸ hd) (by rw [hc, hm]; rfl), ?_⟩
    exact (Fs.labels_same hm hname hdir).trans (enlarge_labels h hn he)

/-- What a call on the contents of a file leaves: nothing changed, or the file was opened, and
the names and the kinds stayed from then on. -/
def Touched (fs : Fs) (path : Name) (fs' : Fs) : Prop :=
  fs' = fs ∨ ∃ i n fs₁, Opened fs fs₁ path i n ∧ Accounted fs' ∧ fs'.labels = fs₁.labels

lemma Touched.accounted (ht : Touched fs path fs') (h : Accounted fs) : Accounted fs' := by
  obtain rfl | ⟨-, -, -, -, h', -⟩ := ht
  · exact h
  · exact h'

lemma touched_write (h : Accounted fs) (buf : List UInt8) (offset : Nat) :
    Ensures (ramfsWrite fuel alloc fs path buf offset) fun q => Touched fs path q.2 := by
  unfold ramfsWrite
  rcases ramfsOpenFile_cases fs path with ho | ⟨i, n, fs₁, ho, hop⟩
  · rw [ho]
    exact .pure (.inl rfl)
  · rw [ho]
    intro q hq
    refine .inr ⟨i, n, fs₁, hop, enlarge_edit (hop.accounted h) hop.node (fun m => { m with
      data := m.data.store offset buf, size := max m.size (u64 (offset + buf.length)) }) ?_ q hq⟩
    exact fun m hs ht => ⟨max_le hs ht, rfl, rfl, rfl⟩

lemma touched_truncate (h : Accounted fs) (path : Name) :
    Touched fs path (ramfsTruncate fs path).2 := by
  unfold ramfsTruncate
  rcases ramfsOpenFile_cases fs path with ho | ⟨i, n, fs₁, ho, hop⟩
  · rw [ho]
    exact .inl rfl
  · rw [ho]
    have h₁ := hop.accounted h
    exact .inr ⟨i, n, fs₁, hop, h₁.setNode hop.lt (zero_le _) (h₁.node i n hop.node).2
      (by rw [hop.node]; rfl), Fs.labels_same hop.node rfl rfl⟩

lemma touched_resize (h : Accounted fs) (size : Nat) :
    Ensures (ramfsResize fuel alloc fs path size) fun q => Touched fs path q.2 := by
  unfold ramfsResize
  rcases ramfsOpenFile_cases fs path with ho | ⟨i, n, fs₁, ho, hop⟩
  · rw [ho]
    exact .pure (.inl rfl)
  · rw [ho]
    intro q hq
    refine .inr ⟨i, n, fs₁, hop, enlarge_edit (hop.accounted h) hop.node (fun m => { m with
      data := if m.cap ≠ 0 ∧ size > m.size then m.data.fill m.size (size - m.size) 0 else m.data
      size }) ?_ q hq⟩
    exact fun m _ ht => ⟨ht, rfl, rfl, rfl⟩

lemma Accounted.release (h : Accounted fs) (i : Nat) : Accounted (fs.release i) := by
  unfold Fs.release
  cases hn : fs.nodes i with
  | none => exact h
  | some n =>
    have hcap := h.cap_le hn
    have hbound := h.bound
    have hsub : sub64 fs.bytesUsed n.cap = fs.bytesUsed - n.cap :=
      sub64_of_le hcap (by unfold ramfsMaxData at hbound; omega)
    refine h.set (h.lt hn) (fun _ hm => absurd hm (by simp)) ?_ ?_
    · rw [hn]
      simp only [capOf, elim_some, elim_none]
      omega
    · rw [hsub]; omega

lemma Accounted.unlink (h : Accounted fs) (path : Name) : Accounted (ramfsUnlink fs path).2 := by
  have hfold : ∀ (js : List Nat) (i : Nat) (fs : Fs), Accounted fs →
      Accounted (js.foldl (unlinkBelow path i) fs) := by
    intro js i
    induction js with
    | nil => exact fun _ h => h
    | cons j js ih =>
      intro fs h
      refine ih _ ?_
      unfold unlinkBelow
      split
      · split_ifs
        · exact h.release j
        · exact h
      · exact h
  unfold ramfsUnlink
  generalize range ramfsMaxFiles = js
  split
  · exact h
  · next i _ =>
    split_ifs
    · exact h
    · exact (hfold js i fs h).release i

lemma Accounted.rename (h : Accounted fs) (old new : Name) :
    Accounted (ramfsRename fs old new).2 := by
  have hname : ∀ {fs : Fs} {i : Nat} {n : Node}, Accounted fs → fs.nodes i = some n →
      ∀ name, Accounted (fs.setNode i (some { n with name })) := by
    intro fs i n h hn name
    obtain ⟨hsize, hd⟩ := h.node i n hn
    exact h.setNode (h.lt hn) hsize hd (by rw [hn]; rfl)
  have hloop : ∀ (js : List Nat) (i : Nat) (fs : Fs), Accounted fs →
      Accounted (renameBelow old new i js fs).2 := by
    intro js i
    induction js with
    | nil => exact fun _ h => h
    | cons j js ih =>
      intro fs h
      rw [renameBelow]
      split
      · next child hc =>
        dsimp only
        split_ifs
        · exact h
        · exact ih _ (hname h hc _)
        · exact ih _ h
      · exact ih _ h
  unfold ramfsRename
  split
  · exact h
  · next i hf =>
    split
    · exact h
    · next n hn =>
      split_ifs
      · exact h
      · exact hloop _ _ _ (hname h hn new)
      · exact hname h hn new

end Accounts

end YamKernel.Ramfs

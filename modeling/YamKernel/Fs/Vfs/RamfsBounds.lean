import YamKernel.Fs.Ramfs.Accounts
import YamKernel.Fs.Vfs.Model

/-!
# Writes to a RAM file system

A write at an offset that `sys_lseek` can set ends, and either fails without an effect or
stays within 16 MB, except where `offset + count` is more than `2^63` (the capacity doubles
to zero and the loop goes on for ever, or the sum wraps around and the bytes go past the
buffer) or where the write first creates a file that was removed.
-/

namespace YamKernel.Ramfs

open Lib Vfs Option

section Write

variable {fs : Fs} {rel : Name} {i : Nat} {n : Node} {fuel target keep off : Nat}
  {alloc : Nat → Bool} {buf : List UInt8}

/-- There is no room for a buffer of `target` bytes in place of one of `cap` bytes. -/
def NoRoom (alloc : Nat → Bool) (fs : Fs) (cap target : Nat) : Prop :=
  ramfsMaxData < fs.bytesUsed - cap + grown cap target ∨ alloc (grown cap target) = false

lemma not_noRoom {cap : Nat} : ¬ NoRoom alloc fs cap target ↔
    fs.bytesUsed - cap + grown cap target ≤ ramfsMaxData ∧ alloc (grown cap target) = true := by
  simp [NoRoom]

lemma enlarge_returns (alloc : Nat → Bool) (keep : Nat) (h : Accounted fs)
    (hn : fs.nodes i = some n) (ht : target ≤ 2 ^ 63) :
    ∃ r, enlarge 64 alloc fs i n target keep = some r := by
  unfold enlarge
  split_ifs
  · rw [growCap_eq (h.node i n hn).2 (by omega) ht le_rfl]
    exact ⟨_, rfl⟩
  · exact ⟨_, rfl⟩

lemma enlarge_hangs (h : Accounted fs) (hn : fs.nodes i = some n) (ht : 2 ^ 63 < target) :
    enlarge fuel alloc fs i n target keep = none := by
  have := h.cap_le hn
  have hbound := h.bound
  unfold ramfsMaxData at hbound
  unfold enlarge
  rw [if_pos (by omega), growCap_none (h.node i n hn).2 (by omega) ht]
  rfl

/-- A write ends; it fails and nothing changes, or all of it is within 16 MB. -/
def Contained (alloc : Nat → Bool) (fs : Fs) (rel : Name) (buf : List UInt8) (off : Nat) : Prop :=
  ∃ fuel r fs', ramfsWrite fuel alloc fs rel buf off = some (r, fs') ∧
    (r = none ∧ fs' = fs ∨ r = some buf.length ∧ off + buf.length ≤ ramfsMaxData)

/-- The condition on the file and on `total = offset + count`. -/
def Containable (alloc : Nat → Bool) (fs : Fs) (rel : Name) (total : Nat) : Prop :=
  match (ramfsFind fs rel).bind fs.nodes with
  | some n => n.isDir = true ∨ total ≤ 2 ^ 63 ∨
      (2 ^ 64 + n.cap < total ∧ NoRoom alloc fs n.cap (total - 2 ^ 64))
  | none => (∀ k < ramfsMaxFiles, fs.nodes k ≠ none) ∨ total = 0 ∨
      (total ≤ 2 ^ 63 ∧ ¬ NoRoom alloc fs 0 total)

lemma ramfsWrite_opened {fs' : Fs} (ho : ramfsOpenFile fs rel = (some (i, n), fs')) :
    ramfsWrite fuel alloc fs rel buf off =
      (enlarge fuel alloc fs' i n (u64 (off + buf.length)) n.size).map fun
        | none => (none, fs')
        | some (n, fs) => (some buf.length, fs.setNode i (some
            { n with
              data := n.data.store off buf, size := max n.size (u64 (off + buf.length)) })) := by
  unfold ramfsWrite
  rewrite [ho]
  rfl

lemma ramfsWrite_result {fs' fs'' : Fs} (h : Accounted fs') (hn : fs'.nodes i = some n)
    (ho : ramfsOpenFile fs rel = (some (i, n), fs')) {r : Option Nat}
    (hw : ramfsWrite fuel alloc fs rel buf off = some (r, fs'')) :
    let t := u64 (off + buf.length)
    (n.cap < t ∧ NoRoom alloc fs' n.cap t ∧ r = none ∧ fs'' = fs') ∨
      (r = some buf.length ∧ t ≤ ramfsMaxData ∧ (n.cap < t → ¬ NoRoom alloc fs' n.cap t)) := by
  rw [ramfsWrite_opened ho] at hw
  generalize u64 (off + buf.length) = t at *
  cases he : enlarge fuel alloc fs' i n t n.size with
  | none => simp [he] at hw
  | some q =>
    rw [he] at hw
    rcases enlarge_cases h hn he with ⟨ht, rfl⟩ | ⟨hlt, -, ⟨hroom, rfl⟩ | ⟨hq, ha, n', fs1, rfl, -⟩⟩
    · obtain ⟨rfl, -⟩ := Prod.mk.inj (some.inj hw)
      refine .inr ⟨rfl, ?_, fun hlt => absurd ht (by omega)⟩
      exact ht.trans ((h.cap_le hn).trans h.bound)
    · obtain ⟨rfl, rfl⟩ := Prod.mk.inj (some.inj hw)
      exact .inl ⟨hlt, hroom, rfl, rfl⟩
    · obtain ⟨rfl, -⟩ := Prod.mk.inj (some.inj hw)
      refine .inr ⟨rfl, ?_, fun _ => not_noRoom.mpr ⟨hq, ha⟩⟩
      have := le_grown n.cap t
      omega

/-- A write to an open file returns unless its end is above `2^63`. -/
theorem ramfsWrite_returns (alloc : Nat → Bool) {fs' : Fs} (h : Accounted fs')
    (hn : fs'.nodes i = some n) (ho : ramfsOpenFile fs rel = (some (i, n), fs')) :
    (∃ fuel r, ramfsWrite fuel alloc fs rel buf off = some r) ↔
      u64 (off + buf.length) ≤ 2 ^ 63 := by
  constructor
  · rintro ⟨fuel, r, hr⟩
    by_contra hgt
    rw [ramfsWrite_opened ho, enlarge_hangs h hn (by omega)] at hr
    simp at hr
  · intro hle
    obtain ⟨q, hq⟩ := enlarge_returns alloc n.size h hn hle
    exact ⟨64, _, by rw [ramfsWrite_opened ho, hq, map_some]⟩

section

variable (hf : ramfsFind fs rel = some i)
include hf

lemma ramfsOpenFile_of_find (hn : fs.nodes i = some n) :
    ramfsOpenFile fs rel = (if n.isDir then none else some (i, n), fs) := by
  rcases ramfsCreate_cases fs rel false with ⟨-, hnone, -⟩ | ⟨j, hj, hc⟩ | ⟨-, -, -, hnone, -⟩
  · simp [hf] at hnone
  · obtain rfl := some.inj (hf.symm.trans hj)
    simp [ramfsOpenFile, hc, hn]
  · simp [hf] at hnone

lemma ramfsOpenFile_found (hn : fs.nodes i = some n) (hd : n.isDir = false) :
    ramfsOpenFile fs rel = (some (i, n), fs) := by
  rw [ramfsOpenFile_of_find hf hn, hd]
  rfl

lemma ramfsWrite_dir (hn : fs.nodes i = some n) (hd : n.isDir = true) :
    ramfsWrite fuel alloc fs rel buf off = some (none, fs) := by
  unfold ramfsWrite
  rw [ramfsOpenFile_of_find hf hn, hd]
  rfl

end

lemma contained_file (alloc : Nat → Bool) (h : Accounted fs) (hf : ramfsFind fs rel = some i)
    (hn : fs.nodes i = some n) (hd : n.isDir = false)
    (htotal : off + buf.length < 2 ^ 64 + 2 ^ 63) :
    Contained alloc fs rel buf off ↔ off + buf.length ≤ 2 ^ 63 ∨
      (2 ^ 64 + n.cap < off + buf.length ∧
        NoRoom alloc fs n.cap (off + buf.length - 2 ^ 64)) := by
  have ho := ramfsOpenFile_found hf hn hd
  have hwrap : 2 ^ 64 ≤ off + buf.length →
      u64 (off + buf.length) = off + buf.length - 2 ^ 64 := by
    intro hle; unfold u64; omega
  constructor
  · rintro ⟨fuel, r, fs', hw, hres⟩
    have hret := (ramfsWrite_returns alloc h hn ho).mp ⟨fuel, _, hw⟩
    by_cases hlt : off + buf.length < 2 ^ 64
    · rw [u64_of_lt hlt] at hret
      exact .inl hret
    · refine .inr ?_
      rcases ramfsWrite_result h hn ho hw with ⟨hlt', hroom, -⟩ | ⟨hr, -⟩
      · rw [hwrap (by omega)] at hroom
        exact ⟨by omega, hroom⟩
      · rcases hres with ⟨hnone, -⟩ | ⟨-, hmax⟩
        · simp [hr] at hnone
        · unfold ramfsMaxData at hmax; omega
  · intro hcond
    have hle : u64 (off + buf.length) ≤ 2 ^ 63 := by
      rcases hcond with hle | ⟨hlt, -⟩
      · rwa [u64_of_lt]
      · rw [hwrap (by omega)]; omega
    obtain ⟨fuel, ⟨r, fs'⟩, hw⟩ := (ramfsWrite_returns alloc h hn ho).mpr hle
    refine ⟨fuel, r, fs', hw, ?_⟩
    rcases ramfsWrite_result h hn ho hw with ⟨-, -, hr, hfs⟩ | ⟨hr, hmax, hroom⟩
    · exact .inl ⟨hr, hfs⟩
    · refine .inr ⟨hr, ?_⟩
      rcases hcond with hsmall | ⟨hlt, hno⟩
      · rwa [u64_of_lt] at hmax
      · rw [hwrap (by omega)] at hroom
        exact absurd hno (hroom (by omega))

/-- A file that is not there is created first, so the write must not fail. -/
theorem contained_absent (h : Accounted fs) (hf : ramfsFind fs rel = none) (hrel : rel ≠ [])
    (htotal : off + buf.length < 2 ^ 64 + 2 ^ 63) :
    Contained alloc fs rel buf off ↔ (∀ k < ramfsMaxFiles, fs.nodes k ≠ none) ∨
      off + buf.length = 0 ∨ (off + buf.length ≤ 2 ^ 63 ∧
        ¬ NoRoom alloc fs 0 (off + buf.length)) := by
  rcases ramfsCreate_cases fs rel false with
    ⟨hfull, -, hc⟩ | ⟨i, hi, -⟩ | ⟨i, hi, -, -, hfree, hc⟩
  · refine iff_of_true ?_ (.inl (hfull.resolve_left hrel))
    refine ⟨0, none, fs, ?_, .inl ⟨rfl, rfl⟩⟩
    simp [ramfsWrite, ramfsOpenFile, hc]
  · simp [hf] at hi
  rw [or_iff_right fun hfull => hfull i hi hfree]
  obtain ⟨new, hnew⟩ : ∃ new, new = emptyNode (rel.take (nameSize - 1)) false := ⟨_, rfl⟩
  rw [← hnew] at hc
  have hn : (fs.setNode i (some new)).nodes i = some new := by
    rw [Fs.setNode_nodes, if_pos rfl]
  have ho : ramfsOpenFile fs rel = (some (i, new), fs.setNode i (some new)) := by
    have hfile : new.isDir = false := by rw [hnew]; rfl
    simp [ramfsOpenFile, hc, hn, hfile]
  have hcap : new.cap = 0 := by rw [hnew]; rfl
  have h' : Accounted (fs.setNode i (some new)) := by
    have := h.create rel false
    rwa [hc] at this
  have hchanged : fs.setNode i (some new) ≠ fs := by
    intro heq
    rw [heq, hfree] at hn
    simp at hn
  have hroom : ∀ target, NoRoom alloc (fs.setNode i (some new)) new.cap target ↔
      NoRoom alloc fs 0 target := fun target => by rw [hcap]; rfl
  constructor
  · rintro ⟨fuel, r, fs', hw, ⟨hr, hfs⟩ | ⟨hr, hmax⟩⟩
    · rcases ramfsWrite_result h' hn ho hw with ⟨-, -, -, hfs'⟩ | ⟨hsome, -⟩
      · exact absurd (hfs'.symm.trans hfs) hchanged
      · simp [hr] at hsome
    · unfold ramfsMaxData at hmax
      have hsum : u64 (off + buf.length) = off + buf.length := u64_of_lt
      rcases ramfsWrite_result h' hn ho hw with ⟨-, -, hnone, -⟩ | ⟨-, -, hyes⟩
      · simp [hr] at hnone
      · rw [hsum, hcap] at hyes
        rcases eq_zero_or_pos (off + buf.length) with hzero | hpos
        · exact .inl hzero
        · exact .inr ⟨by omega, hyes hpos⟩
  · intro hcond
    have hsum : u64 (off + buf.length) = off + buf.length := u64_of_lt
    have hle : u64 (off + buf.length) ≤ 2 ^ 63 := by omega
    obtain ⟨fuel, ⟨r, fs'⟩, hw⟩ := (ramfsWrite_returns alloc h' hn ho).mpr hle
    refine ⟨fuel, r, fs', hw, .inr ?_⟩
    rcases ramfsWrite_result h' hn ho hw with ⟨hlt, hno, -⟩ | ⟨hr, hmax, -⟩
    · rw [hsum, hroom] at hno
      rcases hcond with hzero | ⟨-, hyes⟩
      · omega
      · exact absurd hno hyes
    · rw [hsum] at hmax
      exact ⟨hr, hmax⟩

lemma contained_iff (h : Accounted fs) (hrel : rel ≠ [])
    (htotal : off + buf.length < 2 ^ 64 + 2 ^ 63) :
    Contained alloc fs rel buf off ↔ Containable alloc fs rel (off + buf.length) := by
  unfold Containable
  cases hf : ramfsFind fs rel with
  | none => simpa only [bind_none] using contained_absent h hf hrel htotal
  | some i =>
    obtain ⟨-, n, hn, -⟩ := ramfsFind_some hf
    rw [bind_some, hn]
    cases hd : n.isDir with
    | false => simpa [hd] using contained_file alloc h hf hn hd htotal
    | true =>
      exact iff_of_true ⟨0, none, fs, ramfsWrite_dir hf hn hd, .inl ⟨rfl, rfl⟩⟩ (.inl hd)

end Write

end YamKernel.Ramfs

namespace YamKernel.Vfs

open Lib Ramfs

section SysWrite

variable {env : Env} {c : Ctx} {s : State} {fd id i off : Nat} {f : File} {rel : Name}
  {buf : List UInt8}

/-- Descriptor `fd` is open on RAM file system `i`, on the file `rel`. -/
structure OnRamfs (c : Ctx) (s : State) (fd id : Nat) (f : File) (i : Nat) (rel : Name) :
    Prop where
  fd : fdGet c s fd = some (id, f)
  path : Resolved f.path
  mount : ∃ midx, vfsFindMount s f.path = some (midx, rel) ∧ s.fsOf midx = some (.ramfs i)

lemma vfsFindMount_ne_nil {path : Name} {midx : Nat} (h : vfsFindMount s path = some (midx, rel)) :
    rel ≠ [] := by
  unfold vfsFindMount at h
  split at h
  · simp at h
  · next k len _ =>
    have hrel := (Prod.mk.inj (Option.some.inj h)).2
    rw [← hrel]
    split_ifs with h1
    · simp
    · rintro rfl; simp at h1
    · exact h1

/-- The offset of a write to a RAM file system does not depend on the fuel. -/
theorem OnRamfs.writeOffset (h : OnRamfs c s fd id f i rel) (fuel : Nat) :
    writeOffset env { c with fuel } s f = Vfs.writeOffset env c s f := by
  obtain ⟨midx, hm, hfs⟩ := h.mount
  have habs : ∀ c : Ctx, absPath c s f.path = f.path := fun c => h.path.resolve _
  unfold Vfs.writeOffset sysStat
  simp [habs, hm, hfs]

lemma OnRamfs.sysWrite (h : OnRamfs c s fd id f i rel) (hoff : Vfs.writeOffset env c s f = some off)
    (buf : List UInt8) (fuel : Nat) :
    Vfs.sysWrite env { c with fuel } s fd buf =
      (ramfsWrite fuel c.alloc (s.ramfs i) rel buf off).map fun (r, fs) =>
        (r, (s.setRamfs i fs).setFile id (some { f with offset := u64 (off + r.getD 0) })) := by
  obtain ⟨midx, hm, hfs⟩ := h.mount
  have hfd : fdGet { c with fuel } s fd = some (id, f) := h.fd
  unfold Vfs.sysWrite
  simp [hfd, hm, h.writeOffset, hoff, hfs]

/-- `sys_write` through the descriptor ends; it fails and changes no file, or it writes
everything within 16 MB. -/
def Bounded (env : Env) (c : Ctx) (s : State) (fd : Nat) (buf : List UInt8) (off : Nat) : Prop :=
  ∃ fuel r s', sysWrite env { c with fuel } s fd buf = some (r, s') ∧
    (r = none ∧ s'.ramfs = s.ramfs ∧ s'.disk = s.disk ∨
      r = some buf.length ∧ off + buf.length ≤ ramfsMaxData)

/-- Writes through descriptors of a RAM file system, for every offset that `sys_lseek` can
set and every 64-bit count. -/
theorem ramfs_write_bounded_iff (h : OnRamfs c s fd id f i rel) (hacc : Accounted (s.ramfs i))
    (hoff : writeOffset env c s f = some off) (hlt : off < 2 ^ 63) (hbuf : buf.length < 2 ^ 64) :
    Bounded env c s fd buf off ↔ Containable c.alloc (s.ramfs i) rel (off + buf.length) := by
  obtain ⟨midx, hm, -⟩ := h.mount
  rw [← contained_iff hacc (vfsFindMount_ne_nil hm) (by omega)]
  constructor
  · rintro ⟨fuel, r, s', hw, hres⟩
    rw [h.sysWrite hoff] at hw
    obtain ⟨⟨r', fs'⟩, hw', heq⟩ := Option.map_eq_some_iff.mp hw
    obtain ⟨rfl, rfl⟩ := Prod.mk.inj heq
    refine ⟨fuel, r', fs', hw', hres.imp_left fun ⟨hr, hsame, _⟩ => ⟨hr, ?_⟩⟩
    have := congrFun hsame i
    simpa [State.setFile, State.setRamfs] using this
  · rintro ⟨fuel, r, fs', hw, hres⟩
    refine ⟨fuel, r, _, by rw [h.sysWrite hoff, hw, Option.map_some], ?_⟩
    refine hres.imp_left fun ⟨hr, hfs⟩ => ⟨hr, ?_, rfl⟩
    simp [State.setFile, State.setRamfs, hfs]

def bareEnv : Env where
  initrdLookup _ := none
  initrdIsDir _ := false
  devfsExists _ := false
  devfsRead _ _ _ := none
  devfsWrite _ _ := none
  procfsRead _ _ := none

def tmpA : Name := [47, 116, 109, 112, 47, 97]

/-- A RAM file system at `/tmp` with the empty file `a`, open as descriptor 3. -/
def openedTmp (offset : Nat) : State where
  mounts := [⟨[slash], .initrd, true⟩, ⟨[47, 116, 109, 112], .ramfs 0, true⟩]
  ramfs _ := (ramfsCreate ramfsInit [47, 97] false).2
  disk _ _ := 0
  files := [some ⟨tmpA, offset, 0, 1, some 1⟩]
  fds _ fd := if fd = 3 then some 0 else none
  cwd _ := [slash]

def richCtx : Ctx := ⟨0, fun _ => true, 100⟩

lemma onRamfs_openedTmp (offset : Nat) :
    OnRamfs richCtx (openedTmp offset) 3 0 ⟨tmpA, offset, 0, 1, some 1⟩ 0 [47, 97] where
  fd := rfl
  path := ⟨⟨[[116, 109, 112], [97]], rfl, by unfold Plain; decide, by decide⟩,
    show tmpA.length ≤ 255 by decide⟩
  mount := ⟨1, rfl, rfl⟩

theorem ramfs_write_bounded_start : Bounded bareEnv richCtx (openedTmp 0) 3 [1, 2, 3] 0 :=
  (ramfs_write_bounded_iff (onRamfs_openedTmp 0) (accounted_init.create _ _) rfl (by decide)
    (by decide)).mpr (by
      exact .inr (.inl (by decide)))

/-- Two bytes at the last offset: the loop that doubles the capacity does not end. -/
theorem ramfs_write_hangs :
    ¬ Bounded bareEnv richCtx (openedTmp (2 ^ 63 - 1)) 3 [1, 2] (2 ^ 63 - 1) := by
  rintro ⟨fuel, r, s', hw, -⟩
  have hacc : Accounted ((openedTmp (2 ^ 63 - 1)).ramfs 0) := accounted_init.create _ _
  have hf : ramfsFind ((openedTmp (2 ^ 63 - 1)).ramfs 0) [47, 97] = some 1 := by decide +kernel
  have hn : ((openedTmp (2 ^ 63 - 1)).ramfs 0).nodes 1 = some (emptyNode [47, 97] false) := rfl
  have hoff : writeOffset bareEnv richCtx (openedTmp (2 ^ 63 - 1))
      ⟨tmpA, 2 ^ 63 - 1, 0, 1, some 1⟩ = some (2 ^ 63 - 1) := rfl
  rw [(onRamfs_openedTmp (2 ^ 63 - 1)).sysWrite hoff,
    ramfsWrite_opened (ramfsOpenFile_found hf hn rfl), enlarge_hangs hacc hn (by decide)] at hw
  simp at hw

end SysWrite

end YamKernel.Vfs

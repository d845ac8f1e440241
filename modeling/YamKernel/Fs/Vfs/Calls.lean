import YamKernel.Fs.Vfs.Model
import YamKernel.Lib.Machine

/-!
# Runs of file system calls

The calls of `fs/vfs.c` as one machine. A call that does not return is no step of a run.

What a call does splits into two parts. It changes the storage of at most one file system,
the one its path leads to, and it changes open files and descriptors (`Bookkept`).
`exec_effect` says for every call what it hands to the file system.
-/

namespace YamKernel.Vfs

open Lib Fat32 Ramfs Option List

inductive Call where
  | openAt (pathname : Name) (flags : Nat)
  | unlink (pathname : Name)
  | rename (oldpath newpath : Name)
  | mkdir (pathname : Name)
  | ftruncate (fd : Nat) (length : Int)
  | close (fd : Nat)
  | dup (fd : Nat)
  | dup2 (oldfd newfd : Nat)
  | fork (child : Nat)
  | read (fd count : Nat)
  | write (fd : Nat) (buf : List UInt8)
  | lseek (fd : Nat) (offset : Int) (whence : Nat)
  deriving DecidableEq

inductive Ret where
  | done (ok : Bool)
  | number (n : Option Nat)
  | bytes (data : Option (List UInt8))
  deriving DecidableEq

def exec (env : Env) (c : Ctx) (s : State) : Call → Option (Ret × State)
  | .openAt pathname flags => (sysOpen env c s pathname flags).map fun (r, s) => (.number r, s)
  | .unlink pathname => (sysUnlink c s pathname).map fun (ok, s) => (.done ok, s)
  | .rename oldpath newpath => (sysRename c s oldpath newpath).map fun (ok, s) => (.done ok, s)
  | .mkdir pathname => (sysMkdir c s pathname).map fun (ok, s) => (.done ok, s)
  | .ftruncate fd length => (sysFtruncate env c s fd length).map fun (ok, s) => (.done ok, s)
  | .close fd => some (.done (sysClose c s fd).1, (sysClose c s fd).2)
  | .dup fd => some (.number (sysDup c s fd).1, (sysDup c s fd).2)
  | .dup2 oldfd newfd => some (.number (sysDup2 c s oldfd newfd).1, (sysDup2 c s oldfd newfd).2)
  | .fork child => some (.done true, forkFds c s child)
  | .read fd count => (sysRead env c s fd count).map fun (r, s) => (.bytes r, s)
  | .write fd buf => (sysWrite env c s fd buf).map fun (r, s) => (.number r, s)
  | .lseek fd offset whence =>
    (sysLseek env c s fd offset whence).map fun (r, s) => (.number r, s)

/-- Each call comes with the task that makes it and what it finds in memory. -/
def step (env : Env) : Machine State (Ctx × Call) (Option Ret) := fun s (c, op) =>
  match exec env c s op with
  | some (r, s') => (some r, s')
  | none => (none, s)

/-! ## Open files and descriptors -/

section Files

variable {env : Env} {c : Ctx} {s s' t : State} {id fd : Nat} {f f' : File}

def File.label (f : File) : Name × Nat × Option Nat := (f.path, f.flags, f.mountIdx)

/-- No storage changed: `s'` has other descriptors, offsets or open files than `s`. New files
hold a resolved path. -/
structure Bookkept (s s' : State) : Prop where
  ramfs : s'.ramfs = s.ramfs
  disk : s'.disk = s.disk
  cwd : ∀ t, ∃ t', s'.cwd t = s.cwd t'
  origin : ∀ (id : Nat) f', s'.files[id]? = some (some f') →
    (∃ f, s.files[id]? = some (some f) ∧ f'.label = f.label) ∨ Resolved f'.path

lemma Bookkept.refl (s : State) : Bookkept s s :=
  ⟨rfl, rfl, fun t => ⟨t, rfl⟩, fun _ f' h => .inl ⟨f', h, rfl⟩⟩

lemma Bookkept.trans (h : Bookkept s t) (h' : Bookkept t s') : Bookkept s s' where
  ramfs := h'.ramfs.trans h.ramfs
  disk := h'.disk.trans h.disk
  cwd a := by
    obtain ⟨a', ha'⟩ := h'.cwd a
    obtain ⟨b, hb⟩ := h.cwd a'
    exact ⟨b, ha'.trans hb⟩
  origin id f' hf' := by
    rcases h'.origin id f' hf' with ⟨f, hf, hl⟩ | hr
    · refine (h.origin id f hf).imp (fun ⟨f₀, hf₀, hl₀⟩ => ⟨f₀, hf₀, hl.trans hl₀⟩) fun hr => ?_
      have hpath : f'.path = f.path := congrArg Prod.fst hl
      rwa [hpath]
    · exact .inr hr

lemma bookkept_setFd (s : State) (task fd : Nat) (id : Option Nat) :
    Bookkept s (s.setFd task fd id) :=
  ⟨rfl, rfl, fun t => ⟨t, rfl⟩, fun _ f' h => .inl ⟨f', h, rfl⟩⟩

/-- A file is closed for good or gets another offset or count. -/
theorem bookkept_setFile (hf : s.files[id]? = some (some f)) (o : Option File)
    (ho : ∀ f', o = some f' → f'.label = f.label) : Bookkept s (s.setFile id o) where
  ramfs := rfl
  disk := rfl
  cwd t := ⟨t, rfl⟩
  origin k f' hk := by
    rw [State.setFile, getElem?_set] at hk
    split_ifs at hk with h1
    · subst h1
      exact .inl ⟨f, hf, ho f' (some.inj hk)⟩
    · exact .inl ⟨f', hk, rfl⟩

lemma bookkept_newFile (s : State) (hf : Resolved f.path) : Bookkept s (s.newFile f).2 where
  ramfs := rfl
  disk := rfl
  cwd t := ⟨t, rfl⟩
  origin k f' hk := by
    rw [State.newFile, getElem?_append] at hk
    split_ifs at hk
    · exact .inl ⟨f', hk, rfl⟩
    · obtain ⟨_, heq⟩ := List.getElem?_eq_some_iff.mp hk
      have hf' : f' = f := by simpa using heq.symm
      exact .inr (hf' ▸ hf)

lemma fdGet_some (h : fdGet c s fd = some (id, f)) :
    s.fds c.task fd = some id ∧ s.files[id]? = some (some f) := by
  unfold fdGet at h
  split_ifs at h
  obtain ⟨k, hk, h⟩ := bind_eq_some_iff.mp h
  obtain ⟨f', hf', heq⟩ := map_eq_some_iff.mp h
  obtain ⟨rfl, rfl⟩ := Prod.mk.inj heq
  exact ⟨hk, join_eq_some_iff.mp hf'⟩

lemma bookkept_offset (h : fdGet c s fd = some (id, f)) (n : Nat) :
    Bookkept s (s.setFile id (some { f with offset := n })) :=
  bookkept_setFile (fdGet_some h).2 _ fun _ hf' => (some.inj hf') ▸ rfl

lemma bookkept_fileRelease (s : State) (id : Nat) : Bookkept s (fileRelease s id) := by
  unfold fileRelease
  cases hf : (s.files[id]?).join with
  | none => exact .refl s
  | some f =>
    dsimp only
    split_ifs
    · exact bookkept_setFile (join_eq_some_iff.mp hf) _
        fun _ hf' => (some.inj hf') ▸ rfl
    · exact bookkept_setFile (join_eq_some_iff.mp hf) _ fun _ hf' => by simp at hf'

lemma bookkept_fileRetain (s : State) (id : Nat) : Bookkept s (fileRetain s id) := by
  unfold fileRetain
  cases hf : (s.files[id]?).join with
  | none => exact .refl s
  | some f =>
    exact bookkept_setFile (join_eq_some_iff.mp hf) _
      fun _ hf' => (some.inj hf') ▸ rfl

lemma bookkept_fdAllocFrom (c : Ctx) (s : State) (id start : Nat) :
    Bookkept s (fdAllocFrom c s id start).2 := by
  unfold fdAllocFrom
  split
  · exact bookkept_setFd _ _ _ _
  · exact .refl s

lemma bookkept_openFile (c : Ctx) (s : State) {abs : Name} (habs : Resolved abs)
    (midx flags : Nat) : Bookkept s (openFile c s abs midx flags).2 := by
  unfold openFile
  split_ifs
  · have htake : abs.take 255 = abs := take_of_length_le habs.length_le
    rw [htake]
    have hnew := bookkept_newFile s (f := ⟨abs, 0, flags, 1, some midx⟩) habs
    revert hnew
    rcases s.newFile ⟨abs, 0, flags, 1, some midx⟩ with ⟨id, s₁⟩
    intro hnew
    have halloc := bookkept_fdAllocFrom c s₁ id 0
    revert halloc
    dsimp only
    rcases fdAllocFrom c s₁ id 0 with ⟨_ | fd, s₂⟩
    · exact fun _ => .refl s
    · exact fun halloc => hnew.trans halloc
  · exact .refl s

lemma bookkept_sysClose (c : Ctx) (s : State) (fd : Nat) : Bookkept s (sysClose c s fd).2 := by
  unfold sysClose
  split
  · exact .refl s
  · exact (bookkept_setFd _ _ _ _).trans (bookkept_fileRelease _ _)

lemma resolved_devConsole : Resolved devConsole :=
  ⟨⟨["dev".toUTF8.toList, "console".toUTF8.toList], by decide +kernel, by
    unfold Plain; decide +kernel, by decide +kernel⟩, by decide +kernel⟩

lemma bookkept_fdGetOrStdio (c : Ctx) (s : State) (fd : Nat) :
    Bookkept s (fdGetOrStdio c s fd).2 := by
  unfold fdGetOrStdio
  cases fdGet c s fd with
  | some q => exact .refl s
  | none =>
    unfold stdioFileCreate
    by_cases hfd : fd ≤ 2 ∧ c.alloc sizeofFile = true
    · rw [if_pos hfd]
      exact bookkept_newFile s resolved_devConsole
    · rw [if_neg hfd]
      exact .refl s

lemma bookkept_sysDup (c : Ctx) (s : State) (fd : Nat) : Bookkept s (sysDup c s fd).2 := by
  unfold sysDup
  have hstart := bookkept_fdGetOrStdio c s fd
  revert hstart
  rcases fdGetOrStdio c s fd with ⟨_ | ⟨id, created⟩, s'⟩
  · exact fun _ => .refl s
  · intro hstart
    have halloc := bookkept_fdAllocFrom c s' id (if fd ≤ 2 then 3 else 0)
    revert halloc
    dsimp only
    rcases fdAllocFrom c s' id (if fd ≤ 2 then 3 else 0) with ⟨_ | newfd, s''⟩
    · exact fun _ => .refl s
    · intro halloc
      split_ifs
      · exact hstart.trans halloc
      · exact (hstart.trans halloc).trans (bookkept_fileRetain _ _)

lemma bookkept_sysDup2 (c : Ctx) (s : State) (oldfd newfd : Nat) :
    Bookkept s (sysDup2 c s oldfd newfd).2 := by
  unfold sysDup2
  by_cases hnew : newfd ≥ 128
  · rw [if_pos hnew]; exact .refl s
  by_cases hsame : oldfd = newfd
  · rw [if_neg hnew, if_pos hsame]; exact .refl s
  · rw [if_neg hnew, if_neg hsame]
    have hstart := bookkept_fdGetOrStdio c s oldfd
    revert hstart
    rcases fdGetOrStdio c s oldfd with ⟨_ | ⟨id, created⟩, s'⟩
    · exact fun _ => .refl s
    · intro hstart
      have hclose : Bookkept s' (if (fdGet c s' newfd).isSome then (sysClose c s' newfd).2
          else s') := by
        split_ifs
        · exact bookkept_sysClose _ _ _
        · exact .refl s'
      have hset := (hstart.trans hclose).trans (bookkept_setFd _ c.task newfd (some id))
      cases created with
      | true => exact hset
      | false => exact hset.trans (bookkept_fileRetain _ _)

lemma bookkept_forkFds (c : Ctx) (s : State) (child : Nat) : Bookkept s (forkFds c s child) := by
  unfold forkFds
  have hcopy : ∀ s : State, Bookkept s { s with
      fds := Function.update s.fds child (s.fds c.task)
      cwd := Function.update s.cwd child (s.cwd c.task) } := by
    refine fun s => ⟨rfl, rfl, fun t => ?_, fun _ f' h => .inl ⟨f', h, rfl⟩⟩
    by_cases ht : t = child
    · exact ⟨c.task, by simp [ht]⟩
    · exact ⟨t, by simp [ht]⟩
  refine Bookkept.trans ?_ (hcopy _)
  induction range 128 generalizing s with
  | nil => exact .refl s
  | cons fd l ih =>
    refine Bookkept.trans ?_ (ih _)
    dsimp only
    split
    · exact bookkept_fileRetain _ _
    · exact .refl s

lemma bookkept_sysRead (count : Nat) :
    Ensures (sysRead env c s fd count) fun q => Bookkept s q.2 := by
  unfold sysRead
  cases hfd : fdGet c s fd with
  | none => exact .pure (.refl s)
  | some q =>
    dsimp only
    split
    · exact .pure (.refl s)
    · refine .map fun data _ => ?_
      cases data with
      | none => exact .refl s
      | some data => exact bookkept_offset hfd _

lemma bookkept_sysLseek (offset : Int) (whence : Nat) :
    Ensures (sysLseek env c s fd offset whence) fun q => Bookkept s q.2 := by
  unfold sysLseek
  cases hfd : fdGet c s fd with
  | none => exact .pure (.refl s)
  | some q =>
    refine .map fun base _ => ?_
    cases base with
    | none => exact .refl s
    | some base =>
      dsimp only
      split_ifs
      · exact .refl s
      · exact bookkept_offset hfd _

end Files

/-! ## Storage -/

section Storage

variable {env : Env} {c : Ctx} {s s' : State} {abs rel path : Name}
  {fs fs' : FsRef} {buf : List UInt8}
  {midx dev : Nat} {vol : Vol}
  {fd flags i : Nat} {ok : Bool}

/-- The path leads to `rel` on the file system `fs`. -/
def Target (s : State) (abs : Name) (fs : FsRef) (rel : Name) : Prop :=
  ∃ midx, vfsFindMount s abs = some (midx, rel) ∧ s.fsOf midx = some fs

lemma Target.unique {rel' : Name} (h : Target s abs fs rel) (h' : Target s abs fs' rel') :
    fs = fs' ∧ rel = rel' := by
  obtain ⟨midx, hm, hfs⟩ := h
  obtain ⟨midx', hm', hfs'⟩ := h'
  obtain ⟨rfl, rfl⟩ := Prod.mk.inj (some.inj (hm.symm.trans hm'))
  exact ⟨some.inj (hfs.symm.trans hfs'), rfl⟩

/-- What the scan of the mounts `ms` has found: the longest mount point that covers the path. -/
structure Best (path : Name) (ms : List Mount) (b : Option Nat × Nat) : Prop where
  longest : ∀ m ∈ ms, m.Covers path → m.point.length ≤ b.2
  empty : b.1 = none → b.2 = 0
  found : ∀ i, b.1 = some i → 0 < b.2 ∧ ∃ m, ms[i]? = some m ∧ m.Covers path ∧ m.point.length = b.2

lemma Best.scan {pre : List Mount} {b : Option Nat × Nat} (h : Best path pre b)
    (ms : List Mount) : Best path (pre ++ ms) (bestMount path ms pre.length b) := by
  induction ms generalizing pre b with
  | nil => simpa [bestMount] using h
  | cons m ms ih =>
    obtain ⟨best, len⟩ := b
    obtain ⟨hlong, hempty, hfound⟩ := h
    have hstep : Best path (pre ++ [m]) (if m.Covers path ∧ m.point.length > len
        then (some pre.length, m.point.length) else (best, len)) := by
      constructor <;> grind
    simpa [bestMount] using ih hstep

lemma bestMount_best (path : Name) (ms : List Mount) :
    Best path ms (bestMount path ms 0 (none, 0)) :=
  have hnil : Best path [] (none, 0) := ⟨by simp, fun _ => rfl, by simp⟩
  hnil.scan ms

lemma Target.plain (h : Target s abs fs rel) (habs : Resolved abs) : PlainPath rel := by
  obtain ⟨midx, hm, -⟩ := h
  unfold vfsFindMount at hm
  have hbest := bestMount_best abs s.mounts
  revert hm hbest
  rcases bestMount abs s.mounts 0 (none, 0) with ⟨_ | k, len⟩
  · simp
  · intro hm hbest
    obtain ⟨hpos, m, -, ⟨-, -, hend⟩, hlen⟩ := hbest.found k rfl
    rw [hlen] at hend
    have hrel := (Prod.mk.inj (some.inj hm)).2
    rw [← hrel]
    split_ifs with h1 h2
    · exact ⟨[], rfl, by simp⟩
    · exact habs.plainPath
    · -- The path goes on with a slash behind the mount point.
      have hslash : abs[len]? = some slash := by
        rcases hend with hend | hend | hend
        · exact absurd hend h2
        · rw [getElem?_eq_none_iff] at hend
          exact absurd (drop_eq_nil_of_le hend) h1
        · exact hend
      obtain ⟨hlt, hget⟩ := List.getElem?_eq_some_iff.mp hslash
      have hdrop : abs.drop len = slash :: abs.drop (len + 1) := by
        rw [drop_eq_getElem_cons hlt, hget]
      have hplain := habs.plainPath
      rw [← take_append_drop len abs, hdrop] at hplain
      rw [hdrop]
      refine hplain.suffix fun hnil => ?_
      have := congrArg length hnil
      rw [length_take, length_nil] at this
      omega

variable {new p : Name} {create existsAt trunc : Bool}

lemma NormalPath.render_components (h : NormalPath p) : render (components p) = p := by
  obtain ⟨parts, rfl, hparts⟩ := h
  rw [components_render fun c hc => ⟨(hparts c hc).1, (hparts c hc).2.1⟩]

lemma NormalPath.eq_root (h : NormalPath p) (hp : p.length = 1) : p = [slash] := by
  obtain ⟨a, rfl⟩ := length_eq_one_iff.mp hp
  simpa using h.head

/-- The test of `vfs_find_mount` compares whole components. -/
lemma covers_iff {m : Mount} (hm : NormalPath m.point) (hp : NormalPath path) :
    m.Covers path ↔ m.active = true ∧ components m.point <+: components path := by
  refine and_congr_right fun _ => ⟨?_, ?_⟩
  · rintro ⟨⟨t, rfl⟩, hend⟩
    rcases hend with hone | hend
    · rw [hm.eq_root hone]
      exact ⟨_, rfl⟩
    · cases t with
      | nil => simp
      | cons a t =>
        obtain rfl : a = slash := by simpa using hend
        rw [components_append]
        exact prefix_append _ _
  · rintro ⟨C, hC⟩
    rw [← hp.render_components, ← hm.render_components, ← hC]
    obtain hA | hA := eq_or_ne (components m.point) []
    · rw [hA]
      exact ⟨⟨_, rfl⟩, .inl rfl⟩
    · obtain rfl | hne := eq_or_ne C []
      · simp
      · rw [render_append hA hne]
        exact ⟨prefix_append _ _, .inr (.inr (by simp [render]))⟩

/-- The law of the mount lookup: of the active mounts whose point leads to the path by whole
components one with the longest point, and what the path says behind it. -/
def LongestMount (s : State) (path : Name) : Prop :=
  ∃ i m, s.mounts[i]? = some m ∧ m.active = true ∧ components m.point <+: components path ∧
    (∀ m' ∈ s.mounts, m'.active = true → components m'.point <+: components path →
      m'.point.length ≤ m.point.length) ∧
    vfsFindMount s path = some (i, if m.point = [slash] then path
      else if path.drop m.point.length = [] then [slash] else path.drop m.point.length)

theorem vfsFindMount_longest (hpoints : ∀ m ∈ s.mounts, NormalPath m.point)
    (hroot : ∃ m ∈ s.mounts, m.active = true ∧ m.point = [slash]) (hpath : NormalPath path) :
    LongestMount s path := by
  have hbest := bestMount_best path s.mounts
  unfold LongestMount vfsFindMount
  generalize bestMount path s.mounts 0 (none, 0) = b at *
  obtain ⟨_ | i, len⟩ := b
  · -- The mount of the root covers every path.
    obtain ⟨m, hm, hact, hslash⟩ := hroot
    have hcov := (covers_iff (hpoints m hm) hpath).mpr ⟨hact, by rw [hslash]; exact ⟨_, rfl⟩⟩
    have hle := hbest.longest m hm hcov
    have hlen : len = 0 := hbest.empty rfl
    simp [hslash, hlen] at hle
  · obtain ⟨-, m, hi, hcov, rfl⟩ := hbest.found i rfl
    have hnorm := hpoints m (mem_of_getElem? hi)
    obtain ⟨hact, hpre⟩ := (covers_iff hnorm hpath).mp hcov
    refine ⟨i, m, hi, hact, hpre, fun m' hm' hact' hpre' => ?_, ?_⟩
    · exact hbest.longest m' hm' ((covers_iff (hpoints m' hm') hpath).mpr ⟨hact', hpre'⟩)
    · -- The point of length one is the root.
      by_cases hone : m.point.length = 1
      · have hroot := hnorm.eq_root hone
        simp only [hroot, length_singleton]
        split_ifs with h
        · obtain ⟨parts, rfl, -⟩ := hpath
          simpa [render] using h.symm
        · rfl
      · have hne : m.point ≠ [slash] := fun h => hone (by rw [h]; rfl)
        simp [hone, hne]

/-- File systems at `/` and at `/tmp`. -/
def tmpMounts : State where
  mounts := [⟨[slash], .initrd, true⟩, ⟨[47, 116, 109, 112], .ramfs 0, true⟩]
  ramfs _ := ⟨fun _ => none, 0⟩
  disk _ _ := 0
  files := []
  fds _ _ := none
  cwd _ := [slash]

/-- The path `/tmpa` is not below `/tmp`. -/
theorem vfsFindMount_longest_tmpa : LongestMount tmpMounts [47, 116, 109, 112, 97] ∧
    vfsFindMount tmpMounts [47, 116, 109, 112, 97] = some (0, [47, 116, 109, 112, 97]) := by
  refine ⟨vfsFindMount_longest ?_ ⟨_, .head _, rfl, rfl⟩ ?_, rfl⟩
  swap
  · exact ⟨[[116, 109, 112, 97]], rfl, by decide⟩
  simp only [tmpMounts, forall_mem_cons]
  exact ⟨normalPath_root, ⟨[[116, 109, 112]], rfl, by decide⟩, by simp⟩

/-- What `sys_open` makes of a RAM file system: it creates the file, and empties it. -/
def OpenedAs (fs : Ramfs.Fs) (rel : Name) (create trunc : Bool) (fs' : Ramfs.Fs) : Prop :=
  let fs₁ := if create then (ramfsCreate fs rel false).2 else fs
  fs' = fs₁ ∨ trunc = true ∧ fs' = (ramfsTruncate fs₁ rel).2

/-- The ways in which calls change RAM file system `i`. -/
inductive RamfsChange (env : Env) (c : Ctx) (s : State) (i : Nat) : Call → Ramfs.Fs → Prop
  | openAt {path : Name} {flags : Nat} {rel : Name} {fs' : Ramfs.Fs}
      (ht : Target s (absPath c s path) (.ramfs i) rel)
      (hpre : (ramfsFind (s.ramfs i) rel).isSome = true ∨ hasFlag flags oCreat = true)
      (h : OpenedAs (s.ramfs i) rel (hasFlag flags oCreat) (hasFlag flags oTrunc) fs') :
      RamfsChange env c s i (.openAt path flags) fs'
  | unlink {path rel : Name} (ht : Target s (absPath c s path) (.ramfs i) rel) :
      RamfsChange env c s i (.unlink path) (ramfsUnlink (s.ramfs i) rel).2
  | mkdir {path rel : Name} (ht : Target s (absPath c s path) (.ramfs i) rel) :
      RamfsChange env c s i (.mkdir path) (ramfsCreate (s.ramfs i) rel true).2
  | rename {path new old rel : Name} (ht : Target s (absPath c s path) (.ramfs i) old)
      (ht' : Target s (absPath c s new) (.ramfs i) rel) :
      RamfsChange env c s i (.rename path new) (ramfsRename (s.ramfs i) old rel).2
  | ftruncate {fd id : Nat} {length : Int} {f : File} {rel : Name} {ok : Bool} {fs' : Ramfs.Fs}
      (hfd : fdGet c s fd = some (id, f)) (ht : Target s f.path (.ramfs i) rel)
      (h : ramfsResize c.fuel c.alloc (s.ramfs i) rel length.toNat = some (ok, fs')) :
      RamfsChange env c s i (.ftruncate fd length) fs'
  | write {fd id off : Nat} {buf : List UInt8} {f : File} {rel : Name} {r : Option Nat}
      {fs' : Ramfs.Fs} (hfd : fdGet c s fd = some (id, f)) (ht : Target s f.path (.ramfs i) rel)
      (hoff : writeOffset env c s f = some off)
      (h : ramfsWrite c.fuel c.alloc (s.ramfs i) rel buf off = some (r, fs')) :
      RamfsChange env c s i (.write fd buf) fs'

/-- The ways in which calls change the disk `dev` of a FAT32 volume. -/
inductive Fat32Change (c : Ctx) (s : State) (dev : Nat) : Call → Mem → Prop
  | openAt {path rel : Name} {flags : Nat} {vol : Vol} {w : Option Nat} {d : Mem}
      (ht : Target s (absPath c s path) (.fat32 vol dev) rel)
      (hwhy : hasFlag flags oCreat = true ∨ hasFlag flags oTrunc = true)
      (h : fat32WriteFile c.fuel vol (s.disk dev) rel [] = some (w, d)) :
      Fat32Change c s dev (.openAt path flags) d
  | unlink {path rel : Name} {vol : Vol} {ok : Bool} {d : Mem}
      (ht : Target s (absPath c s path) (.fat32 vol dev) rel)
      (h : fat32Unlink c.fuel vol (s.disk dev) rel = some (ok, d)) :
      Fat32Change c s dev (.unlink path) d
  | mkdir {path rel : Name} {vol : Vol} {ok : Bool} {d : Mem}
      (ht : Target s (absPath c s path) (.fat32 vol dev) rel)
      (h : fat32Mkdir c.fuel vol (s.disk dev) rel = some (ok, d)) :
      Fat32Change c s dev (.mkdir path) d
  | rename {path new old rel : Name} {vol : Vol} {ok : Bool} {s' : State}
      (ht : Target s (absPath c s path) (.fat32 vol dev) old)
      (ht' : Target s (absPath c s new) (.fat32 vol dev) rel)
      (h : renameFat32 c s vol dev old rel = some (ok, s')) :
      Fat32Change c s dev (.rename path new) (s'.disk dev)
  | ftruncate {fd id : Nat} {length : Int} {f : File} {rel : Name} {vol : Vol}
      {buf : List UInt8} {w : Option Nat} {d : Mem} (hfd : fdGet c s fd = some (id, f))
      (ht : Target s f.path (.fat32 vol dev) rel)
      (h : fat32WriteFile c.fuel vol (s.disk dev) rel buf = some (w, d)) :
      Fat32Change c s dev (.ftruncate fd length) d
  | write {fd id : Nat} {f : File} {rel : Name} {vol : Vol} {bytes buf : List UInt8}
      {w : Option Nat} {d : Mem} (hfd : fdGet c s fd = some (id, f))
      (ht : Target s f.path (.fat32 vol dev) rel)
      (h : fat32WriteFile c.fuel vol (s.disk dev) rel buf = some (w, d)) :
      Fat32Change c s dev (.write fd bytes) d

/-- The effect of a call: a change of at most one file system, and bookkeeping. -/
inductive Effect (env : Env) (c : Ctx) (s : State) (op : Call) (s' : State) : Prop
  | none (hb : Bookkept s s')
  | ramfs {i : Nat} {fs : Ramfs.Fs} (hc : RamfsChange env c s i op fs)
      (hb : Bookkept (s.setRamfs i fs) s')
  | fat32 {dev : Nat} {d : Mem} (hc : Fat32Change c s dev op d)
      (hb : Bookkept (s.setDisk dev d) s')

lemma openedAs_prepareOpen (hfs : s.fsOf midx = some (.ramfs i)) :
    Ensures (prepareOpen c s midx rel existsAt create trunc) fun q =>
      ∃ fs, OpenedAs (s.ramfs i) rel create trunc fs ∧ q.2 = s.setRamfs i fs := by
  unfold prepareOpen OpenedAs
  rw [hfs]
  cases create <;> dsimp only
  · simp only [Bool.false_eq_true, if_false, not_true_eq_false]
    split_ifs with htrunc
    · exact .pure ⟨_, .inr ⟨htrunc, rfl⟩, rfl⟩
    · exact .pure ⟨_, .inl rfl, rfl⟩
  · simp only [if_true]
    split_ifs with hmade htrunc
    · exact .pure ⟨_, .inr ⟨htrunc, rfl⟩, rfl⟩
    · exact .pure ⟨_, .inl rfl, rfl⟩
    · exact .pure ⟨_, .inl rfl, rfl⟩

/-- What `sys_open` hands to a FAT32 volume: an empty file, or nothing. -/
theorem prepareOpen_fat32 (hfs : s.fsOf midx = some (.fat32 vol dev)) :
    Ensures (prepareOpen c s midx rel existsAt create trunc) fun q => q.2 = s ∨
      ∃ w d, (create = true ∨ trunc = true) ∧
        fat32WriteFile c.fuel vol (s.disk dev) rel [] = some (w, d) ∧ q.2 = s.setDisk dev d := by
  unfold prepareOpen
  rw [hfs]
  dsimp only
  split_ifs with hct
  · refine .map fun ⟨w, d⟩ hw => .inr ⟨w, d, hct, hw, rfl⟩
  all_goals exact .pure (.inl rfl)

lemma sysOpen_effect (habs : Resolved (absPath c s path)) :
    Ensures (sysOpen env c s path flags) fun q => Effect env c s (.openAt path flags) q.2 := by
  unfold sysOpen
  dsimp only
  cases hm : vfsFindMount s (absPath c s path) with
  | none => exact .pure (.none (.refl s))
  | some q =>
    obtain ⟨midx, rel⟩ := q
    refine .bind fun existsAt hex => ?_
    split_ifs with h1
    · exact .pure (.none (.refl s))
    · exact .pure (.none (.refl s))
    refine .map fun ⟨ok, s₁⟩ hprep => ?_
    have hbook : Bookkept s₁ (if ok then openFile c s₁ (absPath c s path) midx flags
        else (none, s₁)).2 := by
      split_ifs
      · exact bookkept_openFile c s₁ habs midx flags
      · exact .refl s₁
    have hother : s₁ = s → Effect env c s (.openAt path flags) (if ok then
        openFile c s₁ (absPath c s path) midx flags else (none, s₁)).2 := by
      rintro rfl
      exact .none hbook
    cases hfs : s.fsOf midx with
    | none =>
      simp only [prepareOpen, hfs, some.injEq, Prod.mk.injEq] at hprep
      exact hother hprep.2.symm
    | some fs =>
      cases fs with
      | ramfs i =>
        obtain ⟨fs', hopened, rfl⟩ := openedAs_prepareOpen hfs _ hprep
        refine .ramfs (.openAt ⟨midx, hm, hfs⟩ ?_ hopened) hbook
        simp only [vfsPathExistsForOpen, hfs, some.injEq] at hex
        rw [hex]
        by_contra hno
        exact h1 ⟨fun h => hno (.inl h), fun h => hno (.inr h)⟩
      | fat32 vol dev =>
        rcases prepareOpen_fat32 hfs _ hprep with hs | ⟨w, d, hwhy, hw, rfl⟩
        · exact hother hs
        · exact .fat32 (.openAt ⟨midx, hm, hfs⟩ hwhy hw) hbook
      | _ =>
        simp only [prepareOpen, hfs, some.injEq, Prod.mk.injEq] at hprep
        exact hother hprep.2.symm

lemma sysUnlink_effect :
    Ensures (sysUnlink c s path) fun q => Effect env c s (.unlink path) q.2 := by
  unfold sysUnlink
  cases hm : vfsFindMount s (absPath c s path) with
  | none => exact .pure (.none (.refl s))
  | some q =>
    obtain ⟨midx, rel⟩ := q
    dsimp only
    split
    · next i hfs => exact .pure (.ramfs (.unlink ⟨midx, hm, hfs⟩) (.refl _))
    · next vol dev hfs =>
      exact .map fun ⟨ok, d⟩ hu => .fat32 (.unlink ⟨midx, hm, hfs⟩ hu) (.refl _)
    · exact .pure (.none (.refl s))

lemma sysMkdir_effect : Ensures (sysMkdir c s path) fun q => Effect env c s (.mkdir path) q.2 := by
  unfold sysMkdir
  cases hm : vfsFindMount s (absPath c s path) with
  | none => exact .pure (.none (.refl s))
  | some q =>
    obtain ⟨midx, rel⟩ := q
    dsimp only
    split
    · next i hfs => exact .pure (.ramfs (.mkdir ⟨midx, hm, hfs⟩) (.refl _))
    · next vol dev hfs =>
      split_ifs
      · exact .map fun ⟨ok, d⟩ hu => .fat32 (.mkdir ⟨midx, hm, hfs⟩ hu) (.refl _)
      · exact .pure (.none (.refl s))
    · exact .pure (.none (.refl s))

lemma renameFat32_disk {old : Name} :
    Ensures (renameFat32 c s vol dev old new) fun q => ∃ d, q.2 = s.setDisk dev d := by
  have hsame : Ensures (some (false, s)) fun q : Bool × State => ∃ d, q.2 = s.setDisk dev d :=
    .pure ⟨s.disk dev, by simp [State.setDisk]⟩
  refine .bind fun info _ => ?_
  cases info with
  | none => exact hsame
  | some info =>
    refine .ite (fun _ => hsame) fun _ => .bind fun info' _ => ?_
    cases info' with
    | some _ => exact hsame
    | none =>
      refine .ite (fun _ => hsame) fun _ => .bind fun data _ => ?_
      cases data with
      | none => exact hsame
      | some data =>
        refine .bind fun ⟨w, d⟩ _ => ?_
        cases w with
        | none => exact .pure ⟨d, rfl⟩
        | some n => exact .map fun ⟨ok, d'⟩ _ => ⟨d', rfl⟩

lemma sysRename_effect :
    Ensures (sysRename c s path new) fun q => Effect env c s (.rename path new) q.2 := by
  have hsame : Ensures (some (false, s)) fun q : Bool × State =>
      Effect env c s (.rename path new) q.2 := .pure (.none (.refl s))
  refine .ite (fun _ => hsame) fun _ => ?_
  split
  · next midx old midx' rel hm hm' =>
    refine .ite (fun _ => hsame) fun hne => ?_
    obtain rfl : midx = midx' := not_not.mp hne
    split
    · next i hfs =>
      exact .pure (.ramfs (.rename ⟨midx, hm, hfs⟩ ⟨midx, hm', hfs⟩) (.refl _))
    · next vol dev hfs =>
      intro q hq
      obtain ⟨d, hd⟩ := renameFat32_disk q hq
      refine .fat32 (.rename ⟨midx, hm, hfs⟩ ⟨midx, hm', hfs⟩ hq) ?_
      have hdisk : q.2.disk dev = d := by simp [hd, State.setDisk]
      rw [hdisk, hd]
      exact .refl _
    · exact hsame
  · exact hsame

/-- The new contents of a file are handed to a FAT32 volume, or nothing is. -/
def Stores (c : Ctx) (s : State) (vol : Vol) (dev : Nat) (rel : Name) (s' : State) : Prop :=
  s' = s ∨ ∃ buf w d, fat32WriteFile c.fuel vol (s.disk dev) rel buf = some (w, d) ∧
    s' = s.setDisk dev d

lemma stores_vfsDoWrite (hfs : s.fsOf midx = some (.fat32 vol dev)) :
    Ensures (vfsDoWrite env c s midx rel buf) fun q => Stores c s vol dev rel q.2 := by
  unfold vfsDoWrite
  rw [hfs]
  dsimp only
  split_ifs
  · exact .map fun ⟨w, d⟩ hw => .inr ⟨buf, w, d, hw, rfl⟩
  · exact .pure (.inl rfl)

lemma stores_truncateFat32 {size : Nat} (hfs : s.fsOf midx = some (.fat32 vol dev)) :
    Ensures (truncateFat32 env c s midx rel size) fun q => Stores c s vol dev rel q.2 := by
  exact .ite (fun _ => .pure (.inl rfl)) fun _ => .bind fun old _ => stores_vfsDoWrite hfs

lemma stores_writeFat32 {off : Nat} (hfs : s.fsOf midx = some (.fat32 vol dev)) :
    Ensures (writeFat32 env c s midx rel buf off) fun q => Stores c s vol dev rel q.2 := by
  exact .ite (fun _ => .pure (.inl rfl)) fun _ => .bind fun old _ => stores_vfsDoWrite hfs

/-- Where there is no storage, the state stays as it is. -/
theorem vfsDoWrite_other (hram : ∀ i, s.fsOf midx ≠ some (.ramfs i))
    (hfat : ∀ vol dev, s.fsOf midx ≠ some (.fat32 vol dev)) :
    Ensures (vfsDoWrite env c s midx rel buf) fun q => q.2 = s := by
  unfold vfsDoWrite
  split
  · next vol dev hfs => exact absurd hfs (hfat vol dev)
  · exact .pure rfl
  · next i hfs => exact absurd hfs (hram i)
  · exact .pure rfl

lemma bookkept_advance {id : Nat} {f : File} (hfd : fdGet c s fd = some (id, f)) (s₁ : State)
    (hfiles : s₁.files = s.files) (n : Nat) :
    Bookkept s₁ (s₁.setFile id (some { f with offset := n })) :=
  bookkept_setFile (hfiles ▸ (fdGet_some hfd).2) _ fun _ hf' => (some.inj hf') ▸ rfl

lemma sysFtruncate_effect {length : Int} : Ensures (sysFtruncate env c s fd length)
    fun q => Effect env c s (.ftruncate fd length) q.2 := by
  have hsame : Ensures (some (false, s)) fun q : Bool × State =>
      Effect env c s (.ftruncate fd length) q.2 := .pure (.none (.refl s))
  refine .ite (fun _ => hsame) fun _ => ?_
  cases hfd : fdGet c s fd with
  | none => exact hsame
  | some q =>
    obtain ⟨id, f⟩ := q
    refine .ite (fun _ => hsame) fun _ => ?_
    cases hm : vfsFindMount s f.path with
    | none => exact hsame
    | some q =>
      obtain ⟨midx, rel⟩ := q
      -- The offset is cut only when the new size was set.
      have hclamp : ∀ (ok : Bool) (s₁ : State), s₁.files = s.files → Bookkept s₁ (if ok = true then
          if f.offset > length.toNat then s₁.setFile id (some { f with offset := length.toNat })
          else s₁ else s₁) := by
        intro ok s₁ hfiles
        split_ifs
        · exact bookkept_advance hfd s₁ hfiles _
        · exact .refl s₁
        · exact .refl s₁
      dsimp only
      split
      · next i hfs =>
        exact .map fun ⟨ok, fs⟩ hres => .ramfs (.ftruncate hfd ⟨midx, hm, hfs⟩ hres)
          (hclamp ok (s.setRamfs i fs) rfl)
      · next vol dev hfs =>
        refine .map fun ⟨r, s₁⟩ hres => ?_
        obtain rfl | ⟨buf, w, d, hw, rfl⟩ := stores_truncateFat32 hfs _ hres
        · exact .none (hclamp r.isSome _ rfl)
        · exact .fat32 (.ftruncate hfd ⟨midx, hm, hfs⟩ hw) (hclamp r.isSome _ rfl)
      · exact hsame

lemma sysWrite_effect :
    Ensures (sysWrite env c s fd buf) fun q => Effect env c s (.write fd buf) q.2 := by
  unfold sysWrite
  cases hfd : fdGet c s fd with
  | none => exact .pure (.none (.refl s))
  | some q =>
    obtain ⟨id, f⟩ := q
    dsimp only
    cases hm : vfsFindMount s f.path with
    | none => exact .pure (.none (.refl s))
    | some q =>
      obtain ⟨midx, rel⟩ := q
      refine .bind fun off hoff => ?_
      split
      · next i hfs =>
        exact .map fun ⟨r, fs⟩ hres => .ramfs (.write hfd ⟨midx, hm, hfs⟩ hoff hres)
          (bookkept_advance hfd (s.setRamfs i fs) rfl _)
      · next vol dev hfs =>
        refine .map fun ⟨r, s₁⟩ hres => ?_
        obtain rfl | ⟨buf', w, d, hw, rfl⟩ := stores_writeFat32 hfs _ hres
        · exact .none (bookkept_advance hfd _ rfl _)
        · exact .fat32 (.write hfd ⟨midx, hm, hfs⟩ hw)
            (bookkept_advance hfd (s.setDisk dev d) rfl _)
      · next hram hfat =>
        refine .map fun ⟨r, s₁⟩ hres => ?_
        obtain rfl := vfsDoWrite_other hram hfat _ hres
        exact .none (bookkept_advance hfd _ rfl _)

lemma exec_effect (habs : ∀ path, Resolved (absPath c s path)) (op : Call) :
    Ensures (exec env c s op) fun q => Effect env c s op q.2 := by
  cases op with
  | openAt path flags => exact .map fun q hq => sysOpen_effect (habs path) q hq
  | unlink path => exact .map fun q hq => sysUnlink_effect q hq
  | rename path new => exact .map fun q hq => sysRename_effect q hq
  | mkdir path => exact .map fun q hq => sysMkdir_effect q hq
  | ftruncate fd length => exact .map fun q hq => sysFtruncate_effect q hq
  | close fd => exact .pure (.none (bookkept_sysClose c s fd))
  | dup fd => exact .pure (.none (bookkept_sysDup c s fd))
  | dup2 oldfd newfd => exact .pure (.none (bookkept_sysDup2 c s oldfd newfd))
  | fork child => exact .pure (.none (bookkept_forkFds c s child))
  | read fd count => exact .map fun q hq => .none (bookkept_sysRead count q hq)
  | write fd buf => exact .map fun q hq => sysWrite_effect q hq
  | lseek fd offset whence => exact .map fun q hq => .none (bookkept_sysLseek offset whence q hq)

end Storage

end YamKernel.Vfs

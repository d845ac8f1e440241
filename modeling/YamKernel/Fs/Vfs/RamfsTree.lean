import YamKernel.Fs.Ramfs.Tree
import YamKernel.Fs.Vfs.Calls
import YamKernel.Fs.Vfs.RamfsBounds

/-!
# The tree of a RAM file system

A RAM file system holds full path names in a flat table. In every run of calls the sizes and
the byte count are right. The names make a tree as long as no call creates a path whose
parent is no directory or which does not fit a name field, and no rename gets stuck half way
or moves a directory below itself.
-/

namespace YamKernel.Vfs

open Lib Ramfs Function Option

/-! ## Paths of runs -/

section Paths

variable {env : Env} {c : Ctx} {s s' : State} {r : Ret} {op : Call}

/-- Working directories and open files hold normal paths. -/
structure Rooted (s : State) : Prop where
  dirs : ∀ t, WorkingDir (s.cwd t)
  paths : ∀ (id : Nat) (f : File), s.files[id]? = some (some f) → Resolved f.path

lemma Rooted.abs (h : Rooted s) (c : Ctx) (path : Name) : Resolved (absPath c s path) :=
  resolved_vfsResolvePath (h.dirs c.task) path

lemma Rooted.setRamfs (h : Rooted s) (i : Nat) (fs : Ramfs.Fs) : Rooted (s.setRamfs i fs) :=
  ⟨h.dirs, h.paths⟩

lemma Rooted.setDisk (h : Rooted s) (dev : Nat) (d : Mem) : Rooted (s.setDisk dev d) :=
  ⟨h.dirs, h.paths⟩

lemma Bookkept.rooted (hb : Bookkept s s') (h : Rooted s) : Rooted s' where
  dirs t := by
    obtain ⟨t', ht'⟩ := hb.cwd t
    exact ht' ▸ h.dirs t'
  paths id f' hf' := by
    rcases hb.origin id f' hf' with ⟨f, hf, hl⟩ | hr
    · have hpath : f'.path = f.path := congrArg Prod.fst hl
      rw [hpath]
      exact h.paths id f hf
    · exact hr

end Paths

/-! ## What a call does to a RAM file system -/

section Change

variable {env : Env} {c : Ctx} {s s' : State} {r : Ret} {op : Call} {i : Nat} {fs' : Ramfs.Fs}

/-- The effect of a call on the RAM file systems: none, or a change of one of them. -/
def OnRamfsOnly (env : Env) (c : Ctx) (s : State) (op : Call) (s' : State) : Prop :=
  s'.ramfs = s.ramfs ∨
    ∃ i fs', RamfsChange env c s i op fs' ∧ s'.ramfs = update s.ramfs i fs'

lemma Rooted.exec (h : Rooted s) (he : exec env c s op = some (r, s')) :
    Rooted s' ∧ OnRamfsOnly env c s op s' := by
  obtain hb | ⟨hc, hb⟩ | ⟨-, hb⟩ := exec_effect (h.abs c) op _ he
  · exact ⟨hb.rooted h, .inl hb.ramfs⟩
  · exact ⟨hb.rooted (h.setRamfs _ _), .inr ⟨_, _, hc, hb.ramfs⟩⟩
  · exact ⟨hb.rooted (h.setDisk _ _), .inl hb.ramfs⟩

/-- A property of every RAM file system that the changes keep is kept by a step. -/
theorem Rooted.step_all {P : Ramfs.Fs → Prop} {op : Ctx × Call}
    (hP : ∀ i fs', RamfsChange env op.1 s i op.2 fs' → P (s.ramfs i) → P fs')
    (h : Rooted s ∧ ∀ i, P (s.ramfs i)) :
    Rooted (step env s op).2 ∧ ∀ i, P ((step env s op).2.ramfs i) := by
  obtain ⟨hr, hp⟩ := h
  obtain ⟨c, op⟩ := op
  unfold step
  dsimp only
  cases he : Vfs.exec env c s op with
  | none => exact ⟨hr, hp⟩
  | some q =>
    obtain ⟨hr', hsame | ⟨i, fs', hchange, hnew⟩⟩ := hr.exec he
    · exact ⟨hr', fun j => by dsimp only; rw [hsame]; exact hp j⟩
    · refine ⟨hr', fun j => ?_⟩
      rw [hnew]
      by_cases hj : j = i
      · rw [hj, update_self]
        exact hP i fs' hchange (hp i)
      · rw [update_of_ne hj]
        exact hp j

lemma RamfsChange.accounted (h : RamfsChange env c s i op fs') (ha : Accounted (s.ramfs i)) :
    Accounted fs' := by
  cases h with
  | @openAt path flags rel fs' ht hpre h =>
    have h₁ : Accounted (if hasFlag flags oCreat then (ramfsCreate (s.ramfs i) rel false).2
        else s.ramfs i) := by
      split_ifs
      · exact ha.create rel false
      · exact ha
    rcases h with rfl | ⟨-, rfl⟩
    · exact h₁
    · exact (touched_truncate h₁ rel).accounted h₁
  | unlink ht => exact ha.unlink _
  | mkdir ht => exact ha.create _ true
  | rename ht ht' => exact ha.rename _ _
  | ftruncate hfd ht h => exact (touched_resize ha _ _ h).accounted ha
  | write hfd ht hoff h => exact (touched_write ha _ _ _ h).accounted ha

/-! ## Careful calls -/

/-- What keeps a call from breaking the tree of a RAM file system: a path it may create has a
directory for its parent and fits, `mkdir` is not asked for an existing file, and a rename
that starts can be finished. -/
def Careful (c : Ctx) (s : State) : Call → Prop
  | .openAt path flags => ∀ i rel, Target s (absPath c s path) (.ramfs i) rel →
      hasFlag flags oCreat = true → Placed (s.ramfs i) rel
  | .mkdir path => ∀ i rel, Target s (absPath c s path) (.ramfs i) rel →
      Placed (s.ramfs i) rel ∧ ∀ k n, ramfsFind (s.ramfs i) rel = some k →
        (s.ramfs i).nodes k = some n → n.isDir = true
  | .rename path new => ∀ i old rel, Target s (absPath c s path) (.ramfs i) old →
      Target s (absPath c s new) (.ramfs i) rel →
      Refused (s.ramfs i) old rel ∨ Movable (s.ramfs i) old rel
  | .ftruncate fd _ => ∀ id f i rel, fdGet c s fd = some (id, f) →
      Target s f.path (.ramfs i) rel → Placed (s.ramfs i) rel
  | .write fd _ => ∀ id f i rel, fdGet c s fd = some (id, f) →
      Target s f.path (.ramfs i) rel → Placed (s.ramfs i) rel
  | _ => True

lemma RamfsChange.shaped (h : RamfsChange env c s i op fs') (hr : Rooted s) (hc : Careful c s op)
    (hs : Shaped (s.ramfs i)) : Shaped fs' := by
  cases h with
  | @openAt path flags rel fs' ht hpre h =>
    have hp := ht.plain (hr.abs c path)
    have hplaced : Placed (s.ramfs i) rel := by
      cases hcr : hasFlag flags oCreat with
      | true => exact hc i rel ht hcr
      | false => exact .inl (hpre.resolve_right (by simp [hcr]))
    have h₁ : Shaped (if hasFlag flags oCreat then (ramfsCreate (s.ramfs i) rel false).2
        else s.ramfs i) ∧ Placed (if hasFlag flags oCreat then
          (ramfsCreate (s.ramfs i) rel false).2 else s.ramfs i) rel := by
      split_ifs
      · exact ⟨hs.create hp hplaced false, hplaced.create false⟩
      · exact ⟨hs, hplaced⟩
    rcases h with rfl | ⟨-, rfl⟩
    · exact h₁.1
    · exact h₁.1.touched hp h₁.2 (touched_truncate h₁.1.accounts rel)
  | @unlink path rel ht => exact hs.unlink (ht.plain (hr.abs c path))
  | @mkdir path rel ht => exact hs.create (ht.plain (hr.abs c path)) (hc i rel ht).1 true
  | @rename path new old rel ht ht' =>
    exact hs.rename (ht.plain (hr.abs c path)) (ht'.plain (hr.abs c new)) (hc i old rel ht ht')
  | ftruncate hfd ht h =>
    exact hs.touched (ht.plain (hr.paths _ _ (fdGet_some hfd).2)) (hc _ _ i _ hfd ht)
      (touched_resize hs.accounts _ _ h)
  | write hfd ht hoff h =>
    exact hs.touched (ht.plain (hr.paths _ _ (fdGet_some hfd).2)) (hc _ _ i _ hfd ht)
      (touched_write hs.accounts _ _ _ h)

end Change

/-! ## Runs -/

section Runs

variable {env : Env} {c : Ctx} {s s' : State} {op : Call} {ops : List (Ctx × Call)}

/-- What the answers of `sys_mkdir` and `sys_rename` promise. -/
def Honest (env : Env) (c : Ctx) (s : State) (op : Call) : Prop :=
  ∀ ok s', exec env c s op = some (.done ok, s') → match op with
    | .mkdir path => ok = true → ∀ i rel, Target s (absPath c s path) (.ramfs i) rel →
        ∃ k n, ramfsFind (s'.ramfs i) rel = some k ∧ (s'.ramfs i).nodes k = some n ∧
          n.isDir = true
    | .rename path _ => ok = false → ∀ i old, Target s (absPath c s path) (.ramfs i) old → s' = s
    | _ => True

lemma sysRename_ramfs {path new old : Name} {i : Nat} {ok : Bool}
    (ht : Target s (absPath c s path) (.ramfs i) old) (h : sysRename c s path new = some (ok, s')) :
    s' = s ∨ ∃ rel,
      Target s (absPath c s new) (.ramfs i) rel ∧ (ramfsRename (s.ramfs i) old rel).1 = ok ∧
      s' = s.setRamfs i (ramfsRename (s.ramfs i) old rel).2 := by
  obtain ⟨midx, hm, hfs⟩ := ht
  unfold sysRename at h
  cases hm' : vfsFindMount s (absPath c s new) with
  | none =>
    simp only [hm, hm', ite_self, some.injEq, Prod.mk.injEq] at h
    exact .inl h.2.symm
  | some q =>
    simp only [hm, hm', hfs] at h
    split_ifs at h with h1 h2
    · exact .inl (Prod.mk.inj (some.inj h)).2.symm
    · exact .inl (Prod.mk.inj (some.inj h)).2.symm
    · obtain ⟨hok, hs⟩ := Prod.mk.inj (some.inj h)
      exact .inr ⟨q.2, ⟨midx, by rw [hm', not_not.mp h2], hfs⟩, hok, hs.symm⟩

lemma honest_of_careful (hr : Rooted s) (hs : ∀ i, Shaped (s.ramfs i)) (hc : Careful c s op) :
    Honest env c s op := by
  intro ok s' he
  cases op with
  | mkdir path =>
    rintro rfl i rel ht
    obtain ⟨midx, hm, hfs⟩ := ht
    have ht : Target s (absPath c s path) (.ramfs i) rel := ⟨midx, hm, hfs⟩
    simp only [exec, sysMkdir, hm, hfs, map_some, some.injEq, Prod.mk.injEq] at he
    obtain ⟨hsome, rfl⟩ := he
    obtain ⟨hplaced, hdir⟩ := hc i rel ht
    have hp := ht.plain (hr.abs c path)
    simp only [State.setRamfs, update_self]
    rcases ramfsCreate_cases (s.ramfs i) rel true with
      ⟨-, -, hcr⟩ | ⟨k, hk, hcr⟩ | ⟨k, hk, hne, hf, hfree, hcr⟩
    · rw [hcr] at hsome; simp at hsome
    · rw [hcr]
      obtain ⟨-, n, hn, -⟩ := ramfsFind_some hk
      exact ⟨k, n, hk, hn, hdir k n hk hn⟩
    · have hshaped := (hs i).create hp hplaced true
      have hnode : (ramfsCreate (s.ramfs i) rel true).2.nodes k =
          some (emptyNode (rel.take (nameSize - 1)) true) := by
        rw [hcr, Fs.setNode_nodes, if_pos rfl]
      have hlen : rel.length < nameSize := (hplaced.resolve_left (by simp [hf])).1
      have htake : rel.take (nameSize - 1) = rel := List.take_of_length_le (by
        unfold nameSize at hlen ⊢; omega)
      rw [htake] at hnode
      exact ⟨k, _, hshaped.find (Fs.labels_some hnode) hp.ne_nil, hnode, rfl⟩
  | rename path new =>
    rintro rfl i old ht
    obtain ⟨⟨ok, s₁⟩, hcall, heq⟩ := map_eq_some_iff.mp he
    obtain ⟨hok, rfl⟩ := Prod.mk.inj heq
    obtain rfl : ok = false := by simpa using hok
    rcases sysRename_ramfs ht hcall with rfl | ⟨rel, ht', hfalse, rfl⟩
    · rfl
    by_cases hrf : Refused (s.ramfs i) old rel
    · rw [ramfsRename_refused hrf]
      simp [State.setRamfs]
    · have hm := (hc i old rel ht ht').resolve_left hrf
      rw [((hs i).rename_labels (ht.plain (hr.abs c path)) hm hrf).1] at hfalse
      simp at hfalse
  | _ => trivial

lemma Rooted.step_accounted (h : Rooted s ∧ ∀ i, Accounted (s.ramfs i)) (op : Ctx × Call) :
    Rooted (step env s op).2 ∧ ∀ i, Accounted ((step env s op).2.ramfs i) :=
  step_all (fun _ _ hchange ha => hchange.accounted ha) h

/-- After any calls the sizes and the byte counts are right; after careful calls the tables
are trees and the answers can be relied on. -/
theorem ramfs_tree_run (hr : Rooted s) (hs : ∀ i, Shaped (s.ramfs i)) (ops : List (Ctx × Call)) :
    (∀ i, Accounted (((step env).run s ops).ramfs i)) ∧
      ((step env).Along (fun s op => Careful op.1 s op.2) s ops →
        (∀ i, Tree (((step env).run s ops).ramfs i)) ∧
          (step env).Along (fun s op => Honest env op.1 s op.2) s ops) := by
  refine ⟨?_, fun hc => ?_⟩
  · exact (Machine.run_invariant
      (I := fun s => Rooted s ∧ ∀ i, Accounted (s.ramfs i))
      (fun s op h _ => Rooted.step_accounted h op) ⟨hr, fun i => (hs i).accounts⟩
      (Machine.along_of_forall (fun _ _ => trivial) s ops)).2
  · obtain ⟨⟨-, hshaped⟩, hhonest⟩ := Machine.run_along
      (I := fun s => Rooted s ∧ ∀ i, Shaped (s.ramfs i))
      (fun s op h hc => ⟨Rooted.step_all (fun _ _ hchange => hchange.shaped h.1 hc) h,
        honest_of_careful h.1 h.2 hc⟩) ⟨hr, hs⟩ hc
    exact ⟨fun i => (hshaped i).tree, hhonest⟩

lemma rooted_openedTmp (offset : Nat) : Rooted (openedTmp offset) where
  dirs _ := .inr ⟨[], rfl, by simp⟩
  paths id f hf := by
    match id with
    | 0 =>
      obtain rfl := some.inj (some.inj hf)
      exact (onRamfs_openedTmp offset).path
    | k + 1 => simp [openedTmp] at hf

lemma shaped_openedTmp (offset i : Nat) : Shaped ((openedTmp offset).ramfs i) :=
  shaped_init.create ⟨[[97]], rfl, by unfold Plain; decide⟩ (.inr ⟨by decide, 0, by decide +kernel⟩)
    false

def tmpD : Name := [47, 116, 109, 112, 47, 100]
def tmpDF : Name := tmpD ++ [47, 102]

def growTmp : List (Ctx × Call) := [(richCtx, .mkdir tmpD), (richCtx, .openAt tmpDF oCreat)]

theorem ramfs_tree_run_growTmp : Tree (((step bareEnv).run (openedTmp 0) growTmp).ramfs 0) := by
  refine ((ramfs_tree_run (rooted_openedTmp 0) (shaped_openedTmp 0) growTmp).2
    ⟨?_, ?_, trivial⟩).1 0
  · intro i rel ht
    obtain ⟨hi, rfl⟩ := ht.unique ⟨1, rfl, rfl⟩
    obtain rfl := FsRef.ramfs.inj hi
    refine ⟨.inr ⟨by decide, 0, by decide +kernel⟩, fun k n hk => ?_⟩
    cases hk
  · intro i rel ht _
    obtain ⟨hi, rfl⟩ := ht.unique ⟨1, rfl, rfl⟩
    obtain rfl := FsRef.ramfs.inj hi
    exact .inr ⟨by decide, 2, by decide +kernel⟩

def orphanTmp : State := (step bareEnv).run (openedTmp 0) [(richCtx, .openAt tmpDF oCreat)]

lemma accounted_orphanTmp : Accounted (orphanTmp.ramfs 0) :=
  (Rooted.step_accounted ⟨rooted_openedTmp 0, fun i => (shaped_openedTmp 0 i).accounts⟩
    (richCtx, .openAt tmpDF oCreat)).2 0

/-- A file in a directory that does not exist can be created, and `sys_mkdir` reports a
directory where a file is. -/
theorem ramfs_orphan_and_false_directory :
    ¬ Tree (((step bareEnv).run (openedTmp 0) [(richCtx, .openAt tmpDF oCreat)]).ramfs 0) ∧
      ¬ Honest bareEnv richCtx (openedTmp 0) (.mkdir tmpA) := by
  constructor
  · intro h
    change Tree (orphanTmp.ramfs 0) at h
    have hnode : (orphanTmp.ramfs 0).nodes 2 = some (emptyNode [47, 100, 47, 102] false) := rfl
    obtain ⟨j, m, hm, -, hname⟩ := h.parent 2 _ hnode (by decide)
    have hall : ∀ j < ramfsMaxFiles, ((orphanTmp.ramfs 0).nodes j).map Node.name ≠
        some (parentName [47, 100, 47, 102]) := by
      decide +kernel
    exact hall j (accounted_orphanTmp.lt hm) (by rw [hm, map_some, hname]; rfl)
  · intro h
    -- The call returns 0 and changes nothing.
    obtain ⟨k, n, hk, hn, hdir⟩ := h true _ rfl rfl 0 [47, 97] ⟨1, rfl, rfl⟩
    obtain rfl : 1 = k := some.inj hk
    obtain rfl : emptyNode [47, 97] false = n := some.inj hn
    simp [emptyNode] at hdir

end Runs

end YamKernel.Vfs

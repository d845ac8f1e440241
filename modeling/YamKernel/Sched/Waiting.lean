import YamKernel.Sched.AddressSpaces

/-!
# Waiting for children

The loop of `sched_waitpid`. A pass that finds no child to reap sleeps; `Meanwhile` says what the
other tasks can do until the caller runs again. The children of a task are the tasks whose parent
it is; the pass looks only at those in its list, which has room for 32.
-/

namespace YamKernel.Sched

open List

variable {s t : State} {pid : Int} {noHang : Bool} {c : Ptr}

/-- The tasks whose parent is the caller. -/
def children (s : State) : List Ptr :=
  s.live.filter fun c => (s.task c).parent = some s.current

def childIds (s : State) : List Nat := (children s).map fun c => (s.task c).id

abbrev listed (s : State) : List Ptr := (s.task s.current).children

/-- The list of the caller names children of it, and none twice. -/
structure Listing (s : State) : Prop where
  nodup : (listed s).Nodup
  subset : listed s ⊆ children s

/-- So it is in every run of safe calls. -/
theorem Lawful.listing {l r : List Ptr} (h : Lawful s l r) (hcur : s.current ∈ s.live) :
    Listing s where
  nodup := h.family.child_nodup _ hcur
  subset c hc := by
    obtain ⟨hlive, hparent⟩ := h.family.child _ hcur c hc
    exact mem_filter.mpr ⟨hlive, decide_eq_true hparent⟩

def Matches (pid : Int) (id : Nat) : Prop := pid ≤ 0 ∨ id = pid

/-- The other tasks can do anything but give the caller a child or take one from it. -/
structure Meanwhile (s t : State) : Prop where
  current : t.current = s.current
  listed : listed t = listed s
  children : (children t).Perm (children s)
  id : ∀ c ∈ Sched.children s, (t.task c).id = (s.task c).id

/-- The child that a pass of `sched_waitpid` reaps. -/
def waitable (s : State) (pid : Int) : Option Ptr :=
  (listed s).find? fun c => (pid ≤ 0 ∨ (s.task c).id = pid) ∧ (s.task c).state.exited

/-- The value returned, the status stored and the state afterwards. -/
abbrev Answer := Int × Option Int × State

def reaped (s : State) (pid : Int) (c : Ptr) : Answer :=
  ((s.task c).id, some ((s.task c).exitCode % 256 * 256), (schedWaitpid s pid).2)

/-- One pass of `sched_waitpid`, where `noHang` is `options & 1`; `none` if it sleeps. -/
def waitPass (pid : Int) (noHang : Bool) (s : State) : Option Answer :=
  match waitable s pid with
  | some c => some (reaped s pid c)
  | none => if noHang then some (0, none, s) else none

/-- `Waitpid pid noHang s r`: a call in `s` can return `r`. -/
inductive Waitpid (pid : Int) (noHang : Bool) : State → Answer → Prop
  | done {s : State} {r : Answer} : waitPass pid noHang s = some r → Waitpid pid noHang s r
  | sleep {s t : State} {r : Answer} : waitPass pid noHang s = none → Meanwhile s t →
      Waitpid pid noHang t r → Waitpid pid noHang s r

/-- Calls of one task, one after the other: `born` are the ids of the children it gets between
them, `ids` those that were returned. -/
inductive Waits : State → List Nat → List Nat → State → Prop
  | nil (s : State) : Waits s [] [] s
  | act {s s₁ s' : State} {new born ids : List Nat} : s₁.current = s.current → Listing s₁ →
      (childIds s₁).Perm (childIds s ++ new) → Waits s₁ born ids s' → Waits s (new ++ born) ids s'
  | call {s s₁ s' : State} {pid : Int} {noHang : Bool} {k : Nat} {st : Option Int}
      {born ids : List Nat} : Waitpid pid noHang s (k, st, s₁) → Waits s₁ born ids s' →
      Waits s born (if st.isSome then k :: ids else ids) s'

/-- A child that `pid` asks for and that has exited. -/
def Due (pid : Int) (s : State) (c : Ptr) : Prop :=
  c ∈ children s ∧ Matches pid (s.task c).id ∧ (s.task c).state.exited

lemma Meanwhile.refl (s : State) : Meanwhile s s := ⟨rfl, rfl, .refl _, fun _ _ => rfl⟩

lemma Meanwhile.trans {u : State} (h : Meanwhile s t) (h' : Meanwhile t u) : Meanwhile s u where
  current := h'.current.trans h.current
  listed := h'.listed.trans h.listed
  children := h'.children.trans h.children
  id c hc := (h'.id c (h.children.mem_iff.mpr hc)).trans (h.id c hc)

lemma Meanwhile.childIds (h : Meanwhile s t) : (childIds t).Perm (childIds s) := by
  unfold Sched.childIds
  rw [map_congr_left fun c hc => (h.id c hc).symm]
  exact h.children.map _

lemma Meanwhile.listing (h : Meanwhile s t) (hl : Listing s) : Listing t where
  nodup := h.listed ▸ hl.nodup
  subset _ hc := h.children.mem_iff.mpr (hl.subset (h.listed ▸ hc))

lemma waitable_spec (h : waitable s pid = some c) : c ∈ listed s ∧
    Matches pid (s.task c).id ∧ (s.task c).state.exited = true := by
  refine ⟨mem_of_find?_eq_some h, ?_⟩
  simpa [Matches] using find?_some h

lemma Listing.due (hl : Listing s) (h : waitable s pid = some c) : Due pid s c :=
  ⟨hl.subset (waitable_spec h).1, (waitable_spec h).2⟩

/-- A call returns at the first pass that finds a child, or at once with `noHang`. -/
theorem Waitpid.cases {r : Answer} (h : Waitpid pid noHang s r) :
    noHang ∧ r = (0, none, s) ∧ waitable s pid = none ∨
    ∃ t c, Meanwhile s t ∧ waitable t pid = some c ∧ r = reaped t pid c := by
  induction h with
  | @done s r h =>
    revert h
    fun_cases waitPass pid noHang s with
    | case1 c hc =>
      rintro ⟨⟩
      exact .inr ⟨s, c, .refl s, hc, rfl⟩
    | case2 hc hn =>
      rintro ⟨⟩
      exact .inl ⟨hn, rfl, hc⟩
    | case3 => nofun
  | sleep hs hm _ ih =>
    obtain ⟨hn, -⟩ | ⟨t, c, hm', hc⟩ := ih
    · simp [waitPass, hn] at hs
      split at hs <;> cases hs
    · exact .inr ⟨t, c, hm.trans hm', hc⟩

/-- What reaping a child changes. -/
theorem schedWaitpid_reaps (h : waitable s pid = some c) :
    (schedWaitpid s pid).2.current = s.current ∧
    ((schedWaitpid s pid).2.task s.current).children = removeChild (listed s) c ∧
    (schedWaitpid s pid).2.live = s.live.erase c ∧
    ∀ u, ((schedWaitpid s pid).2.task u).id = (s.task u).id ∧
      ((schedWaitpid s pid).2.task u).parent = (s.task u).parent := by
  unfold waitable at h
  simp only [schedWaitpid, h, schedDestroyTaskResources, schedDropTaskCount, vmmDestroyUserPml4]
  split <;> split_ifs <;> refine ⟨rfl, ?_, rfl, fun u => ⟨?_, ?_⟩⟩ <;>
    simp only [setTask_task] <;> grind

lemma children_reaped (hl : Listing s) (h : waitable s pid = some c) :
    (c :: children (schedWaitpid s pid).2).Perm (children s) := by
  obtain ⟨hcur, -, hlive, htask⟩ := schedWaitpid_reaps h
  obtain ⟨hmem, hparent⟩ := mem_filter.mp (hl.subset (waitable_spec h).1)
  simp only [children, hcur, hlive, htask]
  have hperm := (perm_cons_erase hmem).filter fun u => (s.task u).parent = some s.current
  rw [filter_cons_of_pos (by exact hparent)] at hperm
  exact hperm.symm

lemma childIds_reaped (hl : Listing s) (h : waitable s pid = some c) :
    ((s.task c).id :: childIds (schedWaitpid s pid).2).Perm (childIds s) := by
  have hmap := (children_reaped hl h).map fun c => (s.task c).id
  simpa only [childIds, schedWaitpid_reaps h, map_cons] using hmap

lemma Listing.reap (hl : Listing s) (h : waitable s pid = some c) :
    Listing (schedWaitpid s pid).2 := by
  have hmem := (waitable_spec h).1
  obtain ⟨hcur, hlist, -⟩ := schedWaitpid_reaps h
  have hperm := ((removeChild_perm hmem).cons c).trans (perm_cons_erase hmem).symm
  rw [← hlist, ← hcur] at hperm
  have hnodup := nodup_cons.mp (hperm.nodup_iff.mpr hl.nodup)
  refine ⟨hnodup.2, fun d hd => ?_⟩
  have hchild := hl.subset (hperm.subset (mem_cons_of_mem c hd))
  obtain rfl | hrest := mem_cons.mp ((children_reaped hl h).mem_iff.mpr hchild)
  · exact absurd hd hnodup.1
  · exact hrest

lemma Waits.perm {born ids : List Nat} (h : Waits s born ids t) (hl : Listing s) :
    (ids ++ childIds t).Perm (childIds s ++ born) := by
  induction h with
  | nil s => simp
  | act _ hl₁ hids _ ih =>
    refine (ih hl₁).trans ?_
    rw [← append_assoc]
    exact hids.append_right _
  | call hw _ ih =>
    obtain ⟨-, hr, -⟩ | ⟨t, c, hm, hc, hr⟩ := hw.cases
    · cases hr
      exact ih hl
    · obtain ⟨hk, rfl, rfl⟩ := Prod.mk.injEq .. ▸ hr
      cases Int.ofNat_inj.mp hk
      have hlt := hm.listing hl
      have hall := (childIds_reaped hlt hc).trans hm.childIds
      exact ((ih (hlt.reap hc)).cons _).trans (hall.append_right _)

end YamKernel.Sched

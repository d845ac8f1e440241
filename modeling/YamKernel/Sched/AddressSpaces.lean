import YamKernel.Sched.Reaping

/-!
# Who may destroy an address space

Creating tasks, exit, `waitpid` and `exec` keep the task table a `Family`, as long as only
processes create threads, no task acts after it has exited, and a process calls `exec` only
when no child shares its address space. In such runs no address space is destroyed while a
task that has not exited uses it.
-/

namespace YamKernel.Sched

open Lib List Option State

variable {s s' : State} {l r : List Ptr} {t u c p : Ptr}

/-! ## New tasks -/

lemma rqInsert_alike (ht : (s.task t).state.exited = false) (u : Ptr) :
    (rqInsert s t).kin u = s.kin u ∧ (s.task u).Alike ((rqInsert s t).task u) := by
  unfold rqInsert
  split_ifs
  · exact ⟨rfl, .refl _⟩
  simp only [kin, setTask_task]
  split_ifs with hu
  · subst hu
    refine ⟨?_, rfl, ?_, rfl, fun _ => rfl⟩
    · simp only [Task.kin, ht]
      rfl
    cases hst : (s.task u).state <;> simp_all [TaskState.exited]
  · exact ⟨rfl, .refl _⟩

lemma rqInsert_rest (s : State) (t : Ptr) : (rqInsert s t).live = s.live ∧
    (rqInsert s t).spaces = s.spaces ∧ (rqInsert s t).nextId = s.nextId ∧
    (rqInsert s t).deferredReapHead = s.deferredReapHead ∧
    (rqInsert s t).destroyed = s.destroyed := by
  unfold rqInsert
  split_ifs <;> exact ⟨rfl, rfl, rfl, rfl, rfl⟩

/-- What `sched_spawn`, `sys_fork` and `sched_thread_create` do to the table: `t` is added
as a child of the current task. -/
structure Admits (s s' : State) (t : Ptr) (k : Kin) (listed : Bool) : Prop where
  live : s'.live = t :: s.live
  self : s'.kin t = k
  parent : s'.kin s.current = { s.kin s.current with
    children := if listed then (s.kin s.current).children ++ [t]
      else (s.kin s.current).children }
  other : ∀ u, u ≠ t → u ≠ s.current → s'.kin u = s.kin u
  alike : ∀ u, u ≠ t → (s.task u).Alike (s'.task u)
  fresh : (s'.task t).reapQueued = false ∧ (s'.task t).state ≠ .dead
  spaces : s'.spaces = s.spaces
  nextId : s'.nextId = s.nextId
  head : s'.deferredReapHead = s.deferredReapHead
  destroyed : s'.destroyed = s.destroyed

lemma Queue.admitted (h : Queue s l r) (ht : t ∉ s.live) (hlive : s'.live = t :: s.live)
    (hu : ∀ u, u ≠ t → (s.task u).Alike (s'.task u))
    (hfresh : (s'.task t).reapQueued = false ∧ (s'.task t).state ≠ .dead)
    (hhead : s'.deferredReapHead = s.deferredReapHead) : Queue s' l r := by
  refine h.transfer (fun u hm => ?_) (fun u hm => ?_) hhead
  · rw [hlive]
    exact mem_cons_of_mem t ((h.queued u).mp hm).1
  · by_cases hut : u = t
    · exact .inr ⟨hut ▸ ht, hut ▸ hfresh⟩
    · rw [hlive] at hm
      exact .inl ⟨(mem_cons.mp hm).resolve_left hut, (hu u hut).stays⟩

variable {k : Kin} {listed ok : Bool} {s2 : State} {o : Option Ptr} {n : Nat} {S cs : List Ptr}

/-- Queueing the new task and counting it changes nothing of this. -/
theorem Admits.queue {s1 : State} (h : Admits s s1 t k listed)
    (hk : k.exited = false) : Admits s (queueNew s1 t) t k listed := by
  have hex : (s1.task t).state.exited = false := by
    have := congrArg Kin.exited h.self
    exact this.trans hk
  obtain ⟨hlive, hspaces, hid, hhead, hdest⟩ := rqInsert_rest s1 t
  generalize hs2 : queueNew s1 t = s2
  have hkin : ∀ u, s2.kin u = s1.kin u ∧ (s1.task u).Alike (s2.task u) := by
    intro u
    have hins := rqInsert_alike hex u
    subst hs2
    simp only [queueNew, kin, setTask_task] at ⊢
    split_ifs with hu
    · subst hu
      obtain ⟨hkin, hpar, hdead, hq, hlink⟩ := hins
      exact ⟨hkin, hpar, hdead, hq, hlink⟩
    · exact hins
  refine ⟨?_, (hkin t).1.trans h.self, (hkin _).1.trans h.parent,
    fun u hu hc => (hkin u).1.trans (h.other u hu hc), fun u hu => ?_, ?_, ?_, ?_, ?_, ?_⟩
  · subst hs2; exact hlive.trans h.live
  · obtain ⟨h1, h2, h3, h4⟩ := (hkin u).2
    obtain ⟨g1, g2, g3, g4⟩ := h.alike u hu
    exact ⟨h1.trans g1, h2.trans g2, h3.trans g3, fun hq => (h4 (g3.trans hq)).trans (g4 hq)⟩
  · obtain ⟨-, h2, h3, -⟩ := (hkin t).2
    exact ⟨h3.trans h.fresh.1, fun hd => h.fresh.2 (h2.mp hd)⟩
  · subst hs2; exact hspaces.trans h.spaces
  · subst hs2; exact hid.trans h.nextId
  · subst hs2; exact hhead.trans h.head
  · subst hs2; exact hdest.trans h.destroyed

lemma publishChild_admits {child : Task} (hct : s.current ≠ t) (hst : child.state = .ready)
    (hq : child.reapQueued = false) : Admits s (publishChild s t child) t child.kin true := by
  refine Admits.queue ⟨rfl, ?_, ?_, fun u hu hc => ?_, fun u hu => ?_, ?_, rfl, rfl, rfl, rfl⟩
    (by simp [Task.kin, hst, TaskState.exited])
  · simp [kin, addChild, setTask_task, symm hct, Task.kin]
  · simp [kin, addChild, setTask_task, hct, Task.kin]
  · simp [kin, addChild, setTask_task, hu, hc]
  · by_cases hc : u = s.current
    · subst hc
      simpa [addChild, setTask_task, hct] using ⟨rfl, Iff.rfl, rfl, fun _ => rfl⟩
    · simpa [addChild, setTask_task, hu, hc] using .refl _
  · simp [addChild, setTask_task, symm hct, hq, hst]

/-- The table entry `sched_spawn` makes. -/
def spawned (s : State) : Kin := ⟨s.nextId, false, some s.current, [], none, 0⟩

lemma schedSpawn_admits (hcur : s.current ∈ s.live) (h : schedSpawn s o ok = (some t, s2)) :
    t ∉ s.live ∧ ∃ listed, Admits { s with nextId := u64 (s.nextId + 1) } s2 t
      (spawned s) listed := by
  unfold schedSpawn at h
  cases o with
  | none => simp at h
  | some t' =>
    by_cases hn : t' ∈ s.live
    · simp [hn] at h
    simp only [hn, if_false] at h
    cases ok with
    | false => simp at h
    | true =>
      simp only [if_true, Prod.mk.injEq, some.injEq] at h
      obtain ⟨rfl, rfl⟩ := h
      have hct : s.current ≠ t' := fun he => hn (he ▸ hcur)
      refine ⟨hn, ?_⟩
      split_ifs
      · refine ⟨true, Admits.queue ⟨rfl, ?_, ?_, fun u hu hc => ?_, fun u hu => ?_, ?_, rfl, rfl,
          rfl, rfl⟩ rfl⟩
        · simp [kin, addChild, setTask_task, symm hct, Task.kin, Task.zero, spawned,
            TaskState.exited]
        · simp [kin, addChild, setTask_task, hct, Task.kin]
        · simp [kin, addChild, setTask_task, hu, hc]
        · simp only [addChild, setTask_task]
          split_ifs with hc
          · subst hc; exact ⟨rfl, Iff.rfl, rfl, fun _ => rfl⟩
          · exact .refl _
        · simp [addChild, setTask_task, symm hct, Task.zero]
      · refine ⟨false, Admits.queue ⟨rfl, ?_, ?_, fun u hu hc => ?_, fun u hu => ?_, ?_, rfl, rfl,
          rfl, rfl⟩ rfl⟩
        · simp [kin, setTask_task, Task.kin, Task.zero, spawned, TaskState.exited]
        · simp [kin, setTask_task, hct]
        · simp [kin, setTask_task, hu]
        · simpa only [setTask_task, if_neg hu] using .refl _
        · simp [setTask_task, Task.zero]

/-- The new task joins the family; `s` already has the new id handed out. -/
theorem Admits.family {S' : List Ptr}
    (h : Admits s s' t k listed) (hf : Family s.live s.kin S n) (ht : t ∉ s.live)
    (hcur : s.current ∈ s.live) (hex : (s.kin s.current).exited = false)
    (hk : Family.Newcomer s.kin s.current S S' n k listed) (hsub : ∀ p ∈ S, p ∈ S') :
    Family s'.live s'.kin S' (n + 1) := by
  rw [h.live]
  exact hf.add ht hcur hex hk hsub h.self h.parent h.other

/-- A task added by the current task. -/
theorem Lawful.admitted (h : Lawful s l r) (hid : s.nextId + 1 < 2 ^ 64)
    (ha : Admits { s with nextId := u64 (s.nextId + 1), spaces := S } s' t k listed)
    (ht : t ∉ s.live) (hcur : s.current ∈ s.live) (hex : (s.kin s.current).exited = false)
    (hk : Family.Newcomer s.kin s.current s.spaces S s.nextId k listed)
    (hsub : ∀ p ∈ s.spaces, p ∈ S) : Lawful s' l r := by
  refine ⟨?_, h.queue.admitted ht ha.live ha.alike ha.fresh ha.head, fun e he => ?_⟩
  · rw [ha.spaces, ha.nextId, u64_of_lt hid]
    exact ha.family h.family ht hcur hex hk hsub
  · rw [ha.destroyed] at he
    exact h.quiet e he

/-- Only the counter of ids and the set of address spaces in use change. -/
theorem Lawful.grow (h : Lawful s l r) (hn : s.nextId ≤ n)
    (hsub : ∀ p ∈ s.spaces, p ∈ S) : Lawful { s with nextId := n, spaces := S } l r := by
  obtain ⟨⟨h1, h2, h3, h4, h5, h6, h7, h8, h9, h10, h11⟩, ⟨q1, q2, q3, q4, q5⟩, hquiet⟩ := h
  exact ⟨⟨h1, fun t ht => Nat.lt_of_lt_of_le (h2 t ht) hn, h3,
    fun t ht p hp => hsub p (h4 t ht p hp), h5,
    h6, h7, h8, h9, h10, h11⟩, ⟨q1, q2, q3, q4, q5⟩, hquiet⟩

lemma Lawful.discard (h : Lawful s l r) (hp : p ∉ s.spaces) :
    Lawful (vmmDestroyUserPml4 { s with spaces := p :: s.spaces } p) l r := by
  have hused : users { s with spaces := p :: s.spaces } p = [] :=
    users_eq_nil fun u hu hup => absurd (h.family.space u hu p hup) hp
  refine ⟨?_, ⟨h.queue.chain, h.queue.nodup, h.queue.queued, h.queue.dead, h.queue.orphan⟩,
    fun e he => ?_⟩
  · change Family s.live s.kin ((p :: s.spaces).erase p) s.nextId
    rw [erase_cons_head]
    exact h.family
  · simp only [vmmDestroyUserPml4, mem_append, mem_singleton] at he
    obtain he | rfl := he
    · exact h.quiet e he
    · exact hused

lemma le_u64_succ (hn : n + 1 < 2 ^ 64) : n ≤ u64 (n + 1) := by
  rw [u64_of_lt hn]
  exact Nat.le_succ n

lemma schedSpawn_none (h : schedSpawn s o ok = (none, s2)) (hid : s.nextId + 1 < 2 ^ 64) :
    ∃ n, s.nextId ≤ n ∧ s2 = { s with nextId := n } := by
  unfold schedSpawn at h
  cases o with
  | none =>
    obtain ⟨-, rfl⟩ := Prod.mk.inj h
    exact ⟨s.nextId, Nat.le_refl _, rfl⟩
  | some t =>
    by_cases hn : t ∈ s.live
    · simp only [hn] at h
      obtain ⟨-, rfl⟩ := Prod.mk.inj h
      exact ⟨s.nextId, Nat.le_refl _, rfl⟩
    simp only [hn] at h
    cases ok with
    | false =>
      obtain ⟨-, rfl⟩ := Prod.mk.inj h
      exact ⟨_, le_u64_succ hid, rfl⟩
    | true => simp at h

lemma spawned_newcomer (s : State) (S : List Ptr) (listed : Bool) :
    Family.Newcomer s.kin s.current S S s.nextId (spawned s) listed :=
  ⟨rfl, rfl, rfl, rfl, fun hg => absurd rfl hg, fun _ hp => by simp [spawned] at hp,
    .inr (.inl rfl)⟩

section Calls

variable (h : Lawful s l []) (hcur : s.current ∈ s.live)
  (hex : (s.task s.current).state.exited = false) (hid : s.nextId + 1 < 2 ^ 64)

include h hcur hex hid

lemma Lawful.spawn (o : Option Ptr) (ok : Bool) : ∃ l', Lawful (schedSpawn s o ok).2 l' [] := by
  cases hout : schedSpawn s o ok with
  | mk out s2 =>
  cases out with
  | none =>
    obtain ⟨n, hn, rfl⟩ := schedSpawn_none hout hid
    exact ⟨l, h.grow hn fun _ hp => hp⟩
  | some t =>
    obtain ⟨ht, listed, ha⟩ := schedSpawn_admits hcur hout
    exact ⟨l, h.admitted hid ha ht hcur hex (spawned_newcomer s _ _) fun _ hp => hp⟩

lemma Lawful.elfSpawn (o : Option Ptr) (ok : Bool) (space : Option Ptr) :
    ∃ l', Lawful (elfSpawn s o ok space) l' [] := by
  unfold Sched.elfSpawn
  cases space with
  | none => exact ⟨l, h⟩
  | some p =>
    by_cases hp : p ∈ s.spaces
    · simpa [hp] using ⟨l, h⟩
    simp only [hp, if_false]
    cases hout : schedSpawn { s with spaces := p :: s.spaces } o ok with
    | mk out s2 =>
    cases out with
    | none =>
      obtain ⟨n, hn, rfl⟩ := schedSpawn_none hout hid
      exact ⟨l, (h.grow hn fun _ hq => hq).discard hp⟩
    | some t =>
      obtain ⟨ht, listed, ha⟩ :=
        schedSpawn_admits (s := { s with spaces := p :: s.spaces }) hcur hout
      have hfam := ha.family h.family ht hcur hex (spawned_newcomer s _ _)
        fun _ hq => hq
      have hself : s2.kin t = spawned s := ha.self
      refine ⟨l, ⟨?_, ?_, fun e he => h.quiet e (ha.destroyed ▸ he)⟩⟩
      · rw [setTask_spaces, setTask_nextId, ha.spaces, ha.nextId, u64_of_lt hid]
        refine hfam.exec (show t ∈ s2.live by rw [ha.live]; simp) (by rw [hself]; rfl) hp ?_ ?_
          (fun u hu => by rw [kin_setTask, if_neg hu]) (by simp) fun q hq _ => by simp [hq]
        · rw [hself]; simp [spawned]
        · rw [kin_setTask, if_pos rfl]; rfl
      · exact (edits_setTask s2 t _).queue (h.queue.admitted ht ha.live ha.alike ha.fresh ha.head)
          ⟨rfl, fun _ => rfl, id, fun hd => .inr ⟨hd, rfl⟩⟩

lemma Lawful.fork (o : Option Ptr) (stackOk : Bool) (space : Option Ptr) (restOk : Bool) :
    ∃ l', Lawful (sysFork s o stackOk space restOk).2 l' [] := by
  have hcount : Lawful { s with nextId := u64 (s.nextId + 1) } l [] :=
    h.grow (le_u64_succ hid) fun _ hp => hp
  unfold sysFork
  by_cases hfull : maxChildren ≤ (s.task s.current).children.length
  · rw [if_pos hfull]; exact ⟨l, h⟩
  rw [if_neg hfull]
  cases o with
  | none => exact ⟨l, h⟩
  | some t =>
    by_cases ht : t ∈ s.live
    · simpa [ht] using ⟨l, h⟩
    have hct : s.current ≠ t := fun he => ht (he ▸ hcur)
    simp only [ht, if_false]
    cases stackOk with
    | false => exact ⟨l, hcount⟩
    | true =>
      simp only [if_true]
      cases (s.task s.current).pml4 with
      | none =>
        split_ifs
        · refine ⟨l, h.admitted hid (publishChild_admits hct rfl rfl) ht hcur hex
            ⟨rfl, rfl, rfl, rfl, fun hg => absurd rfl hg, fun _ hp => ?_, .inr (.inl rfl)⟩
            fun _ hp => hp⟩
          simp [Task.kin] at hp
        · exact ⟨l, hcount⟩
      | some q =>
        cases space with
        | none => exact ⟨l, hcount⟩
        | some p =>
          simp only
          split_ifs with hp
          · exact ⟨l, hcount⟩
          · refine ⟨l, h.admitted hid (publishChild_admits hct rfl rfl) ht hcur hex
              ⟨rfl, rfl, rfl, rfl, fun hg => absurd rfl hg, fun q hq => ?_, .inl ⟨rfl, ?_⟩⟩
              fun _ hq => by simp [hq]⟩
            · obtain rfl := some.inj hq
              simp
            · intro q hq
              obtain rfl := some.inj hq
              exact hp
          · exact ⟨l, hcount.discard hp⟩

/-- A process creates a thread; a task without an address space may do so in any case. -/
theorem Lawful.threadCreate (o : Option Ptr) (ok : Bool)
    (hthread : (s.task s.current).pml4 ≠ none →
      (s.task s.current).threadGroup = 0 ∧ (s.task s.current).id ≠ 0) :
    ∃ l', Lawful (schedThreadCreate s o ok).2 l' [] := by
  unfold schedThreadCreate
  by_cases hfull : maxChildren ≤ (s.task s.current).children.length
  · rw [if_pos hfull]; exact ⟨l, h⟩
  rw [if_neg hfull]
  cases o with
  | none => exact ⟨l, h⟩
  | some t =>
    by_cases ht : t ∈ s.live
    · simpa [ht] using ⟨l, h⟩
    have hct : s.current ≠ t := fun he => ht (he ▸ hcur)
    simp only [ht]
    cases ok with
    | false => exact ⟨l, h.grow (le_u64_succ hid) fun _ hp => hp⟩
    | true =>
      refine ⟨l, h.admitted hid (publishChild_admits hct rfl rfl) ht hcur hex
        ⟨rfl, rfl, rfl, rfl, fun _ => ?_, h.family.space _ hcur, ?_⟩ fun _ hp => hp⟩
      · have hlt : (s.task s.current).id < s.nextId := h.family.id_lt _ hcur
        have hgl : (s.task s.current).threadGroup ≠ 0 →
            (s.task s.current).threadGroup < (s.task s.current).id := h.family.group_lt _ hcur
        split_ifs with hg
        · exact Nat.lt_trans (hgl hg) hlt
        · exact hlt
      · by_cases hp : (s.task s.current).pml4 = none
        · exact .inr (.inl hp)
        · obtain ⟨hg, hi⟩ := hthread hp
          refine .inr (.inr ⟨rfl, ?_, hg, rfl⟩)
          simpa [Task.kin, hg] using hi

end Calls

/-! ## Exit -/

lemma orphanChild_spec (h : Queue s l []) (hc : c ∈ s.live) :
    (∃ l', Queue (orphanChild s c) l' []) ∧
      (∀ u, (orphanChild s c).kin u = if u = c then { s.kin c with parent := none } else s.kin u) ∧
      SameTable s (orphanChild s c) := by
  have hfirst := edits_setTask s c { s.task c with parent := none }
  unfold orphanChild
  simp only [hfirst.self]
  by_cases hex : (s.task c).state.exited = true
  · -- The child had exited already: it is marked dead and left to be reaped.
    have hdead := hfirst.trans (edits_setTask _ c { s.task c with parent := none, state := .dead })
    generalize setTask (s.setTask c _) c _ = s2 at hdead
    obtain ⟨b, hdrop⟩ := schedDropTaskCount_edits s2 c
    rw [hdead.self] at hdrop
    replace hdrop := hdead.trans hdrop
    generalize schedDropTaskCount s2 c = s3 at hdrop
    have hq3 : Queue s3 l [] := hdrop.queue h ⟨rfl, fun _ => rfl, fun _ => rfl, fun _ => .inl rfl⟩
    have hkin3 : ∀ u, s3.kin u = if u = c then { s.kin c with parent := none } else s.kin u :=
      fun u => by
        rw [hdrop.kin]
        simp only [Task.kin, kin, hex]
        rfl
    split_ifs
    · exact ⟨⟨l, hq3⟩, hkin3, hdrop.same⟩
    · obtain ⟨l', hq', -⟩ := hq3.push (hdrop.same.live ▸ hc) (by rw [hdrop.self])
      obtain ⟨hkin', hsame'⟩ := schedQueueDeferredReap_kin s3 c
      exact ⟨⟨l', hq'⟩, fun u => (hkin' u).trans (hkin3 u), hdrop.same.trans hsame'⟩
  · rw [if_neg hex]
    exact ⟨⟨l, hfirst.queue h ⟨rfl, fun _ => rfl, id, fun _ => .inl rfl⟩⟩, hfirst.kin, hfirst.same⟩

lemma orphanChildren_spec (h : Queue s l []) (hcs : ∀ c ∈ cs, c ∈ s.live) :
    (∃ l', Queue (cs.foldl orphanChild s) l' []) ∧
      (∀ u, (cs.foldl orphanChild s).kin u =
        if u ∈ cs then { s.kin u with parent := none } else s.kin u) ∧
      SameTable s (cs.foldl orphanChild s) := by
  induction cs generalizing s l with
  | nil => exact ⟨⟨l, h⟩, fun _ => rfl, .refl s⟩
  | cons c cs ih =>
    obtain ⟨⟨l1, hq1⟩, hkin1, hsame1⟩ := orphanChild_spec h (hcs c (by simp))
    obtain ⟨hq2, hkin2, hsame2⟩ := ih hq1 fun d hd => hsame1.live ▸ hcs d (by simp [hd])
    refine ⟨hq2, fun u => ?_, hsame1.trans hsame2⟩
    rw [foldl_cons, hkin2 u, hkin1 u]
    by_cases huc : u = c
    · subst huc; simp
    · simp [huc]

/-- `sched_orphan_children` of a task whose children are in the table. -/
theorem schedOrphanChildren_spec (h : Queue s l []) (hself : t ∉ (s.task t).children)
    (hcs : ∀ c ∈ (s.task t).children, c ∈ s.live) : let s' := schedOrphanChildren s t
    (∃ l', Queue s' l' []) ∧ SameTable s s' ∧
      (∀ c ∈ (s.task t).children, s'.kin c = { s.kin c with parent := none }) ∧
      (∀ u, u ≠ t → u ∉ (s.task t).children → s'.kin u = s.kin u) ∧
      ∃ pml4, s'.kin t = { s.kin t with children := [], pml4 } ∧ (pml4 = none ∨
        pml4 = (s.kin t).pml4 ∧ ∀ c ∈ (s.kin t).children, ∀ p, (s.kin t).pml4 = some p →
          (s.kin c).pml4 ≠ some p) := by
  obtain ⟨⟨l', hq⟩, hkin, hsame⟩ := orphanChildren_spec h hcs
  unfold schedOrphanChildren
  simp only
  generalize (s.task t).children.foldl orphanChild s = s1 at *
  have hkt : s1.kin t = s.kin t := by rw [hkin, if_neg hself]
  have hfirst := edits_setTask s1 t { s1.task t with children := [] }
  have hdone : ∀ {s2 : State} {v : Task}, Edits s1 s2 t v → (s1.task t).Alike v →
      (∃ l', Queue s2 l' []) ∧ SameTable s s2 ∧
      (∀ c ∈ (s.task t).children, s2.kin c = { s.kin c with parent := none }) ∧
      ∀ u, u ≠ t → u ∉ (s.task t).children → s2.kin u = s.kin u := by
    intro s2 v hedit hv
    refine ⟨⟨l', hedit.queue hq hv.stays⟩, hsame.trans hedit.same,
      fun c hc => ?_, fun u hu hc => ?_⟩
    · rw [hedit.kin, if_neg fun he : c = t => hself (he ▸ hc), hkin, if_pos hc]
    · rw [hedit.kin, if_neg hu, hkin, if_neg hc]
  simp only [hfirst.self]
  split_ifs with hshared
  · have hedit := hfirst.trans (edits_setTask _ t { s1.task t with children := [], pml4 := none })
    obtain ⟨h1, h2, h3, h4⟩ := hdone hedit ⟨rfl, Iff.rfl, rfl, fun _ => rfl⟩
    refine ⟨h1, h2, h3, h4, none, ?_, .inl rfl⟩
    rw [hedit.kin, if_pos rfl, ← hkt]
    rfl
  · obtain ⟨h1, h2, h3, h4⟩ := hdone hfirst ⟨rfl, Iff.rfl, rfl, fun _ => rfl⟩
    refine ⟨h1, h2, h3, h4, (s.kin t).pml4, ?_, .inr ⟨rfl, fun c hc p hp hcp => hshared ?_⟩⟩
    · rw [hfirst.kin, if_pos rfl, ← hkt]
      rfl
    · have hp : (s.task t).pml4 = some p := hp
      have hcp : (s.task c).pml4 = some p := hcp
      exact any_eq_true.mpr ⟨c, hc, by simp [hp, hcp]⟩

lemma Lawful.exit (h : Lawful s l []) (hcur : s.current ∈ s.live)
    (hex : (s.task s.current).state.exited = false) (code : Int) :
    ∃ l', Lawful (schedExitCurrent s code) l' [] := by
  have hcode := edits_setTask s s.current { s.task s.current with exitCode := code }
  unfold schedExitCurrent
  simp only
  generalize s.setTask s.current { s.task s.current with exitCode := code } = s0 at hcode
  have hkin0 := congrFun (hcode.kin_eq rfl)
  have hkids : (s0.task s.current).children = (s.kin s.current).children :=
    congrArg Kin.children (hkin0 s.current)
  obtain ⟨⟨l1, hq1⟩, hsame1, hc1, ho1, pml4, hself1, hpml4⟩ := schedOrphanChildren_spec
    (hcode.queue h.queue ⟨rfl, fun _ => rfl, id, fun hd => .inr ⟨hd, rfl⟩⟩)
    (by rw [hkids]; exact h.family.child_ne _ hcur)
    (by rw [hkids, hcode.same.live]; exact fun c hc => (h.family.child _ hcur c hc).1)
  generalize schedOrphanChildren s0 s.current = s1 at *
  rw [hkids] at hc1 ho1
  simp only [hkin0] at hc1 ho1 hself1 hpml4
  -- Whatever the task is marked as, the family is that of an exit.
  have hfinal : ∀ {s2 : State} {l2 : List Ptr}, Queue s2 l2 [] → SameTable s1 s2 →
      (∀ u, s2.kin u = if u = s.current then { s1.kin s.current with exited := true }
        else s1.kin u) → Lawful s2 l2 [] := by
    intro s2 l2 hq2 hsame2 hkin2
    have hsame := (hcode.same.trans hsame1).trans hsame2
    refine ⟨?_, hq2, fun e he => h.quiet e (hsame.destroyed ▸ he)⟩
    rw [hsame.live, hsame.spaces, hsame.nextId]
    refine h.family.exit hcur hpml4 (by rw [hkin2, if_pos rfl, hself1]) (fun c hc => ?_)
      fun u hu hc => ?_
    · rw [hkin2, if_neg fun he : c = s.current => h.family.child_ne _ hcur (he ▸ hc), hc1 c hc]
    · rw [hkin2, if_neg hu, ho1 u hu hc]
  split_ifs with hpar
  · have hedit := edits_setTask s1 s.current { s1.task s.current with state := .zombie }
    refine ⟨l1, hfinal (hedit.queue hq1 ⟨rfl, fun _ => rfl, fun hd => ?_, nofun⟩) hedit.same
      hedit.kin⟩
    have hexit := (congrArg Kin.exited hself1).trans hex
    simp [kin, Task.kin, hd, TaskState.exited] at hexit
  · have hnone : (s1.task s.current).parent = none := by simpa using hpar
    have hdead := edits_setTask s1 s.current { s1.task s.current with state := .dead }
    generalize s1.setTask s.current { s1.task s.current with state := .dead } = s2 at hdead
    obtain ⟨b, hdrop⟩ := schedDropTaskCount_edits s2 s.current
    rw [hdead.self] at hdrop
    replace hdrop := hdead.trans hdrop
    generalize schedDropTaskCount s2 s.current = s3 at hdrop
    have hq3 := hdrop.queue hq1 ⟨rfl, fun _ => rfl, fun _ => rfl, fun _ => .inl hnone⟩
    have hlive : s.current ∈ s3.live :=
      ((hcode.same.trans hsame1).trans hdrop.same).live ▸ hcur
    obtain ⟨l4, hq4, -⟩ := hq3.push hlive (by rw [hdrop.self])
    obtain ⟨hkin4, hsame4⟩ := schedQueueDeferredReap_kin s3 s.current
    exact ⟨l4, hfinal hq4 (hdrop.same.trans hsame4) fun u => (hkin4 u).trans (hdrop.kin u)⟩

/-! ## `sched_waitpid` -/

lemma removeChild_cons_ne {x c : Ptr} (hx : x ≠ c) (hc : c ∈ cs) :
    removeChild (x :: cs) c = x :: removeChild cs c := by
  obtain ⟨i, hi⟩ : ∃ i, cs.idxOf? c = some i := by
    cases h : cs.idxOf? c with
    | none => exact absurd hc (idxOf?_eq_none_iff.mp h)
    | some i => exact ⟨i, rfl⟩
  cases cs with
  | nil => simp at hc
  | cons y ys =>
    have hidx : (x :: y :: ys).idxOf? c = some (i + 1) := by
      rw [idxOf?_cons, if_neg (by simpa using hx), hi]; rfl
    obtain ⟨last, hlast⟩ := isSome_iff_exists.mp
      (getLast?_isSome.mpr (cons_ne_nil y ys))
    have hset : (y :: ys).set i last ≠ [] := by simp
    simp only [removeChild, hidx, hi, getLast?_cons_cons, hlast]
    exact dropLast_cons_of_ne_nil hset

lemma removeChild_perm {c : Ptr} (hc : c ∈ cs) : (removeChild cs c).Perm (cs.erase c) := by
  induction cs with
  | nil => simp at hc
  | cons x cs ih =>
    by_cases hx : x = c
    · subst hx
      rw [erase_cons_head]
      obtain rfl | ⟨ys, y, rfl⟩ := eq_nil_or_concat cs
      · simp [removeChild]
      · rw [concat_eq_append]
        have hlast : (x :: (ys ++ [y])).getLast? = some y := by
          rw [← cons_append, getLast?_append]; rfl
        simp only [removeChild, idxOf?_cons, hlast]
        simp only [BEq.rfl, if_true, set_cons_zero]
        rw [← cons_append, dropLast_concat]
        exact (perm_append_singleton y ys).symm
    · have hc' : c ∈ cs := (mem_cons.mp hc).resolve_left (Ne.symm hx)
      rw [removeChild_cons_ne hx hc', erase_cons_tail (by simpa using hx)]
      exact (ih hc').cons x

lemma Lawful.waitpid (h : Lawful s l []) (hcur : s.current ∈ s.live) (pid : Int) :
    ∃ l', Lawful (schedWaitpid s pid).2 l' [] := by
  unfold schedWaitpid
  simp only
  split
  · exact ⟨l, h⟩
  next c hfind =>
    obtain ⟨hc, hexc⟩ : c ∈ (s.task s.current).children ∧ (s.task c).state.exited = true := by
      refine ⟨mem_of_find?_eq_some hfind, ?_⟩
      have := find?_some hfind
      simp only [decide_eq_true_eq] at this
      exact this.2
    obtain ⟨hlive, hpar⟩ := h.family.child _ hcur c hc
    have hne : s.current ≠ c := fun he => h.family.child_ne _ hcur (he ▸ hc)
    have hnot : c ∉ l ++ [] := fun hm => by
      have hnone := h.queue.orphan c hlive (h.queue.dead c hm)
      rw [kin, Task.kin, hnone] at hpar
      simp at hpar
    obtain ⟨b, hdrop⟩ := schedDropTaskCount_edits s c
    have hdead := hdrop.trans (edits_setTask _ c { s.task c with accounted := b, state := .dead })
    simp only [hdrop.self]
    generalize (schedDropTaskCount s c).setTask c _ = s0 at hdead
    have hcut := edits_setTask s0 s.current { s.task s.current with
      children := removeChild (s.task s.current).children c }
    simp only [hdead.self, hdead.other _ hne]
    generalize s0.setTask s.current _ = s1 at hcut
    have hother : ∀ u, u ≠ c → u ≠ s.current → s1.task u = s.task u := fun u hu huc =>
      (hcut.other u huc).trans (hdead.other u hu)
    have hparent := hcut.self
    have hself := (hcut.other c (symm hne)).trans hdead.self
    have hsame := hdead.same.trans hcut.same
    have hperm := removeChild_perm hc
    have hnd : (s.task s.current).children.Nodup := h.family.child_nodup _ hcur
    have hdet : Detached s s1 c := by
      refine ⟨hsame.live, hsame.spaces, hsame.nextId, by rw [kin, hself]; rfl,
        by rw [kin, hself]; rfl, fun u hl hu => ?_⟩
      · by_cases huc : u = s.current
        · subst huc
          rw [kin, hparent]
          refine ⟨rfl, hperm.nodup_iff.mpr (hnd.erase c), fun d => ?_⟩
          exact hperm.mem_iff.trans (hnd.mem_erase_iff.trans and_comm)
        · rw [kin, hother u hu huc]
          refine ⟨rfl, h.family.child_nodup u hl, fun d => ⟨fun hd => ⟨hd, ?_⟩, And.left⟩⟩
          rintro rfl
          have hpu := (h.family.child u hl d hd).2
          rw [hpar] at hpu
          exact huc (some.inj hpu).symm
    generalize howns : decide ((s.task c).pml4.isSome = true ∧
      (s.task c).pml4 ≠ (s.task s.current).pml4) = owns
    have hown : owns = true → ∀ p, (s.kin c).pml4 = some p → (s.kin c).threadGroup = 0 := by
      rintro rfl p hp
      rw [decide_eq_true_eq] at howns
      refine h.family.child_process hcur hc hp fun hpc => howns.2 ?_
      exact hp.trans hpc.symm
    obtain ⟨hfam, hquiet⟩ := hdet.free h.family hlive hexc hown
      fun e he => h.quiet e (hsame.destroyed ▸ he)
    obtain ⟨hlive', htask', -, hhead, -⟩ := schedDestroyTaskResources_spec s1 c owns
    refine ⟨l, hfam, h.queue.free h.family.nodup hnot (fun u _ hu => ?_)
      (hlive'.trans (by rw [hdet.live])) (hhead.trans (hcut.head.trans hdead.head)), hquiet⟩
    rw [htask' u hu]
    by_cases huc : u = s.current
    · rw [huc, hparent]; exact ⟨rfl, Iff.rfl, rfl, fun _ => rfl⟩
    · rw [hother u hu huc]; exact .refl _

/-! ## `exec` -/

lemma Lawful.exec (h : Lawful s l []) (hcur : s.current ∈ s.live) (space : Option Ptr)
    (hshare : ∀ c ∈ (s.task s.current).children, (s.task s.current).pml4 ≠ none →
      (s.task c).pml4 ≠ (s.task s.current).pml4) : ∃ l', Lawful (elfExec s space) l' [] := by
  unfold elfExec
  cases space with
  | none => exact ⟨l, h⟩
  | some p =>
    by_cases hp : p ∈ s.spaces
    · simpa [hp] using ⟨l, h⟩
    simp only [hp, if_false]
    by_cases hthread : (s.task s.current).threadGroup ≠ 0 ∧
        (s.task s.current).threadGroup ≠ (s.task s.current).id
    · rw [if_pos hthread]
      exact ⟨l, h.discard hp⟩
    rw [if_neg hthread]
    have hg : (s.task s.current).threadGroup = 0 := by
      by_contra hg
      have hlt : (s.task s.current).threadGroup < (s.task s.current).id :=
        h.family.group_lt _ hcur hg
      exact hthread ⟨hg, Nat.ne_of_lt hlt⟩
    have hc : ∀ c ∈ (s.kin s.current).children, ∀ q, (s.kin s.current).pml4 = some q →
        (s.kin c).pml4 ≠ some q := fun c hc q hq hcq =>
      hshare c hc (fun hn => by simp [kin, Task.kin, hn] at hq) (hcq.trans hq.symm)
    have hedit := edits_setTask { s with spaces := p :: s.spaces } s.current
      { s.task s.current with pml4 := some p, signalPending := 0, threadGroup := 0 }
    generalize setTask { s with spaces := p :: s.spaces } s.current _ = s1 at hedit
    have hself : s1.kin s.current = { s.kin s.current with pml4 := some p } := by
      rw [hedit.kin]
      simp [kin, Task.kin, hg]
    have hother : ∀ u, u ≠ s.current → s1.kin u = s.kin u :=
        fun u hu => (hedit.kin u).trans (if_neg hu)
    have hq1 : Queue s1 l [] := hedit.queue (h.queue.congr (fun _ _ => .refl _) rfl rfl)
      ⟨rfl, fun _ => rfl, id, fun hd => .inr ⟨hd, rfl⟩⟩
    obtain ⟨hlive, hspaces, hid, hdest⟩ := hedit.same
    have hquiet : Quiet s1 := fun e he => h.quiet e (hdest ▸ he)
    cases hold : (s.task s.current).pml4 with
    | none =>
      refine ⟨l, ?_, hq1, hquiet⟩
      rw [hlive, hspaces, hid]
      exact h.family.exec hcur hg hp hc hself hother (by simp) fun q hq _ => by simp [hq]
    | some q =>
      have hqs : q ∈ s.spaces := h.family.space _ hcur q hold
      have hqp : q ≠ p := fun he => hp (he ▸ hqs)
      simp only [if_pos hqp]
      have hused : users s1 q = [] := users_eq_nil fun u hu huq => by
        by_cases huc : u = s.current
        · rw [huc, hself] at huq
          exact absurd (some.inj huq).symm hqp
        · rw [hother u huc] at huq
          exact absurd (h.family.sole hcur hg hold (fun c hm => hc c hm q hold) (hlive ▸ hu) huq)
            huc
      refine ⟨l, ?_, hq1.congr (fun _ _ => .refl _) rfl rfl, fun e he => ?_⟩
      · change Family s1.live s1.kin (s1.spaces.erase q) s1.nextId
        rw [hlive, hspaces, hid]
        refine h.family.exec hcur hg hp hc hself hother ?_ fun q' hq' hne => ?_
        · exact (mem_erase_of_ne (symm hqp)).mpr (by simp)
        · have hqq : q' ≠ q := fun he => hne (he ▸ hold)
          exact (mem_erase_of_ne hqq).mpr (by simp [hq'])
      · simp only [vmmDestroyUserPml4, mem_append, mem_singleton] at he
        obtain he | rfl := he
        · exact hquiet e he
        · exact hused

/-! ## Runs -/

/-- The calls that create and end tasks and address spaces. `reapPicked` is the part of
`sched_yield` that reaps a dead task it took off the run queue, and `schedule` stands for
everything else the scheduler does: it changes the run queue and the states and links of
tasks that have not exited. -/
inductive Call where
  | spawn (t : Option Ptr) (ok : Bool)
  | elfSpawn (t : Option Ptr) (ok : Bool) (space : Option Ptr)
  | fork (t : Option Ptr) (stackOk : Bool) (space : Option Ptr) (restOk : Bool)
  | threadCreate (t : Option Ptr) (ok : Bool)
  | exit (code : Int)
  | waitpid (pid : Int)
  | exec (space : Option Ptr)
  | reap
  | reapPicked (t : Ptr)
  | schedule (rq : List Ptr) (state : Ptr → TaskState) (link : Ptr → Option Ptr)

def reschedule (s : State) (rq : List Ptr) (state : Ptr → TaskState)
    (link : Ptr → Option Ptr) : State :=
  { s with
    rq
    task := fun t =>
      if (s.task t).state.exited ∨ (state t).exited then s.task t
      else { s.task t with state := state t, waitNext := link t } }

def Call.run (s : State) : Call → State
  | .spawn t ok => (schedSpawn s t ok).2
  | .elfSpawn t ok space => Sched.elfSpawn s t ok space
  | .fork t stackOk space restOk => (sysFork s t stackOk space restOk).2
  | .threadCreate t ok => (schedThreadCreate s t ok).2
  | .exit code => schedExitCurrent s code
  | .waitpid pid => (schedWaitpid s pid).2
  | .exec space => elfExec s space
  | .reap => schedReapDeferredDeadTasks s
  | .reapPicked t =>
    if t ∈ s.live ∧ (s.task t).state = .dead ∧ (s.task t).reapQueued = false then
      schedReapDetachedDeadTask { s with rq := s.rq.erase t } t
    else s
  | .schedule rq state link => reschedule s rq state link

/-- Any task may be the current one when a call is made. -/
def lifeStep : Machine State (Ptr × Call) Unit :=
  fun s ev => ((), ev.2.run { s with current := ev.1 })

/-- The calls are made by tasks that have not exited. The counter of ids does not wrap, threads
are created by processes, and `exec` is called when no child shares the address space of the
caller. -/
def SafeCall (s : State) : Ptr × Call → Prop
  | (_, .reap) | (_, .reapPicked _) | (_, .schedule _ _ _) => True
  | (cur, .spawn _ _) | (cur, .elfSpawn _ _ _) | (cur, .fork _ _ _ _) =>
    cur ∈ s.live ∧ (s.task cur).state.exited = false ∧ s.nextId + 1 < 2 ^ 64
  | (cur, .threadCreate _ _) => cur ∈ s.live ∧ (s.task cur).state.exited = false ∧
    s.nextId + 1 < 2 ^ 64 ∧ ((s.task cur).pml4 ≠ none →
      (s.task cur).threadGroup = 0 ∧ (s.task cur).id ≠ 0)
  | (cur, .exec _) => cur ∈ s.live ∧ (s.task cur).state.exited = false ∧
    ∀ c ∈ (s.task cur).children, (s.task cur).pml4 ≠ none → (s.task c).pml4 ≠ (s.task cur).pml4
  | (cur, _) => cur ∈ s.live ∧ (s.task cur).state.exited = false

instance (s : State) : (ev : Ptr × Call) → Decidable (SafeCall s ev)
  | (_, .reap) | (_, .reapPicked _) | (_, .schedule _ _ _) => .isTrue trivial
  | (_, .threadCreate _ _) | (_, .exec _) | (_, .spawn _ _) | (_, .elfSpawn _ _ _)
  | (_, .fork _ _ _ _) | (_, .exit _) | (_, .waitpid _) => inferInstanceAs (Decidable (_ ∧ _))

lemma Lawful.reschedule (h : Lawful s l []) (rq : List Ptr) (state : Ptr → TaskState)
    (link : Ptr → Option Ptr) : Lawful (reschedule s rq state link) l [] := by
  have htask : ∀ u, (Sched.reschedule s rq state link).kin u = s.kin u ∧ (u ∈ s.live →
      (s.task u).Alike ((Sched.reschedule s rq state link).task u)) := by
    intro u
    simp only [Sched.reschedule, kin]
    split_ifs with hex
    · exact ⟨rfl, fun _ => .refl _⟩
    · rw [not_or] at hex
      refine ⟨by simp only [Task.kin, hex.1, hex.2], fun hu => ⟨rfl, ?_, rfl, fun hq => ?_⟩⟩
      · constructor
        · intro hd; simp [show state u = .dead from hd, TaskState.exited] at hex
        · intro hd; simp [hd, TaskState.exited] at hex
      · have hd := h.queue.dead u ((h.queue.queued u).mpr ⟨hu, hq⟩)
        simp [hd, TaskState.exited] at hex
  refine ⟨?_, h.queue.congr (fun u hu => ((htask u).2 hu).stays) rfl rfl, h.quiet⟩
  rw [funext fun u => (htask u).1]
  exact h.family

lemma Lawful.relabel (h : Lawful s l r) (cur : Ptr) (rq : List Ptr) :
    Lawful { s with current := cur, rq } l r :=
  ⟨h.family, h.queue.congr (fun _ _ => .refl _) rfl rfl, h.quiet⟩

lemma Lawful.step (h : Lawful s l []) {ev : Ptr × Call} (hev : SafeCall s ev) :
    ∃ l', Lawful (lifeStep s ev).2 l' [] := by
  obtain ⟨cur, call⟩ := ev
  have h' := h.relabel cur s.rq
  cases call with
  | spawn t ok => exact h'.spawn hev.1 hev.2.1 hev.2.2 t ok
  | elfSpawn t ok space => exact h'.elfSpawn hev.1 hev.2.1 hev.2.2 t ok space
  | fork t stackOk space restOk => exact h'.fork hev.1 hev.2.1 hev.2.2 t stackOk space restOk
  | threadCreate t ok => exact h'.threadCreate hev.1 hev.2.1 hev.2.2.1 t ok hev.2.2.2
  | exit code => exact h'.exit hev.1 hev.2 code
  | waitpid pid => exact h'.waitpid hev.1 pid
  | exec space => exact h'.exec hev.1 space hev.2.2
  | reap => exact h'.reapDeferred
  | reapPicked t =>
    simp only [lifeStep, Call.run]
    split_ifs with ht
    · obtain ⟨l', h2, -⟩ := (h.relabel cur (s.rq.erase t)).reap ht.1 ht.2.1 ht.2.2
      exact ⟨l', h2⟩
    · exact ⟨l, h'⟩
  | schedule rq state link => exact ⟨l, h'.reschedule rq state link⟩

lemma schedInit_lawful (boot : Ptr) : Lawful (schedInit boot) [] [] := by
  have hkin : (schedInit boot).kin boot = ⟨0, false, none, [], none, 0⟩ := by
    simp [schedInit, kin, Task.kin, Task.zero, TaskState.exited]
  have hq : ((schedInit boot).task boot).reapQueued = false ∧
      ((schedInit boot).task boot).state = .running := by
    simp [schedInit, Task.zero]
  have hid : (schedInit boot).nextId = 1 := rfl
  have hlive : ∀ {u}, u ∈ (schedInit boot).live → u = boot := fun hu => by
    simpa [schedInit] using hu
  refine ⟨⟨nodup_singleton _, ?_, ?_, ?_, ?_, ?_, ?_, ?_, ?_, ?_, ?_⟩,
    ⟨rfl, nodup_nil, fun u => ⟨fun hu => by simp at hu, fun hu => ?_⟩,
      fun u hu => by simp at hu, ?_⟩, fun e he => by simp [schedInit] at he⟩
  case refine_11 =>
    rw [hlive hu.1, hq.1] at hu
    simp at hu
  all_goals
    intro u hu
    obtain rfl := hlive hu
    simp [hkin, hq, hid]

/-- In every run from boot of safe calls, whenever an address space was destroyed no task
that had not exited was using it. -/
theorem run_quiet (boot : Ptr) (evs : List (Ptr × Call))
    (hevs : lifeStep.Along SafeCall (schedInit boot) evs) :
    ∀ e ∈ (lifeStep.run (schedInit boot) evs).destroyed, e.2 = [] := by
  obtain ⟨l, h⟩ := Machine.run_invariant (I := fun s => ∃ l, Lawful s l [])
    (fun s ev ⟨l, hl⟩ hev => hl.step hev) ⟨[], schedInit_lawful boot⟩ hevs
  exact h.quiet

/-- The boot task starts a program. A thread of it and a fork of it exit and are waited for, it
calls `exec` and exits, and the boot task frees it. -/
def lifeCycle : List (Ptr × Call) :=
  [(0, .elfSpawn (some 1) true (some 10)), (1, .threadCreate (some 2) true), (2, .exit 0),
    (1, .waitpid 0), (1, .fork (some 3) true (some 12) true), (3, .exit 0), (1, .waitpid 3),
    (1, .exec (some 11)), (1, .exit 0), (0, .waitpid 1)]

theorem run_quiet_lifeCycle : (lifeStep.run (schedInit 0) lifeCycle).destroyed.length = 3 ∧
    ∀ e ∈ (lifeStep.run (schedInit 0) lifeCycle).destroyed, e.2 = [] :=
  ⟨by decide, run_quiet 0 _ (by decide)⟩

/-- In such a run the table stays a family, and the deferred list holds the queued tasks, each
once. -/
theorem run_family (boot : Ptr) (evs : List (Ptr × Call))
    (hevs : lifeStep.Along SafeCall (schedInit boot) evs) :
    let s := lifeStep.run (schedInit boot) evs
    Family s.live s.kin s.spaces s.nextId ∧ ∃ l, Queue s l [] := by
  obtain ⟨l, h⟩ := Machine.run_invariant (I := fun s => ∃ l, Lawful s l [])
    (fun s ev ⟨l, hl⟩ hev => hl.step hev) ⟨[], schedInit_lawful boot⟩ hevs
  exact ⟨h.family, l, h.queue⟩

theorem run_family_lifeCycle : let s := lifeStep.run (schedInit 0) lifeCycle
    Family s.live s.kin s.spaces s.nextId ∧ ∃ l, Queue s l [] := run_family 0 _ (by decide)

/-- `exec` destroys the address space of the caller while a thread still runs in it. -/
theorem exec_destroys_used : ¬ ∀ e ∈ (lifeStep.run (schedInit 0)
    [(0, .elfSpawn (some 1) true (some 10)), (1, .threadCreate (some 2) true),
      (1, .exec (some 11))]).destroyed, e.2 = [] := by
  decide

end YamKernel.Sched

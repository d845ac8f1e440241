import YamKernel.Fs.Ramfs.Accounts

/-!
# The tree of a RAM file system

The table holds whole paths, so nothing but the calls themselves makes it a tree. `Shape`
says that it is one: names are distinct plain paths, and the parent of every name is the
name of a directory. Only the names and kinds of the nodes matter (`Fs.labels`). Adding a
node below a directory, removing a node with everything below it, and moving a node with
everything below it keep the shape.
-/

namespace YamKernel.Ramfs

open Vfs List Function Option

def parentName (p : Name) : Name := render (components p).dropLast

def Within (path p : Name) : Prop := p = path ∨ Below path p

instance (path p : Name) : Decidable (Within path p) := inferInstanceAs (Decidable (_ ∨ _))

structure Shape (L : Nat → Option (Name × Bool)) : Prop where
  distinct : ∀ i j p b b', L i = some (p, b) → L j = some (p, b') → i = j
  plain : ∀ i p b, L i = some (p, b) → PlainPath p
  root : ∃ i, L i = some ([slash], true)
  parent : ∀ i p b, L i = some (p, b) → p ≠ [slash] → ∃ j, L j = some (parentName p, true)

/-! ## Paths and components -/

section Paths

variable {P Q R : List Name}

lemma plain_valid (h : ∀ c ∈ P, Plain c) : ∀ c ∈ P, c ≠ [] ∧ slash ∉ c :=
  fun c hc => ⟨(h c hc).1, (h c hc).2.1⟩

lemma render_eq_root (h : ∀ c ∈ P, Plain c) : render P = [slash] ↔ P = [] := by
  rw [show [slash] = render [] from rfl, render_inj (plain_valid h) (by simp)]

lemma parentName_render (h : ∀ c ∈ P, Plain c) : parentName (render P) = render P.dropLast := by
  rw [parentName, components_render (plain_valid h)]

/-- One path is below another one when its components continue the other's. -/
theorem below_iff (hP : ∀ c ∈ P, Plain c) (hQ : ∀ c ∈ Q, Plain c) (hne : P ≠ []) :
    Below (render P) (render Q) ↔ ∃ R, R ≠ [] ∧ Q = P ++ R := by
  constructor
  · rintro ⟨rest, hrest⟩
    rw [append_assoc, singleton_append] at hrest
    have hcomp := congrArg components hrest
    rw [components_append, components_render (plain_valid hP), components_render (plain_valid hQ)]
      at hcomp
    refine ⟨components rest, fun hnil => ?_, hcomp.symm⟩
    rw [hnil, append_nil] at hcomp
    have := congrArg length hrest
    rw [hcomp] at this
    simp at this
  · rintro ⟨R, hR, rfl⟩
    rw [render_append hne hR]
    obtain ⟨c, cs, rfl⟩ := exists_cons_of_ne_nil hR
    exact ⟨[slash].intercalate (c :: cs), by simp [render]⟩

lemma within_iff (hP : ∀ c ∈ P, Plain c) (hQ : ∀ c ∈ Q, Plain c) (hne : P ≠ []) :
    Within (render P) (render Q) ↔ P <+: Q := by
  unfold Within
  rw [below_iff hP hQ hne, render_inj (plain_valid hQ) (plain_valid hP)]
  constructor
  · rintro (rfl | ⟨R, -, rfl⟩)
    · exact prefix_rfl
    · exact prefix_append P R
  · rintro ⟨R, rfl⟩
    by_cases hR : R = []
    · exact .inl (by simp [hR])
    · exact .inr ⟨R, hR, rfl⟩

lemma prefix_of_dropLast (h : P <+: Q.dropLast) : P <+: Q := h.trans Q.dropLast_prefix

/-- The name of a node after `old` was renamed to `new`. -/
def moved (old new p : Name) : Name :=
  if Within old p then new ++ p.drop old.length else p

/-- The components of a name after `P` was renamed to `N`. -/
def rebase (P N Q : List Name) : List Name := if P <+: Q then N ++ Q.drop P.length else Q

variable {N : List Name}

lemma rebase_append : rebase P N (P ++ R) = N ++ R := by
  rw [rebase, if_pos (prefix_append P R), drop_left]

lemma rebase_of_not (h : ¬ P <+: Q) : rebase P N Q = Q := if_neg h

lemma plain_rebase (hN : ∀ c ∈ N, Plain c) (hQ : ∀ c ∈ Q, Plain c) :
    ∀ c ∈ rebase P N Q, Plain c := by
  intro c hc
  unfold rebase at hc
  split_ifs at hc
  · exact (mem_append.mp hc).elim (hN c) fun h => hQ c (mem_of_mem_drop h)
  · exact hQ c hc

lemma moved_render (hP : ∀ c ∈ P, Plain c) (hQ : ∀ c ∈ Q, Plain c) (hne : P ≠ []) (hN : N ≠ []) :
    moved (render P) (render N) (render Q) = render (rebase P N Q) := by
  by_cases hw : P <+: Q
  · obtain ⟨R, rfl⟩ := hw
    rw [moved, if_pos ((within_iff hP hQ hne).mpr (prefix_append P R)), rebase_append]
    by_cases hR : R = []
    · simp [hR]
    · rw [render_append hne hR, render_append hN hR, drop_left]
  · rw [moved, if_neg fun h => hw ((within_iff hP hQ hne).mp h), rebase_of_not hw]

/-- Names that do not begin with the new one stay apart. -/
theorem rebase_inj (hQ : ¬ N <+: Q) (hR : ¬ N <+: R) (h : rebase P N Q = rebase P N R) : Q = R := by
  by_cases h₁ : P <+: Q <;> by_cases h₂ : P <+: R
  · obtain ⟨Q, rfl⟩ := h₁
    obtain ⟨R, rfl⟩ := h₂
    rw [rebase_append, rebase_append] at h
    rw [append_cancel_left h]
  · obtain ⟨Q, rfl⟩ := h₁
    rw [rebase_append, rebase_of_not h₂] at h
    exact absurd (h ▸ prefix_append N Q) hR
  · obtain ⟨R, rfl⟩ := h₂
    rw [rebase_append, rebase_of_not h₁] at h
    exact absurd (h ▸ prefix_append N R) hQ
  · rwa [rebase_of_not h₁, rebase_of_not h₂] at h

lemma dropLast_rebase (hQP : Q ≠ P) : (rebase P N Q).dropLast = rebase P N Q.dropLast := by
  by_cases hw : P <+: Q
  · obtain ⟨R, rfl⟩ := hw
    have hR : R ≠ [] := fun hnil => hQP (by rw [hnil, append_nil])
    rw [rebase_append, dropLast_append_of_ne_nil hR, dropLast_append_of_ne_nil hR, rebase_append]
  · rw [rebase_of_not hw, rebase_of_not fun h => hw (prefix_of_dropLast h)]

end Paths

/-! ## Changing a tree -/

section Shape

variable {L : Nat → Option (Name × Bool)} {i : Nat} {p : Name} {b : Bool}

lemma Shape.parts (h : Shape L) (hi : L i = some (p, b)) :
    ∃ P, p = render P ∧ ∀ c ∈ P, Plain c := h.plain i p b hi

/-- Every path above a node is the path of a directory. -/
theorem Shape.ancestor (h : Shape L) {P R : List Name} (hplain : ∀ c ∈ P ++ R, Plain c)
    (hi : L i = some (render (P ++ R), b)) (hR : R ≠ []) : ∃ j, L j = some (render P, true) := by
  induction R using reverseRecOn generalizing i b with
  | nil => exact absurd rfl hR
  | append_singleton R c ih =>
    have hne : P ++ (R ++ [c]) ≠ [] := by simp
    obtain ⟨j, hj⟩ := h.parent i _ b hi fun hroot => hne ((render_eq_root hplain).mp hroot)
    have hdrop : (P ++ (R ++ [c])).dropLast = P ++ R := by
      rw [← append_assoc, dropLast_concat]
    rw [parentName_render hplain, hdrop] at hj
    by_cases hRne : R = []
    · rw [hRne, append_nil] at hj
      exact ⟨j, hj⟩
    · refine ih (fun c' hc' => hplain c' ?_) hj hRne
      rcases mem_append.mp hc' with hc' | hc' <;> simp [hc']

lemma Shape.insert (h : Shape L) (hfree : L i = none) (hp : PlainPath p)
    (hnew : ∀ j b, L j ≠ some (p, b)) (hpar : ∃ j, L j = some (parentName p, true)) (b : Bool) :
    Shape (update L i (some (p, b))) := by
  have hold : ∀ {j q b'}, L j = some (q, b') → update L i (some (p, b)) j = L j := by
    intro j q b' hj
    rw [update_of_ne]
    rintro rfl
    rw [hfree] at hj
    simp at hj
  have hcase : ∀ {j q b'}, update L i (some (p, b)) j = some (q, b') →
      (j = i ∧ q = p) ∨ L j = some (q, b') := by
    intro j q b' hj
    by_cases hji : j = i
    · subst hji
      rw [update_self] at hj
      exact .inl ⟨rfl, (Prod.mk.inj (some.inj hj)).1.symm⟩
    · rw [update_of_ne hji] at hj
      exact .inr hj
  refine ⟨fun j k q b₁ b₂ hj hk => ?_, fun j q b' hj => ?_, ?_, fun j q b' hj hq => ?_⟩
  · rcases hcase hj with ⟨rfl, rfl⟩ | hj' <;> rcases hcase hk with ⟨rfl, hq⟩ | hk'
    · rfl
    · exact absurd hk' (hnew k b₂)
    · exact absurd (hq ▸ hj') (hnew j b₁)
    · exact h.distinct j k q b₁ b₂ hj' hk'
  · rcases hcase hj with ⟨-, rfl⟩ | hj'
    · exact hp
    · exact h.plain j q b' hj'
  · obtain ⟨r, hr⟩ := h.root
    exact ⟨r, (hold hr).trans hr⟩
  · rcases hcase hj with ⟨-, rfl⟩ | hj'
    · obtain ⟨k, hk⟩ := hpar
      exact ⟨k, (hold hk).trans hk⟩
    · obtain ⟨k, hk⟩ := h.parent j q b' hj' hq
      exact ⟨k, (hold hk).trans hk⟩

lemma Shape.remove (h : Shape L) {P : List Name} (hP : ∀ c ∈ P, Plain c) (hne : P ≠ []) :
    Shape fun j => (L j).filter fun q => ¬ Within (render P) q.1 := by
  have hkeep : ∀ {j q b'}, L j = some (q, b') → ¬ Within (render P) q →
      ((L j).filter fun q => ¬ Within (render P) q.1) = some (q, b') := by
    intro j q b' hj hq
    rw [hj, filter_some, if_pos (by simpa using hq)]
  have hcase : ∀ {j q b'}, ((L j).filter fun q => ¬ Within (render P) q.1) = some (q, b') →
      L j = some (q, b') ∧ ¬ Within (render P) q := by
    intro j q b' hj
    obtain ⟨hj, hq⟩ := filter_eq_some_iff.mp hj
    exact ⟨hj, by simpa using hq⟩
  refine ⟨fun j k q b₁ b₂ hj hk => ?_, fun j q b' hj => ?_, ?_, fun j q b' hj hq => ?_⟩
  · exact h.distinct j k q b₁ b₂ (hcase hj).1 (hcase hk).1
  · exact h.plain j q b' (hcase hj).1
  · obtain ⟨r, hr⟩ := h.root
    exact ⟨r, hkeep hr fun hw =>
      hne (prefix_nil.mp ((within_iff hP (by simp) hne).mp hw))⟩
  · obtain ⟨hj, hnot⟩ := hcase hj
    obtain ⟨k, hk⟩ := h.parent j q b' hj hq
    refine ⟨k, hkeep hk fun hw => hnot ?_⟩
    -- A parent within `P` has its children within `P`.
    obtain ⟨Q, rfl, hQ⟩ := h.parts hj
    have hQd : ∀ c ∈ Q.dropLast, Plain c := fun c hc => hQ c (dropLast_subset Q hc)
    rw [parentName_render hQ] at hw
    exact (within_iff hP hQ hne).mpr (prefix_of_dropLast ((within_iff hP hQd hne).mp hw))

/-- A node moves with everything below it, to an unused name in a directory that does not
move. -/
theorem Shape.move (h : Shape L) {P N : List Name} (hP : ∀ c ∈ P, Plain c) (hN : ∀ c ∈ N, Plain c)
    (hne : P ≠ []) (hNne : N ≠ []) (hnew : ∀ j b, L j ≠ some (render N, b))
    (hpar : ∃ j, L j = some (render N.dropLast, true)) (hout : ¬ P <+: N.dropLast) :
    Shape fun j => (L j).map fun q => (moved (render P) (render N) q.1, q.2) := by
  have hmap : ∀ {j Q b'}, L j = some (render Q, b') → (∀ c ∈ Q, Plain c) →
      (L j).map (fun q => (moved (render P) (render N) q.1, q.2)) =
        some (render (rebase P N Q), b') := by
    intro j Q b' hj hQ
    rw [hj, map_some, moved_render hP hQ hne hNne]
  -- No name begins with the new one: every path above a node is in use.
  have hcase : ∀ {j q b'},
      (L j).map (fun q => (moved (render P) (render N) q.1, q.2)) = some (q, b') →
      ∃ Q, L j = some (render Q, b') ∧ (∀ c ∈ Q, Plain c) ∧ ¬ N <+: Q ∧
        q = render (rebase P N Q) := by
    intro j q b' hj
    obtain ⟨⟨q', b''⟩, hL, heq⟩ := map_eq_some_iff.mp hj
    obtain ⟨Q, rfl, hQ⟩ := h.parts hL
    obtain ⟨rfl, rfl⟩ := Prod.mk.inj heq
    refine ⟨Q, hL, hQ, ?_, moved_render hP hQ hne hNne⟩
    rintro ⟨R, rfl⟩
    by_cases hR : R = []
    · rw [hR, append_nil] at hL
      exact hnew j b'' hL
    · obtain ⟨k, hk⟩ := h.ancestor hQ hL hR
      exact hnew k true hk
  refine ⟨fun j k q b₁ b₂ hj hk => ?_, fun j q b' hj => ?_, ?_, fun j q b' hj hq => ?_⟩
  · obtain ⟨Q₁, hL₁, hQ₁, hno₁, rfl⟩ := hcase hj
    obtain ⟨Q₂, hL₂, hQ₂, hno₂, heq⟩ := hcase hk
    rw [render_inj (plain_valid (plain_rebase hN hQ₁)) (plain_valid (plain_rebase hN hQ₂))] at heq
    obtain rfl := rebase_inj hno₁ hno₂ heq
    exact h.distinct j k _ b₁ b₂ hL₁ hL₂
  · obtain ⟨Q, -, hQ, -, rfl⟩ := hcase hj
    exact ⟨_, rfl, plain_rebase hN hQ⟩
  · obtain ⟨r, hr⟩ := h.root
    refine ⟨r, (hmap (Q := []) hr (by simp)).trans ?_⟩
    rw [rebase_of_not fun hw => hne (prefix_nil.mp hw)]
    rfl
  · obtain ⟨Q, hL, hQ, -, rfl⟩ := hcase hj
    rw [parentName_render (plain_rebase hN hQ)]
    by_cases hQP : Q = P
    · -- The node itself: its new parent stays where it is.
      obtain ⟨k, hk⟩ := hpar
      refine ⟨k, (hmap hk fun c hc => hN c (dropLast_subset N hc)).trans ?_⟩
      have hself : rebase P N Q = N := by
        simpa [hQP] using rebase_append (R := [])
      rw [rebase_of_not hout, hself]
    · have hroot : render Q ≠ [slash] := by
        intro hroot
        obtain rfl := (render_eq_root hQ).mp hroot
        exact hq (by rw [rebase_of_not fun hw => hne (prefix_nil.mp hw)]; rfl)
      obtain ⟨k, hk⟩ := h.parent j _ b' hL hroot
      rw [parentName_render hQ] at hk
      refine ⟨k, (hmap hk fun c hc => hQ c (dropLast_subset Q hc)).trans ?_⟩
      rw [dropLast_rebase hQP]

end Shape

/-! ## What the calls do to the tree -/

section Calls

variable {fs fs' : Fs} {path old new : Name} {i j : Nat} {n : Node}

lemma Fs.nodes_of_labels {p : Name} {b : Bool} (h : fs.labels i = some (p, b)) :
    ∃ n, fs.nodes i = some n ∧ n.name = p ∧ n.isDir = b := by
  obtain ⟨n, hn, heq⟩ := map_eq_some_iff.mp h
  obtain ⟨rfl, rfl⟩ := Prod.mk.inj heq
  exact ⟨n, hn, rfl, rfl⟩

structure Shaped (fs : Fs) : Prop where
  accounts : Accounted fs
  shape : Shape fs.labels

/-- The path fits a name field, and its parent is a directory. -/
def Placeable (fs : Fs) (path : Name) : Prop :=
  path.length < nameSize ∧ ∃ j, fs.labels j = some (parentName path, true)

/-- A call that creates the path if it is not there puts it into the tree. -/
def Placed (fs : Fs) (path : Name) : Prop :=
  (ramfsFind fs path).isSome = true ∨ Placeable fs path

lemma Shaped.absent (h : Shaped fs) (hf : ramfsFind fs path = none) (hp : path ≠ []) (j : Nat)
    (b : Bool) : fs.labels j ≠ some (path, b) := by
  intro hj
  obtain ⟨n, hn, hname, -⟩ := Fs.nodes_of_labels hj
  exact ramfsFind_none hf hp (h.accounts.lt hn) hn hname

lemma Shaped.find (h : Shaped fs) {b : Bool} (hj : fs.labels j = some (path, b)) (hp : path ≠ []) :
    ramfsFind fs path = some j := by
  cases hf : ramfsFind fs path with
  | none => exact absurd hj (h.absent hf hp j b)
  | some k =>
    obtain ⟨-, n, hn, hname⟩ := ramfsFind_some hf
    have hk := Fs.labels_some hn
    rw [hname] at hk
    rw [h.shape.distinct k j path _ _ hk hj]

lemma shaped_init : Shaped ramfsInit := by
  have hlabel : ∀ j p b, ramfsInit.labels j = some (p, b) → j = 0 ∧ p = [slash] := by
    intro j p b hj
    obtain ⟨n, hn, hname, -⟩ := Fs.nodes_of_labels hj
    simp only [ramfsInit] at hn
    split_ifs at hn with h0
    obtain rfl := some.inj hn
    exact ⟨h0, hname.symm⟩
  refine ⟨accounted_init, fun i j p b b' hi hj => ?_, fun i p b hi => ?_, ⟨0, rfl⟩,
    fun i p b hi hp => absurd (hlabel i p b hi).2 hp⟩
  · rw [(hlabel i p b hi).1, (hlabel j p b' hj).1]
  · rw [(hlabel i p b hi).2]
    exact ⟨[], rfl, by simp⟩

/-- A new node goes where the tree has room for it. -/
theorem Shaped.insert (h : Shaped fs) (hp : PlainPath path) (hplaced : Placed fs path)
    (hne : path ≠ []) (hf : ramfsFind fs path = none) (hfree : fs.nodes i = none) (isDir : Bool) :
    Shape (fs.setNode i (some (emptyNode (path.take (nameSize - 1)) isDir))).labels := by
  obtain ⟨hlen, hpar⟩ := hplaced.resolve_left (by simp [hf])
  have htake : path.take (nameSize - 1) = path := take_of_length_le (by
    unfold nameSize at hlen ⊢; omega)
  rw [htake, Fs.labels_setNode]
  exact h.shape.insert (by simp [Fs.labels, hfree]) hp (h.absent hf hne) hpar isDir

lemma Shaped.create (h : Shaped fs) (hp : PlainPath path) (hplaced : Placed fs path)
    (isDir : Bool) : Shaped (ramfsCreate fs path isDir).2 := by
  refine ⟨h.accounts.create path isDir, ?_⟩
  rcases ramfsCreate_cases fs path isDir with
    ⟨-, -, hc⟩ | ⟨i, -, hc⟩ | ⟨i, hi, hne, hf, hfree, hc⟩
  · rw [hc]; exact h.shape
  · rw [hc]; exact h.shape
  · rw [hc]; exact h.insert hp hplaced hne hf hfree isDir

/-- Creating the path does not take its place away. -/
theorem Placed.create (h : Placed fs path) (isDir : Bool) :
    Placed (ramfsCreate fs path isDir).2 path := by
  rcases ramfsCreate_cases fs path isDir with
    ⟨-, -, hc⟩ | ⟨i, -, hc⟩ | ⟨i, -, -, hf, hfree, hc⟩
  · rwa [hc]
  · rwa [hc]
  · rw [hc]
    obtain ⟨hlen, j, hj⟩ := h.resolve_left (by simp [hf])
    refine .inr ⟨hlen, j, ?_⟩
    have hji : j ≠ i := by
      rintro rfl
      simp [Fs.labels, hfree] at hj
    rw [Fs.labels_setNode, update_of_ne hji]
    exact hj

/-- The file is opened in the tree, and the calls on its contents keep the labels. -/
theorem Shaped.opened (h : Shaped fs) (hp : PlainPath path) (hplaced : Placed fs path)
    (ho : Opened fs fs' path i n) : Shaped fs' := by
  rcases ho.origin with ⟨-, rfl⟩ | ⟨hne, hf, hfree, rfl, rfl⟩
  · exact h
  · exact ⟨ho.accounted h.accounts, h.insert hp hplaced hne hf hfree false⟩

lemma Shaped.touched (h : Shaped fs) (hp : PlainPath path) (hplaced : Placed fs path)
    (ht : Touched fs path fs') : Shaped fs' := by
  obtain rfl | ⟨i, n, fs₁, ho, ha, hlabels⟩ := ht
  · exact h
  · exact ⟨ha, hlabels ▸ (h.opened hp hplaced ho).shape⟩

lemma Fs.release_nodes (fs : Fs) (i j : Nat) :
    (fs.release i).nodes j = if j = i then none else fs.nodes j := by
  unfold release
  cases hn : fs.nodes i with
  | none =>
    split_ifs with hj
    · rw [hj, hn]
    · rfl
  | some n => exact fs.setNode_nodes i none j

lemma unlinkBelow_nodes (path : Name) (i k : Nat) (fs : Fs) (j : Nat) :
    (unlinkBelow path i fs k).nodes j =
      if j = k ∧ j ≠ i then (fs.nodes j).filter (fun n => ¬ Below path n.name)
      else fs.nodes j := by
  unfold unlinkBelow
  cases hk : fs.nodes k with
  | none =>
    split_ifs with hj
    · rw [hj.1, hk]; rfl
    · rfl
  | some n =>
    dsimp only
    by_cases hc : k ≠ i ∧ Below path n.name
    · rw [if_pos hc, Fs.release_nodes]
      by_cases hj : j = k
      · rw [if_pos hj, if_pos ⟨hj, hj ▸ hc.1⟩, hj, hk]
        simp [filter_some, hc.2]
      · rw [if_neg hj, if_neg fun h => hj h.1]
    · split_ifs with hj
      · obtain ⟨rfl, hji⟩ := hj
        have hb : ¬ Below path n.name := fun h => hc ⟨hji, h⟩
        simp [hk, filter_some, hb]
      · rfl

/-- The loop of `ramfs_unlink` clears the entries below the path. -/
theorem foldl_unlinkBelow_nodes (path : Name) (i : Nat) (js : List Nat) (fs : Fs) (j : Nat) :
    (js.foldl (unlinkBelow path i) fs).nodes j =
      if j ∈ js ∧ j ≠ i then (fs.nodes j).filter (fun n => ¬ Below path n.name)
      else fs.nodes j := by
  induction js generalizing fs with
  | nil => simp
  | cons k js ih =>
    rw [foldl_cons, ih, unlinkBelow_nodes]
    by_cases hji : j = i
    · simp [hji]
    · by_cases hjk : j = k
      · simp only [hjk, mem_cons, true_or, true_and]
        rw [← hjk]
        split_ifs
        · rw [Option.filter_filter]; simp
        · rfl
      · simp [hjk]

lemma Shaped.unlink (h : Shaped fs) (hp : PlainPath path) : Shaped (ramfsUnlink fs path).2 := by
  refine ⟨h.accounts.unlink path, ?_⟩
  unfold ramfsUnlink
  cases hf : ramfsFind fs path with
  | none => exact h.shape
  | some i =>
    split_ifs with hroot
    · exact h.shape
    obtain ⟨-, n, hn, hname⟩ := ramfsFind_some hf
    obtain ⟨P, rfl, hP⟩ := hp
    have hne : P ≠ [] := mt (render_eq_root hP).mpr hroot
    convert h.shape.remove hP hne using 1
    funext j
    by_cases hj : j = i
    · subst hj
      unfold Fs.labels
      rw [Fs.release_nodes, hn]
      simp [filter_some, Within, hname]
    · unfold Fs.labels
      rw [Fs.release_nodes, if_neg hj, foldl_unlinkBelow_nodes]
      cases hnj : fs.nodes j with
      | none => simp
      | some m =>
        have hother : m.name ≠ render P := by
          intro heq
          have h1 := Fs.labels_some hnj
          rw [heq, ← hname] at h1
          exact hj (h.shape.distinct j i _ _ _ h1 (Fs.labels_some hn))
        rw [if_pos ⟨mem_range.mpr (h.accounts.lt hnj), hj⟩]
        by_cases hb : Below (render P) m.name <;>
          simp [filter_some, Within, hb, hother]

/-- The loop of `ramfs_rename` renames the entries below the path, if all new names fit. -/
theorem renameBelow_labels (old new : Name) (i : Nat) (js : List Nat) (hnd : js.Nodup) (fs : Fs)
    (hfit : ∀ j ∈ js, ∀ n, fs.nodes j = some n → j ≠ i → Below old n.name →
      new.length + (n.name.drop old.length).length < nameSize) :
    (renameBelow old new i js fs).1 = true ∧ ∀ j, (renameBelow old new i js fs).2.labels j =
      if j ∈ js ∧ j ≠ i ∧ (fs.labels j).any (fun q => Below old q.1) then
        (fs.labels j).map fun q => (new ++ q.1.drop old.length, q.2)
      else fs.labels j := by
  induction js generalizing fs with
  | nil => exact ⟨rfl, fun j => by simp [renameBelow]⟩
  | cons k js ih =>
    obtain ⟨hk, hnd⟩ := nodup_cons.mp hnd
    rw [renameBelow]
    obtain ⟨htrue, hlab⟩ := ih hnd fs fun j hj => hfit j (by simp [hj])
    cases hnk : fs.nodes k with
    | none =>
      refine ⟨htrue, fun j => ?_⟩
      rw [hlab]
      by_cases hjk : j = k
      · subst hjk; simp [Fs.labels, hnk]
      · simp [hjk]
    | some child =>
      dsimp only
      by_cases hc : k ≠ i ∧ Below old child.name
      · have := hfit k (by simp) child hnk hc.1 hc.2
        rw [if_pos hc, if_neg (by omega)]
        obtain ⟨htrue, hlab⟩ := ih hnd
          (fs.setNode k (some { child with name := new ++ child.name.drop old.length }))
          (fun j hj n hn => hfit j (by simp [hj]) n (by
            have hjk : j ≠ k := by rintro rfl; exact hk hj
            rwa [Fs.setNode_nodes, if_neg hjk] at hn))
        refine ⟨htrue, fun j => ?_⟩
        rw [hlab, Fs.labels_setNode]
        by_cases hjk : j = k
        · subst hjk
          rw [update_self, if_neg fun hx => hk hx.1,
            if_pos ⟨by simp, hc.1, by simp [Fs.labels_some hnk, hc.2]⟩, Fs.labels_some hnk]
          rfl
        · simp [hjk]
      · rw [if_neg hc]
        refine ⟨htrue, fun j => ?_⟩
        rw [hlab]
        by_cases hjk : j = k
        · subst hjk
          rw [if_neg fun hx => hk hx.1, if_neg fun hx => hc ⟨hx.2.1, by
            simpa [Fs.labels_some hnk] using hx.2.2⟩]
        · simp [hjk]

/-- A rename that the code starts can be finished, and its target is in the tree: the new
names fit, and the new parent is a directory that does not move. -/
structure Movable (fs : Fs) (old new : Name) : Prop where
  fits : ∀ j n, fs.nodes j = some n → Below old n.name →
    new.length + (n.name.drop old.length).length < nameSize
  parent : ∃ j, fs.labels j = some (parentName new, true)
  outside : ¬ Within old (parentName new)

/-- The first checks of `ramfs_rename` refuse the call. -/
def Refused (fs : Fs) (old new : Name) : Prop :=
  ramfsFind fs old = none ∨ old = [slash] ∨ (ramfsFind fs new).isSome = true ∨
    new.length ≥ nameSize

instance (fs : Fs) (old new : Name) : Decidable (Refused fs old new) :=
  inferInstanceAs (Decidable (_ ∨ _ ∨ _ ∨ _))

lemma ramfsRename_refused (h : Refused fs old new) : ramfsRename fs old new = (false, fs) := by
  unfold ramfsRename
  cases hf : ramfsFind fs old with
  | none => rfl
  | some i =>
    obtain ⟨-, n, hn, -⟩ := ramfsFind_some hf
    dsimp only
    rw [hn]
    exact if_pos (h.resolve_left (by simp [hf]))

/-- The labels after a rename that was not refused. -/
theorem Shaped.rename_labels (h : Shaped fs) (hold : PlainPath old) (hm : Movable fs old new)
    (hr : ¬ Refused fs old new) :
    (ramfsRename fs old new).1 = true ∧ (ramfsRename fs old new).2.labels =
      fun j => (fs.labels j).map fun q => (moved old new q.1, q.2) := by
  obtain ⟨hfound, hcond⟩ := not_or.mp hr
  obtain ⟨i, hf⟩ := ne_none_iff_exists'.mp hfound
  obtain ⟨hi, n, hn, hname⟩ := ramfsFind_some hf
  obtain ⟨P, rfl, hP⟩ := hold
  have hne : P ≠ [] := fun hnil => hcond (.inl ((render_eq_root hP).mpr hnil))
  have hself : moved (render P) new n.name = new := by
    rw [moved, if_pos (.inl hname), hname, drop_length, append_nil]
  have hlabi := Fs.labels_some hn
  -- Another node keeps its name unless it is below the old one.
  have hstay : ∀ j m, j ≠ i → fs.nodes j = some m → ¬ Below (render P) m.name →
      moved (render P) new m.name = m.name := by
    intro j m hj hnj hb
    refine if_neg fun hw => ?_
    rcases hw with hw | hw
    · have h1 := Fs.labels_some hnj
      rw [hw, ← hname] at h1
      exact hj (h.shape.distinct j i _ _ _ h1 hlabi)
    · exact hb hw
  unfold ramfsRename
  rw [hf]
  dsimp only
  rw [hn]
  dsimp only
  rw [if_neg hcond]
  cases hd : n.isDir with
  | false =>
    simp only [Bool.false_eq_true, if_false]
    refine ⟨trivial, ?_⟩
    rw [Fs.labels_setNode]
    funext j
    by_cases hj : j = i
    · subst hj
      rw [update_self, hlabi, map_some, map_some, hself, hd]
    · rw [update_of_ne hj]
      cases hnj : fs.nodes j with
      | none => simp [Fs.labels, hnj]
      | some m =>
        rw [Fs.labels_some hnj, map_some]
        rw [hstay j m hj hnj fun hb => ?_]
        -- A file has nothing below it.
        obtain ⟨Q, hQ, hQp⟩ := h.shape.parts (Fs.labels_some hnj)
        rw [hQ] at hb
        obtain ⟨R, hR, rfl⟩ := (below_iff hP hQp hne).mp hb
        have hlab := Fs.labels_some hnj
        rw [hQ] at hlab
        obtain ⟨k, hk⟩ := h.shape.ancestor hQp hlab hR
        rw [hname] at hlabi
        obtain rfl := h.shape.distinct k i _ _ _ hk hlabi
        rw [hk, hd] at hlabi
        simp at hlabi
  | true =>
    simp only [if_true]
    have hnode : ∀ j, j ≠ i →
        (fs.setNode i (some { n with name := new, isDir := true })).nodes j = fs.nodes j :=
      fun j hj => by rw [Fs.setNode_nodes, if_neg hj]
    obtain ⟨htrue, hlab⟩ := renameBelow_labels (render P) new i (range ramfsMaxFiles)
      nodup_range (fs.setNode i (some { n with name := new, isDir := true }))
      (fun j _ m hm' hj => hm.fits j m (by rwa [hnode j hj] at hm'))
    refine ⟨htrue, ?_⟩
    funext j
    rw [hlab, Fs.labels_setNode]
    by_cases hj : j = i
    · subst hj
      rw [if_neg fun hx => hx.2.1 rfl, update_self, hlabi, map_some,
        map_some, hself, hd]
    · rw [update_of_ne hj]
      cases hnj : fs.nodes j with
      | none => simp [Fs.labels, hnj]
      | some m =>
        rw [Fs.labels_some hnj]
        by_cases hb : Below (render P) m.name
        · rw [if_pos ⟨mem_range.mpr (h.accounts.lt hnj), hj, by simp [hb]⟩,
            map_some, map_some, moved, if_pos (.inr hb)]
        · rw [if_neg fun hx => hb (by simpa using hx.2.2), map_some,
            hstay j m hj hnj hb]

lemma Shaped.rename (h : Shaped fs) (hold : PlainPath old) (hnew : PlainPath new)
    (hm : Refused fs old new ∨ Movable fs old new) : Shaped (ramfsRename fs old new).2 := by
  refine ⟨h.accounts.rename old new, ?_⟩
  by_cases hr : Refused fs old new
  · rw [ramfsRename_refused hr]
    exact h.shape
  · have hm := hm.resolve_left hr
    rw [(h.rename_labels hold hm hr).2]
    unfold Refused at hr
    push Not at hr
    obtain ⟨-, hroot, habsent, -⟩ := hr
    obtain ⟨P, rfl, hP⟩ := hold
    obtain ⟨N, rfl, hN⟩ := hnew
    have hne : P ≠ [] := mt (render_eq_root hP).mpr hroot
    have hnone : ramfsFind fs (render N) = none := by simpa using habsent
    have hNnil : render N ≠ [] := by simp [render]
    have hNne : N ≠ [] := by
      rintro rfl
      obtain ⟨r, hr⟩ := h.shape.root
      exact h.absent hnone hNnil r true hr
    have hNd : ∀ c ∈ N.dropLast, Plain c := fun c hc => hN c (dropLast_subset N hc)
    obtain ⟨j, hj⟩ := hm.parent
    have hout := hm.outside
    rw [parentName_render hN] at hj hout
    exact h.shape.move hP hN hne hNne (h.absent hnone hNnil) ⟨j, hj⟩
      fun hR => hout ((within_iff hP hNd hne).mpr hR)

/-- The invariant of the table: distinct names, parents that are directories, and sizes and
byte count within their bounds. -/
structure Tree (fs : Fs) : Prop where
  distinct : ∀ i j (n m : Node), fs.nodes i = some n → fs.nodes j = some m → n.name = m.name →
    i = j
  parent : ∀ i (n : Node), fs.nodes i = some n → n.name ≠ [slash] →
    ∃ j m, fs.nodes j = some m ∧ m.isDir = true ∧ m.name = parentName n.name
  size_le : ∀ i (n : Node), fs.nodes i = some n → n.size ≤ n.cap
  bytes : fs.bytesUsed = fs.caps
  bound : fs.bytesUsed ≤ ramfsMaxData

lemma Shaped.tree (h : Shaped fs) : Tree fs where
  distinct i j n m hi hj hname := by
    have hli := Fs.labels_some hi
    rw [hname] at hli
    exact h.shape.distinct i j _ _ _ hli (Fs.labels_some hj)
  parent i n hi hne := by
    obtain ⟨j, hj⟩ := h.shape.parent i _ _ (Fs.labels_some hi) hne
    obtain ⟨m, hm, hname, hdir⟩ := Fs.nodes_of_labels hj
    exact ⟨j, m, hm, hdir, hname⟩
  size_le i n hi := (h.accounts.node i n hi).1
  bytes := h.accounts.bytes
  bound := h.accounts.bound

end Calls

end YamKernel.Ramfs

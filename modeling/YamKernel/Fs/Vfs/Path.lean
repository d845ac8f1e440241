import Mathlib.Algebra.GroupWithZero.Nat
import Mathlib.Data.List.Basic

/-!
# Path resolution

`path_normalize` and `vfs_resolve_path` against the lexical normalization of the joined path. The
source keeps at most 32 components and joins into a buffer of 256 bytes; it is right exactly
where neither limit drops anything that matters.

A path is the list of its bytes, without the terminating zero.
-/

namespace YamKernel.Vfs

open List

abbrev Name := List UInt8

def slash : UInt8 := 47
def dot : Name := [46]
def dotdot : Name := [46, 46]

/-- The pieces between slashes that are not empty. -/
def components (s : Name) : List Name := (s.splitOn slash).filter (· ≠ [])

/-- One component of the loop of `path_normalize`; `parts` holds 32 pointers. -/
def pushPart (parts : List Name) (c : Name) : List Name :=
  if c = dot then parts
  else if c = dotdot then parts.dropLast
  else if parts.length < 32 then parts ++ [c]
  else parts

def render (parts : List Name) : Name := slash :: [slash].intercalate parts

/-- The input is copied to a buffer of 256 bytes first. -/
def pathNormalize (input : Name) (cap : Nat) : Name :=
  if input = [] then [slash].take (cap - 1)
  else (render ((components (input.take 255)).foldl pushPart [])).take (cap - 1)

def vfsResolvePath (cwd path : Name) (cap : Nat) : Name :=
  let cwd := if cwd = [] then [slash] else cwd
  if path = [] then pathNormalize cwd cap
  else if path.head? = some slash then pathNormalize path cap
  else if cwd = [slash] then pathNormalize ((slash :: path).take 255) cap
  else pathNormalize ((cwd ++ slash :: path).take 255) cap

/-! ### Lexical normalization -/

def resolvePart (parts : List Name) (c : Name) : List Name :=
  if c = dot then parts
  else if c = dotdot then parts.dropLast
  else parts ++ [c]

def normal (cs : List Name) : List Name := cs.foldl resolvePart []

def reference (cwd path : Name) : Name :=
  render (normal (if path.head? = some slash then components path
    else components cwd ++ components path))

/-- An absolute path without empty, `.` and `..` components. -/
def NormalPath (s : Name) : Prop :=
  ∃ parts : List Name, s = render parts ∧
    ∀ c ∈ parts, c ≠ [] ∧ slash ∉ c ∧ c ≠ dot ∧ c ≠ dotdot

def joined (cwd path : Name) : Name :=
  if path = [] then cwd
  else if path.head? = some slash then path
  else if cwd = [slash] then slash :: path
  else cwd ++ slash :: path

/-- How deep a path is, and whether it has at most 32 components since it last was at the root. -/
def depthStep (d : Nat × Bool) (c : Name) : Nat × Bool :=
  if c = dot then d
  else if c = dotdot then (d.1 - 1, d.2 || d.1 ≤ 1)
  else (d.1 + 1, d.2 && d.1 < 32)

def Shallow (cs : List Name) : Prop := (cs.foldl depthStep (0, true)).2 = true

instance (cs : List Name) : Decidable (Shallow cs) := inferInstanceAs (Decidable (_ = true))

/-! ### Components -/

section Components

variable {s t : Name} {c : Name} {cs : List Name}

lemma components_append (s t : Name) :
    components (s ++ slash :: t) = components s ++ components t := by
  unfold components splitOn
  rw [splitOnP_append_cons s t (by simp), filter_append]

lemma mem_splitOn (hc : c ∈ s.splitOn slash) : slash ∉ c := by
  induction s generalizing c with
  | nil =>
    rw [splitOn, splitOnP_nil, mem_singleton] at hc
    simp [hc]
  | cons a s ih =>
    rw [splitOn, splitOnP_cons_eq_if_modifyHead] at hc
    split at hc
    · rcases mem_cons.mp hc with rfl | hc
      · simp
      · exact ih hc
    · next hne =>
      obtain ⟨p, ps, hp⟩ := exists_cons_of_ne_nil (splitOnP_ne_nil (· == slash) s)
      rw [hp, modifyHead_cons] at hc
      have : ∀ q ∈ p :: ps, slash ∉ q := fun q hq => ih (by rw [splitOn, hp]; exact hq)
      grind

lemma mem_components (hc : c ∈ components s) : c ≠ [] ∧ slash ∉ c := by
  obtain ⟨hmem, hne⟩ := mem_filter.mp hc
  exact ⟨by simpa using hne, mem_splitOn hmem⟩

lemma components_cons (s : Name) : components (slash :: s) = components s := by
  simpa [components] using components_append [] s

/-- The components of a rendered path are the ones it was made of. -/
theorem components_render (h : ∀ c ∈ cs, c ≠ [] ∧ slash ∉ c) : components (render cs) = cs := by
  rw [render, components_cons]
  by_cases hne : cs = []
  · simp [hne, components]
  · rw [components, splitOn_intercalate slash (fun c hc => (h c hc).2) hne]
    exact filter_eq_self.mpr fun c hc => by simpa using (h c hc).1

lemma length_render (hne : cs ≠ []) : (render cs).length = (cs.map fun c => c.length + 1).sum := by
  induction cs with
  | nil => exact absurd rfl hne
  | cons c cs ih =>
    cases cs with
    | nil => simp [render]
    | cons d cs =>
      have := ih (cons_ne_nil d cs)
      simp only [render, intercalate_cons_cons, length_cons, length_append,
        map_cons, sum_cons, length_nil] at *
      omega

lemma sum_map_le {l l' : List Name} (f : Name → Nat) (h : l.Sublist l') :
    (l.map f).sum ≤ (l'.map f).sum := by
  induction h with
  | slnil => exact Nat.le_refl _
  | cons c _ ih => exact Nat.le_trans ih (by simp)
  | cons_cons c _ ih => simpa using ih

/-- A path made of some components of an absolute path is not longer than that path. -/
theorem length_render_le (h : cs.Sublist (components s)) : (render cs).length ≤ s.length + 1 := by
  by_cases hne : cs = []
  · simp [hne, render]
  · have hsub := h.trans filter_sublist
    have hpieces := length_render (splitOnP_ne_nil (· == slash) s)
    rw [render, ← splitOn, intercalate_splitOn] at hpieces
    rw [length_render hne, ← length_cons, hpieces]
    exact sum_map_le _ hsub

end Components

/-! ### The bounded stack -/

section Stack

variable {cs C R : List Name} {c : Name} {d : Nat × Bool}

/-- The source's stack `C` beside the unbounded one `R`: while nothing was dropped they agree,
and afterwards the source's is the shorter one until the path is back at the root. -/
structure Tracks (C R : List Name) (d : Nat × Bool) : Prop where
  depth : d.1 = R.length
  same : d.2 = true → C = R
  behind : d.2 = false → C.length < R.length

lemma Tracks.step (h : Tracks C R d) (c : Name) :
    Tracks (pushPart C c) (resolvePart R c) (depthStep d c) := by
  obtain ⟨n, ok⟩ := d
  obtain ⟨hd, hsame, hbehind⟩ := h
  dsimp only at hd
  unfold pushPart resolvePart depthStep
  split
  · exact ⟨hd, hsame, hbehind⟩
  split
  · -- a pop: the two stacks meet again when the unbounded one gets empty
    cases ok with
    | true =>
      obtain rfl := hsame rfl
      exact ⟨by simp [hd], fun _ => rfl, by simp⟩
    | false =>
      have hlt := hbehind rfl
      constructor
      · simp [hd]
      · intro hroot
        have hR : R.length = 1 := by simp at hroot; omega
        have hC : C.length = 0 := by omega
        rw [length_eq_zero_iff.mp hC, eq_nil_of_length_eq_zero (l := R.dropLast)]
        · rfl
        · simp [hR]
      · intro hdeep
        simp only [Bool.false_or, decide_eq_false_iff_not] at hdeep
        simp only [length_dropLast]
        omega
  · cases ok with
    | true =>
      obtain rfl := hsame rfl
      by_cases hfull : C.length < 32
      · simp only [hfull]
        exact ⟨by simp [hd], fun _ => rfl, by simp [hd, hfull]⟩
      · simp only [hfull]
        exact ⟨by simp [hd], by simp [hd, hfull], by simp⟩
    | false =>
      have hlt := hbehind rfl
      refine ⟨by simp [hd], by simp, fun _ => ?_⟩
      split <;> simp <;> omega

lemma tracks (cs : List Name) :
    Tracks (cs.foldl pushPart []) (normal cs) (cs.foldl depthStep (0, true)) := by
  have hrun : ∀ (cs C R : List Name) (d : Nat × Bool), Tracks C R d →
      Tracks (cs.foldl pushPart C) (cs.foldl resolvePart R) (cs.foldl depthStep d) := by
    intro cs
    induction cs with
    | nil => exact fun _ _ _ h => h
    | cons c cs ih => exact fun C R d h => ih _ _ _ (h.step c)
  exact hrun cs [] [] (0, true) ⟨rfl, fun _ => rfl, by simp⟩

/-- The source's stack is the unbounded one exactly if nothing is missing at the end. -/
theorem capped_eq_iff (cs : List Name) : cs.foldl pushPart [] = normal cs ↔ Shallow cs := by
  have h := tracks cs
  unfold Shallow
  cases hok : (cs.foldl depthStep (0, true)).2 with
  | true => simpa using h.same hok
  | false =>
    have hlt := h.behind hok
    constructor
    · intro heq
      rw [heq] at hlt
      omega
    · simp

/-- What either stack holds comes from the path, in the same order. -/
theorem foldl_sublist {f : List Name → Name → List Name} (hf : ∀ C c, (f C c).Sublist (C ++ [c]))
    (cs : List Name) : (cs.foldl f []).Sublist cs := by
  have hrun : ∀ cs C : List Name, (cs.foldl f C).Sublist (C ++ cs) := by
    intro cs
    induction cs with
    | nil => exact fun C => by simp
    | cons c cs ih =>
      intro C
      have hstep := (ih (f C c)).trans ((hf C c).append_right cs)
      simpa using hstep
  simpa using hrun cs []

lemma capped_sublist (cs : List Name) : (cs.foldl pushPart []).Sublist cs :=
  foldl_sublist (fun C c => by
    have hdrop := (dropLast_sublist C).trans (sublist_append_left C [c])
    unfold pushPart
    split_ifs <;> simp [hdrop]) cs

lemma normal_sublist (cs : List Name) : (normal cs).Sublist cs :=
  foldl_sublist (fun C c => by
    have hdrop := (dropLast_sublist C).trans (sublist_append_left C [c])
    unfold resolvePart
    split_ifs <;> simp [hdrop]) cs

end Stack

/-! ### Resolution -/

section Resolution

variable {cwd path : Name}

lemma render_inj {C R : List Name} (hC : ∀ c ∈ C, c ≠ [] ∧ slash ∉ c)
    (hR : ∀ c ∈ R, c ≠ [] ∧ slash ∉ c) : render C = render R ↔ C = R := by
  refine ⟨fun h => ?_, congrArg render⟩
  rw [← components_render hC, h, components_render hR]

/-- A path from the root fits the output buffer. -/
theorem pathNormalize_eq {s : Name} (hs : s.head? = some slash) :
    pathNormalize s 256 = render ((components (s.take 255)).foldl pushPart []) := by
  obtain ⟨t, rfl⟩ : ∃ t, s = slash :: t := by
    cases s with
    | nil => simp at hs
    | cons a t => exact ⟨t, by simpa using hs⟩
  have := length_render_le (s := t.take 254)
    ((capped_sublist (components ((slash :: t).take 255))).trans
      (by rw [take_succ_cons, components_cons]))
  apply take_of_length_le
  have := length_take_le 254 t
  omega

lemma NormalPath.head (h : NormalPath cwd) : cwd.head? = some slash := by
  obtain ⟨parts, rfl, -⟩ := h
  rfl

lemma joined_head (h : NormalPath cwd) : (joined cwd path).head? = some slash := by
  unfold joined
  split_ifs with h1 h2
  · exact h.head
  · exact h2
  · rfl
  · rw [head?_append, h.head]
    rfl

lemma components_joined :
    components (joined cwd path) =
      if path.head? = some slash then components path else components cwd ++ components path := by
  unfold joined
  split_ifs with h1 h2 h3 h4
  · simp [h1] at h2
  · simp [h1, components]
  · rfl
  · rw [h4]
    rfl
  · exact components_append cwd path

lemma vfsResolvePath_eq (h : NormalPath cwd) :
    vfsResolvePath cwd path 256 =
      render ((components ((joined cwd path).take 255)).foldl pushPart []) := by
  have : cwd ≠ [] := by
    rintro rfl
    simpa using h.head
  have htake : ∀ s : Name, pathNormalize (s.take 255) 256 = pathNormalize s 256 := by
    intro s
    unfold pathNormalize
    rw [take_take]
    simp
  rw [← pathNormalize_eq (joined_head h)]
  unfold vfsResolvePath joined
  simp only [htake]
  split_ifs <;> rfl

/-- The result is the lexical normalization exactly if the bytes after the 255th change nothing
and at most 32 components are held since the path last was at the root. (Where both limits are
exceeded at once their errors can cancel out.) -/
theorem resolve_path_iff (hcwd : NormalPath cwd)
    (hone : (joined cwd path).length ≤ 255 ∨ Shallow (components ((joined cwd path).take 255))) :
    vfsResolvePath cwd path 256 = reference cwd path ↔
      Shallow (components ((joined cwd path).take 255)) ∧
        normal (components ((joined cwd path).take 255)) =
          normal (components (joined cwd path)) := by
  rw [vfsResolvePath_eq hcwd, reference, ← components_joined, render_inj]
  · generalize ht : (joined cwd path).take 255 = t at *
    rcases hone with hfits | hshallow
    · obtain rfl : joined cwd path = t := by rw [← ht, take_of_length_le hfits]
      rw [capped_eq_iff, and_iff_left rfl]
    · rw [(capped_eq_iff _).mpr hshallow, and_iff_right hshallow]
  · exact fun c hc => mem_components ((capped_sublist _).subset hc)
  · exact fun c hc => mem_components ((normal_sublist _).subset hc)

def deepPath : Name := (replicate 33 [slash, 97]).flatten

lemma normalPath_root : NormalPath [slash] := ⟨[], rfl, by simp⟩

/-- From `/`, the path `../a` is `/a`. -/
theorem resolve_path_iff_root :
    vfsResolvePath [slash] [46, 46, slash, 97] 256 = reference [slash] [46, 46, slash, 97] :=
  (resolve_path_iff normalPath_root (.inl (by decide))).mpr ⟨by decide, rfl⟩

/-- The 33rd directory is dropped, and the path names the 32nd one. -/
theorem resolve_path_drops :
    NormalPath [slash] ∧ deepPath.length < 256 ∧
      vfsResolvePath [slash] deepPath 256 = (replicate 32 [slash, 97]).flatten ∧
      vfsResolvePath [slash] deepPath 256 ≠ reference [slash] deepPath :=
  ⟨normalPath_root, by decide, by decide +kernel, by decide +kernel⟩

/-! ### Resolved paths -/

def Plain (c : Name) : Prop := c ≠ [] ∧ slash ∉ c ∧ c ≠ dot ∧ c ≠ dotdot

/-- What `vfs_resolve_path` makes: a normal path within both limits. -/
structure Resolved (p : Name) : Prop where
  normal : ∃ parts : List Name, p = render parts ∧ (∀ c ∈ parts, Plain c) ∧ parts.length ≤ 32
  length_le : p.length ≤ 255

/-- The stack keeps plain components only, and at most 32 of them. -/
theorem capped_plain (cs : List Name) (h : ∀ c ∈ cs, c ≠ [] ∧ slash ∉ c) :
    (∀ c ∈ cs.foldl pushPart [], Plain c) ∧ (cs.foldl pushPart []).length ≤ 32 := by
  have hrun : ∀ cs C : List Name, (∀ c ∈ cs, c ≠ [] ∧ slash ∉ c) → (∀ c ∈ C, Plain c) →
      C.length ≤ 32 →
      (∀ c ∈ cs.foldl pushPart C, Plain c) ∧ (cs.foldl pushPart C).length ≤ 32 := by
    intro cs
    induction cs with
    | nil => exact fun C _ hC hlen => ⟨hC, hlen⟩
    | cons c cs ih =>
      intro C hcs hC hlen
      have hc := hcs c (by simp)
      refine ih (pushPart C c) (fun c' hc' => hcs c' (by simp [hc'])) ?_ ?_
      · unfold pushPart
        split_ifs with h1 h2
        · exact hC
        · exact fun c' hc' => hC c' ((dropLast_sublist C).subset hc')
        · intro c' hc'
          rcases mem_append.mp hc' with hc' | hc'
          · exact hC c' hc'
          · rw [mem_singleton.mp hc']
            exact ⟨hc.1, hc.2, h1, h2⟩
        · exact hC
      · unfold pushPart
        split_ifs <;> grind
  exact hrun cs [] h (by simp) (by simp)

lemma capped_of_plain {cs : List Name} (h : ∀ c ∈ cs, Plain c) (hlen : cs.length ≤ 32) :
    cs.foldl pushPart [] = cs := by
  have hrun : ∀ cs C : List Name, (∀ c ∈ cs, Plain c) → C.length + cs.length ≤ 32 →
      cs.foldl pushPart C = C ++ cs := by
    intro cs
    induction cs with
    | nil => exact fun C _ _ => (append_nil C).symm
    | cons c cs ih =>
      intro C hcs hlen
      obtain ⟨-, -, hdot, hdotdot⟩ := hcs c (by simp)
      have hlt : C.length < 32 := by rw [length_cons] at hlen; omega
      rw [foldl_cons, pushPart, if_neg hdot, if_neg hdotdot, if_pos hlt,
        ih _ (fun c' hc' => hcs c' (by simp [hc']))]
      · simp
      · rw [length_append, length_singleton]
        rw [length_cons] at hlen
        omega
  exact hrun cs [] h (by simpa using hlen)

lemma resolved_render {s : Name} (hs : s.head? = some slash) : Resolved (pathNormalize s 256) := by
  have hlen : (pathNormalize s 256).length ≤ 255 := by
    unfold pathNormalize
    split_ifs
    · simp
    · exact length_take_le 255 _
  rw [pathNormalize_eq hs] at hlen ⊢
  obtain ⟨hplain, h32⟩ := capped_plain (components (s.take 255)) fun c hc => mem_components hc
  exact ⟨⟨_, rfl, hplain, h32⟩, hlen⟩

/-- The working directory of a task: never set, or a normal path. -/
def WorkingDir (cwd : Name) : Prop := cwd = [] ∨ NormalPath cwd

lemma resolved_vfsResolvePath (h : WorkingDir cwd) (path : Name) :
    Resolved (vfsResolvePath cwd path 256) := by
  have hroot : vfsResolvePath [] path 256 = vfsResolvePath [slash] path 256 := by
    simp [vfsResolvePath]
  suffices ∀ cwd, NormalPath cwd → Resolved (vfsResolvePath cwd path 256) by
    rcases h with rfl | h
    · rw [hroot]
      exact this _ normalPath_root
    · exact this _ h
  intro cwd h
  rw [vfsResolvePath_eq h, ← pathNormalize_eq (joined_head h)]
  exact resolved_render (joined_head h)

variable {p x y : Name} {parts : List Name}

/-- Resolving a resolved path changes nothing, whatever the working directory. -/
theorem Resolved.resolve (h : Resolved p) (cwd : Name) : vfsResolvePath cwd p 256 = p := by
  obtain ⟨⟨parts, rfl, hplain, h32⟩, hlen⟩ := h
  have hhead : (render parts).head? = some slash := rfl
  have hgoal : pathNormalize (render parts) 256 = render parts := by
    rw [pathNormalize_eq hhead, take_of_length_le hlen,
      components_render fun c hc => ⟨(hplain c hc).1, (hplain c hc).2.1⟩,
      capped_of_plain hplain h32]
  exact hgoal

/-! ### Prefixes of paths -/

/-- The components with their slashes: a path that is not the root. -/
def flat (parts : List Name) : Name := parts.flatMap (slash :: ·)

lemma render_eq_flat (h : parts ≠ []) : render parts = flat parts := by
  obtain ⟨c, cs, rfl⟩ := exists_cons_of_ne_nil h
  induction cs generalizing c with
  | nil => simp [render, flat]
  | cons c' cs ih =>
    have hrest := ih c' (cons_ne_nil _ _)
    have hsplit : render (c :: c' :: cs) = slash :: c ++ render (c' :: cs) := by
      simp [render]
    rw [hsplit, hrest]
    rfl

lemma render_append {A B : List Name} (hA : A ≠ []) (hB : B ≠ []) :
    render (A ++ B) = render A ++ render B := by
  rw [render_eq_flat hA, render_eq_flat hB, render_eq_flat (by simp [hA]), flat, flatMap_append]
  rfl

/-- A path splits at a slash into components before and after. -/
theorem flat_split (hparts : ∀ c ∈ parts, slash ∉ c) (h : flat parts = x ++ slash :: y) :
    ∃ A B, parts = A ++ B ∧ B ≠ [] ∧ slash :: y = flat B := by
  induction parts generalizing x with
  | nil => simp [flat] at h
  | cons p ps ih =>
    have hp : slash ∉ p := hparts p (by simp)
    cases x with
    | nil => exact ⟨[], p :: ps, rfl, by simp, h.symm⟩
    | cons a x =>
      have hcons : flat (p :: ps) = slash :: (p ++ flat ps) := by simp [flat]
      rw [hcons, cons_append, cons.injEq] at h
      obtain ⟨rfl, h⟩ := h
      -- The slash is not inside of the first component.
      rcases append_eq_append_iff.mp h with ⟨b, -, hps⟩ | ⟨b, hx, hps⟩
      · obtain ⟨A, B, rfl, hB, hy⟩ := ih (fun c hc => hparts c (by simp [hc])) hps
        exact ⟨p :: A, B, rfl, hB, hy⟩
      · cases b with
        | nil =>
          refine ⟨[p], ps, rfl, ?_, hps⟩
          rintro rfl
          simp [flat] at hps
        | cons b bs =>
          rw [cons_append, cons.injEq] at hps
          rw [hx, ← hps.1] at hp
          simp at hp

/-- The paths that name files: made of plain components. -/
def PlainPath (p : Name) : Prop := ∃ parts : List Name, p = render parts ∧ ∀ c ∈ parts, Plain c

lemma PlainPath.ne_nil (h : PlainPath p) : p ≠ [] := by
  obtain ⟨parts, rfl, -⟩ := h
  simp [render]

lemma Resolved.plainPath (h : Resolved p) : PlainPath p := by
  obtain ⟨⟨parts, hp, hplain, -⟩, -⟩ := h
  exact ⟨parts, hp, hplain⟩

lemma PlainPath.suffix (h : PlainPath (x ++ slash :: y)) (hx : x ≠ []) :
    PlainPath (slash :: y) := by
  obtain ⟨parts, hp, hplain⟩ := h
  by_cases hne : parts = []
  · subst hne
    have := congrArg length hp
    obtain ⟨a, x, rfl⟩ := exists_cons_of_ne_nil hx
    simp [render] at this
  · rw [render_eq_flat hne] at hp
    obtain ⟨A, B, rfl, hB, hy⟩ := flat_split (fun c hc => (hplain c hc).2.1) hp.symm
    exact ⟨B, by rw [hy, render_eq_flat hB], fun c hc => hplain c (by simp [hc])⟩

end Resolution

end YamKernel.Vfs

import YamKernel.Fs.Elf.Pages
import YamKernel.Mem.Pmm.Plenty

/-!
# The initial stack

`build_initial_stack` and `build_initial_stack_ldso` put strings and vectors of words on the user
stack, from the top downwards. In a space with frames of its own, each piece is one store of the
memory that user code sees. `build_initial_stack_law` says that the stack of a static program is
well formed. `ldso_stack_iff` says that the stack of the dynamic linker is so exactly if the number
of arguments and the number of environment strings have the same parity: otherwise `argc` is put
over the first argument pointer.
-/

namespace YamKernel.Elf

open Lib Vmm Pmm List Traced Mem

variable {a r : Nat} {items : List CStr} {m : Mem} {s : Vmm.State}

/-- The space `r` has the pages of `s₀` and the memory `m`. -/
structure Shows (r : Nat) (s₀ : Vmm.State) (m : Mem) (s : Vmm.State) : Prop where
  own : Private r s
  pages : ∀ q, pte 256 s.mem r q = pte 256 s₀.mem r q
  view : userView r s = m
  pmm : s.pmm = s₀.pmm

lemma Private.shows (h : Private r s) : Shows r s (userView r s) s :=
  ⟨h, fun _ => rfl, rfl, rfl⟩

def Gap (r : Nat) (s : Vmm.State) (lo hi : Nat) : Prop :=
  ∃ a, lo ≤ a ∧ a < hi ∧ (pte 256 s.mem r (a / pageSize)).present = false

lemma Gap.mono {lo hi lo' hi' : Nat} (h : Gap r s lo hi) (hlo : lo' ≤ lo) (hhi : hi ≤ hi') :
    Gap r s lo' hi' := by
  obtain ⟨a, h1, h2, ha⟩ := h
  exact ⟨a, by omega, by omega, ha⟩

section Copy

variable {dst : Nat} {s₀ : Vmm.State} {src : List UInt8} {bad : Event → Prop}
  {stops : Stop → Prop}

lemma Shows.store (h : Shows r s₀ m s) (hdst : dst < userEnd)
    (hl : dst % pageSize + src.length ≤ pageSize) (hne : vmmVirtToPhys s.mem r dst ≠ 0) :
    Shows r s₀ (m.store dst src) { s with mem := s.mem.store (vmmVirtToPhys s.mem r dst) src } := by
  obtain ⟨hown, hpages, hview⟩ := h.own.store hdst hl hne
  exact ⟨hown, fun q => (hpages q).trans (h.pages q), by rw [hview, h.view], h.pmm⟩

lemma Shows.gap (h : Shows r s₀ m s) (hdst : dst < userEnd) (h0 : vmmVirtToPhys s.mem r dst = 0)
    {n : Nat} (hn : 0 < n) : Gap r s₀ dst (dst + n) := by
  refine ⟨dst, le_rfl, by omega, ?_⟩
  rw [← h.pages]
  exact Bool.eq_false_iff.mpr fun hp => (h.own.virtToPhys_ne hdst).mpr hp h0

lemma gives_copyChunks {fuel : Nat} (hfuel : src.length ≤ fuel) (h : Shows r s₀ m s)
    (hend : dst + src.length ≤ userEnd) (hgap : Gap r s₀ dst (dst + src.length) → stops .error) :
    Traced.Gives (copyChunks r fuel dst src) s bad stops fun _ => Shows r s₀ (m.store dst src) := by
  induction fuel generalizing dst src m s with
  | zero =>
    obtain rfl : src = [] := length_eq_zero_iff.mp (by omega)
    exact gives_pure (by rwa [store_nil])
  | succ fuel ih =>
    rw [copyChunks]
    split_ifs with hsrc
    · rw [hsrc, store_nil]
      exact gives_pure h
    have hpos : 0 < src.length := length_pos_iff.mpr hsrc
    have hdst : dst < userEnd := by omega
    refine Traced.Gives.bind (gives_act (Q := fun phys s' =>
      phys = vmmVirtToPhys s.mem r dst ∧ s' = s) ⟨rfl, rfl⟩) ?_
    rintro phys s' ⟨rfl, rfl⟩
    split_ifs with h0
    · exact gives_stop (hgap (h.gap hdst h0 hpos))
    dsimp only
    generalize hchunk : (if pageSize - dst % pageSize > src.length then src.length
      else pageSize - dst % pageSize) = chunk
    have : dst % pageSize < pageSize := Nat.mod_lt _ (by decide)
    have hle : chunk ≤ src.length ∧ 0 < chunk ∧ dst % pageSize + chunk ≤ pageSize := by
      split_ifs at hchunk <;> omega
    have hlen : (src.take chunk).length = chunk := length_take_of_le hle.1
    -- The translation already has the offset in the page.
    have hphys : vmmVirtToPhys s'.mem r dst / pageSize * pageSize + dst % pageSize =
        vmmVirtToPhys s'.mem r dst := by
      have hp := (h.own.virtToPhys_ne hdst).mp h0
      rw [h.own.virtToPhys hdst, if_pos hp]
      have := Pte.frameOf_dvd (pte 256 s'.mem r (dst / pageSize)) (dst / pageSize)
      unfold pageSize at *
      omega
    refine Traced.Gives.bind (gives_act (Q := fun _ => Shows r s₀ (m.store dst (src.take chunk)))
      ?_) fun _ s'' h'' => ?_
    · rw [hphys]
      exact h.store hdst (by omega) h0
    have hu : u64 (dst + chunk) = dst + chunk := u64_of_lt (by unfold userEnd at hend; omega)
    have : (src.drop chunk).length = src.length - chunk := length_drop
    rw [hu]
    refine (ih (by omega) h'' (by omega) fun hg => hgap ?_).mono fun _ s₃ h₃ => ?_
    · exact hg.mono (by omega) (by omega)
    · have happ := store_append m dst (src.take chunk) (src.drop chunk)
      rw [take_append_drop, hlen] at happ
      rwa [← happ]

lemma gives_copy (h : Shows r s₀ m s) (hend : dst + src.length ≤ userEnd)
    (hgap : Gap r s₀ dst (dst + src.length) → stops .error) :
    Traced.Gives (copyToUserMapping r dst src) s bad stops fun _ => Shows r s₀ (m.store dst src) :=
  gives_copyChunks le_rfl h hend hgap

end Copy

/-! ## Vectors -/

def stringBytes (items : List CStr) : List UInt8 := items.flatMap stackString

/-- The addresses of the strings, the first one at `a`. -/
def stringPtrs (a : Nat) : List CStr → List Nat
  | [] => []
  | x :: items => a :: stringPtrs (a + (stackString x).length) items

def vectorBytes (ptrs : List Nat) : List UInt8 := (ptrs ++ [0]).flatMap le64

lemma length_stackString (x : CStr) :
    0 < (stackString x).length ∧ (stackString x).length ≤ 255 := by
  unfold stackString
  simp only [length_append, length_take, length_singleton]
  split_ifs <;> omega

lemma length_stringPtrs (a : Nat) (items : List CStr) :
    (stringPtrs a items).length = items.length := by
  induction items generalizing a with
  | nil => rfl
  | cons x items ih => rw [stringPtrs, length_cons, ih, length_cons]

lemma length_stringBytes_le (items : List CStr) :
    (stringBytes items).length ≤ 255 * items.length := by
  induction items with
  | nil => exact le_rfl
  | cons x items ih =>
    have := length_stackString x
    rw [stringBytes, flatMap_cons, length_append, length_cons]
    unfold stringBytes at ih
    omega

lemma length_vectorBytes (ptrs : List Nat) : (vectorBytes ptrs).length = (ptrs.length + 1) * 8 := by
  rw [vectorBytes, length_flatMap_le64, length_append, length_singleton]
  omega

section Vectors

variable {sp : Nat} {s₀ : Vmm.State} {bad : Event → Prop} {stops : Stop → Prop}

lemma gives_copyStringVector (h : Shows r s₀ m s) (hsp : sp ≤ userEnd)
    (hlen : (stringBytes items).length ≤ sp)
    (hgap : Gap r s₀ (sp - (stringBytes items).length) sp → stops .error) :
    Traced.Gives (copyStringVector r sp items) s bad stops fun out s' =>
      out = (sp - (stringBytes items).length,
        stringPtrs (sp - (stringBytes items).length) items) ∧
      Shows r s₀ (m.store (sp - (stringBytes items).length) (stringBytes items)) s' := by
  induction items with
  | nil => exact gives_pure ⟨rfl, by rwa [stringBytes, flatMap_nil, store_nil]⟩
  | cons x items ih =>
    have hcons : stringBytes (x :: items) = stackString x ++ stringBytes items := flatMap_cons
    rw [hcons, length_append] at hlen hgap ⊢
    refine (ih (by omega) fun hg => hgap (hg.mono (by omega) le_rfl)).bind ?_
    rintro ⟨sp', ptrs⟩ s' ⟨hout, h'⟩
    obtain ⟨rfl, rfl⟩ := Prod.mk.inj hout
    have hsub : sub64 (sp - (stringBytes items).length) (stackString x).length =
        sp - ((stackString x).length + (stringBytes items).length) := by
      rw [sub64_of_le (by omega) (by unfold userEnd at hsp; omega)]
      omega
    dsimp only
    rw [hsub]
    refine (gives_copy h' (by omega) fun hg => hgap (hg.mono le_rfl (by omega))).bind
      fun _ s'' h'' => gives_pure ⟨?_, ?_⟩
    · congr 4
      omega
    · have hdown := store_append_down m
        (sp - ((stackString x).length + (stringBytes items).length)) (stackString x)
        (stringBytes items)
      rw [← hdown]
      convert h'' using 4
      omega

lemma gives_copyPointerVector {ptrs : List Nat} {base : Nat} (h : Shows r s₀ m s)
    (hend : base + (ptrs.length + 1) * 8 ≤ userEnd)
    (hgap : Gap r s₀ base (base + (ptrs.length + 1) * 8) → stops .error) :
    Traced.Gives (copyPointerVector r base ptrs) s bad stops fun _ =>
      Shows r s₀ (m.store base (vectorBytes ptrs)) := by
  induction ptrs generalizing base m s with
  | nil =>
    refine (gives_copy h (by simpa using hend) fun hg => hgap ?_).mono fun _ _ h' => h'
    simpa using hg
  | cons p ptrs ih =>
    rw [length_cons] at hend hgap
    refine (gives_copy h (by rw [length_le64]; omega) fun hg => hgap ?_).bind fun _ s' h' => ?_
    · exact hg.mono le_rfl (by rw [length_le64]; omega)
    have hu : u64 (base + 8) = base + 8 := u64_of_lt (by unfold userEnd at hend; omega)
    rw [hu]
    refine (ih h' (by omega) fun hg => hgap (hg.mono (by omega) (by omega))).mono
      fun _ s'' h'' => ?_
    have happ := store_append m base (le64 p) (vectorBytes ptrs)
    rw [length_le64] at happ
    rwa [happ] at h''

end Vectors

/-! ## The strings -/

/-- Each pointer leads to its string, cut at 254 bytes. -/
def Points (m : Mem) (ptrs : List Nat) (items : List CStr) : Prop :=
  Forall₂ (fun p x => p ≠ 0 ∧
    m.load p (x.1.take 254 ++ [0]).length = x.1.take 254 ++ [0]) ptrs items

def stringAreas (ptrs : List Nat) (items : List CStr) : List (Nat × Nat) :=
  zipWith (fun p x => (p, (x.1.take 254 ++ [0]).length)) ptrs items

lemma stackString_eq (x : CStr) : stackString x = x.1.take 254 ++ [0] := by
  unfold stackString
  dsimp only
  split_ifs
  · rfl
  · rw [Nat.add_sub_cancel, take_length, take_of_length_le (by omega)]

lemma stringBytes_cons (x : CStr) (items : List CStr) :
    stringBytes (x :: items) = stackString x ++ stringBytes items := flatMap_cons

lemma points_of_load (ha : 0 < a) (h : m.load a (stringBytes items).length = stringBytes items) :
    Points m (stringPtrs a items) items := by
  induction items generalizing a with
  | nil => exact .nil
  | cons x items ih =>
    rw [stringBytes_cons, length_append, load_add] at h
    obtain ⟨hx, hrest⟩ := append_inj h (length_load ..)
    refine .cons ⟨by omega, ?_⟩ (ih (by omega) hrest)
    rwa [← stackString_eq]

/-- The places of the strings, in order, fill the bytes of the vector. -/
theorem stringAreas_tile (a : Nat) (items : List CStr) :
    let areas := stringAreas (stringPtrs a items) items
    (∀ x ∈ areas, a ≤ x.1 ∧ x.1 + x.2 ≤ a + (stringBytes items).length) ∧
      areas.Pairwise (fun x y => x.1 + x.2 ≤ y.1) ∧
      ∀ va, a ≤ va → va < a + (stringBytes items).length →
        ∃ x ∈ areas, x.1 ≤ va ∧ va < x.1 + x.2 := by
  induction items generalizing a with
  | nil => exact ⟨by simp [stringAreas], by simp [stringAreas], fun va h1 h2 => by
      simp only [stringBytes, flatMap_nil, length_nil] at h2; omega⟩
  | cons x items ih =>
    obtain ⟨hin, hpair, hcover⟩ := ih (a + (stackString x).length)
    have hcons : stringAreas (stringPtrs a (x :: items)) (x :: items) =
        (a, (stackString x).length) ::
          stringAreas (stringPtrs (a + (stackString x).length) items) items := by
      simp [stringPtrs, stringAreas, stackString_eq]
    have : (stringBytes (x :: items)).length =
        (stackString x).length + (stringBytes items).length := by
      rw [stringBytes_cons, length_append]
    rw [hcons]
    refine ⟨fun y hy => ?_, pairwise_cons.mpr ⟨fun y hy => (hin y hy).1, hpair⟩,
      fun va h1 h2 => ?_⟩
    · rcases mem_cons.mp hy with rfl | hy
      · exact ⟨le_rfl, by dsimp only; omega⟩
      · have := hin y hy
        omega
    · by_cases hva : va < a + (stackString x).length
      · exact ⟨_, mem_cons_self, h1, hva⟩
      · obtain ⟨y, hy, hy'⟩ := hcover va (by omega) (by omega)
        exact ⟨y, mem_cons_of_mem _ hy, hy'⟩

section Strings

variable (name : CStr) (args : Args)

lemma length_env_le : args.env.length ≤ 16 := by
  rw [Args.env, length_take]
  exact min_le_left _ _

lemma length_strings : 0 < (args.strings name).length ∧ (args.strings name).length ≤ 16 := by
  unfold Args.strings
  generalize (if name.1 = [] then appName else name) = fallback
  split
  · exact ⟨by simp, by simp⟩
  · split_ifs
    · exact ⟨by simp, by simp⟩
    · rw [length_map, length_range]
      omega

def envStringsAt : Nat := userStackTop - 8 - (stringBytes args.env).length

def argStringsAt : Nat := envStringsAt args - (stringBytes (args.strings name)).length

def withStrings (m : Mem) : Mem :=
  (m.store (envStringsAt args) (stringBytes args.env)).store (argStringsAt name args)
    (stringBytes (args.strings name))

lemma stringsAt_bounds :
    envStringsAt args + (stringBytes args.env).length = userStackTop - 8 ∧
      argStringsAt name args + (stringBytes (args.strings name)).length = envStringsAt args ∧
      userStackTop - 8 - 8160 ≤ argStringsAt name args := by
  have := length_stringBytes_le args.env
  have := length_stringBytes_le (args.strings name)
  have := length_env_le args
  have := (length_strings name args).2
  have := userLayout.2.1
  unfold argStringsAt envStringsAt
  omega

end Strings

section Build

variable {sp : Nat} {s₀ : Vmm.State} {bad : Event → Prop} {stops : Stop → Prop}

lemma gives_copyStrings (name : CStr) (args : Args) (h : Shows r s₀ m s)
    (hgap : Gap r s₀ (argStringsAt name args) userStackTop → stops .error) :
    Traced.Gives (copyStrings r name args) s bad stops fun out s' =>
      out = (argStringsAt name args, stringPtrs (envStringsAt args) args.env,
        stringPtrs (argStringsAt name args) (args.strings name)) ∧
      Shows r s₀ (withStrings name args m) s' := by
  obtain ⟨hb1, hb2, hb3⟩ := stringsAt_bounds name args
  have : userStackTop ≤ userEnd := by decide
  refine (gives_copyStringVector h (by omega) (by omega) fun hg => hgap ?_).bind ?_
  · exact hg.mono (by omega) (by omega)
  rintro ⟨sp, ptrs⟩ s' ⟨hout, h'⟩
  obtain ⟨rfl, rfl⟩ := Prod.mk.inj hout
  refine (gives_copyStringVector h' (by omega) (by omega) fun hg => hgap ?_).bind ?_
  · exact hg.mono (by omega) (by omega)
  rintro ⟨sp, ptrs⟩ s'' ⟨hout, h''⟩
  obtain ⟨rfl, rfl⟩ := Prod.mk.inj hout
  exact gives_pure ⟨rfl, h''⟩

/-- Where `copy_vectors` puts vectors of `envc` and `argc` pointers. -/
def vectorsAt (sp envc argc : Nat) : StackInfo :=
  let envp := sp - (envc + 1) * 8
  let argv := envp - (argc + 1) * 8
  ⟨if argv % 16 ≠ 8 then argv - 8 else argv, argv, envp⟩

lemma vectorsAt_sp (sp envc argc : Nat) : (vectorsAt sp envc argc).sp =
    if (vectorsAt sp envc argc).argv % 16 ≠ 8 then (vectorsAt sp envc argc).argv - 8
    else (vectorsAt sp envc argc).argv := rfl

lemma gives_copyVectors {envPtrs argPtrs : List Nat} (h : Shows r s₀ m s) (hsp : sp ≤ userEnd)
    (hroom : (envPtrs.length + 1) * 8 + (argPtrs.length + 1) * 8 + 8 ≤ sp)
    (hgap : Gap r s₀ (vectorsAt sp envPtrs.length argPtrs.length).argv sp → stops .error) :
    Traced.Gives (copyVectors r sp envPtrs argPtrs) s bad stops fun out s' =>
      out = vectorsAt sp envPtrs.length argPtrs.length ∧
      Shows r s₀ (m.store (vectorsAt sp envPtrs.length argPtrs.length).argv
        (vectorBytes argPtrs ++ vectorBytes envPtrs)) s' := by
  have : userEnd < 2 ^ 64 := by decide
  have henv : sub64 sp ((envPtrs.length + 1) * 8) = sp - (envPtrs.length + 1) * 8 :=
    sub64_of_le
  have harg : sub64 (sp - (envPtrs.length + 1) * 8) ((argPtrs.length + 1) * 8) =
      sp - (envPtrs.length + 1) * 8 - (argPtrs.length + 1) * 8 := sub64_of_le
  have hlow : sub64 (sp - (envPtrs.length + 1) * 8 - (argPtrs.length + 1) * 8) 8 =
      sp - (envPtrs.length + 1) * 8 - (argPtrs.length + 1) * 8 - 8 :=
    sub64_of_le
  dsimp only [vectorsAt] at hgap
  unfold copyVectors
  rw [henv]
  refine (gives_copyPointerVector h (by omega) fun hg => hgap (hg.mono (by omega) (by omega))).bind
    fun _ s' h' => ?_
  rw [harg]
  refine (gives_copyPointerVector h' (by omega) fun hg => hgap (hg.mono (by omega) (by omega))).bind
    fun _ s'' h'' => ?_
  rw [hlow]
  refine gives_pure ⟨rfl, ?_⟩
  have hdown := store_append_down m
    (sp - (envPtrs.length + 1) * 8 - (argPtrs.length + 1) * 8) (vectorBytes argPtrs)
    (vectorBytes envPtrs)
  dsimp only [vectorsAt]
  rw [← hdown, length_vectorBytes]
  convert h'' using 3
  omega

end Build

/-! ## Static programs -/

def StackMapped (r : Nat) (s : Vmm.State) : Prop :=
  ∀ i < userStackPages, vmmVirtToPhys s.mem r (userStackBase + i * pageSize) ≠ 0

def stackAreas (out : StackInfo) (args env : List CStr) (argPtrs envPtrs : List Nat) :
    List (Nat × Nat) :=
  (out.argv, 8 * (args.length + 1)) :: (out.envp, 8 * (env.length + 1)) ::
    (stringAreas argPtrs args ++ stringAreas envPtrs env)

/-- The stack that `out` describes: `m₀` is the memory before. -/
structure StaticStack (m₀ m : Mem) (out : StackInfo) (args env : List CStr)
    (argPtrs envPtrs : List Nat) : Prop where
  aligned : out.sp % 16 = 8
  inside : userStackBase ≤ out.sp ∧ out.sp < userStackTop
  argVector : m.words out.argv (args.length + 1) = argPtrs ++ [0]
  envVector : m.words out.envp (env.length + 1) = envPtrs ++ [0]
  argStrings : Points m argPtrs args
  envStrings : Points m envPtrs env
  /-- No two of the vectors and strings overlap. -/
  apart : (stackAreas out args env argPtrs envPtrs).Pairwise
    fun x y => x.1 + x.2 ≤ y.1 ∨ y.1 + y.2 ≤ x.1
  /-- The stack pointer is below them, and they are on the stack. -/
  below : ∀ x ∈ stackAreas out args env argPtrs envPtrs, out.sp ≤ x.1 ∧ x.1 + x.2 ≤ userStackTop
  /-- Nothing else was written. -/
  frame : ∀ va, m va ≠ m₀ va → ∃ x ∈ stackAreas out args env argPtrs envPtrs,
    x.1 ≤ va ∧ va < x.1 + x.2

lemma no_gap {lo : Nat} (h : Private r s) (hs : StackMapped r s) (hlo : userStackBase ≤ lo) :
    ¬ Gap r s lo userStackTop := by
  rintro ⟨a, h1, h2, ha⟩
  obtain ⟨hbase, htop, -⟩ := userLayout
  have hlt : (a - userStackBase) / pageSize < userStackPages := by
    unfold userStackPages pageSize
    omega
  have hpage : (userStackBase + (a - userStackBase) / pageSize * pageSize) / pageSize =
      a / pageSize := by
    unfold pageSize
    omega
  have hend : userStackBase + (a - userStackBase) / pageSize * pageSize < userEnd := by
    unfold userEnd pageSize
    omega
  have hp := (h.virtToPhys_ne hend).mp (hs _ hlt)
  rw [hpage, ha] at hp
  exact absurd hp (by decide)

lemma stringPtrs_lt {k : Nat} (h : a + (stringBytes items).length ≤ k) {p : Nat}
    (hp : p ∈ stringPtrs a items) : p < k := by
  induction items generalizing a with
  | nil => simp [stringPtrs] at hp
  | cons x items ih =>
    have := length_stackString x
    rw [stringBytes_cons, length_append] at h
    rcases mem_cons.mp hp with rfl | hp
    · omega
    · exact ih (by omega) hp

lemma words_vector {ptrs : List Nat} (h : ∀ p ∈ ptrs, p < 2 ^ 64) :
    (m.store a (vectorBytes ptrs)).words a (ptrs.length + 1) = ptrs ++ [0] := by
  have hwords := words_store (m := m) (a := a) (l := ptrs ++ [0]) fun w hw => by
    rcases mem_append.mp hw with hw | hw
    · exact h w hw
    · rw [mem_singleton.mp hw]
      decide
  rwa [length_append] at hwords

/-- Where `build_initial_stack` puts the vectors. -/
def staticAt (name : CStr) (args : Args) : StackInfo :=
  vectorsAt (argStringsAt name args / 16 * 16) args.env.length (args.strings name).length

def withStatic (name : CStr) (args : Args) (m : Mem) : Mem :=
  (withStrings name args m).store (staticAt name args).argv
    (vectorBytes (stringPtrs (argStringsAt name args) (args.strings name)) ++
      vectorBytes (stringPtrs (envStringsAt args) args.env))

lemma staticStack_layout (name : CStr) (args : Args) (m : Mem) :
    StaticStack m (withStatic name args m) (staticAt name args) (args.strings name) args.env
      (stringPtrs (argStringsAt name args) (args.strings name))
      (stringPtrs (envStringsAt args) args.env) := by
  let env := args.env
  let strings := args.strings name
  let argPtrs := stringPtrs (argStringsAt name args) strings
  let envPtrs := stringPtrs (envStringsAt args) env
  let out := vectorsAt (argStringsAt name args / 16 * 16) env.length strings.length
  change StaticStack m ((withStrings name args m).store out.argv
    (vectorBytes argPtrs ++ vectorBytes envPtrs)) out strings env argPtrs envPtrs
  obtain ⟨hb1, hb2, hb3⟩ : envStringsAt args + (stringBytes env).length = userStackTop - 8 ∧
      argStringsAt name args + (stringBytes strings).length = envStringsAt args ∧
      userStackTop - 8 - 8160 ≤ argStringsAt name args := stringsAt_bounds name args
  have := (stringsAt_bounds name args).2.1
  have : env.length ≤ 16 := length_env_le args
  have : 0 < strings.length ∧ strings.length ≤ 16 := length_strings name args
  obtain ⟨hbase, htop, -⟩ := userLayout
  have harglen : argPtrs.length = strings.length := length_stringPtrs ..
  have henvlen : envPtrs.length = env.length := length_stringPtrs ..
  -- The addresses, from the top downwards.
  have : out.envp + 8 * (env.length + 1) = argStringsAt name args / 16 * 16 ∧
      out.argv + 8 * (strings.length + 1) = out.envp := by
    dsimp only [out, vectorsAt]
    omega
  have hsp : out.sp % 16 = 8 ∧ out.sp ≤ out.argv ∧ out.argv ≤ out.sp + 8 := by
    dsimp only [out, vectorsAt]
    split_ifs <;> omega
  have := length_vectorBytes argPtrs
  have := length_vectorBytes envPtrs
  have hargsIn := stringAreas_tile (argStringsAt name args) strings
  have henvIn := stringAreas_tile (envStringsAt args) env
  have hlow : ∀ {b n}, argStringsAt name args ≤ b →
      ((withStrings name args m).store out.argv
        (vectorBytes argPtrs ++ vectorBytes envPtrs)).load b n =
        (withStrings name args m).load b n := fun hb => load_store_apart (.inr (by
    rw [length_append]; omega))
  have hbelow : ∀ x ∈ stackAreas out strings env argPtrs envPtrs,
      out.sp ≤ x.1 ∧ x.1 + x.2 ≤ userStackTop := by
    intro x hx
    simp only [stackAreas, mem_cons, mem_append] at hx
    rcases hx with rfl | rfl | hx | hx
    · omega
    · omega
    · have := hargsIn.1 x hx
      omega
    · have := henvIn.1 x hx
      omega
  refine ⟨hsp.1, by omega, ?_, ?_, points_of_load (by omega) ?_, points_of_load (by omega) ?_, ?_,
    hbelow, fun va hne => ?_⟩
  · rw [← store_append, ← harglen]
    refine (words_congr fun x _ h2 => store_of_notMem (.inl ?_)).trans
      (words_vector fun p hp => ?_)
    · omega
    · have := stringPtrs_lt (k := 2 ^ 64) (by omega) hp
      exact this
  · rw [← store_append, ← henvlen]
    have : out.argv + (vectorBytes argPtrs).length = out.envp := by omega
    rw [this]
    exact words_vector fun p hp => stringPtrs_lt (by omega) hp
  · rw [hlow le_rfl, withStrings, load_store]
  · rw [hlow (by omega), withStrings, load_store_apart (.inr (by omega)), load_store]
  · -- In this order each piece ends where the next one may begin.
    refine Pairwise.imp (fun h => .inl h) ?_
    refine pairwise_cons.mpr ⟨fun y hy => ?_, pairwise_cons.mpr ⟨fun y hy => ?_,
      pairwise_append.mpr ⟨hargsIn.2.1, henvIn.2.1, fun x hx y hy => ?_⟩⟩⟩
    · simp only [mem_cons, mem_append] at hy
      rcases hy with rfl | hy | hy
      · omega
      · have := hargsIn.1 y hy
        omega
      · have := henvIn.1 y hy
        omega
    · rcases mem_append.mp hy with hy | hy
      · have := hargsIn.1 y hy
        omega
      · have := henvIn.1 y hy
        omega
    · have h1 := hargsIn.1 x hx
      have h2 := henvIn.1 y hy
      omega
  · by_contra hno
    push Not at hno
    have := hno _ mem_cons_self
    have := hno _ (mem_cons_of_mem _ mem_cons_self)
    have hvec : va < out.argv ∨
        out.argv + (vectorBytes argPtrs ++ vectorBytes envPtrs).length ≤ va := by
      rw [length_append]
      omega
    have hstr : ∀ {a items}, (∀ x ∈ stringAreas (stringPtrs a items) items,
        x.1 ≤ va → x.1 + x.2 ≤ va) →
        va < a ∨ a + (stringBytes items).length ≤ va := fun {a items} hx => by
      by_contra hin
      obtain ⟨x, hx', h1, h2⟩ := (stringAreas_tile a items).2.2 va (by omega) (by omega)
      have := hx x hx' h1
      omega
    refine hne ?_
    rw [store_of_notMem hvec, withStrings, store_of_notMem, store_of_notMem]
    · exact hstr fun x hx => hno x
        (mem_cons_of_mem _ (mem_cons_of_mem _ (mem_append_right _ hx)))
    · exact hstr fun x hx => hno x
        (mem_cons_of_mem _ (mem_cons_of_mem _ (mem_append_left _ hx)))

lemma withStatic_below (name : CStr) (args : Args) (m : Mem) {x : Nat} (hx : x < userStackBase) :
    withStatic name args m x = m x := by
  have hstack := staticStack_layout name args m
  by_contra hne
  obtain ⟨y, hy, h1, -⟩ := hstack.frame x hne
  have := (hstack.below y hy).1
  have := hstack.inside.1
  omega

lemma gives_buildInitialStack {s₀ : Vmm.State} {bad : Event → Prop} {stops : Stop → Prop}
    (name : CStr) (args : Args) (h : Shows r s₀ m s)
    (hgap : Gap r s₀ userStackBase userStackTop → stops .error) :
    Traced.Gives (buildInitialStack r name args) s bad stops fun out s' =>
      out = staticAt name args ∧ Shows r s₀ (withStatic name args m) s' := by
  obtain ⟨hb1, hb2, hb3⟩ := stringsAt_bounds name args
  have := length_env_le args
  have := length_strings name args
  obtain ⟨hbase, htop, hend⟩ := userLayout
  refine (gives_copyStrings name args h fun hg => hgap (hg.mono (by omega) le_rfl)).bind ?_
  rintro ⟨sp, envPtrs, argPtrs⟩ s' ⟨hout, h'⟩
  obtain ⟨rfl, hptrs⟩ := Prod.mk.inj hout
  obtain ⟨rfl, rfl⟩ := Prod.mk.inj hptrs
  have hlens := And.intro (length_stringPtrs (envStringsAt args) args.env)
    (length_stringPtrs (argStringsAt name args) (args.strings name))
  refine (gives_copyVectors h' (by omega) (by omega) fun hg => hgap (hg.mono ?_ ?_)).mono
    fun out s'' h'' => ?_
  · dsimp only [vectorsAt]
    omega
  · omega
  · rwa [hlens.1, hlens.2] at h''

/-- On a mapped stack, `build_initial_stack` succeeds, and the stack is well formed. -/
theorem build_initial_stack_law (h : Private r s) (hs : StackMapped r s) (name : CStr)
    (args : Args) :
    ∃ l out s' argPtrs envPtrs, buildInitialStack r name args s = (l, .ok out, s') ∧
      StaticStack (userView r s) (userView r s') out
        (args.strings name) args.env argPtrs envPtrs := by
  have hgives : Traced.Gives (buildInitialStack r name args) s
      (fun _ => False) (fun _ => False) _ :=
    gives_buildInitialStack name args (Private.shows h) (no_gap h hs le_rfl)
  obtain ⟨l, out, s', hrun, rfl, h'⟩ := hgives.returns (fun _ _ => id) fun _ => id
  have hstack := staticStack_layout name args (userView r s)
  rw [← h'.view] at hstack
  exact ⟨l, _, s', _, _, hrun, hstack⟩

/-! ## A space with a stack -/

lemma exists_stackMapped : ∃ s, Private (2 ^ 20) s ∧ StackMapped (2 ^ 20) s := by
  obtain ⟨pmm, hrun, hprov, hheld⟩ := exists_plenty
  have hown : Private (2 ^ 20) ⟨fun _ => 0, pmm, 0⟩ := private_blank 0 hrun (by decide) hheld
  have hgives : Traced.Gives (allocateUserStack (2 ^ 20)) _ (fun _ => False) (fun _ => False) _ :=
    gives_allocateUserStack (n := 0) hown.holds (.inr (hprov.mono (by decide)))
  obtain ⟨-, -, s, -, h, -⟩ := hgives.returns (fun _ _ => id) fun _ => id
  refine ⟨s, h.own, fun i hi => ?_⟩
  have hva : userStackBase + i * pageSize < userEnd := by
    unfold userStackPages at hi
    unfold userStackBase pageSize userEnd
    omega
  have hp : StackPage ((userStackBase + i * pageSize) / pageSize) := by
    unfold StackPage userStackBase pageSize
    omega
  rw [h.own.virtToPhys_ne hva, h.present hp.lt, withStackPages_flags _ hp]
  decide

def sampleArgs : Args := ⟨1, some [some appName], some [appName]⟩

theorem build_initial_stack_law_sample : ∃ s, Private (2 ^ 20) s ∧ StackMapped (2 ^ 20) s ∧
    ∃ l out s' argPtrs envPtrs, buildInitialStack (2 ^ 20) appName sampleArgs s = (l, .ok out, s') ∧
      StaticStack (userView (2 ^ 20) s) (userView (2 ^ 20) s') out (sampleArgs.strings appName)
        sampleArgs.env argPtrs envPtrs := by
  obtain ⟨s, h, hs⟩ := exists_stackMapped
  exact ⟨s, h, hs, build_initial_stack_law h hs appName sampleArgs⟩

end YamKernel.Elf

import YamKernel.Fs.Elf.Stack

/-!
# The stack of the dynamic linker

The linker finds `argc`, the arguments, the environment and the auxiliary vector one behind the
other from its stack pointer upwards. `build_initial_stack_ldso` aligns the stack pointer below the
argument vector as for a static program, to 8 modulo 16, and only then stores `argc` there. The
word is a new one if the stack pointer moved, and the first argument pointer if it did not.
-/

namespace YamKernel.Elf

open Lib Vmm Pmm List Mem

/-- The stack that the dynamic linker is promised. -/
structure LdsoStack (m : Mem) (sp : Nat) (args env : List CStr) (execfn : CStr) (info : AuxInfo)
    (argPtrs envPtrs : List Nat) (randomSlot execfnUser : Nat) : Prop where
  words : m.words sp (args.length + env.length + 3 + (auxv info randomSlot execfnUser).length) =
    args.length :: (argPtrs ++ 0 :: (envPtrs ++ 0 :: auxv info randomSlot execfnUser))
  argStrings : Points m argPtrs args
  envStrings : Points m envPtrs env
  random : m.load randomSlot 16 = replicate 16 0x41
  execfn : execfn.1 ≠ [] → Points m [execfnUser] [execfn]

lemma Points.ne_zero {m : Mem} {ptrs : List Nat} {items : List CStr} (h : Points m ptrs items)
    {p : Nat} (hp : p ∈ ptrs) : p ≠ 0 := by
  induction h with
  | nil => simp at hp
  | cons hx _ ih =>
    rcases mem_cons.mp hp with rfl | hp
    · exact hx.1
    · exact ih hp

section Pieces

variable {r sp : Nat} {s₀ s : Vmm.State} {m : Mem} {bad : Event → Prop} {stops : Stop → Prop}

lemma gives_writeU64 {va val : Nat} (h : Shows r s₀ m s) (hva : va < userEnd) (h8 : va % 8 = 0)
    (hgap : Gap r s₀ va (va + 8) → stops .error) :
    Traced.Gives (elfWriteU64User r va val) s bad stops fun _ =>
      Shows r s₀ (m.store va (le64 val)) := by
  unfold elfWriteU64User
  rw [if_neg (by omega)]
  refine Traced.Gives.bind (Traced.gives_act (Q := fun phys s' =>
    phys = vmmVirtToPhys s.mem r va ∧ s' = s) ⟨rfl, rfl⟩) ?_
  rintro phys s' ⟨rfl, rfl⟩
  split_ifs with h0
  · exact Traced.gives_stop (hgap (h.gap hva h0 (by omega)))
  · refine Traced.gives_act (h.store hva ?_ h0)
    rw [length_le64]
    unfold pageSize
    omega

def execfnAt (sp : Nat) (execfn : CStr) : Nat :=
  if execfn.1 = [] then sp else sp - (stackString execfn).length

def withExecfn (sp : Nat) (execfn : CStr) (m : Mem) : Mem :=
  if execfn.1 = [] then m else m.store (execfnAt sp execfn) (stackString execfn)

lemma execfnAt_bounds (sp : Nat) (execfn : CStr) : sp - 255 ≤ execfnAt sp execfn ∧
    execfnAt sp execfn ≤ sp := by
  have := length_stackString execfn
  unfold execfnAt
  split_ifs <;> omega

lemma gives_copyExecfn (execfn : CStr) (h : Shows r s₀ m s) (hsp : sp ≤ userEnd) (h255 : 255 ≤ sp)
    (hgap : Gap r s₀ (execfnAt sp execfn) sp → stops .error) :
    Traced.Gives (copyExecfn r sp execfn) s bad stops fun out s' =>
      out = (execfnAt sp execfn, if execfn.1 = [] then 0 else execfnAt sp execfn) ∧
        Shows r s₀ (withExecfn sp execfn m) s' := by
  have := length_stackString execfn
  unfold copyExecfn withExecfn
  unfold execfnAt at *
  split_ifs at hgap ⊢
  · exact Traced.gives_pure ⟨rfl, h⟩
  · have hsub : sub64 sp (stackString execfn).length = sp - (stackString execfn).length :=
      sub64_of_le (by omega) (by unfold userEnd at hsp; omega)
    rw [hsub]
    refine (gives_copy h (by omega) fun hg => hgap (hg.mono le_rfl (by omega))).bind
      fun _ s' h' => Traced.gives_pure ⟨rfl, h'⟩

lemma length_auxv (info : AuxInfo) (a b : Nat) :
    (auxv info a b).length = if b ≠ 0 then 20 else 18 := by
  unfold auxv
  split_ifs <;> rfl

lemma auxv_lt (info : AuxInfo) (a b : Nat) {w : Nat} (h : w ∈ auxv info a b) : w < 2 ^ 64 := by
  obtain ⟨v, -, rfl⟩ := mem_map.mp h
  exact u64_lt v

end Pieces

section Layout

variable (name : CStr) (args : Args) (execfn : CStr) (info : AuxInfo)

def randomAt : Nat := execfnAt (argStringsAt name args) execfn - 16

def execfnUserAt : Nat := if execfn.1 = [] then 0 else execfnAt (argStringsAt name args) execfn

def auxOf : List Nat := auxv info (randomAt name args execfn) (execfnUserAt name args execfn)

def auxAt : Nat := randomAt name args execfn / 16 * 16 - (auxOf name args execfn info).length * 8

def ldsoAt : StackInfo :=
  vectorsAt (auxAt name args execfn info) args.env.length (args.strings name).length

lemma ldsoAt_sp : (ldsoAt name args execfn info).sp =
    if (ldsoAt name args execfn info).argv % 16 ≠ 8 then (ldsoAt name args execfn info).argv - 8
    else (ldsoAt name args execfn info).argv := vectorsAt_sp ..

def withRandom (m : Mem) : Mem :=
  (withExecfn (argStringsAt name args) execfn (withStrings name args m)).store
    (randomAt name args execfn) (replicate 16 0x41)

def pointerWords : List Nat :=
  stringPtrs (argStringsAt name args) (args.strings name) ++
    0 :: (stringPtrs (envStringsAt args) args.env ++ 0 :: auxOf name args execfn info)

/-- The memory that `build_initial_stack_ldso` leaves. -/
def withLdso (m : Mem) : Mem :=
  ((withRandom name args execfn m).store (ldsoAt name args execfn info).argv
    ((pointerWords name args execfn info).flatMap le64)).store (ldsoAt name args execfn info).sp
    (le64 (args.strings name).length)

lemma length_pointerWords : (pointerWords name args execfn info).length + 1 =
    (args.strings name).length + args.env.length + 3 + (auxOf name args execfn info).length := by
  simp only [pointerWords, length_append, length_cons, length_stringPtrs]
  omega

lemma ldsoAt_bounds : let out := ldsoAt name args execfn info
    let n := (args.strings name).length + args.env.length
    userStackBase ≤ out.sp ∧ out.sp = out.argv - (if Even n then 8 else 0) ∧ out.argv % 8 = 0 ∧
      out.argv + 8 * (pointerWords name args execfn info).length =
        randomAt name args execfn / 16 * 16 ∧
      auxAt name args execfn info + 8 * (auxOf name args execfn info).length =
        randomAt name args execfn / 16 * 16 ∧
      out.argv + 8 * ((args.strings name).length + 1) + 8 * (args.env.length + 1) =
        auxAt name args execfn info ∧
      randomAt name args execfn + 16 = execfnAt (argStringsAt name args) execfn := by
  intro out n
  obtain ⟨hb1, hb2, hb3⟩ := stringsAt_bounds name args
  have := execfnAt_bounds (argStringsAt name args) execfn
  have := length_env_le args
  have := length_strings name args
  obtain ⟨hbase, htop, -⟩ := userLayout
  have : (auxOf name args execfn info).length = 18 ∨ (auxOf name args execfn info).length = 20 := by
    rw [auxOf, length_auxv]
    split_ifs <;> simp
  have hrandom : randomAt name args execfn + 16 = execfnAt (argStringsAt name args) execfn := by
    unfold randomAt
    omega
  have := length_pointerWords name args execfn info
  have hat : auxAt name args execfn info + 8 * (auxOf name args execfn info).length =
      randomAt name args execfn / 16 * 16 := by
    unfold auxAt
    omega
  have hargv : out.argv + 8 * ((args.strings name).length + 1) + 8 * (args.env.length + 1) =
      auxAt name args execfn info := by
    dsimp only [out, ldsoAt, vectorsAt]
    omega
  have hsp : out.sp = out.argv - (if Even n then 8 else 0) := by
    -- The auxiliary vector has an even number of words, so the parity of the rest decides.
    have hmod : Even n ↔ out.argv % 16 ≠ 8 := by
      rw [Nat.even_iff]
      omega
    by_cases heven : Even n
    · rw [if_pos heven, ldsoAt_sp, if_pos (hmod.mp heven)]
    · rw [if_neg heven, Nat.sub_zero, ldsoAt_sp, if_neg fun hc => heven (hmod.mpr hc)]
  have : (if Even n then 8 else 0) ≤ 8 := by
    split_ifs <;> simp
  exact ⟨by omega, hsp, by omega, by omega, hat, hargv, hrandom⟩

end Layout

section Build

variable {r : Nat} {s₀ s : Vmm.State} {m : Mem} {bad : Event → Prop} {stops : Stop → Prop}
  (name : CStr) (args : Args) (execfn : CStr) (info : AuxInfo)

lemma vectorBytes_append (argPtrs envPtrs aux : List Nat) :
    (vectorBytes argPtrs ++ vectorBytes envPtrs) ++ aux.flatMap le64 =
      (argPtrs ++ 0 :: (envPtrs ++ 0 :: aux)).flatMap le64 := by
  simp [vectorBytes]

lemma gives_buildInitialStackLdso (h : Shows r s₀ m s)
    (hgap : Gap r s₀ (ldsoAt name args execfn info).sp userStackTop → stops .error) :
    Traced.Gives (buildInitialStackLdso r name args execfn info) s bad stops fun sp s' =>
      sp = (ldsoAt name args execfn info).sp ∧
        Shows r s₀ (withLdso name args execfn info m) s' := by
  obtain ⟨hb1, hb2, hb3⟩ := stringsAt_bounds name args
  obtain ⟨hlow, hsp, h8, hwords, haux, hargv, hrandom⟩ := ldsoAt_bounds name args execfn info
  have := execfnAt_bounds (argStringsAt name args) execfn
  obtain ⟨hbase, htop, hend⟩ := userLayout
  have hle : (ldsoAt name args execfn info).sp ≤ (ldsoAt name args execfn info).argv := by omega
  have hlens := And.intro (length_stringPtrs (envStringsAt args) args.env)
    (length_stringPtrs (argStringsAt name args) (args.strings name))
  refine (gives_copyStrings name args h fun hg => hgap (hg.mono (by omega) le_rfl)).bind ?_
  rintro ⟨sp, envPtrs, argPtrs⟩ s₁ ⟨hout, h₁⟩
  obtain ⟨rfl, hptrs⟩ := Prod.mk.inj hout
  obtain ⟨rfl, rfl⟩ := Prod.mk.inj hptrs
  refine (gives_copyExecfn execfn h₁ (by omega) (by omega)
    fun hg => hgap (hg.mono (by omega) (by omega))).bind ?_
  rintro ⟨sp, execfnUser⟩ s₂ ⟨hout, h₂⟩
  obtain ⟨rfl, rfl⟩ := Prod.mk.inj hout
  dsimp only
  have hrnd : sub64 (execfnAt (argStringsAt name args) execfn) 16 = randomAt name args execfn :=
    sub64_of_le
  rw [hrnd]
  refine (gives_copy h₂ (by rw [length_replicate]; omega) fun hg => hgap
    (hg.mono (by omega) (by rw [length_replicate]; omega))).bind fun _ s₃ h₃ => ?_
  have hauxAt : sub64 (randomAt name args execfn / 16 * 16)
      ((auxOf name args execfn info).length * 8) = auxAt name args execfn info :=
    sub64_of_le
  have : ((auxOf name args execfn info).flatMap le64).length =
      8 * (auxOf name args execfn info).length := length_flatMap_le64 _
  have hauxOf : auxv info (randomAt name args execfn)
      (if execfn.1 = [] then 0 else execfnAt (argStringsAt name args) execfn) =
    auxOf name args execfn info := rfl
  rw [hauxOf, hauxAt]
  refine (gives_copy h₃ (by omega) fun hg => hgap (hg.mono (by omega) (by omega))).bind
    fun _ s₄ h₄ => ?_
  refine (gives_copyVectors h₄ (by omega) (by omega) fun hg => hgap (hg.mono ?_ (by omega))).bind ?_
  · rw [hlens.1, hlens.2]
    exact hle
  rintro out s₅ ⟨rfl, h₅⟩
  rw [hlens.1, hlens.2] at h₅ ⊢
  refine (gives_writeU64 h₅ ?_ ?_ fun hg => hgap (hg.mono ?_ ?_)).bind fun _ s₆ h₆ =>
    Traced.gives_pure ⟨rfl, ?_⟩
  · change (ldsoAt name args execfn info).sp < userEnd
    omega
  · change (ldsoAt name args execfn info).sp % 8 = 0
    rw [hsp]
    split_ifs <;> omega
  · exact le_rfl
  · change (ldsoAt name args execfn info).sp + 8 ≤ userStackTop
    omega
  · -- The auxiliary vector and the vectors below it are one store.
    have hdown := store_append_down (withRandom name args execfn m)
      (ldsoAt name args execfn info).argv
      (vectorBytes (stringPtrs (argStringsAt name args) (args.strings name)) ++
        vectorBytes (stringPtrs (envStringsAt args) args.env))
      ((auxOf name args execfn info).flatMap le64)
    have hlen : (vectorBytes (stringPtrs (argStringsAt name args) (args.strings name)) ++
        vectorBytes (stringPtrs (envStringsAt args) args.env)).length =
        8 * ((args.strings name).length + 1) + 8 * (args.env.length + 1) := by
      rw [length_append, length_vectorBytes, length_vectorBytes]
      omega
    rw [vectorBytes_append, hlen, ← add_assoc, hargv] at hdown
    unfold withLdso pointerWords
    rw [← hdown]
    exact h₆

end Build

/-! ## Parity -/

section Parity

variable (name : CStr) (args : Args) (execfn : CStr) (info : AuxInfo) (m : Mem)

lemma load_withLdso {b n : Nat} (hb : randomAt name args execfn / 16 * 16 ≤ b) :
    (withLdso name args execfn info m).load b n = (withRandom name args execfn m).load b n := by
  obtain ⟨-, hsp, -, hwords, -, hargv, -⟩ := ldsoAt_bounds name args execfn info
  have := length_flatMap_le64 (pointerWords name args execfn info)
  have := length_pointerWords name args execfn info
  have := length_le64 (args.strings name).length
  unfold withLdso
  rw [load_store_apart (.inr (by omega)), load_store_apart (.inr (by omega))]

lemma load_withExecfn {b n : Nat} (hb : argStringsAt name args ≤ b) (m : Mem) :
    (withExecfn (argStringsAt name args) execfn m).load b n = m.load b n := by
  have := length_stackString execfn
  have := stringsAt_bounds name args
  have := userLayout.2.1
  unfold withExecfn execfnAt
  split_ifs
  · rfl
  · exact load_store_apart (.inr (by omega))

/-- The strings, the random bytes and the path are where the vectors say. -/
theorem withLdso_strings : let m' := withLdso name args execfn info m
    Points m' (stringPtrs (argStringsAt name args) (args.strings name)) (args.strings name) ∧
      Points m' (stringPtrs (envStringsAt args) args.env) args.env ∧
      m'.load (randomAt name args execfn) 16 = replicate 16 0x41 ∧
      (execfn.1 ≠ [] → Points m' [execfnUserAt name args execfn] [execfn]) := by
  intro m'
  obtain ⟨hb1, hb2, hb3⟩ := stringsAt_bounds name args
  obtain ⟨-, -, -, -, -, -, hrandom⟩ := ldsoAt_bounds name args execfn info
  have := execfnAt_bounds (argStringsAt name args) execfn
  have hup : ∀ {b n}, randomAt name args execfn + 16 ≤ b → m'.load b n =
      (withExecfn (argStringsAt name args) execfn (withStrings name args m)).load b n :=
    fun hb => by
      rw [load_withLdso name args execfn info m (by omega), withRandom,
        load_store_apart (.inr (by rw [length_replicate]; omega))]
  refine ⟨points_of_load (by omega) ?_, points_of_load (by omega) ?_, ?_, fun hne => ?_⟩
  · rw [hup (by omega), load_withExecfn name args execfn le_rfl, withStrings, load_store]
  · rw [hup (by omega), load_withExecfn name args execfn (by omega), withStrings,
      load_store_apart (.inr (by omega)), load_store]
  · rw [load_withLdso name args execfn info m (by omega)]
    exact load_store _ _ (replicate 16 0x41)
  · rw [execfnUserAt, if_neg hne]
    refine .cons ⟨by omega, ?_⟩ .nil
    rw [← stackString_eq, hup (by omega), withExecfn, if_neg hne, load_store]

lemma pointerWords_lt {w : Nat} (hw : w ∈ pointerWords name args execfn info) : w < 2 ^ 64 := by
  obtain ⟨hb1, hb2, hb3⟩ := stringsAt_bounds name args
  have := userLayout.2.1
  simp only [pointerWords, mem_append, mem_cons] at hw
  rcases hw with hw | rfl | hw | rfl | hw
  · exact stringPtrs_lt (by omega) hw
  · decide
  · exact stringPtrs_lt (by omega) hw
  · decide
  · exact auxv_lt info _ _ hw

/-- The words of the vectors stay as they were put, apart from the first one. -/
theorem withLdso_word {i v : Nat} (hi : 0 < i)
    (hv : (pointerWords name args execfn info)[i]? = some v) :
    (withLdso name args execfn info m).read
      ((ldsoAt name args execfn info).argv + 8 * i) 8 = v := by
  obtain ⟨-, hsp, -⟩ := ldsoAt_bounds name args execfn info
  have hword := getElem?_words (a := (ldsoAt name args execfn info).argv)
    (m := (withRandom name args execfn m).store (ldsoAt name args execfn info).argv
      ((pointerWords name args execfn info).flatMap le64)) (List.getElem?_eq_some_iff.mp hv).1
  rw [words_store fun w => pointerWords_lt name args execfn info, hv] at hword
  refine (read_congr fun x h1 _ => store_of_notMem (.inr ?_)).trans
    (Option.some.inj hword).symm
  rw [length_le64]
  omega

lemma ldsoStack_of_even (heven : Even ((args.strings name).length + args.env.length)) :
    LdsoStack (withLdso name args execfn info m) (ldsoAt name args execfn info).sp
      (args.strings name) args.env execfn info
      (stringPtrs (argStringsAt name args) (args.strings name))
      (stringPtrs (envStringsAt args) args.env) (randomAt name args execfn)
      (execfnUserAt name args execfn) := by
  obtain ⟨hlow, hsp, -⟩ := ldsoAt_bounds name args execfn info
  obtain ⟨h1, h2, h3, h4⟩ := withLdso_strings name args execfn info m
  have := length_strings name args
  refine ⟨?_, h1, h2, h3, h4⟩
  -- The word for `argc` is a new one, below the vectors.
  rw [if_pos heven] at hsp
  have hargv : (ldsoAt name args execfn info).argv =
      (ldsoAt name args execfn info).sp + (le64 (args.strings name).length).length := by
    have := userLayout.1
    rw [length_le64]
    omega
  have hwords := words_store (m := withRandom name args execfn m)
    (a := (ldsoAt name args execfn info).sp)
    (l := (args.strings name).length :: pointerWords name args execfn info) fun w hw => by
      rcases mem_cons.mp hw with rfl | hw
      · omega
      · exact pointerWords_lt name args execfn info hw
  rw [flatMap_cons, ← store_append_down, ← hargv, length_cons,
    length_pointerWords] at hwords
  exact hwords

lemma not_ldsoStack_of_odd (hodd : ¬ Even ((args.strings name).length + args.env.length))
    (argPtrs envPtrs : List Nat) (randomSlot execfnUser : Nat) :
    ¬ LdsoStack (withLdso name args execfn info m) (ldsoAt name args execfn info).sp
      (args.strings name) args.env execfn info argPtrs envPtrs randomSlot execfnUser := by
  intro h
  obtain ⟨-, hsp, -⟩ := ldsoAt_bounds name args execfn info
  rw [if_neg hodd, Nat.sub_zero] at hsp
  have hargs := length_strings name args
  have : argPtrs.length = (args.strings name).length := h.argStrings.length_eq
  -- The word behind the last argument pointer should be one, and is the zero behind the vector.
  have hshould : some ((withLdso name args execfn info m).read
      ((ldsoAt name args execfn info).sp + 8 * (args.strings name).length) 8) =
      argPtrs[(args.strings name).length - 1]? := by
    rw [← getElem?_words (n := (args.strings name).length + args.env.length + 3 +
      (auxv info randomSlot execfnUser).length) (by omega), h.words, getElem?_cons,
      if_neg (by omega), getElem?_append_left (by omega)]
  have hzero : (pointerWords name args execfn info)[(args.strings name).length]? = some 0 := by
    rw [pointerWords, getElem?_append_right (by rw [length_stringPtrs]), length_stringPtrs,
      Nat.sub_self, getElem?_cons_zero]
  rw [hsp, withLdso_word name args execfn info m hargs.1 hzero] at hshould
  exact h.argStrings.ne_zero (mem_of_getElem? hshould.symm) rfl

end Parity

/-- The dynamic linker gets the stack it is promised if the numbers of arguments and environment
strings add up to an even number, and only then. -/
theorem ldso_stack_iff {r : Nat} {s s' : Vmm.State} (h : Private r s) (name : CStr) (args : Args)
    (execfn : CStr) (info : AuxInfo) {l : List Event} {sp : Nat}
    (hok : buildInitialStackLdso r name args execfn info s = (l, .ok sp, s')) :
    (∃ argPtrs envPtrs randomSlot execfnUser, LdsoStack (userView r s') sp (args.strings name)
        args.env execfn info argPtrs envPtrs randomSlot execfnUser) ↔
      Even ((args.strings name).length + args.env.length) := by
  have hgives : Traced.Gives (buildInitialStackLdso r name args execfn info) s (fun _ => False)
      (fun _ => True) _ :=
    gives_buildInitialStackLdso name args execfn info (Private.shows h) fun _ => trivial
  obtain ⟨rfl, h'⟩ := hgives.of_eq hok fun _ _ => id
  rw [h'.view]
  constructor
  · rintro ⟨argPtrs, envPtrs, randomSlot, execfnUser, hstack⟩
    by_contra hodd
    exact not_ldsoStack_of_odd name args execfn info (userView r s) hodd _ _ _ _ hstack
  · intro heven
    exact ⟨_, _, _, _, ldsoStack_of_even name args execfn info (userView r s) heven⟩

lemma StackMapped.builds {r : Nat} {s : Vmm.State} (h : Private r s) (hs : StackMapped r s)
    (name : CStr) (args : Args) (execfn : CStr) (info : AuxInfo) :
    ∃ l s', buildInitialStackLdso r name args execfn info s =
      (l, .ok (ldsoAt name args execfn info).sp, s') ∧
      userView r s' = withLdso name args execfn info (userView r s) := by
  have hgives : Traced.Gives (buildInitialStackLdso r name args execfn info) s (fun _ => False)
      (fun _ => False) _ :=
    gives_buildInitialStackLdso name args execfn info (Private.shows h) fun hg =>
      no_gap h hs (ldsoAt_bounds name args execfn info).1 hg
  obtain ⟨l, sp, s', hrun, rfl, h'⟩ := hgives.returns (fun _ _ => id) fun _ => id
  exact ⟨l, s', hrun, h'.view⟩

/-- The headers of a program with one segment at 0x400000, and an interpreter behind it. -/
def sampleAux : AuxInfo := ⟨0x400040, 56, 1, 0x400078, 0x601000⟩

theorem ldso_stack_iff_sample : ∃ s l sp s', Private (2 ^ 20) s ∧
    buildInitialStackLdso (2 ^ 20) appName sampleArgs appName sampleAux s = (l, .ok sp, s') ∧
    ∃ argPtrs envPtrs randomSlot execfnUser, LdsoStack (userView (2 ^ 20) s') sp
      (sampleArgs.strings appName) sampleArgs.env appName sampleAux argPtrs envPtrs randomSlot
      execfnUser := by
  obtain ⟨s, h, hs⟩ := exists_stackMapped
  obtain ⟨l, s', hrun, -⟩ := StackMapped.builds h hs appName sampleArgs appName sampleAux
  exact ⟨s, l, _, s', h, hrun,
    (ldso_stack_iff h appName sampleArgs appName sampleAux hrun).mpr (by decide)⟩

def loneArg : Args := ⟨1, some [some appName], none⟩

/-- With one argument and no environment, the linker finds a zero where the argument should be. -/
theorem lone_argument_lost : ∃ s l sp s', Private (2 ^ 20) s ∧
    buildInitialStackLdso (2 ^ 20) appName loneArg appName sampleAux s = (l, .ok sp, s') ∧
    ¬ ∃ argPtrs envPtrs randomSlot execfnUser, LdsoStack (userView (2 ^ 20) s') sp
      (loneArg.strings appName) loneArg.env appName sampleAux argPtrs envPtrs randomSlot
      execfnUser := by
  obtain ⟨s, h, hs⟩ := exists_stackMapped
  obtain ⟨l, s', hrun, hview⟩ := StackMapped.builds h hs appName loneArg appName sampleAux
  refine ⟨s, l, _, s', h, hrun, ?_⟩
  rintro ⟨argPtrs, envPtrs, randomSlot, execfnUser, hstack⟩
  rw [hview] at hstack
  exact not_ldsoStack_of_odd appName loneArg appName sampleAux (userView (2 ^ 20) s) (by decide)
    _ _ _ _ hstack

end YamKernel.Elf

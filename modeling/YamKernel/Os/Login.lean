import Mathlib.Data.List.GetD
import YamKernel.Lib.Machine
import YamKernel.Lib.Word

/-!
# The login screen

`wl_compositor_process_input`, one `EV_KEY` event at a time; other events change nothing here. An
event brings what depends on the rest of the compositor: what is under the cursor, and the answer
of `authd`. The first-boot screen may do anything (`setup`): a run that starts at the login screen
does not get there. `login_gate_iff` says which runs reach the desktop by a password only.
-/

namespace YamKernel.Login

open Lib

inductive CompositorState where
  | setup | login | desktop | vtty
  deriving DecidableEq

structure UserAccount where
  username : List Char
  password : List Char
  active : Bool

structure Screen where
  state : CompositorState
  users : List UserAccount
  loginUser : List Char
  loginPass : List Char
  loginFocusPass : Bool
  shiftHeld : Bool
  ctrlHeld : Bool
  altHeld : Bool

structure Event where
  code : Nat
  pressed : Bool
  /-- The field under the cursor, `true` for the password. -/
  field : Option Bool
  /-- The cursor is on the button that locks the desktop. -/
  lock : Bool
  authd : Bool

def wlPasswordHash (password : List Char) : List Char :=
  "fnv1a:".toList ++ Nat.toDigits 16 (password.foldl
    (fun h c => u64 ((h ^^^ c.toNat) * 1099511628211)) 1469598103934665603)

def scAscii (shift : Bool) (sc : Nat) : Char :=
  (if shift then
    "\x00\x1b!@#$%^&*()_+\x08\tQWERTYUIOP\x7b\x7d\n\x00ASDFGHJKL:\"~\x00|ZXCVBNM<>?\x00*\x00 "
  else "\x00\x1b1234567890-=\x08\tqwertyuiop[]\n\x00asdfghjkl;'`\x00\\zxcvbnm,./\x00*\x00 "
  ).toList.getD sc '\x00'

def validateAccount (users : List UserAccount) (username password : List Char) : Bool :=
  users.any fun u => u.active ∧ u.username = username ∧
    (u.password = wlPasswordHash password ∨ u.password = password)

def Screen.edit (c : Screen) (f : List Char → List Char) : Screen :=
  if c.loginFocusPass then { c with loginPass := f c.loginPass }
  else { c with loginUser := f c.loginUser }

def loginKey (c : Screen) (e : Event) : Screen :=
  let ch := scAscii c.shiftHeld e.code
  if ch = '\n' then
    if validateAccount c.users c.loginUser c.loginPass ∨ c.users = [] ∧ e.authd then
      { c with state := .desktop }
    else { c with loginPass := [] }
  else if ch = '\x08' then c.edit List.dropLast
  else if ch = '\t' then { c with loginFocusPass := !c.loginFocusPass }
  else if 32 ≤ ch.toNat ∧ ch.toNat ≤ 126 then
    c.edit fun s => if s.length < 31 then s ++ [ch] else s
  else c

def Screen.hold (c : Screen) (e : Event) : Screen :=
  { c with shiftHeld := if e.code = 0x2A ∨ e.code = 0x36 then e.pressed else c.shiftHeld
           ctrlHeld := if e.code = 0x1D then e.pressed else c.ctrlHeld
           altHeld := if e.code = 0x38 ∨ e.code = 0xB8 then e.pressed else c.altHeld }

def processKey (setup : Screen → Event → Screen) (c : Screen) (e : Event) : Screen :=
  let c := c.hold e
  if e.pressed ∧ (e.code = 0x3F ∨ e.code = 0x58 ∨ e.code = 0x3B) then c
  else if e.pressed ∧ e.code = 0x15 ∧ c.shiftHeld ∧ c.ctrlHeld then setup c e
  else if c.altHeld ∧ e.pressed ∧ 0x3B ≤ e.code ∧ e.code ≤ 0x40 then { c with state := .vtty }
  else if c.altHeld ∧ e.pressed ∧ e.code = 0x41 then { c with state := .desktop }
  else match c.state with
    | .vtty => c
    | .setup => setup c e
    | .login =>
      if ¬ e.pressed then c
      else if e.code < 0x110 then loginKey c e
      else { c with loginFocusPass := e.field.getD c.loginFocusPass }
    | .desktop =>
      -- The button "Switch user" of the power menu.
      if e.code = 0x110 ∧ e.pressed ∧ e.lock then
        { c with state := .login, loginPass := [], loginFocusPass := false }
      else c

def step (setup : Screen → Event → Screen) : Machine Screen Event Unit := fun c e =>
  ((), processKey setup c e)

abbrev Typed (c : Screen) (stored : List Char) : Prop :=
  ∃ u ∈ c.users, u.active = true ∧ u.username = c.loginUser ∧ u.password = stored

/-- The desktop appears only at an Enter press with the password of an active account. -/
def GateLaw (setup : Screen → Event → Screen) (c : Screen) (e : Event) : Prop :=
  c.state ≠ .desktop → (processKey setup c e).state = .desktop →
    c.state = .login ∧ e.pressed = true ∧ e.code = 0x1C ∧ Typed c (wlPasswordHash c.loginPass)

/-- Ctrl+Shift+Y -/
abbrev Chord (c : Screen) (e : Event) : Prop :=
  e.pressed = true ∧ e.code = 0x15 ∧ c.shiftHeld = true ∧ c.ctrlHeld = true

/-- Alt+F7, or Enter after the stored text of the password was typed in place of the password. -/
abbrev Bypasses (c : Screen) (e : Event) : Prop :=
  e.pressed = true ∧ (c.state ≠ .desktop ∧ c.altHeld = true ∧ e.code = 0x41 ∨
    c.state = .login ∧ e.code = 0x1C ∧ Typed c c.loginPass ∧ ¬ Typed c (wlPasswordHash c.loginPass))

lemma scAscii_enter {b : Bool} {sc : Nat} : scAscii b sc = '\n' ↔ sc = 0x1C := by
  by_cases h : sc < 58
  · revert b sc
    decide
  · have hnone : scAscii b sc = '\x00' := by
      cases b <;> exact List.getD_eq_default _ _ (Nat.le_of_not_lt h)
    simp only [hnone, Char.reduceEq, false_iff]
    omega

lemma validateAccount_iff (c : Screen) : validateAccount c.users c.loginUser c.loginPass = true ↔
    Typed c (wlPasswordHash c.loginPass) ∨ Typed c c.loginPass := by
  simp only [validateAccount]
  grind

variable (setup : Screen → Event → Screen) {c : Screen} {e : Event}

lemma loginKey_spec (hs : c.state = .login) (hu : c.users ≠ []) :
    (loginKey c e).users = c.users ∧ (loginKey c e).state ≠ .setup ∧
    ((loginKey c e).state = .desktop ↔ e.code = 0x1C ∧
      (Typed c (wlPasswordHash c.loginPass) ∨ Typed c c.loginPass)) := by
  rw [← validateAccount_iff]
  unfold loginKey
  simp only [scAscii_enter]
  grind [Screen.edit]

/-- The ways to the desktop, while the first-boot screen is not shown. -/
lemma processKey_spec (hs : c.state ≠ .setup) (hu : c.users ≠ []) (hc : ¬ Chord c e) :
    (processKey setup c e).users = c.users ∧ (processKey setup c e).state ≠ .setup ∧
    (c.state ≠ .desktop → ((processKey setup c e).state = .desktop ↔ e.pressed = true ∧
      (c.altHeld = true ∧ e.code = 0x41 ∨ c.state = .login ∧ e.code = 0x1C ∧
        (Typed c (wlPasswordHash c.loginPass) ∨ Typed c c.loginPass)))) := by
  have : ¬ Chord (c.hold e) e := by
    grind [Screen.hold]
  have : e.code = 0x41 → (c.hold e).altHeld = c.altHeld := by
    grind [Screen.hold]
  have hstate : (c.hold e).state = c.state := rfl
  have : (c.hold e).users = c.users := rfl
  have : c.state = .login → (loginKey (c.hold e) e).users = c.users ∧ _ ∧
      (_ ↔ _ ∧ (Typed c (wlPasswordHash c.loginPass) ∨ Typed c c.loginPass)) :=
    fun hl => loginKey_spec hl hu
  unfold processKey
  simp only
  rw [hstate]
  cases h : c.state with
  | setup => exact absurd h hs
  | login =>
    split_ifs <;> grind
  | desktop | vtty =>
    dsimp only
    split_ifs <;> grind

lemma gateLaw_iff (hs : c.state ≠ .setup) (hu : c.users ≠ []) (hc : ¬ Chord c e) :
    GateLaw setup c e ↔ ¬ Bypasses c e := by
  have := (processKey_spec setup hs hu hc).2
  unfold GateLaw Bypasses
  grind

/-- With an account and without the chord, the desktop is reached by a password only, exactly if
nobody presses Alt+F7 or logs in with a stored text. -/
theorem login_gate_iff (setup : Screen → Event → Screen) (c : Screen) (es : List Event)
    (hs : c.state ≠ .setup) (hu : c.users ≠ [])
    (h : (step setup).Along (fun c e => ¬ Chord c e) c es) :
    (step setup).Along (GateLaw setup) c es ↔
      (step setup).Along (fun c e => ¬ Bypasses c e) c es := by
  induction es generalizing c with
  | nil => rfl
  | cons e es ih =>
    obtain ⟨husers, hstate, -⟩ := processKey_spec setup hs hu h.1
    apply and_congr (gateLaw_iff setup hs hu h.1)
    exact ih _ hstate (by rwa [step, husers]) h.2

def rootScreen (typed : List Char) : Screen :=
  ⟨.login, [⟨['r'], wlPasswordHash ['p'], true⟩], ['r'], typed, true, false, false, false⟩

def press (code : Nat) : Event :=
  ⟨code, true, none, false, false⟩

/-- The password and Enter. -/
theorem login_gate_iff_password :
    (step fun c _ => c).Along (GateLaw fun c _ => c) (rootScreen []) [press 0x19, press 0x1C] ∧
    ((step fun c _ => c).run (rootScreen []) [press 0x19, press 0x1C]).state = .desktop :=
  ⟨(login_gate_iff _ _ _ (by decide) (by decide) (by decide)).mpr (by decide +kernel),
    by decide +kernel⟩

/-- Alt+F7, and Enter with the stored text. -/
theorem desktop_unlocked :
    ¬ (step fun c _ => c).Along (GateLaw fun c _ => c) (rootScreen []) [press 0x38, press 0x41] ∧
    ¬ (step fun c _ => c).Along (GateLaw fun c _ => c) (rootScreen (wlPasswordHash ['p']))
      [press 0x1C] := by
  constructor
  · intro h
    exact absurd (h.2.1 (by decide) (by decide)).2.2.1 (by decide)
  · intro h
    exact absurd (h.1 (by decide) (by decide +kernel)).2.2.2 (by decide +kernel)

end YamKernel.Login

import CreeperKernel.Transitions
import Mathlib.Logic.Function.Basic
import Mathlib.Tactic.SplitIfs

namespace CreeperKernel.Modifiers

open Transitions

/-- The bits of `kbd_mod_keys`. -/
inductive ModFlag where
  | altPressed
  | altgrPressed
  | ctrlPressed
  | shiftPressed
  | capslockOn
  deriving DecidableEq

def ModFlag.mask : ModFlag → BitVec 8
  | .altPressed => 0x1
  | .altgrPressed => 0x2
  | .ctrlPressed => 0x4
  | .shiftPressed => 0x08
  | .capslockOn => 0x10

def setKeyboardModFlag (keys : BitVec 8) (flag : ModFlag) (state : Bool) : BitVec 8 :=
  if state then keys ||| flag.mask else keys &&& ~~~flag.mask

/-- `GET_KEYBOARD_MOD_FLAG`, as a condition. -/
def getKeyboardModFlag (keys : BitVec 8) (flag : ModFlag) : Bool := keys &&& flag.mask ≠ 0

/-- `kbd_mod_keys` and `extended`. -/
structure Driver where
  kbdModKeys : BitVec 8
  extended : Bool

def Driver.set (s : Driver) (flag : ModFlag) (state : Bool) : Driver :=
  { s with kbdModKeys := setKeyboardModFlag s.kbdModKeys flag state }

/-- The characters of the keys on the right, by `keycode`. -/
def extendedChar (keycode : BitVec 8) : BitVec 8 :=
  if keycode = 0x48 then 0x80 else if keycode = 0x50 then 0x81 else if keycode = 0x4B then 0x82
  else if keycode = 0x4D then 0x83 else if keycode = 0x47 then 0x84 else 0

/-- The end of `get_input_char_non_blocking`: the character of a key that has one. `keymap` is the table of the
current language; its first index is `MOD_Normal`, `MOD_Shift` or `MOD_AltGr`. -/
def baseChar (keymap : Nat → BitVec 8 → BitVec 8) (keys : BitVec 8) (keycode : BitVec 8) : BitVec 8 :=
  let mod := if getKeyboardModFlag keys .altgrPressed then 2
    else if getKeyboardModFlag keys .shiftPressed ^^ getKeyboardModFlag keys .capslockOn then 1 else 0
  let c := keymap mod keycode
  if getKeyboardModFlag keys .ctrlPressed ∧ (65 ≤ c ∧ c ≤ 90 ∨ 97 ≤ c ∧ c ≤ 122) ∧ ¬ getKeyboardModFlag keys .altgrPressed
  then c - 65 + 159 else c

/-- `get_input_char_non_blocking`; `none` when the status register says that there is no data. -/
def getInputCharNonBlocking (keymap : Nat → BitVec 8 → BitVec 8) (s : Driver) : Option (BitVec 8) → BitVec 8 × Driver
  | none => (0, { s with extended := false })
  | some scancode =>
    if scancode = 0xE0 then (0, { s with extended := true })
    else
      let released : Bool := scancode &&& 0x80 ≠ 0
      let keycode := scancode &&& 0x7F
      if s.extended then
        let s := if keycode = 0x1D then s.set .ctrlPressed (!released)
          else if keycode = 0x38 then s.set .altgrPressed (!released) else s
        (if released then 0 else extendedChar keycode, { s with extended := false })
      else if keycode = 0x2A ∨ keycode = 0x36 then (0, s.set .shiftPressed (!released))
      else if keycode = 0x3A then
        (0, if released then s else s.set .capslockOn (!getKeyboardModFlag s.kbdModKeys .capslockOn))
      else if keycode = 0x1D then (0, s.set .ctrlPressed (!released))
      else if keycode = 0x38 then (0, s.set .altPressed (!released))
      else (if released then 0 else baseChar keymap s.kbdModKeys keycode, s)

section Keyboard

/-- A key with its code of set 1. No key has the code of the escape byte without its top bit. -/
structure Key where
  extended : Bool
  code : BitVec 8
  inside : code < 0x80 ∧ code ≠ 0x60
  deriving DecidableEq

def leftShift : Key := ⟨false, 0x2A, by decide⟩
def rightShift : Key := ⟨false, 0x36, by decide⟩
def leftCtrl : Key := ⟨false, 0x1D, by decide⟩
def rightCtrl : Key := ⟨true, 0x1D, by decide⟩
def alt : Key := ⟨false, 0x38, by decide⟩
def altGr : Key := ⟨true, 0x38, by decide⟩
def capsLock : Key := ⟨false, 0x3A, by decide⟩

structure KeyEvent where
  key : Key
  press : Bool

/-- The bytes that the keyboard sends. -/
def KeyEvent.scancodes (e : KeyEvent) : List (BitVec 8) :=
  (if e.key.extended then [0xE0] else []) ++ [if e.press then e.key.code else e.key.code ||| 0x80]

/-- The keys that are down, how often CapsLock was pressed, and the driver. -/
structure Board where
  down : Key → Bool
  capsPresses : Nat
  driver : Driver

def boot : Board := ⟨fun _ => false, 0, ⟨0, false⟩⟩

/-- The driver reads the bytes of an event. -/
def Driver.readAll (keymap : Nat → BitVec 8 → BitVec 8) (s : Driver) (bytes : List (BitVec 8)) : Driver :=
  bytes.foldl (fun s byte => (getInputCharNonBlocking keymap s (some byte)).2) s

/-- A key is pressed while it is up or released while it is down, and the driver reads its bytes. -/
structure KeyStep (keymap : Nat → BitVec 8 → BitVec 8) (s : Board) (e : KeyEvent) (s' : Board) : Prop where
  turn : s.down e.key = !e.press
  down : s'.down = Function.update s.down e.key e.press
  capsPresses : s'.capsPresses = if e.key = capsLock ∧ e.press = true then s.capsPresses + 1 else s.capsPresses
  driver : s'.driver = s.driver.readAll keymap e.scancodes

/-- The keys behind a flag that is set while a key is down. -/
def keysOf : ModFlag → List Key
  | .altPressed => [alt]
  | .altgrPressed => [altGr]
  | .ctrlPressed => [leftCtrl, rightCtrl]
  | .shiftPressed => [leftShift, rightShift]
  | .capslockOn => []

/-- The flags agree with the keys. -/
structure Tracks (s : Board) : Prop where
  complete : s.driver.extended = false
  held : ∀ flag ≠ ModFlag.capslockOn, getKeyboardModFlag s.driver.kbdModKeys flag = (keysOf flag).any s.down
  caps : getKeyboardModFlag s.driver.kbdModKeys .capslockOn = decide (s.capsPresses % 2 = 1)

/-- No key is released while the other key of its flag is down. -/
def Careful (s : Board) (e : KeyEvent) : Prop :=
  e.press = true ∨ ∀ flag, e.key ∈ keysOf flag → ∀ k ∈ keysOf flag, k ≠ e.key → s.down k = false

def CarefulStep (keymap : Nat → BitVec 8 → BitVec 8) (s : Board) (e : KeyEvent) (s' : Board) : Prop :=
  KeyStep keymap s e s' ∧ Careful s e

end Keyboard

theorem getKeyboardModFlag_set (keys : BitVec 8) (flag other : ModFlag) (state : Bool) :
    getKeyboardModFlag (setKeyboardModFlag keys flag state) other =
      if flag = other then state else getKeyboardModFlag keys other := by
  revert keys
  cases flag <;> cases other <;> cases state <;> decide +kernel

theorem scancode_split : ∀ code : BitVec 8, code < 0x80 ∧ code ≠ 0x60 →
    (code ≠ 0xE0 ∧ code &&& 0x80 = 0 ∧ code &&& 0x7F = code) ∧
      code ||| 0x80 ≠ 0xE0 ∧ (code ||| 0x80) &&& 0x80 ≠ 0 ∧ (code ||| 0x80) &&& 0x7F = code := by
  decide +kernel

/-- What an event does to `kbd_mod_keys`. -/
def eventKeys (keys : BitVec 8) (e : KeyEvent) : BitVec 8 :=
  if e.key.extended then
    if e.key.code = 0x1D then setKeyboardModFlag keys .ctrlPressed e.press
    else if e.key.code = 0x38 then setKeyboardModFlag keys .altgrPressed e.press else keys
  else if e.key.code = 0x2A ∨ e.key.code = 0x36 then setKeyboardModFlag keys .shiftPressed e.press
  else if e.key.code = 0x3A then
    if e.press then setKeyboardModFlag keys .capslockOn (!getKeyboardModFlag keys .capslockOn) else keys
  else if e.key.code = 0x1D then setKeyboardModFlag keys .ctrlPressed e.press
  else if e.key.code = 0x38 then setKeyboardModFlag keys .altPressed e.press
  else keys

section Events

variable {keymap : Nat → BitVec 8 → BitVec 8} {s s' : Board} {e : KeyEvent}

theorem readAll_scancodes (keymap : Nat → BitVec 8 → BitVec 8) (d : Driver) (complete : d.extended = false) (e : KeyEvent) :
    d.readAll keymap e.scancodes = ⟨eventKeys d.kbdModKeys e, false⟩ := by
  have ⟨⟨extended, code, inside⟩, press⟩ := e
  have ⟨keys, waiting⟩ := d
  have ⟨⟨plain, up, pressed⟩, plain', up', released⟩ := scancode_split code inside
  dsimp only at complete
  subst complete
  cases extended <;> cases press <;>
    simp only [KeyEvent.scancodes, Driver.readAll, List.foldl_cons, List.foldl_nil, List.cons_append, List.nil_append,
      getInputCharNonBlocking, Driver.set, eventKeys, plain, up, pressed, plain', up', released, if_true, if_false,
      Bool.false_eq_true, decide_true, decide_false, ne_eq, not_true_eq_false, not_false_eq_true, Bool.not_true, Bool.not_false] <;>
    split_ifs <;> rfl

theorem held_eventKeys (keys : BitVec 8) (e : KeyEvent) {flag : ModFlag} (held : flag ≠ .capslockOn) :
    getKeyboardModFlag (eventKeys keys e) flag = if e.key ∈ keysOf flag then e.press else getKeyboardModFlag keys flag := by
  have ⟨⟨extended, code, inside⟩, press⟩ := e
  unfold eventKeys
  cases extended <;> cases flag <;>
    simp only [keysOf, leftShift, rightShift, leftCtrl, rightCtrl, alt, altGr, List.mem_cons, List.not_mem_nil, or_false,
      Key.mk.injEq, true_and, false_and, if_true, if_false, Bool.false_eq_true, Bool.true_eq_false] <;>
    split_ifs <;> simp_all [getKeyboardModFlag_set]

theorem caps_eventKeys (keys : BitVec 8) (e : KeyEvent) : getKeyboardModFlag (eventKeys keys e) .capslockOn =
    if e.key = capsLock ∧ e.press = true then !getKeyboardModFlag keys .capslockOn
    else getKeyboardModFlag keys .capslockOn := by
  have ⟨⟨extended, code, inside⟩, press⟩ := e
  unfold eventKeys
  cases extended <;> simp only [capsLock, Key.mk.injEq, true_and, false_and, if_true, if_false, Bool.false_eq_true, Bool.true_eq_false] <;>
    split_ifs <;> simp_all [getKeyboardModFlag_set]

/-- A flag follows its keys through an event, unless one is released while another is down. -/
theorem any_update_iff (keys : List Key) (down : Key → Bool) (k : Key) (press : Bool) :
    (if k ∈ keys then press else keys.any down) = keys.any (Function.update down k press) ↔
      (k ∈ keys → press = true ∨ ∀ other ∈ keys, other ≠ k → down other = false) := by
  by_cases member : k ∈ keys
  · rw [if_pos member]
    cases press with
    | true =>
      refine iff_of_true (Eq.symm ?_) fun _ => .inl rfl
      exact List.any_eq_true.mpr ⟨k, member, Function.update_self ..⟩
    | false =>
      rw [eq_comm, List.any_eq_false]
      constructor
      · intro none_ _
        refine .inr fun other listed apart => ?_
        have up := none_ other listed
        rw [Function.update_of_ne apart] at up
        exact Bool.eq_false_iff.mpr up
      · intro up other listed
        by_cases same : other = k
        · rw [same, Function.update_self]
          exact Bool.false_ne_true
        · rw [Function.update_of_ne same, (up member).resolve_left Bool.false_ne_true other listed same]
          exact Bool.false_ne_true
  · rw [if_neg member]
    refine iff_of_true ?_ fun listed => absurd listed member
    rw [Bool.eq_iff_iff, List.any_eq_true, List.any_eq_true]
    refine exists_congr fun other => and_congr_right fun listed => ?_
    have apart : other ≠ k := fun same => member (same ▸ listed)
    rw [Function.update_of_ne apart]

theorem KeyStep.tracks_iff (step : KeyStep keymap s e s') (tracks : Tracks s) : Tracks s' ↔ Careful s e := by
  have after : s'.driver = ⟨eventKeys s.driver.kbdModKeys e, false⟩ :=
    step.driver.trans (readAll_scancodes keymap s.driver tracks.complete e)
  have flags : ∀ flag ≠ ModFlag.capslockOn, (getKeyboardModFlag s'.driver.kbdModKeys flag = (keysOf flag).any s'.down ↔
      (e.key ∈ keysOf flag → e.press = true ∨ ∀ other ∈ keysOf flag, other ≠ e.key → s.down other = false)) := by
    intro flag held
    rw [after, held_eventKeys _ e held, tracks.held flag held, step.down]
    exact any_update_iff (keysOf flag) s.down e.key e.press
  constructor
  · intro tracks'
    by_cases press : e.press = true
    · exact .inl press
    · refine .inr fun flag member => ?_
      have held : flag ≠ .capslockOn := fun same => by
        rw [same] at member
        cases member
      exact ((flags flag held).mp (tracks'.held flag held) member).resolve_left press
  · intro careful
    refine ⟨by rw [after], fun flag held => (flags flag held).mpr fun member => careful.imp id fun up => up flag member, ?_⟩
    rw [after, caps_eventKeys, tracks.caps, step.capsPresses]
    split
    · rw [← decide_not]
      congr 1
      rw [eq_iff_iff]
      omega
    · rfl

theorem boot_tracks : Tracks boot := ⟨rfl, fun flag _ => by cases flag <;> decide, by decide⟩

end Events

/-- As long as no key is released while the other key of its flag is down, the flags agree with the keys after
every event; the first such release ends that. -/
theorem modifiers_track_iff (keymap : Nat → BitVec 8 → BitVec 8) (events : List KeyEvent) (s : Board)
    (run : Run (CarefulStep keymap) boot events s) :
    Tracks s ∧ ∀ e s', KeyStep keymap s e s' → (Tracks s' ↔ Careful s e) := by
  have tracks : Tracks s :=
    run.invariant Tracks (fun _ _ _ held step => (step.1.tracks_iff held).mpr step.2) boot_tracks
  exact ⟨tracks, fun e s' step => step.tracks_iff tracks⟩

/-- The board after an event. -/
def Board.next (keymap : Nat → BitVec 8 → BitVec 8) (s : Board) (e : KeyEvent) : Board where
  down := Function.update s.down e.key e.press
  capsPresses := if e.key = capsLock ∧ e.press = true then s.capsPresses + 1 else s.capsPresses
  driver := s.driver.readAll keymap e.scancodes

theorem Board.next_step {keymap : Nat → BitVec 8 → BitVec 8} {s : Board} {e : KeyEvent} (turn : s.down e.key = !e.press) :
    KeyStep keymap s e (s.next keymap e) :=
  ⟨turn, rfl, rfl, rfl⟩

/-- Both Shift keys go down; the left one may not go up before the right one. -/
theorem modifiers_track_iff_shift : ∃ s, Run (CarefulStep fun _ _ => 0) boot [⟨leftShift, true⟩, ⟨rightShift, true⟩] s ∧
    Tracks s ∧ ¬ Tracks (s.next (fun _ _ => 0) ⟨leftShift, false⟩) := by
  have run : Run (CarefulStep fun _ _ => 0) boot [⟨leftShift, true⟩, ⟨rightShift, true⟩] _ :=
    .cons ⟨Board.next_step rfl, .inl rfl⟩ (.single ⟨Board.next_step (by decide), .inl rfl⟩)
  obtain ⟨tracks, next⟩ := modifiers_track_iff _ _ _ run
  refine ⟨_, run, tracks, fun later => ?_⟩
  rcases (next _ _ (Board.next_step (by decide))).mp later with pressed | apart
  · cases pressed
  · exact absurd (apart .shiftPressed (by decide) rightShift (by decide) (by decide)) (by decide)

/-- Both Shift keys go down, the left one up: the flag is cleared while the right one is down. -/
theorem second_shift_forgotten : ∃ s, Run (KeyStep fun _ _ => 0) boot
    [⟨leftShift, true⟩, ⟨rightShift, true⟩, ⟨leftShift, false⟩] s ∧ s.down rightShift = true ∧
    getKeyboardModFlag s.driver.kbdModKeys .shiftPressed = false := by
  refine ⟨_, .cons (Board.next_step rfl) (.cons (Board.next_step ?_) (.single (Board.next_step ?_))), ?_, ?_⟩ <;> decide

end CreeperKernel.Modifiers

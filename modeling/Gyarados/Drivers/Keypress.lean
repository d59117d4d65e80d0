import Gyarados.Drivers.Keyboard
import Gyarados.Fs.Files

set_option autoImplicit false

/-! # The keyboard handler (`drivers/keyboard.c`)

`handle_keypress` reads a scan code from the keyboard's port, keeps the flags of the modifier keys
and calls the handler of the key. Extended keys send two codes, and the handler reads the second one
at once. -/

namespace Gyarados

/-! ## Handlers of single keys -/

/-- The line buffers as `handle_tab` passes them on, an array of bytes. -/
def Keyboard.bufBytes (k : Keyboard) : Memory :=
  fun a => UInt8.ofNat (k.keyboardBuf (a / 4) / 0x100 ^ (a % 4))

/-- `(char *) keyboard_buf[term]` -/
def Keyboard.currText (k : Keyboard) (term : Term) : List UInt8 :=
  k.bufBytes.stringAt (4 * bufIndex term 0) 0x100000000

namespace Tty

/-- The body of `handle_backspace` and of the loop of `reset_curr_command`. -/
def eraseChar (s : Tty) : Tty :=
  let s := s.delLastChar
  let term := s.kbd.activeTerminal
  let n := s.kbd.numCharsInBuf term - 1
  { s with kbd := (s.kbd.setNumChars term n).setKey term n 0 }

theorem handleBackspace_eq (s : Tty) : s.handleBackspace =
    if s.kbd.numCharsInBuf s.kbd.activeTerminal > 0 then s.eraseChar else s := rfl

/-- The loop of `reset_curr_command`, `n` times. -/
def eraseChars : Nat → Tty → Tty
  | 0, s => s
  | n + 1, s => eraseChars n s.eraseChar

/-- `reset_curr_command` -/
def resetCurrCommand (s : Tty) : Tty := eraseChars (s.kbd.numCharsInBuf s.kbd.activeTerminal) s

/-- `fill_curr_command` -/
def fillCurrCommand : List UInt8 → Tty → Tty
  | [], s => s
  | c :: cs, s => fillCurrCommand cs (s.addCharToBuffer c s.kbd.activeTerminal).2

/-- `handle_tab` -/
def handleTab (I : Image) (s : Tty) : Tty :=
  match I.autocompleteCommand (s.kbd.currText s.kbd.activeTerminal) with
  | none => s
  | some completeName => s.resetCurrCommand.fillCurrCommand completeName

/-- `reset_term` -/
def resetTerm (s : Tty) : Tty :=
  let term := s.kbd.activeTerminal
  { kbd := (s.kbd.zeroKeys term maxCharsInBuf 0).setNumChars term 0
    con := s.con.clearScreen }

end Tty

/-! The handlers show the same terminal as before. -/

namespace Tty

theorem eraseChar_sameTerminals (s : Tty) : s.kbd.SameTerminals s.eraseChar.kbd := ⟨rfl, rfl, rfl⟩

theorem eraseChars_sameTerminals (n : Nat) : ∀ s : Tty, s.kbd.SameTerminals (eraseChars n s).kbd := by
  induction n with
  | zero => exact fun s => .refl s.kbd
  | succ n ih => exact fun s => s.eraseChar_sameTerminals.trans (ih _)

theorem fillCurrCommand_sameTerminals (cs : List UInt8) : ∀ s : Tty,
    s.kbd.SameTerminals (fillCurrCommand cs s).kbd := by
  induction cs with
  | nil => exact fun s => .refl s.kbd
  | cons c cs ih => exact fun s => (addCharToBuffer_sameTerminals c _ s).trans (ih _)

theorem handleTab_sameTerminals (I : Image) (s : Tty) : s.kbd.SameTerminals (s.handleTab I).kbd := by
  unfold handleTab
  cases I.autocompleteCommand (s.kbd.currText s.kbd.activeTerminal) with
  | none => exact .refl _
  | some completeName =>
      exact (eraseChars_sameTerminals _ s).trans (fillCurrCommand_sameTerminals completeName _)

theorem resetTerm_sameTerminals (s : Tty) : s.kbd.SameTerminals s.resetTerm.kbd := by
  have hcount : ∀ {k : Keyboard} (term : Term) (n : Nat), s.kbd.SameTerminals k →
      s.kbd.SameTerminals (k.setNumChars term n) := fun _ _ h => ⟨h.1, h.2, h.3⟩
  exact hcount _ _ (Keyboard.zeroKeys_sameTerminals _ _ _ s.kbd)

end Tty

/-! ## Scan codes -/

/-- `ASCII_PLACEHOLDER` -/
abbrev asciiPlaceholder : UInt8 := 0xfe

/-- The rows of function and lock keys that all tables leave out, and the keypad. -/
def keypadRow : List UInt8 :=
  List.replicate 13 asciiPlaceholder ++ ascii "789-456+1230." ++ [0, 0, 0] ++
    [asciiPlaceholder, asciiPlaceholder]

/-- A table of characters by scan code, from its rows of keys. -/
def keyTable (digits top home bottom : String) : List UInt8 :=
  [0, asciiPlaceholder] ++ ascii digits ++ [asciiPlaceholder, asciiPlaceholder] ++ ascii top ++
    [asciiPlaceholder, asciiPlaceholder] ++ ascii home ++ [asciiPlaceholder] ++ ascii bottom ++
    [asciiPlaceholder] ++ ascii "*" ++ [asciiPlaceholder] ++ ascii " " ++ keypadRow

/-- `code_to_ascii` -/
def codeToAscii : List UInt8 := keyTable "1234567890-=" "qwertyuiop[]" "asdfghjkl;'`" "\\zxcvbnm,./"

/-- `shift_ascii` -/
def shiftAscii : List UInt8 :=
  keyTable "!@#$%^&*()_+" "QWERTYUIOP\x7b\x7d" "ASDFGHJKL:\"~" "|ZXCVBNM<>?"

/-- `caps_ascii` -/
def capsAscii : List UInt8 :=
  keyTable "1234567890-=" "QWERTYUIOP\x7b\x7d" "ASDFGHJKL:\"~" "|ZXCVBNM,./"

/-- The flags of the special keys. -/
structure KeyFlags where
  specialKeyEnabled : Bool
  cntrlLOn : Bool
  cntrlROn : Bool
  capsOn : Bool
  shiftLOn : Bool
  shiftROn : Bool
  altLOn : Bool
  altROn : Bool

/-- The driver with its flags. -/
structure Keypad where
  tty : Tty
  flags : KeyFlags

/-- What `handle_keypress` goes on to with interrupts restored. -/
inductive KeyEffect
  | none
  /-- `halt(-2)` -/
  | halt
  /-- `context_switch(prev_terminal, active_terminal)` -/
  | contextSwitch (currTerm nextTerm : Term)
  deriving DecidableEq, Repr

/-- `kbd_led_handling` waits for the acknowledgement: it drops what it reads up to it. -/
def kbdAck : List UInt8 → Option (List UInt8)
  | [] => none
  | code :: stream => if code = 0xfa then some stream else kbdAck stream

namespace Keypad

/-- `add_char_to_buffer` on the terminal on display. -/
def typeChar (c : UInt8) (s : Keypad) : Keypad :=
  { s with tty := (s.tty.addCharToBuffer c s.tty.kbd.activeTerminal).2 }

/-- The character of a key, with the Caps Lock and shift keys as they are. -/
def charOf (flags : KeyFlags) (keyCode : UInt8) : UInt8 :=
  let shift := flags.shiftLOn || flags.shiftROn
  if flags.capsOn ∧ ¬ shift then capsAscii.getD keyCode.toNat 0
  else if ¬ flags.capsOn ∧ shift then shiftAscii.getD keyCode.toNat 0
  else codeToAscii.getD keyCode.toNat 0

/-- The keys F1, F2 and F3. -/
def functionKey (next : Term) (s : Keypad) : KeyEffect × Keypad :=
  let s := { s with tty := s.tty.showTerminal next }
  (.contextSwitch s.tty.kbd.prevTerminal s.tty.kbd.activeTerminal, s)

/-- A make code of a key without a character. -/
def specialMake (I : Image) (keyCode : UInt8) (stream : List UInt8) (s : Keypad) :
    Option (KeyEffect × List UInt8 × Keypad) :=
  if keyCode = 0x1d then some (.none, stream, { s with flags := { s.flags with cntrlLOn := true } })
  else if keyCode = 0x2a then
    some (.none, stream, { s with flags := { s.flags with shiftLOn := true } })
  else if keyCode = 0x36 then
    some (.none, stream, { s with flags := { s.flags with shiftROn := true } })
  else if keyCode = 0x3a then
    (kbdAck stream).map fun stream =>
      (.none, stream, { s with flags := { s.flags with capsOn := !s.flags.capsOn } })
  else if keyCode = 0x1c then some (.none, stream, { s with tty := s.tty.handleEnter })
  else if keyCode = 0x0e then some (.none, stream, { s with tty := s.tty.handleBackspace })
  else if keyCode = 0x38 then
    some (.none, stream, { s with flags := { s.flags with altLOn := true } })
  else if keyCode = 0x3b then some ((s.functionKey 0).1, stream, (s.functionKey 0).2)
  else if keyCode = 0x3c then some ((s.functionKey 1).1, stream, (s.functionKey 1).2)
  else if keyCode = 0x3d then some ((s.functionKey 2).1, stream, (s.functionKey 2).2)
  else if keyCode = 0x0f then some (.none, stream, { s with tty := s.tty.handleTab I })
  else some (.none, stream, s)

/-- A code below `MAX_MAKE_SCANCODE`. -/
def makeKey (I : Image) (keyCode : UInt8) (stream : List UInt8) (s : Keypad) :
    Option (KeyEffect × List UInt8 × Keypad) :=
  if codeToAscii.getD keyCode.toNat 0 ≠ asciiPlaceholder ∧ s.flags.specialKeyEnabled = false then
    if s.flags.cntrlLOn ∨ s.flags.cntrlROn then
      if keyCode = 0x26 then some (.none, stream, { s with tty := s.tty.resetTerm })
      else if keyCode = 0x2e then some (.halt, stream, s)
      else some (.none, stream, s)
    else some (.none, stream, s.typeChar (charOf s.flags keyCode))
  else if s.flags.specialKeyEnabled then
    -- the flag of an extended key is cleared by the next make code, which gets lost
    some (.none, stream, { s with flags := { s.flags with specialKeyEnabled := false } })
  else specialMake I keyCode stream s

/-- The second code of an extended key. -/
def specialCode (keyCode : UInt8) (flags : KeyFlags) : KeyFlags :=
  if keyCode = 0x1d then { flags with cntrlROn := true }
  else if keyCode = 0x9d then { flags with cntrlROn := false }
  else if keyCode = 0x38 then { flags with altROn := true }
  else if keyCode = 0xb8 then { flags with altROn := false }
  else flags

/-- A break code. -/
def breakCode (keyCode : UInt8) (flags : KeyFlags) : KeyFlags :=
  if keyCode = 0x9d then { flags with cntrlLOn := false }
  else if keyCode = 0xaa then { flags with shiftLOn := false }
  else if keyCode = 0xb6 then { flags with shiftROn := false }
  else if keyCode = 0xb8 then { flags with altLOn := false }
  else flags

/-- `handle_keypress` with the bytes that the port is going to deliver: what it goes on to, the bytes
    left and the state. `none` while it waits for a byte. -/
def handleKeypress (I : Image) (stream : List UInt8) (s : Keypad) :
    Option (KeyEffect × List UInt8 × Keypad) :=
  match stream with
  | [] => none
  | keyCode :: stream =>
      if keyCode < 0x59 then s.makeKey I keyCode stream
      else if keyCode = 0xe0 then
        match stream with
        | [] => none
        | keyCode :: stream =>
            some (.none, stream,
              { s with flags := specialCode keyCode { s.flags with specialKeyEnabled := true } })
      else some (.none, stream, { s with flags := breakCode keyCode s.flags })

/-- `handle_keypress` again and again until the bytes are used up, at most `n` times. -/
def keypresses (I : Image) : Nat → List UInt8 → Keypad → Option Keypad
  | _, [], s => some s
  | 0, _ :: _, _ => none
  | n + 1, stream, s =>
      match s.handleKeypress I stream with
      | some (.none, stream, s) => keypresses I n stream s
      | _ => none

end Keypad

end Gyarados

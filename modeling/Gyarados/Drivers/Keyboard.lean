import Gyarados.Lib.Console

set_option autoImplicit false

/-! # The keyboard driver and its line buffers (`drivers/keyboard.c`)

Each terminal has a line buffer of 1023 characters, a count of the characters typed into it and a
flag that Enter sets and `terminal_read` waits for. Typed keys and program output go through the
same `add_char_to_buffer`. The three rows of `keyboard_buf` follow one another in memory, so the
model keeps the array flat: an index past the end of a row is an element of the next. -/

namespace Gyarados

/-- `MAX_CHARS_IN_BUF` -/
abbrev maxCharsInBuf : Nat := 1023

structure Keyboard where
  /-- The terminal on display. -/
  activeTerminal : Term
  prevTerminal : Term
  secondTermStart : Bool
  thirdTermStart : Bool
  keyboardBuf : Nat → Nat
  numCharsInBuf : Term → Nat
  readBufReady : Term → Bool

/-- The driver and the console it echoes to. -/
structure Tty where
  kbd : Keyboard
  con : Console

/-- The place of `keyboard_buf[term][i]` in the flat array. -/
def bufIndex (term : Term) (i : Nat) : Nat := maxCharsInBuf * term + i

namespace Keyboard

/-- `keyboard_buf[term][i]` -/
def key (k : Keyboard) (term : Term) (i : Nat) : Nat := k.keyboardBuf (bufIndex term i)

/-- `keyboard_buf[term][i] = v` -/
def setKey (k : Keyboard) (term : Term) (i v : Nat) : Keyboard :=
  { k with keyboardBuf := Function.update k.keyboardBuf (bufIndex term i) v }

def setNumChars (k : Keyboard) (term : Term) (n : Nat) : Keyboard :=
  { k with numCharsInBuf := Function.update k.numCharsInBuf term n }

def setReady (k : Keyboard) (term : Term) (b : Bool) : Keyboard :=
  { k with readBufReady := Function.update k.readBufReady term b }

/-- `keyboard_buf[term][i] = 0` for the `n` values of `i` from `i0` on. -/
def zeroKeys (term : Term) : Nat → Nat → Keyboard → Keyboard
  | 0, _, k => k
  | n + 1, i, k => zeroKeys term n (i + 1) (k.setKey term i 0)

end Keyboard

namespace Tty

def newLine (s : Tty) : Tty := { s with con := s.con.newLine s.kbd.activeTerminal }

def putc (c : UInt8) (s : Tty) : Tty := { s with con := s.con.putc s.kbd.activeTerminal c }

def puts (str : List UInt8) (s : Tty) : Tty := { s with con := s.con.puts s.kbd.activeTerminal str }

def delLastChar (s : Tty) : Tty := { s with con := s.con.delLastChar s.kbd.activeTerminal }

/-- `add_char_to_buffer`, with the value it returns. -/
def addCharToBuffer (newChar : UInt8) (term : Term) (s : Tty) : Bool × Tty :=
  if s.kbd.numCharsInBuf term < maxCharsInBuf then
    -- a newline is echoed and not stored
    if newChar = 10 then (true, s.newLine)
    else if newChar = 0 then (true, s)
    else
      let n := s.kbd.numCharsInBuf term
      let kbd := (s.kbd.setKey term n newChar.toNat).setNumChars term (n + 1)
      (true, { s with kbd }.putc newChar)
  else (false, s)

/-- `handle_enter`: the fill runs up to index 1023, one past the end of the row. -/
def handleEnter (s : Tty) : Tty :=
  let term := s.kbd.activeTerminal
  let n := s.kbd.numCharsInBuf term
  { s with kbd := (s.kbd.zeroKeys term (maxCharsInBuf + 1 - n) n).setReady term true }

/-- `handle_backspace` -/
def handleBackspace (s : Tty) : Tty :=
  let term := s.kbd.activeTerminal
  if s.kbd.numCharsInBuf term > 0 then
    let s := s.delLastChar
    let n := s.kbd.numCharsInBuf term - 1
    { s with kbd := (s.kbd.setNumChars term n).setKey term n 0 }
  else s

/-- The copying loop of `terminal_read` over the `n` indices from `i` on. -/
def terminalReadLoop (term : Term) : Nat → Nat → Stores × Keyboard → Stores × Keyboard
  | 0, _, bk => bk
  | n + 1, i, (buf, k) =>
      terminalReadLoop term n (i + 1)
        (buf.put i (UInt8.ofNat (k.key term i)), k.setKey term i 0)

/-- `terminal_read` by a process of terminal `term`, the one that runs: the value returned, what the
    buffer received and the state. `none` while it waits for Enter; and for the largest `nbytes`,
    where `i <= nbytes` never fails. -/
def terminalRead (term : Term) (nbytes : Int) (s : Tty) : Option (Int × Stores × Tty) :=
  if s.kbd.readBufReady term = false ∨ nbytes = 0x7fffffff then none
  else
    let bytesRead := (nbytes + 1).toNat
    let (buf, kbd) := terminalReadLoop term bytesRead 0 (.empty, s.kbd)
    let s := { s with kbd }.newLine
    some (bytesRead, buf, { s with kbd := (s.kbd.setNumChars term 0).setReady term false })

/-- The loop of `terminal_write`, counting the characters printed. -/
def terminalWriteLoop (term : Term) : List UInt8 → Int × Tty → Int × Tty
  | [], ns => ns
  | c :: cs, (n, s) =>
      let (ok, s) := s.addCharToBuffer c term
      terminalWriteLoop term cs (if ok then n + 1 else n, s)

/-- `terminal_write` of the bytes `buf[0..nbytes)` by a process of terminal `term`. -/
def terminalWrite (term : Term) (buf : List UInt8) (s : Tty) : Int × Tty :=
  let (numPrinted, s) := terminalWriteLoop term buf (0, s)
  let active := s.kbd.activeTerminal
  -- the terminal on display, which need not be the one that was written to
  (numPrinted, { s with kbd := (s.kbd.setNumChars active 0).setReady active false })

/-- `update_screen` as the F1 to F3 keys use it, and the two variables they set after it. -/
def showTerminal (next : Term) (s : Tty) : Tty :=
  let active := s.kbd.activeTerminal
  { kbd := { s.kbd with prevTerminal := active, activeTerminal := next }
    con := s.con.updateScreen next active }

end Tty

/-! ## What a read delivers -/

theorem Keyboard.key_setKey (k : Keyboard) (term : Term) (i j v : Nat) :
    (k.setKey term i v).key term j = if j = i then v else k.key term j := by
  simp only [key, setKey, bufIndex, Function.update_apply, Nat.add_left_cancel_iff]

/-- The copying loop delivers the row. -/
theorem Tty.terminalReadLoop_buf (term : Term) (n : Nat) :
    ∀ (i j : Nat) (buf : Stores) (k : Keyboard), (terminalReadLoop term n i (buf, k)).1 j =
      if i ≤ j ∧ j < i + n then some (UInt8.ofNat (k.key term j)) else buf j := by
  induction n with
  | zero => intro i j buf k; rw [terminalReadLoop, if_neg (by omega)]
  | succ n ih =>
      intro i j buf k
      rw [terminalReadLoop, ih]
      by_cases hj : j = i
      · subst hj
        rw [if_neg (by omega), if_pos (by omega), Stores.put_apply, if_pos rfl]
      · rw [Keyboard.key_setKey, if_neg hj, Stores.put_apply, if_neg hj]
        by_cases hin : i ≤ j ∧ j < i + (n + 1)
        · rw [if_pos hin, if_pos (by omega)]
        · rw [if_neg hin, if_neg (by omega)]

/-! ## Terminals and line buffers

Reading, writing and typing work on the line buffers; which terminal is shown and which have been
started does not change. -/

/-- The two states differ in the line buffers at most. -/
structure Keyboard.SameTerminals (k k' : Keyboard) : Prop where
  activeTerminal : k'.activeTerminal = k.activeTerminal
  secondTermStart : k'.secondTermStart = k.secondTermStart
  thirdTermStart : k'.thirdTermStart = k.thirdTermStart

theorem Keyboard.SameTerminals.refl (k : Keyboard) : k.SameTerminals k := ⟨rfl, rfl, rfl⟩

theorem Keyboard.SameTerminals.trans {k k' k'' : Keyboard} (h : k.SameTerminals k')
    (h' : k'.SameTerminals k'') : k.SameTerminals k'' :=
  ⟨h'.1.trans h.1, h'.2.trans h.2, h'.3.trans h.3⟩

theorem Keyboard.setKey_sameTerminals (k : Keyboard) (term : Term) (i v : Nat) :
    k.SameTerminals (k.setKey term i v) := ⟨rfl, rfl, rfl⟩

theorem Keyboard.zeroKeys_sameTerminals (term : Term) (n : Nat) :
    ∀ (i : Nat) (k : Keyboard), k.SameTerminals (zeroKeys term n i k) := by
  induction n with
  | zero => exact fun _ k => .refl k
  | succ n ih => exact fun i k => (k.setKey_sameTerminals term i 0).trans (ih (i + 1) _)

namespace Tty

theorem addCharToBuffer_sameTerminals (c : UInt8) (term : Term) (s : Tty) :
    s.kbd.SameTerminals (s.addCharToBuffer c term).2.kbd := by
  unfold addCharToBuffer
  split
  · split
    · exact .refl _
    · split
      · exact .refl _
      · exact ⟨rfl, rfl, rfl⟩
  · exact .refl _

theorem handleEnter_sameTerminals (s : Tty) : s.kbd.SameTerminals s.handleEnter.kbd :=
  .trans (Keyboard.zeroKeys_sameTerminals _ _ _ s.kbd) ⟨rfl, rfl, rfl⟩

theorem handleBackspace_sameTerminals (s : Tty) : s.kbd.SameTerminals s.handleBackspace.kbd := by
  unfold handleBackspace
  dsimp only
  split
  · exact ⟨rfl, rfl, rfl⟩
  · exact .refl _

theorem terminalReadLoop_sameTerminals (term : Term) (n : Nat) : ∀ (i : Nat) (buf : Stores)
    (k : Keyboard), k.SameTerminals (terminalReadLoop term n i (buf, k)).2 := by
  induction n with
  | zero => exact fun _ _ k => .refl k
  | succ n ih => exact fun i buf k => (k.setKey_sameTerminals term i 0).trans (ih (i + 1) _ _)

theorem terminalRead_sameTerminals {term : Term} {nbytes ret : Int} {buf : Stores} {s s' : Tty}
    (h : s.terminalRead term nbytes = some (ret, buf, s')) : s.kbd.SameTerminals s'.kbd := by
  unfold terminalRead at h
  split at h
  · simp at h
  · obtain ⟨-, -, rfl⟩ := by simpa using h
    exact .trans (terminalReadLoop_sameTerminals term _ 0 .empty s.kbd) ⟨rfl, rfl, rfl⟩

theorem terminalWriteLoop_sameTerminals (term : Term) (buf : List UInt8) : ∀ (n : Int) (s : Tty),
    s.kbd.SameTerminals (terminalWriteLoop term buf (n, s)).2.kbd := by
  induction buf with
  | nil => exact fun _ s => .refl s.kbd
  | cons c cs ih => exact fun _ s => (addCharToBuffer_sameTerminals c term s).trans (ih _ _)

theorem terminalWrite_sameTerminals (term : Term) (buf : List UInt8) (s : Tty) :
    s.kbd.SameTerminals (s.terminalWrite term buf).2.kbd :=
  .trans (terminalWriteLoop_sameTerminals term buf 0 s) ⟨rfl, rfl, rfl⟩

end Tty

/-! ## A small terminal -/

/-- The terminal after the boot, with an empty screen. -/
def bootTty : Tty where
  kbd := {
    activeTerminal := 0
    prevTerminal := 0
    secondTermStart := false
    thirdTermStart := false
    keyboardBuf := fun _ => 0
    numCharsInBuf := fun _ => 0
    readBufReady := fun _ => false }
  con := {
    videoMem := fun _ => 0
    termVidMem := fun _ _ => 0
    screenX := fun _ => 0
    screenY := fun _ => 0
    activeTerminal := 0
    textColor := 0x04
    cursor := 0 }

end Gyarados

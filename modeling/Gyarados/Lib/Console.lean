import Mathlib.Logic.Function.Basic
import Gyarados.Foundation.Bytes

set_option autoImplicit false

/-! # The text console (`lib/lib.c`)

One visible 80 by 25 text page and a backing page for each of the three terminals. A cell is two
bytes, the character and its colour. `lib.c` keeps the cursor of each terminal and its own copy of
the number of the displayed terminal, which `putc`, `new_line` and `del_last_char` refresh and
`clear_screen` does not. -/

namespace Gyarados

/-- `NUM_TERMINALS`, the length of the arrays of all files. -/
abbrev numTerminals : Nat := 3

/-- A terminal number. -/
abbrev Term := Fin numTerminals

instance (priority := high) instNeZeroNumTerminals : NeZero numTerminals := ⟨by decide⟩

structure Console where
  /-- Memory around `VIDEO`, by offset from it. -/
  videoMem : Int → UInt8
  termVidMem : Term → Int → UInt8
  screenX : Term → Int
  screenY : Term → Int
  /-- The copy of the displayed terminal's number that `lib.c` keeps. -/
  activeTerminal : Term
  textColor : UInt8
  /-- The cursor position register of the VGA. -/
  cursor : Nat

namespace Console

/-- Write a character and the current colour to cell `cell`. -/
def putCell (cell : Int) (c : UInt8) (con : Console) : Console :=
  { con with
    videoMem :=
      Function.update (Function.update con.videoMem (cell * 2) c) (cell * 2 + 1) con.textColor }

/-- `update_cursor` -/
def updateCursor (row col : Int) (con : Console) : Console :=
  { con with cursor := ((row * 80 + col) % 0x10000).toNat }

/-- Move the cursor of `term`. -/
def moveTo (term : Term) (x y : Int) (con : Console) : Console :=
  { con with
    screenX := Function.update con.screenX term x
    screenY := Function.update con.screenY term y }

/-- One turn of the scrolling loop: cell `j` of row `i` takes the character below it. -/
def scrollCell (i j : Nat) (con : Console) : Console :=
  con.putCell (80 * i + j) (con.videoMem ((80 * (i + 1) + j) * 2))

/-- The two loops of `new_line` that move the page up and blank its last row. -/
def scroll (con : Console) : Console :=
  let con := (List.range 24).foldl
    (fun con i => (List.range 80).foldl (fun con j => con.scrollCell i j) con) con
  (List.range 80).foldl (fun con (j : Nat) => con.putCell (80 * 24 + j) 32) con

/-- `new_line`, where `term` is `get_active_terminal()`. -/
def newLine (term : Term) (con : Console) : Console :=
  let con := { con with activeTerminal := term }
  let con :=
    if con.screenY term = 24 then con.scroll.moveTo term 0 24
    else con.moveTo term 0 (con.screenY term + 1)
  con.updateCursor (con.screenY term) (con.screenX term)

/-- `putc`, where `term` is `get_active_terminal()`. -/
def putc (term : Term) (c : UInt8) (con : Console) : Console :=
  let con := { con with activeTerminal := term }
  let con :=
    if c = 10 ∨ c = 13 then con.newLine term
    else
      let con := con.putCell (80 * con.screenY term + con.screenX term) c
      let con := con.moveTo term (con.screenX term + 1) (con.screenY term)
      let con := if con.screenX term = 80 then con.newLine term else con
      let con := con.moveTo term ((con.screenX term).tmod 80) (con.screenY term)
      con.moveTo term (con.screenX term)
        ((con.screenY term + (con.screenX term).tdiv 80).tmod 25)
  con.updateCursor (con.screenY term) (con.screenX term)

/-- `puts`, and `printf` of a text without conversions. -/
def puts (term : Term) (s : List UInt8) (con : Console) : Console :=
  s.foldl (fun con c => con.putc term c) con

/-- `del_last_char`, where `term` is `get_active_terminal()`. -/
def delLastChar (term : Term) (con : Console) : Console :=
  let con := { con with activeTerminal := term }
  let con :=
    if con.screenX term = 0 then con.moveTo term 79 (con.screenY term - 1)
    else con.moveTo term (con.screenX term - 1) (con.screenY term)
  let con := con.putCell (80 * con.screenY term + con.screenX term) 32
  con.updateCursor (con.screenY term) (con.screenX term)

/-- `clear_screen`: it works on the terminal `lib.c` last saw. -/
def clearScreen (con : Console) : Console :=
  let con := (List.range 2000).foldl (fun con (i : Nat) => con.putCell i 32) con
  let con := con.moveTo con.activeTerminal 0 0
  con.updateCursor (con.screenY con.activeTerminal) (con.screenX con.activeTerminal)

/-- `draw_full_block` -/
def drawFullBlock (x y : Int) (pChar : UInt8) (con : Console) : Console :=
  con.putCell (y * 80 + x) pChar

/-- `get_full_block` -/
def getFullBlock (x y : Int) (con : Console) : UInt8 := con.videoMem ((y * 80 + x) * 2)

/-- The 4 KB copies of `update_screen`. -/
def copyPage (dest src : Int → UInt8) : Int → UInt8 :=
  fun i => if 0 ≤ i ∧ i < 0x1000 then src i else dest i

/-- `set_color` -/
def setColor (color : UInt8) (con : Console) : Console :=
  (List.range 2000).foldl
    (fun con (i : Nat) =>
      { con with videoMem := Function.update con.videoMem ((i : Int) * 2 + 1) color }) con

/-- RED, GREEN and YELLOW, the colours of the three terminals. -/
def termColor (term : Term) : UInt8 := if term = 0 then 0x04 else if term = 1 then 0x0A else 0x0E

/-- `update_screen` -/
def updateScreen (dest src : Term) (con : Console) : Console :=
  let saved := copyPage (con.termVidMem src) con.videoMem
  let con := { con with termVidMem := Function.update con.termVidMem src saved }
  let con := { con with videoMem := copyPage con.videoMem (con.termVidMem dest) }
  let con := { con with textColor := termColor dest }
  let con := con.setColor (termColor dest)
  con.updateCursor (con.screenY dest) (con.screenX dest)

end Console

end Gyarados

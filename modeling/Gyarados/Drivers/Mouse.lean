import Gyarados.Lib.TextConsole

set_option autoImplicit false

/-! # The mouse (`drivers/mouse.c`)

The pointer is a block character on the text page. The driver keeps the character it covers, puts it
back before the pointer moves, and saves the one at the new place before the block is drawn there. -/

namespace Gyarados

/-! ## The driver -/

/-- The variables of the driver, and the page that the pointer is on. -/
structure Mouse where
  mouseX : Int
  mouseY : Int
  prevChar : UInt8
  flags : Nat
  mouseByte1 : UInt8
  con : Console

/-- The bytes that the data port gives in one interrupt, read by read. -/
abbrev MousePort := Nat → UInt8

namespace Mouse

/-- `mouse_ack`, with the byte it returns: one read looks at the port, and a second one takes the
    byte. -/
def ack (port : MousePort) (m : Mouse) : UInt8 × Mouse :=
  if port 0 &&& 0x1 = 0 then (port 1, { m with flags := 1 }) else (0, { m with flags := 0 })

/-- A byte of movement, extended with the sign from the first byte. -/
def movement (negative : Bool) (byte : UInt8) : Int :=
  if negative then toInt32 (byte.toNat ||| 0xffffff00) else byte.toNat

/-- The bounds check of one coordinate. -/
def clamp (hi v : Int) : Int := if v < 0 then 0 else if v > hi then hi else v

/-- What a packet with movement does. -/
def move (byte1 byte2 byte3 : UInt8) (m : Mouse) : Mouse :=
  let mouseByte2 := movement (byte1 &&& 0x10 ≠ 0) byte2
  let mouseByte3 := movement (byte1 &&& 0x20 ≠ 0) byte3
  let con := m.con.drawFullBlock m.mouseX m.mouseY m.prevChar
  let mouseX := clamp 79 (m.mouseX + mouseByte2.tdiv 6)
  let mouseY := clamp 24 (m.mouseY - mouseByte3.tdiv 6)
  let prevChar := con.getFullBlock mouseX mouseY
  { m with mouseX, mouseY, prevChar, con := con.drawFullBlock mouseX mouseY 219 }

/-- `mouse_handle_interrupt` -/
def handleInterrupt (port : MousePort) (m : Mouse) : Mouse :=
  let (byte1, m) := m.ack port
  let m := { m with mouseByte1 := byte1 }
  if byte1 &&& 0x08 ≠ 0 then
    if byte1 &&& 0x80 = 0 ∧ byte1 &&& 0x40 = 0 then m.move byte1 (port 2) (port 3) else m
  else m

/-! ## The text under the pointer -/

/-- The number of the cell that the pointer is on. -/
def pointer (m : Mouse) : Int := m.mouseY * 80 + m.mouseX

/-- The characters of the page with the covered one put back. -/
def text (m : Mouse) (k : Nat) : UInt8 := if (k : Int) = m.pointer then m.prevChar else m.con.cell k

/-- The pointer is on the screen and drawn. -/
structure Drawn (m : Mouse) : Prop where
  mouseX : 0 ≤ m.mouseX ∧ m.mouseX ≤ 79
  mouseY : 0 ≤ m.mouseY ∧ m.mouseY ≤ 24
  block : m.con.getFullBlock m.mouseX m.mouseY = 219

/-- From `m` to `m'` the pointer stays drawn and the text stays as it is. -/
structure KeepsText (m m' : Mouse) : Prop where
  drawn : m'.Drawn
  text : ∀ k < 2000, m'.text k = m.text k

variable {m : Mouse}

theorem clamp_bounds {hi : Int} (hhi : 0 ≤ hi) (v : Int) : 0 ≤ clamp hi v ∧ clamp hi v ≤ hi := by
  unfold clamp
  split
  · exact ⟨Int.le_refl 0, hhi⟩
  · split <;> omega

theorem getFullBlock_drawFullBlock (con : Console) (x y : Int) (c : UInt8) :
    (con.drawFullBlock x y c).getFullBlock x y = c := by
  rw [Console.getFullBlock, Console.drawFullBlock, Console.putCell]
  dsimp only
  rw [Function.update_of_ne (by omega), Function.update_self]

/-- Putting the covered character back gives the text. -/
theorem cell_restore (k : Nat) :
    (m.con.drawFullBlock m.mouseX m.mouseY m.prevChar).cell k = m.text k :=
  Console.cell_putCell m.con m.pointer m.prevChar k

/-- A block is drawn over a character that has been saved. -/
theorem text_draw (m : Mouse) (con : Console) (x y : Int) (k : Nat) :
    ({ m with mouseX := x, mouseY := y, prevChar := con.getFullBlock x y
              con := con.drawFullBlock x y 219 } : Mouse).text k = con.cell k := by
  by_cases hk : (k : Int) = y * 80 + x
  · refine (if_pos hk).trans ?_
    rw [Console.getFullBlock, ← hk]
    rfl
  · refine (if_neg hk).trans ?_
    rw [Console.drawFullBlock, Console.cell_putCell, if_neg hk]

/-- **A movement**, wherever it goes, keeps the text. -/
theorem keepsText_move (m : Mouse) (byte1 byte2 byte3 : UInt8) :
    m.KeepsText (m.move byte1 byte2 byte3) := by
  refine ⟨⟨clamp_bounds (by decide) _, clamp_bounds (by decide) _, ?_⟩, fun k _ => ?_⟩
  · exact getFullBlock_drawFullBlock _ _ _ _
  · exact (text_draw _ _ _ _ k).trans (cell_restore k)

/-- **One interrupt**: a packet that is overflowed or not valid moves nothing. -/
theorem Drawn.keepsText_handleInterrupt (h : m.Drawn) (port : MousePort) :
    m.KeepsText (m.handleInterrupt port) := by
  have hack : (m.ack port).2 = { m with flags := (m.ack port).2.flags } := by
    unfold ack
    split <;> rfl
  unfold handleInterrupt
  dsimp only
  rw [hack]
  generalize (m.ack port).1 = byte1
  split
  · split
    · have hmove := keepsText_move { m with flags := (m.ack port).2.flags, mouseByte1 := byte1 } byte1
        (port 2) (port 3)
      exact ⟨hmove.drawn, hmove.text⟩
    · exact ⟨⟨h.mouseX, h.mouseY, h.block⟩, fun _ _ => rfl⟩
  · exact ⟨⟨h.mouseX, h.mouseY, h.block⟩, fun _ _ => rfl⟩

/-- The interrupts one after the other. -/
def handleInterrupts (ports : List MousePort) (m : Mouse) : Mouse :=
  ports.foldl (fun m port => m.handleInterrupt port) m

end Mouse

/-- **The mouse leaves the text alone**: after any number of interrupts, with any bytes at the port, the
    pointer is drawn on the screen, and the text under it is the one it started on. -/
theorem mouse_keepsText (ports : List MousePort) {m : Mouse} (h : m.Drawn) :
    m.KeepsText (m.handleInterrupts ports) := by
  induction ports generalizing m with
  | nil => exact ⟨h, fun _ _ => rfl⟩
  | cons port ports ih =>
      have hstep := h.keepsText_handleInterrupt port
      have hrest := ih hstep.drawn
      exact ⟨hrest.drawn, fun k hk => (hrest.text k hk).trans (hstep.text k hk)⟩

/-- The pointer in the middle of a blank page. -/
def sampleMouse : Mouse where
  mouseX := 40
  mouseY := 12
  prevChar := 32
  flags := 0
  mouseByte1 := 0
  con := darkConsole.clearScreen.drawFullBlock 40 12 219

/-- Movement to the left and down, an overflow, and a port with nothing in it. -/
theorem mouse_keepsText_packets : sampleMouse.KeepsText (sampleMouse.handleInterrupts
    [fun k => [0, 0x18, 0x9c, 0x9c].getD k 0, fun k => [0, 0x48].getD k 0, fun _ => 1]) :=
  mouse_keepsText _ ⟨by decide, by decide, Mouse.getFullBlock_drawFullBlock _ _ _ _⟩

end Gyarados

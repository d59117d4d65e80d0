import Gyarados.Foundation.TextPage
import Gyarados.Lib.OnScreen
import Gyarados.Lib.Str

set_option autoImplicit false

/-! # The console is a text page

`lib.c` computes cells and cursors; what it shows is a page of 25 rows of 80 characters on which the
output is written. -/

namespace Gyarados

/-- The characters that end a row. -/
def isLineBreak (c : UInt8) : Bool := c = 10 ∨ c = 13

/-- The screen of terminal `term`, which is displayed, is the page `p`. -/
structure Draws (con : Console) (term : Term) (p : TextPage UInt8) : Prop where
  cell : ∀ r c, r < 25 → c < 80 → con.cell (80 * r + c) = p.cell r c
  row : con.screenY term = p.row
  col : con.screenX term = p.col
  row_lt : p.row < 25
  col_lt : p.col < 80

namespace Draws

variable {con : Console} {term : Term} {p : TextPage UInt8}

/-- `new_line` from a cursor that may stand behind the last column. -/
theorem lineFeed_of_cell (hcell : ∀ r c, r < 25 → c < 80 → con.cell (80 * r + c) = p.cell r c)
    (hrow : con.screenY term = p.row) (hrow_lt : p.row < 25) :
    Draws (con.newLine term) term (p.lineFeed 25 32) := by
  have hbottom : con.screenY term = 24 ↔ p.row + 1 = 25 := by omega
  unfold TextPage.lineFeed
  split
  · rename_i hlast
    refine ⟨?_, ?_, ?_, hrow_lt, Nat.zero_lt_succ _⟩
    · intro r c hr hc
      rw [Console.cell_newLine _ _ (by omega), if_pos (hbottom.2 hlast)]
      simp only [TextPage.scroll]
      by_cases hr24 : r + 1 < 25
      · rw [if_pos (by omega), if_pos hr24, ← hcell (r + 1) c hr24 hc]
        congr 1
        omega
      · rw [if_neg (by omega), if_neg hr24]
    · rw [Console.screenY_newLine, Function.update_self, if_pos (hbottom.2 hlast)]
      simp only [TextPage.scroll]
      omega
    · rw [Console.screenX_newLine, Function.update_self]
      rfl
  · rename_i hlast
    have hnot : ¬ con.screenY term = 24 := fun h => hlast (hbottom.1 h)
    refine ⟨?_, ?_, ?_, by simp only; omega, Nat.zero_lt_succ _⟩
    · intro r c hr hc
      rw [Console.cell_newLine _ _ (by omega), if_neg hnot]
      exact hcell r c hr hc
    · rw [Console.screenY_newLine, Function.update_self, if_neg hnot, hrow]
      rfl
    · rw [Console.screenX_newLine, Function.update_self]
      rfl

theorem lineFeed (h : Draws con term p) : Draws (con.newLine term) term (p.lineFeed 25 32) :=
  lineFeed_of_cell h.cell h.row h.row_lt

/-- The cells after a character has been stored at the cursor. -/
theorem cell_putChar (h : Draws con term p) (a : UInt8) {r c : Nat} (hr : r < 25) (hc : c < 80) :
    (con.putChar term a).cell (80 * r + c) = if r = p.row ∧ c = p.col then a else p.cell r c := by
  have hcol := h.col_lt
  have hplace : ((80 * r + c : Nat) : Int) = 80 * con.screenY term + con.screenX term ↔
      r = p.row ∧ c = p.col := by
    rw [h.row, h.col]
    omega
  rw [Console.cell_putChar]
  simp only [hplace, h.cell r c hr hc]

/-- A character is put on the page; the modulo operations at the end of `putc` never do anything. -/
theorem put (h : Draws con term p) {a : UInt8} (ha : ¬ (a = 10 ∨ a = 13)) :
    Draws (con.putc term a) term (p.put 25 80 32 a) := by
  have hrow := h.row
  have hcol := h.col
  have hrow_lt := h.row_lt
  have hcol_lt := h.col_lt
  have hcells : ∀ r c, r < 25 → c < 80 → (con.putChar term a).cell (80 * r + c) =
      if r = p.row ∧ c = p.col then a else p.cell r c := fun r c => h.cell_putChar a
  unfold TextPage.put
  dsimp only
  split
  · rename_i hfull
    rw [Console.putc_wrap con term ha (by omega) (by omega) (by omega)]
    exact lineFeed_of_cell hcells (by simp [Console.putChar, Console.moveTo, hrow]) hrow_lt
  · rename_i hfull
    rw [Console.putc_char con term ha (by omega) (by omega) (by omega) (by omega)]
    refine ⟨hcells, ?_, ?_, hrow_lt, by simp only; omega⟩
    · simp [Console.putChar, Console.moveTo, Console.updateCursor, hrow]
    · simp [Console.putChar, Console.moveTo, Console.updateCursor, hcol]

/-- **`putc`** writes a character on the page. -/
theorem putc (h : Draws con term p) (a : UInt8) :
    Draws (con.putc term a) term (p.write 25 80 32 isLineBreak a) := by
  by_cases ha : a = 10 ∨ a = 13
  · rw [Console.putc_break con term ha, TextPage.write, if_pos (by simp [isLineBreak, ha])]
    exact h.lineFeed
  · rw [TextPage.write, if_neg (by simp [isLineBreak, ha])]
    exact h.put ha

/-- **`puts`** writes a text on the page. -/
theorem puts (h : Draws con term p) (text : List UInt8) :
    Draws (con.puts term text) term (text.foldl (TextPage.write 25 80 32 isLineBreak) p) := by
  induction text generalizing con p with
  | nil => exact h
  | cons a text ih => exact ih (h.putc a)

end Draws

/-! ## The output on the screen -/

/-- A call that prints. -/
inductive PrintCall
  | putc (c : UInt8)
  | puts (s : CString)

namespace PrintCall

def apply (term : Term) (con : Console) : PrintCall → Console
  | .putc c => con.putc term c
  | .puts s => con.puts term s.val

/-- The bytes printed. -/
def bytes : PrintCall → List UInt8
  | .putc c => [c]
  | .puts s => s.val

/-- The calls print their bytes one after the other. -/
theorem foldl_apply (term : Term) (calls : List PrintCall) : ∀ con : Console,
    calls.foldl (fun con call => call.apply term con) con = con.puts term (calls.flatMap bytes) := by
  induction calls with
  | nil => exact fun con => rfl
  | cons call calls ih =>
      intro con
      rw [List.foldl_cons, ih, List.flatMap_cons, Console.puts, Console.puts, List.foldl_append]
      cases call <;> rfl

end PrintCall

/-- The screen is blank and the cursor of `term` is on its first cell. -/
structure Cleared (con : Console) (term : Term) : Prop where
  cell : ∀ k < 2000, con.cell k = 32
  screenX : con.screenX term = 0
  screenY : con.screenY term = 0

/-- The screen is the last 25 rows of the layout, with the cursor at the end of the text. -/
structure ShowsEnd (con : Console) (term : Term) (l : Layout UInt8) : Prop where
  cell : ∀ r c, r < 25 → c < 80 →
    con.cell (80 * r + c) = l.charAt 32 (l.rows.length - 25 + r) c
  screenX : con.screenX term = l.last.length
  screenY : con.screenY term = min (l.rows.length - 1) 24

/-- **The right page of the output**: whatever is printed on a cleared screen, the screen shows the
    end of it. -/
theorem showsEnd_of_cleared {con : Console} {term : Term} (h : Cleared con term)
    (calls : List PrintCall) :
    ShowsEnd (calls.foldl (fun con call => call.apply term con) con) term
      (Layout.ofText 80 isLineBreak (calls.flatMap PrintCall.bytes)) := by
  -- the blank page, with the output written on it
  let blank : TextPage UInt8 := ⟨fun _ _ => 32, 0, 0⟩
  have hblank : Draws con term blank :=
    ⟨fun r c hr hc => h.cell _ (by omega), h.screenY, h.screenX, by decide, by decide⟩
  have hdraws := hblank.puts (calls.flatMap PrintCall.bytes)
  have hempty : TextPage.Shows 25 32 blank Layout.empty := .empty (fun _ _ _ => rfl) rfl rfl
  have hshows : TextPage.Shows 25 32
      ((calls.flatMap PrintCall.bytes).foldl (TextPage.write 25 80 32 isLineBreak) blank)
      (Layout.ofText 80 isLineBreak (calls.flatMap PrintCall.bytes)) :=
    hempty.foldl_write (by decide) isLineBreak _
  rw [PrintCall.foldl_apply]
  refine ⟨?_, ?_, ?_⟩
  · intro r c hr hc
    rw [hdraws.cell r c hr hc]
    exact hshows.cell r c hr
  · rw [hdraws.col, hshows.col]
  · rw [hdraws.row, hshows.row]

/-- `clear_screen` on the terminal that `lib.c` last saw. -/
theorem cleared_clearScreen (con : Console) : Cleared con.clearScreen con.activeTerminal where
  cell _ hk := con.cell_clearScreen hk
  screenX := by
    rw [Console.clearScreen_eq]
    simp only [Console.updateCursor, Console.moveTo, Function.update_self]
  screenY := by
    rw [Console.clearScreen_eq]
    simp only [Console.updateCursor, Console.moveTo, Function.update_self]

/-- A console after the power has been turned on. -/
def darkConsole : Console where
  videoMem := fun _ => 0
  termVidMem := fun _ _ => 0
  screenX := fun _ => 0
  screenY := fun _ => 0
  activeTerminal := 0
  textColor := 0x04
  cursor := 0

/-- A full row, a line break and a letter. -/
def sampleOutput : List PrintCall :=
  [.puts ⟨List.replicate 80 65, by decide⟩, .putc 10, .putc 66]

theorem showsEnd_sampleOutput :
    ShowsEnd (sampleOutput.foldl (fun con call => call.apply 0 con) darkConsole.clearScreen) 0
      (Layout.ofText 80 isLineBreak (sampleOutput.flatMap PrintCall.bytes)) := by
  have hcleared : Cleared darkConsole.clearScreen 0 := cleared_clearScreen darkConsole
  exact showsEnd_of_cleared hcleared sampleOutput

end Gyarados

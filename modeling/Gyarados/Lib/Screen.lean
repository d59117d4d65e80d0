import Mathlib.Data.List.Basic
import Gyarados.Lib.Console

set_option autoImplicit false

/-! # What the console functions do to the screen

For each function of `lib.c` that writes to the screen: the characters it leaves in the cells, the
cursor it leaves, and the offsets from `VIDEO` it stores to. Proofs about the console use these
and do not look at the loops again. -/

namespace Gyarados

namespace Console

/-- The character in cell `i` of the page, counted row by row. -/
def cell (con : Console) (i : Nat) : UInt8 := con.videoMem (i * 2)

/-- Only the visible page differs. -/
structure OnlyVideo (con con' : Console) : Prop where
  termVidMem : con'.termVidMem = con.termVidMem
  screenX : con'.screenX = con.screenX
  screenY : con'.screenY = con.screenY
  activeTerminal : con'.activeTerminal = con.activeTerminal
  textColor : con'.textColor = con.textColor

/-- The stores that lead from `con` to `con'` go to the offsets `os`. -/
def StoresAt (os : List Int) (con con' : Console) : Prop :=
  ∀ o, o ∉ os → con'.videoMem o = con.videoMem o

theorem OnlyVideo.refl (con : Console) : con.OnlyVideo con := ⟨rfl, rfl, rfl, rfl, rfl⟩

theorem OnlyVideo.trans {con con' con'' : Console} (h : con.OnlyVideo con')
    (h' : con'.OnlyVideo con'') : con.OnlyVideo con'' :=
  ⟨h'.1.trans h.1, h'.2.trans h.2, h'.3.trans h.3, h'.4.trans h.4, h'.5.trans h.5⟩

theorem OnlyVideo.putCell (con : Console) (k : Int) (c : UInt8) : con.OnlyVideo (con.putCell k c) :=
  ⟨rfl, rfl, rfl, rfl, rfl⟩

theorem OnlyVideo.foldl {β : Type*} {f : Console → β → Console}
    (h : ∀ (con : Console) b, con.OnlyVideo (f con b)) (bs : List β) :
    ∀ con : Console, con.OnlyVideo (bs.foldl f con) := by
  induction bs with
  | nil => exact fun con => .refl con
  | cons b bs ih => exact fun con => (h con b).trans (ih _)

theorem StoresAt.refl (con : Console) : StoresAt [] con con := fun _ _ => rfl

theorem StoresAt.trans {con con' con'' : Console} {os os' : List Int} (h : StoresAt os con con')
    (h' : StoresAt os' con' con'') : StoresAt (os ++ os') con con'' := by
  intro o ho
  rw [List.mem_append, not_or] at ho
  rw [h' o ho.2, h o ho.1]

theorem StoresAt.foldl {β : Type*} {f : Console → β → Console} {w : β → List Int}
    (h : ∀ con b, StoresAt (w b) con (f con b)) (bs : List β) :
    ∀ con : Console, StoresAt (bs.flatMap w) con (bs.foldl f con) := by
  induction bs with
  | nil => exact fun con => .refl con
  | cons b bs ih => exact fun con => (h con b).trans (ih _)

/-! ## Cells -/

theorem cell_putCell (con : Console) (k : Int) (c : UInt8) (i : Nat) :
    (con.putCell k c).cell i = if (i : Int) = k then c else con.cell i := by
  have hodd : (i : Int) * 2 ≠ k * 2 + 1 := by omega
  have heven : (i : Int) * 2 = k * 2 ↔ (i : Int) = k := by omega
  simp only [cell, putCell, Function.update_apply, hodd, if_false, heven]

@[simp] theorem cell_moveTo (con : Console) (term : Term) (x y : Int) (i : Nat) :
    (con.moveTo term x y).cell i = con.cell i := rfl

@[simp] theorem cell_updateCursor (con : Console) (row col : Int) (i : Nat) :
    (con.updateCursor row col).cell i = con.cell i := rfl

/-- One character in `n` cells from `base` on. -/
theorem cell_foldl_putCell (base n : Nat) (c : UInt8) (f : Nat → Int) (hf : ∀ j, f j = base + j)
    (con : Console) (i : Nat) :
    ((List.range n).foldl (fun con j => con.putCell (f j) c) con).cell i =
      if base ≤ i ∧ i < base + n then c else con.cell i := by
  induction n with
  | zero => rw [if_neg (by omega)]; rfl
  | succ n ih =>
      rw [List.range_succ, List.foldl_append, List.foldl_cons, List.foldl_nil, cell_putCell, ih, hf]
      by_cases hi : i = base + n
      · rw [if_pos (by omega), if_pos (by omega)]
      · rw [if_neg (by omega)]
        by_cases hin : base ≤ i ∧ i < base + n
        · rw [if_pos hin, if_pos (by omega)]
        · rw [if_neg hin, if_neg (by omega)]

/-- The first `n` cells of row `i` take the characters below them. -/
theorem cell_scrollRow (i n : Nat) (hn : n ≤ 80) (con : Console) : ∀ k : Nat,
    ((List.range n).foldl (fun con j => con.scrollCell i j) con).cell k =
      if 80 * i ≤ k ∧ k < 80 * i + n then con.cell (k + 80) else con.cell k := by
  induction n with
  | zero => intro k; rw [if_neg (by omega)]; rfl
  | succ n ih =>
      intro k
      have ih := ih (by omega)
      rw [List.range_succ, List.foldl_append, List.foldl_cons, List.foldl_nil]
      -- the cell below has not been written in this row's loop
      have hbelow : ((List.range n).foldl (fun con j => con.scrollCell i j) con).videoMem
          ((80 * ((i : Int) + 1) + n) * 2) = con.cell (80 * i + n + 80) := by
        have hkeep := ih (80 * (i + 1) + n)
        rw [if_neg (by omega)] at hkeep
        rw [show 80 * i + n + 80 = 80 * (i + 1) + n by omega, ← hkeep, cell]
        congr 1
      rw [scrollCell, cell_putCell, hbelow, ih]
      by_cases hk : k = 80 * i + n
      · rw [if_pos (by omega), if_pos (by omega), hk]
      · rw [if_neg (by omega)]
        by_cases hin : 80 * i ≤ k ∧ k < 80 * i + n
        · rw [if_pos hin, if_pos (by omega)]
        · rw [if_neg hin, if_neg (by omega)]

/-- The first `n` rows take the characters of the rows below them. -/
theorem cell_scrollRows (n : Nat) (con : Console) : ∀ k : Nat,
    ((List.range n).foldl
      (fun con i => (List.range 80).foldl (fun con j => con.scrollCell i j) con) con).cell k =
      if k < 80 * n then con.cell (k + 80) else con.cell k := by
  induction n with
  | zero => intro k; rw [if_neg (by omega)]; rfl
  | succ n ih =>
      intro k
      rw [List.range_succ (n := n), List.foldl_append, List.foldl_cons, List.foldl_nil,
        cell_scrollRow n 80 le_rfl, ih, ih]
      by_cases hk : k < 80 * n
      · rw [if_neg (by omega), if_pos hk, if_pos (by omega)]
      · by_cases hin : k < 80 * (n + 1)
        · rw [if_pos (by omega), if_neg (by omega), if_pos hin]
        · rw [if_neg (by omega), if_neg hk, if_neg hin]

/-- **Scrolling** moves the page up by one row and leaves a blank one at the bottom. -/
theorem cell_scroll (con : Console) {k : Nat} (hk : k < 2000) :
    con.scroll.cell k = if k < 1920 then con.cell (k + 80) else 32 := by
  rw [scroll, cell_foldl_putCell 1920 80 32 (fun j => 80 * 24 + j) (fun _ => rfl), cell_scrollRows]
  by_cases hlast : k < 1920
  · rw [if_neg (by omega), if_pos (by omega), if_pos hlast]
  · rw [if_pos (by omega), if_neg hlast]

theorem scroll_onlyVideo (con : Console) : con.OnlyVideo con.scroll :=
  (OnlyVideo.foldl (fun con _ => OnlyVideo.foldl (fun con _ => .putCell con _ _) _ con) _ con).trans
    (OnlyVideo.foldl (fun con _ => .putCell con _ _) _ _)

/-! ## `new_line` -/

variable (con : Console) (term : Term)

theorem screenX_newLine : (con.newLine term).screenX = Function.update con.screenX term 0 := by
  unfold newLine
  dsimp only
  split
  · simp [updateCursor, moveTo, (scroll_onlyVideo _).screenX]
  · rfl

theorem screenY_newLine : (con.newLine term).screenY =
    Function.update con.screenY term (if con.screenY term = 24 then 24 else con.screenY term + 1) := by
  unfold newLine
  dsimp only
  split
  · simp [updateCursor, moveTo, (scroll_onlyVideo _).screenY]
  · rfl

theorem cell_newLine {k : Nat} (hk : k < 2000) : (con.newLine term).cell k =
    if con.screenY term = 24 then if k < 1920 then con.cell (k + 80) else 32 else con.cell k := by
  unfold newLine
  dsimp only
  split
  · rw [cell_updateCursor, cell_moveTo, cell_scroll _ hk]
    rfl
  · rfl

theorem termVidMem_newLine : (con.newLine term).termVidMem = con.termVidMem := by
  unfold newLine
  dsimp only
  split
  · simp [updateCursor, moveTo, (scroll_onlyVideo _).termVidMem]
  · rfl

/-! ## `putc` -/

/-- A line break is a `new_line`. -/
theorem putc_break {c : UInt8} (hc : c = 10 ∨ c = 13) : con.putc term c = con.newLine term := by
  simp only [putc, if_pos hc]
  rfl

/-- The modulo operations at the end of `putc`. -/
def settle (term : Term) (con : Console) : Console :=
  let con := con.moveTo term ((con.screenX term).tmod 80) (con.screenY term)
  let con := con.moveTo term (con.screenX term)
    ((con.screenY term + (con.screenX term).tdiv 80).tmod 25)
  con.updateCursor (con.screenY term) (con.screenX term)

/-- On the screen they do nothing. -/
theorem settle_eq (hx : 0 ≤ con.screenX term) (hx' : con.screenX term < 80)
    (hy : 0 ≤ con.screenY term) (hy' : con.screenY term < 25) :
    con.settle term = con.updateCursor (con.screenY term) (con.screenX term) := by
  have hmod : (con.screenX term).tmod 80 = con.screenX term := Int.tmod_eq_of_lt hx hx'
  have hdiv : (con.screenX term).tdiv 80 = 0 := Int.tdiv_eq_zero_of_lt hx hx'
  have hrow : (con.screenY term).tmod 25 = con.screenY term := Int.tmod_eq_of_lt hy hy'
  simp [settle, moveTo, hmod, hdiv, hrow]

/-- The cell and the column behind it, before the row is looked at. -/
def putChar (term : Term) (c : UInt8) (con : Console) : Console :=
  ({ con with activeTerminal := term }.putCell (80 * con.screenY term + con.screenX term) c).moveTo
    term (con.screenX term + 1) (con.screenY term)

theorem putc_of_not_break {c : UInt8} (hc : ¬ (c = 10 ∨ c = 13)) :
    con.putc term c = settle term
      (if con.screenX term + 1 = 80 then (con.putChar term c).newLine term else con.putChar term c) := by
  have hx : (con.putChar term c).screenX term = con.screenX term + 1 := by simp [putChar, moveTo]
  rw [← hx]
  simp only [putc, if_neg hc]
  rfl

/-- A character inside a row. -/
theorem putc_char {c : UInt8} (hc : ¬ (c = 10 ∨ c = 13)) (hx : 0 ≤ con.screenX term)
    (hx' : con.screenX term < 79) (hy : 0 ≤ con.screenY term) (hy' : con.screenY term < 25) :
    con.putc term c =
      (con.putChar term c).updateCursor (con.screenY term) (con.screenX term + 1) := by
  have hput : (con.putChar term c).screenX term = con.screenX term + 1 ∧
      (con.putChar term c).screenY term = con.screenY term := by simp [putChar, moveTo]
  rw [putc_of_not_break con term hc, if_neg (by omega), settle_eq _ _ (by omega) (by omega)
    (by omega) (by omega), hput.1, hput.2]

/-- The last character of a row. -/
theorem putc_wrap {c : UInt8} (hc : ¬ (c = 10 ∨ c = 13)) (hx : con.screenX term = 79)
    (hy : 0 ≤ con.screenY term) (hy' : con.screenY term < 25) :
    con.putc term c = (con.putChar term c).newLine term := by
  have hput : (con.putChar term c).screenY term = con.screenY term := by simp [putChar, moveTo]
  have hx₀ : ((con.putChar term c).newLine term).screenX term = 0 := by
    rw [screenX_newLine, Function.update_self]
  have hy₀ : ((con.putChar term c).newLine term).screenY term =
      if con.screenY term = 24 then 24 else con.screenY term + 1 := by
    rw [screenY_newLine, Function.update_self, hput]
  have hy₁ : 0 ≤ ((con.putChar term c).newLine term).screenY term ∧
      ((con.putChar term c).newLine term).screenY term < 25 := by
    rw [hy₀]
    split <;> omega
  rw [putc_of_not_break con term hc, if_pos (by omega), settle_eq _ _ (by omega) (by omega) hy₁.1 hy₁.2]
  rfl

theorem termVidMem_putc (c : UInt8) : (con.putc term c).termVidMem = con.termVidMem := by
  by_cases hc : c = 10 ∨ c = 13
  · rw [putc_break con term hc, termVidMem_newLine]
  · rw [putc_of_not_break con term hc]
    split
    · simp only [settle, updateCursor, moveTo, termVidMem_newLine]
      rfl
    · rfl

theorem cell_putChar (c : UInt8) (k : Nat) : (con.putChar term c).cell k =
    if (k : Int) = 80 * con.screenY term + con.screenX term then c else con.cell k := by
  rw [putChar, cell_moveTo, cell_putCell]
  rfl

/-! ## `del_last_char` -/

/-- Where `del_last_char` moves the cursor. -/
def backX (x : Int) : Int := if x = 0 then 79 else x - 1

def backY (x y : Int) : Int := if x = 0 then y - 1 else y

theorem delLastChar_eq : con.delLastChar term =
    (({ con with activeTerminal := term }.moveTo term (backX (con.screenX term))
      (backY (con.screenX term) (con.screenY term))).putCell
        (80 * backY (con.screenX term) (con.screenY term) + backX (con.screenX term)) 32).updateCursor
          (backY (con.screenX term) (con.screenY term)) (backX (con.screenX term)) := by
  unfold delLastChar backX backY
  dsimp only
  split <;> simp [moveTo, putCell]

/-! ## `clear_screen` -/

/-- The loop of `clear_screen` over the first `n` cells. -/
def blankCells (n : Nat) (con : Console) : Console :=
  (List.range n).foldl (fun con (i : Nat) => con.putCell i 32) con

theorem blankCells_onlyVideo (n : Nat) : con.OnlyVideo (con.blankCells n) :=
  OnlyVideo.foldl (fun con _ => .putCell con _ _) _ con

theorem cell_blankCells (n k : Nat) :
    (con.blankCells n).cell k = if k < n then 32 else con.cell k := by
  rw [blankCells, cell_foldl_putCell 0 n 32 _ (fun j => by simp)]
  simp

/-- `clear_screen` moves the cursor of the terminal that `lib.c` last saw. -/
theorem clearScreen_eq : con.clearScreen =
    ((con.blankCells 2000).moveTo con.activeTerminal 0 0).updateCursor 0 0 := by
  have hactive := (con.blankCells_onlyVideo 2000).activeTerminal
  have hclear : con.clearScreen =
      let con := con.blankCells 2000
      let con := con.moveTo con.activeTerminal 0 0
      con.updateCursor (con.screenY con.activeTerminal) (con.screenX con.activeTerminal) := rfl
  rw [hclear]
  generalize con.blankCells 2000 = con' at hactive ⊢
  simp [moveTo, hactive]

theorem cell_clearScreen {k : Nat} (hk : k < 2000) : con.clearScreen.cell k = 32 := by
  rw [clearScreen_eq, cell_updateCursor, cell_moveTo, cell_blankCells, if_pos hk]

/-! ## `update_screen` -/

/-- The character in cell `i` of a backing page. -/
def savedCell (con : Console) (t : Term) (i : Nat) : UInt8 := con.termVidMem t (i * 2)

/-- The loop of `set_color` over the first `n` cells. -/
def colorCells (n : Nat) (color : UInt8) (con : Console) : Console :=
  (List.range n).foldl
    (fun con (i : Nat) =>
      { con with videoMem := Function.update con.videoMem ((i : Int) * 2 + 1) color }) con

theorem colorCells_onlyVideo (n : Nat) (color : UInt8) : con.OnlyVideo (con.colorCells n color) := by
  apply OnlyVideo.foldl
  intro con i
  exact ⟨rfl, rfl, rfl, rfl, rfl⟩

theorem setColor_eq (color : UInt8) : con.setColor color = con.colorCells 2000 color := rfl

/-- Colours are not characters. -/
theorem cell_colorCells (n : Nat) (color : UInt8) (k : Nat) :
    (con.colorCells n color).cell k = con.cell k := by
  induction n with
  | zero => rfl
  | succ n ih =>
      rw [← ih]
      have hodd : (k : Int) * 2 ≠ n * 2 + 1 := by omega
      simp only [colorCells, List.range_succ, List.foldl_append, List.foldl_cons, List.foldl_nil, cell,
        Function.update_apply, hodd, if_false]

/-- The page on display is saved behind terminal `src`, and the one behind `dest` is displayed. -/
theorem updateScreen_eq (dest src : Term) : con.updateScreen dest src =
    (({ con with
      termVidMem :=
        Function.update con.termVidMem src (copyPage (con.termVidMem src) con.videoMem)
      videoMem := copyPage con.videoMem
        (Function.update con.termVidMem src (copyPage (con.termVidMem src) con.videoMem) dest)
      textColor := termColor dest }).colorCells 2000 (termColor dest)).updateCursor
        (con.screenY dest) (con.screenX dest) := by
  unfold updateScreen
  dsimp only
  rw [setColor_eq, (colorCells_onlyVideo _ 2000 (termColor dest)).screenX,
    (colorCells_onlyVideo _ 2000 (termColor dest)).screenY]

theorem copyPage_cell (dest src : Int → UInt8) {k : Nat} (hk : k < 2000) :
    copyPage dest src ((k : Int) * 2) = src ((k : Int) * 2) := by
  rw [copyPage, if_pos (by omega)]

theorem cell_updateScreen (dest src : Term) {k : Nat} (hk : k < 2000) :
    (con.updateScreen dest src).cell k = if dest = src then con.cell k else con.savedCell dest k := by
  rw [updateScreen_eq, cell_updateCursor, cell_colorCells, cell]
  dsimp only
  rw [copyPage_cell _ _ hk]
  split
  · rename_i hsame
    rw [hsame, Function.update_self, copyPage_cell _ _ hk, cell]
  · rename_i hne
    rw [Function.update_of_ne hne, savedCell]

theorem savedCell_updateScreen (dest src t : Term) {k : Nat} (hk : k < 2000) :
    (con.updateScreen dest src).savedCell t k = if t = src then con.cell k else con.savedCell t k := by
  rw [updateScreen_eq, savedCell]
  simp only [updateCursor, (colorCells_onlyVideo _ 2000 (termColor dest)).termVidMem]
  split
  · rename_i hsame
    rw [hsame, Function.update_self, copyPage_cell _ _ hk, cell]
  · rename_i hne
    rw [Function.update_of_ne hne, savedCell]

theorem screenX_updateScreen (dest src : Term) : (con.updateScreen dest src).screenX = con.screenX := by
  simp only [updateScreen_eq, updateCursor, (colorCells_onlyVideo _ 2000 (termColor dest)).screenX]

theorem screenY_updateScreen (dest src : Term) : (con.updateScreen dest src).screenY = con.screenY := by
  simp only [updateScreen_eq, updateCursor, (colorCells_onlyVideo _ 2000 (termColor dest)).screenY]

end Console

end Gyarados

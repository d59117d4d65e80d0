import Gyarados.Lib.Screen

set_option autoImplicit false

/-! # Cursors on the screen

As long as the cursors are on the screen, and the cursor is not moved back from the first cell, the
console functions leave them there and store to the 4000 bytes of the visible page only. The
offsets stored to are listed function by function, in the order of the code. -/

namespace Gyarados

namespace Console

/-- The cursors of all terminals are on the screen. -/
def OnScreen (con : Console) : Prop :=
  ∀ t, (0 ≤ con.screenX t ∧ con.screenX t < 80) ∧ 0 ≤ con.screenY t ∧ con.screenY t < 25

instance (con : Console) : Decidable con.OnScreen := inferInstanceAs (Decidable (∀ _, _))

/-- An offset in the visible page. -/
def InPage (o : Int) : Prop := 0 ≤ o ∧ o < 4000

/-! ## The offsets stored to -/

/-- The two stores to a cell. -/
def cellStores (cell : Int) : List Int := [cell * 2, cell * 2 + 1]

def scrollStores : List Int :=
  ((List.range 24).flatMap fun (i : Nat) =>
      (List.range 80).flatMap fun (j : Nat) => cellStores (80 * i + j)) ++
    (List.range 80).flatMap fun (j : Nat) => cellStores (80 * 24 + j)

def newLineStores (term : Term) (con : Console) : List Int :=
  if con.screenY term = 24 then scrollStores else []

def putcStores (term : Term) (c : UInt8) (con : Console) : List Int :=
  if c = 10 ∨ c = 13 then con.newLineStores term
  else
    cellStores (80 * con.screenY term + con.screenX term) ++
      if con.screenX term + 1 = 80 then con.newLineStores term else []

def delLastCharStores (term : Term) (con : Console) : List Int :=
  cellStores (80 * backY (con.screenX term) (con.screenY term) + backX (con.screenX term))

def clearScreenStores : List Int := (List.range 2000).flatMap fun (i : Nat) => cellStores i

/-- The copy of 4 KB to the visible page, and `set_color`. -/
def updateScreenStores : List Int :=
  ((List.range 0x1000).map fun (i : Nat) => (i : Int)) ++
    (List.range 2000).flatMap fun (i : Nat) => [(i : Int) * 2 + 1]

theorem storesAt_putCell (con : Console) (k : Int) (c : UInt8) :
    StoresAt (cellStores k) con (con.putCell k c) := by
  intro o ho
  simp only [cellStores, List.mem_cons, List.not_mem_nil, or_false, not_or] at ho
  simp only [putCell]
  rw [Function.update_of_ne ho.2, Function.update_of_ne ho.1]

variable (con : Console) (term : Term)

/-- A loop over a row. -/
theorem storesAt_row (n : Nat) (base : Int) (c : Console → Nat → UInt8) :
    StoresAt ((List.range n).flatMap fun (j : Nat) => cellStores (base + j)) con
      ((List.range n).foldl (fun con (j : Nat) => con.putCell (base + j) (c con j)) con) := by
  apply StoresAt.foldl
  exact fun con j => storesAt_putCell con _ _

theorem storesAt_scrollRows (n : Nat) :
    StoresAt ((List.range n).flatMap fun (i : Nat) =>
        (List.range 80).flatMap fun (j : Nat) => cellStores (80 * i + j)) con
      ((List.range n).foldl
        (fun con i => (List.range 80).foldl (fun con j => con.scrollCell i j) con) con) := by
  apply StoresAt.foldl
  exact fun con i => storesAt_row con 80 (80 * i) _

theorem storesAt_scroll : StoresAt scrollStores con con.scroll := by
  unfold scrollStores scroll
  dsimp only
  apply StoresAt.trans
  · exact con.storesAt_scrollRows 24
  · exact storesAt_row _ 80 (80 * 24) _

theorem storesAt_newLine : StoresAt (con.newLineStores term) con (con.newLine term) := by
  intro o ho
  unfold newLineStores at ho
  unfold newLine
  simp only [updateCursor, moveTo]
  split
  · rename_i hlast
    rw [if_pos hlast] at ho
    exact storesAt_scroll { con with activeTerminal := term } o ho
  · rfl

theorem storesAt_putChar (c : UInt8) :
    StoresAt (cellStores (80 * con.screenY term + con.screenX term)) con (con.putChar term c) :=
  storesAt_putCell { con with activeTerminal := term } _ c

theorem newLineStores_putChar (c : UInt8) :
    (con.putChar term c).newLineStores term = con.newLineStores term := by
  simp [newLineStores, putChar, moveTo, putCell]

theorem storesAt_putc (c : UInt8) : StoresAt (con.putcStores term c) con (con.putc term c) := by
  by_cases hc : c = 10 ∨ c = 13
  · rw [putc_break con term hc, putcStores, if_pos hc]
    exact con.storesAt_newLine term
  · rw [putc_of_not_break con term hc, putcStores, if_neg hc]
    split
    · rw [← newLineStores_putChar con term c]
      exact (con.storesAt_putChar term c).trans ((con.putChar term c).storesAt_newLine term)
    · rw [List.append_nil]
      exact con.storesAt_putChar term c

theorem storesAt_delLastChar : StoresAt (con.delLastCharStores term) con (con.delLastChar term) := by
  rw [delLastChar_eq]
  exact storesAt_putCell (moveTo _ _ _ _) _ _

theorem storesAt_blankCells (n : Nat) :
    StoresAt ((List.range n).flatMap fun (i : Nat) => cellStores i) con (con.blankCells n) := by
  apply StoresAt.foldl
  exact fun con i => storesAt_putCell con _ _

theorem storesAt_clearScreen : StoresAt clearScreenStores con con.clearScreen := by
  intro o ho
  rw [clearScreen_eq]
  simp only [updateCursor, moveTo]
  exact con.storesAt_blankCells 2000 o ho

theorem storesAt_colorCells (n : Nat) (color : UInt8) :
    StoresAt ((List.range n).flatMap fun (i : Nat) => [(i : Int) * 2 + 1]) con
      (con.colorCells n color) := by
  apply StoresAt.foldl
  intro con i o ho
  rw [List.mem_singleton] at ho
  exact Function.update_of_ne ho _ _

theorem storesAt_updateScreen (dest src : Term) :
    StoresAt updateScreenStores con (con.updateScreen dest src) := by
  intro o ho
  rw [updateScreenStores, List.mem_append, not_or] at ho
  have hout : ¬ (0 ≤ o ∧ o < 0x1000) := by
    rintro ⟨h0, h1⟩
    refine ho.1 (List.mem_map.2 ⟨o.toNat, List.mem_range.2 ?_, ?_⟩) <;> omega
  rw [updateScreen_eq]
  simp only [updateCursor]
  rw [storesAt_colorCells _ 2000 (termColor dest) o ho.2]
  simp only [copyPage, if_neg hout]

/-! ## The stores are in the page -/

variable {con : Console} {term : Term}

theorem inPage_of_mem_cellStores {k o : Int} (h0 : 0 ≤ k) (h1 : k < 2000) (ho : o ∈ cellStores k) :
    InPage o := by
  simp only [cellStores, List.mem_cons, List.not_mem_nil, or_false] at ho
  unfold InPage
  omega

theorem inPage_of_mem_scrollStores {o : Int} (ho : o ∈ scrollStores) : InPage o := by
  rw [scrollStores, List.mem_append, List.mem_flatMap, List.mem_flatMap] at ho
  rcases ho with ⟨i, hi, ho⟩ | ⟨j, hj, ho⟩
  · obtain ⟨j, hj, ho⟩ := List.mem_flatMap.1 ho
    rw [List.mem_range] at hi hj
    exact inPage_of_mem_cellStores (by omega) (by omega) ho
  · rw [List.mem_range] at hj
    exact inPage_of_mem_cellStores (by omega) (by omega) ho

theorem inPage_of_mem_newLineStores {o : Int} (ho : o ∈ con.newLineStores term) : InPage o := by
  unfold newLineStores at ho
  split at ho
  · exact inPage_of_mem_scrollStores ho
  · simp at ho

theorem inPage_of_mem_putcStores (hx : 0 ≤ con.screenX term ∧ con.screenX term < 80)
    (hy : 0 ≤ con.screenY term ∧ con.screenY term < 25) {c : UInt8} {o : Int}
    (ho : o ∈ con.putcStores term c) : InPage o := by
  unfold putcStores at ho
  split at ho
  · exact inPage_of_mem_newLineStores ho
  · rcases List.mem_append.1 ho with ho | ho
    · exact inPage_of_mem_cellStores (by omega) (by omega) ho
    · split at ho
      · exact inPage_of_mem_newLineStores ho
      · simp at ho

theorem inPage_of_mem_delLastCharStores (hx : 0 ≤ con.screenX term ∧ con.screenX term < 80)
    (hy : 0 ≤ con.screenY term ∧ con.screenY term < 25)
    (hfirst : ¬ (con.screenX term = 0 ∧ con.screenY term = 0)) {o : Int}
    (ho : o ∈ con.delLastCharStores term) : InPage o := by
  have hback : 0 ≤ 80 * backY (con.screenX term) (con.screenY term) + backX (con.screenX term) ∧
      80 * backY (con.screenX term) (con.screenY term) + backX (con.screenX term) < 2000 := by
    unfold backX backY
    split <;> omega
  exact inPage_of_mem_cellStores hback.1 hback.2 ho

theorem inPage_of_mem_clearScreenStores {o : Int} (ho : o ∈ clearScreenStores) : InPage o := by
  obtain ⟨i, hi, ho⟩ := List.mem_flatMap.1 ho
  rw [List.mem_range] at hi
  exact inPage_of_mem_cellStores (by omega) (by omega) ho

/-- A switch stores to the 4 KB of the page, the 96 bytes behind the last cell included. -/
theorem mem_updateScreenStores {o : Int} : o ∈ updateScreenStores ↔ 0 ≤ o ∧ o < 0x1000 := by
  rw [updateScreenStores, List.mem_append, List.mem_map, List.mem_flatMap]
  constructor
  · rintro (⟨i, hi, rfl⟩ | ⟨i, hi, ho⟩)
    · rw [List.mem_range] at hi
      omega
    · rw [List.mem_range] at hi
      rw [List.mem_singleton] at ho
      omega
  · rintro ⟨h0, h1⟩
    exact .inl ⟨o.toNat, List.mem_range.2 (by omega), by omega⟩

/-! ## The cursors stay on the screen -/

/-- A function that moves the cursor of `t` only. -/
theorem OnScreen.of_update (h : con.OnScreen) {con' : Console} {t : Term} {x y : Int}
    (hscreenX : con'.screenX = Function.update con.screenX t x)
    (hscreenY : con'.screenY = Function.update con.screenY t y)
    (hx : 0 ≤ x ∧ x < 80) (hy : 0 ≤ y ∧ y < 25) : con'.OnScreen := by
  intro u
  rw [hscreenX, hscreenY]
  by_cases hu : u = t
  · subst hu
    rw [Function.update_self, Function.update_self]
    exact ⟨hx, hy⟩
  · rw [Function.update_of_ne hu, Function.update_of_ne hu]
    exact h u

theorem OnScreen.newLine (h : con.OnScreen) (term : Term) : (con.newLine term).OnScreen := by
  obtain ⟨hx, hy⟩ := h term
  apply h.of_update (con.screenX_newLine term) (con.screenY_newLine term) (by decide)
  split <;> omega

/-- The cursor of `putc` moves on by one, and to the next row from the end of a row. -/
theorem OnScreen.cursor_putc (h : con.OnScreen) (term : Term) (c : UInt8) :
    ∃ x y, (con.putc term c).screenX = Function.update con.screenX term x ∧
      (con.putc term c).screenY = Function.update con.screenY term y ∧
      (0 ≤ x ∧ x < 80) ∧ (0 ≤ y ∧ y < 25) := by
  obtain ⟨hx, hy⟩ := h term
  by_cases hc : c = 10 ∨ c = 13
  · rw [putc_break con term hc]
    refine ⟨_, _, con.screenX_newLine term, con.screenY_newLine term, by decide, ?_⟩
    split <;> omega
  · by_cases hlast : con.screenX term = 79
    · rw [putc_wrap con term hc hlast hy.1 hy.2, screenX_newLine, screenY_newLine]
      refine ⟨0, if con.screenY term = 24 then 24 else con.screenY term + 1, ?_, ?_, by decide, ?_⟩
      · simp [putChar, moveTo, putCell]
      · simp [putChar, moveTo, putCell]
      · split <;> omega
    · rw [putc_char con term hc hx.1 (by omega) hy.1 hy.2]
      exact ⟨con.screenX term + 1, con.screenY term, rfl, rfl, by omega, hy⟩

theorem OnScreen.putc (h : con.OnScreen) (term : Term) (c : UInt8) : (con.putc term c).OnScreen := by
  obtain ⟨x, y, hscreenX, hscreenY, hx, hy⟩ := h.cursor_putc term c
  exact h.of_update hscreenX hscreenY hx hy

theorem OnScreen.delLastChar (h : con.OnScreen)
    (hfirst : ¬ (con.screenX term = 0 ∧ con.screenY term = 0)) : (con.delLastChar term).OnScreen := by
  obtain ⟨hx, hy⟩ := h term
  rw [delLastChar_eq]
  refine h.of_update (t := term) (x := backX (con.screenX term))
    (y := backY (con.screenX term) (con.screenY term)) rfl rfl ?_ ?_
  · unfold backX
    split <;> omega
  · unfold backY
    split <;> omega

theorem OnScreen.clearScreen (h : con.OnScreen) : con.clearScreen.OnScreen := by
  have hblank := con.blankCells_onlyVideo 2000
  rw [clearScreen_eq]
  refine h.of_update (t := con.activeTerminal) (x := 0) (y := 0) ?_ ?_ (by decide) (by decide)
  · simp only [updateCursor, moveTo, hblank.screenX]
  · simp only [updateCursor, moveTo, hblank.screenY]

theorem OnScreen.updateScreen (h : con.OnScreen) (dest src : Term) :
    (con.updateScreen dest src).OnScreen := by
  intro t
  rw [screenX_updateScreen, screenY_updateScreen]
  exact h t

end Console

/-! ## Calls -/

/-- The calls that write to the screen of the displayed terminal. -/
inductive ScreenCall
  | putc (c : UInt8)
  | newLine
  | delLastChar
  | clearScreen

namespace ScreenCall

def apply (term : Term) (con : Console) : ScreenCall → Console
  | .putc c => con.putc term c
  | .newLine => con.newLine term
  | .delLastChar => con.delLastChar term
  | .clearScreen => con.clearScreen

/-- The offsets a call stores to. -/
def stores (term : Term) (con : Console) : ScreenCall → List Int
  | .putc c => con.putcStores term c
  | .newLine => con.newLineStores term
  | .delLastChar => con.delLastCharStores term
  | .clearScreen => Console.clearScreenStores

/-- `del_last_char` is not called with the cursor on the first cell. -/
def Allowed (term : Term) (con : Console) : ScreenCall → Prop
  | .delLastChar => ¬ (con.screenX term = 0 ∧ con.screenY term = 0)
  | _ => True

instance (term : Term) (con : Console) : ∀ call : ScreenCall, Decidable (call.Allowed term con)
  | .delLastChar => inferInstanceAs (Decidable (¬ _))
  | .putc _ | .newLine | .clearScreen => isTrue trivial

theorem storesAt (term : Term) (con : Console) (call : ScreenCall) :
    Console.StoresAt (call.stores term con) con (call.apply term con) := by
  cases call with
  | putc c => exact con.storesAt_putc term c
  | newLine => exact con.storesAt_newLine term
  | delLastChar => exact con.storesAt_delLastChar term
  | clearScreen => exact con.storesAt_clearScreen

/-- No call stores to a backing page. -/
theorem termVidMem_apply (term : Term) (con : Console) (call : ScreenCall) :
    (call.apply term con).termVidMem = con.termVidMem := by
  cases call with
  | putc c => exact con.termVidMem_putc term c
  | newLine => exact con.termVidMem_newLine term
  | delLastChar =>
      rw [apply, Console.delLastChar_eq]
      rfl
  | clearScreen =>
      rw [apply, Console.clearScreen_eq]
      simp only [Console.updateCursor, Console.moveTo, (con.blankCells_onlyVideo 2000).termVidMem]

variable {term : Term} {con : Console} {call : ScreenCall}

/-- **Every call** stores to the visible page only. -/
theorem inPage_of_mem_stores (h : con.OnScreen) (hok : call.Allowed term con) {o : Int}
    (ho : o ∈ call.stores term con) : Console.InPage o := by
  cases call with
  | putc c => exact Console.inPage_of_mem_putcStores (h term).1 (h term).2 ho
  | newLine => exact Console.inPage_of_mem_newLineStores ho
  | delLastChar => exact Console.inPage_of_mem_delLastCharStores (h term).1 (h term).2 hok ho
  | clearScreen => exact Console.inPage_of_mem_clearScreenStores ho

/-- **Every call** leaves the cursors on the screen. -/
theorem onScreen (h : con.OnScreen) (hok : call.Allowed term con) :
    (call.apply term con).OnScreen := by
  cases call with
  | putc c => exact h.putc term c
  | newLine => exact h.newLine term
  | delLastChar => exact h.delLastChar hok
  | clearScreen => exact h.clearScreen

end ScreenCall

end Gyarados

import Gyarados.Drivers.CharCount
import Gyarados.Foundation.Paper
import Gyarados.Lib.TextConsole

set_option autoImplicit false

/-! # Taking a line back

A line goes forward over the ends of rows and past the bottom of the screen, and `reset_curr_command`
takes it back with as many calls of `del_last_char`, which know nothing of the rows that have gone. -/

namespace Gyarados

namespace Draws

variable {con : Console} {term : Term} {p : TextPage UInt8}

/-- `del_last_char` takes a character back. -/
theorem back (h : Draws con term p) (hfirst : ¬ (p.row = 0 ∧ p.col = 0)) :
    Draws (con.delLastChar term) term (p.back 80 32) := by
  have hrow := h.row
  have hcol := h.col
  have hrow_lt := h.row_lt
  have hcol_lt := h.col_lt
  have hbackX : Console.backX (con.screenX term) = (p.back 80 32).col := by
    simp only [Console.backX, TextPage.back, hcol]
    split <;> split <;> omega
  have hbackY : Console.backY (con.screenX term) (con.screenY term) = (p.back 80 32).row := by
    simp only [Console.backY, TextPage.back, hcol, hrow]
    split <;> split <;> omega
  have hlt : (p.back 80 32).row < 25 ∧ (p.back 80 32).col < 80 := by
    simp only [TextPage.back]
    split <;> omega
  rw [Console.delLastChar_eq, hbackX, hbackY]
  refine ⟨?_, ?_, ?_, hlt.1, hlt.2⟩
  · intro r c hr hc
    rw [Console.cell_updateCursor, Console.cell_putCell, Console.cell_moveTo]
    have hplace : ((80 * r + c : Nat) : Int) = 80 * ((p.back 80 32).row : Int) + (p.back 80 32).col ↔
        r = (p.back 80 32).row ∧ c = (p.back 80 32).col := by omega
    simp only [hplace]
    rw [show Console.cell { con with activeTerminal := term } (80 * r + c) = p.cell r c from
      h.cell r c hr hc]
    rfl
  · simp [Console.updateCursor, Console.moveTo, Console.putCell]
  · simp [Console.updateCursor, Console.moveTo, Console.putCell]

end Draws

namespace ScreenCall

variable {term : Term} {con : Console} {p : TextPage UInt8}

theorem allStores_append (calls calls' : List ScreenCall) : ∀ con : Console,
    allStores term con (calls ++ calls') =
      allStores term con calls ++ allStores term (calls.foldl (apply term) con) calls' := by
  induction calls with
  | nil => exact fun _ => rfl
  | cons call calls ih =>
      intro con
      rw [List.cons_append, allStores, allStores, ih, List.append_assoc]
      rfl

/-- The list of the offsets is complete. -/
theorem storesAt_foldl (calls : List ScreenCall) : ∀ con : Console,
    Console.StoresAt (allStores term con calls) con (calls.foldl (apply term) con) := by
  induction calls with
  | nil => exact fun con => .refl con
  | cons call calls ih => exact fun con => (storesAt term con call).trans (ih _)

/-- Characters go on the page one after the other, and nothing is stored behind it. -/
theorem draws_puts (text : List UInt8) : ∀ {con : Console} {p : TextPage UInt8}, Draws con term p →
    (∀ c ∈ text, c ≠ 10 ∧ c ≠ 13) →
    Draws ((text.map putc).foldl (apply term) con) term (p.puts 25 80 32 text) ∧
      ∀ o ∈ allStores term con (text.map putc), Console.InPage o := by
  induction text with
  | nil => exact fun h _ => ⟨h, fun o ho => by simp [allStores] at ho⟩
  | cons c text ih =>
      intro con p h htext
      have hrow := h.row
      have hcol := h.col
      have hrow_lt := h.row_lt
      have hcol_lt := h.col_lt
      have hc := htext c List.mem_cons_self
      have hnext := ih (h.put (not_or.2 hc)) fun d hd => htext d (List.mem_cons_of_mem c hd)
      refine ⟨hnext.1, fun o ho => ?_⟩
      rcases List.mem_append.1 ho with ho | ho
      · exact Console.inPage_of_mem_putcStores (by omega) (by omega) ho
      · exact hnext.2 o ho

/-- They are taken back one after the other. -/
theorem draws_iterate_back (n : Nat) : ∀ {con : Console} {p : TextPage UInt8}, Draws con term p →
    n ≤ 80 * p.row + p.col →
    Draws ((List.replicate n delLastChar).foldl (apply term) con) term ((TextPage.back 80 32)^[n] p) ∧
      ∀ o ∈ allStores term con (List.replicate n delLastChar), Console.InPage o := by
  induction n with
  | zero => exact fun h _ => ⟨h, fun o ho => by simp [allStores] at ho⟩
  | succ n ih =>
      intro con p h hn
      have hrow := h.row
      have hcol := h.col
      have hrow_lt := h.row_lt
      have hcol_lt := h.col_lt
      have hback : n ≤ 80 * (p.back 80 32).row + (p.back 80 32).col := by
        simp only [TextPage.back]
        split <;> omega
      have hnext := ih (h.back (by omega)) hback
      refine ⟨hnext.1, fun o ho => ?_⟩
      rcases List.mem_append.1 ho with ho | ho
      · exact Console.inPage_of_mem_delLastCharStores (by omega) (by omega) (by omega) ho
      · exact hnext.2 o ho

end ScreenCall

/-! ## A line typed and taken back -/

/-- Type the characters and take as many back. -/
def typeAndErase (text : List UInt8) : List ScreenCall :=
  text.map .putc ++ List.replicate text.length .delLastChar

/-- The rows that go when `k` characters are typed from cell `(x, y)` on. -/
def scrolledRows (x y k : Nat) : Nat := y + (x + k) / 80 - 24

/-- The screen of `con` with the cursor at `(x, y)`, moved up by the rows that `k` characters need, with
    their cells blank and the cursor back where it was. -/
structure Undone (term : Term) (con : Console) (x y k : Nat) (con' : Console) : Prop where
  screenX : con'.screenX term = x
  screenY : con'.screenY term = (y : Int) - scrolledRows x y k
  cell : ∀ i < 2000, con'.cell i =
    if 80 * (y - scrolledRows x y k) + x ≤ i ∧ i < 80 * (y - scrolledRows x y k) + x + k then 32
    else if i + 80 * scrolledRows x y k < 2000 then con.cell (i + 80 * scrolledRows x y k) else 32

/-- On the page: `k` characters and `k` steps back. -/
theorem TextPage.undone {p p₁ p₂ : TextPage UInt8} (hrow : p.row < 25) (hcol : p.col < 80)
    {text : List UInt8} {k s : Nat} (hk : text.length = k) (hlen : k ≤ 1023)
    (hs : scrolledRows p.col p.row k = s) (hp₁ : p.puts 25 80 32 text = p₁)
    (hp₂ : (TextPage.back 80 32)^[k] p₁ = p₂) :
    k ≤ 80 * p₁.row + p₁.col ∧ s ≤ p.row ∧ p₂.row = p.row - s ∧ p₂.col = p.col ∧
      ∀ r c, r < 25 → c < 80 → p₂.cell r c =
        if 80 * p.row + p.col ≤ 80 * (s + r) + c ∧ 80 * (s + r) + c < 80 * p.row + p.col + k then 32
        else p.onPaper 25 32 (s + r) c := by
  obtain ⟨paper₁, top, h₁, hbottom, hplace, hsame⟩ :=
    (TextPage.frames_onPaper hrow hcol).puts text (.inl rfl)
  rw [hp₁] at h₁ hbottom hplace
  simp only [TextPage.place, Nat.zero_add, hk] at hplace hsame
  have hplace₁ : p₁.place 80 top = 80 * p.row + p.col + k := hplace
  have hrow₁ := h₁.row_lt
  have hcol₁ := h₁.col_lt
  -- the window has moved down by the rows that are gone
  have htop : top = s := by
    simp only [scrolledRows] at hs
    omega
  have hgone : s ≤ p.row := by
    simp only [scrolledRows] at hs
    omega
  subst htop
  have hfits : 80 * top + k ≤ p₁.place 80 top := by omega
  obtain ⟨paper₂, h₂, hplace₂, hpaper⟩ := h₁.iterate_back k hfits
  rw [hp₂] at h₂ hplace₂
  simp only [TextPage.place] at hplace₂
  have hrow₂ := h₂.row_lt
  have hcol₂ := h₂.col_lt
  refine ⟨by omega, hgone, by omega, by omega, fun r c hr hc => ?_⟩
  rw [h₂.cell r c hr, hpaper _ c hc]
  by_cases hin : 80 * p.row + p.col ≤ 80 * (top + r) + c ∧ 80 * (top + r) + c < 80 * p.row + p.col + k
  · rw [if_pos hin, if_pos (by omega)]
  · rw [if_neg hin, if_neg (by omega), hsame _ c hin]

/-- **Backspacing undoes typing**: up to 1023 characters that are no line breaks, taken back one by one,
    leave the screen as it was, moved up, and nothing is stored behind it on the way. -/
theorem undone_typeAndErase {term : Term} {con : Console} {x y : Nat} (hx : con.screenX term = x)
    (hy : con.screenY term = y) (hx80 : x < 80) (hy25 : y < 25) {text : List UInt8}
    (hlen : text.length ≤ 1023) (htext : ∀ c ∈ text, c ≠ 10 ∧ c ≠ 13) :
    Undone term con x y text.length
        ((typeAndErase text).foldl (ScreenCall.apply term) con) ∧
      Console.StoresAt (ScreenCall.allStores term con (typeAndErase text)) con
        ((typeAndErase text).foldl (ScreenCall.apply term) con) ∧
      ∀ o ∈ ScreenCall.allStores term con (typeAndErase text), Console.InPage o := by
  let p : TextPage UInt8 := ⟨fun r c => con.cell (80 * r + c), y, x⟩
  have hdraws : Draws con term p := ⟨fun _ _ _ _ => rfl, hy, hx, hy25, hx80⟩
  obtain ⟨hfits, hgone, hrow, hcol, hcells⟩ :=
    TextPage.undone hdraws.row_lt hdraws.col_lt rfl hlen rfl rfl rfl
  obtain ⟨htyped, hstores⟩ := ScreenCall.draws_puts text hdraws htext
  obtain ⟨herased, hstores'⟩ := ScreenCall.draws_iterate_back text.length htyped hfits
  rw [← List.foldl_append] at herased
  refine ⟨⟨?_, ?_, ?_⟩, ScreenCall.storesAt_foldl _ con, ?_⟩
  · rw [typeAndErase, herased.col, hcol]
  · rw [typeAndErase, herased.row, hrow]
    simp only [p] at hgone ⊢
    omega
  · intro i hi
    have hplace : 80 * (i / 80) + i % 80 = i := Nat.div_add_mod i 80
    have hcell := herased.cell (i / 80) (i % 80) (by omega) (Nat.mod_lt _ (by decide))
    rw [hplace, hcells _ _ (by omega) (Nat.mod_lt _ (by decide))] at hcell
    rw [typeAndErase, hcell]
    simp only [p, TextPage.onPaper] at hgone ⊢
    generalize scrolledRows x y text.length = s at *
    by_cases hin : 80 * (y - s) + x ≤ i ∧ i < 80 * (y - s) + x + text.length
    · rw [if_pos hin, if_pos (by omega)]
    · rw [if_neg hin, if_neg (by omega)]
      by_cases hold : i + 80 * s < 2000
      · rw [if_pos hold, if_pos (by omega)]
        congr 1
        omega
      · rw [if_neg hold, if_neg (by omega)]
  · intro o ho
    rw [typeAndErase, ScreenCall.allStores_append] at ho
    rcases List.mem_append.1 ho with ho | ho
    · exact hstores o ho
    · exact hstores' o ho

/-- A screen with the cursor on its last cell. -/
def lastCell : Console := { darkConsole with screenX := fun _ => 79, screenY := fun _ => 24 }

/-- The first letter moves the page up. -/
theorem undone_lastCell : Undone 0 lastCell 79 24 2
    ((typeAndErase [97, 98]).foldl (ScreenCall.apply 0) lastCell) := by
  have hundone := undone_typeAndErase (show lastCell.screenX 0 = (79 : Nat) from rfl)
    (show lastCell.screenY 0 = (24 : Nat) from rfl) (by decide) (by decide)
    (show [97, 98].length ≤ 1023 by decide) (by decide +kernel)
  exact hundone.1

end Gyarados

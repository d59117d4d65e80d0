import Mathlib.Logic.Function.Iterate
import Mathlib.Tactic.Ring
import Gyarados.Foundation.TextPage

set_option autoImplicit false

/-! # A page is a window on a roll of paper

A page that moves up loses its first row. On a roll of paper the rows above the page are still there,
every character keeps its place, and going on and going back are steps of one along the roll. -/

namespace Gyarados

variable {α : Type*}

namespace TextPage

/-- Take the character before the cursor back; not with the cursor on the first cell. -/
def back (cols : Nat) (blank : α) (p : TextPage α) : TextPage α :=
  let row := if p.col = 0 then p.row - 1 else p.row
  let col := if p.col = 0 then cols - 1 else p.col - 1
  { cell := fun r c => if r = row ∧ c = col then blank else p.cell r c, row, col }

/-- A text without line breaks. -/
def puts (rows cols : Nat) (blank : α) (text : List α) (p : TextPage α) : TextPage α :=
  text.foldl (fun p a => p.put rows cols blank a) p

/-- The page shows the rows of the paper from `top` on, and the paper is blank below it. -/
structure Frames (rows cols : Nat) (blank : α) (paper : Nat → Nat → α) (top : Nat) (p : TextPage α) :
    Prop where
  cell : ∀ r c, r < rows → p.cell r c = paper (top + r) c
  below : ∀ r c, top + rows ≤ r → paper r c = blank
  row_lt : p.row < rows
  col_lt : p.col < cols

/-- The number of cells on the paper before the cursor. -/
def place (cols top : Nat) (p : TextPage α) : Nat := cols * (top + p.row) + p.col

/-- Write one cell of the paper. -/
def mark (paper : Nat → Nat → α) (row col : Nat) (a : α) : Nat → Nat → α :=
  fun r c => if r = row ∧ c = col then a else paper r c

variable {rows cols top : Nat} {blank : α} {paper paper' : Nat → Nat → α} {p : TextPage α}

/-- Cells at different places are different. -/
theorem mark_of_ne {row col r c : Nat} (a : α) (h : cols * r + c ≠ cols * row + col) :
    mark paper row col a r c = paper r c := by
  refine if_neg ?_
  rintro ⟨rfl, rfl⟩
  exact h rfl

/-- A place has one row and one column. -/
theorem place_inj {row col r c : Nat} (hcol : col < cols) (hc : c < cols)
    (h : cols * r + c = cols * row + col) : r = row ∧ c = col := by
  have hpos : 0 < cols := Nat.zero_lt_of_lt hc
  constructor
  · have hdiv := congrArg (· / cols) h
    simpa [Nat.mul_add_div hpos, Nat.div_eq_of_lt hc, Nat.div_eq_of_lt hcol] using hdiv
  · have hmod := congrArg (· % cols) h
    simpa [Nat.mul_add_mod, Nat.mod_eq_of_lt hc, Nat.mod_eq_of_lt hcol] using hmod

namespace Frames

/-- A character goes to the place of the cursor. At the bottom the page moves down the paper. -/
theorem put (h : Frames rows cols blank paper top p) (hbottom : top = 0 ∨ p.row + 1 = rows) (a : α) :
    ∃ top', Frames rows cols blank (mark paper (top + p.row) p.col a) top' (p.put rows cols blank a) ∧
      (top' = 0 ∨ (p.put rows cols blank a).row + 1 = rows) ∧
      (p.put rows cols blank a).place cols top' = p.place cols top + 1 := by
  have hrow := h.row_lt
  have hcol := h.col_lt
  have hcell : ∀ r c, r < rows → (if r = p.row ∧ c = p.col then a else p.cell r c) =
      mark paper (top + p.row) p.col a (top + r) c := by
    intro r c hr
    simp only [mark, Nat.add_left_cancel_iff, h.cell r c hr]
  have hbelow : ∀ r c, top + rows ≤ r → mark paper (top + p.row) p.col a r c = blank := by
    intro r c hr
    rw [mark, if_neg (by omega), h.below r c hr]
  unfold TextPage.put TextPage.lineFeed
  dsimp only
  split
  · rename_i hfull
    split
    · rename_i hlast
      refine ⟨top + 1, ⟨?_, ?_, hrow, Nat.zero_lt_of_lt hcol⟩, .inr hlast, ?_⟩
      · intro r c hr
        have hnext : top + 1 + r = top + (r + 1) := by omega
        simp only [scroll]
        rw [hnext]
        split
        · rename_i hr'
          exact hcell (r + 1) c hr'
        · exact (hbelow _ c (by omega)).symm
      · exact fun r c hr => hbelow r c (by omega)
      · simp only [place, scroll]
        rw [show top + 1 + p.row = top + p.row + 1 by omega, Nat.mul_succ]
        omega
    · refine ⟨top, ⟨hcell, hbelow, by simp only; omega, Nat.zero_lt_of_lt hcol⟩, ?_, ?_⟩
      · simp only
        omega
      · simp only [place]
        rw [← Nat.add_assoc, Nat.mul_succ]
        omega
  · refine ⟨top, ⟨hcell, hbelow, hrow, by simp only; omega⟩, hbottom, ?_⟩
    simp only [place, Nat.add_assoc]

/-- **Going on**: a text without line breaks fills the cells from the cursor on, and moves the cursor
    by its length. -/
theorem puts (text : List α) : ∀ {p : TextPage α} {paper : Nat → Nat → α} {top : Nat},
    Frames rows cols blank paper top p → (top = 0 ∨ p.row + 1 = rows) →
    ∃ paper' top', Frames rows cols blank paper' top' (p.puts rows cols blank text) ∧
      (top' = 0 ∨ (p.puts rows cols blank text).row + 1 = rows) ∧
      (p.puts rows cols blank text).place cols top' = p.place cols top + text.length ∧
      ∀ r c, ¬ (p.place cols top ≤ cols * r + c ∧ cols * r + c < p.place cols top + text.length) →
        paper' r c = paper r c := by
  induction text with
  | nil => exact fun {_ paper top} h hbottom => ⟨paper, top, h, hbottom, rfl, fun _ _ _ => rfl⟩
  | cons a text ih =>
      intro p paper top h hbottom
      obtain ⟨top₁, h₁, hbottom₁, hplace₁⟩ := h.put hbottom a
      obtain ⟨paper', top', h', hbottom', hplace', hsame⟩ := ih h₁ hbottom₁
      refine ⟨paper', top', h', hbottom', ?_, ?_⟩
      · rw [List.length_cons]
        exact hplace'.trans (by omega)
      · intro r c hout
        rw [List.length_cons] at hout
        rw [hsame r c (by omega)]
        have hne : cols * r + c ≠ p.place cols top := by omega
        exact mark_of_ne a hne

/-- A step back blanks the place before the cursor, as long as it is on the page. -/
theorem back (h : Frames rows cols blank paper top p) (hpos : cols * top < p.place cols top) :
    ∃ row col, col < cols ∧ cols * row + col + 1 = p.place cols top ∧
      Frames rows cols blank (mark paper row col blank) top (p.back cols blank) ∧
      (p.back cols blank).place cols top + 1 = p.place cols top := by
  have hrow := h.row_lt
  have hcol := h.col_lt
  by_cases hzero : p.col = 0
  · have hrow₀ : p.row ≠ 0 := by
      intro hrow₀
      simp only [place, hrow₀, hzero, Nat.add_zero] at hpos
      omega
    obtain ⟨row, hrow'⟩ := Nat.exists_eq_succ_of_ne_zero hrow₀
    have hplace : cols * (top + row) + (cols - 1) + 1 = p.place cols top := by
      rw [place, hrow', hzero, Nat.succ_eq_add_one, ← Nat.add_assoc, Nat.mul_succ]
      omega
    refine ⟨top + row, cols - 1, by omega, hplace, ⟨?_, ?_, ?_, ?_⟩, ?_⟩
    · intro r c hr
      simp only [TextPage.back, mark, hzero, hrow', if_true, Nat.succ_sub_one,
        Nat.add_left_cancel_iff, h.cell r c hr]
    · intro r c hr
      rw [mark, if_neg (by omega), h.below r c hr]
    · simp only [TextPage.back, hzero, if_true]
      omega
    · simp only [TextPage.back, hzero, if_true]
      omega
    · rw [← hplace]
      simp only [place, TextPage.back, hzero, hrow', if_true, Nat.succ_sub_one]
  · have hplace : cols * (top + p.row) + (p.col - 1) + 1 = p.place cols top := by
      rw [place]
      omega
    refine ⟨top + p.row, p.col - 1, by omega, hplace, ⟨?_, ?_, ?_, ?_⟩, ?_⟩
    · intro r c hr
      simp only [TextPage.back, mark, hzero, if_false, Nat.add_left_cancel_iff, h.cell r c hr]
    · intro r c hr
      rw [mark, if_neg (by omega), h.below r c hr]
    · simpa only [TextPage.back, hzero, if_false] using hrow
    · simp only [TextPage.back, hzero, if_false]
      omega
    · rw [← hplace]
      simp only [place, TextPage.back, hzero, if_false]

/-- **Going back**: `n` steps blank the `n` cells before the cursor. -/
theorem iterate_back (n : Nat) : ∀ {p : TextPage α} {paper : Nat → Nat → α},
    Frames rows cols blank paper top p → cols * top + n ≤ p.place cols top →
    ∃ paper', Frames rows cols blank paper' top ((TextPage.back cols blank)^[n] p) ∧
      ((TextPage.back cols blank)^[n] p).place cols top + n = p.place cols top ∧
      ∀ r c, c < cols → paper' r c = if p.place cols top ≤ cols * r + c + n ∧
        cols * r + c < p.place cols top then blank else paper r c := by
  induction n with
  | zero =>
      intro p paper h _
      refine ⟨paper, h, rfl, fun r c _ => ?_⟩
      rw [if_neg (by omega)]
  | succ n ih =>
      intro p paper h hn
      obtain ⟨row, col, hcol, hcell, h₁, hplace₁⟩ := h.back (by omega)
      obtain ⟨paper', h', hplace', hpaper'⟩ := ih h₁ (by omega)
      refine ⟨paper', h', ?_, ?_⟩
      · rw [Function.iterate_succ_apply]
        omega
      · intro r c hc
        rw [hpaper' r c hc]
        by_cases hat : cols * r + c = cols * row + col
        · obtain ⟨rfl, rfl⟩ := place_inj hcol hc hat
          rw [if_neg (by omega), if_pos (by omega), mark, if_pos ⟨rfl, rfl⟩]
        · rw [mark_of_ne blank hat]
          by_cases hin : p.place cols top ≤ cols * r + c + (n + 1) ∧ cols * r + c < p.place cols top
          · rw [if_pos hin, if_pos (by omega)]
          · rw [if_neg hin, if_neg (by omega)]

end Frames

/-- The paper that a page without a past lies on. -/
def onPaper (rows : Nat) (blank : α) (p : TextPage α) : Nat → Nat → α :=
  fun r c => if r < rows then p.cell r c else blank

theorem frames_onPaper (hrow : p.row < rows) (hcol : p.col < cols) :
    Frames rows cols blank (p.onPaper rows blank) 0 p where
  cell r c hr := by rw [Nat.zero_add, onPaper, if_pos hr]
  below r c hr := if_neg (by omega)
  row_lt := hrow
  col_lt := hcol

end TextPage

end Gyarados

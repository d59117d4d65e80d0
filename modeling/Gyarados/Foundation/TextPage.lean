import Mathlib.Data.List.GetD
import Mathlib.Tactic.Common

set_option autoImplicit false

/-! # Text pages

A page of `rows` by `cols` characters with a cursor, on which a text is written character by
character: a row ends at a line break and when it is full, and at the bottom the page moves up by one
row. `Layout` is the same text laid out on an endless page; `Shows` says that the page is the last
`rows` rows of it. -/

namespace Gyarados

variable {α : Type*}

structure TextPage (α : Type*) where
  cell : Nat → Nat → α
  row : Nat
  col : Nat

/-- A text in rows: those that have ended, and the one being written. -/
structure Layout (α : Type*) where
  done : List (List α)
  last : List α

namespace Layout

def empty : Layout α := ⟨[], []⟩

def rows (l : Layout α) : List (List α) := l.done ++ [l.last]

/-- End the row. -/
def lineBreak (l : Layout α) : Layout α := ⟨l.done ++ [l.last], []⟩

/-- Write into the row; a row of `cols` characters ends at once. -/
def put (cols : Nat) (a : α) (l : Layout α) : Layout α :=
  let l' : Layout α := ⟨l.done, l.last ++ [a]⟩
  if l'.last.length = cols then l'.lineBreak else l'

/-- Write one character of a text. -/
def write (cols : Nat) (isBreak : α → Bool) (l : Layout α) (a : α) : Layout α :=
  if isBreak a then l.lineBreak else l.put cols a

/-- Lay a text out. -/
def ofText (cols : Nat) (isBreak : α → Bool) (text : List α) : Layout α :=
  text.foldl (write cols isBreak) empty

/-- The character at a place; the rows are blank behind their ends, and so are rows that are not
    there. -/
def charAt (blank : α) (l : Layout α) (r c : Nat) : α := (l.rows.getD r []).getD c blank

@[simp] theorem length_rows (l : Layout α) : l.rows.length = l.done.length + 1 := by simp [rows]

theorem charAt_lineBreak (blank : α) (l : Layout α) (r c : Nat) :
    l.lineBreak.charAt blank r c = l.charAt blank r c := by
  have hrows : l.lineBreak.rows = l.rows ++ [[]] := rfl
  unfold charAt
  rw [hrows]
  congr 1
  rcases Nat.lt_or_ge r l.rows.length with hr | hr
  · rw [List.getD_append _ _ _ _ hr]
  · rw [List.getD_eq_default _ _ hr, List.getD_append_right _ _ _ _ hr]
    cases r - l.rows.length <;> rfl

/-- A row that is not there is blank. -/
theorem charAt_of_le (blank : α) (l : Layout α) {r : Nat} (h : l.rows.length ≤ r) (c : Nat) :
    l.charAt blank r c = blank := by
  rw [charAt, List.getD_eq_default _ _ h]
  rfl

/-- Writing into the row changes one place. -/
theorem charAt_append (blank : α) (done : List (List α)) (last : List α) (a : α) (r c : Nat) :
    charAt blank ⟨done, last ++ [a]⟩ r c =
      if r = done.length ∧ c = last.length then a else charAt blank ⟨done, last⟩ r c := by
  unfold charAt rows
  rcases Nat.lt_trichotomy r done.length with hr | hr | hr
  · rw [if_neg (by omega), List.getD_append _ _ _ _ hr, List.getD_append _ _ _ _ hr]
  · subst hr
    have hrow : ∀ row : List α, (done ++ [row]).getD done.length [] = row := by
      intro row
      rw [List.getD_append_right _ _ _ _ (Nat.le_refl _), Nat.sub_self, List.getD_cons_zero]
    rw [hrow, hrow]
    simp only [true_and]
    rcases Nat.lt_trichotomy c last.length with hc | hc | hc
    · rw [if_neg (by omega), List.getD_append _ _ _ _ hc]
    · subst hc
      simp
    · rw [if_neg (by omega), List.getD_eq_default _ _ (by simp; omega),
        List.getD_eq_default _ _ (by omega)]
  · have hout : ∀ row : List α, (done ++ [row]).getD r [] = [] := by
      intro row
      exact List.getD_eq_default _ _ (by rw [List.length_append, List.length_singleton]; omega)
    rw [if_neg (by omega), hout, hout]

end Layout

namespace TextPage

/-- Move the page up by one row. -/
def scroll (rows : Nat) (blank : α) (p : TextPage α) : TextPage α :=
  { p with cell := fun r c => if r + 1 < rows then p.cell (r + 1) c else blank }

/-- Go to the next row, moving the page up at its bottom. -/
def lineFeed (rows : Nat) (blank : α) (p : TextPage α) : TextPage α :=
  if p.row + 1 = rows then { p.scroll rows blank with col := 0 }
  else { p with row := p.row + 1, col := 0 }

/-- Write at the cursor and move it on; a full row is left at once. -/
def put (rows cols : Nat) (blank a : α) (p : TextPage α) : TextPage α :=
  let p' : TextPage α :=
    { p with
      cell := fun r c => if r = p.row ∧ c = p.col then a else p.cell r c
      col := p.col + 1 }
  if p'.col = cols then p'.lineFeed rows blank else p'

/-- Write one character of a text. -/
def write (rows cols : Nat) (blank : α) (isBreak : α → Bool) (p : TextPage α) (a : α) : TextPage α :=
  if isBreak a then p.lineFeed rows blank else p.put rows cols blank a

/-- The page is the last `rows` rows of the layout, with the cursor at the end of the text. -/
structure Shows (rows : Nat) (blank : α) (p : TextPage α) (l : Layout α) : Prop where
  cell : ∀ r c, r < rows → p.cell r c = l.charAt blank (l.rows.length - rows + r) c
  row : p.row = min (l.rows.length - 1) (rows - 1)
  col : p.col = l.last.length

namespace Shows

variable {rows cols : Nat} {blank : α} {p : TextPage α} {l : Layout α}

theorem lineFeed (h : Shows rows blank p l) (hrows : 0 < rows) :
    Shows rows blank (p.lineFeed rows blank) l.lineBreak := by
  have hrow := h.row
  have hpos := l.length_rows
  have hlen : l.lineBreak.rows.length = l.rows.length + 1 := by simp [Layout.lineBreak]
  unfold TextPage.lineFeed
  split
  · -- at the bottom: the first row goes, and a blank one comes
    refine ⟨?_, ?_, rfl⟩
    · intro r c hr
      rw [hlen, Layout.charAt_lineBreak]
      simp only [scroll]
      split
      · rw [h.cell _ _ (by omega)]
        congr 1
        omega
      · rw [Layout.charAt_of_le _ _ (by omega)]
    · simp only [scroll, hlen]
      omega
  · refine ⟨?_, ?_, rfl⟩
    · intro r c hr
      rw [hlen, Layout.charAt_lineBreak]
      simp only [h.cell r c hr]
      congr 1
      omega
    · simp only [hlen]
      omega

theorem put (h : Shows rows blank p l) (hrows : 0 < rows) (a : α) :
    Shows rows blank (p.put rows cols blank a) (l.put cols a) := by
  have hrow := h.row
  have hplace : Shows rows blank { p with
      cell := fun r c => if r = p.row ∧ c = p.col then a else p.cell r c
      col := p.col + 1 } ⟨l.done, l.last ++ [a]⟩ := by
    refine ⟨?_, ?_, ?_⟩
    · intro r c hr
      have hlen := l.length_rows
      have hcell := h.cell r c hr
      rw [Layout.charAt_append, Layout.length_rows]
      rw [hlen] at hrow hcell
      simp only [h.col, hcell]
      -- the row being written is the last one of the layout and the cursor's on the page
      have hiff : r = p.row ∧ c = l.last.length ↔
          l.done.length + 1 - rows + r = l.done.length ∧ c = l.last.length := by omega
      simp only [hiff]
    · simpa using h.row
    · simp [h.col]
  unfold TextPage.put Layout.put
  simp only [List.length_append, List.length_singleton, h.col]
  split
  · rename_i hfull
    have := hplace.lineFeed hrows
    simpa [h.col] using this
  · simpa [h.col] using hplace

/-- **One character** keeps the page and the layout together. -/
theorem write (h : Shows rows blank p l) (hrows : 0 < rows) (isBreak : α → Bool) (a : α) :
    Shows rows blank (p.write rows cols blank isBreak a) (l.write cols isBreak a) := by
  unfold TextPage.write Layout.write
  split
  · exact h.lineFeed hrows
  · exact h.put hrows a

/-- **A text** on a page shows the last rows of its layout. -/
theorem foldl_write (hrows : 0 < rows) (isBreak : α → Bool) (text : List α)
    (h : Shows rows blank p l) :
    Shows rows blank (text.foldl (TextPage.write rows cols blank isBreak) p)
      (text.foldl (Layout.write cols isBreak) l) := by
  induction text generalizing p l with
  | nil => exact h
  | cons a text ih => exact ih (h.write hrows isBreak a)

/-- A blank page shows the empty text. -/
theorem empty (hblank : ∀ r c, r < rows → p.cell r c = blank) (hrow : p.row = 0) (hcol : p.col = 0) :
    Shows rows blank p Layout.empty := by
  refine ⟨?_, ?_, hcol⟩
  · intro r c hr
    rw [hblank r c hr]
    simp only [Layout.empty, Layout.charAt, Layout.rows, List.nil_append]
    cases hi : [([] : List α)].length - rows + r <;> rfl
  · rw [hrow]
    simp [Layout.empty, Layout.rows]

end Shows

end TextPage

end Gyarados

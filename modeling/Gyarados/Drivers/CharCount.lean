import Gyarados.Drivers.Keypress
import Gyarados.Foundation.Run
import Gyarados.Lib.OnScreen

set_option autoImplicit false

/-! # Character counts and cursors

A backspace moves the cursor back when the count of the line says that there is a character to take
back; where the cursor is, only `lib.c` knows. The two agree as long as there are no more characters
in the line than there are cells before the cursor. For each handler: the calls it makes to `lib.c`,
and that they keep this. -/

namespace Gyarados

/-- The number of cells before the cursor. -/
def Console.position (con : Console) (t : Term) : Int := 80 * con.screenY t + con.screenX t

namespace ScreenCall

/-- A call that is allowed. -/
def step (term : Term) (con : Console) (call : ScreenCall) : Option Console :=
  if call.Allowed term con then some (call.apply term con) else none

/-- The offsets that a sequence of calls stores to. -/
def allStores (term : Term) : Console → List ScreenCall → List Int
  | _, [] => []
  | con, call :: calls => call.stores term con ++ allStores term (call.apply term con) calls

variable {term : Term} {con con' : Console} {call : ScreenCall} {calls : List ScreenCall}

theorem step_eq_some : step term con call = some con' ↔
    call.Allowed term con ∧ con' = call.apply term con := by
  unfold step
  split
  · rename_i hok
    simp [hok, eq_comm]
  · rename_i hok
    simp [hok]

/-- Calls that are allowed store to the visible page. -/
theorem inPage_of_mem_allStores (h : con.OnScreen) (hrun : run (step term) con calls = some con')
    {o : Int} (ho : o ∈ allStores term con calls) : Console.InPage o := by
  induction calls generalizing con with
  | nil => simp [allStores] at ho
  | cons call calls ih =>
      obtain ⟨con₁, hstep, hrun⟩ := run_cons_eq_some.1 hrun
      obtain ⟨hok, rfl⟩ := step_eq_some.1 hstep
      rcases List.mem_append.1 ho with ho | ho
      · exact inPage_of_mem_stores h hok ho
      · exact ih (onScreen h hok) hrun ho

/-- The list of the offsets is complete. -/
theorem storesAt_run (hrun : run (step term) con calls = some con') :
    Console.StoresAt (allStores term con calls) con con' := by
  induction calls generalizing con with
  | nil =>
      obtain rfl := Option.some.inj hrun
      exact .refl con
  | cons call calls ih =>
      obtain ⟨con₁, hstep, hrun⟩ := run_cons_eq_some.1 hrun
      obtain ⟨-, rfl⟩ := step_eq_some.1 hstep
      exact (storesAt term con call).trans (ih hrun)

theorem run_singleton (h : call.Allowed term con) :
    run (step term) con [call] = some (call.apply term con) := by
  rw [run, step, if_pos h]
  rfl

end ScreenCall

/-! ## Where the cursor goes -/

namespace Console

variable {con con' : Console} {term : Term}

/-- The cursor of `term` moves on, or it is in the last row; the others stay. -/
structure Advances (term : Term) (con con' : Console) : Prop where
  self : con.position term < con'.position term ∨ 1920 ≤ con'.position term
  other : ∀ t, t ≠ term → con'.position t = con.position t

theorem advances_of_update {x y : Int} (hscreenX : con'.screenX = Function.update con.screenX term x)
    (hscreenY : con'.screenY = Function.update con.screenY term y)
    (h : con.position term < 80 * y + x ∨ 1920 ≤ 80 * y + x) : Advances term con con' where
  self := by
    unfold position at *
    rw [hscreenX, hscreenY, Function.update_self, Function.update_self]
    exact h
  other t ht := by
    unfold position
    rw [hscreenX, hscreenY, Function.update_of_ne ht, Function.update_of_ne ht]

theorem OnScreen.advances_newLine (h : con.OnScreen) (term : Term) :
    Advances term con (con.newLine term) := by
  obtain ⟨hx, hy⟩ := h term
  apply advances_of_update (con.screenX_newLine term) (con.screenY_newLine term)
  unfold position
  split <;> omega

theorem OnScreen.advances_putc (h : con.OnScreen) (term : Term) (c : UInt8) :
    Advances term con (con.putc term c) := by
  obtain ⟨hx, hy⟩ := h term
  by_cases hc : c = 10 ∨ c = 13
  · rw [putc_break con term hc]
    exact h.advances_newLine term
  · by_cases hlast : con.screenX term = 79
    · rw [putc_wrap con term hc hlast hy.1 hy.2]
      have hX := (con.putChar term c).screenX_newLine term
      have hY := (con.putChar term c).screenY_newLine term
      simp only [putChar, moveTo, putCell, Function.update_idem, Function.update_self] at hX hY
      apply advances_of_update hX hY
      unfold position
      split <;> omega
    · rw [putc_char con term hc hx.1 (by omega) hy.1 hy.2]
      refine advances_of_update (x := con.screenX term + 1) (y := con.screenY term) rfl rfl ?_
      unfold position
      omega

/-- `del_last_char` moves back by one cell. -/
theorem position_delLastChar (con : Console) (term t : Term) :
    (con.delLastChar term).position t = if t = term then con.position term - 1 else con.position t := by
  have hX : (con.delLastChar term).screenX =
      Function.update con.screenX term (backX (con.screenX term)) := by
    rw [delLastChar_eq]
    rfl
  have hY : (con.delLastChar term).screenY =
      Function.update con.screenY term (backY (con.screenX term) (con.screenY term)) := by
    rw [delLastChar_eq]
    rfl
  unfold position
  rw [hX, hY]
  split
  · rename_i ht
    subst ht
    rw [Function.update_self, Function.update_self]
    unfold backX backY
    split <;> omega
  · rename_i ht
    rw [Function.update_of_ne ht, Function.update_of_ne ht]

theorem position_clearScreen (con : Console) (t : Term) :
    con.clearScreen.position t = if t = con.activeTerminal then 0 else con.position t := by
  have hblank := con.blankCells_onlyVideo 2000
  unfold position
  rw [clearScreen_eq]
  simp only [updateCursor, moveTo, hblank.screenX, hblank.screenY, Function.update_apply]
  split <;> rfl

theorem position_updateScreen (con : Console) (dest src t : Term) :
    (con.updateScreen dest src).position t = con.position t := by
  unfold position
  rw [screenX_updateScreen, screenY_updateScreen]

end Console

/-! ## Loops that leave the counts alone -/

theorem Keyboard.numCharsInBuf_zeroKeys (term : Term) (n : Nat) : ∀ (i : Nat) (k : Keyboard),
    (zeroKeys term n i k).numCharsInBuf = k.numCharsInBuf := by
  induction n with
  | zero => exact fun _ _ => rfl
  | succ n ih => exact fun i k => ih (i + 1) _

theorem Tty.numCharsInBuf_terminalReadLoop (term : Term) (n : Nat) : ∀ (i : Nat) (buf : Stores)
    (k : Keyboard), (terminalReadLoop term n i (buf, k)).2.numCharsInBuf = k.numCharsInBuf := by
  induction n with
  | zero => exact fun _ _ _ => rfl
  | succ n ih => exact fun i buf k => ih (i + 1) _ _

/-! ## The calls of the handlers -/

namespace Tty

/-- `add_char_to_buffer` -/
def addCharCalls (c : UInt8) (term : Term) (s : Tty) : List ScreenCall :=
  if s.kbd.numCharsInBuf term < maxCharsInBuf then
    if c = 10 then [.newLine] else if c = 0 then [] else [.putc c]
  else []

/-- The loops of `terminal_write` and `fill_curr_command`. -/
def writeCalls (term : Term) : List UInt8 → Tty → List ScreenCall
  | [], _ => []
  | c :: cs, s => s.addCharCalls c term ++ writeCalls term cs (s.addCharToBuffer c term).2

/-- `handle_backspace` -/
def backspaceCalls (s : Tty) : List ScreenCall :=
  if s.kbd.numCharsInBuf s.kbd.activeTerminal > 0 then [.delLastChar] else []

/-- `handle_tab` -/
def tabCalls (I : Image) (s : Tty) : List ScreenCall :=
  match I.autocompleteCommand (s.kbd.currText s.kbd.activeTerminal) with
  | none => []
  | some completeName =>
      List.replicate (s.kbd.numCharsInBuf s.kbd.activeTerminal) .delLastChar ++
        writeCalls s.kbd.activeTerminal completeName s.resetCurrCommand

/-- The cursors are on the screen, and no line is longer than its buffer or than the text before its
    cursor. -/
structure CountFits (s : Tty) : Prop where
  onScreen : s.con.OnScreen
  numChars_le : ∀ t, s.kbd.numCharsInBuf t ≤ maxCharsInBuf
  numChars_le_position : ∀ t, (s.kbd.numCharsInBuf t : Int) ≤ s.con.position t

/-- The calls lead from `s` to `s'` on the terminal `term`, which stays on display, and keep the
    counts. -/
structure Handled (term : Term) (s : Tty) (calls : List ScreenCall) (s' : Tty) : Prop where
  run : run (ScreenCall.step term) s.con calls = some s'.con
  fits : s'.CountFits
  activeTerminal : s'.kbd.activeTerminal = term

variable {s s' s'' : Tty} {term : Term} {calls calls' : List ScreenCall}

theorem Handled.trans (h : Handled term s calls s') (h' : Handled term s' calls' s'') :
    Handled term s (calls ++ calls') s'' :=
  ⟨run_append_eq_some.2 ⟨s'.con, h.run, h'.run⟩, h'.fits, h'.activeTerminal⟩

/-- No call. -/
theorem CountFits.handled_nil (h : s.CountFits) (kbd : Keyboard) (hkbd : kbd.activeTerminal = term)
    (hcount : ∀ t, kbd.numCharsInBuf t ≤ s.kbd.numCharsInBuf t) :
    Handled term s [] { s with kbd } where
  run := rfl
  fits := ⟨h.onScreen, fun t => (hcount t).trans (h.numChars_le t),
    fun t => Int.le_trans (Int.ofNat_le.2 (hcount t)) (h.numChars_le_position t)⟩
  activeTerminal := hkbd

/-- One call that moves the cursor on, with at most one more character in the line. -/
theorem CountFits.handled_advances (h : s.CountFits) (call : ScreenCall) (kbd : Keyboard)
    (hok : call.Allowed term s.con) (hadv : Console.Advances term s.con (call.apply term s.con))
    (hkbd : kbd.activeTerminal = term)
    (hself : kbd.numCharsInBuf term ≤ s.kbd.numCharsInBuf term + 1)
    (hle : kbd.numCharsInBuf term ≤ maxCharsInBuf)
    (hother : ∀ t, t ≠ term → kbd.numCharsInBuf t = s.kbd.numCharsInBuf t) :
    Handled term s [call] ⟨kbd, call.apply term s.con⟩ where
  run := ScreenCall.run_singleton hok
  fits := by
    refine ⟨ScreenCall.onScreen h.onScreen hok, ?_, ?_⟩
    · intro t
      by_cases ht : t = term
      · exact ht ▸ hle
      · exact (hother t ht).trans_le (h.numChars_le t)
    · intro t
      by_cases ht : t = term
      · subst ht
        have hpos := h.numChars_le_position t
        have hself' := hadv.self
        simp only [maxCharsInBuf] at hle
        dsimp only
        omega
      · show (kbd.numCharsInBuf t : Int) ≤ _
        rw [hother t ht, hadv.other t ht]
        exact h.numChars_le_position t
  activeTerminal := hkbd

theorem CountFits.handled_addCharToBuffer (h : s.CountFits) (hactive : s.kbd.activeTerminal = term)
    (c : UInt8) : Handled term s (s.addCharCalls c term) (s.addCharToBuffer c term).2 := by
  unfold addCharCalls addCharToBuffer
  split
  · rename_i hlt
    split
    · rw [newLine, hactive]
      exact h.handled_advances .newLine s.kbd trivial (h.onScreen.advances_newLine term) hactive
        (Nat.le_succ _) (h.numChars_le term) fun _ _ => rfl
    · split
      · exact h.handled_nil s.kbd hactive fun _ => Nat.le_refl _
      · simp only [putc, Keyboard.setKey, Keyboard.setNumChars, hactive]
        refine h.handled_advances (.putc c) _ trivial (h.onScreen.advances_putc term c) rfl ?_ ?_
          ?_
        · simp
        · simpa using Nat.succ_le_of_lt hlt
        · intro t ht
          simp [ht]
  · exact h.handled_nil s.kbd hactive fun _ => Nat.le_refl _

theorem CountFits.handled_terminalWriteLoop (buf : List UInt8) : ∀ {s : Tty} (n : Int), s.CountFits →
    s.kbd.activeTerminal = term →
    Handled term s (writeCalls term buf s) (terminalWriteLoop term buf (n, s)).2 := by
  induction buf with
  | nil => exact fun n h hactive => h.handled_nil _ hactive fun _ => Nat.le_refl _
  | cons c cs ih =>
      intro s n h hactive
      have hchar := h.handled_addCharToBuffer hactive c
      exact hchar.trans (ih _ hchar.fits hchar.activeTerminal)

/-- `terminal_write` -/
theorem CountFits.handled_terminalWrite (h : s.CountFits) (hactive : s.kbd.activeTerminal = term)
    (buf : List UInt8) :
    Handled term s (writeCalls term buf s) (s.terminalWrite term buf).2 := by
  have hloop := handled_terminalWriteLoop buf 0 h hactive
  have hreset := hloop.fits.handled_nil
    (((terminalWriteLoop term buf (0, s)).2.kbd.setNumChars
      (terminalWriteLoop term buf (0, s)).2.kbd.activeTerminal 0).setReady
        (terminalWriteLoop term buf (0, s)).2.kbd.activeTerminal false) hloop.activeTerminal fun t => by
    simp only [Keyboard.setReady, Keyboard.setNumChars, Function.update_apply]
    split <;> omega
  have := hloop.trans hreset
  rwa [List.append_nil] at this

/-- `fill_curr_command` is the loop of `terminal_write`. -/
theorem fillCurrCommand_eq (cs : List UInt8) : ∀ (n : Int) {s : Tty}, s.kbd.activeTerminal = term →
    fillCurrCommand cs s = (terminalWriteLoop term cs (n, s)).2 := by
  induction cs with
  | nil => exact fun _ _ _ => rfl
  | cons c cs ih =>
      intro n s hactive
      rw [fillCurrCommand, hactive]
      exact ih _ ((addCharToBuffer_sameTerminals c term s).activeTerminal.trans hactive)

/-- Taking a character back moves the cursor back. -/
theorem CountFits.handled_eraseChar (h : s.CountFits) (hactive : s.kbd.activeTerminal = term)
    (hpos : s.kbd.numCharsInBuf term > 0) : Handled term s [.delLastChar] s.eraseChar := by
  have hle := h.numChars_le_position term
  have hok : ScreenCall.Allowed term s.con .delLastChar := by
    rintro ⟨hx, hy⟩
    rw [Console.position, hx, hy] at hle
    omega
  have hcount : ∀ t, s.eraseChar.kbd.numCharsInBuf t =
      if t = term then s.kbd.numCharsInBuf term - 1 else s.kbd.numCharsInBuf t := by
    intro t
    simp only [eraseChar, delLastChar, Keyboard.setKey, Keyboard.setNumChars, hactive,
      Function.update_apply]
  have hcon : s.eraseChar.con = s.con.delLastChar term := by
    rw [← hactive]
    rfl
  refine ⟨?_, ⟨?_, ?_, ?_⟩, hactive⟩
  · rw [hcon]
    exact ScreenCall.run_singleton hok
  · rw [hcon]
    exact h.onScreen.delLastChar hok
  · intro t
    have := h.numChars_le t
    rw [hcount]
    split
    · rename_i ht
      subst ht
      omega
    · exact this
  · intro t
    have := h.numChars_le_position t
    rw [hcount, hcon, Console.position_delLastChar]
    split <;> omega

/-- `handle_backspace` -/
theorem CountFits.handled_backspace (h : s.CountFits) (hactive : s.kbd.activeTerminal = term) :
    Handled term s s.backspaceCalls s.handleBackspace := by
  rw [handleBackspace_eq, backspaceCalls]
  split
  · rename_i hpos
    exact h.handled_eraseChar hactive (hactive ▸ hpos)
  · exact h.handled_nil s.kbd hactive fun _ => Nat.le_refl _

theorem CountFits.handled_eraseChars (n : Nat) : ∀ {s : Tty}, s.CountFits →
    s.kbd.activeTerminal = term → s.kbd.numCharsInBuf term = n →
    Handled term s (List.replicate n .delLastChar) (eraseChars n s) := by
  induction n with
  | zero => exact fun h hactive _ => h.handled_nil _ hactive fun _ => Nat.le_refl _
  | succ n ih =>
      intro s h hactive hn
      have herase := h.handled_eraseChar hactive (by omega)
      refine herase.trans (ih herase.fits herase.activeTerminal ?_)
      simp [eraseChar, delLastChar, Keyboard.setKey, Keyboard.setNumChars, hactive, hn]

/-- `handle_tab` takes the characters back that it has counted, and types the completion. -/
theorem CountFits.handled_tab (h : s.CountFits) (hactive : s.kbd.activeTerminal = term) (I : Image) :
    Handled term s (s.tabCalls I) (s.handleTab I) := by
  unfold tabCalls handleTab
  cases I.autocompleteCommand (s.kbd.currText s.kbd.activeTerminal) with
  | none => exact h.handled_nil s.kbd hactive fun _ => Nat.le_refl _
  | some completeName =>
    dsimp only
    have hreset : Handled term s
        (List.replicate (s.kbd.numCharsInBuf s.kbd.activeTerminal) .delLastChar)
        s.resetCurrCommand := by
      rw [resetCurrCommand, hactive]
      exact handled_eraseChars _ h hactive rfl
    rw [fillCurrCommand_eq completeName 0 hreset.activeTerminal, hactive]
    rw [hactive] at hreset
    exact hreset.trans (handled_terminalWriteLoop completeName 0 hreset.fits hreset.activeTerminal)

/-- `handle_enter` makes no call. -/
theorem CountFits.handled_enter (h : s.CountFits) (hactive : s.kbd.activeTerminal = term) :
    Handled term s [] s.handleEnter := by
  have hcount : s.handleEnter.kbd.numCharsInBuf = s.kbd.numCharsInBuf :=
    Keyboard.numCharsInBuf_zeroKeys _ _ _ s.kbd
  exact h.handled_nil _ ((handleEnter_sameTerminals s).activeTerminal.trans hactive)
    fun t => Nat.le_of_eq (congrFun hcount t)

/-- `terminal_read` -/
theorem CountFits.handled_terminalRead (h : s.CountFits) (hactive : s.kbd.activeTerminal = term)
    {nbytes ret : Int} {buf : Stores} (hread : s.terminalRead term nbytes = some (ret, buf, s')) :
    Handled term s [.newLine] s' := by
  have hsame := (terminalRead_sameTerminals hread).activeTerminal
  unfold terminalRead at hread
  split at hread
  · simp at hread
  · obtain ⟨-, -, rfl⟩ := by simpa using hread
    have hloop := terminalReadLoop_sameTerminals term (nbytes + 1).toNat 0 .empty s.kbd
    have hcount := numCharsInBuf_terminalReadLoop term (nbytes + 1).toNat 0 .empty s.kbd
    simp only [newLine, hloop.activeTerminal, hactive]
    refine h.handled_advances .newLine _ trivial (h.onScreen.advances_newLine term) ?_ ?_ ?_
      ?_
    · exact hloop.activeTerminal.trans hactive
    · simp [Keyboard.setReady, Keyboard.setNumChars]
    · simp [Keyboard.setReady, Keyboard.setNumChars]
    · intro t ht
      simp [Keyboard.setReady, Keyboard.setNumChars, ht, hcount]

/-- `reset_term`, when the cursor that `clear_screen` moves is that of a terminal without
    characters once the line of the displayed one has been emptied. -/
theorem CountFits.handled_resetTerm (h : s.CountFits) (hactive : s.kbd.activeTerminal = term)
    (hclear : s.con.activeTerminal = term ∨ s.kbd.numCharsInBuf s.con.activeTerminal = 0) :
    Handled term s [.clearScreen] s.resetTerm := by
  have hcount : ∀ t, s.resetTerm.kbd.numCharsInBuf t =
      if t = term then 0 else s.kbd.numCharsInBuf t := by
    intro t
    simp only [resetTerm, Keyboard.setNumChars, Keyboard.numCharsInBuf_zeroKeys, hactive,
      Function.update_apply]
  refine ⟨ScreenCall.run_singleton trivial, ⟨h.onScreen.clearScreen, ?_, ?_⟩, ?_⟩
  · intro t
    have := h.numChars_le t
    rw [hcount]
    split <;> omega
  · intro t
    have hpos := h.numChars_le_position t
    have hzero := h.onScreen t
    have hcell : (0 : Int) ≤ s.con.position t := by
      unfold Console.position
      omega
    rw [hcount, resetTerm, Console.position_clearScreen]
    split
    · split <;> simp [hcell]
    · rename_i ht
      split
      · rename_i hcached
        rcases hclear with hclear | hclear
        · exact absurd (hcached.trans hclear) ht
        · rw [hcached, hclear]
          exact Int.le_refl _
      · exact hpos
  · exact (resetTerm_sameTerminals s).activeTerminal.trans hactive

/-- `clear_screen`, when the terminal whose cursor it moves has no characters. -/
theorem CountFits.clearScreen (h : s.CountFits)
    (hclear : s.kbd.numCharsInBuf s.con.activeTerminal = 0) :
    ({ s with con := s.con.clearScreen } : Tty).CountFits := by
  refine ⟨h.onScreen.clearScreen, h.numChars_le, fun t => ?_⟩
  have hpos := h.numChars_le_position t
  show (s.kbd.numCharsInBuf t : Int) ≤ s.con.clearScreen.position t
  rw [Console.position_clearScreen]
  split
  · rename_i hcached
    rw [hcached, hclear]
    exact Int.le_refl _
  · exact hpos

/-- A switch moves no cursor. -/
theorem CountFits.updateScreen (h : s.CountFits) (next : Term) {kbd : Keyboard}
    (hcount : kbd.numCharsInBuf = s.kbd.numCharsInBuf) :
    (⟨kbd, s.con.updateScreen next s.kbd.activeTerminal⟩ : Tty).CountFits where
  onScreen := h.onScreen.updateScreen next s.kbd.activeTerminal
  numChars_le t := by
    show kbd.numCharsInBuf t ≤ _
    rw [hcount]
    exact h.numChars_le t
  numChars_le_position t := by
    show (kbd.numCharsInBuf t : Int) ≤ (s.con.updateScreen next s.kbd.activeTerminal).position t
    rw [hcount, Console.position_updateScreen]
    exact h.numChars_le_position t

end Tty

end Gyarados

import Gyarados.Drivers.Cursors
import Gyarados.Drivers.Output

set_option autoImplicit false

/-! # The cursor of the displayed terminal

`putc`, `new_line` and `del_last_char` ask `keyboard.c` which terminal is on display. `clear_screen`
takes the number that one of them has left in `lib.c`, and a switch does not bring it up to date. -/

namespace Gyarados

/-! ## Cursors -/

namespace Console

/-- From `con` to `con'` the cursor of `term` moves at most. -/
def MovesOnly (term : Term) (con con' : Console) : Prop :=
  ∀ t, t ≠ term → con'.screenX t = con.screenX t ∧ con'.screenY t = con.screenY t

theorem MovesOnly.trans {term : Term} {con con' con'' : Console} (h : MovesOnly term con con')
    (h' : MovesOnly term con' con'') : MovesOnly term con con'' := by
  intro t ht
  exact ⟨(h' t ht).1.trans (h t ht).1, (h' t ht).2.trans (h t ht).2⟩

variable (con : Console) (term : Term)

theorem movesOnly_of_update {con' : Console} {x y : Int}
    (hscreenX : con'.screenX = Function.update con.screenX term x)
    (hscreenY : con'.screenY = Function.update con.screenY term y) : MovesOnly term con con' := by
  intro t ht
  rw [hscreenX, hscreenY, Function.update_of_ne ht, Function.update_of_ne ht]
  exact ⟨rfl, rfl⟩

theorem movesOnly_moveTo (x y : Int) : MovesOnly term con (con.moveTo term x y) :=
  con.movesOnly_of_update term rfl rfl

theorem movesOnly_newLine : MovesOnly term con (con.newLine term) :=
  con.movesOnly_of_update term (con.screenX_newLine term) (con.screenY_newLine term)

theorem movesOnly_settle : MovesOnly term con (con.settle term) :=
  (con.movesOnly_moveTo term _ _).trans (movesOnly_moveTo _ term _ _)

theorem movesOnly_putc (c : UInt8) : MovesOnly term con (con.putc term c) := by
  by_cases hc : c = 10 ∨ c = 13
  · rw [putc_break con term hc]
    exact con.movesOnly_newLine term
  · have hchar : MovesOnly term con (con.putChar term c) := movesOnly_of_update con term rfl rfl
    rw [putc_of_not_break con term hc]
    refine MovesOnly.trans ?_ (movesOnly_settle _ term)
    split
    · exact hchar.trans (movesOnly_newLine _ term)
    · exact hchar

theorem movesOnly_delLastChar : MovesOnly term con (con.delLastChar term) := by
  rw [delLastChar_eq]
  exact movesOnly_of_update con term rfl rfl

/-- `clear_screen` moves the cursor of the terminal that `lib.c` last saw. -/
theorem cursor_clearScreen (t : Term) :
    con.clearScreen.screenX t = (if t = con.activeTerminal then 0 else con.screenX t) ∧
      con.clearScreen.screenY t = if t = con.activeTerminal then 0 else con.screenY t := by
  have hblank := con.blankCells_onlyVideo 2000
  rw [clearScreen_eq]
  simp only [updateCursor, moveTo, hblank.screenX, hblank.screenY, Function.update_apply, and_self]

/-- The number in `lib.c` is that of the displayed terminal, or the cursors of both are in the first
    cell already. -/
def ClearsDisplayed (term : Term) (con : Console) : Prop :=
  con.activeTerminal = term ∨ ((con.screenX term = 0 ∧ con.screenY term = 0) ∧
    con.screenX con.activeTerminal = 0 ∧ con.screenY con.activeTerminal = 0)

instance : Decidable (con.ClearsDisplayed term) := inferInstanceAs (Decidable (_ ∨ _))

end Console

/-! ## One call -/

/-- Where the call leaves the cursors while `term` is on display: those of the other terminals where
    they were, and after a clear that of the displayed one in the first cell. -/
structure ScreenCall.OnlyDisplayed (term : Term) (con : Console) (call : ScreenCall) : Prop where
  other : Console.MovesOnly term con (call.apply term con)
  home : call = .clearScreen →
    (call.apply term con).screenX term = 0 ∧ (call.apply term con).screenY term = 0

/-- A clear finds the right number. -/
def ScreenCall.FindsDisplayed (term : Term) (con : Console) : ScreenCall → Prop
  | .clearScreen => con.ClearsDisplayed term
  | _ => True

theorem Console.onlyDisplayed_clearScreen_iff (con : Console) (term : Term) :
    ScreenCall.OnlyDisplayed term con .clearScreen ↔ con.ClearsDisplayed term := by
  constructor
  · intro h
    by_cases hterm : con.activeTerminal = term
    · exact .inl hterm
    · have hother := h.other con.activeTerminal hterm
      have hhome := h.home rfl
      simp only [ScreenCall.apply, con.cursor_clearScreen, if_true, if_neg (Ne.symm hterm)]
        at hother hhome
      exact .inr ⟨hhome, hother.1.symm, hother.2.symm⟩
  · intro h
    refine ⟨fun t ht => ?_, fun _ => ?_⟩
    · simp only [ScreenCall.apply, con.cursor_clearScreen]
      split
      · rename_i hcopy
        rcases h with h | ⟨-, h⟩
        · exact absurd (hcopy.trans h) ht
        · rw [hcopy]
          exact ⟨h.1.symm, h.2.symm⟩
      · exact ⟨rfl, rfl⟩
    · simp only [ScreenCall.apply, con.cursor_clearScreen]
      split
      · exact ⟨rfl, rfl⟩
      · rename_i hcopy
        rcases h with h | ⟨h, -⟩
        · exact absurd h.symm hcopy
        · exact h

/-- **One call**: all but a clear move the cursor of the displayed terminal only. -/
theorem ScreenCall.onlyDisplayed_iff (term : Term) (con : Console) (call : ScreenCall) :
    call.OnlyDisplayed term con ↔ call.FindsDisplayed term con := by
  cases call with
  | putc c => exact iff_of_true ⟨con.movesOnly_putc term c, fun h => by simp at h⟩ trivial
  | newLine => exact iff_of_true ⟨con.movesOnly_newLine term, fun h => by simp at h⟩ trivial
  | delLastChar => exact iff_of_true ⟨con.movesOnly_delLastChar term, fun h => by simp at h⟩ trivial
  | clearScreen => exact con.onlyDisplayed_clearScreen_iff term

/-! ## Events -/

/-- `terminal_open`, with the value it returns. -/
def Tty.terminalOpen (s : Tty) : Int × Tty :=
  let con := s.con.clearScreen
  let term := s.kbd.activeTerminal
  let kbd := ((s.kbd.zeroKeys term maxCharsInBuf 0).setNumChars term 0).setReady term false
  (0, ⟨kbd, con⟩)

/-- What happens on the screen, with the opening of a terminal. -/
inductive DisplayEvent
  | screen (e : ScreenEvent)
  | terminalOpen

namespace DisplayEvent

def step (M : Machine) (s : System) : DisplayEvent → Option System
  | .screen e => e.step M s
  | .terminalOpen => some { s with tty := s.tty.terminalOpen.2 }

/-- The calls to `lib.c`. -/
def calls (M : Machine) (s : System) : DisplayEvent → List ScreenCall
  | .screen e => e.calls M s
  | .terminalOpen => [.clearScreen]

/-- One of the keys F1 to F3. -/
def switches : DisplayEvent → Bool
  | .screen (.function ..) => true
  | _ => false

/-- The event clears the screen. -/
def clears : DisplayEvent → Bool
  | .screen .ctrlL | .screen (.clear _) | .terminalOpen => true
  | _ => false

/-- A call after another, with `term` on display. -/
def callStep (term : Term) (con : Console) (call : ScreenCall) : Option Console :=
  some (call.apply term con)

/-- Each call of the event moves the cursor of the displayed terminal only, and together they are
    what the event does to the console, unless it is a switch. -/
structure OnlyDisplayed (M : Machine) (s : System) (e : DisplayEvent) : Prop where
  calls : AllSteps (callStep s.tty.kbd.activeTerminal)
    (ScreenCall.OnlyDisplayed s.tty.kbd.activeTerminal) s.tty.con (e.calls M s)
  con : ∀ t, e.step M s = some t → e.switches = false →
    t.tty.con = (e.calls M s).foldl (ScreenCall.apply s.tty.kbd.activeTerminal) s.tty.con

/-- A clear finds the right number. -/
def ClearsDisplayed (s : System) (e : DisplayEvent) : Prop :=
  e.clears = true → s.tty.con.ClearsDisplayed s.tty.kbd.activeTerminal

instance (s : System) (e : DisplayEvent) : Decidable (e.ClearsDisplayed s) :=
  inferInstanceAs (Decidable (_ → _))

end DisplayEvent

/-! ## The calls of the handlers -/

namespace Tty

variable {term : Term} {s : Tty}

theorem con_eraseChars (n : Nat) : ∀ {s : Tty}, (eraseChars n s).con =
    (List.replicate n .delLastChar).foldl (ScreenCall.apply s.kbd.activeTerminal) s.con := by
  induction n with
  | zero => exact rfl
  | succ n ih =>
      intro s
      rw [eraseChars, ih]
      rfl

theorem con_handleTab (I : Image) (s : Tty) : (s.handleTab I).con =
    (s.tabCalls I).foldl (ScreenCall.apply s.kbd.activeTerminal) s.con := by
  unfold handleTab tabCalls
  cases I.autocompleteCommand (s.kbd.currText s.kbd.activeTerminal) with
  | none => rfl
  | some completeName =>
      have hactive : s.resetCurrCommand.kbd.activeTerminal = s.kbd.activeTerminal :=
        (eraseChars_sameTerminals _ s).activeTerminal
      dsimp only
      rw [fillCurrCommand_eq completeName 0 hactive, con_terminalWriteLoop, hactive,
        List.foldl_append, resetCurrCommand, con_eraseChars]

theorem con_handleBackspace (s : Tty) : s.handleBackspace.con =
    s.backspaceCalls.foldl (ScreenCall.apply s.kbd.activeTerminal) s.con := by
  rw [handleBackspace_eq, backspaceCalls]
  split <;> rfl

theorem con_terminalRead {nbytes ret : Int} {buf : Stores} {s' : Tty}
    (h : s.terminalRead term nbytes = some (ret, buf, s')) :
    s'.con = s.con.newLine s.kbd.activeTerminal := by
  unfold terminalRead at h
  split at h
  · simp at h
  · obtain ⟨-, -, rfl⟩ := by simpa using h
    have hloop := terminalReadLoop_sameTerminals term (nbytes + 1).toNat 0 .empty s.kbd
    rw [← hloop.activeTerminal]
    rfl

end Tty

namespace DisplayEvent

variable {M : Machine} {s t : System} {e : DisplayEvent}

/-- The calls listed are what the event does to the console. -/
theorem con_step (hstep : e.step M s = some t) (hswitch : e.switches = false) :
    t.tty.con = (e.calls M s).foldl (ScreenCall.apply s.tty.kbd.activeTerminal) s.tty.con := by
  cases e with
  | terminalOpen =>
      obtain rfl := Option.some.inj hstep
      rfl
  | screen e =>
      cases e with
      | key c =>
          obtain rfl := Option.some.inj hstep
          exact Tty.con_addCharToBuffer c s.tty
      | backspace =>
          obtain rfl := Option.some.inj hstep
          exact Tty.con_handleBackspace s.tty
      | ctrlL =>
          obtain rfl := Option.some.inj hstep
          rfl
      | tab =>
          obtain rfl := Option.some.inj hstep
          exact Tty.con_handleTab M.toImage s.tty
      | enter =>
          obtain rfl := Option.some.inj hstep
          rfl
      | function next r env => simp [switches] at hswitch
      | write buf =>
          obtain rfl := Option.some.inj hstep
          exact Tty.con_terminalWriteLoop buf 0 s.tty
      | read nbytes =>
          obtain ⟨⟨ret, buf, tty⟩, hread, rfl⟩ := Option.map_eq_some_iff.1 hstep
          exact Tty.con_terminalRead hread
      | clear env =>
          simp only [step, ScreenEvent.step, callExecute_clearName] at hstep
          obtain rfl := Option.some.inj hstep
          rfl

/-- Calls that are no clears go wrong nowhere. -/
theorem allSteps_of_no_clear {term : Term} {calls : List ScreenCall}
    (h : ∀ call ∈ calls, call ≠ .clearScreen) : ∀ con,
    AllSteps (callStep term) (ScreenCall.OnlyDisplayed term) con calls := by
  induction calls with
  | nil => exact fun _ => trivial
  | cons call calls ih =>
      intro con
      refine ⟨(call.onlyDisplayed_iff term con).2 ?_, fun con' _ =>
        ih (fun c hc => h c (List.mem_cons_of_mem call hc)) con'⟩
      cases call with
      | clearScreen => exact absurd rfl (h _ List.mem_cons_self)
      | _ => trivial

theorem ne_clear_of_mem_addCharCalls {c : UInt8} {term : Term} {s : Tty} {call : ScreenCall}
    (h : call ∈ s.addCharCalls c term) : call ≠ .clearScreen := by
  rintro rfl
  unfold Tty.addCharCalls at h
  split at h
  · split at h
    · simp at h
    · split at h <;> simp at h
  · simp at h

theorem ne_clear_of_mem_writeCalls {term : Term} (buf : List UInt8) : ∀ {s : Tty} {call : ScreenCall},
    call ∈ Tty.writeCalls term buf s → call ≠ .clearScreen := by
  induction buf with
  | nil => exact fun h => by simp [Tty.writeCalls] at h
  | cons c cs ih =>
      intro s call h
      rcases List.mem_append.1 h with h | h
      · exact ne_clear_of_mem_addCharCalls h
      · exact ih h

/-- An event that is not a clear makes no call of `clear_screen`. -/
theorem ne_clear_of_mem_calls (hclear : e.clears = false) {call : ScreenCall}
    (h : call ∈ e.calls M s) : call ≠ .clearScreen := by
  cases e with
  | terminalOpen => simp [clears] at hclear
  | screen e =>
      cases e with
      | key c => exact ne_clear_of_mem_addCharCalls h
      | backspace =>
          simp only [calls, ScreenEvent.calls, Tty.backspaceCalls] at h
          split at h
          · rw [List.mem_singleton.1 h]
            simp
          · simp at h
      | ctrlL => simp [clears] at hclear
      | tab =>
          simp only [calls, ScreenEvent.calls, Tty.tabCalls] at h
          split at h
          · simp at h
          · rcases List.mem_append.1 h with h | h
            · rw [List.eq_of_mem_replicate h]
              simp
            · exact ne_clear_of_mem_writeCalls _ h
      | enter => simp [calls, ScreenEvent.calls] at h
      | function next r env => simp [calls, ScreenEvent.calls] at h
      | write buf => exact ne_clear_of_mem_writeCalls buf h
      | read nbytes =>
          rw [List.mem_singleton.1 h]
          simp
      | clear env => simp [clears] at hclear

/-- A clear makes that one call. -/
theorem calls_of_clears (hclear : e.clears = true) : e.calls M s = [.clearScreen] := by
  cases e with
  | terminalOpen => rfl
  | screen e => cases e <;> first | rfl | simp [clears] at hclear

/-- **One event**. -/
theorem onlyDisplayed_iff : e.OnlyDisplayed M s ↔ e.ClearsDisplayed s := by
  cases hclear : e.clears with
  | true =>
      have hcalls : e.calls M s = [.clearScreen] := calls_of_clears hclear
      constructor
      · intro h _
        have hall := h.calls
        rw [hcalls] at hall
        exact (s.tty.con.onlyDisplayed_clearScreen_iff _).1 hall.1
      · intro h
        refine ⟨?_, fun t => con_step⟩
        rw [hcalls]
        exact ⟨(s.tty.con.onlyDisplayed_clearScreen_iff _).2 (h hclear), fun _ _ => trivial⟩
  | false =>
      refine iff_of_true ⟨?_, fun t => con_step⟩ fun h => absurd (hclear.symm.trans h) (by simp)
      exact allSteps_of_no_clear (fun call h => ne_clear_of_mem_calls hclear h) _

end DisplayEvent

/-- **Which runs move only the displayed cursor**: those in which every clear finds the number of the
    displayed terminal in `lib.c`, or the cursors of both terminals in the first cell. -/
theorem onlyDisplayed_run_iff (M : Machine) (s : System) (es : List DisplayEvent) :
    AllSteps (DisplayEvent.step M) (DisplayEvent.OnlyDisplayed M) s es ↔
      AllSteps (DisplayEvent.step M) DisplayEvent.ClearsDisplayed s es :=
  AllSteps.congr fun _ _ => DisplayEvent.onlyDisplayed_iff

/-- A letter, a visit to the second terminal, and Ctrl-L. -/
def clearElsewhere : List DisplayEvent :=
  [.screen (.key 97), .screen (.function 1 sampleRegs sampleEnv), .screen .ctrlL]

/-- The clear takes the cursor of the first terminal to the first cell. -/
theorem onlyDisplayed_clearElsewhere : ¬ ∀ (M : Machine) (s u : System) (es : List DisplayEvent),
    FreshScreen M s → run (DisplayEvent.step M) s es = some u →
    AllSteps (DisplayEvent.step M) (DisplayEvent.OnlyDisplayed M) s es := by
  intro h
  obtain ⟨u, hu⟩ := Option.isSome_iff_exists.1
    (show (run (DisplayEvent.step (sampleMachine [shellDentry]))
      (afterShell (sampleMachine [shellDentry])) clearElsewhere).isSome by decide +kernel)
  have hcursors := AllSteps.mono (fun _ _ => DisplayEvent.onlyDisplayed_iff.1)
    (h _ _ u _ freshScreen_afterShell hu)
  exact absurd hcursors (by decide +kernel)

end Gyarados

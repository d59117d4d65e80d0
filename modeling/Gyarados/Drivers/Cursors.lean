import Gyarados.Drivers.CharCount
import Gyarados.Drivers.Terminals

set_option autoImplicit false

/-! # Cursors and video memory

What the keys and the calls of the running process do to the screen, from the first shell on. Two of
them can take a cursor away from its line: `clear_screen` moves the cursor of the terminal that
`lib.c` last saw, which need not be the one on display, and `execute("clear")` leaves the count of
the line as it is. -/

namespace Gyarados

/-- A key, or a call of the running process. -/
inductive ScreenEvent
  | key (c : UInt8)
  | backspace
  | ctrlL
  | tab
  | enter
  | function (next : Term) (r : Regs) (e : ExecEnv)
  /-- `terminal_write` of these bytes. -/
  | write (buf : List UInt8)
  /-- `terminal_read` -/
  | read (nbytes : Int)
  /-- `execute("clear")` -/
  | clear (e : ExecEnv)

namespace ScreenEvent

def step (M : Machine) (s : System) : ScreenEvent → Option System
  | .key c => some { s with tty := (s.tty.addCharToBuffer c s.tty.kbd.activeTerminal).2 }
  | .backspace => some { s with tty := s.tty.handleBackspace }
  | .ctrlL => some { s with tty := s.tty.resetTerm }
  | .tab => some { s with tty := s.tty.handleTab M.toImage }
  | .enter => some { s with tty := s.tty.handleEnter }
  | .function next r e => (keyF M next r e s).map Prod.snd
  | .write buf => some { s with tty := (s.tty.terminalWrite s.kernel.currActiveTerm buf).2 }
  | .read nbytes =>
      (s.tty.terminalRead s.kernel.currActiveTerm nbytes).map fun (_, _, tty) => { s with tty }
  | .clear e => (callExecute M e (some clearName) s).map Prod.snd

/-- The calls to `lib.c`; a switch makes none of these. -/
def calls (M : Machine) (s : System) : ScreenEvent → List ScreenCall
  | .key c => s.tty.addCharCalls c s.tty.kbd.activeTerminal
  | .backspace => s.tty.backspaceCalls
  | .ctrlL | .clear _ => [.clearScreen]
  | .tab => s.tty.tabCalls M.toImage
  | .enter | .function .. => []
  | .write buf => Tty.writeCalls s.kernel.currActiveTerm buf s.tty
  | .read _ => [.newLine]

/-- The offsets from `VIDEO` stored to. -/
def stores (M : Machine) (s : System) : ScreenEvent → List Int
  | .function .. => Console.updateScreenStores
  | e => ScreenCall.allStores s.tty.kbd.activeTerminal s.tty.con (e.calls M s)

/-- The bytes of video memory that the event may store to: those of the cells, and the whole of the
    4 KB that a switch copies. -/
def room : ScreenEvent → Int
  | .function .. => 0x1000
  | _ => 4000

/-- A first visit to a terminal starts a shell there. -/
def VisitsStart (M : Machine) (s : System) : ScreenEvent → Prop
  | .function next _ e => s.tty.kbd.started next = false → Gyarados.VisitStarts M e s.kernel.currProcIdMask
  | _ => True

/-- The cursor that a clear moves is that of a terminal without characters in its line, once Ctrl-L
    has emptied the line on display. -/
def ClearFits (s : System) : ScreenEvent → Prop
  | .ctrlL => s.tty.con.activeTerminal = s.tty.kbd.activeTerminal ∨
      s.tty.kbd.numCharsInBuf s.tty.con.activeTerminal = 0
  | .clear _ => s.tty.kbd.numCharsInBuf s.tty.con.activeTerminal = 0
  | _ => True

instance (M : Machine) (s : System) : ∀ e : ScreenEvent, Decidable (e.VisitsStart M s)
  | .function next _ e =>
      inferInstanceAs (Decidable (s.tty.kbd.started next = false → Gyarados.VisitStarts M e _))
  | .key _ | .backspace | .ctrlL | .tab | .enter | .write _ | .read _ | .clear _ => isTrue trivial

instance (s : System) : ∀ e : ScreenEvent, Decidable (e.ClearFits s)
  | .ctrlL => inferInstanceAs (Decidable (_ = _ ∨ _ = _))
  | .clear _ => inferInstanceAs (Decidable (_ = _))
  | .key _ | .backspace | .tab | .enter | .function .. | .write _ | .read _ => isTrue trivial

end ScreenEvent

/-! ## Clearing and switching -/

theorem execPlan_clearName (M : Machine) (e : ExecEnv) (mask : Nat) :
    execPlan M e (some clearName) mask = .clear := by
  simp [execPlan, clearName, execArgs, argLoop, strtok, strtokWord, strncmp]

/-- `execute("clear")` clears the screen. -/
theorem callExecute_clearName (M : Machine) (e : ExecEnv) (s : System) :
    callExecute M e (some clearName) s =
      some (.returned 0, { s with tty := { s.tty with con := s.tty.con.clearScreen } }) := by
  rw [callExecute, execute, if_neg (by decide), execPlan_clearName]
  rfl

/-- A call that launches prints nothing; a page fault in it would halt the running process. -/
theorem tty_of_launch {M : Machine} {e : ExecEnv} {command : Option CString} {s t : System}
    {out : CallOutcome} {fName : List UInt8} {entry : Nat} {slot : Slot} {tempArg : Memory}
    (hplan : execPlan M e command s.kernel.currProcIdMask = .launch fName entry slot tempArg)
    (h : callExecute M e command s = some (out, t)) :
    t.tty = s.tty ∨ s.kernel.currSlot ≠ none := by
  obtain ⟨⟨out₁, s₁⟩, hexec, h⟩ := Option.bind_eq_some_iff.1 h
  replace hexec := carryOut_of_execute hexec
  rw [hplan] at hexec
  obtain ⟨⟨out₂, kernel⟩, hlaunch, hs⟩ := Option.map_eq_some_iff.1 hexec
  obtain ⟨rfl, rfl⟩ := by simpa using hs
  simp only [execLaunch] at hlaunch
  split at hlaunch
  · obtain ⟨rfl, rfl⟩ := by simpa using hlaunch
    obtain ⟨⟨how, s₂⟩, hfault, -⟩ := Option.map_eq_some_iff.1 h
    obtain ⟨⟨out', k'⟩, hhalt, -⟩ := Option.bind_eq_some_iff.1 hfault
    obtain ⟨i, hi, -⟩ := Option.bind_eq_some_iff.1 hhalt
    exact .inr fun hnone => by
      have hcurr : s.kernel.currSlot = some i := hi
      rw [hnone] at hcurr
      simp at hcurr
  · obtain ⟨m, -, hk⟩ := Option.map_eq_some_iff.1 hlaunch
    obtain ⟨rfl, rfl⟩ := by simpa using hk
    obtain ⟨-, rfl⟩ := Prod.mk.inj (Option.some.inj h)
    exact .inl rfl

/-- The keys F1 to F3 copy the pages, and change no count. -/
theorem tty_keyF {M : Machine} {next : Term} {r : Regs} {e : ExecEnv} {s t : System}
    {out : SwitchOutcome} (hlive : s.core.Live)
    (hvisit : s.tty.kbd.started next = false → VisitStarts M e s.kernel.currProcIdMask)
    (h : keyF M next r e s = some (out, t)) :
    t.tty.con = s.tty.con.updateScreen next s.tty.kbd.activeTerminal ∧
      t.tty.kbd.numCharsInBuf = s.tty.kbd.numCharsInBuf := by
  cases hnext : s.tty.kbd.started next with
  | false =>
      rw [keyF_of_not_started M r e hnext] at h
      obtain ⟨i, hi, h⟩ := Option.bind_eq_some_iff.1 h
      obtain ⟨⟨how, s₁⟩, hcall, h⟩ := Option.map_eq_some_iff.1 h
      obtain ⟨-, rfl⟩ := by simpa using h
      obtain ⟨fName, entry, slot, tempArg, hplan⟩ := (hvisit hnext).exists_launch
      -- no process that the page-fault handler could halt
      have hnone : (saveRegs i r (visit next s)).kernel.currSlot = none := by
        show slotAt (s.kernel.currProc next) = none
        rw [show s.kernel.currProc next = 0 from hlive.currProc_of_not_started hnext, slotAt_null]
      have hplan' : execPlan M e (some shellName)
          (saveRegs i r (visit next s)).kernel.currProcIdMask = .launch fName entry slot tempArg := hplan
      have htty : s₁.tty = (saveRegs i r (visit next s)).tty :=
        (tty_of_launch hplan' hcall).resolve_right fun hsome => hsome hnone
      rw [htty]
      refine ⟨rfl, ?_⟩
      simp only [saveRegs, visit, Keyboard.setStarted]
      split
      · rfl
      · split <;> rfl
  | true =>
      rw [keyF_of_started M r e hnext] at h
      simp only [switchTo] at h
      split at h
      · obtain ⟨-, rfl⟩ := Prod.mk.inj (Option.some.inj h)
        exact ⟨rfl, rfl⟩
      · obtain ⟨i, -, h⟩ := Option.bind_eq_some_iff.1 h
        obtain ⟨j, -, h⟩ := Option.map_eq_some_iff.1 h
        obtain ⟨-, rfl⟩ := Prod.mk.inj h
        exact ⟨rfl, rfl⟩

/-! ## One event -/

/-- The running terminal is alive and shown, and the counts fit the cursors. -/
structure CursorsFit (s : System) : Prop where
  live : s.core.Live
  counts : s.tty.CountFits

namespace ScreenEvent

variable {M : Machine} {s t : System} {e : ScreenEvent}

/-- An event other than a switch goes through the calls listed for it. -/
theorem handled (h : CursorsFit s) (hclear : e.ClearFits s) (hstep : step M s e = some t)
    (hswitch : ∀ next r env, e ≠ .function next r env) :
    Tty.Handled s.tty.kbd.activeTerminal s.tty (e.calls M s) t.tty := by
  have hshown : s.kernel.currActiveTerm = s.tty.kbd.activeTerminal := h.live.shown.symm
  cases e with
  | key c =>
      obtain rfl := Option.some.inj hstep
      exact h.counts.handled_addCharToBuffer rfl c
  | backspace =>
      obtain rfl := Option.some.inj hstep
      exact h.counts.handled_backspace rfl
  | ctrlL =>
      obtain rfl := Option.some.inj hstep
      exact h.counts.handled_resetTerm rfl hclear
  | tab =>
      obtain rfl := Option.some.inj hstep
      exact h.counts.handled_tab rfl M.toImage
  | enter =>
      obtain rfl := Option.some.inj hstep
      exact h.counts.handled_enter rfl
  | function next r env => exact absurd rfl (hswitch next r env)
  | write buf =>
      obtain rfl := Option.some.inj hstep
      simp only [calls, hshown]
      exact h.counts.handled_terminalWrite rfl buf
  | read nbytes =>
      obtain ⟨⟨ret, buf, tty⟩, hread, rfl⟩ := Option.map_eq_some_iff.1 hstep
      rw [hshown] at hread
      exact h.counts.handled_terminalRead rfl hread
  | clear env =>
      simp only [step, callExecute_clearName] at hstep
      obtain rfl := Option.some.inj hstep
      exact ⟨ScreenCall.run_singleton trivial, h.counts.clearScreen hclear, rfl⟩

/-- Events other than switches leave the processes and the terminals alone. -/
theorem core_step (hstep : step M s e = some t) (hswitch : ∀ next r env, e ≠ .function next r env) :
    t.core = s.core := by
  cases e with
  | key c =>
      obtain rfl := Option.some.inj hstep
      exact core_tty s (Tty.addCharToBuffer_sameTerminals _ _ _)
  | backspace =>
      obtain rfl := Option.some.inj hstep
      exact core_tty s (Tty.handleBackspace_sameTerminals _)
  | ctrlL =>
      obtain rfl := Option.some.inj hstep
      exact core_tty s (Tty.resetTerm_sameTerminals _)
  | tab =>
      obtain rfl := Option.some.inj hstep
      exact core_tty s (Tty.handleTab_sameTerminals _ _)
  | enter =>
      obtain rfl := Option.some.inj hstep
      exact core_tty s (Tty.handleEnter_sameTerminals _)
  | function next r env => exact absurd rfl (hswitch next r env)
  | write buf =>
      obtain rfl := Option.some.inj hstep
      exact core_tty s (Tty.terminalWrite_sameTerminals _ _ _)
  | read nbytes =>
      obtain ⟨⟨ret, buf, tty⟩, hread, rfl⟩ := Option.map_eq_some_iff.1 hstep
      exact core_tty s (Tty.terminalRead_sameTerminals hread)
  | clear env =>
      simp only [step, callExecute_clearName] at hstep
      obtain rfl := Option.some.inj hstep
      exact core_tty s (.refl _)

/-- **One event** stores to the cells, or to the page that a switch copies, and keeps the counts. -/
theorem cursorsFit_step (h : CursorsFit s) (hvisit : e.VisitsStart M s) (hclear : e.ClearFits s)
    (hstep : step M s e = some t) :
    (∀ o ∈ e.stores M s, 0 ≤ o ∧ o < e.room) ∧
      Console.StoresAt (e.stores M s) s.tty.con t.tty.con ∧ CursorsFit t := by
  by_cases hfunction : ∃ next r env, e = .function next r env
  · obtain ⟨next, r, env, rfl⟩ := hfunction
    obtain ⟨⟨out, t⟩, hkey, rfl⟩ := Option.map_eq_some_iff.1 hstep
    obtain ⟨hcon, hcount⟩ := tty_keyF h.live hvisit hkey
    refine ⟨fun o ho => Console.mem_updateScreenStores.1 ho, ?_, ?_, ?_⟩
    · show Console.StoresAt _ s.tty.con t.tty.con
      rw [hcon]
      exact Console.storesAt_updateScreen _ next s.tty.kbd.activeTerminal
    · exact h.live.keyFEffect hvisit (keyF_effect hkey)
    · have hfits := h.counts.updateScreen next hcount
      rwa [← hcon] at hfits
  · have hswitch : ∀ next r env, e ≠ .function next r env :=
      fun next r env he => hfunction ⟨next, r, env, he⟩
    have hcalls := handled h hclear hstep hswitch
    have hstores : e.stores M s =
        ScreenCall.allStores s.tty.kbd.activeTerminal s.tty.con (e.calls M s) := by
      cases e with
      | function next r env => exact absurd rfl (hswitch next r env)
      | _ => rfl
    have hroom : e.room = 4000 := by
      cases e with
      | function next r env => exact absurd rfl (hswitch next r env)
      | _ => rfl
    rw [hstores, hroom]
    refine ⟨?_, ScreenCall.storesAt_run hcalls.run, ?_, hcalls.fits⟩
    · intro o ho
      exact ScreenCall.inPage_of_mem_allStores h.counts.onScreen hcalls.run ho
    · rw [core_step hstep hswitch]
      exact h.live

/-- The invariant holds after every run. -/
theorem cursorsFit_run {s u : System} {es : List ScreenEvent} (h : CursorsFit s)
    (hok : AllSteps (step M) (fun s e => e.VisitsStart M s ∧ e.ClearFits s) s es)
    (hrun : run (step M) s es = some u) : CursorsFit u :=
  run_invariant (fun _ _ _ h hok hstep => (cursorsFit_step h hok.1 hok.2 hstep).2.2) h hok hrun

/-- Every store of a run is in its room. -/
theorem stores_run {s u : System} {es : List ScreenEvent} (h : CursorsFit s)
    (hok : AllSteps (step M) (fun s e => e.VisitsStart M s ∧ e.ClearFits s) s es)
    (hrun : run (step M) s es = some u) :
    AllSteps (step M) (fun s e => ∀ o ∈ e.stores M s, 0 ≤ o ∧ o < e.room) s es := by
  induction es generalizing s with
  | nil => trivial
  | cons e es ih =>
      obtain ⟨t, ht, hrun⟩ := run_cons_eq_some.1 hrun
      have hstep := cursorsFit_step h hok.1.1 hok.1.2 ht
      refine ⟨hstep.1, fun t' ht' => ?_⟩
      obtain rfl : t = t' := Option.some.inj (ht.symm.trans ht')
      exact ih hstep.2.2 (hok.2 t ht) hrun

end ScreenEvent

/-- The first shell has just started: no key has been pressed. -/
structure FreshScreen (M : Machine) (s : System) : Prop where
  firstShell : FirstShell M s
  numChars : ∀ t, s.tty.kbd.numCharsInBuf t = 0
  onScreen : s.tty.con.OnScreen

theorem FreshScreen.cursorsFit {M : Machine} {s : System} (h : FreshScreen M s) : CursorsFit s where
  live := h.firstShell.live
  counts := by
    refine ⟨h.onScreen, ?_, ?_⟩
    · intro t
      rw [h.numChars]
      exact Nat.zero_le _
    · intro t
      have := h.onScreen t
      rw [h.numChars, Console.position]
      omega

/-- **Cursors stay on the screen** in every run in which clears move the cursor of an empty line only;
    keys, output and clears store to the 4000 bytes of the cells, and the switches to the page they
    copy. -/
theorem cursors_onScreen {M : Machine} {s u : System} {es : List ScreenEvent} (hfresh : FreshScreen M s)
    (hok : AllSteps (ScreenEvent.step M) (fun s e => e.VisitsStart M s ∧ e.ClearFits s) s es)
    (hrun : run (ScreenEvent.step M) s es = some u) :
    u.tty.con.OnScreen ∧ AllSteps (ScreenEvent.step M)
      (fun s e => ∀ o ∈ e.stores M s, 0 ≤ o ∧ o < e.room) s es :=
  ⟨(ScreenEvent.cursorsFit_run hfresh.cursorsFit hok hrun).counts.onScreen,
    ScreenEvent.stores_run hfresh.cursorsFit hok hrun⟩

/-! ## On the small machine -/

theorem tty_afterShell {M : Machine} (entry : Nat)
    (h : (callExecute M sampleEnv (some shellName) (bootSystem M)).map Prod.fst =
      some (.launched entry)) : (afterShell M).tty = bootTty := by
  obtain ⟨⟨out, s⟩, hcall, rfl⟩ := Option.map_eq_some_iff.1 h
  have hafter : afterShell M = s := by simp [afterShell, hcall]
  have hnone : (bootSystem M).kernel.currSlot = none := slotAt_null
  have he := callExecute_effect hcall
  generalize s.core = c at he
  cases he with
  | launched hplan _ _ =>
      rw [hafter]
      exact (tty_of_launch hplan hcall).resolve_right fun hsome => hsome hnone

theorem freshScreen_afterShell : FreshScreen (sampleMachine [shellDentry])
    (afterShell (sampleMachine [shellDentry])) := by
  have hlaunched : (callExecute (sampleMachine [shellDentry]) sampleEnv (some shellName)
      (bootSystem (sampleMachine [shellDentry]))).map Prod.fst = some (.launched 0x8048094) := by
    decide +kernel
  have htty := tty_afterShell _ hlaunched
  refine ⟨firstShell_afterShell _ _ hlaunched, ?_, ?_⟩
  · intro t
    rw [htty]
    rfl
  · rw [htty]
    decide

/-- The user types a letter, starts the second terminal and comes back, and takes the letter back. -/
def sampleKeys : List ScreenEvent :=
  [.key 97, .function 1 sampleRegs sampleEnv, .function 0 sampleRegs sampleEnv, .backspace]

theorem cursors_onScreen_sampleKeys : ∃ u, run (ScreenEvent.step (sampleMachine [shellDentry]))
    (afterShell (sampleMachine [shellDentry])) sampleKeys = some u ∧ u.tty.con.OnScreen := by
  obtain ⟨u, hu⟩ := Option.isSome_iff_exists.1
    (show (run (ScreenEvent.step (sampleMachine [shellDentry]))
      (afterShell (sampleMachine [shellDentry])) sampleKeys).isSome by decide +kernel)
  refine ⟨u, hu, (cursors_onScreen freshScreen_afterShell ?_ hu).1⟩
  decide +kernel

/-- A letter, `execute("clear")` of the running program, and the letter taken back. -/
def clearKeys : List ScreenEvent := [.key 97, .clear sampleEnv, .backspace]

/-- The count still has the letter when the cursor is on the first cell, so the backspace moves the
    cursor off the screen. -/
theorem position_clearKeys {M : Machine} {s u : System} (htty : s.tty = bootTty)
    (hrun : run (ScreenEvent.step M) s clearKeys = some u) : u.tty.con.position 0 = -1 := by
  obtain ⟨t₁, h₁, hrun⟩ := run_cons_eq_some.1 hrun
  obtain ⟨t₂, h₂, hrun⟩ := run_cons_eq_some.1 hrun
  obtain ⟨t₃, h₃, hrun⟩ := run_cons_eq_some.1 hrun
  obtain rfl : t₃ = u := Option.some.inj hrun
  obtain rfl := Option.some.inj h₁
  rw [htty] at h₂
  simp only [ScreenEvent.step, callExecute_clearName] at h₂
  obtain rfl := Option.some.inj h₂
  obtain rfl := Option.some.inj h₃
  have hactive : (bootTty.addCharToBuffer 97 bootTty.kbd.activeTerminal).2.con.activeTerminal = 0 := by
    decide
  have hcount : (bootTty.addCharToBuffer 97 bootTty.kbd.activeTerminal).2.kbd.numCharsInBuf 0 = 1 := by
    decide
  have hkbd : (bootTty.addCharToBuffer 97 bootTty.kbd.activeTerminal).2.kbd.activeTerminal = 0 := by
    decide
  generalize (bootTty.addCharToBuffer 97 bootTty.kbd.activeTerminal).2 = tty at *
  rw [Tty.handleBackspace_eq, if_pos (by simp only [hkbd, hcount]; decide)]
  simp only [Tty.eraseChar, Tty.delLastChar, hkbd, Console.position_delLastChar,
    Console.position_clearScreen, hactive, if_true]
  rfl

/-- A letter, a clear and a backspace move the cursor off the screen; and a switch stores behind the
    cells. -/
theorem cursors_offScreen :
    (¬ ∀ (M : Machine) (s u : System) (es : List ScreenEvent), FreshScreen M s →
      AllSteps (ScreenEvent.step M) (fun s e => e.VisitsStart M s) s es →
      run (ScreenEvent.step M) s es = some u → u.tty.con.OnScreen) ∧
    ¬ ∀ (M : Machine) (s u : System) (es : List ScreenEvent), FreshScreen M s →
      AllSteps (ScreenEvent.step M) (fun s e => e.VisitsStart M s) s es →
      run (ScreenEvent.step M) s es = some u →
      AllSteps (ScreenEvent.step M) (fun s e => ∀ o ∈ e.stores M s, Console.InPage o) s es := by
  constructor
  · intro h
    obtain ⟨u, hu⟩ := Option.isSome_iff_exists.1
      (show (run (ScreenEvent.step (sampleMachine [shellDentry]))
        (afterShell (sampleMachine [shellDentry])) clearKeys).isSome by decide +kernel)
    have hscreen := h _ _ u _ freshScreen_afterShell (by decide +kernel) hu 0
    have hpos := position_clearKeys (tty_afterShell 0x8048094 (by decide +kernel)) hu
    rw [Console.position] at hpos
    omega
  · intro h
    obtain ⟨u, hu⟩ := Option.isSome_iff_exists.1
      (show (run (ScreenEvent.step (sampleMachine [shellDentry]))
        (afterShell (sampleMachine [shellDentry])) [.function 0 sampleRegs sampleEnv]).isSome by
          decide +kernel)
    have hstores := (h _ _ u _ freshScreen_afterShell (by decide +kernel) hu).1 4095
      (Console.mem_updateScreenStores.2 (by decide))
    exact absurd hstores.2 (by decide)

end Gyarados

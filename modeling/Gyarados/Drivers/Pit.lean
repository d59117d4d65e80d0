import Gyarados.Kernel.Syscall

set_option autoImplicit false

/-! # Terminal switches (`drivers/pit.c`, and the F1 to F3 keys of `drivers/keyboard.c`)

Scheduling is compiled out, so the running process changes only when the user asks for another
terminal. The first visit to the second and to the third terminal starts a shell there; every
other switch saves the stack registers in the PCB on top of the terminal being left and loads
those saved in the PCB on top of the next. -/

namespace Gyarados

/-- `SCHED_ENABLED` -/
def schedEnabled : Bool := false

/-- The stack registers of the kernel at the moment of a switch. -/
structure Regs where
  esp : Nat
  ebp : Nat
  esp_lt : esp < 0x100000000
  ebp_lt : ebp < 0x100000000

inductive SwitchOutcome
  /-- Scheduling is on, or one of the two terminals has no process. -/
  | ignored
  /-- First visit: how the call `execute("shell")` ended. -/
  | started (how : CallOutcome)
  /-- The stack registers loaded. -/
  | loaded (esp ebp : Nat)
  deriving DecidableEq, Repr

/-- `set_running_proc` -/
def setRunningProc (proc : Term) (s : System) : System :=
  { s with kernel := { s.kernel with currActiveTerm := proc } }

/-- Store the stack registers in the PCB of slot `i`. -/
def saveRegs (i : Slot) (r : Regs) (s : System) : System :=
  { s with kernel := s.kernel.setPcb i (Pcb.setSched (s.kernel.kernelStack i) r.esp r.ebp) }

/-- What the two first-visit branches do once the terminal counts as started. -/
def startShell (M : Machine) (r : Regs) (e : ExecEnv) (currTerm : Term) (s : System) :
    Option (SwitchOutcome × System) :=
  (slotAt (s.kernel.currProc currTerm)).bind fun i =>
    (callExecute M e (some shellName) (saveRegs i r s)).map fun (how, s) => (.started how, s)

/-- The switch between two started terminals. -/
def switchTo (r : Regs) (currTerm nextTerm : Term) (s : System) : Option (SwitchOutcome × System) :=
  let currProc := s.kernel.currProc currTerm
  let nextProc := s.kernel.currProc nextTerm
  if currProc = 0 ∨ nextProc = 0 then some (.ignored, s)
  else
    (slotAt currProc).bind fun i =>
      (slotAt nextProc).map fun j =>
        let s := setRunningProc nextTerm (saveRegs i r s)
        -- after the store: the two PCBs are one when the terminal is switched to itself
        let next := s.kernel.kernelStack j
        let kernel := { s.kernel with
          paging := s.kernel.paging.switchPd (Pcb.base next)
          tssEsp0 := esp0For (Pcb.procNum next) }
        (.loaded (Pcb.pSchedKsp next) (Pcb.pSchedKbp next), { s with kernel })

/-- `context_switch` -/
def contextSwitch (M : Machine) (r : Regs) (e : ExecEnv) (currTerm nextTerm : Term) (s : System) :
    Option (SwitchOutcome × System) :=
  if schedEnabled then some (.ignored, s)
  else if nextTerm = 1 ∧ s.tty.kbd.secondTermStart = false then
    -- the terminal runs and counts as started before its shell is there
    let s := setRunningProc 1 s
    let kbd := { s.tty.kbd with secondTermStart := true }
    startShell M r e currTerm { s with tty := { s.tty with kbd } }
  else if nextTerm = 2 ∧ s.tty.kbd.thirdTermStart = false then
    let s := setRunningProc 2 s
    let kbd := { s.tty.kbd with thirdTermStart := true }
    startShell M r e currTerm { s with tty := { s.tty with kbd } }
  else switchTo r currTerm nextTerm s

/-- The keys F1, F2 and F3: show terminal `next`, then switch to it from the one shown before. -/
def keyF (M : Machine) (next : Term) (r : Regs) (e : ExecEnv) (s : System) :
    Option (SwitchOutcome × System) :=
  let s := { s with tty := s.tty.showTerminal next }
  contextSwitch M r e s.tty.kbd.prevTerminal s.tty.kbd.activeTerminal s

/-! ## Started terminals -/

/-- The terminal has been visited: its first shell has been called for. -/
def Keyboard.started (k : Keyboard) (t : Term) : Bool :=
  if t = 1 then k.secondTermStart else if t = 2 then k.thirdTermStart else true

/-- The keyboard with terminal `t` counted as started. -/
def Keyboard.setStarted (k : Keyboard) (t : Term) : Keyboard :=
  if t = 1 then { k with secondTermStart := true }
  else if t = 2 then { k with thirdTermStart := true }
  else k

/-- The system when a first visit to terminal `next` comes to the call of `execute`. -/
def visit (next : Term) (s : System) : System :=
  let tty := s.tty.showTerminal next
  { kernel := { s.kernel with currActiveTerm := next }
    tty := { tty with kbd := tty.kbd.setStarted next }
    intrOcc := s.intrOcc }

/-- A key for a terminal not yet started starts a shell there. -/
theorem keyF_of_not_started (M : Machine) {next : Term} (r : Regs) (e : ExecEnv) {s : System}
    (h : s.tty.kbd.started next = false) :
    keyF M next r e s = startShell M r e s.tty.kbd.activeTerminal (visit next s) := by
  unfold Keyboard.started at h
  split at h
  · rename_i hn
    subst hn
    simp [keyF, contextSwitch, schedEnabled, Tty.showTerminal, h, visit, setRunningProc,
      Keyboard.setStarted]
  · split at h
    · rename_i hn
      subst hn
      simp [keyF, contextSwitch, schedEnabled, Tty.showTerminal, h, visit, setRunningProc,
        Keyboard.setStarted]
    · simp at h

/-- A key for a started terminal switches to it. -/
theorem keyF_of_started (M : Machine) {next : Term} (r : Regs) (e : ExecEnv) {s : System}
    (h : s.tty.kbd.started next = true) :
    keyF M next r e s =
      switchTo r s.tty.kbd.activeTerminal next { s with tty := s.tty.showTerminal next } := by
  have h1 : ¬ (next = 1 ∧ s.tty.kbd.secondTermStart = false) := by
    rintro ⟨rfl, hs⟩
    simp [Keyboard.started, hs] at h
  have h2 : ¬ (next = 2 ∧ s.tty.kbd.thirdTermStart = false) := by
    rintro ⟨rfl, hs⟩
    simp [Keyboard.started, hs] at h
  simp only [keyF, contextSwitch, schedEnabled, Tty.showTerminal, h1, h2, if_false,
    Bool.false_eq_true]

end Gyarados

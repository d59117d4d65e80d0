import Gyarados.Drivers.Pit
import Gyarados.Foundation.Run

set_option autoImplicit false

/-! # The system as a state machine

One action is a system call of the running process, or a key, or a tick of the clock. Everything
that the code reads and the state does not hold is a parameter of the action: arguments, what
uninitialised locals happen to contain and the stack registers. A run ends at an action with no
next state. -/

namespace Gyarados

inductive Action
  | execute (e : ExecEnv) (command : Option CString)
  | halt (fInitData : Memory) (status : UInt8)
  | openFile (filename : Option CString)
  | closeFile (fd : Int)
  | readFile (fd : Int) (bufNull : Bool) (nbytes : Int)
  | writeFile (fd : Int) (buf : Option Memory) (nbytes : Int)
  /-- A key with a character. -/
  | key (c : UInt8)
  | enter
  | backspace
  /-- Ctrl-C halts the running process with status -2. -/
  | ctrlC (fInitData : Memory)
  /-- F1, F2 or F3. -/
  | function (next : Term) (r : Regs) (e : ExecEnv)
  /-- The interrupt of the real-time clock. -/
  | rtcTick

/-- The actions that start and end processes and switch between terminals. -/
def Action.managesProcesses : Action → Bool
  | .execute .. | .halt .. | .ctrlC .. | .function .. => true
  | _ => false

/-- The actions of processes and their open files on one terminal. -/
def Action.usesFiles : Action → Bool
  | .execute .. | .halt .. | .openFile .. | .closeFile .. | .readFile .. => true
  | _ => false

def step (M : Machine) (s : System) : Action → Option System
  | .execute e command => (callExecute M e command s).map Prod.snd
  | .halt fInitData status =>
      (halt M fInitData status.toNat s.kernel).map fun (_, kernel) => { s with kernel }
  | .openFile filename => (openFd M filename s.kernel).map fun (_, kernel) => { s with kernel }
  | .closeFile fd => (closeFd M fd s.kernel).map fun (_, kernel) => { s with kernel }
  | .readFile fd bufNull nbytes => (readFd M fd bufNull nbytes s).map fun (_, _, s) => s
  | .writeFile fd buf nbytes => (writeFd M fd buf nbytes s).map Prod.snd
  | .key c => some { s with tty := (s.tty.addCharToBuffer c s.tty.kbd.activeTerminal).2 }
  | .enter => some { s with tty := s.tty.handleEnter }
  | .backspace => some { s with tty := s.tty.handleBackspace }
  | .ctrlC fInitData => (halt M fInitData 254 s.kernel).map fun (_, kernel) => { s with kernel }
  | .function next r e => (keyF M next r e s).map Prod.snd
  | .rtcTick => some { s with intrOcc := true }

/-- The state before the first process: the initial values of the globals, and the page tables of
    `init_paging`. What the stacks, the screen and the rest of memory hold is not known. -/
structure Boot (M : Machine) (s : System) : Prop where
  currProc : ∀ t, s.kernel.currProc t = 0
  prevProc : ∀ t, s.kernel.prevProc t = 0
  currActiveTerm : s.kernel.currActiveTerm = 0
  currProcIdMask : s.kernel.currProcIdMask = 0
  paging : s.kernel.paging = PageTables.initPaging M.pageTable1Addr
  activeTerminal : s.tty.kbd.activeTerminal = 0
  secondTermStart : s.tty.kbd.secondTermStart = false
  thirdTermStart : s.tty.kbd.thirdTermStart = false

theorem Boot.started {M : Machine} {s : System} (h : Boot M s) (t : Term) :
    s.tty.kbd.started t = decide (t = 0) := by
  rw [Keyboard.started, h.secondTermStart, h.thirdTermStart]
  revert t
  decide

/-! ## Actions that stay inside their buffers -/

/-- The call does not store over the variables of `execute`. -/
def StaysInFrame (command : Option CString) : Prop := ∀ text ∈ command, ¬ OverrunsFrame text.val

instance (command : Option CString) : Decidable (StaysInFrame command) :=
  inferInstanceAs (Decidable (∀ text ∈ command, _))

/-- The call of `execute` launches nothing, or it launches without an overrun: the argument text
    fits into `args`, and the copy of the program ends on the page of the program. -/
def ExecFits (M : Machine) (e : ExecEnv) (command : Option CString) (mask : Nat) : Prop :=
  match execPlan M e command mask with
  | .launch fName _ _ tempArg => StaysInFrame command ∧
      (tempArg.stringAt 0 0x2000).length < 64 ∧ ((M.copyFileToAddr fName).buf programRoom).isNone
  | _ => True

instance (M : Machine) (e : ExecEnv) (command : Option CString) (mask : Nat) :
    Decidable (ExecFits M e command mask) :=
  match h : execPlan M e command mask with
  | .launch fName _ _ tempArg =>
      decidable_of_iff (StaysInFrame command ∧ (tempArg.stringAt 0 0x2000).length < 64 ∧
        ((M.copyFileToAddr fName).buf programRoom).isNone) (by simp [ExecFits, h])
  | .fail => isTrue (by simp [ExecFits, h])
  | .nullName => isTrue (by simp [ExecFits, h])
  | .clear => isTrue (by simp [ExecFits, h])
  | .nonRunnable => isTrue (by simp [ExecFits, h])
  | .noSlot => isTrue (by simp [ExecFits, h])

section

variable {M : Machine} {e : ExecEnv} {command : Option CString} {mask : Nat} {fName : List UInt8}
  {entry : Nat} {slot : Slot} {tempArg : Memory}

theorem ExecFits.of_launch (h : ExecFits M e command mask)
    (hplan : execPlan M e command mask = .launch fName entry slot tempArg) :
    (tempArg.stringAt 0 0x2000).length < 64 ∧ (M.copyFileToAddr fName).buf programRoom = none := by
  rw [ExecFits, hplan] at h
  exact ⟨h.2.1, Option.isNone_iff_eq_none.1 h.2.2⟩

theorem ExecFits.staysInFrame (h : ExecFits M e command mask)
    (hplan : execPlan M e command mask = .launch fName entry slot tempArg) : StaysInFrame command := by
  rw [ExecFits, hplan] at h
  exact h.1

end

/-- `execute` stays inside its buffers, also when a key for a new terminal calls it. -/
def Action.LaunchFits (M : Machine) (s : System) : Action → Prop
  | .execute e command => ExecFits M e command s.kernel.currProcIdMask
  | .function next _ e =>
      s.tty.kbd.started next = false → ExecFits M e (some shellName) s.kernel.currProcIdMask
  | _ => True

instance (M : Machine) (s : System) : ∀ a : Action, Decidable (a.LaunchFits M s)
  | .execute e command => inferInstanceAs (Decidable (ExecFits M e command _))
  | .function _ _ e => inferInstanceAs (Decidable (_ = false → ExecFits M e (some shellName) _))
  | .halt .. | .openFile .. | .closeFile .. | .readFile .. | .writeFile .. | .key .. | .enter
  | .backspace | .ctrlC .. | .rtcTick => isTrue trivial

/-- The entry that `open` finds, if it finds one, is of a known type, and its name fits
    `file_name`. -/
def OpenFits (M : Machine) (filename : CString) : Prop :=
  match M.readDentryByName filename.val with
  | some fileInfo => fileInfo.fileType ≤ 2 ∧ filename.val.length < 32
  | none => True

instance (M : Machine) (filename : CString) : Decidable (OpenFits M filename) :=
  match h : M.readDentryByName filename.val with
  | some fileInfo =>
      decidable_of_iff (fileInfo.fileType ≤ 2 ∧ filename.val.length < 32) (by simp [OpenFits, h])
  | none => isTrue (by simp [OpenFits, h])

theorem OpenFits.of_found {M : Machine} {filename : CString} {fileInfo : Dentry}
    (h : OpenFits M filename) (hfound : M.readDentryByName filename.val = some fileInfo) :
    fileInfo.fileType ≤ 2 ∧ filename.val.length < 32 := by
  simpa [OpenFits, hfound] using h

/-- `open` stays inside its buffers and fills the descriptor in. -/
def Action.OpenFits (M : Machine) : Action → Prop
  | .openFile (some filename) => Gyarados.OpenFits M filename
  | _ => True

instance (M : Machine) : ∀ a : Action, Decidable (a.OpenFits M)
  | .openFile (some filename) => inferInstanceAs (Decidable (OpenFits M filename))
  | .openFile none | .execute .. | .halt .. | .closeFile .. | .readFile .. | .writeFile .. | .key ..
  | .enter | .backspace | .ctrlC .. | .function .. | .rtcTick => isTrue trivial

/-! ## A small machine -/

/-- A machine with these directory entries in its image. -/
def sampleMachine (entries : List Dentry) : Machine where
  toImage := sampleImage entries
  opsAddr
    | .stdin => 0x410000
    | .stdout => 0x410010
    | .rtc => 0x410020
    | .dir => 0x410030
    | .files => 0x410040
  opsAddr_injective t u h := by
    cases t <;> cases u <;> first | rfl | simp at h
  opsAddr_ne_null t := by cases t <;> decide
  opsAddr_lt t := by cases t <;> decide
  pageTable1Addr := 0x412000

/-- A boot state, with all unknown memory zero. -/
def bootSystem (M : Machine) : System where
  kernel := {
    currProc := fun _ => 0
    prevProc := fun _ => 0
    currActiveTerm := 0
    currProcIdMask := 0
    firstProgramRun := 0
    gStatus := 0
    kernelStack := fun _ _ => 0
    paging := .initPaging M.pageTable1Addr
    tssEsp0 := 0
    intFlag := true
    userMem := fun _ => 0 }
  tty := bootTty
  intrOcc := false

theorem bootSystem_boot (M : Machine) : Boot M (bootSystem M) :=
  ⟨fun _ => rfl, fun _ => rfl, rfl, rfl, rfl, rfl, rfl, rfl⟩

/-- The directory entry of the shell in the small image. -/
def shellDentry : Dentry := { fileName := shellName.val, fileType := 2, inodeNum := 0 }

/-- A directory entry whose file type is none of the three. -/
def oddDentry : Dentry := { fileName := ascii "odd", fileType := 7, inodeNum := 0 }

def oddName : CString := ⟨ascii "odd", by decide⟩

/-- A call of `execute` that finds zeros in its locals. -/
def sampleEnv : ExecEnv where
  fInitData := fun _ => 0
  cmdLen := 0
  cmdLen_lt := by decide
  tempArg := fun _ => 0
  esp := 0x7fdf00
  ebp := 0x7fdf40

/-- Stack registers at a switch. -/
def sampleRegs : Regs := { esp := 0x7fde00, ebp := 0x7fde40, esp_lt := by decide, ebp_lt := by decide }

/-- The small machine after its first shell has started. -/
def afterShell (M : Machine) : System :=
  ((callExecute M sampleEnv (some shellName) (bootSystem M)).map Prod.snd).getD (bootSystem M)

/-- The state a run from `bootSystem` reaches. -/
def reached (M : Machine) (as : List Action) : System :=
  (run (step M) (bootSystem M) as).getD (bootSystem M)

theorem run_reached (M : Machine) (as : List Action)
    (h : (run (step M) (bootSystem M) as).isSome = true) :
    run (step M) (bootSystem M) as = some (reached M as) := by
  obtain ⟨s, hs⟩ := Option.isSome_iff_exists.1 h
  rw [reached, hs, Option.getD_some]

end Gyarados

import Gyarados.Kernel.Calls
import Gyarados.Kernel.System

set_option autoImplicit false

/-! # The interrupt flag across system calls

Every system call turns interrupts off when it starts. `close`, `execute` and the ends of the others
put the flag back; the error returns at the head of `read`, `write`, `open`, `getargs` and `vidmap` do
not. -/

namespace Gyarados

/-! ## `execute` with the flag -/

/-- `restore_flags` at a return. -/
def System.restore (flags : Bool) (s : System) : System :=
  { s with kernel := s.kernel.restoreFlags flags }

/-- `execute`, with the flag saved at its head and restored at each return. -/
def executeFlags (M : Machine) (e : ExecEnv) (command : Option CString) (s : System) :
    Option (ExecOutcome × System) :=
  if ∃ text ∈ command, OverrunsFrame text.val then none
  else
    let flags := s.kernel.intFlag
    let s := { s with kernel := s.kernel.cli }
    match execPlan M e command s.kernel.currProcIdMask with
    | .fail => some (.returned (-1), s.restore flags)
    | .nullName => some (.fault 0, s)
    | .clear =>
        some (.returned 0, { s with tty := { s.tty with con := s.tty.con.clearScreen } }.restore flags)
    | .nonRunnable =>
        some (.returned (-1),
          { s with tty := s.tty.puts (ascii "ERROR: Non-Runnable file!\n") }.restore flags)
    | .noSlot =>
        some (.returned (-1),
          { s with tty := s.tty.puts (ascii "ERROR: Out of runnable program slots!\n") }.restore flags)
    | .launch fName entry slot tempArg =>
        (execLaunch M e fName entry slot tempArg s.kernel).map fun (out, kernel) =>
          (out, { s with kernel })

/-- A launch turns interrupts on, whether they have been on or off; a fault in it leaves them off. -/
theorem execLaunch_cli (M : Machine) (e : ExecEnv) (fName : List UInt8) (entry : Nat) (slot : Slot)
    (tempArg : Memory) (k : Kernel) :
    execLaunch M e fName entry slot tempArg k.cli =
      (execLaunch M e fName entry slot tempArg k).map fun (out, k') =>
        match out with
        | .fault addr => (.fault addr, k'.cli)
        | out => (out, k') := by
  simp only [execLaunch]
  split
  · rfl
  · simp only [Option.map_map]
    rfl

/-- The flag makes no difference to how a call of `execute` ends: this is `execute` as it has been
    modelled, with the flag kept. -/
theorem callExecute_eq_executeFlags (M : Machine) (e : ExecEnv) (command : Option CString)
    (s : System) : callExecute M e command s =
      (executeFlags M e command s).bind fun (out, s) => out.deliver M e s := by
  have hmask : s.kernel.cli.currProcIdMask = s.kernel.currProcIdMask := rfl
  simp only [callExecute, execute, executeFlags, hmask]
  split
  · rfl
  cases execPlan M e command s.kernel.currProcIdMask with
  | launch fName entry slot tempArg =>
      simp only [ExecPlan.carryOut, execLaunch_cli]
      cases execLaunch M e fName entry slot tempArg s.kernel with
      | none => rfl
      | some r =>
          obtain ⟨out, kernel⟩ := r
          cases out <;> rfl
  | _ => rfl

/-! ## Calls -/

/-- A system call with its arguments. -/
inductive FlagCall
  | read (fd : Int) (bufNull : Bool) (nbytes : Int)
  | write (fd : Int) (buf : Option Memory) (nbytes : Int)
  | opn (filename : Option CString)
  | close (fd : Int)
  | getargs (bufNull : Bool) (nbytes : Int)
  | vidmap (screenStart : Nat)
  | execute (e : ExecEnv) (command : Option CString)

namespace FlagCall

/-- The value that the call returns and the state it returns in, when it returns. -/
def ret (M : Machine) (s : System) : FlagCall → Option (Int × System)
  | .read fd bufNull nbytes => (readFd M fd bufNull nbytes s).map fun (ret, _, s) => (ret, s)
  | .write fd buf nbytes => writeFd M fd buf nbytes s
  | .opn filename => (openFd M filename s.kernel).map fun (ret, kernel) => (ret, { s with kernel })
  | .close fd => (closeFd M fd s.kernel).map fun (ret, kernel) => (ret, { s with kernel })
  | .getargs bufNull nbytes =>
      (Gyarados.getargs bufNull nbytes s.kernel).map fun (ret, _, kernel) => (ret, { s with kernel })
  | .vidmap screenStart =>
      (Gyarados.vidmap M screenStart s.kernel).map fun (ret, kernel) => (ret, { s with kernel })
  | .execute e command =>
      (executeFlags M e command s).bind fun (out, s) =>
        match out with
        | .returned ret => some (ret, s)
        | _ => none

/-- The tests at the head of the calls: those that fail return -1 with interrupts off. -/
def FailsFirstTest (M : Machine) (s : System) : FlagCall → Prop
  | .read fd bufNull _ => bufNull = true ∨ fd > 7 ∨ fd < 0 ∨ fd = 1 ∨ NotInUse s fd
  | .write fd buf _ => buf = none ∨ fd > 7 ∨ fd ≤ 0 ∨ NotInUse s fd
  | .opn filename => ∀ name, filename = some name →
      name.val = [] ∨ M.readDentryByName name.val = none
  | .getargs bufNull nbytes => nbytes < 0 ∨ bufNull = true
  | .vidmap screenStart => screenStart < 0x8000000 ∨ screenStart > 0x8400000
  | .close _ | .execute .. => False

end FlagCall

/-! ## What each call does to the flag -/

namespace FlagCall

/-- The call left interrupts off if it failed a first test, and put the flag back otherwise. -/
def Leaves (M : Machine) (s : System) (call : FlagCall) (s' : System) : Prop :=
  (call.FailsFirstTest M s ∧ s'.kernel.intFlag = false) ∨
    (¬ call.FailsFirstTest M s ∧ s'.kernel.intFlag = s.kernel.intFlag)

variable {M : Machine} {s s' : System} {ret : Int}

theorem notInUse_iff {fd : Int} {i : Slot} (hi : s.kernel.currSlot = some i) :
    NotInUse s fd ↔ Pcb.flags (s.kernel.kernelStack i) fd.toNat ≠ 1 := by
  constructor
  · rintro ⟨j, hj, hfree⟩
    obtain rfl : i = j := Option.some.inj (hi.symm.trans hj)
    exact hfree
  · exact fun hfree => ⟨i, hi, hfree⟩

theorem leaves_read {fd nbytes : Int} {bufNull : Bool} {buf : Stores}
    (h : readFd M fd bufNull nbytes s = some (ret, buf, s')) :
    Leaves M s (.read fd bufNull nbytes) s' := by
  cases readFd_outcome h with
  | failed hfail => exact .inl ⟨hfail, rfl⟩
  | called hnull hfd hi hused _ hread =>
      refine .inr ⟨?_, ?_⟩
      · rintro (hb | hgt | hlt | h1 | hfree)
        · simp [hnull] at hb
        · omega
        · omega
        · omega
        · exact (notInUse_iff hi).1 hfree hused
      · cases driverRead_outcome hread <;> rfl

theorem leaves_write {fd nbytes : Int} {buf : Option Memory}
    (h : writeFd M fd buf nbytes s = some (ret, s')) : Leaves M s (.write fd buf nbytes) s' := by
  cases writeFd_outcome h with
  | failed hfail => exact .inl ⟨hfail, rfl⟩
  | called hbuf hfd hi hused _ =>
      refine .inr ⟨?_, rfl⟩
      rintro (hb | hgt | hle | hfree)
      · exact hbuf hb
      · omega
      · omega
      · exact (notInUse_iff hi).1 hfree hused

theorem leaves_open {filename : Option CString} {k' : Kernel}
    (h : openFd M filename s.kernel = some (ret, k')) :
    Leaves M s (.opn filename) { s with kernel := k' } := by
  have hpass : ∀ {name fileInfo}, filename = some name → name.val ≠ [] →
      M.readDentryByName name.val = some fileInfo → ¬ (FlagCall.opn filename).FailsFirstTest M s := by
    intro name fileInfo hname hne hfound hfail
    rcases hfail name hname with hnil | hnone
    · exact hne hnil
    · rw [hfound] at hnone
      simp at hnone
  cases openFd_outcome h with
  | unknown hfail => exact .inl ⟨hfail, rfl⟩
  | full hname hne hfound => exact .inr ⟨hpass hname hne hfound, rfl⟩
  | opened hname hne hfound => exact .inr ⟨hpass hname hne hfound, rfl⟩

theorem leaves_close {fd : Int} {k' : Kernel} (h : closeFd M fd s.kernel = some (ret, k')) :
    Leaves M s (.close fd) { s with kernel := k' } := by
  refine .inr ⟨id, ?_⟩
  cases closeFd_outcome h <;> rfl

theorem leaves_getargs {bufNull : Bool} {nbytes : Int} {buf : Stores} {k' : Kernel}
    (h : Gyarados.getargs bufNull nbytes s.kernel = some (ret, buf, k')) :
    Leaves M s (.getargs bufNull nbytes) { s with kernel := k' } := by
  simp only [Gyarados.getargs] at h
  split at h
  · rename_i harg
    obtain ⟨-, -, rfl⟩ := by simpa using h
    exact .inl ⟨harg, rfl⟩
  · rename_i harg
    obtain ⟨i, -, h⟩ := Option.map_eq_some_iff.1 h
    obtain ⟨-, -, rfl⟩ := by simpa using h
    exact .inr ⟨harg, rfl⟩

theorem leaves_vidmap {screenStart : Nat} {k' : Kernel}
    (h : Gyarados.vidmap M screenStart s.kernel = some (ret, k')) :
    Leaves M s (.vidmap screenStart) { s with kernel := k' } := by
  simp only [Gyarados.vidmap] at h
  split at h
  · rename_i harg
    obtain ⟨-, rfl⟩ := by simpa using h
    exact .inl ⟨harg, rfl⟩
  · rename_i harg
    split at h
    · obtain ⟨a, -, h⟩ := Option.map_eq_some_iff.1 h
      obtain ⟨-, rfl⟩ := by simpa using h
      exact .inr ⟨harg, rfl⟩
    · simp at h

/-- A call of `execute` that returns has restored the flag. -/
theorem leaves_execute {e : ExecEnv} {command : Option CString}
    (h : executeFlags M e command s = some (.returned ret, s')) :
    Leaves M s (.execute e command) s' := by
  refine .inr ⟨id, ?_⟩
  simp only [executeFlags] at h
  split at h
  · simp at h
  split at h
  · obtain ⟨-, rfl⟩ := by simpa using h
    rfl
  · simp at h
  · obtain ⟨-, rfl⟩ := by simpa using h
    rfl
  · obtain ⟨-, rfl⟩ := by simpa using h
    rfl
  · obtain ⟨-, rfl⟩ := by simpa using h
    rfl
  · obtain ⟨⟨out, kernel⟩, hlaunch, h⟩ := Option.map_eq_some_iff.1 h
    obtain ⟨rfl, -⟩ := Prod.mk.inj h
    simp only [execLaunch] at hlaunch
    split at hlaunch
    · simp at hlaunch
    · obtain ⟨m, -, h⟩ := Option.map_eq_some_iff.1 hlaunch
      simp at h

/-- **Every call that returns**. -/
theorem leaves {call : FlagCall} (h : call.ret M s = some (ret, s')) : Leaves M s call s' := by
  cases call with
  | read fd bufNull nbytes =>
      obtain ⟨⟨ret', buf, s₁⟩, hread, heq⟩ := Option.map_eq_some_iff.1 h
      obtain ⟨-, rfl⟩ := Prod.mk.inj heq
      exact leaves_read hread
  | write fd buf nbytes => exact leaves_write h
  | opn filename =>
      obtain ⟨⟨ret', k'⟩, hopen, heq⟩ := Option.map_eq_some_iff.1 h
      obtain ⟨-, rfl⟩ := Prod.mk.inj heq
      exact leaves_open hopen
  | close fd =>
      obtain ⟨⟨ret', k'⟩, hclose, heq⟩ := Option.map_eq_some_iff.1 h
      obtain ⟨-, rfl⟩ := Prod.mk.inj heq
      exact leaves_close hclose
  | getargs bufNull nbytes =>
      obtain ⟨⟨ret', buf, k'⟩, hargs, heq⟩ := Option.map_eq_some_iff.1 h
      obtain ⟨-, rfl⟩ := Prod.mk.inj heq
      exact leaves_getargs hargs
  | vidmap screenStart =>
      obtain ⟨⟨ret', k'⟩, hvidmap, heq⟩ := Option.map_eq_some_iff.1 h
      obtain ⟨-, rfl⟩ := Prod.mk.inj heq
      exact leaves_vidmap hvidmap
  | execute e command =>
      obtain ⟨⟨out, s₁⟩, hexec, heq⟩ := Option.bind_eq_some_iff.1 h
      cases out with
      | returned ret' =>
          obtain ⟨-, rfl⟩ := by simpa using heq
          exact leaves_execute hexec
      | launched entry => simp at heq
      | fault addr => simp at heq

end FlagCall

end Gyarados

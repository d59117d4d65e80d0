import Gyarados.Kernel.Pcb
import Gyarados.Lib.Printf

set_option autoImplicit false

/-! # System calls (`kernel/syscall.c`)

Where a C function dereferences NULL or a stray pointer, calls through a NULL entry of an
operation table, runs into the stack of another slot or stores over its own variables, the model has
no next state (`none`). A page fault goes to an exception handler that halts the program: that is
modelled for `execute`, and for the other calls the model stops there too. -/

namespace Gyarados

/-- The string `"shell"`. -/
def shellName : CString := ⟨[115, 104, 101, 108, 108], by decide⟩

/-- The string `"clear"`. -/
def clearName : CString := ⟨[99, 108, 101, 97, 114], by decide⟩

/-- The eight digits `printf` writes for `%#x`. -/
def hex8 (n : Nat) : List UInt8 :=
  (List.range 8).map fun i =>
    let d := n / 16 ^ (7 - i) % 16
    UInt8.ofNat (if d < 10 then 48 + d else 55 + d)

theorem isHexString8_hex8 {word : Nat} (hword : word < 0x100000000) : IsHexString8 word (hex8 word) := by
  have hsign : ∀ d < 16, UInt8.ofNat (if d < 10 then 48 + d else 55 + d) = digitSign d := by
    decide +kernel
  have hdigits : hex8 word = (List.range 8).map fun i => digitSign (word / 16 ^ (7 - i) % 16) := by
    refine List.map_congr_left fun i _ => ?_
    exact hsign _ (Nat.mod_lt _ (by decide))
  have hval : ∀ n, digitValue (digitSign (n % 16)) = n % 16 := fun n =>
    digitValue_digitSign _ ((Nat.mod_lt n (by decide)).trans (by decide))
  refine ⟨by simp [hex8], ?_, ?_⟩
  · intro c hc
    rw [hdigits] at hc
    obtain ⟨i, -, rfl⟩ := List.mem_map.1 hc
    exact ⟨_, Nat.mod_lt _ (by decide), rfl⟩
  · rw [hdigits]
    simp [readNumeral, List.range_succ, hval]
    omega

theorem hexString8_eq_hex8 {word : Nat} (hword : word < 0x100000000) : hexString8 word = hex8 word :=
  (isHexString8_hexString8 hword).eq (isHexString8_hex8 hword)

/-- The address in the message of the handler is what `printf` makes of the format there. -/
theorem printf_faultAddr (p : PrintfCall) : p.Prints (ascii "Tried to access memory at 0x%#x\n")
    (· = ascii "Tried to access memory at 0x" ++ hex8 (p.mem.word p.esp) ++ ascii "\n") := by
  have hparts : formatParts none (ascii "Tried to access memory at 0x%#x\n") =
      (ascii "Tried to access memory at 0x").map .plain ++ [.conversion true 120, .plain 10] := rfl
  refine p.prints_of_conversion (by decide +kernel) rfl ?_
  rw [hparts, ← hexString8_eq_hex8 (p.mem.word_lt p.esp)]
  rfl

/-! ## open, close, read and write -/

/-- What the switch in `open` puts into descriptor `fd`. A file type it does not know puts
    nothing. -/
def fillFd (M : Machine) (fd : Nat) (filename : List UInt8) (fileInfo : Dentry) (m : Memory) :
    Option Memory :=
  let fill (table : OpsTable) (inode : Nat) : Option Memory :=
    let m := Pcb.setOperationsPointer m fd (M.opsAddr table)
    let m := Pcb.setInode m fd inode
    let m := Pcb.setFilePosition m fd 0
    Pcb.strcpy m (48 * fd + 16) filename
  if fileInfo.fileType = 0 then fill .rtc 0
  else if fileInfo.fileType = 1 then fill .dir 0
  else if fileInfo.fileType = 2 then fill .files (M.getInode fileInfo.inodeNum)
  else some m

/-- `open`. The drivers' open functions only reset the rate of the clock. -/
def openFd (M : Machine) (filename : Option CString) (k : Kernel) : Option (Int × Kernel) :=
  let flags := k.intFlag
  let k := k.cli
  match filename with
  | none => some (-1, k)
  | some filename =>
      if filename.val.length = 0 then some (-1, k)
      else
        match M.readDentryByName filename.val with
        -- neither this return nor the two before it restores the flags
        | none => some (-1, k)
        | some fileInfo =>
            k.currSlot.bind fun i =>
              let m := k.kernelStack i
              match [2, 3, 4, 5, 6, 7].find? fun fd => Pcb.flags m fd = 0 with
              | none => some (-1, k.restoreFlags flags)
              | some fd =>
                  -- `IN_USE` is set whether or not the switch has filled anything in
                  (fillFd M fd filename.val fileInfo m).map fun m =>
                    ((fd : Int), (k.setPcb i (Pcb.setFlags m fd 1)).restoreFlags flags)

/-- `close`. The slot is freed before the call through its table; all close functions return 0. -/
def closeFd (M : Machine) (fd : Int) (k : Kernel) : Option (Int × Kernel) :=
  let flags := k.intFlag
  let k := k.cli
  if 2 ≤ fd ∧ fd ≤ 7 then
    k.currSlot.bind fun i =>
      let m := k.kernelStack i
      let fd := fd.toNat
      if Pcb.flags m fd = 1 then
        let m := Pcb.setFilePosition (Pcb.setFlags m fd 0) fd 0
        let k := (k.setPcb i m).restoreFlags flags
        -- a NULL or stray table ends the run here
        ((M.tableAt (Pcb.operationsPointer m fd)).bind (·.entry .close)).map fun _ => (0, k)
      else some (-1, k.restoreFlags flags)
  else some (-1, k.restoreFlags flags)

/-- Call the read function of a driver for descriptor `fd` of slot `i`. -/
def driverRead (M : Machine) (i : Slot) (fd : Nat) (nbytes : Int) (s : System) :
    Driver → Option (Int × Stores × System)
  | .terminalRead =>
      (s.tty.terminalRead s.kernel.currActiveTerm nbytes).map fun (ret, buf, tty) =>
        (ret, buf, { s with tty })
  -- `rtc_read` spins until the clock has ticked
  | .rtcRead => if s.intrOcc then some (0, .empty, { s with intrOcc := false }) else none
  | .dirRead =>
      let m := s.kernel.kernelStack i
      let r := M.dirRead (Pcb.filePosition m fd)
      let kernel := s.kernel.setPcb i (Pcb.setFilePosition m fd r.filePosition)
      some (r.ret, r.buf, { s with kernel })
  | .fsRead =>
      let m := s.kernel.kernelStack i
      let r := M.fsRead (Pcb.fileName m fd) (Pcb.filePosition m fd) nbytes
      let kernel := s.kernel.setPcb i (Pcb.setFilePosition m fd r.filePosition)
      some (r.ret, r.buf, { s with kernel })
  | _ => none

/-- `read`: the value returned, what the buffer received and the state; `none` too while the call
    waits. `bufNull` says that the buffer pointer is NULL. -/
def readFd (M : Machine) (fd : Int) (bufNull : Bool) (nbytes : Int) (s : System) :
    Option (Int × Stores × System) :=
  let flags := s.kernel.intFlag
  let s := { s with kernel := s.kernel.cli }
  if bufNull ∨ fd > 7 ∨ fd < 0 ∨ fd = 1 then some (-1, .empty, s)
  else
    s.kernel.currSlot.bind fun i =>
      let m := s.kernel.kernelStack i
      let fd := fd.toNat
      if Pcb.flags m fd ≠ 1 then some (-1, .empty, s)
      else
        let s := { s with kernel := s.kernel.restoreFlags flags }
        ((M.tableAt (Pcb.operationsPointer m fd)).bind (·.entry .read)).bind
          (driverRead M i fd nbytes s)

/-- `rtc_set_frequency`: the value returned. -/
def rtcSetFrequency (frequency : Int) : Int :=
  if frequency < 2 ∨ frequency > 1024 then -1
  else if frequency.toNat &&& (frequency.toNat - 1) ≠ 0 then -1
  else 0

/-- Call the write function of a driver with the buffer `buf`. -/
def driverWrite (buf : Memory) (nbytes : Int) (s : System) : Driver → Option (Int × System)
  | .terminalWrite =>
      let (ret, tty) :=
        s.tty.terminalWrite s.kernel.currActiveTerm ((List.range nbytes.toNat).map buf)
      some (ret, { s with tty })
  | .rtcWrite =>
      if nbytes ≠ 4 then some (-1, s)
      else some (rtcSetFrequency (toInt32 (buf.word 0)), s)
  | .dirWrite => some (-1, s)
  | .fsWrite => some (-1, s)
  | _ => none

/-- `write`; a buffer `none` is NULL. -/
def writeFd (M : Machine) (fd : Int) (buf : Option Memory) (nbytes : Int) (s : System) :
    Option (Int × System) :=
  let flags := s.kernel.intFlag
  let s := { s with kernel := s.kernel.cli }
  match buf with
  | none => some (-1, s)
  | some buf =>
      if fd > 7 ∨ fd ≤ 0 then some (-1, s)
      else
        s.kernel.currSlot.bind fun i =>
          let m := s.kernel.kernelStack i
          let fd := fd.toNat
          if Pcb.flags m fd ≠ 1 then some (-1, s)
          else
            let s := { s with kernel := s.kernel.restoreFlags flags }
            ((M.tableAt (Pcb.operationsPointer m fd)).bind (·.entry .write)).bind
              (driverWrite buf nbytes s)

/-! ## getargs and vidmap -/

/-- `getargs`: the value returned, what the buffer received and the state. -/
def getargs (bufNull : Bool) (nbytes : Int) (k : Kernel) : Option (Int × Stores × Kernel) :=
  let flags := k.intFlag
  let k := k.cli
  if nbytes < 0 ∨ bufNull then some (-1, .empty, k)
  else
    k.currSlot.map fun i =>
      let copy := strncpy (Pcb.args (k.kernelStack i)) nbytes.toNat
      (0, fun j => copy[j]?, k.restoreFlags flags)

/-- `vidmap` with the address `screen_start`. The last addresses that pass its test are not those of a
    pointer on the page of the program, and the store faults. -/
def vidmap (M : Machine) (screenStart : Nat) (k : Kernel) : Option (Int × Kernel) :=
  let flags := k.intFlag
  let k := k.cli
  if screenStart < 0x8000000 ∨ screenStart > 0x8400000 then some (-1, k)
  else if screenStart + 4 ≤ 0x8400000 then
    (k.paging.userTranslate M.pageTable1Addr screenStart).map fun a =>
      (0, { k with userMem := Memory.setWord k.userMem a 0xb8000 }.restoreFlags flags)
  else none

/-! ## halt -/

/-- The entry point in the 32 bytes at the head of a program. -/
def entryPoint (header : Memory) : Nat :=
  (header 27).toNat * 0x1000000 + (header 26).toNat * 0x10000 + (header 25).toNat * 0x100
    + (header 24).toNat

/-- `tss.esp0` for a process number. -/
def esp0For (procNum : Nat) : Nat := 0x800000 - 0x2000 * procNum - 4

/-- The bit of `curr_proc_id_mask` that `halt` flips; the processor shifts by the count modulo
    32. -/
def programBit (procNum : Nat) : Nat := 0x80 >>> (procNum % 32)

inductive HaltOutcome
  /-- -1: the shell to start again could not be read. -/
  | returned
  /-- The first program of the terminal starts again at this address. -/
  | restarted (entry : Nat)
  /-- The parent's `execute` goes on with this `esp` and `ebp`, and returns `g_status`. -/
  | resumed (esp ebp : Nat)
  deriving DecidableEq, Repr

/-- `close(i)` for `i` from 2 to 7. -/
def closeFds (M : Machine) (k : Kernel) : Option Kernel :=
  ([2, 3, 4, 5, 6, 7] : List Int).foldlM (fun k fd => (closeFd M fd k).map Prod.snd) k

/-- Free descriptors 0 and 1, as `halt` does by hand. -/
def closeStd (m : Memory) : Memory :=
  let m := Pcb.setOperationsPointer m 0 0
  let m := Pcb.setFlags m 0 0
  let m := Pcb.setOperationsPointer m 1 0
  let m := Pcb.setInode m 1 0
  Pcb.setFlags m 1 0

/-- `halt`; `fInitData` is what its uninitialised header buffer holds. -/
def halt (M : Machine) (fInitData : Memory) (status : Nat) (k : Kernel) :
    Option (HaltOutcome × Kernel) :=
  let flags := k.intFlag
  let k := k.cli
  let term := k.currActiveTerm
  k.currSlot.bind fun i =>
    let freeProcNum := Pcb.procNum (k.kernelStack i)
    if k.prevProc term = 0 then
      -- the name is in the code: no matter what the terminal's first program is
      let r := M.fsRead shellName.val 0 32
      if r.ret = -1 then some (.returned, k.restoreFlags flags)
      else some (.restarted (entryPoint (r.buf.onto fInitData)), k.restoreFlags true)
    else
      let k := { k with
        gStatus := status
        currProcIdMask := k.currProcIdMask ^^^ programBit freeProcNum }
      -- the process is still the current one while its descriptors are closed
      let k := k.setPcb i (closeStd (k.kernelStack i))
      (closeFds M k).bind fun k =>
        (slotAt (k.prevProc term)).map fun j =>
          let prev := k.kernelStack j
          let k := { k with
            paging := k.paging.switchPd (Pcb.base prev)
            tssEsp0 := esp0For (Pcb.procNum prev) }
          let m := k.kernelStack i
          let k := { k with
            currProc := Function.update k.currProc term (k.prevProc term)
            prevProc := Function.update k.prevProc term (Pcb.prev prev) }
          -- the registers of the parent at its call of `execute` are in the PCB of the child
          (.resumed (Pcb.pKsp m) (Pcb.pKbp m), k.restoreFlags flags)

/-! ## execute -/

/-- What a call of `execute` finds in its uninitialised locals, and its stack registers. -/
structure ExecEnv where
  /-- What `f_init_data` holds when the file is read; long arguments lie in it by then. -/
  fInitData : Memory
  cmdLen : Nat
  cmdLen_lt : cmdLen < 0x100
  /-- The stack from `temp_arg` upwards. -/
  tempArg : Memory
  esp : Nat
  ebp : Nat

/-- The locals of the argument loop. -/
structure ArgState where
  spaceFlag : Bool
  cmdLen : Nat
  tempArg : Memory

/-- `i - cmd_len - 1`, computed with 32-bit unsigned numbers. -/
def argIndex (i cmdLen : Nat) : Nat := (i + 0x100000000 - cmdLen - 1) % 0x100000000

/-- The argument loop; `none` is the early return for a first word of more than 32 bytes. -/
def argLoop : Nat → List UInt8 → ArgState → Option (Nat × ArgState)
  | i, [], a => some (i, a)
  | i, c :: cs, a =>
      if c = 32 ∧ a.spaceFlag = false then
        argLoop (i + 1) cs { a with spaceFlag := true, cmdLen := i % 0x100 }
      else if a.spaceFlag then
        argLoop (i + 1) cs { a with tempArg := a.tempArg.setByte (argIndex i a.cmdLen) c }
      -- `cmd_len` and `temp_arg` have not been set on this way out
      else if 32 ≤ i then none
      else argLoop (i + 1) cs a

/-- `temp_arg` when the arguments have been stored and terminated. -/
def execArgs (e : ExecEnv) (command : List UInt8) : Option Memory :=
  (argLoop 0 command { spaceFlag := false, cmdLen := e.cmdLen, tempArg := e.tempArg }).map
    fun (i, a) => a.tempArg.setByte (argIndex i a.cmdLen) 0

/-- What stands before the first space. -/
def firstWord (command : List UInt8) : List UInt8 := command.takeWhile fun c => decide (c ≠ 32)

/-- What stands behind the first space. -/
def argText (command : List UInt8) : Option (List UInt8) :=
  match command.dropWhile fun c => decide (c ≠ 32) with
  | [] => none
  | _ :: r => some r

/-- The arguments are stored, and they do not end before the variables of `execute` that are in use.
    Up to there the stack behind `temp_arg` holds `f_init_data` and three pointers, all of them set
    later. -/
def OverrunsFrame (command : List UInt8) : Prop :=
  (firstWord command).length ≤ 32 ∧ ∃ r ∈ argText command, 108 < r.length

instance (command : List UInt8) : Decidable (OverrunsFrame command) :=
  inferInstanceAs (Decidable (_ ∧ _))

/-- The four magic numbers of an ELF file. -/
def isRunnable (header : Memory) : Bool :=
  header 0 == 0x7f && header 1 == 0x45 && header 2 == 0x4c && header 3 == 0x46

/-- The search for a free program slot, with the probing bit `mask` moving down. -/
def findSlot (currProcIdMask : Nat) : List Slot → Nat → Option Slot
  | [], _ => none
  | i :: is, mask =>
      if mask &&& currProcIdMask = 0 then some i else findSlot currProcIdMask is (mask >>> 1)

/-- What `execute` has decided once it has looked for a slot. -/
inductive ExecPlan
  /-- Return -1 without a message. -/
  | fail
  /-- The first word is NULL and is read all the same. -/
  | nullName
  | clear
  | nonRunnable
  | noSlot
  | launch (fName : List UInt8) (entry : Nat) (slot : Slot) (tempArg : Memory)

/-- `execute` up to the search for a slot. -/
def execPlan (M : Machine) (e : ExecEnv) (command : Option CString) (currProcIdMask : Nat) :
    ExecPlan :=
  match command with
  | none => .fail
  | some command =>
      if command.val.length = 0 then .fail
      else
        match execArgs e command.val with
        | none => .fail
        | some tempArg =>
            match strtok command.val with
            | none => .nullName
            | some fName =>
                if strncmp fName [99, 108, 101, 97, 114] 5 = 0 then .clear
                else
                  let r := M.fsRead fName 0 32
                  let header := r.buf.onto e.fInitData
                  if r.ret = -1 then .fail
                  else if isRunnable header then
                    match findSlot currProcIdMask (List.finRange 7) 0x80 with
                    | none => .noSlot
                    | some slot => .launch fName (entryPoint header) slot tempArg
                  else .nonRunnable

/-- Free descriptor `fd`. -/
def clearFd (fd : Nat) (m : Memory) : Memory :=
  let m := Pcb.setOperationsPointer m fd 0
  let m := Pcb.setInode m fd 0
  let m := Pcb.setFilePosition m fd 0
  Pcb.setFlags m fd 0

/-- Free all eight descriptors. -/
def clearFds (m : Memory) : Memory := (List.range 8).foldl (fun m fd => clearFd fd m) m

/-- Open descriptors 0 and 1 on the terminal. -/
def openStd (M : Machine) (m : Memory) : Memory :=
  let m := Pcb.setOperationsPointer m 0 (M.opsAddr .stdin)
  let m := Pcb.setFlags m 0 1
  let m := Pcb.setOperationsPointer m 1 (M.opsAddr .stdout)
  let m := Pcb.setInode m 1 0
  Pcb.setFlags m 1 1

/-- The PCB `execute` sets up for a new process, over what its stack held before. -/
def initPcb (M : Machine) (e : ExecEnv) (slot : Slot) (base prev : Nat) (source : Memory)
    (m : Memory) : Option Memory :=
  let m := (m.setWord 464 e.esp).setWord 468 e.ebp
  let m := m.setByte 448 (UInt8.ofNat slot)
  let m := m.setWord 452 base
  (Pcb.strcpy m 384 (source.stringAt 0 0x2000)).map fun m =>
    let m := openStd M (clearFds m)
    let m := m.setWord 484 prev
    Pcb.setSched m e.esp e.ebp

/-- The program page with the bytes of the copy that lie on it, at 0x8048000 and up. -/
def storeProgram (base : Nat) (buf : Stores) (mem : Nat → UInt8) : Nat → UInt8 :=
  fun a =>
    let frame := base * 0x1000
    if frame + 0x48000 ≤ a ∧ a < frame + pageSizeLarge then
      (buf (a - (frame + 0x48000))).getD (mem a)
    else mem a

/-- The bytes from 0x8048000 to the end of the program page. -/
def programRoom : Nat := 0x3b8000

/-- What `strcpy` reads from `temp_arg` on: behind it lies `f_init_data`, with the header of the file,
    and then `proc_ctrl_blk`, whose low byte is 0. In front of it lies the buffer for the name, which has no
    room for the NUL behind 32 bytes. -/
def argSource (M : Machine) (e : ExecEnv) (fName : List UInt8) (tempArg : Memory) : Memory :=
  fun a =>
    if a = 0 ∧ fName.length = 32 then 0
    else if a < 64 then tempArg a
    else if a < 96 then ((M.fsRead fName 0 32).buf.onto e.fInitData) (a - 64)
    else 0

inductive ExecOutcome
  | returned (ret : Int)
  | launched (entry : Nat)
  /-- A page fault at this address. -/
  | fault (addr : Nat)
  deriving DecidableEq, Repr

/-- `execute` from the slot on. The copy of the program faults when it reaches the end of the
    page. -/
def execLaunch (M : Machine) (e : ExecEnv) (fName : List UInt8) (entry : Nat) (slot : Slot)
    (tempArg : Memory) (k : Kernel) : Option (ExecOutcome × Kernel) :=
  let term := k.currActiveTerm
  let (paging, base) := k.paging.initNewProcess slot
  let r := M.copyFileToAddr fName
  let k := { k with
    currProcIdMask := k.currProcIdMask ||| programBit slot
    paging
    userMem := storeProgram base r.buf k.userMem }
  -- the slot is taken by now, and a fault does not give it back
  if (r.buf programRoom).isSome then some (.fault 0x8400000, k)
  else
    let prev := k.currProc term
    (initPcb M e slot base prev (argSource M e fName tempArg) (k.kernelStack slot)).map fun m =>
      let k := { k.setPcb slot m with
        tssEsp0 := esp0For slot
        prevProc := Function.update k.prevProc term prev
        currProc := Function.update k.currProc term (pcbAddr slot)
        firstProgramRun := 1 }
      (.launched entry, k.restoreFlags true)

/-- What `execute` does about its plan. -/
def ExecPlan.carryOut (M : Machine) (e : ExecEnv) (s : System) : ExecPlan → Option (ExecOutcome × System)
  | .fail => some (.returned (-1), s)
  | .nullName => some (.fault 0, s)
  | .clear => some (.returned 0, { s with tty := { s.tty with con := s.tty.con.clearScreen } })
  | .nonRunnable =>
      some (.returned (-1), { s with tty := s.tty.puts (ascii "ERROR: Non-Runnable file!\n") })
  | .noSlot =>
      some (.returned (-1),
        { s with tty := s.tty.puts (ascii "ERROR: Out of runnable program slots!\n") })
  | .launch fName entry slot tempArg =>
      (execLaunch M e fName entry slot tempArg s.kernel).map fun (out, kernel) =>
        (out, { s with kernel })

/-- `execute`, as long as it does not store over its own variables. -/
def execute (M : Machine) (e : ExecEnv) (command : Option CString) (s : System) :
    Option (ExecOutcome × System) :=
  if ∃ text ∈ command, OverrunsFrame text.val then none
  else (execPlan M e command s.kernel.currProcIdMask).carryOut M e s

/-- `page_fault_except`: it halts the running program with status -2. When there is nothing to
    halt to, the access is made again and faults again. -/
def pageFaultExcept (M : Machine) (fInitData : Memory) (addr : Nat) (s : System) :
    Option (HaltOutcome × System) :=
  let s := { s with
    kernel := s.kernel.cli
    tty := s.tty.puts (ascii "\nEXCEPTION: Page fault!\nTried to access memory at 0x" ++ hex8 addr
      ++ ascii "\n") }
  (halt M fInitData 254 s.kernel).bind fun (out, kernel) =>
    match out with
    | .returned => none
    | out => some (out, { s with kernel })

/-- How a call of `execute` ends, a page fault in it included. -/
inductive CallOutcome
  | returned (ret : Int)
  | launched (entry : Nat)
  | killed (how : HaltOutcome)
  deriving DecidableEq, Repr

/-- What the exception handler makes of the end of `execute`. -/
def ExecOutcome.deliver (M : Machine) (e : ExecEnv) (s : System) :
    ExecOutcome → Option (CallOutcome × System)
  | .returned ret => some (.returned ret, s)
  | .launched entry => some (.launched entry, s)
  | .fault addr => (pageFaultExcept M e.fInitData addr s).map fun (out, s) => (.killed out, s)

/-- A call of `execute`, with the exception handler behind it. -/
def callExecute (M : Machine) (e : ExecEnv) (command : Option CString) (s : System) :
    Option (CallOutcome × System) :=
  (execute M e command s).bind fun (out, s) => out.deliver M e s

end Gyarados

import Mathlib.Data.List.FinRange
import Gyarados.Drivers.Keyboard
import Gyarados.Fs.Files
import Gyarados.Mm.Paging

set_option autoImplicit false

/-! # Process control blocks and the state of the kernel

The kernel has seven 8 KB stacks below 8 MB, one for each program slot, and the PCB of a slot lies
at the bottom of its stack. A PCB is kept as the bytes it is made of, with the field offsets of
`pcb_t` (32-bit layout: eight 48-byte `file_array`s, 64 bytes of arguments, the process number,
then words), because `strcpy` into `args` and into a `file_name` does not stop at the end of its
field. -/

namespace Gyarados

/-- A program slot: `MAX_PROG_NUM` is 7. -/
abbrev Slot := Fin 7

/-- The address of the PCB of a slot, `_8MB - _8KB * (slot + 1)`. -/
def pcbAddr (i : Slot) : Nat := 0x800000 - 0x2000 * (i + 1)

/-- The slot whose PCB lies at `p`; there is none for NULL and for a wild pointer. -/
def slotAt (p : Nat) : Option Slot := (List.finRange 7).find? fun i => pcbAddr i = p

theorem pcbAddr_injective : Function.Injective pcbAddr := by
  have h : ∀ i j, pcbAddr i = pcbAddr j → i = j := by decide
  exact fun i j => h i j

theorem pcbAddr_ne_null (i : Slot) : pcbAddr i ≠ 0 := by
  revert i
  decide

theorem pcbAddr_lt (i : Slot) : pcbAddr i < 0x100000000 := by
  revert i
  decide

@[simp] theorem slotAt_pcbAddr (i : Slot) : slotAt (pcbAddr i) = some i := by
  revert i
  decide

@[simp] theorem slotAt_null : slotAt 0 = none := by decide

theorem slotAt_eq_some {p : Nat} {i : Slot} : slotAt p = some i ↔ p = pcbAddr i := by
  constructor
  · intro h
    unfold slotAt at h
    have hp := List.find?_some h
    exact (of_decide_eq_true hp).symm
  · intro h
    rw [h, slotAt_pcbAddr]

/-! ## Fields -/

namespace Pcb

variable (m : Memory) (fd : Nat)

def operationsPointer : Nat := m.word (48 * fd)

def inode : Nat := m.word (48 * fd + 4)

def filePosition : Nat := m.word (48 * fd + 8)

def flags : Nat := m.word (48 * fd + 12)

/-- `file_name` as a string; without a NUL it runs on into what lies behind it on the stack. -/
def fileName : List UInt8 := m.stringAt (48 * fd + 16) (0x2000 - (48 * fd + 16))

def args : List UInt8 := m.stringAt 384 (0x2000 - 384)

def procNum : Nat := (m 448).toNat

def base : Nat := m.word 452

def pKsp : Nat := m.word 464

def pKbp : Nat := m.word 468

def pSchedKsp : Nat := m.word 472

def pSchedKbp : Nat := m.word 476

def prev : Nat := m.word 484

def setOperationsPointer (v : Nat) : Memory := m.setWord (48 * fd) v

def setInode (v : Nat) : Memory := m.setWord (48 * fd + 4) v

def setFilePosition (v : Nat) : Memory := m.setWord (48 * fd + 8) v

def setFlags (v : Nat) : Memory := m.setWord (48 * fd + 12) v

/-- `strcpy` to offset `off` of the PCB. Past the end of the 8 KB stack lies the PCB of the slot
    below: there the model gives up. -/
def strcpy (off : Nat) (src : List UInt8) : Option Memory :=
  if off + src.length + 1 ≤ 0x2000 then some (m.writeBytes off (src ++ [0])) else none

/-- `p_sched_ksp` and `p_sched_kbp` together. -/
def setSched (esp ebp : Nat) : Memory := (m.setWord 472 esp).setWord 476 ebp

end Pcb

/-! ## What a change of a PCB leaves alone -/

/-- The two PCBs differ in their descriptors and arguments at most. -/
def SameControl (m m' : Memory) : Prop := ∀ a, 448 ≤ a → m' a = m a

namespace SameControl

theorem refl (m : Memory) : SameControl m m := fun _ _ => rfl

theorem trans {m m' m'' : Memory} (h : SameControl m m') (h' : SameControl m' m'') :
    SameControl m m'' := fun a ha => (h' a ha).trans (h a ha)

theorem setWord (m : Memory) {a : Nat} (v : Nat) (ha : a + 4 ≤ 448) :
    SameControl m (m.setWord a v) := fun _ hi => m.setWord_of_disjoint v (by omega)

theorem writeBytes (m : Memory) {a : Nat} (bs : List UInt8) (ha : a + bs.length ≤ 448) :
    SameControl m (m.writeBytes a bs) :=
  fun _ hi => Memory.writeBytes_of_disjoint bs m (by omega)

theorem word {m m' : Memory} (h : SameControl m m') {a : Nat} (ha : 448 ≤ a) :
    m'.word a = m.word a := Memory.word_congr fun i hi _ => h i (by omega)

end SameControl

/-- The two PCBs agree on every byte outside descriptor `fd`. -/
def OutsideFd (fd : Nat) (m m' : Memory) : Prop := ∀ a, a < 48 * fd ∨ 48 * fd + 48 ≤ a → m' a = m a

/-- The two PCBs agree on the bytes of descriptor `fd`. -/
def SameFd (fd : Nat) (m m' : Memory) : Prop :=
  ∀ a, 48 * fd ≤ a → a < 48 * fd + 48 → m' a = m a

namespace OutsideFd

variable {fd : Nat} {m m' m'' : Memory}

theorem refl (fd : Nat) (m : Memory) : OutsideFd fd m m := fun _ _ => rfl

theorem trans (h : OutsideFd fd m m') (h' : OutsideFd fd m' m'') : OutsideFd fd m m'' :=
  fun a ha => (h' a ha).trans (h a ha)

theorem setWord (m : Memory) {a : Nat} (v : Nat) (ha : 48 * fd ≤ a) (ha' : a + 4 ≤ 48 * fd + 48) :
    OutsideFd fd m (m.setWord a v) := fun _ hi => m.setWord_of_disjoint v (by omega)

theorem writeBytes (m : Memory) {a : Nat} (bs : List UInt8) (ha : 48 * fd ≤ a)
    (ha' : a + bs.length ≤ 48 * fd + 48) : OutsideFd fd m (m.writeBytes a bs) :=
  fun _ hi => Memory.writeBytes_of_disjoint bs m (by omega)

theorem sameFd (h : OutsideFd fd m m') {fd' : Nat} (hne : fd' ≠ fd) : SameFd fd' m m' := by
  intro a ha ha'
  exact h a (by omega)

end OutsideFd

namespace SameFd

variable {fd : Nat} {m m' : Memory}

theorem operationsPointer (h : SameFd fd m m') :
    Pcb.operationsPointer m' fd = Pcb.operationsPointer m fd :=
  Memory.word_congr fun a ha ha' => h a (by omega) (by omega)

theorem inode (h : SameFd fd m m') : Pcb.inode m' fd = Pcb.inode m fd :=
  Memory.word_congr fun a ha ha' => h a (by omega) (by omega)

theorem filePosition (h : SameFd fd m m') : Pcb.filePosition m' fd = Pcb.filePosition m fd :=
  Memory.word_congr fun a ha ha' => h a (by omega) (by omega)

theorem flags (h : SameFd fd m m') : Pcb.flags m' fd = Pcb.flags m fd :=
  Memory.word_congr fun a ha ha' => h a (by omega) (by omega)

/-- A name that fits its field is read from the descriptor alone. -/
theorem fileName (h : SameFd fd m m') (hfd : fd < 8) (hlen : (Pcb.fileName m fd).length < 32) :
    Pcb.fileName m' fd = Pcb.fileName m fd :=
  Memory.stringAt_congr_of_length_lt _ _ 32 (by omega) hlen fun a ha ha' => h a (by omega) (by omega)

end SameFd

/-- Descriptor `fd` is free afterwards, or it is what it was but for its position. -/
def FdKept (fd : Nat) (m m' : Memory) : Prop :=
  Pcb.flags m' fd = 0 ∨
    Pcb.flags m' fd = Pcb.flags m fd ∧
      Pcb.operationsPointer m' fd = Pcb.operationsPointer m fd ∧
      Pcb.inode m' fd = Pcb.inode m fd ∧
      ∀ a, 48 * fd + 16 ≤ a → a < 48 * fd + 48 → m' a = m a

theorem SameFd.kept {fd : Nat} {m m' : Memory} (h : SameFd fd m m') : FdKept fd m m' :=
  Or.inr ⟨h.flags, h.operationsPointer, h.inode, fun a ha ha' => h a (by omega) ha'⟩

theorem FdKept.trans {fd : Nat} {m m' m'' : Memory} (h : FdKept fd m m') (h' : FdKept fd m' m'') :
    FdKept fd m m'' := by
  rcases h' with hfree' | ⟨hflags', hops', hinode', hname'⟩
  · exact Or.inl hfree'
  · rcases h with hfree | ⟨hflags, hops, hinode, hname⟩
    · exact Or.inl (hflags'.trans hfree)
    · exact Or.inr ⟨hflags'.trans hflags, hops'.trans hops, hinode'.trans hinode,
        fun a ha ha' => (hname' a ha ha').trans (hname a ha ha')⟩

/-- No descriptor is taken into use: those from 2 on are kept, descriptor 0 keeps its table or
    loses it, and the rest of the PCB keeps its control fields. -/
structure FdsKept (m m' : Memory) : Prop where
  sameControl : SameControl m m'
  kept : ∀ fd, 2 ≤ fd → fd < 8 → FdKept fd m m'
  std : Pcb.operationsPointer m' 0 = Pcb.operationsPointer m 0 ∨ Pcb.operationsPointer m' 0 = 0

theorem FdsKept.refl (m : Memory) : FdsKept m m :=
  ⟨SameControl.refl m, fun _ _ _ => SameFd.kept fun _ _ _ => rfl, Or.inl rfl⟩

theorem FdsKept.trans {m m' m'' : Memory} (h : FdsKept m m') (h' : FdsKept m' m'') :
    FdsKept m m'' := by
  refine ⟨h.1.trans h'.1, fun fd h2 h8 => (h.2 fd h2 h8).trans (h'.2 fd h2 h8), ?_⟩
  rcases h'.std with hsame | hnull
  · rw [hsame]
    exact h.std
  · exact Or.inr hnull

/-- Moving the position keeps the descriptor. -/
theorem FdsKept.setFilePosition (m : Memory) {fd : Nat} (hfd : fd < 8) (v : Nat) :
    FdsKept m (Pcb.setFilePosition m fd v) := by
  have hout : OutsideFd fd m (Pcb.setFilePosition m fd v) :=
    OutsideFd.setWord m v (by omega) (by omega)
  refine ⟨fun a ha => hout a (by omega), fun fd' _ _ => ?_,
    Or.inl (Memory.word_setWord_of_disjoint _ _ (by omega))⟩
  by_cases hne : fd' = fd
  · subst hne
    refine Or.inr ⟨?_, ?_, ?_, ?_⟩
    · exact Memory.word_setWord_of_disjoint _ _ (by omega)
    · exact Memory.word_setWord_of_disjoint _ _ (by omega)
    · exact Memory.word_setWord_of_disjoint _ _ (by omega)
    · intro a ha ha'
      exact Memory.setWord_of_disjoint _ _ (by omega)
  · exact (hout.sameFd hne).kept

/-- Closing a descriptor frees it. -/
theorem FdsKept.close (m : Memory) {fd : Nat} (h2 : 2 ≤ fd) (h8 : fd < 8) :
    FdsKept m (Pcb.setFilePosition (Pcb.setFlags m fd 0) fd 0) := by
  have hout : OutsideFd fd m (Pcb.setFilePosition (Pcb.setFlags m fd 0) fd 0) :=
    (OutsideFd.setWord m _ (by omega) (by omega)).trans (OutsideFd.setWord _ _ (by omega) (by omega))
  refine ⟨fun a ha => hout a (by omega), fun fd' _ _ => ?_,
    Or.inl (hout.sameFd (by omega)).operationsPointer⟩
  by_cases hne : fd' = fd
  · subst hne
    refine Or.inl ?_
    rw [Pcb.flags, Pcb.setFilePosition, Memory.word_setWord_of_disjoint _ _ (by omega),
      Pcb.setFlags, Memory.word_setWord]
  · exact (hout.sameFd hne).kept

/-- A write to descriptor 0 or 1 keeps the others; the table of descriptor 0 may become NULL. -/
theorem FdsKept.setWord (m : Memory) {a : Nat} (v : Nat) (ha : a + 4 ≤ 96)
    (hv : 4 ≤ a ∨ a = 0 ∧ v = 0) : FdsKept m (m.setWord a v) := by
  refine ⟨SameControl.setWord m v (by omega), fun fd h2 _ =>
    SameFd.kept fun _ h₁ _ => Memory.setWord_of_disjoint m v (by omega), ?_⟩
  rcases hv with ha' | ⟨rfl, rfl⟩
  · exact Or.inl (Memory.word_setWord_of_disjoint _ _ (by omega))
  · exact Or.inr (Memory.word_setWord _ _ _)

/-! ## Operation tables -/

/-- The four functions of an operation table, by their index. -/
inductive Op
  | opn
  | read
  | write
  | close
  deriving DecidableEq, Repr

inductive Driver
  | terminalRead
  | terminalWrite
  | rtcOpen
  | rtcRead
  | rtcWrite
  | rtcClose
  | dirOpen
  | dirRead
  | dirWrite
  | dirClose
  | fsOpen
  | fsRead
  | fsWrite
  | fsClose
  deriving DecidableEq, Repr

/-- `stdin_ops_table` and the other four. -/
inductive OpsTable
  | stdin
  | stdout
  | rtc
  | dir
  | files
  deriving DecidableEq, Repr

/-- The contents of the tables; `none` is a NULL entry. -/
def OpsTable.entry : OpsTable → Op → Option Driver
  | .stdin, .read => some .terminalRead
  | .stdin, _ => none
  | .stdout, .write => some .terminalWrite
  | .stdout, _ => none
  | .rtc, .opn => some .rtcOpen
  | .rtc, .read => some .rtcRead
  | .rtc, .write => some .rtcWrite
  | .rtc, .close => some .rtcClose
  | .dir, .opn => some .dirOpen
  | .dir, .read => some .dirRead
  | .dir, .write => some .dirWrite
  | .dir, .close => some .dirClose
  | .files, .opn => some .fsOpen
  | .files, .read => some .fsRead
  | .files, .write => some .fsWrite
  | .files, .close => some .fsClose

/-- What the boot fixes: the file-system image and the addresses the linker gave the static
    objects. -/
structure Machine extends Image where
  opsAddr : OpsTable → Nat
  opsAddr_injective : Function.Injective opsAddr
  opsAddr_ne_null : ∀ t, opsAddr t ≠ 0
  opsAddr_lt : ∀ t, opsAddr t < 0x100000000
  pageTable1Addr : Nat

/-- The table a pointer points to; NULL and a stray pointer point to none. -/
def Machine.tableAt (M : Machine) (p : Nat) : Option OpsTable :=
  [.stdin, .stdout, .rtc, .dir, .files].find? fun t => M.opsAddr t = p

@[simp] theorem Machine.tableAt_opsAddr (M : Machine) (t : OpsTable) :
    M.tableAt (M.opsAddr t) = some t := by
  have h : ∀ u, M.opsAddr u = M.opsAddr t ↔ u = t := fun u => M.opsAddr_injective.eq_iff
  cases t <;> simp [tableAt, List.find?, h]

theorem Machine.tableAt_eq_some {M : Machine} {p : Nat} {t : OpsTable} :
    M.tableAt p = some t ↔ p = M.opsAddr t := by
  constructor
  · intro h
    unfold tableAt at h
    have hp := List.find?_some h
    exact (of_decide_eq_true hp).symm
  · intro h
    rw [h, M.tableAt_opsAddr]

theorem Machine.tableAt_null (M : Machine) : M.tableAt 0 = none := by
  simp [tableAt, M.opsAddr_ne_null]

/-! ## The state -/

/-- The globals of `syscall.c`, the kernel stacks and what the processor holds. -/
structure Kernel where
  currProc : Term → Nat
  prevProc : Term → Nat
  currActiveTerm : Term
  currProcIdMask : Nat
  firstProgramRun : Nat
  gStatus : Nat
  /-- The 8 KB kernel stacks, each with its PCB at the bottom. -/
  kernelStack : Slot → Memory
  paging : PageTables
  /-- `tss.esp0` -/
  tssEsp0 : Nat
  /-- The interrupt-enable flag. -/
  intFlag : Bool
  /-- Physical memory from 8 MB on, where the frames of the programs are. -/
  userMem : Nat → UInt8

structure System where
  kernel : Kernel
  tty : Tty
  /-- `intr_occ` of `rtc.c` -/
  intrOcc : Bool

namespace Kernel

/-- The slot of `curr_proc[curr_active_term]`, when that is a PCB. -/
def currSlot (k : Kernel) : Option Slot := slotAt (k.currProc k.currActiveTerm)

/-- Change the PCB of a slot. -/
def setPcb (k : Kernel) (i : Slot) (m : Memory) : Kernel :=
  { k with kernelStack := Function.update k.kernelStack i m }

/-- The `prev` link of the PCB at `p`. -/
def prevOf (k : Kernel) (p : Nat) : Nat :=
  match slotAt p with
  | some i => Pcb.prev (k.kernelStack i)
  | none => 0

/-- `cli_and_save` -/
def cli (k : Kernel) : Kernel := { k with intFlag := false }

/-- `restore_flags` -/
def restoreFlags (flags : Bool) (k : Kernel) : Kernel := { k with intFlag := flags }

end Kernel

end Gyarados

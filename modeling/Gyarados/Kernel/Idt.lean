import Gyarados.Foundation.Descriptor

set_option autoImplicit false

/-! # The interrupt descriptor table (`kernel/idt.c`)

`init_idt` fills the 256 entries field by field. What they amount to is what the processor reads from
their bits. -/

namespace Gyarados

open X86

/-! ## The code -/

/-- The routines of `irq.S`. -/
inductive IrqEntry
  | divideByZeroIrq
  | debugIrq
  | nmiIrq
  | breakpointIrq
  | overflowIrq
  | oobIrq
  | opcodeIrq
  | noCoprocIrq
  | doubleFaultIrq
  | coprocSegOverrunIrq
  | tssIrq
  | segmentIrq
  | stackIrq
  | generalProtecIrq
  | pageFaultIrq
  | unknownInterrIrq
  | coprocIrq
  | alignIrq
  | machineChkIrq
  | pitIrq
  | keyIrq
  | rtcIrq
  | mouseIrq
  | sbIrq
  | syscallIrq
  | generalIrq
  deriving DecidableEq, Repr

/-- `idt_desc_t` -/
structure IdtDesc where
  offset1500 : BitVec 16
  segSelector : BitVec 16
  reserved4 : BitVec 8
  reserved3 : BitVec 1
  reserved2 : BitVec 1
  reserved1 : BitVec 1
  size : BitVec 1
  reserved0 : BitVec 1
  dpl : BitVec 2
  present : BitVec 1
  offset3116 : BitVec 16
  deriving DecidableEq, Repr

/-- `val`: the fields are packed from the low bits up. -/
def IdtDesc.val (d : IdtDesc) : BitVec 64 :=
  d.offset3116 ++ d.present ++ d.dpl ++ d.reserved0 ++ d.size ++ d.reserved1 ++ d.reserved2 ++
    d.reserved3 ++ d.reserved4 ++ d.segSelector ++ d.offset1500

/-- `SET_IDT_ENTRY` -/
def setIdtEntry (d : IdtDesc) (handler : Word) : IdtDesc :=
  { d with
    offset3116 := ((handler &&& 0xffff0000) >>> 16).setWidth 16
    offset1500 := (handler &&& 0xffff).setWidth 16 }

/-- `KERNEL_CS` -/
abbrev kernelCs : BitVec 16 := 0x0010

/-- `NUM_EXCEPTIONS` and `NUM_VEC`. -/
abbrev numExceptions : Nat := 0x20
abbrev numVec : Nat := 256

/-- `PIT_IDT`, `KEYBOARD_IDT`, `RTC_IDT`, `MOUSE_IDT`, `SB_IDT` and `SYSCALL_IDT`. -/
abbrev pitIdt : Nat := 0x20
abbrev keyboardIdt : Nat := 0x21
abbrev rtcIdt : Nat := 0x28
abbrev mouseIdt : Nat := 0x2c
abbrev sbIdt : Nat := 0x25
abbrev syscallIdt : Nat := 0x80

/-- The first loop of `init_idt`. -/
def exceptionDesc (d : IdtDesc) : IdtDesc :=
  { d with
    present := 1
    dpl := 0
    segSelector := kernelCs
    size := 1
    reserved4 := 0
    reserved3 := 1
    reserved2 := 1
    reserved1 := 1
    reserved0 := 0 }

/-- The entries that `init_idt` sets one by one, by their numbers. -/
def exceptionIrqs : List IrqEntry :=
  [.divideByZeroIrq, .debugIrq, .nmiIrq, .breakpointIrq, .overflowIrq, .oobIrq, .opcodeIrq, .noCoprocIrq,
    .doubleFaultIrq, .coprocSegOverrunIrq, .tssIrq, .segmentIrq, .stackIrq, .generalProtecIrq,
    .pageFaultIrq, .unknownInterrIrq, .coprocIrq, .alignIrq, .machineChkIrq]

/-- The body of the second loop. -/
def interruptDesc (addr : IrqEntry → Word) (i : Nat) (d : IdtDesc) : IdtDesc :=
  let d := { d with present := 1 }
  let d := if i = syscallIdt then { d with dpl := 3 } else { d with dpl := 0 }
  let d :=
    { d with
      segSelector := kernelCs
      size := 1
      reserved4 := 0
      reserved3 := 0
      reserved2 := 1
      reserved1 := 1
      reserved0 := 0 }
  if i = pitIdt then setIdtEntry d (addr .pitIrq)
  else if i = keyboardIdt then setIdtEntry d (addr .keyIrq)
  else if i = rtcIdt then setIdtEntry d (addr .rtcIrq)
  else if i = mouseIdt then setIdtEntry d (addr .mouseIrq)
  else if i = sbIdt then setIdtEntry d (addr .sbIrq)
  else if i = syscallIdt then setIdtEntry d (addr .syscallIrq)
  else setIdtEntry d (addr .generalIrq)

/-- Change the entries with these numbers, one after the other. -/
def changeEntries (f : Nat → IdtDesc → IdtDesc) (is : List Nat) (idt : Nat → IdtDesc) : Nat → IdtDesc :=
  is.foldl (fun idt i => Function.update idt i (f i (idt i))) idt

/-- `init_idt`, with the addresses that the linker gave the routines. -/
def initIdt (addr : IrqEntry → Word) (idt : Nat → IdtDesc) : Nat → IdtDesc :=
  let idt := changeEntries (fun _ => exceptionDesc) (List.range numExceptions) idt
  let idt := changeEntries
    (fun i d => (exceptionIrqs[i]?).elim d fun entry => setIdtEntry d (addr entry))
    (List.range exceptionIrqs.length) idt
  changeEntries (interruptDesc addr) (List.range' numExceptions (numVec - numExceptions)) idt

/-! ## What the processor reads -/

/-- The routine of a vector, if it has one. -/
def irqEntry (v : Nat) : Option IrqEntry :=
  if v < numExceptions then exceptionIrqs[v]?
  else if v = pitIdt then some .pitIrq
  else if v = keyboardIdt then some .keyIrq
  else if v = rtcIdt then some .rtcIrq
  else if v = mouseIdt then some .mouseIrq
  else if v = sbIdt then some .sbIrq
  else if v = syscallIdt then some .syscallIrq
  else some .generalIrq

/-- The address in an entry. -/
def IdtDesc.offset (d : IdtDesc) : Word := d.offset3116 ++ d.offset1500

/-- The gate of a vector; one without a routine keeps the address `stray`. -/
def gateOf (addr : IrqEntry → Word) (stray : Word) (v : Nat) : Gate where
  offset := (irqEntry v).elim stray addr
  selector := kernelCs
  kind := if v < numExceptions then Gate.trapKind else Gate.interruptKind
  storage := 0
  dpl := if v = syscallIdt then 3 else 0
  present := 1

section

variable {addr : IrqEntry → Word} {idt : Nat → IdtDesc} {v : Nat}

/-- The fields of an entry are where the processor looks for them. -/
theorem ofBits_val (d : IdtDesc) : Gate.ofBits d.val =
    { offset := d.offset
      selector := d.segSelector
      kind := d.size ++ d.reserved1 ++ d.reserved2 ++ d.reserved3
      storage := d.reserved0
      dpl := d.dpl
      present := d.present } := by
  rw [Gate.ofBits, IdtDesc.val, Gate.mk.injEq, four_bits]
  simp [-Nat.reduceAdd, BitVec.extractLsb'_append_eq_of_add_le, BitVec.extractLsb'_append_eq_of_le,
    IdtDesc.offset]

theorem offset_setIdtEntry (d : IdtDesc) (w : Word) : (setIdtEntry d w).offset = w := by
  rw [IdtDesc.offset, setIdtEntry, setWidth_and_shift (by decide)]
  rw [setWidth_and (by decide), append_two]

theorem changeEntries_apply {is : List Nat} (his : is.Nodup) (f : Nat → IdtDesc → IdtDesc)
    (idt : Nat → IdtDesc) (v : Nat) :
    changeEntries f is idt v = if v ∈ is then f v (idt v) else idt v :=
  foldl_update_eq f is his idt v

/-- The entry of an exception, with the address of its routine if it has one. -/
theorem initIdt_exception (hv : v < numExceptions) : initIdt addr idt v =
    (exceptionIrqs[v]?).elim (exceptionDesc (idt v)) fun entry =>
      setIdtEntry (exceptionDesc (idt v)) (addr entry) := by
  have hfirst : v ∈ List.range numExceptions := List.mem_range.2 hv
  have hlast : v ∉ List.range' numExceptions (numVec - numExceptions) := by
    rw [List.mem_range'_1]
    omega
  rw [initIdt, changeEntries_apply (List.nodup_range' 1), changeEntries_apply List.nodup_range,
    changeEntries_apply List.nodup_range, if_neg hlast, if_pos hfirst]
  split
  · rfl
  · rename_i hnone
    rw [List.getElem?_eq_none (by simpa using hnone), Option.elim_none]

theorem initIdt_interrupt (hlo : numExceptions ≤ v) (hv : v < numVec) :
    initIdt addr idt v = interruptDesc addr v (idt v) := by
  have hlast : v ∈ List.range' numExceptions (numVec - numExceptions) := by
    rw [List.mem_range'_1]
    omega
  have hfirst : v ∉ List.range numExceptions := by
    rw [List.mem_range]
    omega
  have hexception : v ∉ List.range exceptionIrqs.length := by
    rw [List.mem_range]
    exact fun h => absurd (h.trans (show exceptionIrqs.length < numExceptions by decide)) (by omega)
  rw [initIdt, changeEntries_apply (List.nodup_range' 1), changeEntries_apply List.nodup_range,
    changeEntries_apply List.nodup_range, if_pos hlast, if_neg hexception, if_neg hfirst]

theorem gate_exception (hv : v < numExceptions) :
    Gate.ofBits (initIdt addr idt v).val = gateOf addr (idt v).offset v := by
  have hsyscall : v ≠ syscallIdt := by
    rintro rfl
    exact absurd hv (by decide)
  have hkind : (1 : BitVec 1) ++ (1 : BitVec 1) ++ (1 : BitVec 1) ++ (1 : BitVec 1) = Gate.trapKind := by
    decide
  rw [initIdt_exception hv, ofBits_val, gateOf, irqEntry, if_pos hv, if_pos hv, if_neg hsyscall]
  cases exceptionIrqs[v]? with
  | none => exact Gate.mk.injEq .. ▸ ⟨rfl, rfl, hkind, rfl, rfl, rfl⟩
  | some entry => exact Gate.mk.injEq .. ▸ ⟨offset_setIdtEntry _ _, rfl, hkind, rfl, rfl, rfl⟩

/-- The second loop gives every entry a routine. -/
theorem interruptDesc_eq (hlo : numExceptions ≤ v) (d : IdtDesc) : ∃ d' entry,
    irqEntry v = some entry ∧ interruptDesc addr v d = setIdtEntry d' (addr entry) ∧
      d'.segSelector = kernelCs ∧ d'.present = 1 ∧ d'.dpl = (if v = syscallIdt then 3 else 0) ∧
      d'.size = 1 ∧ d'.reserved3 = 0 ∧ d'.reserved2 = 1 ∧ d'.reserved1 = 1 ∧ d'.reserved0 = 0 := by
  rw [irqEntry, if_neg (by omega), interruptDesc]
  split_ifs <;> exact ⟨_, _, rfl, rfl, rfl, rfl, rfl, rfl, rfl, rfl, rfl, rfl⟩

theorem gate_interrupt (hlo : numExceptions ≤ v) (hv : v < numVec) :
    Gate.ofBits (initIdt addr idt v).val = gateOf addr (idt v).offset v := by
  have hkind : (1 : BitVec 1) ++ (1 : BitVec 1) ++ (1 : BitVec 1) ++ (0 : BitVec 1) =
      Gate.interruptKind := by decide
  obtain ⟨d, entry, hentry, hdesc, hcs, hpresent, hdpl, hsize, h3, h2, h1, h0⟩ :=
    @interruptDesc_eq addr v hlo (idt v)
  rw [initIdt_interrupt hlo hv, hdesc, ofBits_val, offset_setIdtEntry, gateOf, hentry,
    if_neg (by omega), Option.elim_some, Gate.mk.injEq]
  refine ⟨rfl, hcs, ?_, h0, hdpl, hpresent⟩
  have hbits : (setIdtEntry d (addr entry)).size ++ (setIdtEntry d (addr entry)).reserved1 ++
      (setIdtEntry d (addr entry)).reserved2 ++ (setIdtEntry d (addr entry)).reserved3 =
        d.size ++ d.reserved1 ++ d.reserved2 ++ d.reserved3 := rfl
  rw [hbits, hsize, h1, h2, h3, hkind]

/-- **The table holds the gate of every vector.** -/
theorem initIdt_gates (addr : IrqEntry → Word) (idt : Nat → IdtDesc) (v : Nat) (hv : v < numVec) :
    Gate.ofBits (initIdt addr idt v).val = gateOf addr (idt v).offset v := by
  by_cases hexception : v < numExceptions
  · exact gate_exception hexception
  · exact gate_interrupt (by omega) hv

theorem initIdt_gates_syscall :
    Gate.ofBits (initIdt (fun _ => 0x400000) (fun _ => ⟨0, 0, 0, 0, 0, 0, 0, 0, 0, 0, 0⟩) syscallIdt).val =
      gateOf (fun _ => 0x400000) 0 syscallIdt :=
  initIdt_gates (fun _ => 0x400000) (fun _ => ⟨0, 0, 0, 0, 0, 0, 0, 0, 0, 0, 0⟩) syscallIdt (by decide)

end

end Gyarados

import Gyarados.Foundation.InterruptController

set_option autoImplicit false

/-! # The interrupt controllers (`drivers/i8259.c`)

The driver sets both controllers up with every request masked, and then masks and unmasks single
requests and ends them. -/

namespace Gyarados

/-! ## The driver -/

/-- `MASTER_8259_PORT`, `SLAVE_8259_PORT` and the ports behind them. -/
abbrev master8259Port : Nat := 0x20
abbrev slave8259Port : Nat := 0xa0
abbrev master8259Port2 : Nat := 0x21
abbrev slave8259Port2 : Nat := 0xa1

/-- `EOI` -/
abbrev eoi : Nat := 0x60

/-- `IRQ_SYSTEM_TIMER`, `IRQ_KEYBOARD_CTRL`, `IRQ_CAS_SIG`, `IRQ_PARLL_PRT_SND`, `IRQ_RTC` and
    `IRQ_MOUSE_PS2`. -/
abbrev irqSystemTimer : Nat := 0
abbrev irqKeyboardCtrl : Nat := 1
abbrev irqCasSig : Nat := 2
abbrev irqParllPrtSnd : Nat := 5
abbrev irqRtc : Nat := 8
abbrev irqMousePs2 : Nat := 12

/-- `i8259_init` -/
def i8259Init (p : I8259Pair) : I8259Pair :=
  -- ICW1
  let p := p.outb 0x11 master8259Port
  let p := p.outb 0x11 slave8259Port
  -- ICW2: where the vectors start
  let p := p.outb 0x20 master8259Port2
  let p := p.outb 0x28 slave8259Port2
  -- ICW3: the cascade
  let p := p.outb 0x04 master8259Port2
  let p := p.outb 0x02 slave8259Port2
  -- ICW4
  let p := p.outb 0x05 master8259Port2
  let p := p.outb 0x01 slave8259Port2
  -- everything is masked
  let p := p.outb 0xff master8259Port2
  p.outb 0xff slave8259Port2

/-- `enable_irq` -/
def enableIrq (irqNum : Nat) (p : I8259Pair) : I8259Pair :=
  if irqNum &&& 8 ≠ 0 then
    let mask := ~~~((1 : BitVec 32) <<< (irqNum - 8))
    p.outb (((p.inb slave8259Port2).setWidth 32 &&& mask).setWidth 8) slave8259Port2
  else
    let mask := ~~~((1 : BitVec 32) <<< irqNum)
    p.outb (((p.inb master8259Port2).setWidth 32 &&& mask).setWidth 8) master8259Port2

/-- `disable_irq` -/
def disableIrq (irqNum : Nat) (p : I8259Pair) : I8259Pair :=
  if irqNum &&& 8 ≠ 0 then
    let mask := (1 : BitVec 32) <<< (irqNum - 8)
    p.outb (((p.inb slave8259Port2).setWidth 32 ||| mask).setWidth 8) slave8259Port2
  else
    let mask := (1 : BitVec 32) <<< irqNum
    p.outb (((p.inb master8259Port2).setWidth 32 ||| mask).setWidth 8) master8259Port2

/-- `send_eoi` -/
def sendEoi (irqNum : Nat) (p : I8259Pair) : I8259Pair :=
  if irqNum &&& 8 ≠ 0 then
    let p := p.outb (BitVec.ofNat 8 (eoi ||| (irqNum - 8))) slave8259Port
    p.outb (BitVec.ofNat 8 (eoi + 2)) master8259Port
  else p.outb (BitVec.ofNat 8 (eoi ||| irqNum)) master8259Port

/-! ## What the calls do to the controllers -/

section

variable {p : I8259Pair} {irq : Nat}

theorem and_eight_ne_zero (h : irq < 16) : irq &&& 8 ≠ 0 ↔ 8 ≤ irq := by
  revert irq
  decide

/-- The pair is set up the same way from every state before. -/
theorem i8259Init_eq (p : I8259Pair) : i8259Init p =
    ⟨⟨.ocw1, 0x11, 0x20, 0x04, 0x05, 0xff, 0, 0⟩, ⟨.ocw1, 0x11, 0x28, 0x02, 0x01, 0xff, 0, 0⟩⟩ := by
  simp [i8259Init, I8259Pair.outb, I8259.command, I8259.data]

theorem setUp_i8259Init (p : I8259Pair) : (i8259Init p).SetUp 0x20 0x28 := by
  rw [i8259Init_eq]
  exact ⟨⟨rfl, rfl, rfl, rfl, rfl⟩, ⟨rfl, rfl, rfl, rfl, rfl⟩, rfl⟩

theorem idle_i8259Init (p : I8259Pair) : (i8259Init p).Idle := by
  rw [i8259Init_eq]
  exact ⟨rfl, rfl⟩

/-- The byte that unmasks a line. -/
theorem clearLine_eq (r : BitVec 8) (n : Nat) :
    (r.setWidth 32 &&& ~~~((1 : BitVec 32) <<< n)).setWidth 8 = clearLine n r := by
  ext m hm
  rw [← BitVec.getLsbD_eq_getElem, ← BitVec.getLsbD_eq_getElem, getLsbD_clearLine hm]
  rw [show (1 : BitVec 32) <<< n = BitVec.twoPow 32 n from (BitVec.twoPow_eq 32 n).symm]
  simp [hm, show m < 32 by omega, eq_comm]

/-- The byte that masks a line. -/
theorem setLine_eq (r : BitVec 8) (n : Nat) :
    (r.setWidth 32 ||| (1 : BitVec 32) <<< n).setWidth 8 = setLine n r := by
  ext m hm
  rw [← BitVec.getLsbD_eq_getElem, ← BitVec.getLsbD_eq_getElem, getLsbD_setLine hm]
  rw [show (1 : BitVec 32) <<< n = BitVec.twoPow 32 n from (BitVec.twoPow_eq 32 n).symm]
  simp [hm, show m < 32 by omega, eq_comm]

theorem data_ocw1 {c : I8259} {base place : BitVec 8} (h : c.SetUp base place) (v : BitVec 8) :
    c.data v = { c with imr := v } := by
  rw [I8259.data, h.next]

variable {base slaveBase : BitVec 8}

theorem enableIrq_eq (hset : p.SetUp base slaveBase) (h : irq < 16) :
    enableIrq irq p = p.onLine I8259.enable irq := by
  by_cases hirq : 8 ≤ irq
  · rw [enableIrq, if_pos ((and_eight_ne_zero h).2 hirq), I8259Pair.onLine, if_neg (by omega)]
    dsimp only
    rw [clearLine_eq, I8259Pair.outb_slave_data, data_ocw1 hset.slave]
    rfl
  · rw [enableIrq, if_neg (mt (and_eight_ne_zero h).1 hirq), I8259Pair.onLine, if_pos (by omega)]
    dsimp only
    rw [clearLine_eq, I8259Pair.outb_master_data, data_ocw1 hset.master]
    rfl

theorem disableIrq_eq (hset : p.SetUp base slaveBase) (h : irq < 16) :
    disableIrq irq p = p.onLine I8259.disable irq := by
  by_cases hirq : 8 ≤ irq
  · rw [disableIrq, if_pos ((and_eight_ne_zero h).2 hirq), I8259Pair.onLine, if_neg (by omega)]
    dsimp only
    rw [setLine_eq, I8259Pair.outb_slave_data, data_ocw1 hset.slave]
    rfl
  · rw [disableIrq, if_neg (mt (and_eight_ne_zero h).1 hirq), I8259Pair.onLine, if_pos (by omega)]
    dsimp only
    rw [setLine_eq, I8259Pair.outb_master_data, data_ocw1 hset.master]
    rfl

/-- The command names the line that it ends. -/
theorem command_eoi (c : I8259) {n : Nat} (h : n < 8) :
    c.command (BitVec.ofNat 8 (eoi ||| n)) = c.finish n := by
  have hbits : ∀ n < 8, (BitVec.ofNat 8 (eoi ||| n)).getLsbD 4 = false ∧
      (BitVec.ofNat 8 (eoi ||| n)).getLsbD 3 = false ∧
      (BitVec.ofNat 8 (eoi ||| n)).getLsbD 5 = true ∧
      (BitVec.ofNat 8 (eoi ||| n)).getLsbD 6 = true ∧
      (BitVec.ofNat 8 (eoi ||| n)).toNat % 8 = n := by decide
  obtain ⟨h4, h3, h5, h6, hn⟩ := hbits n h
  rw [I8259.command, h4, h3, h5, h6, hn]
  rfl

/-- The end of a request of the slave is told to both controllers. -/
theorem sendEoi_eq (p : I8259Pair) (h : irq < 16) : sendEoi irq p = p.finish irq := by
  by_cases hirq : 8 ≤ irq
  · have hmaster := command_eoi p.master (show 2 < 8 by decide)
    rw [sendEoi, if_pos ((and_eight_ne_zero h).2 hirq), I8259Pair.finish, if_neg (by omega),
      I8259Pair.outb_slave_command, command_eoi _ (by omega), I8259Pair.outb_master_command]
    exact congrArg (I8259Pair.mk · _) hmaster
  · rw [sendEoi, if_neg (mt (and_eight_ne_zero h).1 hirq), I8259Pair.finish, if_pos (by omega),
      I8259Pair.outb_master_command, command_eoi _ (by omega)]

end

end Gyarados

import Mathlib.Data.Fintype.Basic
import Mathlib.Logic.Function.Basic
import Mathlib.Tactic.FinCases
import Gyarados.Foundation.Bytes

set_option autoImplicit false

/-! # DMA (`drivers/dma.c`)

`init_dma` programs a channel by writes to ports. What they amount to is decided by the two controllers,
which are modelled beside the code by the layout that `dma.h` names. -/

namespace Gyarados

/-! ## The driver -/

/-- A call of `outb`. -/
structure Outb where
  value : Nat
  port : Nat
  deriving DecidableEq, Repr

/-- `DMA_O_MASK`, `DMA_O_MODE`, `DMA_O_CLER` and `DMA_O_BASE`. -/
abbrev dmaOMask : Nat := 0x0a
abbrev dmaOMode : Nat := 0x0b
abbrev dmaOCler : Nat := 0x0c
abbrev dmaOBase : Nat := 0x00

/-- `DMA_T_MASK`, `DMA_T_MODE`, `DMA_T_CLER` and `DMA_T_BASE`. -/
abbrev dmaTMask : Nat := 0xd4
abbrev dmaTMode : Nat := 0xd6
abbrev dmaTCler : Nat := 0xd8
abbrev dmaTBase : Nat := 0xc0

/-- `DMA_T_DMSK` -/
abbrev dmaTDmsk : Nat := 0xfe

/-- `DMA_CHAN_0` to `DMA_CHAN_7`. -/
def dmaChan : List Nat := [0x87, 0x83, 0x81, 0x82, 0x8f, 0x8b, 0x89, 0x8a]

/-- `start_dma` -/
def startDma (dData : Nat) : List Outb :=
  if dData < 4 then [⟨dData, dmaOMask⟩] else [⟨dData &&& 3, dmaTMask⟩]

/-- `stop_dma` -/
def stopDma (dData : Nat) : List Outb :=
  if dData < 4 then [⟨dData ||| 4, dmaOMask⟩] else [⟨(dData &&& 3) ||| 4, dmaTMask⟩]

/-- `set_dma_mode` -/
def setDmaMode (dData mode : Nat) : List Outb :=
  if dData < 4 then [⟨mode ||| dData, dmaOMask⟩] else [⟨mode ||| (dData &&& 3), dmaTMask⟩]

/-- `set_dma_mem`: both switches go over all channels, and leave other numbers out. -/
def setDmaMem (dData mem : Nat) : List Outb :=
  match dmaChan[dData]? with
  | some port => if dData < 4 then [⟨mem, port⟩] else [⟨mem ||| dmaTDmsk, port⟩]
  | none => []

/-- `clear_dma_regs` -/
def clearDmaRegs (dData : Nat) : List Outb :=
  if dData < 4 then [⟨0, dmaOCler⟩] else [⟨0, dmaTCler⟩]

/-- `set_dma_mem_addr`; the page is a byte. -/
def setDmaMemAddr (dData addr : Nat) : List Outb :=
  setDmaMem dData (addr / 0x10000 % 0x100) ++
    if dData < 4 then
      [⟨addr % 0x100, (dData &&& 3) * 2 + dmaOBase⟩,
        ⟨addr / 0x100 % 0x100, (dData &&& 3) * 2 + dmaOBase⟩]
    else
      [⟨addr / 2 % 0x100, (dData &&& 3) * 4 + dmaTBase⟩,
        ⟨addr / 2 / 0x100 % 0x100, (dData &&& 3) * 4 + dmaTBase⟩]

/-- `set_dma_rate`, where `rate--` wraps around at 0. -/
def setDmaRate (dData rate : Nat) : List Outb :=
  let rate := (rate + 0xffffffff) % 0x100000000
  if dData < 4 then
    [⟨rate % 0x100, (dData &&& 3) * 2 + 1 + dmaOBase⟩,
      ⟨rate / 0x100 % 0x100, (dData &&& 3) * 2 + 1 + dmaOBase⟩]
  else
    [⟨rate / 2 % 0x100, (dData &&& 3) * 4 + 2 + dmaTBase⟩,
      ⟨rate / 2 / 0x100 % 0x100, (dData &&& 3) * 4 + 2 + dmaTBase⟩]

/-- `init_dma`, with the value it returns; -1 is unsigned here. -/
def initDma (channel addr size mode : Nat) : Nat × List Outb :=
  if channel > 9 then (0xffffffff, [])
  else
    (0, stopDma channel ++ clearDmaRegs channel ++ setDmaMode channel mode ++
      setDmaMemAddr channel addr ++ setDmaRate channel size ++ startDma channel)

/-! ## The controllers -/

/-- A channel of one of the two controllers. -/
abbrev DmaChannel := Fin 8

/-- The second controller has the channels from 4 on. -/
def DmaChannel.second (ch : DmaChannel) : Bool := 4 ≤ ch.val

/-- The channel with number `n` modulo 4 of a controller. -/
def dmaChannel (second : Bool) (n : Nat) : DmaChannel :=
  ⟨(if second then 4 else 0) + n % 4, by
    have := Nat.mod_lt n (show 0 < 4 by decide)
    split <;> omega⟩

/-- The registers of a channel; a mode has its two low bits clear. -/
structure DmaRegs where
  base : Nat
  count : Nat
  page : Nat
  mode : Nat
  masked : Bool

/-- The two controllers: each takes the two bytes of an address or a count one after the other, and
    remembers whether the next one is the high byte. -/
structure DmaControllers where
  regs : DmaChannel → DmaRegs
  highByte : Bool → Bool

/-- What a port is for. -/
inductive DmaPort
  | mask (second : Bool)
  | mode (second : Bool)
  | clear (second : Bool)
  | base (ch : DmaChannel)
  | count (ch : DmaChannel)
  | page (ch : DmaChannel)
  deriving DecidableEq

/-- The layout of the ports: those of the second controller are two apart. -/
def dmaPort (port : Nat) : Option DmaPort :=
  if port = dmaOMask then some (.mask false)
  else if port = dmaOMode then some (.mode false)
  else if port = dmaOCler then some (.clear false)
  else if port = dmaTMask then some (.mask true)
  else if port = dmaTMode then some (.mode true)
  else if port = dmaTCler then some (.clear true)
  else if port < 8 then
    some (if port % 2 = 0 then .base (dmaChannel false (port / 2))
      else .count (dmaChannel false (port / 2)))
  else if 0xc0 ≤ port ∧ port < 0xd0 ∧ port % 2 = 0 then
    some (if port % 4 = 0 then .base (dmaChannel true ((port - 0xc0) / 4))
      else .count (dmaChannel true ((port - 0xc0) / 4)))
  else if port = 0x87 then some (.page 0)
  else if port = 0x83 then some (.page 1)
  else if port = 0x81 then some (.page 2)
  else if port = 0x82 then some (.page 3)
  else if port = 0x8f then some (.page 4)
  else if port = 0x8b then some (.page 5)
  else if port = 0x89 then some (.page 6)
  else if port = 0x8a then some (.page 7)
  else none

namespace DmaControllers

/-- Change the registers of one channel. -/
def modify (ch : DmaChannel) (f : DmaRegs → DmaRegs) (d : DmaControllers) : DmaControllers :=
  { d with regs := Function.update d.regs ch (f (d.regs ch)) }

/-- Set what the next byte of a controller is. -/
def setHighByte (second b : Bool) (d : DmaControllers) : DmaControllers :=
  { d with highByte := Function.update d.highByte second b }

/-- One byte of a 16-bit register. -/
def putByte (high : Bool) (reg value : Nat) : Nat :=
  if high then reg % 0x100 + 0x100 * value else reg / 0x100 * 0x100 + value

/-- A byte at a port. -/
def outb (d : DmaControllers) (o : Outb) : DmaControllers :=
  match dmaPort o.port with
  | some (.mask second) =>
      d.modify (dmaChannel second o.value) fun r => { r with masked := o.value.testBit 2 }
  | some (.mode second) =>
      d.modify (dmaChannel second o.value) fun r => { r with mode := o.value / 4 * 4 }
  | some (.clear second) => d.setHighByte second false
  | some (.base ch) =>
      let high := d.highByte ch.second
      (d.modify ch fun r => { r with base := putByte high r.base o.value }).setHighByte ch.second !high
  | some (.count ch) =>
      let high := d.highByte ch.second
      (d.modify ch fun r => { r with count := putByte high r.count o.value }).setHighByte ch.second !high
  | some (.page ch) => d.modify ch fun r => { r with page := o.value }
  | none => d

/-- The writes one after the other. -/
def outbs (os : List Outb) (d : DmaControllers) : DmaControllers := os.foldl outb d

end DmaControllers

/-- The address that a channel starts at: the second controller counts in words and leaves out the low
    bit of the page. -/
def DmaRegs.address (r : DmaRegs) (second : Bool) : Nat :=
  if second then r.page / 2 * 2 * 0x10000 + r.base * 2 else r.page * 0x10000 + r.base

/-- The number of bytes that a channel transfers. -/
def DmaRegs.size (r : DmaRegs) (second : Bool) : Nat :=
  if second then (r.count + 1) * 2 else r.count + 1

/-! ## Decoding the writes -/

namespace DmaControllers

variable (d : DmaControllers) (ch : DmaChannel)

@[simp] theorem regs_modify (f : DmaRegs → DmaRegs) : (d.modify ch f).regs ch = f (d.regs ch) :=
  Function.update_self ..

theorem regs_modify_of_ne {c : DmaChannel} (h : c ≠ ch) (f : DmaRegs → DmaRegs) :
    (d.modify ch f).regs c = d.regs c := Function.update_of_ne h ..

@[simp] theorem regs_setHighByte (second b : Bool) : (d.setHighByte second b).regs = d.regs := rfl

theorem modify_modify (f g : DmaRegs → DmaRegs) :
    (d.modify ch f).modify ch g = d.modify ch fun r => g (f r) := by
  simp only [modify, Function.update_self, Function.update_idem]

theorem outbs_append (os os' : List Outb) : d.outbs (os ++ os') = (d.outbs os).outbs os' :=
  List.foldl_append ..

/-- The low byte and then the high byte make up the register. -/
theorem putByte_putByte {lo : Nat} (hlo : lo < 0x100) (hi reg : Nat) :
    putByte true (putByte false reg lo) hi = lo + 0x100 * hi := by
  simp only [putByte, if_true, Bool.false_eq_true, if_false]
  omega

theorem update_highByte {second : Bool} (hlow : d.highByte second = false) :
    Function.update d.highByte second false = d.highByte := by
  rw [← hlow, Function.update_eq_self]

/-- Two bytes at the port of an address, after a clear. -/
theorem outbs_base {port : Nat} (hport : dmaPort port = some (.base ch))
    (hlow : d.highByte ch.second = false) {lo hi : Nat} (hlo : lo < 0x100) :
    d.outbs [⟨lo, port⟩, ⟨hi, port⟩] = d.modify ch fun r => { r with base := lo + 0x100 * hi } := by
  simp only [outbs, List.foldl_cons, List.foldl_nil, outb, hport, hlow, modify, setHighByte,
    Function.update_self, Function.update_idem, Bool.not_false, Bool.not_true, putByte_putByte hlo,
    update_highByte d hlow]

/-- Two bytes at the port of a count, after a clear. -/
theorem outbs_count {port : Nat} (hport : dmaPort port = some (.count ch))
    (hlow : d.highByte ch.second = false) {lo hi : Nat} (hlo : lo < 0x100) :
    d.outbs [⟨lo, port⟩, ⟨hi, port⟩] = d.modify ch fun r => { r with count := lo + 0x100 * hi } := by
  simp only [outbs, List.foldl_cons, List.foldl_nil, outb, hport, hlow, modify, setHighByte,
    Function.update_self, Function.update_idem, Bool.not_false, Bool.not_true, putByte_putByte hlo,
    update_highByte d hlow]

theorem outbs_stopDma : d.outbs (stopDma ch.val) = d.modify ch fun r => { r with masked := true } := by
  fin_cases ch <;> rfl

theorem outbs_startDma :
    d.outbs (startDma ch.val) = d.modify ch fun r => { r with masked := false } := by
  fin_cases ch <;> rfl

theorem outbs_clearDmaRegs : d.outbs (clearDmaRegs ch.val) = d.setHighByte ch.second false := by
  fin_cases ch <;> rfl

theorem dmaChannel_self : dmaChannel ch.second (ch.val % 4) = ch := by
  fin_cases ch <;> rfl

/-- The mode goes to the mask port: its bit 2 masks or unmasks the channel. -/
theorem outbs_setDmaMode {mode : Nat} (hmode : mode % 4 = 0) : d.outbs (setDmaMode ch.val mode) =
    d.modify ch fun r => { r with masked := mode.testBit 2 } := by
  have hcode : setDmaMode ch.val mode =
      [⟨mode ||| ch.val % 4, if ch.second then dmaTMask else dmaOMask⟩] := by
    fin_cases ch <;> rfl
  have hport : dmaPort (if ch.second then dmaTMask else dmaOMask) = some (.mask ch.second) := by
    cases ch.second <;> rfl
  have hlow : ch.val % 4 < 2 ^ 2 := Nat.mod_lt _ (by decide)
  have hchannel : dmaChannel ch.second (mode ||| ch.val % 4) = ch := by
    have hor : (mode ||| ch.val % 4) % 2 ^ 2 = mode % 2 ^ 2 ||| ch.val % 4 % 2 ^ 2 :=
      Nat.or_mod_two_pow
    rw [show mode % 2 ^ 2 = 0 from hmode, Nat.zero_or, Nat.mod_eq_of_lt hlow] at hor
    refine Eq.trans (Fin.ext ?_) (dmaChannel_self ch)
    exact congrArg (_ + ·) (hor.trans (Nat.mod_eq_of_lt hlow).symm)
  have hbit : (mode ||| ch.val % 4).testBit 2 = mode.testBit 2 := by
    rw [Nat.testBit_or, Nat.testBit_lt_two_pow hlow, Bool.or_false]
  rw [hcode]
  simp only [outbs, List.foldl_cons, List.foldl_nil, outb, hport, hchannel, hbit]

theorem outbs_setDmaMem {mem : Nat} : d.outbs (setDmaMem ch.val mem) =
    d.modify ch fun r => { r with page := if ch.second then mem ||| dmaTDmsk else mem } := by
  fin_cases ch <;> rfl

/-- The port of an address, and that of a count. -/
theorem dmaPort_base : if ch.second then dmaPort ((ch.val &&& 3) * 4 + dmaTBase) = some (.base ch)
    else dmaPort ((ch.val &&& 3) * 2 + dmaOBase) = some (.base ch) := by
  fin_cases ch <;> rfl

theorem dmaPort_count : if ch.second then dmaPort ((ch.val &&& 3) * 4 + 2 + dmaTBase) = some (.count ch)
    else dmaPort ((ch.val &&& 3) * 2 + 1 + dmaOBase) = some (.count ch) := by
  fin_cases ch <;> rfl

theorem second_eq_true : ch.second = true ↔ ¬ ch.val < 4 := by
  rw [DmaChannel.second, decide_eq_true_eq, Nat.not_lt]

theorem second_eq_false : ch.second = false ↔ ch.val < 4 := by
  rw [DmaChannel.second, decide_eq_false_iff_not, Nat.not_le]

theorem outbs_setDmaMemAddr (hlow : d.highByte ch.second = false) (addr : Nat) :
    d.outbs (setDmaMemAddr ch.val addr) = d.modify ch fun r =>
      { r with
        page := if ch.second then addr / 0x10000 % 0x100 ||| dmaTDmsk else addr / 0x10000 % 0x100
        base := (if ch.second then addr / 2 else addr) % 0x10000 } := by
  have hbytes : ∀ v, v % 0x100 + 0x100 * (v / 0x100 % 0x100) = v % 0x10000 := by
    intro v
    omega
  have hport := dmaPort_base ch
  rw [setDmaMemAddr, outbs_append, outbs_setDmaMem]
  by_cases hsecond : ch.second = true
  · rw [if_pos hsecond] at hport
    rw [if_neg ((second_eq_true ch).1 hsecond),
      outbs_base (d.modify ch _) ch hport hlow (Nat.mod_lt _ (by decide)), modify_modify]
    simp only [hbytes, if_pos hsecond]
  · rw [if_neg hsecond] at hport
    rw [if_pos ((second_eq_false ch).1 (Bool.eq_false_iff.2 hsecond)),
      outbs_base (d.modify ch _) ch hport hlow (Nat.mod_lt _ (by decide)), modify_modify]
    simp only [hbytes, if_neg hsecond]

theorem outbs_setDmaRate (hlow : d.highByte ch.second = false) {rate : Nat} (hpos : 0 < rate)
    (hrate : rate ≤ 0x10000) : d.outbs (setDmaRate ch.val rate) = d.modify ch fun r =>
      { r with count := if ch.second then (rate - 1) / 2 else rate - 1 } := by
  have hbytes : ∀ v < 0x10000, v % 0x100 + 0x100 * (v / 0x100 % 0x100) = v := by
    intro v hv
    omega
  have hcount : (rate + 0xffffffff) % 0x100000000 = rate - 1 := by omega
  have hport := dmaPort_count ch
  rw [setDmaRate, hcount]
  by_cases hsecond : ch.second = true
  · rw [if_pos hsecond] at hport
    rw [if_neg ((second_eq_true ch).1 hsecond),
      outbs_count d ch hport hlow (Nat.mod_lt _ (by decide)), hbytes _ (by omega)]
    simp only [if_pos hsecond]
  · rw [if_neg hsecond] at hport
    rw [if_pos ((second_eq_false ch).1 (Bool.eq_false_iff.2 hsecond)),
      outbs_count d ch hport hlow (Nat.mod_lt _ (by decide)), hbytes _ (by omega)]
    simp only [if_neg hsecond]

/-- **What `init_dma` leaves**: everything but the mode, and the page of a channel of the second
    controller with its upper bits set. -/
theorem outbs_initDma {addr size mode : Nat} (hpos : 0 < size) (hsize : size ≤ 0x10000)
    (hmode : mode % 4 = 0) : d.outbs (initDma ch.val addr size mode).2 =
      (d.setHighByte ch.second false).modify ch fun r =>
        { mode := r.mode
          masked := false
          page := if ch.second then addr / 0x10000 % 0x100 ||| dmaTDmsk else addr / 0x10000 % 0x100
          base := (if ch.second then addr / 2 else addr) % 0x10000
          count := if ch.second then (size - 1) / 2 else size - 1 } := by
  have hlow : ∀ d : DmaControllers, (d.setHighByte ch.second false).highByte ch.second = false :=
    fun d => Function.update_self ..
  have hclear : ∀ (d : DmaControllers) (f : DmaRegs → DmaRegs),
      (d.modify ch f).setHighByte ch.second false = (d.setHighByte ch.second false).modify ch f :=
    fun _ _ => rfl
  have hchannel : ¬ ch.val > 9 := by omega
  rw [initDma, if_neg hchannel]
  simp only [outbs_append]
  rw [outbs_stopDma, outbs_clearDmaRegs, outbs_setDmaMode _ _ hmode, hclear, modify_modify,
    outbs_setDmaMemAddr (modify ch _ (d.setHighByte ch.second false)) ch (hlow d), modify_modify,
    outbs_setDmaRate (modify ch _ (d.setHighByte ch.second false)) ch (hlow d) hpos hsize,
    modify_modify, outbs_startDma, modify_modify]

end DmaControllers

/-! ## What the arguments become -/

/-- The channel is set up as the arguments say, and no other is touched. -/
structure Programmed (ch : DmaChannel) (addr size mode : Nat) (d d' : DmaControllers) : Prop where
  address : (d'.regs ch).address ch.second = addr
  size : (d'.regs ch).size ch.second = size
  mode : (d'.regs ch).mode = mode
  unmasked : (d'.regs ch).masked = false
  other : ∀ c, c ≠ ch → d'.regs c = d.regs c

/-- The upper bits of the page are all set. -/
theorem or_dmsk_div : ∀ page < 0x100, (page ||| dmaTDmsk) / 2 = 0x7f := by decide +kernel

section Decoded

variable {ch : DmaChannel} {addr size mode : Nat} (d : DmaControllers)

theorem regs_initDma (hsize : 1 ≤ size ∧ size ≤ 0x10000) (hmode : mode % 4 = 0) :
    (d.outbs (initDma ch.val addr size mode).2).regs ch =
      { mode := (d.regs ch).mode
        masked := false
        page := if ch.second then addr / 0x10000 % 0x100 ||| dmaTDmsk else addr / 0x10000 % 0x100
        base := (if ch.second then addr / 2 else addr) % 0x10000
        count := if ch.second then (size - 1) / 2 else size - 1 } := by
  rw [d.outbs_initDma ch hsize.1 hsize.2 hmode, DmaControllers.regs_modify]
  rfl

/-- The address that the channel starts at. -/
theorem address_initDma (haddr : addr < 0x1000000) (hsize : 1 ≤ size ∧ size ≤ 0x10000)
    (heven : ch.second = true → addr % 2 = 0) (hmode : mode % 4 = 0) :
    ((d.outbs (initDma ch.val addr size mode).2).regs ch).address ch.second =
      if ch.second then 0xfe0000 + addr % 0x20000 else addr := by
  have hpage := or_dmsk_div (addr / 0x10000 % 0x100) (Nat.mod_lt _ (by decide))
  rw [regs_initDma d hsize hmode, DmaRegs.address]
  cases hsecond : ch.second with
  | false =>
      simp only [Bool.false_eq_true, if_false]
      omega
  | true =>
      have heven := heven hsecond
      simp only [if_true, hpage]
      omega

/-- The number of bytes that it transfers. -/
theorem size_initDma (hsize : 1 ≤ size ∧ size ≤ 0x10000) (heven : ch.second = true → size % 2 = 0)
    (hmode : mode % 4 = 0) :
    ((d.outbs (initDma ch.val addr size mode).2).regs ch).size ch.second = size := by
  rw [regs_initDma d hsize hmode, DmaRegs.size]
  cases hsecond : ch.second with
  | false =>
      simp only [Bool.false_eq_true, if_false]
      omega
  | true =>
      have heven := heven hsecond
      simp only [if_true]
      omega

end Decoded

/-- **What `init_dma` encodes**: the address, the size and the mask of a channel of the first controller;
    on the second controller the address has to be in the last 128 KB of the 16 MB; and the mode is the
    one that the channel had before. -/
theorem programmed_iff {ch : DmaChannel} {addr size mode : Nat} (d : DmaControllers)
    (haddr : addr < 0x1000000) (hsize : 1 ≤ size ∧ size ≤ 0x10000)
    (heven : ch.second = true → addr % 2 = 0 ∧ size % 2 = 0) (hmode : mode < 0x100 ∧ mode % 4 = 0) :
    Programmed ch addr size mode d (d.outbs (initDma ch.val addr size mode).2) ↔
      (d.regs ch).mode = mode ∧ (ch.second = true → 0xfe0000 ≤ addr) := by
  have hregs := @regs_initDma ch addr size mode d hsize hmode.2
  have haddress := address_initDma d haddr hsize (fun hsecond => (heven hsecond).1) hmode.2
  constructor
  · intro h
    refine ⟨?_, fun hsecond => ?_⟩
    · have hkept := h.mode
      rwa [hregs] at hkept
    · have hstart := haddress.symm.trans h.address
      rw [if_pos hsecond] at hstart
      omega
  · rintro ⟨hkept, htop⟩
    refine ⟨?_, ?_, ?_, ?_, fun c hc => ?_⟩
    · rw [haddress]
      split
      · rename_i hsecond
        have htop := htop hsecond
        omega
      · rfl
    · exact size_initDma d hsize (fun hsecond => (heven hsecond).2) hmode.2
    · rw [hregs]
      exact hkept
    · rw [hregs]
    · rw [d.outbs_initDma ch hsize.1 hsize.2 hmode.2, DmaControllers.regs_modify_of_ne _ _ hc]
      rfl

/-- Controllers in which every channel has the given mode. -/
def sampleDma (mode : Nat) : DmaControllers where
  regs := fun _ => { base := 0, count := 0, page := 0, mode := mode, masked := true }
  highByte := fun _ => true

/-- The last 64 KB, on a channel that had the mode already. -/
theorem programmed_secondController : Programmed 5 0xff0000 0x10000 0x58 (sampleDma 0x58)
    ((sampleDma 0x58).outbs (initDma 5 0xff0000 0x10000 0x58).2) :=
  (programmed_iff (sampleDma 0x58) (by decide) (by decide) (by decide) (by decide)).2
    (by decide)

/-- The mode never reaches the mode register. -/
theorem programmed_otherMode : ¬ Programmed 1 0x123456 0x8000 0x58 (sampleDma 0)
    ((sampleDma 0).outbs (initDma 1 0x123456 0x8000 0x58).2) :=
  fun h => absurd h.mode (by decide)

end Gyarados

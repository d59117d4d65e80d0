import Mathlib.Data.BitVec
import Mathlib.Logic.Function.Basic

set_option autoImplicit false

/-! # The clock chip

The MC146818: 128 registers behind an index register, of which A and B set it up and C holds its
interrupt flags. Reading C clears them; until then the interrupt line stays up. -/

namespace Gyarados

structure Cmos where
  index : BitVec 7
  reg : BitVec 7 → BitVec 8

namespace Cmos

abbrev regA : BitVec 7 := 0x0a
abbrev regB : BitVec 7 := 0x0b
abbrev regC : BitVec 7 := 0x0c
abbrev regD : BitVec 7 := 0x0d

/-! ## The chip -/

section

variable (c : Cmos)

def put (r : BitVec 7) (v : BitVec 8) : Cmos := { c with reg := Function.update c.reg r v }

/-- `outb` to the index port; bit 7 does not go to the chip. -/
def select (v : BitVec 8) : Cmos := { c with index := v.setWidth 7 }

/-- What `inb` from the data port returns. -/
def data : BitVec 8 := c.reg c.index

/-- After the read. -/
def read : Cmos := if c.index = regC then c.put regC 0 else c

/-- The flags of C, with the interrupt flag, which is up while B enables one of the others. -/
def signal (b flags : BitVec 8) : BitVec 8 :=
  if b &&& flags &&& 0x70 = 0 then flags &&& 0x7f else flags ||| 0x80

/-- `outb` to the data port. The update bit of A is not writable, nor are C and D. What B enables may have
    its flag set already: the line goes up at once. -/
def write (v : BitVec 8) : Cmos :=
  if c.index = regA then c.put regA (v &&& 0x7f ||| c.reg regA &&& 0x80)
  else if c.index = regB then (c.put regB v).put regC (signal v (c.reg regC))
  else if c.index = regC ∨ c.index = regD then c
  else c.put c.index v

/-- The periodic interrupt: its flag is set, and the line is raised if B lets it. -/
def tick : Cmos := c.put regC (signal (c.reg regB) (c.reg regC ||| 0x40))

/-- What the chip changes by itself: the time, and the update bit of A. -/
def advance (r : BitVec 7) (v : BitVec 8) : Cmos :=
  if r = regA then c.put regA (c.reg regA &&& 0x7f ||| v &&& 0x80)
  else if r < regA then c.put r v
  else c

/-- The interrupt line. -/
def line : Bool := (c.reg regC).getLsbD 7

end

/-- What a program can set up: A without its update bit, and B. -/
structure Settings where
  a : BitVec 7
  b : BitVec 8
  deriving DecidableEq, Repr

def settings (c : Cmos) : Settings := ⟨(c.reg regA).setWidth 7, c.reg regB⟩

/-- The registers that the chip does not use itself. -/
def ram (c : Cmos) : BitVec 7 → Option (BitVec 8) := fun r => if regD < r then some (c.reg r) else none

/-- The frequency of the periodic interrupt. -/
def Settings.hertz (s : Settings) : Nat :=
  match s.a.toNat % 16 with
  | 0 => 0
  | 1 => 256
  | 2 => 128
  | n + 3 => 32768 / 2 ^ (n + 2)

/-! ## What the operations keep -/

/-- The update bit of A is above what can be set up. -/
theorem setWidth_or_updateBit (v w : BitVec 8) :
    (v &&& 0x7f ||| w &&& 0x80).setWidth 7 = v.setWidth 7 := by
  have hlow : (0x7f : BitVec 8).setWidth 7 = BitVec.allOnes 7 := by decide
  have hhigh : (0x80 : BitVec 8).setWidth 7 = 0#7 := by decide
  rw [BitVec.setWidth_or, BitVec.setWidth_and, BitVec.setWidth_and, hlow, hhigh, BitVec.and_allOnes,
    BitVec.and_zero, BitVec.or_zero]

variable {c : Cmos} {r r' : BitVec 7} {v : BitVec 8}

theorem reg_put (c : Cmos) (r r' : BitVec 7) (v : BitVec 8) :
    (c.put r v).reg r' = if r' = r then v else c.reg r' :=
  Function.update_apply ..

@[simp] theorem index_put (c : Cmos) (r : BitVec 7) (v : BitVec 8) : (c.put r v).index = c.index := rfl

@[simp] theorem settings_select (c : Cmos) (v : BitVec 8) : (c.select v).settings = c.settings := rfl

@[simp] theorem line_select (c : Cmos) (v : BitVec 8) : (c.select v).line = c.line := rfl

/-- A register that is neither A nor B. -/
theorem settings_put (ha : r ≠ regA) (hb : r ≠ regB) (v : BitVec 8) :
    (c.put r v).settings = c.settings := by
  rw [settings, reg_put, reg_put, if_neg (Ne.symm ha), if_neg (Ne.symm hb)]
  rfl

theorem ram_put (hr : ¬ regD < r) (v : BitVec 8) : (c.put r v).ram = c.ram := by
  funext r'
  rw [ram, ram, reg_put]
  by_cases h : r' = r
  · rw [if_neg (h ▸ hr), if_neg (h ▸ hr)]
  · rw [if_neg h]

@[simp] theorem ram_select (c : Cmos) (v : BitVec 8) : (c.select v).ram = c.ram := rfl

@[simp] theorem ram_read (c : Cmos) : c.read.ram = c.ram := by
  rw [read]
  split
  · exact ram_put (by decide) 0
  · rfl

theorem ram_write (h : c.index = regA ∨ c.index = regB) (v : BitVec 8) : (c.write v).ram = c.ram := by
  rw [write]
  split_ifs with ha hb
  · exact ram_put (by decide) _
  · rw [ram_put (by decide), ram_put (by decide)]
  · exact absurd h (not_or.2 ⟨ha, hb⟩)
  · exact absurd h (not_or.2 ⟨ha, hb⟩)

@[simp] theorem ram_tick (c : Cmos) : c.tick.ram = c.ram := ram_put (by decide) _

@[simp] theorem ram_advance (c : Cmos) (r : BitVec 7) (v : BitVec 8) : (c.advance r v).ram = c.ram := by
  rw [advance]
  split_ifs with ha hlt
  · exact ram_put (by decide) _
  · refine ram_put (fun h => ?_) v
    have hbounds : regA.toNat = 10 ∧ regD.toNat = 13 := ⟨rfl, rfl⟩
    rw [BitVec.lt_def] at hlt h
    omega
  · rfl

@[simp] theorem index_read (c : Cmos) : c.read.index = c.index := by
  rw [read]
  split <;> rfl

@[simp] theorem settings_read (c : Cmos) : c.read.settings = c.settings := by
  rw [read]
  split
  · exact settings_put (by decide) (by decide) 0
  · rfl

/-- A read of C takes the line down, and no other read raises it. -/
theorem line_read (c : Cmos) : c.read.line = (c.line && c.index != regC) := by
  rw [read]
  split <;> rename_i h
  · rw [line, reg_put, if_pos rfl, h, bne_self_eq_false, Bool.and_false]
    rfl
  · rw [bne_iff_ne.2 h, Bool.and_true]

@[simp] theorem index_write (c : Cmos) (v : BitVec 8) : (c.write v).index = c.index := by
  rw [write]
  split_ifs <;> rfl

@[simp] theorem index_tick (c : Cmos) : c.tick.index = c.index := rfl

@[simp] theorem settings_tick (c : Cmos) : c.tick.settings = c.settings :=
  settings_put (by decide) (by decide) _

@[simp] theorem index_advance (c : Cmos) (r : BitVec 7) (v : BitVec 8) :
    (c.advance r v).index = c.index := by
  rw [advance]
  split_ifs <;> rfl

@[simp] theorem settings_advance (c : Cmos) (r : BitVec 7) (v : BitVec 8) :
    (c.advance r v).settings = c.settings := by
  rw [advance]
  split_ifs with ha hlt
  · rw [settings, reg_put, reg_put, if_pos rfl, if_neg (by decide), setWidth_or_updateBit]
    rfl
  · exact settings_put ha (by rintro rfl; exact absurd hlt (by decide)) v
  · rfl

@[simp] theorem line_advance (c : Cmos) (r : BitVec 7) (v : BitVec 8) :
    (c.advance r v).line = c.line := by
  rw [advance]
  split_ifs with ha hlt
  · rw [line, reg_put, if_neg (by decide)]
    rfl
  · rw [line, reg_put, if_neg (by rintro rfl; exact absurd hlt (by decide))]
    rfl
  · rfl

/-! ## Reading, changing and writing back -/

/-- A change of one register: some bits are kept and others set. -/
structure Change where
  register : BitVec 7
  keep : BitVec 8
  set : BitVec 8
  deriving DecidableEq, Repr

def Change.apply (s : Settings) (d : Change) : Settings :=
  if d.register = regA then { s with a := s.a &&& d.keep.setWidth 7 ||| d.set.setWidth 7 }
  else if d.register = regB then { s with b := s.b &&& d.keep ||| d.set }
  else s

/-- The byte that was read is what the register holds, as far as it can be set up. -/
def Agrees (c : Cmos) (v : BitVec 8) : Prop :=
  (c.index = regA ∧ v.setWidth 7 = c.settings.a) ∨ (c.index = regB ∧ v = c.settings.b)

theorem agrees_data (h : c.index = regA ∨ c.index = regB) : c.Agrees c.data := by
  obtain h | h := h
  · exact .inl ⟨h, by rw [data, h]; rfl⟩
  · exact .inr ⟨h, by rw [data, h]; rfl⟩

theorem Agrees.congr {c' : Cmos} (h : c.Agrees v) (hindex : c'.index = c.index)
    (hsettings : c'.settings = c.settings) : c'.Agrees v := by
  rw [Agrees, hindex, hsettings]
  exact h

/-- **Writing back is the change**, if nothing has changed in between. -/
theorem settings_write {d : Change} (h : c.Agrees v) (hindex : c.index = d.register) :
    (c.write (v &&& d.keep ||| d.set)).settings = d.apply c.settings := by
  obtain ⟨ha, hv⟩ | ⟨hb, hv⟩ := h
  · rw [write, if_pos ha, settings, reg_put, reg_put, if_pos rfl, if_neg (by decide),
      setWidth_or_updateBit, Change.apply, if_pos (hindex.symm.trans ha), ← hv, BitVec.setWidth_or,
      BitVec.setWidth_and]
    rfl
  · have hnot : c.index ≠ regA := by rw [hb]; decide
    rw [write, if_neg hnot, if_pos hb, settings_put (by decide) (by decide), settings, reg_put, reg_put,
      if_neg (by decide), if_pos rfl, Change.apply, if_neg (by rw [← hindex]; exact hnot),
      if_pos (hindex.symm.trans hb), hv]
    rfl

end Cmos

end Gyarados

import Mathlib.Data.BitVec
import Mathlib.Data.List.Find
import Mathlib.Tactic.Common

set_option autoImplicit false

/-! # The 8259 interrupt controllers

A controller has eight lines and passes the most urgent request on; line 0 is the most urgent. A PC has
two of them, and the second one is at line 2 of the first. The modes that nobody here asks for are left
out: rotating priorities, polling, the special mask mode and the special fully nested mode. -/

namespace Gyarados

/-! ## One controller -/

/-- What the next byte at the second port of a controller is. -/
inductive DataByte
  | icw2
  | icw3
  | icw4
  | ocw1
  deriving DecidableEq, Repr

/-- A controller: the words it was set up with, and the registers that mask requests, hold them and hold
    what is in service. -/
structure I8259 where
  next : DataByte
  icw1 : BitVec 8
  icw2 : BitVec 8
  icw3 : BitVec 8
  icw4 : BitVec 8
  imr : BitVec 8
  irr : BitVec 8
  isr : BitVec 8
  deriving DecidableEq

/-- A register with line `n` set. -/
def setLine (n : Nat) (r : BitVec 8) : BitVec 8 := r ||| BitVec.twoPow 8 n

/-- A register with line `n` clear. -/
def clearLine (n : Nat) (r : BitVec 8) : BitVec 8 := r &&& ~~~BitVec.twoPow 8 n

/-- The most urgent line that is set. -/
def firstLine (r : BitVec 8) : Option Nat := (List.range 8).find? r.getLsbD

namespace I8259

variable (c : I8259)

/-- A byte at the first port: ICW1 with bit 4, else OCW3 with bit 3, else OCW2, which ends an interrupt
    with bit 5: the one it names with bit 6, and else the most urgent one in service. -/
def command (v : BitVec 8) : I8259 :=
  if v.getLsbD 4 then
    { c with
      next := .icw2
      icw1 := v
      icw4 := if v.getLsbD 0 then c.icw4 else 0
      imr := 0
      irr := 0
      isr := 0 }
  else if v.getLsbD 3 then c
  else if v.getLsbD 5 then
    if v.getLsbD 6 then { c with isr := clearLine (v.toNat % 8) c.isr }
    else (firstLine c.isr).elim c fun n => { c with isr := clearLine n c.isr }
  else c

/-- A byte at the second port. ICW1 says whether there is an ICW3 and an ICW4. -/
def data (v : BitVec 8) : I8259 :=
  let last : DataByte := if c.icw1.getLsbD 0 then .icw4 else .ocw1
  match c.next with
  | .icw2 => { c with icw2 := v, next := if c.icw1.getLsbD 1 then last else .icw3 }
  | .icw3 => { c with icw3 := v, next := last }
  | .icw4 => { c with icw4 := v, next := .ocw1 }
  | .ocw1 => { c with imr := v }

/-- A request comes in. -/
def raise (n : Nat) : I8259 := { c with irr := setLine n c.irr }

def enable (n : Nat) : I8259 := { c with imr := clearLine n c.imr }

def disable (n : Nat) : I8259 := { c with imr := setLine n c.imr }

/-- A request has been served. -/
def served (n : Nat) : I8259 := { c with irr := clearLine n c.irr }

/-- The line is no longer in service. -/
def finish (n : Nat) : I8259 := { c with isr := clearLine n c.isr }

/-- Nothing as urgent as line `n` is in service. -/
def free (n : Nat) : Bool := (List.range (n + 1)).all fun m => !c.isr.getLsbD m

/-- The line that is passed on, if `lines` have a request beside those that the controller holds. -/
def request (lines : BitVec 8) : Option Nat :=
  if c.next = .ocw1 then (firstLine ((c.irr ||| lines) &&& ~~~c.imr)).filter c.free else none

/-- The vector of a line, in 8086 mode. -/
def vector (n : Nat) : Option (BitVec 8) :=
  if c.icw4.getLsbD 0 then some (c.icw2 &&& 0xf8 ||| BitVec.ofNat 8 n) else none

/-- The line goes into service, unless interrupts end by themselves. -/
def begin (n : Nat) : I8259 :=
  { c with irr := clearLine n c.irr, isr := if c.icw4.getLsbD 1 then c.isr else setLine n c.isr }

/-- The answer to an acknowledgement: of the line, or of line 7 when the request is gone again, which
    then does not go into service. -/
def answer : Option Nat → Option (BitVec 8 × I8259)
  | some n => (c.vector n).map fun v => (v, c.begin n)
  | none => (c.vector 7).map fun v => (v, c)

end I8259

/-! ## The pair -/

structure I8259Pair where
  master : I8259
  slave : I8259
  deriving DecidableEq

namespace I8259Pair

variable (p : I8259Pair)

/-- Writes to the four ports. -/
def outb (v : BitVec 8) (port : Nat) : I8259Pair :=
  if port = 0x20 then { p with master := p.master.command v }
  else if port = 0x21 then { p with master := p.master.data v }
  else if port = 0xa0 then { p with slave := p.slave.command v }
  else if port = 0xa1 then { p with slave := p.slave.data v }
  else p

/-- Reads of the second ports, which give the masks. -/
def inb (port : Nat) : BitVec 8 :=
  if port = 0x21 then p.master.imr else if port = 0xa1 then p.slave.imr else 0

/-- A change at the line of a request. -/
def onLine (f : I8259 → Nat → I8259) (irq : Nat) : I8259Pair :=
  if irq < 8 then { p with master := f p.master irq }
  else { p with slave := f p.slave (irq - 8) }

/-- The line of the master that is passed on; its line 2 is what the slave passes on. -/
def line : Option Nat :=
  p.master.request (if (p.slave.request 0).isSome then BitVec.twoPow 8 2 else 0)

/-- The number of the request that is passed on to the processor. -/
def request : Option Nat :=
  p.line.bind fun n => if n = 2 then (p.slave.request 0).map (8 + ·) else some n

/-- The acknowledgement of a line of the master, and of one of the slave. The slave answers for the line
    that both have been told. -/
def acknowledge (masterLine slaveLine : Option Nat) : Option (BitVec 8 × I8259Pair) :=
  match masterLine with
  | some n =>
      if p.master.icw3.getLsbD n && p.slave.icw3 == BitVec.ofNat 8 n then
        (p.slave.answer slaveLine).map fun r => (r.1, ⟨p.master.begin n, r.2⟩)
      else (p.master.answer (some n)).map fun r => (r.1, { p with master := r.2 })
  | none => (p.master.answer none).map fun r => (r.1, { p with master := r.2 })

/-- A bit of a register, by the number of the request. -/
def lineOf (register : I8259 → BitVec 8) (irq : Nat) : Bool :=
  if irq < 8 then (register p.master).getLsbD irq else (register p.slave).getLsbD (irq - 8)

def masked (irq : Nat) : Bool := p.lineOf I8259.imr irq

def pending (irq : Nat) : Bool := p.lineOf I8259.irr irq

def inService (irq : Nat) : Bool := p.lineOf I8259.isr irq

/-- The request is pending and no mask is in its way. -/
def waiting (irq : Nat) : Bool :=
  p.pending irq && !p.masked irq && (decide (irq < 8) || !p.masked 2)

/-- The requests, the most urgent one first. -/
def priorities : List Nat := [0, 1] ++ (List.range 8).map (8 + ·) ++ [3, 4, 5, 6, 7]

end I8259Pair

/-! ## Lines of a register -/

section

variable {r : BitVec 8} {m n : Nat}

theorem getLsbD_setLine (hm : m < 8) : (setLine n r).getLsbD m = (r.getLsbD m || decide (m = n)) := by
  simp [setLine, hm]

theorem getLsbD_clearLine (hm : m < 8) : (clearLine n r).getLsbD m = (r.getLsbD m && decide (m ≠ n)) := by
  simp [clearLine, hm]

theorem clearLine_of_clear (h : r.getLsbD n = false) : clearLine n r = r := by
  ext m hm
  rw [← BitVec.getLsbD_eq_getElem, ← BitVec.getLsbD_eq_getElem, getLsbD_clearLine hm]
  by_cases hmn : m = n
  · rw [hmn, h, Bool.false_and]
  · rw [decide_eq_true hmn, Bool.and_true]

/-- A line that is set and cleared again is as it was, if it was clear. -/
theorem clearLine_setLine (h : r.getLsbD n = false) : clearLine n (setLine n r) = r := by
  rw [← clearLine_of_clear h]
  ext m hm
  simp only [← BitVec.getLsbD_eq_getElem, getLsbD_clearLine hm, getLsbD_setLine hm]
  by_cases hmn : m = n <;> simp [hmn]

theorem firstLine_lt (h : firstLine r = some n) : n < 8 :=
  List.mem_range.1 (List.mem_of_find?_eq_some h)

theorem getLsbD_of_firstLine (h : firstLine r = some n) : r.getLsbD n = true :=
  List.find?_some h

end

namespace I8259

variable {c : I8259} {lines : BitVec 8} {n : Nat}

theorem request_eq_some (h : c.request lines = some n) :
    c.next = .ocw1 ∧ n < 8 ∧ c.free n = true ∧ c.imr.getLsbD n = false := by
  rw [request] at h
  split at h
  · rename_i hready
    obtain ⟨hfirst, hfree⟩ := Option.filter_eq_some_iff.1 h
    have hset := getLsbD_of_firstLine hfirst
    have hlt := firstLine_lt hfirst
    simp only [BitVec.getLsbD_and, BitVec.getLsbD_not, hlt, decide_true, Bool.true_and,
      Bool.and_eq_true, Bool.not_eq_true'] at hset
    exact ⟨hready, hlt, hfree, hset.2⟩
  · exact absurd h nofun

/-- While something as urgent is in service, the line is not passed on. -/
theorem free_eq_false {m : Nat} (hm : m ≤ n) (h : c.isr.getLsbD m = true) : c.free n = false := by
  rw [free, List.all_eq_false]
  exact ⟨m, List.mem_range.2 (by omega), by simp [h]⟩

theorem free_of_idle (h : c.isr = 0) (n : Nat) : c.free n = true := by
  simp [free, h]

theorem filter_free_of_idle (h : c.isr = 0) (line : Option Nat) : line.filter c.free = line := by
  cases line with
  | none => rfl
  | some n => exact Option.filter_some_pos (free_of_idle h n)

/-- With nothing in service, the most urgent line that is not masked is passed on. -/
theorem request_of_idle (hready : c.next = .ocw1) (hidle : c.isr = 0) (lines : BitVec 8) :
    c.request lines =
      (List.range 8).find? fun n => (c.irr.getLsbD n || lines.getLsbD n) && !c.imr.getLsbD n := by
  rw [request, if_pos hready, filter_free_of_idle hidle, firstLine]
  refine List.find?_congr fun n hn => ?_
  simp [List.mem_range.1 hn]

/-- The controller is set up: for vectors from `base` on, at `place` in the cascade, in 8086 mode, with
    interrupts that a command ends. -/
structure SetUp (c : I8259) (base place : BitVec 8) : Prop where
  next : c.next = .ocw1
  base : c.icw2 = base
  place : c.icw3 = place
  mode8086 : c.icw4.getLsbD 0 = true
  endedByCommand : c.icw4.getLsbD 1 = false

end I8259

namespace I8259Pair

/-- The pair is set up, with the slave at line 2. -/
structure SetUp (p : I8259Pair) (base slaveBase : BitVec 8) : Prop where
  master : p.master.SetUp base 4
  slave : p.slave.SetUp slaveBase 2
  cascade : p.master.irr.getLsbD 2 = false

/-- Nothing is in service. -/
structure Idle (p : I8259Pair) : Prop where
  master : p.master.isr = 0
  slave : p.slave.isr = 0

/-- The vector of a request. -/
def vectorFrom (base slaveBase : BitVec 8) (irq : Nat) : BitVec 8 :=
  if irq < 8 then base &&& 0xf8 ||| BitVec.ofNat 8 irq
  else slaveBase &&& 0xf8 ||| BitVec.ofNat 8 (irq - 8)

/-- The request goes into service; one of the slave takes line 2 of the master with it. -/
def begin (p : I8259Pair) (irq : Nat) : I8259Pair :=
  if irq < 8 then { p with master := p.master.begin irq }
  else ⟨p.master.begin 2, p.slave.begin (irq - 8)⟩

/-- The request has been served; one of the slave ends on both controllers. -/
def finish (p : I8259Pair) (irq : Nat) : I8259Pair :=
  if irq < 8 then { p with master := p.master.finish irq }
  else ⟨p.master.finish 2, p.slave.finish (irq - 8)⟩

/-- The line of the master that a request comes through. -/
def masterLine (irq : Nat) : Nat := if irq < 8 then irq else 2

variable {p : I8259Pair} {base slaveBase : BitVec 8} {irq n : Nat}

/-- What is passed on is a line of the master other than 2, or one of the slave through line 2. -/
theorem request_eq_some (h : p.request = some irq) :
    (p.line = some irq ∧ irq ≠ 2) ∨
      (p.line = some 2 ∧ 8 ≤ irq ∧ p.slave.request 0 = some (irq - 8)) := by
  obtain ⟨n, hline, h⟩ := Option.bind_eq_some_iff.1 h
  split at h
  · rename_i hn
    obtain ⟨m, hslave, rfl⟩ := Option.map_eq_some_iff.1 h
    exact .inr ⟨hn ▸ hline, Nat.le_add_right 8 m, by rw [Nat.add_sub_cancel_left]; exact hslave⟩
  · rename_i hn
    obtain rfl := Option.some.inj h
    exact .inl ⟨hline, hn⟩

/-- A request comes through a line that is free. -/
theorem line_of_request (h : p.request = some irq) :
    p.line = some (masterLine irq) ∧ masterLine irq < 8 ∧ p.master.free (masterLine irq) = true := by
  have hline : p.line = some (masterLine irq) := by
    obtain ⟨hline, -⟩ | ⟨hline, hirq, -⟩ := request_eq_some h
    · rw [masterLine, if_pos (I8259.request_eq_some hline).2.1, hline]
    · rw [masterLine, if_neg (by omega), hline]
  exact ⟨hline, (I8259.request_eq_some hline).2.1, (I8259.request_eq_some hline).2.2.1⟩

theorem lt_of_request (h : p.request = some irq) : irq < 16 := by
  obtain ⟨hline, -⟩ | ⟨-, -, hslave⟩ := request_eq_some h
  · exact (I8259.request_eq_some hline).2.1.trans (by decide)
  · have := (I8259.request_eq_some hslave).2.1
    omega

theorem lineOf_master (register : I8259 → BitVec 8) (h : irq < 8) :
    p.lineOf register irq = (register p.master).getLsbD irq :=
  if_pos h

theorem lineOf_slave (register : I8259 → BitVec 8) (n : Nat) :
    p.lineOf register (8 + n) = (register p.slave).getLsbD n := by
  rw [lineOf, if_neg (by omega), Nat.add_sub_cancel_left]

/-- A line of the master other than 2 asks for itself. -/
theorem master_lines (hn : n ≠ 2) (hlt : n < 8) (b : Bool) :
    ((p.master.irr.getLsbD n || (if b then BitVec.twoPow 8 2 else 0).getLsbD n) &&
      !p.master.imr.getLsbD n) = p.waiting n := by
  have hline : (if b then BitVec.twoPow 8 2 else (0 : BitVec 8)).getLsbD n = false := by
    cases b <;> simp [hn.symm]
  rw [hline, Bool.or_false, waiting, pending, masked, lineOf_master _ hlt, lineOf_master _ hlt,
    decide_eq_true hlt, Bool.true_or, Bool.and_true]

/-- What the slave passes on is the most urgent of its requests, whatever the mask of line 2 is. -/
theorem slave_request_of_idle (hset : p.SetUp base slaveBase) (hidle : p.Idle) :
    (p.slave.request 0).map (8 + ·) =
      ((List.range 8).map (8 + ·)).find? fun irq => p.pending irq && !p.masked irq := by
  rw [I8259.request_of_idle hset.slave.next hidle.slave, List.find?_map]
  congr 1
  refine List.find?_congr fun n hn => ?_
  simp [pending, masked, lineOf_slave]

/-- The requests of the slave that are waiting are those it passes on, unless line 2 is masked. -/
theorem find_slave_waiting :
    ((List.range 8).map (8 + ·)).find? p.waiting =
      if p.masked 2 then none
      else ((List.range 8).map (8 + ·)).find? fun irq => p.pending irq && !p.masked irq := by
  split
  · rename_i hmask
    rw [List.find?_eq_none]
    intro irq hirq
    obtain ⟨n, -, rfl⟩ := List.mem_map.1 hirq
    simp [waiting, hmask]
  · rename_i hmask
    refine List.find?_congr fun irq hirq => ?_
    simp [waiting, hmask]

theorem bind_last (f : Nat → Bool) (o : Option Nat) :
    (([3, 4, 5, 6, 7].find? f).bind fun n => if n = 2 then o else some n) =
      [3, 4, 5, 6, 7].find? f := by
  cases hfind : [3, 4, 5, 6, 7].find? f with
  | none => rfl
  | some n =>
      refine if_neg ?_
      rintro rfl
      exact absurd (List.mem_of_find?_eq_some hfind) (by decide)

/-- **With nothing in service, the most urgent request that is waiting is passed on.** -/
theorem request_of_idle (hset : p.SetUp base slaveBase) (hidle : p.Idle) :
    p.request = priorities.find? p.waiting := by
  have hslave := slave_request_of_idle hset hidle
  have hline : p.line = (([0, 1].find? p.waiting).or
      (if (p.slave.request 0).isSome && !p.masked 2 then some 2 else none)).or
      ([3, 4, 5, 6, 7].find? p.waiting) := by
    rw [line, I8259.request_of_idle hset.master.next hidle.master,
      show List.range 8 = [0, 1] ++ [2] ++ [3, 4, 5, 6, 7] from rfl, List.find?_append,
      List.find?_append]
    congr 1
    · congr 1
      · refine List.find?_congr fun n hn => master_lines ?_ ?_ _ <;> simp at hn <;> omega
      · have hcascade : p.master.imr.getLsbD 2 = p.masked 2 := rfl
        rw [List.find?_singleton, hset.cascade, hcascade]
        cases (p.slave.request 0).isSome <;> cases p.masked 2 <;> rfl
    · refine List.find?_congr fun n hn => master_lines ?_ ?_ _ <;> simp at hn <;> omega
  rw [request, hline, priorities, List.find?_append, List.find?_append, find_slave_waiting, ← hslave]
  cases hfirst : [0, 1].find? p.waiting with
  | some n =>
      have hn : n ≠ 2 := by
        rintro rfl
        exact absurd (List.mem_of_find?_eq_some hfirst) (by decide)
      simp [hn]
  | none =>
      cases hreq : p.slave.request 0 with
      | some n => cases hmask : p.masked 2 <;> simp [bind_last]
      | none => cases hmask : p.masked 2 <;> simp [bind_last]

/-! ## Ports -/

theorem outb_master_command (p : I8259Pair) (v : BitVec 8) :
    p.outb v 0x20 = { p with master := p.master.command v } := rfl

theorem outb_master_data (p : I8259Pair) (v : BitVec 8) :
    p.outb v 0x21 = { p with master := p.master.data v } := rfl

theorem outb_slave_command (p : I8259Pair) (v : BitVec 8) :
    p.outb v 0xa0 = { p with slave := p.slave.command v } := rfl

theorem outb_slave_data (p : I8259Pair) (v : BitVec 8) :
    p.outb v 0xa1 = { p with slave := p.slave.data v } := rfl

/-! ## Changes at one line -/

/-- A change at one line is seen at that line only. -/
theorem lineOf_onLine {register : I8259 → BitVec 8} {f : I8259 → Nat → I8259}
    {op : Bool → Bool → Bool} (hf : ∀ c n m, m < 8 →
      (register (f c n)).getLsbD m = op ((register c).getLsbD m) (decide (m = n)))
    (hop : ∀ b, op b false = b) {irq' : Nat} (h : irq < 16) (h' : irq' < 16) :
    (p.onLine f irq).lineOf register irq' = op (p.lineOf register irq') (decide (irq' = irq)) := by
  by_cases hirq : irq < 8 <;> by_cases hirq' : irq' < 8 <;>
    simp only [onLine, lineOf, hirq, hirq', if_true, if_false]
  · exact hf _ _ _ hirq'
  · rw [decide_eq_false (by omega), hop]
  · rw [decide_eq_false (by omega), hop]
  · rw [hf _ _ _ (by omega)]
    congr 1
    exact decide_eq_decide.2 (by omega)

theorem lineOf_onLine_same {register : I8259 → BitVec 8} {f : I8259 → Nat → I8259}
    (hf : ∀ c n, register (f c n) = register c) (irq irq' : Nat) :
    (p.onLine f irq).lineOf register irq' = p.lineOf register irq' := by
  rw [onLine, lineOf, lineOf]
  split <;> split <;> simp only [hf]

theorem masked_enable {irq' : Nat} (h : irq < 16) (h' : irq' < 16) :
    (p.onLine I8259.enable irq).masked irq' = (p.masked irq' && !decide (irq' = irq)) :=
  @lineOf_onLine p irq I8259.imr I8259.enable (fun b d => b && !d)
    (fun c n m hm => by rw [I8259.enable, getLsbD_clearLine hm, ← decide_not])
    (fun b => Bool.and_true b) irq' h h'

theorem masked_disable {irq' : Nat} (h : irq < 16) (h' : irq' < 16) :
    (p.onLine I8259.disable irq).masked irq' = (p.masked irq' || decide (irq' = irq)) :=
  @lineOf_onLine p irq I8259.imr I8259.disable (fun b d => b || d)
    (fun c n m hm => by rw [I8259.disable, getLsbD_setLine hm])
    (fun b => Bool.or_false b) irq' h h'

theorem isr_onLine {f : I8259 → Nat → I8259} (hf : ∀ c n, (f c n).isr = c.isr) :
    (p.onLine f irq).master.isr = p.master.isr := by
  rw [onLine]
  split
  · exact hf _ _
  · rfl

/-- A change that keeps the set-up of each controller keeps that of the pair, unless it raises line 2. -/
theorem SetUp.onLine {f : I8259 → Nat → I8259}
    (hf : ∀ c n base place, I8259.SetUp c base place → I8259.SetUp (f c n) base place)
    (hirr : ∀ c, irq < 8 → c.irr.getLsbD 2 = false → (f c irq).irr.getLsbD 2 = false)
    (hset : p.SetUp base slaveBase) : (p.onLine f irq).SetUp base slaveBase := by
  rw [I8259Pair.onLine]
  split
  · rename_i hirq
    exact ⟨hf _ _ _ _ hset.master, hset.slave, hirr _ hirq hset.cascade⟩
  · exact ⟨hset.master, hf _ _ _ _ hset.slave, hset.cascade⟩

/-- A change that leaves what is in service alone. -/
theorem Idle.onLine {f : I8259 → Nat → I8259} (hf : ∀ c n, (f c n).isr = c.isr) (hidle : p.Idle) :
    (p.onLine f irq).Idle := by
  rw [I8259Pair.onLine]
  split
  · exact ⟨(hf _ _).trans hidle.master, hidle.slave⟩
  · exact ⟨hidle.master, (hf _ _).trans hidle.slave⟩

/-! ## A request is served -/

theorem answer_some {c : I8259} {base place : BitVec 8} (h : c.SetUp base place) (n : Nat) :
    c.answer (some n) = some (base &&& 0xf8 ||| BitVec.ofNat 8 n, c.begin n) := by
  rw [I8259.answer, I8259.vector, if_pos h.mode8086, h.base, Option.map_some]

theorem answer_none {c : I8259} {base place : BitVec 8} (h : c.SetUp base place) :
    c.answer none = some (base &&& 0xf8 ||| 7, c) := by
  rw [I8259.answer, I8259.vector, if_pos h.mode8086, h.base, Option.map_some]
  rfl

/-- Only line 2 of the master has a slave behind it. -/
theorem cascade_iff (hset : p.SetUp base slaveBase) (hn : n < 8) :
    (p.master.icw3.getLsbD n && p.slave.icw3 == BitVec.ofNat 8 n) = decide (n = 2) := by
  rw [hset.master.place, hset.slave.place]
  revert n
  decide

theorem acknowledge_slave (hset : p.SetUp base slaveBase) (slaveLine : Option Nat) :
    p.acknowledge (some 2) slaveLine =
      (p.slave.answer slaveLine).map fun r => (r.1, ⟨p.master.begin 2, r.2⟩) := by
  rw [acknowledge, cascade_iff hset (by decide)]
  rfl

/-- The acknowledgement of a request gives its vector and puts it in service. -/
theorem acknowledge_request (hset : p.SetUp base slaveBase) (h : p.request = some irq) :
    p.acknowledge p.line (p.slave.request 0) =
      some (vectorFrom base slaveBase irq, p.begin irq) := by
  obtain ⟨hline, hirq⟩ | ⟨hline, hirq, hslave⟩ := request_eq_some h
  · have hlt := (I8259.request_eq_some hline).2.1
    rw [hline, acknowledge, cascade_iff hset hlt, decide_eq_false hirq, answer_some hset.master,
      vectorFrom, begin, if_pos hlt, if_pos hlt]
    rfl
  · rw [hline, acknowledge_slave hset, hslave, answer_some hset.slave, vectorFrom, begin,
      if_neg (by omega), if_neg (by omega)]
    rfl

/-! ## What is kept -/

theorem SetUp.begin (hset : p.SetUp base slaveBase) (irq : Nat) :
    (p.begin irq).SetUp base slaveBase := by
  have hline : ∀ n, (p.master.begin n).SetUp base 4 ∧ (p.master.begin n).irr.getLsbD 2 = false := by
    refine fun n => ⟨⟨hset.master.1, hset.master.2, hset.master.3, hset.master.4, hset.master.5⟩, ?_⟩
    rw [I8259.begin, getLsbD_clearLine (by decide), hset.cascade, Bool.false_and]
  rw [I8259Pair.begin]
  split
  · exact ⟨(hline _).1, hset.slave, (hline _).2⟩
  · exact ⟨(hline _).1, ⟨hset.slave.1, hset.slave.2, hset.slave.3, hset.slave.4, hset.slave.5⟩,
      (hline _).2⟩

theorem SetUp.finish (hset : p.SetUp base slaveBase) (irq : Nat) :
    (p.finish irq).SetUp base slaveBase := by
  have hmaster : ∀ n, (p.master.finish n).SetUp base 4 := fun n =>
    ⟨hset.master.1, hset.master.2, hset.master.3, hset.master.4, hset.master.5⟩
  rw [I8259Pair.finish]
  split
  · exact ⟨hmaster _, hset.slave, hset.cascade⟩
  · exact ⟨hmaster _, ⟨hset.slave.1, hset.slave.2, hset.slave.3, hset.slave.4, hset.slave.5⟩,
      hset.cascade⟩

theorem isr_begin (hset : p.SetUp base slaveBase) (hn : n < 8) :
    (p.begin irq).master.isr.getLsbD n = (p.master.isr.getLsbD n || decide (n = masterLine irq)) := by
  have hline : ∀ m, (p.master.begin m).isr = setLine m p.master.isr := by
    intro m
    rw [I8259.begin, hset.master.endedByCommand]
    rfl
  rw [I8259Pair.begin, masterLine]
  split <;> rw [hline, getLsbD_setLine hn]

theorem isr_finish (hn : n < 8) :
    (p.finish irq).master.isr.getLsbD n = (p.master.isr.getLsbD n && decide (n ≠ masterLine irq)) := by
  rw [I8259Pair.finish, masterLine]
  split <;> rw [I8259.finish, getLsbD_clearLine hn]

theorem lineOf_begin {register : I8259 → BitVec 8} (h : ∀ c n, register (I8259.begin c n) = register c)
    (irq irq' : Nat) : (p.begin irq).lineOf register irq' = p.lineOf register irq' := by
  rw [lineOf, lineOf, I8259Pair.begin]
  split <;> split <;> simp only [h]

theorem lineOf_finish {register : I8259 → BitVec 8} (h : ∀ c n, register (I8259.finish c n) = register c)
    (irq irq' : Nat) : (p.finish irq).lineOf register irq' = p.lineOf register irq' := by
  rw [lineOf, lineOf, I8259Pair.finish]
  split <;> split <;> simp only [h]

@[simp] theorem masked_begin (p : I8259Pair) (irq irq' : Nat) :
    (p.begin irq).masked irq' = p.masked irq' :=
  @lineOf_begin p I8259.imr (fun _ _ => rfl) irq irq'

@[simp] theorem masked_finish (p : I8259Pair) (irq irq' : Nat) :
    (p.finish irq).masked irq' = p.masked irq' :=
  @lineOf_finish p I8259.imr (fun _ _ => rfl) irq irq'

theorem clearLine_zero (n : Nat) : clearLine n 0 = 0 := by
  simp [clearLine]

/-- With nothing in service there is nothing to end. -/
theorem Idle.finish (hidle : p.Idle) (irq : Nat) : p.finish irq = p := by
  have hline : ∀ (c : I8259) n, c.isr = 0 → c.finish n = c := by
    intro c n h
    rw [I8259.finish, h, clearLine_zero, ← h]
  rw [I8259Pair.finish, hline _ _ hidle.master, hline _ _ hidle.master, hline _ _ hidle.slave]
  exact ite_self _

/-- A request that is served is no longer pending. -/
theorem pending_clear {irq' : Nat} (h : irq < 16) (h' : irq' < 16) :
    (p.onLine I8259.served irq).pending irq' =
      (p.pending irq' && !decide (irq' = irq)) :=
  @lineOf_onLine p irq I8259.irr I8259.served (fun b d => b && !d)
    (fun c n m hm => by rw [I8259.served, getLsbD_clearLine hm, ← decide_not])
    (fun b => Bool.and_true b) irq' h h'

theorem waiting_clear {irq' : Nat} (h : irq < 16) (h' : irq' < 16) :
    (p.onLine I8259.served irq).waiting irq' =
      (p.waiting irq' && !decide (irq' = irq)) := by
  have hmask := @lineOf_onLine_same p I8259.imr I8259.served (fun _ _ => rfl) irq
  rw [waiting, pending_clear h h', masked, masked, hmask, hmask, waiting, masked, masked]
  cases p.pending irq' <;> cases decide (irq' = irq) <;> simp

theorem lt_of_mem_priorities (h : irq ∈ priorities) : irq < 16 := by
  revert irq
  decide

/-- Nothing asks at the line of the slave. -/
theorem mem_priorities (hset : p.SetUp base slaveBase) (hirq : irq < 16) (h : p.waiting irq = true) :
    irq ∈ priorities := by
  have hmem : ∀ irq < 16, irq ≠ 2 → irq ∈ priorities := by decide
  refine hmem irq hirq ?_
  rintro rfl
  simp only [waiting, Bool.and_eq_true] at h
  exact absurd (hset.cascade.symm.trans h.1.1) nofun

theorem nodup_priorities : priorities.Nodup := by decide

/-- What is passed on is waiting. -/
theorem waiting_of_request (hset : p.SetUp base slaveBase) (hidle : p.Idle)
    (h : p.request = some irq) : p.waiting irq = true := by
  rw [request_of_idle hset hidle] at h
  exact List.find?_some h

theorem finish_begin_line {c : I8259} {base place : BitVec 8} (h : c.SetUp base place)
    (hidle : c.isr = 0) (n : Nat) : (c.begin n).finish n = c.served n := by
  rw [I8259.begin, I8259.finish, I8259.served, h.endedByCommand, hidle]
  simp [clearLine_setLine]

/-- A request that is served and ended has left its line, and nothing is in service. -/
theorem finish_begin (hset : p.SetUp base slaveBase) (hidle : p.Idle) (irq : Nat) :
    (p.begin irq).finish irq = p.onLine I8259.served irq := by
  rw [begin, finish, onLine]
  split
  · rw [finish_begin_line hset.master hidle.master]
  · have hline : p.master.served 2 = p.master := by
      rw [I8259.served, clearLine_of_clear hset.cascade]
    rw [finish_begin_line hset.master hidle.master, finish_begin_line hset.slave hidle.slave, hline]

end I8259Pair

end Gyarados

import Gyarados.Foundation.Cmos
import Gyarados.Foundation.Run
import Mathlib.Data.Nat.Log
import Mathlib.Data.Rat.Defs

set_option autoImplicit false

/-! # The real-time clock (`drivers/rtc.c`)

The driver reads a register of the clock chip and writes it back changed, through one index register that
the interrupt handler uses as well. It is seen here one access at a time, with the chip, the handler and
the switches between terminals in between. -/

namespace Gyarados

namespace Rtc

/-! ## The code -/

/-- What the driver does, one access after the other. -/
inductive Op
  | cliAndSave
  | restoreFlags
  /-- `outb(v, RTC_REG_NUM_PORT)` -/
  | outIndex (v : BitVec 8)
  /-- `previous = inb(RTC_RW_CMOS_PORT)` -/
  | inPrevious
  /-- `outb((previous & keep) | set, RTC_RW_CMOS_PORT)` -/
  | outData (keep set : BitVec 8)
  /-- `inb(RTC_RW_CMOS_PORT)`, with the data thrown away. -/
  | inDiscard
  | setOccurred
  | clearOccurred
  /-- `while (!intr_occ)` -/
  | spin
  | sendEoi
  | iret
  deriving DecidableEq, Repr

/-- `(int)x` -/
def truncate (x : ℚ) : Int := x.num.tdiv x.den

/-- `ceil` and `floor` of `lib/math.c`. -/
def ceil (x : ℚ) : Int := if x < 0 then truncate x else truncate x + 1
def floor (x : ℚ) : Int := if 0 ≤ x then truncate x else truncate x - 1

/-- `RTC_DEFAULT_HZ` -/
abbrev rtcDefaultHz : Int := 2

section

variable (logBase2 : Int → ℚ)

/-- The rate for a frequency. -/
def rate (frequency : Int) : BitVec 8 :=
  let rateVal := logBase2 frequency
  let rate := if (truncate (rateVal * 10)).tmod 10 > 5 then ceil rateVal else floor rateVal
  let rate := 16 - rate
  BitVec.ofInt 8 rate &&& 0x0f

/-- `rtc_set_frequency`; it does nothing for a frequency that it rejects. -/
def rtcSetFrequency (frequency : Int) : List Op :=
  if frequency < 2 ∨ frequency > 1024 then []
  else if frequency.toNat &&& (frequency.toNat - 1) ≠ 0 then []
  else
    [.cliAndSave, .outIndex 0x8a, .inPrevious, .outIndex 0x8a, .outData 0xf0 (rate logBase2 frequency),
      .restoreFlags]

/-- `rtc_init` -/
def rtcInit : List Op :=
  [.cliAndSave, .outIndex 0x8b, .inPrevious, .outIndex 0x8b, .outData 0xff 0x40, .restoreFlags] ++
    rtcSetFrequency logBase2 rtcDefaultHz

/-- `rtc_open` and `rtc_close`. -/
def rtcOpen : List Op := rtcSetFrequency logBase2 rtcDefaultHz
def rtcClose : List Op := rtcSetFrequency logBase2 rtcDefaultHz

/-- `rtc_read` -/
def rtcRead : List Op := [.spin, .clearOccurred]

/-- `rtc_write`, with the integer in the buffer; `none` is NULL. -/
def rtcWrite (nbytes : Int) (buf : Option Int) : List Op :=
  if nbytes ≠ 4 then []
  else match buf with
    | none => []
    | some frequency => rtcSetFrequency logBase2 frequency

end

/-- `rtc_handle_interrupt`, with the end of `rtc_special_eoi` and the `iret` of its routine. -/
def rtcHandleInterrupt : List Op :=
  [.cliAndSave, .setOccurred, .sendEoi, .outIndex 0x0c, .inDiscard, .restoreFlags, .iret]

/-! ## The machine around it -/

/-- What is left of a call, with its variables. -/
structure Thread where
  ops : List Op
  flags : Bool
  previous : BitVec 8
  deriving DecidableEq, Repr

/-- The chip, the processor, and the calls that the terminals are in. The interrupt of the chip is latched
    when its line goes up, and is not delivered again while it is in service. -/
structure State where
  cmos : Cmos
  intf : Bool
  latched : Bool
  inService : Bool
  intrOcc : Bool
  thread : Nat → Thread
  curr : Nat
  handler : Thread

/-- The current thread goes on as `th`. -/
def State.put (s : State) (th : Thread) : State :=
  { s with thread := Function.update s.thread s.curr th }

/-- The chip has changed; an interrupt is latched if its line went up. -/
def State.drive (s : State) (c : Cmos) : State :=
  { s with cmos := c, latched := s.latched || (!s.cmos.line && c.line) }

/-- One access, by a thread that has the others left. -/
def Op.exec (s : State) (th : Thread) : Op → State × Thread
  | cliAndSave => ({ s with intf := false }, { th with flags := s.intf })
  | restoreFlags => ({ s with intf := th.flags }, th)
  | outIndex v => ({ s with cmos := s.cmos.select v }, th)
  | inPrevious => ({ s with cmos := s.cmos.read }, { th with previous := s.cmos.data })
  | outData keep set => (s.drive (s.cmos.write (th.previous &&& keep ||| set)), th)
  | inDiscard => ({ s with cmos := s.cmos.read }, th)
  | setOccurred => ({ s with intrOcc := true }, th)
  | clearOccurred => ({ s with intrOcc := false }, th)
  | spin => (s, if s.intrOcc then th else { th with ops := .spin :: th.ops })
  | sendEoi => ({ s with inService := false }, th)
  -- what was interrupted had interrupts on
  | iret => ({ s with intf := true }, th)

/-- The next access: of the handler, if it runs, or of the current thread. -/
def next (s : State) : Option State :=
  match s.handler.ops, (s.thread s.curr).ops with
  | op :: ops, _ =>
      let r := op.exec s { s.handler with ops }
      some { r.1 with handler := r.2 }
  | [], op :: ops =>
      let r := op.exec s { s.thread s.curr with ops }
      some (r.1.put r.2)
  | [], [] => none

inductive Call
  | init
  | openRtc
  | closeRtc
  | read
  | write (nbytes : Int) (buf : Option Int)
  deriving DecidableEq, Repr

def Call.ops (logBase2 : Int → ℚ) : Call → List Op
  | init => rtcInit logBase2
  | openRtc => rtcOpen logBase2
  | closeRtc => rtcClose logBase2
  | read => rtcRead
  | write nbytes buf => rtcWrite logBase2 nbytes buf

inductive Event
  /-- The current thread calls the driver. -/
  | call (c : Call)
  | next
  /-- The chip's periodic interrupt. -/
  | tick
  /-- The chip goes on with a register by itself. -/
  | advance (r : BitVec 7) (v : BitVec 8)
  /-- The processor takes the interrupt. -/
  | interrupt
  /-- Another interrupt makes another terminal the running one. -/
  | switch (t : Nat)
  deriving DecidableEq, Repr

def step (logBase2 : Int → ℚ) (s : State) : Event → Option State
  | .call c =>
      if s.handler.ops = [] ∧ (s.thread s.curr).ops = [] then
        some (s.put { s.thread s.curr with ops := c.ops logBase2 })
      else none
  | .next => next s
  | .tick => some (s.drive s.cmos.tick)
  | .advance r v => some { s with cmos := s.cmos.advance r v }
  | .interrupt =>
      if s.intf = true ∧ s.latched = true ∧ s.inService = false ∧ s.handler.ops = [] then
        some { s with
          intf := false
          latched := false
          inService := true
          handler := { s.handler with ops := rtcHandleInterrupt } }
      else none
  | .switch t =>
      if s.intf = true ∧ s.handler.ops = [] then some { s with curr := t } else none

/-! ## One access -/

section

variable {s : State} {op : Op} {ops : List Op}

/-- An access touches the chip, its own thread and the flags, but no other thread. -/
theorem exec_keeps (op : Op) (s : State) (th : Thread) : (op.exec s th).1.thread = s.thread ∧
    (op.exec s th).1.curr = s.curr ∧ (op.exec s th).1.handler = s.handler := by
  cases op <;> exact ⟨rfl, rfl, rfl⟩

theorem thread_put_self (s : State) (th : Thread) : (s.put th).thread s.curr = th :=
  Function.update_self ..

theorem thread_put_of_ne (s : State) (th : Thread) {t : Nat} (ht : t ≠ s.curr) :
    (s.put th).thread t = s.thread t :=
  Function.update_of_ne ht ..

/-- What the current thread's access `op` leads to. -/
structure Steps (s : State) (op : Op) (ops : List Op) (s' : State) : Prop where
  cmos : s'.cmos = (op.exec s { s.thread s.curr with ops }).1.cmos
  intf : s'.intf = (op.exec s { s.thread s.curr with ops }).1.intf
  latched : s'.latched = (op.exec s { s.thread s.curr with ops }).1.latched
  inService : s'.inService = (op.exec s { s.thread s.curr with ops }).1.inService
  intrOcc : s'.intrOcc = (op.exec s { s.thread s.curr with ops }).1.intrOcc
  self : s'.thread s.curr = (op.exec s { s.thread s.curr with ops }).2
  other : ∀ t, t ≠ s.curr → s'.thread t = s.thread t
  curr : s'.curr = s.curr
  handler : s'.handler = s.handler

theorem steps_of_next {s' : State} (hidle : s.handler.ops = [])
    (hops : (s.thread s.curr).ops = op :: ops) (hnext : next s = some s') : Steps s op ops s' := by
  rw [next, hidle, hops] at hnext
  obtain rfl := Option.some.inj hnext
  obtain ⟨hthread, hcurr, hhandler⟩ := exec_keeps op s { s.thread s.curr with ops }
  refine ⟨rfl, rfl, rfl, rfl, rfl, ?_, fun t ht => ?_, hcurr, hhandler⟩
  · have hself := thread_put_self (op.exec s { s.thread s.curr with ops }).1
      (op.exec s { s.thread s.curr with ops }).2
    rwa [hcurr] at hself
  · have hne : t ≠ (op.exec s { s.thread s.curr with ops }).1.curr := by rwa [hcurr]
    rw [thread_put_of_ne _ _ hne, hthread]

end

/-! ## A machine to try things on -/

/-- A logarithm that is right at the powers of two. -/
def exactLog (frequency : Int) : ℚ := (Nat.log 2 frequency.toNat : ℚ)

/-- The chip lets its interrupt through, and nothing goes on. -/
def restingState : State where
  cmos := ⟨0, fun r => if r = Cmos.regB then 0x40 else 0⟩
  intf := true
  latched := false
  inService := false
  intrOcc := false
  thread _ := ⟨[], false, 0⟩
  curr := 0
  handler := ⟨[], false, 0⟩

/-- A program sets the frequency; an interrupt comes in between. -/
def settingEvents : List Event :=
  [.call (.write 4 (some 8)), .next, .next, .tick, .next, .next, .next, .next, .interrupt] ++
    List.replicate 7 .next

end Rtc

end Gyarados

import Mathlib.Data.BitVec
import Mathlib.Logic.Function.Basic

set_option autoImplicit false

/-! # The interval timer

The 8254: three counters behind a port each, and one port for the control words that set them up. A
counter that takes its count in two bytes remembers whether the low one has come. -/

namespace Gyarados

/-- Which bytes of the count a counter is given. -/
inductive Access
  | low
  | high
  | both
  deriving DecidableEq, Repr

structure Counter where
  access : Access
  mode : BitVec 3
  bcd : Bool
  /-- The low byte, once it has come and the high one has not. -/
  pending : Option (BitVec 8)
  /-- The count, once it is there. -/
  count : Option (BitVec 16)
  deriving DecidableEq, Repr

structure IntervalTimer where
  counter : Fin 3 → Counter

namespace Counter

/-- A control word for this counter. The other words are commands to read it. -/
def control (c : Counter) (word : BitVec 8) : Counter :=
  let mode := word.extractLsb' 1 3
  match (word.extractLsb' 4 2).toNat with
  | 0 => c
  | 1 => ⟨.low, mode, word.getLsbD 0, none, none⟩
  | 2 => ⟨.high, mode, word.getLsbD 0, none, none⟩
  | _ => ⟨.both, mode, word.getLsbD 0, none, none⟩

/-- A byte at the port of the counter. -/
def data (c : Counter) (byte : BitVec 8) : Counter :=
  match c.access, c.pending with
  | .low, _ => { c with count := some (byte.setWidth 16) }
  | .high, _ => { c with count := some (byte.setWidth 16 <<< 8) }
  | .both, none => { c with pending := some byte }
  | .both, some low => { c with pending := none, count := some (byte ++ low) }

/-- A square wave with this count. -/
def squareWave (count : BitVec 16) : Counter := ⟨.both, 3, false, none, some count⟩

/-- By how much a counter divides its clock: 0 stands for 65536. -/
def divisor (count : BitVec 16) : Nat := if count = 0 then 0x10000 else count.toNat

/-- The counter gives a square wave of `f` hertz, as near below its clock as a whole number of turns
    comes. -/
def Tuned (c : Counter) (clock f : Nat) : Prop :=
  ∃ count, c = squareWave count ∧ divisor count * f ≤ clock ∧ clock < (divisor count + 1) * f

theorem divisor_ofNat {n : Nat} (h : n % 0x10000 ≠ 0) : divisor (BitVec.ofNat 16 n) = n % 0x10000 := by
  have hne : BitVec.ofNat 16 n ≠ 0 := by
    intro hzero
    refine h ?_
    have hnat := congrArg BitVec.toNat hzero
    rwa [BitVec.toNat_ofNat] at hnat
  rw [divisor, if_neg hne, BitVec.toNat_ofNat]

theorem divisor_ofNat_zero {n : Nat} (h : n % 0x10000 = 0) : divisor (BitVec.ofNat 16 n) = 0x10000 := by
  have hzero : BitVec.ofNat 16 n = 0 := BitVec.eq_of_toNat_eq (by rw [BitVec.toNat_ofNat, h]; rfl)
  rw [divisor, if_pos hzero]

/-- **The quotient tunes the counter** exactly when it is not 0 and not above 65536. -/
theorem tuned_squareWave_iff {clock f : Nat} (hf : 0 < f) :
    (squareWave (BitVec.ofNat 16 (clock / f))).Tuned clock f ↔
      0 < clock / f ∧ clock / f ≤ 0x10000 := by
  have hquot : ∀ n, n * f ≤ clock ∧ clock < (n + 1) * f ↔ n = clock / f := by
    intro n
    rw [← Nat.le_div_iff_mul_le hf, ← Nat.div_lt_iff_lt_mul hf]
    omega
  have htuned : (squareWave (BitVec.ofNat 16 (clock / f))).Tuned clock f ↔
      divisor (BitVec.ofNat 16 (clock / f)) = clock / f := by
    constructor
    · rintro ⟨count, hcount, hbounds⟩
      obtain rfl : BitVec.ofNat 16 (clock / f) = count := by simpa [squareWave] using hcount
      exact (hquot _).1 hbounds
    · exact fun h => ⟨_, rfl, (hquot _).2 h⟩
  rw [htuned]
  rcases Nat.eq_zero_or_pos (clock / f % 0x10000) with hzero | hpos
  · rw [divisor_ofNat_zero hzero]
    omega
  · rw [divisor_ofNat hpos.ne']
    omega

end Counter

namespace IntervalTimer

variable (t : IntervalTimer)

def put (ch : Fin 3) (c : Counter) : IntervalTimer := ⟨Function.update t.counter ch c⟩

@[simp] theorem counter_put_self (ch : Fin 3) (c : Counter) : (t.put ch c).counter ch = c :=
  Function.update_self ..

@[simp] theorem counter_put_of_ne {ch ch' : Fin 3} (h : ch' ≠ ch) (c : Counter) :
    (t.put ch c).counter ch' = t.counter ch' :=
  Function.update_of_ne h ..

/-- A control word names its counter in the two high bits; there is no counter 3. -/
def control (word : BitVec 8) : IntervalTimer :=
  if h : (word.extractLsb' 6 2).toNat < 3 then
    t.put ⟨_, h⟩ ((t.counter ⟨_, h⟩).control word)
  else t

/-- A byte at the port of counter `ch`. -/
def data (ch : Fin 3) (byte : BitVec 8) : IntervalTimer := t.put ch ((t.counter ch).data byte)

/-- The control word that makes counter `ch` give a square wave. -/
def squareWaveWord (ch : Fin 3) : BitVec 8 := BitVec.ofNat 2 ch ++ 0x36#6

/-- **A control word and two bytes** set up one counter and leave the others alone. -/
theorem data_data_control (ch : Fin 3) (low high : BitVec 8) :
    ((t.control (squareWaveWord ch)).data ch low).data ch high =
      t.put ch (.squareWave (high ++ low)) := by
  have hcontrol : t.control (squareWaveWord ch) = t.put ch ⟨.both, 3, false, none, none⟩ := by
    match ch with
    | 0 => rfl
    | 1 => rfl
    | 2 => rfl
  rw [hcontrol]
  simp [data, put, Counter.data, Counter.squareWave]

end IntervalTimer

end Gyarados

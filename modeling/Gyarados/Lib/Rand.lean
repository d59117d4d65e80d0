import Gyarados.Foundation.XorLinear
import Mathlib.Tactic.IntervalCases
import Mathlib.Tactic.NormNum.Prime

set_option autoImplicit false

/-! # Random numbers (`lib/lib.c`)

`rand` shifts a register of sixteen bits to the right and fills it up with the exclusive or of four of
them. The four are well chosen: the register comes back only when it has been through all values but
0. -/

namespace Gyarados

open Function

/-- `lfsr` and `bit`. -/
structure Rand where
  lfsr : BitVec 16
  bit : BitVec 32
  deriving DecidableEq, Repr

namespace Rand

/-- `rand`, with the value it returns; `lfsr` is promoted before it is shifted. -/
def rand (s : Rand) : BitVec 32 × Rand :=
  let lfsr := s.lfsr.setWidth 32
  let bit := ((lfsr >>> 0) ^^^ (lfsr >>> 2) ^^^ (lfsr >>> 3) ^^^ (lfsr >>> 5)) &&& 1
  let lfsr := ((lfsr >>> 1) ||| (bit <<< 15)).setWidth 16
  (lfsr.setWidth 32, ⟨lfsr, bit⟩)

/-- The register, as the kernel is loaded. -/
def boot : Rand := ⟨0xace1, 0⟩

/-- What the call number `k` returns, counted from 0. -/
def drawn (s : Rand) (k : Nat) : BitVec 32 := (rand ((fun s => (rand s).2)^[k] s)).1

/-! ## The register -/

/-- What a call makes of the register. -/
def turn (lfsr : BitVec 16) : BitVec 16 := (rand ⟨lfsr, 0⟩).2.lfsr

theorem lfsr_rand (s : Rand) : (rand s).2.lfsr = turn s.lfsr := rfl

theorem fst_rand (s : Rand) : (rand s).1 = (turn s.lfsr).setWidth 32 := rfl

theorem getLsbD_turn {i : Nat} (hi : i < 16) (l : BitVec 16) : (turn l).getLsbD i =
    if i < 15 then l.getLsbD (i + 1)
    else l.getLsbD 0 ^^ l.getLsbD 2 ^^ l.getLsbD 3 ^^ l.getLsbD 5 := by
  interval_cases i <;> simp [turn, rand]

theorem xorLinear_turn : XorLinear turn := by
  intro x y
  ext i hi
  rw [← BitVec.getLsbD_eq_getElem hi, ← BitVec.getLsbD_eq_getElem hi, BitVec.getLsbD_xor,
    getLsbD_turn hi, getLsbD_turn hi, getLsbD_turn hi]
  split
  · exact BitVec.getLsbD_xor
  · simp only [BitVec.getLsbD_xor, Bool.xor_assoc, Bool.xor_left_comm]

theorem iterate_turn {k : Nat} (hk : k < 2 ^ 16) (x : BitVec 16) :
    turn^[k] x = jump ((basis 16).map turn) 16 k x := by
  conv_lhs => rw [xorLinear_turn.eq_combine]
  exact (jump_eq hk _ x).symm

theorem minimalPeriod_turn_one : minimalPeriod turn 1 = 65535 := by
  refine minimalPeriod_eq_of_primes ?_ fun p hp hdvd => ?_
  · rw [iterate_turn (by decide)]
    decide +kernel
  · have hprimes : p = 3 ∨ p = 5 ∨ p = 17 ∨ p = 257 := by
      have hfactors : p ∣ 3 * (5 * (17 * 257)) := hdvd
      rw [hp.dvd_mul, hp.dvd_mul, hp.dvd_mul] at hfactors
      rwa [Nat.prime_dvd_prime_iff_eq hp (by norm_num), Nat.prime_dvd_prime_iff_eq hp (by norm_num),
        Nat.prime_dvd_prime_iff_eq hp (by norm_num), Nat.prime_dvd_prime_iff_eq hp (by norm_num)]
        at hfactors
    obtain rfl | rfl | rfl | rfl := hprimes
    · rw [iterate_turn (by decide)]
      decide +kernel
    · rw [iterate_turn (by decide)]
      decide +kernel
    · rw [iterate_turn (by decide)]
      decide +kernel
    · rw [iterate_turn (by decide)]
      decide +kernel

/-- The values but 0. -/
def nonzero : Finset (BitVec 16) := (Finset.range 65535).image fun i => BitVec.ofNat 16 (i + 1)

theorem mem_nonzero {x : BitVec 16} : x ∈ nonzero ↔ x ≠ 0 := by
  rw [nonzero, Finset.mem_image]
  constructor
  · rintro ⟨i, hi, rfl⟩ hzero
    have hi := Finset.mem_range.1 hi
    have hnat := congrArg BitVec.toNat hzero
    simp only [BitVec.toNat_ofNat, BitVec.ofNat_eq_ofNat] at hnat
    omega
  · intro hx
    have hpos : x.toNat ≠ 0 := fun hzero => hx (BitVec.eq_of_toNat_eq hzero)
    have hlt := x.isLt
    refine ⟨x.toNat - 1, Finset.mem_range.2 (by omega), ?_⟩
    rw [Nat.sub_add_cancel (by omega), BitVec.ofNat_toNat, BitVec.setWidth_eq]

theorem card_nonzero : nonzero.card = 65535 := by
  rw [nonzero, Finset.card_image_of_injOn, Finset.card_range]
  intro i hi j hj hij
  have hi := Finset.mem_range.1 (Finset.mem_coe.1 hi)
  have hj := Finset.mem_range.1 (Finset.mem_coe.1 hj)
  have hnat := congrArg BitVec.toNat hij
  simp only [BitVec.toNat_ofNat] at hnat
  omega

/-- Fifteen bits stay in the register, and with them zero the last one is passed on. -/
theorem turn_ne_zero {x : BitVec 16} (hx : x ≠ 0) : turn x ≠ 0 := by
  intro hzero
  have hstays : ∀ j < 15, x.getLsbD (j + 1) = false := by
    intro j hj
    have hbit := getLsbD_turn (by omega : j < 16) x
    rwa [hzero, if_pos hj, BitVec.ofNat_eq_ofNat, BitVec.getLsbD_zero, eq_comm] at hbit
  have hlast : x.getLsbD 0 = false := by
    have hbit := getLsbD_turn (by decide : 15 < 16) x
    rwa [hzero, if_neg (by decide), BitVec.ofNat_eq_ofNat, BitVec.getLsbD_zero, hstays 1 (by decide),
      hstays 2 (by decide), hstays 4 (by decide), Bool.xor_false, Bool.xor_false, Bool.xor_false,
      eq_comm] at hbit
  refine hx (BitVec.eq_of_getLsbD_eq fun i hi => Eq.trans ?_ BitVec.getLsbD_zero.symm)
  cases i with
  | zero => exact hlast
  | succ j => exact hstays j (by omega)

/-- Every value but 0 is on the way of every other. -/
theorem existsUnique_turn {x y : BitVec 16} (hx : x ≠ 0) (hy : y ≠ 0) :
    ∃! k, k < 65535 ∧ turn^[k] x = y := by
  have hmaps : ∀ a ∈ nonzero, turn a ∈ nonzero :=
    fun a ha => mem_nonzero.2 (turn_ne_zero (mem_nonzero.1 ha))
  have hone : ∀ {a : BitVec 16}, a ≠ 0 → ∃! k, k < 65535 ∧ turn^[k] 1 = a := by
    intro a ha
    have hcard : nonzero.card = minimalPeriod turn 1 := by rw [card_nonzero, minimalPeriod_turn_one]
    have hmeets := existsUnique_iterate (mem_nonzero.2 (by decide)) hmaps hcard (mem_nonzero.2 ha)
    rwa [minimalPeriod_turn_one] at hmeets
  have hperiod : minimalPeriod turn x = 65535 := by
    obtain ⟨k, ⟨-, rfl⟩, -⟩ := hone hx
    have hperiodic : 1 ∈ periodicPts turn := by
      rw [← minimalPeriod_pos_iff_mem_periodicPts, minimalPeriod_turn_one]
      decide
    rw [minimalPeriod_apply_iterate hperiodic, minimalPeriod_turn_one]
  have hcard : nonzero.card = minimalPeriod turn x := by rw [card_nonzero, hperiod]
  have hmeets := existsUnique_iterate (mem_nonzero.2 hx) hmaps hcard (mem_nonzero.2 hy)
  rwa [hperiod] at hmeets

/-! ## Calls -/

theorem lfsr_iterate (s : Rand) (k : Nat) : ((fun s => (rand s).2)^[k] s).lfsr = turn^[k] s.lfsr := by
  induction k with
  | zero => rfl
  | succ k ih => rw [iterate_succ_apply', iterate_succ_apply', lfsr_rand, ih]

theorem drawn_eq (s : Rand) (k : Nat) : drawn s k = (turn^[k + 1] s.lfsr).setWidth 32 := by
  rw [drawn, fst_rand, lfsr_iterate, iterate_succ_apply']

theorem iterate_turn_ne_zero {x : BitVec 16} (hx : x ≠ 0) (k : Nat) : turn^[k] x ≠ 0 := by
  induction k with
  | zero => exact hx
  | succ k ih =>
      rw [iterate_succ_apply']
      exact turn_ne_zero ih

/-- **Any 65535 calls one after the other return each value but 0 exactly once**, wherever in a run of
    calls they start. -/
theorem existsUnique_drawn {s : Rand} (hs : s.lfsr ≠ 0) (start : Nat) {v : BitVec 32} (hv : v ≠ 0)
    (hwidth : v.toNat < 65536) : ∃! k, start ≤ k ∧ k < start + 65535 ∧ drawn s k = v := by
  have hnarrow : v.setWidth 16 ≠ 0 := by
    intro hzero
    refine hv (BitVec.eq_of_toNat_eq ?_)
    have hnat := congrArg BitVec.toNat hzero
    simp only [BitVec.toNat_setWidth, BitVec.ofNat_eq_ofNat, BitVec.toNat_ofNat] at hnat ⊢
    omega
  have hwiden : ∀ x : BitVec 16, x.setWidth 32 = v ↔ x = v.setWidth 16 := by
    intro x
    rw [← BitVec.toNat_inj, ← BitVec.toNat_inj, BitVec.toNat_setWidth, BitVec.toNat_setWidth]
    have := x.isLt
    omega
  have hfrom := iterate_turn_ne_zero hs (start + 1)
  obtain ⟨j, ⟨hj, hmeets⟩, hunique⟩ := existsUnique_turn hfrom hnarrow
  have hlate : ∀ i, turn^[i] (turn^[start + 1] s.lfsr) = turn^[start + i + 1] s.lfsr := by
    intro i
    rw [← iterate_add_apply]
    exact congrArg (turn^[·] s.lfsr) (by omega)
  refine ⟨start + j, ⟨by omega, by omega, ?_⟩, ?_⟩
  · rw [drawn_eq, hwiden, ← hlate, hmeets]
  · rintro k ⟨hstart, hend, hk⟩
    obtain ⟨i, rfl⟩ := Nat.exists_eq_add_of_le hstart
    rw [drawn_eq, hwiden, ← hlate] at hk
    exact congrArg (start + ·) (hunique i ⟨by omega, hk⟩)

/-- From where the kernel starts. -/
theorem existsUnique_drawn_boot : ∃! k, 0 ≤ k ∧ k < 0 + 65535 ∧ drawn boot k = 1 :=
  existsUnique_drawn (by decide) 0 (by decide) (by decide)

end Rand

end Gyarados

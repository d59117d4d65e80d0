import Mathlib.Algebra.Order.Group.Nat
import Mathlib.Data.BitVec
import Mathlib.Dynamics.PeriodicPts.Lemmas
import Mathlib.Tactic.Ring

set_option autoImplicit false

/-! # Maps that are linear over exclusive or

Such a map on words is given by the images of the bits. Its iterates are given in the same way, and are
found by squaring; with the prime divisors of a number of turns this decides what the period is. -/

namespace Gyarados

open Function

section

variable {n : Nat}

/-- A map that goes along with exclusive or. -/
def XorLinear (f : BitVec n → BitVec n) : Prop := ∀ x y, f (x ^^^ y) = f x ^^^ f y

/-- The exclusive or of the images of the bits of `x`, with the lowest bit first. -/
def combine : List (BitVec n) → BitVec n → BitVec n
  | [], _ => 0
  | v :: vs, x => (if x.getLsbD 0 then v else 0) ^^^ combine vs (x >>> 1)

/-- The bits themselves. -/
def basis (n : Nat) : List (BitVec n) := (List.range n).map fun i => (1 : BitVec n) <<< i

/-- The map, twice. -/
def square (vs : List (BitVec n)) : List (BitVec n) := vs.map (combine vs)

/-- `k` turns of the map, for `k` below `2 ^ fuel`. -/
def jump : List (BitVec n) → Nat → Nat → BitVec n → BitVec n
  | _, 0, _, x => x
  | vs, fuel + 1, k, x => jump (square vs) fuel (k / 2) (if k % 2 = 1 then combine vs x else x)

/-! ## Images of the bits -/

variable {f : BitVec n → BitVec n} {vs : List (BitVec n)} {x : BitVec n}

theorem XorLinear.zero (hf : XorLinear f) : f 0 = 0 := by
  have h := hf 0 0
  rwa [BitVec.xor_self, BitVec.xor_self] at h

theorem xorLinear_combine (vs : List (BitVec n)) : XorLinear (combine vs) := by
  intro x y
  induction vs generalizing x y with
  | nil => exact BitVec.xor_self.symm
  | cons v vs ih =>
      rw [combine, combine, combine, BitVec.ushiftRight_xor_distrib, ih, BitVec.getLsbD_xor]
      have hcancel : ∀ a b : BitVec n, v ^^^ a ^^^ (v ^^^ b) = a ^^^ b := by
        intro a b
        rw [BitVec.xor_comm v a, BitVec.xor_assoc, ← BitVec.xor_assoc v v b, BitVec.xor_self,
          BitVec.zero_xor]
      cases x.getLsbD 0 <;> cases y.getLsbD 0
      · simp
      · simp only [Bool.false_bne, Bool.false_eq_true, ↓reduceIte]
        ac_rfl
      · simp only [Bool.true_bne, Bool.not_false, Bool.false_eq_true, ↓reduceIte]
        ac_rfl
      · simp [hcancel]

/-- A map goes into the images. -/
theorem XorLinear.map_combine (hf : XorLinear f) (vs : List (BitVec n)) (x : BitVec n) :
    f (combine vs x) = combine (vs.map f) x := by
  induction vs generalizing x with
  | nil => exact hf.zero
  | cons v vs ih =>
      rw [combine, hf, ih, List.map_cons, combine]
      cases x.getLsbD 0
      · exact congrArg (· ^^^ _) hf.zero
      · rfl

theorem getLsbD_combine_basis (m k j : Nat) (x : BitVec n) :
    (combine ((List.range m).map fun i => (1 : BitVec n) <<< (i + k)) x).getLsbD j =
      (decide (k ≤ j ∧ j < k + m ∧ j < n) && x.getLsbD (j - k)) := by
  induction m generalizing k x with
  | zero =>
      have hnone : ¬ (k ≤ j ∧ j < k + 0 ∧ j < n) := by omega
      rw [decide_eq_false hnone]
      simp [combine]
  | succ m ih =>
      rw [List.range_succ_eq_map, List.map_cons, List.map_map, combine, BitVec.getLsbD_xor]
      have hshift : ((fun i => (1 : BitVec n) <<< (i + k)) ∘ Nat.succ) =
          fun i => (1 : BitVec n) <<< (i + (k + 1)) := by
        funext i
        exact congrArg ((1 : BitVec n) <<< ·) (by omega : i + 1 + k = i + (k + 1))
      have hhead : (if x.getLsbD 0 then (1 : BitVec n) <<< (0 + k) else 0).getLsbD j =
          (x.getLsbD 0 && decide (j = k ∧ j < n)) := by
        cases x.getLsbD 0
        · simp
        · by_cases hj : j < n
          · rw [if_pos rfl, Nat.zero_add, BitVec.getLsbD_shiftLeft, BitVec.ofNat_eq_ofNat,
              BitVec.getLsbD_one]
            simp only [hj, decide_true, Bool.true_and, and_true]
            rw [← decide_not, ← Bool.decide_and, ← Bool.decide_and]
            exact decide_eq_decide.2 (by omega)
          · simp [hj]
      rw [hshift, ih (k + 1), hhead, BitVec.getLsbD_ushiftRight]
      obtain hlt | rfl | hgt := Nat.lt_trichotomy j k
      · simp [show ¬ k ≤ j by omega, show ¬ k + 1 ≤ j by omega, show j ≠ k by omega]
      · simp [Bool.and_comm]
      · have hjk : 1 + (j - (k + 1)) = j - k := by omega
        have hrange : (k + 1 ≤ j ∧ j < k + 1 + m ∧ j < n) ↔ (k ≤ j ∧ j < k + (m + 1) ∧ j < n) := by
          omega
        rw [hjk, decide_eq_false (show ¬ (j = k ∧ j < n) by omega), Bool.and_false, Bool.false_xor,
          decide_eq_decide.2 hrange]

theorem combine_basis (x : BitVec n) : combine (basis n) x = x := by
  ext j hj
  have h := getLsbD_combine_basis n 0 j x
  simp only [Nat.add_zero, Nat.zero_le, Nat.zero_add, hj, and_self, decide_true, Bool.true_and,
    Nat.sub_zero] at h
  simpa [basis, BitVec.getLsbD_eq_getElem hj] using h

/-- A map is given by the images of the bits. -/
theorem XorLinear.eq_combine (hf : XorLinear f) : f = combine ((basis n).map f) := by
  funext x
  rw [← hf.map_combine, combine_basis]

/-! ## Iterates -/

theorem combine_square (vs : List (BitVec n)) : combine (square vs) = (combine vs)^[2] := by
  funext x
  exact ((xorLinear_combine vs).map_combine vs x).symm

/-- **Jumping is iterating.** -/
theorem jump_eq {fuel k : Nat} (hk : k < 2 ^ fuel) (vs : List (BitVec n)) (x : BitVec n) :
    jump vs fuel k x = (combine vs)^[k] x := by
  induction fuel generalizing k vs x with
  | zero =>
      obtain rfl : k = 0 := by omega
      rfl
  | succ fuel ih =>
      have hsplit : k = 2 * (k / 2) + k % 2 := (Nat.div_add_mod k 2).symm
      rw [jump, ih (by rw [pow_succ] at hk; omega), combine_square, ← iterate_mul]
      conv_rhs => rw [hsplit, iterate_add_apply]
      obtain h | h := Nat.mod_two_eq_zero_or_one k <;> rw [h] <;> rfl

end

/-! ## Periods -/

section

variable {α : Type*} {f : α → α} {x y : α}

/-- A number of turns is the period if no prime divisor can be taken away from it. -/
theorem minimalPeriod_eq_of_primes {m : Nat} (hperiod : f^[m] x = x)
    (hprimes : ∀ p, p.Prime → p ∣ m → f^[m / p] x ≠ x) : minimalPeriod f x = m := by
  have hdvd : minimalPeriod f x ∣ m := IsPeriodicPt.minimalPeriod_dvd hperiod
  obtain ⟨q, hq⟩ := hdvd
  by_contra hne
  have hq1 : q ≠ 1 := by
    rintro rfl
    exact hne (by rw [hq, mul_one])
  obtain ⟨p, hp, r, hr⟩ := Nat.exists_prime_and_dvd hq1
  refine hprimes p hp ⟨minimalPeriod f x * r, by rw [hq, hr]; ring⟩ ?_
  have hdiv : m / p = minimalPeriod f x * r := by
    rw [hq, hr, Nat.mul_left_comm]
    exact Nat.mul_div_cancel_left _ hp.pos
  rw [hdiv]
  exact (isPeriodicPt_minimalPeriod f x).mul_const r

/-- A point whose period is the size of a set goes through the whole set. -/
theorem existsUnique_iterate {s : Finset α} (hx : x ∈ s) (hmaps : ∀ a ∈ s, f a ∈ s)
    (hcard : s.card = minimalPeriod f x) (hy : y ∈ s) :
    ∃! k, k < minimalPeriod f x ∧ f^[k] x = y := by
  classical
  have hmem : ∀ k, f^[k] x ∈ s := by
    intro k
    induction k with
    | zero => exact hx
    | succ k ih =>
        rw [iterate_succ_apply']
        exact hmaps _ ih
  have hinj := @iterate_injOn_Iio_minimalPeriod _ f x
  have himage : (Finset.range (minimalPeriod f x)).image (fun k => f^[k] x) = s := by
    refine Finset.eq_of_subset_of_card_le (fun a ha => ?_) ?_
    · obtain ⟨k, -, rfl⟩ := Finset.mem_image.1 ha
      exact hmem k
    · rw [Finset.card_image_of_injOn (by simpa using hinj), Finset.card_range, hcard]
  rw [← himage] at hy
  obtain ⟨k, hk, rfl⟩ := Finset.mem_image.1 hy
  exact ⟨k, ⟨Finset.mem_range.1 hk, rfl⟩, fun j hj => hinj hj.1 (Finset.mem_range.1 hk) hj.2⟩

end

end Gyarados

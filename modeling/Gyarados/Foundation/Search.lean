import Mathlib.Data.List.Range
import Mathlib.Tactic.Common

set_option autoImplicit false

/-! # Searches for the first index

A loop that counts up from 0 and stops at the first index that passes a test finds the least one there
is. -/

namespace Gyarados

variable {α : Type*} {p q : Nat → Prop} [DecidablePred p] [DecidablePred q] {n i : Nat}

/-- The first index below `n` that passes the test. -/
def firstIndex (p : Nat → Prop) [DecidablePred p] (n : Nat) : Option Nat :=
  (List.range n).find? fun i => decide (p i)

theorem firstIndex_eq_some : firstIndex p n = some i ↔ i < n ∧ p i ∧ ∀ j < i, ¬ p j := by
  rw [firstIndex, List.find?_range_eq_some]
  simp only [decide_eq_true_eq, List.mem_range, Bool.not_eq_true', decide_eq_false_iff_not]
  exact and_left_comm

theorem firstIndex_eq_none : firstIndex p n = none ↔ ∀ i < n, ¬ p i := by
  rw [firstIndex, List.find?_eq_none]
  simp only [List.mem_range, decide_eq_true_eq]

theorem firstIndex_isSome : (firstIndex p n).isSome = true ↔ ∃ i, i < n ∧ p i := by
  rw [Option.isSome_iff_ne_none, ne_eq, firstIndex_eq_none]
  push Not
  rfl

theorem firstIndex_congr (h : ∀ i < n, p i ↔ q i) : firstIndex p n = firstIndex q n := by
  refine Option.ext fun i => ?_
  rw [firstIndex_eq_some, firstIndex_eq_some]
  refine and_congr_right fun hi => and_congr (h i hi) (forall₂_congr fun j hj => ?_)
  rw [h j (hj.trans hi)]

/-- A loop over `n` indices from `i` on, with what it gives for the index it stops at. -/
theorem search_eq_find {g : Nat → α} {loop : Nat → Nat → Option α} (hzero : ∀ i, loop 0 i = none)
    (hsucc : ∀ n i, loop (n + 1) i = if p i then some (g i) else loop n (i + 1)) (n : Nat) :
    ∀ i, loop n i = ((List.range' i n).find? fun j => decide (p j)).map g := by
  induction n with
  | zero => exact hzero
  | succ n ih =>
      intro i
      rw [hsucc, List.range'_succ, List.find?_cons]
      by_cases hi : p i
      · rw [if_pos hi, decide_eq_true hi]
        rfl
      · rw [if_neg hi, decide_eq_false hi]
        exact ih (i + 1)

/-- **The loop finds the first index.** -/
theorem search_eq_firstIndex {g : Nat → α} {loop : Nat → Nat → Option α}
    (hzero : ∀ i, loop 0 i = none)
    (hsucc : ∀ n i, loop (n + 1) i = if p i then some (g i) else loop n (i + 1)) (n : Nat) :
    loop n 0 = (firstIndex p n).map g := by
  rw [search_eq_find hzero hsucc n 0, firstIndex, List.range_eq_range']

end Gyarados

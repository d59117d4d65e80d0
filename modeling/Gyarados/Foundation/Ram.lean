import Mathlib.Data.BitVec
import Mathlib.Tactic.Common

set_option autoImplicit false

/-! # Memory of 32-bit addresses

Bytes at addresses that wrap around, words with their low byte first, runs of bytes by their distance
from where they start, and the words on a stack that grows down. -/

namespace Gyarados

namespace X86

abbrev Word := BitVec 32
abbrev Byte := BitVec 8

/-- Memory; addresses wrap around. -/
abbrev Ram := Word → Byte

namespace Ram

def store8 (m : Ram) (a : Word) (b : Byte) : Ram := fun x => if x = a then b else m x

/-- A word is stored with its low byte first. -/
def store32 (m : Ram) (a w : Word) : Ram :=
  fun x => if (x - a).toNat < 4 then w.extractLsb' (8 * (x - a).toNat) 8 else m x

def load32 (m : Ram) (a : Word) : Word := m (a + 3) ++ m (a + 2) ++ m (a + 1) ++ m a

end Ram

/-! ## Words in memory -/

namespace Ram

variable {m m' : Ram} {a b w : Word}

/-- A byte of the word that is read is the byte in memory. -/
theorem extractLsb_load32 (m : Ram) (a : Word) {j : Nat} (hj : j < 4) :
    (m.load32 a).extractLsb' (8 * j) 8 = m (a + BitVec.ofNat 32 j) := by
  obtain rfl | rfl | rfl | rfl : j = 0 ∨ j = 1 ∨ j = 2 ∨ j = 3 := by omega
  all_goals
    ext i hi
    simp [load32]
    grind

theorem load32_congr (h : ∀ j < 4, m (a + BitVec.ofNat 32 j) = m' (b + BitVec.ofNat 32 j)) :
    m.load32 a = m'.load32 b := by
  have h0 : m a = m' b := by simpa using h 0 (by decide)
  have h1 : m (a + 1) = m' (b + 1) := h 1 (by decide)
  have h2 : m (a + 2) = m' (b + 2) := h 2 (by decide)
  have h3 : m (a + 3) = m' (b + 3) := h 3 (by decide)
  rw [load32, load32, h0, h1, h2, h3]

theorem load32_store32 (m : Ram) (a w : Word) : (m.store32 a w).load32 a = w := by
  have hbyte : ∀ j < 4, m.store32 a w (a + BitVec.ofNat 32 j) = w.extractLsb' (8 * j) 8 := by
    intro j hj
    have hdiff : (a + BitVec.ofNat 32 j - a).toNat = j := by
      rw [add_sub_cancel_left]
      exact (BitVec.toNat_ofNat ..).trans (Nat.mod_eq_of_lt (by omega))
    rw [store32, hdiff, if_pos hj]
  have h0 : m.store32 a w a = w.extractLsb' 0 8 := by simpa using hbyte 0 (by decide)
  have h1 : m.store32 a w (a + 1) = w.extractLsb' 8 8 := hbyte 1 (by decide)
  have h2 : m.store32 a w (a + 2) = w.extractLsb' 16 8 := hbyte 2 (by decide)
  have h3 : m.store32 a w (a + 3) = w.extractLsb' 24 8 := hbyte 3 (by decide)
  rw [load32, h0, h1, h2, h3]
  ext i hi
  simp
  grind

end Ram

/-! ## Runs of bytes -/

/-- From number `lo` up to `hi` the bytes at `s` are those of `f`, and the others are as before. -/
def Ram.patch (m : Ram) (s : Word) (f : Nat → Byte) (lo hi : Nat) : Ram :=
  fun a => if lo ≤ (a - s).toNat ∧ (a - s).toNat < hi then f (a - s).toNat else m a

section

variable {m : Ram} {s a w : Word} {f : Nat → Byte} {lo hi k : Nat}

theorem ofNat_toNat_word (w : Word) : BitVec.ofNat 32 w.toNat = w := by
  rw [BitVec.ofNat_toNat, BitVec.setWidth_eq]

theorem eq_add_ofNat_iff (hk : k < 2 ^ 32) : a = s + BitVec.ofNat 32 k ↔ (a - s).toNat = k := by
  rw [← BitVec.toNat_inj]
  bv_omega

/-- An address that goes on by `d` bytes. -/
theorem add_ofNat_of_eq (h : a = s + BitVec.ofNat 32 k) (d : Nat) :
    a + BitVec.ofNat 32 d = s + BitVec.ofNat 32 (k + d) := by
  rw [h, BitVec.add_assoc, ← BitVec.ofNat_add]

theorem Ram.patch_self (m : Ram) (s : Word) (f : Nat → Byte) (k : Nat) : m.patch s f k k = m := by
  funext a
  exact if_neg (by omega)

/-- One more byte at the upper end. -/
theorem Ram.store8_patch_hi (hle : lo ≤ hi) (hhi : hi < 2 ^ 32) :
    (m.patch s f lo hi).store8 (s + BitVec.ofNat 32 hi) (f hi) = m.patch s f lo (hi + 1) := by
  funext a
  simp only [store8, patch, eq_add_ofNat_iff hhi]
  split
  · rename_i heq
    rw [heq, if_pos (by omega)]
  · split <;> rename_i h
    · rw [if_pos (by omega)]
    · rw [if_neg (by omega)]

/-- One more byte at the lower end. -/
theorem Ram.store8_patch_lo (hlo : lo < hi) (hhi : hi ≤ 2 ^ 32) :
    (m.patch s f (lo + 1) hi).store8 (s + BitVec.ofNat 32 lo) (f lo) = m.patch s f lo hi := by
  funext a
  simp only [store8, patch, eq_add_ofNat_iff (show lo < 2 ^ 32 by omega)]
  split
  · rename_i heq
    rw [heq, if_pos (by omega)]
  · split <;> rename_i h
    · rw [if_pos (by omega)]
    · rw [if_neg (by omega)]

/-- One more word at the upper end. -/
theorem Ram.store32_patch_hi (hle : lo ≤ hi) (hhi : hi + 4 ≤ 2 ^ 32)
    (hw : ∀ j < 4, w.extractLsb' (8 * j) 8 = f (hi + j)) :
    (m.patch s f lo hi).store32 (s + BitVec.ofNat 32 hi) w = m.patch s f lo (hi + 4) := by
  funext a
  have hlt := (a - s).isLt
  have hdist : (a - (s + BitVec.ofNat 32 hi)).toNat =
      if hi ≤ (a - s).toNat then (a - s).toNat - hi else 2 ^ 32 - hi + (a - s).toNat := by
    split <;> bv_omega
  simp only [store32, patch, hdist]
  generalize (a - s).toNat = d at hlt
  by_cases hge : hi ≤ d
  · rw [if_pos hge]
    by_cases hword : d - hi < 4
    · rw [if_pos hword, if_pos (by omega), hw _ hword, Nat.add_sub_of_le hge]
    · rw [if_neg hword, if_neg (by omega), if_neg (by omega)]
  · rw [if_neg hge, if_neg (by omega)]
    split <;> rename_i h
    · rw [if_pos (by omega)]
    · rw [if_neg (by omega)]

end

/-! ## Stacks -/

namespace Ram

/-- The words from the stack pointer on are `ws`. -/
def Stack (m : Ram) (esp : Word) (ws : List Word) : Prop :=
  ∀ (k : Nat) (hk : k < ws.length), m.load32 (esp + BitVec.ofNat 32 (4 * k)) = ws[k]

variable {m : Ram} {esp w : Word} {vs ws : List Word}

/-- A push. The words on the stack may not meet around the end of memory. -/
theorem Stack.push (h : m.Stack esp ws) (hroom : 4 * (ws.length + 1) ≤ 2 ^ 32) (w : Word) :
    (m.store32 (esp - 4) w).Stack (esp - 4) (w :: ws) := by
  intro k hk
  cases k with
  | zero =>
      rw [Nat.mul_zero, BitVec.add_zero, List.getElem_cons_zero]
      exact load32_store32 m _ w
  | succ k =>
      rw [List.length_cons] at hk
      rw [List.getElem_cons_succ, ← h k (by omega)]
      refine load32_congr fun j hj => ?_
      have haddr : esp - 4 + BitVec.ofNat 32 (4 * (k + 1)) + BitVec.ofNat 32 j =
          esp + BitVec.ofNat 32 (4 * k) + BitVec.ofNat 32 j := by bv_omega
      have hdist : (esp - 4 + BitVec.ofNat 32 (4 * (k + 1)) + BitVec.ofNat 32 j - (esp - 4)).toNat =
          4 * (k + 1) + j := by bv_omega
      rw [store32, if_neg (by omega), haddr]

theorem Stack.head (h : m.Stack esp (w :: ws)) : m.load32 esp = w := by
  have hhead := h 0 (Nat.zero_lt_succ _)
  rwa [Nat.mul_zero, BitVec.add_zero] at hhead

/-- The first words. -/
theorem Stack.take (h : m.Stack esp (vs ++ ws)) : m.Stack esp vs := by
  intro k hk
  rw [h k (by rw [List.length_append]; omega), List.getElem_append_left hk]

/-- The words behind the first ones. -/
theorem Stack.drop (h : m.Stack esp (vs ++ ws)) :
    m.Stack (esp + BitVec.ofNat 32 (4 * vs.length)) ws := by
  intro k hk
  have hword := h (vs.length + k) (by rw [List.length_append]; omega)
  rw [List.getElem_append_right (Nat.le_add_right _ _)] at hword
  simp only [Nat.add_sub_cancel_left] at hword
  rw [← hword, BitVec.add_assoc, ← BitVec.ofNat_add, Nat.mul_add]

theorem Stack.tail (h : m.Stack esp (w :: ws)) : m.Stack (esp + 4) ws := by
  have hdrop := @Stack.drop m esp [w] ws h
  rwa [List.length_singleton] at hdrop

end Ram

end X86

end Gyarados

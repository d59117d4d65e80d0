import Gyarados.Foundation.Ram
import Mathlib.Logic.Function.Basic

set_option autoImplicit false

/-! # Descriptors of the x86

How the processor reads the entries of its descriptor tables, and tables that are filled entry by
entry. -/

namespace Gyarados

namespace X86

/-! ## What the processor reads -/

/-- A gate of the interrupt descriptor table. -/
structure Gate where
  offset : Word
  selector : BitVec 16
  kind : BitVec 4
  storage : BitVec 1
  dpl : BitVec 2
  present : BitVec 1
  deriving DecidableEq, Repr

/-- The kinds of 32-bit gates: an interrupt gate turns interrupts off, a trap gate does not. -/
abbrev Gate.interruptKind : BitVec 4 := 0xe
abbrev Gate.trapKind : BitVec 4 := 0xf

def Gate.ofBits (b : BitVec 64) : Gate where
  offset := b.extractLsb' 48 16 ++ b.extractLsb' 0 16
  selector := b.extractLsb' 16 16
  kind := b.extractLsb' 40 4
  storage := b.extractLsb' 44 1
  dpl := b.extractLsb' 45 2
  present := b.extractLsb' 47 1

/-- A segment: its limit counts bytes, or pages of 4 KB. -/
structure Segment where
  base : Word
  limit : BitVec 20
  kind : BitVec 4
  codeOrData : BitVec 1
  dpl : BitVec 2
  present : BitVec 1
  big : BitVec 1
  pages : BitVec 1
  deriving DecidableEq, Repr

def Segment.ofBits (b : BitVec 64) : Segment where
  base := b.extractLsb' 56 8 ++ b.extractLsb' 32 8 ++ b.extractLsb' 16 16
  limit := b.extractLsb' 48 4 ++ b.extractLsb' 0 16
  kind := b.extractLsb' 40 4
  codeOrData := b.extractLsb' 44 1
  dpl := b.extractLsb' 45 2
  present := b.extractLsb' 47 1
  big := b.extractLsb' 54 1
  pages := b.extractLsb' 55 1

/-- The number of an entry in a selector, without the table and the privilege. -/
def selectorIndex (s : BitVec 16) : Nat := s.toNat / 8

/-- The privilege that a selector asks for. -/
def selectorPrivilege (s : BitVec 16) : BitVec 2 := s.setWidth 2

/-! ## Words in parts -/

/-- A part of a word that is masked, shifted down and cut. -/
theorem setWidth_and_shift {mask : Word} {lo n : Nat}
    (hmask : (mask >>> lo).setWidth n = BitVec.allOnes n) (w : Word) :
    ((w &&& mask) >>> lo).setWidth n = w.extractLsb' lo n := by
  rw [BitVec.ushiftRight_and_distrib, BitVec.setWidth_and, hmask, BitVec.and_allOnes]
  ext i hi
  simp

/-- The low part of a word. -/
theorem setWidth_and {mask : Word} {n : Nat} (hmask : mask.setWidth n = BitVec.allOnes n) (w : Word) :
    (w &&& mask).setWidth n = w.extractLsb' 0 n := by
  simpa using @setWidth_and_shift mask 0 n (by simpa using hmask) w

theorem append_two (w : Word) : w.extractLsb' 16 16 ++ w.extractLsb' 0 16 = w :=
  (BitVec.extractLsb'_append_extractLsb'_eq_extractLsb' (Nat.zero_add 16).symm).trans
    BitVec.extractLsb'_eq_self

theorem append_three (w : Word) :
    w.extractLsb' 24 8 ++ w.extractLsb' 16 8 ++ w.extractLsb' 0 16 = w := by
  have htop : w.extractLsb' 24 8 ++ w.extractLsb' 16 8 = w.extractLsb' 16 16 :=
    BitVec.extractLsb'_append_extractLsb'_eq_extractLsb' rfl
  rw [htop, append_two]

/-- Four bits, one by one. -/
theorem four_bits {n : Nat} (b : BitVec n) (lo : Nat) :
    b.extractLsb' lo 4 = b.extractLsb' (lo + 3) 1 ++ b.extractLsb' (lo + 2) 1 ++
      b.extractLsb' (lo + 1) 1 ++ b.extractLsb' lo 1 := by
  have htwo : b.extractLsb' (lo + 3) 1 ++ b.extractLsb' (lo + 2) 1 = b.extractLsb' (lo + 2) 2 :=
    BitVec.extractLsb'_append_extractLsb'_eq_extractLsb' rfl
  have hthree : b.extractLsb' (lo + 2) 2 ++ b.extractLsb' (lo + 1) 1 = b.extractLsb' (lo + 1) 3 :=
    BitVec.extractLsb'_append_extractLsb'_eq_extractLsb' rfl
  have hfour : b.extractLsb' (lo + 1) 3 ++ b.extractLsb' lo 1 = b.extractLsb' lo 4 :=
    BitVec.extractLsb'_append_extractLsb'_eq_extractLsb' rfl
  rw [htwo, hthree, hfour]

end X86

/-! ## Tables -/

/-- A table in which each entry of a list is changed once. -/
theorem foldl_update_eq {α : Type*} (f : Nat → α → α) (l : List Nat) (hl : l.Nodup) (t : Nat → α)
    (j : Nat) : l.foldl (fun t i => Function.update t i (f i (t i))) t j =
      if j ∈ l then f j (t j) else t j := by
  induction l generalizing t with
  | nil => simp
  | cons i l ih =>
      obtain ⟨hi, hl⟩ := List.nodup_cons.1 hl
      rw [List.foldl_cons, ih hl]
      by_cases hj : j = i
      · subst hj
        simp [hi]
      · simp [hj]

end Gyarados

import Mathlib.Data.BitVec
import Mathlib.Order.CompletePartialOrder
import Mathlib.Order.Interval.Set.Disjoint
import Mathlib.Tactic.Common

set_option autoImplicit false

/-! # The kernel heap (`sbrk` in `kernel/syscall.c`)

The heap starts behind the kernel, at `_end`, and grows by each call. The limit is tested before the
pointer moves: the request that crosses it is still granted. -/

namespace Gyarados

/-- `RAMSIZE` -/
abbrev ramSize : BitVec 32 := 0x100000

/-- The address that a call starts from: `_end` while `heap_ptr` is NULL. -/
def heapBase (_end heapPtr : BitVec 32) : BitVec 32 := if heapPtr = 0 then _end else heapPtr

/-- `sbrk`, with the value it returns and the `heap_ptr` it leaves; the difference of the pointers is
    signed. -/
def sbrk (_end heapPtr nbytes : BitVec 32) : BitVec 32 × BitVec 32 :=
  let heapPtr := heapBase _end heapPtr
  if 0 ≤ (ramSize - heapPtr).toInt then (heapPtr, heapPtr + nbytes) else (-1, heapPtr)

/-- A call, with the pointer before and after it. -/
structure SbrkCall where
  nbytes : BitVec 32
  ret : BitVec 32
  before : BitVec 32
  after : BitVec 32

/-- The calls one after the other. -/
def sbrkCalls (_end : BitVec 32) : BitVec 32 → List (BitVec 32) → List SbrkCall
  | _, [] => []
  | heapPtr, nbytes :: sizes =>
      let call := sbrk _end heapPtr nbytes
      ⟨nbytes, call.1, heapPtr, call.2⟩ :: sbrkCalls _end call.2 sizes

namespace SbrkCall

/-- The call does not return `(void *)-1`. -/
def Succeeds (c : SbrkCall) : Prop := c.ret ≠ -1

instance (c : SbrkCall) : Decidable c.Succeeds := inferInstanceAs (Decidable (_ ≠ _))

/-- The addresses that the call hands out. -/
def block (c : SbrkCall) : Set Nat := Set.Ico c.ret.toNat (c.ret.toNat + c.nbytes.toNat)

/-- The block lies in memory behind the kernel, and its end does not wrap around. -/
structure InMemory (_end : BitVec 32) (c : SbrkCall) : Prop where
  noWrap : c.ret.toNat + c.nbytes.toNat < 2 ^ 32
  start : _end.toNat ≤ c.ret.toNat
  limit : c.ret.toNat + c.nbytes.toNat ≤ ramSize.toNat

end SbrkCall

/-- The heap stays in memory: so do the blocks, no two of them share an address, and a call that fails
    leaves the pointer where it is. -/
structure HeapInMemory (_end : BitVec 32) (cs : List SbrkCall) : Prop where
  inMemory : ∀ c ∈ cs, c.Succeeds → c.InMemory _end
  disjoint : cs.Pairwise fun c c' => c.Succeeds → c'.Succeeds → Disjoint c.block c'.block
  failed : ∀ c ∈ cs, ¬ c.Succeeds → c.after = c.before

/-! ## One call -/

theorem toNat_ramSize : ramSize.toNat = 0x100000 := rfl

section

variable {_end heapPtr nbytes : BitVec 32}

/-- Up to the limit the request is granted, whatever its size. -/
theorem sbrk_of_le (h : (heapBase _end heapPtr).toNat ≤ ramSize.toNat) :
    sbrk _end heapPtr nbytes = (heapBase _end heapPtr, heapBase _end heapPtr + nbytes) := by
  have hle : (ramSize - heapBase _end heapPtr).toNat = ramSize.toNat - (heapBase _end heapPtr).toNat :=
    BitVec.toNat_sub_of_le h
  have hram := toNat_ramSize
  have hsign : 0 ≤ (ramSize - heapBase _end heapPtr).toInt := by
    rw [BitVec.toInt_eq_toNat_of_lt (by omega)]
    exact Int.natCast_nonneg _
  rw [sbrk, if_pos hsign]

theorem sbrkCalls_cons (h : (heapBase _end heapPtr).toNat ≤ ramSize.toNat) (sizes : List (BitVec 32)) :
    sbrkCalls _end heapPtr (nbytes :: sizes) =
      ⟨nbytes, heapBase _end heapPtr, heapPtr, heapBase _end heapPtr + nbytes⟩ ::
        sbrkCalls _end (heapBase _end heapPtr + nbytes) sizes := by
  rw [sbrkCalls, sbrk_of_le h]

/-- The next call starts where this one ends. -/
theorem heapBase_add {base : BitVec 32} (hle : _end.toNat ≤ base.toNat)
    (hsum : base.toNat + nbytes.toNat ≤ ramSize.toNat) :
    (heapBase _end (base + nbytes)).toNat = base.toNat + nbytes.toNat := by
  have hram := toNat_ramSize
  have hadd : (base + nbytes).toNat = base.toNat + nbytes.toNat := BitVec.toNat_add_of_lt (by omega)
  by_cases hnull : base + nbytes = 0
  · have hzero : (base + nbytes).toNat = 0 := congrArg BitVec.toNat hnull
    rw [heapBase, if_pos hnull]
    omega
  · rw [heapBase, if_neg hnull, hadd]

/-- An address up to the limit is not `(void *)-1`. -/
theorem ne_neg_one_of_le {a : BitVec 32} (h : a.toNat ≤ ramSize.toNat) : a ≠ -1 := by
  intro hlast
  have hnat : a.toNat = 0xffffffff := congrArg BitVec.toNat hlast
  have hram := toNat_ramSize
  omega

end

/-! ## Runs -/

/-- The sum of the sizes. -/
def totalSize (sizes : List (BitVec 32)) : Nat := (sizes.map BitVec.toNat).sum

theorem totalSize_cons (nbytes : BitVec 32) (sizes : List (BitVec 32)) :
    totalSize (nbytes :: sizes) = nbytes.toNat + totalSize sizes := List.sum_cons

section

variable {_end : BitVec 32}

/-- All blocks lie in memory exactly when the sizes fit there together. -/
theorem forall_inMemory_iff (sizes : List (BitVec 32)) : ∀ {heapPtr : BitVec 32},
    _end.toNat ≤ (heapBase _end heapPtr).toNat → (heapBase _end heapPtr).toNat ≤ ramSize.toNat →
    ((∀ c ∈ sbrkCalls _end heapPtr sizes, c.Succeeds → c.InMemory _end) ↔
      (heapBase _end heapPtr).toNat + totalSize sizes ≤ ramSize.toNat) := by
  have hram := toNat_ramSize
  induction sizes with
  | nil => exact fun _ hlimit => iff_of_true (fun c hc => nomatch hc) hlimit
  | cons nbytes sizes ih =>
      intro heapPtr hle hlimit
      rw [sbrkCalls_cons hlimit, List.forall_mem_cons, totalSize_cons]
      by_cases hsum : (heapBase _end heapPtr).toNat + nbytes.toNat ≤ ramSize.toNat
      · have hnext := heapBase_add hle hsum
        rw [ih (by omega) (by omega), hnext]
        refine ⟨fun h => by omega, fun h => ⟨fun _ => ⟨?_, hle, hsum⟩, by omega⟩⟩
        exact Nat.lt_of_le_of_lt hsum (by decide)
      · refine iff_of_false (fun h => hsum ?_) fun h => hsum (by omega)
        exact (h.1 (ne_neg_one_of_le hlimit)).limit

/-- While the sizes fit, each call succeeds and starts behind the blocks before it. -/
theorem sbrkCalls_start (sizes : List (BitVec 32)) : ∀ {heapPtr : BitVec 32},
    _end.toNat ≤ (heapBase _end heapPtr).toNat →
    (heapBase _end heapPtr).toNat + totalSize sizes ≤ ramSize.toNat →
    ∀ c ∈ sbrkCalls _end heapPtr sizes, c.Succeeds ∧ (heapBase _end heapPtr).toNat ≤ c.ret.toNat := by
  induction sizes with
  | nil => exact fun _ _ c hc => nomatch hc
  | cons nbytes sizes ih =>
      intro heapPtr hle hsum c hc
      rw [totalSize_cons] at hsum
      rw [sbrkCalls_cons (by omega)] at hc
      have hnext := heapBase_add hle (show _ + nbytes.toNat ≤ _ by omega)
      rcases List.mem_cons.1 hc with rfl | hc
      · exact ⟨ne_neg_one_of_le (show (heapBase _end heapPtr).toNat ≤ _ by omega), Nat.le_refl _⟩
      · obtain ⟨hsucceeds, hret⟩ := ih (by omega) (by omega) c hc
        exact ⟨hsucceeds, by omega⟩

theorem sbrkCalls_disjoint (sizes : List (BitVec 32)) : ∀ {heapPtr : BitVec 32},
    _end.toNat ≤ (heapBase _end heapPtr).toNat →
    (heapBase _end heapPtr).toNat + totalSize sizes ≤ ramSize.toNat →
    (sbrkCalls _end heapPtr sizes).Pairwise fun c c' => Disjoint c.block c'.block := by
  induction sizes with
  | nil => exact fun _ _ => List.Pairwise.nil
  | cons nbytes sizes ih =>
      intro heapPtr hle hsum
      rw [totalSize_cons] at hsum
      rw [sbrkCalls_cons (by omega)]
      have hnext := heapBase_add hle (show _ + nbytes.toNat ≤ _ by omega)
      refine List.pairwise_cons.2 ⟨fun c hc => ?_, ih (by omega) (by omega)⟩
      obtain ⟨-, hret⟩ := sbrkCalls_start sizes (by omega) (by omega) c hc
      rw [hnext] at hret
      exact Set.Ico_disjoint_Ico.2 ((Nat.min_le_left _ _).trans (hret.trans (Nat.le_max_right _ _)))

/-- **Which requests stay in memory**: those that fit between the kernel and the limit together. -/
theorem heapInMemory_iff (hend : _end.toNat ≤ ramSize.toNat) (sizes : List (BitVec 32)) :
    HeapInMemory _end (sbrkCalls _end 0 sizes) ↔ _end.toNat + totalSize sizes ≤ ramSize.toNat := by
  have hbase : (heapBase _end 0).toNat = _end.toNat := congrArg BitVec.toNat (if_pos rfl)
  have hinMemory := @forall_inMemory_iff _end sizes 0 (by omega) (by omega)
  rw [hbase] at hinMemory
  constructor
  · exact fun h => hinMemory.1 h.inMemory
  · intro hsum
    have hstart := @sbrkCalls_start _end sizes 0 (by omega) (by omega)
    have hdisjoint := @sbrkCalls_disjoint _end sizes 0 (by omega) (by omega)
    exact ⟨hinMemory.2 hsum, hdisjoint.imp fun h _ _ => h,
      fun c hc hfails => absurd (hstart c hc).1 hfails⟩

end

/-- Requests up to the last byte, one of them for nothing. -/
theorem heapInMemory_exact : HeapInMemory 0xc0000 (sbrkCalls 0xc0000 0 [0x30000, 0, 0x10000]) :=
  (heapInMemory_iff (by decide) _).2 (by decide)

/-- One request for more than there is. -/
theorem heapInMemory_large : ¬ HeapInMemory 0xc0000 (sbrkCalls 0xc0000 0 [0x80000]) := by
  intro h
  have hblock := h.inMemory ⟨0x80000, 0xc0000, 0, 0x140000⟩ (List.mem_singleton.2 rfl) (by decide)
  exact absurd hblock.limit (by decide)

end Gyarados

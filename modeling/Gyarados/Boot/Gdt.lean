import Gyarados.Foundation.Descriptor
import Mathlib.Data.List.GetD

set_option autoImplicit false

/-! # The global descriptor table (`boot/x86_desc.S`, `entry` in `boot/kernel.c`)

Four flat segments, and the descriptors of the task state and of the local table, which `entry` builds
field by field from the addresses that the linker gave them. -/

namespace Gyarados

open X86

/-! ## The code -/

/-- `KERNEL_DS`, `USER_CS` and `USER_DS`. -/
abbrev kernelDs : BitVec 16 := 0x0018
abbrev userCs : BitVec 16 := 0x0023
abbrev userDs : BitVec 16 := 0x002b

/-- `seg_desc_t` -/
structure SegDesc where
  segLim1500 : BitVec 16
  base1500 : BitVec 16
  base2316 : BitVec 8
  kind : BitVec 4
  sys : BitVec 1
  dpl : BitVec 2
  present : BitVec 1
  segLim1916 : BitVec 4
  avail : BitVec 1
  reserved : BitVec 1
  opsize : BitVec 1
  granularity : BitVec 1
  base3124 : BitVec 8
  deriving DecidableEq, Repr

/-- `val`: the fields are packed from the low bits up. -/
def SegDesc.val (d : SegDesc) : BitVec 64 :=
  d.base3124 ++ d.granularity ++ d.opsize ++ d.reserved ++ d.avail ++ d.segLim1916 ++ d.present ++ d.dpl ++
    d.sys ++ d.kind ++ d.base2316 ++ d.base1500 ++ d.segLim1500

/-- `SET_LDT_PARAMS` and `SET_TSS_PARAMS`, which are the same. -/
def SegDesc.setParams (d : SegDesc) (addr lim : Word) : SegDesc :=
  { d with
    base3124 := ((addr &&& 0xff000000) >>> 24).setWidth 8
    base2316 := ((addr &&& 0x00ff0000) >>> 16).setWidth 8
    base1500 := (addr &&& 0x0000ffff).setWidth 16
    segLim1916 := ((lim &&& 0x000f0000) >>> 16).setWidth 4
    segLim1500 := (lim &&& 0x0000ffff).setWidth 16 }

/-- `the_ldt_desc`; what it holds before is not set. -/
def theLdtDesc (d : SegDesc) (ldt ldtSize : Word) : SegDesc :=
  let d :=
    { d with
      granularity := 0
      opsize := 1
      reserved := 0
      avail := 0
      present := 1
      dpl := 0
      sys := 0
      kind := 0x2 }
  d.setParams ldt ldtSize

/-- `TSS_SIZE` -/
abbrev tssBytes : Word := 104

/-- `the_tss_desc`; the limits that are set first are set again. -/
def theTssDesc (d : SegDesc) (tss tssSize : Word) : SegDesc :=
  let d :=
    { d with
      granularity := 0
      opsize := 0
      reserved := 0
      avail := 0
      segLim1916 := (tssBytes &&& 0x000f0000).setWidth 4
      present := 1
      dpl := 0
      sys := 0
      kind := 0x9
      segLim1500 := (tssBytes &&& 0x0000ffff).setWidth 16 }
  d.setParams tss tssSize

/-- `tss_size` and `ldt_size` -/
abbrev tssSize : Word := 104 - 1
abbrev ldtSize : Word := 32 - 1

/-- `gdt`, with the two entries that `entry` fills in. -/
def gdt (d d' : SegDesc) (tss ldt : Word) : List (BitVec 64) :=
  [0, 0, 0x00cf9a000000ffff, 0x00cf92000000ffff, 0x00cffa000000ffff, 0x00cff2000000ffff,
    (theTssDesc d tss tssSize).val, (theLdtDesc d' ldt ldtSize).val]

/-! ## What the processor reads -/

/-- The fields of a descriptor are where the processor looks for them. -/
theorem segment_val (d : SegDesc) : Segment.ofBits d.val =
    { base := d.base3124 ++ d.base2316 ++ d.base1500
      limit := d.segLim1916 ++ d.segLim1500
      kind := d.kind
      codeOrData := d.sys
      dpl := d.dpl
      present := d.present
      big := d.opsize
      pages := d.granularity } := by
  rw [Segment.ofBits, SegDesc.val, Segment.mk.injEq]
  simp [-Nat.reduceAdd, BitVec.extractLsb'_append_eq_of_add_le, BitVec.extractLsb'_append_eq_of_le]

/-- A flat segment: four gigabytes from address 0 on. -/
def flatSegment (kind : BitVec 4) (dpl : BitVec 2) : Segment where
  base := 0
  limit := 0xfffff
  kind := kind
  codeOrData := 1
  dpl := dpl
  present := 1
  big := 1
  pages := 1

/-- What the table says about an index; an entry that is not there or not used is not present. -/
def segmentOf (tss ldt : Word) : Nat → Segment
  | 2 => flatSegment 0xa 0
  | 3 => flatSegment 0x2 0
  | 4 => flatSegment 0xa 3
  | 5 => flatSegment 0x2 3
  | 6 => ⟨tss, 103, 0x9, 0, 0, 1, 0, 0⟩
  | 7 => ⟨ldt, 31, 0x2, 0, 0, 1, 1, 0⟩
  | _ => ⟨0, 0, 0, 0, 0, 0, 0, 0⟩

section

variable (d d' : SegDesc) (addr lim tss ldt : Word)

theorem base_setParams : (d.setParams addr lim).base3124 ++ (d.setParams addr lim).base2316 ++
    (d.setParams addr lim).base1500 = addr := by
  have hhigh : (d.setParams addr lim).base3124 = addr.extractLsb' 24 8 :=
    setWidth_and_shift (by decide) addr
  have hmid : (d.setParams addr lim).base2316 = addr.extractLsb' 16 8 :=
    setWidth_and_shift (by decide) addr
  have hlow : (d.setParams addr lim).base1500 = addr.extractLsb' 0 16 :=
    setWidth_and (by decide) addr
  rw [hhigh, hmid, hlow, append_three]

theorem limit_setParams : (d.setParams addr lim).segLim1916 ++ (d.setParams addr lim).segLim1500 =
    lim.extractLsb' 0 20 := by
  have hhigh : (d.setParams addr lim).segLim1916 = lim.extractLsb' 16 4 :=
    setWidth_and_shift (by decide) lim
  have hlow : (d.setParams addr lim).segLim1500 = lim.extractLsb' 0 16 := setWidth_and (by decide) lim
  rw [hhigh, hlow]
  exact BitVec.extractLsb'_append_extractLsb'_eq_extractLsb' rfl

theorem segment_setParams : Segment.ofBits (d.setParams addr lim).val =
    ⟨addr, lim.extractLsb' 0 20, d.kind, d.sys, d.dpl, d.present, d.opsize, d.granularity⟩ := by
  rw [segment_val, base_setParams, limit_setParams]
  rfl

/-- **The table holds the segment of every index**, whatever the two descriptors held before. -/
theorem gdt_segments (i : Nat) : Segment.ofBits ((gdt d d' tss ldt).getD i 0) = segmentOf tss ldt i := by
  have htss : tssSize.extractLsb' 0 20 = 103 := by decide
  have hldt : ldtSize.extractLsb' 0 20 = 31 := by decide
  match i with
  | 0 | 1 => exact (by decide : Segment.ofBits 0 = segmentOf 0 0 0)
  | 2 => exact (by decide : Segment.ofBits 0x00cf9a000000ffff = segmentOf 0 0 2)
  | 3 => exact (by decide : Segment.ofBits 0x00cf92000000ffff = segmentOf 0 0 3)
  | 4 => exact (by decide : Segment.ofBits 0x00cffa000000ffff = segmentOf 0 0 4)
  | 5 => exact (by decide : Segment.ofBits 0x00cff2000000ffff = segmentOf 0 0 5)
  | 6 => exact (segment_setParams _ tss tssSize).trans (by rw [htss]; rfl)
  | 7 => exact (segment_setParams _ ldt ldtSize).trans (by rw [hldt]; rfl)
  | i + 8 =>
      rw [List.getD_eq_default _ _ (by simp [gdt])]
      exact (by decide : Segment.ofBits 0 = segmentOf 0 0 0)

end

end Gyarados

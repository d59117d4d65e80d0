import Mathlib.Logic.Function.Basic
import Mathlib.Tactic.Common

set_option autoImplicit false

/-! # Paging (`mm/paging.c`)

One page directory and one page table for the first 4 MB. A program always runs at 128 MB: what
changes from process to process is the 4 MB frame that directory entry 32 maps there. -/

namespace Gyarados

/-- The bits of a page-directory entry that the kernel sets to more than one value. -/
structure Pde where
  present : Bool
  readWrite : Bool
  userSuper : Bool
  pageSize : Bool
  /-- A 20-bit field. -/
  pageTableBase : Nat
  deriving DecidableEq

structure Pte where
  present : Bool
  readWrite : Bool
  userSuper : Bool
  pageBase : Nat
  deriving DecidableEq

structure PageTables where
  pageDirectory : Nat → Pde
  pageTable1 : Nat → Pte

/-- `KERNEL_END_ADDR` -/
abbrev kernelEndAddr : Nat := 0x800000

/-- `PAGE_SIZE_LARGE` -/
abbrev pageSizeLarge : Nat := 0x400000

/-- `PROCESS_START_ADDR / PAGE_SIZE_LARGE` -/
abbrev processIdx : Nat := 32

namespace PageTables

/-- Change one directory entry. -/
def setPde (t : PageTables) (i : Nat) (f : Pde → Pde) : PageTables :=
  { t with pageDirectory := Function.update t.pageDirectory i (f (t.pageDirectory i)) }

/-- Make one page of the first 4 MB present, writable and accessible to user programs. -/
def showPage (t : PageTables) (i : Nat) : PageTables :=
  let pte := { t.pageTable1 i with present := true, readWrite := true, userSuper := true }
  { t with pageTable1 := Function.update t.pageTable1 i pte }

/-- The tables after the two loops of `init_paging`. -/
def blank : PageTables where
  pageDirectory _ :=
    { present := false, readWrite := true, userSuper := true, pageSize := false, pageTableBase := 0 }
  pageTable1 i := { present := false, readWrite := false, userSuper := false, pageBase := i }

/-- `init_paging`, with the address the linker gave `pageTable1`. -/
def initPaging (pageTable1Addr : Nat) : PageTables :=
  let t := blank
  let t := t.showPage (0xB8000 / 0x1000)
  let t := t.showPage (0xBC000 / 0x1000)
  let t := t.showPage (0xDC000 / 0x1000)
  let t := t.showPage (0xEC000 / 0x1000)
  let t := t.setPde 0 fun e =>
    { e with pageTableBase := pageTable1Addr / 0x1000 % 0x100000, present := true, readWrite := true }
  -- entry 1 is meant to be entry 0 here; the loop has already set the bit in both
  let t := t.setPde 1 fun e => { e with userSuper := true }
  let t := t.setPde 0 fun e => { e with pageSize := false }
  t.setPde 1 fun e =>
    { e with
      pageTableBase := 0x400000 / 0x1000
      pageSize := true
      present := true
      readWrite := true
      userSuper := false }

/-- Map the program page to the frame with this base. -/
def mapProcess (t : PageTables) (base : Nat) : PageTables :=
  t.setPde processIdx fun e =>
    { e with
      pageTableBase := base % 0x100000
      pageSize := true
      present := true
      readWrite := true
      userSuper := true }

/-- `init_new_process`: the tables, and the base it returns. -/
def initNewProcess (processNum : Nat) (t : PageTables) : PageTables × Nat :=
  let address := (kernelEndAddr + processNum * pageSizeLarge) % 0x100000000
  let t := t.mapProcess (address / 0x1000)
  (t, (t.pageDirectory processIdx).pageTableBase)

/-- `switch_pd`; the process number it is given is not looked at. -/
def switchPd (prevBase : Nat) (t : PageTables) : PageTables := t.mapProcess prevBase

/-! ## Address translation

What the processor makes of the tables for an access from user mode: a present user entry of the
directory either maps 4 MB by itself or points to a page table. -/

/-- The physical address a user program reaches at `va`, if the tables let it. -/
def userTranslate (pageTable1Addr : Nat) (t : PageTables) (va : Nat) : Option Nat :=
  let pde := t.pageDirectory (va / pageSizeLarge)
  if pde.present && pde.userSuper then
    if pde.pageSize then
      some (pde.pageTableBase / 0x400 * pageSizeLarge + va % pageSizeLarge)
    else if pde.pageTableBase = pageTable1Addr / 0x1000 % 0x100000 then
      let pte := t.pageTable1 (va / 0x1000 % 0x400)
      if pte.present && pte.userSuper then some (pte.pageBase * 0x1000 + va % 0x1000) else none
    else none
  else none

/-! ## What a mapping changes -/

@[simp] theorem mapProcess_pageDirectory_self (t : PageTables) (base : Nat) :
    (t.mapProcess base).pageDirectory processIdx =
      { present := true, readWrite := true, userSuper := true, pageSize := true
        pageTableBase := base % 0x100000 } := by
  simp [mapProcess, setPde]

theorem mapProcess_pageDirectory_of_ne (t : PageTables) (base : Nat) {i : Nat}
    (h : i ≠ processIdx) : (t.mapProcess base).pageDirectory i = t.pageDirectory i := by
  simp only [mapProcess, setPde, Function.update_of_ne h]

/-- The program page goes to the frame it is mapped to. -/
theorem userTranslate_mapProcess (t : PageTables) (base pageTable1Addr : Nat) {va : Nat}
    (h : va / pageSizeLarge = processIdx) :
    (t.mapProcess base).userTranslate pageTable1Addr va =
      some (base % 0x100000 / 0x400 * pageSizeLarge + va % pageSizeLarge) := by
  rw [userTranslate, h, mapProcess_pageDirectory_self]
  rfl

end PageTables

end Gyarados

import Gyarados.Fs.Directory
import Gyarados.Kernel.OpenFiles

set_option autoImplicit false

/-! # The descriptor table as a map

What the descriptors of a process are for: a map from the numbers 2 to 7 to a name and a position
in the file of that name. `open`, `close` and `read` refine the operations of this map. -/

namespace Gyarados

/-- What each descriptor is open on. -/
abbrev FdTable := Nat → Option (List UInt8 × Nat)

namespace FdTable

/-- The least descriptor from 2 to 7 that is not in use. -/
def free (T : FdTable) : Option Nat := [2, 3, 4, 5, 6, 7].find? fun fd => (T fd).isNone

section

open Classical

/-- Open the name on the least free descriptor, if it is a name in the directory `dir`. -/
noncomputable def openFile (dir : Set (List UInt8)) (name : List UInt8) (T : FdTable) :
    Int × FdTable :=
  if name ≠ [] ∧ name ∈ dir then
    match T.free with
    | some fd => (fd, Function.update T fd (some (name, 0)))
    | none => (-1, T)
  else (-1, T)

end

/-- Free a descriptor that is in use. -/
def closeFile (fd : Int) (T : FdTable) : Int × FdTable :=
  if 2 ≤ fd ∧ fd ≤ 7 ∧ (T fd.toNat).isSome then (0, Function.update T fd.toNat none) else (-1, T)

/-- Read from the file that a descriptor is open on; `data` says what a read of a name at a position
    gives. -/
def readFile (data : List UInt8 → Nat → Int → Option DescRead) (fd nbytes : Int) (T : FdTable) :
    Option (Int × Stores × FdTable) :=
  (T fd.toNat).bind fun (name, pos) =>
    (data name pos nbytes).map fun r =>
      (r.ret, r.buf, Function.update T fd.toNat (some (name, r.filePosition)))

/-- The least free descriptor is free, and those below it are not. -/
theorem free_eq_some {T : FdTable} {fd : Nat} (h : T.free = some fd) :
    2 ≤ fd ∧ fd < 8 ∧ T fd = none ∧ ∀ fd', 2 ≤ fd' → fd' < fd → T fd' ≠ none := by
  have hrange : (List.range' 2 6).find? (fun fd => (T fd).isNone) = some fd := h
  obtain ⟨hnone, hmem, hleast⟩ := List.find?_range'_eq_some.1 hrange
  rw [List.mem_range'_1] at hmem
  exact ⟨hmem.1, hmem.2, Option.isNone_iff_eq_none.1 hnone, fun fd' h2 hlt hnull => by
    simpa [hnull] using hleast fd' h2 hlt⟩

end FdTable

/-! ## The directory -/

namespace Image

variable (I : Image)

/-- The names in the directory. -/
def directory : Set (List UInt8) := {name | ∃ i, i < I.nDentries ∧ I.dentryName i = name}

/-- Every name ends within its 32 bytes, and every type is one of the three. -/
def WellFormedDirectory : Prop := ∀ i, i < I.nDentries →
  (∃ k, k < 32 ∧ I.byte (I.dentries + 64 * i + k) = 0) ∧ I.dentryType i ≤ 2

instance : Decidable I.WellFormedDirectory :=
  inferInstanceAs (Decidable (∀ i, i < I.nDentries →
    (∃ k, k < 32 ∧ I.byte (I.dentries + 64 * i + k) = 0) ∧ I.dentryType i ≤ 2))

/-- What a read of a file or directory with this name gives. -/
def readNamed (name : List UInt8) (pos : Nat) (nbytes : Int) : Option DescRead :=
  (I.readDentryByName name).bind fun fileInfo =>
    if fileInfo.fileType = 1 then some (I.dirRead pos)
    else if fileInfo.fileType = 2 then some (I.fsRead name pos nbytes)
    else none

variable {I}

theorem WellFormedDirectory.namesTerminated (h : I.WellFormedDirectory) : I.NamesTerminated :=
  fun i hi => (h i hi).1

end Image

theorem Image.WellFormedDirectory.openFits {M : Machine} (h : M.WellFormedDirectory)
    (filename : CString) : OpenFits M filename := by
  unfold OpenFits
  split
  · rename_i fileInfo hfound
    obtain ⟨i, hi, hmatch, htype, -⟩ := Image.readDentryByName_eq_some hfound
    exact ⟨htype ▸ (h i hi).2, hmatch.1 ▸ h.namesTerminated.length_lt hi⟩
  · trivial

/-! ## The table in a PCB -/

/-- The map that the descriptors of a PCB hold. -/
def Pcb.fdTable (m : Memory) : FdTable := fun fd =>
  if 2 ≤ fd ∧ fd < 8 ∧ Pcb.flags m fd = 1 then some (Pcb.fileName m fd, Pcb.filePosition m fd)
  else none

/-- Every descriptor from 2 on is free or properly open. -/
def DescriptorsOk (M : Machine) (m : Memory) : Prop :=
  ∀ fd, 2 ≤ fd → fd < 8 → ∃ opened, FdOk M m fd opened

section

variable {M : Machine} {m m' : Memory}

theorem fdTable_eq_some_iff {fd pos : Nat} {name : List UInt8} :
    Pcb.fdTable m fd = some (name, pos) ↔ 2 ≤ fd ∧ fd < 8 ∧ Pcb.flags m fd = 1 ∧
      Pcb.fileName m fd = name ∧ Pcb.filePosition m fd = pos := by
  unfold Pcb.fdTable
  split
  · rename_i hin
    simp [hin.1, hin.2.1, hin.2.2]
  · rename_i hin
    constructor
    · intro h
      simp at h
    · rintro ⟨h2, h8, hused, -⟩
      exact absurd ⟨h2, h8, hused⟩ hin

theorem fdTable_eq_none (h : DescriptorsOk M m) {fd : Nat} (h2 : 2 ≤ fd) (h8 : fd < 8) :
    Pcb.fdTable m fd = none ↔ Pcb.flags m fd = 0 := by
  obtain ⟨opened, hok⟩ := h fd h2 h8
  rcases hok with hfree | ⟨_, _, -, hused, -⟩
  · simp [Pcb.fdTable, hfree]
  · simp [Pcb.fdTable, h2, h8, hused]

/-- The free descriptor that `open` finds is the least one of the map. -/
theorem free_fdTable (h : DescriptorsOk M m) : (Pcb.fdTable m).free = freeFd m := by
  -- the two searches test the same thing at each descriptor
  have hfd : ∀ fd, 2 ≤ fd → fd < 8 → (Pcb.fdTable m fd).isNone = decide (Pcb.flags m fd = 0) := by
    intro fd h2 h8
    rw [Bool.eq_iff_iff, Option.isNone_iff_eq_none, fdTable_eq_none h h2 h8, decide_eq_true_eq]
  simp only [FdTable.free, freeFd, List.find?, hfd 2 (by omega) (by omega),
    hfd 3 (by omega) (by omega), hfd 4 (by omega) (by omega), hfd 5 (by omega) (by omega),
    hfd 6 (by omega) (by omega), hfd 7 (by omega) (by omega)]

/-- A descriptor that is not touched stays as it is in the map. -/
theorem fdTable_of_sameFd (h : DescriptorsOk M m) {fd : Nat} (hsame : SameFd fd m m') :
    Pcb.fdTable m' fd = Pcb.fdTable m fd := by
  by_cases hfd : 2 ≤ fd ∧ fd < 8
  · obtain ⟨opened, hok⟩ := h fd hfd.1 hfd.2
    rcases hok with hfree | ⟨_, _, -, hused, -, -, -, hlen, -⟩
    · simp [Pcb.fdTable, hsame.flags, hfree]
    · simp [Pcb.fdTable, hsame.flags, hsame.filePosition, hsame.fileName hfd.2 hlen]
  · have hfd' : ¬ (2 ≤ fd ∧ fd < 8 ∧ Pcb.flags m fd = 1) := fun h => hfd ⟨h.1, h.2.1⟩
    have hfd'' : ¬ (2 ≤ fd ∧ fd < 8 ∧ Pcb.flags m' fd = 1) := fun h => hfd ⟨h.1, h.2.1⟩
    rw [Pcb.fdTable, Pcb.fdTable, if_neg hfd', if_neg hfd'']

/-- A change of one descriptor is a change of the map in one place. -/
theorem fdTable_of_outsideFd (h : DescriptorsOk M m) {fd : Nat} (hout : OutsideFd fd m m') :
    Pcb.fdTable m' = Function.update (Pcb.fdTable m) fd (Pcb.fdTable m' fd) := by
  funext fd'
  by_cases hne : fd' = fd
  · subst hne
    rw [Function.update_self]
  · rw [Function.update_of_ne hne]
    exact fdTable_of_sameFd h (hout.sameFd hne)

end

/-! ## The calls refine the map -/

/-- The PCBs differ in descriptor `fd` of slot `i` at most. -/
def OnlyFd (i : Slot) (fd : Nat) (k k' : Kernel) : Prop :=
  OutsideFd fd (k.kernelStack i) (k'.kernelStack i) ∧
    ∀ j, j ≠ i → k'.kernelStack j = k.kernelStack j

theorem OnlyFd.refl (i : Slot) (fd : Nat) (k : Kernel) : OnlyFd i fd k k :=
  ⟨OutsideFd.refl _ _, fun _ _ => rfl⟩

theorem onlyFd_setPcb {i : Slot} {fd : Nat} {k : Kernel} {m : Memory}
    (h : OutsideFd fd (k.kernelStack i) m) : OnlyFd i fd k (k.setPcb i m) := by
  refine ⟨?_, fun j hj => Function.update_of_ne hj _ _⟩
  rw [show (k.setPcb i m).kernelStack i = m from Function.update_self ..]
  exact h

section

variable {M : Machine} {k : Kernel} {i : Slot}

/-- **`open` refines the map's**, and changes only the descriptor it returns. -/
theorem openFd_refines (hwf : M.WellFormedDirectory) (hi : k.currSlot = some i)
    (hok : DescriptorsOk M (k.kernelStack i)) (filename : CString) :
    ∃ ret k', openFd M (some filename) k = some (ret, k') ∧
      (ret, Pcb.fdTable (k'.kernelStack i)) =
        (Pcb.fdTable (k.kernelStack i)).openFile M.directory filename.val ∧
      (ret = -1 → k'.kernelStack = k.kernelStack) ∧
      (ret ≠ -1 → 2 ≤ ret ∧ OnlyFd i ret.toNat k k') := by
  -- a lookup finds the names in the directory
  have hdir : (M.readDentryByName filename.val).isSome = true ↔ filename.val ∈ M.directory :=
    hwf.namesTerminated.readDentryByName_isSome filename
  by_cases hname : filename.val ≠ [] ∧ filename.val ∈ M.directory
  · obtain ⟨fileInfo, hfound⟩ := Option.isSome_iff_exists.1 (hdir.2 hname.2)
    obtain ⟨htype, hlen⟩ := (hwf.openFits filename).of_found hfound
    obtain ⟨table, htable⟩ := tableFor_isSome htype
    rw [FdTable.openFile, if_pos hname, free_fdTable hok]
    cases hfree : freeFd (k.kernelStack i) with
    | none => exact ⟨_, _, openFd_full hi hname.1 hfound hfree, rfl, fun _ => rfl, by simp⟩
    | some fd =>
        obtain ⟨m, hopen, hout, hopened⟩ := openFd_found hi hname.1 hfound hfree hlen htable
        have hfd := freeFd_mem hfree
        refine ⟨_, _, hopen, ?_, fun hret => by omega, fun _ => ⟨by omega, onlyFd_setPcb hout⟩⟩
        have hpcb : ((k.cli.setPcb i m).restoreFlags k.intFlag).kernelStack i = m :=
          Function.update_self ..
        have hview : Pcb.fdTable m fd = some (filename.val, 0) := by
          rw [Pcb.fdTable, if_pos ⟨hfd.1, hfd.2, hopened.flags⟩, hopened.fileName,
            hopened.filePosition]
        rw [hpcb, fdTable_of_outsideFd hok hout, hview]
  · rw [FdTable.openFile, if_neg hname]
    refine ⟨_, _, openFd_unknown fun name hn => ?_, rfl, fun _ => rfl, by simp⟩
    obtain rfl := Option.some.inj hn
    by_cases hnil : filename.val = []
    · exact Or.inl hnil
    · refine Or.inr ?_
      have hnot : ¬ (M.readDentryByName filename.val).isSome = true := fun hsome =>
        hname ⟨hnil, hdir.1 hsome⟩
      simpa using hnot

/-- **`close` refines the map's**, and changes only the descriptor it closes. -/
theorem closeFd_refines (hi : k.currSlot = some i) (hok : DescriptorsOk M (k.kernelStack i))
    (fd : Int) : ∃ ret k', closeFd M fd k = some (ret, k') ∧
      (ret, Pcb.fdTable (k'.kernelStack i)) = (Pcb.fdTable (k.kernelStack i)).closeFile fd ∧
      (ret = -1 → k'.kernelStack = k.kernelStack) ∧
      (ret ≠ -1 → 2 ≤ fd ∧ OnlyFd i fd.toNat k k') := by
  by_cases hfd : 2 ≤ fd ∧ fd ≤ 7
  · obtain ⟨opened, hfdOk⟩ := hok fd.toNat (by omega) (by omega)
    rcases hfdOk with hfree | ⟨fileInfo, table, -, hused, htable, hops, -⟩
    · have hnone := (fdTable_eq_none hok (show 2 ≤ fd.toNat by omega) (by omega)).2 hfree
      rw [FdTable.closeFile, if_neg (by simp [hnone])]
      exact ⟨_, _, closeFd_unused fun _ => ⟨i, hi, by omega⟩, rfl, fun _ => rfl, by simp⟩
    · obtain ⟨m, hclose, hout, hflags⟩ :=
        closeFd_used hi hfd hused hops (tableFor_entry htable .close)
      have hsome : (Pcb.fdTable (k.kernelStack i) fd.toNat).isSome = true := by
        rw [Pcb.fdTable, if_pos ⟨by omega, by omega, hused⟩]
        rfl
      have hview : Pcb.fdTable m fd.toNat = none := by
        simp [Pcb.fdTable, hflags]
      have hpcb : ((k.cli.setPcb i m).restoreFlags k.intFlag).kernelStack i = m :=
        Function.update_self ..
      rw [FdTable.closeFile, if_pos ⟨hfd.1, hfd.2, hsome⟩]
      refine ⟨_, _, hclose, ?_, by simp, fun _ => ⟨hfd.1, onlyFd_setPcb hout⟩⟩
      rw [hpcb, fdTable_of_outsideFd hok hout, hview]
  · rw [FdTable.closeFile, if_neg fun h => hfd ⟨h.1, h.2.1⟩]
    exact ⟨_, _, closeFd_unused fun h => absurd h hfd, rfl, fun _ => rfl, by simp⟩

/-- Moving the position of a descriptor in use. -/
theorem fdTable_setFilePosition {m : Memory} (hok : DescriptorsOk M m) {fd pos v : Nat}
    {name : List UInt8} (hfd : Pcb.fdTable m fd = some (name, pos)) (hv : v < 0x100000000) :
    Pcb.fdTable (Pcb.setFilePosition m fd v) =
      Function.update (Pcb.fdTable m) fd (some (name, v)) := by
  obtain ⟨h2, h8, hused, rfl, -⟩ := fdTable_eq_some_iff.1 hfd
  have hout : OutsideFd fd m (Pcb.setFilePosition m fd v) :=
    OutsideFd.setWord m v (by omega) (by omega)
  have hflags : Pcb.flags (Pcb.setFilePosition m fd v) fd = 1 := by
    rw [← hused]
    exact Memory.word_setWord_of_disjoint _ _ (by omega)
  have hname : Pcb.fileName (Pcb.setFilePosition m fd v) fd = Pcb.fileName m fd :=
    Memory.stringAt_congr _ _ fun a ha _ => Memory.setWord_of_disjoint _ _ (by omega)
  have hpos : Pcb.filePosition (Pcb.setFilePosition m fd v) fd = v :=
    (Memory.word_setWord _ _ _).trans (Nat.mod_eq_of_lt hv)
  rw [fdTable_of_outsideFd hok hout]
  congr 1
  rw [Pcb.fdTable, if_pos ⟨h2, h8, hflags⟩, hname, hpos]

end

/-- The positions that reads leave are 32-bit words. -/
theorem Image.readNamed_filePosition_lt {I : Image} {name : List UInt8} {pos : Nat} {nbytes : Int}
    {r : DescRead} (h : I.readNamed name pos nbytes = some r) : r.filePosition < 0x100000000 := by
  obtain ⟨fileInfo, hfound, h⟩ := Option.bind_eq_some_iff.1 h
  split at h
  · obtain rfl := Option.some.inj h
    unfold dirRead
    split
    · simp
    · exact Nat.mod_lt _ (by omega)
  · split at h
    · obtain rfl := Option.some.inj h
      simp only [fsRead, hfound]
      exact ofInt32_lt _
    · simp at h

/-- The PCBs differ in the position of descriptor `fd` of slot `i` at most. -/
def OnlyPosition (i : Slot) (fd : Nat) (k k' : Kernel) : Prop :=
  ∃ pos, k'.kernelStack =
    Function.update k.kernelStack i (Pcb.setFilePosition (k.kernelStack i) fd pos)

section

variable {M : Machine} {s s' : System} {i : Slot} {fd nbytes ret : Int} {buf : Stores}

/-- A read function that only moves the position of its descriptor, seen from the system call. -/
theorem readFd_moves {pos v : Nat} {name : List UInt8} {table : OpsTable} {driver : Driver}
    (hi : s.kernel.currSlot = some i) (hok : DescriptorsOk M (s.kernel.kernelStack i))
    (hT : Pcb.fdTable (s.kernel.kernelStack i) fd.toNat = some (name, pos))
    (hops : Pcb.operationsPointer (s.kernel.kernelStack i) fd.toNat = M.opsAddr table)
    (hentry : table.entry .read = some driver) (hv : v < 0x100000000)
    (hdriver : driverRead M i fd.toNat nbytes
      { s with kernel := s.kernel.cli.restoreFlags s.kernel.intFlag } driver =
      some (ret, buf, { s with
        kernel := (s.kernel.cli.restoreFlags s.kernel.intFlag).setPcb i
          (Pcb.setFilePosition (s.kernel.kernelStack i) fd.toNat v) })) :
    ∃ s', readFd M fd false nbytes s = some (ret, buf, s') ∧
      Pcb.fdTable (s'.kernel.kernelStack i) =
        Function.update (Pcb.fdTable (s.kernel.kernelStack i)) fd.toNat (some (name, v)) ∧
      OnlyPosition i fd.toNat s.kernel s'.kernel := by
  obtain ⟨h2, h8, hused, -⟩ := fdTable_eq_some_iff.1 hT
  refine ⟨_, (readFd_used hi (by omega) hused hops hentry).trans hdriver, ?_, _, rfl⟩
  rw [← fdTable_setFilePosition hok hT hv]
  simp [Kernel.setPcb]

/-- **`read` refines the map's** on files and directories: what it delivers depends on the name
    and the position of its descriptor alone, and only the position changes. -/
theorem readFd_refines (hi : s.kernel.currSlot = some i)
    (hok : DescriptorsOk M (s.kernel.kernelStack i)) {T : FdTable}
    (h : (Pcb.fdTable (s.kernel.kernelStack i)).readFile M.readNamed fd nbytes =
      some (ret, buf, T)) :
    ∃ s', readFd M fd false nbytes s = some (ret, buf, s') ∧
      Pcb.fdTable (s'.kernel.kernelStack i) = T ∧ OnlyPosition i fd.toNat s.kernel s'.kernel := by
  obtain ⟨⟨name, pos⟩, hT, h⟩ := Option.bind_eq_some_iff.1 h
  obtain ⟨r, hr, h⟩ := Option.map_eq_some_iff.1 h
  obtain ⟨rfl, rfl, rfl⟩ := by simpa using h
  obtain ⟨h2, h8, hused, hname, hpos⟩ := fdTable_eq_some_iff.1 hT
  obtain ⟨opened, hfdOk⟩ := hok fd.toNat h2 h8
  rcases hfdOk with hfree | ⟨fileInfo, table, -, -, htable, hops, -, -, hfound⟩
  · omega
  have hlt := Image.readNamed_filePosition_lt hr
  rw [hname] at hfound
  simp only [Image.readNamed, hfound, Option.bind_some] at hr
  split at hr
  · rename_i hdir
    obtain rfl := Option.some.inj hr
    obtain rfl : table = .dir := by simpa [tableFor, hdir] using htable.symm
    refine readFd_moves hi hok hT hops rfl hlt ?_
    simp [driverRead, Kernel.restoreFlags, Kernel.cli, hpos]
  · split at hr
    · rename_i hfile
      obtain rfl := Option.some.inj hr
      obtain rfl : table = .files := by simpa [tableFor, hfile] using htable.symm
      refine readFd_moves hi hok hT hops rfl hlt ?_
      simp [driverRead, Kernel.restoreFlags, Kernel.cli, hname, hpos]
    · simp at hr

/-- Every other `read` leaves all PCBs as they are: on the terminal, on the clock, on a descriptor
    that is not in use, or into a buffer that is NULL. -/
theorem readFd_other (hi : s.kernel.currSlot = some i)
    (hok : DescriptorsOk M (s.kernel.kernelStack i))
    (hstd : Pcb.operationsPointer (s.kernel.kernelStack i) 0 = M.opsAddr .stdin ∨
      Pcb.operationsPointer (s.kernel.kernelStack i) 0 = 0) {bufNull : Bool}
    (hother : bufNull = false →
      (Pcb.fdTable (s.kernel.kernelStack i)).readFile M.readNamed fd nbytes = none)
    (h : readFd M fd bufNull nbytes s = some (ret, buf, s')) :
    s'.kernel.kernelStack = s.kernel.kernelStack := by
  rcases readFd_frame h hi with hsame | ⟨driver, v, hnull, hfd, hused, hdriver, hwhich, -⟩
  · exact hsame
  exfalso
  -- descriptor 0 reads from the terminal, the others are as `open` has left them
  by_cases hzero : fd = 0
  · subst hzero
    rcases hstd with hstdin | hnone
    · rw [show (0 : Int).toNat = 0 from rfl, hstdin, Machine.tableAt_opsAddr] at hdriver
      obtain rfl := Option.some.inj hdriver
      simp at hwhich
    · rw [show (0 : Int).toNat = 0 from rfl, hnone, Machine.tableAt_null] at hdriver
      simp at hdriver
  · have hT : Pcb.fdTable (s.kernel.kernelStack i) fd.toNat = some
        (Pcb.fileName (s.kernel.kernelStack i) fd.toNat,
          Pcb.filePosition (s.kernel.kernelStack i) fd.toNat) :=
      fdTable_eq_some_iff.2 ⟨by omega, by omega, hused, rfl, rfl⟩
    obtain ⟨opened, hfdOk⟩ := hok fd.toNat (by omega) (by omega)
    rcases hfdOk with hfree | ⟨fileInfo, table, -, -, htable, hops, -, -, hfound⟩
    · omega
    have hnone := hother hnull
    simp only [FdTable.readFile, hT, Option.bind_some, Option.map_eq_none_iff, Image.readNamed,
      hfound] at hnone
    rw [hops, Machine.tableAt_opsAddr, Option.bind_some] at hdriver
    split at hnone
    · simp at hnone
    · rename_i hdir
      split at hnone
      · simp at hnone
      · rename_i hfile
        rw [tableFor, if_neg hdir, if_neg hfile] at htable
        split at htable
        · obtain rfl := Option.some.inj htable
          obtain rfl := Option.some.inj hdriver
          simp at hwhich
        · simp at htable

end

end Gyarados

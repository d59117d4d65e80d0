import Gyarados.Kernel.Launch

set_option autoImplicit false

/-! # File descriptors

What `open`, `close` and `read` do to the descriptors in a PCB, one function at a time: which
fields of the descriptor they set, and that they leave every byte outside the descriptor alone. -/

namespace Gyarados

/-! ## open -/

/-- The table that `open` puts into a descriptor for a file type it knows. -/
def tableFor (fileType : Nat) : Option OpsTable :=
  if fileType = 0 then some .rtc else if fileType = 1 then some .dir
  else if fileType = 2 then some .files else none

/-- The pointer that `open` puts into the `inode` field. -/
def Image.inodeFor (I : Image) (fileInfo : Dentry) : Nat :=
  if fileInfo.fileType = 2 then I.getInode fileInfo.inodeNum else 0

theorem tableFor_isSome {fileType : Nat} (h : fileType ≤ 2) :
    ∃ table, tableFor fileType = some table := by
  have h' : fileType = 0 ∨ fileType = 1 ∨ fileType = 2 := by omega
  rcases h' with rfl | rfl | rfl
  · exact ⟨.rtc, rfl⟩
  · exact ⟨.dir, rfl⟩
  · exact ⟨.files, rfl⟩

/-- A descriptor opened on `fileInfo` under the name `filename`. -/
structure Opened (M : Machine) (m : Memory) (fd : Nat) (filename : List UInt8) (fileInfo : Dentry)
    (table : OpsTable) : Prop where
  operationsPointer : Pcb.operationsPointer m fd = M.opsAddr table
  inode : Pcb.inode m fd = M.inodeFor fileInfo
  filePosition : Pcb.filePosition m fd = 0
  flags : Pcb.flags m fd = 1
  fileName : Pcb.fileName m fd = filename

theorem getInode_lt (I : Image) (inodeNum : Nat) : I.getInode inodeNum < 0x100000000 :=
  Nat.mod_lt _ (by omega)

/-- `fillFd` is one piece of code with the table and the inode as parameters. -/
theorem fillFd_eq {M : Machine} {fd : Nat} {filename : List UInt8} {fileInfo : Dentry}
    {table : OpsTable} (m : Memory) (htable : tableFor fileInfo.fileType = some table) :
    fillFd M fd filename fileInfo m =
      Pcb.strcpy (Pcb.setFilePosition (Pcb.setInode (Pcb.setOperationsPointer m fd (M.opsAddr table))
        fd (M.inodeFor fileInfo)) fd 0) (48 * fd + 16) filename := by
  unfold tableFor at htable
  simp only [fillFd, Image.inodeFor]
  split at htable
  · rename_i h
    obtain rfl := Option.some.inj htable
    rw [if_pos h, if_neg (by omega)]
  · rename_i h
    split at htable
    · rename_i h1
      obtain rfl := Option.some.inj htable
      rw [if_neg h, if_pos h1, if_neg (by omega)]
    · rename_i h1
      split at htable
      · rename_i h2
        obtain rfl := Option.some.inj htable
        rw [if_neg h, if_neg h1, if_pos h2, if_pos h2]
      · simp at htable

/-- A name that fits is copied into its descriptor, and nothing else is touched. -/
theorem fillFd_spec {M : Machine} {fd : Nat} {filename : CString} {fileInfo : Dentry}
    {table : OpsTable} (m : Memory) (hfd : fd < 8) (hlen : filename.val.length < 32)
    (htable : tableFor fileInfo.fileType = some table) :
    ∃ m', fillFd M fd filename.val fileInfo m = some m' ∧
      OutsideFd fd m (Pcb.setFlags m' fd 1) ∧
      Opened M (Pcb.setFlags m' fd 1) fd filename.val fileInfo table := by
  rw [fillFd_eq m htable]
  have hinode : M.inodeFor fileInfo < 0x100000000 := by
    unfold Image.inodeFor
    split
    · exact getInode_lt _ _
    · omega
  generalize hm₁ : Pcb.setFilePosition (Pcb.setInode (Pcb.setOperationsPointer m fd
    (M.opsAddr table)) fd (M.inodeFor fileInfo)) fd 0 = m₁
  -- three words of the descriptor, then its name and its flags
  have hout₁ : OutsideFd fd m m₁ := by
    rw [← hm₁]
    exact ((OutsideFd.setWord m _ (by omega) (by omega)).trans
      (OutsideFd.setWord _ _ (by omega) (by omega))).trans
      (OutsideFd.setWord _ _ (by omega) (by omega))
  have hlen' : (filename.val ++ [0]).length = filename.val.length + 1 := by simp
  refine ⟨m₁.writeBytes (48 * fd + 16) (filename.val ++ [0]), ?_, ?_, ?_⟩
  · rw [Pcb.strcpy, if_pos (by omega)]
  · exact hout₁.trans ((OutsideFd.writeBytes _ _ (by omega) (by omega)).trans
      (OutsideFd.setWord _ _ (by omega) (by omega)))
  · -- the three words before the flags are not touched by the copy of the name
    have hword : ∀ a, a + 4 ≤ 48 * fd + 12 → (Pcb.setFlags (m₁.writeBytes (48 * fd + 16)
        (filename.val ++ [0])) fd 1).word a = m₁.word a := by
      intro a ha
      rw [Pcb.setFlags, Memory.word_setWord_of_disjoint _ _ (by omega),
        Memory.word_writeBytes_of_disjoint _ _ (by omega)]
    refine ⟨?_, ?_, ?_, Memory.word_setWord _ _ _, ?_⟩
    · rw [Pcb.operationsPointer, hword _ (by omega), ← hm₁, Pcb.setFilePosition, Pcb.setInode,
        Memory.word_setWord_of_disjoint _ _ (by omega), Memory.word_setWord_of_disjoint _ _ (by omega),
        Pcb.setOperationsPointer, Memory.word_setWord, Nat.mod_eq_of_lt (M.opsAddr_lt table)]
    · rw [Pcb.inode, hword _ (by omega), ← hm₁, Pcb.setFilePosition,
        Memory.word_setWord_of_disjoint _ _ (by omega), Pcb.setInode, Memory.word_setWord,
        Nat.mod_eq_of_lt hinode]
    · rw [Pcb.filePosition, hword _ (by omega), ← hm₁, Pcb.setFilePosition, Memory.word_setWord]
    · have hname : (m₁.writeBytes (48 * fd + 16) (filename.val ++ [0])).stringAt (48 * fd + 16)
          (0x2000 - (48 * fd + 16)) = filename.val :=
        Memory.stringAt_writeBytes m₁ _ _ _ filename.property (by omega)
      refine Eq.trans ?_ hname
      exact Memory.stringAt_congr _ _ fun a ha _ => Memory.setWord_of_disjoint _ _ (by omega)

section

variable {M : Machine} {k : Kernel} {i : Slot}

/-- A name that is missing, empty or unknown. -/
theorem openFd_unknown {filename : Option CString}
    (h : ∀ name, filename = some name → name.val = [] ∨ M.readDentryByName name.val = none) :
    openFd M filename k = some (-1, k.cli) := by
  cases filename with
  | none => rfl
  | some name =>
      simp only [openFd]
      split
      · rfl
      · rename_i hne
        rcases h name rfl with hnil | hnone
        · simp [hnil] at hne
        · rw [hnone]

variable {filename : CString} {fileInfo : Dentry}

/-- No free descriptor. -/
theorem openFd_full (hi : k.currSlot = some i) (hname : filename.val ≠ [])
    (hfound : M.readDentryByName filename.val = some fileInfo)
    (hfree : freeFd (k.kernelStack i) = none) :
    openFd M (some filename) k = some (-1, k.cli.restoreFlags k.intFlag) := by
  have hlen : filename.val.length ≠ 0 := fun h => hname (List.length_eq_zero_iff.1 h)
  have hi' : k.cli.currSlot = some i := hi
  have hfree' : ([2, 3, 4, 5, 6, 7].find? fun fd => Pcb.flags (k.cli.kernelStack i) fd = 0) = none :=
    hfree
  simp only [openFd, if_neg hlen, hfound, hi', Option.bind_some, hfree']

/-- The first free descriptor is opened. -/
theorem openFd_found {fd : Nat} {table : OpsTable} (hi : k.currSlot = some i)
    (hname : filename.val ≠ []) (hfound : M.readDentryByName filename.val = some fileInfo)
    (hfree : freeFd (k.kernelStack i) = some fd) (hlen : filename.val.length < 32)
    (htable : tableFor fileInfo.fileType = some table) :
    ∃ m, openFd M (some filename) k = some ((fd : Int), (k.cli.setPcb i m).restoreFlags k.intFlag) ∧
      OutsideFd fd (k.kernelStack i) m ∧ Opened M m fd filename.val fileInfo table := by
  have hlen' : filename.val.length ≠ 0 := fun h => hname (List.length_eq_zero_iff.1 h)
  have hi' : k.cli.currSlot = some i := hi
  have hfree' : ([2, 3, 4, 5, 6, 7].find? fun fd => Pcb.flags (k.cli.kernelStack i) fd = 0) =
    some fd := hfree
  obtain ⟨m, hfill, hout, hopened⟩ :=
    fillFd_spec (k.cli.kernelStack i) (freeFd_mem hfree).2 hlen htable
  refine ⟨Pcb.setFlags m fd 1, ?_, hout, hopened⟩
  simp only [openFd, if_neg hlen', hfound, hi', Option.bind_some, hfree', hfill, Option.map_some]

/-! ## close -/

/-- A descriptor that cannot be closed, or is not in use. -/
theorem closeFd_unused {fd : Int} (h : 2 ≤ fd ∧ fd ≤ 7 → ∃ i, k.currSlot = some i ∧
    Pcb.flags (k.kernelStack i) fd.toNat ≠ 1) :
    closeFd M fd k = some (-1, k.cli.restoreFlags k.intFlag) := by
  unfold closeFd
  split
  · rename_i hfd
    obtain ⟨i, hi, hflags⟩ := h hfd
    have hi' : k.cli.currSlot = some i := hi
    have hflags' : Pcb.flags (k.cli.kernelStack i) fd.toNat ≠ 1 := hflags
    simp only [hi', Option.bind_some, if_neg hflags']
  · rfl

/-- A descriptor in use whose table has a close function is freed, and the call returns 0. -/
theorem closeFd_used {fd : Int} (hi : k.currSlot = some i) (hfd : 2 ≤ fd ∧ fd ≤ 7)
    (hflags : Pcb.flags (k.kernelStack i) fd.toNat = 1) {table : OpsTable}
    (htable : Pcb.operationsPointer (k.kernelStack i) fd.toNat = M.opsAddr table)
    (hentry : (table.entry .close).isSome = true) :
    ∃ m, closeFd M fd k = some (0, (k.cli.setPcb i m).restoreFlags k.intFlag) ∧
      OutsideFd fd.toNat (k.kernelStack i) m ∧ Pcb.flags m fd.toNat = 0 := by
  obtain ⟨driver, hdriver⟩ := Option.isSome_iff_exists.1 hentry
  have hi' : k.cli.currSlot = some i := hi
  have hflags' : Pcb.flags (k.cli.kernelStack i) fd.toNat = 1 := hflags
  refine ⟨Pcb.setFilePosition (Pcb.setFlags (k.kernelStack i) fd.toNat 0) fd.toNat 0, ?_, ?_, ?_⟩
  · have htable' : Pcb.operationsPointer (Pcb.setFilePosition (Pcb.setFlags (k.cli.kernelStack i)
        fd.toNat 0) fd.toNat 0) fd.toNat = M.opsAddr table := by
      rw [← htable, Pcb.operationsPointer, Pcb.setFilePosition, Pcb.setFlags,
        Memory.word_setWord_of_disjoint _ _ (by omega),
        Memory.word_setWord_of_disjoint _ _ (by omega)]
      rfl
    simp only [closeFd, if_pos hfd, hi', Option.bind_some, if_pos hflags', htable',
      Machine.tableAt_opsAddr, hdriver, Option.map_some]
    rfl
  · exact (OutsideFd.setWord _ _ (by omega) (by omega)).trans
      (OutsideFd.setWord _ _ (by omega) (by omega))
  · rw [Pcb.flags, Pcb.setFilePosition, Memory.word_setWord_of_disjoint _ _ (by omega),
      Pcb.setFlags, Memory.word_setWord]

end

/-! ## read -/

section

variable {M : Machine} {s s' : System} {i : Slot} {fd nbytes ret : Int} {buf : Stores}

/-- `read` on a descriptor in use calls the read function of its table. -/
theorem readFd_used (hi : s.kernel.currSlot = some i) (hfd : 0 ≤ fd ∧ fd ≤ 7 ∧ fd ≠ 1)
    (hflags : Pcb.flags (s.kernel.kernelStack i) fd.toNat = 1) {table : OpsTable} {driver : Driver}
    (htable : Pcb.operationsPointer (s.kernel.kernelStack i) fd.toNat = M.opsAddr table)
    (hentry : table.entry .read = some driver) :
    readFd M fd false nbytes s = driverRead M i fd.toNat nbytes
      { s with kernel := s.kernel.cli.restoreFlags s.kernel.intFlag } driver := by
  have hbad : ¬ (fd > 7 ∨ fd < 0 ∨ fd = 1) := by omega
  have hi' : s.kernel.cli.currSlot = some i := hi
  have hflags' : ¬ Pcb.flags (s.kernel.cli.kernelStack i) fd.toNat ≠ 1 := not_not.2 hflags
  have htable' : Pcb.operationsPointer (s.kernel.cli.kernelStack i) fd.toNat = M.opsAddr table :=
    htable
  simp only [readFd, Bool.false_eq_true, false_or, if_neg hbad, hi', Option.bind_some,
    if_neg hflags', htable', Machine.tableAt_opsAddr, hentry]

/-- `read` changes the position of a file or a directory in use, and no other byte of any PCB. -/
theorem readFd_frame {bufNull : Bool} (h : readFd M fd bufNull nbytes s = some (ret, buf, s'))
    (hi : s.kernel.currSlot = some i) : s'.kernel.kernelStack = s.kernel.kernelStack ∨
      ∃ driver v, bufNull = false ∧ (0 ≤ fd ∧ fd ≤ 7 ∧ fd ≠ 1) ∧
        Pcb.flags (s.kernel.kernelStack i) fd.toNat = 1 ∧
        (M.tableAt (Pcb.operationsPointer (s.kernel.kernelStack i) fd.toNat)).bind (·.entry .read) =
          some driver ∧ (driver = .dirRead ∨ driver = .fsRead) ∧
        s'.kernel.kernelStack = Function.update s.kernel.kernelStack i
          (Pcb.setFilePosition (s.kernel.kernelStack i) fd.toNat v) := by
  cases readFd_outcome h with
  | failed => exact .inl rfl
  | @called i' driver _ _ _ hnull hfd hi' hused hdriver hread =>
      obtain rfl : i' = i := Option.some.inj (hi'.symm.trans hi)
      cases driverRead_outcome hread with
      | device => exact .inl rfl
      | moved v hfile => exact .inr ⟨driver, v, hnull, hfd, hused, hdriver, hfile, rfl⟩

end

/-! ## What a descriptor is open on -/

/-- Descriptor `fd` is free, or it is in use and was opened on the entry `opened`. -/
def FdOk (M : Machine) (m : Memory) (fd : Nat) (opened : Option Dentry) : Prop :=
  Pcb.flags m fd = 0 ∨ ∃ fileInfo table, opened = some fileInfo ∧ Pcb.flags m fd = 1 ∧
    tableFor fileInfo.fileType = some table ∧
    Pcb.operationsPointer m fd = M.opsAddr table ∧
    Pcb.inode m fd = M.inodeFor fileInfo ∧
    (Pcb.fileName m fd).length < 32 ∧
    M.readDentryByName (Pcb.fileName m fd) = some fileInfo

section

variable {M : Machine} {m m' : Memory} {fd : Nat} {opened : Option Dentry}

theorem FdOk.kept (h : FdOk M m fd opened) (hfd : fd < 8) (hkept : FdKept fd m m') :
    FdOk M m' fd opened := by
  rcases hkept with hfree | ⟨hflags, hops, hinode, hbytes⟩
  · exact Or.inl hfree
  · rcases h with hfree | ⟨fileInfo, table, hopened, hused, htable, hops', hinode', hlen, hfound⟩
    · exact Or.inl (hflags.trans hfree)
    · have hname : Pcb.fileName m' fd = Pcb.fileName m fd :=
        Memory.stringAt_congr_of_length_lt _ _ 32 (by omega) hlen fun a ha ha' =>
          hbytes a (by omega) (by omega)
      refine Or.inr ⟨fileInfo, table, hopened, hflags.trans hused, htable, hops.trans hops',
        hinode.trans hinode', ?_, ?_⟩
      · rw [hname]
        exact hlen
      · rw [hname]
        exact hfound

theorem Opened.fdOk {filename : List UInt8} {fileInfo : Dentry} {table : OpsTable}
    (h : Opened M m fd filename fileInfo table) (htable : tableFor fileInfo.fileType = some table)
    (hlen : filename.length < 32) (hfound : M.readDentryByName filename = some fileInfo) :
    FdOk M m fd (some fileInfo) :=
  Or.inr ⟨fileInfo, table, rfl, h.flags, htable, h.operationsPointer, h.inode,
    h.fileName.symm ▸ hlen, h.fileName.symm ▸ hfound⟩

end

/-- Every outcome of `open`: it fails and changes nothing, or it opens the first free descriptor. -/
theorem openFd_cases {M : Machine} {filename : CString} {k k' : Kernel} {ret : Int}
    (hfits : OpenFits M filename) (h : openFd M (some filename) k = some (ret, k')) :
    (ret = -1 ∧ k'.core = k.core) ∨ ∃ (i : Slot) (fd : Nat) (fileInfo : Dentry)
      (table : OpsTable) (m : Memory), k.currSlot = some i ∧ ret = (fd : Int) ∧
      freeFd (k.kernelStack i) = some fd ∧ filename.val.length < 32 ∧
      M.readDentryByName filename.val = some fileInfo ∧
      tableFor fileInfo.fileType = some table ∧ OutsideFd fd (k.kernelStack i) m ∧
      Opened M m fd filename.val fileInfo table ∧ k'.core = (k.setPcb i m).core := by
  cases openFd_outcome h with
  | unknown => exact .inl ⟨rfl, rfl⟩
  | full => exact .inl ⟨rfl, rfl⟩
  | @opened name fileInfo i fd m hname hne hfound hi hfree hfill =>
      obtain rfl := Option.some.inj hname
      obtain ⟨htype, hlen⟩ := hfits.of_found hfound
      obtain ⟨table, htable⟩ := tableFor_isSome htype
      obtain ⟨m', hfill', hout, hopened⟩ :=
        fillFd_spec (k.kernelStack i) (freeFd_mem hfree).2 hlen htable
      obtain rfl := Option.some.inj (hfill.symm.trans hfill')
      exact .inr ⟨i, fd, fileInfo, table, _, hi, rfl, hfree, hlen, hfound, htable, hout, hopened, rfl⟩

end Gyarados

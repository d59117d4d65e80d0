import Gyarados.Fs.BlockTable
import Gyarados.Fs.FailedRead
import Gyarados.Kernel.ExecBuffers

set_option autoImplicit false

/-! # The file of a program

`execute` reads the head of the file into a buffer on its stack and decides by what stands there, however
much of it the read has filled. When it has taken a slot it copies the file to the program page, and goes
on whatever `copy_file_to_addr` returns. -/

namespace Gyarados

/-! ## The header -/

/-- The magic numbers of an ELF file. -/
def magicNums : List UInt8 := [0x7f, 0x45, 0x4c, 0x46]

theorem isRunnable_iff (header : Memory) :
    isRunnable header = true ↔ ∀ p, p < 4 → header p = magicNums.getD p 0 := by
  simp only [isRunnable, Bool.and_eq_true, beq_iff_eq]
  constructor
  · rintro ⟨⟨⟨h0, h1⟩, h2⟩, h3⟩ p hp
    obtain rfl | rfl | rfl | rfl : p = 0 ∨ p = 1 ∨ p = 2 ∨ p = 3 := by omega
    · exact h0
    · exact h1
    · exact h2
    · exact h3
  · intro h
    exact ⟨⟨⟨h 0 (by omega), h 1 (by omega)⟩, h 2 (by omega)⟩, h 3 (by omega)⟩

theorem isRunnable_congr {header header' : Memory} (h : ∀ p, p < 4 → header p = header' p) :
    isRunnable header = isRunnable header' := by
  simp only [isRunnable, h 0 (by omega), h 1 (by omega), h 2 (by omega), h 3 (by omega)]

theorem entryPoint_congr {header header' : Memory} (h : ∀ p, 24 ≤ p → p < 28 → header p = header' p) :
    entryPoint header = entryPoint header' := by
  simp only [entryPoint, h 24 (by omega) (by omega), h 25 (by omega) (by omega),
    h 26 (by omega) (by omega), h 27 (by omega) (by omega)]

namespace Image

variable {I : Image} {inode : Nat}

/-- A read of 32 bytes from the head of a file does not come to a second block: it ends at the byte
    behind the file. -/
theorem copies_header (j : Nat) : I.Copies inode 0 32 j ↔
    inode < I.nInodes ∧ 0 < I.fileSize inode ∧ j < 32 ∧ j ≤ I.fileSize inode := by
  refine and_congr_right fun _ => and_congr_right fun hpos => and_congr_right fun hj =>
    ⟨fun hgo => ?_, fun hle i hi => ⟨not_pastEnd (by omega), fun hbad => ?_⟩⟩
  · by_contra hlt
    have hend := (hgo (I.fileSize inode) (by omega)).1
    exact hend (pastEnd_of_eq (Nat.zero_add _) (by omega))
  · have hblock := hbad.1
    simp only [blockSize] at hblock
    omega

/-- The header buffer after the read. -/
theorem onto_readData (hinode : inode < I.nInodes) (header : Memory) {p : Nat} (hp : p < 32) :
    (I.readData inode 0 32).buf.onto header p =
      if 0 < I.fileSize inode ∧ p ≤ I.fileSize inode then I.fileByte inode p else header p := by
  rw [Stores.onto]
  split
  · rename_i hin
    have hcopies := (copies_header p).2 ⟨hinode, hin.1, hp, hin.2⟩
    rw [(buf_readData p _).2 ⟨hcopies, rfl⟩, Nat.zero_add, Option.getD_some]
  · rename_i hout
    cases hbuf : (I.readData inode 0 32).buf p with
    | none => rfl
    | some c =>
        obtain ⟨-, hpos, -, hle⟩ := (copies_header p).1 ((buf_readData p c).1 hbuf).1
        exact absurd ⟨hpos, hle⟩ hout

/-- It does not fail when there is such an inode. -/
theorem readData_header_ret : (I.readData inode 0 32).ret = -1 ↔ I.nInodes ≤ inode := by
  rw [readData_ret_eq_neg_one (by decide)]
  refine ⟨?_, .inl⟩
  rintro (h | ⟨-, ⟨k, hk, hk', -⟩ | ⟨h, -⟩⟩)
  · exact h
  · simp only [blockSize] at hk hk'
    omega
  · omega

end Image

/-! ### The decision -/

/-- The header buffer holds this at first. -/
def ExecEnv.withHeader (e : ExecEnv) (header : Memory) : ExecEnv := { e with fInitData := header }

/-- `execute` has accepted the header. -/
def ExecPlan.Accepted : ExecPlan → Prop
  | .noSlot => True
  | .launch .. => True
  | _ => False

instance : ∀ plan : ExecPlan, Decidable plan.Accepted
  | .noSlot | .launch .. => isTrue trivial
  | .fail | .nullName | .clear | .nonRunnable => isFalse not_false

/-- What `execute` decides about the file is told by the file, whatever the header buffer held: it goes
    on for an ELF file only, and the entry point is in the file. -/
structure HeaderFromFile (M : Machine) (e : ExecEnv) (command : CString) (fName : List UInt8) :
    Prop where
  same : ∀ (header header' : Memory) (mask : Nat),
    execPlan M (e.withHeader header) (some command) mask =
      execPlan M (e.withHeader header') (some command) mask
  accepted : ∀ (header : Memory) (mask : Nat),
    (execPlan M (e.withHeader header) (some command) mask).Accepted →
      ∃ file, M.readDentryByName fName = some file ∧ 4 ≤ M.fileSize file.inodeNum ∧
        isRunnable (M.fileByte file.inodeNum) = true
  entry : ∀ (header : Memory) (mask : Nat) (name : List UInt8) (entry : Nat) (slot : Slot)
    (tempArg : Memory),
    execPlan M (e.withHeader header) (some command) mask = .launch name entry slot tempArg →
      ∃ file, M.readDentryByName fName = some file ∧ 28 ≤ M.fileSize file.inodeNum ∧
        entry = entryPoint (M.fileByte file.inodeNum)

/-- The lookup or the read fails; or the file has the 28 bytes that are looked at; or it is shorter, but
    not empty, and the magic numbers are missed in the part of it that is read, which goes on to the byte
    behind its end. -/
def Image.HeaderDecided (I : Image) (fName : List UInt8) : Prop :=
  ∀ file, I.readDentryByName fName = some file →
    I.nInodes ≤ file.inodeNum ∨ 28 ≤ I.fileSize file.inodeNum ∨
      0 < I.fileSize file.inodeNum ∧
        ∃ p, p < 4 ∧ p ≤ I.fileSize file.inodeNum ∧ I.fileByte file.inodeNum p ≠ magicNums.getD p 0

section

variable {M : Machine} {e : ExecEnv} {command : CString} {fName : List UInt8}

theorem ReachesHeader.execPlan_eq (h : ReachesHeader e command fName) (M : Machine) :
    ∃ tempArg, ∀ header mask, execPlan M (e.withHeader header) (some command) mask =
      headerPlan M fName tempArg header mask := by
  obtain ⟨⟨hne, hargs⟩, hword, hclear⟩ := h
  obtain ⟨tempArg, hargs⟩ := Option.isSome_iff_exists.1 hargs
  refine ⟨tempArg, fun header mask => ?_⟩
  rw [execPlan_eq_headerPlan (e := e.withHeader header) hne hargs hword, if_neg hclear]
  rfl

theorem headerPlan_accepted {tempArg header : Memory} {mask : Nat}
    (h : (headerPlan M fName tempArg header mask).Accepted) :
    isRunnable ((M.fsRead fName 0 32).buf.onto header) = true := by
  rw [headerPlan] at h
  split at h
  · exact h.elim
  · split at h
    · assumption
    · exact h.elim

theorem headerPlan_eq_launch {tempArg header tempArg' : Memory} {mask entry : Nat} {slot : Slot}
    {name : List UInt8}
    (h : headerPlan M fName tempArg header mask = .launch name entry slot tempArg') :
    entry = entryPoint ((M.fsRead fName 0 32).buf.onto header) := by
  rw [headerPlan] at h
  split at h
  · simp at h
  · split at h
    · split at h
      · simp at h
      · injection h with _ hentry
        exact hentry.symm
    · simp at h

theorem fsRead_of_found {file : Dentry} (hfound : M.readDentryByName fName = some file) :
    (M.fsRead fName 0 32).ret = (M.readData file.inodeNum 0 32).ret ∧
      (M.fsRead fName 0 32).buf = (M.readData file.inodeNum 0 32).buf := by
  simp only [Image.fsRead, hfound, show ofInt32 32 = 32 from rfl]
  exact ⟨trivial, trivial⟩

/-- A file that `execute` refuses whatever the buffer held. -/
theorem headerFromFile_of_refused {p : ExecPlan} (hp : ¬ p.Accepted)
    (h : ∀ header mask, execPlan M (e.withHeader header) (some command) mask = p) :
    HeaderFromFile M e command fName := by
  refine ⟨fun header header' mask => by rw [h, h], fun header mask hacc => ?_,
    fun header mask name entry slot tempArg hlaunch => ?_⟩
  · rw [h] at hacc
    exact absurd hacc hp
  · rw [h] at hlaunch
    exact absurd (show p.Accepted from hlaunch ▸ trivial) hp

/-- A read that fails leaves nothing to decide. -/
theorem headerFromFile_of_fails (h : ReachesHeader e command fName)
    (hret : (M.fsRead fName 0 32).ret = -1) : HeaderFromFile M e command fName := by
  obtain ⟨tempArg, hplan⟩ := h.execPlan_eq M
  refine headerFromFile_of_refused (p := .fail) not_false fun header mask => ?_
  rw [hplan, headerPlan, if_pos hret]

/-- A file that has all the bytes looked at. -/
theorem headerFromFile_of_long (h : ReachesHeader e command fName) {file : Dentry}
    (hfound : M.readDentryByName fName = some file) (hinode : file.inodeNum < M.nInodes)
    (hsize : 28 ≤ M.fileSize file.inodeNum) : HeaderFromFile M e command fName := by
  obtain ⟨tempArg, hplan⟩ := h.execPlan_eq M
  have hbyte : ∀ (header : Memory) (p : Nat), p < 28 →
      (M.fsRead fName 0 32).buf.onto header p = M.fileByte file.inodeNum p := by
    intro header p hp
    rw [(fsRead_of_found hfound).2, Image.onto_readData hinode header (by omega),
      if_pos ⟨by omega, by omega⟩]
  have hrun : ∀ header, isRunnable ((M.fsRead fName 0 32).buf.onto header) =
      isRunnable (M.fileByte file.inodeNum) := fun header =>
    isRunnable_congr fun p hp => hbyte header p (by omega)
  have hentry : ∀ header, entryPoint ((M.fsRead fName 0 32).buf.onto header) =
      entryPoint (M.fileByte file.inodeNum) := fun header =>
    entryPoint_congr fun p _ hp => hbyte header p hp
  refine ⟨fun header header' mask => ?_, fun header mask hacc => ?_,
    fun header mask name entry slot tempArg' hlaunch => ?_⟩
  · simp only [hplan, headerPlan, hrun, hentry]
  · rw [hplan] at hacc
    exact ⟨file, hfound, by omega, (hrun header).symm.trans (headerPlan_accepted hacc)⟩
  · rw [hplan] at hlaunch
    exact ⟨file, hfound, hsize, (headerPlan_eq_launch hlaunch).trans (hentry header)⟩

/-- A file that shows another number where a magic number is looked for. -/
theorem headerFromFile_of_mismatch (h : ReachesHeader e command fName) {file : Dentry}
    (hfound : M.readDentryByName fName = some file) (hinode : file.inodeNum < M.nInodes)
    (hpos : 0 < M.fileSize file.inodeNum) {p : Nat} (hp : p < 4)
    (hle : p ≤ M.fileSize file.inodeNum)
    (hmagic : M.fileByte file.inodeNum p ≠ magicNums.getD p 0) :
    HeaderFromFile M e command fName := by
  obtain ⟨tempArg, hplan⟩ := h.execPlan_eq M
  have hrun : ∀ header, ¬ isRunnable ((M.fsRead fName 0 32).buf.onto header) = true := by
    intro header hrun
    have hbyte := (isRunnable_iff _).1 hrun p hp
    rw [(fsRead_of_found hfound).2, Image.onto_readData hinode header (by omega),
      if_pos ⟨hpos, hle⟩] at hbyte
    exact hmagic hbyte
  have hret : (M.fsRead fName 0 32).ret ≠ -1 := by
    rw [(fsRead_of_found hfound).1, ne_eq, Image.readData_header_ret]
    omega
  refine headerFromFile_of_refused (p := .nonRunnable) not_false fun header mask => ?_
  rw [hplan, headerPlan, if_neg hret, if_neg (hrun header)]

/-- What is missing from a short file can stand in the buffer already. -/
theorem HeaderFromFile.headerDecided (hreach : ReachesHeader e command fName)
    (h : HeaderFromFile M e command fName) : M.HeaderDecided fName := by
  intro file hfound
  by_cases hinode : file.inodeNum < M.nInodes
  swap
  · exact .inl (by omega)
  by_cases hsize : 28 ≤ M.fileSize file.inodeNum
  · exact .inr (.inl hsize)
  refine .inr (.inr ?_)
  by_contra hmatch
  obtain ⟨tempArg, hplan⟩ := hreach.execPlan_eq M
  set header : Memory := fun p => magicNums.getD p 0 with hheader
  have hrun : isRunnable ((M.fsRead fName 0 32).buf.onto header) = true := by
    refine (isRunnable_iff _).2 fun p hp => ?_
    rw [(fsRead_of_found hfound).2, Image.onto_readData hinode header (by omega)]
    split
    · rename_i hin
      by_contra hne
      exact hmatch ⟨hin.1, p, hp, hin.2, hne⟩
    · rfl
  have hret : (M.fsRead fName 0 32).ret ≠ -1 := by
    rw [(fsRead_of_found hfound).1, ne_eq, Image.readData_header_ret]
    omega
  have hslot : findSlot 0 (List.finRange 7) 0x80 = some 0 := by decide
  have hlaunch := hplan header 0
  rw [headerPlan, if_neg hret, if_pos hrun, hslot] at hlaunch
  obtain ⟨file', hfound', hsize', -⟩ := h.entry _ _ _ _ _ _ hlaunch
  obtain rfl := Option.some.inj (hfound.symm.trans hfound')
  exact hsize hsize'

theorem reachesHeader_shell (e : ExecEnv) : ReachesHeader e shellName shellName.val :=
  ⟨⟨by decide, (execArgs_isSome_iff _).2 (by decide +kernel)⟩, by decide, by decide⟩

/-- The small machine with another image. -/
def machineWith (I : Image) : Machine := { sampleMachine [] with toImage := I }

end

/-! ## Loading -/

/-- The program page holds the whole file, each byte of it from a block that its table names. -/
def Loaded (M : Machine) (inode : Nat) (k : Kernel) : Prop :=
  ∀ p, p < M.fileSize inode →
    (p / blockSize < Image.tableSize ∧ M.blocks inode (p / blockSize) < M.nDataBlocks) ∧
      ∃ a, k.paging.userTranslate M.pageTable1Addr (0x8048000 + p) = some a ∧
        k.userMem a = M.fileByte inode p

section

variable {M : Machine} {e : ExecEnv} {command : CString} {s s' : System} {entry inode : Nat}

theorem found_of_fsRead {fName : List UInt8} (h : (M.fsRead fName 0 32).ret ≠ -1) :
    ∃ file, M.readDentryByName fName = some file ∧ file.inodeNum < M.nInodes := by
  cases hfound : M.readDentryByName fName with
  | none => exact absurd (by simp [Image.fsRead, hfound]) h
  | some file =>
      refine ⟨file, rfl, not_le.1 fun hle => h ?_⟩
      rw [(fsRead_of_found hfound).1]
      exact Image.readData_header_ret.2 hle

/-- The program page with the copy on it, as the program sees it. -/
theorem userMem_storeProgram (t : PageTables) (slot : Slot) (buf : Stores) (mem : Nat → UInt8) {p : Nat}
    (hp : p < programRoom) : ∃ a,
      (t.mapProcess (frameBase slot)).userTranslate M.pageTable1Addr (0x8048000 + p) = some a ∧
        storeProgram (frameBase slot) buf mem a = (buf p).getD (mem a) := by
  have hslot := slot.isLt
  have hp' : p < 0x3b8000 := hp
  have hpage : (0x8048000 + p) / pageSizeLarge = processIdx := by
    simp only [pageSizeLarge, processIdx]
    omega
  refine ⟨_, PageTables.userTranslate_mapProcess t (frameBase slot) M.pageTable1Addr hpage, ?_⟩
  have haddr : frameBase slot % 0x100000 / 0x400 * pageSizeLarge + (0x8048000 + p) % pageSizeLarge =
      frameBase slot * 0x1000 + 0x48000 + p := by
    simp only [frameBase, pageSizeLarge]
    omega
  have hin : frameBase slot * 0x1000 + 0x48000 + p < frameBase slot * 0x1000 + pageSizeLarge := by
    simp only [pageSizeLarge]
    omega
  rw [haddr]
  simp only [storeProgram]
  rw [if_pos ⟨Nat.le_add_right _ _, hin⟩, Nat.add_sub_cancel_left]

/-- With a good table the copy gets as far as the file goes. -/
theorem copies_of_used (hinode : inode < M.nInodes)
    (hused : ∀ k, k < M.usedBlocks inode → M.blocks inode k < M.nDataBlocks) {p : Nat}
    (hp : p < M.fileSize inode) : M.Copies inode 0 (M.fileSize inode) p :=
  ⟨hinode, by omega, hp, fun i hi => Image.goesOn_of_lt hused (by omega)⟩

theorem copyFileToAddr_buf {fName : List UInt8} {file : Dentry}
    (hfound : M.readDentryByName fName = some file) : (M.copyFileToAddr fName).buf =
      (M.readData file.inodeNum 0 (M.fileSize file.inodeNum)).buf := by
  simp only [Image.copyFileToAddr, hfound]

/-- **A program that starts is loaded** exactly when the entries of its blocks are good: what
    `copy_file_to_addr` returns makes no difference. -/
theorem loaded_iff (h : callExecute M e (some command) s = some (.launched entry, s')) :
    ∃ fName file, strtok command.val = some fName ∧ M.readDentryByName fName = some file ∧
      (Loaded M file.inodeNum s'.kernel ↔
        ∀ k, k < M.usedBlocks file.inodeNum → M.blocks file.inodeNum k < M.nDataBlocks) := by
  cases callExecute_outcome h with
  | @launched fName _ slot tempArg m hplan hroom hm =>
      have hlaunch := execPlan_eq_launch hplan
      obtain ⟨text, htext, -, -, hword⟩ := hlaunch.words
      obtain rfl := Option.some.inj htext
      obtain ⟨file, hfound, hinode⟩ := found_of_fsRead hlaunch.read
      refine ⟨fName, file, hword, hfound, fun hloaded k hk => ?_, fun hused p hp => ?_⟩
      · have hblock := (hloaded (k * blockSize) (Image.lt_usedBlocks.1 hk)).1.2
        rwa [Nat.mul_div_cancel _ (by decide)] at hblock
      -- a file that the copy goes through to its end is no longer than the page
      · have hfits : M.fileSize file.inodeNum ≤ programRoom := by
          by_contra hlong
          have hcopies := copies_of_used hinode hused (p := programRoom) (by omega)
          rw [copyFileToAddr_buf hfound, (Image.buf_readData _ _).2 ⟨hcopies, rfl⟩] at hroom
          simp at hroom
        have hroom' : p < programRoom := by omega
        obtain ⟨a, ha, hmem⟩ := userMem_storeProgram (M := M) s.kernel.paging slot
          (M.copyFileToAddr fName).buf s.kernel.userMem hroom'
        refine ⟨⟨?_, hused _ (Image.lt_usedBlocks.2 ?_)⟩, a, ha, ?_⟩
        · simp only [programRoom] at hroom'
          simp only [blockSize, Image.tableSize]
          omega
        · simp only [blockSize]
          omega
        · have hbyte : (M.copyFileToAddr fName).buf p = some (M.fileByte file.inodeNum (0 + p)) := by
            rw [copyFileToAddr_buf hfound]
            exact (Image.buf_readData p _).2 ⟨copies_of_used hinode hused hp, rfl⟩
          rw [Nat.zero_add] at hbyte
          exact hmem.trans (by rw [hbyte, Option.getD_some])

/-- The shell of the small machine is loaded. -/
theorem loaded_shell : ∃ entry s', callExecute (sampleMachine [shellDentry]) sampleEnv
    (some shellName) (bootSystem (sampleMachine [shellDentry])) = some (.launched entry, s') ∧
      Loaded (sampleMachine [shellDentry]) 0 s'.kernel := by
  have hcall : (callExecute (sampleMachine [shellDentry]) sampleEnv (some shellName)
      (bootSystem (sampleMachine [shellDentry]))).any
        (fun out => decide (out.1 = .launched 0x8048094)) = true := by
    decide +kernel
  obtain ⟨⟨out, s'⟩, hs', hout⟩ := (Option.any_eq_true _ _).1 hcall
  obtain rfl : out = .launched 0x8048094 := of_decide_eq_true hout
  obtain ⟨fName, file, hword, hfound, hloaded⟩ := loaded_iff hs'
  obtain rfl : shellName.val = fName := Option.some.inj ((by decide : _ = _).trans hword)
  obtain rfl : shellDentry = file := Option.some.inj ((by decide +kernel : _ = _).trans hfound)
  exact ⟨_, s', hs', hloaded.2 (by decide +kernel)⟩

/-- The second block of this shell is a block 9, of two. -/
theorem loaded_badBlock : ¬ ∀ (M : Machine) (e : ExecEnv) (command : CString) (s s' : System)
    (entry : Nat) (fName : List UInt8) (file : Dentry),
    callExecute M e (some command) s = some (.launched entry, s') →
    strtok command.val = some fName → M.readDentryByName fName = some file →
    Loaded M file.inodeNum s'.kernel := by
  intro h
  have hcall : (callExecute (machineWith (shellImage 4097 [0, 9])) sampleEnv (some shellName)
      (bootSystem (machineWith (shellImage 4097 [0, 9])))).any
        (fun out => decide (out.1 = .launched 0x8048094)) = true := by
    decide +kernel
  obtain ⟨⟨out, s'⟩, hs', hout⟩ := (Option.any_eq_true _ _).1 hcall
  obtain rfl : out = .launched 0x8048094 := of_decide_eq_true hout
  have hloaded := h _ _ _ _ _ _ shellName.val shellDentry hs' (by decide) (by decide +kernel)
  have hblock := (hloaded 4096 (by decide +kernel)).1.2
  exact absurd hblock (by decide +kernel)

end

end Gyarados

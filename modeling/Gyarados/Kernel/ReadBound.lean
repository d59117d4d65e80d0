import Gyarados.Fs.ReadLoop
import Gyarados.Kernel.Descriptors
import Gyarados.Kernel.System

set_option autoImplicit false

/-! # The byte count of a read

What each read function does with the count it is given: the terminal stores one byte more, a
directory does not look at the count, and a file takes a negative count for a very large one. -/

namespace Gyarados

/-- A read of `nbytes` bytes fails or returns a count in its range, and stores nothing behind the
    end of its buffer. -/
structure HonoursCount (nbytes ret : Int) (buf : Stores) : Prop where
  ret : ret = -1 ∨ 0 ≤ ret ∧ ret ≤ max nbytes 0
  buf : ∀ i : Nat, max nbytes 0 ≤ i → buf i = none

/-- A call that stores nothing and returns 0 or -1. -/
theorem honoursCount_empty {nbytes ret : Int} (h : ret = 0 ∨ ret = -1) :
    HonoursCount nbytes ret .empty :=
  ⟨by omega, fun _ _ => rfl⟩

/-! ## Files -/

namespace Image

variable {I : Image} {inode offset length : Nat}

theorem fileBytes_of_le {n i : Nat} (h : n ≤ i) : I.fileBytes inode offset n i = none :=
  if_neg (by omega)

/-- A read inside the file keeps within a count that is not negative. -/
theorem readData_honoursCount (hinode : inode < I.nInodes) (hoff : offset < I.fileSize inode)
    (hint : length < 0x80000000) :
    HonoursCount length (I.readData inode offset length).ret (I.readData inode offset length).buf := by
  have hcases := readData_outcome length hinode hoff
  generalize I.readData inode offset length = r at hcases
  cases hcases with
  | full =>
      refine ⟨.inr ?_, fun i hi => fileBytes_of_le (by omega)⟩
      dsimp only
      rw [toInt32_of_lt hint]
      omega
  | @pastEnd m hlt =>
      refine ⟨.inr ?_, fun i hi => fileBytes_of_le (by omega)⟩
      dsimp only
      rw [toInt32_of_lt (by omega)]
      omega
  | @badEntry m hlt => exact ⟨.inl rfl, fun i hi => fileBytes_of_le (by omega)⟩

/-- A read inside the file with a count of at least 1 stores its first byte. -/
theorem readData_buf_zero (hinode : inode < I.nInodes) (hoffset : offset < I.fileSize inode)
    (hlen : 0 < length) : ((I.readData inode offset length).buf 0).isSome = true := by
  have hcopies : I.Copies inode offset length 0 :=
    ⟨hinode, hoffset, hlen, fun i hi => absurd hi (Nat.not_lt_zero i)⟩
  rw [(buf_readData 0 _).2 ⟨hcopies, rfl⟩]
  rfl

/-- There is nothing to read for the name at this position. -/
def NothingToRead (I : Image) (fname : List UInt8) (pos : Nat) : Prop :=
  ∀ temp, I.readDentryByName fname = some temp → temp.inodeNum < I.nInodes →
    I.fileSize temp.inodeNum ≤ pos

/-- A read of a file takes a negative count for one of at least 2^31. -/
theorem fsRead_honoursCount_iff (fname : List UInt8) (pos : Nat) {nbytes : Int}
    (hmin : -0x80000000 ≤ nbytes) (hmax : nbytes ≤ 0x7fffffff) :
    HonoursCount nbytes (I.fsRead fname pos nbytes).ret (I.fsRead fname pos nbytes).buf ↔
      0 ≤ nbytes ∨ I.NothingToRead fname pos := by
  cases hfound : I.readDentryByName fname with
  | none =>
      simp only [fsRead, hfound]
      exact iff_of_true (honoursCount_empty (Or.inr rfl)) (Or.inr fun temp h => by simp [hfound] at h)
  | some temp =>
      simp only [fsRead, hfound]
      by_cases hread : temp.inodeNum < I.nInodes ∧ pos < I.fileSize temp.inodeNum
      · by_cases hpos : 0 ≤ nbytes
        · refine iff_of_true ?_ (Or.inl hpos)
          have hlen : (ofInt32 nbytes : Int) = nbytes := by
            unfold ofInt32
            omega
          have hkeeps := readData_honoursCount hread.1 hread.2
            (show ofInt32 nbytes < 0x80000000 by omega)
          rwa [hlen] at hkeeps
        · refine iff_of_false (fun h => ?_) ?_
          -- as a 32-bit unsigned number the count is at least 2^31, and the loop runs
          · have hsome := readData_buf_zero hread.1 hread.2
              (show 0 < ofInt32 nbytes by simp only [ofInt32]; omega)
            rw [h.buf 0 (by omega)] at hsome
            simp at hsome
          · rintro (h | h)
            · exact hpos h
            · have := h temp hfound hread.1
              omega
      · refine iff_of_true ?_ (Or.inr ?_)
        · unfold readData
          split
          · exact honoursCount_empty (Or.inr rfl)
          · rw [if_pos (by omega)]
            exact honoursCount_empty (Or.inl rfl)
        · intro temp' h hinode
          obtain rfl := Option.some.inj (hfound.symm.trans h)
          omega

/-! ## Directories -/

/-- A read of a directory stores the whole name and its NUL. -/
theorem dirRead_honoursCount_iff (pos : Nat) {nbytes : Int} (hmax : nbytes ≤ 0x7fffffff) :
    HonoursCount nbytes (I.dirRead pos).ret (I.dirRead pos).buf ↔
      I.nDentries ≤ pos ∨ ((I.dentryName pos).length : Int) < max nbytes 0 := by
  unfold dirRead
  split
  · rename_i hend
    exact iff_of_true (honoursCount_empty (Or.inl rfl)) (Or.inl hend)
  · rename_i hend
    constructor
    · intro h
      refine Or.inr (not_le.1 fun hle => ?_)
      have hnul := h.buf _ hle
      simp at hnul
    · rintro (h | hlt)
      · exact absurd h hend
      · refine ⟨?_, ?_⟩
        · dsimp only
          rw [toInt32_of_lt (by omega)]
          exact Or.inr ⟨by omega, by omega⟩
        · intro i hi
          exact List.getElem?_eq_none (by simp; omega)

end Image

/-! ## The terminal -/

/-- A read of the terminal that returns has stored one byte more than it was asked for. -/
theorem Tty.terminalRead_honoursCount_iff {s s' : Tty} {term : Term} {nbytes ret : Int}
    {buf : Stores} (h : s.terminalRead term nbytes = some (ret, buf, s')) :
    HonoursCount nbytes ret buf ↔ nbytes < 0 := by
  unfold terminalRead at h
  split at h
  · simp at h
  · obtain ⟨rfl, rfl, -⟩ := by simpa using h
    constructor
    · intro h
      by_contra hpos
      -- the loop runs while `i <= nbytes`
      have hnone := h.buf nbytes.toNat (by omega)
      rw [terminalReadLoop_buf, if_pos (by omega)] at hnone
      simp at hnone
    · intro hneg
      rw [show (nbytes + 1).toNat = 0 by omega]
      exact honoursCount_empty (Or.inl (by omega))

/-! ## The system call -/

/-- The count is one that the read function of descriptor `fd` keeps. -/
def CountFits (M : Machine) (m : Memory) (fd : Nat) (nbytes : Int) : Driver → Prop
  | .terminalRead => nbytes < 0
  | .dirRead => M.nDentries ≤ Pcb.filePosition m fd ∨
      ((M.dentryName (Pcb.filePosition m fd)).length : Int) < max nbytes 0
  | .fsRead => 0 ≤ nbytes ∨ M.NothingToRead (Pcb.fileName m fd) (Pcb.filePosition m fd)
  | _ => True

theorem driverRead_honoursCount_iff {M : Machine} {s s' : System} {i : Slot} {fd : Nat}
    {nbytes ret : Int} {buf : Stores} {driver : Driver} (hmin : -0x80000000 ≤ nbytes)
    (hmax : nbytes ≤ 0x7fffffff) (h : driverRead M i fd nbytes s driver = some (ret, buf, s')) :
    HonoursCount nbytes ret buf ↔ CountFits M (s.kernel.kernelStack i) fd nbytes driver := by
  cases driver with
  | terminalRead =>
      obtain ⟨⟨ret', buf', tty⟩, hread, h⟩ := Option.map_eq_some_iff.1 h
      obtain ⟨rfl, rfl, -⟩ := by simpa using h
      exact Tty.terminalRead_honoursCount_iff hread
  | rtcRead =>
      simp only [driverRead] at h
      split at h
      · obtain ⟨rfl, rfl, -⟩ := by simpa using h
        exact iff_of_true (honoursCount_empty (Or.inl rfl)) trivial
      · simp at h
  | dirRead =>
      obtain ⟨rfl, rfl, -⟩ := by simpa [driverRead] using h
      exact Image.dirRead_honoursCount_iff _ hmax
  | fsRead =>
      obtain ⟨rfl, rfl, -⟩ := by simpa [driverRead] using h
      exact Image.fsRead_honoursCount_iff _ _ hmin hmax
  | _ => simp [driverRead] at h

/-- **When a read honours its count**: a call of `read` on a descriptor in use that returns has kept
    within its buffer and its count if and only if the count is one that the read function of the
    descriptor keeps, or the buffer is NULL. -/
theorem readFd_honoursCount_iff {M : Machine} {s s' : System} {i : Slot} {fd nbytes ret : Int}
    {bufNull : Bool} {buf : Stores} {driver : Driver} (hi : s.kernel.currSlot = some i)
    (hfd : 0 ≤ fd ∧ fd ≤ 7 ∧ fd ≠ 1)
    (hused : Pcb.flags (s.kernel.kernelStack i) fd.toNat = 1)
    (hdriver : (M.tableAt (Pcb.operationsPointer (s.kernel.kernelStack i) fd.toNat)).bind
      (·.entry .read) = some driver) (hmin : -0x80000000 ≤ nbytes) (hmax : nbytes ≤ 0x7fffffff)
    (h : readFd M fd bufNull nbytes s = some (ret, buf, s')) : HonoursCount nbytes ret buf ↔
      bufNull = true ∨ CountFits M (s.kernel.kernelStack i) fd.toNat nbytes driver := by
  cases bufNull with
  | true =>
      obtain ⟨rfl, rfl, -⟩ := by simpa [readFd] using h
      exact iff_of_true (honoursCount_empty (Or.inr rfl)) (Or.inl rfl)
  | false =>
      obtain ⟨table, htable, hentry⟩ := Option.bind_eq_some_iff.1 hdriver
      rw [readFd_used hi hfd hused (Machine.tableAt_eq_some.1 htable) hentry] at h
      rw [driverRead_honoursCount_iff hmin hmax h]
      simp [Kernel.restoreFlags, Kernel.cli]

/-- The shell reads its own file. -/
theorem readFd_honoursCount_file : ∃ ret buf s',
    readFd (sampleMachine [shellDentry]) 2 false 32 (reached (sampleMachine [shellDentry])
      [.execute sampleEnv (some shellName), .openFile (some shellName)]) = some (ret, buf, s') ∧
    HonoursCount 32 ret buf := by
  obtain ⟨⟨ret, buf, s'⟩, h⟩ := Option.isSome_iff_exists.1 (show (readFd (sampleMachine [shellDentry])
    2 false 32 (reached (sampleMachine [shellDentry]) [.execute sampleEnv (some shellName),
      .openFile (some shellName)])).isSome = true by decide +kernel)
  exact ⟨ret, buf, s', h, (@readFd_honoursCount_iff _ _ _ 0 _ _ _ _ _ .fsRead
    (by decide +kernel) (by decide) (by decide +kernel) (by decide +kernel) (by decide) (by decide)
    h).2 (Or.inr (Or.inl (by decide)))⟩

/-- The user presses Enter on an empty line, and the shell asks for no byte and gets one. -/
theorem readFd_honoursCount_terminal : ¬ ∀ (M : Machine) (s u u' : System) (as : List Action)
    (i : Slot) (fd nbytes ret : Int) (buf : Stores), Boot M s → run (step M) s as = some u →
    u.kernel.currSlot = some i → (0 ≤ fd ∧ fd ≤ 7 ∧ fd ≠ 1) →
    Pcb.flags (u.kernel.kernelStack i) fd.toNat = 1 → -0x80000000 ≤ nbytes → nbytes ≤ 0x7fffffff →
    readFd M fd false nbytes u = some (ret, buf, u') → HonoursCount nbytes ret buf := by
  intro h
  have hrun : (run (step (sampleMachine [shellDentry])) (bootSystem (sampleMachine [shellDentry]))
      [.execute sampleEnv (some shellName), .enter]).any (fun u =>
        decide (u.kernel.currSlot = some 0 ∧ Pcb.flags (u.kernel.kernelStack 0) 0 = 1 ∧
          (readFd (sampleMachine [shellDentry]) 0 false 0 u).any (fun r => decide (r.1 = 1)))) =
            true := by
    decide +kernel
  obtain ⟨u, hu, hfacts⟩ := (Option.any_eq_true _ _).1 hrun
  obtain ⟨hi, hused, hread⟩ := of_decide_eq_true hfacts
  obtain ⟨⟨ret, buf, u'⟩, hread, hret⟩ := (Option.any_eq_true _ _).1 hread
  obtain rfl : ret = 1 := of_decide_eq_true hret
  have hcount := (h _ _ u u' _ 0 0 0 1 buf (bootSystem_boot _) hu hi (by decide) hused (by decide)
    (by decide) hread).ret
  omega

end Gyarados

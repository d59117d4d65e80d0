import Gyarados.Fs.ReadLoop

set_option autoImplicit false

/-! # The block table

When a block has been copied to its end, `read_data` looks at the next entry of the block table before
it asks whether anything is left to read, and only this later entry is checked: the entry of the first
block is taken as it is, and no index is compared with the length of the table. -/

namespace Gyarados

namespace Image

variable {I : Image} {inode offset length : Nat}

/-- The number of entries in a block table. -/
abbrev tableSize : Nat := 1023

/-! ## Reads that the file can satisfy -/

/-- The number of blocks that a file uses, the last one perhaps in part. -/
def usedBlocks (I : Image) (inode : Nat) : Nat := (I.fileSize inode + blockSize - 1) / blockSize

theorem lt_usedBlocks {k : Nat} : k < I.usedBlocks inode ↔ k * blockSize < I.fileSize inode := by
  simp only [usedBlocks, blockSize]
  omega

/-- The read returns what it was asked for, and looks at no entry past those that the file uses. -/
structure Satisfies (I : Image) (inode offset length : Nat) : Prop where
  ret : (I.readData inode offset length).ret = length
  entries : ∀ k, .entry k ∈ I.trace inode offset length → k < I.usedBlocks inode

/-- The read ends where the file ends, and the last block of the file is full. -/
def EndsWithFullBlock (I : Image) (inode offset length : Nat) : Prop :=
  0 < length ∧ offset + length = I.fileSize inode ∧ I.fileSize inode % blockSize = 0

/-- The loads of `copyFileToAddr`, besides those of the lookup. -/
def copyTrace (I : Image) (fname : List UInt8) : List ReadEvent :=
  match I.readDentryByName fname with
  | none => []
  | some temp => I.trace temp.inodeNum 0 (I.fileSize temp.inodeNum)

/-- `copy_file_to_addr` returns 0, and looks at no entry past those that the file uses. -/
structure CopiesFile (I : Image) (fname : List UInt8) (inode : Nat) : Prop where
  ret : (I.copyFileToAddr fname).ret = 0
  entries : ∀ k, .entry k ∈ I.copyTrace fname → k < I.usedBlocks inode

section

variable (hused : ∀ k, k < I.usedBlocks inode → I.blocks inode k < I.nDataBlocks)
  (hlen : offset + length ≤ I.fileSize inode)

include hused in
/-- The table is good as far as the file goes. -/
theorem goesOn_of_lt {m : Nat} (hm : offset + (m + 1) < I.fileSize inode) :
    I.GoesOn inode offset m := by
  refine ⟨not_pastEnd hm.le, fun hbad => ?_⟩
  have hblock := hbad.1
  have := hused ((offset + (m + 1)) / blockSize) (lt_usedBlocks.2 (by
    simp only [blockSize] at *
    omega))
  exact absurd hbad.2 (by omega)

/-- The entry behind those of a file whose last block is full. -/
theorem usedBlocks_of_end (h : I.EndsWithFullBlock inode offset length) :
    (offset + length) / blockSize = I.usedBlocks inode ∧
      offset + length = I.usedBlocks inode * blockSize := by
  obtain ⟨-, hend, hfull⟩ := h
  simp only [usedBlocks, blockSize] at *
  omega

include hused hlen in
/-- Such a read fails only for the entry behind those of the file. -/
theorem ret_of_used (hinode : inode < I.nInodes) (hsize : I.fileSize inode ≤ tableSize * blockSize) :
    (I.readData inode offset length).ret = length ↔
      ¬ I.EndsWithFullBlock inode offset length ∨
        I.blocks inode (I.usedBlocks inode) < I.nDataBlocks := by
  simp only [tableSize, blockSize] at hsize
  by_cases hoff : offset < I.fileSize inode
  · have hcases := readData_outcome length hinode hoff
    generalize I.readData inode offset length = r at hcases
    cases hcases with
    | full hgo =>
        refine iff_of_true (toInt32_of_lt (by omega)) (or_iff_not_imp_left.2 fun hend => ?_)
        have hend := not_not.1 hend
        obtain ⟨hdiv, hmul⟩ := usedBlocks_of_end hend
        have hlast := (hgo (length - 1) (by have := hend.1; omega)).2
        rw [BadEntry, show offset + (length - 1 + 1) = offset + length by have := hend.1; omega, hdiv,
          hmul, Nat.mul_mod_left] at hlast
        exact not_le.1 fun hle => hlast ⟨rfl, hle⟩
    | pastEnd hlt hgo hend => exact absurd hend (not_pastEnd (by omega))
    | @badEntry m hlt hgo hend hbad =>
        have hm : ¬ offset + (m + 1) < I.fileSize inode := fun hm =>
          (goesOn_of_lt hused hm).2 hbad
        have hfull : I.EndsWithFullBlock inode offset length := by
          refine ⟨by omega, by omega, ?_⟩
          rw [show I.fileSize inode = offset + (m + 1) by omega]
          exact hbad.1
        have hdiv := (usedBlocks_of_end hfull).1
        rw [show offset + length = offset + (m + 1) by omega] at hdiv
        refine iff_of_false (by dsimp only; omega) ?_
        rw [not_or, not_not, ← hdiv]
        exact ⟨hfull, by have := hbad.2; omega⟩
  · rw [readData, if_neg (by omega), if_pos (by omega)]
    refine iff_of_true (by dsimp only; omega) (.inl fun hend => ?_)
    have := hend.1
    omega

include hused hlen in
/-- Such a read looks at the entry behind those of the file if it ends with the last one. -/
theorem entries_of_used (hinode : inode < I.nInodes) :
    (∀ k, .entry k ∈ I.trace inode offset length → k < I.usedBlocks inode) ↔
      ¬ I.EndsWithFullBlock inode offset length := by
  constructor
  · intro h hend
    have hpos := hend.1
    have hmul := (usedBlocks_of_end hend).2
    have hcopies : I.Copies inode offset length (length - 1) :=
      ⟨hinode, by omega, by omega, fun i hi => goesOn_of_lt hused (by omega)⟩
    have hmem : ReadEvent.entry (I.usedBlocks inode) ∈ I.trace inode offset length :=
      entry_mem_trace.2 ⟨hinode, by omega,
        .inr ⟨length - 1, hcopies, not_pastEnd (by omega), by omega⟩⟩
    exact absurd (h _ hmem) (lt_irrefl _)
  · intro hend k hk
    obtain ⟨-, hoff, rfl | ⟨j, hj, -, hmul⟩⟩ := entry_mem_trace.1 hk
    · refine lt_usedBlocks.2 ?_
      simp only [blockSize]
      omega
    · have hlt := hj.2.2.1
      refine lt_usedBlocks.2 (lt_of_le_of_ne (by omega) fun heq => hend ⟨by omega, by omega, ?_⟩)
      rw [← heq, Nat.mul_mod_left]

end

/-- **Reads that the file can satisfy.** A read inside a file with good blocks succeeds without a look
    past the entries of the file, except when it ends with a full last block; then it succeeds if the
    entry behind happens to be good. -/
theorem satisfies_iff (hinode : inode < I.nInodes) (hsize : I.fileSize inode ≤ tableSize * blockSize)
    (hused : ∀ k, k < I.usedBlocks inode → I.blocks inode k < I.nDataBlocks) :
    (∀ offset length, offset + length ≤ I.fileSize inode →
      (I.Satisfies inode offset length ↔ ¬ I.EndsWithFullBlock inode offset length) ∧
      ((I.readData inode offset length).ret = length ↔
        ¬ I.EndsWithFullBlock inode offset length ∨
          I.blocks inode (I.usedBlocks inode) < I.nDataBlocks)) ∧
    ∀ (fname : List UInt8) (temp : Dentry), I.readDentryByName fname = some temp →
      temp.inodeNum = inode →
      (I.CopiesFile fname inode ↔ ¬ I.EndsWithFullBlock inode 0 (I.fileSize inode)) := by
  constructor
  · intro offset length hlen
    have hret := ret_of_used hused hlen hinode hsize
    have hentries := entries_of_used hused hlen hinode
    exact ⟨⟨fun h => hentries.1 h.entries, fun h => ⟨hret.2 (.inl h), hentries.2 h⟩⟩, hret⟩
  · rintro fname temp hd rfl
    have hlen : 0 + I.fileSize temp.inodeNum ≤ I.fileSize temp.inodeNum := by omega
    have hret := ret_of_used hused hlen hinode hsize
    have hentries := entries_of_used hused hlen hinode
    have htrace : I.copyTrace fname = I.trace temp.inodeNum 0 (I.fileSize temp.inodeNum) := by
      rw [copyTrace, hd]
    constructor
    · intro h
      refine hentries.1 fun k hk => h.entries k ?_
      rw [htrace]
      exact hk
    · intro h
      refine ⟨?_, fun k hk => hentries.2 h k ?_⟩
      · have := hret.2 (.inl h)
        simp only [copyFileToAddr, hd, this]
        rw [if_neg (by omega)]
      · rwa [htrace] at hk

/-- A file of 40 bytes and its program header. -/
theorem satisfies_sample : (shellImage 40 [0, 9]).Satisfies 0 8 32 ∧
    (shellImage 40 [0, 9]).CopiesFile (ascii "shell") 0 := by
  have hsize : (shellImage 40 [0, 9]).fileSize 0 = 40 := by decide +kernel
  obtain ⟨hreads, hcopy⟩ := @satisfies_iff (shellImage 40 [0, 9]) 0 (by decide +kernel)
    (by rw [hsize]; decide) (fun k hk => by
      rw [lt_usedBlocks, hsize] at hk
      obtain rfl : k = 0 := by
        simp only [blockSize] at hk
        omega
      decide +kernel)
  rw [hsize] at hreads hcopy
  refine ⟨(hreads 8 32 (by decide)).1.2 fun hend => ?_, ?_⟩
  · have hfull := hend.2.2
    rw [hsize] at hfull
    exact absurd hfull (by decide)
  · refine (hcopy (ascii "shell") ⟨ascii "shell", 2, 0⟩ (by decide +kernel) rfl).2 fun hend => ?_
    have hfull := hend.2.2
    rw [hsize] at hfull
    exact absurd hfull (by decide)

/-- The last byte of a file of one full block cannot be read when the entry behind is no block
    number. -/
theorem satisfies_fullBlock : ¬ ∀ (I : Image) (inode offset length : Nat), inode < I.nInodes →
    I.fileSize inode ≤ tableSize * blockSize →
    (∀ k, k < I.usedBlocks inode → I.blocks inode k < I.nDataBlocks) →
    offset + length ≤ I.fileSize inode → I.Satisfies inode offset length := by
  intro h
  have hsize : (shellImage 4096 [0, 9]).fileSize 0 = 4096 := by decide +kernel
  have hret := (h (shellImage 4096 [0, 9]) 0 4095 1 (by decide +kernel) (by rw [hsize]; decide)
    (fun k hk => by
      rw [lt_usedBlocks, hsize] at hk
      obtain rfl : k = 0 := by
        simp only [blockSize] at hk
        omega
      decide +kernel) (by rw [hsize])).ret
  have hfail : ((shellImage 4096 [0, 9]).readData 0 4095 1).ret = -1 := by decide +kernel
  rw [hfail] at hret
  simp at hret

/-! ## Data from blocks that do not exist -/

/-- Every byte stored comes from an existing block that an entry of the table names, and a read whose
    range needs a block that does not exist returns -1. -/
structure FromOwnBlocks (I : Image) (inode offset length : Nat) : Prop where
  stored : ∀ (j : Nat) (c : UInt8), (I.readData inode offset length).buf j = some c →
    ∃ k loc, k < tableSize ∧ I.blocks inode k < I.nDataBlocks ∧ loc < blockSize ∧
      .copy j k (I.dataBlocks + I.blocks inode k * blockSize + loc) ∈ I.trace inode offset length ∧
      c = I.dataByte (I.blocks inode k) loc
  fails : ∀ p, offset ≤ p → p < offset + length → p < I.fileSize inode →
    (tableSize ≤ p / blockSize ∨ I.nDataBlocks ≤ I.blocks inode (p / blockSize)) →
    (I.readData inode offset length).ret = -1

/-- If there is something to read, the first block is one of the table and exists, and a read that runs
    past the end of the table meets a bad entry on the way, the one behind the table included. -/
def StaysInTable (I : Image) (inode offset length : Nat) : Prop :=
  inode < I.nInodes → offset < I.fileSize inode → 0 < length →
    offset / blockSize < tableSize ∧ I.blocks inode (offset / blockSize) < I.nDataBlocks ∧
      (tableSize * blockSize < offset + length → tableSize * blockSize ≤ I.fileSize inode →
        ∃ k, offset / blockSize < k ∧ k ≤ tableSize ∧ I.nDataBlocks ≤ I.blocks inode k)

theorem lt_mul_of_div_lt {p k : Nat} (h : p / blockSize < k) : p < k * blockSize :=
  (Nat.div_lt_iff_lt_mul (by decide)).1 h

theorem mul_le_of_le_div {p k : Nat} (h : k ≤ p / blockSize) : k * blockSize ≤ p :=
  (Nat.le_div_iff_mul_le (by decide)).1 h

/-- Before the end of the file the loop stops at a bad entry only. -/
theorem goesOn_of_blocks {m : Nat}
    (hblocks : ∀ k, offset < k * blockSize → k * blockSize ≤ offset + m →
      I.blocks inode k < I.nDataBlocks) (hm : offset + m ≤ I.fileSize inode) :
    ∀ i < m, I.GoesOn inode offset i := by
  intro i hi
  refine ⟨not_pastEnd (by omega), fun hbad => ?_⟩
  have hblock := hbad.1
  have := hblocks ((offset + (i + 1)) / blockSize) (by simp only [blockSize] at *; omega)
    (by simp only [blockSize] at *; omega)
  exact absurd hbad.2 (by omega)

/-- What comes from good blocks of the table only stays in the table. -/
theorem FromOwnBlocks.staysInTable (h : I.FromOwnBlocks inode offset length) :
    I.StaysInTable inode offset length := by
  intro hinode hoff hpos
  have hcopy : ∀ j, I.Copies inode offset length j → (offset + j) / blockSize < tableSize ∧
      I.blocks inode ((offset + j) / blockSize) < I.nDataBlocks := by
    intro j hj
    obtain ⟨k, loc, hk, hvalid, -, hmem, -⟩ := h.stored j _ ((buf_readData j _).2 ⟨hj, rfl⟩)
    obtain ⟨-, rfl, -⟩ := copy_mem_trace.1 hmem
    exact ⟨hk, hvalid⟩
  have hfirst := hcopy 0 ⟨hinode, hoff, hpos, fun i hi => absurd hi (Nat.not_lt_zero i)⟩
  rw [Nat.add_zero] at hfirst
  refine ⟨hfirst.1, hfirst.2, fun hlen hsize => ?_⟩
  by_contra hnone
  push Not at hnone
  have htable := hfirst.1
  simp only [tableSize, blockSize] at htable hlen hsize hnone
  -- otherwise the loop gets to the first byte behind the table
  have hgo : ∀ i < 1023 * 0x1000 - offset, I.GoesOn inode offset i :=
    goesOn_of_blocks (fun k hk hkm => by
      simp only [blockSize] at hk hkm
      exact hnone k (by omega) (by omega)) (by omega)
  have := (hcopy (1023 * 0x1000 - offset) ⟨hinode, hoff, by omega, hgo⟩).1
  simp only [tableSize, blockSize] at this
  omega

/-- A byte that is copied is in a good block of the table. -/
theorem StaysInTable.copies (h : I.StaysInTable inode offset length) {j : Nat}
    (hj : I.Copies inode offset length j) : (offset + j) / blockSize < tableSize ∧
      I.blocks inode ((offset + j) / blockSize) < I.nDataBlocks := by
  obtain ⟨hinode, hoff, hlt, hgo⟩ := hj
  obtain ⟨hfirst, hvalid, hrest⟩ := h hinode hoff (by omega)
  constructor
  · by_contra hge
    have hend := mul_le_of_le_div (not_lt.1 hge)
    -- the file goes on behind the table, or the loop would have stopped at its end
    have hsize : tableSize * blockSize ≤ I.fileSize inode := by
      by_contra hlt
      simp only [tableSize, blockSize] at hlt hend
      have := le_of_goesOn hoff (by omega) hgo
      omega
    obtain ⟨k, hk, hk', hbad⟩ := hrest (by omega) hsize
    have := lt_nDataBlocks_of_goesOn hgo (lt_mul_of_div_lt hk)
      ((Nat.mul_le_mul_right _ hk').trans hend)
    omega
  · rcases Nat.eq_or_lt_of_le (Nat.div_le_div_right (Nat.le_add_right offset j)) with hsame | hlt
    · rwa [← hsame]
    · exact lt_nDataBlocks_of_goesOn hgo (lt_mul_of_div_lt hlt) (Nat.div_mul_le_self _ _)

/-- If a byte `p` of the read is in no good block of the table, there is a bad entry between the first
    block and the one of `p`. -/
theorem StaysInTable.exists_bad (h : I.StaysInTable inode offset length) (hinode : inode < I.nInodes)
    {p : Nat} (hle : offset ≤ p) (hlt : p < offset + length) (hsize : p < I.fileSize inode)
    (hbad : tableSize ≤ p / blockSize ∨ I.nDataBlocks ≤ I.blocks inode (p / blockSize)) :
    ∃ k, offset < k * blockSize ∧ k * blockSize ≤ p ∧ I.nDataBlocks ≤ I.blocks inode k := by
  obtain ⟨hfirst, hvalid, hrest⟩ := h hinode (by omega) (by omega)
  by_cases htable : tableSize ≤ p / blockSize
  · have hend := mul_le_of_le_div htable
    obtain ⟨k, hk, hk', hbad⟩ := hrest (by omega) (by omega)
    exact ⟨k, lt_mul_of_div_lt hk, (Nat.mul_le_mul_right _ hk').trans hend, hbad⟩
  · have hbad := hbad.resolve_left htable
    rcases Nat.eq_or_lt_of_le (Nat.div_le_div_right hle) with hsame | hlt
    · rw [← hsame] at hbad
      omega
    · exact ⟨p / blockSize, lt_mul_of_div_lt hlt, Nat.div_mul_le_self _ _, hbad⟩

/-- A bad entry on the way stops the loop with a failure. -/
theorem readData_fails (hinode : inode < I.nInodes) {p k : Nat} (hlt : p < offset + length)
    (hsize : p < I.fileSize inode) (hk : offset < k * blockSize) (hkp : k * blockSize ≤ p)
    (hbad : I.nDataBlocks ≤ I.blocks inode k) : (I.readData inode offset length).ret = -1 := by
  have hcases := readData_outcome length hinode (show offset < I.fileSize inode by omega)
  generalize I.readData inode offset length = r at hcases
  cases hcases with
  | full hgo =>
      have := lt_nDataBlocks_of_goesOn hgo hk (by omega)
      omega
  | @pastEnd m hlt' hgo hend =>
      have hge := le_of_pastEnd hend
      have := lt_nDataBlocks_of_goesOn hgo hk (by omega)
      omega
  | badEntry => rfl

/-- **No data from blocks that do not exist**, if and only if the read stays in the table. -/
theorem fromOwnBlocks_iff :
    I.FromOwnBlocks inode offset length ↔ I.StaysInTable inode offset length := by
  constructor
  · exact FromOwnBlocks.staysInTable
  · intro h
    refine ⟨fun j c hc => ?_, fun p hle hlt hsize hbad => ?_⟩
    · obtain ⟨hj, rfl⟩ := (buf_readData j c).1 hc
      obtain ⟨htable, hvalid⟩ := h.copies hj
      exact ⟨(offset + j) / blockSize, (offset + j) % blockSize, htable, hvalid,
        Nat.mod_lt _ (by decide), copy_mem_trace.2 ⟨hj, rfl, rfl⟩, rfl⟩
    · by_cases hinode : inode < I.nInodes
      · obtain ⟨k, hk, hkp, hk'⟩ := h.exists_bad hinode hle hlt hsize hbad
        exact readData_fails hinode hlt hsize hk hkp hk'
      · rw [readData, if_pos (by omega)]

/-- The file of one block whose number is 9, of two. -/
theorem fromOwnBlocks_badBlock : ¬ ∀ (I : Image) (inode offset length : Nat),
    I.FromOwnBlocks inode offset length := by
  intro h
  have hstays := (h (shellImage 40 [9]) 0 0 1).fails 0 (by decide) (by decide) (by decide +kernel)
    (.inr (by decide +kernel))
  have hret : ((shellImage 40 [9]).readData 0 0 1).ret = 1 := by decide +kernel
  rw [hret] at hstays
  simp at hstays

end Image

end Gyarados

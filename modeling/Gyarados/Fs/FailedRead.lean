import Gyarados.Fs.ReadLoop

set_option autoImplicit false

/-! # Reads that fail

`fs_read` adds what `read_data` returns to the position of the descriptor, and so takes 1 off when the
read has failed. Only a name that is not in the directory is found out before that. -/

namespace Gyarados

namespace Image

variable {I : Image} {inode offset length : Nat}

/-- There is no such inode; or the read comes to a bad entry of the block table, which it looks at when
    it has copied all of the block before, up to the end of the file. A file that ends at the last
    address has no end that the test could find; and a count of 2^32 - 1 bytes reads as -1. -/
def ReadFails (I : Image) (inode offset length : Nat) : Prop :=
  I.nInodes ≤ inode ∨ offset < I.fileSize inode ∧
    ((∃ k, offset < k * blockSize ∧ k * blockSize ≤ offset + length ∧
        (k * blockSize ≤ I.fileSize inode ∨ I.fileSize inode = 0xffffffff) ∧
        I.nDataBlocks ≤ I.blocks inode k) ∨
      length = 0xffffffff ∧
        (I.fileSize inode = 0xffffffff ∨ offset = 0 ∧ I.fileSize inode = 0xfffffffe))

theorem toInt32_eq_neg_one {n : Nat} (h : n < 0x100000000) : toInt32 n = -1 ↔ n = 0xffffffff := by
  unfold toInt32
  split <;> omega

/-- A read returns -1 exactly when it fails. -/
theorem readData_ret_eq_neg_one (hlen : length < 0x100000000) :
    (I.readData inode offset length).ret = -1 ↔ I.ReadFails inode offset length := by
  by_cases hinode : inode < I.nInodes
  · by_cases hoff : offset < I.fileSize inode
    · have hsize := I.fileSize_lt inode
      have hcases := readData_outcome length hinode hoff
      generalize I.readData inode offset length = r at hcases
      cases hcases with
      | full hgo =>
          rw [toInt32_eq_neg_one hlen]
          constructor
          · rintro rfl
            refine .inr ⟨hoff, .inr ⟨rfl, .inl ?_⟩⟩
            by_contra hne
            have := le_of_goesOn hoff (by omega) hgo
            omega
          · rintro (h | ⟨-, ⟨k, hk, hkl, -, hbad⟩ | ⟨h, -⟩⟩)
            · omega
            · have := lt_nDataBlocks_of_goesOn hgo hk hkl
              omega
            · exact h
      | @pastEnd m hlt hgo hend =>
          -- the turn that finds the end is the one behind it
          have hge := le_of_pastEnd hend
          have hne : I.fileSize inode ≠ 0xffffffff := fun heq => by
            unfold PastEnd at hend
            omega
          have hle := le_of_goesOn hoff (by omega) hgo
          rw [toInt32_eq_neg_one (by omega)]
          constructor
          · intro hm
            exact .inr ⟨hoff, .inr ⟨by omega, .inr ⟨by omega, by omega⟩⟩⟩
          · rintro (h | ⟨-, ⟨k, hk, -, hkf | hkf, hbad⟩ | ⟨h, hf | ⟨hzero, hf⟩⟩⟩)
            · omega
            · have := lt_nDataBlocks_of_goesOn hgo hk (by omega)
              omega
            · exact absurd hkf hne
            · exact absurd hf hne
            · omega
      | @badEntry m hlt hgo hend hbad =>
          have hmul : (offset + (m + 1)) / blockSize * blockSize = offset + (m + 1) :=
            Nat.div_mul_cancel (Nat.dvd_of_mod_eq_zero hbad.1)
          refine iff_of_true rfl (.inr ⟨hoff, .inl ⟨_, ?_, ?_, ?_, hbad.2⟩⟩)
          · omega
          · omega
          · rw [hmul]
            by_contra hgt
            have hle := le_of_goesOn hoff (by omega) hgo
            exact hend (pastEnd_of_eq (by omega) (by omega))
    · rw [readData, if_neg (by omega), if_pos (by omega)]
      refine iff_of_false (by simp) ?_
      rintro (h | h)
      · omega
      · exact hoff h.1
  · rw [readData, if_pos (by omega)]
    exact iff_of_true rfl (.inl (by omega))

/-- A call of `fs_read` that returns -1 leaves the position of the descriptor as it was. -/
def KeepsPosition (I : Image) (fname : List UInt8) (pos : Nat) (nbytes : Int) : Prop :=
  (I.fsRead fname pos nbytes).ret = -1 → (I.fsRead fname pos nbytes).filePosition = pos

/-- **A failed read keeps the position** if and only if it has failed for its name. -/
theorem keepsPosition_iff {fname : List UInt8} {pos : Nat} {nbytes : Int} :
    I.KeepsPosition fname pos nbytes ↔ ∀ temp, I.readDentryByName fname = some temp →
      ¬ I.ReadFails temp.inodeNum pos (ofInt32 nbytes) := by
  unfold KeepsPosition
  cases hfound : I.readDentryByName fname with
  | none =>
      simp only [fsRead, hfound]
      exact iff_of_true (fun _ => trivial) fun temp h => by simp at h
  | some temp =>
      have hfails : (I.readData temp.inodeNum pos (ofInt32 nbytes)).ret = -1 ↔
          I.ReadFails temp.inodeNum pos (ofInt32 nbytes) := readData_ret_eq_neg_one (ofInt32_lt nbytes)
      simp only [fsRead, hfound, Option.some.injEq, forall_eq', ← hfails]
      refine forall_congr' fun hret => iff_of_false ?_ not_false
      rw [hret]
      unfold ofInt32
      omega

/-- From the last byte of its first block the file goes on in a block 9, of two. -/
theorem keepsPosition_badBlock : ¬ ∀ (I : Image) (fname : List UInt8) (pos : Nat) (nbytes : Int),
    pos < 0x100000000 → I.KeepsPosition fname pos nbytes := by
  intro h
  have hkeeps := h (shellImage 5000 [0, 9]) (ascii "shell") 4095 5 (by decide) (by decide +kernel)
  have hpos : ((shellImage 5000 [0, 9]).fsRead (ascii "shell") 4095 5).filePosition = 4094 := by
    decide +kernel
  rw [hpos] at hkeeps
  simp at hkeeps

end Image

end Gyarados

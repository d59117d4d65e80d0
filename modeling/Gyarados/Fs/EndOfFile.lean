import Gyarados.Fs.SequentialRead
import Mathlib.Algebra.Ring.Int.Defs

set_option autoImplicit false

/-! # Reading past the end of a file

The test for the end of the file stands behind the store and the increment, and it asks for more
than `file_size`: a read that asks for more than is left copies one byte too many and counts it. -/

namespace Gyarados

namespace Image

variable {I : Image} {inode offset length : Nat}

/-- A read of more than is left that stops at the end: it returns what is left, and its buffer
    receives the last bytes of the file and nothing else. -/
def StopsAtEnd (I : Image) (inode offset length : Nat) : Prop :=
  I.readData inode offset length =
    { ret := I.fileSize inode - offset
      buf := I.fileBytes inode offset (I.fileSize inode - offset) }

/-- The program in the small image. -/
def shellFile : Dentry := { fileName := ascii "shell", fileType := 2, inodeNum := 0 }

/-! ## One read -/

/-- A read that asks for more than is left delivers one byte more than is left, or fails at an entry
    of the block table that is not valid. -/
theorem readData_past_end_cases (hinode : inode < I.nInodes) (hsize : I.fileSize inode < 0x7fffffff)
    (hoff : offset < I.fileSize inode) (hlen : I.fileSize inode < offset + length) :
    I.readData inode offset length =
      { ret := (I.fileSize inode + 1 - offset : Nat)
        buf := I.fileBytes inode offset (I.fileSize inode + 1 - offset) } ∨
    (I.readData inode offset length).ret = -1 ∧
      ∃ m, offset + (m + 1) ≤ I.fileSize inode ∧ I.BadEntry inode offset m := by
  have hcases := readData_outcome length hinode hoff
  generalize I.readData inode offset length = r at hcases
  cases hcases with
  | full hgo =>
      have := le_of_goesOn hoff (by omega) hgo
      omega
  | @pastEnd m hlt hgo hend =>
      have hle := le_of_goesOn hoff (by omega) hgo
      have hge := le_of_pastEnd hend
      rw [toInt32_of_lt (by omega), show m + 1 = I.fileSize inode + 1 - offset by omega]
      exact .inl rfl
  | @badEntry m hlt hgo hend hbad =>
      have hle := le_of_goesOn hoff (by omega) hgo
      refine .inr ⟨rfl, m, ?_, hbad⟩
      by_contra hgt
      exact hend (pastEnd_of_eq (by omega) (by omega))

/-- With valid blocks a read that asks for more than is left delivers one byte more than is left. -/
theorem readData_past_end (hinode : inode < I.nInodes) (hsize : I.fileSize inode < 0x7fffffff)
    (hval : I.ValidBlocks inode (I.fileSize inode)) (hoff : offset < I.fileSize inode)
    (hlen : I.fileSize inode < offset + length) :
    I.readData inode offset length =
      { ret := (I.fileSize inode + 1 - offset : Nat)
        buf := I.fileBytes inode offset (I.fileSize inode + 1 - offset) } := by
  rcases readData_past_end_cases hinode hsize hoff hlen with hread | ⟨-, m, hin, hbad⟩
  · exact hread
  · have hvalid := hval _ (Nat.div_le_div_right hin)
    exact absurd hbad.2 (by omega)

/-- Whatever the image holds, a read that asks for more than is left does not stop at the end. -/
theorem not_stopsAtEnd (hinode : inode < I.nInodes) (hsize : I.fileSize inode < 0x7fffffff)
    (hoff : offset < I.fileSize inode) (hlen : I.fileSize inode < offset + length) :
    ¬ I.StopsAtEnd inode offset length := by
  intro hstop
  have hret := congrArg ReadResult.ret hstop
  rcases readData_past_end_cases hinode hsize hoff hlen with hread | ⟨hfailed, -⟩
  · rw [hread] at hret
    dsimp only at hret
    omega
  · rw [hfailed] at hret
    dsimp only at hret
    omega

/-! ## Reading until nothing is left -/

/-- The calls went on until one returned 0. -/
def UntilZero : List DescRead → Prop
  | [] => False
  | [r] => r.ret = 0
  | r :: rs => r.ret ≠ 0 ∧ UntilZero rs

instance decidableUntilZero : DecidablePred UntilZero
  | [] => isFalse id
  | [r] => inferInstanceAs (Decidable (r.ret = 0))
  | r :: r' :: rs =>
      have := decidableUntilZero (r' :: rs)
      inferInstanceAs (Decidable (r.ret ≠ 0 ∧ UntilZero (r' :: rs)))

/-- The sum of the values returned. -/
def total (rs : List DescRead) : Int := (rs.map DescRead.ret).sum

variable {fname : List UInt8} {temp : Dentry}

theorem fsRead_end {pos n : Nat} (hd : I.readDentryByName fname = some temp)
    (hinode : temp.inodeNum < I.nInodes) (hpos : I.fileSize temp.inodeNum ≤ pos) :
    (I.fsRead fname pos n).ret = 0 := by
  rw [fsRead, hd]
  dsimp only
  rw [readData, if_neg (by omega), if_pos hpos]

theorem fsRead_past_end {pos n : Nat} (hd : I.readDentryByName fname = some temp)
    (hinode : temp.inodeNum < I.nInodes) (hsize : I.fileSize temp.inodeNum < 0x7fffffff)
    (hval : I.ValidBlocks temp.inodeNum (I.fileSize temp.inodeNum))
    (hpos : pos < I.fileSize temp.inodeNum) (hlen : I.fileSize temp.inodeNum < pos + n)
    (hint : n < 0x80000000) :
    (I.fsRead fname pos n).ret = (I.fileSize temp.inodeNum + 1 - pos : Nat) ∧
      (I.fsRead fname pos n).filePosition = I.fileSize temp.inodeNum + 1 := by
  have hpos' : ofInt32 ((pos : Int) + (I.fileSize temp.inodeNum + 1 - pos : Nat)) =
      I.fileSize temp.inodeNum + 1 := by
    rw [← Int.natCast_add, ofInt32_natCast (by omega)]
    omega
  simp only [fsRead, hd, ofInt32_natCast (by omega : n < 0x100000000),
    readData_past_end hinode hsize hval hpos hlen, hpos']
  trivial

/-- The read inside the file delivers its request. -/
theorem fsRead_within {pos n : Nat} (hd : I.readDentryByName fname = some temp)
    (hinode : temp.inodeNum < I.nInodes)
    (hval : I.ValidBlocks temp.inodeNum (I.fileSize temp.inodeNum))
    (hlen : pos + n ≤ I.fileSize temp.inodeNum) (hint : n < 0x80000000) :
    (I.fsRead fname pos n).ret = n ∧ (I.fsRead fname pos n).filePosition = pos + n := by
  have hval' : I.ValidBlocks temp.inodeNum (pos + n) :=
    fun k hk => hval k (hk.trans (Nat.div_le_div_right hlen))
  rw [fsRead_eq hd hinode hlen hval' hint]
  exact ⟨rfl, rfl⟩

/-- Only at the end of the file there is nothing to deliver. -/
theorem fsRead_eq_zero_iff {pos n : Nat} (hd : I.readDentryByName fname = some temp)
    (hinode : temp.inodeNum < I.nInodes) (hsize : I.fileSize temp.inodeNum < 0x7fffffff)
    (hval : I.ValidBlocks temp.inodeNum (I.fileSize temp.inodeNum)) (hn : 0 < n) (hint : n < 0x80000000)
    (hpos : pos ≤ I.fileSize temp.inodeNum) :
    (I.fsRead fname pos n).ret = 0 ↔ pos = I.fileSize temp.inodeNum := by
  refine ⟨fun hzero => ?_, fun hend => fsRead_end hd hinode hend.ge⟩
  rcases Nat.lt_or_ge (I.fileSize temp.inodeNum) (pos + n) with hlen | hlen
  · by_contra hne
    have := (fsRead_past_end hd hinode hsize hval (by omega) hlen hint).1
    omega
  · have := (fsRead_within hd hinode hval hlen hint).1
    omega

theorem total_fsReads_cons (pos n : Nat) (ns : List Nat) :
    total (I.fsReads fname pos (n :: ns)) = (I.fsRead fname pos n).ret +
      total (I.fsReads fname (I.fsRead fname pos n).filePosition ns) := by
  simp [fsReads, total]

/-- The calls from position `pos` on deliver what is left if and only if those before the last one
    ask for no more than that. -/
theorem total_from_iff (hd : I.readDentryByName fname = some temp)
    (hinode : temp.inodeNum < I.nInodes) (hsize : I.fileSize temp.inodeNum < 0x7fffffff)
    (hval : I.ValidBlocks temp.inodeNum (I.fileSize temp.inodeNum)) :
    ∀ (ns : List Nat) (pos : Nat), pos ≤ I.fileSize temp.inodeNum →
      (∀ n ∈ ns, 0 < n ∧ n < 0x80000000) → UntilZero (I.fsReads fname pos ns) →
      (total (I.fsReads fname pos ns) = (I.fileSize temp.inodeNum - pos : Nat) ↔
        pos + ns.dropLast.sum ≤ I.fileSize temp.inodeNum) := by
  intro ns
  induction ns with
  | nil => intro pos _ _ h; exact h.elim
  | cons n ns ih =>
      intro pos hpos hns huntil
      obtain ⟨hn, hint⟩ := hns n List.mem_cons_self
      have hzero := fsRead_eq_zero_iff hd hinode hsize hval hn hint hpos
      rw [total_fsReads_cons]
      cases ns with
      | nil =>
          -- the last call returns 0, so it has found nothing left
          have hlast : (I.fsRead fname pos n).ret = 0 := huntil
          obtain rfl := hzero.1 hlast
          simp [fsReads, total, hlast]
      | cons n' ns =>
          obtain ⟨hret, hrest⟩ : (I.fsRead fname pos n).ret ≠ 0 ∧
              UntilZero (I.fsReads fname (I.fsRead fname pos n).filePosition (n' :: ns)) := huntil
          have hlt : pos < I.fileSize temp.inodeNum := lt_of_le_of_ne hpos (mt hzero.2 hret)
          rw [List.dropLast_cons_cons, List.sum_cons]
          rcases Nat.lt_or_ge (I.fileSize temp.inodeNum) (pos + n) with hlen | hlen
          · -- one byte too many, and the next call is the last
            obtain ⟨hret', hpos'⟩ := fsRead_past_end hd hinode hsize hval hlt hlen hint
            rw [hpos'] at hrest ⊢
            have hnext : (I.fsRead fname (I.fileSize temp.inodeNum + 1) n').ret = 0 :=
              fsRead_end hd hinode (by omega)
            cases ns with
            | nil =>
                have htail : total (I.fsReads fname (I.fileSize temp.inodeNum + 1) [n']) = 0 := by
                  simp [fsReads, total, hnext]
                rw [hret', htail]
                constructor
                · intro h; omega
                · intro h; omega
            | cons n'' ns => exact absurd hnext hrest.1
          · obtain ⟨hret', hpos'⟩ := fsRead_within hd hinode hval hlen hint
            rw [hpos'] at hrest ⊢
            have htail := ih (pos + n) hlen (fun m hm => hns m (List.mem_cons_of_mem _ hm)) hrest
            rw [hret', ← Nat.add_assoc, ← htail]
            constructor
            · intro h; omega
            · intro h; omega

/-- **Reading to the end of the file.** No read that asks for more than is left stops at the end of
    the file. So reading until a call returns 0 gives the length of the file if and only if the
    calls before the last one ask for no more than the file has. -/
theorem reads_end (hinode : inode < I.nInodes) (hsize : I.fileSize inode ≤ 1022 * blockSize) :
    (∀ offset length, offset < I.fileSize inode → I.fileSize inode - offset < length →
      ¬ I.StopsAtEnd inode offset length) ∧
    ∀ (fname : List UInt8) (temp : Dentry) (ns : List Nat), I.readDentryByName fname = some temp →
      temp.inodeNum = inode → I.ValidBlocks inode (I.fileSize inode) →
      (∀ n ∈ ns, 0 < n ∧ n < 0x80000000) → UntilZero (I.fsReads fname 0 ns) →
      (total (I.fsReads fname 0 ns) = I.fileSize inode ↔ ns.dropLast.sum ≤ I.fileSize inode) := by
  have hsize' : I.fileSize inode < 0x7fffffff := by
    simp only [blockSize] at hsize
    omega
  constructor
  · intro offset length hoff hlen
    exact not_stopsAtEnd hinode hsize' hoff (by omega)
  · rintro fname temp ns hd rfl hval hns huntil
    have h := total_from_iff hd hinode hsize' hval ns 0 (Nat.zero_le _) hns huntil
    rwa [Nat.sub_zero, Nat.zero_add] at h

/-- A file of 40 bytes, read with requests that end where it ends. -/
theorem reads_end_sample :
    ¬ (sampleImage [shellFile]).StopsAtEnd 0 10 100 ∧
    total ((sampleImage [shellFile]).fsReads (ascii "shell") 0 [10, 30, 5]) = 40 := by
  obtain ⟨hpast, hall⟩ := @reads_end (sampleImage [shellFile]) 0
    (by decide +kernel) (by decide +kernel)
  have hfile : (sampleImage [shellFile]).fileSize 0 = 40 := by decide +kernel
  rw [hfile] at hpast hall
  refine ⟨hpast 10 100 (by omega) (by omega), ?_⟩
  exact (hall (ascii "shell") shellFile [10, 30, 5] (by decide +kernel) rfl
    (fun k hk => by
      obtain rfl : k = 0 := Nat.le_zero.1 hk
      decide +kernel) (by decide) (by decide +kernel)).2 (by decide)

/-- A file of 40 bytes, asked for 41: the byte behind the file is delivered too. -/
theorem stopsAtEnd_sample : ¬ ∀ (I : Image) (inode offset length : Nat), inode < I.nInodes →
    I.fileSize inode ≤ 1022 * blockSize → I.ValidBlocks inode (I.fileSize inode) →
    offset < I.fileSize inode → I.fileSize inode - offset < length →
    I.StopsAtEnd inode offset length := by
  intro h
  have hret := congrArg ReadResult.ret (h (sampleImage [shellFile]) 0 0 41 (by decide +kernel)
    (by decide +kernel) (fun k hk => by
      obtain rfl : k = 0 := Nat.le_zero.1 hk
      decide +kernel) (by decide +kernel) (by decide +kernel))
  have hval : ((sampleImage [shellFile]).readData 0 0 41).ret = 41 ∧
      (sampleImage [shellFile]).fileSize 0 = 40 := by
    decide +kernel
  rw [hval.1, hval.2] at hret
  simp at hret

end Image

end Gyarados

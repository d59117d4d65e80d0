import Gyarados.Fs.Files

set_option autoImplicit false

/-! # The copying loop of `read_data`

`readLoop` keeps four positions: the count of bytes read, the index into the buffer, the raw pointer
and the place in the block. `Tracks` ties all four to the one position in the file they stand for, so
that the state after `m` bytes is known, `stateAt m`. A turn ends the call behind the end of the file
and at the number of a block that does not exist, and goes on otherwise: what a call returns, what it
stores and which entries of the block table it looks at all follow from where the first turn is that
does not go on. -/

namespace Gyarados

/-- What `read_data` loads from the image, besides the sizes. -/
inductive ReadEvent
  /-- The entry `blocks[k]` of the block table. -/
  | entry (k : Nat)
  /-- The byte at `addr`, which is stored at `buf[bufPos]`, while `curr_block` is `currBlock`. -/
  | copy (bufPos currBlock addr : Nat)
  deriving DecidableEq, Repr

namespace Image

variable (I : Image) {inode offset length : Nat}

/-- The loads of `readLoop`, in order. -/
def traceLoop (inode offset length : Nat) : Nat → ReadState → List ReadEvent
  | 0, _ => []
  | fuel + 1, s =>
      if s.numReads < length then
        .copy s.bufPos s.currBlock s.currReadPos ::
          let s := I.copyByte s
          if I.fileSize inode < (offset + s.numReads) % 0x100000000 then []
          else if blockSize ≤ s.locationInBlock then
            .entry (s.currBlock + 1) ::
              if I.nDataBlocks ≤ I.blocks inode (s.currBlock + 1) then []
              else
                traceLoop inode offset length fuel
                  { s with
                    locationInBlock := 0
                    currBlock := s.currBlock + 1
                    currReadPos := I.dataBlocks + I.blocks inode (s.currBlock + 1) * blockSize }
          else traceLoop inode offset length fuel s
      else []

/-- The loads of `readData`. -/
def trace (inode offset length : Nat) : List ReadEvent :=
  if inode ≥ I.nInodes then []
  else if offset ≥ I.fileSize inode then []
  else
    .entry (offset / blockSize) :: I.traceLoop inode offset length length (I.readStart inode offset)

/-! ## The bytes of a file -/

/-- Byte `p` of the file: byte `p mod 4096` of the data block its block table names for it. -/
def fileByte (inode p : Nat) : UInt8 :=
  I.dataByte (I.blocks inode (p / blockSize)) (p % blockSize)

/-- A buffer that received the `n` bytes of the file from `offset` on, and nothing else. -/
def fileBytes (inode offset n : Nat) : Stores :=
  fun j => if j < n then some (I.fileByte inode (offset + j)) else none

theorem fileBytes_zero : I.fileBytes inode offset 0 = .empty := by
  funext j
  simp [fileBytes]

theorem fileBytes_put (n : Nat) :
    (I.fileBytes inode offset n).put n (I.fileByte inode (offset + n))
      = I.fileBytes inode offset (n + 1) := by
  funext j
  simp only [Stores.put_apply, fileBytes]
  by_cases h : j = n
  · subst h
    simp
  · by_cases h' : j < n
    · rw [if_neg h, if_pos h', if_pos (by omega)]
    · rw [if_neg h, if_neg h', if_neg (by omega)]

/-- The block-table entries a read up to position `last` may look at are those of existing
    blocks. -/
def ValidBlocks (inode last : Nat) : Prop :=
  ∀ k, k ≤ last / blockSize → I.blocks inode k < I.nDataBlocks

/-! ## The state of the loop -/

/-- The loop state after `numReads` bytes of the file from `offset` on. -/
structure Tracks (inode offset : Nat) (s : ReadState) : Prop where
  bufPos : s.bufPos = s.numReads
  currBlock : s.currBlock = (offset + s.numReads) / blockSize
  locationInBlock : s.locationInBlock = (offset + s.numReads) % blockSize
  currReadPos : s.currReadPos = I.dataBlocks
    + I.blocks inode ((offset + s.numReads) / blockSize) * blockSize
    + (offset + s.numReads) % blockSize
  buf : s.buf = I.fileBytes inode offset s.numReads

theorem tracks_readStart : I.Tracks inode offset (I.readStart inode offset) where
  bufPos := rfl
  currBlock := rfl
  locationInBlock := rfl
  currReadPos := rfl
  buf := I.fileBytes_zero.symm

variable {I}

theorem Tracks.copyByte_buf {s : ReadState} (h : I.Tracks inode offset s) :
    (I.copyByte s).buf = I.fileBytes inode offset (s.numReads + 1) := by
  have hbyte : I.byte s.currReadPos = I.fileByte inode (offset + s.numReads) := by
    rw [h.currReadPos]
    rfl
  simp only [copyByte, h.bufPos, h.buf, hbyte, fileBytes_put]

/-- Inside a block the pointer just moves on. -/
theorem Tracks.copyByte {s : ReadState} (h : I.Tracks inode offset s)
    (hloc : s.locationInBlock + 1 < blockSize) : I.Tracks inode offset (I.copyByte s) := by
  have hl := h.locationInBlock
  have hdiv : (offset + (s.numReads + 1)) / blockSize = (offset + s.numReads) / blockSize := by
    simp only [blockSize] at *
    omega
  have hmod : (offset + (s.numReads + 1)) % blockSize = (offset + s.numReads) % blockSize + 1 := by
    simp only [blockSize] at *
    omega
  refine ⟨congrArg (· + 1) h.bufPos, ?_, ?_, ?_, h.copyByte_buf⟩
  · simp only [Image.copyByte, hdiv, h.currBlock]
  · simp only [Image.copyByte, hmod, h.locationInBlock]
  · simp only [Image.copyByte, hdiv, hmod, h.currReadPos]
    omega

/-- At the end of a block the pointer is computed anew from the next entry of the block table. -/
theorem Tracks.nextBlock {s : ReadState} (h : I.Tracks inode offset s)
    (hloc : blockSize ≤ s.locationInBlock + 1) :
    I.Tracks inode offset { I.copyByte s with
      locationInBlock := 0
      currBlock := s.currBlock + 1
      currReadPos := I.dataBlocks + I.blocks inode (s.currBlock + 1) * blockSize } := by
  have hl := h.locationInBlock
  have hdiv : (offset + (s.numReads + 1)) / blockSize = (offset + s.numReads) / blockSize + 1 := by
    simp only [blockSize] at *
    omega
  have hmod : (offset + (s.numReads + 1)) % blockSize = 0 := by
    simp only [blockSize] at *
    omega
  refine ⟨congrArg (· + 1) h.bufPos, ?_, ?_, ?_, h.copyByte_buf⟩
  · simp only [Image.copyByte, hdiv, h.currBlock]
  · simp only [Image.copyByte, hmod]
  · simp only [Image.copyByte, hdiv, hmod, h.currBlock, Nat.add_zero]

/-- The state after `m` bytes. -/
def stateAt (I : Image) (inode offset m : Nat) : ReadState where
  numReads := m
  bufPos := m
  currReadPos := I.dataBlocks + I.blocks inode ((offset + m) / blockSize) * blockSize
    + (offset + m) % blockSize
  locationInBlock := (offset + m) % blockSize
  currBlock := (offset + m) / blockSize
  buf := I.fileBytes inode offset m

theorem tracks_stateAt (m : Nat) : I.Tracks inode offset (I.stateAt inode offset m) :=
  ⟨rfl, rfl, rfl, rfl, rfl⟩

theorem Tracks.eq_stateAt {s : ReadState} (h : I.Tracks inode offset s) :
    s = I.stateAt inode offset s.numReads := by
  obtain ⟨hpos, hblock, hloc, hread, hbuf⟩ := h
  cases s
  simp only at hpos hblock hloc hread hbuf
  simp only [stateAt, hpos, hblock, hloc, hread, hbuf]

theorem readStart_eq_stateAt : I.readStart inode offset = I.stateAt inode offset 0 :=
  I.tracks_readStart.eq_stateAt

/-! ## One turn -/

/-- The byte number `m` of the call lies behind the end of the file. -/
def PastEnd (I : Image) (inode offset m : Nat) : Prop :=
  I.fileSize inode < (offset + (m + 1)) % 0x100000000

/-- A block ends with byte number `m` of the call, and the next entry of the table is not the number of
    a block. -/
def BadEntry (I : Image) (inode offset m : Nat) : Prop :=
  (offset + (m + 1)) % blockSize = 0 ∧
    I.nDataBlocks ≤ I.blocks inode ((offset + (m + 1)) / blockSize)

/-- The loop goes on when it has copied byte number `m`. -/
def GoesOn (I : Image) (inode offset m : Nat) : Prop :=
  ¬ I.PastEnd inode offset m ∧ ¬ I.BadEntry inode offset m

instance (m : Nat) : Decidable (I.PastEnd inode offset m) := inferInstanceAs (Decidable (_ < _))

instance (m : Nat) : Decidable (I.BadEntry inode offset m) := inferInstanceAs (Decidable (_ ∧ _))

instance (m : Nat) : Decidable (I.GoesOn inode offset m) := inferInstanceAs (Decidable (_ ∧ _))

theorem fileSize_lt (I : Image) (inode : Nat) : I.fileSize inode < 0x100000000 := I.byte.word_lt _

section

variable {m fuel : Nat}

/-- Up to the end of the file the loop does not stop for the end. -/
theorem not_pastEnd (h : offset + (m + 1) ≤ I.fileSize inode) : ¬ I.PastEnd inode offset m := by
  have hsize := I.fileSize_lt inode
  unfold PastEnd
  omega

/-- The loop does not get past the byte behind the file, unless the file is as long as can be. -/
theorem pastEnd_of_eq (h : offset + m = I.fileSize inode) (hsize : I.fileSize inode < 0xffffffff) :
    I.PastEnd inode offset m := by
  unfold PastEnd
  omega

theorem le_of_goesOn (hoff : offset < I.fileSize inode) (hsize : I.fileSize inode < 0xffffffff)
    (hgo : ∀ i < m, I.GoesOn inode offset i) : offset + m ≤ I.fileSize inode := by
  by_contra hgt
  exact (hgo (I.fileSize inode - offset) (by omega)).1 (pastEnd_of_eq (by omega) hsize)

theorem le_of_pastEnd (h : I.PastEnd inode offset m) : I.fileSize inode ≤ offset + m := by
  by_contra hlt
  exact not_pastEnd (by omega) h

/-- A loop that has passed the end of a block has found its next entry good. -/
theorem lt_nDataBlocks_of_goesOn {k : Nat} (hgo : ∀ i < m, I.GoesOn inode offset i)
    (hk : offset < k * blockSize) (hkm : k * blockSize ≤ offset + m) :
    I.blocks inode k < I.nDataBlocks := by
  have hturn := (hgo (k * blockSize - offset - 1) (by omega)).2
  rw [BadEntry, show offset + (k * blockSize - offset - 1 + 1) = k * blockSize by omega,
    Nat.mul_mod_left, Nat.mul_div_cancel _ (by decide)] at hturn
  exact not_le.1 fun hle => hturn ⟨rfl, hle⟩

theorem blockEnd_iff : blockSize ≤ (I.copyByte (I.stateAt inode offset m)).locationInBlock ↔
    (offset + (m + 1)) % blockSize = 0 := by
  simp only [copyByte, stateAt, blockSize]
  omega

theorem next_of_inside (h : ¬ (offset + (m + 1)) % blockSize = 0) :
    I.copyByte (I.stateAt inode offset m) = I.stateAt inode offset (m + 1) := by
  refine ((tracks_stateAt m).copyByte ?_).eq_stateAt
  simp only [stateAt, blockSize] at *
  omega

theorem next_of_blockEnd (I : Image) (inode : Nat) (h : (offset + (m + 1)) % blockSize = 0) :
    (offset + m) / blockSize + 1 = (offset + (m + 1)) / blockSize ∧
      { I.copyByte (I.stateAt inode offset m) with
        locationInBlock := 0
        currBlock := (offset + m) / blockSize + 1
        currReadPos := I.dataBlocks + I.blocks inode ((offset + m) / blockSize + 1) * blockSize } =
        I.stateAt inode offset (m + 1) := by
  constructor
  · simp only [blockSize] at *
    omega
  · refine ((tracks_stateAt m).nextBlock ?_).eq_stateAt
    exact blockEnd_iff.2 h

theorem readLoop_pastEnd (hlt : m < length) (h : I.PastEnd inode offset m) :
    I.readLoop inode offset length (fuel + 1) (I.stateAt inode offset m) =
      { ret := toInt32 (m + 1), buf := I.fileBytes inode offset (m + 1) } := by
  rw [readLoop, if_pos (show (I.stateAt inode offset m).numReads < length from hlt)]
  dsimp only
  rw [if_pos (show I.fileSize inode < (offset + (I.copyByte (I.stateAt inode offset m)).numReads) %
    0x100000000 from h), (tracks_stateAt m).copyByte_buf]
  rfl

theorem readLoop_badEntry (hlt : m < length) (hend : ¬ I.PastEnd inode offset m)
    (h : I.BadEntry inode offset m) :
    I.readLoop inode offset length (fuel + 1) (I.stateAt inode offset m) =
      { ret := -1, buf := I.fileBytes inode offset (m + 1) } := by
  have hnext := (next_of_blockEnd I inode h.1).1
  rw [readLoop, if_pos (show (I.stateAt inode offset m).numReads < length from hlt)]
  dsimp only
  rw [if_neg (show ¬ I.fileSize inode < (offset + (I.copyByte (I.stateAt inode offset m)).numReads) %
    0x100000000 from hend), if_pos (blockEnd_iff.2 h.1), (tracks_stateAt m).copyByte_buf, if_pos]
  · rfl
  · show I.nDataBlocks ≤ I.blocks inode ((offset + m) / blockSize + 1)
    rw [hnext]
    exact h.2

theorem readLoop_goesOn (hlt : m < length) (h : I.GoesOn inode offset m) :
    I.readLoop inode offset length (fuel + 1) (I.stateAt inode offset m) =
      I.readLoop inode offset length fuel (I.stateAt inode offset (m + 1)) := by
  rw [readLoop, if_pos (show (I.stateAt inode offset m).numReads < length from hlt)]
  dsimp only
  rw [if_neg (show ¬ I.fileSize inode < (offset + (I.copyByte (I.stateAt inode offset m)).numReads) %
    0x100000000 from h.1)]
  by_cases hblock : (offset + (m + 1)) % blockSize = 0
  · obtain ⟨hnext, hstate⟩ := next_of_blockEnd I inode hblock
    rw [if_pos (blockEnd_iff.2 hblock), if_neg]
    · exact congrArg _ hstate
    · show ¬ I.nDataBlocks ≤ I.blocks inode ((offset + m) / blockSize + 1)
      rw [hnext]
      exact fun hbad => h.2 ⟨hblock, hbad⟩
  · rw [if_neg (fun hle => hblock (blockEnd_iff.1 hle)), next_of_inside hblock]

/-- The loads of one turn and of those after it. -/
theorem traceLoop_stateAt (hlt : m < length) :
    I.traceLoop inode offset length (fuel + 1) (I.stateAt inode offset m) =
      .copy m ((offset + m) / blockSize) (I.dataBlocks +
          I.blocks inode ((offset + m) / blockSize) * blockSize + (offset + m) % blockSize) ::
        (if ¬ I.PastEnd inode offset m ∧ (offset + (m + 1)) % blockSize = 0 then
          [.entry ((offset + (m + 1)) / blockSize)] else []) ++
        if I.GoesOn inode offset m then
          I.traceLoop inode offset length fuel (I.stateAt inode offset (m + 1))
        else [] := by
  rw [traceLoop, if_pos (show (I.stateAt inode offset m).numReads < length from hlt)]
  refine congrArg _ ?_
  dsimp only
  by_cases hend : I.PastEnd inode offset m
  · rw [if_pos (show I.fileSize inode < (offset + (I.copyByte (I.stateAt inode offset m)).numReads) %
      0x100000000 from hend), if_neg (fun h => h.1 hend), if_neg (fun h => h.1 hend)]
    rfl
  · rw [if_neg (show ¬ I.fileSize inode < (offset + (I.copyByte (I.stateAt inode offset m)).numReads) %
      0x100000000 from hend)]
    by_cases hblock : (offset + (m + 1)) % blockSize = 0
    · obtain ⟨hnext, hstate⟩ := next_of_blockEnd I inode hblock
      have hturn : ¬ I.PastEnd inode offset m ∧ (offset + (m + 1)) % blockSize = 0 := ⟨hend, hblock⟩
      dsimp only at hstate
      rw [if_pos (blockEnd_iff.2 hblock), if_pos hturn,
        show (I.copyByte (I.stateAt inode offset m)).currBlock = (offset + m) / blockSize from rfl,
        hstate, hnext]
      refine congrArg _ ?_
      by_cases hbad : I.nDataBlocks ≤ I.blocks inode ((offset + (m + 1)) / blockSize)
      · rw [if_pos hbad, if_neg (fun h => h.2 ⟨hblock, hbad⟩)]
        rfl
      · have hgo : I.GoesOn inode offset m := ⟨hend, fun h => hbad h.2⟩
        rw [if_neg hbad, if_pos hgo]
        rfl
    · rw [if_neg (fun hle => hblock (blockEnd_iff.1 hle)), next_of_inside hblock,
        if_neg (fun h => hblock h.2),
        if_pos (show I.GoesOn inode offset m from ⟨hend, fun h => hblock h.1⟩)]
      rfl

end

/-! ## The whole loop -/

/-- How a call ends: with the byte it was asked for last, one byte behind the end of the file, or at an
    entry that is not the number of a block. -/
inductive ReadOutcome (I : Image) (inode offset length : Nat) : ReadResult → Prop
  | full : (∀ i < length, I.GoesOn inode offset i) →
      ReadOutcome I inode offset length
        { ret := toInt32 length, buf := I.fileBytes inode offset length }
  | pastEnd {m : Nat} : m < length → (∀ i < m, I.GoesOn inode offset i) →
      I.PastEnd inode offset m →
      ReadOutcome I inode offset length
        { ret := toInt32 (m + 1), buf := I.fileBytes inode offset (m + 1) }
  | badEntry {m : Nat} : m < length → (∀ i < m, I.GoesOn inode offset i) →
      ¬ I.PastEnd inode offset m → I.BadEntry inode offset m →
      ReadOutcome I inode offset length { ret := -1, buf := I.fileBytes inode offset (m + 1) }

theorem readLoop_outcome : ∀ (fuel m : Nat), m + fuel = length →
    (∀ i < m, I.GoesOn inode offset i) →
    I.ReadOutcome inode offset length
      (I.readLoop inode offset length fuel (I.stateAt inode offset m)) := by
  intro fuel
  induction fuel with
  | zero =>
      intro m hfuel hgo
      obtain rfl : m = length := hfuel
      exact .full hgo
  | succ fuel ih =>
      intro m hfuel hgo
      have hlt : m < length := by omega
      by_cases hend : I.PastEnd inode offset m
      · rw [readLoop_pastEnd hlt hend]
        exact .pastEnd hlt hgo hend
      · by_cases hbad : I.BadEntry inode offset m
        · rw [readLoop_badEntry hlt hend hbad]
          exact .badEntry hlt hgo hend hbad
        · rw [readLoop_goesOn hlt ⟨hend, hbad⟩]
          refine ih (m + 1) (by omega) fun i hi => ?_
          rcases Nat.lt_succ_iff_lt_or_eq.1 hi with hi | rfl
          · exact hgo i hi
          · exact ⟨hend, hbad⟩

/-- **What a call of `read_data` can do** when there is something to read. -/
theorem readData_outcome (length : Nat) (hinode : inode < I.nInodes) (hoff : offset < I.fileSize inode) :
    I.ReadOutcome inode offset length (I.readData inode offset length) := by
  rw [readData, if_neg (by omega), if_neg (by omega), readStart_eq_stateAt]
  exact readLoop_outcome length 0 (Nat.zero_add _) fun i hi => absurd hi (Nat.not_lt_zero i)

/-- The call copies byte number `j`. -/
def Copies (I : Image) (inode offset length j : Nat) : Prop :=
  inode < I.nInodes ∧ offset < I.fileSize inode ∧ j < length ∧ ∀ i < j, I.GoesOn inode offset i

theorem buf_readData (j : Nat) (c : UInt8) :
    (I.readData inode offset length).buf j = some c ↔
      I.Copies inode offset length j ∧ I.fileByte inode (offset + j) = c := by
  have hbytes : ∀ n, I.fileBytes inode offset n j = some c ↔
      j < n ∧ I.fileByte inode (offset + j) = c := by
    intro n
    rw [fileBytes]
    split
    · rename_i hj
      rw [Option.some.injEq]
      exact ⟨fun h => ⟨hj, h⟩, And.right⟩
    · rename_i hj
      simp [hj]
  by_cases hread : inode < I.nInodes ∧ offset < I.fileSize inode
  · have hcases := readData_outcome length hread.1 hread.2
    generalize I.readData inode offset length = r at hcases
    cases hcases with
    | full hgo =>
        rw [hbytes]
        exact and_congr_left fun _ =>
          ⟨fun hj => ⟨hread.1, hread.2, hj, fun i hi => hgo i (by omega)⟩, fun h => h.2.2.1⟩
    | pastEnd hlt hgo hend =>
        rw [hbytes]
        refine and_congr_left fun _ => ⟨fun hj => ?_, fun h => not_le.1 fun hle => ?_⟩
        · exact ⟨hread.1, hread.2, by omega, fun i hi => hgo i (by omega)⟩
        · exact (h.2.2.2 _ hle).1 hend
    | badEntry hlt hgo hend hbad =>
        rw [hbytes]
        refine and_congr_left fun _ => ⟨fun hj => ?_, fun h => not_le.1 fun hle => ?_⟩
        · exact ⟨hread.1, hread.2, by omega, fun i hi => hgo i (by omega)⟩
        · exact (h.2.2.2 _ hle).2 hbad
  · have hbuf : (I.readData inode offset length).buf = .empty := by
      unfold readData
      split
      · rfl
      · rw [if_pos (by omega)]
    rw [hbuf]
    refine iff_of_false (by simp) fun h => hread ⟨h.1.1, h.1.2.1⟩

/-! ## The loads -/

theorem copy_mem_traceLoop {b k a : Nat} : ∀ (fuel m : Nat), m + fuel = length →
    (.copy b k a ∈ I.traceLoop inode offset length fuel (I.stateAt inode offset m) ↔
      (m ≤ b ∧ b < length ∧ ∀ i, m ≤ i → i < b → I.GoesOn inode offset i) ∧
        k = (offset + b) / blockSize ∧
        a = I.dataBlocks + I.blocks inode ((offset + b) / blockSize) * blockSize +
          (offset + b) % blockSize) := by
  intro fuel
  induction fuel with
  | zero =>
      intro m hfuel
      refine iff_of_false (by simp [traceLoop]) fun h => ?_
      omega
  | succ fuel ih =>
      intro m hfuel
      have hlt : m < length := by omega
      have hentry : ∀ (p : Prop) [Decidable p] (e : Nat),
          ReadEvent.copy b k a ∉ if p then [ReadEvent.entry e] else [] := by
        intro p _ e
        split <;> simp
      rw [traceLoop_stateAt hlt, List.mem_append, List.mem_cons, ReadEvent.copy.injEq]
      constructor
      · rintro ((⟨rfl, rfl, rfl⟩ | h) | h)
        · exact ⟨⟨le_rfl, hlt, fun i h₁ h₂ => by omega⟩, rfl, rfl⟩
        · exact absurd h (hentry _ _)
        · split at h
          · rename_i hgo
            obtain ⟨⟨hle, hb, hall⟩, hk, ha⟩ := (ih (m + 1) (by omega)).1 h
            refine ⟨⟨by omega, hb, fun i h₁ h₂ => ?_⟩, hk, ha⟩
            rcases Nat.eq_or_lt_of_le h₁ with rfl | h₁
            · exact hgo
            · exact hall i h₁ h₂
          · simp at h
      · rintro ⟨⟨hle, hb, hall⟩, rfl, rfl⟩
        rcases Nat.eq_or_lt_of_le hle with rfl | hle
        · exact .inl (.inl ⟨rfl, rfl, rfl⟩)
        · refine .inr ?_
          rw [if_pos (hall m le_rfl hle)]
          exact (ih (m + 1) (by omega)).2 ⟨⟨hle, hb, fun i h₁ h₂ => hall i (by omega) h₂⟩, rfl, rfl⟩

theorem entry_mem_traceLoop {k : Nat} : ∀ (fuel m : Nat), m + fuel = length →
    (.entry k ∈ I.traceLoop inode offset length fuel (I.stateAt inode offset m) ↔
      ∃ j, m ≤ j ∧ j < length ∧ (∀ i, m ≤ i → i < j → I.GoesOn inode offset i) ∧
        ¬ I.PastEnd inode offset j ∧ offset + (j + 1) = k * blockSize) := by
  intro fuel
  induction fuel with
  | zero =>
      intro m hfuel
      refine iff_of_false (by simp [traceLoop]) fun ⟨j, h₁, h₂, _⟩ => ?_
      omega
  | succ fuel ih =>
      intro m hfuel
      have hlt : m < length := by omega
      have hentry : ReadEvent.entry k ∈ (if ¬ I.PastEnd inode offset m ∧
          (offset + (m + 1)) % blockSize = 0 then
            [ReadEvent.entry ((offset + (m + 1)) / blockSize)] else []) ↔
          ¬ I.PastEnd inode offset m ∧ offset + (m + 1) = k * blockSize := by
        split
        · rename_i hturn
          rw [List.mem_singleton, ReadEvent.entry.injEq]
          have hblock := hturn.2
          constructor
          · rintro rfl
            exact ⟨hturn.1, by simp only [blockSize] at *; omega⟩
          · rintro ⟨-, hk⟩
            simp only [blockSize] at *
            omega
        · rename_i hturn
          refine iff_of_false (by simp) fun ⟨hend, hk⟩ => hturn ⟨hend, ?_⟩
          rw [hk, Nat.mul_mod_left]
      rw [traceLoop_stateAt hlt, List.mem_append, List.mem_cons, hentry]
      constructor
      · rintro ((h | ⟨hend, hk⟩) | h)
        · simp at h
        · exact ⟨m, le_rfl, hlt, fun i h₁ h₂ => by omega, hend, hk⟩
        · split at h
          · rename_i hgo
            obtain ⟨j, hle, hj, hall, hend, hk⟩ := (ih (m + 1) (by omega)).1 h
            refine ⟨j, by omega, hj, fun i h₁ h₂ => ?_, hend, hk⟩
            rcases Nat.eq_or_lt_of_le h₁ with rfl | h₁
            · exact hgo
            · exact hall i h₁ h₂
          · simp at h
      · rintro ⟨j, hle, hj, hall, hend, hk⟩
        rcases Nat.eq_or_lt_of_le hle with rfl | hle
        · exact .inl (.inr ⟨hend, hk⟩)
        · refine .inr ?_
          rw [if_pos (hall m le_rfl hle)]
          exact (ih (m + 1) (by omega)).2
            ⟨j, hle, hj, fun i h₁ h₂ => hall i (by omega) h₂, hend, hk⟩

/-- **Where the bytes come from:** byte number `b` from the block that the entry of its position names. -/
theorem copy_mem_trace {b k a : Nat} : .copy b k a ∈ I.trace inode offset length ↔
    I.Copies inode offset length b ∧ k = (offset + b) / blockSize ∧
      a = I.dataBlocks + I.blocks inode ((offset + b) / blockSize) * blockSize +
        (offset + b) % blockSize := by
  unfold trace Copies
  by_cases hinode : inode ≥ I.nInodes
  · rw [if_pos hinode]
    exact iff_of_false (by simp) fun h => absurd h.1.1 (by omega)
  · rw [if_neg hinode]
    by_cases hoff : offset ≥ I.fileSize inode
    · rw [if_pos hoff]
      exact iff_of_false (by simp) fun h => absurd h.1.2.1 (by omega)
    · rw [if_neg hoff, readStart_eq_stateAt, List.mem_cons,
        copy_mem_traceLoop length 0 (Nat.zero_add _)]
      refine (or_iff_right (by simp)).trans (and_congr_left fun _ => ?_)
      constructor
      · rintro ⟨-, hb, hall⟩
        exact ⟨by omega, by omega, hb, fun i hi => hall i (Nat.zero_le _) hi⟩
      · rintro ⟨-, -, hb, hall⟩
        exact ⟨Nat.zero_le _, hb, fun i _ hi => hall i hi⟩

/-- **Which entries of the block table a call looks at:** the one of its first position, and the next
    one whenever a block has been copied to its end. -/
theorem entry_mem_trace {k : Nat} : .entry k ∈ I.trace inode offset length ↔
    inode < I.nInodes ∧ offset < I.fileSize inode ∧ (k = offset / blockSize ∨
      ∃ j, I.Copies inode offset length j ∧ ¬ I.PastEnd inode offset j ∧
        offset + (j + 1) = k * blockSize) := by
  unfold trace Copies
  by_cases hinode : inode ≥ I.nInodes
  · rw [if_pos hinode]
    exact iff_of_false (by simp) fun h => absurd h.1 (by omega)
  · rw [if_neg hinode]
    by_cases hoff : offset ≥ I.fileSize inode
    · rw [if_pos hoff]
      exact iff_of_false (by simp) fun h => absurd h.2.1 (by omega)
    · rw [if_neg hoff, readStart_eq_stateAt, List.mem_cons, ReadEvent.entry.injEq,
        entry_mem_traceLoop length 0 (Nat.zero_add _)]
      have hinode' : inode < I.nInodes := by omega
      have hoff' : offset < I.fileSize inode := by omega
      constructor
      · rintro (hk | ⟨j, -, hj, hall, hend, hk⟩)
        · exact ⟨hinode', hoff', .inl hk⟩
        · exact ⟨hinode', hoff', .inr
            ⟨j, ⟨hinode', hoff', hj, fun i hi => hall i (Nat.zero_le _) hi⟩, hend, hk⟩⟩
      · rintro ⟨-, -, hk | ⟨j, ⟨-, -, hj, hall⟩, hend, hk⟩⟩
        · exact .inl hk
        · exact .inr ⟨j, Nat.zero_le _, hj, fun i _ hi => hall i hi, hend, hk⟩

end Image

end Gyarados

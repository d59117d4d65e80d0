import Gyarados.Foundation.Search
import Gyarados.Lib.Str

set_option autoImplicit false

/-! # The read-only file system (`fs/files.c`)

The boot module lies in memory as it is on disk: a boot block whose first 64 bytes `fs_init`
copies to `b`, 64-byte directory entries right behind these, then one 4 KB record for each inode
and the data blocks. Nothing writes the image, so it is a parameter here. The C code computes
addresses in it with 32-bit pointers and never asks whether they stay inside; the model reads
whatever memory holds there. -/

namespace Gyarados

abbrev blockSize : Nat := 0x1000

structure Image where
  /-- Memory as the kernel reads it. -/
  mem : Memory
  /-- `b_block_addrs`, the address given to `fs_init`. -/
  bBlockAddrs : Nat

/-- What a lookup stores into the caller's `dentry_t`. -/
structure Dentry where
  /-- The bytes `strncpy` stores into `file_name`. -/
  fileName : List UInt8
  fileType : Nat
  inodeNum : Nat
  deriving DecidableEq, Repr

/-- What `read_data` returns and what it stored into the buffer. -/
structure ReadResult where
  ret : Int
  buf : Stores

/-- A read through a descriptor also moves its `file_position`. -/
structure DescRead where
  ret : Int
  buf : Stores
  filePosition : Nat

/-- The locals of `read_data`'s copying loop, and its buffer. -/
structure ReadState where
  numReads : Nat
  bufPos : Nat
  currReadPos : Nat
  locationInBlock : Nat
  currBlock : Nat
  buf : Stores

namespace Image

variable (I : Image)

/-- A load through a 32-bit pointer. -/
def byte : Memory := fun a => I.mem (a % 0x100000000)

/-! ## Layout (`fs_init`) -/

def nDentries : Nat := I.byte.word I.bBlockAddrs

def nInodes : Nat := I.byte.word (I.bBlockAddrs + 4)

def nDataBlocks : Nat := I.byte.word (I.bBlockAddrs + 8)

def dentries : Nat := I.bBlockAddrs + 64

def inodes : Nat := I.bBlockAddrs + blockSize

def dataBlocks : Nat := I.bBlockAddrs + I.nInodes * blockSize + blockSize

/-- `dentries[i].file_name` as a string. A name without a NUL runs on into the fields behind it; the
    scan gives up after a whole address space, where the C loop would not end. -/
def dentryName (i : Nat) : List UInt8 := I.byte.stringAt (I.dentries + 64 * i) 0x100000000

def dentryType (i : Nat) : Nat := I.byte.word (I.dentries + 64 * i + 32)

def dentryInode (i : Nat) : Nat := I.byte.word (I.dentries + 64 * i + 36)

/-- `inodes[inode].file_size` -/
def fileSize (inode : Nat) : Nat := I.byte.word (I.inodes + blockSize * inode)

/-- `inodes[inode].blocks[k]` -/
def blocks (inode k : Nat) : Nat := I.byte.word (I.inodes + blockSize * inode + 4 + 4 * k)

/-- Byte `j` of data block `b`. -/
def dataByte (b j : Nat) : UInt8 := I.byte (I.dataBlocks + b * blockSize + j)

/-! ## Directory lookup -/

/-- The search loop of `read_dentry_by_name` over the `n` entries from `i` on. -/
def readDentryFrom (fname : List UInt8) : Nat → Nat → Option Dentry
  | 0, _ => none
  | n + 1, i =>
      if fname.length = (I.dentryName i).length then
        if strncmp (I.dentryName i) fname (min fname.length 31) = 0 then
          some {
            fileName := strncpy (I.dentryName i) (min fname.length 31)
            fileType := I.dentryType i
            inodeNum := I.dentryInode i }
        else readDentryFrom fname n (i + 1)
      else readDentryFrom fname n (i + 1)

/-- `read_dentry_by_name`; `none` is the return value -1, which leaves the caller's dentry alone. -/
def readDentryByName (fname : List UInt8) : Option Dentry :=
  I.readDentryFrom fname I.nDentries 0

/-- `read_dentry_by_index` -/
def readDentryByIndex (index : Nat) : Option Dentry :=
  if index ≥ I.nDentries then none
  else some {
    fileName := strncpy (I.dentryName index) 32
    fileType := I.dentryType index
    inodeNum := I.dentryInode index }

/-! ## Reading file data -/

/-- `buf[buf_pos] = *curr_read_pos` and the four increments after it. -/
def copyByte (s : ReadState) : ReadState where
  numReads := s.numReads + 1
  bufPos := s.bufPos + 1
  currReadPos := s.currReadPos + 1
  locationInBlock := s.locationInBlock + 1
  currBlock := s.currBlock
  buf := s.buf.put s.bufPos (I.byte s.currReadPos)

/-- The copying loop. `num_reads` grows by one each time round, so `fuel = length` turns are
    enough. -/
def readLoop (inode offset length : Nat) : Nat → ReadState → ReadResult
  | 0, s => { ret := toInt32 s.numReads, buf := s.buf }
  | fuel + 1, s =>
      if s.numReads < length then
        let s := I.copyByte s
        -- the test comes after the store: the byte behind the end has been copied by now
        if I.fileSize inode < (offset + s.numReads) % 0x100000000 then
          { ret := toInt32 s.numReads, buf := s.buf }
        else if blockSize ≤ s.locationInBlock then
          -- what has been stored so far stays in the buffer
          if I.nDataBlocks ≤ I.blocks inode (s.currBlock + 1) then { ret := -1, buf := s.buf }
          else
            readLoop inode offset length fuel
              { s with
                locationInBlock := 0
                currBlock := s.currBlock + 1
                currReadPos := I.dataBlocks + I.blocks inode (s.currBlock + 1) * blockSize }
        else readLoop inode offset length fuel s
      else { ret := toInt32 s.numReads, buf := s.buf }

/-- The locals of `read_data` at the head of the loop. -/
def readStart (inode offset : Nat) : ReadState where
  numReads := 0
  bufPos := 0
  currReadPos := I.dataBlocks + I.blocks inode (offset / blockSize) * blockSize + offset % blockSize
  locationInBlock := offset % blockSize
  currBlock := offset / blockSize
  buf := .empty

/-- `read_data` -/
def readData (inode offset length : Nat) : ReadResult :=
  if inode ≥ I.nInodes then { ret := -1, buf := .empty }
  else if offset ≥ I.fileSize inode then { ret := 0, buf := .empty }
  else I.readLoop inode offset length length (I.readStart inode offset)

/-- `fs_read` on a descriptor that holds the name `fname` and stands at `filePosition`. -/
def fsRead (fname : List UInt8) (filePosition : Nat) (nbytes : Int) : DescRead :=
  match I.readDentryByName fname with
  | none => { ret := -1, buf := .empty, filePosition }
  | some temp =>
      let r := I.readData temp.inodeNum filePosition (ofInt32 nbytes)
      { ret := r.ret, buf := r.buf, filePosition := ofInt32 (filePosition + r.ret) }

/-- `copy_file_to_addr`: 0 or -1, and the bytes stored from the address on. -/
def copyFileToAddr (fname : List UInt8) : ReadResult :=
  match I.readDentryByName fname with
  | none => { ret := -1, buf := .empty }
  | some temp =>
      let r := I.readData temp.inodeNum 0 (I.fileSize temp.inodeNum)
      { ret := if r.ret = -1 then -1 else 0, buf := r.buf }

/-- The search loop of `autocomplete_command` over the `n` entries from `i` on. -/
def autocompleteFrom (currText : List UInt8) : Nat → Nat → Option (List UInt8)
  | 0, _ => none
  | n + 1, i =>
      if strncmp (I.dentryName i) currText currText.length = 0 then some (I.dentryName i)
      else autocompleteFrom currText n (i + 1)

/-- `autocomplete_command`; `none` is `(char *) -1`. -/
def autocompleteCommand (currText : List UInt8) : Option (List UInt8) :=
  I.autocompleteFrom currText I.nDentries 0

/-- `get_inode`: adding to an `inode_t *` counts in inode records, which are 4 KB each. -/
def getInode (inodeNum : Nat) : Nat :=
  (I.inodes + inodeNum * blockSize * blockSize) % 0x100000000

/-- `dir_read`; its `length` argument is not looked at. -/
def dirRead (filePosition : Nat) : DescRead :=
  if filePosition ≥ I.nDentries then { ret := 0, buf := .empty, filePosition := 0 }
  else
    let name := I.dentryName filePosition
    { ret := toInt32 name.length
      buf := fun i => (name ++ [0])[i]?
      filePosition := (filePosition + 1) % 0x100000000 }

/-! ## What a lookup finds -/

/-- The test of the search loop: the lengths agree, and so do the first 31 bytes. -/
def NameMatches (fname : List UInt8) (i : Nat) : Prop :=
  fname.length = (I.dentryName i).length ∧
    strncmp (I.dentryName i) fname (min fname.length 31) = 0

instance (fname : List UInt8) : DecidablePred (I.NameMatches fname) := fun i =>
  inferInstanceAs (Decidable (fname.length = (I.dentryName i).length ∧
    strncmp (I.dentryName i) fname (min fname.length 31) = 0))

/-- What `read_dentry_by_name` has copied when it stops at entry `i`. -/
def foundDentry (fname : List UInt8) (i : Nat) : Dentry where
  fileName := strncpy (I.dentryName i) (min fname.length 31)
  fileType := I.dentryType i
  inodeNum := I.dentryInode i

/-- The loop stops at the first entry that matches. -/
theorem readDentryByName_eq (fname : List UInt8) : I.readDentryByName fname =
    (firstIndex (I.NameMatches fname) I.nDentries).map (I.foundDentry fname) := by
  refine search_eq_firstIndex (fun i => rfl) (fun n i => ?_) I.nDentries
  show _ = if fname.length = (I.dentryName i).length ∧
    strncmp (I.dentryName i) fname (min fname.length 31) = 0 then _ else _
  rw [ite_and]
  rfl

/-- The test of the loop of `autocomplete_command`. -/
def Completes (currText : List UInt8) (i : Nat) : Prop :=
  strncmp (I.dentryName i) currText currText.length = 0

instance (currText : List UInt8) : DecidablePred (I.Completes currText) := fun i =>
  inferInstanceAs (Decidable (strncmp (I.dentryName i) currText currText.length = 0))

theorem autocompleteCommand_eq (currText : List UInt8) : I.autocompleteCommand currText =
    (firstIndex (I.Completes currText) I.nDentries).map I.dentryName :=
  search_eq_firstIndex (fun i => rfl) (fun n i => by rw [autocompleteFrom]; rfl) I.nDentries

variable {I}

/-- A lookup by name finds an entry of the directory that matches. -/
theorem readDentryByName_eq_some {fname : List UInt8} {d : Dentry}
    (h : I.readDentryByName fname = some d) : ∃ i, i < I.nDentries ∧ I.NameMatches fname i ∧
      d.fileType = I.dentryType i ∧ d.inodeNum = I.dentryInode i := by
  rw [readDentryByName_eq] at h
  obtain ⟨i, hfirst, rfl⟩ := Option.map_eq_some_iff.1 h
  obtain ⟨hi, hmatch, -⟩ := firstIndex_eq_some.1 hfirst
  exact ⟨i, hi, hmatch, rfl, rfl⟩

/-- The name of an entry with a one-byte type is at most 33 bytes long: the second byte of the type
    is NUL. -/
theorem length_dentryName_le {i : Nat} (h : I.dentryType i < 0x100) :
    (I.dentryName i).length ≤ 33 := by
  refine Memory.length_stringAt_le_of_zero _ _ (UInt8.toNat_inj.1 ?_)
  rw [dentryType, Memory.word] at h
  show (I.byte (I.dentries + 64 * i + 32 + 1)).toNat = 0
  omega

end Image

/-! ## A small image -/

def wordBytes (n : Nat) : List UInt8 :=
  [UInt8.ofNat n, UInt8.ofNat (n / 0x100), UInt8.ofNat (n / 0x10000), UInt8.ofNat (n / 0x1000000)]

/-- An image at 1 MB with these directory entries, two inodes and two data blocks: inode 0 is a
    program of 40 bytes in block 0, and inode 1 has 5000 bytes, in block 1 and then in block 0. -/
def sampleImage (entries : List Dentry) : Image where
  bBlockAddrs := 0x100000
  mem a :=
    if a < 0x100000 then 0
    else
      let a := a - 0x100000
      if a < 0x40 then (wordBytes entries.length ++ wordBytes 2 ++ wordBytes 2).getD a 0
      else if a < 0x1000 then
        match entries[(a - 0x40) / 0x40]? with
        | none => 0
        | some d =>
            (strncpy d.fileName 32 ++ wordBytes d.fileType ++ wordBytes d.inodeNum).getD
              (a % 0x40) 0
      else if a < 0x2000 then (wordBytes 40 ++ wordBytes 0).getD (a - 0x1000) 0
      else if a < 0x3000 then (wordBytes 5000 ++ wordBytes 1 ++ wordBytes 0).getD (a - 0x2000) 0
      else if a < 0x4000 then
        ([0x7f, 0x45, 0x4c, 0x46] ++ List.replicate 20 0 ++ wordBytes 0x08048094).getD
          (a - 0x3000) 0
      else UInt8.ofNat a

/-- An image at 1 MB with two data blocks and one file, a program `shell` of this size with this block
    table. Its header is at the head of block 0. -/
def shellImage (fileSize : Nat) (table : List Nat) : Image where
  bBlockAddrs := 0x100000
  mem a :=
    if a < 0x100000 then 0
    else
      let a := a - 0x100000
      if a < 0x40 then (wordBytes 1 ++ wordBytes 1 ++ wordBytes 2).getD a 0
      else if a < 0x1000 then
        (strncpy (ascii "shell") 32 ++ wordBytes 2 ++ wordBytes 0).getD (a - 0x40) 0
      else if a < 0x2000 then ((fileSize :: table).flatMap wordBytes).getD (a - 0x1000) 0
      else if a < 0x3000 then
        ([0x7f, 0x45, 0x4c, 0x46] ++ List.replicate 20 0 ++ wordBytes 0x08048094).getD
          (a - 0x2000) 0
      else UInt8.ofNat a

end Gyarados

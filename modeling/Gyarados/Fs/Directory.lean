import Gyarados.Fs.Files

set_option autoImplicit false

/-! # Lookups in the directory

`read_dentry_by_name` goes through the entries from the first one on and stops at the first that passes
its test. When every name ends within its 32 bytes, the test says that the names are the same. -/

namespace Gyarados

/-- What the stores of a lookup leave in the caller's `dentry_t`. -/
def Dentry.store (d : Dentry) (dentry : Memory) : Memory :=
  ((dentry.writeBytes 0 d.fileName).setWord 32 d.fileType).setWord 36 d.inodeNum

namespace Dentry

variable {d : Dentry} (dentry : Memory)

theorem store_of_lt_length (hlen : d.fileName.length ≤ 32) {k : Nat} (hk : k < d.fileName.length) :
    d.store dentry k = d.fileName[k] := by
  rw [store, Memory.setWord_of_disjoint _ _ (by omega), Memory.setWord_of_disjoint _ _ (by omega)]
  simpa using Memory.writeBytes_getElem d.fileName dentry 0 k hk

theorem word_fileType_store (h : d.fileType < 0x100000000) : (d.store dentry).word 32 = d.fileType := by
  rw [store, Memory.word_setWord_of_disjoint _ _ (by omega), Memory.word_setWord, Nat.mod_eq_of_lt h]

theorem word_inodeNum_store (h : d.inodeNum < 0x100000000) : (d.store dentry).word 36 = d.inodeNum := by
  rw [store, Memory.word_setWord, Nat.mod_eq_of_lt h]

end Dentry

namespace Image

variable (I : Image)

/-! ## The caller's dentry -/

/-- What `read_dentry_by_index` copies from entry `i`. -/
def indexDentry (i : Nat) : Dentry where
  fileName := strncpy (I.dentryName i) 32
  fileType := I.dentryType i
  inodeNum := I.dentryInode i

/-- `read_dentry_by_name`: the value returned and the caller's `dentry_t`. -/
def readDentryByNameTo (fname : List UInt8) (dentry : Memory) : Int × Memory :=
  match I.readDentryByName fname with
  | none => (-1, dentry)
  | some d => (0, d.store dentry)

/-- `read_dentry_by_index`: the value returned and the caller's `dentry_t`. -/
def readDentryByIndexTo (index : Nat) (dentry : Memory) : Int × Memory :=
  match I.readDentryByIndex index with
  | none => (-1, dentry)
  | some d => (0, d.store dentry)

/-! ## Names that end -/

/-- Every name ends within its 32 bytes. -/
def NamesTerminated : Prop :=
  ∀ i, i < I.nDentries → ∃ k, k < 32 ∧ I.byte (I.dentries + 64 * i + k) = 0

instance : Decidable I.NamesTerminated :=
  inferInstanceAs (Decidable (∀ i, i < I.nDentries →
    ∃ k, k < 32 ∧ I.byte (I.dentries + 64 * i + k) = 0))

/-- No two entries have the same name. -/
def NamesDistinct : Prop :=
  ∀ i, i < I.nDentries → ∀ j, j < I.nDentries → I.dentryName i = I.dentryName j → i = j

instance : Decidable I.NamesDistinct :=
  inferInstanceAs (Decidable (∀ i, i < I.nDentries → ∀ j, j < I.nDentries →
    I.dentryName i = I.dentryName j → i = j))

variable {I}

theorem zero_notMem_dentryName (i : Nat) : (0 : UInt8) ∉ I.dentryName i :=
  Memory.zero_notMem_stringAt _ _ _

theorem NamesTerminated.length_lt (h : I.NamesTerminated) {i : Nat} (hi : i < I.nDentries) :
    (I.dentryName i).length < 32 := by
  obtain ⟨k, hk, hz⟩ := h i hi
  exact Nat.lt_of_le_of_lt (Memory.length_stringAt_le_of_zero _ _ hz) hk

/-- A lookup compares whole names. -/
theorem NamesTerminated.nameMatches_iff (h : I.NamesTerminated) (fname : CString) {i : Nat}
    (hi : i < I.nDentries) : I.NameMatches fname.val i ↔ I.dentryName i = fname.val := by
  have hlen := h.length_lt hi
  constructor
  · rintro ⟨heq, hcmp⟩
    rw [min_eq_left (by omega)] at hcmp
    exact (strncmp_eq_zero_iff_eq (zero_notMem_dentryName i) fname.property heq.ge le_rfl).1 hcmp
  · intro heq
    refine ⟨by rw [heq], ?_⟩
    rw [heq] at hlen
    rw [heq, min_eq_left (by omega)]
    exact (strncmp_eq_zero_iff_eq fname.property fname.property le_rfl le_rfl).2 rfl

/-- The search ends at the first entry of that name. -/
theorem NamesTerminated.readDentryByName_eq (h : I.NamesTerminated) (fname : CString) :
    I.readDentryByName fname.val =
      (firstIndex (fun i => I.dentryName i = fname.val) I.nDentries).map
        (I.foundDentry fname.val) := by
  rw [I.readDentryByName_eq, firstIndex_congr fun i hi => h.nameMatches_iff fname hi]

theorem NamesTerminated.readDentryByName_isSome (h : I.NamesTerminated) (fname : CString) :
    (I.readDentryByName fname.val).isSome = true ↔
      ∃ i, i < I.nDentries ∧ I.dentryName i = fname.val := by
  rw [h.readDentryByName_eq, Option.isSome_map, firstIndex_isSome]

/-! ## Exact lookups -/

variable (I)

/-- Entry `i` is the first one of this name. -/
def FirstNamed (name : List UInt8) (i : Nat) : Prop :=
  i < I.nDentries ∧ I.dentryName i = name ∧ ∀ j < i, I.dentryName j ≠ name

/-- The lookup of a name into a `dentry_t` finds the name itself. -/
structure ExactLookup (fname : CString) (dentry : Memory) : Prop where
  found : (I.readDentryByNameTo fname.val dentry).1 = 0 ↔
    ∃ i, i < I.nDentries ∧ I.dentryName i = fname.val
  first : ∀ i, I.FirstNamed fname.val i →
    (I.readDentryByNameTo fname.val dentry).2.word 32 = I.dentryType i ∧
      (I.readDentryByNameTo fname.val dentry).2.word 36 = I.dentryInode i
  missing : (I.readDentryByNameTo fname.val dentry).1 ≠ 0 →
    I.readDentryByNameTo fname.val dentry = (-1, dentry)

/-- The name that a lookup of entry `i` by index leaves in `dentry` is looked up in `dentry'`. -/
structure IndexAgrees (i : Nat) (dentry dentry' : Memory) : Prop where
  byIndex : (I.readDentryByIndexTo i dentry).1 = 0
  byName : (I.readDentryByNameTo ((I.readDentryByIndexTo i dentry).2.stringAt 0 32) dentry').1 = 0
  fileType : (I.readDentryByNameTo ((I.readDentryByIndexTo i dentry).2.stringAt 0 32) dentry').2.word
    32 = (I.readDentryByIndexTo i dentry).2.word 32
  inodeNum : (I.readDentryByNameTo ((I.readDentryByIndexTo i dentry).2.stringAt 0 32) dentry').2.word
    36 = (I.readDentryByIndexTo i dentry).2.word 36

variable {I}

theorem dentryType_lt (i : Nat) : I.dentryType i < 0x100000000 := Memory.word_lt _ _

theorem dentryInode_lt (i : Nat) : I.dentryInode i < 0x100000000 := Memory.word_lt _ _

theorem NamesTerminated.readDentryByNameTo_first (h : I.NamesTerminated) (fname : CString) {i : Nat}
    (hi : I.FirstNamed fname.val i) (dentry : Memory) :
    I.readDentryByNameTo fname.val dentry = (0, (I.foundDentry fname.val i).store dentry) := by
  have hsearch : firstIndex (fun i => I.dentryName i = fname.val) I.nDentries = some i :=
    firstIndex_eq_some.2 hi
  rw [readDentryByNameTo, h.readDentryByName_eq, hsearch]
  rfl

theorem exactLookup_of_namesTerminated (h : I.NamesTerminated) (fname : CString) (dentry : Memory) :
    I.ExactLookup fname dentry := by
  refine ⟨?_, fun i hi => ?_, fun hne => ?_⟩
  · rw [← h.readDentryByName_isSome, readDentryByNameTo]
    cases I.readDentryByName fname.val <;> simp
  · rw [h.readDentryByNameTo_first fname hi]
    exact ⟨Dentry.word_fileType_store _ (dentryType_lt i),
      Dentry.word_inodeNum_store _ (dentryInode_lt i)⟩
  · revert hne
    rw [readDentryByNameTo]
    cases I.readDentryByName fname.val <;> simp

theorem readDentryByIndexTo_of_lt {i : Nat} (hi : i < I.nDentries) (dentry : Memory) :
    I.readDentryByIndexTo i dentry = (0, (I.indexDentry i).store dentry) := by
  rw [readDentryByIndexTo, readDentryByIndex, if_neg (by omega)]
  rfl

/-- A lookup by index leaves the whole name and a NUL. -/
theorem NamesTerminated.stringAt_byIndex (h : I.NamesTerminated) {i : Nat} (hi : i < I.nDentries)
    (dentry : Memory) : (I.readDentryByIndexTo i dentry).2.stringAt 0 32 = I.dentryName i := by
  have hlen := h.length_lt hi
  have hcopy : (I.indexDentry i).fileName =
      I.dentryName i ++ List.replicate (32 - (I.dentryName i).length) 0 := by
    rw [indexDentry, strncpy, List.take_of_length_le (by omega)]
  have hfull : (I.indexDentry i).fileName.length = 32 := by
    rw [hcopy, List.length_append, List.length_replicate]
    omega
  have hbyte : ∀ k, k < 32 → (I.indexDentry i).fileName[k]? =
      some ((I.indexDentry i).store dentry k) := by
    intro k hk
    have hk' : k < (I.indexDentry i).fileName.length := by omega
    rw [List.getElem?_eq_getElem hk', Dentry.store_of_lt_length dentry hfull.le hk']
  rw [readDentryByIndexTo_of_lt hi]
  refine Memory.stringAt_eq_of_bytes _ 0 32 (zero_notMem_dentryName i) hlen (fun k hk => ?_) ?_
  · have hname := hbyte k (by omega)
    rw [hcopy, List.getElem?_append_left hk, List.getElem?_eq_getElem hk] at hname
    rw [Nat.zero_add]
    exact (Option.some.inj hname).symm
  · have hnul := hbyte _ hlen
    rw [hcopy, List.getElem?_append_right le_rfl, Nat.sub_self,
      List.getElem?_replicate_of_lt (by omega)] at hnul
    rw [Nat.zero_add]
    exact (Option.some.inj hnul).symm

theorem indexAgrees_of_namesTerminated (h : I.NamesTerminated) (hdistinct : I.NamesDistinct) {i : Nat}
    (hi : i < I.nDentries) (dentry dentry' : Memory) : I.IndexAgrees i dentry dentry' := by
  have hfirst : I.FirstNamed (I.dentryName i) i := by
    refine ⟨hi, rfl, fun j hj hname => ?_⟩
    have := hdistinct j (hj.trans hi) i hi hname
    omega
  have hname : I.readDentryByNameTo ((I.readDentryByIndexTo i dentry).2.stringAt 0 32) dentry' =
      (0, (I.foundDentry (I.dentryName i) i).store dentry') := by
    rw [h.stringAt_byIndex hi]
    exact h.readDentryByNameTo_first ⟨_, zero_notMem_dentryName i⟩ hfirst dentry'
  have hindex := readDentryByIndexTo_of_lt hi dentry
  refine ⟨by rw [hindex], by rw [hname], ?_, ?_⟩
  · rw [hname, hindex]
    exact (Dentry.word_fileType_store dentry' (dentryType_lt i)).trans
      (Dentry.word_fileType_store dentry (dentryType_lt i)).symm
  · rw [hname, hindex]
    exact (Dentry.word_inodeNum_store dentry' (dentryInode_lt i)).trans
      (Dentry.word_inodeNum_store dentry (dentryInode_lt i)).symm

/-- **Lookup by name is exact**, and agrees with the lookup by index when the names differ. -/
theorem readDentryByName_exact (h : I.NamesTerminated) :
    (∀ (fname : CString) (dentry : Memory), I.ExactLookup fname dentry) ∧
      (I.NamesDistinct → ∀ i, i < I.nDentries → ∀ dentry dentry' : Memory,
        I.IndexAgrees i dentry dentry') :=
  ⟨exactLookup_of_namesTerminated h, fun hdistinct _ hi =>
    indexAgrees_of_namesTerminated h hdistinct hi⟩

/-- A directory with a program and the clock. -/
def twoEntries : Image :=
  sampleImage [{ fileName := ascii "ls", fileType := 2, inodeNum := 1 },
    { fileName := ascii "rtc", fileType := 0, inodeNum := 0 }]

theorem readDentryByName_exact_twoEntries :
    twoEntries.ExactLookup ⟨ascii "rtc", by decide⟩ (fun _ => 0) ∧
      twoEntries.IndexAgrees 1 (fun _ => 0) (fun _ => 0) := by
  have h := readDentryByName_exact (I := twoEntries) (by decide +kernel)
  exact ⟨h.1 _ _, h.2 (by decide +kernel) 1 (by decide +kernel) _ _⟩

end Image

end Gyarados

import Gyarados.Drivers.Keypress
import Gyarados.Fs.Directory

set_option autoImplicit false

/-! # The name field of a directory entry

A name that fills its 32 bytes has no NUL. Read as a C string it runs on into the type and the inode
number behind it, so that the operations on names see these as well. -/

namespace Gyarados

namespace Image

variable (I : Image)

/-- The name in the 32 bytes of `file_name`, and no further. -/
def fieldName (i : Nat) : List UInt8 := I.byte.stringAt (I.dentries + 64 * i) 32

/-- The directories of the images have the same names. -/
structure SameFields (I J : Image) : Prop where
  bBlockAddrs : J.bBlockAddrs = I.bBlockAddrs
  nDentries : J.nDentries = I.nDentries
  name : ∀ i, i < I.nDentries → ∀ k, k < 32 →
    J.byte (I.dentries + 64 * i + k) = I.byte (I.dentries + 64 * i + k)

/-- In every image with these names, what the operations match and deliver is the names themselves. -/
structure NamesInField : Prop where
  byName : ∀ J, SameFields I J → ∀ fname : CString, J.readDentryByName fname.val =
    (firstIndex (fun i => I.fieldName i = fname.val) I.nDentries).map fun i =>
      { fileName := fname.val, fileType := J.dentryType i, inodeNum := J.dentryInode i }
  byIndex : ∀ J, SameFields I J → ∀ i, i < I.nDentries → J.readDentryByIndex i =
    some {
      fileName := strncpy (I.fieldName i) 32
      fileType := J.dentryType i
      inodeNum := J.dentryInode i }
  dirRead : ∀ J, SameFields I J → ∀ i, i < I.nDentries →
    (J.dirRead i).ret = (I.fieldName i).length ∧
      (J.dirRead i).buf = fun k => (I.fieldName i ++ [0])[k]?
  autocomplete : ∀ J, SameFields I J → ∀ currText : CString, J.autocompleteCommand currText.val =
    (firstIndex (fun i => currText.val <+: I.fieldName i) I.nDentries).map I.fieldName
  fillCurrCommand : ∀ J, SameFields I J → ∀ (currText : CString) (s : Tty),
    (J.autocompleteCommand currText.val).map (Tty.fillCurrCommand · s) =
      (firstIndex (fun i => currText.val <+: I.fieldName i) I.nDentries).map fun i =>
        s.fillCurrCommand (I.fieldName i)
  wholeField : ∀ i, i < I.nDentries → (I.fieldName i).length = 32 →
    (I.readDentryByName (I.fieldName i)).isSome = true

variable {I} {J : Image}

theorem SameFields.dentries (h : SameFields I J) : J.dentries = I.dentries := by
  rw [Image.dentries, Image.dentries, h.bBlockAddrs]

theorem SameFields.fieldName (h : SameFields I J) {i : Nat} (hi : i < I.nDentries) :
    J.fieldName i = I.fieldName i := by
  rw [Image.fieldName, Image.fieldName, h.dentries]
  refine Memory.stringAt_congr 32 _ fun a h₁ h₂ => ?_
  obtain ⟨k, rfl⟩ := Nat.exists_eq_add_of_le h₁
  exact h.name i hi k (by omega)

theorem SameFields.namesTerminated (h : SameFields I J) (hnames : I.NamesTerminated) :
    J.NamesTerminated := by
  intro i hi
  rw [h.nDentries] at hi
  obtain ⟨k, hk, hz⟩ := hnames i hi
  exact ⟨k, hk, by rw [h.dentries, h.name i hi k hk, hz]⟩

/-- A name that ends in its field is the field. -/
theorem NamesTerminated.dentryName_eq (h : I.NamesTerminated) {i : Nat} (hi : i < I.nDentries) :
    I.dentryName i = I.fieldName i := by
  obtain ⟨k, hk, hz⟩ := h i hi
  rw [dentryName, fieldName, Memory.stringAt_of_zero _ _ (by omega) hz,
    Memory.stringAt_of_zero 32 _ (by omega) hz]

/-! ## Names that end in their field -/

/-- A lookup into a directory of names that end copies the whole name. -/
theorem NamesTerminated.foundDentry_eq (h : I.NamesTerminated) {fname : List UInt8} {i : Nat}
    (hi : i < I.nDentries) (hname : I.dentryName i = fname) : I.foundDentry fname i =
      { fileName := fname, fileType := I.dentryType i, inodeNum := I.dentryInode i } := by
  have hlen := h.length_lt hi
  rw [hname] at hlen
  rw [foundDentry, hname, min_eq_left (by omega), strncpy, List.take_length, Nat.sub_self,
    List.replicate_zero, List.append_nil]

theorem NamesTerminated.completes_iff (h : I.NamesTerminated) (currText : CString) {i : Nat}
    (hi : i < I.nDentries) : I.Completes currText.val i ↔ currText.val <+: I.fieldName i := by
  have hzero : (0 : UInt8) ∉ I.fieldName i := Memory.zero_notMem_stringAt _ _ _
  rw [Completes, h.dentryName_eq hi, strncmp_eq_zero_iff _ hzero currText.property,
    List.take_length, List.prefix_iff_eq_take]
  exact eq_comm

theorem namesInField_of_namesTerminated (h : I.NamesTerminated) : I.NamesInField := by
  have hcomplete : ∀ J, SameFields I J → ∀ currText : CString, J.autocompleteCommand currText.val =
      (firstIndex (fun i => currText.val <+: I.fieldName i) I.nDentries).map I.fieldName := by
    intro J hJ currText
    have hterm := hJ.namesTerminated h
    have hsearch : firstIndex (J.Completes currText.val) I.nDentries =
        firstIndex (fun i => currText.val <+: I.fieldName i) I.nDentries :=
      firstIndex_congr fun i hi => by
        rw [hterm.completes_iff currText (hJ.nDentries ▸ hi), hJ.fieldName hi]
    rw [autocompleteCommand_eq, hJ.nDentries, hsearch]
    refine Option.map_congr fun i hfirst => ?_
    have hi := (firstIndex_eq_some.1 hfirst).1
    rw [hterm.dentryName_eq (hJ.nDentries ▸ hi), hJ.fieldName hi]
  refine ⟨fun J hJ fname => ?_, fun J hJ i hi => ?_, fun J hJ i hi => ?_, hcomplete,
    fun J hJ currText s => ?_, fun i hi hfull => ?_⟩
  · have hterm := hJ.namesTerminated h
    have hname : ∀ i, i < I.nDentries → J.dentryName i = I.fieldName i := fun i hi =>
      (hterm.dentryName_eq (hJ.nDentries ▸ hi)).trans (hJ.fieldName hi)
    have hsearch : firstIndex (fun i => J.dentryName i = fname.val) I.nDentries =
        firstIndex (fun i => I.fieldName i = fname.val) I.nDentries :=
      firstIndex_congr fun i hi => by rw [hname i hi]
    rw [hterm.readDentryByName_eq, hJ.nDentries, hsearch]
    refine Option.map_congr fun i hfirst => ?_
    obtain ⟨hi, hfield, -⟩ := firstIndex_eq_some.1 hfirst
    exact hterm.foundDentry_eq (hJ.nDentries ▸ hi) ((hname i hi).trans hfield)
  · have hi' : i < J.nDentries := hJ.nDentries ▸ hi
    rw [readDentryByIndex, if_neg (by omega), (hJ.namesTerminated h).dentryName_eq hi',
      hJ.fieldName hi]
  · have hi' : i < J.nDentries := hJ.nDentries ▸ hi
    have hlen := (hJ.namesTerminated h).length_lt hi'
    rw [(hJ.namesTerminated h).dentryName_eq hi', hJ.fieldName hi] at hlen
    rw [Image.dirRead, if_neg (by omega), (hJ.namesTerminated h).dentryName_eq hi', hJ.fieldName hi]
    exact ⟨toInt32_of_lt (by omega), rfl⟩
  · rw [hcomplete J hJ currText, Option.map_map]
    rfl
  · have hlen := h.length_lt hi
    rw [h.dentryName_eq hi] at hlen
    omega

/-! ## Names that fill their field -/

/-- The image with another byte of memory. -/
def withByte (I : Image) (a : Nat) (c : UInt8) : Image :=
  { I with mem := fun b => if b = a % 0x100000000 then c else I.mem b }

theorem byte_withByte_self (a : Nat) (c : UInt8) : (I.withByte a c).byte a = c := if_pos rfl

theorem byte_withByte_of_ne {a b : Nat} (c : UInt8) (h : b % 0x100000000 ≠ a % 0x100000000) :
    (I.withByte a c).byte b = I.byte b := if_neg h

/-- The low byte of the type of entry `i` is no part of a name. -/
theorem sameFields_withByte (i : Nat) (c : UInt8) :
    SameFields I (I.withByte (I.dentries + 64 * i + 32) c) := by
  refine ⟨rfl, Memory.word_congr fun a h₁ h₂ => byte_withByte_of_ne c ?_, fun j _ k hk =>
    byte_withByte_of_ne c ?_⟩
  · replace h₁ : I.bBlockAddrs ≤ a := h₁
    replace h₂ : a < I.bBlockAddrs + 4 := h₂
    rw [dentries]
    omega
  · omega

/-- A name that fills its field goes on with the type. -/
theorem dentryName_withByte {i : Nat} (hfull : (I.fieldName i).length = 32) {c : UInt8} (hc : c ≠ 0) :
    ∃ rest, (I.withByte (I.dentries + 64 * i + 32) c).dentryName i = I.fieldName i ++ c :: rest := by
  set J := I.withByte (I.dentries + 64 * i + 32) c with hJ
  have hfield : J.byte.stringAt (I.dentries + 64 * i) 32 = I.fieldName i := by
    refine Memory.stringAt_congr 32 _ fun a h₁ h₂ => byte_withByte_of_ne c ?_
    omega
  have htype : J.byte (I.dentries + 64 * i + 32) = c := byte_withByte_self _ c
  have htail : J.byte.stringAt (I.dentries + 64 * i + 32) (0xffffffdf + 1) =
      c :: J.byte.stringAt (I.dentries + 64 * i + 32 + 1) 0xffffffdf := by
    rw [Memory.stringAt, htype, if_neg hc]
  have hscan := Memory.stringAt_add 32 (0xffffffdf + 1) (I.dentries + 64 * i)
    ((congrArg List.length hfield).trans hfull)
  rw [hfield, htail] at hscan
  exact ⟨_, hscan⟩

theorem NamesInField.namesTerminated (h : I.NamesInField) : I.NamesTerminated := by
  intro i hi
  by_contra hends
  have hfull : (I.fieldName i).length = 32 :=
    Memory.length_stringAt_of_ne_zero 32 _ fun k hk hz => hends ⟨k, hk, hz⟩
  obtain ⟨rest, hname⟩ := dentryName_withByte (c := 1) hfull (by decide)
  -- reading the directory delivers the type of this image
  have hsame : SameFields I (I.withByte (I.dentries + 64 * i + 32) 1) := sameFields_withByte i 1
  have hread := congrFun (h.dirRead _ hsame i hi).2 32
  rw [Image.dirRead, if_neg (by rw [hsame.nDentries]; omega), hname] at hread
  have htype : (I.fieldName i ++ 1 :: rest ++ [0])[32]? = some 1 := by
    rw [List.append_assoc, List.getElem?_append_right (by omega), hfull]
    rfl
  have hnul : (I.fieldName i ++ [0])[32]? = some 0 := by
    rw [List.getElem?_append_right (by omega), hfull]
    rfl
  have hbyte : some (1 : UInt8) = some 0 := htype.symm.trans (hread.trans hnul)
  simp at hbyte

/-- **Names stay in their fields** exactly when each of them ends there. -/
theorem namesInField_iff (I : Image) : I.NamesInField ↔ I.NamesTerminated :=
  ⟨NamesInField.namesTerminated, namesInField_of_namesTerminated⟩

/-- A directory with a file whose name fills its field. -/
def fullName : Image :=
  sampleImage [{ fileName := List.replicate 32 97, fileType := 2, inodeNum := 0 }]

/-- The file cannot be looked up by its name: its type is read as a 33rd byte. -/
theorem namesInField_fullName : ¬ fullName.NamesInField := by
  intro h
  have hfound := h.wholeField 0 (by decide +kernel) (by decide +kernel)
  have hnone : fullName.readDentryByName (fullName.fieldName 0) = none := by decide +kernel
  rw [hnone] at hfound
  simp at hfound

end Image

end Gyarados

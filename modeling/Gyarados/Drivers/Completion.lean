import Gyarados.Drivers.LineBuffers
import Gyarados.Fs.NameField

set_option autoImplicit false

/-! # Completion of a line

`handle_tab` passes the line buffer on as a string. Its elements are 32 bits wide, so the string ends
behind the first character, and what is completed is that character and not the line. -/

namespace Gyarados

/-- A character that has a key and a shape. -/
def Printable (c : UInt8) : Prop := 0x20 ≤ c ∧ c ≤ 0x7e

instance (c : UInt8) : Decidable (Printable c) := inferInstanceAs (Decidable (_ ∧ _))

theorem Printable.ne_zero {c : UInt8} (h : Printable c) : c ≠ 0 := by
  rintro rfl
  exact absurd h (by decide)

theorem Printable.ne_newline {c : UInt8} (h : Printable c) : c ≠ 10 := by
  rintro rfl
  exact absurd h (by decide)

namespace Image

/-- The names are made of printable characters. -/
def NamesPrintable (I : Image) : Prop :=
  ∀ i, i < I.nDentries → ∀ c ∈ I.dentryName i, Printable c

instance (I : Image) : Decidable I.NamesPrintable :=
  inferInstanceAs (Decidable (∀ i, i < I.nDentries → ∀ c ∈ I.dentryName i, Printable c))

/-- The first entry whose name starts with `text`. -/
def firstCompletion (I : Image) (text : List UInt8) : Option Nat :=
  firstIndex (fun i => text <+: I.dentryName i) I.nDentries

theorem NamesTerminated.autocompleteCommand_eq {I : Image} (h : I.NamesTerminated) (text : CString) :
    I.autocompleteCommand text.val = (I.firstCompletion text.val).map I.dentryName := by
  rw [Image.autocompleteCommand_eq, firstCompletion]
  congr 1
  refine firstIndex_congr fun i hi => ?_
  rw [h.completes_iff text hi, h.dentryName_eq hi]

end Image

/-! ## The line as a string -/

namespace HoldsLine

variable {s : Tty} {term : Term} {l l' : Line}

/-- The buffer holds one line. -/
theorem chars_eq (h : HoldsLine s term l) (h' : HoldsLine s term l') : l.chars = l'.chars := by
  have hlen : l.chars.length = l'.chars.length := h.numChars.symm.trans h'.numChars
  refine List.ext_getElem hlen fun i hi hi' => ?_
  exact UInt8.toNat_inj.1 ((h.key i hi).symm.trans (h'.key i hi'))

/-- What is searched for is the first character of the line. -/
theorem currText_eq (h : HoldsLine s term l) (hne : l.chars ≠ []) (hzero : l.chars.head hne ≠ 0) :
    s.kbd.currText term = [l.chars.head hne] := by
  have hkey : s.kbd.keyboardBuf (bufIndex term 0) = (l.chars.head hne).toNat := by
    rw [← List.getElem_zero_eq_head]
    exact h.key 0 (List.length_pos_iff.2 hne)
  have hbyte : ∀ j < 4, s.kbd.bufBytes (4 * bufIndex term 0 + j) =
      UInt8.ofNat ((l.chars.head hne).toNat / 0x100 ^ j) := by
    intro j hj
    have hdiv : (4 * bufIndex term 0 + j) / 4 = bufIndex term 0 := by omega
    have hmod : (4 * bufIndex term 0 + j) % 4 = j := by omega
    rw [Keyboard.bufBytes, hdiv, hmod, hkey]
  have hfirst := hbyte 0 (by decide)
  have hsecond := hbyte 1 (by decide)
  rw [pow_zero, Nat.div_one, UInt8.ofNat_toNat, Nat.add_zero] at hfirst
  rw [pow_one, Nat.div_eq_of_lt (UInt8.toNat_lt _)] at hsecond
  refine Memory.stringAt_eq_of_bytes _ _ _ (by simpa using hzero.symm) (by simp) ?_ hsecond
  intro k hk
  obtain rfl : k = 0 := by simpa using hk
  exact hfirst

/-! ## The new line -/

/-- The old line is taken back, character by character. -/
theorem eraseChars (n : Nat) : ∀ {s : Tty} {l : Line}, HoldsLine s term l → l.chars.length = n →
    HoldsLine (Tty.eraseChars n s) term Line.empty := by
  induction n with
  | zero =>
      intro s l h hlen
      exact ⟨h.activeTerminal, h.numChars.trans hlen, fun i hi => by simp [Line.empty] at hi⟩
  | succ n ih =>
      intro s l h hlen
      have herase := h.handleBackspace
      rw [Tty.handleBackspace_eq, if_pos (by rw [h.activeTerminal, h.numChars]; omega)] at herase
      exact ih herase (by simp [Line.erase, hlen])

theorem resetCurrCommand (h : HoldsLine s term l) :
    HoldsLine s.resetCurrCommand term Line.empty := by
  rw [Tty.resetCurrCommand, h.activeTerminal]
  exact h.eraseChars _ h.numChars.symm

/-- The new one is typed. -/
theorem fillCurrCommand (cs : List UInt8) : ∀ {s : Tty} {l : Line}, HoldsLine s term l →
    (∀ c ∈ cs, Printable c) → l.chars.length + cs.length ≤ maxCharsInBuf →
    ∃ l' : Line, l'.chars = l.chars ++ cs ∧ HoldsLine (Tty.fillCurrCommand cs s) term l' := by
  induction cs with
  | nil => exact fun {_ l} h _ _ => ⟨l, (List.append_nil _).symm, h⟩
  | cons c cs ih =>
      intro s l h hcs hlen
      rw [List.length_cons] at hlen
      have hc := hcs c List.mem_cons_self
      have htype : (l.type c).chars = l.chars ++ [c] := by
        rw [Line.type, dif_pos (show l.chars.length < maxCharsInBuf by omega)]
      obtain ⟨l', hl', h'⟩ := ih (h.addCharToBuffer ⟨c, hc.ne_zero, hc.ne_newline⟩)
        (fun d hd => hcs d (List.mem_cons_of_mem c hd)) (by
          simp only [htype, List.length_append, List.length_singleton]
          omega)
      refine ⟨l', by rw [hl', htype, List.append_assoc]; rfl, ?_⟩
      rw [Tty.fillCurrCommand, h.activeTerminal]
      exact h'

end HoldsLine

/-! ## The handler -/

/-- The line becomes the name of the first entry that starts with `text`; without one nothing
    happens. -/
def Completed (I : Image) (text : List UInt8) (term : Term) (l : Line) (s s' : Tty) : Prop :=
  match I.firstCompletion text with
  | some i => ∃ l' : Line, l'.chars = I.dentryName i ∧ HoldsLine s' term l'
  | none => HoldsLine s' term l ∧ s'.con = s.con

section

variable {I : Image} {s : Tty} {term : Term} {l : Line}

/-- What is completed is the first character. -/
theorem HoldsLine.completed_head (h : HoldsLine s term l) (hnames : I.NamesTerminated)
    (hprint : I.NamesPrintable) (hne : l.chars ≠ []) (hchars : ∀ c ∈ l.chars, Printable c) :
    Completed I [l.chars.head hne] term l s (s.handleTab I) := by
  have hhead := (hchars _ (List.head_mem hne)).ne_zero
  have hauto := hnames.autocompleteCommand_eq ⟨[l.chars.head hne], by simpa using hhead.symm⟩
  have htext : s.kbd.currText s.kbd.activeTerminal = [l.chars.head hne] := by
    rw [h.activeTerminal]
    exact h.currText_eq hne hhead
  unfold Tty.handleTab Completed
  rw [htext, hauto]
  cases hfirst : I.firstCompletion [l.chars.head hne] with
  | none => exact ⟨h, rfl⟩
  | some i =>
      obtain ⟨hi, -, -⟩ := firstIndex_eq_some.1 hfirst
      have hlen := hnames.length_lt hi
      have hfits : Line.empty.chars.length + (I.dentryName i).length ≤ maxCharsInBuf := by
        simp only [Line.empty, List.length_nil, maxCharsInBuf]
        omega
      exact h.resetCurrCommand.fillCurrCommand (I.dentryName i) (hprint i hi) hfits

/-- The completions of two texts agree when the same entry is the first for both. -/
theorem firstCompletion_eq_of_completed {text text' : List UInt8} {s' : Tty}
    (hpref : text <+: text') (hline : text' = l.chars) (h : Completed I text term l s s')
    (h' : Completed I text' term l s s') : I.firstCompletion text = I.firstCompletion text' := by
  unfold Completed at h h'
  cases hfirst' : I.firstCompletion text' with
  | none =>
      rw [hfirst'] at h'
      cases hfirst : I.firstCompletion text with
      | none => rfl
      | some j =>
          rw [hfirst] at h
          obtain ⟨l', hl', hholds⟩ := h
          obtain ⟨hj, -, -⟩ := firstIndex_eq_some.1 hfirst
          -- the line is the name of an entry, which starts with itself
          have hname : text' = I.dentryName j := hline.trans ((h'.1.chars_eq hholds).trans hl')
          exact absurd (hname ▸ List.prefix_rfl) (firstIndex_eq_none.1 hfirst' j hj)
  | some i =>
      rw [hfirst'] at h'
      obtain ⟨hi, hpre, hleast⟩ := firstIndex_eq_some.1 hfirst'
      cases hfirst : I.firstCompletion text with
      | none => exact absurd (hpref.trans hpre) (firstIndex_eq_none.1 hfirst i hi)
      | some j =>
          rw [hfirst] at h
          obtain ⟨l₁, hl₁, hholds₁⟩ := h
          obtain ⟨l₂, hl₂, hholds₂⟩ := h'
          obtain ⟨hj, -, hleast'⟩ := firstIndex_eq_some.1 hfirst
          have hname : I.dentryName j = I.dentryName i :=
            hl₁.symm.trans ((hholds₁.chars_eq hholds₂).trans hl₂)
          rcases Nat.lt_trichotomy i j with hlt | rfl | hlt
          · exact absurd (hpref.trans hpre) (hleast' i hlt)
          · rfl
          · exact absurd (hname ▸ hpre) (hleast j hlt)

/-- **Which lines Tab completes**: those for which the first entry that starts with their first
    character starts with all of them, if there is one. -/
theorem completed_iff (h : HoldsLine s term l) (hnames : I.NamesTerminated)
    (hprint : I.NamesPrintable) (hne : l.chars ≠ []) (hchars : ∀ c ∈ l.chars, Printable c) :
    Completed I l.chars term l s (s.handleTab I) ↔
      I.firstCompletion [l.chars.head hne] = I.firstCompletion l.chars := by
  have hhead := h.completed_head hnames hprint hne hchars
  constructor
  · intro hline
    exact firstCompletion_eq_of_completed ⟨l.chars.tail, List.cons_head_tail hne⟩ rfl hhead hline
  · intro hsame
    rw [Completed, hsame] at hhead
    exact hhead

end

/-- A directory of two commands with the same first letter. -/
def twoCommands : Image :=
  sampleImage [{ fileName := ascii "cat", fileType := 2, inodeNum := 0 },
    { fileName := ascii "counter", fileType := 2, inodeNum := 0 }]

/-- The terminal of the boot after two keys. -/
def twoKeys (c d : KeyChar) : Tty :=
  ((bootTty.addCharToBuffer c.val 0).2.addCharToBuffer d.val 0).2

theorem holdsLine_twoKeys (c d : KeyChar) :
    HoldsLine (twoKeys c d) 0 ((Line.empty.type c.val).type d.val) :=
  (bootTty_holdsLine.addCharToBuffer c).addCharToBuffer d

/-- "ca" is completed. -/
theorem completed_ca : Completed twoCommands [99, 97] 0 ((Line.empty.type 99).type 97)
    (twoKeys ⟨99, by decide⟩ ⟨97, by decide⟩)
    ((twoKeys ⟨99, by decide⟩ ⟨97, by decide⟩).handleTab twoCommands) :=
  (completed_iff (holdsLine_twoKeys ⟨99, by decide⟩ ⟨97, by decide⟩) (by decide +kernel)
    (by decide +kernel) (by decide) (by decide +kernel)).2 (by decide +kernel)

/-- "co" becomes "cat". -/
theorem completed_co : ¬ ∀ (I : Image) (s : Tty) (term : Term) (l : Line), HoldsLine s term l →
    I.NamesTerminated → I.NamesPrintable → l.chars ≠ [] → (∀ c ∈ l.chars, Printable c) →
    Completed I l.chars term l s (s.handleTab I) := by
  intro h
  have hline := h twoCommands _ 0 _ (holdsLine_twoKeys ⟨99, by decide⟩ ⟨111, by decide⟩)
    (by decide +kernel) (by decide +kernel) (by decide) (by decide +kernel)
  have hfirst : twoCommands.firstCompletion ((Line.empty.type 99).type 111).chars = some 1 := by
    decide +kernel
  rw [Completed, hfirst] at hline
  obtain ⟨l', hl', hholds⟩ := hline
  have hnum := hholds.numChars
  rw [hl'] at hnum
  exact absurd hnum (by decide +kernel)

end Gyarados

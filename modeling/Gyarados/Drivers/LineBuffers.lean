import Gyarados.Drivers.CharCount
import Gyarados.Drivers.LineDiscipline

set_option autoImplicit false

/-! # Line buffers in bounds

The rows of `keyboard_buf` follow one another in memory, so a call that goes past the end of its row
edits the line of the next terminal. For each call of the driver: the elements of the row that it
reads or writes, and that nothing else changes. -/

namespace Gyarados

namespace Keyboard

/-- No count is larger than a row, and every element is a character. -/
structure Bounded (k : Keyboard) : Prop where
  numChars_le : ∀ t, k.numCharsInBuf t ≤ maxCharsInBuf
  key_lt : ∀ a, k.keyboardBuf a < 0x100

/-- From `k` to `k'` the elements `A` of row `t` change at most, with the count and the flag of
    terminal `t`. -/
structure RowStep (t : Term) (A : Nat → Prop) (k k' : Keyboard) : Prop where
  keyboardBuf : ∀ a, (∀ i, A i → a ≠ bufIndex t i) → k'.keyboardBuf a = k.keyboardBuf a
  numChars : ∀ u, u ≠ t → k'.numCharsInBuf u = k.numCharsInBuf u
  ready : ∀ u, u ≠ t → k'.readBufReady u = k.readBufReady u
  bounded : k.Bounded → k'.Bounded

variable {t : Term} {A B : Nat → Prop} {k k' k'' : Keyboard}

namespace RowStep

theorem refl (t : Term) (A : Nat → Prop) (k : Keyboard) : RowStep t A k k :=
  ⟨fun _ _ => rfl, fun _ _ => rfl, fun _ _ => rfl, id⟩

theorem trans (h : RowStep t A k k') (h' : RowStep t B k' k'') :
    RowStep t (fun i => A i ∨ B i) k k'' where
  keyboardBuf a ha := (h'.keyboardBuf a fun i hi => ha i (.inr hi)).trans
    (h.keyboardBuf a fun i hi => ha i (.inl hi))
  numChars u hu := (h'.numChars u hu).trans (h.numChars u hu)
  ready u hu := (h'.ready u hu).trans (h.ready u hu)
  bounded hk := h'.bounded (h.bounded hk)

theorem mono (h : RowStep t A k k') (hAB : ∀ i, A i → B i) : RowStep t B k k' :=
  ⟨fun a ha => h.keyboardBuf a fun i hi => ha i (hAB i hi), h.numChars, h.ready, h.bounded⟩

theorem setKey (t : Term) (i : Nat) {v : Nat} (hv : v < 0x100) (k : Keyboard) :
    RowStep t (· = i) k (k.setKey t i v) where
  keyboardBuf _ ha := Function.update_of_ne (ha i rfl) _ _
  numChars _ _ := rfl
  ready _ _ := rfl
  bounded hk := by
    refine ⟨hk.numChars_le, fun a => ?_⟩
    simp only [Keyboard.setKey, Function.update_apply]
    split
    · exact hv
    · exact hk.key_lt a

theorem setNumChars (t : Term) {n : Nat} (hn : n ≤ maxCharsInBuf) (k : Keyboard) :
    RowStep t (fun _ => False) k (k.setNumChars t n) where
  keyboardBuf _ _ := rfl
  numChars _ hu := Function.update_of_ne hu _ _
  ready _ _ := rfl
  bounded hk := by
    refine ⟨fun u => ?_, hk.key_lt⟩
    simp only [Keyboard.setNumChars, Function.update_apply]
    split
    · exact hn
    · exact hk.numChars_le u

theorem setReady (t : Term) (b : Bool) (k : Keyboard) :
    RowStep t (fun _ => False) k (k.setReady t b) where
  keyboardBuf _ _ := rfl
  numChars _ _ := rfl
  ready _ hu := Function.update_of_ne hu _ _
  bounded hk := ⟨hk.numChars_le, hk.key_lt⟩

theorem zeroKeys (t : Term) (n : Nat) : ∀ (i : Nat) (k : Keyboard),
    RowStep t (fun j => i ≤ j ∧ j < i + n) k (Keyboard.zeroKeys t n i k) := by
  induction n with
  | zero => exact fun _ k => .refl t _ k
  | succ n ih =>
      intro i k
      refine ((setKey t i (by decide) k).trans (ih (i + 1) _)).mono ?_
      intro j hj
      rcases hj with rfl | hj
      · omega
      · omega

/-- A step inside the row leaves the rows of the other terminals alone. -/
theorem key_of_ne (h : RowStep t A k k') (hA : ∀ i, A i → i < maxCharsInBuf) {u : Term} (hu : u ≠ t)
    {j : Nat} (hj : j < maxCharsInBuf) : k'.key u j = k.key u j := by
  apply h.keyboardBuf
  intro i hi heq
  have hi' := hA i hi
  have hne : (u : Nat) ≠ t := fun h => hu (Fin.ext h)
  simp only [bufIndex, maxCharsInBuf] at heq hi' hj
  omega

end RowStep

end Keyboard

open Keyboard (RowStep)

/-! ## The calls of the driver -/

/-- A call of the driver. The terminal that runs is an argument of the two system calls. -/
inductive BufCall
  | addCharToBuffer (newChar : UInt8) (term : Term)
  | handleEnter
  | handleBackspace
  | handleTab
  | resetTerm
  | terminalRead (term : Term) (nbytes : Int)
  | terminalWrite (term : Term) (buf : List UInt8)

namespace BufCall

/-- The terminal that the call acts on. -/
def term (s : Tty) : BufCall → Term
  | .addCharToBuffer _ term | .terminalRead term _ | .terminalWrite term _ => term
  | .handleEnter | .handleBackspace | .handleTab | .resetTerm => s.kbd.activeTerminal

def step (I : Image) (s : Tty) : BufCall → Option Tty
  | .addCharToBuffer newChar term => some (s.addCharToBuffer newChar term).2
  | .handleEnter => some s.handleEnter
  | .handleBackspace => some s.handleBackspace
  | .handleTab => some (s.handleTab I)
  | .resetTerm => some s.resetTerm
  | .terminalRead term nbytes => (s.terminalRead term nbytes).map fun (_, _, s) => s
  | .terminalWrite term buf => some (s.terminalWrite term buf).2

/-- The element that `add_char_to_buffer` writes. -/
def AddCharAccesses (newChar : UInt8) (term : Term) (s : Tty) (i : Nat) : Prop :=
  s.kbd.numCharsInBuf term < maxCharsInBuf ∧ newChar ≠ 10 ∧ newChar ≠ 0 ∧
    i = s.kbd.numCharsInBuf term

/-- The elements that the loops of `terminal_write` and `fill_curr_command` write. -/
def WriteAccesses (term : Term) : List UInt8 → Tty → Nat → Prop
  | [], _, _ => False
  | c :: cs, s, i => AddCharAccesses c term s i ∨ WriteAccesses term cs (s.addCharToBuffer c term).2 i

/-- The elements that `handle_tab` reads and writes: `strlen` reads the row byte by byte up to the
    first NUL, then the line is taken back and the completion typed. -/
def TabAccesses (I : Image) (s : Tty) (i : Nat) : Prop :=
  4 * i ≤ (s.kbd.currText s.kbd.activeTerminal).length ∨
    ∃ completeName, I.autocompleteCommand (s.kbd.currText s.kbd.activeTerminal) = some completeName ∧
      (i < s.kbd.numCharsInBuf s.kbd.activeTerminal ∨
        WriteAccesses s.kbd.activeTerminal completeName s.resetCurrCommand i)

/-- The elements `keyboard_buf[term][i]` that the call reads or writes. -/
def Accesses (I : Image) (s : Tty) (i : Nat) : BufCall → Prop
  | .addCharToBuffer newChar term => AddCharAccesses newChar term s i
  | .handleEnter => s.kbd.numCharsInBuf s.kbd.activeTerminal ≤ i ∧ i ≤ maxCharsInBuf
  | .handleBackspace => s.kbd.numCharsInBuf s.kbd.activeTerminal = i + 1
  | .handleTab => TabAccesses I s i
  | .resetTerm => i < maxCharsInBuf
  | .terminalRead term nbytes => s.kbd.readBufReady term = true ∧ (i : Int) ≤ nbytes
  | .terminalWrite term buf => WriteAccesses term buf s i

end BufCall

/-! ## What the calls change -/

namespace Tty

variable {s s' : Tty} {term : Term}

theorem rowStep_addCharToBuffer (c : UInt8) (term : Term) (s : Tty) :
    RowStep term (BufCall.AddCharAccesses c term s) s.kbd (s.addCharToBuffer c term).2.kbd := by
  unfold addCharToBuffer
  split
  · rename_i hlt
    split
    · exact .refl _ _ _
    · rename_i hnl
      split
      · exact .refl _ _ _
      · rename_i hnull
        have hset := (RowStep.setKey term (s.kbd.numCharsInBuf term) c.toNat_lt s.kbd).trans
          (RowStep.setNumChars term (Nat.succ_le_of_lt hlt) _)
        refine hset.mono ?_
        intro i hi
        rcases hi with rfl | hi
        · exact ⟨hlt, hnl, hnull, rfl⟩
        · exact hi.elim
  · exact .refl _ _ _

theorem rowStep_terminalWriteLoop (term : Term) (buf : List UInt8) : ∀ (n : Int) (s : Tty),
    RowStep term (BufCall.WriteAccesses term buf s) s.kbd
      (terminalWriteLoop term buf (n, s)).2.kbd := by
  induction buf with
  | nil => exact fun _ s => .refl _ _ s.kbd
  | cons c cs ih => exact fun _ s => (rowStep_addCharToBuffer c term s).trans (ih _ _)

theorem rowStep_eraseChar (h : s.kbd.activeTerminal = term)
    (hle : s.kbd.numCharsInBuf term ≤ maxCharsInBuf) :
    RowStep term (· = s.kbd.numCharsInBuf term - 1) s.kbd s.eraseChar.kbd := by
  subst h
  have hle' : s.kbd.numCharsInBuf s.kbd.activeTerminal - 1 ≤ maxCharsInBuf := by omega
  exact ((RowStep.setNumChars _ hle' s.kbd).trans
    (RowStep.setKey _ _ (by decide) _)).mono fun i hi => hi.resolve_left id

theorem rowStep_handleBackspace (hle : ∀ t, s.kbd.numCharsInBuf t ≤ maxCharsInBuf) :
    RowStep s.kbd.activeTerminal (fun i => s.kbd.numCharsInBuf s.kbd.activeTerminal = i + 1) s.kbd
      s.handleBackspace.kbd := by
  rw [handleBackspace_eq]
  split
  · rename_i hpos
    exact (rowStep_eraseChar rfl (hle _)).mono fun i hi => by omega
  · exact .refl _ _ _

theorem rowStep_eraseChars (n : Nat) : ∀ {s : Tty}, s.kbd.activeTerminal = term →
    s.kbd.numCharsInBuf term = n → n ≤ maxCharsInBuf →
    RowStep term (· < n) s.kbd (eraseChars n s).kbd := by
  induction n with
  | zero => exact fun _ _ _ => .refl _ _ _
  | succ n ih =>
      intro s h hn hle
      have hcount : s.eraseChar.kbd.numCharsInBuf term = n := by
        simp [eraseChar, delLastChar, Keyboard.setKey, Keyboard.setNumChars, h, hn]
      refine ((rowStep_eraseChar h (by omega)).trans (ih (s := s.eraseChar) h hcount (by omega))).mono
        fun i hi => ?_
      rcases hi with rfl | hi <;> omega

/-- A row of characters is a string of at most one byte: the second byte of an element is NUL. -/
theorem length_currText_le (k : Keyboard) (hk : k.Bounded) (term : Term) :
    (k.currText term).length ≤ 1 := by
  have hnull : k.bufBytes (4 * bufIndex term 0 + 1) = 0 := by
    have hdiv : (4 * bufIndex term 0 + 1) / 4 = bufIndex term 0 := by omega
    have hmod : (4 * bufIndex term 0 + 1) % 4 = 1 := by omega
    have hzero : k.keyboardBuf (bufIndex term 0) / 0x100 ^ 1 = 0 :=
      Nat.div_eq_of_lt (by simpa using hk.key_lt _)
    rw [Keyboard.bufBytes, hdiv, hmod, hzero]
    rfl
  exact Memory.length_stringAt_le_of_zero _ _ hnull

theorem rowStep_handleTab (I : Image) (hk : s.kbd.Bounded) :
    RowStep s.kbd.activeTerminal (BufCall.TabAccesses I s) s.kbd (s.handleTab I).kbd := by
  unfold handleTab
  cases hname : I.autocompleteCommand (s.kbd.currText s.kbd.activeTerminal) with
  | none => exact .refl _ _ _
  | some completeName =>
      dsimp only
      have hreset := rowStep_eraseChars _ rfl rfl (hk.numChars_le s.kbd.activeTerminal)
      have hactive : s.resetCurrCommand.kbd.activeTerminal = s.kbd.activeTerminal :=
        (eraseChars_sameTerminals _ s).activeTerminal
      have hfill := rowStep_terminalWriteLoop s.kbd.activeTerminal completeName 0 s.resetCurrCommand
      rw [← fillCurrCommand_eq completeName 0 hactive] at hfill
      exact (hreset.trans hfill).mono fun i hi => .inr ⟨completeName, hname, hi⟩

theorem rowStep_handleEnter (hle : ∀ t, s.kbd.numCharsInBuf t ≤ maxCharsInBuf) :
    RowStep s.kbd.activeTerminal
      (fun i => s.kbd.numCharsInBuf s.kbd.activeTerminal ≤ i ∧ i ≤ maxCharsInBuf) s.kbd
      s.handleEnter.kbd := by
  have hle' := hle s.kbd.activeTerminal
  refine ((RowStep.zeroKeys _ _ _ s.kbd).trans (RowStep.setReady _ true _)).mono ?_
  intro i hi
  rcases hi with hi | hi
  · omega
  · exact hi.elim

theorem rowStep_resetTerm (s : Tty) :
    RowStep s.kbd.activeTerminal (· < maxCharsInBuf) s.kbd s.resetTerm.kbd := by
  refine ((RowStep.zeroKeys _ maxCharsInBuf 0 s.kbd).trans
    (RowStep.setNumChars _ (Nat.zero_le _) _)).mono fun i hi => ?_
  rcases hi with hi | hi
  · omega
  · exact hi.elim

theorem rowStep_terminalReadLoop (term : Term) (n : Nat) : ∀ (i : Nat) (buf : Stores) (k : Keyboard),
    RowStep term (fun j => i ≤ j ∧ j < i + n) k (terminalReadLoop term n i (buf, k)).2 := by
  induction n with
  | zero => exact fun _ _ k => .refl _ _ k
  | succ n ih =>
      intro i buf k
      refine ((RowStep.setKey term i (by decide) k).trans (ih (i + 1) _ _)).mono ?_
      intro j hj
      rcases hj with rfl | hj <;> omega

theorem rowStep_terminalRead {nbytes ret : Int} {buf : Stores}
    (h : s.terminalRead term nbytes = some (ret, buf, s')) :
    RowStep term (fun i => s.kbd.readBufReady term = true ∧ (i : Int) ≤ nbytes) s.kbd s'.kbd := by
  unfold terminalRead at h
  split at h
  · simp at h
  · rename_i hgo
    obtain ⟨-, -, rfl⟩ := by simpa using h
    have hready : s.kbd.readBufReady term = true := by
      cases hr : s.kbd.readBufReady term with
      | false => exact absurd (.inl hr) hgo
      | true => rfl
    refine (((rowStep_terminalReadLoop term _ 0 .empty s.kbd).trans
      (RowStep.setNumChars term (Nat.zero_le _) _)).trans (RowStep.setReady term false _)).mono
        fun i hi => ⟨hready, ?_⟩
    rcases hi with (hi | hi) | hi
    · omega
    · exact hi.elim
    · exact hi.elim

end Tty

/-! ## In bounds and isolated -/

namespace BufCall

variable {I : Image} {s s' : Tty} {call : BufCall}

/-- **Every call but `terminal_write`** changes the elements listed for it and its own count and flag,
    at most. -/
theorem rowStep (hk : s.kbd.Bounded) (hwrite : ∀ term buf, call ≠ .terminalWrite term buf)
    (h : call.step I s = some s') :
    RowStep (call.term s) (fun i => call.Accesses I s i) s.kbd s'.kbd := by
  cases call with
  | addCharToBuffer newChar term =>
      obtain rfl := Option.some.inj h
      exact Tty.rowStep_addCharToBuffer newChar term s
  | handleEnter =>
      obtain rfl := Option.some.inj h
      exact Tty.rowStep_handleEnter hk.numChars_le
  | handleBackspace =>
      obtain rfl := Option.some.inj h
      exact Tty.rowStep_handleBackspace hk.numChars_le
  | handleTab =>
      obtain rfl := Option.some.inj h
      exact Tty.rowStep_handleTab I hk
  | resetTerm =>
      obtain rfl := Option.some.inj h
      exact Tty.rowStep_resetTerm s
  | terminalRead term nbytes =>
      obtain ⟨⟨ret, buf, s₁⟩, hread, rfl⟩ := Option.map_eq_some_iff.1 h
      exact Tty.rowStep_terminalRead hread
  | terminalWrite term buf => exact absurd rfl (hwrite term buf)

/-- `terminal_write` puts its output through the row of its terminal, and then resets the count and
    the flag of the terminal on display. -/
theorem terminalWrite_eq (term : Term) (buf : List UInt8) (s : Tty) :
    ∃ k, RowStep term (WriteAccesses term buf s) s.kbd k ∧
      (s.terminalWrite term buf).2.kbd =
        (k.setNumChars s.kbd.activeTerminal 0).setReady s.kbd.activeTerminal false := by
  refine ⟨_, Tty.rowStep_terminalWriteLoop term buf 0 s, ?_⟩
  rw [← (Tty.terminalWriteLoop_sameTerminals term buf 0 s).activeTerminal]
  rfl

theorem bounded_step (hk : s.kbd.Bounded) (h : call.step I s = some s') : s'.kbd.Bounded := by
  by_cases hwrite : ∃ term buf, call = .terminalWrite term buf
  · obtain ⟨term, buf, rfl⟩ := hwrite
    obtain rfl := Option.some.inj h
    obtain ⟨k, hstep, heq⟩ := terminalWrite_eq term buf s
    rw [heq]
    exact (RowStep.setReady _ _ _).bounded
      ((RowStep.setNumChars _ (Nat.zero_le _) _).bounded (hstep.bounded hk))
  · exact (rowStep hk (fun term buf he => hwrite ⟨term, buf, he⟩) h).bounded hk

/-- What the call should do: stay in its row, leave a count that the row has room for, and leave the
    other terminals alone. -/
structure Isolated (I : Image) (call : BufCall) (s s' : Tty) : Prop where
  accesses : ∀ i, call.Accesses I s i → i < maxCharsInBuf
  numChars_le : s'.kbd.numCharsInBuf (call.term s) ≤ maxCharsInBuf
  key : ∀ u, u ≠ call.term s → ∀ i < maxCharsInBuf, s'.kbd.key u i = s.kbd.key u i
  numChars : ∀ u, u ≠ call.term s → s'.kbd.numCharsInBuf u = s.kbd.numCharsInBuf u
  ready : ∀ u, u ≠ call.term s → s'.kbd.readBufReady u = s.kbd.readBufReady u

/-- The condition under which it does: not for `handle_enter`; `terminal_read` asks for at most 1022
    bytes; `terminal_write` writes to the terminal on display, or that one has neither characters nor
    a line. -/
def InRow (s : Tty) : BufCall → Prop
  | .handleEnter => False
  | .terminalRead _ nbytes => nbytes ≤ 1022
  | .terminalWrite term _ => term = s.kbd.activeTerminal ∨
      (s.kbd.numCharsInBuf s.kbd.activeTerminal = 0 ∧
        s.kbd.readBufReady s.kbd.activeTerminal = false)
  | _ => True

theorem lt_of_writeAccesses {term : Term} {buf : List UInt8} : ∀ {s : Tty} {i : Nat},
    WriteAccesses term buf s i → i < maxCharsInBuf := by
  induction buf with
  | nil => exact fun h => h.elim
  | cons c cs ih =>
      intro s i h
      rcases h with ⟨hlt, -, -, rfl⟩ | h
      · exact hlt
      · exact ih h

/-- Where the accesses are in bounds. -/
theorem accesses_lt_iff (hk : s.kbd.Bounded) (hwrite : ∀ term buf, call ≠ .terminalWrite term buf)
    (h : call.step I s = some s') :
    (∀ i, call.Accesses I s i → i < maxCharsInBuf) ↔ call.InRow s := by
  have hle := hk.numChars_le s.kbd.activeTerminal
  cases call with
  | addCharToBuffer newChar term =>
      refine iff_of_true ?_ trivial
      rintro i ⟨hlt, -, -, rfl⟩
      exact hlt
  | handleEnter =>
      refine iff_of_false (fun hall => ?_) id
      exact absurd (hall maxCharsInBuf ⟨hle, Nat.le_refl _⟩) (Nat.lt_irrefl _)
  | handleBackspace => exact iff_of_true (fun i hi => by simp only [Accesses] at hi; omega) trivial
  | handleTab =>
      refine iff_of_true (fun i hi => ?_) trivial
      rcases hi with hi | ⟨completeName, -, hi | hi⟩
      · have := Tty.length_currText_le s.kbd hk s.kbd.activeTerminal
        simp only [maxCharsInBuf]
        omega
      · omega
      · exact lt_of_writeAccesses hi
  | resetTerm => exact iff_of_true (fun i hi => hi) trivial
  | terminalRead term nbytes =>
      obtain ⟨⟨ret, buf, s₁⟩, hread, -⟩ := Option.map_eq_some_iff.1 h
      have hready : s.kbd.readBufReady term = true := by
        cases hr : s.kbd.readBufReady term with
        | false => simp [Tty.terminalRead, hr] at hread
        | true => rfl
      simp only [Accesses, InRow, hready, true_and, maxCharsInBuf]
      constructor
      · intro hall
        by_contra hgt
        have := hall 1023 (by omega)
        omega
      · intro hn i hi
        omega
  | terminalWrite term buf => exact absurd rfl (hwrite term buf)

/-- A step inside the row is isolated. -/
theorem isolated_of_rowStep (hk : s.kbd.Bounded) {A : Nat → Prop}
    (hstep : RowStep (call.term s) A s.kbd s'.kbd) (hA : ∀ i, A i → i < maxCharsInBuf)
    (haccess : ∀ i, call.Accesses I s i → i < maxCharsInBuf) : Isolated I call s s' :=
  ⟨haccess, (hstep.bounded hk).numChars_le _, fun _ hu _ hi => hstep.key_of_ne hA hu hi,
    hstep.numChars, hstep.ready⟩

theorem isolated_terminalWrite_iff (hk : s.kbd.Bounded) {term : Term} {buf : List UInt8}
    (h : (BufCall.terminalWrite term buf).step I s = some s') :
    Isolated I (.terminalWrite term buf) s s' ↔ (BufCall.terminalWrite term buf).InRow s := by
  obtain rfl := Option.some.inj h
  obtain ⟨k, hstep, heq⟩ := terminalWrite_eq term buf s
  have haccess : ∀ i, WriteAccesses term buf s i → i < maxCharsInBuf := fun _ => lt_of_writeAccesses
  constructor
  · intro hiso
    by_cases hterm : term = s.kbd.activeTerminal
    · exact .inl hterm
    · have hnum := hiso.numChars s.kbd.activeTerminal fun h => hterm h.symm
      have hready := hiso.ready s.kbd.activeTerminal fun h => hterm h.symm
      rw [heq] at hnum hready
      simp only [Keyboard.setReady, Keyboard.setNumChars, Function.update_self] at hnum hready
      exact .inr ⟨hnum.symm, hready.symm⟩
  · rintro (rfl | ⟨hnum, hready⟩)
    · refine isolated_of_rowStep hk ?_ haccess haccess
      rw [heq]
      exact ((hstep.trans (RowStep.setNumChars _ (Nat.zero_le _) _)).trans
        (RowStep.setReady _ false _)).mono fun i hi => (hi.resolve_right id).resolve_right id
    · refine ⟨haccess, (bounded_step hk h).numChars_le _, ?_, ?_, ?_⟩
      · intro u hu j hj
        rw [heq]
        exact hstep.key_of_ne haccess hu hj
      · intro u hu
        rw [heq]
        simp only [Keyboard.setReady, Keyboard.setNumChars, Function.update_apply]
        split
        · rename_i hu'
          rw [hu', hnum]
        · exact hstep.numChars u hu
      · intro u hu
        rw [heq]
        simp only [Keyboard.setReady, Keyboard.setNumChars, Function.update_apply]
        split
        · rename_i hu'
          rw [hu', hready]
        · exact hstep.ready u hu

theorem isolated_iff_inRow (hk : s.kbd.Bounded) (h : call.step I s = some s') :
    Isolated I call s s' ↔ call.InRow s := by
  by_cases hwrite : ∃ term buf, call = .terminalWrite term buf
  · obtain ⟨term, buf, rfl⟩ := hwrite
    exact isolated_terminalWrite_iff hk h
  · have hwrite : ∀ term buf, call ≠ .terminalWrite term buf :=
      fun term buf he => hwrite ⟨term, buf, he⟩
    rw [← accesses_lt_iff hk hwrite h]
    exact ⟨fun hiso => hiso.accesses, fun hA => isolated_of_rowStep hk (rowStep hk hwrite h) hA hA⟩

end BufCall

/-! ## Reachable states -/

/-- A call, or one of the keys F1 to F3. -/
inductive DriverAction
  | call (c : BufCall)
  | display (next : Term)

def DriverAction.step (I : Image) (s : Tty) : DriverAction → Option Tty
  | .call c => c.step I s
  | .display next => some (s.showTerminal next)

/-- The line buffers before the first key: the initial values of the globals. -/
structure Tty.FreshBuffers (s : Tty) : Prop where
  keyboardBuf : ∀ a, s.kbd.keyboardBuf a = 0
  numChars : ∀ t, s.kbd.numCharsInBuf t = 0

theorem Tty.FreshBuffers.bounded {s : Tty} (h : s.FreshBuffers) : s.kbd.Bounded := by
  refine ⟨?_, ?_⟩
  · intro t
    rw [h.numChars]
    exact Nat.zero_le _
  · intro a
    rw [h.keyboardBuf]
    decide

/-- The bounds hold in every reachable state, whatever has been written past a row. -/
theorem bounded_of_run {I : Image} {s₀ s : Tty} {as : List DriverAction} (h₀ : s₀.FreshBuffers)
    (hrun : run (DriverAction.step I) s₀ as = some s) : s.kbd.Bounded := by
  refine run_preserves (P := fun s => s.kbd.Bounded) ?_ h₀.bounded hrun
  intro s a t hk hstep
  cases a with
  | call c => exact BufCall.bounded_step hk hstep
  | display next =>
      obtain rfl := Option.some.inj hstep
      exact ⟨hk.numChars_le, hk.key_lt⟩

/-- **In bounds and isolated**: which calls, in a reachable state, stay in their row and leave the other
    terminals alone. -/
theorem isolated_iff {I : Image} {s₀ s s' : Tty} {as : List DriverAction} {call : BufCall}
    (h₀ : s₀.FreshBuffers) (hrun : run (DriverAction.step I) s₀ as = some s)
    (hcall : call.step I s = some s') : BufCall.Isolated I call s s' ↔ call.InRow s :=
  BufCall.isolated_iff_inRow (bounded_of_run h₀ hrun) hcall

/-- Output on the second terminal while the first, which is on display, has no characters. -/
theorem isolated_write : BufCall.Isolated (sampleImage []) (.terminalWrite 1 [104, 105]) bootTty
    (bootTty.terminalWrite 1 [104, 105]).2 := by
  have hrun : run (DriverAction.step (sampleImage [])) bootTty [] = some bootTty := rfl
  exact (isolated_iff ⟨fun _ => rfl, fun _ => rfl⟩ hrun rfl).2 (.inr ⟨rfl, rfl⟩)

/-- A letter on the second terminal, and back to the first. -/
def letterBelow : List DriverAction := [.display 1, .call (.addCharToBuffer 97 1), .display 0]

/-- Enter on the first terminal wipes the letter out: the element past the end of the row is the first
    of the next row. -/
theorem isolated_enter : ¬ ∀ (I : Image) (s₀ s s' : Tty) (as : List DriverAction) (call : BufCall),
    s₀.FreshBuffers → run (DriverAction.step I) s₀ as = some s → call.step I s = some s' →
    BufCall.Isolated I call s s' := by
  intro h
  obtain ⟨s, hs⟩ := Option.isSome_iff_exists.1
    (show (run (DriverAction.step (sampleImage [])) bootTty letterBelow).isSome by decide +kernel)
  have hiso := h (sampleImage []) bootTty s s.handleEnter letterBelow .handleEnter
    ⟨fun _ => rfl, fun _ => rfl⟩ hs rfl
  have hletter : (run (DriverAction.step (sampleImage [])) bootTty letterBelow).any (fun s =>
      decide (s.kbd.key 1 0 = 97 ∧ s.kbd.activeTerminal = 0 ∧ s.kbd.numCharsInBuf 0 = 0)) = true := by
    decide +kernel
  rw [hs] at hletter
  obtain ⟨hkey, hactive, hnum⟩ := of_decide_eq_true hletter
  have hsame := hiso.key 1 (by rw [BufCall.term, hactive]; decide) 0 (by decide)
  have hempty : HoldsLine s 0 Line.empty := ⟨hactive, hnum, fun i hi => by simp [Line.empty] at hi⟩
  have hzero : s.handleEnter.kbd.key 0 1023 = 0 := hempty.handleEnter.key 1023 (Nat.le_refl _)
  rw [show s.handleEnter.kbd.key 1 0 = s.handleEnter.kbd.key 0 1023 from rfl, hzero, hkey] at hsame
  exact absurd hsame (by decide)

end Gyarados

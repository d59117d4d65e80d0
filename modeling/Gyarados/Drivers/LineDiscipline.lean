import Mathlib.Data.List.DropRight
import Gyarados.Drivers.Keyboard

set_option autoImplicit false

/-! # The line discipline

The line that a user edits, as a list of at most 1023 characters, and the line buffer that holds
it. Keys and backspaces edit the buffer as they edit the line. A `terminal_write` does not leave
the buffer alone: its output goes through the same buffer, and it then sets the count of the
displayed terminal to 0. -/

namespace Gyarados

/-! ## Lines -/

/-- A character that `add_char_to_buffer` stores. -/
abbrev KeyChar := {c : UInt8 // c ≠ 0 ∧ c ≠ 10}

/-- The line before Enter. -/
structure Line where
  chars : List UInt8
  length_le : chars.length ≤ maxCharsInBuf

namespace Line

def empty : Line := ⟨[], by simp⟩

/-- Type a character; a full line takes no more. -/
def type (c : UInt8) (l : Line) : Line :=
  if h : l.chars.length < maxCharsInBuf then ⟨l.chars ++ [c], by simpa using Nat.succ_le_of_lt h⟩
  else l

/-- Take the last character back. -/
def erase (l : Line) : Line :=
  ⟨l.chars.dropLast, by
    have := l.length_le
    rw [List.length_dropLast]
    omega⟩

/-- The character at place `i`, with zeros behind the line. -/
def charAt (l : Line) (i : Nat) : UInt8 := l.chars.getD i 0

end Line

/-- What happens to the terminal between a read and the next Enter. -/
inductive LineEvent
  | key (c : KeyChar)
  | backspace
  /-- `terminal_write` of these bytes. -/
  | write (buf : List UInt8)

namespace LineEvent

/-- The handler or call, for a running terminal `term`. -/
def apply (term : Term) (s : Tty) : LineEvent → Tty
  | .key c => (s.addCharToBuffer c.val s.kbd.activeTerminal).2
  | .backspace => s.handleBackspace
  | .write buf => (s.terminalWrite term buf).2

def isWrite : LineEvent → Bool
  | .write _ => true
  | _ => false

end LineEvent

namespace Line

/-- Keys and backspaces edit the line; output does not. -/
def edit (l : Line) : LineEvent → Line
  | .key c => l.type c.val
  | .backspace => l.erase
  | .write _ => l

/-- The line that the keys and backspaces make. -/
def typed (events : List LineEvent) : Line := events.foldl edit empty

/-- What the buffer keeps of the line: a write drops it. -/
def keep (l : Line) : LineEvent → Line
  | .write _ => empty
  | e => l.edit e

/-- The buffer keeps what was typed since the last write. -/
theorem foldl_keep (events : List LineEvent) :
    events.foldl keep empty = typed (events.rtakeWhile fun e => !e.isWrite) := by
  induction events using List.reverseRecOn with
  | nil => rfl
  | append_singleton events e ih =>
      rw [List.foldl_append, List.foldl_cons, List.foldl_nil, ih]
      cases e with
      | write buf => rw [List.rtakeWhile_concat_neg _ _ _ (by simp [LineEvent.isWrite])]; rfl
      | key c =>
          rw [List.rtakeWhile_concat_pos _ _ _ rfl, typed, typed, List.foldl_append]
          rfl
      | backspace =>
          rw [List.rtakeWhile_concat_pos _ _ _ rfl, typed, typed, List.foldl_append]
          rfl

end Line

/-! ## The buffer holds a line -/

/-- The line buffer of the displayed terminal `term` holds the line. -/
structure HoldsLine (s : Tty) (term : Term) (l : Line) : Prop where
  activeTerminal : s.kbd.activeTerminal = term
  numChars : s.kbd.numCharsInBuf term = l.chars.length
  key : ∀ i (hi : i < l.chars.length), s.kbd.key term i = (l.chars[i]).toNat

/-- Enter has been pressed: the line is in the buffer, with zeros behind it. -/
structure LineReady (s : Tty) (term : Term) (l : Line) : Prop where
  activeTerminal : s.kbd.activeTerminal = term
  ready : s.kbd.readBufReady term = true
  key : ∀ i, i ≤ maxCharsInBuf → s.kbd.key term i = (l.charAt i).toNat

/-- The zero fill of a row. -/
theorem Keyboard.key_zeroKeys (term : Term) (n : Nat) : ∀ (i j : Nat) (k : Keyboard),
    (zeroKeys term n i k).key term j = if i ≤ j ∧ j < i + n then 0 else k.key term j := by
  induction n with
  | zero => intro i j k; rw [zeroKeys, if_neg (by omega)]
  | succ n ih =>
      intro i j k
      rw [zeroKeys, ih, key_setKey]
      split
      · rw [if_pos (by omega)]
      · split
        · rw [if_pos (by omega)]
        · rw [if_neg (by omega)]

namespace HoldsLine

variable {s : Tty} {term : Term} {l : Line}

/-- A stored character is typed at the end of the line. -/
theorem addCharToBuffer (h : HoldsLine s term l) (c : KeyChar) :
    HoldsLine (s.addCharToBuffer c.val term).2 term (l.type c.val) := by
  rw [Tty.addCharToBuffer, Line.type, h.numChars]
  split
  · rename_i hlt
    rw [if_neg c.property.2, if_neg c.property.1]
    refine ⟨h.activeTerminal, ?_, ?_⟩
    · simp [Tty.putc, Keyboard.setNumChars]
    · intro i hi
      show ((s.kbd.setKey term l.chars.length c.val.toNat).setNumChars term _).key term i = _
      have hkey : ((s.kbd.setKey term l.chars.length c.val.toNat).setNumChars term
          (l.chars.length + 1)).key term i =
            (s.kbd.setKey term l.chars.length c.val.toNat).key term i := rfl
      rw [hkey, Keyboard.key_setKey]
      simp only [List.length_append, List.length_singleton] at hi
      split
      · rename_i heq
        simp [heq]
      · rename_i hne
        rw [h.key i (by omega), List.getElem_append_left (by omega)]
  · exact h

theorem handleBackspace (h : HoldsLine s term l) : HoldsLine s.handleBackspace term l.erase := by
  have hkbd : s.delLastChar.kbd = s.kbd := rfl
  simp only [Tty.handleBackspace, hkbd, h.activeTerminal, h.numChars]
  split
  · rename_i hpos
    refine ⟨h.activeTerminal, ?_, ?_⟩
    · simp [Keyboard.setKey, Keyboard.setNumChars, Line.erase]
    · intro i hi
      rw [Keyboard.key_setKey]
      simp only [Line.erase, List.length_dropLast] at hi
      rw [if_neg (by omega)]
      simp only [Line.erase, List.getElem_dropLast]
      exact h.key i (by omega)
  · rename_i hpos
    -- nothing to take back
    have hnil : l.chars = [] := List.length_eq_zero_iff.1 (by omega)
    refine ⟨h.activeTerminal, ?_, ?_⟩
    · rw [h.numChars, Line.erase]
      simp [hnil]
    · intro i hi
      simp [Line.erase, hnil] at hi

/-- A write leaves an empty line, whatever it writes. -/
theorem terminalWrite (h : HoldsLine s term l) (buf : List UInt8) (term' : Term) :
    HoldsLine (s.terminalWrite term' buf).2 term Line.empty := by
  -- whatever the loop has put into the row, the count is reset behind it
  have hactive : (Tty.terminalWriteLoop term' buf (0, s)).2.kbd.activeTerminal = term :=
    (Tty.terminalWriteLoop_sameTerminals term' buf 0 s).activeTerminal.trans h.activeTerminal
  refine ⟨hactive, ?_, fun i hi => by simp [Line.empty] at hi⟩
  simp [Tty.terminalWrite, hactive, Keyboard.setNumChars, Keyboard.setReady, Line.empty]

/-- **One event** changes the line in the buffer. -/
theorem apply (h : HoldsLine s term l) (e : LineEvent) :
    HoldsLine (e.apply term s) term (l.keep e) := by
  cases e with
  | key c =>
      rw [LineEvent.apply, h.activeTerminal]
      exact h.addCharToBuffer c
  | backspace => exact h.handleBackspace
  | write buf => exact h.terminalWrite buf term

/-- **Any number of events**. -/
theorem foldl_apply (events : List LineEvent) (h : HoldsLine s term l) :
    HoldsLine (events.foldl (fun s e => e.apply term s) s) term (events.foldl Line.keep l) := by
  induction events generalizing s l with
  | nil => exact h
  | cons e events ih => exact ih (h.apply e)

theorem handleEnter (h : HoldsLine s term l) : LineReady s.handleEnter term l := by
  have hlen := l.length_le
  refine ⟨?_, ?_, ?_⟩
  · exact (Tty.handleEnter_sameTerminals s).activeTerminal.trans h.activeTerminal
  · simp [Tty.handleEnter, h.activeTerminal, Keyboard.setReady]
  · intro i hi
    have hkey : s.handleEnter.kbd.key term i =
        (s.kbd.zeroKeys term (maxCharsInBuf + 1 - l.chars.length) l.chars.length).key term i := by
      simp only [Tty.handleEnter, h.activeTerminal, h.numChars]
      rfl
    rw [hkey, Keyboard.key_zeroKeys]
    by_cases hin : i < l.chars.length
    · rw [if_neg (by omega), h.key i hin, Line.charAt, List.getD_eq_getElem _ _ hin]
    · rw [if_pos (by omega), Line.charAt, List.getD_eq_default _ _ (by omega)]
      rfl

end HoldsLine

/-! ## Reading the line -/

/-- After Enter a read returns, and it delivers the line. -/
theorem LineReady.terminalRead {s : Tty} {term : Term} {l : Line} (h : LineReady s term l)
    {nbytes : Int} (h0 : 0 ≤ nbytes) (h1 : nbytes ≤ maxCharsInBuf) :
    ∃ buf s', s.terminalRead term nbytes = some (nbytes + 1, buf, s') ∧
      (∀ i : Nat, i ≤ nbytes → buf i = some (l.charAt i)) ∧ HoldsLine s' term Line.empty := by
  have hgo : ¬ (s.kbd.readBufReady term = false ∨ nbytes = 0x7fffffff) := by
    rw [h.ready]
    simp only [maxCharsInBuf] at h1
    simp only [Bool.true_eq_false, false_or]
    omega
  have hret : ((nbytes + 1).toNat : Int) = nbytes + 1 := Int.toNat_of_nonneg (by omega)
  refine ⟨_, _, by rw [Tty.terminalRead, if_neg hgo]; dsimp only; rw [hret], ?_, ?_, ?_,
    fun i hi => by simp [Line.empty] at hi⟩
  · intro i hi
    -- the row is read before the loop clears it
    rw [Tty.terminalReadLoop_buf, if_pos (by omega), h.key i (by omega), UInt8.ofNat_toNat]
  · exact (Tty.terminalReadLoop_sameTerminals term _ 0 .empty s.kbd).activeTerminal.trans
      h.activeTerminal
  · simp [Line.empty, Keyboard.setNumChars, Keyboard.setReady]

/-- A read that has returned leaves an empty line. -/
theorem HoldsLine.of_terminalRead {s s' : Tty} {term : Term} {nbytes ret : Int} {buf : Stores}
    (hactive : s.kbd.activeTerminal = term) (h : s.terminalRead term nbytes = some (ret, buf, s')) :
    HoldsLine s' term Line.empty := by
  refine ⟨(Tty.terminalRead_sameTerminals h).activeTerminal.trans hactive, ?_,
    fun i hi => by simp [Line.empty] at hi⟩
  unfold Tty.terminalRead at h
  split at h
  · simp at h
  · obtain ⟨-, -, rfl⟩ := by simpa using h
    simp [Line.empty, Keyboard.setNumChars, Keyboard.setReady]

/-! ## Output between the keys -/

/-- After the events and Enter, a read fills its buffer with the line that was typed. -/
def ReadsTyped (term : Term) (s : Tty) (events : List LineEvent) (nbytes : Int) : Prop :=
  ∃ ret buf s', (events.foldl (fun s e => e.apply term s) s).handleEnter.terminalRead term nbytes =
      some (ret, buf, s') ∧
    ∀ i : Nat, i < nbytes → buf i = some ((Line.typed events).charAt i)

/-- **What a write takes from the line**: the next read delivers the line that was typed if and
    only if the characters asked for are those typed since the last write. -/
theorem readsTyped_iff {term : Term} {s₀ s : Tty} {nbytes₀ ret₀ : Int} {buf₀ : Stores}
    (hactive : s₀.kbd.activeTerminal = term)
    (hread : s₀.terminalRead term nbytes₀ = some (ret₀, buf₀, s)) (events : List LineEvent)
    {nbytes : Int} (h0 : 0 ≤ nbytes) (h1 : nbytes ≤ 1022) :
    ReadsTyped term s events nbytes ↔ ∀ i : Nat, i < nbytes → (Line.typed events).charAt i =
      (Line.typed (events.rtakeWhile fun e => !e.isWrite)).charAt i := by
  have hholds := (HoldsLine.of_terminalRead hactive hread).foldl_apply events
  rw [Line.foldl_keep] at hholds
  obtain ⟨buf, s', hnext, hbuf, -⟩ := hholds.handleEnter.terminalRead h0
    (show nbytes ≤ maxCharsInBuf by simp only [maxCharsInBuf]; omega)
  constructor
  · rintro ⟨ret, buf', s'', hnext', hbuf'⟩ i hi
    obtain ⟨-, rfl, -⟩ : _ ∧ buf = buf' ∧ _ := by simpa using hnext.symm.trans hnext'
    exact Option.some.inj ((hbuf' i hi).symm.trans (hbuf i (by omega)))
  · intro hsame
    refine ⟨_, buf, s', hnext, fun i hi => ?_⟩
    rw [hbuf i (by omega), hsame i hi]

/-- The terminal of the boot holds an empty line. -/
theorem bootTty_holdsLine : HoldsLine bootTty 0 Line.empty :=
  ⟨rfl, rfl, fun i hi => by simp [Line.empty] at hi⟩

/-- Output before the first key does no harm. -/
theorem readsTyped_of_prompt : ∃ buf s,
    bootTty.handleEnter.terminalRead 0 0 = some (1, buf, s) ∧
      ReadsTyped 0 s [.write [36, 32], .key ⟨108, by decide⟩, .key ⟨115, by decide⟩] 10 := by
  obtain ⟨buf, s, hread, -⟩ := bootTty_holdsLine.handleEnter.terminalRead
    (show (0 : Int) ≤ 0 by decide) (by decide)
  exact ⟨buf, s, hread, (readsTyped_iff bootTty_holdsLine.handleEnter.activeTerminal hread _
    (by decide) (by decide)).2 fun i _ => rfl⟩

/-- The user types a character, the program writes one, and the character is gone from the line. -/
theorem readsTyped_write : ¬ ∀ (term : Term) (s₀ s : Tty) (nbytes₀ ret₀ : Int) (buf₀ : Stores)
    (events : List LineEvent) (nbytes : Int), s₀.kbd.activeTerminal = term →
    s₀.terminalRead term nbytes₀ = some (ret₀, buf₀, s) → 0 ≤ nbytes → nbytes ≤ 1022 →
    ReadsTyped term s events nbytes := by
  intro h
  obtain ⟨buf, s, hread, -, hholds⟩ := bootTty_holdsLine.handleEnter.terminalRead
    (show (0 : Int) ≤ 0 by decide) (by decide)
  obtain ⟨ret, buf', s', hnext, hbuf⟩ := h 0 _ s _ _ buf [.key ⟨97, by decide⟩, .write [98]] 1
    bootTty_holdsLine.handleEnter.activeTerminal hread (by decide) (by decide)
  obtain ⟨buf'', s'', hnext', hbuf'', -⟩ :=
    (hholds.foldl_apply [.key ⟨97, by decide⟩, .write [98]]).handleEnter.terminalRead
      (show (0 : Int) ≤ 1 by decide) (by decide)
  obtain ⟨-, rfl, -⟩ : _ ∧ buf' = buf'' ∧ _ := by simpa using hnext.symm.trans hnext'
  have hsame := (hbuf 0 (by decide)).symm.trans (hbuf'' 0 (by decide))
  exact absurd hsame (by decide)

/-! ## Line after line -/

/-- One round at the keyboard: keys and backspaces, then Enter, then a read of `nbytes`. -/
structure Round where
  events : List LineEvent
  no_write : ∀ e ∈ events, e.isWrite = false
  nbytes : Nat
  nbytes_le : nbytes ≤ 1022

/-- The calls of one round on terminal `term`, and what the read delivers. -/
def Tty.round (term : Term) (r : Round) (s : Tty) : Option (Stores × Tty) :=
  ((r.events.foldl (fun s e => e.apply term s) s).handleEnter.terminalRead term r.nbytes).map
    fun (_, buf, s) => (buf, s)

/-- The rounds one after the other. -/
def Tty.rounds (term : Term) : List Round → Tty → Option (List Stores × Tty)
  | [], s => some ([], s)
  | r :: rs, s =>
      (s.round term r).bind fun (buf, s) =>
        (rounds term rs s).map fun (bufs, s) => (buf :: bufs, s)

/-- The buffer of a round starts with the line of that round, truncated or padded with zeros. -/
def Round.Delivers (r : Round) (buf : Stores) : Prop :=
  ∀ i < r.nbytes, buf i = some ((Line.typed r.events).charAt i)

/-- Without output the buffer holds the line that was typed. -/
theorem Round.foldl_keep (r : Round) : r.events.foldl Line.keep Line.empty = Line.typed r.events := by
  rw [Line.foldl_keep, List.rtakeWhile_eq_self_iff.2]
  intro e he
  simp [r.no_write e he]

/-- **One round** delivers its line and leaves an empty one. -/
theorem HoldsLine.round {s : Tty} {term : Term} (h : HoldsLine s term Line.empty) (r : Round) :
    ∃ buf s', s.round term r = some (buf, s') ∧ r.Delivers buf ∧ HoldsLine s' term Line.empty := by
  have hready := (h.foldl_apply r.events).handleEnter
  rw [r.foldl_keep] at hready
  have hlen := r.nbytes_le
  obtain ⟨buf, s', hread, hbuf, hholds⟩ := hready.terminalRead
    (show (0 : Int) ≤ r.nbytes by omega) (by simp only [maxCharsInBuf]; omega)
  refine ⟨buf, s', ?_, fun i hi => hbuf i (by omega), hholds⟩
  rw [Tty.round, hread]
  rfl

/-- **Any number of rounds**: from an empty line, every read delivers the line of its own round. -/
theorem rounds_deliver {s : Tty} {term : Term} (hactive : s.kbd.activeTerminal = term)
    (hnum : s.kbd.numCharsInBuf term = 0) (rs : List Round) :
    ∃ bufs s', s.rounds term rs = some (bufs, s') ∧ List.Forall₂ Round.Delivers rs bufs := by
  have h : HoldsLine s term Line.empty :=
    ⟨hactive, hnum, fun i hi => by simp [Line.empty] at hi⟩
  clear hactive hnum
  induction rs generalizing s with
  | nil => exact ⟨[], s, rfl, .nil⟩
  | cons r rs ih =>
      obtain ⟨buf, s₁, hround, hbuf, h₁⟩ := h.round r
      obtain ⟨bufs, s₂, hrounds, hbufs⟩ := ih h₁
      refine ⟨buf :: bufs, s₂, ?_, .cons hbuf hbufs⟩
      simp only [Tty.rounds, hround, Option.bind_some, hrounds, Option.map_some]

/-- A line of three characters of which one is read, and one with a mistake in it. -/
def sampleRounds : List Round :=
  [⟨[.key ⟨108, by decide⟩, .key ⟨115, by decide⟩, .key ⟨97, by decide⟩], by decide, 1, by decide⟩,
    ⟨[.key ⟨98, by decide⟩, .backspace, .key ⟨99, by decide⟩], by decide, 5, by decide⟩]

theorem rounds_deliver_boot : ∃ bufs s', bootTty.rounds 0 sampleRounds = some (bufs, s') ∧
    List.Forall₂ Round.Delivers sampleRounds bufs :=
  rounds_deliver bootTty_holdsLine.activeTerminal bootTty_holdsLine.numChars sampleRounds

end Gyarados

import Gyarados.Drivers.CharCount

set_option autoImplicit false

/-! # The output of a program

`terminal_write` prints through the line buffer of its terminal, as the keys do. Every byte that is
neither a newline nor NUL takes a place in the buffer, and once its 1023 places are taken nothing more
is printed. -/

namespace Gyarados

/-- What a byte of output is for the console. -/
def outputCall (c : UInt8) : List ScreenCall :=
  if c = 0 then [] else if c = 10 then [.newLine] else [.putc c]

/-- A byte that takes a place in the line buffer. -/
def isStored (c : UInt8) : Bool := !(c == 0 || c == 10)

namespace Tty

variable {term : Term} {s : Tty}

/-! ## One byte -/

/-- The buffer has a place left: the byte goes to the console. -/
theorem addCharCalls_of_lt (hlt : s.kbd.numCharsInBuf term < maxCharsInBuf) (c : UInt8) :
    s.addCharCalls c term = outputCall c := by
  rw [addCharCalls, if_pos hlt, outputCall]
  by_cases hzero : c = 0
  · simp [hzero]
  · simp [hzero]

/-- The byte is counted, and one that is stored takes a place. -/
theorem addCharToBuffer_of_lt (hlt : s.kbd.numCharsInBuf term < maxCharsInBuf) (c : UInt8) :
    (s.addCharToBuffer c term).1 = true ∧ (s.addCharToBuffer c term).2.kbd.numCharsInBuf term =
      s.kbd.numCharsInBuf term + if isStored c then 1 else 0 := by
  rw [addCharToBuffer, if_pos hlt, isStored]
  by_cases hnewline : c = 10
  · simp [hnewline, newLine]
  · by_cases hzero : c = 0
    · simp [hzero]
    · simp [hnewline, hzero, putc, Keyboard.setNumChars]

/-- A full buffer: nothing happens. -/
theorem addCharToBuffer_of_le (hle : maxCharsInBuf ≤ s.kbd.numCharsInBuf term) (c : UInt8) :
    s.addCharToBuffer c term = (false, s) := by
  rw [addCharToBuffer, if_neg (Nat.not_lt.2 hle)]

/-- The calls of a byte are all that it does to the console. -/
theorem con_addCharToBuffer (c : UInt8) (s : Tty) : (s.addCharToBuffer c term).2.con =
    (s.addCharCalls c term).foldl (ScreenCall.apply s.kbd.activeTerminal) s.con := by
  unfold addCharToBuffer addCharCalls
  split
  · split
    · rfl
    · split <;> rfl
  · rfl

/-! ## The loop -/

theorem con_terminalWriteLoop (buf : List UInt8) : ∀ (n : Int) (s : Tty),
    (terminalWriteLoop term buf (n, s)).2.con =
      (writeCalls term buf s).foldl (ScreenCall.apply s.kbd.activeTerminal) s.con := by
  induction buf with
  | nil => exact fun _ _ => rfl
  | cons c cs ih =>
      intro n s
      rw [terminalWriteLoop, ih, writeCalls, List.foldl_append, ← con_addCharToBuffer,
        (addCharToBuffer_sameTerminals c term s).activeTerminal]

theorem terminalWriteLoop_count_le (buf : List UInt8) : ∀ (n : Int) (s : Tty),
    (terminalWriteLoop term buf (n, s)).1 ≤ n + buf.length := by
  induction buf with
  | nil => exact fun n _ => by simp [terminalWriteLoop]
  | cons c cs ih =>
      intro n s
      have htail := ih (if (s.addCharToBuffer c term).1 then n + 1 else n) (s.addCharToBuffer c term).2
      have hstep : (if (s.addCharToBuffer c term).1 then n + 1 else n) ≤ n + 1 := by
        split <;> omega
      rw [terminalWriteLoop, List.length_cons]
      push_cast
      omega

/-- The buffer has a place for each byte when its turn comes: the last byte need not fit. -/
def HasRoom (term : Term) (buf : List UInt8) (s : Tty) : Prop :=
  buf ≠ [] → s.kbd.numCharsInBuf term + buf.dropLast.countP isStored < maxCharsInBuf

instance (term : Term) (buf : List UInt8) (s : Tty) : Decidable (s.HasRoom term buf) :=
  inferInstanceAs (Decidable (_ → _))

/-- Room for the first byte, and room for the rest behind it. -/
theorem hasRoom_cons {c : UInt8} {cs : List UInt8} : s.HasRoom term (c :: cs) ↔
    s.kbd.numCharsInBuf term < maxCharsInBuf ∧ (s.addCharToBuffer c term).2.HasRoom term cs := by
  by_cases hlt : s.kbd.numCharsInBuf term < maxCharsInBuf
  · have hcount := (addCharToBuffer_of_lt hlt c).2
    cases cs with
    | nil => simp [HasRoom, hlt]
    | cons d ds =>
        simp only [HasRoom, ne_eq, reduceCtorEq, not_false_eq_true, forall_const,
          List.dropLast_cons_cons, List.countP_cons, hcount]
        constructor
        · intro h
          exact ⟨hlt, by omega⟩
        · rintro ⟨-, h⟩
          omega
  · refine iff_of_false (fun h => ?_) fun h => hlt h.1
    exact hlt ((Nat.le_add_right _ _).trans_lt (h (List.cons_ne_nil c cs)))

/-- All bytes are counted exactly when each finds a place. -/
theorem terminalWriteLoop_count_iff (buf : List UInt8) : ∀ (n : Int) (s : Tty),
    (terminalWriteLoop term buf (n, s)).1 = n + buf.length ↔ s.HasRoom term buf := by
  induction buf with
  | nil => exact fun n s => iff_of_true (by simp [terminalWriteLoop]) fun h => absurd rfl h
  | cons c cs ih =>
      intro n s
      rw [hasRoom_cons, terminalWriteLoop, List.length_cons]
      push_cast
      by_cases hlt : s.kbd.numCharsInBuf term < maxCharsInBuf
      · have hnext := ih (n + 1) (s.addCharToBuffer c term).2
        rw [(addCharToBuffer_of_lt hlt c).1, if_pos rfl, ← hnext]
        constructor
        · intro h
          exact ⟨hlt, by omega⟩
        · rintro ⟨-, h⟩
          omega
      · have htail := @terminalWriteLoop_count_le term cs n s
        rw [addCharToBuffer_of_le (Nat.not_lt.1 hlt) c]
        refine iff_of_false (fun h => ?_) fun h => hlt h.1
        simp only [Bool.false_eq_true, if_false] at h
        omega

theorem terminalWrite_count_iff (term : Term) (buf : List UInt8) (s : Tty) :
    (s.terminalWrite term buf).1 = buf.length ↔ s.HasRoom term buf := by
  have hcount := @terminalWriteLoop_count_iff term buf 0 s
  rwa [Int.zero_add] at hcount

/-- They are then all sent to the console. -/
theorem writeCalls_of_hasRoom (buf : List UInt8) : ∀ {s : Tty}, s.HasRoom term buf →
    writeCalls term buf s = buf.flatMap outputCall := by
  induction buf with
  | nil => exact fun _ => rfl
  | cons c cs ih =>
      intro s h
      obtain ⟨hlt, h⟩ := hasRoom_cons.1 h
      rw [writeCalls, addCharCalls_of_lt hlt, ih h, List.flatMap_cons]

/-! ## The call -/

/-- The write sends every byte to the console, in order, and returns their number. -/
structure WritesAll (term : Term) (buf : List UInt8) (s : Tty) : Prop where
  calls : writeCalls term buf s = buf.flatMap outputCall
  con : (s.terminalWrite term buf).2.con =
    (buf.flatMap outputCall).foldl (ScreenCall.apply s.kbd.activeTerminal) s.con
  count : (s.terminalWrite term buf).1 = buf.length

end Tty

/-- **Which output is complete**: that for which the line buffer has a place left up to the last
    byte. -/
theorem writesAll_iff (term : Term) (buf : List UInt8) (s : Tty) :
    s.WritesAll term buf ↔ s.HasRoom term buf := by
  constructor
  · exact fun h => (Tty.terminalWrite_count_iff term buf s).1 h.count
  · intro h
    have hcalls := Tty.writeCalls_of_hasRoom buf h
    refine ⟨hcalls, ?_, (Tty.terminalWrite_count_iff term buf s).2 h⟩
    rw [← hcalls]
    exact Tty.con_terminalWriteLoop buf 0 s

/-- Letters on the terminal of the boot. -/
theorem hasRoom_letters (n : Nat) : bootTty.HasRoom 0 (List.replicate (n + 1) 97) ↔ n < maxCharsInBuf := by
  have hletter : isStored 97 = true := rfl
  simp [Tty.HasRoom, bootTty, List.countP_replicate, hletter]

/-- A program writes 1024 letters to the terminal of the boot: the last one is not printed. -/
theorem writesAll_full : ¬ ∀ (term : Term) (buf : List UInt8) (s : Tty),
    s.kbd.activeTerminal = term → s.WritesAll term buf := by
  intro h
  have hcount := (h 0 (List.replicate (1023 + 1) 97) bootTty rfl).count
  have hroom := (hasRoom_letters 1023).1 ((Tty.terminalWrite_count_iff _ _ _).1 hcount)
  exact Nat.lt_irrefl _ hroom

end Gyarados

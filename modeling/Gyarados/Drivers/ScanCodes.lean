import Gyarados.Drivers.Keypress
import Gyarados.Drivers.LineDiscipline

set_option autoImplicit false

/-! # What a stream of scan codes types

A keyboard sends a make code when a key goes down and a break code when it comes up; the codes of
extended keys follow an 0xE0. `decode` is the text that such events type. The handler does not clear
the flag of an extended key at its second code but at the next make code, and that make code is lost
on it. -/

namespace Gyarados

/-- The make codes that the tables have entries for. -/
abbrev MakeCode := {m : UInt8 // 1 ≤ m ∧ m < 0x59}

inductive ScanEvent
  | make (m : MakeCode)
  | release (m : MakeCode)
  | extMake (m : MakeCode)
  | extRelease (m : MakeCode)

/-- The bytes that the keyboard sends for an event. -/
def ScanEvent.bytes : ScanEvent → List UInt8
  | .make m => [m.val]
  | .release m => [m.val ||| 0x80]
  | .extMake m => [0xe0, m.val]
  | .extRelease m => [0xe0, m.val ||| 0x80]

/-- No Caps Lock, Enter, Backspace, Tab, F1 to F3 or Ctrl. -/
def ScanEvent.Plain : ScanEvent → Prop
  | .make m | .release m => m.val ∉ [0x3a, 0x1c, 0x0e, 0x0f, 0x3b, 0x3c, 0x3d, 0x1d]
  | .extMake m | .extRelease m => m.val ≠ 0x1d

instance : ∀ e : ScanEvent, Decidable e.Plain
  | .make _ | .release _ => inferInstanceAs (Decidable (_ ∉ _))
  | .extMake _ | .extRelease _ => inferInstanceAs (Decidable (_ ≠ _))

/-! ## Decoding -/

/-- The shift keys that are down. -/
structure Shifts where
  left : Bool
  right : Bool

namespace Shifts

def up : Shifts := ⟨false, false⟩

def held (sh : Shifts) : Bool := sh.left || sh.right

def make (m : MakeCode) (sh : Shifts) : Shifts :=
  if m.val = 0x2a then { sh with left := true }
  else if m.val = 0x36 then { sh with right := true }
  else sh

def release (m : MakeCode) (sh : Shifts) : Shifts :=
  if m.val = 0x2a then { sh with left := false }
  else if m.val = 0x36 then { sh with right := false }
  else sh

end Shifts

/-- The key has a character. -/
def MakeCode.isChar (m : MakeCode) : Bool :=
  codeToAscii.getD m.val.toNat 0 ≠ asciiPlaceholder ∧ codeToAscii.getD m.val.toNat 0 ≠ 0

/-- The character of the key in one of the two tables. -/
def MakeCode.char (m : MakeCode) (sh : Shifts) : UInt8 :=
  if sh.held then shiftAscii.getD m.val.toNat 0 else codeToAscii.getD m.val.toNat 0

/-- The text that the events type. -/
def decode : Shifts → List ScanEvent → List UInt8
  | _, [] => []
  | sh, .make m :: es => if m.isChar then m.char sh :: decode sh es else decode (sh.make m) es
  | sh, .release m :: es => decode (sh.release m) es
  | sh, .extMake _ :: es => decode sh es
  | sh, .extRelease _ :: es => decode sh es

/-- The events without each plain make that is the first one after an extended event. -/
def heeded : Bool → List ScanEvent → List ScanEvent
  | _, [] => []
  | true, .make _ :: es => heeded false es
  | false, .make m :: es => .make m :: heeded false es
  | pending, .release m :: es => .release m :: heeded pending es
  | _, .extMake m :: es => .extMake m :: heeded true es
  | _, .extRelease m :: es => .extRelease m :: heeded true es

/-- No plain make that is the first one after an extended event is of a character key, and no
    character depends on a shift key whose make is such a one: `sh` are the shift keys that are down,
    `sh'` those of them whose makes have been heeded. -/
def LosesNothing : Bool → Shifts → Shifts → List ScanEvent → Prop
  | _, _, _, [] => True
  | pending, sh, sh', .make m :: es =>
      if m.isChar then pending = false ∧ m.char sh = m.char sh' ∧ LosesNothing false sh sh' es
      else LosesNothing false (sh.make m) (if pending then sh' else sh'.make m) es
  | pending, sh, sh', .release m :: es => LosesNothing pending (sh.release m) (sh'.release m) es
  | _, sh, sh', .extMake _ :: es => LosesNothing true sh sh' es
  | _, sh, sh', .extRelease _ :: es => LosesNothing true sh sh' es

instance decidableLosesNothing : ∀ (pending : Bool) (sh sh' : Shifts) (es : List ScanEvent),
    Decidable (LosesNothing pending sh sh' es)
  | _, _, _, [] => isTrue trivial
  | pending, sh, sh', .make m :: es =>
      have := decidableLosesNothing false sh sh' es
      have := decidableLosesNothing false (sh.make m) (if pending then sh' else sh'.make m) es
      inferInstanceAs (Decidable
        (if m.isChar then pending = false ∧ m.char sh = m.char sh' ∧ LosesNothing false sh sh' es
          else LosesNothing false (sh.make m) (if pending then sh' else sh'.make m) es))
  | pending, sh, sh', .release m :: es =>
      decidableLosesNothing pending (sh.release m) (sh'.release m) es
  | _, sh, sh', .extMake _ :: es => decidableLosesNothing true sh sh' es
  | _, sh, sh', .extRelease _ :: es => decidableLosesNothing true sh sh' es

/-- Fewer makes type less. -/
theorem length_decode_heeded_le (es : List ScanEvent) : ∀ (pending : Bool) (sh sh' : Shifts),
    (decode sh' (heeded pending es)).length ≤ (decode sh es).length := by
  induction es with
  | nil => exact fun _ _ _ => Nat.le_refl _
  | cons e es ih =>
      intro pending sh sh'
      cases e with
      | make m =>
          cases pending with
          | true =>
              simp only [heeded, decode]
              split
              · exact (ih false sh sh').trans (Nat.le_succ _)
              · exact ih false _ sh'
          | false =>
              simp only [heeded, decode]
              split
              · exact Nat.succ_le_succ (ih false sh sh')
              · exact ih false _ _
      | release m =>
          simp only [heeded, decode]
          exact ih pending _ _
      | extMake m =>
          simp only [heeded, decode]
          exact ih true _ _
      | extRelease m =>
          simp only [heeded, decode]
          exact ih true _ _

/-- **When the lost makes do not matter**. -/
theorem decode_heeded_iff (es : List ScanEvent) : ∀ (pending : Bool) (sh sh' : Shifts),
    decode sh' (heeded pending es) = decode sh es ↔ LosesNothing pending sh sh' es := by
  induction es with
  | nil => exact fun _ _ _ => iff_of_true rfl trivial
  | cons e es ih =>
      intro pending sh sh'
      cases e with
      | make m =>
          simp only [LosesNothing]
          cases pending with
          | true =>
              simp only [heeded, decode]
              split
              · -- a character is lost, and nothing later makes up for it
                refine iff_of_false (fun h => ?_) (by simp)
                have hlen := length_decode_heeded_le es false sh sh'
                rw [h, List.length_cons] at hlen
                omega
              · rw [if_pos trivial]
                exact ih false _ _
          | false =>
              simp only [heeded, decode]
              split
              · rw [List.cons.injEq, ih false]
                simp [eq_comm]
              · exact ih false _ _
      | release m =>
          simp only [heeded, decode, LosesNothing]
          exact ih pending _ _
      | extMake m =>
          simp only [heeded, decode, LosesNothing]
          exact ih true _ _
      | extRelease m =>
          simp only [heeded, decode, LosesNothing]
          exact ih true _ _

/-! ## Facts about the codes -/

theorem MakeCode.toNat_lt (m : MakeCode) : m.val.toNat < 0x59 := m.property.2

/-- A character is one that the line buffer stores. -/
theorem MakeCode.char_ne {m : MakeCode} (h : m.isChar = true) (sh : Shifts) :
    m.char sh ≠ 0 ∧ m.char sh ≠ 10 := by
  have hall : ∀ n < 0x59,
      codeToAscii.getD n 0 ≠ asciiPlaceholder ∧ codeToAscii.getD n 0 ≠ 0 →
        codeToAscii.getD n 0 ≠ 10 ∧ shiftAscii.getD n 0 ≠ 0 ∧ shiftAscii.getD n 0 ≠ 10 := by
    decide +kernel
  have hchar := decide_eq_true_iff.1 h
  obtain ⟨hcode, hshift⟩ := hall _ m.toNat_lt hchar
  unfold MakeCode.char
  split
  · exact hshift
  · exact ⟨hchar.2, hcode⟩

/-- A key with neither a character nor the placeholder has NUL in both tables. -/
theorem MakeCode.char_eq_zero {m : MakeCode} (h : ¬ m.isChar = true)
    (hcode : codeToAscii.getD m.val.toNat 0 ≠ asciiPlaceholder) (sh : Shifts) : m.char sh = 0 := by
  have hall : ∀ n < 0x59, codeToAscii.getD n 0 = 0 → shiftAscii.getD n 0 = 0 := by
    decide +kernel
  have hzero : codeToAscii.getD m.val.toNat 0 = 0 := by
    by_contra hne
    exact h (decide_eq_true_iff.2 ⟨hcode, hne⟩)
  unfold MakeCode.char
  split
  · exact hall _ m.toNat_lt hzero
  · exact hzero

/-- The shift keys have the placeholder. -/
theorem MakeCode.make_of_ne_placeholder {m : MakeCode}
    (hcode : codeToAscii.getD m.val.toNat 0 ≠ asciiPlaceholder) (sh : Shifts) : sh.make m = sh := by
  have hleft : m.val ≠ 0x2a := fun h => hcode (by rw [h]; decide +kernel)
  have hright : m.val ≠ 0x36 := fun h => hcode (by rw [h]; decide +kernel)
  rw [Shifts.make, if_neg hleft, if_neg hright]

/-- The break codes are no make codes and not the code of an extended key, and they tell the keys
    apart. -/
theorem MakeCode.release_code (m : MakeCode) : ¬ m.val ||| 0x80 < 0x59 ∧ m.val ||| 0x80 ≠ 0xe0 ∧
    (m.val ||| 0x80 = 0xaa ↔ m.val = 0x2a) ∧ (m.val ||| 0x80 = 0xb6 ↔ m.val = 0x36) ∧
      (m.val ||| 0x80 = 0x9d ↔ m.val = 0x1d) := by
  have hall : ∀ n < 0x59, ¬ UInt8.ofNat n ||| 0x80 < 0x59 ∧ UInt8.ofNat n ||| 0x80 ≠ 0xe0 ∧
      (UInt8.ofNat n ||| 0x80 = 0xaa ↔ UInt8.ofNat n = 0x2a) ∧
      (UInt8.ofNat n ||| 0x80 = 0xb6 ↔ UInt8.ofNat n = 0x36) ∧
      (UInt8.ofNat n ||| 0x80 = 0x9d ↔ UInt8.ofNat n = 0x1d) := by
    decide +kernel
  have := hall _ m.toNat_lt
  rwa [UInt8.ofNat_toNat] at this

/-! ## The handler follows the events -/

/-- The flags of the handler: an extended key is pending or not, the shift keys are those whose makes
    have been heeded, and neither Ctrl nor Caps Lock is on. -/
structure Follows (flags : KeyFlags) (pending : Bool) (sh : Shifts) : Prop where
  specialKeyEnabled : flags.specialKeyEnabled = pending
  cntrlLOn : flags.cntrlLOn = false
  cntrlROn : flags.cntrlROn = false
  capsOn : flags.capsOn = false
  shiftLOn : flags.shiftLOn = sh.left
  shiftROn : flags.shiftROn = sh.right

theorem Tty.addCharToBuffer_zero (term : Term) (s : Tty) : (s.addCharToBuffer 0 term).2 = s := by
  unfold Tty.addCharToBuffer
  split
  · rw [if_neg (by decide), if_pos rfl]
  · rfl

namespace Follows

variable {flags : KeyFlags} {pending : Bool} {sh : Shifts} {m : MakeCode}

theorem charOf (h : Follows flags pending sh) : Keypad.charOf flags m.val = m.char sh := by
  simp only [Keypad.charOf, h.capsOn, h.shiftLOn, h.shiftROn, MakeCode.char, Shifts.held]
  simp

theorem breakCode (h : Follows flags pending sh) (hplain : m.val ≠ 0x1d) :
    Follows (Keypad.breakCode (m.val ||| 0x80) flags) pending (sh.release m) := by
  obtain ⟨-, -, hleft, hright, hctrl⟩ := m.release_code
  simp only [Keypad.breakCode, Shifts.release, hleft, hright, hctrl, if_neg hplain]
  split
  · exact ⟨h.1, h.2, h.3, h.4, rfl, h.6⟩
  · split
    · exact ⟨h.1, h.2, h.3, h.4, h.5, rfl⟩
    · split
      · exact ⟨h.1, h.2, h.3, h.4, h.5, h.6⟩
      · exact h

/-- The second code of an extended key that is not Ctrl. -/
theorem specialCode (h : Follows flags pending sh) {code : UInt8} (hmake : code ≠ 0x1d)
    (hrelease : code ≠ 0x9d) :
    Follows (Keypad.specialCode code { flags with specialKeyEnabled := true }) true sh := by
  simp only [Keypad.specialCode, if_neg hmake, if_neg hrelease]
  split
  · exact ⟨rfl, h.2, h.3, h.4, h.5, h.6⟩
  · split
    · exact ⟨rfl, h.2, h.3, h.4, h.5, h.6⟩
    · exact ⟨rfl, h.2, h.3, h.4, h.5, h.6⟩

end Follows

namespace Keypad

variable {I : Image} {s : Keypad} {pending : Bool} {sh : Shifts} {m : MakeCode} {term : Term}
  {l : Line} (rest : List UInt8)

theorem handleKeypress_make :
    s.handleKeypress I ((ScanEvent.make m).bytes ++ rest) = s.makeKey I m.val rest := by
  simp only [ScanEvent.bytes, List.cons_append, List.nil_append, handleKeypress]
  rw [if_pos m.property.2]

/-- The first make behind an extended event is lost. -/
theorem handleKeypress_make_pending (h : Follows s.flags true sh) :
    s.handleKeypress I ((ScanEvent.make m).bytes ++ rest) =
      some (.none, rest, { s with flags := { s.flags with specialKeyEnabled := false } }) := by
  rw [handleKeypress_make, makeKey, if_neg (by simp [h.specialKeyEnabled]),
    if_pos h.specialKeyEnabled]

/-- A key with an entry in the tables, be it a character or NUL. -/
theorem handleKeypress_make_code (h : Follows s.flags false sh)
    (hcode : codeToAscii.getD m.val.toNat 0 ≠ asciiPlaceholder) :
    s.handleKeypress I ((ScanEvent.make m).bytes ++ rest) =
      some (.none, rest, s.typeChar (m.char sh)) := by
  rw [handleKeypress_make, makeKey, if_pos ⟨hcode, h.specialKeyEnabled⟩,
    if_neg (by simp [h.cntrlLOn, h.cntrlROn]), h.charOf]

/-- A key without a character that is none of those left out: at most a flag changes. -/
theorem handleKeypress_make_special (h : Follows s.flags false sh)
    (hcode : codeToAscii.getD m.val.toNat 0 = asciiPlaceholder)
    (hplain : (ScanEvent.make m).Plain) :
    ∃ flags, s.handleKeypress I ((ScanEvent.make m).bytes ++ rest) =
        some (.none, rest, { s with flags }) ∧ Follows flags false (sh.make m) := by
  simp only [ScanEvent.Plain, List.mem_cons, List.not_mem_nil, or_false, not_or] at hplain
  obtain ⟨hcaps, henter, hbksp, htab, hf1, hf2, hf3, hctrl⟩ := hplain
  rw [handleKeypress_make, makeKey, if_neg (fun hne => hne.1 hcode),
    if_neg (by simp [h.specialKeyEnabled]), specialMake, if_neg hctrl, if_neg hcaps, if_neg henter,
    if_neg hbksp, if_neg hf1, if_neg hf2, if_neg hf3, if_neg htab, Shifts.make]
  split
  · exact ⟨_, rfl, h.1, h.2, h.3, h.4, rfl, h.6⟩
  · split
    · exact ⟨_, rfl, h.1, h.2, h.3, h.4, h.5, rfl⟩
    · split
      · exact ⟨_, rfl, h.1, h.2, h.3, h.4, h.5, h.6⟩
      · exact ⟨s.flags, rfl, h⟩

theorem handleKeypress_release (h : Follows s.flags pending sh)
    (hplain : (ScanEvent.release m).Plain) :
    ∃ flags, s.handleKeypress I ((ScanEvent.release m).bytes ++ rest) =
        some (.none, rest, { s with flags }) ∧ Follows flags pending (sh.release m) := by
  obtain ⟨hmake, hext, -⟩ := m.release_code
  refine ⟨_, ?_, h.breakCode (m := m) fun hctrl => by simp [ScanEvent.Plain, hctrl] at hplain⟩
  simp only [ScanEvent.bytes, List.cons_append, List.nil_append, handleKeypress]
  rw [if_neg hmake, if_neg hext]

/-- The two codes of an extended key. -/
theorem handleKeypress_special {code : UInt8} (h : Follows s.flags pending sh) (hmake : code ≠ 0x1d)
    (hrelease : code ≠ 0x9d) :
    ∃ flags, s.handleKeypress I (0xe0 :: code :: rest) = some (.none, rest, { s with flags }) ∧
      Follows flags true sh := by
  refine ⟨_, ?_, h.specialCode hmake hrelease⟩
  rw [handleKeypress, if_neg (by decide), if_pos rfl]

theorem handleKeypress_extended (h : Follows s.flags pending sh) {e : ScanEvent}
    (he : e = .extMake m ∨ e = .extRelease m) (hplain : e.Plain) :
    ∃ flags, s.handleKeypress I (e.bytes ++ rest) = some (.none, rest, { s with flags }) ∧
      Follows flags true sh := by
  obtain ⟨hmake, -, -, -, hctrl⟩ := m.release_code
  rcases he with rfl | rfl
  · exact handleKeypress_special rest h hplain fun h9d => by
      have := m.property.2
      rw [h9d] at this
      exact absurd this (by decide)
  · exact handleKeypress_special rest h (fun h1d => hmake (by rw [h1d]; decide))
      fun h9d => hplain (hctrl.1 h9d)

end Keypad

/-! ## Streams -/

/-- Type a text at the end of the line. -/
def Line.typeAll (l : Line) (cs : List UInt8) : Line := cs.foldl (fun l c => l.type c) l

theorem Line.chars_typeAll {cs : List UInt8} : ∀ {l : Line},
    l.chars.length + cs.length ≤ maxCharsInBuf → (l.typeAll cs).chars = l.chars ++ cs := by
  induction cs with
  | nil => exact fun _ => (List.append_nil _).symm
  | cons c cs ih =>
      intro l hroom
      rw [List.length_cons] at hroom
      have htype : (l.type c).chars = l.chars ++ [c] := by
        rw [Line.type, dif_pos (by omega)]
      have hroom' : (l.type c).chars.length + cs.length ≤ maxCharsInBuf := by
        rw [htype, List.length_append, List.length_singleton]
        omega
      rw [Line.typeAll, List.foldl_cons, ← Line.typeAll, ih hroom', htype, List.append_assoc,
        List.singleton_append]

/-- The buffer holds one line. -/
theorem HoldsLine.unique {s : Tty} {term : Term} {l l' : Line} (h : HoldsLine s term l)
    (h' : HoldsLine s term l') : l.chars = l'.chars := by
  apply List.ext_getElem (h.numChars.symm.trans h'.numChars)
  intro i hi hi'
  exact UInt8.toNat_inj.1 ((h.key i hi).symm.trans (h'.key i hi'))

namespace Keypad

variable {I : Image} {term : Term}

/-- **One event**: the handler takes its bytes and types what it heeds of the event. -/
theorem handleKeypress_event {s : Keypad} {pending : Bool} {sh : Shifts} {l : Line}
    (h : Follows s.flags pending sh) (hline : HoldsLine s.tty term l) {e : ScanEvent}
    (hplain : e.Plain) (es : List ScanEvent) (rest : List UInt8) :
    ∃ s' pending' sh' l', s.handleKeypress I (e.bytes ++ rest) = some (.none, rest, s') ∧
      Follows s'.flags pending' sh' ∧ HoldsLine s'.tty term l' ∧
      l.typeAll (decode sh (heeded pending (e :: es))) =
        l'.typeAll (decode sh' (heeded pending' es)) := by
  cases e with
  | make m =>
      cases pending with
      | true =>
          exact ⟨_, false, sh, l, handleKeypress_make_pending rest h,
            ⟨rfl, h.2, h.3, h.4, h.5, h.6⟩, hline, rfl⟩
      | false =>
          by_cases hcode : codeToAscii.getD m.val.toNat 0 = asciiPlaceholder
          · have hchar : ¬ m.isChar = true := fun hc => (decide_eq_true_iff.1 hc).1 hcode
            obtain ⟨flags, hkey, hflags⟩ := handleKeypress_make_special rest h hcode hplain
            refine ⟨_, false, _, l, hkey, hflags, hline, ?_⟩
            rw [heeded, decode, if_neg hchar]
          · refine ⟨_, false, sh, if m.isChar then l.type (m.char sh) else l,
              handleKeypress_make_code rest h hcode, h, ?_, ?_⟩
            · rw [typeChar, hline.activeTerminal]
              split
              · rename_i hchar
                exact hline.addCharToBuffer ⟨m.char sh, MakeCode.char_ne hchar sh⟩
              · rename_i hchar
                rw [MakeCode.char_eq_zero hchar hcode, Tty.addCharToBuffer_zero]
                exact hline
            · rw [heeded, decode]
              split
              · rfl
              · rw [MakeCode.make_of_ne_placeholder hcode]
  | release m =>
      obtain ⟨flags, hkey, hflags⟩ := handleKeypress_release rest h hplain
      refine ⟨_, pending, _, l, hkey, hflags, hline, ?_⟩
      rw [heeded, decode]
  | extMake m =>
      obtain ⟨flags, hkey, hflags⟩ := handleKeypress_extended (m := m) rest h (.inl rfl) hplain
      refine ⟨_, true, sh, l, hkey, hflags, hline, ?_⟩
      rw [heeded, decode]
  | extRelease m =>
      obtain ⟨flags, hkey, hflags⟩ := handleKeypress_extended (m := m) rest h (.inr rfl) hplain
      refine ⟨_, true, sh, l, hkey, hflags, hline, ?_⟩
      rw [heeded, decode]

/-- **Any stream of events** types what the handler heeds of it. -/
theorem keypresses_heeded {es : List ScanEvent} : ∀ {s : Keypad} {pending : Bool} {sh : Shifts}
    {l : Line}, Follows s.flags pending sh → HoldsLine s.tty term l → (∀ e ∈ es, e.Plain) →
    ∀ n, es.length ≤ n → ∃ s', s.keypresses I n (es.flatMap ScanEvent.bytes) = some s' ∧
      HoldsLine s'.tty term (l.typeAll (decode sh (heeded pending es))) := by
  induction es with
  | nil =>
      intro s pending sh l _ hline _ n _
      exact ⟨s, by simp [keypresses], hline⟩
  | cons e es ih =>
      intro s pending sh l h hline hplain n hn
      obtain ⟨s₁, pending₁, sh₁, l₁, hkey, h₁, hline₁, hsame⟩ := handleKeypress_event (I := I) h hline
        (hplain e List.mem_cons_self) es (es.flatMap ScanEvent.bytes)
      obtain ⟨n, rfl⟩ : ∃ k, n = k + 1 := ⟨n - 1, by simp only [List.length_cons] at hn; omega⟩
      obtain ⟨s₂, hkeys, hline₂⟩ := ih h₁ hline₁ (fun e he => hplain e (List.mem_cons_of_mem _ he)) n
        (by simpa using hn)
      refine ⟨s₂, ?_, hsame ▸ hline₂⟩
      rw [List.flatMap_cons]
      cases hbytes : e.bytes ++ es.flatMap ScanEvent.bytes with
      | nil =>
          rw [hbytes] at hkey
          simp [handleKeypress] at hkey
      | cons code stream =>
          rw [hbytes] at hkey
          simp only [keypresses, hkey, hkeys]

theorem length_le_length_bytes (es : List ScanEvent) :
    es.length ≤ (es.flatMap ScanEvent.bytes).length := by
  induction es with
  | nil => exact Nat.le_refl _
  | cons e es ih =>
      rw [List.flatMap_cons, List.length_append, List.length_cons]
      have hpos : 0 < e.bytes.length := by cases e <;> exact Nat.succ_pos _
      omega

/-- Handled call by call, the bytes of the events put the text they type into the line of the terminal
    on display. -/
def Types (I : Image) (s : Keypad) (es : List ScanEvent) : Prop :=
  ∃ s' l, s.keypresses I (es.flatMap ScanEvent.bytes).length (es.flatMap ScanEvent.bytes) = some s' ∧
    HoldsLine s'.tty s.tty.kbd.activeTerminal l ∧ l.chars = decode .up es

variable {s : Keypad} {es : List ScanEvent}

theorem types_iff_decode (hflags : Follows s.flags false .up)
    (hnum : s.tty.kbd.numCharsInBuf s.tty.kbd.activeTerminal = 0) (hplain : ∀ e ∈ es, e.Plain)
    (hroom : (decode .up es).length ≤ maxCharsInBuf) :
    s.Types I es ↔ decode .up (heeded false es) = decode .up es := by
  have hempty : HoldsLine s.tty s.tty.kbd.activeTerminal Line.empty :=
    ⟨rfl, hnum, fun i hi => by simp [Line.empty] at hi⟩
  obtain ⟨s₁, hkeys, hline⟩ := keypresses_heeded (I := I) hflags hempty hplain _
    (length_le_length_bytes es)
  have hchars : (Line.empty.typeAll (decode .up (heeded false es))).chars =
      decode .up (heeded false es) := by
    have hlen := length_decode_heeded_le es false .up .up
    rw [Line.chars_typeAll (by simp only [Line.empty, List.length_nil]; omega)]
    rfl
  constructor
  · rintro ⟨s', l, hkeys', hline', hl⟩
    obtain rfl : s₁ = s' := Option.some.inj (hkeys.symm.trans hkeys')
    rw [← hchars, hline.unique hline', hl]
  · exact fun h => ⟨s₁, _, hkeys, hline, hchars.trans h⟩

/-- **What a stream types**: the handler decodes a stream of events as the keys mean it if and only if
    nothing is lost on a make that is the first one after an extended event. -/
theorem types_iff (hflags : Follows s.flags false .up)
    (hnum : s.tty.kbd.numCharsInBuf s.tty.kbd.activeTerminal = 0) (hplain : ∀ e ∈ es, e.Plain)
    (hroom : (decode .up es).length ≤ maxCharsInBuf) :
    s.Types I es ↔ LosesNothing false .up .up es :=
  (types_iff_decode hflags hnum hplain hroom).trans (decode_heeded_iff es false .up .up)

/-- The driver after the boot. -/
def boot : Keypad where
  tty := bootTty
  flags := {
    specialKeyEnabled := false
    cntrlLOn := false
    cntrlROn := false
    capsOn := false
    shiftLOn := false
    shiftROn := false
    altLOn := false
    altROn := false }

/-- Shift and A, the up arrow, F12 and B. -/
def sampleEvents : List ScanEvent :=
  [.make ⟨0x2a, by decide⟩, .make ⟨0x1e, by decide⟩, .release ⟨0x1e, by decide⟩,
    .release ⟨0x2a, by decide⟩, .extMake ⟨0x48, by decide⟩, .extRelease ⟨0x48, by decide⟩,
    .make ⟨0x58, by decide⟩, .release ⟨0x58, by decide⟩, .make ⟨0x30, by decide⟩]

/-- F12 is lost and would have typed nothing. -/
theorem types_sampleEvents : boot.Types (sampleImage []) sampleEvents :=
  (types_iff ⟨rfl, rfl, rfl, rfl, rfl, rfl⟩ rfl (by decide) (by decide +kernel)).2
    (by decide +kernel)

/-- The up arrow and A. -/
def arrowEvents : List ScanEvent :=
  [.extMake ⟨0x48, by decide⟩, .extRelease ⟨0x48, by decide⟩, .make ⟨0x1e, by decide⟩]

/-- The A is lost. -/
theorem types_arrowEvents : ¬ ∀ (I : Image) (s : Keypad) (es : List ScanEvent),
    Follows s.flags false .up → s.tty.kbd.numCharsInBuf s.tty.kbd.activeTerminal = 0 →
    (∀ e ∈ es, e.Plain) → (decode .up es).length ≤ maxCharsInBuf → s.Types I es := by
  intro h
  have htypes := h (sampleImage []) boot arrowEvents ⟨rfl, rfl, rfl, rfl, rfl, rfl⟩ rfl (by decide)
    (by decide +kernel)
  have hsame := (types_iff_decode ⟨rfl, rfl, rfl, rfl, rfl, rfl⟩ rfl (by decide)
    (by decide +kernel)).1 htypes
  revert hsame
  decide +kernel

end Keypad

end Gyarados

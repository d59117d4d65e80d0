import Gyarados.Lib.Itoa

set_option autoImplicit false

/-! # Formatted output (`printf` of `lib/lib.c`)

`printf` goes through its format string with one pointer, which the loop, the `#` flag and the end of a
conversion each move on. Its arguments are the words behind the format on the stack. The model keeps the
bytes that `printf` hands to `putc` and the addresses at which it looks at the format. -/

namespace Gyarados

/-! ## The function -/

/-- A call of `printf`. -/
structure PrintfCall where
  mem : Memory
  /-- The address of the format string. -/
  format : Nat
  /-- The address of the first argument. -/
  esp : Nat
  /-- What `conv_buf` holds before it is written to. -/
  convBuf : Memory

/-- What a call did: the value returned, the bytes printed and the addresses examined. -/
structure PrintfResult where
  ret : Int
  out : List UInt8
  examined : List Nat

/-- The zeros that `%#x` puts in front, `n` of them from index `i` on. -/
def padLoop : Nat → Nat → Memory → Memory
  | 0, _, m => m
  | n + 1, i, m => padLoop n (i + 1) (m.setByte i 48)

/-- `%x`: what `puts` prints. -/
def convX (alternate : Bool) (word : Nat) (convBuf : Memory) : Option (List UInt8) :=
  if alternate = false then (itoa word 0 16 convBuf).map fun m => m.stringAt 0 0x100000000
  else
    (itoa word 8 16 convBuf).map fun m =>
      let startingIndex := m.strlen 8
      (padLoop (8 - startingIndex) startingIndex m).stringAt startingIndex 0x100000000

/-- `%u` -/
def convU (word : Nat) (convBuf : Memory) : Option (List UInt8) :=
  (itoa word 0 10 convBuf).map fun m => m.stringAt 0 0x100000000

/-- `%d` -/
def convD (word : Nat) (convBuf : Memory) : Option (List UInt8) :=
  let value := toInt32 word
  if value < 0 then
    (itoa (ofInt32 (-value)) 1 10 (convBuf.setByte 0 45)).map fun m => m.stringAt 0 0x100000000
  else (itoa (ofInt32 value) 0 10 convBuf).map fun m => m.stringAt 0 0x100000000

namespace PrintfCall

variable (p : PrintfCall)

/-- The switch on the character of a conversion, which is not `#`: what is printed, and `esp` after
    it. -/
def convert (c : UInt8) (alternate : Bool) (esp : Nat) : Option (List UInt8 × Nat) :=
  let word := p.mem.word esp
  if c = 37 then some ([37], esp)
  else if c = 120 then (convX alternate word p.convBuf).map fun text => (text, esp + 4)
  else if c = 117 then (convU word p.convBuf).map fun text => (text, esp + 4)
  else if c = 100 then (convD word p.convBuf).map fun text => (text, esp + 4)
  else if c = 99 then some ([UInt8.ofNat word], esp + 4)
  else if c = 115 then some (p.mem.stringAt word 0x100000000, esp + 4)
  else some ([], esp)

/-- The label `format_char_switch`: the jump back at every `#`. -/
def formatCharSwitch : Nat → Nat → Bool → List Nat → Option (Nat × Bool × List Nat)
  | 0, _, _, _ => none
  | fuel + 1, buf, alternate, examined =>
      if p.mem buf = 35 then formatCharSwitch fuel (buf + 1) true (buf :: examined)
      else some (buf, alternate, buf :: examined)

/-- The loop of `printf`: `none` if it does not end within `fuel` turns. -/
def loop : Nat → Nat → Nat → List UInt8 → List Nat → Option PrintfResult
  | 0, _, _, _, _ => none
  | fuel + 1, buf, esp, out, examined =>
      if p.mem buf = 0 then some ⟨(buf : Int) - p.format, out, buf :: examined⟩
      else if p.mem buf = 37 then
        (p.formatCharSwitch fuel (buf + 1) false (buf :: examined)).bind
          fun (buf, alternate, examined) =>
            (p.convert (p.mem buf) alternate esp).bind fun (text, esp) =>
              loop fuel (buf + 1) esp (out ++ text) examined
      else loop fuel (buf + 1) esp (out ++ [p.mem buf]) (buf :: examined)

/-- `printf` -/
def printf (fuel : Nat) : Option PrintfResult := p.loop fuel p.format p.esp [] []

end PrintfCall

/-! ## What a format means -/

/-- A part of a format string. -/
inductive FormatPart
  | plain (c : UInt8)
  | conversion (alternate : Bool) (c : UInt8)

/-- Where the reader of a format is: outside a conversion, or inside one with or without `#`. -/
abbrev FormatState := Option Bool

/-- The parts of a format. A `%` with nothing behind it is none. -/
def formatParts : FormatState → List UInt8 → List FormatPart
  | _, [] => []
  | none, c :: cs => if c = 37 then formatParts (some false) cs else .plain c :: formatParts none cs
  | some alternate, c :: cs =>
      if c = 35 then formatParts (some true) cs
      else .conversion alternate c :: formatParts none cs

/-- The reader takes one character. -/
def FormatState.next : FormatState → UInt8 → FormatState
  | none, c => if c = 37 then some false else none
  | some _, c => if c = 35 then some true else none

/-- The format ends behind a `%`, or behind the `#` that follow it. -/
def EndsInside (s : List UInt8) : Prop := (s.foldl FormatState.next none).isSome = true

instance (s : List UInt8) : Decidable (EndsInside s) := inferInstanceAs (Decidable (_ = _))

/-- The hexadecimal numeral of a word, with zeros in front up to eight digits. -/
def hexString8 (word : Nat) : List UInt8 :=
  List.replicate (8 - (digitString 16 word).length) 48 ++ digitString 16 word

/-- The decimal numeral of a signed word. -/
def signedString (word : Nat) : List UInt8 :=
  if toInt32 word < 0 then 45 :: digitString 10 (toInt32 word).natAbs
  else digitString 10 (toInt32 word).natAbs

/-- What a part prints, with its argument at `esp`, and where the next argument is. -/
def FormatPart.expand (mem : Memory) (esp : Nat) : FormatPart → List UInt8 × Nat
  | .plain c => ([c], esp)
  | .conversion alternate c =>
      if c = 37 then ([37], esp)
      else if c = 120 then
        (if alternate then hexString8 (mem.word esp) else digitString 16 (mem.word esp), esp + 4)
      else if c = 117 then (digitString 10 (mem.word esp), esp + 4)
      else if c = 100 then (signedString (mem.word esp), esp + 4)
      else if c = 99 then ([UInt8.ofNat (mem.word esp)], esp + 4)
      else if c = 115 then (mem.stringAt (mem.word esp) 0x100000000, esp + 4)
      else ([], esp)

/-- The expansions of the parts, one after the other. -/
def expandParts (mem : Memory) : Nat → List FormatPart → List UInt8
  | _, [] => []
  | esp, part :: parts => (part.expand mem esp).1 ++ expandParts mem (part.expand mem esp).2 parts

/-! ## Strings in memory -/

namespace Memory

/-- The string at `a` is `s`. -/
def IsString (m : Memory) : Nat → List UInt8 → Prop
  | a, [] => m a = 0
  | a, c :: cs => m a = c ∧ c ≠ 0 ∧ IsString m (a + 1) cs

instance decidableIsString (m : Memory) : ∀ (a : Nat) (s : List UInt8), Decidable (m.IsString a s)
  | a, [] => inferInstanceAs (Decidable (m a = 0))
  | a, c :: cs =>
      have := decidableIsString m (a + 1) cs
      inferInstanceAs (Decidable (m a = c ∧ c ≠ 0 ∧ m.IsString (a + 1) cs))

variable {m m' : Memory} {s : List UInt8}

theorem isString_of_stringAt : ∀ {s : List UInt8} {a n : Nat}, m.stringAt a n = s → s.length < n →
    m.IsString a s := by
  intro s
  induction s with
  | nil =>
      intro a n h hn
      obtain ⟨n, rfl⟩ := Nat.exists_eq_succ_of_ne_zero (Nat.ne_zero_of_lt hn)
      exact stringAt_eq_nil.1 h
  | cons c cs ih =>
      intro a n h hn
      obtain ⟨n, rfl⟩ := Nat.exists_eq_succ_of_ne_zero (Nat.ne_zero_of_lt hn)
      rw [stringAt] at h
      split at h
      · simp at h
      · rename_i hne
        obtain ⟨rfl, htail⟩ := List.cons.inj h
        exact ⟨rfl, hne, ih htail (Nat.lt_of_succ_lt_succ hn)⟩

theorem IsString.stringAt : ∀ {s : List UInt8} {a n : Nat}, m.IsString a s → s.length < n →
    m.stringAt a n = s := by
  intro s
  induction s with
  | nil =>
      intro a n h hn
      obtain ⟨n, rfl⟩ := Nat.exists_eq_succ_of_ne_zero (Nat.ne_zero_of_lt hn)
      exact stringAt_eq_nil.2 h
  | cons c cs ih =>
      intro a n h hn
      obtain ⟨n, rfl⟩ := Nat.exists_eq_succ_of_ne_zero (Nat.ne_zero_of_lt hn)
      obtain ⟨rfl, hne, htail⟩ := h
      rw [Memory.stringAt, if_neg hne, ih htail (Nat.lt_of_succ_lt_succ hn)]

theorem IsString.congr : ∀ {s : List UInt8} {a : Nat}, m.IsString a s → (∀ i, a ≤ i → m' i = m i) →
    m'.IsString a s := by
  intro s
  induction s with
  | nil => exact fun h hsame => (hsame _ (Nat.le_refl _)).trans h
  | cons c cs ih =>
      intro a h hsame
      exact ⟨(hsame a (Nat.le_refl a)).trans h.1, h.2.1, ih h.2.2 fun i hi => hsame i (by omega)⟩

end Memory

/-! ## The conversions -/

theorem padLoop_of_lt (n : Nat) : ∀ {i a : Nat} (m : Memory), a < i → padLoop n i m a = m a := by
  induction n with
  | zero => exact fun _ _ => rfl
  | succ n ih =>
      intro i a m ha
      rw [padLoop, ih _ (by omega), Memory.setByte_of_ne _ _ (by omega)]

/-- The zeros stand before the string behind them. -/
theorem isString_padLoop (n : Nat) : ∀ {i : Nat} {m : Memory} {s : List UInt8}, m.IsString (i + n) s →
    (padLoop n i m).IsString i (List.replicate n 48 ++ s) := by
  induction n with
  | zero => exact fun h => h
  | succ n ih =>
      intro i m s h
      rw [padLoop, List.replicate_succ, List.cons_append]
      refine ⟨?_, by decide, ih ?_⟩
      · rw [padLoop_of_lt n _ (Nat.lt_succ_self i), Memory.setByte_self]
      · rw [show i + 1 + n = i + (n + 1) by omega]
        exact h.congr fun a ha => Memory.setByte_of_ne _ _ (by omega)

/-- The string of a number fits wherever it is put. -/
theorem length_digitString_le {radix value : Nat} {k : Nat} (hr : 1 < radix) (hk : 0 < k)
    (hv : value < radix ^ k) : (digitString radix value).length ≤ k :=
  length_numeral_le digitSign hr hk hv

theorem convX_eq (alternate : Bool) {word : Nat} (hword : word < 0x100000000) (convBuf : Memory) :
    convX alternate word convBuf =
      some (if alternate then hexString8 word else digitString 16 word) := by
  have hlen : (digitString 16 word).length ≤ 8 :=
    length_digitString_le (by decide) (by decide) (hword.trans_le (by decide))
  cases alternate with
  | false =>
      obtain ⟨m, hitoa, hstring, -⟩ := itoa_spec (show 2 ≤ 16 ∧ 16 ≤ 36 by decide) hword 0 convBuf
      rw [convX, if_pos rfl, hitoa, Option.map_some, hstring]
      rfl
  | true =>
      obtain ⟨m, hitoa, hstring, -⟩ := itoa_spec (show 2 ≤ 16 ∧ 16 ≤ 36 by decide) hword 8 convBuf
      have hstrlen : m.strlen 8 = (digitString 16 word).length := congrArg List.length hstring
      have hdigits : m.IsString 8 (digitString 16 word) :=
        Memory.isString_of_stringAt hstring (by omega)
      rw [convX, if_neg (by decide), hitoa, Option.map_some, hstrlen]
      congr 1
      have hplace : (digitString 16 word).length + (8 - (digitString 16 word).length) = 8 := by omega
      refine (isString_padLoop _ ?_).stringAt ?_
      · rw [hplace]
        exact hdigits
      · simp only [List.length_append, List.length_replicate]
        omega

theorem convU_eq {word : Nat} (hword : word < 0x100000000) (convBuf : Memory) :
    convU word convBuf = some (digitString 10 word) := by
  obtain ⟨m, hitoa, hstring, -⟩ := itoa_spec (show 2 ≤ 10 ∧ 10 ≤ 36 by decide) hword 0 convBuf
  rw [convU, hitoa, Option.map_some, hstring]

theorem convD_eq {word : Nat} (hword : word < 0x100000000) (convBuf : Memory) :
    convD word convBuf = some (signedString word) := by
  have hten : 2 ≤ 10 ∧ 10 ≤ 36 := by decide
  unfold convD signedString
  dsimp only
  split
  · rename_i hneg
    -- the least value is its own negative as a word, and its absolute value as an unsigned one
    have habs : ofInt32 (-toInt32 word) = (toInt32 word).natAbs := by
      unfold ofInt32 toInt32 at *
      split at hneg <;> omega
    obtain ⟨m, hitoa, hstring, hsame⟩ :=
      itoa_spec hten (habs ▸ ofInt32_lt _) 1 (convBuf.setByte 0 45)
    have hlen : (digitString 10 (toInt32 word).natAbs).length ≤ 10 :=
      length_digitString_le (by decide) (by decide)
        ((habs ▸ ofInt32_lt _ : (toInt32 word).natAbs < 0x100000000).trans_le (by decide))
    have hdigits := Memory.isString_of_stringAt hstring (by omega)
    have hsign : m 0 = 45 := (hsame 0 (.inl (by decide))).trans (Memory.setByte_self _ _ _)
    rw [habs, hitoa, Option.map_some]
    have hall : m.IsString 0 (45 :: digitString 10 (toInt32 word).natAbs) :=
      ⟨hsign, by decide, hdigits⟩
    rw [hall.stringAt (by rw [List.length_cons]; omega)]
  · rename_i hpos
    have habs : ofInt32 (toInt32 word) = (toInt32 word).natAbs := by
      unfold ofInt32 toInt32 at *
      split at hpos <;> omega
    obtain ⟨m, hitoa, hstring, -⟩ := itoa_spec hten (habs ▸ ofInt32_lt _) 0 convBuf
    rw [habs, hitoa, Option.map_some, hstring]

/-- **A conversion** prints what it stands for. -/
theorem PrintfCall.convert_eq (p : PrintfCall) (c : UInt8) (alternate : Bool) (esp : Nat) :
    p.convert c alternate esp = some ((FormatPart.conversion alternate c).expand p.mem esp) := by
  have hword := p.mem.word_lt esp
  unfold PrintfCall.convert FormatPart.expand
  simp only [convX_eq alternate hword, convU_eq hword, convD_eq hword, Option.map_some]
  split_ifs <;> rfl

/-! ## The scan -/

namespace PrintfCall

variable {p : PrintfCall}

/-- Inside a conversion: past the `#`, the conversion, and then the loop. -/
def resume (p : PrintfCall) (fuel fuel' buf : Nat) (alternate : Bool) (esp : Nat) (out : List UInt8)
    (examined : List Nat) : Option PrintfResult :=
  (p.formatCharSwitch fuel buf alternate examined).bind fun (buf, alternate, examined) =>
    (p.convert (p.mem buf) alternate esp).bind fun (text, esp) =>
      p.loop fuel' (buf + 1) esp (out ++ text) examined

theorem loop_nul {fuel buf esp : Nat} {out : List UInt8} {examined : List Nat}
    (h : p.mem buf = 0) : p.loop (fuel + 1) buf esp out examined =
      some ⟨(buf : Int) - p.format, out, buf :: examined⟩ := by
  rw [loop, if_pos h]

theorem loop_percent {fuel buf esp : Nat} {out : List UInt8} {examined : List Nat}
    (h : p.mem buf = 37) : p.loop (fuel + 1) buf esp out examined =
      p.resume fuel fuel (buf + 1) false esp out (buf :: examined) := by
  rw [loop, if_neg (by rw [h]; decide), if_pos h]
  rfl

theorem loop_plain {fuel buf esp : Nat} {out : List UInt8} {examined : List Nat}
    (h0 : p.mem buf ≠ 0) (h : p.mem buf ≠ 37) : p.loop (fuel + 1) buf esp out examined =
      p.loop fuel (buf + 1) esp (out ++ [p.mem buf]) (buf :: examined) := by
  rw [loop, if_neg h0, if_neg h]

theorem resume_flag {fuel fuel' buf esp : Nat} {alternate : Bool} {out : List UInt8}
    {examined : List Nat} (h : p.mem buf = 35) :
    p.resume (fuel + 1) fuel' buf alternate esp out examined =
      p.resume fuel fuel' (buf + 1) true esp out (buf :: examined) := by
  rw [resume, formatCharSwitch, if_pos h]
  rfl

theorem resume_conversion {fuel fuel' buf esp : Nat} {alternate : Bool} {out : List UInt8}
    {examined : List Nat} (h : p.mem buf ≠ 35) :
    p.resume (fuel + 1) fuel' buf alternate esp out examined =
      p.loop fuel' (buf + 1) ((FormatPart.conversion alternate (p.mem buf)).expand p.mem esp).2
        (out ++ ((FormatPart.conversion alternate (p.mem buf)).expand p.mem esp).1)
        (buf :: examined) := by
  rw [resume, formatCharSwitch, if_neg h, Option.bind_some]
  dsimp only
  rw [convert_eq, Option.bind_some]

/-- What the scan of the rest `s` of a format at `buf` leads to. -/
structure Scanned (p : PrintfCall) (buf : Nat) (s : List UInt8) (esp : Nat) (out : List UInt8)
    (examined : List Nat) (parts : List FormatPart) (r : PrintfResult) : Prop where
  ret : r.ret = (buf : Int) + s.length - p.format
  out : r.out = out ++ expandParts p.mem esp parts
  examined : ∀ a ∈ r.examined, a ∈ examined ∨ a ≤ buf + s.length

/-- One character further on. -/
theorem Scanned.cons {buf esp esp' : Nat} {c : UInt8} {s out text : List UInt8} {examined : List Nat}
    {parts parts' : List FormatPart} {r : PrintfResult}
    (h : Scanned p (buf + 1) s esp' (out ++ text) (buf :: examined) parts r)
    (hparts : expandParts p.mem esp parts' = text ++ expandParts p.mem esp' parts) :
    Scanned p buf (c :: s) esp out examined parts' r where
  ret := by
    rw [h.ret, List.length_cons]
    push_cast
    omega
  out := by rw [h.out, hparts, List.append_assoc]
  examined a ha := by
    rw [List.length_cons]
    rcases h.examined a ha with hold | hnew
    · rcases List.mem_cons.1 hold with rfl | hold
      · exact .inr (by omega)
      · exact .inl hold
    · exact .inr (by omega)

/-- **A format that does not end inside a conversion** is read up to its NUL, from outside and from
    inside a conversion. -/
theorem scanned_of_outside (s : List UInt8) : ∀ (buf esp : Nat) (out : List UInt8) (examined : List Nat),
    p.mem.IsString buf s →
    (∀ fuel, s.length < fuel → s.foldl FormatState.next none = none →
      ∃ r, p.loop fuel buf esp out examined = some r ∧
        Scanned p buf s esp out examined (formatParts none s) r) ∧
    ∀ fuel fuel' alternate, s.length < fuel → s.length < fuel' →
      s.foldl FormatState.next (some alternate) = none →
      ∃ r, p.resume fuel fuel' buf alternate esp out examined = some r ∧
        Scanned p buf s esp out examined (formatParts (some alternate) s) r := by
  induction s with
  | nil =>
      intro buf esp out examined hs
      refine ⟨fun fuel hfuel _ => ?_, fun fuel fuel' alternate _ _ hend => by simp at hend⟩
      obtain ⟨fuel, rfl⟩ := Nat.exists_eq_succ_of_ne_zero (Nat.ne_zero_of_lt hfuel)
      refine ⟨_, loop_nul hs, by simp, by simp [formatParts, expandParts], fun a ha => ?_⟩
      rcases List.mem_cons.1 ha with rfl | ha
      · exact .inr (Nat.le_refl _)
      · exact .inl ha
  | cons c s ih =>
      intro buf esp out examined hs
      obtain ⟨hc, hzero, hs⟩ := hs
      constructor
      · intro fuel hfuel hend
        obtain ⟨fuel, rfl⟩ := Nat.exists_eq_succ_of_ne_zero (Nat.ne_zero_of_lt hfuel)
        rw [List.length_cons] at hfuel
        by_cases hpercent : c = 37
        · subst hpercent
          obtain ⟨r, hr, hscan⟩ := (ih (buf + 1) esp out (buf :: examined) hs).2 fuel fuel false
            (by omega) (by omega) hend
          refine ⟨r, (loop_percent hc).trans hr, ?_⟩
          rw [← List.append_nil out] at hscan
          exact hscan.cons rfl
        · simp only [List.foldl_cons, FormatState.next, if_neg hpercent] at hend
          obtain ⟨r, hr, hscan⟩ := (ih (buf + 1) esp (out ++ [c]) (buf :: examined) hs).1 fuel
            (by omega) hend
          refine ⟨r, ?_, ?_⟩
          · rw [loop_plain (hc ▸ hzero) (hc ▸ hpercent), hc]
            exact hr
          · simp only [formatParts, if_neg hpercent]
            exact hscan.cons rfl
      · intro fuel fuel' alternate hfuel hfuel' hend
        obtain ⟨fuel, rfl⟩ := Nat.exists_eq_succ_of_ne_zero (Nat.ne_zero_of_lt hfuel)
        rw [List.length_cons] at hfuel hfuel'
        by_cases hflag : c = 35
        · subst hflag
          obtain ⟨r, hr, hscan⟩ := (ih (buf + 1) esp out (buf :: examined) hs).2 fuel fuel' true
            (by omega) (by omega) hend
          refine ⟨r, (resume_flag hc).trans hr, ?_⟩
          rw [← List.append_nil out] at hscan
          exact hscan.cons rfl
        · simp only [List.foldl_cons, FormatState.next, if_neg hflag] at hend
          obtain ⟨r, hr, hscan⟩ := (ih (buf + 1) _ _ (buf :: examined) hs).1 fuel' (by omega) hend
          refine ⟨r, ?_, ?_⟩
          · rw [resume_conversion (hc ▸ hflag), hc]
            exact hr
          · simp only [formatParts, if_neg hflag]
            exact hscan.cons rfl

/-- The switch forgets nothing that has been examined. -/
theorem mem_of_formatCharSwitch (fuel : Nat) : ∀ {buf : Nat} {alternate : Bool} {examined : List Nat}
    {result : Nat × Bool × List Nat}, p.formatCharSwitch fuel buf alternate examined = some result →
    ∀ a ∈ examined, a ∈ result.2.2 := by
  induction fuel with
  | zero => exact fun h => by simp [formatCharSwitch] at h
  | succ fuel ih =>
      intro buf alternate examined result h a ha
      rw [formatCharSwitch] at h
      split at h
      · exact ih h a (List.mem_cons_of_mem buf ha)
      · obtain rfl := Option.some.inj h
        exact List.mem_cons_of_mem buf ha

/-- The loop looks at the byte it stands on, and forgets nothing. -/
theorem mem_examined_of_loop (fuel : Nat) : ∀ {buf esp : Nat} {out : List UInt8} {examined : List Nat}
    {r : PrintfResult}, p.loop fuel buf esp out examined = some r →
    ∀ a ∈ buf :: examined, a ∈ r.examined := by
  induction fuel with
  | zero => exact fun h => by simp [loop] at h
  | succ fuel ih =>
      intro buf esp out examined r h a ha
      rw [loop] at h
      split at h
      · obtain rfl := Option.some.inj h
        exact ha
      · split at h
        · obtain ⟨⟨buf', alternate, examined'⟩, hswitch, h⟩ := Option.bind_eq_some_iff.1 h
          obtain ⟨⟨text, esp'⟩, -, h⟩ := Option.bind_eq_some_iff.1 h
          exact ih h a (List.mem_cons_of_mem _ (mem_of_formatCharSwitch fuel hswitch a ha))
        · exact ih h a (List.mem_cons_of_mem _ ha)

/-- **A format that ends inside a conversion** is read past its NUL. -/
theorem mem_examined_of_inside (s : List UInt8) : ∀ {buf esp : Nat} {out : List UInt8}
    {examined : List Nat} {r : PrintfResult}, p.mem.IsString buf s →
    (∀ fuel, (s.foldl FormatState.next none).isSome = true →
      p.loop fuel buf esp out examined = some r → buf + s.length + 1 ∈ r.examined) ∧
    ∀ fuel fuel' alternate, (s.foldl FormatState.next (some alternate)).isSome = true →
      p.resume fuel fuel' buf alternate esp out examined = some r →
      buf + s.length + 1 ∈ r.examined := by
  induction s with
  | nil =>
      intro buf esp out examined r hs
      refine ⟨fun fuel hend => by simp at hend, fun fuel fuel' alternate _ h => ?_⟩
      cases fuel with
      | zero => simp [resume, formatCharSwitch] at h
      | succ fuel =>
          -- the NUL is taken for the character of the conversion
          have hnul : p.mem buf ≠ 35 := by
            rw [show p.mem buf = 0 from hs]
            decide
          rw [resume_conversion hnul] at h
          exact mem_examined_of_loop fuel' h _ List.mem_cons_self
  | cons c s ih =>
      intro buf esp out examined r hs
      obtain ⟨hc, hzero, hs⟩ := hs
      rw [List.length_cons, show buf + (s.length + 1) + 1 = buf + 1 + s.length + 1 by omega]
      constructor
      · intro fuel hend h
        cases fuel with
        | zero => simp [loop] at h
        | succ fuel =>
            by_cases hpercent : c = 37
            · subst hpercent
              rw [loop_percent hc] at h
              exact (ih hs).2 fuel fuel false hend h
            · simp only [List.foldl_cons, FormatState.next, if_neg hpercent] at hend
              rw [loop_plain (hc ▸ hzero) (hc ▸ hpercent)] at h
              exact (ih hs).1 fuel hend h
      · intro fuel fuel' alternate hend h
        cases fuel with
        | zero => simp [resume, formatCharSwitch] at h
        | succ fuel =>
            by_cases hflag : c = 35
            · subst hflag
              rw [resume_flag hc] at h
              exact (ih hs).2 fuel fuel' true hend h
            · simp only [List.foldl_cons, FormatState.next, if_neg hflag] at hend
              rw [resume_conversion (hc ▸ hflag)] at h
              exact (ih hs).1 fuel' hend h

/-- With fuel for the length of the format the call ends, and it interprets the format and no more: it
    looks at no byte behind the NUL, returns the length, and prints the expansions. -/
def Interprets (p : PrintfCall) (s : List UInt8) : Prop :=
  ∀ fuel, s.length < fuel → ∃ r, p.printf fuel = some r ∧
    (∀ a ∈ r.examined, a ≤ p.format + s.length) ∧ r.ret = s.length ∧
      r.out = expandParts p.mem p.esp (formatParts none s)

theorem interprets_of_outside {s : List UInt8} (hs : p.mem.IsString p.format s)
    (hend : ¬ EndsInside s) : p.Interprets s := by
  intro fuel hfuel
  have hnone : s.foldl FormatState.next none = none := by
    simpa [EndsInside, Option.isSome_iff_ne_none] using hend
  obtain ⟨r, hr, hscan⟩ := (scanned_of_outside s p.format p.esp [] [] hs).1 fuel hfuel hnone
  refine ⟨r, hr, fun a ha => (hscan.examined a ha).resolve_left List.not_mem_nil, ?_, hscan.out⟩
  rw [hscan.ret]
  omega

end PrintfCall

/-! ## Numbers -/

/-- A call with the format `text` ends, and what it prints is as it should be. -/
def PrintfCall.Prints (p : PrintfCall) (text : List UInt8) (ok : List UInt8 → Prop) : Prop :=
  p.mem.IsString p.format text → ∀ fuel, text.length < fuel → ∃ r, p.printf fuel = some r ∧ ok r.out

/-- Exactly eight hexadecimal digits that are read as the word. -/
structure IsHexString8 (word : Nat) (s : List UInt8) : Prop where
  length : s.length = 8
  digits : ∀ c ∈ s, ∃ d < 16, c = digitSign d
  value : readNumeral digitValue 16 s = word

/-- A sign if the word is negative, and the decimal numeral of its absolute value. -/
def IsSignedString (word : Nat) (s : List UInt8) : Prop :=
  ∃ t, IsDigitString 10 (toInt32 word).natAbs t ∧ s = if toInt32 word < 0 then 45 :: t else t

theorem isDigitString_digitString {radix : Nat} (hr : 2 ≤ radix ∧ radix ≤ 36) (value : Nat) :
    IsDigitString radix value (digitString radix value) :=
  isNumeral_numeral hr.1 (fun d hd => digitValue_digitSign d (hd.trans_le hr.2)) value

theorem isHexString8_hexString8 {word : Nat} (hword : word < 0x100000000) :
    IsHexString8 word (hexString8 word) := by
  have hlen : (digitString 16 word).length ≤ 8 :=
    length_digitString_le (by decide) (by decide) (hword.trans_le (by decide))
  have hdigits : IsDigitString 16 word (digitString 16 word) :=
    isDigitString_digitString (by decide) word
  have hzero : digitSign 0 = 48 := by decide
  refine ⟨?_, ?_, ?_⟩
  · simp only [hexString8, List.length_append, List.length_replicate]
    omega
  · intro c hc
    rcases List.mem_append.1 hc with hc | hc
    · exact ⟨0, by decide, (List.eq_of_mem_replicate hc).trans hzero.symm⟩
    · exact hdigits.digits c hc
  · rw [hexString8, ← hzero, readNumeral_replicate (by decide), hdigits.value]

/-- There is one such string. -/
theorem IsHexString8.eq {word : Nat} {s t : List UInt8} (h : IsHexString8 word s)
    (h' : IsHexString8 word t) : s = t :=
  eq_of_readNumeral_eq (by decide) (fun d hd => digitValue_digitSign d (hd.trans (by decide))) h.digits
    h'.digits (h.length.trans h'.length.symm) (h.value.trans h'.value.symm)

theorem isSignedString_signedString (word : Nat) : IsSignedString word (signedString word) :=
  ⟨_, isDigitString_digitString (by decide) _, rfl⟩

/-- A conversion alone in the format. -/
theorem PrintfCall.prints_of_conversion (p : PrintfCall) {text expansion : List UInt8}
    {ok : List UInt8 → Prop} (hend : ¬ EndsInside text)
    (hparts : expandParts p.mem p.esp (formatParts none text) = expansion) (hok : ok expansion) :
    p.Prints text ok := by
  intro hs fuel hfuel
  obtain ⟨r, hr, -, -, hout⟩ := interprets_of_outside hs hend fuel hfuel
  exact ⟨r, hr, (hout.trans hparts) ▸ hok⟩

/-- **Number formatting is exact**: `itoa` leaves the numeral of the word, which no other word has, and
    `printf` prints it in decimal, in hexadecimal with and without zeros in front, and as a signed
    number. -/
theorem numbers_exact {value : Nat} (hvalue : value < 0x100000000) :
    (∀ radix, 2 ≤ radix ∧ radix ≤ 36 → ∀ buf m, ∃ m', itoa value buf radix m = some m' ∧
      IsDigitString radix value (m'.stringAt buf 0x100000000)) ∧
    (∀ radix, 2 ≤ radix ∧ radix ≤ 36 → ∀ value' < 0x100000000, value' ≠ value → ∀ buf m₀ m m',
      itoa value buf radix m₀ = some m → itoa value' buf radix m₀ = some m' →
      m.stringAt buf 0x100000000 ≠ m'.stringAt buf 0x100000000) ∧
    ∀ p : PrintfCall, p.mem.word p.esp = value →
      p.Prints (ascii "%u") (IsDigitString 10 value) ∧ p.Prints (ascii "%x") (IsDigitString 16 value) ∧
      p.Prints (ascii "%#x") (IsHexString8 value) ∧ p.Prints (ascii "%d") (IsSignedString value) := by
  have hexact : ∀ radix, 2 ≤ radix ∧ radix ≤ 36 → ∀ v < 0x100000000, ∀ buf m m',
      itoa v buf radix m = some m' → IsDigitString radix v (m'.stringAt buf 0x100000000) := by
    intro radix hr v hv buf m m' h
    obtain ⟨m₁, hitoa, hstring, -⟩ := itoa_spec hr hv buf m
    obtain rfl := Option.some.inj (hitoa.symm.trans h)
    rw [hstring]
    exact isDigitString_digitString hr v
  refine ⟨?_, ?_, ?_⟩
  · intro radix hr buf m
    obtain ⟨m', hitoa, -⟩ := itoa_spec hr hvalue buf m
    exact ⟨m', hitoa, hexact radix hr value hvalue buf m m' hitoa⟩
  · intro radix hr value' hvalue' hne buf m₀ m m' h h' heq
    have hread := (hexact radix hr value hvalue buf m₀ m h).value
    rw [heq, (hexact radix hr value' hvalue' buf m₀ m' h').value] at hread
    exact hne hread
  · rintro p rfl
    refine ⟨?_, ?_, ?_, ?_⟩
    · exact p.prints_of_conversion (by decide +kernel) (List.append_nil _)
        (isDigitString_digitString (by decide) _)
    · exact p.prints_of_conversion (by decide +kernel) (List.append_nil _)
        (isDigitString_digitString (by decide) _)
    · exact p.prints_of_conversion (by decide +kernel) (List.append_nil _)
        (isHexString8_hexString8 hvalue)
    · exact p.prints_of_conversion (by decide +kernel) (List.append_nil _)
        (isSignedString_signedString _)

/-- The format `text` at address 0, and one argument behind it. -/
def sampleCall (text : List UInt8) (word : Nat) : PrintfCall where
  mem := (Memory.writeBytes (fun _ => 0) 0 text).setWord 64 word
  format := 0
  esp := 64
  convBuf := fun _ => 0xcc

/-- The least signed word. -/
theorem numbers_exact_least : (∃ m', itoa 0x80000000 0 2 (fun _ => 0) = some m' ∧
    IsDigitString 2 0x80000000 (m'.stringAt 0 0x100000000)) ∧
    (sampleCall (ascii "%d") 0x80000000).Prints (ascii "%d") (IsSignedString 0x80000000) := by
  obtain ⟨hitoa, -, hprintf⟩ := numbers_exact (show 0x80000000 < 0x100000000 by decide)
  exact ⟨hitoa 2 (by decide) 0 _, (hprintf (sampleCall (ascii "%d") 0x80000000) (by decide +kernel)).2.2.2⟩

/-! ## Formats -/

/-- **Which formats `printf` interprets exactly**: those that do not end inside a conversion. -/
theorem printf_interprets_iff {p : PrintfCall} {s : List UInt8} (hs : p.mem.IsString p.format s) :
    p.Interprets s ↔ ¬ EndsInside s := by
  refine ⟨fun h hend => ?_, PrintfCall.interprets_of_outside hs⟩
  obtain ⟨r, hr, hexamined, -⟩ := h (s.length + 1) (Nat.lt_succ_self _)
  have hpast := hexamined _ ((PrintfCall.mem_examined_of_inside s hs).1 _ hend hr)
  omega

theorem printf_interprets_percentU : (sampleCall (ascii "n=%u%%") 42).Interprets (ascii "n=%u%%") :=
  (printf_interprets_iff (by decide +kernel)).2 (by decide +kernel)

/-- A lone `%`: the byte behind the NUL is taken for a character of the format. -/
theorem printf_interprets_lonePercent : ¬ ∀ (p : PrintfCall) (s : List UInt8),
    p.mem.IsString p.format s → p.Interprets s := by
  intro h
  obtain ⟨r, hr, hexamined, -⟩ := h (sampleCall [37] 42) [37] (by decide +kernel) 3 (by decide)
  have hresult : ((sampleCall [37] 42).printf 3).any fun r => decide (2 ∈ r.examined) := by
    decide +kernel
  rw [hr] at hresult
  exact absurd (hexamined 2 (of_decide_eq_true hresult)) (by decide)

end Gyarados

import Gyarados.Foundation.Bytes
import Gyarados.Foundation.Numerals
import Gyarados.Lib.Str

set_option autoImplicit false

/-! # Numbers as strings (`itoa` and `strrev` of `lib/lib.c`)

`itoa` writes the digits of a number from the lowest place on and then reverses the string in place. -/

namespace Gyarados

/-! ## The functions -/

/-- `strlen` -/
def Memory.strlen (m : Memory) (s : Nat) : Nat := (m.stringAt s 0x100000000).length

/-- The table in `itoa`, with the NUL behind it. -/
def lookup : List UInt8 := ascii "0123456789ABCDEFGHIJKLMNOPQRSTUVWXYZ" ++ [0]

/-- The loop of `itoa`: `none` if it does not end within `fuel` turns, divides by zero or reads past the
    end of the table. -/
def itoaLoop (radix : Nat) : Nat → Nat → Nat → Memory → Option (Nat × Memory)
  | 0, _, _, _ => none
  | fuel + 1, newval, newbuf, m =>
      if newval > 0 then
        if radix = 0 then none
        else lookup[newval % radix]?.bind fun c =>
          itoaLoop radix fuel (newval / radix) (newbuf + 1) (m.setByte newbuf c)
      else some (newbuf, m)

/-- The loop of `strrev`. -/
def strrevLoop (s : Nat) : Nat → Int → Int → Memory → Option Memory
  | 0, _, _, _ => none
  | fuel + 1, beg, end', m =>
      if beg < end' then
        let tmp := m (s + end'.toNat)
        let m := m.setByte (s + end'.toNat) (m (s + beg.toNat))
        let m := m.setByte (s + beg.toNat) tmp
        strrevLoop s fuel (beg + 1) (end' - 1) m
      else some m

/-- `strrev` -/
def strrev (s : Nat) (m : Memory) : Option Memory :=
  strrevLoop s (m.strlen s + 1) 0 ((m.strlen s : Int) - 1) m

/-- `itoa`, with `value` and `radix` unsigned words. -/
def itoa (value buf radix : Nat) (m : Memory) : Option Memory :=
  if value = 0 then some ((m.setByte buf 48).setByte (buf + 1) 0)
  else (itoaLoop radix (value + 1) value buf m).bind fun (newbuf, m) => strrev buf (m.setByte newbuf 0)

/-! ## Digits -/

/-- The sign of a digit. -/
def digitSign (d : Nat) : UInt8 := lookup.getD d 0

/-- The digit that a sign stands for. -/
def digitValue (c : UInt8) : Nat := if c.toNat < 65 then c.toNat - 48 else c.toNat - 55

theorem digitValue_digitSign : ∀ d < 36, digitValue (digitSign d) = d := by decide +kernel

theorem digitSign_ne_zero : ∀ d < 36, digitSign d ≠ 0 := by decide +kernel

theorem lookup_eq_some : ∀ d < 36, lookup[d]? = some (digitSign d) := by decide +kernel

/-- The numeral of a number in base `radix`. -/
abbrev digitString (radix value : Nat) : List UInt8 := numeral digitSign radix value

/-- A text of digits. -/
abbrev IsDigitString (radix value : Nat) (s : List UInt8) : Prop :=
  IsNumeral digitSign digitValue radix value s

section

variable {radix : Nat}

theorem zero_notMem_digits (hr : 2 ≤ radix ∧ radix ≤ 36) (value : Nat) :
    (0 : UInt8) ∉ (Nat.digits radix value).map digitSign := by
  intro hmem
  obtain ⟨d, hd, hzero⟩ := List.mem_map.1 hmem
  have hlt := Nat.digits_lt_base hr.1 hd
  exact digitSign_ne_zero d (by omega) hzero

/-! ## The loops -/

/-- The loop writes the digits from the lowest place on. -/
theorem itoaLoop_eq (hr : 2 ≤ radix ∧ radix ≤ 36) (fuel : Nat) : ∀ {newval : Nat} (newbuf : Nat)
    (m : Memory), newval < fuel → itoaLoop radix fuel newval newbuf m =
      some (newbuf + (Nat.digits radix newval).length,
        m.writeBytes newbuf ((Nat.digits radix newval).map digitSign)) := by
  induction fuel with
  | zero => exact fun _ _ h => absurd h (Nat.not_lt_zero _)
  | succ fuel ih =>
      intro newval newbuf m hfuel
      by_cases hzero : newval = 0
      · simp [itoaLoop, hzero, Memory.writeBytes]
      · have hpos : 0 < newval := Nat.pos_of_ne_zero hzero
        have hnext : newval / radix < fuel := by
          have := Nat.div_lt_self hpos hr.1
          omega
        have hdigit : newval % radix < 36 := (Nat.mod_lt _ (by omega)).trans_le hr.2
        have hdigits : Nat.digits radix newval = newval % radix :: Nat.digits radix (newval / radix) :=
          Nat.digits_def' hr.1 hpos
        rw [itoaLoop, if_pos hpos, if_neg (by omega), lookup_eq_some _ hdigit, Option.bind_some,
          ih _ _ hnext, hdigits, List.length_cons, List.map_cons, Memory.writeBytes]
        congr 2
        omega

end

/-- The loop turns the `n` bytes from index `beg` on around. -/
theorem strrevLoop_spec (s fuel : Nat) : ∀ (beg n : Nat) (m : Memory), n < fuel →
    ∃ m', strrevLoop s fuel beg ((beg : Int) + n - 1) m = some m' ∧
      (∀ i < n, m' (s + (beg + i)) = m (s + (beg + (n - 1 - i)))) ∧
      ∀ a, a < s + beg ∨ s + beg + n ≤ a → m' a = m a := by
  induction fuel with
  | zero => exact fun _ _ _ h => absurd h (Nat.not_lt_zero _)
  | succ fuel ih =>
      intro beg n m hfuel
      by_cases hn : n ≤ 1
      · refine ⟨m, by rw [strrevLoop, if_neg (by omega)], fun i hi => ?_, fun _ _ => rfl⟩
        rw [show n - 1 - i = i by omega]
      · -- the two ends are exchanged, and the loop goes on inside them
        obtain ⟨k, rfl⟩ : ∃ k, n = k + 2 := ⟨n - 2, by omega⟩
        have hend : ((beg : Int) + (k + 2 : Nat) - 1).toNat = beg + (k + 1) := by omega
        obtain ⟨m', hloop, hinside, houtside⟩ := ih (beg + 1) k
          ((m.setByte (s + (beg + (k + 1))) (m (s + beg))).setByte (s + beg) (m (s + (beg + (k + 1)))))
          (by omega)
        refine ⟨m', ?_, fun i hi => ?_, fun a ha => ?_⟩
        · rw [strrevLoop, if_pos (by omega)]
          simp only [hend, Int.toNat_natCast]
          rw [← hloop]
          congr 1
          push_cast
          omega
        · rcases Nat.eq_zero_or_pos i with rfl | hi₀
          · rw [houtside _ (by omega)]
            simp only [Nat.add_zero, Memory.setByte_self]
            congr 2
          · by_cases hlast : i = k + 1
            · subst hlast
              rw [houtside _ (by omega), Memory.setByte_of_ne _ _ (by omega), Memory.setByte_self]
              congr 2
              omega
            · have hmid := hinside (i - 1) (by omega)
              rw [show beg + 1 + (i - 1) = beg + i by omega] at hmid
              rw [hmid, Memory.setByte_of_ne _ _ (by omega), Memory.setByte_of_ne _ _ (by omega)]
              congr 2
              omega
        · rw [houtside a (by omega), Memory.setByte_of_ne _ _ (by omega),
            Memory.setByte_of_ne _ _ (by omega)]

/-- `strrev` reverses the string. -/
theorem strrev_spec {s : Nat} {m : Memory} {bs : List UInt8} (h0 : (0 : UInt8) ∉ bs)
    (hlen : bs.length < 0x100000000) (hbytes : ∀ k (hk : k < bs.length), m (s + k) = bs[k])
    (hend : m (s + bs.length) = 0) :
    ∃ m', strrev s m = some m' ∧ m'.stringAt s 0x100000000 = bs.reverse ∧
      ∀ a, a < s ∨ s + bs.length ≤ a → m' a = m a := by
  have hstring := Memory.stringAt_eq_of_bytes bs s _ h0 hlen hbytes hend
  have hstrlen : m.strlen s = bs.length := congrArg List.length hstring
  obtain ⟨m', hloop, hinside, houtside⟩ := strrevLoop_spec s (bs.length + 1) 0 bs.length m (by omega)
  simp only [Nat.zero_add, Nat.add_zero] at hinside houtside
  refine ⟨m', ?_, ?_, houtside⟩
  · rw [strrev, hstrlen, ← hloop]
    simp
  · refine Memory.stringAt_eq_of_bytes bs.reverse s _ (by simpa using h0) (by simpa using hlen) ?_ ?_
    · intro k hk
      rw [List.length_reverse] at hk
      rw [hinside k hk, hbytes _ (by omega), List.getElem_reverse]
    · rw [List.length_reverse, houtside _ (by omega), hend]

/-! ## The string of a number -/

/-- **`itoa`** ends, and leaves the numeral of the number in the buffer; behind its NUL and before the
    buffer nothing changes. -/
theorem itoa_spec {radix value : Nat} (hr : 2 ≤ radix ∧ radix ≤ 36) (hv : value < 0x100000000)
    (buf : Nat) (m : Memory) :
    ∃ m', itoa value buf radix m = some m' ∧ m'.stringAt buf 0x100000000 = digitString radix value ∧
      ∀ a, a < buf ∨ buf + (digitString radix value).length < a → m' a = m a := by
  by_cases hzero : value = 0
  · subst hzero
    have hsign : digitSign 0 = 48 := by decide
    have hnumeral : digitString radix 0 = [48] := by rw [digitString, numeral, if_pos rfl, hsign]
    refine ⟨_, if_pos rfl, ?_, fun a ha => ?_⟩
    · rw [hnumeral]
      refine Memory.stringAt_eq_of_bytes _ _ _ (by decide) (by decide) (fun k hk => ?_) ?_
      · obtain rfl : k = 0 := by simpa using hk
        simp only [Nat.add_zero]
        rw [Memory.setByte_of_ne _ _ (by omega), Memory.setByte_self]
        rfl
      · exact Memory.setByte_self _ _ _
    · rw [hnumeral, List.length_singleton] at ha
      rw [Memory.setByte_of_ne _ _ (by omega), Memory.setByte_of_ne _ _ (by omega)]
  · have hpow : value < radix ^ 32 := hv.trans_le (Nat.pow_le_pow_left hr.1 32)
    have hlen : (digitString radix value).length ≤ 32 :=
      length_numeral_le digitSign hr.1 (by decide) hpow
    have hnumeral : digitString radix value = ((Nat.digits radix value).map digitSign).reverse :=
      if_neg hzero
    have hloop := itoaLoop_eq hr (value + 1) buf m (Nat.lt_succ_self value)
    have hnull := zero_notMem_digits hr value
    rw [hnumeral, List.length_reverse] at hlen
    generalize hbs : (Nat.digits radix value).map digitSign = bs at *
    have hcount : (Nat.digits radix value).length = bs.length := by rw [← hbs, List.length_map]
    have hwritten : ∀ k (hk : k < bs.length),
        (m.writeBytes buf bs).setByte (buf + bs.length) 0 (buf + k) = bs[k] := by
      intro k hk
      rw [Memory.setByte_of_ne _ _ (by omega), Memory.writeBytes_getElem bs m buf k hk]
    obtain ⟨m', hrev, hstring, houtside⟩ :=
      strrev_spec hnull (by omega) hwritten (Memory.setByte_self _ _ _)
    refine ⟨m', ?_, ?_, fun a ha => ?_⟩
    · rw [itoa, if_neg hzero, hloop, Option.bind_some, hcount]
      exact hrev
    · rw [hstring, hnumeral]
    · rw [hnumeral, List.length_reverse] at ha
      rw [houtside a (by omega), Memory.setByte_of_ne _ _ (by omega),
        Memory.writeBytes_of_disjoint bs m (by omega)]

/-- A string of digits that is the numeral of the number is the one that `itoa` leaves. -/
theorem itoa_eq_of_isDigitString {radix value : Nat} {s : List UInt8} (hr : 2 ≤ radix ∧ radix ≤ 36)
    (hv : value < 0x100000000) (hs : IsDigitString radix value s) (buf : Nat) (m : Memory) :
    ∃ m', itoa value buf radix m = some m' ∧ m'.stringAt buf 0x100000000 = s := by
  obtain ⟨m', hitoa, hstring, -⟩ := itoa_spec hr hv buf m
  have hunique : s = digitString radix value :=
    IsNumeral.eq_numeral hr.1 (fun d hd => digitValue_digitSign d (hd.trans_le hr.2)) hs
  exact ⟨m', hitoa, hstring.trans hunique.symm⟩

end Gyarados

import Gyarados.Foundation.Bytes

set_option autoImplicit false

/-! # String functions of `lib/lib.c`

A C string is the list of its bytes before the NUL. None of these functions reads past the NUL of
a string it is given, so the list is all they see; a pointer that walks along the string is its
tail. -/

namespace Gyarados

/-- A NUL-terminated string: no byte of it is NUL. -/
abbrev CString := { s : List UInt8 // (0 : UInt8) ∉ s }

/-- The bytes of a literal. -/
def ascii (s : String) : List UInt8 := s.toList.map fun c => UInt8.ofNat c.toNat

/-- `int8_t` is a signed `char`. -/
def schar (c : UInt8) : Int := if c.toNat < 128 then c.toNat else (c.toNat : Int) - 256

theorem schar_injective {a b : UInt8} (h : schar a = schar b) : a = b := by
  have ha := a.toNat_lt
  have hb := b.toNat_lt
  apply UInt8.toNat_inj.1
  unfold schar at h
  split at h <;> split at h <;> omega

/-- `strncmp`: the difference at the first place, among `n`, where the strings differ or both
    end. -/
def strncmp : List UInt8 → List UInt8 → Nat → Int
  | _, _, 0 => 0
  | s1, s2, n + 1 =>
      if s1.headD 0 ≠ s2.headD 0 ∨ s1.headD 0 = 0 then schar (s1.headD 0) - schar (s2.headD 0)
      else strncmp s1.tail s2.tail n

/-- `strncpy`: the `n` bytes stored, the string and then NULs. -/
def strncpy (src : List UInt8) (n : Nat) : List UInt8 :=
  src.take n ++ List.replicate (n - src.length) 0

/-- The copying loop of `strtok`: it stops at a space, a newline or the NUL. -/
def strtokWord : List UInt8 → List UInt8
  | [] => []
  | c :: cs => if c = 32 ∨ c = 10 then [] else c :: strtokWord cs

/-- `strtok`: the first word, or NULL for an empty string and for one that starts with a space. -/
def strtok (input : List UInt8) : Option (List UInt8) :=
  match input with
  | [] => none
  | c :: cs => if c = 32 then none else some (strtokWord (c :: cs))

/-- `strncmp` reports equality exactly when the first `n` bytes agree. -/
theorem strncmp_eq_zero_iff (n : Nat) : ∀ {s t : List UInt8}, (0 : UInt8) ∉ s → (0 : UInt8) ∉ t →
    (strncmp s t n = 0 ↔ s.take n = t.take n) := by
  induction n with
  | zero => intro s t _ _; simp [strncmp]
  | succ n ih =>
      intro s t hs ht
      have hdiff : ∀ a b : UInt8, schar a - schar b = 0 ↔ a = b := fun a b =>
        ⟨fun h => schar_injective (by omega), fun h => by rw [h]; omega⟩
      cases s with
      | nil =>
          cases t with
          | nil => simp [strncmp]
          | cons d t =>
              rw [List.mem_cons, not_or] at ht
              have hd : (0 : UInt8) ≠ d := ht.1
              simp [strncmp, hdiff, hd]
      | cons c s =>
          rw [List.mem_cons, not_or] at hs
          have hc : ¬ c = 0 := fun h => hs.1 h.symm
          cases t with
          | nil => simp [strncmp, hdiff, hc]
          | cons d t =>
              rw [List.mem_cons, not_or] at ht
              by_cases hcd : c = d
              · subst hcd
                simp only [strncmp, List.headD_cons, ne_eq, not_true_eq_false, hc, or_self,
                  if_false, List.tail_cons, List.take_succ_cons, List.cons.injEq, true_and]
                exact ih hs.2 ht.2
              · simp [strncmp, hdiff, hcd]

/-- Two strings of one length that agree on all of it, or on the first `n`, are what is compared. -/
theorem strncmp_eq_zero_iff_eq {s t : List UInt8} {n : Nat} (hs : (0 : UInt8) ∉ s)
    (ht : (0 : UInt8) ∉ t) (hsn : s.length ≤ n) (htn : t.length ≤ n) :
    strncmp s t n = 0 ↔ s = t := by
  rw [strncmp_eq_zero_iff n hs ht, List.take_of_length_le hsn, List.take_of_length_le htn]

end Gyarados

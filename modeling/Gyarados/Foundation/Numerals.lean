import Mathlib.Data.Nat.Digits.Lemmas

set_option autoImplicit false

/-! # Numerals

A number is written in base `r` with a sign for each digit below `r`. Written without leading zeros it
has one numeral, which is read back from left to right. -/

namespace Gyarados

variable {α : Type*} {digit : Nat → α} {val : α → Nat} {r v : Nat} {s : List α}

/-- Read digits from left to right. -/
def readNumeral (val : α → Nat) (r : Nat) (s : List α) : Nat := s.foldl (fun n c => r * n + val c) 0

/-- The text is the numeral of `v` in base `r`: digits below `r` that are read as `v`, the first of
    which is zero only when it is the only one. -/
structure IsNumeral (digit : Nat → α) (val : α → Nat) (r v : Nat) (s : List α) : Prop where
  ne_nil : s ≠ []
  digits : ∀ c ∈ s, ∃ d < r, c = digit d
  head : s.head? = some (digit 0) → s = [digit 0]
  value : readNumeral val r s = v

/-- The numeral of `v` in base `r`. -/
def numeral (digit : Nat → α) (r v : Nat) : List α :=
  if v = 0 then [digit 0] else ((Nat.digits r v).map digit).reverse

theorem readNumeral_eq (val : α → Nat) (r : Nat) (s : List α) :
    readNumeral val r s = Nat.ofDigits r (s.map val).reverse := by
  rw [Nat.ofDigits_eq_foldr, List.foldr_reverse, List.foldl_map, readNumeral]
  congr 1
  funext n c
  exact Nat.add_comm _ _

theorem isNumeral_numeral (hr : 1 < r) (hval : ∀ d < r, val (digit d) = d) (v : Nat) :
    IsNumeral digit val r v (numeral digit r v) := by
  have hzero : val (digit 0) = 0 := hval 0 (by omega)
  unfold numeral
  split
  · rename_i hv
    refine ⟨List.cons_ne_nil _ _, ?_, fun _ => rfl, ?_⟩
    · intro c hc
      exact ⟨0, by omega, List.mem_singleton.1 hc⟩
    · simp [readNumeral, hzero, hv]
  · rename_i hv
    have hne : Nat.digits r v ≠ [] := Nat.digits_ne_nil_iff_ne_zero.2 hv
    refine ⟨by simpa using hne, ?_, ?_, ?_⟩
    · intro c hc
      rw [List.mem_reverse] at hc
      obtain ⟨d, hd, rfl⟩ := List.mem_map.1 hc
      exact ⟨d, Nat.digits_lt_base hr hd, rfl⟩
    · intro hhead
      rw [List.head?_reverse, List.getLast?_map, List.getLast?_eq_some_getLast hne] at hhead
      have hlast : digit ((Nat.digits r v).getLast hne) = digit 0 := Option.some.inj hhead
      have hdigit := hval _ (Nat.digits_lt_base hr (List.getLast_mem hne))
      rw [hlast, hzero] at hdigit
      exact absurd hdigit.symm (Nat.getLast_digit_ne_zero r hv)
    · have hread : ∀ d ∈ Nat.digits r v, (val ∘ digit) d = id d := fun d hd =>
        hval d (Nat.digits_lt_base hr hd)
      rw [readNumeral_eq, List.map_reverse, List.reverse_reverse, List.map_map,
        List.map_congr_left hread, List.map_id, Nat.ofDigits_digits]

/-- Digits are read as what they are the signs of. -/
theorem digit_val (hval : ∀ d < r, val (digit d) = d) (hs : ∀ c ∈ s, ∃ d < r, c = digit d) :
    ∀ c ∈ s, val c < r ∧ digit (val c) = c := by
  intro c hc
  obtain ⟨d, hd, rfl⟩ := hs c hc
  rw [hval d hd]
  exact ⟨hd, rfl⟩

theorem map_digit_map_val (hval : ∀ d < r, val (digit d) = d) (hs : ∀ c ∈ s, ∃ d < r, c = digit d) :
    (s.map val).map digit = s := by
  have hsign : ∀ c ∈ s, (digit ∘ val) c = id c := fun c hc => (digit_val hval hs c hc).2
  rw [List.map_map, List.map_congr_left hsign, List.map_id]

/-- There is no other. -/
theorem IsNumeral.eq_numeral (hr : 1 < r) (hval : ∀ d < r, val (digit d) = d)
    (h : IsNumeral digit val r v s) : s = numeral digit r v := by
  have hdigit := digit_val hval h.digits
  have hsigns := map_digit_map_val hval h.digits
  have hvalue := h.value
  rw [readNumeral_eq] at hvalue
  by_cases hhead : s.head? = some (digit 0)
  · -- a leading zero is the whole numeral
    have hs := h.head hhead
    have hv : v = 0 := by rw [← hvalue, hs]; simp [hval 0 (by omega)]
    rw [hs, numeral, if_pos hv]
  · have hlast : ∀ hne : (s.map val).reverse ≠ [], (s.map val).reverse.getLast hne ≠ 0 := by
      intro hne hzero
      obtain ⟨c, t, rfl⟩ := List.exists_cons_of_ne_nil h.ne_nil
      rw [List.getLast_reverse] at hzero
      refine hhead ?_
      rw [List.head?_cons, ← (hdigit c List.mem_cons_self).2]
      exact congrArg (some ∘ digit) hzero
    have hdigits : Nat.digits r v = (s.map val).reverse := by
      rw [← hvalue]
      refine Nat.digits_ofDigits r hr _ ?_ hlast
      intro d hd
      rw [List.mem_reverse] at hd
      obtain ⟨c, hc, rfl⟩ := List.mem_map.1 hd
      exact (hdigit c hc).1
    have hv : v ≠ 0 := by
      rw [← Nat.digits_ne_nil_iff_ne_zero (b := r), hdigits]
      simpa using h.ne_nil
    rw [numeral, if_neg hv, hdigits, List.map_reverse, List.reverse_reverse, hsigns]

/-- Digits of one length that are read as the same number are the same. -/
theorem eq_of_readNumeral_eq {t : List α} (hr : 1 < r) (hval : ∀ d < r, val (digit d) = d)
    (hs : ∀ c ∈ s, ∃ d < r, c = digit d) (ht : ∀ c ∈ t, ∃ d < r, c = digit d)
    (hlen : s.length = t.length) (h : readNumeral val r s = readNumeral val r t) : s = t := by
  have hlt : ∀ {u : List α}, (∀ c ∈ u, ∃ d < r, c = digit d) → ∀ n ∈ (u.map val).reverse, n < r := by
    intro u hu n hn
    obtain ⟨c, hc, rfl⟩ := List.mem_map.1 (List.mem_reverse.1 hn)
    exact (digit_val hval hu c hc).1
  rw [readNumeral_eq, readNumeral_eq] at h
  have hdigits := Nat.ofDigits_inj_of_len_eq hr (by simpa using hlen) (hlt hs) (hlt ht) h
  rw [← map_digit_map_val hval hs, ← map_digit_map_val hval ht, List.reverse_inj.1 hdigits]

/-- The digits that a number needs. -/
theorem length_numeral_le (digit : Nat → α) {k : Nat} (hr : 1 < r) (hk : 0 < k) (hv : v < r ^ k) :
    (numeral digit r v).length ≤ k := by
  unfold numeral
  split
  · exact hk
  · rw [List.length_reverse, List.length_map]
    exact (Nat.digits_length_le_iff hr v).2 hv

/-- Zeros in front do not count. -/
theorem readNumeral_replicate (hzero : val (digit 0) = 0) (n : Nat) (s : List α) :
    readNumeral val r (List.replicate n (digit 0) ++ s) = readNumeral val r s := by
  induction n with
  | zero => rfl
  | succ n ih =>
      rw [← ih]
      simp [readNumeral, List.replicate_succ, hzero]

end Gyarados

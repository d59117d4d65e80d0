import Mathlib.Data.Nat.Bitwise
import Mathlib.Tactic.Common

set_option autoImplicit false

/-! # Byte-addressed memory

Memory as a function from addresses to bytes, with little-endian 32-bit words, runs of bytes and
NUL-terminated strings on top. Every accessor comes with the two lemmas a proof needs about it: what
it reads back from the write it belongs to, and that it does not see a write elsewhere. -/

namespace Gyarados

/-- Byte-addressed memory. -/
abbrev Memory := Nat → UInt8

/-- A 32-bit word read as a signed number. -/
def toInt32 (n : Nat) : Int := if n < 0x80000000 then n else (n : Int) - 0x100000000

/-- A signed number stored in a 32-bit word. -/
def ofInt32 (i : Int) : Nat := (i % 0x100000000).toNat

theorem toInt32_of_lt {n : Nat} (h : n < 0x80000000) : toInt32 n = n := by
  simp [toInt32, h]

theorem ofInt32_natCast {n : Nat} (h : n < 0x100000000) : ofInt32 n = n := by
  unfold ofInt32
  omega

theorem ofInt32_lt (i : Int) : ofInt32 i < 0x100000000 := by
  unfold ofInt32
  omega

/-! ## What a buffer received -/

/-- The bytes stored into a caller's buffer, by index; `none` where nothing was stored. -/
abbrev Stores := Nat → Option UInt8

namespace Stores

def empty : Stores := fun _ => none

def put (b : Stores) (i : Nat) (c : UInt8) : Stores := fun j => if j = i then some c else b j

/-- What the buffer holds afterwards. -/
def onto (b : Stores) (m : Memory) : Memory := fun i => (b i).getD (m i)

@[simp] theorem empty_apply (i : Nat) : empty i = none := rfl

theorem put_apply (b : Stores) (i j : Nat) (c : UInt8) :
    b.put i c j = if j = i then some c else b j := rfl

end Stores

namespace Memory

/-! ## Single bytes and words -/

/-- Store one byte. -/
def setByte (m : Memory) (a : Nat) (v : UInt8) : Memory :=
  fun i => if i = a then v else m i

/-- The little-endian 32-bit word at `a`. -/
def word (m : Memory) (a : Nat) : Nat :=
  (m a).toNat + 0x100 * (m (a + 1)).toNat + 0x10000 * (m (a + 2)).toNat
    + 0x1000000 * (m (a + 3)).toNat

/-- Store a 32-bit word, little-endian; what does not fit in 32 bits is lost. -/
def setWord (m : Memory) (a v : Nat) : Memory :=
  fun i => if a ≤ i ∧ i < a + 4 then UInt8.ofNat (v / 0x100 ^ (i - a)) else m i

theorem setByte_self (m : Memory) (a : Nat) (v : UInt8) : m.setByte a v a = v := by
  simp [setByte]

theorem setByte_of_ne (m : Memory) {a i : Nat} (v : UInt8) (h : i ≠ a) :
    m.setByte a v i = m i := by
  simp [setByte, h]

theorem setWord_of_disjoint (m : Memory) {a i : Nat} (v : Nat) (h : i < a ∨ a + 4 ≤ i) :
    m.setWord a v i = m i := by
  rw [setWord, if_neg (by omega)]

theorem word_lt (m : Memory) (a : Nat) : m.word a < 0x100000000 := by
  have h0 := (m a).toNat_lt
  have h1 := (m (a + 1)).toNat_lt
  have h2 := (m (a + 2)).toNat_lt
  have h3 := (m (a + 3)).toNat_lt
  unfold word
  omega

/-- A word is its four bytes. -/
theorem word_congr {m m' : Memory} {a : Nat} (h : ∀ i, a ≤ i → i < a + 4 → m i = m' i) :
    m.word a = m'.word a := by
  simp only [word, h a (by omega) (by omega), h (a + 1) (by omega) (by omega),
    h (a + 2) (by omega) (by omega), h (a + 3) (by omega) (by omega)]

theorem word_setWord (m : Memory) (a v : Nat) : (m.setWord a v).word a = v % 0x100000000 := by
  simp [word, setWord]
  omega

theorem word_setWord_of_disjoint (m : Memory) {a b : Nat} (v : Nat)
    (h : b + 4 ≤ a ∨ a + 4 ≤ b) : (m.setWord a v).word b = m.word b :=
  word_congr fun _ _ _ => setWord_of_disjoint m v (by omega)

/-- Aligned words are the same or disjoint. -/
theorem word_setWord_aligned (m : Memory) {a b : Nat} (v : Nat) (ha : a % 4 = 0) (hb : b % 4 = 0) :
    (m.setWord a v).word b = if b = a then v % 0x100000000 else m.word b := by
  split
  · rename_i h
    rw [h, word_setWord]
  · exact word_setWord_of_disjoint m v (by omega)

/-! ## Runs of bytes -/

/-- Store the bytes one after the other from `a` on. -/
def writeBytes (m : Memory) (a : Nat) : List UInt8 → Memory
  | [] => m
  | b :: bs => writeBytes (m.setByte a b) (a + 1) bs

theorem writeBytes_of_disjoint (bs : List UInt8) :
    ∀ (m : Memory) {a i : Nat}, i < a ∨ a + bs.length ≤ i → m.writeBytes a bs i = m i := by
  induction bs with
  | nil => intro m a i _; rfl
  | cons b bs ih =>
      intro m a i h
      rw [List.length_cons] at h
      rw [writeBytes, ih _ (by omega), setByte_of_ne _ _ (by omega)]

theorem writeBytes_getElem (bs : List UInt8) :
    ∀ (m : Memory) (a k : Nat) (hk : k < bs.length), m.writeBytes a bs (a + k) = bs[k] := by
  induction bs with
  | nil => intro m a k hk; simp at hk
  | cons b bs ih =>
      intro m a k hk
      cases k with
      | zero =>
          show m.writeBytes a (b :: bs) a = b
          rw [writeBytes, writeBytes_of_disjoint _ _ (by omega), setByte_self]
      | succ k =>
          rw [List.length_cons] at hk
          rw [writeBytes, show a + (k + 1) = a + 1 + k by omega, ih _ _ _ (by omega),
            List.getElem_cons_succ]

theorem word_writeBytes_of_disjoint (m : Memory) {a b : Nat} (bs : List UInt8)
    (h : b + 4 ≤ a ∨ a + bs.length ≤ b) : (m.writeBytes a bs).word b = m.word b :=
  word_congr fun _ _ _ => writeBytes_of_disjoint bs m (by omega)

/-! ## NUL-terminated strings -/

/-- The string at `a`: the bytes up to the first NUL, giving up after `n` of them. -/
def stringAt (m : Memory) (a : Nat) : Nat → List UInt8
  | 0 => []
  | n + 1 => if m a = 0 then [] else m a :: stringAt m (a + 1) n

theorem stringAt_eq_nil {m : Memory} {a n : Nat} : m.stringAt a (n + 1) = [] ↔ m a = 0 := by
  rw [stringAt]
  split <;> simp [*]

/-- A NUL ends the string. -/
theorem length_stringAt_le_of_zero {m : Memory} {k : Nat} (n : Nat) :
    ∀ a, m (a + k) = 0 → (m.stringAt a n).length ≤ k := by
  induction n generalizing k with
  | zero => intro a _; simp [stringAt]
  | succ n ih =>
      intro a hz
      rw [stringAt]
      split
      · simp
      · rename_i h
        obtain ⟨k, rfl⟩ : ∃ k', k = k' + 1 := by
          refine ⟨k - 1, ?_⟩
          have : k ≠ 0 := fun hk => h (by rw [← hz, hk, Nat.add_zero])
          omega
        rw [List.length_cons]
        exact Nat.succ_le_succ (ih (a + 1) (by rw [← hz]; congr 1; omega))

/-- Without a NUL the scan takes all the bytes it may. -/
theorem length_stringAt_of_ne_zero {m : Memory} (n : Nat) :
    ∀ a, (∀ k, k < n → m (a + k) ≠ 0) → (m.stringAt a n).length = n := by
  induction n with
  | zero => intro a _; rfl
  | succ n ih =>
      intro a h
      have htail : ∀ k, k < n → m (a + 1 + k) ≠ 0 := by
        intro k hk
        rw [Nat.add_assoc, Nat.add_comm 1]
        exact h (k + 1) (by omega)
      have hhead : m a ≠ 0 := h 0 (by omega)
      rw [stringAt, if_neg hhead, List.length_cons, ih (a + 1) htail]

/-- A scan that has met no NUL goes on behind what it has taken. -/
theorem stringAt_add {m : Memory} (n k : Nat) : ∀ a, (m.stringAt a n).length = n →
    m.stringAt a (n + k) = m.stringAt a n ++ m.stringAt (a + n) k := by
  induction n with
  | zero => intro a _; simp [stringAt]
  | succ n ih =>
      intro a h
      rw [stringAt] at h
      rw [Nat.add_right_comm, stringAt, stringAt]
      split
      · rename_i hz
        rw [if_pos hz] at h
        simp at h
      · rename_i hz
        rw [if_neg hz, List.length_cons, Nat.add_right_cancel_iff] at h
        rw [ih (a + 1) h, List.cons_append, Nat.add_assoc a, Nat.add_comm 1]

/-- Behind a NUL there is nothing to scan. -/
theorem stringAt_of_zero {m : Memory} {k : Nat} (n : Nat) :
    ∀ a, k ≤ n → m (a + k) = 0 → m.stringAt a n = m.stringAt a k := by
  induction n generalizing k with
  | zero =>
      intro a hk _
      rw [Nat.le_zero.1 hk]
  | succ n ih =>
      intro a hk hz
      cases k with
      | zero => simp [stringAt, show m a = 0 from hz]
      | succ k =>
          have hz' : m (a + 1 + k) = 0 := by
            rw [Nat.add_assoc, Nat.add_comm 1]
            exact hz
          rw [stringAt, stringAt, ih (a + 1) (Nat.le_of_succ_le_succ hk) hz']

theorem zero_notMem_stringAt (m : Memory) (n : Nat) : ∀ a, (0 : UInt8) ∉ m.stringAt a n := by
  induction n with
  | zero => intro a; simp [stringAt]
  | succ n ih =>
      intro a
      rw [stringAt]
      split
      · simp
      · rename_i h
        rw [List.mem_cons, not_or]
        exact ⟨fun h0 => h h0.symm, ih (a + 1)⟩

/-- A string depends on the bytes it scans only. -/
theorem stringAt_congr {m m' : Memory} (n : Nat) :
    ∀ a, (∀ i, a ≤ i → i < a + n → m i = m' i) → m.stringAt a n = m'.stringAt a n := by
  induction n with
  | zero => intro a _; rfl
  | succ n ih =>
      intro a h
      simp only [stringAt, h a (by omega) (by omega)]
      split
      · rfl
      · rw [ih (a + 1) fun i h₁ h₂ => h i (by omega) (by omega)]

/-- A short string depends on the bytes up to its NUL only. -/
theorem stringAt_congr_of_length_lt {m m' : Memory} (n : Nat) : ∀ (a k : Nat), k ≤ n →
    (m.stringAt a n).length < k → (∀ i, a ≤ i → i < a + k → m' i = m i) →
      m'.stringAt a n = m.stringAt a n := by
  induction n with
  | zero => intro a k _ _ _; rfl
  | succ n ih =>
      intro a k hk hlen h
      rw [stringAt] at hlen
      rw [stringAt, stringAt, h a le_rfl (by omega)]
      split
      · rfl
      · rename_i hne
        rw [if_neg hne, List.length_cons] at hlen
        rw [ih (a + 1) (k - 1) (by omega) (by omega) fun i h₁ h₂ => h i (by omega) (by omega)]

/-- A NUL-free string that ends before the scan gives up is read back whole. -/
theorem stringAt_eq_of_bytes {m : Memory} (s : List UInt8) :
    ∀ (a n : Nat), (0 : UInt8) ∉ s → s.length < n →
      (∀ k (hk : k < s.length), m (a + k) = s[k]) → m (a + s.length) = 0 →
      m.stringAt a n = s := by
  induction s with
  | nil =>
      intro a n _ hn _ h0
      obtain ⟨n, rfl⟩ : ∃ n', n = n' + 1 := ⟨n - 1, by simp at hn; omega⟩
      simp only [List.length_nil, Nat.add_zero] at h0
      simp [stringAt, h0]
  | cons c s ih =>
      intro a n hc hn hs h0
      obtain ⟨n, rfl⟩ : ∃ n', n = n' + 1 := ⟨n - 1, by simp at hn; omega⟩
      rw [List.mem_cons, not_or] at hc
      rw [List.length_cons] at hn h0
      have hhead : m a = c := hs 0 (Nat.succ_pos _)
      have htail : m.stringAt (a + 1) n = s := by
        refine ih (a + 1) n hc.2 (by omega) (fun k hk => ?_) ?_
        · rw [show a + 1 + k = a + (k + 1) by omega]
          exact hs (k + 1) (Nat.succ_lt_succ hk)
        · rw [show a + 1 + s.length = a + (s.length + 1) by omega]
          exact h0
      rw [stringAt, hhead, if_neg (fun h => hc.1 h.symm), htail]

theorem stringAt_writeBytes (m : Memory) (a n : Nat) (s : List UInt8) (h0 : (0 : UInt8) ∉ s)
    (hn : s.length < n) : (m.writeBytes a (s ++ [0])).stringAt a n = s := by
  refine stringAt_eq_of_bytes s a n h0 hn (fun k hk => ?_) ?_
  · rw [writeBytes_getElem _ _ _ _ (by simp; omega), List.getElem_append_left hk]
  · rw [writeBytes_getElem _ _ _ _ (by simp)]
    simp

end Memory

end Gyarados

import Gyarados.Foundation.X86

set_option autoImplicit false

/-! # The memory routines (`memset`, `memcpy` and `memmove` in `lib/lib.c`)

The assembly inside the three functions, from the registers that the operands put in place. `memset` and
`memcpy` go byte by byte to an aligned address, word by word from there, and byte by byte at the end;
`memmove` chooses the direction in which it copies. -/

namespace Gyarados

open X86

/-! ## The listings -/

inductive MemsetLabel
  | top
  | aligned
  | bottom
  | done
  deriving DecidableEq, Repr

/-- The assembly in `memset`. -/
def memset : List (X86.Line Empty MemsetLabel) :=
  [.label .top,
    .op (.testl (.reg .ecx) .ecx),
    .jcc .z .done,
    .op (.testl (.imm 3) .edi),
    .jcc .z .aligned,
    .op (.storeAl .edi),
    .op (.addl (.imm 1) .edi),
    .op (.subl (.imm 1) .ecx),
    .jmp .top,
    .label .aligned,
    .op (.movwDs .edx),
    .op (.movwEs .edx),
    .op (.movl (.reg .ecx) .edx),
    .op (.shrl 2 .ecx),
    .op (.andl (.imm 3) .edx),
    .op .cld,
    .op (.rep .stosl),
    .label .bottom,
    .op (.testl (.reg .edx) .edx),
    .jcc .z .done,
    .op (.storeAl .edi),
    .op (.addl (.imm 1) .edi),
    .op (.subl (.imm 1) .edx),
    .jmp .bottom,
    .label .done]

/-- The operands of `memset`. -/
def memsetOperands (cpu : Cpu) (s c n : Word) : Cpu :=
  let c := c &&& 0xff
  ((cpu.set .eax (c <<< 24 ||| c <<< 16 ||| c <<< 8 ||| c)).set .edi s).set .ecx n

inductive MemcpyLabel
  | top
  | aligned
  | bottom
  | done
  deriving DecidableEq, Repr

/-- The assembly in `memcpy`. -/
def memcpy : List (X86.Line Empty MemcpyLabel) :=
  [.label .top,
    .op (.testl (.reg .ecx) .ecx),
    .jcc .z .done,
    .op (.testl (.imm 3) .edi),
    .jcc .z .aligned,
    .op (.loadAl .esi),
    .op (.storeAl .edi),
    .op (.addl (.imm 1) .edi),
    .op (.addl (.imm 1) .esi),
    .op (.subl (.imm 1) .ecx),
    .jmp .top,
    .label .aligned,
    .op (.movwDs .edx),
    .op (.movwEs .edx),
    .op (.movl (.reg .ecx) .edx),
    .op (.shrl 2 .ecx),
    .op (.andl (.imm 3) .edx),
    .op .cld,
    .op (.rep .movsl),
    .label .bottom,
    .op (.testl (.reg .edx) .edx),
    .jcc .z .done,
    .op (.loadAl .esi),
    .op (.storeAl .edi),
    .op (.addl (.imm 1) .edi),
    .op (.addl (.imm 1) .esi),
    .op (.subl (.imm 1) .edx),
    .jmp .bottom,
    .label .done]

/-- The operands of `memcpy`, and of `memmove`. -/
def memcpyOperands (cpu : Cpu) (dest src n : Word) : Cpu :=
  ((cpu.set .esi src).set .edi dest).set .ecx n

inductive MemmoveLabel
  | go
  deriving DecidableEq, Repr

/-- The assembly in `memmove`. -/
def memmove : List (X86.Line Empty MemmoveLabel) :=
  [.op (.movwDs .edx),
    .op (.movwEs .edx),
    .op .cld,
    .op (.cmpl (.reg .edi) .esi),
    .jcc .ae .go,
    .op (.leal (-1) .esi .ecx .esi),
    .op (.leal (-1) .edi .ecx .edi),
    .op .std,
    .label .go,
    .op (.rep .movsb)]

/-! ## Ranges -/

/-- The address is one of the `n` from `s` on. -/
def InRange (s n a : Word) : Prop := s.toNat ≤ a.toNat ∧ a.toNat < s.toNat + n.toNat

instance (s n a : Word) : Decidable (InRange s n a) := inferInstanceAs (Decidable (_ ∧ _))

section

variable {s n a dest src : Word}

theorem inRange_iff (hn : s.toNat + n.toNat ≤ 2 ^ 32) : InRange s n a ↔ (a - s).toNat < n.toNat := by
  have ha := a.isLt
  have hs := s.isLt
  rw [InRange, BitVec.toNat_sub]
  omega

/-- Memory with the range filled in. -/
theorem patch_eq (m : Ram) (f : Nat → Byte) (hn : s.toNat + n.toNat ≤ 2 ^ 32) :
    m.patch s f 0 n.toNat a = if InRange s n a then f (a - s).toNat else m a := by
  simp only [Ram.patch, inRange_iff hn, Nat.zero_le, true_and]

end

/-! ## Byte by byte and word by word -/

/-- How a routine gets on, by one byte with the instructions `byte` and by one word with `i`: `P k` says
    that `k` bytes of `n` are done, and nothing about the counts. -/
structure Advances (n : Nat) (byte : List Instr) (i : StringInstr) (P : Nat → Cpu → Prop) : Prop where
  congr : ∀ {k c c'}, P k c → c'.mem = c.mem →
    (∀ r, r ≠ .ecx → r ≠ .edx → c'.reg r = c.reg r) → P k c'
  step : ∀ k < n, ∀ c, P k c → P (k + 1) (byte.foldl Instr.exec c)
  count : ∀ c r, r = .ecx ∨ r = .edx → (byte.foldl Instr.exec c).reg r = c.reg r
  word : ∀ k, k + 4 ≤ n → ∀ c, c.flags.df = false → P k c → P (k + 4) (i.exec c)

/-- There are `k` bytes of `n` left, and `r` counts them. -/
structure Remaining (r : Reg) (n : Nat) (P : Nat → Cpu → Prop) (k : Nat) (c : Cpu) : Prop where
  le : k ≤ n
  count : c.reg r = BitVec.ofNat 32 k
  done : P (n - k) c

section

variable {r : Reg} {n k : Nat} {P : Nat → Cpu → Prop} {byte : List Instr} {i : StringInstr} {c : Cpu}

theorem Remaining.setFlags (h : Remaining r n P k c) (hp : Advances n byte i P) (f : Flags) :
    Remaining r n P k (c.setFlags f) :=
  ⟨h.le, h.count, hp.congr h.done rfl fun _ _ _ => rfl⟩

/-- The test for the last byte. -/
theorem Remaining.holds_z (h : Remaining r n P k c) (hn : n < 2 ^ 32) :
    Cond.z.holds ((Instr.testl (.reg r) r).exec c).flags = decide (k = 0) := by
  refine holds_z_ofLogic.trans (decide_eq_decide.2 ?_)
  rw [Operand.value, h.count, BitVec.and_self, ← BitVec.toNat_inj, BitVec.toNat_ofNat]
  have hle := h.le
  rw [Nat.mod_eq_of_lt (by omega)]
  rfl

/-- One byte more. -/
theorem Remaining.step (h : Remaining r n P (k + 1) c) (hp : Advances n byte i P)
    (hr : r = .ecx ∨ r = .edx) :
    Remaining r n P k ((Instr.subl (.imm 1) r).exec (byte.foldl Instr.exec c)) := by
  have hle := h.le
  refine ⟨by omega, ?_, ?_⟩
  · refine (if_pos rfl).trans ?_
    rw [hp.count c r hr, h.count, Operand.value]
    bv_omega
  · have hdone := hp.step _ (by omega) c h.done
    rw [show n - (k + 1) + 1 = n - k by omega] at hdone
    refine hp.congr hdone rfl fun r' hcount hrest => if_neg ?_
    rintro rfl
    exact hr.elim hcount hrest

/-- **The rule for the loops**: each starts with the test for the last byte, and leaves for the end of
    the listing. -/
theorem Remaining.loop {E : Env Empty} {L : Type} [DecidableEq L] {p : List (X86.Line Empty L)}
    {top done : L} {first last : Nat} (hp : Advances n byte i P) (hn : n < 2 ^ 32)
    (htop : p[first]? = some (.label top)) (htest : p[first + 1]? = some (.op (.testl (.reg r) r)))
    (hjz : p[first + 2]? = some (.jcc .z done)) (hdone : target p done = some last)
    (hlast : p[last]? = some (.label done)) (hend : p[last + 1]? = none)
    (hturn : ∀ k c, Remaining r n P (k + 1) c →
      (∀ c', Remaining r n P k c' → Wp E p ⟨first, c', []⟩ fun t => P n t.cpu) →
      Wp E p ⟨first + 3, c, []⟩ fun t => P n t.cpu)
    (h : Remaining r n P k c) : Wp E p ⟨first, c, []⟩ fun t => P n t.cpu := by
  refine .countdown ?_ ?_ k c h
  · intro c h
    refine .label htop (.op htest (.jcc_true hjz hdone (h.holds_z hn) (.label hlast ?_)))
    exact .of_finished (by rw [finished, hend]) (h.setFlags hp _).done
  · intro k c h hrest
    refine .label htop (.op htest (.jcc_false hjz (h.holds_z hn) ?_))
    exact hturn k _ (h.setFlags hp _) hrest

theorem toNat_shrl_two (hk : k < 2 ^ 32) : (BitVec.ofNat 32 k >>> 2).toNat = k / 4 := by
  rw [BitVec.toNat_ushiftRight, BitVec.toNat_ofNat, Nat.mod_eq_of_lt hk, Nat.shiftRight_eq_div_pow]

theorem ofNat_and_three (k : Nat) : BitVec.ofNat 32 k &&& 3 = BitVec.ofNat 32 (k % 4) := by
  rw [← BitVec.toNat_inj, BitVec.toNat_and, BitVec.toNat_ofNat, BitVec.toNat_ofNat]
  have hand : k % 2 ^ 32 &&& 3 = k % 2 ^ 32 % 4 := Nat.and_two_pow_sub_one_eq_mod _ 2
  exact hand.trans (by omega)

/-- All the words, and the count of the bytes behind them. -/
theorem Remaining.words (h : Remaining .ecx n P k c) (hp : Advances n byte i P) (hn : n < 2 ^ 32) :
    Remaining .edx n P (k % 4) ([.movwDs .edx, .movwEs .edx, .movl (.reg .ecx) .edx, .shrl 2 .ecx,
      .andl (.imm 3) .edx, .cld, .rep i].foldl Instr.exec c) := by
  have hle := h.le
  obtain ⟨c₁, hc₁⟩ : ∃ c₁, c₁ = [.movwDs .edx, .movwEs .edx, .movl (.reg .ecx) .edx, .shrl 2 .ecx,
    .andl (.imm 3) .edx, .cld].foldl Instr.exec c := ⟨_, rfl⟩
  have hcount : (c₁.reg .ecx).toNat = k / 4 := by
    rw [hc₁, ← toNat_shrl_two (by omega), ← h.count]
    rfl
  have hrest : c₁.reg .edx = BitVec.ofNat 32 (k % 4) := by
    rw [hc₁, ← ofNat_and_three, ← h.count]
    rfl
  have hdone : P (n - k) c₁ := by
    refine hp.congr h.done ?_ fun r hecx hedx => ?_
    · rw [hc₁]
      rfl
    · rw [hc₁]
      simp [Instr.exec, hecx, hedx]
  have hwords : P (n - k + 4 * (k / 4)) (i.turn^[k / 4] c₁) ∧ KeepsOther c₁ (i.turn^[k / 4] c₁) := by
    refine rep_invariant (P := fun j c' => P (n - k + 4 * j) c' ∧ KeepsOther c₁ c') ?_ ⟨hdone, .refl c₁⟩
    rintro j hj c' ⟨hdone, hkeeps⟩
    have hdf : c'.flags.df = false := by
      rw [hkeeps.flags, hc₁]
      rfl
    have hword := hp.word (n - k + 4 * j) (by omega) c' hdf hdone
    rw [show n - k + 4 * j + 4 = n - k + 4 * (j + 1) by omega] at hword
    exact ⟨hp.congr hword rfl fun r hecx _ => if_neg hecx, hkeeps.turn i⟩
  have hall : [Instr.movwDs .edx, .movwEs .edx, .movl (.reg .ecx) .edx, .shrl 2 .ecx,
      .andl (.imm 3) .edx, .cld, .rep i].foldl Instr.exec c = i.turn^[k / 4] c₁ := by
    rw [← hcount, hc₁]
    rfl
  rw [hall]
  refine ⟨by omega, ?_, ?_⟩
  · rw [hwords.2.reg .edx (by decide) (by decide) (by decide), hrest]
  · rw [show n - k % 4 = n - k + 4 * (k / 4) by omega]
    exact hwords.1

end

/-! ## `memset` -/

/-- The first `k` bytes at `s` are `b`, and `%eax` is four of them. -/
structure Fills (m : Ram) (s : Word) (b : Byte) (k : Nat) (c : Cpu) : Prop where
  mem : c.mem = m.patch s (fun _ => b) 0 k
  edi : c.reg .edi = s + BitVec.ofNat 32 k
  eax : ∀ j < 4, (c.reg .eax).extractLsb' (8 * j) 8 = b

section

variable {E : Env Empty} {m : Ram} {s : Word} {b : Byte} {n k : Nat} {c : Cpu}

theorem advances_fills (m : Ram) (s : Word) (b : Byte) (hn : n < 2 ^ 32) :
    Advances n [.storeAl .edi, .addl (.imm 1) .edi] .stosl (Fills m s b) where
  congr h hmem hreg :=
    ⟨hmem.trans h.mem, (hreg .edi nofun nofun).trans h.edi, by rw [hreg .eax nofun nofun]; exact h.eax⟩
  step k hk c h := by
    have hal : (c.reg .eax).setWidth 8 = b := h.eax 0 (by decide)
    refine ⟨?_, ?_, h.eax⟩
    · have hstore := Ram.store8_patch_hi (m := m) (s := s) (f := fun _ => b) (Nat.zero_le k) (by omega)
      rw [← hstore, ← h.mem, ← h.edi, ← hal]
      rfl
    · have hnext : c.reg .edi + 1 = s + BitVec.ofNat 32 (k + 1) := add_ofNat_of_eq h.edi 1
      exact hnext
  count c r hr := by
    obtain rfl | rfl := hr <;> rfl
  word k hk c hdf h := by
    refine ⟨?_, ?_, h.eax⟩
    · have hstore := Ram.store32_patch_hi (m := m) (s := s) (f := fun _ => b) (Nat.zero_le k)
        (by omega) h.eax
      rw [← hstore, ← h.mem, ← h.edi]
      rfl
    · have hnext : c.reg .edi + c.stride 4 = s + BitVec.ofNat 32 (k + 4) := by
        rw [stride_of_clear hdf]
        exact add_ofNat_of_eq h.edi 4
      exact hnext

theorem wp_memsetBottom (hn : n < 2 ^ 32) (h : Remaining .edx n (Fills m s b) k c) :
    Wp E memset ⟨17, c, []⟩ fun t => Fills m s b n t.cpu := by
  have hp := advances_fills m s b hn
  refine h.loop hp hn rfl rfl rfl rfl rfl rfl fun k c h hrest => ?_
  refine .op rfl (.op rfl (.op rfl (.jmp rfl rfl (hrest _ ?_))))
  exact h.step hp (.inr rfl)

theorem wp_memset (hn : n < 2 ^ 32) (h : Remaining .ecx n (Fills m s b) k c) :
    Wp E memset ⟨0, c, []⟩ fun t => Fills m s b n t.cpu := by
  have hp := advances_fills m s b hn
  refine h.loop hp hn rfl rfl rfl rfl rfl rfl fun k c h hrest => .op rfl ?_
  by_cases haligned : c.reg .edi &&& 3 = 0
  -- the words, and the bytes behind them
  · refine .jcc_true rfl rfl (holds_z_ofLogic.trans (decide_eq_true haligned)) (.label rfl ?_)
    refine .op rfl (.op rfl (.op rfl (.op rfl (.op rfl (.op rfl (.op rfl ?_))))))
    exact wp_memsetBottom hn ((h.setFlags hp _).words hp hn)
  -- one byte, and back to the top
  · refine .jcc_false rfl (holds_z_ofLogic.trans (decide_eq_false haligned)) ?_
    refine .op rfl (.op rfl (.op rfl (.jmp rfl rfl (hrest _ ?_))))
    exact (h.setFlags hp _).step hp (.inl rfl)

theorem and_ff (c : Word) : c &&& 0xff = (c.setWidth 8).setWidth 32 := by
  rw [← BitVec.toNat_inj, BitVec.toNat_and, BitVec.toNat_setWidth, BitVec.toNat_setWidth]
  have hand : c.toNat &&& 255 = c.toNat % 256 := Nat.and_two_pow_sub_one_eq_mod _ 8
  exact hand.trans (by omega)

/-- The value is in all four bytes. -/
theorem extractLsb_spread (c : Word) (j : Nat) (hj : j < 4) :
    ((c &&& 0xff) <<< 24 ||| (c &&& 0xff) <<< 16 ||| (c &&& 0xff) <<< 8 ||| (c &&& 0xff)).extractLsb'
      (8 * j) 8 = c.setWidth 8 := by
  rw [and_ff]
  obtain rfl | rfl | rfl | rfl : j = 0 ∨ j = 1 ∨ j = 2 ∨ j = 3 := by omega
  all_goals
    ext i hi
    simp
    grind

theorem fills_memsetOperands (cpu : Cpu) (s c n : Word) :
    Remaining .ecx n.toNat (Fills cpu.mem s (c.setWidth 8)) n.toNat (memsetOperands cpu s c n) := by
  refine ⟨le_rfl, (ofNat_toNat_word n).symm, ?_⟩
  rw [Nat.sub_self]
  exact ⟨(Ram.patch_self _ _ _ _).symm, (BitVec.add_zero s).symm, extractLsb_spread c⟩

end

/-! ## Copying -/

/-- No byte of the source is overwritten before it is read, when the copy starts with the first. -/
def Ahead (dest src : Word) (n : Nat) : Prop :=
  ∀ i < n, i ≤ (src + BitVec.ofNat 32 i - dest).toNat

/-- The first `k` bytes at `dest` are those that were at `src`. -/
structure Copies (m : Ram) (dest src : Word) (k : Nat) (c : Cpu) : Prop where
  mem : c.mem = m.patch dest (fun i => m (src + BitVec.ofNat 32 i)) 0 k
  edi : c.reg .edi = dest + BitVec.ofNat 32 k
  esi : c.reg .esi = src + BitVec.ofNat 32 k

section

variable {E : Env Empty} {m : Ram} {dest src : Word} {n k : Nat} {c c' : Cpu}

/-- The bytes of the source that are still to be read. -/
theorem Copies.source (h : Copies m dest src k c) (hahead : Ahead dest src n) {i : Nat} (hk : k ≤ i)
    (hi : i < n) : c.mem (src + BitVec.ofNat 32 i) = m (src + BitVec.ofNat 32 i) := by
  rw [h.mem]
  refine if_neg ?_
  have hle := hahead i hi
  omega

/-- One byte copied. -/
theorem Copies.next_byte (h : Copies m dest src k c) (hahead : Ahead dest src n) (hk : k < n)
    (hn : n < 2 ^ 32) (hmem : c'.mem = c.mem.store8 (c.reg .edi) (c.mem (c.reg .esi)))
    (hedi : c'.reg .edi = c.reg .edi + 1) (hesi : c'.reg .esi = c.reg .esi + 1) :
    Copies m dest src (k + 1) c' := by
  refine ⟨?_, ?_, ?_⟩
  · have hstore := Ram.store8_patch_hi (m := m) (s := dest) (f := fun i => m (src + BitVec.ofNat 32 i))
      (Nat.zero_le k) (by omega)
    rw [hmem, h.esi, h.source hahead le_rfl hk, h.edi, h.mem]
    exact hstore
  · rw [hedi]
    exact add_ofNat_of_eq h.edi 1
  · rw [hesi]
    exact add_ofNat_of_eq h.esi 1

theorem advances_copies (m : Ram) (hahead : Ahead dest src n) (hn : n < 2 ^ 32) :
    Advances n [.loadAl .esi, .storeAl .edi, .addl (.imm 1) .edi, .addl (.imm 1) .esi] .movsl
      (Copies m dest src) where
  congr h hmem hreg :=
    ⟨hmem.trans h.mem, (hreg .edi nofun nofun).trans h.edi, (hreg .esi nofun nofun).trans h.esi⟩
  step k hk c h := by
    refine h.next_byte hahead hk hn ?_ rfl rfl
    exact congrArg (c.mem.store8 (c.reg .edi)) (setWidth_loadAl _ _)
  count c r hr := by
    obtain rfl | rfl := hr <;> rfl
  word k hk c hdf h := by
    refine ⟨?_, ?_, ?_⟩
    · have hword : ∀ j < 4, (c.mem.load32 (c.reg .esi)).extractLsb' (8 * j) 8 =
          m (src + BitVec.ofNat 32 (k + j)) := by
        intro j hj
        rw [Ram.extractLsb_load32 _ _ hj, add_ofNat_of_eq h.esi]
        exact h.source hahead (Nat.le_add_right k j) (by omega)
      have hstore := Ram.store32_patch_hi (m := m) (s := dest)
        (f := fun i => m (src + BitVec.ofNat 32 i)) (Nat.zero_le k) (by omega) hword
      rw [← hstore, ← h.mem, ← h.edi]
      rfl
    · have hnext : c.reg .edi + c.stride 4 = dest + BitVec.ofNat 32 (k + 4) := by
        rw [stride_of_clear hdf]
        exact add_ofNat_of_eq h.edi 4
      exact hnext
    · have hnext : c.reg .esi + c.stride 4 = src + BitVec.ofNat 32 (k + 4) := by
        rw [stride_of_clear hdf]
        exact add_ofNat_of_eq h.esi 4
      exact hnext

theorem wp_memcpyBottom (hahead : Ahead dest src n) (hn : n < 2 ^ 32)
    (h : Remaining .edx n (Copies m dest src) k c) :
    Wp E memcpy ⟨19, c, []⟩ fun t => Copies m dest src n t.cpu := by
  have hp := advances_copies m hahead hn
  refine h.loop hp hn rfl rfl rfl rfl rfl rfl fun k c h hrest => ?_
  refine .op rfl (.op rfl (.op rfl (.op rfl (.op rfl (.jmp rfl rfl (hrest _ ?_))))))
  exact h.step hp (.inr rfl)

theorem wp_memcpy (hahead : Ahead dest src n) (hn : n < 2 ^ 32)
    (h : Remaining .ecx n (Copies m dest src) k c) :
    Wp E memcpy ⟨0, c, []⟩ fun t => Copies m dest src n t.cpu := by
  have hp := advances_copies m hahead hn
  refine h.loop hp hn rfl rfl rfl rfl rfl rfl fun k c h hrest => .op rfl ?_
  by_cases haligned : c.reg .edi &&& 3 = 0
  -- the words, and the bytes behind them
  · refine .jcc_true rfl rfl (holds_z_ofLogic.trans (decide_eq_true haligned)) (.label rfl ?_)
    refine .op rfl (.op rfl (.op rfl (.op rfl (.op rfl (.op rfl (.op rfl ?_))))))
    exact wp_memcpyBottom hahead hn ((h.setFlags hp _).words hp hn)
  -- one byte, and back to the top
  · refine .jcc_false rfl (holds_z_ofLogic.trans (decide_eq_false haligned)) ?_
    refine .op rfl (.op rfl (.op rfl (.op rfl (.op rfl (.jmp rfl rfl (hrest _ ?_))))))
    exact (h.setFlags hp _).step hp (.inl rfl)

/-- The memory after the copy. -/
def Moved (m : Ram) (dest src n : Word) (m' : Ram) : Prop :=
  ∀ a, m' a = if InRange dest n a then m (src + (a - dest)) else m a

theorem moved_of_patch {n : Word} {m' : Ram} (hdest : dest.toNat + n.toNat ≤ 2 ^ 32)
    (h : m' = m.patch dest (fun i => m (src + BitVec.ofNat 32 i)) 0 n.toNat) :
    Moved m dest src n m' := by
  intro a
  rw [h, patch_eq _ _ hdest, ofNat_toNat_word]

theorem copies_memcpyOperands (cpu : Cpu) (dest src n : Word) :
    Remaining .ecx n.toNat (Copies cpu.mem dest src) n.toNat (memcpyOperands cpu dest src n) := by
  refine ⟨le_rfl, (ofNat_toNat_word n).symm, ?_⟩
  rw [Nat.sub_self]
  exact ⟨(Ram.patch_self _ _ _ _).symm, (BitVec.add_zero dest).symm, (BitVec.add_zero src).symm⟩

/-- A copy may start with its first byte when the ranges are disjoint or the destination is not above. -/
theorem ahead_of {n : Word} (hdest : dest.toNat + n.toNat ≤ 2 ^ 32) (hsrc : src.toNat + n.toNat ≤ 2 ^ 32)
    (h : (∀ a, ¬ (InRange dest n a ∧ InRange src n a)) ∨ dest.toNat ≤ src.toNat) :
    Ahead dest src n.toNat := by
  intro i hi
  have hle : dest.toNat ≤ src.toNat ∨ src.toNat + n.toNat ≤ dest.toNat := by
    refine h.elim (fun hdisjoint => ?_) .inl
    have hfirst := hdisjoint dest
    rw [InRange, InRange] at hfirst
    omega
  have hdistance : (src + BitVec.ofNat 32 i - dest).toNat =
      (src.toNat + i + 2 ^ 32 - dest.toNat) % 2 ^ 32 := by bv_omega
  rw [hdistance]
  omega

end

/-- **`memset` and `memcpy` are exact to the byte**: `memset` for every range, `memcpy` when the ranges
    are disjoint or the destination is not above the source. -/
theorem memset_memcpy_exact (E : Env Empty) (cpu : Cpu) :
    (∀ s c n : Word, s.toNat + n.toNat ≤ 2 ^ 32 →
      Wp E memset ⟨0, memsetOperands cpu s c n, []⟩ fun t => ∀ a, t.cpu.mem a =
        if InRange s n a then c.setWidth 8 else cpu.mem a) ∧
    (∀ dest src n : Word, dest.toNat + n.toNat ≤ 2 ^ 32 → src.toNat + n.toNat ≤ 2 ^ 32 →
      (∀ a, ¬ (InRange dest n a ∧ InRange src n a)) ∨ dest.toNat ≤ src.toNat →
      Wp E memcpy ⟨0, memcpyOperands cpu dest src n, []⟩ fun t =>
        Moved cpu.mem dest src n t.cpu.mem) := by
  constructor
  · intro s c n hn
    refine (wp_memset n.isLt (fills_memsetOperands cpu s c n)).mono fun t h a => ?_
    rw [h.mem, patch_eq _ _ hn]
  · intro dest src n hdest hsrc hranges
    refine (wp_memcpy (ahead_of hdest hsrc hranges) n.isLt
      (copies_memcpyOperands cpu dest src n)).mono fun t h => ?_
    exact moved_of_patch hdest h.mem

/-- Nothing to call. -/
def noFunctions : Env Empty where
  function f := nomatch f
  address _ := 0x400000

/-- Every byte of memory is the low part of its address. -/
def countingCpu : Cpu where
  reg _ := 0
  ds := 0x18
  es := 0x18
  flags := ⟨false, false, false, false, false, true⟩
  mem a := a.setWidth 8

/-- Ranges that are not aligned, and a copy to one byte below its source. -/
theorem memset_memcpy_exact_overlap :
    (Wp noFunctions memset ⟨0, memsetOperands countingCpu 0x1003 0x141 10, []⟩ fun t => ∀ a,
      t.cpu.mem a = if InRange 0x1003 10 a then 0x41 else countingCpu.mem a) ∧
    (Wp noFunctions memcpy ⟨0, memcpyOperands countingCpu 0x1001 0x1002 11, []⟩ fun t =>
      Moved countingCpu.mem 0x1001 0x1002 11 t.cpu.mem) :=
  ⟨(memset_memcpy_exact noFunctions countingCpu).1 0x1003 0x141 10 (by decide),
    (memset_memcpy_exact noFunctions countingCpu).2 0x1001 0x1002 11 (by decide) (by decide)
      (.inr (by decide))⟩

/-! ## `memmove` -/

/-- No byte of the source is overwritten before it is read, when the copy starts with the last. -/
def Behind (dest src : Word) (n : Nat) : Prop :=
  ∀ i < n, (src + BitVec.ofNat 32 i - dest).toNat ≤ i ∨ n ≤ (src + BitVec.ofNat 32 i - dest).toNat

/-- The last `k` of `n` bytes at `dest` are those that were at `src`; the registers are one below. -/
structure CopiesBack (m : Ram) (dest src : Word) (n k : Nat) (c : Cpu) : Prop where
  mem : c.mem = m.patch dest (fun i => m (src + BitVec.ofNat 32 i)) (n - k) n
  edi : c.reg .edi + 1 = dest + BitVec.ofNat 32 (n - k)
  esi : c.reg .esi + 1 = src + BitVec.ofNat 32 (n - k)

section

variable {E : Env Empty} {m : Ram} {dest src : Word} {n k : Nat} {c c' : Cpu}

/-- A copy to above its source may start with its last byte. -/
theorem behind_of {n : Word} (hdest : dest.toNat + n.toNat ≤ 2 ^ 32)
    (hsrc : src.toNat + n.toNat ≤ 2 ^ 32) (hlt : src.toNat < dest.toNat) : Behind dest src n.toNat := by
  intro i hi
  have hdistance : (src + BitVec.ofNat 32 i - dest).toNat =
      (src.toNat + i + 2 ^ 32 - dest.toNat) % 2 ^ 32 := by bv_omega
  rw [hdistance]
  omega

theorem eq_of_add_one {w s : Word} {j : Nat} (h : w + 1 = s + BitVec.ofNat 32 (j + 1)) :
    w = s + BitVec.ofNat 32 j := by
  rw [BitVec.ofNat_add, ← BitVec.add_assoc] at h
  exact (BitVec.add_left_inj _).1 h

/-- One byte copied, from the upper end. -/
theorem CopiesBack.turn (h : CopiesBack m dest src n k c) (hbehind : Behind dest src n) (hk : k < n)
    (hn : n < 2 ^ 32) (hdf : c.flags.df = true) :
    CopiesBack m dest src n (k + 1) (StringInstr.movsb.turn c) := by
  have hleft : n - k = n - (k + 1) + 1 := by omega
  have hedi : c.reg .edi = dest + BitVec.ofNat 32 (n - (k + 1)) := eq_of_add_one (hleft ▸ h.edi)
  have hesi : c.reg .esi = src + BitVec.ofNat 32 (n - (k + 1)) := eq_of_add_one (hleft ▸ h.esi)
  refine ⟨?_, ?_, ?_⟩
  · have hsource : c.mem (src + BitVec.ofNat 32 (n - (k + 1))) =
        m (src + BitVec.ofNat 32 (n - (k + 1))) := by
      rw [h.mem]
      refine if_neg ?_
      have hfar := hbehind (n - (k + 1)) (by omega)
      omega
    have hstore := @Ram.store8_patch_lo m dest (fun i => m (src + BitVec.ofNat 32 i)) (n - (k + 1)) n
      (by omega) (by omega)
    have hmem : (StringInstr.movsb.turn c).mem = c.mem.store8 (c.reg .edi) (c.mem (c.reg .esi)) := rfl
    rw [hmem, hesi, hsource, hedi, h.mem, hleft]
    exact hstore
  · have hnext : c.reg .edi + c.stride 1 + 1 = c.reg .edi := by
      rw [stride_of_set hdf, neg_add_cancel_right]
    exact hnext.trans hedi
  · have hnext : c.reg .esi + c.stride 1 + 1 = c.reg .esi := by
      rw [stride_of_set hdf, neg_add_cancel_right]
    exact hnext.trans hesi

/-- The copy that starts with the first byte. -/
theorem wp_memmoveForward {n : Word} (hdest : dest.toNat + n.toNat ≤ 2 ^ 32) (h : Copies m dest src 0 c)
    (hahead : Ahead dest src n.toNat) (hcount : c.reg .ecx = n) (hdf : c.flags.df = false) :
    Wp E memmove ⟨8, c, []⟩ fun t => Moved m dest src n t.cpu.mem ∧ t.cpu.flags.df = false := by
  have hall : Copies m dest src n.toNat (StringInstr.movsb.turn^[n.toNat] c) ∧
      KeepsOther c (StringInstr.movsb.turn^[n.toNat] c) := by
    refine rep_invariant (P := fun k c' => Copies m dest src k c' ∧ KeepsOther c c') ?_ ⟨h, .refl c⟩
    rintro k hk c' ⟨hcopied, hkeeps⟩
    have hstride : c'.stride 1 = 1 := stride_of_clear (by rw [hkeeps.flags, hdf]) 1
    refine ⟨hcopied.next_byte hahead hk n.isLt rfl ?_ ?_, hkeeps.turn _⟩
    · exact congrArg (c'.reg .edi + ·) hstride
    · exact congrArg (c'.reg .esi + ·) hstride
  refine .label rfl (.op rfl (.of_finished rfl ?_))
  rw [Instr.exec, hcount]
  exact ⟨moved_of_patch hdest hall.1.mem, by rw [hall.2.flags, hdf]⟩

/-- The copy that starts with the last byte. -/
theorem wp_memmoveBackward {n : Word} (hdest : dest.toNat + n.toNat ≤ 2 ^ 32)
    (h : CopiesBack m dest src n.toNat 0 c) (hbehind : Behind dest src n.toNat)
    (hcount : c.reg .ecx = n) (hdf : c.flags.df = true) :
    Wp E memmove ⟨8, c, []⟩ fun t => Moved m dest src n t.cpu.mem ∧ t.cpu.flags.df = true := by
  have hall : CopiesBack m dest src n.toNat n.toNat (StringInstr.movsb.turn^[n.toNat] c) ∧
      KeepsOther c (StringInstr.movsb.turn^[n.toNat] c) := by
    refine rep_invariant (P := fun k c' => CopiesBack m dest src n.toNat k c' ∧ KeepsOther c c') ?_
      ⟨h, .refl c⟩
    rintro k hk c' ⟨hcopied, hkeeps⟩
    have hback : c'.flags.df = true := by rw [hkeeps.flags, hdf]
    exact ⟨hcopied.turn hbehind hk n.isLt hback, hkeeps.turn _⟩
  have hmem := hall.1.mem
  rw [Nat.sub_self] at hmem
  refine .label rfl (.op rfl (.of_finished rfl ?_))
  rw [Instr.exec, hcount]
  exact ⟨moved_of_patch hdest hmem, by rw [hall.2.flags, hdf]⟩

/-- The copy, and the direction flag that is left: set when the source is below the destination. -/
theorem wp_memmove (E : Env Empty) (cpu : Cpu) (dest src n : Word)
    (hdest : dest.toNat + n.toNat ≤ 2 ^ 32) (hsrc : src.toNat + n.toNat ≤ 2 ^ 32) :
    Wp E memmove ⟨0, memcpyOperands cpu dest src n, []⟩ fun t =>
      Moved cpu.mem dest src n t.cpu.mem ∧ t.cpu.flags.df = decide (src.toNat < dest.toNat) := by
  refine .op rfl (.op rfl (.op rfl (.op rfl ?_)))
  by_cases hle : dest.toNat ≤ src.toNat
  · refine .jcc_true rfl rfl (holds_ae_ofSub.trans (decide_eq_true hle)) ?_
    rw [decide_eq_false (by omega)]
    refine wp_memmoveForward hdest ⟨(Ram.patch_self _ _ _ _).symm, (BitVec.add_zero dest).symm,
      (BitVec.add_zero src).symm⟩ (ahead_of hdest hsrc (.inr hle)) rfl rfl
  · refine .jcc_false rfl (holds_ae_ofSub.trans (decide_eq_false hle)) (.op rfl (.op rfl (.op rfl ?_)))
    rw [decide_eq_true (by omega)]
    refine wp_memmoveBackward hdest ⟨(Ram.patch_self _ _ _ _).symm, ?_, ?_⟩
      (behind_of hdest hsrc (by omega)) rfl rfl
    · have hlast : dest + n + -1 + 1 = dest + n := neg_add_cancel_right (dest + n) 1
      rw [Nat.sub_zero, ofNat_toNat_word]
      exact hlast
    · have hlast : src + n + -1 + 1 = src + n := neg_add_cancel_right (src + n) 1
      rw [Nat.sub_zero, ofNat_toNat_word]
      exact hlast

/-- **`memmove` always copies**, but it leaves the direction flag set when the source is below the
    destination; whatever the flag was before. -/
theorem memmove_exact_iff (E : Env Empty) (cpu : Cpu) (dest src n : Word)
    (hdest : dest.toNat + n.toNat ≤ 2 ^ 32) (hsrc : src.toNat + n.toNat ≤ 2 ^ 32) :
    (Wp E memmove ⟨0, memcpyOperands cpu dest src n, []⟩ fun t =>
      Moved cpu.mem dest src n t.cpu.mem ∧ t.cpu.flags.df = false) ↔ dest.toNat ≤ src.toNat := by
  obtain ⟨t, ht, hmoved, hdf⟩ := wp_memmove E cpu dest src n hdest hsrc
  rw [Wp.iff_of_ends ht, hdf, decide_eq_false_iff_not, not_lt]
  exact and_iff_right hmoved

end

theorem memmove_exact_forward : Wp noFunctions memmove
    ⟨0, memcpyOperands countingCpu 0x1000 0x1001 8, []⟩ fun t =>
      Moved countingCpu.mem 0x1000 0x1001 8 t.cpu.mem ∧ t.cpu.flags.df = false :=
  (memmove_exact_iff noFunctions countingCpu 0x1000 0x1001 8 (by decide) (by decide)).2
    (by decide)

/-- One byte moved up by one leaves the flag set. -/
theorem memmove_direction_set : countingCpu.flags.df = false ∧
    ¬ Wp noFunctions memmove ⟨0, memcpyOperands countingCpu 0x1001 0x1000 1, []⟩ fun t =>
      Moved countingCpu.mem 0x1001 0x1000 1 t.cpu.mem ∧ t.cpu.flags.df = false := by
  refine ⟨rfl, ?_⟩
  rintro ⟨t, ht, -, hdf⟩
  obtain ⟨u, hu, -, hset⟩ := wp_memmove noFunctions countingCpu 0x1001 0x1000 1 (by decide) (by decide)
  rw [ht.unique hu, hset] at hdf
  exact absurd hdf (by decide)

end Gyarados

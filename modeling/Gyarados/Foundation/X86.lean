import Gyarados.Foundation.Ram

set_option autoImplicit false

/-! # A part of the x86

The instructions that the assembly routines are made of, on 32-bit registers and a flat memory, and
listings of them with labels. A routine runs until it falls off the end of its listing or comes to an
`iret`; the functions that it calls are parameters. -/

namespace Gyarados

namespace X86

/-! ## The processor -/

inductive Reg
  | eax | ecx | edx | ebx | esp | ebp | esi | edi
  deriving DecidableEq, Repr

/-- The flags that some instruction here reads. -/
structure Flags where
  cf : Bool
  zf : Bool
  sf : Bool
  of : Bool
  df : Bool
  intf : Bool
  deriving DecidableEq, Repr

structure Cpu where
  reg : Reg → Word
  ds : BitVec 16
  es : BitVec 16
  flags : Flags
  mem : Ram

namespace Flags

/-- After an operation without carry. -/
def ofLogic (f : Flags) (w : Word) : Flags :=
  { f with cf := false, of := false, zf := w == 0, sf := w.msb }

/-- After `a + b`. -/
def ofAdd (f : Flags) (a b : Word) : Flags :=
  { f with cf := a.uaddOverflow b, of := a.saddOverflow b, zf := a + b == 0, sf := (a + b).msb }

/-- After `a - b`. -/
def ofSub (f : Flags) (a b : Word) : Flags :=
  { f with cf := a.usubOverflow b, of := a.ssubOverflow b, zf := a - b == 0, sf := (a - b).msb }

/-- After `a >> n`, for `n` from 1 on; the overflow flag is not defined then, and is left as it is. -/
def ofShr (f : Flags) (a : Word) (n : Nat) : Flags :=
  { f with cf := a.getLsbD (n - 1), zf := a >>> n == 0, sf := (a >>> n).msb }

end Flags

namespace Cpu

variable (c : Cpu)

def set (r : Reg) (w : Word) : Cpu := { c with reg := fun r' => if r' = r then w else c.reg r' }

def setFlags (f : Flags) : Cpu := { c with flags := f }

def setMem (m : Ram) : Cpu := { c with mem := m }

def push (w : Word) : Cpu :=
  (c.set .esp (c.reg .esp - 4)).setMem (c.mem.store32 (c.reg .esp - 4) w)

/-- What a string instruction adds to its addresses, for elements of `n` bytes. -/
def stride (n : Word) : Word := if c.flags.df then -n else n

end Cpu

/-! ## Instructions -/

inductive Operand
  | reg (r : Reg)
  | imm (w : Word)

def Operand.value (c : Cpu) : Operand → Word
  | reg r => c.reg r
  | imm w => w

inductive StringInstr
  | stosl
  | movsb
  | movsl

/-- One element of a string instruction. -/
def StringInstr.exec (c : Cpu) : StringInstr → Cpu
  | stosl =>
      (c.setMem (c.mem.store32 (c.reg .edi) (c.reg .eax))).set .edi (c.reg .edi + c.stride 4)
  | movsb =>
      ((c.setMem (c.mem.store8 (c.reg .edi) (c.mem (c.reg .esi)))).set .edi
        (c.reg .edi + c.stride 1)).set .esi (c.reg .esi + c.stride 1)
  | movsl =>
      ((c.setMem (c.mem.store32 (c.reg .edi) (c.mem.load32 (c.reg .esi)))).set .edi
        (c.reg .edi + c.stride 4)).set .esi (c.reg .esi + c.stride 4)

/-- One turn of a repeated string instruction. -/
def StringInstr.turn (i : StringInstr) (c : Cpu) : Cpu :=
  (i.exec c).set .ecx ((i.exec c).reg .ecx - 1)

/-- Instructions that go on with the next one. -/
inductive Instr
  | testl (src : Operand) (dst : Reg)
  | cmpl (src : Operand) (dst : Reg)
  | movl (src : Operand) (dst : Reg)
  | addl (src : Operand) (dst : Reg)
  | subl (src : Operand) (dst : Reg)
  | andl (src : Operand) (dst : Reg)
  | shrl (n : Nat) (dst : Reg)
  /-- `leal disp(base, index), dst` -/
  | leal (disp : Word) (base index dst : Reg)
  /-- `movb (addr), %al` -/
  | loadAl (addr : Reg)
  /-- `movb %al, (addr)` -/
  | storeAl (addr : Reg)
  /-- `movw %ds, dst` -/
  | movwDs (dst : Reg)
  /-- `movw src, %es` -/
  | movwEs (src : Reg)
  | pushl (src : Reg)
  | popl (dst : Reg)
  | cld
  | std
  | sti
  | rep (i : StringInstr)

def Instr.exec (c : Cpu) : Instr → Cpu
  | testl src dst => c.setFlags (c.flags.ofLogic (c.reg dst &&& src.value c))
  | cmpl src dst => c.setFlags (c.flags.ofSub (c.reg dst) (src.value c))
  | movl src dst => c.set dst (src.value c)
  | addl src dst =>
      (c.set dst (c.reg dst + src.value c)).setFlags (c.flags.ofAdd (c.reg dst) (src.value c))
  | subl src dst =>
      (c.set dst (c.reg dst - src.value c)).setFlags (c.flags.ofSub (c.reg dst) (src.value c))
  | andl src dst =>
      (c.set dst (c.reg dst &&& src.value c)).setFlags (c.flags.ofLogic (c.reg dst &&& src.value c))
  | shrl n dst => (c.set dst (c.reg dst >>> n)).setFlags (c.flags.ofShr (c.reg dst) n)
  | leal disp base index dst => c.set dst (c.reg base + c.reg index + disp)
  | loadAl addr => c.set .eax (c.reg .eax &&& 0xffffff00 ||| (c.mem (c.reg addr)).setWidth 32)
  | storeAl addr => c.setMem (c.mem.store8 (c.reg addr) ((c.reg .eax).setWidth 8))
  | movwDs dst => c.set dst (c.reg dst &&& 0xffff0000 ||| c.ds.setWidth 32)
  | movwEs src => { c with es := (c.reg src).setWidth 16 }
  | pushl src => c.push (c.reg src)
  | popl dst => (c.set .esp (c.reg .esp + 4)).set dst (c.mem.load32 (c.reg .esp))
  | cld => c.setFlags { c.flags with df := false }
  | std => c.setFlags { c.flags with df := true }
  | sti => c.setFlags { c.flags with intf := true }
  | rep i => i.turn^[(c.reg .ecx).toNat] c

inductive Cond
  | z | ae | l | g

def Cond.holds (f : Flags) : Cond → Bool
  | z => f.zf
  | ae => !f.cf
  | l => f.sf != f.of
  | g => !f.zf && f.sf == f.of

/-! ## Listings -/

/-- A line of a listing with functions `σ` and labels `L`. -/
inductive Line (σ L : Type)
  | label (l : L)
  | op (i : Instr)
  | jmp (l : L)
  | jcc (cond : Cond) (l : L)
  /-- `call *table(, index, 4)` -/
  | call (table : List σ) (index : Reg)
  | iret

/-- What is around a listing: what a function does from its first instruction to its return, and where
    the lines are in memory. -/
structure Env (σ : Type) where
  function : σ → Cpu → Cpu
  address : Nat → Word

/-- A state of a run: the line, the processor, and the calls so far with the processor at their first
    instruction. -/
structure State (σ : Type) where
  line : Nat
  cpu : Cpu
  calls : List (σ × Cpu)

variable {σ L : Type} [DecidableEq L]

/-- The line of a label. -/
def target (p : List (Line σ L)) (l : L) : Option Nat :=
  p.findIdx? fun
    | .label l' => decide (l' = l)
    | _ => false

/-- One line. There is no next state at the end, and none after a jump to nowhere. -/
def step (E : Env σ) (p : List (Line σ L)) (s : State σ) : Option (State σ) :=
  match p[s.line]? with
  | none => none
  | some .iret => none
  | some (.label _) => some { s with line := s.line + 1 }
  | some (.op i) => some { s with line := s.line + 1, cpu := i.exec s.cpu }
  | some (.jmp l) => (target p l).map fun line => { s with line }
  | some (.jcc cond l) =>
      if cond.holds s.cpu.flags then (target p l).map fun line => { s with line }
      else some { s with line := s.line + 1 }
  | some (.call table index) =>
      table[(s.cpu.reg index).toNat]?.map fun f =>
        let c := s.cpu.push (E.address (s.line + 1))
        { line := s.line + 1, cpu := E.function f c, calls := s.calls ++ [(f, c)] }

/-- The run is at the end of the listing, or at an `iret`. -/
def finished (p : List (Line σ L)) (s : State σ) : Bool :=
  match p[s.line]? with
  | none => true
  | some .iret => true
  | some _ => false

/-- The run: `none` if it does not end within `fuel` lines. -/
def run (E : Env σ) (p : List (Line σ L)) : Nat → State σ → Option (State σ)
  | 0, _ => none
  | fuel + 1, s => if finished p s then some s else (step E p s).bind (run E p fuel)

/-- The run from `s` ends in `t`. -/
def Ends (E : Env σ) (p : List (Line σ L)) (s t : State σ) : Prop := ∃ fuel, run E p fuel s = some t

/-- The run from `s` ends, in a state with `Q`. -/
def Wp (E : Env σ) (p : List (Line σ L)) (s : State σ) (Q : State σ → Prop) : Prop :=
  ∃ t, Ends E p s t ∧ Q t

/-! ## Rules for runs -/

section

variable {E : Env σ} {p : List (Line σ L)} {s t u : State σ} {Q Q' : State σ → Prop}

theorem finished_of_step (h : step E p s = some t) : finished p s = false := by
  unfold step at h
  unfold finished
  split at h <;> simp_all

theorem Ends.of_step (h : step E p s = some t) (ht : Ends E p t u) : Ends E p s u := by
  obtain ⟨fuel, hrun⟩ := ht
  refine ⟨fuel + 1, ?_⟩
  rw [run, finished_of_step h, h]
  exact hrun

theorem Ends.of_finished (h : finished p s = true) : Ends E p s s := ⟨1, by rw [run, if_pos h]⟩

theorem run_unique (fuel : Nat) : ∀ {fuel' : Nat} {s : State σ}, run E p fuel s = some t →
    run E p fuel' s = some u → t = u := by
  induction fuel with
  | zero => exact fun h => nomatch h
  | succ fuel ih =>
      intro fuel' s h h'
      cases fuel' with
      | zero => exact nomatch h'
      | succ fuel' =>
          rw [run] at h h'
          split at h
          · rename_i hfin
            rw [if_pos hfin] at h'
            exact Option.some.inj (h.symm.trans h')
          · rename_i hfin
            rw [if_neg hfin] at h'
            obtain ⟨v, hv, h⟩ := Option.bind_eq_some_iff.1 h
            obtain ⟨v', hv', h'⟩ := Option.bind_eq_some_iff.1 h'
            obtain rfl := Option.some.inj (hv.symm.trans hv')
            exact ih h h'

/-- A run has one end. -/
theorem Ends.unique (h : Ends E p s t) (h' : Ends E p s u) : t = u := by
  obtain ⟨fuel, h⟩ := h
  obtain ⟨fuel', h'⟩ := h'
  exact run_unique fuel h h'

theorem Wp.of_finished (h : finished p s = true) (hQ : Q s) : Wp E p s Q := ⟨s, .of_finished h, hQ⟩

theorem Wp.of_step (h : step E p s = some t) (ht : Wp E p t Q) : Wp E p s Q := by
  obtain ⟨u, hu, hQ⟩ := ht
  exact ⟨u, .of_step h hu, hQ⟩

theorem Wp.mono (h : Wp E p s Q) (hQ : ∀ t, Q t → Q' t) : Wp E p s Q' := by
  obtain ⟨t, ht, hQt⟩ := h
  exact ⟨t, ht, hQ t hQt⟩

/-- What holds at the end is what holds at the one end there is. -/
theorem Wp.iff_of_ends (h : Ends E p s t) : Wp E p s Q ↔ Q t := by
  refine ⟨?_, fun hQ => ⟨t, h, hQ⟩⟩
  rintro ⟨u, hu, hQ⟩
  exact h.unique hu ▸ hQ

variable {n : Nat} {c : Cpu} {calls : List (σ × Cpu)}

theorem Wp.label {l : L} (h : p[n]? = some (.label l)) (hw : Wp E p ⟨n + 1, c, calls⟩ Q) :
    Wp E p ⟨n, c, calls⟩ Q :=
  .of_step (by rw [step, h]) hw

theorem Wp.op {i : Instr} (h : p[n]? = some (.op i)) (hw : Wp E p ⟨n + 1, i.exec c, calls⟩ Q) :
    Wp E p ⟨n, c, calls⟩ Q :=
  .of_step (by rw [step, h]) hw

theorem Wp.jmp {l : L} {n' : Nat} (h : p[n]? = some (.jmp l)) (hl : target p l = some n')
    (hw : Wp E p ⟨n', c, calls⟩ Q) : Wp E p ⟨n, c, calls⟩ Q :=
  .of_step (by rw [step, h]; simp only [hl, Option.map_some]) hw

theorem Wp.jcc_true {cond : Cond} {l : L} {n' : Nat} (h : p[n]? = some (.jcc cond l))
    (hl : target p l = some n') (hcond : cond.holds c.flags = true)
    (hw : Wp E p ⟨n', c, calls⟩ Q) : Wp E p ⟨n, c, calls⟩ Q :=
  .of_step (by rw [step, h]; simp only [hl, hcond, if_true, Option.map_some]) hw

theorem Wp.jcc_false {cond : Cond} {l : L} (h : p[n]? = some (.jcc cond l))
    (hcond : cond.holds c.flags = false) (hw : Wp E p ⟨n + 1, c, calls⟩ Q) :
    Wp E p ⟨n, c, calls⟩ Q :=
  .of_step (by rw [step, h]; simp only [hcond, Bool.false_eq_true, if_false]) hw

theorem Wp.call {table : List σ} {index : Reg} {f : σ} (h : p[n]? = some (.call table index))
    (hf : table[(c.reg index).toNat]? = some f)
    (hw : Wp E p ⟨n + 1, E.function f (c.push (E.address (n + 1))),
      calls ++ [(f, c.push (E.address (n + 1)))]⟩ Q) : Wp E p ⟨n, c, calls⟩ Q :=
  .of_step (by rw [step, h]; simp only [hf, Option.map_some]) hw

/-- **The rule for a loop that counts down**: at its first line `I k` holds with `k` turns to go. -/
theorem Wp.countdown {I : Nat → Cpu → Prop} (hend : ∀ c, I 0 c → Wp E p ⟨n, c, calls⟩ Q)
    (hturn : ∀ k c, I (k + 1) c → (∀ c', I k c' → Wp E p ⟨n, c', calls⟩ Q) →
      Wp E p ⟨n, c, calls⟩ Q) (k : Nat) : ∀ c, I k c → Wp E p ⟨n, c, calls⟩ Q := by
  induction k with
  | zero => exact hend
  | succ k ih => exact fun c h => hturn k c h ih

end

/-! ## Flags -/

section

variable {f : Flags} {a b w : Word}

theorem holds_z_ofLogic : Cond.z.holds (f.ofLogic w) = decide (w = 0) := by
  rw [Cond.holds, Flags.ofLogic, beq_eq_decide]

theorem holds_ae_ofSub : Cond.ae.holds (f.ofSub a b) = decide (b.toNat ≤ a.toNat) := by
  simp [Cond.holds, Flags.ofSub, BitVec.usubOverflow, ← decide_not]

/-- The sign of a difference is the right one unless it overflows. -/
theorem msb_sub_bne_ssubOverflow : ((a - b).msb != a.ssubOverflow b) = decide (a.toInt < b.toInt) := by
  have hbounds := And.intro a.toInt_lt (And.intro a.le_toInt (And.intro b.toInt_lt b.le_toInt))
  rw [BitVec.msb_eq_toInt, BitVec.toInt_sub, BitVec.ssubOverflow, Int.bmod_def]
  simp only [Nat.reducePow, Nat.reduceSub, Int.reducePow] at hbounds ⊢
  rw [Bool.eq_iff_iff, bne_iff_ne, ne_eq, Bool.eq_iff_iff]
  simp only [Bool.or_eq_true, decide_eq_true_eq]
  split <;> omega

theorem holds_l_ofSub : Cond.l.holds (f.ofSub a b) = decide (a.toInt < b.toInt) :=
  msb_sub_bne_ssubOverflow

theorem holds_g_ofSub : Cond.g.holds (f.ofSub a b) = decide (b.toInt < a.toInt) := by
  have hl : (a - b).msb = a.ssubOverflow b ↔ ¬ a.toInt < b.toInt := by
    rw [← not_ne_iff, ← bne_iff_ne, msb_sub_bne_ssubOverflow, decide_eq_true_eq]
  have hz : a - b = 0 ↔ a.toInt = b.toInt := by rw [sub_eq_zero, BitVec.toInt_inj]
  rw [Bool.eq_iff_iff, Cond.holds, Flags.ofSub]
  simp only [Bool.and_eq_true, Bool.not_eq_true', beq_eq_false_iff_ne, beq_iff_eq, decide_eq_true_eq]
  rw [ne_eq, hz, hl]
  omega

end

/-! ## What an instruction leaves alone -/

section

variable {c : Cpu} {r r' : Reg}

@[simp] theorem reg_set (c : Cpu) (r r' : Reg) (w : Word) :
    (c.set r w).reg r' = if r' = r then w else c.reg r' := rfl

@[simp] theorem mem_set (c : Cpu) (r : Reg) (w : Word) : (c.set r w).mem = c.mem := rfl

@[simp] theorem flags_set (c : Cpu) (r : Reg) (w : Word) : (c.set r w).flags = c.flags := rfl

@[simp] theorem reg_setFlags (c : Cpu) (f : Flags) : (c.setFlags f).reg = c.reg := rfl

@[simp] theorem mem_setFlags (c : Cpu) (f : Flags) : (c.setFlags f).mem = c.mem := rfl

@[simp] theorem flags_setFlags (c : Cpu) (f : Flags) : (c.setFlags f).flags = f := rfl

@[simp] theorem reg_setMem (c : Cpu) (m : Ram) : (c.setMem m).reg = c.reg := rfl

@[simp] theorem mem_setMem (c : Cpu) (m : Ram) : (c.setMem m).mem = m := rfl

@[simp] theorem flags_setMem (c : Cpu) (m : Ram) : (c.setMem m).flags = c.flags := rfl

theorem stride_of_clear (h : c.flags.df = false) (n : Word) : c.stride n = n :=
  if_neg (h ▸ Bool.false_ne_true)

theorem stride_of_set (h : c.flags.df = true) (n : Word) : c.stride n = -n := if_pos h

/-- The low byte that is read into `%al` is the byte in memory. -/
theorem setWidth_loadAl (x : Word) (b : Byte) : (x &&& 0xffffff00 ||| b.setWidth 32).setWidth 8 = b := by
  ext i hi
  simp

end

/-! ## Repeated string instructions -/

section

variable {i : StringInstr} {c₀ c : Cpu}

/-- A string instruction changes its addresses and its count, and the memory. -/
structure KeepsOther (c c' : Cpu) : Prop where
  reg : ∀ r, r ≠ .ecx → r ≠ .esi → r ≠ .edi → c'.reg r = c.reg r
  flags : c'.flags = c.flags

theorem KeepsOther.refl (c : Cpu) : KeepsOther c c := ⟨fun _ _ _ _ => rfl, rfl⟩

theorem KeepsOther.turn (h : KeepsOther c₀ c) (i : StringInstr) : KeepsOther c₀ (i.turn c) := by
  refine ⟨fun r hcount hsrc hdst => ?_, ?_⟩
  · rw [← h.reg r hcount hsrc hdst]
    cases i <;> simp [StringInstr.turn, StringInstr.exec, hcount, hsrc, hdst]
  · rw [← h.flags]
    cases i <;> rfl

/-- **The rule for `rep`**: what each turn takes from one number to the next holds after all of them. -/
theorem rep_invariant {P : Nat → Cpu → Prop} {n : Nat}
    (hturn : ∀ k < n, ∀ c, P k c → P (k + 1) (i.turn c)) (h : P 0 c) : P n (i.turn^[n] c) := by
  induction n with
  | zero => exact h
  | succ n ih =>
      rw [Function.iterate_succ_apply']
      exact hturn n (Nat.lt_succ_self n) _ (ih fun k hk => hturn k (hk.trans (Nat.lt_succ_self n)))

end

/-! ## Functions -/

/-- A function that keeps the calling convention of C, called with `args` words behind its return
    address and `depth` words above them: it may change its arguments, `eax`, `ecx`, `edx`, the flags and
    any other memory, and it returns. -/
structure CFunction (args depth : Nat) (f : Cpu → Cpu) : Prop where
  esp : ∀ c, (f c).reg .esp = c.reg .esp + 4
  saved : ∀ c, ∀ r ∈ [Reg.ebx, .ebp, .esi, .edi], (f c).reg r = c.reg r
  stack : ∀ c (vs ws : List Word), vs.length = args + 1 → ws.length = depth →
    c.mem.Stack (c.reg .esp) (vs ++ ws) →
    (f c).mem.Stack (c.reg .esp + BitVec.ofNat 32 (4 * (args + 1))) ws

/-! ## Registers on the stack -/

/-- On the way from `c₀` the words `vs` have been pushed on the stack `ws`, and nothing else has
    happened to the registers. -/
structure Pushed (c₀ : Cpu) (ws vs : List Word) (c : Cpu) : Prop where
  reg : ∀ r, r ≠ .esp → c.reg r = c₀.reg r
  esp : c.reg .esp = c₀.reg .esp - BitVec.ofNat 32 (4 * vs.length)
  stack : c.mem.Stack (c.reg .esp) (vs ++ ws)

/-- The registers `rs` are to be popped from above the stack `ws`, and then all but `eax` are as in
    `c₀`. -/
structure Restores (c₀ : Cpu) (ws : List Word) (rs : List Reg) (c : Cpu) : Prop where
  reg : ∀ r, r ∉ rs → r ≠ .esp → r ≠ .eax → c.reg r = c₀.reg r
  esp : c.reg .esp = c₀.reg .esp - BitVec.ofNat 32 (4 * rs.length)
  stack : c.mem.Stack (c.reg .esp) (rs.map c₀.reg ++ ws)

section

variable {c₀ c : Cpu} {ws vs : List Word} {rs : List Reg} {r : Reg}

theorem Pushed.push (h : Pushed c₀ ws vs c) (hroom : 4 * (vs.length + ws.length + 1) ≤ 2 ^ 32)
    (w : Word) : Pushed c₀ ws (w :: vs) (c.push w) := by
  refine ⟨fun r hr => ?_, ?_, ?_⟩
  · exact (if_neg hr).trans (h.reg r hr)
  · have hpushed : (c.push w).reg .esp = c.reg .esp - 4 := rfl
    rw [hpushed, h.esp, List.length_cons]
    bv_omega
  · exact h.stack.push (by rw [List.length_append]; exact hroom) w

theorem Pushed.pushl (h : Pushed c₀ ws vs c) (hroom : 4 * (vs.length + ws.length + 1) ≤ 2 ^ 32)
    (hr : r ≠ .esp) : Pushed c₀ ws (c₀.reg r :: vs) ((Instr.pushl r).exec c) := by
  rw [← h.reg r hr]
  exact h.push hroom _

theorem Restores.popl (h : Restores c₀ ws (r :: rs) c) (hesp : r ≠ .esp) :
    Restores c₀ ws rs ((Instr.popl r).exec c) := by
  have hpopped : ((Instr.popl r).exec c).reg .esp = c.reg .esp + 4 := by
    simp [Instr.exec, hesp.symm]
  refine ⟨fun r' hr' hesp' heax => ?_, ?_, ?_⟩
  · by_cases hsame : r' = r
    · subst hsame
      refine (if_pos rfl).trans ?_
      exact h.stack.head
    · refine (if_neg hsame).trans ((if_neg hesp').trans (h.reg r' ?_ hesp' heax))
      exact fun hmem => (List.mem_cons.1 hmem).elim hsame hr'
  · rw [hpopped, h.esp, List.length_cons]
    bv_omega
  · rw [hpopped]
    exact h.stack.tail

theorem eax_popl (heax : r ≠ .eax) : ((Instr.popl r).exec c).reg .eax = c.reg .eax :=
  if_neg heax.symm

theorem reg_popl : ((Instr.popl r).exec c).reg r = c.mem.load32 (c.reg .esp) :=
  if_pos rfl

theorem Pushed.setFlags (h : Pushed c₀ ws vs c) (f : Flags) : Pushed c₀ ws vs (c.setFlags f) :=
  ⟨h.reg, h.esp, h.stack⟩

variable {σ L : Type} [DecidableEq L] {E : Env σ} {p : List (Line σ L)} {Q : State σ → Prop}
variable {n : Nat} {calls : List (σ × Cpu)}

/-- **The rule for `pushl`**. -/
theorem Wp.pushl (hp : p[n]? = some (.op (.pushl r))) (h : Pushed c₀ ws vs c)
    (hroom : 4 * (vs.length + ws.length + 1) ≤ 2 ^ 32) (hr : r ≠ .esp)
    (hw : ∀ c', Pushed c₀ ws (c₀.reg r :: vs) c' → Wp E p ⟨n + 1, c', calls⟩ Q) :
    Wp E p ⟨n, c, calls⟩ Q :=
  .op hp (hw _ (h.pushl hroom hr))

/-- **The rule for `call`**: the function starts with its return address on the stack. -/
theorem Wp.call_pushed {table : List σ} {index : Reg} {f : σ}
    (hp : p[n]? = some (.call table index)) (h : Pushed c₀ ws vs c) (hindex : index ≠ .esp)
    (hf : table[(c₀.reg index).toNat]? = some f) (hroom : 4 * (vs.length + ws.length + 1) ≤ 2 ^ 32)
    (hw : ∀ c', Pushed c₀ ws (E.address (n + 1) :: vs) c' →
      Wp E p ⟨n + 1, E.function f c', calls ++ [(f, c')]⟩ Q) : Wp E p ⟨n, c, calls⟩ Q :=
  .call hp (by rw [h.reg index hindex]; exact hf) (hw _ (h.push hroom _))

/-- **The rule for `popl`**. -/
theorem Wp.popl (hp : p[n]? = some (.op (.popl r))) (h : Restores c₀ ws (r :: rs) c)
    (heax : r ≠ .eax) (hesp : r ≠ .esp)
    (hw : ∀ c', Restores c₀ ws rs c' → c'.reg .eax = c.reg .eax → Wp E p ⟨n + 1, c', calls⟩ Q) :
    Wp E p ⟨n, c, calls⟩ Q :=
  .op hp (hw _ (h.popl hesp) (eax_popl heax))

end

end X86

end Gyarados

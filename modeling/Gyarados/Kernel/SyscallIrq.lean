import Gyarados.Foundation.X86

set_option autoImplicit false

/-! # The system-call gate (`syscall_irq` in `kernel/irq.S`)

The gate saves the registers, pushes the arguments, calls the function that `eax` selects and puts
everything back. A program gets its registers and its stack as they were, with the result in `eax`. -/

namespace Gyarados

open X86

/-! ## The listing -/

/-- The functions in the table. -/
inductive SyscallFunction
  | divideByZeroExcept
  | halt
  | execute
  | read
  | write
  | openFile
  | close
  | getargs
  | vidmap
  | setHandler
  | sigreturn
  deriving DecidableEq, Repr

/-- `syscall_jumptable` -/
def syscallJumptable : List SyscallFunction :=
  [.divideByZeroExcept, .halt, .execute, .read, .write, .openFile, .close, .getargs, .vidmap,
    .setHandler, .sigreturn]

inductive SyscallLabel
  | syscallInvalid
  | syscallRet
  deriving DecidableEq, Repr

/-- `syscall_irq` -/
def syscallIrq : List (X86.Line SyscallFunction SyscallLabel) :=
  [.op (.cmpl (.imm 1) .eax),
    .jcc .l .syscallInvalid,
    .op (.cmpl (.imm 10) .eax),
    .jcc .g .syscallInvalid,
    -- save other registers we need
    .op (.pushl .ebp),
    .op (.pushl .ebx),
    .op (.pushl .ecx),
    .op (.pushl .edx),
    .op (.pushl .edi),
    .op (.pushl .esi),
    -- push arguments in order
    .op (.pushl .edx),
    .op (.pushl .ecx),
    .op (.pushl .ebx),
    .op .sti,
    .call syscallJumptable .eax,
    -- pop args
    .op (.addl (.imm 12) .esp),
    -- restore other registers we need back
    .op (.popl .esi),
    .op (.popl .edi),
    .op (.popl .edx),
    .op (.popl .ecx),
    .op (.popl .ebx),
    .op (.popl .ebp),
    .jmp .syscallRet,
    .label .syscallInvalid,
    .op (.movl (.imm (-1)) .eax),
    .jmp .syscallRet,
    .label .syscallRet,
    .iret]

/-! ## Transparency -/

/-- A number in `eax` that has a system call. -/
def IsSyscall (c : Cpu) : Prop := 1 ≤ (c.reg .eax).toInt ∧ (c.reg .eax).toInt ≤ 10

instance (c : Cpu) : Decidable (IsSyscall c) := inferInstanceAs (Decidable (_ ∧ _))

/-- The call that the gate has made, if there is one: of the entry of the table, with the arguments in
    order behind the return address, and its result in `eax`. -/
def CallsEntry (E : Env SyscallFunction) (c : Cpu) (t : State SyscallFunction) : Prop :=
  if IsSyscall c then
    ∃ f c' ret, t.calls = [(f, c')] ∧ syscallJumptable[(c.reg .eax).toNat]? = some f ∧
      c'.mem.Stack (c'.reg .esp) [ret, c.reg .ebx, c.reg .ecx, c.reg .edx] ∧
      t.cpu.reg .eax = (E.function f c').reg .eax
  else t.calls = [] ∧ t.cpu.reg .eax = -1

/-- The gate is at its `iret`, entered with the processor `c` and the words `ws` on the stack. -/
structure Transparent (E : Env SyscallFunction) (c : Cpu) (ws : List Word)
    (t : State SyscallFunction) : Prop where
  atIret : syscallIrq[t.line]? = some .iret
  calls : CallsEntry E c t
  reg : ∀ r, r ≠ .eax → t.cpu.reg r = c.reg r
  stack : t.cpu.mem.Stack (c.reg .esp) ws

section

variable {E : Env SyscallFunction} {c : Cpu} {ws : List Word}

/-- A number without a system call leads past everything. -/
theorem wp_syscallInvalid (hws : c.mem.Stack (c.reg .esp) ws) (hcall : ¬ IsSyscall c) {c' : Cpu}
    (hreg : c'.reg = c.reg) (hmem : c'.mem = c.mem) :
    Wp E syscallIrq ⟨23, c', []⟩ (Transparent E c ws) := by
  refine .label rfl (.op rfl (.jmp rfl rfl (.label rfl (.of_finished rfl ?_))))
  refine ⟨rfl, ?_, fun r hr => ?_, ?_⟩
  · rw [CallsEntry, if_neg hcall]
    exact ⟨rfl, rfl⟩
  · exact (if_neg hr).trans (congrFun hreg r)
  · exact hmem ▸ hws

/-- What a function leaves of the gate's stack: the saved registers, behind its arguments. -/
theorem restores_function {f : Cpu → Cpu} (hfun : CFunction 3 (ws.length + 6) f) {c' : Cpu} {ret : Word}
    (h : Pushed c ws [ret, c.reg .ebx, c.reg .ecx, c.reg .edx, c.reg .esi, c.reg .edi, c.reg .edx,
      c.reg .ecx, c.reg .ebx, c.reg .ebp] c') :
    Restores c ws [.esi, .edi, .edx, .ecx, .ebx, .ebp] ((Instr.addl (.imm 12) .esp).exec (f c')) := by
  have hesp : ((Instr.addl (.imm 12) .esp).exec (f c')).reg .esp = c'.reg .esp + 16 := by
    have hadded : ((Instr.addl (.imm 12) .esp).exec (f c')).reg .esp = (f c').reg .esp + 12 := rfl
    rw [hadded, hfun.esp, BitVec.add_assoc]
    rfl
  refine ⟨fun r hr hesp heax => ?_, ?_, ?_⟩
  · cases r <;> simp at hr hesp heax
  · rw [hesp, h.esp]
    simp only [List.length_cons, List.length_nil]
    bv_omega
  · rw [hesp]
    exact hfun.stack c' [ret, c.reg .ebx, c.reg .ecx, c.reg .edx]
      ([c.reg .esi, c.reg .edi, c.reg .edx, c.reg .ecx, c.reg .ebx, c.reg .ebp] ++ ws) rfl
      (by simp) h.stack

/-- A function is called, from the line behind the compares. -/
theorem wp_syscallEntry (hws : c.mem.Stack (c.reg .esp) ws) (hroom : 4 * (ws.length + 10) ≤ 2 ^ 32)
    (hcall : IsSyscall c) {f : SyscallFunction} (hf : syscallJumptable[(c.reg .eax).toNat]? = some f)
    (hfun : CFunction 3 (ws.length + 6) (E.function f)) {c' : Cpu} (hreg : c'.reg = c.reg)
    (hmem : c'.mem = c.mem) : Wp E syscallIrq ⟨4, c', []⟩ (Transparent E c ws) := by
  have hsaved : Pushed c ws [] c' :=
    ⟨fun r _ => congrFun hreg r, by simp [hreg], by rw [hmem, hreg]; exact hws⟩
  -- the registers, and the arguments above them
  refine .pushl rfl hsaved (by simp; omega) nofun fun c₁ hsaved => ?_
  refine .pushl rfl hsaved (by simp; omega) nofun fun c₂ hsaved => ?_
  refine .pushl rfl hsaved (by simp; omega) nofun fun c₃ hsaved => ?_
  refine .pushl rfl hsaved (by simp; omega) nofun fun c₄ hsaved => ?_
  refine .pushl rfl hsaved (by simp; omega) nofun fun c₅ hsaved => ?_
  refine .pushl rfl hsaved (by simp; omega) nofun fun c₆ hsaved => ?_
  refine .pushl rfl hsaved (by simp; omega) nofun fun c₇ hsaved => ?_
  refine .pushl rfl hsaved (by simp; omega) nofun fun c₈ hsaved => ?_
  refine .pushl rfl hsaved (by simp; omega) nofun fun c₉ hsaved => ?_
  refine .op rfl ?_
  refine .call_pushed rfl (hsaved.setFlags _) nofun hf (by simp; omega) fun c' hcalled => ?_
  -- the arguments are dropped, and the registers come back
  refine .op rfl ?_
  refine .popl rfl (restores_function hfun hcalled) nofun nofun fun c₁ hback hresult => ?_
  refine .popl rfl hback nofun nofun fun c₂ hback hresult₂ => ?_
  refine .popl rfl hback nofun nofun fun c₃ hback hresult₃ => ?_
  refine .popl rfl hback nofun nofun fun c₄ hback hresult₄ => ?_
  refine .popl rfl hback nofun nofun fun c₅ hback hresult₅ => ?_
  refine .popl rfl hback nofun nofun fun c₆ hback hresult₆ => ?_
  refine .jmp rfl rfl (.label rfl (.of_finished rfl ⟨rfl, ?_, fun r hr => ?_, ?_⟩))
  · rw [CallsEntry, if_pos hcall]
    refine ⟨f, c', E.address 15, rfl, hf, ?_, ?_⟩
    · exact @Ram.Stack.take _ _ [E.address 15, c.reg .ebx, c.reg .ecx, c.reg .edx] _ hcalled.stack
    · rw [hresult₆, hresult₅, hresult₄, hresult₃, hresult₂, hresult]
      rfl
  · by_cases hesp : r = .esp
    · subst hesp
      simpa using hback.esp
    · exact hback.reg r nofun hesp hr
  · have hesp : c₆.reg .esp = c.reg .esp := by simpa using hback.esp
    rw [← hesp]
    exact hback.stack

end

/-- A system call's number leads into the table. -/
theorem syscallJumptable_of_isSyscall {c : Cpu} (hcall : IsSyscall c) :
    ∃ f, syscallJumptable[(c.reg .eax).toNat]? = some f := by
  have hlt : (c.reg .eax).toNat < syscallJumptable.length := by
    have hsigned := BitVec.toInt_eq_toNat_cond (c.reg .eax)
    have hmax : syscallJumptable.length = 11 := rfl
    obtain ⟨hlo, hhi⟩ := hcall
    split at hsigned <;> omega
  exact ⟨_, List.getElem?_eq_getElem hlt⟩

/-- **The gate is transparent**, for functions that keep the calling convention of C. There must be room
    in the address space for the ten words that are pushed on top of `ws`. -/
theorem syscallIrq_transparent (E : Env SyscallFunction) (c : Cpu) (ws : List Word)
    (hws : c.mem.Stack (c.reg .esp) ws) (hroom : 4 * (ws.length + 10) ≤ 2 ^ 32)
    (hfun : ∀ f, IsSyscall c → syscallJumptable[(c.reg .eax).toNat]? = some f →
      CFunction 3 (ws.length + 6) (E.function f)) :
    Wp E syscallIrq ⟨0, c, []⟩ (Transparent E c ws) := by
  have hl : Cond.l.holds (c.flags.ofSub (c.reg .eax) 1) = decide ((c.reg .eax).toInt < 1) :=
    holds_l_ofSub
  have hg : ∀ f : Flags, Cond.g.holds (f.ofSub (c.reg .eax) 10) = decide (10 < (c.reg .eax).toInt) :=
    fun _ => holds_g_ofSub
  refine .op rfl ?_
  by_cases hlow : (c.reg .eax).toInt < 1
  · refine .jcc_true rfl rfl (hl.trans (decide_eq_true hlow)) ?_
    exact wp_syscallInvalid hws (fun hcall => absurd hcall.1 (by omega)) rfl rfl
  refine .jcc_false rfl (hl.trans (decide_eq_false hlow)) (.op rfl ?_)
  by_cases hhigh : 10 < (c.reg .eax).toInt
  · refine .jcc_true rfl rfl ((hg _).trans (decide_eq_true hhigh)) ?_
    exact wp_syscallInvalid hws (fun hcall => absurd hcall.2 (by omega)) rfl rfl
  have hcall : IsSyscall c := ⟨by omega, by omega⟩
  obtain ⟨f, hf⟩ := syscallJumptable_of_isSyscall hcall
  refine .jcc_false rfl ((hg _).trans (decide_eq_false hhigh)) ?_
  exact wp_syscallEntry hws hroom hcall hf (hfun f hcall hf) rfl rfl

/-- Functions that return 7 and overwrite their first argument. -/
def overwritingEnv : Env SyscallFunction where
  function _ c :=
    ((c.setMem (c.mem.store32 (c.reg .esp + 4) 0)).set .esp (c.reg .esp + 4)).set .eax 7
  address _ := 0x400000

theorem cFunction_overwritingEnv (f : SyscallFunction) : CFunction 3 7 (overwritingEnv.function f) := by
  refine ⟨fun c => rfl, fun c r hr => ?_, fun c vs ws hvs hws hstack k hk => ?_⟩
  · simp only [List.mem_cons, List.not_mem_nil, or_false] at hr
    obtain rfl | rfl | rfl | rfl := hr <;> rfl
  · have hword := @Ram.Stack.drop _ _ vs ws hstack k hk
    rw [hvs] at hword
    rw [← hword]
    refine Ram.load32_congr fun j hj => if_neg ?_
    bv_omega

/-- A program that calls `read` with three ones. -/
def readingCpu : Cpu where
  reg r := if r = .eax then 3 else if r = .esp then 0x8000 else 1
  ds := 0x2b
  es := 0x2b
  flags := ⟨false, false, false, false, false, true⟩
  mem _ := 0

theorem syscallIrq_transparent_read :
    Wp overwritingEnv syscallIrq ⟨0, readingCpu, []⟩ (Transparent overwritingEnv readingCpu [0]) :=
  syscallIrq_transparent overwritingEnv readingCpu [0]
    (fun k hk => by
      obtain rfl : k = 0 := by simpa using hk
      rfl)
    (by decide) (fun f _ _ => cFunction_overwritingEnv f)

end Gyarados

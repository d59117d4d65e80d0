import Gyarados.Boot.Gdt
import Gyarados.Foundation.Run
import Gyarados.Foundation.Trap
import Gyarados.Kernel.Idt
import Gyarados.Kernel.SyscallIrq

set_option autoImplicit false

/-! # Through a gate and back (`kernel/irq.S`)

An interrupt goes through a gate of `init_idt` into a routine that saves three registers, calls a function
and returns with `iret`. The program that it interrupts does not see it. -/

namespace Gyarados

open X86 (Cpu CFunction Gate Instr Machine Pushed Restores Segment Tables Word)

/-! ## The code -/

/-- The functions that the routines call. -/
inductive IrqFunction
  | divideByZeroExcept
  | debugExcept
  | nmiExcept
  | breakpointExcept
  | overflowExcept
  | oobExcept
  | opcodeExcept
  | noCoprocExcept
  | doubleFaultExcept
  | coprocSegOverrunExcept
  | tssExcept
  | segmentExcept
  | stackExcept
  | generalProtecExcept
  | pageFaultExcept
  | unknownInterrExcept
  | coprocExcept
  | alignExcept
  | machineChkExcept
  | pitHandleInterrupt
  | handleKeypress
  | rtcHandleInterrupt
  | mouseHandleInterrupt
  | soundBalsterIrqHandler
  | generalInterrupt
  deriving DecidableEq, Repr

/-- What a routine calls; the one for system calls takes its function from a table. -/
def IrqEntry.function : IrqEntry → Option IrqFunction
  | .divideByZeroIrq => some .divideByZeroExcept
  | .debugIrq => some .debugExcept
  | .nmiIrq => some .nmiExcept
  | .breakpointIrq => some .breakpointExcept
  | .overflowIrq => some .overflowExcept
  | .oobIrq => some .oobExcept
  | .opcodeIrq => some .opcodeExcept
  | .noCoprocIrq => some .noCoprocExcept
  | .doubleFaultIrq => some .doubleFaultExcept
  | .coprocSegOverrunIrq => some .coprocSegOverrunExcept
  | .tssIrq => some .tssExcept
  | .segmentIrq => some .segmentExcept
  | .stackIrq => some .stackExcept
  | .generalProtecIrq => some .generalProtecExcept
  | .pageFaultIrq => some .pageFaultExcept
  | .unknownInterrIrq => some .unknownInterrExcept
  | .coprocIrq => some .coprocExcept
  | .alignIrq => some .alignExcept
  | .machineChkIrq => some .machineChkExcept
  | .pitIrq => some .pitHandleInterrupt
  | .keyIrq => some .handleKeypress
  | .rtcIrq => some .rtcHandleInterrupt
  | .mouseIrq => some .mouseHandleInterrupt
  | .sbIrq => some .soundBalsterIrqHandler
  | .generalIrq => some .generalInterrupt
  | .syscallIrq => none

/-- The first and the last instructions of a routine; an `iret` is behind them. -/
def saveRegisters : List Instr := [.pushl .eax, .pushl .ecx, .pushl .edx]
def restoreRegisters : List Instr := [.popl .edx, .popl .ecx, .popl .eax]

/-- A routine around its function; `ret` is the address behind the `call`. -/
def irqRoutine (function : Cpu → Cpu) (ret : Word) (c : Cpu) : Cpu :=
  restoreRegisters.foldl Instr.exec (function ((saveRegisters.foldl Instr.exec c).push ret))

/-! ## The tables at work -/

/-- What the tables are made from: the linker's addresses, what was in memory before, and the stack in
    the task state. -/
structure KernelTables where
  addr : IrqEntry → Word
  idt : Nat → IdtDesc
  tssDesc : SegDesc
  ldtDesc : SegDesc
  tss : Word
  ldt : Word
  esp0 : Word

def KernelTables.tables (K : KernelTables) : Tables where
  gate v := Gate.ofBits (initIdt K.addr K.idt v).val
  segment i := Segment.ofBits ((gdt K.tssDesc K.ldtDesc K.tss K.ldt).getD i 0)
  esp0 := K.esp0
  ss0 := kernelDs

section

variable {K : KernelTables} {m : Machine} {v : Nat}

theorem gate_tables (hv : v < numVec) :
    K.tables.gate v = gateOf K.addr (K.idt v).offset v := by
  by_cases hexception : v < numExceptions
  · exact gate_exception hexception
  · exact gate_interrupt (by omega) hv

/-- Every gate leads into the kernel. -/
theorem level_gate (hv : v < numVec) : Machine.level K.tables (K.tables.gate v) = 0 := by
  have hindex : X86.selectorIndex kernelCs = 2 := by decide
  have hselector : (K.tables.gate v).selector = kernelCs := by rw [gate_tables hv]; rfl
  rw [Machine.level, hselector, hindex]
  exact (by decide : (Segment.ofBits 0x00cf9a000000ffff).dpl = 0)

theorem level_lt_iff (hv : v < numVec) :
    Machine.level K.tables (K.tables.gate v) < m.privilege ↔ m.privilege ≠ 0 := by
  rw [level_gate hv]
  exact BitVec.pos_iff_ne_zero _

/-- The words behind a gate: with the stack of the program, if it was not in the kernel. -/
theorem length_frame (hv : v < numVec) :
    (m.frame K.tables (K.tables.gate v)).length = if m.privilege = 0 then 3 else 5 := by
  rw [Machine.frame]
  by_cases h : m.privilege = 0
  · rw [if_neg (by rw [level_lt_iff hv]; exact absurd h), if_pos h]
    rfl
  · rw [if_pos ((level_lt_iff hv).2 h), if_neg h]
    rfl

end

/-! ## A routine keeps the registers -/

section

variable {c : Cpu} {ws : List Word} {f : Cpu → Cpu}

/-- What a function leaves of a routine's stack. -/
theorem restores_irqFunction (hfun : CFunction 0 (ws.length + 3) f) {c' : Cpu} {ret : Word}
    (h : Pushed c ws [ret, c.reg .edx, c.reg .ecx, c.reg .eax] c') :
    Restores c ws [.edx, .ecx, .eax] (f c') := by
  refine ⟨fun r hr hesp _ => ?_, ?_, ?_⟩
  · have hsaved : r ∈ [X86.Reg.ebx, .ebp, .esi, .edi] := by
      cases r <;> simp at hr hesp ⊢
    rw [hfun.saved c' r hsaved, h.reg r hesp]
  · rw [hfun.esp, h.esp]
    simp only [List.length_cons, List.length_nil]
    bv_omega
  · rw [hfun.esp]
    exact hfun.stack c' [ret] ([c.reg .edx, c.reg .ecx, c.reg .eax] ++ ws) rfl (by simp) h.stack

/-- The registers and the stack of the routine are as they were. -/
theorem irqRoutine_keeps (hws : c.mem.Stack (c.reg .esp) ws) (hroom : 4 * (ws.length + 4) ≤ 2 ^ 32)
    (hfun : CFunction 0 (ws.length + 3) f) (ret : Word) :
    (∀ r, (irqRoutine f ret c).reg r = c.reg r) ∧
      (irqRoutine f ret c).mem.Stack (c.reg .esp) ws := by
  have hstart : Pushed c ws [] c := ⟨fun _ _ => rfl, by simp, hws⟩
  have heax := hstart.pushl (by simp; omega) (show X86.Reg.eax ≠ .esp by decide)
  have hecx := heax.pushl (by simp; omega) (show X86.Reg.ecx ≠ .esp by decide)
  have hedx := hecx.pushl (by simp; omega) (show X86.Reg.edx ≠ .esp by decide)
  have hback := restores_irqFunction hfun (hedx.push (by simp; omega) ret)
  have hedx := hback.popl (by decide)
  have hecx := hedx.popl (by decide)
  have heax := hecx.popl (by decide)
  have hesp : (irqRoutine f ret c).reg .esp = c.reg .esp := heax.esp.trans (by simp)
  refine ⟨fun r => ?_, hesp ▸ heax.stack⟩
  obtain rfl | hr := eq_or_ne r .eax
  · exact X86.reg_popl.trans hecx.stack.head
  · obtain rfl | hsp := eq_or_ne r .esp
    · exact hesp
    · exact heax.reg r nofun hsp hr

end

/-! ## Interrupts -/

/-- The vectors of the interrupts; the exceptions are below them, and the system calls apart. -/
def IsInterrupt (v : Nat) : Prop := numExceptions ≤ v ∧ v < numVec ∧ v ≠ syscallIdt

instance (v : Nat) : Decidable (IsInterrupt v) := inferInstanceAs (Decidable (_ ∧ _))

/-- What a vector calls. -/
def irqFunction (v : Nat) : Option IrqFunction := (irqEntry v).bind IrqEntry.function

/-- An interrupt: through the gate, through its routine, and back with `iret`. -/
def interrupt (K : KernelTables) (E : IrqFunction → Cpu → Cpu) (v : Nat) (ret : Word) (m : Machine) :
    Machine :=
  let m' := m.enter K.tables (K.tables.gate v) none
  (m'.withCpu ((irqFunction v).elim id (fun f => irqRoutine (E f) ret) m'.cpu)).iret K.tables

section

variable {K : KernelTables} {E : IrqFunction → Cpu → Cpu} {m : Machine} {v : Nat}

/-- Every interrupt has a routine, which calls a function. -/
theorem irqEntry_of_isInterrupt (hv : IsInterrupt v) :
    ∃ entry f, irqEntry v = some entry ∧ entry.function = some f ∧ irqFunction v = some f := by
  obtain ⟨hlo, -, hsyscall⟩ := hv
  rw [irqFunction, irqEntry, if_neg (by omega)]
  split_ifs <;> exact ⟨_, _, rfl, rfl, rfl⟩

/-- Behind the gate of an interrupt. -/
theorem enter_interrupt (hv : IsInterrupt v) : ∃ entry f,
    irqEntry v = some entry ∧ entry.function = some f ∧ irqFunction v = some f ∧
      (m.enter K.tables (K.tables.gate v) none).eip = K.addr entry ∧
      (m.enter K.tables (K.tables.gate v) none).privilege = 0 ∧
      (m.enter K.tables (K.tables.gate v) none).cpu.flags.intf = false := by
  obtain ⟨entry, f, hentry, hf, hirq⟩ := irqEntry_of_isInterrupt hv
  have hgate : K.tables.gate v = gateOf K.addr (K.idt v).offset v := gate_tables hv.2.1
  refine ⟨entry, f, hentry, hf, hirq, ?_, ?_, ?_⟩
  · have heip : (m.enter K.tables (K.tables.gate v) none).eip = (K.tables.gate v).offset := rfl
    rw [heip, hgate, gateOf, hentry]
    rfl
  · rw [Machine.privilege_enter, level_gate hv.2.1]
  · have hkind : (K.tables.gate v).kind = Gate.interruptKind := by
      rw [hgate, gateOf]
      exact if_neg (Nat.not_lt.2 hv.1)
    exact Bool.and_eq_false_iff.2 (.inr (by rw [hkind]; rfl))

/-- The routine of an interrupt keeps what it finds. -/
theorem routine_keeps (hv : v < numVec) {f : Cpu → Cpu}
    (hfun : CFunction 0 (if m.privilege = 0 then 6 else 8) f) (ret : Word) :
    (∀ r, (irqRoutine f ret (m.enter K.tables (K.tables.gate v) none).cpu).reg r =
        (m.enter K.tables (K.tables.gate v) none).cpu.reg r) ∧
      (irqRoutine f ret (m.enter K.tables (K.tables.gate v) none).cpu).mem.Stack
        ((m.enter K.tables (K.tables.gate v) none).cpu.reg .esp) (m.frame K.tables (K.tables.gate v)) := by
  have hlen := @length_frame K m v hv
  refine irqRoutine_keeps (Machine.stack_enter _ _ m) ?_ ?_ ret
  · rw [hlen]
    split <;> decide
  · have hdepth : (m.frame K.tables (K.tables.gate v)).length + 3 = if m.privilege = 0 then 6 else 8 := by
      rw [hlen]
      split <;> rfl
    rw [hdepth]
    exact hfun

/-- **An interrupt is transparent**, in the kernel and in a program: it enters its routine in the kernel
    with interrupts off, and afterwards the machine goes on at the same instruction, at the same privilege,
    with the same registers, stack and flags. -/
theorem interrupt_transparent (K : KernelTables) (E : IrqFunction → Cpu → Cpu) (m : Machine) (v : Nat)
    (ret : Word) (hv : IsInterrupt v) (hfun : ∀ f, irqFunction v = some f →
      CFunction 0 (if m.privilege = 0 then 6 else 8) (E f)) :
    (∃ entry f, irqEntry v = some entry ∧ entry.function = some f ∧ irqFunction v = some f ∧
      (m.enter K.tables (K.tables.gate v) none).eip = K.addr entry ∧
      (m.enter K.tables (K.tables.gate v) none).privilege = 0 ∧
      (m.enter K.tables (K.tables.gate v) none).cpu.flags.intf = false) ∧
    m.Resumes (interrupt K E v ret m) ∧ ∀ r, (interrupt K E v ret m).cpu.reg r = m.cpu.reg r := by
  refine ⟨enter_interrupt hv, ?_⟩
  obtain ⟨-, f, -, -, hirq⟩ := irqEntry_of_isInterrupt hv
  obtain ⟨hreg, hstack⟩ := @routine_keeps K m v hv.2.1 _ (hfun f hirq) ret
  rw [interrupt, hirq, Option.elim_some]
  rw [← hreg .esp] at hstack
  obtain ⟨hresumes, hback⟩ := Machine.resumes_iret (hreg .esp) hstack
  refine ⟨hresumes, fun r => ?_⟩
  obtain rfl | hr := eq_or_ne r .esp
  · exact hresumes.esp
  · rw [hback r hr, hreg, Machine.reg_enter _ _ m hr]

end

/-- A function that returns 7. -/
def returnSeven (c : Cpu) : Cpu := (c.set .esp (c.reg .esp + 4)).set .eax 7

theorem cFunction_returnSeven (args depth : Nat) : CFunction args depth returnSeven := by
  refine ⟨fun c => rfl, fun c r hr => ?_, fun c vs ws hvs _ hstack => hvs ▸ hstack.drop⟩
  simp only [List.mem_cons, List.not_mem_nil, or_false] at hr
  obtain rfl | rfl | rfl | rfl := hr <;> rfl

/-- Tables that are built over zeros. -/
def zeroTables : KernelTables where
  addr _ := 0x400000
  idt _ := ⟨0, 0, 0, 0, 0, 0, 0, 0, 0, 0, 0⟩
  tssDesc := ⟨0, 0, 0, 0, 0, 0, 0, 0, 0, 0, 0, 0, 0⟩
  ldtDesc := ⟨0, 0, 0, 0, 0, 0, 0, 0, 0, 0, 0, 0, 0⟩
  tss := 0x500000
  ldt := 0x500080
  esp0 := 0x7ffffc

/-- A program on a machine of zeros. -/
def zeroProgram : Machine where
  cpu := ⟨fun _ => 0, userDs, userDs, ⟨false, false, false, false, false, true⟩, fun _ => 0⟩
  eip := 0x8048000
  cs := userCs
  ss := userDs
  fs := userDs
  gs := userDs
  otherFlags := 2

theorem interrupt_transparent_timer :
    zeroProgram.Resumes (interrupt zeroTables (fun _ => returnSeven) pitIdt 0x400010 zeroProgram) :=
  (interrupt_transparent zeroTables (fun _ => returnSeven) zeroProgram pitIdt 0x400010 (by decide)
    fun _ _ => cFunction_returnSeven _ _).2.1

/-! ## Interrupts of a program -/

/-- The machine runs a program: with the privilege of one, and selectors that it may have. -/
structure InProgram (K : KernelTables) (m : Machine) : Prop where
  privilege : m.privilege = 3
  settled : m.Settled K.tables

/-- What a function of an interrupt does when it interrupts a program whose memory is `U`: it keeps the
    calling convention, the segments, and the memory of the program. It is called with the nine words of
    the gate and the routine on the stack of the task state. -/
structure KeepsProgram (K : KernelTables) (U : Word → Prop) (f : Cpu → Cpu) : Prop where
  convention : CFunction 0 8 f
  segments : ∀ c, (f c).ds = c.ds ∧ (f c).es = c.es
  mem : ∀ c, c.reg .esp = K.esp0 - 36 → ∀ a, U a → (f c).mem a = c.mem a

/-- What goes on while a program runs. -/
inductive ProgramEvent
  /-- It runs one instruction. -/
  | instruction
  /-- It is interrupted; what the functions do depends on the state of the kernel. -/
  | interrupt (E : IrqFunction → Cpu → Cpu) (v : Nat) (ret : Word)

def ProgramEvent.isInterrupt : ProgramEvent → Bool
  | instruction => false
  | interrupt .. => true

/-- One event, for a program whose instructions are `next`. An instruction that traps ends the run. -/
def programStep (K : KernelTables) (next : Machine → Option Machine) (m : Machine) :
    ProgramEvent → Option Machine
  | .instruction => next m
  | .interrupt E v ret => some (interrupt K E v ret m)

/-- The instructions of a program read and write its registers and its memory, and leave it a program. -/
structure IsProgram (K : KernelTables) (U : Word → Prop) (next : Machine → Option Machine) : Prop where
  alike : ∀ m m', Machine.Alike U m m' → Option.Rel (Machine.Alike U) (next m) (next m')
  stays : ∀ m m', InProgram K m → next m = some m' → InProgram K m'

/-- An interrupt that keeps the program. -/
def KeptBy (K : KernelTables) (U : Word → Prop) : ProgramEvent → Prop
  | .instruction => True
  | .interrupt E v _ => IsInterrupt v ∧ ∀ f, irqFunction v = some f → KeepsProgram K U (E f)

section

variable {K : KernelTables} {U : Word → Prop} {E : IrqFunction → Cpu → Cpu} {m m' : Machine} {v : Nat}

theorem inProgram_of_alike (h : m.Alike U m') (hm : InProgram K m) : InProgram K m' :=
  ⟨(congrArg X86.selectorPrivilege h.resumes.cs).trans hm.privilege,
    Machine.settled_of_alike h hm.settled⟩

/-- The memory that a routine writes itself is on the stack of the task state. -/
theorem mem_irqRoutine (hU : ∀ k < 36, ¬ U (K.esp0 - BitVec.ofNat 32 (k + 1))) {f : Cpu → Cpu}
    (hf : KeepsProgram K U f) {ram : X86.Ram} {c : Cpu} (hc : Machine.WritesBelow ram K.esp0 20 c)
    (ret : Word) : ∀ a, U a → (irqRoutine f ret c).mem a = ram a := by
  intro a ha
  have hcalled := (((hc.push (c.reg .eax)).push ((c.push (c.reg .eax)).reg .ecx)).push
    (((c.push (c.reg .eax)).push ((c.push (c.reg .eax)).reg .ecx)).reg .edx)).push ret
  have hkept := hf.mem _ hcalled.esp a ha
  refine hkept.trans (hcalled.mem a fun k hk => ?_)
  rintro rfl
  exact hU k hk ha

/-- **The step lemma**: an interrupt is not seen. -/
theorem alike_interrupt (hU : ∀ k < 36, ¬ U (K.esp0 - BitVec.ofNat 32 (k + 1))) (hm : InProgram K m)
    (hv : IsInterrupt v) (hf : ∀ f, irqFunction v = some f → KeepsProgram K U (E f)) (ret : Word) :
    m.Alike U (interrupt K E v ret m) := by
  have hprivilege : m.privilege ≠ 0 := by
    rw [hm.privilege]
    decide
  have hlt := (@level_lt_iff K m v hv.2.1).2 hprivilege
  obtain ⟨-, f, -, -, hirq⟩ := irqEntry_of_isInterrupt hv
  have hkeeps := hf f hirq
  have hfun : CFunction 0 (if m.privilege = 0 then 6 else 8) (E f) := by
    rw [if_neg hprivilege]
    exact hkeeps.convention
  obtain ⟨hreg, hstack⟩ := @routine_keeps K m v hv.2.1 _ hfun ret
  rw [← hreg .esp] at hstack
  obtain ⟨hds, hes⟩ := Machine.segments_enter K.tables (K.tables.gate v) m
  rw [interrupt, hirq, Option.elim_some]
  refine Machine.alike_iret hlt hm.settled hreg hstack ?_ ?_ ?_
  · exact (hkeeps.segments _).1.trans hds
  · exact (hkeeps.segments _).2.trans hes
  · exact mem_irqRoutine hU hkeeps (Machine.writesBelow_enter hlt) ret

/-- **Programs do not see interrupts** that keep them (`KeptBy`): with such interrupts in between its
    instructions, a program runs as it does without them. Its memory may not reach into the nine words that
    a gate and a routine write on the stack of the task state. -/
theorem interrupts_unseen (K : KernelTables) (U : Word → Prop)
    (hU : ∀ k < 36, ¬ U (K.esp0 - BitVec.ofNat 32 (k + 1))) (next : Machine → Option Machine)
    (hnext : IsProgram K U next) (events : List ProgramEvent) (hevents : ∀ e ∈ events, KeptBy K U e)
    (m : Machine) (hm : InProgram K m) :
    Option.Rel (Machine.Alike U)
      (run (programStep K next) m (events.filter fun e => !e.isInterrupt))
      (run (programStep K next) m events) := by
  have hrel := @run_stutter _ _ (programStep K next) (fun m m' => m.Alike U m' ∧ InProgram K m')
    ProgramEvent.isInterrupt (KeptBy K U) ?_ ?_ events m m ⟨.refl U m, hm⟩ hevents
  · exact rel_mono hrel fun _ _ h => h.1
  · rintro m m' (_ | ⟨E, v, ret⟩) ⟨halike, hm'⟩ hquiet hkept
    · exact nomatch hquiet
    · have hstep := alike_interrupt hU hm' hkept.1 hkept.2 ret
      exact ⟨_, rfl, halike.trans hstep, inProgram_of_alike hstep hm'⟩
  · rintro m m' (_ | _) ⟨halike, hm'⟩ hloud
    · have hboth := hnext.alike m m' halike
      simp only [programStep]
      cases hn : next m <;> cases hn' : next m' <;> rw [hn, hn'] at hboth
      · exact .none
      · exact nomatch hboth
      · exact nomatch hboth
      · cases hboth with
        | some h => exact .some ⟨h, hnext.stays m' _ hm' hn'⟩
    · exact nomatch hloud

end

/-- A program that counts in `ecx`. -/
def countingProgram (m : Machine) : Option Machine :=
  some { m with
    cpu := m.cpu.set .ecx (m.cpu.reg .ecx + 1)
    eip := m.eip + 1 }

/-- The page of a program. -/
def InPage (a : Word) : Prop := 0x8000000 ≤ a.toNat ∧ a.toNat < 0x8400000

theorem isProgram_countingProgram : IsProgram zeroTables InPage countingProgram := by
  refine ⟨fun m m' h => .some ?_, ?_⟩
  · have hreg : ∀ r, (m'.cpu.set .ecx (m'.cpu.reg .ecx + 1)).reg r =
        (m.cpu.set .ecx (m.cpu.reg .ecx + 1)).reg r := by
      intro r
      rw [X86.reg_set, X86.reg_set, h.reg, h.reg]
    exact ⟨⟨congrArg (· + 1) h.resumes.eip, h.resumes.cs, h.resumes.eflags, hreg .esp, h.resumes.ss⟩,
      hreg, h.ds, h.es, h.fs, h.gs, h.mem⟩
  · rintro m _ hm ⟨⟩
    exact ⟨hm.privilege, hm.settled⟩

theorem keepsProgram_returnSeven (K : KernelTables) (U : Word → Prop) :
    KeepsProgram K U returnSeven :=
  ⟨cFunction_returnSeven 0 8, fun _ => ⟨rfl, rfl⟩, fun _ _ _ _ => rfl⟩

theorem interrupts_unseen_timer :
    Option.Rel (Machine.Alike InPage)
      (run (programStep zeroTables countingProgram) zeroProgram [.instruction, .instruction])
      (run (programStep zeroTables countingProgram) zeroProgram
        [.instruction, .interrupt (fun _ => returnSeven) pitIdt 0x400010, .instruction]) :=
  interrupts_unseen zeroTables InPage
    (fun k hk h => absurd h.1 (by
      have hesp : zeroTables.esp0 = 0x7ffffc := rfl
      rw [hesp]
      bv_omega))
    countingProgram isProgram_countingProgram
    [.instruction, .interrupt (fun _ => returnSeven) pitIdt 0x400010, .instruction]
    (fun e he => by
      simp only [List.mem_cons, List.not_mem_nil, or_false] at he
      obtain rfl | rfl | rfl := he
      · trivial
      · exact ⟨by decide, fun _ _ => keepsProgram_returnSeven _ _⟩
      · trivial)
    zeroProgram ⟨rfl, by
      intro s hs
      simp only [zeroProgram, List.mem_cons, List.not_mem_nil, or_false, or_self] at hs
      subst hs
      rfl⟩

/-! ## System calls of a program -/

/-- `m'` is at the start of a routine of the kernel, entered from `m`, with the words `ws` on the stack of
    the task state. -/
structure Entered (K : KernelTables) (entry : IrqEntry) (ws : List Word) (m m' : Machine) : Prop where
  eip : m'.eip = K.addr entry
  privilege : m'.privilege = 0
  ss : m'.ss = kernelDs
  esp : m'.cpu.reg .esp = K.esp0 - BitVec.ofNat 32 (4 * ws.length)
  stack : m'.cpu.mem.Stack (m'.cpu.reg .esp) ws
  reg : ∀ r, r ≠ .esp → m'.cpu.reg r = m.cpu.reg r

/-- What `int n` leads a program to: the table is open at one place, and everything else is a
    general-protection fault with the number in its error code. -/
def IntEnters (K : KernelTables) (n : Nat) (next : Word) (m m' : Machine) : Prop :=
  if n = syscallIdt then
    Entered K .syscallIrq [next, m.cs.setWidth 32, m.eflags, m.cpu.reg .esp, m.ss.setWidth 32] m m' ∧
      m'.cpu.flags.intf = false
  else
    Entered K .generalProtecIrq [BitVec.ofNat 32 (8 * n + 2), m.eip, m.cs.setWidth 32, m.eflags,
      m.cpu.reg .esp, m.ss.setWidth 32] m m' ∧ m'.cpu.flags.intf = m.cpu.flags.intf

section

variable {K : KernelTables} {m : Machine} {v n : Nat} {entry : IrqEntry}

/-- Through a gate of the table, from a program. -/
theorem entered_of_program (hm : m.privilege = 3) (hv : v < numVec) (hentry : irqEntry v = some entry)
    (error : Option Word) :
    Entered K entry (error.toList ++ [m.eip, m.cs.setWidth 32, m.eflags, m.cpu.reg .esp,
      m.ss.setWidth 32]) m (m.enter K.tables (K.tables.gate v) error) := by
  have hprivilege : m.privilege ≠ 0 := by
    rw [hm]
    decide
  have hlt := (@level_lt_iff K m v hv).2 hprivilege
  have hframe : m.frame K.tables (K.tables.gate v) =
      [m.eip, m.cs.setWidth 32, m.eflags, m.cpu.reg .esp, m.ss.setWidth 32] := by
    rw [Machine.frame, if_pos hlt]
  have heip : (m.enter K.tables (K.tables.gate v) error).eip = K.addr entry := by
    have hoffset : (m.enter K.tables (K.tables.gate v) error).eip = (K.tables.gate v).offset := rfl
    rw [hoffset, gate_tables hv, gateOf, hentry]
    rfl
  have hbelow := @Machine.writesBelow_enter K.tables (K.tables.gate v) m hlt
  refine ⟨heip, ?_, if_pos hlt, ?_, ?_, fun r hr => ?_⟩
  · rw [Machine.privilege_enter, level_gate hv]
  · cases error with
    | none => exact hbelow.esp
    | some w => exact (hbelow.push w).esp
  · rw [← hframe]
    cases error with
    | none => exact Machine.stack_enter _ _ m
    | some w => exact Machine.stack_enter_error (by rw [hframe]; simp) w
  · cases error with
    | none => exact Machine.reg_enter _ _ m hr
    | some w => exact (if_neg hr).trans (Machine.reg_enter _ _ m hr)

theorem intf_enter (hv : v < numVec) (error : Option Word) :
    (m.enter K.tables (K.tables.gate v) error).cpu.flags.intf =
      (m.cpu.flags.intf && decide (v < numExceptions)) := by
  have hkind : ((K.tables.gate v).kind != Gate.interruptKind) = decide (v < numExceptions) := by
    rw [gate_tables hv, gateOf]
    split <;> rename_i h <;> simp [h]
  have hflags : (m.enter K.tables (K.tables.gate v) error).cpu.flags.intf =
      (m.cpu.flags.intf && (K.tables.gate v).kind != Gate.interruptKind) := by
    cases error <;> rw [Machine.enter] <;> split <;> rfl
  rw [hflags, hkind]

/-- **A program enters the kernel at one place**: `int n` leads to `syscall_irq` for one number and to the
    general-protection exception for all others. -/
theorem int_enters (K : KernelTables) (m : Machine) (hm : m.privilege = 3) (n : Nat) (hn : n < numVec)
    (next : Word) : IntEnters K n next m (m.int K.tables n next) := by
  have hdpl : (K.tables.gate n).dpl = if n = syscallIdt then 3 else 0 := by
    rw [gate_tables hn]
    rfl
  have hpresent : (K.tables.gate n).present = 1 := by
    rw [gate_tables hn]
    rfl
  rw [IntEnters, Machine.int, hm, hdpl, hpresent]
  split
  · rename_i h
    subst h
    rw [if_neg (by decide), if_neg (by decide)]
    have h := @entered_of_program K { m with eip := next } _ _ hm hn rfl none
    exact ⟨⟨h.eip, h.privilege, h.ss, h.esp, h.stack, h.reg⟩,
      (intf_enter hn none).trans (Bool.and_false _)⟩
  · rw [if_pos (by decide)]
    exact ⟨@entered_of_program K m 13 .generalProtecIrq hm (by decide) rfl (some _),
      (intf_enter (by decide) _).trans (Bool.and_true _)⟩

theorem int_enters_breakpoint :
    IntEnters zeroTables 3 0x8048001 zeroProgram (zeroProgram.int zeroTables.tables 3 0x8048001) :=
  int_enters zeroTables zeroProgram rfl 3 (by decide) 0x8048001

end

/-! ## From the call to its return -/

section

variable {E : X86.Env SyscallFunction} {c : Cpu} {ws : List Word}

/-- From its first line the gate runs to its `iret`, transparently. -/
theorem wp_syscallIrq (hws : c.mem.Stack (c.reg .esp) ws) (hroom : 4 * (ws.length + 10) ≤ 2 ^ 32)
    (hfun : ∀ f, IsSyscall c → syscallJumptable[(c.reg .eax).toNat]? = some f →
      CFunction 3 (ws.length + 6) (E.function f)) :
    X86.Wp E syscallIrq ⟨0, c, []⟩ (Transparent E c ws) := by
  refine .op rfl ?_
  by_cases hlow : (c.reg .eax).toInt < 1
  · refine .jcc_true rfl rfl (X86.holds_l_ofSub.trans (decide_eq_true hlow)) ?_
    exact wp_syscallInvalid hws (fun hcall => absurd hcall.1 (Int.not_le.2 hlow)) rfl rfl
  refine .jcc_false rfl (X86.holds_l_ofSub.trans (decide_eq_false hlow)) (.op rfl ?_)
  by_cases hhigh : 10 < (c.reg .eax).toInt
  · refine .jcc_true rfl rfl (X86.holds_g_ofSub.trans (decide_eq_true hhigh)) ?_
    exact wp_syscallInvalid hws (fun hcall => absurd hcall.2 (Int.not_le.2 hhigh)) rfl rfl
  have hcall : IsSyscall c := ⟨Int.not_lt.1 hlow, Int.not_lt.1 hhigh⟩
  obtain ⟨f, hf⟩ := syscallJumptable_of_isSyscall hcall
  refine .jcc_false rfl (X86.holds_g_ofSub.trans (decide_eq_false hhigh)) ?_
  exact wp_syscallEntry hws hroom hcall hf (hfun f hcall hf) rfl rfl

end

/-- The system call of a program has come back: it goes on behind its `int`, with all its registers but
    `eax`, where the result of the function is that it has called with its arguments. -/
structure SyscallReturns (E : X86.Env SyscallFunction) (next : Word) (m m' : Machine)
    (calls : List (SyscallFunction × Cpu)) : Prop where
  resumes : { m with eip := next }.Resumes m'
  reg : ∀ r, r ≠ .eax → m'.cpu.reg r = m.cpu.reg r
  calls : CallsEntry E m.cpu ⟨0, m'.cpu, calls⟩

section

variable {K : KernelTables} {E : X86.Env SyscallFunction} {m : Machine} {next : Word}

/-- The gate of the system calls is open to programs. -/
theorem int_syscall (hm : m.privilege = 3) : m.int K.tables syscallIdt next =
    { m with eip := next }.enter K.tables (K.tables.gate syscallIdt) none := by
  have hgate : K.tables.gate syscallIdt = gateOf K.addr (K.idt syscallIdt).offset syscallIdt :=
    gate_tables (by decide)
  have hdpl : (K.tables.gate syscallIdt).dpl = 3 := by rw [hgate]; rfl
  have hpresent : (K.tables.gate syscallIdt).present = 1 := by rw [hgate]; rfl
  rw [Machine.int, hm, hdpl, hpresent, if_neg (by decide), if_neg (by decide)]

/-- Which call it is, and how it was made, is in four registers. -/
theorem callsEntry_congr {c c' : Cpu} {t t' : X86.State SyscallFunction}
    (hreg : ∀ r ∈ [X86.Reg.eax, .ebx, .ecx, .edx], c'.reg r = c.reg r) (hcalls : t'.calls = t.calls)
    (heax : t'.cpu.reg .eax = t.cpu.reg .eax) (h : CallsEntry E c t) : CallsEntry E c' t' := by
  have hsyscall : IsSyscall c' ↔ IsSyscall c := by rw [IsSyscall, IsSyscall, hreg .eax (by simp)]
  by_cases hcall : IsSyscall c
  · rw [CallsEntry, if_pos hcall] at h
    rw [CallsEntry, if_pos (hsyscall.2 hcall), hcalls, heax, hreg .eax (by simp), hreg .ebx (by simp),
      hreg .ecx (by simp), hreg .edx (by simp)]
    exact h
  · rw [CallsEntry, if_neg hcall] at h
    rw [CallsEntry, if_neg (fun hcall' => hcall (hsyscall.1 hcall')), hcalls, heax]
    exact h

/-- What `iret` makes of a gate that was transparent. -/
theorem returns_of_transparent {t : X86.State SyscallFunction}
    (h : Transparent E ({ m with eip := next }.enter K.tables (K.tables.gate syscallIdt) none).cpu
      ({ m with eip := next }.frame K.tables (K.tables.gate syscallIdt)) t) :
    SyscallReturns E next m
      ((({ m with eip := next }.enter K.tables (K.tables.gate syscallIdt) none).withCpu t.cpu).iret
        K.tables) t.calls := by
  have hreg : ∀ r, r ≠ .esp →
      ({ m with eip := next }.enter K.tables (K.tables.gate syscallIdt) none).cpu.reg r =
        m.cpu.reg r := fun _ hr => Machine.reg_enter _ _ _ hr
  have hesp := h.reg .esp (by decide)
  obtain ⟨hresumes, hback⟩ := Machine.resumes_iret hesp (hesp ▸ h.stack)
  refine ⟨hresumes, fun r hr => ?_, ?_⟩
  · obtain rfl | hsp := eq_or_ne r .esp
    · exact hresumes.esp
    · rw [hback r hsp, h.reg r hr, hreg r hsp]
  · refine callsEntry_congr (t := t) (fun r hr => (hreg r ?_).symm) rfl (hback .eax (by decide)) h.calls
    rintro rfl
    exact absurd hr (by decide)

/-- **A system call of a program returns to it**, from `int 0x80` through the gate, the routine and the
    function to the instruction behind it. -/
theorem syscall_returns (K : KernelTables) (E : X86.Env SyscallFunction) (m : Machine)
    (hm : m.privilege = 3) (next : Word)
    (hfun : ∀ f, IsSyscall m.cpu → syscallJumptable[(m.cpu.reg .eax).toNat]? = some f →
      CFunction 3 11 (E.function f)) :
    X86.Wp E syscallIrq ⟨0, (m.int K.tables syscallIdt next).cpu, []⟩ fun t =>
      syscallIrq[t.line]? = some .iret ∧
        SyscallReturns E next m (((m.int K.tables syscallIdt next).withCpu t.cpu).iret K.tables)
          t.calls := by
  have hprivilege : m.privilege ≠ 0 := by
    rw [hm]
    decide
  have hlen : ({ m with eip := next }.frame K.tables (K.tables.gate syscallIdt)).length = 5 :=
    (length_frame (by decide)).trans (if_neg hprivilege)
  have heax : ({ m with eip := next }.enter K.tables (K.tables.gate syscallIdt) none).cpu.reg .eax =
      m.cpu.reg .eax := Machine.reg_enter _ _ _ (by decide)
  rw [int_syscall hm]
  refine (wp_syscallIrq (Machine.stack_enter _ _ _) ?_ ?_).mono fun t ht =>
    ⟨ht.atIret, returns_of_transparent ht⟩
  · rw [hlen]
    decide
  · rw [IsSyscall, heax, hlen]
    exact hfun

end

/-- Calls that all return 7, and a program that calls `read`. -/
def sevenEnv : X86.Env SyscallFunction := ⟨fun _ => returnSeven, fun _ => 0x400000⟩

def readingProgram : Machine := zeroProgram.withCpu readingCpu

theorem syscall_returns_read :
    X86.Wp sevenEnv syscallIrq
      ⟨0, (readingProgram.int zeroTables.tables syscallIdt 0x8048002).cpu, []⟩ fun t =>
      syscallIrq[t.line]? = some .iret ∧
        SyscallReturns sevenEnv 0x8048002 readingProgram
          (((readingProgram.int zeroTables.tables syscallIdt 0x8048002).withCpu t.cpu).iret
            zeroTables.tables) t.calls :=
  syscall_returns zeroTables sevenEnv readingProgram rfl 0x8048002
    fun _ _ _ => cFunction_returnSeven 3 11

end Gyarados

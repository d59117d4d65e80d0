import Gyarados.Kernel.Irq

set_option autoImplicit false

/-! # Into a program (`kernel/user.S`)

`execute` calls `jmp_usr_exec` with the entry point of a program. It builds the frame of an interrupt that
never was, and returns from it. -/

namespace Gyarados

open X86 (Cpu Flags Machine Reg Word)

/-! ## The code -/

inductive SegmentReg
  | ds | es | fs | gs
  deriving DecidableEq, Repr

/-- The instructions of the routine. -/
inductive UserInstr
  | cli
  | sti
  /-- `xorl r, r` -/
  | clear (r : Reg)
  /-- `movl disp(%esp), dst` -/
  | loadArg (disp : Word) (dst : Reg)
  | movl (w : Word) (dst : Reg)
  | movw (src : Reg) (dst : SegmentReg)
  | pushl (src : X86.Operand)
  | pushfl

/-- A selector goes into a segment register; it is one that the kernel may have. -/
def setSegment (m : Machine) (s : BitVec 16) : SegmentReg → Machine
  | .ds => { m with cpu := { m.cpu with ds := s } }
  | .es => { m with cpu := { m.cpu with es := s } }
  | .fs => { m with fs := s }
  | .gs => { m with gs := s }

def UserInstr.exec (m : Machine) : UserInstr → Machine
  | cli => m.withCpu (m.cpu.setFlags { m.cpu.flags with intf := false })
  | sti => m.withCpu (m.cpu.setFlags { m.cpu.flags with intf := true })
  | clear r => m.withCpu ((m.cpu.set r 0).setFlags (m.cpu.flags.ofLogic 0))
  | loadArg disp dst => m.withCpu (m.cpu.set dst (m.cpu.mem.load32 (m.cpu.reg .esp + disp)))
  | movl w dst => m.withCpu (m.cpu.set dst w)
  | movw src dst => setSegment m ((m.cpu.reg src).setWidth 16) dst
  | pushl src => m.withCpu (m.cpu.push (src.value m.cpu))
  -- VM and RF are pushed as zeros
  | pushfl => m.withCpu (m.cpu.push (m.eflags &&& 0x00fcffff))

/-- `jmp_usr_exec`, up to its pushes. -/
def jmpUsrExecLoads : List UserInstr :=
  [.cli, .clear .ebx, .clear .edi, .clear .esi,
    -- the entry point
    .loadArg 4 .ebx,
    .movl (userCs.setWidth 32) .esi,
    .movl (userDs.setWidth 32) .edi,
    .movw .edi .ds, .movw .edi .es, .movw .edi .fs, .movw .edi .gs]

/-- The frame of `jmp_usr_exec`. -/
def jmpUsrExecPushes : List UserInstr :=
  [.pushl (.reg .edi),
    -- the bottom of the page of the program
    .pushl (.imm 0x83ffffc),
    .sti,
    .pushfl,
    .pushl (.reg .esi),
    .pushl (.reg .ebx)]

/-- `jmp_usr_exec`, with its `iret`. -/
def jmpUsrExec (K : KernelTables) (m : Machine) : Machine :=
  ((jmpUsrExecLoads ++ jmpUsrExecPushes).foldl UserInstr.exec m).iret K.tables

/-! ## The program starts -/

/-- A program is at its first instruction. -/
structure Starts (K : KernelTables) (entry : Word) (m : Machine) : Prop where
  inProgram : InProgram K m
  eip : m.eip = entry
  cs : m.cs = userCs
  selectors : ∀ s ∈ [m.ss, m.cpu.ds, m.cpu.es, m.fs, m.gs], s = userDs
  esp : m.cpu.reg .esp = 0x83ffffc
  intf : m.cpu.flags.intf = true

section

variable {K : KernelTables} {m : Machine} {entry : Word}

/-- The flags that are pushed have interrupts on. -/
theorem intf_ofWord_eflags (h : m.cpu.flags.intf = true) :
    (Flags.ofWord (m.eflags &&& 0x00fcffff)).intf = true := by
  have hbit : (m.eflags &&& 0x00fcffff).getLsbD 9 = m.eflags.getLsbD 9 := by
    rw [BitVec.getLsbD_and, show (0x00fcffff : Word).getLsbD 9 = true from rfl, Bool.and_true]
  have hflags : m.eflags.getLsbD 9 = m.cpu.flags.intf :=
    congrArg Flags.intf (Flags.ofWord_or m.cpu.flags m.otherFlags)
  exact hbit.trans (hflags.trans h)

/-- What the loads leave for the pushes. -/
structure Prepared (m m' : Machine) (entry : Word) : Prop where
  ebx : m'.cpu.reg .ebx = entry
  esi : m'.cpu.reg .esi = userCs.setWidth 32
  edi : m'.cpu.reg .edi = userDs.setWidth 32
  selectors : ∀ s ∈ [m'.cpu.ds, m'.cpu.es, m'.fs, m'.gs], s = userDs
  cs : m'.cs = m.cs

theorem prepared_of_entry (hentry : m.cpu.mem.load32 (m.cpu.reg .esp + 4) = entry) :
    Prepared m (jmpUsrExecLoads.foldl UserInstr.exec m) entry := by
  refine ⟨hentry, rfl, rfl, fun s hs => ?_, rfl⟩
  have hsame : s ∈ List.replicate 4 ((userDs.setWidth 32).setWidth 16) := hs
  exact List.eq_of_mem_replicate hsame

/-- The frame on the stack of the kernel. -/
structure Framed (m m' : Machine) (entry w : Word) : Prop where
  stack : m'.cpu.mem.Stack (m'.cpu.reg .esp)
    [entry, userCs.setWidth 32, w, 0x83ffffc, userDs.setWidth 32]
  intf : (Flags.ofWord w).intf = true
  selectors : ∀ s ∈ [m'.cpu.ds, m'.cpu.es, m'.fs, m'.gs], s = userDs
  cs : m'.cs = m.cs

theorem framed_of_prepared {m' : Machine} (h : Prepared m m' entry) :
    ∃ w, Framed m (jmpUsrExecPushes.foldl UserInstr.exec m') entry w := by
  have hnil : m'.cpu.mem.Stack (m'.cpu.reg .esp) [] := fun k hk => absurd hk (Nat.not_lt_zero k)
  have hdata := Machine.stack_push hnil (by decide) (userDs.setWidth 32)
  have hesp := Machine.stack_push hdata (by decide) 0x83ffffc
  let m₃ := m'.withCpu (((m'.cpu.push (userDs.setWidth 32)).push 0x83ffffc).setFlags
    { m'.cpu.flags with intf := true })
  have hflags := @Machine.stack_push m₃.cpu _ hesp (by decide) (m₃.eflags &&& 0x00fcffff)
  have hcode := Machine.stack_push hflags (by simp) (userCs.setWidth 32)
  have hstack := Machine.stack_push hcode (by simp) entry
  have hcpu : (jmpUsrExecPushes.foldl UserInstr.exec m').cpu =
      ((m₃.cpu.push (m₃.eflags &&& 0x00fcffff)).push (userCs.setWidth 32)).push entry := by
    rw [← h.ebx, ← h.esi]
    simp only [m₃, ← h.edi]
    rfl
  exact ⟨_, by rw [hcpu]; exact hstack, intf_ofWord_eflags rfl, h.selectors, h.cs⟩

/-- **A program starts in its own mode**: at its entry point, with the privilege and the segments of a
    program, the stack of its page, and interrupts on. -/
theorem starts_jmpUsrExec (K : KernelTables) (m : Machine) (entry : Word) (hm : m.privilege = 0)
    (hentry : m.cpu.mem.load32 (m.cpu.reg .esp + 4) = entry) : Starts K entry (jmpUsrExec K m) := by
  obtain ⟨w, hstack, hintf, hselectors, hcs⟩ := framed_of_prepared (prepared_of_entry hentry)
  rw [← List.foldl_append] at hstack hselectors hcs
  generalize hm' : (jmpUsrExecLoads ++ jmpUsrExecPushes).foldl UserInstr.exec m = m' at *
  have hlt : m'.privilege < X86.selectorPrivilege userCs := by
    have hkernel : m'.privilege = 0 := (congrArg X86.selectorPrivilege hcs).trans hm
    rw [hkernel]
    decide
  have hdpl : (K.tables.segment (X86.selectorIndex userDs)).dpl = 3 :=
    (by decide : (X86.Segment.ofBits 0x00cff2000000ffff).dpl = 3)
  have hvisible : Machine.visible K.tables 3 userDs = userDs := by
    rw [Machine.visible, hdpl]
    rfl
  have h := @Machine.returns_outer K.tables m' _ _ _ _ _ hstack hlt
  have hword : X86.selectorPrivilege ((m'.cpu.mem.load32
      (m'.cpu.reg .esp + BitVec.ofNat 32 (4 * 1))).setWidth 16) = 3 := by
    rw [hstack 1 (by simp), List.getElem_cons_succ, List.getElem_cons_zero]
    decide
  have hsegments := @Machine.segments_iret K.tables m' 3 hword hlt
    fun s hs => by rw [hselectors s hs, hvisible]
  have hback : ∀ s ∈ [(m'.iret K.tables).cpu.ds, (m'.iret K.tables).cpu.es, (m'.iret K.tables).fs,
      (m'.iret K.tables).gs], s = userDs := by
    rw [hsegments.1, hsegments.2.1, hsegments.2.2.1, hsegments.2.2.2]
    exact hselectors
  have hprivilege : (m'.iret K.tables).privilege = 3 := congrArg X86.selectorPrivilege h.cs
  rw [jmpUsrExec, hm']
  refine ⟨⟨hprivilege, fun s hs => ?_⟩, h.eip, h.cs, ?_, h.esp, ?_⟩
  · rw [hprivilege, hback s hs, hvisible]
  · intro s hs
    obtain rfl | hs := List.mem_cons.1 hs
    · exact h.ss
    · exact hback s hs
  · rw [h.flags]
    exact hintf

/-- The kernel with eights in memory. -/
def eightsMachine : Machine :=
  { zeroProgram with
    cpu := { zeroProgram.cpu with mem := fun _ => 8 }
    cs := kernelCs }

theorem starts_jmpUsrExec_eights : Starts zeroTables 0x8080808 (jmpUsrExec zeroTables eightsMachine) :=
  starts_jmpUsrExec zeroTables eightsMachine 0x8080808 rfl rfl

end

end Gyarados

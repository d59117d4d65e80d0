import Gyarados.Kernel.Frame
import Gyarados.Kernel.ProcessTable

set_option autoImplicit false

/-! # `execute` is all or nothing

The slot is taken in the loop that looks for it, and everything behind that loop goes on to the jump to
user mode: a call that returns has changed nothing but the screen, and a call that launches has done all
of it. The calls are those on the stack frame of `execute`. -/

namespace Gyarados

/-- Nothing that `execute` works on has changed. -/
structure Kept (k k' : Kernel) : Prop where
  currProcIdMask : k'.currProcIdMask = k.currProcIdMask
  currProc : k'.currProc = k.currProc
  prevProc : k'.prevProc = k.prevProc
  kernelStack : k'.kernelStack = k.kernelStack
  processPde : k'.paging.pageDirectory processIdx = k.paging.pageDirectory processIdx
  tssEsp0 : k'.tssEsp0 = k.tssEsp0
  firstProgramRun : k'.firstProgramRun = k.firstProgramRun
  userMem : k'.userMem = k.userMem

/-- The process in `slot` is on top of the running terminal's chain, and has just been set up. The slot
    was the least free one, and no other bit of the mask has changed, nor any other chain. -/
structure Pushed (k k' : Kernel) (slot : Slot) : Prop where
  free : k.currProcIdMask.testBit (7 - slot) = false
  least : ∀ j, j < slot → k.currProcIdMask.testBit (7 - j) = true
  mask : k'.currProcIdMask = k.currProcIdMask ||| 2 ^ (7 - (slot : Nat))
  chains : ∃ chain : Term → List Nat, (∀ t, Links 0 k.prevOf (k.currProc t) (chain t)) ∧
    (∀ t, pcbAddr slot ∉ chain t) ∧
    ∀ t, Links 0 k'.prevOf (k'.currProc t)
      (if t = k.currActiveTerm then pcbAddr slot :: chain t else chain t)
  std : ∀ fd, fd < 2 → Pcb.flags (k'.kernelStack slot) fd = 1
  others : ∀ fd, 2 ≤ fd → fd < 8 → Pcb.flags (k'.kernelStack slot) fd = 0

/-- A call of `execute` that returns has changed nothing, and one that launches has pushed a process. -/
def AllOrNothing (M : Machine) (e : ExecEnv) (command : Option CString) (s : System) : Prop :=
  ∀ out s', callOnFrame M e command s = some (out, s') →
    match out with
    | .returned _ => Kept s.kernel s'.kernel
    | .launched _ => ∃ slot, Pushed s.kernel s'.kernel slot
    | .killed _ => True

/-- The name has at most 31 bytes, and the arguments at most 63. -/
def WithinBounds (command : Option CString) : Prop :=
  ∀ text ∈ command, (firstWord text.val).length ≤ 31 ∧ ∀ r ∈ argText text.val, r.length ≤ 63

instance (command : Option CString) : Decidable (WithinBounds command) :=
  inferInstanceAs (Decidable (∀ text ∈ command, _ ∧ ∀ r ∈ argText text.val, _))

theorem WithinBounds.staysInFrame {command : Option CString} (h : WithinBounds command) :
    StaysInFrame command := by
  rintro text htext ⟨-, r, hr, hlong⟩
  have hshort := (h text htext).2 r hr
  omega

/-- The call of `execute` that an action makes, and the state it is made in: the system call, and the key
    for a terminal not yet started. -/
inductive ExecCall (s : System) : Action → ExecEnv → Option CString → System → Prop
  | syscall (e : ExecEnv) (command : Option CString) : ExecCall s (.execute e command) e command s
  | firstVisit {next : Term} {i : Slot} (r : Regs) (e : ExecEnv) : s.tty.kbd.started next = false →
      slotAt (s.kernel.currProc s.tty.kbd.activeTerminal) = some i →
      ExecCall s (.function next r e) e (some shellName) (saveRegs i r (visit next s))

section

variable {M : Machine} {e : ExecEnv} {command : Option CString} {s s' : System} {F : ProcessTable}

theorem programBit_eq (slot : Slot) : programBit slot = 2 ^ (7 - (slot : Nat)) := by
  revert slot
  decide

theorem Represents.pushed (h : Represents s.core F) {fName : List UInt8} {entry : Nat} {slot : Slot}
    {tempArg m : Memory} (buf : Stores)
    (hplan : execPlan M e command s.kernel.currProcIdMask = .launch fName entry slot tempArg)
    (hm : initPcb M e slot (frameBase slot) (s.kernel.currProc s.kernel.currActiveTerm)
      (argSource M e fName tempArg) (s.kernel.kernelStack slot) = some m) :
    Pushed s.kernel (s.kernel.launch slot m buf) slot := by
  have hlaunch := execPlan_eq_launch hplan
  have hfree : ¬ F.Uses slot := h.not_uses hlaunch.slot_free
  have hlt : s.kernel.currProc s.kernel.currActiveTerm < 0x100000000 := by
    rw [show s.kernel.currProc s.kernel.currActiveTerm = _ from h.currProc _]
    exact topAddr_lt _
  have hpcb : (s.kernel.launch slot m buf).kernelStack slot = m := Function.update_self ..
  refine ⟨hlaunch.slot_free, hlaunch.slot_least, ?_, ?_, fun fd hfd => ?_, fun fd h2 h8 => ?_⟩
  · rw [← programBit_eq]
    rfl
  · refine ⟨fun t => (F.stack t).map pcbAddr, h.chain, fun t hmem => ?_, fun t => ?_⟩
    · obtain ⟨i, hi, hslot⟩ := List.mem_map.1 hmem
      exact hfree ⟨t, pcbAddr_injective hslot ▸ hi⟩
    · have hlinks := h.links_launch hfree (prev_initPcb hm hlt) t
      by_cases ht : t = s.core.running
      · subst ht
        rw [StackFamily.push_stack_self] at hlinks
        rw [if_pos (show s.core.running = s.kernel.currActiveTerm from rfl)]
        exact hlinks
      · rw [StackFamily.push_stack_of_ne _ _ _ _ ht] at hlinks
        rw [if_neg (show ¬ t = s.kernel.currActiveTerm from ht)]
        exact hlinks
  · rw [hpcb]
    exact flags_initPcb_std hm hfd
  · rw [hpcb]
    exact flags_initPcb hm h2 h8

theorem Represents.allOrNothing (h : Represents s.core F) (hstays : StaysInFrame command) :
    AllOrNothing M e command s := by
  intro out s' hcall
  rw [callOnFrame_eq M e s hstays] at hcall
  cases callExecute_outcome hcall with
  | returned => exact ⟨rfl, rfl, rfl, rfl, rfl, rfl, rfl, rfl⟩
  | launched hplan _ hm => exact ⟨_, h.pushed _ hplan hm⟩
  | nullName => trivial
  | overrun => trivial

/-- The call that a first visit makes finds the process table as it was. -/
theorem ExecCall.represents {u : System} {a : Action} (hcall : ExecCall u a e command s)
    (h : Consistent M u.core F) : Represents s.core F := by
  cases hcall with
  | syscall => exact h.represents
  | @firstVisit next i r _ hnext _ =>
      rw [core_firstVisit]
      exact ((h.visit hnext).save i r).represents

/-- **`execute` is all or nothing** in every state that a run reaches whose calls stay in their frame and
    whose launches stay inside their buffers. -/
theorem allOrNothing_of_run {s₀ u : System} {as : List Action} {a : Action} (hboot : Boot M s₀)
    (hfits : AllSteps (stepOnFrame M) (Action.Fits M) s₀ as) (hrun : run (stepOnFrame M) s₀ as = some u)
    (hcall : ExecCall u a e command s) (hbounds : WithinBounds command) :
    AllOrNothing M e command s := by
  obtain ⟨F, h⟩ := run_invariant (P := fun s => ∃ F, Consistent M s.core F)
    (fun _ _ _ h hok hstep => Consistent.of_step h hok.2 ((stepOnFrame_eq hok.1).symm.trans hstep))
    ⟨_, Consistent.boot hboot⟩ hfits hrun
  exact (hcall.represents h).allOrNothing hbounds.staysInFrame

/-- A second shell is started on the small machine. -/
theorem allOrNothing_of_shell : ∃ u, run (stepOnFrame (sampleMachine [shellDentry]))
    (bootSystem (sampleMachine [shellDentry])) [.execute sampleEnv (some shellName)] = some u ∧
      AllOrNothing (sampleMachine [shellDentry]) sampleEnv (some shellName) u := by
  have hrun := runOnFrame_of_run (run_reached (sampleMachine [shellDentry])
    [.execute sampleEnv (some shellName)] (by decide +kernel))
  exact ⟨_, hrun, allOrNothing_of_run (bootSystem_boot _) (by decide +kernel) hrun (.syscall _ _)
    (by decide)⟩

end

/-- Three shells, of which the second ends, so that slot 1 is free; then the first starts a program with a
    search that begins with 0x21, which takes slot 1 and marks slot 3. -/
def strayRun : List Action :=
  [.execute sampleEnv (some shellName), .execute sampleEnv (some shellName), .function 1 sampleRegs sampleEnv,
    .function 0 sampleRegs sampleEnv, .halt (fun _ => 0) 0, .execute sampleEnv (some strayCommand)]

/-- The next shell is started in the slot of the program that starts it. -/
theorem allOrNothing_stray : ¬ ∀ (M : Machine) (s₀ u s : System) (as : List Action) (a : Action)
    (e : ExecEnv) (command : Option CString), Boot M s₀ → run (stepOnFrame M) s₀ as = some u →
      ExecCall u a e command s → WithinBounds command → AllOrNothing M e command s := by
  intro h
  have hrun : (run (stepOnFrame strayMachine) (bootSystem strayMachine) strayRun).any (fun u =>
      decide (u.kernel.currProc 0 = pcbAddr 1 ∧ u.kernel.currProcIdMask = 0xB0) &&
        (callOnFrame strayMachine sampleEnv (some shellName) u).any fun out =>
          decide (out.1 = .launched 0x8048094)) = true := by
    decide +kernel
  obtain ⟨u, hu, hfacts⟩ := (Option.any_eq_true _ _).1 hrun
  obtain ⟨hstate, hcall⟩ := Bool.and_eq_true_iff.1 hfacts
  obtain ⟨hcurr, hmask⟩ := of_decide_eq_true hstate
  obtain ⟨⟨out, s'⟩, hs', hout⟩ := (Option.any_eq_true _ _).1 hcall
  obtain rfl : out = .launched 0x8048094 := of_decide_eq_true hout
  obtain ⟨slot, hpushed⟩ := h strayMachine _ u u strayRun _ sampleEnv (some shellName) (bootSystem_boot _) hu
    (.syscall _ _) (by decide) _ _ hs'
  -- slot 1 is the least free one
  have hslot : ∀ i : Slot, (0xB0 : Nat).testBit (7 - i) = false →
      (1 < i → (0xB0 : Nat).testBit (7 - (1 : Slot)) = true) → i = 1 := by decide
  obtain rfl := hslot slot (hmask ▸ hpushed.free) (hmask ▸ hpushed.least 1)
  obtain ⟨chain, hlinks, hnot, -⟩ := hpushed.chains
  have hfirst := hlinks 0
  rw [hcurr] at hfirst
  obtain ⟨rest, hchain, -⟩ := hfirst.exists_cons (pcbAddr_ne_null 1)
  exact hnot 0 (hchain ▸ List.mem_cons_self)

end Gyarados

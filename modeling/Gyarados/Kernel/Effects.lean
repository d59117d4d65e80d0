import Gyarados.Kernel.Calls
import Gyarados.Kernel.System

set_option autoImplicit false

/-! # What each action can do

`Core` is the part of the state that process management is about: the chains, the mask, the PCBs,
the mapping of the running program, and which terminal runs and which is shown. For each function
of the kernel one theorem says everything the function can do to the core; proofs about runs use
these theorems and do not look at the functions again. -/

namespace Gyarados

structure Core where
  currProc : Term → Nat
  prevProc : Term → Nat
  /-- `curr_active_term` of `syscall.c` -/
  running : Term
  mask : Nat
  pcb : Slot → Memory
  paging : PageTables
  esp0 : Nat
  /-- `active_terminal` of `keyboard.c` -/
  shown : Term
  started : Term → Bool

def Kernel.core (k : Kernel) (kbd : Keyboard) : Core where
  currProc := k.currProc
  prevProc := k.prevProc
  running := k.currActiveTerm
  mask := k.currProcIdMask
  pcb := k.kernelStack
  paging := k.paging
  esp0 := k.tssEsp0
  shown := kbd.activeTerminal
  started := kbd.started

def System.core (s : System) : Core := s.kernel.core s.tty.kbd

/-- The frame number of the 4 MB frame of a slot, which is the `base` of its process. -/
def frameBase (i : Slot) : Nat := (0x800000 + i * 0x400000) / 0x1000

/-! ## Changes of the core -/

namespace Core

variable (c : Core)

/-- The slot of the running process. -/
def currSlot : Option Slot := slotAt (c.currProc c.running)

def setPcb (i : Slot) (m : Memory) : Core := { c with pcb := Function.update c.pcb i m }

/-- `execute` has taken a slot and mapped its frame. -/
def reserve (slot : Slot) : Core :=
  { c with
    mask := c.mask ||| programBit slot
    paging := c.paging.mapProcess (frameBase slot) }

/-- A process with PCB `m` starts in `slot`, on top of the running terminal's chain. -/
def launch (slot : Slot) (m : Memory) : Core :=
  { c.reserve slot with
    pcb := Function.update c.pcb slot m
    esp0 := esp0For slot
    prevProc := Function.update c.prevProc c.running (c.currProc c.running)
    currProc := Function.update c.currProc c.running (pcbAddr slot) }

theorem currSlot_launch (slot : Slot) (m : Memory) : (c.launch slot m).currSlot = some slot := by
  simp [launch, currSlot, reserve]

/-- The process in slot `i` ends, leaving `m` in its PCB, and the one in slot `j` goes on. -/
def exit (i j : Slot) (m : Memory) : Core :=
  let pcb := Function.update c.pcb i m
  { c with
    mask := c.mask ^^^ programBit (Pcb.procNum (c.pcb i))
    pcb
    paging := c.paging.mapProcess (Pcb.base (pcb j))
    esp0 := esp0For (Pcb.procNum (pcb j))
    prevProc := Function.update c.prevProc c.running (Pcb.prev (pcb j))
    currProc := Function.update c.currProc c.running (c.prevProc c.running) }

/-- Terminal `t` is shown. -/
def display (t : Term) : Core := { c with shown := t }

/-- Terminal `t` is shown, started and runs, before its first shell does. -/
def visit (t : Term) : Core :=
  { c with shown := t, running := t, started := Function.update c.started t true }

/-- The registers are saved in the PCB of slot `i`. -/
def save (i : Slot) (r : Regs) : Core := c.setPcb i (Pcb.setSched (c.pcb i) r.esp r.ebp)

/-- Terminal `t` is shown and runs, with the process in slot `j`. -/
def load (t : Term) (j : Slot) : Core :=
  { c with
    shown := t
    running := t
    paging := c.paging.mapProcess (Pcb.base (c.pcb j))
    esp0 := esp0For (Pcb.procNum (c.pcb j)) }

end Core

/-- What happens in the line buffers does not show in the core. -/
theorem core_tty (s : System) {tty : Tty} (h : s.tty.kbd.SameTerminals tty.kbd) :
    ({ s with tty } : System).core = s.core := by
  have hstarted : tty.kbd.started = s.tty.kbd.started := by
    funext t
    simp only [Keyboard.started, h.secondTermStart, h.thirdTermStart]
  simp only [System.core, Kernel.core, h.activeTerminal, hstarted]

/-! ## Descriptor calls -/

/-- A descriptor call leaves the core alone, or changes the PCB of the running process as `R`
    allows. -/
inductive FdEffect (R : Memory → Memory → Prop) (c : Core) : Core → Prop
  | none : FdEffect R c c
  | pcb {i : Slot} {m : Memory} : c.currSlot = some i → R (c.pcb i) m → FdEffect R c (c.setPcb i m)

section

variable {R R' : Memory → Memory → Prop} {c c' c'' : Core}

theorem FdEffect.currSlot (h : FdEffect R c c') : c'.currSlot = c.currSlot := by
  cases h <;> rfl

theorem FdEffect.mono (hR : ∀ m m', R m m' → R' m m') (h : FdEffect R c c') : FdEffect R' c c' := by
  cases h with
  | none => exact .none
  | pcb hi hm => exact .pcb hi (hR _ _ hm)

theorem FdEffect.trans (hR : ∀ m m' m'', R m m' → R m' m'' → R m m'') (h : FdEffect R c c')
    (h' : FdEffect R c' c'') : FdEffect R c c'' := by
  cases h with
  | none => exact h'
  | @pcb i m hi hm =>
      cases h' with
      | none => exact .pcb hi hm
      | @pcb j m' hj hm' =>
          obtain rfl : i = j := Option.some.inj (hi.symm.trans hj)
          have hpcb : (c.setPcb i m).pcb i = m := Function.update_self ..
          rw [hpcb] at hm'
          have hset : (c.setPcb i m).setPcb i m' = c.setPcb i m' := by
            simp [Core.setPcb]
          rw [hset]
          exact .pcb hi (hR _ _ _ hm hm')

/-- In one form: the running process gets a new PCB. -/
theorem FdEffect.exists_setPcb (hR : ∀ m, R m m) (h : FdEffect R c c') {i : Slot}
    (hi : c.currSlot = some i) : ∃ m, R (c.pcb i) m ∧ c' = c.setPcb i m := by
  cases h with
  | none => exact ⟨c.pcb i, hR _, by simp [Core.setPcb]⟩
  | @pcb j m hj hm =>
      obtain rfl : i = j := Option.some.inj (hi.symm.trans hj)
      exact ⟨m, hm, rfl⟩

end

theorem fillFd_sameControl {M : Machine} {fd : Nat} {filename : List UInt8} {fileInfo : Dentry}
    {m m' : Memory} (hfd : fd ≤ 7) (hname : M.readDentryByName filename = some fileInfo)
    (h : fillFd M fd filename fileInfo m = some m') : SameControl m m' := by
  obtain ⟨i, -, hmatch, htype, -⟩ := Image.readDentryByName_eq_some hname
  have hfill : ∀ (table : OpsTable) (inode : Nat), fileInfo.fileType < 0x100 →
      Pcb.strcpy (Pcb.setFilePosition (Pcb.setInode (Pcb.setOperationsPointer m fd
        (M.opsAddr table)) fd inode) fd 0) (48 * fd + 16) filename = some m' →
      SameControl m m' := by
    intro table inode ht hcpy
    have hlen : filename.length ≤ 33 := by
      rw [hmatch.1]
      exact Image.length_dentryName_le (htype ▸ ht)
    unfold Pcb.strcpy at hcpy
    split at hcpy
    · obtain rfl := Option.some.inj hcpy
      refine ((SameControl.setWord m _ ?_).trans (SameControl.setWord _ _ ?_)).trans
        ((SameControl.setWord _ _ ?_).trans (SameControl.writeBytes _ _ ?_))
      · omega
      · omega
      · omega
      · rw [List.length_append, List.length_singleton]
        omega
    · simp at hcpy
  unfold fillFd at h
  split at h
  · exact hfill _ _ (by omega) h
  · split at h
    · exact hfill _ _ (by omega) h
    · split at h
      · exact hfill _ _ (by omega) h
      · obtain rfl := Option.some.inj h
        exact SameControl.refl m

theorem openFd_effect {M : Machine} {filename : Option CString} {k k' : Kernel} {ret : Int}
    (kbd : Keyboard) (h : openFd M filename k = some (ret, k')) :
    FdEffect SameControl (k.core kbd) (k'.core kbd) := by
  cases openFd_outcome h with
  | unknown => exact .none
  | full => exact .none
  | @opened name fileInfo i fd m _ _ hfound hi hfree hm =>
      have hfd := freeFd_mem hfree
      refine .pcb (i := i) (m := Pcb.setFlags m fd 1) hi ?_
      exact (fillFd_sameControl (by omega) hfound hm).trans (SameControl.setWord _ _ (by omega))

theorem closeFd_effect {M : Machine} {fd : Int} {k k' : Kernel} {ret : Int} (kbd : Keyboard)
    (h : closeFd M fd k = some (ret, k')) : FdEffect FdsKept (k.core kbd) (k'.core kbd) := by
  cases closeFd_outcome h with
  | kept => exact .none
  | @closed i h2 h7 hi _ => exact .pcb (i := i) hi (FdsKept.close _ (by omega) (by omega))

theorem closeFds_effect {M : Machine} {k k' : Kernel} (kbd : Keyboard)
    (h : closeFds M k = some k') : FdEffect FdsKept (k.core kbd) (k'.core kbd) := by
  refine closeFds_rel (R := fun k k' => FdEffect FdsKept (k.core kbd) (k'.core kbd))
    (fun _ => FdEffect.none) ?_ ?_ h
  · intro k₁ k₂ k₃ h₁ h₂
    exact h₁.trans (fun _ _ _ => FdsKept.trans) h₂
  · intro fd k k' ret hclose
    exact closeFd_effect kbd hclose

theorem readFd_effect {M : Machine} {fd nbytes : Int} {bufNull : Bool} {s s' : System} {ret : Int}
    {buf : Stores} (h : readFd M fd bufNull nbytes s = some (ret, buf, s')) :
    FdEffect FdsKept s.core s'.core := by
  cases readFd_outcome h with
  | failed => exact .none
  | called _ hfd hi _ _ hread =>
      cases driverRead_outcome hread with
      | @device tty intrOcc htty =>
          rw [show ({ s with tty, intrOcc } : System).core = ({ s with tty } : System).core from rfl,
            core_tty s htty]
          exact .none
      | moved v _ => exact .pcb hi (FdsKept.setFilePosition _ (by omega) v)

theorem writeFd_core {M : Machine} {fd nbytes ret : Int} {buf : Option Memory} {s s' : System}
    (h : writeFd M fd buf nbytes s = some (ret, s')) : s'.core = s.core := by
  cases writeFd_outcome h with
  | failed => rfl
  | called _ _ _ _ htty => exact core_tty s htty

/-! ## halt -/

theorem FdEffect.sameControl {c c' : Core} (h : FdEffect FdsKept c c') : FdEffect SameControl c c' :=
  h.mono fun _ _ hm => hm.sameControl

/-- `halt` starts the first program of a terminal again, or ends the running process and goes on
    with the one below it. -/
inductive HaltEffect (c : Core) : HaltOutcome → Core → Prop
  | returned {i : Slot} : c.currSlot = some i → c.prevProc c.running = 0 → HaltEffect c .returned c
  | restarted {i : Slot} (entry : Nat) : c.currSlot = some i → c.prevProc c.running = 0 →
      HaltEffect c (.restarted entry) c
  | resumed {i j : Slot} {m : Memory} : c.currSlot = some i → c.prevProc c.running ≠ 0 →
      slotAt (c.prevProc c.running) = some j → FdsKept (c.pcb i) m →
      HaltEffect c (.resumed (Pcb.pKsp m) (Pcb.pKbp m)) (c.exit i j m)

theorem closeStd_fdsKept (m : Memory) : FdsKept m (closeStd m) :=
  ((FdsKept.setWord m _ (by omega) (by simp)).trans
    (FdsKept.setWord _ _ (by omega) (by simp))).trans
    (((FdsKept.setWord _ _ (by omega) (by simp)).trans
      (FdsKept.setWord _ _ (by omega) (by simp))).trans (FdsKept.setWord _ _ (by omega) (by simp)))

theorem halt_effect {M : Machine} {fInitData : Memory} {status : Nat} {k k' : Kernel}
    {out : HaltOutcome} (kbd : Keyboard) (h : halt M fInitData status k = some (out, k')) :
    HaltEffect (k.core kbd) out (k'.core kbd) := by
  simp only [halt] at h
  obtain ⟨i, hi, h⟩ := Option.bind_eq_some_iff.1 h
  split at h
  · rename_i hprev
    split at h
    · obtain ⟨rfl, rfl⟩ := by simpa using h
      exact .returned hi hprev
    · obtain ⟨rfl, rfl⟩ := by simpa using h
      exact .restarted _ hi hprev
  · rename_i hprev
    obtain ⟨k₁, hk₁, h⟩ := Option.bind_eq_some_iff.1 h
    obtain ⟨j, hj, h⟩ := Option.map_eq_some_iff.1 h
    obtain ⟨rfl, rfl⟩ := Prod.mk.inj h
    obtain ⟨m, hm, hcore⟩ := (closeFds_effect kbd hk₁).exists_setPcb FdsKept.refl hi
    -- closing the descriptors touches the PCB of the process that ends, and that alone
    have hm₀ : FdsKept (k.kernelStack i) m := by
      refine (closeStd_fdsKept _).trans ?_
      simpa [Kernel.core, Kernel.setPcb, Kernel.cli] using hm
    have hpcb : k₁.kernelStack = Function.update k.kernelStack i m := by
      have := congrArg Core.pcb hcore
      simpa [Kernel.core, Core.setPcb, Kernel.setPcb, Kernel.cli] using this
    have hprevProc : k₁.prevProc = k.prevProc := congrArg Core.prevProc hcore
    have hcurrProc : k₁.currProc = k.currProc := congrArg Core.currProc hcore
    have hterm : k₁.currActiveTerm = k.currActiveTerm := congrArg Core.running hcore
    have hmask : k₁.currProcIdMask = k.currProcIdMask ^^^ programBit (Pcb.procNum (k.kernelStack i)) :=
      congrArg Core.mask hcore
    have hpaging : k₁.paging = k.paging := congrArg Core.paging hcore
    have hj' : slotAt (k.prevProc k.currActiveTerm) = some j := by rw [← hprevProc]; exact hj
    have hres := HaltEffect.resumed (c := k.core kbd) (i := i) (j := j) (m := m) hi hprev hj' hm₀
    have hm' : m = k₁.kernelStack i := by rw [hpcb, Function.update_self]
    convert hres using 1
    · simp only [← hm']
    · simp only [Kernel.core, Core.exit, Kernel.restoreFlags, hpcb, hprevProc, hcurrProc, hterm,
        hmask, hpaging]
      rfl

/-! ## execute -/

theorem testBit_of_and_two_pow {mask n : Nat} (h : 2 ^ n &&& mask = 0) : mask.testBit n = false := by
  have hbit := congrArg (Nat.testBit · n) h
  simpa [Nat.testBit_and, Nat.testBit_two_pow_self] using hbit

/-- From slot `k` on: the probing bit has come to bit `7 - k`. -/
theorem findSlot_from {mask : Nat} {slot : Slot} (d : Nat) : ∀ k, k + d = 7 →
    findSlot mask ((List.finRange 7).drop k) (2 ^ (7 - k)) = some slot →
      mask.testBit (7 - slot) = false ∧
        ∀ j : Slot, k ≤ j → j < slot → mask.testBit (7 - j) = true := by
  induction d with
  | zero =>
      intro k hk h
      rw [List.drop_of_length_le (by simp; omega)] at h
      simp [findSlot] at h
  | succ d ih =>
      intro k hk h
      rw [List.drop_eq_getElem_cons (by simp; omega), findSlot] at h
      split at h
      · rename_i hbit
        obtain rfl := Option.some.inj h
        refine ⟨by simpa using testBit_of_and_two_pow hbit, fun j hkj hj => ?_⟩
        rw [Fin.lt_def] at hj
        simp only [List.getElem_finRange, Fin.val_cast] at hj
        omega
      · rename_i hbit
        rw [show 7 - k = 7 - (k + 1) + 1 by omega, Nat.shiftRight_one, Nat.pow_succ,
          Nat.mul_div_cancel _ (by omega)] at h
        obtain ⟨hfree, hbelow⟩ := ih (k + 1) (by omega) h
        refine ⟨hfree, fun j hkj hj => ?_⟩
        rcases Nat.eq_or_lt_of_le hkj with rfl | hlt
        · rw [Nat.and_comm, Nat.and_two_pow] at hbit
          by_contra hclear
          simp [hclear] at hbit
        · exact hbelow j hlt hj

/-- The search for a slot ends at one whose bit is clear. -/
theorem findSlot_eq_some {mask : Nat} {slot : Slot}
    (h : findSlot mask (List.finRange 7) 0x80 = some slot) : mask.testBit (7 - slot) = false :=
  (findSlot_from 7 0 rfl h).1

/-- It passes over the slots below, whose bits are set. -/
theorem findSlot_least {mask : Nat} {slot : Slot}
    (h : findSlot mask (List.finRange 7) 0x80 = some slot) :
    ∀ j, j < slot → mask.testBit (7 - j) = true :=
  fun j hj => (findSlot_from 7 0 rfl h).2 j (Nat.zero_le _) hj

/-- What `execute` has found when it comes to a launch. -/
structure LaunchPlan (M : Machine) (e : ExecEnv) (command : Option CString) (mask : Nat)
    (fName : List UInt8) (entry : Nat) (slot : Slot) (tempArg : Memory) : Prop where
  words : ∃ text, command = some text ∧ text.val ≠ [] ∧ execArgs e text.val = some tempArg ∧
    strtok text.val = some fName
  not_clear : strncmp fName [99, 108, 101, 97, 114] 5 ≠ 0
  read : (M.fsRead fName 0 32).ret ≠ -1
  runnable : isRunnable ((M.fsRead fName 0 32).buf.onto e.fInitData) = true
  entry_eq : entry = entryPoint ((M.fsRead fName 0 32).buf.onto e.fInitData)
  slot_free : mask.testBit (7 - slot) = false
  slot_least : ∀ j, j < slot → mask.testBit (7 - j) = true

/-- A launch has passed every test before it. -/
theorem execPlan_eq_launch {M : Machine} {e : ExecEnv} {command : Option CString} {mask : Nat}
    {fName : List UInt8} {entry : Nat} {slot : Slot} {tempArg : Memory}
    (h : execPlan M e command mask = .launch fName entry slot tempArg) :
    LaunchPlan M e command mask fName entry slot tempArg := by
  cases command with
  | none => simp [execPlan] at h
  | some text =>
      simp only [execPlan] at h
      split at h
      · simp at h
      · rename_i hlen
        split at h
        · simp at h
        · rename_i args hargs
          split at h
          · simp at h
          · rename_i word hword
            split at h
            · simp at h
            · rename_i hclear
              split at h
              · simp at h
              · rename_i hread
                split at h
                · rename_i hrun
                  split at h
                  · simp at h
                  · rename_i hslot
                    obtain ⟨rfl, rfl, rfl, rfl⟩ := by simpa using h
                    have hne : text.val ≠ [] := fun hnil => hlen (by rw [hnil]; rfl)
                    exact ⟨⟨text, rfl, hne, hargs, hword⟩, hclear, hread, hrun, rfl,
                      findSlot_eq_some hslot, findSlot_least hslot⟩
                · simp at h

section

variable {M : Machine} {e : ExecEnv} {command : Option CString} {fName : List UInt8} {entry : Nat}
  {slot : Slot} {tempArg : Memory}

/-- What an idle machine would launch is launched in the first free slot, or there is none. -/
theorem execPlan_of_idle (hidle : execPlan M e command 0 = .launch fName entry slot tempArg)
    (mask : Nat) : execPlan M e command mask =
      (findSlot mask (List.finRange 7) 0x80).elim .noSlot
        fun slot => .launch fName entry slot tempArg := by
  obtain ⟨⟨text, rfl, hne, hargs, hword⟩, hclear, hread, hrun, rfl, -, -⟩ := execPlan_eq_launch hidle
  simp only [execPlan, List.length_eq_zero_iff, hne, hargs, hword, hclear, hread, hrun, if_false, if_true]
  cases findSlot mask (List.finRange 7) 0x80 <;> rfl

/-- Whether there is anything to launch does not depend on the slots. -/
theorem execPlan_of_idle_ne
    (hidle : ∀ fName entry slot tempArg, execPlan M e command 0 ≠ .launch fName entry slot tempArg)
    (mask : Nat) : execPlan M e command mask = execPlan M e command 0 := by
  cases command with
  | none => rfl
  | some text =>
      have hfree : findSlot 0 (List.finRange 7) 0x80 = some 0 := rfl
      simp only [execPlan, hfree] at hidle ⊢
      split
      · rfl
      rename_i hne
      split
      · rfl
      rename_i args hargs
      split
      · rfl
      rename_i word hword
      split
      · rfl
      rename_i hclear
      split
      · rfl
      rename_i hread
      split
      · -- the idle machine would launch here
        rename_i hrun
        simp only [hne, hargs, hword, hclear, hread, hrun, if_false, if_true] at hidle
        exact absurd rfl (hidle _ _ _ _)
      · rfl

end

/-- The number of the frame that `init_new_process` maps. -/
theorem initNewProcess_eq (t : PageTables) (slot : Slot) :
    t.initNewProcess slot = (t.mapProcess (frameBase slot), frameBase slot) := by
  have haddr : (kernelEndAddr + slot * pageSizeLarge) % 0x100000000 / 0x1000 = frameBase slot := by
    revert slot
    decide
  have hbase : frameBase slot % 0x100000 = frameBase slot := by
    revert slot
    decide
  rw [PageTables.initNewProcess, haddr, PageTables.mapProcess_pageDirectory_self, hbase]

/-- The kernel when a process with PCB `m` has started in `slot`, with `buf` on its page. -/
def Kernel.launch (k : Kernel) (slot : Slot) (m : Memory) (buf : Stores) : Kernel :=
  { k with
    currProcIdMask := k.currProcIdMask ||| programBit slot
    paging := k.paging.mapProcess (frameBase slot)
    userMem := storeProgram (frameBase slot) buf k.userMem
    kernelStack := Function.update k.kernelStack slot m
    tssEsp0 := esp0For slot
    prevProc := Function.update k.prevProc k.currActiveTerm (k.currProc k.currActiveTerm)
    currProc := Function.update k.currProc k.currActiveTerm (pcbAddr slot)
    firstProgramRun := 1
    intFlag := true }

/-- The kernel when a slot has been taken and the copy of the program has left its page. -/
def Kernel.reserve (k : Kernel) (slot : Slot) (buf : Stores) : Kernel :=
  { k with
    currProcIdMask := k.currProcIdMask ||| programBit slot
    paging := k.paging.mapProcess (frameBase slot)
    userMem := storeProgram (frameBase slot) buf k.userMem }

/-- `execute` prints at most, launches a process, or faults and goes on in the exception handler. -/
inductive ExecuteOutcome (M : Machine) (e : ExecEnv) (command : Option CString) (s : System) :
    CallOutcome → System → Prop
  | returned {ret : Int} {tty : Tty} :
      (∀ fName entry slot tempArg,
        execPlan M e command s.kernel.currProcIdMask ≠ .launch fName entry slot tempArg) →
      s.tty.kbd.SameTerminals tty.kbd → ExecuteOutcome M e command s (.returned ret) { s with tty }
  | launched {fName : List UInt8} {entry : Nat} {slot : Slot} {tempArg m : Memory} :
      execPlan M e command s.kernel.currProcIdMask = .launch fName entry slot tempArg →
      (M.copyFileToAddr fName).buf programRoom = none →
      initPcb M e slot (frameBase slot) (s.kernel.currProc s.kernel.currActiveTerm)
        (argSource M e fName tempArg) (s.kernel.kernelStack slot) = some m →
      ExecuteOutcome M e command s (.launched entry)
        { s with kernel := s.kernel.launch slot m (M.copyFileToAddr fName).buf }
  | nullName {out : HaltOutcome} {s' : System} :
      execPlan M e command s.kernel.currProcIdMask = .nullName →
      pageFaultExcept M e.fInitData 0 s = some (out, s') →
      ExecuteOutcome M e command s (.killed out) s'
  | overrun {fName : List UInt8} {entry : Nat} {slot : Slot} {tempArg : Memory} {out : HaltOutcome}
      {s' : System} :
      execPlan M e command s.kernel.currProcIdMask = .launch fName entry slot tempArg →
      (M.copyFileToAddr fName).buf programRoom ≠ none →
      pageFaultExcept M e.fInitData 0x8400000
        { s with kernel := s.kernel.reserve slot (M.copyFileToAddr fName).buf } = some (out, s') →
      ExecuteOutcome M e command s (.killed out) s'

theorem execute_of_stays {M : Machine} {e : ExecEnv} {command : Option CString} {s : System}
    (h : StaysInFrame command) :
    execute M e command s = (execPlan M e command s.kernel.currProcIdMask).carryOut M e s :=
  if_neg fun ⟨text, htext, hover⟩ => h text htext hover

/-- A call that goes on has kept its variables. -/
theorem staysInFrame_of_execute {M : Machine} {e : ExecEnv} {command : Option CString} {s : System}
    {r : ExecOutcome × System} (h : execute M e command s = some r) : StaysInFrame command := by
  intro text htext hover
  rw [execute, if_pos ⟨text, htext, hover⟩] at h
  simp at h

theorem carryOut_of_execute {M : Machine} {e : ExecEnv} {command : Option CString} {s : System}
    {r : ExecOutcome × System} (h : execute M e command s = some r) :
    (execPlan M e command s.kernel.currProcIdMask).carryOut M e s = some r := by
  rwa [execute_of_stays (staysInFrame_of_execute h)] at h

theorem callExecute_outcome {M : Machine} {e : ExecEnv} {command : Option CString} {s s' : System}
    {out : CallOutcome} (h : callExecute M e command s = some (out, s')) :
    ExecuteOutcome M e command s out s' := by
  obtain ⟨⟨out₁, s₁⟩, hexec, h⟩ := Option.bind_eq_some_iff.1 h
  replace h : out₁.deliver M e s₁ = some (out, s') := h
  replace hexec := carryOut_of_execute hexec
  -- The plans that launch nothing and print at most.
  have hreturned : ∀ (ret : Int) (tty : Tty), some (.returned ret, { s with tty }) = some (out₁, s₁) →
      s.tty.kbd.SameTerminals tty.kbd →
      (∀ fName entry slot tempArg,
        execPlan M e command s.kernel.currProcIdMask ≠ .launch fName entry slot tempArg) →
      ExecuteOutcome M e command s out s' := by
    intro ret tty hexec htty hplan
    obtain ⟨rfl, rfl⟩ := Prod.mk.inj (Option.some.inj hexec)
    obtain ⟨rfl, rfl⟩ := Prod.mk.inj (Option.some.inj h)
    exact .returned hplan htty
  cases hplan : execPlan M e command s.kernel.currProcIdMask with
  | fail | clear | nonRunnable | noSlot =>
      rw [hplan] at hexec
      exact hreturned _ _ hexec ⟨rfl, rfl, rfl⟩ (by simp [hplan])
  | nullName =>
      rw [hplan] at hexec
      obtain ⟨rfl, rfl⟩ := Prod.mk.inj (Option.some.inj hexec)
      obtain ⟨⟨how, s₂⟩, hfault, h⟩ := Option.map_eq_some_iff.1 h
      obtain ⟨rfl, rfl⟩ := by simpa using h
      exact .nullName hplan hfault
  | launch fName entry slot tempArg =>
      rw [hplan] at hexec
      obtain ⟨⟨out₂, kernel⟩, hlaunch, hs⟩ := Option.map_eq_some_iff.1 hexec
      obtain ⟨rfl, rfl⟩ := by simpa using hs
      simp only [execLaunch, initNewProcess_eq] at hlaunch
      split at hlaunch
      · rename_i hbuf
        obtain ⟨rfl, rfl⟩ := by simpa using hlaunch
        obtain ⟨⟨how, s₂⟩, hfault, h⟩ := Option.map_eq_some_iff.1 h
        obtain ⟨rfl, rfl⟩ := by simpa using h
        refine .overrun hplan ?_ hfault
        intro hnone
        simp [hnone] at hbuf
      · rename_i hbuf
        obtain ⟨m, hm, hk⟩ := Option.map_eq_some_iff.1 hlaunch
        obtain ⟨rfl, rfl⟩ := by simpa using hk
        obtain ⟨rfl, rfl⟩ := Prod.mk.inj (Option.some.inj h)
        exact .launched hplan (by simpa using hbuf) hm

/-- `execute` leaves things alone, launches a process, or faults and the exception handler halts the
    process that called it. -/
inductive CallEffect (M : Machine) (e : ExecEnv) (command : Option CString) (c : Core) :
    CallOutcome → Core → Prop
  | returned (ret : Int) :
      (∀ fName entry slot tempArg, execPlan M e command c.mask ≠ .launch fName entry slot tempArg) →
      CallEffect M e command c (.returned ret) c
  | launched {fName : List UInt8} {entry : Nat} {slot : Slot} {tempArg m : Memory} :
      execPlan M e command c.mask = .launch fName entry slot tempArg →
      (M.copyFileToAddr fName).buf programRoom = none →
      initPcb M e slot (frameBase slot) (c.currProc c.running) (argSource M e fName tempArg)
        (c.pcb slot) = some m →
      CallEffect M e command c (.launched entry) (c.launch slot m)
  | nullName {out : HaltOutcome} {c' : Core} : execPlan M e command c.mask = .nullName →
      HaltEffect c out c' → CallEffect M e command c (.killed out) c'
  | overrun {fName : List UInt8} {entry : Nat} {slot : Slot} {tempArg : Memory} {out : HaltOutcome}
      {c' : Core} : execPlan M e command c.mask = .launch fName entry slot tempArg →
      (M.copyFileToAddr fName).buf programRoom ≠ none →
      HaltEffect (c.reserve slot) out c' → CallEffect M e command c (.killed out) c'

theorem pageFaultExcept_effect {M : Machine} {fInitData : Memory} {addr : Nat} {s s' : System}
    {out : HaltOutcome} (h : pageFaultExcept M fInitData addr s = some (out, s')) :
    HaltEffect s.core out s'.core := by
  obtain ⟨⟨out', kernel⟩, hhalt, h⟩ := Option.bind_eq_some_iff.1 h
  have heffect := halt_effect s.tty.kbd hhalt
  cases out' with
  | returned => simp at h
  | restarted entry =>
      obtain ⟨rfl, rfl⟩ := by simpa using h
      exact heffect
  | resumed esp ebp =>
      obtain ⟨rfl, rfl⟩ := by simpa using h
      exact heffect

theorem callExecute_effect {M : Machine} {e : ExecEnv} {command : Option CString} {s s' : System}
    {out : CallOutcome} (h : callExecute M e command s = some (out, s')) :
    CallEffect M e command s.core out s'.core := by
  cases callExecute_outcome h with
  | returned hplan htty =>
      rw [core_tty s htty]
      exact .returned _ hplan
  | launched hplan hbuf hm => exact .launched hplan hbuf hm
  | nullName hplan hfault => exact .nullName hplan (pageFaultExcept_effect hfault)
  | overrun hplan hbuf hfault => exact .overrun hplan hbuf (pageFaultExcept_effect hfault)

/-! ## Terminal switches -/

/-- A key for a new terminal starts a shell there; one for a started terminal moves the display,
    and the processor too unless one of the two terminals has no process. -/
inductive KeyFEffect (M : Machine) (next : Term) (r : Regs) (e : ExecEnv) (c : Core) :
    SwitchOutcome → Core → Prop
  | started {i : Slot} {how : CallOutcome} {c' : Core} : c.started next = false →
      slotAt (c.currProc c.shown) = some i →
      CallEffect M e (some shellName) ((c.visit next).save i r) how c' →
      KeyFEffect M next r e c (.started how) c'
  | ignored : c.started next = true → c.currProc c.shown = 0 ∨ c.currProc next = 0 →
      KeyFEffect M next r e c .ignored (c.display next)
  | loaded {i j : Slot} : c.started next = true → slotAt (c.currProc c.shown) = some i →
      slotAt (c.currProc next) = some j →
      KeyFEffect M next r e c
        (.loaded (Pcb.pSchedKsp ((c.save i r).pcb j)) (Pcb.pSchedKbp ((c.save i r).pcb j)))
        ((c.save i r).load next j)

theorem started_setStarted (k : Keyboard) (t : Term) :
    (k.setStarted t).started = Function.update k.started t true := by
  funext u
  by_cases h : u = t
  · subst h
    rw [Function.update_self, Keyboard.setStarted]
    split
    · simp [Keyboard.started, *]
    · split <;> simp [Keyboard.started, *]
  · rw [Function.update_of_ne h, Keyboard.setStarted]
    split
    · rename_i ht
      simp only [Keyboard.started, if_neg (ht ▸ h)]
    · split
      · rename_i ht
        simp only [Keyboard.started, if_neg (ht ▸ h)]
      · rfl

theorem activeTerminal_setStarted (k : Keyboard) (t : Term) :
    (k.setStarted t).activeTerminal = k.activeTerminal := by
  unfold Keyboard.setStarted
  split
  · rfl
  · split <;> rfl

/-- The state in which a first visit calls `execute`. -/
theorem core_firstVisit (s : System) (next : Term) (i : Slot) (r : Regs) :
    (saveRegs i r (visit next s)).core = (s.core.visit next).save i r := by
  have hstarted := started_setStarted (s.tty.showTerminal next).kbd next
  have hactive := activeTerminal_setStarted (s.tty.showTerminal next).kbd next
  simp only [System.core, Kernel.core, visit, saveRegs, Kernel.setPcb, hstarted, hactive]
  rfl

theorem keyF_effect {M : Machine} {next : Term} {r : Regs} {e : ExecEnv} {s s' : System}
    {out : SwitchOutcome} (h : keyF M next r e s = some (out, s')) :
    KeyFEffect M next r e s.core out s'.core := by
  cases hnext : s.tty.kbd.started next with
  | false =>
      rw [keyF_of_not_started M r e hnext] at h
      obtain ⟨i, hi, h⟩ := Option.bind_eq_some_iff.1 h
      obtain ⟨⟨how, s₁⟩, hcall, h⟩ := Option.map_eq_some_iff.1 h
      obtain ⟨rfl, rfl⟩ := by simpa using h
      refine .started hnext hi ?_
      rw [← core_firstVisit]
      exact callExecute_effect hcall
  | true =>
      rw [keyF_of_started M r e hnext] at h
      simp only [switchTo] at h
      split at h
      · rename_i hnull
        obtain ⟨rfl, rfl⟩ := Prod.mk.inj (Option.some.inj h)
        exact .ignored hnext hnull
      · obtain ⟨i, hi, h⟩ := Option.bind_eq_some_iff.1 h
        obtain ⟨j, hj, h⟩ := Option.map_eq_some_iff.1 h
        obtain ⟨rfl, rfl⟩ := Prod.mk.inj h
        exact .loaded hnext hi hj

/-! ## Actions -/

/-- What an action can do to the core. -/
def ActionEffect (M : Machine) (c : Core) : Action → Core → Prop
  | .execute e command, c' => ∃ out, CallEffect M e command c out c'
  | .halt _ _, c' => ∃ out, HaltEffect c out c'
  | .ctrlC _, c' => ∃ out, HaltEffect c out c'
  | .openFile _, c' => FdEffect SameControl c c'
  | .closeFile _, c' => FdEffect FdsKept c c'
  | .readFile _ _ _, c' => FdEffect FdsKept c c'
  | .function next r e, c' => ∃ out, KeyFEffect M next r e c out c'
  | _, c' => c' = c

/-- **Every step has the effect of its action.** -/
theorem step_effect {M : Machine} {s t : System} {a : Action} (h : step M s a = some t) :
    ActionEffect M s.core a t.core := by
  cases a with
  | execute e command =>
      obtain ⟨⟨out, s'⟩, hcall, rfl⟩ := Option.map_eq_some_iff.1 h
      exact ⟨out, callExecute_effect hcall⟩
  | halt fInitData status =>
      obtain ⟨⟨out, k⟩, hhalt, rfl⟩ := Option.map_eq_some_iff.1 h
      exact ⟨out, halt_effect _ hhalt⟩
  | openFile filename =>
      obtain ⟨⟨ret, k⟩, hopen, rfl⟩ := Option.map_eq_some_iff.1 h
      exact openFd_effect _ hopen
  | closeFile fd =>
      obtain ⟨⟨ret, k⟩, hclose, rfl⟩ := Option.map_eq_some_iff.1 h
      exact closeFd_effect _ hclose
  | readFile fd bufNull nbytes =>
      obtain ⟨⟨ret, buf, s'⟩, hread, rfl⟩ := Option.map_eq_some_iff.1 h
      exact readFd_effect hread
  | writeFile fd buf nbytes =>
      obtain ⟨⟨ret, s'⟩, hwrite, rfl⟩ := Option.map_eq_some_iff.1 h
      exact writeFd_core hwrite
  | key c =>
      obtain rfl := Option.some.inj h
      exact core_tty s (Tty.addCharToBuffer_sameTerminals _ _ _)
  | enter =>
      obtain rfl := Option.some.inj h
      exact core_tty s (Tty.handleEnter_sameTerminals _)
  | backspace =>
      obtain rfl := Option.some.inj h
      exact core_tty s (Tty.handleBackspace_sameTerminals _)
  | ctrlC fInitData =>
      obtain ⟨⟨out, k⟩, hhalt, rfl⟩ := Option.map_eq_some_iff.1 h
      exact ⟨out, halt_effect _ hhalt⟩
  | function next r e =>
      obtain ⟨⟨out, s'⟩, hkey, rfl⟩ := Option.map_eq_some_iff.1 h
      exact ⟨out, keyF_effect hkey⟩
  | rtcTick =>
      obtain rfl := Option.some.inj h
      rfl

end Gyarados

import Gyarados.Foundation.Links
import Gyarados.Foundation.StackFamily
import Gyarados.Kernel.Launch

set_option autoImplicit false

/-! # The process table

What the chains, the mask and the two pointer arrays are for: every terminal has a stack of
processes, and the stacks share the seven program slots. `Represents` relates the core to such a
family of stacks; a launch is a push on the running terminal's stack, an exit is a pop, and
nothing else moves it. -/

namespace Gyarados

/-- The slots of the processes of each terminal, the running one first. -/
abbrev ProcessTable := StackFamily Term Slot

/-- The address of the PCB on top. -/
def topAddr : List Slot → Nat
  | [] => 0
  | i :: _ => pcbAddr i

/-- The `prev` link of the PCB at `p`. -/
def Core.prevOf (c : Core) (p : Nat) : Nat :=
  match slotAt p with
  | some i => Pcb.prev (c.pcb i)
  | none => 0

/-- The chains, the mask and the PCBs hold the process table `F`. -/
structure Represents (c : Core) (F : ProcessTable) : Prop where
  chain : ∀ t, Links 0 c.prevOf (c.currProc t) ((F.stack t).map pcbAddr)
  prevProc : ∀ t, c.prevProc t = topAddr (F.stack t).tail
  mask : ∀ i : Slot, c.mask.testBit (7 - i) = true ↔ F.Uses i
  mask_lt : c.mask < 0x100
  mask_zero : c.mask.testBit 0 = false
  procNum : ∀ i, F.Uses i → Pcb.procNum (c.pcb i) = i
  base : ∀ i, F.Uses i → Pcb.base (c.pcb i) = frameBase i

@[simp] theorem Core.prevOf_pcbAddr (c : Core) (i : Slot) :
    c.prevOf (pcbAddr i) = Pcb.prev (c.pcb i) := by
  rw [prevOf, slotAt_pcbAddr]

theorem topAddr_eq_pcbAddr {is : List Slot} {i : Slot} (h : topAddr is = pcbAddr i) :
    ∃ rest, is = i :: rest := by
  cases is with
  | nil => exact absurd h.symm (pcbAddr_ne_null i)
  | cons j rest => exact ⟨rest, by rw [pcbAddr_injective h]⟩

theorem topAddr_eq_null {is : List Slot} : topAddr is = 0 ↔ is = [] := by
  cases is with
  | nil => simp [topAddr]
  | cons j rest => simp [topAddr, pcbAddr_ne_null]

theorem topAddr_lt (is : List Slot) : topAddr is < 0x100000000 := by
  cases is with
  | nil => simp [topAddr]
  | cons j rest => exact pcbAddr_lt j

/-- The head of a chain is the PCB on top. -/
theorem topAddr_of_links {next : Nat → Nat} {p : Nat} {is : List Slot}
    (h : Links 0 next p (is.map pcbAddr)) : p = topAddr is := by
  cases is with
  | nil => exact h.eq_null
  | cons i rest => exact h.head_eq

/-- The bit of a slot in the mask. -/
theorem testBit_programBit (i j : Slot) : (programBit i).testBit (7 - j) = decide (i = j) := by
  revert i j
  decide

theorem programBit_lt (i : Slot) : programBit i < 0x100 := by
  revert i
  decide

theorem testBit_zero_programBit (i : Slot) : (programBit i).testBit 0 = false := by
  revert i
  decide

/-! ## Reading the table off -/

namespace Represents

variable {c c' : Core} {F : ProcessTable}

theorem currProc (h : Represents c F) (t : Term) : c.currProc t = topAddr (F.stack t) :=
  topAddr_of_links (h.chain t)

theorem stack_of_slotAt (h : Represents c F) {t : Term} {i : Slot}
    (hi : slotAt (c.currProc t) = some i) : ∃ rest, F.stack t = i :: rest := by
  rw [slotAt_eq_some, h.currProc] at hi
  exact topAddr_eq_pcbAddr hi

theorem not_uses (h : Represents c F) {i : Slot} (hi : c.mask.testBit (7 - i) = false) :
    ¬ F.Uses i := by
  rw [← h.mask, hi]
  simp

/-- The table depends on the chains, the mask and three fields of each PCB. -/
theorem congr (h : Represents c F) (hcurr : c'.currProc = c.currProc)
    (hprev : c'.prevProc = c.prevProc) (hmask : c'.mask = c.mask)
    (hpcb : ∀ i, Pcb.procNum (c'.pcb i) = Pcb.procNum (c.pcb i) ∧
      Pcb.base (c'.pcb i) = Pcb.base (c.pcb i) ∧ Pcb.prev (c'.pcb i) = Pcb.prev (c.pcb i)) :
    Represents c' F where
  chain t := by
    rw [hcurr]
    refine (h.chain t).congr ?_
    intro p hp
    obtain ⟨i, -, rfl⟩ := List.mem_map.1 hp
    simp [(hpcb i).2.2]
  prevProc t := by rw [hprev, h.prevProc]
  mask i := by rw [hmask, h.mask]
  mask_lt := hmask ▸ h.mask_lt
  mask_zero := hmask ▸ h.mask_zero
  procNum i hi := by rw [(hpcb i).1, h.procNum i hi]
  base i hi := by rw [(hpcb i).2.1, h.base i hi]

/-- The table does not see a change of descriptors and saved registers. -/
theorem setPcb (h : Represents c F) {i : Slot} {m : Memory}
    (hnum : Pcb.procNum m = Pcb.procNum (c.pcb i)) (hbase : Pcb.base m = Pcb.base (c.pcb i))
    (hprev : Pcb.prev m = Pcb.prev (c.pcb i)) : Represents (c.setPcb i m) F := by
  refine h.congr rfl rfl rfl ?_
  intro j
  by_cases hj : j = i
  · subst hj
    simp [Core.setPcb, hnum, hbase, hprev]
  · simp [Core.setPcb, hj]

/-! ## Launch and exit -/

/-- A launch in a free slot puts the new PCB in front of the running terminal's chain. -/
theorem links_launch (h : Represents c F) {slot : Slot} {m : Memory} (hfree : ¬ F.Uses slot)
    (hprev : Pcb.prev m = c.currProc c.running) (t : Term) :
    Links 0 (c.launch slot m).prevOf ((c.launch slot m).currProc t)
      (((F.push c.running slot hfree).stack t).map pcbAddr) := by
  -- the slot was free, so no old chain goes through the new PCB
  have hrest : ∀ u, Links 0 (c.launch slot m).prevOf (c.currProc u)
      ((F.stack u).map pcbAddr) := by
    intro u
    refine (h.chain u).congr ?_
    intro p hp
    obtain ⟨i, hi, rfl⟩ := List.mem_map.1 hp
    have hne : i ≠ slot := fun he => hfree ⟨u, he ▸ hi⟩
    simp [Core.launch, hne]
  by_cases ht : t = c.running
  · subst ht
    rw [StackFamily.push_stack_self, List.map_cons]
    have hcurr : (c.launch slot m).currProc c.running = pcbAddr slot := by simp [Core.launch]
    rw [hcurr]
    refine .cons (pcbAddr_ne_null slot) ?_
    have hnext : (c.launch slot m).prevOf (pcbAddr slot) = c.currProc c.running := by
      simp [Core.launch, hprev]
    rw [hnext]
    exact hrest _
  · rw [StackFamily.push_stack_of_ne _ _ _ _ ht]
    have hcurr : (c.launch slot m).currProc t = c.currProc t := by simp [Core.launch, ht]
    rw [hcurr]
    exact hrest t

/-- **A launch pushes the new process on the running terminal's stack.** -/
theorem launch (h : Represents c F) {slot : Slot} {m : Memory} (hfree : ¬ F.Uses slot)
    (hnum : Pcb.procNum m = slot) (hbase : Pcb.base m = frameBase slot)
    (hprev : Pcb.prev m = c.currProc c.running) :
    Represents (c.launch slot m) (F.push c.running slot hfree) where
  chain := h.links_launch hfree hprev
  prevProc t := by
    by_cases ht : t = c.running
    · subst ht
      simp [Core.launch, h.currProc]
    · simp [Core.launch, Core.reserve, ht, h.prevProc]
  mask i := by
    have hbit := testBit_programBit slot i
    rw [StackFamily.push_uses, ← h.mask]
    simp only [Core.launch, Core.reserve, Nat.testBit_or, Bool.or_eq_true, hbit, decide_eq_true_eq]
    tauto
  mask_lt := Nat.or_lt_two_pow (n := 8) h.mask_lt (programBit_lt slot)
  mask_zero := by
    have hbit := testBit_zero_programBit slot
    simp only [Core.launch, Core.reserve, Nat.testBit_or, h.mask_zero, hbit, Bool.or_self]
  procNum i hi := by
    rw [StackFamily.push_uses] at hi
    by_cases hs : i = slot
    · subst hs
      simp [Core.launch, hnum]
    · simp [Core.launch, Core.reserve, hs, h.procNum i (hi.resolve_left hs)]
  base i hi := by
    rw [StackFamily.push_uses] at hi
    by_cases hs : i = slot
    · subst hs
      simp [Core.launch, hbase]
    · simp [Core.launch, Core.reserve, hs, h.base i (hi.resolve_left hs)]

/-- **An exit pops the process on top of the running terminal's stack.** -/
theorem exit (h : Represents c F) {i j : Slot} {rest : List Slot} {m : Memory}
    (hs : F.stack c.running = i :: j :: rest) (hm : SameControl (c.pcb i) m) :
    Represents (c.exit i j m) (F.pop c.running) := by
  have h₁ : Represents (c.setPcb i m) F :=
    h.setPcb (congrArg UInt8.toNat (hm 448 (by omega))) (hm.word (by omega)) (hm.word (by omega))
  have hi : F.Uses i := ⟨c.running, by rw [hs]; exact List.mem_cons_self⟩
  have hchain := h₁.chain c.running
  rw [hs] at hchain
  have huses := F.pop_uses c.running i hs
  refine ⟨fun t => ?_, fun t => ?_, fun k => ?_, ?_, ?_, fun k hk => ?_, fun k hk => ?_⟩
  · by_cases ht : t = c.running
    · subst ht
      rw [StackFamily.pop_stack_self, hs, List.tail_cons]
      -- `prev_proc` is the link of the process that ends
      have hcurr : (c.exit i j m).currProc c.running = (c.setPcb i m).prevOf (pcbAddr i) := by
        have hprev := h.prevProc c.running
        rw [hs, List.tail_cons] at hprev
        rw [topAddr_of_links (show Links 0 _ _ ((j :: rest).map pcbAddr) from hchain.tail)]
        simp [Core.exit, hprev]
      rw [hcurr]
      exact hchain.tail
    · rw [StackFamily.pop_stack_of_ne _ _ ht]
      have hcurr : (c.exit i j m).currProc t = c.currProc t := by simp [Core.exit, ht]
      rw [hcurr]
      exact h₁.chain t
  · by_cases ht : t = c.running
    · subst ht
      have hprev : (c.exit i j m).prevProc c.running = (c.setPcb i m).prevOf (pcbAddr j) := by
        simp [Core.exit, Core.setPcb]
      rw [StackFamily.pop_stack_self, hs, hprev]
      exact topAddr_of_links hchain.tail.tail
    · have hprev : (c.exit i j m).prevProc t = c.prevProc t := by simp [Core.exit, ht]
      rw [StackFamily.pop_stack_of_ne _ _ ht, hprev, h.prevProc]
  -- the bit was set: flipping it clears it, and it is no other slot's bit
  · have hbit := testBit_programBit i k
    rw [huses, ← h.mask]
    simp only [Core.exit, h.procNum i hi, Nat.testBit_xor, hbit]
    by_cases hk : i = k
    · subst hk
      simp [(h.mask i).2 hi]
    · simp [hk, Ne.symm hk]
  · simp only [Core.exit, h.procNum i hi]
    exact Nat.xor_lt_two_pow (n := 8) h.mask_lt (programBit_lt i)
  · have hbit := testBit_zero_programBit i
    simp only [Core.exit, h.procNum i hi, Nat.testBit_xor, h.mask_zero, hbit, Bool.xor_self]
  · exact h₁.procNum k ((huses k).1 hk).1
  · exact h₁.base k ((huses k).1 hk).1

end Represents

/-! ## The invariant -/

/-- The directory entry that maps the program page to the frame of a slot. -/
def mappedPde (i : Slot) : Pde where
  present := true
  readWrite := true
  userSuper := true
  pageSize := true
  pageTableBase := frameBase i

/-- **The invariant of process management.** The core holds a process table; terminals not yet
    started have no process; the running process is mapped and has its kernel stack; and the page
    tables are otherwise those of the boot. -/
structure Consistent (M : Machine) (c : Core) (F : ProcessTable) : Prop where
  represents : Represents c F
  running_started : c.started c.running = true
  stack_of_not_started : ∀ t, c.started t = false → F.stack t = []
  pageTable1 : c.paging.pageTable1 = (PageTables.initPaging M.pageTable1Addr).pageTable1
  pageDirectory : ∀ n, n ≠ processIdx →
    c.paging.pageDirectory n = (PageTables.initPaging M.pageTable1Addr).pageDirectory n
  mapped : ∀ i rest, F.stack c.running = i :: rest →
    c.paging.pageDirectory processIdx = mappedPde i ∧ c.esp0 = esp0For i

theorem mapProcess_frameBase (t : PageTables) (i : Slot) :
    (t.mapProcess (frameBase i)).pageDirectory processIdx = mappedPde i := by
  have hbase : frameBase i % 0x100000 = frameBase i := by
    revert i
    decide
  rw [PageTables.mapProcess_pageDirectory_self, hbase, mappedPde]

namespace Consistent

variable {M : Machine} {c c' : Core} {F : ProcessTable}

/-- The boot state holds the empty table. -/
theorem boot {s : System} (h : Boot M s) : Consistent M s.core StackFamily.empty where
  represents := {
    chain := fun t => by
      rw [show s.core.currProc t = 0 from h.currProc t]
      exact .nil
    prevProc := h.prevProc
    mask := fun i => by
      rw [show s.core.mask = 0 from h.currProcIdMask]
      simp [StackFamily.Uses, StackFamily.empty]
    mask_lt := by
      rw [show s.core.mask = 0 from h.currProcIdMask]
      omega
    mask_zero := by
      rw [show s.core.mask = 0 from h.currProcIdMask]
      simp
    procNum := fun i hi => by simp [StackFamily.Uses, StackFamily.empty] at hi
    base := fun i hi => by simp [StackFamily.Uses, StackFamily.empty] at hi }
  running_started := by
    show s.tty.kbd.started s.kernel.currActiveTerm = true
    rw [h.started, h.currActiveTerm]
    rfl
  stack_of_not_started _ _ := rfl
  pageTable1 := congrArg PageTables.pageTable1 h.paging
  pageDirectory n _ := congrFun (congrArg PageTables.pageDirectory h.paging) n
  mapped i rest hs := by simp [StackFamily.empty] at hs

theorem setPcb (h : Consistent M c F) {i : Slot} {m : Memory}
    (hnum : Pcb.procNum m = Pcb.procNum (c.pcb i)) (hbase : Pcb.base m = Pcb.base (c.pcb i))
    (hprev : Pcb.prev m = Pcb.prev (c.pcb i)) : Consistent M (c.setPcb i m) F where
  represents := h.represents.setPcb hnum hbase hprev
  running_started := h.running_started
  stack_of_not_started := h.stack_of_not_started
  pageTable1 := h.pageTable1
  pageDirectory := h.pageDirectory
  mapped := h.mapped

theorem fdEffect (h : Consistent M c F) (he : FdEffect SameControl c c') : Consistent M c' F := by
  cases he with
  | none => exact h
  | pcb _ hm =>
      exact h.setPcb (congrArg UInt8.toNat (hm 448 (by omega))) (hm.word (by omega))
        (hm.word (by omega))

theorem save (h : Consistent M c F) (i : Slot) (r : Regs) : Consistent M (c.save i r) F := by
  have hbyte : ∀ a, a < 472 ∨ 480 ≤ a → Pcb.setSched (c.pcb i) r.esp r.ebp a = c.pcb i a :=
    fun a ha => setSched_of_disjoint _ _ _ ha
  exact h.setPcb (congrArg UInt8.toNat (hbyte 448 (by omega)))
    (Memory.word_congr fun a _ _ => hbyte a (by omega))
    (Memory.word_congr fun a _ _ => hbyte a (by omega))

theorem display (h : Consistent M c F) (t : Term) : Consistent M (c.display t) F where
  represents := h.represents.congr rfl rfl rfl fun _ => ⟨rfl, rfl, rfl⟩
  running_started := h.running_started
  stack_of_not_started := h.stack_of_not_started
  pageTable1 := h.pageTable1
  pageDirectory := h.pageDirectory
  mapped := h.mapped

/-- A terminal visited for the first time has no process yet. -/
theorem visit (h : Consistent M c F) {t : Term} (ht : c.started t = false) :
    Consistent M (c.visit t) F where
  represents := h.represents.congr rfl rfl rfl fun _ => ⟨rfl, rfl, rfl⟩
  running_started := by simp [Core.visit]
  stack_of_not_started u hu := by
    by_cases hut : u = t
    · simp [Core.visit, hut] at hu
    · simp [Core.visit, hut] at hu
      exact h.stack_of_not_started u hu
  pageTable1 := h.pageTable1
  pageDirectory := h.pageDirectory
  mapped i rest hs := by
    have hnil := h.stack_of_not_started t ht
    simp [Core.visit, hnil] at hs

/-- Loading the process on top of a started terminal's stack maps it. -/
theorem load (h : Consistent M c F) {t : Term} (ht : c.started t = true) {j : Slot}
    (hj : slotAt (c.currProc t) = some j) : Consistent M (c.load t j) F := by
  obtain ⟨rest, hs⟩ := h.represents.stack_of_slotAt hj
  have huses : F.Uses j := ⟨t, by rw [hs]; exact List.mem_cons_self⟩
  have hbase := h.represents.base j huses
  have hnum := h.represents.procNum j huses
  refine ⟨h.represents.congr rfl rfl rfl fun _ => ⟨rfl, rfl, rfl⟩, ht, h.stack_of_not_started,
    h.pageTable1, ?_, ?_⟩
  · intro n hn
    exact (PageTables.mapProcess_pageDirectory_of_ne _ _ hn).trans (h.pageDirectory n hn)
  · intro i rest' hs'
    have hij : i = j := by
      have := hs'.symm.trans hs
      exact (List.cons.inj this).1
    subst hij
    simp only [Core.load, hbase, hnum]
    exact ⟨mapProcess_frameBase _ i, trivial⟩

theorem launch (h : Consistent M c F) {slot : Slot} {m : Memory} (hfree : ¬ F.Uses slot)
    (hnum : Pcb.procNum m = slot) (hbase : Pcb.base m = frameBase slot)
    (hprev : Pcb.prev m = c.currProc c.running) :
    Consistent M (c.launch slot m) (F.push c.running slot hfree) where
  represents := h.represents.launch hfree hnum hbase hprev
  running_started := h.running_started
  stack_of_not_started t ht := by
    have hne : t ≠ c.running := by
      rintro rfl
      rw [show (c.launch slot m).started = c.started from rfl, h.running_started] at ht
      simp at ht
    rw [StackFamily.push_stack_of_ne _ _ _ _ hne]
    exact h.stack_of_not_started t ht
  pageTable1 := h.pageTable1
  pageDirectory n hn :=
    (PageTables.mapProcess_pageDirectory_of_ne _ _ hn).trans (h.pageDirectory n hn)
  mapped i rest hs := by
    rw [show (c.launch slot m).running = c.running from rfl, StackFamily.push_stack_self] at hs
    obtain ⟨rfl, -⟩ := List.cons.inj hs
    exact ⟨mapProcess_frameBase _ _, rfl⟩

theorem exit (h : Consistent M c F) {i j : Slot} {rest : List Slot} {m : Memory}
    (hs : F.stack c.running = i :: j :: rest) (hm : SameControl (c.pcb i) m) :
    Consistent M (c.exit i j m) (F.pop c.running) := by
  have hrep := h.represents.exit hs hm
  have hpop : (F.pop c.running).stack c.running = j :: rest := by simp [hs]
  have huses : (F.pop c.running).Uses j := ⟨c.running, by rw [hpop]; exact List.mem_cons_self⟩
  have hbase := hrep.base j huses
  have hnum := hrep.procNum j huses
  refine ⟨hrep, h.running_started, ?_, h.pageTable1, ?_, ?_⟩
  · intro t ht
    have hne : t ≠ c.running := by
      rintro rfl
      rw [show (c.exit i j m).started = c.started from rfl, h.running_started] at ht
      simp at ht
    rw [StackFamily.pop_stack_of_ne _ _ hne]
    exact h.stack_of_not_started t ht
  · intro n hn
    exact (PageTables.mapProcess_pageDirectory_of_ne _ _ hn).trans (h.pageDirectory n hn)
  · intro i' rest' hs'
    obtain rfl : i' = j := (List.cons.inj (hs'.symm.trans hpop)).1
    refine ⟨?_, ?_⟩
    · show (c.paging.mapProcess (Pcb.base ((c.exit i i' m).pcb i'))).pageDirectory processIdx = _
      rw [hbase]
      exact mapProcess_frameBase _ _
    · show esp0For (Pcb.procNum ((c.exit i i' m).pcb i')) = _
      rw [hnum]

/-! ## Steps -/

/-- The slot planned for a launch is free, and a PCB whose arguments fit is as the table wants
    it. -/
theorem launched (h : Consistent M c F) {e : ExecEnv} {command : Option CString}
    {fName : List UInt8} {entry : Nat} {slot : Slot} {tempArg m : Memory}
    (hplan : execPlan M e command c.mask = .launch fName entry slot tempArg)
    (hm : initPcb M e slot (frameBase slot) (c.currProc c.running) (argSource M e fName tempArg)
      (c.pcb slot) = some m)
    (hargs : (tempArg.stringAt 0 0x2000).length < 64) :
    ∃ hfree : ¬ F.Uses slot, Consistent M (c.launch slot m) (F.push c.running slot hfree) := by
  replace hargs := length_stringAt_argSource M e fName hargs
  have hlt : c.currProc c.running < 0x100000000 := by
    rw [h.represents.currProc]
    exact topAddr_lt _
  refine ⟨h.represents.not_uses (execPlan_eq_launch hplan).slot_free, h.launch _ (procNum_initPcb hm hargs)
    (base_initPcb hm hargs (frameBase_lt slot)) (prev_initPcb hm hlt)⟩

/-- A process that can be halted has its parent below it on the stack. -/
theorem resumed (h : Consistent M c F) {i j : Slot} {m : Memory} (hi : c.currSlot = some i)
    (hj : slotAt (c.prevProc c.running) = some j) (hm : SameControl (c.pcb i) m) :
    ∃ rest, F.stack c.running = i :: j :: rest ∧
      Consistent M (c.exit i j m) (F.pop c.running) := by
  obtain ⟨rest, hs⟩ := h.represents.stack_of_slotAt hi
  rw [slotAt_eq_some, h.represents.prevProc, hs, List.tail_cons] at hj
  obtain ⟨rest', rfl⟩ := topAddr_eq_pcbAddr hj
  exact ⟨rest', hs, h.exit hs hm⟩

theorem haltEffect (h : Consistent M c F) {out : HaltOutcome} (he : HaltEffect c out c') :
    ∃ F', Consistent M c' F' := by
  cases he with
  | returned => exact ⟨F, h⟩
  | restarted => exact ⟨F, h⟩
  | resumed hi _ hj hm =>
      obtain ⟨rest, -, h'⟩ := h.resumed hi hj hm.sameControl
      exact ⟨_, h'⟩

theorem callEffect (h : Consistent M c F) {e : ExecEnv} {command : Option CString}
    {out : CallOutcome} (hfits : ExecFits M e command c.mask)
    (he : CallEffect M e command c out c') : ∃ F', Consistent M c' F' := by
  cases he with
  | returned => exact ⟨F, h⟩
  | launched hplan _ hm =>
      obtain ⟨hfree, h'⟩ := h.launched hplan hm (hfits.of_launch hplan).1
      exact ⟨_, h'⟩
  | nullName _ hhalt => exact h.haltEffect hhalt
  | overrun hplan hbuf _ => exact absurd (hfits.of_launch hplan).2 hbuf

theorem keyFEffect (h : Consistent M c F) {next : Term} {r : Regs} {e : ExecEnv}
    {out : SwitchOutcome} (hfits : c.started next = false → ExecFits M e (some shellName) c.mask)
    (he : KeyFEffect M next r e c out c') : ∃ F', Consistent M c' F' := by
  cases he with
  | started hnext _ hcall => exact ((h.visit hnext).save _ r).callEffect (hfits hnext) hcall
  | ignored => exact ⟨F, h.display next⟩
  | loaded hnext _ hj => exact ⟨F, (h.save _ r).load hnext hj⟩

/-- **One step preserves the invariant**, whatever the action, if it stays inside its buffers. -/
theorem of_step {s t : System} {a : Action} (h : ∃ F, Consistent M s.core F)
    (hfits : a.LaunchFits M s) (hstep : step M s a = some t) : ∃ F, Consistent M t.core F := by
  obtain ⟨F, h⟩ := h
  have he := step_effect hstep
  cases a with
  | execute e command =>
      obtain ⟨out, he⟩ := he
      exact h.callEffect hfits he
  | halt =>
      obtain ⟨out, he⟩ := he
      exact h.haltEffect he
  | ctrlC =>
      obtain ⟨out, he⟩ := he
      exact h.haltEffect he
  | openFile => exact ⟨F, h.fdEffect he⟩
  | closeFile => exact ⟨F, h.fdEffect he.sameControl⟩
  | readFile => exact ⟨F, h.fdEffect he.sameControl⟩
  | function next r e =>
      obtain ⟨out, he⟩ := he
      exact h.keyFEffect hfits he
  | _ =>
      refine ⟨F, ?_⟩
      rw [show t.core = s.core from he]
      exact h

end Consistent

/-- **Every run keeps the invariant**, from the boot on. -/
theorem consistent_of_run {M : Machine} {s u : System} {as : List Action} (hboot : Boot M s)
    (hfits : AllSteps (step M) (Action.LaunchFits M) s as) (hrun : run (step M) s as = some u) :
    ∃ F, Consistent M u.core F :=
  run_invariant (P := fun s => ∃ F, Consistent M s.core F)
    (fun _ _ _ h hok hstep => Consistent.of_step h hok hstep) ⟨_, Consistent.boot hboot⟩ hfits hrun

end Gyarados

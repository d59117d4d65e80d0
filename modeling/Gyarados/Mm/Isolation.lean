import Gyarados.Kernel.Chains

set_option autoImplicit false

/-! # Memory isolation

The program page is mapped to the frame of the running process, frames of different processes do not
meet, and beside its page a program reaches the four video pages only. -/

namespace Gyarados

/-- The frame that the process with the PCB at `p` is given, by the base in its PCB. -/
def Kernel.frameAt (k : Kernel) (p a : Nat) : Prop :=
  ∃ i, slotAt p = some i ∧ Pcb.base (k.kernelStack i) * 0x1000 ≤ a ∧
    a < Pcb.base (k.kernelStack i) * 0x1000 + pageSizeLarge

/-- The four video pages of `init_paging`. -/
def videoPages : List Nat := [0xB8, 0xBC, 0xDC, 0xEC]

/-- The running process, with number `n`, is mapped at 128 MB to its own frame and has its own
    kernel stack. -/
structure RunningMapped (M : Machine) (k : Kernel) (n : Nat) : Prop where
  present : (k.paging.pageDirectory 32).present = true
  user : (k.paging.pageDirectory 32).userSuper = true
  large : (k.paging.pageDirectory 32).pageSize = true
  translate : ∀ d < 0x400000, k.paging.userTranslate M.pageTable1Addr (0x08000000 + d) =
    some (0x800000 + n * 0x400000 + d)
  esp0 : k.tssEsp0 = 0x800000 - 0x2000 * n - 4

/-- The processes are isolated: the running one sees its frame and the video pages, and no frame is
    shared with another process or the kernel. -/
structure Isolated (M : Machine) (k : Kernel) : Prop where
  running : ∃ i, k.currSlot = some i ∧ RunningMapped M k (Pcb.procNum (k.kernelStack i))
  base : ∀ i, k.OnChain (pcbAddr i) → Pcb.base (k.kernelStack i) =
    (0x800000 + Pcb.procNum (k.kernelStack i) * 0x400000) / 0x1000
  disjoint : ∀ p q, k.OnChain p → k.OnChain q → p ≠ q → ∀ a, k.frameAt p a → ¬ k.frameAt q a
  kernelFrame : ∀ p, k.OnChain p → ∀ a, k.frameAt p a → ¬ (0x400000 ≤ a ∧ a < 0x800000)
  accessible : ∀ va < 0x100000000, (k.paging.userTranslate M.pageTable1Addr va).isSome = true ↔
    (0x08000000 ≤ va ∧ va < 0x08400000) ∨ va / 0x1000 ∈ videoPages

/-! ## The page tables of the boot -/

section InitPaging

variable (pageTable1Addr : Nat)

theorem initPaging_pageDirectory_zero :
    (PageTables.initPaging pageTable1Addr).pageDirectory 0 =
      { present := true, readWrite := true, userSuper := true, pageSize := false
        pageTableBase := pageTable1Addr / 0x1000 % 0x100000 } := by
  simp [PageTables.initPaging, PageTables.setPde, PageTables.showPage, PageTables.blank]

theorem initPaging_pageDirectory_one :
    ((PageTables.initPaging pageTable1Addr).pageDirectory 1).userSuper = false := by
  simp [PageTables.initPaging, PageTables.setPde]

theorem initPaging_pageDirectory_of_le {n : Nat} (hn : 2 ≤ n) :
    ((PageTables.initPaging pageTable1Addr).pageDirectory n).present = false := by
  have h0 : n ≠ 0 := by omega
  have h1 : n ≠ 1 := by omega
  simp [PageTables.initPaging, PageTables.setPde, PageTables.showPage, PageTables.blank, h0, h1]

/-- A user program may use the video pages of the first 4 MB. -/
theorem initPaging_pageTable1 (n : Nat) :
    (((PageTables.initPaging pageTable1Addr).pageTable1 n).present &&
      ((PageTables.initPaging pageTable1Addr).pageTable1 n).userSuper) = decide (n ∈ videoPages) := by
  by_cases h : n ∈ videoPages
  · simp only [h, decide_true]
    simp only [videoPages, List.mem_cons, List.not_mem_nil, or_false] at h
    rcases h with rfl | rfl | rfl | rfl <;>
      simp [PageTables.initPaging, PageTables.setPde, PageTables.showPage, Function.update]
  · simp only [h, decide_false]
    simp only [videoPages, List.mem_cons, List.not_mem_nil, or_false, not_or] at h
    simp [PageTables.initPaging, PageTables.setPde, PageTables.showPage, PageTables.blank,
      Function.update, h]

end InitPaging

/-! ## What a program reaches -/

namespace Consistent

variable {M : Machine} {c : Core} {F : ProcessTable} {i : Slot} {rest : List Slot}

/-- The program page goes to the frame of the running process. -/
theorem userTranslate_program (h : Consistent M c F) (hs : F.stack c.running = i :: rest) {va : Nat}
    (hva : va / 0x400000 = 32) : c.paging.userTranslate M.pageTable1Addr va =
      some (0x800000 + i * 0x400000 + va % 0x400000) := by
  have hpde := (h.mapped i rest hs).1
  have hframe : frameBase i / 0x400 * 0x400000 = 0x800000 + i * 0x400000 := by
    unfold frameBase
    omega
  simp only [PageTables.userTranslate, pageSizeLarge, hva, hpde, mappedPde, hframe, Bool.and_self,
    if_true]

/-- Everything else is as after the boot: the video pages and nothing more. -/
theorem userTranslate_isSome (h : Consistent M c F) {va : Nat} (hva : va / 0x400000 ≠ 32) :
    (c.paging.userTranslate M.pageTable1Addr va).isSome = true ↔ va / 0x1000 ∈ videoPages := by
  have hpde := h.pageDirectory _ hva
  have hvideo : va / 0x1000 ∈ videoPages → va / 0x400000 = 0 := by
    simp only [videoPages, List.mem_cons, List.not_mem_nil, or_false]
    omega
  simp only [PageTables.userTranslate, pageSizeLarge, hpde, h.pageTable1]
  rcases Nat.lt_trichotomy (va / 0x400000) 1 with hlt | hone | hgt
  · have hzero : va / 0x400000 = 0 := by omega
    have hpage : va / 0x1000 % 0x400 = va / 0x1000 := by omega
    simp only [hzero, initPaging_pageDirectory_zero, hpage, initPaging_pageTable1]
    by_cases hmem : va / 0x1000 ∈ videoPages <;> simp [hmem]
  · simp only [hone, initPaging_pageDirectory_one, Bool.and_false, Bool.false_eq_true, if_false,
      Option.isSome_none, false_iff]
    exact fun hmem => by have := hvideo hmem; omega
  · simp only [initPaging_pageDirectory_of_le _ (show 2 ≤ va / 0x400000 by omega), Bool.false_and,
      Bool.false_eq_true, if_false, Option.isSome_none, false_iff]
    exact fun hmem => by have := hvideo hmem; omega

end Consistent

/-- In a represented table the PCBs on the chains are those of the slots in use. -/
theorem Represents.onChain {k : Kernel} {kbd : Keyboard} {F : ProcessTable}
    (h : Represents (k.core kbd) F) {p : Nat} (hp : k.OnChain p) :
    ∃ i, pcbAddr i = p ∧ F.Uses i := by
  obtain ⟨t, ps, hlinks, hmem⟩ := hp
  rw [hlinks.unique (h.chain t)] at hmem
  obtain ⟨i, hi, rfl⟩ := List.mem_map.1 hmem
  exact ⟨i, rfl, t, hi⟩

/-- The frame of a slot in use. -/
theorem Represents.frameAt {k : Kernel} {kbd : Keyboard} {F : ProcessTable}
    (h : Represents (k.core kbd) F) {i : Slot} (hi : F.Uses i) {a : Nat} :
    k.frameAt (pcbAddr i) a ↔
      0x800000 + i * 0x400000 ≤ a ∧ a < 0x800000 + (i + 1) * 0x400000 := by
  have hbase : Pcb.base (k.kernelStack i) = frameBase i := h.base i hi
  simp only [Kernel.frameAt, slotAt_pcbAddr, Option.some.injEq, exists_eq_left', hbase, frameBase,
    pageSizeLarge]
  omega

/-- The running process is mapped and has its kernel stack. -/
theorem Consistent.runningMapped {M : Machine} {k : Kernel} {kbd : Keyboard} {F : ProcessTable}
    (h : Consistent M (k.core kbd) F) {i : Slot} {rest : List Slot}
    (hs : F.stack k.currActiveTerm = i :: rest) : RunningMapped M k i := by
  obtain ⟨hpde, hesp0⟩ := h.mapped i rest hs
  rw [show (k.core kbd).paging = k.paging from rfl] at hpde
  refine ⟨by rw [hpde]; rfl, by rw [hpde]; rfl, by rw [hpde]; rfl, fun d hd => ?_, hesp0⟩
  have hva := h.userTranslate_program hs (show (0x08000000 + d) / 0x400000 = 32 by omega)
  rw [show (0x08000000 + d) % 0x400000 = d by omega] at hva
  exact hva

/-- **Processes are isolated** in every state with a running process that a run from the boot
    reaches, if its launches stay inside their buffers. -/
theorem isolated_of_run {M : Machine} {s u : System} {as : List Action} (hboot : Boot M s)
    (hfits : AllSteps (step M) (Action.LaunchFits M) s as) (hrun : run (step M) s as = some u)
    (hproc : u.kernel.currProc u.kernel.currActiveTerm ≠ 0) : Isolated M u.kernel := by
  obtain ⟨F, h⟩ := consistent_of_run hboot hfits hrun
  have hrep : Represents (u.kernel.core u.tty.kbd) F := h.represents
  have hcurr : u.kernel.currProc u.kernel.currActiveTerm =
      topAddr (F.stack u.kernel.currActiveTerm) := hrep.currProc _
  have hne : F.stack u.kernel.currActiveTerm ≠ [] := fun hnil => hproc (by
    rw [hcurr, hnil]
    rfl)
  obtain ⟨i, rest, hs⟩ := List.exists_cons_of_ne_nil hne
  have hnum : ∀ j, F.Uses j → Pcb.procNum (u.kernel.kernelStack j) = j := hrep.procNum
  refine ⟨⟨i, ?_, ?_⟩, ?_, ?_, ?_, ?_⟩
  · rw [Kernel.currSlot, hcurr, hs]
    exact slotAt_pcbAddr i
  · rw [hnum i ⟨u.kernel.currActiveTerm, by rw [hs]; exact List.mem_cons_self⟩]
    exact h.runningMapped hs
  · intro j hj
    obtain ⟨k, hk, huses⟩ := hrep.onChain hj
    obtain rfl := pcbAddr_injective hk
    rw [hnum k huses]
    exact hrep.base k huses
  · intro p q hp hq hpq a ha ha'
    obtain ⟨i, rfl, hi⟩ := hrep.onChain hp
    obtain ⟨j, rfl, hj⟩ := hrep.onChain hq
    have hin := (hrep.frameAt hi).1 ha
    have hin' := (hrep.frameAt hj).1 ha'
    -- a frame belongs to one slot
    have hij : i = j := Fin.ext (by omega)
    exact hpq (by rw [hij])
  · intro p hp a ha
    obtain ⟨i, rfl, hi⟩ := hrep.onChain hp
    have hin := (hrep.frameAt hi).1 ha
    omega
  · intro va hva
    by_cases hprog : va / 0x400000 = 32
    · have htrans := h.userTranslate_program hs hprog
      rw [show u.core.paging = u.kernel.paging from rfl] at htrans
      rw [htrans]
      simp only [Option.isSome_some, true_iff]
      exact Or.inl (by omega)
    · have hsome := h.userTranslate_isSome hprog
      rw [show u.core.paging = u.kernel.paging from rfl] at hsome
      rw [hsome]
      constructor
      · exact Or.inr
      · rintro (hrange | hmem)
        · omega
        · exact hmem

/-- A shell that starts on a small machine is isolated. -/
theorem isolated_of_shell : ∃ u, run (step (sampleMachine [shellDentry]))
    (bootSystem (sampleMachine [shellDentry])) [.execute sampleEnv (some shellName)] = some u ∧
      Isolated (sampleMachine [shellDentry]) u.kernel := by
  have h : (run (step (sampleMachine [shellDentry])) (bootSystem (sampleMachine [shellDentry]))
      [.execute sampleEnv (some shellName)]).any
        (fun u => decide (u.kernel.currProc u.kernel.currActiveTerm ≠ 0)) = true := by
    decide +kernel
  obtain ⟨u, hu, hproc⟩ := (Option.any_eq_true _ _).1 h
  exact ⟨u, hu, isolated_of_run (bootSystem_boot _) (by decide +kernel) hu
    (of_decide_eq_true hproc)⟩

/-- Without the bound on the arguments a process gets a number that is not its own: the process in
    slot 1 has number 0x7f, and its page is not the one of that number. -/
theorem isolated_overrun : ¬ ∀ (M : Machine) (s u : System) (as : List Action), Boot M s →
    (∀ a ∈ as, a.managesProcesses = true) → run (step M) s as = some u →
      u.kernel.currProc u.kernel.currActiveTerm ≠ 0 → Isolated M u.kernel := by
  intro h
  have hrun : (run (step (sampleMachine [shellDentry])) (bootSystem (sampleMachine [shellDentry]))
      overrunRun).any (fun u => decide (u.kernel.currProc u.kernel.currActiveTerm ≠ 0 ∧
        (∀ i, Pcb.procNum (u.kernel.kernelStack i) ≠ 1) ∧
        u.kernel.paging.userTranslate 0x412000 0x08000000 = some 0xC00000)) = true := by
    decide +kernel
  obtain ⟨u, hu, hfacts⟩ := (Option.any_eq_true _ _).1 hrun
  obtain ⟨hproc, hnum, htrans⟩ := of_decide_eq_true hfacts
  obtain ⟨i, -, hmapped⟩ := (h _ _ u _ (bootSystem_boot _)
    (by simp [overrunRun, Action.managesProcesses]) hu hproc).running
  have hclaim := hmapped.translate 0 (by omega)
  have haddr := Option.some.inj (htrans.symm.trans hclaim)
  exact hnum i (by omega)

end Gyarados

import Gyarados.Kernel.ProcessTable

set_option autoImplicit false

/-! # The process-table invariant

The chains of PCBs, the mask and the two pointer arrays agree in every state that a run reaches,
as long as no launch overruns a buffer. Both overruns do break it: arguments of 64 bytes and more
run from `args` into `proc_num`, and a program that does not fit its page faults when its bit in
the mask is already set. -/

namespace Gyarados

/-- The number in the PCB at `p`. -/
def Kernel.procNumAt (k : Kernel) (p : Nat) : Option Nat :=
  (slotAt p).map fun i => Pcb.procNum (k.kernelStack i)

/-- The PCB at `p` lies on a chain. -/
def Kernel.OnChain (k : Kernel) (p : Nat) : Prop :=
  ∃ t ps, Links 0 k.prevOf (k.currProc t) ps ∧ p ∈ ps

/-- The three chains `curr_proc[t], curr_proc[t]->prev, ...` are the lists `chain t`, and the mask
    and `prev_proc` agree with them. -/
structure ChainInvariant (k : Kernel) (chain : Term → List Nat) : Prop where
  links : ∀ t, Links 0 k.prevOf (k.currProc t) (chain t)
  pcbs : ∀ t, ∀ p ∈ chain t, (slotAt p).isSome
  nodup : ∀ t, (chain t).Nodup
  disjoint : ∀ t u, t ≠ u → ∀ p ∈ chain t, p ∉ chain u
  procNum_unique : ∀ t u, ∀ p ∈ chain t, ∀ q ∈ chain u, k.procNumAt p = k.procNumAt q → p = q
  mask : ∀ i < 7, k.currProcIdMask &&& 0x80 >>> i ≠ 0 ↔
    ∃ t, ∃ p ∈ chain t, k.procNumAt p = some i
  mask_unused : k.currProcIdMask &&& 0x01 = 0
  prevProc : ∀ t, k.prevProc t = if k.currProc t = 0 then 0 else k.prevOf (k.currProc t)

/-- The process table is well formed: the chains end, and everything agrees with them. -/
def ProcessTableOk (k : Kernel) : Prop := ∃ chain, ChainInvariant k chain

theorem and_shiftRight_ne_zero {mask i : Nat} (hi : i ≤ 7) :
    mask &&& 0x80 >>> i ≠ 0 ↔ mask.testBit (7 - i) = true := by
  have hpow : 0x80 >>> i = 2 ^ (7 - i) := by
    rw [Nat.shiftRight_eq_div_pow, show (0x80 : Nat) = 2 ^ 7 from rfl, Nat.pow_div hi (by omega)]
  rw [hpow, Nat.testBit_eq_decide_div_mod_eq, decide_eq_true_eq, Nat.and_two_pow]
  rcases hbit : mask.testBit (7 - i) with _ | _
  · rw [Nat.testBit_eq_decide_div_mod_eq, decide_eq_false_iff_not] at hbit
    simp [hbit]
  · rw [Nat.testBit_eq_decide_div_mod_eq, decide_eq_true_eq] at hbit
    simp [hbit]

theorem core_prevOf (k : Kernel) (kbd : Keyboard) : (k.core kbd).prevOf = k.prevOf := rfl

theorem Represents.procNumAt_of_mem {k : Kernel} {kbd : Keyboard} {F : ProcessTable}
    (h : Represents (k.core kbd) F) {t : Term} {i : Slot} (hi : i ∈ F.stack t) :
    k.procNumAt (pcbAddr i) = some i.val := by
  have hnum : Pcb.procNum (k.kernelStack i) = i := h.procNum i ⟨t, hi⟩
  simp [Kernel.procNumAt, hnum]

/-- A core that represents a process table has it on its chains. -/
theorem Represents.chainInvariant {k : Kernel} {kbd : Keyboard} {F : ProcessTable}
    (h : Represents (k.core kbd) F) : ChainInvariant k fun t => (F.stack t).map pcbAddr where
  links := h.chain
  pcbs t p hp := by
    obtain ⟨i, -, rfl⟩ := List.mem_map.1 hp
    simp
  nodup t := (F.nodup t).map pcbAddr_injective
  disjoint t u htu p hp hp' := by
    obtain ⟨i, hi, rfl⟩ := List.mem_map.1 hp
    obtain ⟨j, hj, hij⟩ := List.mem_map.1 hp'
    obtain rfl := pcbAddr_injective hij
    exact F.disjoint t u htu j hi hj
  procNum_unique t u p hp q hq hpq := by
    obtain ⟨i, hi, rfl⟩ := List.mem_map.1 hp
    obtain ⟨j, hj, rfl⟩ := List.mem_map.1 hq
    rw [h.procNumAt_of_mem hi, h.procNumAt_of_mem hj] at hpq
    rw [Fin.ext (Option.some.inj hpq)]
  mask i hi := by
    rw [and_shiftRight_ne_zero (by omega)]
    have hmask := h.mask ⟨i, hi⟩
    rw [show (k.core kbd).mask = k.currProcIdMask from rfl] at hmask
    rw [hmask]
    constructor
    · rintro ⟨t, ht⟩
      exact ⟨t, _, List.mem_map_of_mem ht, h.procNumAt_of_mem ht⟩
    · rintro ⟨t, p, hp, hnum⟩
      obtain ⟨j, hj, rfl⟩ := List.mem_map.1 hp
      rw [h.procNumAt_of_mem hj] at hnum
      obtain rfl := Option.some.inj hnum
      exact ⟨t, hj⟩
  mask_unused := by
    have hzero := h.mask_zero
    rw [show (k.core kbd).mask = k.currProcIdMask from rfl] at hzero
    by_contra hne
    rw [show (0x01 : Nat) = 0x80 >>> 7 from rfl] at hne
    rw [(and_shiftRight_ne_zero le_rfl).1 hne] at hzero
    simp at hzero
  prevProc t := by
    have hchain := h.chain t
    have hprev : k.prevProc t = topAddr (F.stack t).tail := h.prevProc t
    have hcurr : k.currProc t = topAddr (F.stack t) := h.currProc t
    rw [hprev]
    rw [core_prevOf] at hchain
    cases hs : F.stack t with
    | nil =>
        rw [hcurr, hs, topAddr, if_pos rfl]
        rfl
    | cons i rest =>
        rw [hs, List.map_cons] at hchain
        have htop := topAddr_of_links hchain.tail
        rw [hcurr, hs, topAddr, if_neg (pcbAddr_ne_null i), htop]
        rfl

/-- **The process table stays well formed** in every run from the boot whose launches stay inside
    their buffers. -/
theorem processTable_of_run {M : Machine} {s u : System} {as : List Action} (hboot : Boot M s)
    (hfits : AllSteps (step M) (Action.LaunchFits M) s as) (hrun : run (step M) s as = some u) :
    ProcessTableOk u.kernel := by
  obtain ⟨F, h⟩ := consistent_of_run hboot hfits hrun
  exact ⟨_, h.represents.chainInvariant⟩

/-- A shell that starts on a small machine. -/
theorem processTable_of_shell : ∃ u, run (step (sampleMachine [shellDentry]))
    (bootSystem (sampleMachine [shellDentry])) [.execute sampleEnv (some shellName)] = some u ∧
      ProcessTableOk u.kernel := by
  obtain ⟨u, hu⟩ := Option.isSome_iff_exists.1 (show (run (step (sampleMachine [shellDentry]))
    (bootSystem (sampleMachine [shellDentry])) [.execute sampleEnv (some shellName)]).isSome by
      decide +kernel)
  exact ⟨u, hu, processTable_of_run (bootSystem_boot _) (by decide +kernel) hu⟩

/-- The command `shell` with an argument of 64 bytes. -/
def overrunCommand : CString := ⟨shellName.val ++ [32] ++ List.replicate 64 97, by decide⟩

/-- A shell started from the first one with an argument of 64 bytes: there is no NUL before the header
    of the file, and its first byte becomes the process number. -/
def overrunRun : List Action :=
  [.execute sampleEnv (some shellName), .execute sampleEnv (some overrunCommand)]

theorem run_overrunRun : ∃ u, run (step (sampleMachine [shellDentry]))
    (bootSystem (sampleMachine [shellDentry])) overrunRun = some u ∧
      u.kernel.currProcIdMask = 0xC0 ∧ ∀ i, Pcb.procNum (u.kernel.kernelStack i) ≠ 1 := by
  have h : (run (step (sampleMachine [shellDentry])) (bootSystem (sampleMachine [shellDentry]))
      overrunRun).any (fun u => decide (u.kernel.currProcIdMask = 0xC0 ∧
        ∀ i, Pcb.procNum (u.kernel.kernelStack i) ≠ 1)) = true := by
    decide +kernel
  obtain ⟨u, hu, h⟩ := (Option.any_eq_true _ _).1 h
  exact ⟨u, hu, of_decide_eq_true h⟩

/-- Without the bound on the arguments the table breaks: bit 1 of the mask is set, and no PCB has
    number 1. -/
theorem processTable_overrun : ¬ ∀ (M : Machine) (s u : System) (as : List Action), Boot M s →
    (∀ a ∈ as, a.managesProcesses = true) → run (step M) s as = some u →
      ProcessTableOk u.kernel := by
  intro h
  obtain ⟨u, hu, hmask, hnum⟩ := run_overrunRun
  obtain ⟨chain, hchain⟩ := h _ _ u _ (bootSystem_boot _) (by simp [overrunRun,
    Action.managesProcesses]) hu
  obtain ⟨t, p, -, hp⟩ := (hchain.mask 1 (by omega)).1 (by rw [hmask]; decide)
  obtain ⟨i, -, hi⟩ := Option.map_eq_some_iff.1 hp
  exact hnum i hi

end Gyarados

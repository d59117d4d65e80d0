import Gyarados.Kernel.Effects

set_option autoImplicit false

/-! # The PCB of a new process

What `execute` leaves in the PCB it sets up, field by field. The process number and the base are
written before the arguments are copied, the descriptors and the link to the parent after: only
the first two need the arguments to fit. -/

namespace Gyarados

theorem clearFd_of_le (m : Memory) {fd a : Nat} (ha : 48 * fd + 16 ≤ a) : clearFd fd m a = m a := by
  simp only [clearFd, Pcb.setFlags, Pcb.setFilePosition, Pcb.setInode, Pcb.setOperationsPointer]
  rw [Memory.setWord_of_disjoint _ _ (by omega), Memory.setWord_of_disjoint _ _ (by omega),
    Memory.setWord_of_disjoint _ _ (by omega), Memory.setWord_of_disjoint _ _ (by omega)]

theorem flags_clearFd_self (m : Memory) (fd : Nat) : Pcb.flags (clearFd fd m) fd = 0 :=
  Memory.word_setWord _ _ _

/-- Clearing a descriptor does not take another one into use. -/
theorem flags_clearFd_of_zero {m : Memory} (fd fd' : Nat) (h : Pcb.flags m fd = 0) :
    Pcb.flags (clearFd fd' m) fd = 0 := by
  simp only [clearFd, Pcb.flags, Pcb.setFlags, Pcb.setFilePosition, Pcb.setInode,
    Pcb.setOperationsPointer] at h ⊢
  rw [Memory.word_setWord_aligned _ _ (by omega) (by omega)]
  split
  · rfl
  · rw [Memory.word_setWord_of_disjoint _ _ (by omega),
      Memory.word_setWord_of_disjoint _ _ (by omega),
      Memory.word_setWord_of_disjoint _ _ (by omega), h]

/-- Clearing the descriptors leaves the rest of the PCB alone. -/
theorem clearFds_of_le (m : Memory) {a : Nat} (ha : 384 ≤ a) : clearFds m a = m a := by
  have hfold : ∀ (fds : List Nat) (m : Memory), (∀ fd ∈ fds, fd < 8) →
      fds.foldl (fun m fd => clearFd fd m) m a = m a := by
    intro fds
    induction fds with
    | nil => intro m _; rfl
    | cons fd fds ih =>
        intro m hfds
        have hfd := hfds fd List.mem_cons_self
        rw [List.foldl_cons, ih _ fun fd' h => hfds fd' (List.mem_cons_of_mem _ h),
          clearFd_of_le m (by omega)]
  exact hfold _ m fun fd h => List.mem_range.1 h

/-- The flags of every descriptor are cleared. -/
theorem flags_clearFds (m : Memory) {fd : Nat} (hfd : fd < 8) : Pcb.flags (clearFds m) fd = 0 := by
  have hfold : ∀ (fds : List Nat) (m : Memory), (fd ∈ fds ∨ Pcb.flags m fd = 0) →
      Pcb.flags (fds.foldl (fun m fd => clearFd fd m) m) fd = 0 := by
    intro fds
    induction fds with
    | nil =>
        intro m h
        exact h.resolve_left (by simp)
    | cons fd' fds ih =>
        intro m h
        rw [List.foldl_cons]
        refine ih _ ?_
        rcases h with h | h
        · rcases List.mem_cons.1 h with rfl | h
          · exact Or.inr (flags_clearFd_self m _)
          · exact Or.inl h
        · exact Or.inr (flags_clearFd_of_zero fd fd' h)
  exact hfold _ m (Or.inl (List.mem_range.2 hfd))

/-- Opening the terminal descriptors leaves everything from descriptor 2 on alone. -/
theorem openStd_of_le (M : Machine) (m : Memory) {a : Nat} (ha : 96 ≤ a) : openStd M m a = m a := by
  simp only [openStd, Pcb.setFlags, Pcb.setInode, Pcb.setOperationsPointer]
  rw [Memory.setWord_of_disjoint _ _ (by omega), Memory.setWord_of_disjoint _ _ (by omega),
    Memory.setWord_of_disjoint _ _ (by omega), Memory.setWord_of_disjoint _ _ (by omega),
    Memory.setWord_of_disjoint _ _ (by omega)]

/-- The two words of `setSched` and nothing else. -/
theorem setSched_of_disjoint (m : Memory) (esp ebp : Nat) {a : Nat} (ha : a < 472 ∨ 480 ≤ a) :
    Pcb.setSched m esp ebp a = m a := by
  rw [Pcb.setSched, Memory.setWord_of_disjoint _ _ (by omega),
    Memory.setWord_of_disjoint _ _ (by omega)]

theorem pSchedKsp_setSched (m : Memory) (esp ebp : Nat) :
    Pcb.pSchedKsp (Pcb.setSched m esp ebp) = esp % 0x100000000 := by
  rw [Pcb.pSchedKsp, Pcb.setSched, Memory.word_setWord_of_disjoint _ _ (by omega),
    Memory.word_setWord]

theorem pSchedKbp_setSched (m : Memory) (esp ebp : Nat) :
    Pcb.pSchedKbp (Pcb.setSched m esp ebp) = ebp % 0x100000000 := by
  rw [Pcb.pSchedKbp, Pcb.setSched, Memory.word_setWord]

/-- What `execute` copies after a shorter name is the text in `temp_arg`, when that ends there. -/
theorem stringAt_argSource (M : Machine) (e : ExecEnv) {fName : List UInt8} {tempArg : Memory}
    (hname : fName.length ≠ 32) (h : (tempArg.stringAt 0 0x2000).length < 64) :
    (argSource M e fName tempArg).stringAt 0 0x2000 = tempArg.stringAt 0 0x2000 := by
  refine Memory.stringAt_congr_of_length_lt 0x2000 0 64 (by decide) h fun i _ hi => ?_
  rw [argSource, if_neg (fun hnul => hname hnul.2), if_pos (by omega)]

/-- After a name of 32 bytes nothing is copied. -/
theorem length_stringAt_argSource (M : Machine) (e : ExecEnv) (fName : List UInt8) {tempArg : Memory}
    (h : (tempArg.stringAt 0 0x2000).length < 64) :
    ((argSource M e fName tempArg).stringAt 0 0x2000).length < 64 := by
  by_cases hname : fName.length = 32
  · have hnil : (argSource M e fName tempArg).stringAt 0 0x2000 = [] :=
      Memory.stringAt_eq_nil.2 (if_pos ⟨rfl, hname⟩)
    rw [hnil]
    decide
  · rwa [stringAt_argSource M e hname h]

variable {M : Machine} {e : ExecEnv} {slot : Slot} {base prev : Nat} {source m m' : Memory}

theorem flags_initPcb (h : initPcb M e slot base prev source m = some m') {fd : Nat} (h2 : 2 ≤ fd)
    (h8 : fd < 8) : Pcb.flags m' fd = 0 := by
  obtain ⟨m₁, -, rfl⟩ := Option.map_eq_some_iff.1 h
  rw [← flags_clearFds m₁ h8]
  refine Memory.word_congr ?_
  intro a ha ha'
  rw [setSched_of_disjoint _ _ _ (by omega), Memory.setWord_of_disjoint _ _ (by omega),
    openStd_of_le M _ (by omega)]

/-- The terminal descriptors are in use. -/
theorem flags_initPcb_std (h : initPcb M e slot base prev source m = some m') {fd : Nat}
    (hfd : fd < 2) : Pcb.flags m' fd = 1 := by
  obtain ⟨m₁, -, rfl⟩ := Option.map_eq_some_iff.1 h
  have hopen : Pcb.flags (openStd M (clearFds m₁)) fd = 1 := by
    simp only [openStd, Pcb.flags, Pcb.setFlags, Pcb.setInode, Pcb.setOperationsPointer]
    obtain rfl | rfl : fd = 0 ∨ fd = 1 := by omega
    · rw [Memory.word_setWord_of_disjoint _ _ (by omega),
        Memory.word_setWord_of_disjoint _ _ (by omega),
        Memory.word_setWord_of_disjoint _ _ (by omega), Memory.word_setWord]
    · rw [Memory.word_setWord]
  rw [← hopen]
  refine Memory.word_congr ?_
  intro a ha ha'
  rw [setSched_of_disjoint _ _ _ (by omega), Memory.setWord_of_disjoint _ _ (by omega)]

/-- Descriptor 0 reads from the terminal. -/
theorem operationsPointer_initPcb (h : initPcb M e slot base prev source m = some m') :
    Pcb.operationsPointer m' 0 = M.opsAddr .stdin := by
  obtain ⟨m₁, -, rfl⟩ := Option.map_eq_some_iff.1 h
  have hword : ∀ a, a < 4 → Pcb.setSched ((openStd M (clearFds m₁)).setWord 484 prev) e.esp e.ebp a =
      Pcb.setOperationsPointer (clearFds m₁) 0 (M.opsAddr .stdin) a := by
    intro a ha
    rw [setSched_of_disjoint _ _ _ (by omega), Memory.setWord_of_disjoint _ _ (by omega)]
    simp only [openStd, Pcb.setFlags, Pcb.setInode]
    rw [Memory.setWord_of_disjoint _ _ (by omega), Memory.setWord_of_disjoint _ _ (by omega)]
    rw [Pcb.setOperationsPointer, Memory.setWord_of_disjoint _ _ (by omega),
      Memory.setWord_of_disjoint _ _ (by omega)]
  refine (Memory.word_congr fun a _ ha => hword a (by omega)).trans ?_
  rw [Pcb.setOperationsPointer, Memory.word_setWord, Nat.mod_eq_of_lt (M.opsAddr_lt .stdin)]

theorem prev_initPcb (h : initPcb M e slot base prev source m = some m') (hp : prev < 0x100000000) :
    Pcb.prev m' = prev := by
  obtain ⟨m₁, -, rfl⟩ := Option.map_eq_some_iff.1 h
  have hprev : Pcb.prev (Pcb.setSched ((openStd M (clearFds m₁)).setWord 484 prev) e.esp e.ebp) =
      ((openStd M (clearFds m₁)).setWord 484 prev).word 484 :=
    Memory.word_congr fun a ha ha' => setSched_of_disjoint _ _ _ (by omega)
  rw [hprev, Memory.word_setWord, Nat.mod_eq_of_lt hp]

/-- From the arguments to the base, a new PCB holds what was written up to the copy of the arguments. -/
theorem initPcb_bytes (h : initPcb M e slot base prev source m = some m') {a : Nat} (ha : 384 ≤ a)
    (ha' : a < 464) :
    m' a = ((((m.setWord 464 e.esp).setWord 468 e.ebp).setByte 448 (UInt8.ofNat slot)).setWord 452
      base).writeBytes 384 (source.stringAt 0 0x2000 ++ [0]) a := by
  obtain ⟨m₁, hcpy, rfl⟩ := Option.map_eq_some_iff.1 h
  rw [setSched_of_disjoint _ _ _ (by omega), Memory.setWord_of_disjoint _ _ (by omega),
    openStd_of_le M _ (by omega), clearFds_of_le _ (by omega)]
  unfold Pcb.strcpy at hcpy
  split at hcpy
  · obtain rfl := Option.some.inj hcpy
    rfl
  · simp at hcpy

/-- From the process number to the base, a new PCB holds what was written before the arguments. -/
theorem initPcb_procNum_bytes (h : initPcb M e slot base prev source m = some m')
    (hargs : (source.stringAt 0 0x2000).length < 64) {a : Nat} (ha : 448 ≤ a) (ha' : a < 464) :
    m' a = (((m.setWord 464 e.esp).setWord 468 e.ebp).setByte 448 (UInt8.ofNat slot)).setWord 452
      base a := by
  rw [initPcb_bytes h (by omega) ha', Memory.writeBytes_of_disjoint _ _]
  rw [List.length_append, List.length_singleton]
  omega

theorem procNum_initPcb (h : initPcb M e slot base prev source m = some m')
    (hargs : (source.stringAt 0 0x2000).length < 64) : Pcb.procNum m' = slot := by
  have hbyte := initPcb_procNum_bytes h hargs (a := 448) (by omega) (by omega)
  rw [Memory.setWord_of_disjoint _ _ (by omega), Memory.setByte_self] at hbyte
  rw [Pcb.procNum, hbyte]
  have := slot.isLt
  simp
  omega

theorem base_initPcb (h : initPcb M e slot base prev source m = some m')
    (hargs : (source.stringAt 0 0x2000).length < 64) (hb : base < 0x100000000) :
    Pcb.base m' = base := by
  have hword : Pcb.base m' = _ :=
    Memory.word_congr fun a ha ha' => initPcb_procNum_bytes h hargs (by omega) (by omega)
  rw [hword, Memory.word_setWord, Nat.mod_eq_of_lt hb]

theorem frameBase_lt (i : Slot) : frameBase i < 0x100000000 := by
  revert i
  decide

end Gyarados

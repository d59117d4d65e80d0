import Gyarados.Kernel.Chains
import Gyarados.Kernel.Descriptors

set_option autoImplicit false

/-! # Open files

History keeps, for each process, the directory entry that each descriptor was opened on. A
descriptor in use has the operation table of that entry's type, its inode pointer is the one
`open` computed for it, and its name finds the entry again. -/

namespace Gyarados

/-- For each slot that has held a process, the entries its descriptors were opened on. -/
abbrev OpenHistory := Slot → Option (Nat → Option Dentry)

/-- A new process has no open files. -/
def OpenHistory.afterCall (g : OpenHistory) (t : System) : CallOutcome → OpenHistory
  | .launched _ =>
      match t.kernel.currSlot with
      | some slot => Function.update g slot (some fun _ => none)
      | none => g
  | _ => g

def OpenHistory.afterSwitch (g : OpenHistory) (t : System) : SwitchOutcome → OpenHistory
  | .started how => g.afterCall t how
  | _ => g

/-- `open` has returned `ret` for a name that belongs to `fileInfo`. -/
def OpenHistory.afterOpen (g : OpenHistory) (s : System) (fileInfo : Option Dentry) (ret : Int) :
    OpenHistory :=
  match s.kernel.currSlot with
  | some i =>
      if ret = -1 then g
      else Function.update g i ((g i).map fun opened => Function.update opened ret.toNat fileInfo)
  | none => g

def noteOpened (M : Machine) (s : System) (a : Action) (t : System) (g : OpenHistory) :
    Option OpenHistory :=
  match a with
  | .execute e command => (callExecute M e command s).map fun (out, _) => g.afterCall t out
  | .function next r e => (keyF M next r e s).map fun (out, _) => g.afterSwitch t out
  | .openFile (some filename) =>
      (openFd M (some filename) s.kernel).map fun (ret, _) =>
        g.afterOpen s (M.readDentryByName filename.val) ret
  | _ => some g

/-- The system with the files opened as history. -/
def stepOpened (M : Machine) : System × OpenHistory → Action → Option (System × OpenHistory) :=
  withGhost (step M) (noteOpened M)

theorem exists_noteOpened {M : Machine} {s t : System} {a : Action} (g : OpenHistory)
    (h : step M s a = some t) : ∃ g', noteOpened M s a t g = some g' := by
  cases a with
  | execute e command =>
      obtain ⟨⟨out, t'⟩, hcall, -⟩ := Option.map_eq_some_iff.1 h
      exact ⟨_, by rw [noteOpened, hcall]; rfl⟩
  | function next r e =>
      obtain ⟨⟨out, t'⟩, hkey, -⟩ := Option.map_eq_some_iff.1 h
      exact ⟨_, by rw [noteOpened, hkey]; rfl⟩
  | openFile filename =>
      cases filename with
      | none => exact ⟨g, rfl⟩
      | some filename =>
          obtain ⟨⟨ret, k⟩, hopen, -⟩ := Option.map_eq_some_iff.1 h
          exact ⟨_, by rw [noteOpened, hopen]; rfl⟩
  | _ => exact ⟨g, rfl⟩

/-- Every run has this history. -/
theorem exists_run_stepOpened {M : Machine} {s u : System} {as : List Action}
    (h : run (step M) s as = some u) (g : OpenHistory) :
    ∃ g', run (stepOpened M) (s, g) as = some (u, g') := by
  refine exists_run_withGhost (fun s a t g hstep => ?_) h g
  exact exists_noteOpened g hstep

/-- A link is NULL or leads to a slot that has held a process. -/
def Known (g : OpenHistory) (p : Nat) : Prop := p = 0 ∨ ∃ i, (g i).isSome = true ∧ pcbAddr i = p

/-- **The invariant.** All links lead to PCBs that `execute` has set up, and their descriptors are
    free or open on the entry in the history; descriptor 0 reads from the terminal as long as it
    has a table. -/
structure OpenFiles (M : Machine) (c : Core) (g : OpenHistory) : Prop where
  currProc : ∀ t, Known g (c.currProc t)
  prevProc : ∀ t, Known g (c.prevProc t)
  prev : ∀ i, (g i).isSome = true → Known g (Pcb.prev (c.pcb i))
  fds : ∀ i opened, g i = some opened → ∀ fd, 2 ≤ fd → fd < 8 → FdOk M (c.pcb i) fd (opened fd)
  std : ∀ i, (g i).isSome = true → Pcb.operationsPointer (c.pcb i) 0 = M.opsAddr .stdin ∨
    Pcb.operationsPointer (c.pcb i) 0 = 0

theorem Known.lt {g : OpenHistory} {p : Nat} (h : Known g p) : p < 0x100000000 := by
  rcases h with rfl | ⟨i, -, rfl⟩
  · omega
  · exact pcbAddr_lt i

theorem Known.isSome {g : OpenHistory} {p : Nat} {i : Slot} (h : Known g p)
    (hi : slotAt p = some i) : (g i).isSome = true := by
  rcases h with rfl | ⟨j, hj, rfl⟩
  · simp at hi
  · rw [slotAt_pcbAddr] at hi
    obtain rfl := Option.some.inj hi
    exact hj

/-- A new process makes its slot known. -/
theorem Known.update {g : OpenHistory} {p : Nat} (h : Known g p) (i : Slot)
    (opened : Nat → Option Dentry) : Known (Function.update g i (some opened)) p := by
  rcases h with rfl | ⟨j, hj, rfl⟩
  · exact Or.inl rfl
  · refine Or.inr ⟨j, ?_, rfl⟩
    by_cases hji : j = i
    · subst hji
      simp
    · rwa [Function.update_of_ne hji]

namespace OpenFiles

variable {M : Machine} {c c' : Core} {g : OpenHistory}

theorem boot {s : System} (h : Boot M s) : OpenFiles M s.core (fun _ => none) where
  currProc t := Or.inl (h.currProc t)
  prevProc t := Or.inl (h.prevProc t)
  prev i hi := by simp at hi
  fds i opened hi := by simp at hi
  std i hi := by simp at hi

/-- The invariant is about the links and the PCBs. -/
theorem congr (h : OpenFiles M c g) (hcurr : c'.currProc = c.currProc)
    (hprev : c'.prevProc = c.prevProc) (hpcb : c'.pcb = c.pcb) : OpenFiles M c' g :=
  ⟨hcurr ▸ h.1, hprev ▸ h.2, hpcb ▸ h.3, hpcb ▸ h.4, hpcb ▸ h.5⟩

theorem setPcb (h : OpenFiles M c g) {i : Slot} {m : Memory} (hm : FdsKept (c.pcb i) m) :
    OpenFiles M (c.setPcb i m) g where
  currProc := h.currProc
  prevProc := h.prevProc
  prev j hj := by
    by_cases hji : j = i
    · subst hji
      have hprev : Pcb.prev m = Pcb.prev (c.pcb j) := hm.sameControl.word (by omega)
      simpa [Core.setPcb, hprev] using h.prev j hj
    · simpa [Core.setPcb, hji] using h.prev j hj
  fds j opened hj fd h2 h8 := by
    by_cases hji : j = i
    · subst hji
      simpa [Core.setPcb] using (h.fds j opened hj fd h2 h8).kept h8 (hm.kept fd h2 h8)
    · simpa [Core.setPcb, hji] using h.fds j opened hj fd h2 h8
  std j hj := by
    by_cases hji : j = i
    · subst hji
      rw [show (c.setPcb j m).pcb j = m from Function.update_self ..]
      rcases hm.std with hsame | hnull
      · rw [hsame]
        exact h.std j hj
      · exact Or.inr hnull
    · simpa [Core.setPcb, hji] using h.std j hj

theorem fdEffect (h : OpenFiles M c g) (he : FdEffect FdsKept c c') : OpenFiles M c' g := by
  cases he with
  | none => exact h
  | pcb _ hm => exact h.setPcb hm

theorem haltEffect (h : OpenFiles M c g) {out : HaltOutcome} (he : HaltEffect c out c') :
    OpenFiles M c' g := by
  cases he with
  | returned => exact h
  | restarted => exact h
  | @resumed i j m hi _ hj hm =>
      have h₁ := h.setPcb hm
      refine ⟨?_, ?_, h₁.prev, h₁.fds, h₁.std⟩
      · intro t
        by_cases ht : t = c.running
        · subst ht
          simpa [Core.exit] using h.prevProc c.running
        · simpa [Core.exit, ht] using h.currProc t
      · intro t
        by_cases ht : t = c.running
        · subst ht
          simpa [Core.exit, Core.setPcb] using h₁.prev j ((h.prevProc _).isSome hj)
        · simpa [Core.exit, ht] using h.prevProc t

/-- A new PCB is known, and its descriptors are free. -/
theorem launch (h : OpenFiles M c g) {e : ExecEnv} {slot : Slot} {tempArg m : Memory}
    (hm : initPcb M e slot (frameBase slot) (c.currProc c.running) tempArg (c.pcb slot) = some m) :
    OpenFiles M (c.launch slot m) (Function.update g slot (some fun _ => none)) where
  currProc t := by
    by_cases ht : t = c.running
    · subst ht
      exact Or.inr ⟨slot, by simp, by simp [Core.launch]⟩
    · simpa [Core.launch, ht] using (h.currProc t).update slot _
  prevProc t := by
    by_cases ht : t = c.running
    · subst ht
      simpa [Core.launch] using (h.currProc c.running).update slot _
    · simpa [Core.launch, Core.reserve, ht] using (h.prevProc t).update slot _
  prev i hi := by
    by_cases his : i = slot
    · subst his
      have hprev := prev_initPcb hm (h.currProc _).lt
      simpa [Core.launch, hprev] using (h.currProc c.running).update i _
    · rw [Function.update_of_ne his] at hi
      simpa [Core.launch, Core.reserve, his] using (h.prev i hi).update slot _
  fds i opened hi fd h2 h8 := by
    by_cases his : i = slot
    · subst his
      exact Or.inl (by simpa [Core.launch] using flags_initPcb hm h2 h8)
    · rw [Function.update_of_ne his] at hi
      simpa [Core.launch, Core.reserve, his] using h.fds i opened hi fd h2 h8
  std i hi := by
    by_cases his : i = slot
    · subst his
      exact Or.inl (by simpa [Core.launch] using operationsPointer_initPcb hm)
    · rw [Function.update_of_ne his] at hi
      simpa [Core.launch, Core.reserve, his] using h.std i hi

theorem save (h : OpenFiles M c g) (i : Slot) (r : Regs) : OpenFiles M (c.save i r) g where
  currProc := h.currProc
  prevProc := h.prevProc
  prev j hj := by
    by_cases hji : j = i
    · subst hji
      have hprev : Pcb.prev (Pcb.setSched (c.pcb j) r.esp r.ebp) = Pcb.prev (c.pcb j) :=
        Memory.word_congr fun a _ _ => setSched_of_disjoint _ _ _ (by omega)
      simpa [Core.save, Core.setPcb, hprev] using h.prev j hj
    · simpa [Core.save, Core.setPcb, hji] using h.prev j hj
  fds j opened hj fd h2 h8 := by
    by_cases hji : j = i
    · subst hji
      have hkept : FdKept fd (c.pcb j) (Pcb.setSched (c.pcb j) r.esp r.ebp) :=
        SameFd.kept fun a _ _ => setSched_of_disjoint _ _ _ (by omega)
      simpa [Core.save, Core.setPcb] using (h.fds j opened hj fd h2 h8).kept h8 hkept
    · simpa [Core.save, Core.setPcb, hji] using h.fds j opened hj fd h2 h8
  std j hj := by
    by_cases hji : j = i
    · subst hji
      have hops : Pcb.operationsPointer (Pcb.setSched (c.pcb j) r.esp r.ebp) 0 =
          Pcb.operationsPointer (c.pcb j) 0 :=
        Memory.word_congr fun a _ _ => setSched_of_disjoint _ _ _ (by omega)
      simpa [Core.save, Core.setPcb, hops] using h.std j hj
    · simpa [Core.save, Core.setPcb, hji] using h.std j hj

theorem callEffect (h : OpenFiles M c g) {t : System} (ht : t.core = c') {e : ExecEnv}
    {command : Option CString} {out : CallOutcome} (he : CallEffect M e command c out c') :
    OpenFiles M c' (g.afterCall t out) := by
  cases he with
  | returned => exact h
  | @launched fName entry slot tempArg m _ _ hm =>
      have hslot : t.kernel.currSlot = some slot := by
        rw [← Core.currSlot_launch c slot m, ← ht]
        rfl
      simp only [OpenHistory.afterCall, hslot]
      exact h.launch hm
  | nullName _ hhalt => exact h.haltEffect hhalt
  | @overrun fName entry slot _ _ _ _ _ hhalt =>
      have hreserve : OpenFiles M (c.reserve slot) g := h.congr rfl rfl rfl
      exact hreserve.haltEffect hhalt

theorem keyFEffect (h : OpenFiles M c g) {t : System} (ht : t.core = c') {next : Term} {r : Regs}
    {e : ExecEnv} {out : SwitchOutcome} (he : KeyFEffect M next r e c out c') :
    OpenFiles M c' (g.afterSwitch t out) := by
  cases he with
  | @started i _ _ _ _ hcall =>
      have hvisit : OpenFiles M (c.visit next) g := h.congr rfl rfl rfl
      exact (hvisit.save i r).callEffect ht hcall
  | ignored => exact h.congr rfl rfl rfl
  | @loaded i j _ _ _ => exact (h.save i r).congr rfl rfl rfl

/-- A descriptor that `open` has filled in is open on the entry the lookup found. -/
theorem openFd (h : OpenFiles M c g) {i : Slot} {fd : Nat} {fileInfo : Dentry} {m : Memory}
    (hi : c.currSlot = some i) (h2 : 2 ≤ fd) (h8 : fd < 8) (hout : OutsideFd fd (c.pcb i) m)
    (hok : FdOk M m fd (some fileInfo)) : OpenFiles M (c.setPcb i m)
      (Function.update g i ((g i).map fun opened => Function.update opened fd (some fileInfo))) := by
  have hknown := (h.currProc c.running).isSome hi
  obtain ⟨opened, hopened⟩ := Option.isSome_iff_exists.1 hknown
  rw [hopened, Option.map_some]
  refine ⟨fun t => (h.currProc t).update i _, fun t => (h.prevProc t).update i _, ?_, ?_, ?_⟩
  · intro j hj
    by_cases hji : j = i
    · subst hji
      have hprev : Pcb.prev m = Pcb.prev (c.pcb j) :=
        Memory.word_congr fun a _ _ => hout a (by omega)
      simpa [Core.setPcb, hprev] using (h.prev j hknown).update j _
    · rw [Function.update_of_ne hji] at hj
      simpa [Core.setPcb, hji] using (h.prev j hj).update i _
  · intro j opened' hj fd' h2' h8'
    by_cases hji : j = i
    · subst hji
      rw [Function.update_self] at hj
      obtain rfl := Option.some.inj hj
      by_cases hfd : fd' = fd
      · subst hfd
        simpa [Core.setPcb] using hok
      · rw [Function.update_of_ne hfd]
        simpa [Core.setPcb] using
          (h.fds j opened hopened fd' h2' h8').kept h8' (hout.sameFd hfd).kept
    · rw [Function.update_of_ne hji] at hj
      simpa [Core.setPcb, hji] using h.fds j opened' hj fd' h2' h8'
  · intro j hj
    by_cases hji : j = i
    · subst hji
      have hops := (hout.sameFd (show 0 ≠ fd by omega)).operationsPointer
      simpa [Core.setPcb, hops] using h.std j hknown
    · rw [Function.update_of_ne hji] at hj
      simpa [Core.setPcb, hji] using h.std j hj

/-- A call of `open` that stays inside its buffers, and what the history makes of it. -/
theorem afterOpen {s : System} {filename : CString} {ret : Int} {k : Kernel}
    (h : OpenFiles M s.core g) (hfits : OpenFits M filename)
    (hopen : Gyarados.openFd M (some filename) s.kernel = some (ret, k)) :
    OpenFiles M ({ s with kernel := k } : System).core
      (g.afterOpen s (M.readDentryByName filename.val) ret) := by
  rcases openFd_cases hfits hopen with ⟨rfl, hcore⟩ |
    ⟨i, fd, fileInfo, table, m, hi, rfl, hfree, hlen, hfound, htable, hout, hopened, hcore⟩
  -- a call that fails leaves the history alone
  · have hg : g.afterOpen s (M.readDentryByName filename.val) (-1) = g := by
      unfold OpenHistory.afterOpen
      split <;> rfl
    have ht : ({ s with kernel := k } : System).core = s.core := congrFun hcore s.tty.kbd
    rw [hg, ht]
    exact h
  · have hret : (fd : Int) ≠ -1 := by omega
    have ht : ({ s with kernel := k } : System).core = s.core.setPcb i m :=
      congrFun hcore s.tty.kbd
    simp only [OpenHistory.afterOpen, hi, if_neg hret, Int.toNat_natCast, hfound, ht]
    exact h.openFd hi (freeFd_mem hfree).1 (freeFd_mem hfree).2 hout
      (hopened.fdOk htable hlen hfound)

/-- **One step preserves the invariant**, if `open` stays inside its buffers. -/
theorem of_step {s t : System} {g g' : OpenHistory} {a : Action} (h : OpenFiles M s.core g)
    (hfits : a.OpenFits M) (hstep : stepOpened M (s, g) a = some (t, g')) :
    OpenFiles M t.core g' := by
  obtain ⟨hstep, hnote⟩ := withGhost_eq_some.1 hstep
  dsimp only at hstep hnote
  have he := step_effect hstep
  cases a with
  | execute e command =>
      obtain ⟨⟨out, t'⟩, hcall, rfl⟩ := Option.map_eq_some_iff.1 hstep
      obtain ⟨⟨out', t''⟩, hcall', rfl⟩ := Option.map_eq_some_iff.1 hnote
      obtain ⟨rfl, -⟩ := Prod.mk.inj (Option.some.inj (hcall.symm.trans hcall'))
      exact h.callEffect rfl (callExecute_effect hcall)
  | halt =>
      obtain ⟨out, he⟩ := he
      obtain rfl := Option.some.inj hnote
      exact h.haltEffect he
  | ctrlC =>
      obtain ⟨out, he⟩ := he
      obtain rfl := Option.some.inj hnote
      exact h.haltEffect he
  | openFile filename =>
      cases filename with
      | none =>
          obtain rfl := Option.some.inj hstep
          obtain rfl := Option.some.inj hnote
          exact h
      | some filename =>
          obtain ⟨⟨ret, k⟩, hopen, rfl⟩ := Option.map_eq_some_iff.1 hstep
          obtain ⟨⟨ret', k'⟩, hopen', rfl⟩ := Option.map_eq_some_iff.1 hnote
          obtain ⟨rfl, -⟩ := Prod.mk.inj (Option.some.inj (hopen.symm.trans hopen'))
          exact h.afterOpen hfits hopen
  | closeFile =>
      obtain rfl := Option.some.inj hnote
      exact h.fdEffect he
  | readFile =>
      obtain rfl := Option.some.inj hnote
      exact h.fdEffect he
  | function next r e =>
      obtain ⟨⟨out, t'⟩, hkey, rfl⟩ := Option.map_eq_some_iff.1 hstep
      obtain ⟨⟨out', t''⟩, hkey', rfl⟩ := Option.map_eq_some_iff.1 hnote
      obtain ⟨rfl, -⟩ := Prod.mk.inj (Option.some.inj (hkey.symm.trans hkey'))
      exact h.keyFEffect rfl (keyF_effect hkey)
  | _ =>
      obtain rfl := Option.some.inj hnote
      rw [show t.core = s.core from he]
      exact h

end OpenFiles

/-- Every entry in the history has property `Q`. -/
def Recorded (Q : Dentry → Prop) (g : OpenHistory) : Prop :=
  ∀ i opened fd fileInfo, g i = some opened → opened fd = some fileInfo → Q fileInfo

namespace Recorded

variable {Q : Dentry → Prop} {g g' : OpenHistory}

theorem afterCall (h : Recorded Q g) (t : System) (out : CallOutcome) :
    Recorded Q (g.afterCall t out) := by
  cases out with
  | launched =>
      simp only [OpenHistory.afterCall]
      split
      · rename_i slot _
        intro i opened fd fileInfo hi hfd
        by_cases his : i = slot
        · subst his
          rw [Function.update_self] at hi
          obtain rfl := Option.some.inj hi
          simp at hfd
        · rw [Function.update_of_ne his] at hi
          exact h i opened fd fileInfo hi hfd
      · exact h
  | _ => exact h

theorem afterOpen (h : Recorded Q g) (s : System) {fileInfo : Option Dentry}
    (hQ : ∀ d, fileInfo = some d → Q d) (ret : Int) : Recorded Q (g.afterOpen s fileInfo ret) := by
  unfold OpenHistory.afterOpen
  split
  · rename_i i _
    split
    · exact h
    · intro j opened fd d hj hfd
      by_cases hji : j = i
      · subst hji
        rw [Function.update_self] at hj
        obtain ⟨opened', hopened', rfl⟩ := Option.map_eq_some_iff.1 hj
        by_cases hret : fd = ret.toNat
        · subst hret
          rw [Function.update_self] at hfd
          exact hQ d hfd
        · rw [Function.update_of_ne hret] at hfd
          exact h j opened' fd d hopened' hfd
      · rw [Function.update_of_ne hji] at hj
        exact h j opened fd d hj hfd
  · exact h

/-- What holds of every entry that `open` finds holds of the history. -/
theorem of_note {M : Machine} {s t : System} {a : Action} (h : Recorded Q g)
    (hQ : ∀ filename d, a = .openFile (some filename) →
      M.readDentryByName filename.val = some d → Q d)
    (hnote : noteOpened M s a t g = some g') : Recorded Q g' := by
  cases a with
  | execute e command =>
      obtain ⟨⟨out, t'⟩, -, rfl⟩ := Option.map_eq_some_iff.1 hnote
      exact h.afterCall t out
  | function next r e =>
      obtain ⟨⟨out, t'⟩, -, rfl⟩ := Option.map_eq_some_iff.1 hnote
      cases out with
      | started how => exact h.afterCall t how
      | _ => exact h
  | openFile filename =>
      cases filename with
      | none =>
          obtain rfl := Option.some.inj hnote
          exact h
      | some filename =>
          obtain ⟨⟨ret, k⟩, -, rfl⟩ := Option.map_eq_some_iff.1 hnote
          exact h.afterOpen s (hQ filename · rfl) ret
  | _ =>
      obtain rfl := Option.some.inj hnote
      exact h

end Recorded

/-! ## Sound descriptors -/

/-- `get_inode` scales the number twice. The two addresses agree when the number is a multiple of
    2^20, as its product with 4096 is then 0 in 32 bits. -/
theorem getInode_eq_iff (I : Image) (inodeNum : Nat) :
    I.getInode inodeNum = (I.inodes + blockSize * inodeNum) % 0x100000000 ↔
      0x100000 ∣ inodeNum := by
  simp only [Image.getInode, blockSize]
  omega

/-- A descriptor in use can be called and describes the entry it was opened on. -/
structure DescriptorSound (M : Machine) (m : Memory) (fd : Nat) (opened : Option Dentry) : Prop where
  exists_entry : ∃ fileInfo table, opened = some fileInfo ∧
    tableFor fileInfo.fileType = some table ∧
    Pcb.operationsPointer m fd ≠ 0 ∧
    M.tableAt (Pcb.operationsPointer m fd) = some table ∧
    (∀ op, (table.entry op).isSome = true) ∧
    (fileInfo.fileType = 2 →
      Pcb.inode m fd = (M.inodes + blockSize * fileInfo.inodeNum) % 0x100000000)

/-- The entry that `open` finds, if it finds one, is of a known type, its name fits `file_name`,
    and the number of a regular file is one for which `get_inode` is right. -/
def OpenExact (M : Machine) (filename : CString) : Prop :=
  match M.readDentryByName filename.val with
  | some fileInfo => fileInfo.fileType ≤ 2 ∧ filename.val.length < 32 ∧
      (fileInfo.fileType = 2 → 0x100000 ∣ fileInfo.inodeNum)
  | none => True

def Action.OpenExact (M : Machine) : Action → Prop
  | .openFile (some filename) => Gyarados.OpenExact M filename
  | _ => True

instance (M : Machine) (filename : CString) : Decidable (OpenExact M filename) :=
  match h : M.readDentryByName filename.val with
  | some fileInfo => decidable_of_iff (fileInfo.fileType ≤ 2 ∧ filename.val.length < 32 ∧
      (fileInfo.fileType = 2 → 0x100000 ∣ fileInfo.inodeNum)) (by simp [OpenExact, h])
  | none => isTrue (by simp [OpenExact, h])

instance (M : Machine) : ∀ a : Action, Decidable (a.OpenExact M)
  | .openFile (some filename) => inferInstanceAs (Decidable (OpenExact M filename))
  | .openFile none | .execute .. | .halt .. | .closeFile .. | .readFile .. | .writeFile .. | .key ..
  | .enter | .backspace | .ctrlC .. | .function .. | .rtcTick => isTrue trivial

theorem Action.OpenExact.openFits {M : Machine} {a : Action} (h : a.OpenExact M) : a.OpenFits M := by
  cases a with
  | openFile filename =>
      cases filename with
      | none => trivial
      | some filename =>
          simp only [Action.OpenExact, Gyarados.OpenExact] at h
          simp only [Action.OpenFits, Gyarados.OpenFits]
          split
          · rename_i hfound
            rw [hfound] at h
            exact ⟨h.1, h.2.1⟩
          · trivial
  | _ => trivial

theorem tableFor_entry {fileType : Nat} {table : OpsTable} (h : tableFor fileType = some table)
    (op : Op) : (table.entry op).isSome = true := by
  unfold tableFor at h
  split at h
  · obtain rfl := Option.some.inj h
    cases op <;> rfl
  · split at h
    · obtain rfl := Option.some.inj h
      cases op <;> rfl
    · split at h
      · obtain rfl := Option.some.inj h
        cases op <;> rfl
      · simp at h

theorem FdOk.sound {M : Machine} {m : Memory} {fd : Nat} {opened : Option Dentry}
    (h : FdOk M m fd opened) (hused : Pcb.flags m fd = 1)
    (hexact : ∀ d, opened = some d → d.fileType = 2 → 0x100000 ∣ d.inodeNum) :
    DescriptorSound M m fd opened := by
  rcases h with hfree | ⟨fileInfo, table, hopened, -, htable, hops, hinode, -, -⟩
  · rw [hfree] at hused
    simp at hused
  · refine ⟨fileInfo, table, hopened, htable, ?_, ?_, tableFor_entry htable, ?_⟩
    · rw [hops]
      exact M.opsAddr_ne_null table
    · rw [hops, Machine.tableAt_opsAddr]
    · intro h2
      rw [hinode, Image.inodeFor, if_pos h2]
      exact (getInode_eq_iff _ _).2 (hexact fileInfo hopened h2)

/-- The PCBs on the chains are known. -/
theorem OpenFiles.known_of_onChain {M : Machine} {k : Kernel} {kbd : Keyboard} {g : OpenHistory}
    (h : OpenFiles M (k.core kbd) g) {i : Slot} (hi : k.OnChain (pcbAddr i)) :
    (g i).isSome = true := by
  obtain ⟨t, ps, hlinks, hmem⟩ := hi
  -- from the head down: the link of a known PCB is known
  have hall : ∀ {p : Nat} {ps : List Nat}, Links 0 k.prevOf p ps → Known g p →
      ∀ q ∈ ps, Known g q := by
    intro p ps hlinks
    induction hlinks with
    | nil => intro _ q hq; simp at hq
    | @cons p ps hp _ ih =>
        intro hknown q hq
        rcases List.mem_cons.1 hq with rfl | hq
        · exact hknown
        · refine ih ?_ q hq
          rcases hknown with hnull | ⟨j, hj, rfl⟩
          · exact absurd hnull hp
          · have hprev := h.prev j hj
            rwa [Kernel.prevOf, slotAt_pcbAddr]
  exact (hall hlinks (h.currProc t) _ hmem).isSome (slotAt_pcbAddr i)

/-- **Every descriptor in use is callable and describes its entry**, for every process and in
    every run from the boot whose opened entries are of a known type, with a name that fits and a
    number that `get_inode` can scale. -/
theorem descriptorSound_of_run {M : Machine} {s u : System} {as : List Action} {g : OpenHistory}
    (hboot : Boot M s)
    (hexact : AllSteps (stepOpened M) (fun _ a => a.OpenExact M) (s, fun _ => none) as)
    (hrun : run (stepOpened M) (s, fun _ => none) as = some (u, g)) {i : Slot}
    (hi : u.kernel.OnChain (pcbAddr i)) : ∃ opened, g i = some opened ∧
      ∀ fd, 2 ≤ fd → fd < 8 → Pcb.flags (u.kernel.kernelStack i) fd = 1 →
        DescriptorSound M (u.kernel.kernelStack i) fd (opened fd) := by
  obtain ⟨hfiles, hrec⟩ := run_invariant
    (P := fun sg => OpenFiles M sg.1.core sg.2 ∧
      Recorded (fun d => d.fileType = 2 → 0x100000 ∣ d.inodeNum) sg.2)
    (fun sg a tg h hok hstep => ⟨h.1.of_step hok.openFits hstep,
      h.2.of_note (M := M) (fun filename d ha hfound => by
        subst ha
        simp only [Action.OpenExact, OpenExact, hfound] at hok
        exact hok.2.2) (withGhost_eq_some.1 hstep).2⟩)
    ⟨OpenFiles.boot hboot, fun _ _ _ _ hi => by simp at hi⟩ hexact hrun
  obtain ⟨opened, hopened⟩ := Option.isSome_iff_exists.1 (hfiles.known_of_onChain hi)
  exact ⟨opened, hopened, fun fd h2 h8 hused =>
    (hfiles.fds i opened hopened fd h2 h8).sound hused fun d hd => hrec i opened fd d hopened hd⟩

/-- A single process is on its chain. -/
theorem onChain_single {k : Kernel} {i : Slot} (hcurr : k.currProc 0 = pcbAddr i)
    (hprev : k.prevOf (pcbAddr i) = 0) : k.OnChain (pcbAddr i) := by
  refine ⟨0, [pcbAddr i], ?_, List.mem_singleton_self _⟩
  rw [hcurr]
  refine .cons (pcbAddr_ne_null i) ?_
  rw [hprev]
  exact .nil

/-- The shell opens the file `shell`, which has inode 0. -/
theorem descriptorSound_of_open : ∃ u g, run (stepOpened (sampleMachine [shellDentry]))
    (bootSystem (sampleMachine [shellDentry]), fun _ => none)
      [.execute sampleEnv (some shellName), .openFile (some shellName)] = some (u, g) ∧
    ∃ opened, g 0 = some opened ∧ ∀ fd, 2 ≤ fd → fd < 8 →
      Pcb.flags (u.kernel.kernelStack 0) fd = 1 →
        DescriptorSound (sampleMachine [shellDentry]) (u.kernel.kernelStack 0) fd (opened fd) := by
  have hrun : (run (stepOpened (sampleMachine [shellDentry]))
      (bootSystem (sampleMachine [shellDentry]), fun _ => none)
        [.execute sampleEnv (some shellName), .openFile (some shellName)]).any (fun sg =>
          decide (sg.1.kernel.currProc 0 = pcbAddr 0 ∧ sg.1.kernel.prevOf (pcbAddr 0) = 0)) =
            true := by
    decide +kernel
  obtain ⟨⟨u, g⟩, hu, hfacts⟩ := (Option.any_eq_true _ _).1 hrun
  obtain ⟨hcurr, hprev⟩ := of_decide_eq_true hfacts
  exact ⟨u, g, hu, descriptorSound_of_run (bootSystem_boot _) (by decide +kernel) hu
    (onChain_single hcurr hprev)⟩

/-- An entry of an unknown type is opened on no table at all: the descriptor is in use, and its
    table pointer is the NULL that `execute` left. -/
theorem descriptorSound_odd : ¬ ∀ (M : Machine) (s u : System) (as : List Action)
    (g : OpenHistory) (i : Slot), Boot M s → (∀ a ∈ as, a.usesFiles = true) →
    run (stepOpened M) (s, fun _ => none) as = some (u, g) → u.kernel.OnChain (pcbAddr i) →
    ∃ opened, g i = some opened ∧ ∀ fd, 2 ≤ fd → fd < 8 →
      Pcb.flags (u.kernel.kernelStack i) fd = 1 →
        DescriptorSound M (u.kernel.kernelStack i) fd (opened fd) := by
  intro h
  have hrun : (run (stepOpened (sampleMachine [shellDentry, oddDentry]))
      (bootSystem (sampleMachine [shellDentry, oddDentry]), fun _ => none)
        [.execute sampleEnv (some shellName), .openFile (some oddName)]).any (fun sg =>
          decide (sg.1.kernel.currProc 0 = pcbAddr 0 ∧ sg.1.kernel.prevOf (pcbAddr 0) = 0 ∧
            Pcb.flags (sg.1.kernel.kernelStack 0) 2 = 1 ∧
            Pcb.operationsPointer (sg.1.kernel.kernelStack 0) 2 = 0)) = true := by
    decide +kernel
  obtain ⟨⟨u, g⟩, hu, hfacts⟩ := (Option.any_eq_true _ _).1 hrun
  obtain ⟨hcurr, hprev, hused, hnull⟩ := of_decide_eq_true hfacts
  obtain ⟨opened, -, hsound⟩ := h _ _ u _ g 0 (bootSystem_boot _) (by simp [Action.usesFiles]) hu
    (onChain_single hcurr hprev)
  obtain ⟨_, _, -, -, hne, -⟩ := (hsound 2 (by omega) (by omega) hused).exists_entry
  exact hne hnull

end Gyarados

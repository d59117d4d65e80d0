import Gyarados.Kernel.FdTable

set_option autoImplicit false

/-! # Directory listings

The position of a descriptor on a directory counts the calls of `dir_read` since it was opened, and the
call that finds the end sets it back to 0. Other reads move the positions of other descriptors. -/

namespace Gyarados

/-! ## One call -/

namespace Image

variable {I : Image} {k : Nat}

/-- The names are those of files. -/
def NamesNonempty (I : Image) : Prop := ∀ i, i < I.nDentries → I.dentryName i ≠ []

instance (I : Image) : Decidable I.NamesNonempty :=
  inferInstanceAs (Decidable (∀ i, i < I.nDentries → I.dentryName i ≠ []))

/-- What call number `k` gives: an entry of the directory, or nothing at the end of a round. -/
structure Lists (I : Image) (k : Nat) (ret : Int) (buf : Stores) : Prop where
  entry : k % (I.nDentries + 1) < I.nDentries →
    ret = (I.dentryName (k % (I.nDentries + 1))).length ∧
      buf = fun j => (I.dentryName (k % (I.nDentries + 1)) ++ [0])[j]?
  finish : k % (I.nDentries + 1) = I.nDentries → ret = 0 ∧ buf = .empty
  ret_eq_zero : ret = 0 ↔ k % (I.nDentries + 1) = I.nDentries

theorem nDentries_lt (I : Image) : I.nDentries < 0x100000000 := I.byte.word_lt _

/-- Call number `k` finds the position at `k` modulo the length of a round. -/
theorem lists_dirRead (hnames : I.NamesTerminated) (hnonempty : I.NamesNonempty) (k : Nat) :
    I.Lists k (I.dirRead (k % (I.nDentries + 1))).ret (I.dirRead (k % (I.nDentries + 1))).buf := by
  have hround : k % (I.nDentries + 1) < I.nDentries + 1 := Nat.mod_lt _ (Nat.succ_pos _)
  by_cases hend : k % (I.nDentries + 1) = I.nDentries
  · rw [dirRead, if_pos hend.ge]
    exact ⟨fun h => absurd h (by omega), fun _ => ⟨rfl, rfl⟩, iff_of_true rfl hend⟩
  · have hentry : k % (I.nDentries + 1) < I.nDentries := by omega
    have hlen := hnames.length_lt hentry
    have hpos : 0 < (I.dentryName (k % (I.nDentries + 1))).length :=
      List.length_pos_iff.2 (hnonempty _ hentry)
    rw [dirRead, if_neg (by omega)]
    dsimp only
    rw [toInt32_of_lt (by omega)]
    exact ⟨fun _ => ⟨rfl, rfl⟩, fun h => absurd h hend, iff_of_false (by omega) hend⟩

/-- The call moves on by one, from the end to the head. -/
theorem filePosition_dirRead (k : Nat) :
    (I.dirRead (k % (I.nDentries + 1))).filePosition = (k + 1) % (I.nDentries + 1) := by
  have hround : k % (I.nDentries + 1) < I.nDentries + 1 := Nat.mod_lt _ (Nat.succ_pos _)
  have hlt := I.nDentries_lt
  rw [← Nat.mod_add_mod]
  generalize k % (I.nDentries + 1) = filePosition at hround ⊢
  by_cases hend : filePosition = I.nDentries
  · rw [dirRead, if_pos hend.ge, hend, Nat.mod_self]
  · rw [dirRead, if_neg (by omega)]
    dsimp only
    have hnext : filePosition + 1 < I.nDentries + 1 := by omega
    rw [Nat.mod_eq_of_lt hnext, Nat.mod_eq_of_lt (hnext.trans_le hlt)]

end Image

/-! ## Runs -/

/-- Reads of the running process, and what can happen while it waits for one: output, keys and ticks of
    the clock. -/
def Action.isRead : Action → Bool
  | .readFile .. | .writeFile .. | .key .. | .enter | .backspace | .rtcTick => true
  | _ => false

/-- A call that comes to the read function of descriptor `fd`. -/
def Action.readsFrom (fd : Int) : Action → Bool
  | .readFile fd' false _ => fd' = fd
  | _ => false

/-- Descriptor `fd` of the running process is open on a directory, and stands behind `k` calls. -/
structure ListsFrom (M : Machine) (s : System) (i : Slot) (fd : Nat) (k : Nat) : Prop where
  currSlot : s.kernel.currSlot = some i
  flags : Pcb.flags (s.kernel.kernelStack i) fd = 1
  operationsPointer : Pcb.operationsPointer (s.kernel.kernelStack i) fd = M.opsAddr .dir
  filePosition : Pcb.filePosition (s.kernel.kernelStack i) fd = k % (M.nDentries + 1)

namespace ListsFrom

variable {M : Machine} {s t u : System} {i : Slot} {fd k : Nat} {a : Action} {as : List Action}

/-- What leaves the descriptor alone leaves the listing where it is. -/
theorem of_sameFd (h : ListsFrom M s i fd k) (hslot : t.kernel.currSlot = some i)
    (hsame : SameFd fd (s.kernel.kernelStack i) (t.kernel.kernelStack i)) : ListsFrom M t i fd k :=
  ⟨hslot, hsame.flags.trans h.flags, hsame.operationsPointer.trans h.operationsPointer,
    hsame.filePosition.trans h.filePosition⟩

/-- A call on the descriptor returns the next entry, and moves on. -/
theorem readFd (h : ListsFrom M s i fd k) (hfd : 2 ≤ fd ∧ fd < 8) (nbytes : Int) :
    ∃ s', Gyarados.readFd M fd false nbytes s =
        some ((M.dirRead (k % (M.nDentries + 1))).ret, (M.dirRead (k % (M.nDentries + 1))).buf, s') ∧
      ListsFrom M s' i fd (k + 1) := by
  refine ⟨{ s with
    kernel := (s.kernel.cli.restoreFlags s.kernel.intFlag).setPcb i
      (Pcb.setFilePosition (s.kernel.kernelStack i) fd ((k + 1) % (M.nDentries + 1))) }, ?_, ?_⟩
  · have hused : Gyarados.readFd M fd false nbytes s = driverRead M i fd nbytes
        { s with kernel := s.kernel.cli.restoreFlags s.kernel.intFlag } .dirRead :=
      @readFd_used M s i fd nbytes h.currSlot (by omega) h.flags .dir .dirRead h.operationsPointer rfl
    rw [hused]
    simp [driverRead, Kernel.restoreFlags, Kernel.cli, h.filePosition, Image.filePosition_dirRead]
  · have hlt : (k + 1) % (M.nDentries + 1) < 0x100000000 := by
      have hround : (k + 1) % (M.nDentries + 1) < M.nDentries + 1 := Nat.mod_lt _ (Nat.succ_pos _)
      have := M.nDentries_lt
      omega
    refine ⟨h.currSlot, ?_, ?_, ?_⟩
    · simp only [Kernel.setPcb, Function.update_self]
      exact (Memory.word_setWord_of_disjoint _ _ (by omega)).trans h.flags
    · simp only [Kernel.setPcb, Function.update_self]
      exact (Memory.word_setWord_of_disjoint _ _ (by omega)).trans h.operationsPointer
    · simp only [Kernel.setPcb, Function.update_self]
      exact (Memory.word_setWord _ _ _).trans (Nat.mod_eq_of_lt hlt)

/-- **One action**: a call on the descriptor counts, and everything else leaves it alone. -/
theorem step (h : ListsFrom M s i fd k) (hfd : 2 ≤ fd ∧ fd < 8) (ha : a.isRead = true)
    (hstep : step M s a = some t) : ListsFrom M t i fd (k + if a.readsFrom fd then 1 else 0) := by
  have heffect := step_effect hstep
  have hcore : t.core = s.core → ListsFrom M t i fd k := by
    intro hcore
    have hpcb : t.kernel.kernelStack = s.kernel.kernelStack := congrArg Core.pcb hcore
    have hslot : t.core.currSlot = s.core.currSlot := by rw [hcore]
    refine h.of_sameFd (hslot.trans h.currSlot) ?_
    rw [hpcb]
    exact (OutsideFd.refl (fd + 1) _).sameFd (by omega)
  cases a with
  | readFile fd' bufNull nbytes =>
      have hslot : t.kernel.currSlot = some i :=
        (show t.core.currSlot = s.core.currSlot from FdEffect.currSlot heffect).trans h.currSlot
      obtain ⟨⟨ret, buf, t'⟩, hread, rfl⟩ := Option.map_eq_some_iff.1 hstep
      by_cases hthis : bufNull = false ∧ fd' = fd
      · obtain ⟨rfl, rfl⟩ := hthis
        obtain ⟨s', hread', hnext⟩ := h.readFd hfd nbytes
        obtain ⟨-, -, rfl⟩ : _ ∧ _ ∧ t' = s' := by simpa using hread.symm.trans hread'
        simpa [Action.readsFrom] using hnext
      · have hother : Action.readsFrom fd (.readFile fd' bufNull nbytes) = false := by
          cases bufNull with
          | true => rfl
          | false => simpa [Action.readsFrom] using hthis
        rw [hother]
        refine h.of_sameFd hslot ?_
        rcases readFd_frame hread h.currSlot with hstack | ⟨_, v, hnull, hfd', -, -, -, hstack⟩
        · rw [hstack]
          exact (OutsideFd.refl (fd + 1) _).sameFd (by omega)
        · have hne : fd' ≠ fd := fun heq => hthis ⟨hnull, heq⟩
          have hout : OutsideFd fd'.toNat (s.kernel.kernelStack i)
              (Pcb.setFilePosition (s.kernel.kernelStack i) fd'.toNat v) :=
            OutsideFd.setWord _ _ (by omega) (by omega)
          rw [hstack, Function.update_self]
          exact hout.sameFd (by omega)
  | writeFile => exact hcore heffect
  | key => exact hcore heffect
  | enter => exact hcore heffect
  | backspace => exact hcore heffect
  | rtcTick => exact hcore heffect
  | _ => simp [Action.isRead] at ha

/-- **Any number of actions**. -/
theorem run (hfd : 2 ≤ fd ∧ fd < 8) : ∀ {as : List Action} {s : System} {k : Nat},
    ListsFrom M s i fd k → (∀ a ∈ as, a.isRead = true) → run (Gyarados.step M) s as = some u →
    ListsFrom M u i fd (k + as.countP (·.readsFrom fd)) := by
  intro as
  induction as with
  | nil =>
      intro s k h _ hrun
      obtain rfl := Option.some.inj hrun
      exact h
  | cons a as ih =>
      intro s k h has hrun
      obtain ⟨t, ht, hrun⟩ := run_cons_eq_some.1 hrun
      have hnext := ih (h.step hfd (has a List.mem_cons_self) ht)
        (fun b hb => has b (List.mem_cons_of_mem a hb)) hrun
      rwa [Nat.add_assoc, Nat.add_comm (ite _ _ _), ← List.countP_cons] at hnext

end ListsFrom

/-- Opening a directory starts a listing. -/
theorem listsFrom_openFd {M : Machine} (hnames : M.NamesTerminated) {s : System} {filename : CString}
    {dentry : Dentry} {ret : Int} {k : Kernel} (hfound : M.readDentryByName filename.val = some dentry)
    (hdir : dentry.fileType = 1) (hopen : openFd M (some filename) s.kernel = some (ret, k))
    (hret : ret ≠ -1) : ∃ (i : Slot) (fd : Nat), ret = fd ∧ (2 ≤ fd ∧ fd < 8) ∧
      ListsFrom M { s with kernel := k } i fd 0 := by
  have hfits : OpenFits M filename := by
    obtain ⟨i, hi, hmatch, -⟩ := Image.readDentryByName_eq_some hfound
    have hlen := hnames.length_lt hi
    simp only [OpenFits, hfound, hdir]
    exact ⟨by omega, hmatch.1 ▸ hlen⟩
  rcases openFd_cases hfits hopen with ⟨rfl, -⟩ |
    ⟨i, fd, fileInfo, table, m, hi, rfl, hfree, -, hfound', htable, -, hopened, hcore⟩
  · exact absurd rfl hret
  · obtain rfl := Option.some.inj (hfound.symm.trans hfound')
    obtain rfl : table = .dir := by simpa [tableFor, hdir] using htable.symm
    have hcore' := congrFun hcore s.tty.kbd
    have hpcb : k.kernelStack i = m :=
      (congrFun (congrArg Core.pcb hcore') i).trans (Function.update_self ..)
    have hslot : k.currSlot = some i := (congrArg Core.currSlot hcore').trans hi
    refine ⟨i, fd, rfl, freeFd_mem hfree, hslot, ?_, ?_, ?_⟩
    · rw [hpcb]
      exact hopened.flags
    · rw [hpcb]
      exact hopened.operationsPointer
    · rw [hpcb]
      exact hopened.filePosition.trans (Nat.zero_mod _).symm

/-- **A listing visits every entry once per round**: on a directory that has just been opened, call
    number `k` of the descriptor delivers entry `k` modulo the length of a round, which is one more than
    the number of entries, whatever else is read in between. -/
theorem lists_of_open {M : Machine} (hnames : M.NamesTerminated) (hnonempty : M.NamesNonempty)
    {s u : System} {filename : CString} {dentry : Dentry} {fd : Int} {k : Kernel} {as : List Action}
    (hfound : M.readDentryByName filename.val = some dentry) (hdir : dentry.fileType = 1)
    (hopen : openFd M (some filename) s.kernel = some (fd, k)) (hret : fd ≠ -1)
    (has : ∀ a ∈ as, a.isRead = true)
    (hrun : run (step M) { s with kernel := k } as = some u) (nbytes : Int) :
    ∃ ret buf u', readFd M fd false nbytes u = some (ret, buf, u') ∧
      M.Lists (as.countP (·.readsFrom fd)) ret buf := by
  obtain ⟨i, fd, rfl, hfd, hlists⟩ := listsFrom_openFd hnames hfound hdir hopen hret
  have hnext := hlists.run hfd has hrun
  rw [Nat.zero_add] at hnext
  obtain ⟨u', hread, -⟩ := hnext.readFd hfd nbytes
  exact ⟨_, _, u', hread, Image.lists_dirRead hnames hnonempty _⟩

/-- A directory with the entry of itself and of the shell. -/
def dotMachine : Machine :=
  sampleMachine [{ fileName := ascii ".", fileType := 1, inodeNum := 0 }, shellDentry]

def dotName : CString := ⟨ascii ".", by decide⟩

/-- The shell lists the directory while it reads its own file: the third call finds the end. -/
theorem lists_of_open_dot : ∃ k u ret buf u',
    openFd dotMachine (some dotName) (reached dotMachine
      [.execute sampleEnv (some shellName), .openFile (some shellName)]).kernel = some (3, k) ∧
    run (step dotMachine) { reached dotMachine
      [.execute sampleEnv (some shellName), .openFile (some shellName)] with kernel := k }
      [.readFile 3 false 32, .readFile 2 false 4, .readFile 3 false 32] = some u ∧
    readFd dotMachine 3 false 32 u = some (ret, buf, u') ∧ dotMachine.Lists 2 ret buf := by
  have hany : (openFd dotMachine (some dotName) (reached dotMachine
      [.execute sampleEnv (some shellName), .openFile (some shellName)]).kernel).any (fun r =>
        decide (r.1 = 3) && (run (step dotMachine) { reached dotMachine
          [.execute sampleEnv (some shellName), .openFile (some shellName)] with kernel := r.2 }
          [.readFile 3 false 32, .readFile 2 false 4, .readFile 3 false 32]).isSome) = true := by
    decide +kernel
  obtain ⟨⟨fd, k⟩, hopen, hfacts⟩ := (Option.any_eq_true _ _).1 hany
  obtain ⟨hfd, hsome⟩ := (Bool.and_eq_true _ _).mp hfacts
  obtain rfl : fd = 3 := of_decide_eq_true hfd
  obtain ⟨u, hrun⟩ := Option.isSome_iff_exists.1 hsome
  obtain ⟨ret, buf, u', hread, hlists⟩ := lists_of_open (by decide +kernel) (by decide +kernel)
    (show dotMachine.readDentryByName dotName.val =
      some { fileName := ascii ".", fileType := 1, inodeNum := 0 } by decide +kernel)
    rfl hopen (by decide) (by decide) hrun 32
  exact ⟨k, u, ret, buf, u', hopen, hrun, hread, hlists⟩

end Gyarados

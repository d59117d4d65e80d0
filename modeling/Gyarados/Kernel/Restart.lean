import Gyarados.Kernel.AllOrNothing

set_option autoImplicit false

/-! # Descriptors across a halt

The first program of a terminal is started again by a jump to the entry point of the shell, before
`halt` comes to the loop that closes the descriptors. A program that another one has started gives its
slot back, and the next one in it is set up by `execute`. -/

namespace Gyarados

/-- Descriptors 2 to 7 are not in use. -/
def FdsFree (m : Memory) : Prop := ∀ fd, 2 ≤ fd → fd < 8 → Pcb.flags m fd = 0

instance (m : Memory) : Decidable (FdsFree m) :=
  decidable_of_iff (∀ fd, fd < 8 → 2 ≤ fd → Pcb.flags m fd = 0)
    ⟨fun h fd h2 h8 => h fd h8 h2, fun h fd h8 h2 => h fd h2 h8⟩

/-- The program that runs next in slot `i`, after a halt that has ended like this and left this kernel,
    begins with free descriptors. -/
def NextStartsFree (M : Machine) (i : Slot) (k : Kernel) : HaltOutcome → Prop
  -- the program itself goes on
  | .returned => True
  | .restarted _ => FdsFree (k.kernelStack i)
  | .resumed _ _ => ∀ (e : ExecEnv) (command : Option CString) (u u' : System) (entry : Nat),
      callExecute M e command u = some (.launched entry, u') → u'.kernel.currSlot = some i →
        FdsFree (u'.kernel.kernelStack i)

/-- The call of `halt` that an action makes, and the kernel it is made in: the system call, Ctrl-C, and
    the page fault of a call of `execute`. An exception in a program ends it like the system call. -/
inductive HaltCall (M : Machine) (s : System) : Action → Memory → Nat → Kernel → Prop
  | syscall (fInitData : Memory) (status : UInt8) :
      HaltCall M s (.halt fInitData status) fInitData status.toNat s.kernel
  | ctrlC (fInitData : Memory) : HaltCall M s (.ctrlC fInitData) fInitData 254 s.kernel
  | exception {a : Action} {e : ExecEnv} {command : Option CString} {addr : Nat} {u u' : System} :
      ExecCall s a e command u → execute M e command u = some (.fault addr, u') →
      HaltCall M s a e.fInitData 254 u'.kernel.cli

/-- The halt of this action hands on the slot of the running process with free descriptors. -/
def HaltReleases (M : Machine) (s : System) (a : Action) : Prop :=
  ∀ (fInitData : Memory) (status : Nat) (k : Kernel), HaltCall M s a fInitData status k →
    ∀ (i : Slot) (out : HaltOutcome) (k' : Kernel), k.currSlot = some i →
      halt M fInitData status k = some (out, k') → NextStartsFree M i k' out

/-- The halting process has a parent, or the shell cannot be read, or it has no descriptor open. -/
def HaltFree (M : Machine) (k : Kernel) : Prop :=
  k.prevProc k.currActiveTerm ≠ 0 ∨ (M.fsRead shellName.val 0 32).ret = -1 ∨
    ∀ i, k.currSlot = some i → FdsFree (k.kernelStack i)

instance (M : Machine) (k : Kernel) : Decidable (HaltFree M k) :=
  inferInstanceAs (Decidable (k.prevProc k.currActiveTerm ≠ 0 ∨
    (M.fsRead shellName.val 0 32).ret = -1 ∨ ∀ i, k.currSlot = some i → FdsFree (k.kernelStack i)))

section

variable {M : Machine} {k k' : Kernel} {i : Slot} {out : HaltOutcome}

/-- The first program of a terminal starts again with the PCB it had. -/
theorem halt_first (fInitData : Memory) (status : Nat) (hi : k.currSlot = some i)
    (hfirst : k.prevProc k.currActiveTerm = 0) : halt M fInitData status k =
      if (M.fsRead shellName.val 0 32).ret = -1 then some (.returned, k)
      else some (.restarted (entryPoint ((M.fsRead shellName.val 0 32).buf.onto fInitData)),
        k.restoreFlags true) := by
  have hi' : k.cli.currSlot = some i := hi
  simp only [halt, hi', Option.bind_some]
  rw [if_pos (show k.cli.prevProc k.cli.currActiveTerm = 0 from hfirst)]
  rfl

theorem halt_child {fInitData : Memory} {status : Nat} (hchild : k.prevProc k.currActiveTerm ≠ 0)
    (h : halt M fInitData status k = some (out, k')) : ∃ esp ebp, out = .resumed esp ebp := by
  simp only [halt] at h
  obtain ⟨j, -, h⟩ := Option.bind_eq_some_iff.1 h
  rw [if_neg (show ¬ k.cli.prevProc k.cli.currActiveTerm = 0 from hchild)] at h
  obtain ⟨k₁, -, h⟩ := Option.bind_eq_some_iff.1 h
  obtain ⟨j', -, h⟩ := Option.map_eq_some_iff.1 h
  exact ⟨_, _, (congrArg Prod.fst h).symm⟩

/-- A launch sets its descriptors up afresh. -/
theorem fdsFree_of_launched {e : ExecEnv} {command : Option CString} {u u' : System} {entry : Nat}
    (h : callExecute M e command u = some (.launched entry, u'))
    (hi : u'.kernel.currSlot = some i) : FdsFree (u'.kernel.kernelStack i) := by
  cases callExecute_outcome h with
  | @launched fName _ slot tempArg m hplan hroom hm =>
      have hslot : (u.kernel.launch slot m (M.copyFileToAddr fName).buf).currSlot = some slot := by
        simp [Kernel.launch, Kernel.currSlot]
      obtain rfl : slot = i := Option.some.inj (hslot.symm.trans hi)
      intro fd h2 h8
      rw [show (u.kernel.launch slot m (M.copyFileToAddr fName).buf).kernelStack slot = m from
        Function.update_self ..]
      exact flags_initPcb hm h2 h8

/-- One call of `halt`. -/
theorem nextStartsFree_iff (fInitData : Memory) (status : Nat) :
    (∀ i out k', k.currSlot = some i → halt M fInitData status k = some (out, k') →
      NextStartsFree M i k' out) ↔ HaltFree M k := by
  constructor
  · intro h
    by_cases hfirst : k.prevProc k.currActiveTerm = 0
    · by_cases hread : (M.fsRead shellName.val 0 32).ret = -1
      · exact .inr (.inl hread)
      · refine .inr (.inr fun i hi => ?_)
        have hhalt := halt_first (M := M) fInitData status hi hfirst
        rw [if_neg hread] at hhalt
        exact h i _ _ hi hhalt
    · exact .inl hfirst
  · intro hfree i out k' hi hhalt
    by_cases hfirst : k.prevProc k.currActiveTerm = 0
    · rw [halt_first fInitData status hi hfirst] at hhalt
      split at hhalt
      · obtain ⟨rfl, rfl⟩ := Prod.mk.inj (Option.some.inj hhalt)
        trivial
      · rename_i hread
        obtain ⟨rfl, rfl⟩ := Prod.mk.inj (Option.some.inj hhalt)
        exact ((hfree.resolve_left fun hne => hne hfirst).resolve_left hread) i hi
    · obtain ⟨esp, ebp, rfl⟩ := halt_child hfirst hhalt
      exact fun e command u u' entry hcall hslot => fdsFree_of_launched hcall hslot

end

/-- The halts of a run. -/
def HaltsFree (M : Machine) (s : System) (a : Action) : Prop :=
  ∀ (fInitData : Memory) (status : Nat) (k : Kernel), HaltCall M s a fInitData status k → HaltFree M k

theorem haltReleases_iff {M : Machine} {s : System} {a : Action} :
    HaltReleases M s a ↔ HaltsFree M s a :=
  forall₄_congr fun fInitData status _ _ => nextStartsFree_iff fInitData status

/-- **Every halt of a run releases the descriptors** exactly when no first program halts with one open. -/
theorem haltReleases_of_run (M : Machine) (s : System) (as : List Action) :
    AllSteps (step M) (HaltReleases M) s as ↔ AllSteps (step M) (HaltsFree M) s as :=
  ⟨.mono fun _ _ => haltReleases_iff.1, .mono fun _ _ => haltReleases_iff.2⟩

/-- The first shell opens a file and halts, and starts again with the file open. -/
theorem haltReleases_leak : ¬ ∀ (M : Machine) (s : System) (as : List Action), Boot M s →
    AllSteps (step M) (HaltReleases M) s as := by
  intro h
  have hsteps : AllSteps (step (sampleMachine [shellDentry])) (HaltReleases _)
      (bootSystem (sampleMachine [shellDentry]))
      ([.execute sampleEnv (some shellName), .openFile (some shellName)] ++
        .halt (fun _ => 0) 0 :: []) := h _ _ _ (bootSystem_boot _)
  have hreleases := hsteps.of_run_append (run_reached _ _ (by decide +kernel))
  have hfree := (nextStartsFree_iff _ _).1 (hreleases _ _ _ (.syscall (fun _ => 0) 0))
  exact absurd hfree (by decide +kernel)

end Gyarados

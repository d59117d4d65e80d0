import Gyarados.Kernel.Effects

set_option autoImplicit false

/-! # The running terminal and the one shown

`syscall.c` keeps the number of the terminal that runs, `keyboard.c` that of the terminal on
display, and each terminal that has been visited is supposed to have a process. The two numbers
agree, and the running terminal has a process, as long as every first visit to a terminal starts a
shell. -/

namespace Gyarados

namespace Core

variable (c : Core)

/-- The terminals are as they should be: the running one is shown, and those visited are those
    with a process. -/
structure Live : Prop where
  shown : c.shown = c.running
  running_started : c.started c.running = true
  started_iff : ∀ t, c.started t = true ↔ c.currProc t ≠ 0

end Core

namespace Core.Live

variable {M : Machine} {c c' : Core}

theorem currProc_running (h : c.Live) : c.currProc c.running ≠ 0 :=
  (h.started_iff _).1 h.running_started

/-- A terminal not visited has no process. -/
theorem currProc_of_not_started (h : c.Live) {t : Term} (ht : c.started t = false) :
    c.currProc t = 0 := by
  by_contra hne
  rw [(h.started_iff t).2 hne] at ht
  simp at ht

/-- What matters is which terminals have a process. -/
theorem congr (h : c.Live) (hshown : c'.shown = c.shown) (hrunning : c'.running = c.running)
    (hstarted : c'.started = c.started) (hproc : ∀ t, c'.currProc t ≠ 0 ↔ c.currProc t ≠ 0) :
    c'.Live where
  shown := by rw [hshown, hrunning, h.shown]
  running_started := by rw [hstarted, hrunning, h.running_started]
  started_iff t := by rw [hstarted, hproc, h.started_iff]

theorem reserve (h : c.Live) (slot : Slot) : (c.reserve slot).Live :=
  h.congr rfl rfl rfl fun _ => Iff.rfl

theorem save (h : c.Live) (i : Slot) (r : Regs) : (c.save i r).Live :=
  h.congr rfl rfl rfl fun _ => Iff.rfl

theorem fdEffect (h : c.Live) (he : FdEffect SameControl c c') : c'.Live := by
  cases he with
  | none => exact h
  | pcb => exact h.congr rfl rfl rfl fun _ => Iff.rfl

/-- Replacing the running process by another leaves the terminal with one. -/
theorem update_running (h : c.Live) {p : Nat} (hp : p ≠ 0) (t : Term) :
    Function.update c.currProc c.running p t ≠ 0 ↔ c.currProc t ≠ 0 := by
  by_cases ht : t = c.running
  · subst ht
    rw [Function.update_self]
    exact iff_of_true hp h.currProc_running
  · rw [Function.update_of_ne ht]

theorem haltEffect (h : c.Live) {out : HaltOutcome} (he : HaltEffect c out c') : c'.Live := by
  cases he with
  | returned => exact h
  | restarted => exact h
  | resumed _ hprev _ _ => exact h.congr rfl rfl rfl (h.update_running hprev)

theorem launch (h : c.Live) (slot : Slot) (m : Memory) : (c.launch slot m).Live :=
  h.congr rfl rfl rfl (h.update_running (pcbAddr_ne_null slot))

theorem callEffect (h : c.Live) {e : ExecEnv} {command : Option CString} {out : CallOutcome}
    (he : CallEffect M e command c out c') : c'.Live := by
  cases he with
  | returned => exact h
  | launched => exact h.launch _ _
  | nullName _ hhalt => exact h.haltEffect hhalt
  | overrun _ _ hhalt => exact (h.reserve _).haltEffect hhalt

theorem load (h : c.Live) {t : Term} (ht : c.started t = true) (j : Slot) : (c.load t j).Live where
  shown := rfl
  running_started := ht
  started_iff := h.started_iff

/-- The first shell of a terminal brings it to life. -/
theorem launch_visit (h : c.Live) {next : Term} (i slot : Slot) (r : Regs) (m : Memory) :
    (((c.visit next).save i r).launch slot m).Live where
  shown := rfl
  running_started := by simp [Core.launch, Core.save, Core.setPcb, Core.visit, Core.reserve]
  started_iff t := by
    by_cases ht : t = next
    · subst ht
      simp [Core.launch, Core.save, Core.setPcb, Core.visit, Core.reserve, pcbAddr_ne_null]
    · simp [Core.launch, Core.save, Core.setPcb, Core.visit, Core.reserve, ht, h.started_iff]

end Core.Live

/-- `execute("shell")` on a first visit finds a free slot and a shell that runs. -/
def VisitStarts (M : Machine) (e : ExecEnv) (mask : Nat) : Prop :=
  match execPlan M e (some shellName) mask with
  | .launch .. => True
  | _ => False

instance (M : Machine) (e : ExecEnv) (mask : Nat) : Decidable (VisitStarts M e mask) :=
  match h : execPlan M e (some shellName) mask with
  | .launch .. => isTrue (by simp [VisitStarts, h])
  | .fail | .nullName | .clear | .nonRunnable | .noSlot => isFalse (by simp [VisitStarts, h])

theorem VisitStarts.exists_launch {M : Machine} {e : ExecEnv} {mask : Nat}
    (h : VisitStarts M e mask) : ∃ fName entry slot tempArg,
      execPlan M e (some shellName) mask = .launch fName entry slot tempArg := by
  unfold VisitStarts at h
  split at h
  · exact ⟨_, _, _, _, ‹_›⟩
  · exact h.elim

/-- The action visits no terminal for the first time, or the visit starts a shell. -/
def Action.VisitsStart (M : Machine) (s : System) : Action → Prop
  | .function next _ e =>
      s.tty.kbd.started next = false → VisitStarts M e s.kernel.currProcIdMask
  | _ => True

instance (M : Machine) (s : System) : ∀ a : Action, Decidable (a.VisitsStart M s)
  | .function next _ e =>
      inferInstanceAs (Decidable (s.tty.kbd.started next = false → VisitStarts M e _))
  | .execute .. | .halt .. | .openFile .. | .closeFile .. | .readFile .. | .writeFile .. | .key ..
  | .enter | .backspace | .ctrlC .. | .rtcTick => isTrue trivial

theorem Core.Live.keyFEffect {M : Machine} {c c' : Core} (h : c.Live) {next : Term} {r : Regs}
    {e : ExecEnv} {out : SwitchOutcome}
    (hvisit : c.started next = false → VisitStarts M e c.mask)
    (he : KeyFEffect M next r e c out c') : c'.Live := by
  cases he with
  | started hnext _ hcall =>
      obtain ⟨fName, entry, slot, tempArg, hplan⟩ := (hvisit hnext).exists_launch
      -- the terminal has no process that the page-fault handler could halt
      have hnone : ∀ {i j : Slot}, (((c.visit next).save i r).reserve j).currSlot = none := by
        intro i j
        show slotAt (c.currProc next) = none
        rw [h.currProc_of_not_started hnext, slotAt_null]
      cases hcall with
      | returned _ hno => exact absurd hplan (hno _ _ _ _)
      | launched => exact h.launch_visit _ _ r _
      | nullName hnull _ => exact absurd (hplan.symm.trans hnull) (by simp)
      | overrun _ _ hhalt =>
          cases hhalt with
          | returned hi _ => simp [hnone] at hi
          | restarted _ hi _ => simp [hnone] at hi
          | resumed hi _ _ _ => simp [hnone] at hi
  | ignored hnext hnull =>
      rcases hnull with hnull | hnull
      · rw [h.shown] at hnull
        exact absurd hnull h.currProc_running
      · exact absurd hnull ((h.started_iff next).1 hnext)
  | loaded hnext _ _ => exact (h.save _ r).load hnext _

theorem Core.Live.of_step {M : Machine} {s t : System} {a : Action} (h : s.core.Live)
    (hvisit : a.VisitsStart M s) (hstep : step M s a = some t) : t.core.Live := by
  have he := step_effect hstep
  cases a with
  | execute =>
      obtain ⟨out, he⟩ := he
      exact h.callEffect he
  | halt =>
      obtain ⟨out, he⟩ := he
      exact h.haltEffect he
  | ctrlC =>
      obtain ⟨out, he⟩ := he
      exact h.haltEffect he
  | openFile => exact h.fdEffect he
  | closeFile => exact h.fdEffect he.sameControl
  | readFile => exact h.fdEffect he.sameControl
  | function next r e =>
      obtain ⟨out, he⟩ := he
      exact h.keyFEffect hvisit he
  | _ =>
      rw [show t.core = s.core from he]
      exact h

/-! ## From the first shell on -/

/-- The kernel has booted and started the first shell. -/
def FirstShell (M : Machine) (s : System) : Prop :=
  ∃ s₀ e entry, Boot M s₀ ∧ callExecute M e (some shellName) s₀ = some (.launched entry, s)

theorem FirstShell.live {M : Machine} {s : System} (h : FirstShell M s) : s.core.Live := by
  obtain ⟨s₀, e, entry, hboot, hcall⟩ := h
  have he := callExecute_effect hcall
  have hstarted : ∀ t, s₀.core.started t = decide (t = 0) := hboot.started
  have hrunning : s₀.core.running = 0 := hboot.currActiveTerm
  generalize s.core = c at he
  cases he with
  | launched _ _ _ =>
      refine ⟨?_, ?_, ?_⟩
      · show s₀.core.shown = s₀.core.running
        rw [hrunning]
        exact hboot.activeTerminal
      · show s₀.core.started s₀.core.running = true
        rw [hstarted, hrunning]
        rfl
      · intro t
        show s₀.core.started t = true ↔
          Function.update s₀.core.currProc s₀.core.running (pcbAddr _) t ≠ 0
        rw [hstarted, hrunning, decide_eq_true_eq]
        by_cases ht : t = 0
        · subst ht
          simp [pcbAddr_ne_null]
        · rw [Function.update_of_ne ht]
          simp only [ht, false_iff, not_not]
          exact hboot.currProc t

/-- The running terminal has a process and is the one on display. -/
structure RunningShown (s : System) : Prop where
  alive : s.kernel.currProc s.kernel.currActiveTerm ≠ 0
  shown : s.tty.kbd.activeTerminal = s.kernel.currActiveTerm

/-- **The running terminal is alive and shown** in every run from the first shell on in which each
    first visit to a terminal finds a slot for its shell. -/
theorem runningShown_of_run {M : Machine} {s u : System} {as : List Action} (hfirst : FirstShell M s)
    (hvisit : AllSteps (step M) (Action.VisitsStart M) s as) (hrun : run (step M) s as = some u) :
    RunningShown u := by
  have h : u.core.Live := run_invariant (P := fun s => s.core.Live)
    (fun _ _ _ h hok hstep => h.of_step hok hstep) hfirst.live hvisit hrun
  exact ⟨h.currProc_running, h.shown⟩

theorem firstShell_afterShell (M : Machine) (entry : Nat)
    (h : (callExecute M sampleEnv (some shellName) (bootSystem M)).map Prod.fst =
      some (.launched entry)) : FirstShell M (afterShell M) := by
  obtain ⟨⟨out, s⟩, hcall, rfl⟩ := Option.map_eq_some_iff.1 h
  refine ⟨bootSystem M, sampleEnv, entry, bootSystem_boot M, ?_⟩
  simp [afterShell, hcall]

/-- The shell starts a program, and the user goes to the second terminal and back. -/
theorem runningShown_of_visit : ∃ u, run (step (sampleMachine [shellDentry]))
    (afterShell (sampleMachine [shellDentry])) [.execute sampleEnv (some shellName),
      .function 1 sampleRegs sampleEnv, .function 0 sampleRegs sampleEnv] = some u ∧
      RunningShown u := by
  obtain ⟨u, hu⟩ := Option.isSome_iff_exists.1 (show (run (step (sampleMachine [shellDentry]))
    (afterShell (sampleMachine [shellDentry])) [.execute sampleEnv (some shellName),
      .function 1 sampleRegs sampleEnv, .function 0 sampleRegs sampleEnv]).isSome by
        decide +kernel)
  exact ⟨u, hu, runningShown_of_run (firstShell_afterShell _ 0x8048094 (by decide +kernel))
    (by decide +kernel) hu⟩

/-- Six shells on top of the first take all slots; then the user asks for the second terminal. -/
def fullRun : List Action :=
  List.replicate 6 (.execute sampleEnv (some shellName)) ++ [.function 1 sampleRegs sampleEnv]

/-- Without a free slot the first visit fails: the second terminal is shown and runs, and it has no
    process. -/
theorem runningShown_full : ¬ ∀ (M : Machine) (s u : System) (as : List Action), FirstShell M s →
    (∀ a ∈ as, a.managesProcesses = true) → run (step M) s as = some u → RunningShown u := by
  intro h
  have hrun : (run (step (sampleMachine [shellDentry])) (afterShell (sampleMachine [shellDentry]))
      fullRun).any (fun u => decide (u.kernel.currProc u.kernel.currActiveTerm = 0)) = true := by
    decide +kernel
  obtain ⟨u, hu, hnull⟩ := (Option.any_eq_true _ _).1 hrun
  have hshown := h _ _ u _ (firstShell_afterShell _ 0x8048094 (by decide +kernel))
    (by simp [fullRun, Action.managesProcesses]) hu
  exact hshown.alive (of_decide_eq_true hnull)

end Gyarados

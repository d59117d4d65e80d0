import Gyarados.Drivers.Terminals
import Gyarados.Kernel.Chains
import Gyarados.Kernel.Frame

set_option autoImplicit false

/-! # A terminal resumes where it stopped

Every switch away from a terminal saves the stack registers, and the next switch to it loads what
the last switch away has saved. History keeps the pairs saved: the invariant is that the PCB on
top of a terminal that does not run still holds the terminal's last pair. -/

namespace Gyarados

/-- The stack registers saved by the last switch away from each terminal. -/
abbrev Saved := Term → Option (Nat × Nat)

/-- A switch that is not ignored saves the registers of the terminal that runs. -/
def Saved.after (saved : Saved) (term : Term) (r : Regs) : SwitchOutcome → Saved
  | .ignored => saved
  | .started _ => Function.update saved term (some (r.esp, r.ebp))
  | .loaded _ _ => Function.update saved term (some (r.esp, r.ebp))

def noteSwitch (M : Machine) (s : System) (a : Action) (_ : System) (saved : Saved) : Option Saved :=
  match a with
  | .function next r e =>
      (keyF M next r e s).map fun (out, _) => saved.after s.kernel.currActiveTerm r out
  | _ => some saved

/-- The system with the saved registers as history, and with `execute` on its frame. -/
def stepSaved (M : Machine) : System × Saved → Action → Option (System × Saved) :=
  withGhost (stepOnFrame M) (noteSwitch M)

/-- Every run has this history. -/
theorem exists_run_stepSaved {M : Machine} {s u : System} {as : List Action}
    (h : run (stepOnFrame M) s as = some u) (saved : Saved) :
    ∃ saved', run (stepSaved M) (s, saved) as = some (u, saved') := by
  refine exists_run_withGhost (fun s a t saved hstep => ?_) h saved
  cases a with
  | function next r e =>
      obtain ⟨⟨out, t'⟩, hkey, -⟩ := Option.map_eq_some_iff.1 hstep
      exact ⟨_, by rw [noteSwitch, hkey]; rfl⟩
  | _ => exact ⟨saved, rfl⟩

/-- No process has been started. -/
structure Core.Fresh (c : Core) (F : ProcessTable) : Prop where
  stack : ∀ t, F.stack t = []
  shown : c.shown = c.running
  started : ∀ t, c.started t = true → t = c.running

/-- **The invariant.** Beside the process table: the PCB on top of each terminal that does not run
    holds the registers last saved there. -/
structure Resumable (M : Machine) (c : Core) (F : ProcessTable) (saved : Saved) : Prop where
  consistent : Consistent M c F
  live : c.Live ∨ c.Fresh F
  saved_top : ∀ t, t ≠ c.running → ∀ i rest, F.stack t = i :: rest →
    saved t = some (Pcb.pSchedKsp (c.pcb i), Pcb.pSchedKbp (c.pcb i))

namespace Resumable

variable {M : Machine} {c c' : Core} {F : ProcessTable} {saved : Saved}

theorem boot {s : System} (h : Boot M s) :
    Resumable M s.core StackFamily.empty (fun _ => none) where
  consistent := Consistent.boot h
  live := by
    refine Or.inr ⟨fun _ => rfl, ?_, ?_⟩
    · show s.tty.kbd.activeTerminal = s.kernel.currActiveTerm
      rw [h.activeTerminal, h.currActiveTerm]
    · intro t ht
      have hstarted : s.tty.kbd.started t = true := ht
      rw [h.started, decide_eq_true_eq] at hstarted
      exact hstarted.trans h.currActiveTerm.symm
  saved_top t _ i rest hs := by simp [StackFamily.empty] at hs

/-- A running process means that the terminals are live. -/
theorem live_of_slotAt (h : Resumable M c F saved) {t : Term} {i : Slot}
    (hi : slotAt (c.currProc t) = some i) : c.Live := by
  rcases h.live with hlive | hfresh
  · exact hlive
  · obtain ⟨rest, hs⟩ := h.consistent.represents.stack_of_slotAt hi
    rw [hfresh.stack] at hs
    simp at hs

/-- The tops of other terminals do not see what happens to the PCB of the running process. -/
theorem ne_of_running (h : Resumable M c F saved) {i j : Slot} {t : Term} {rest : List Slot}
    (hi : c.currSlot = some i) (ht : t ≠ c.running) (hs : F.stack t = j :: rest) : j ≠ i := by
  obtain ⟨rest', hs'⟩ := h.consistent.represents.stack_of_slotAt hi
  rintro rfl
  exact ht (F.index_unique (a := j) (by rw [hs]; exact List.mem_cons_self)
    (by rw [hs']; exact List.mem_cons_self))

theorem fdEffect (h : Resumable M c F saved) (he : FdEffect SameControl c c') :
    Resumable M c' F saved := by
  have hcons := h.consistent.fdEffect he
  cases he with
  | none => exact h
  | @pcb i m hi hm =>
      refine ⟨hcons, Or.inl ((h.live_of_slotAt hi).fdEffect (.pcb hi hm)), fun t ht j rest hs => ?_⟩
      rw [h.saved_top t ht j rest hs]
      simp [Core.setPcb, h.ne_of_running hi ht hs]

theorem haltEffect (h : Resumable M c F saved) {out : HaltOutcome} (he : HaltEffect c out c') :
    ∃ F', Resumable M c' F' saved := by
  cases he with
  | returned => exact ⟨F, h⟩
  | restarted => exact ⟨F, h⟩
  | @resumed i j m hi hprev hj hm =>
      obtain ⟨rest, -, hcons⟩ := h.consistent.resumed hi hj hm.sameControl
      refine ⟨_, hcons, Or.inl ((h.live_of_slotAt hi).haltEffect (.resumed hi hprev hj hm)),
        fun t ht k rest' hs => ?_⟩
      have ht' : t ≠ c.running := ht
      rw [StackFamily.pop_stack_of_ne _ _ ht'] at hs
      rw [h.saved_top t ht' k rest' hs]
      simp [Core.exit, h.ne_of_running hi ht' hs]

/-- A launch leaves the other terminals alone. -/
theorem launch (h : Resumable M c F saved) {slot : Slot} {m : Memory} {hfree : ¬ F.Uses slot}
    (hcons : Consistent M (c.launch slot m) (F.push c.running slot hfree))
    (hlive : (c.launch slot m).Live) :
    Resumable M (c.launch slot m) (F.push c.running slot hfree) saved := by
  refine ⟨hcons, Or.inl hlive, fun t ht j rest hs => ?_⟩
  have ht' : t ≠ c.running := ht
  rw [StackFamily.push_stack_of_ne _ _ _ _ ht'] at hs
  have hne : j ≠ slot := by
    rintro rfl
    exact hfree ⟨t, by rw [hs]; exact List.mem_cons_self⟩
  rw [h.saved_top t ht' j rest hs]
  simp [Core.launch, hne]

/-- The first launch of all brings the terminal to life. -/
theorem live_launch (h : Resumable M c F saved) (slot : Slot) (m : Memory) :
    (c.launch slot m).Live := by
  rcases h.live with hlive | hfresh
  · exact hlive.launch slot m
  · refine ⟨hfresh.shown, h.consistent.running_started, fun t => ?_⟩
    by_cases ht : t = c.running
    · subst ht
      simp [Core.launch, Core.reserve, h.consistent.running_started, pcbAddr_ne_null]
    · have hnull : c.currProc t = 0 := by
        rw [h.consistent.represents.currProc, hfresh.stack]
        rfl
      have hstarted : c.started t = false := by
        by_contra hne
        exact ht (hfresh.started t (by simpa using hne))
      simp [Core.launch, Core.reserve, ht, hnull, hstarted]

theorem callEffect (h : Resumable M c F saved) {e : ExecEnv} {command : Option CString}
    {out : CallOutcome} (hfits : ExecFits M e command c.mask)
    (he : CallEffect M e command c out c') : ∃ F', Resumable M c' F' saved := by
  cases he with
  | returned => exact ⟨F, h⟩
  | launched hplan _ hm =>
      obtain ⟨hfree, hcons⟩ := h.consistent.launched hplan hm (hfits.of_launch hplan).1
      exact ⟨_, h.launch hcons (h.live_launch _ _)⟩
  | nullName _ hhalt => exact h.haltEffect hhalt
  | overrun hplan hbuf _ => exact absurd (hfits.of_launch hplan).2 hbuf

/-- When the registers of the running terminal have been saved, every top holds what was last
    saved. -/
theorem saved_save (h : Resumable M c F saved) {i : Slot} (r : Regs) (hi : c.currSlot = some i)
    {t : Term} {j : Slot} {rest : List Slot} (hs : F.stack t = j :: rest) :
    Function.update saved c.running (some (r.esp, r.ebp)) t =
      some (Pcb.pSchedKsp ((c.save i r).pcb j), Pcb.pSchedKbp ((c.save i r).pcb j)) := by
  by_cases ht : t = c.running
  · subst ht
    obtain ⟨rest', hs'⟩ := h.consistent.represents.stack_of_slotAt hi
    obtain rfl : j = i := (List.cons.inj (hs.symm.trans hs')).1
    simp [Core.save, Core.setPcb, pSchedKsp_setSched, pSchedKbp_setSched,
      Nat.mod_eq_of_lt r.esp_lt, Nat.mod_eq_of_lt r.ebp_lt]
  · rw [Function.update_of_ne ht, h.saved_top t ht j rest hs]
    simp [Core.save, Core.setPcb, h.ne_of_running hi ht hs]

/-- A first visit that launches its shell. -/
theorem launch_visit (h : Resumable M c F saved) {next : Term} {i slot : Slot} {r : Regs}
    {m : Memory} {hfree : ¬ F.Uses slot} (hi : slotAt (c.currProc c.shown) = some i)
    (hcons : Consistent M (((c.visit next).save i r).launch slot m) (F.push next slot hfree)) :
    Resumable M (((c.visit next).save i r).launch slot m) (F.push next slot hfree)
      (Function.update saved c.running (some (r.esp, r.ebp))) := by
  -- a process on the displayed terminal: so it is the one that runs
  have hlive := h.live_of_slotAt hi
  rw [hlive.shown] at hi
  refine ⟨hcons, Or.inl (hlive.launch_visit i slot r m), fun t ht j rest hs => ?_⟩
  have ht' : t ≠ next := ht
  rw [StackFamily.push_stack_of_ne _ _ _ _ ht'] at hs
  have hne : j ≠ slot := by
    rintro rfl
    exact hfree ⟨t, by rw [hs]; exact List.mem_cons_self⟩
  rw [h.saved_save r hi hs]
  simp [Core.launch, Core.save, Core.visit, Core.setPcb, hne]

/-- A switch between two terminals that have processes. -/
theorem load (h : Resumable M c F saved) {next : Term} {i j : Slot} (r : Regs)
    (hnext : c.started next = true) (hi : slotAt (c.currProc c.shown) = some i)
    (hj : slotAt (c.currProc next) = some j) :
    Resumable M ((c.save i r).load next j) F
      (Function.update saved c.running (some (r.esp, r.ebp))) := by
  have hlive := h.live_of_slotAt hi
  rw [hlive.shown] at hi
  exact ⟨(h.consistent.save i r).load hnext hj, Or.inl ((hlive.save i r).load hnext j),
    fun t _ k rest hs => h.saved_save r hi hs⟩

/-- The registers loaded are those last saved. -/
theorem loaded (h : Resumable M c F saved) {next : Term} {i j : Slot} (r : Regs)
    (hi : slotAt (c.currProc c.shown) = some i) (hj : slotAt (c.currProc next) = some j) :
    Function.update saved c.running (some (r.esp, r.ebp)) next =
      some (Pcb.pSchedKsp ((c.save i r).pcb j), Pcb.pSchedKbp ((c.save i r).pcb j)) := by
  have hlive := h.live_of_slotAt hi
  rw [hlive.shown] at hi
  obtain ⟨rest, hs⟩ := h.consistent.represents.stack_of_slotAt hj
  exact h.saved_save r hi hs

/-- A key that is ignored changes nothing: the terminal was shown already, or there is no
    process. -/
theorem ignored (h : Resumable M c F saved) {next : Term} (hnext : c.started next = true)
    (hnull : c.currProc c.shown = 0 ∨ c.currProc next = 0) : c.display next = c := by
  -- a live terminal has a process, so the key can only be for the terminal on display
  have hshown : next = c.shown := by
    rcases h.live with hlive | hfresh
    · rcases hnull with hnull | hnull
      · rw [hlive.shown] at hnull
        exact absurd hnull hlive.currProc_running
      · exact absurd hnull ((hlive.started_iff next).1 hnext)
    · rw [hfresh.shown]
      exact hfresh.started next hnext
  rw [Core.display, hshown]

end Resumable

/-- The action starts the shell of a first visit, and stays inside the frame and the buffers of
    `execute`. -/
def Action.Starts (M : Machine) (s : System) (a : Action) : Prop :=
  a.Fits M s ∧ a.VisitsStart M s

instance (M : Machine) (s : System) (a : Action) : Decidable (a.Starts M s) :=
  inferInstanceAs (Decidable (a.Fits M s ∧ a.VisitsStart M s))

theorem Resumable.keyF {M : Machine} {s t : System} {F : ProcessTable} {saved : Saved}
    (h : Resumable M s.core F saved) {next : Term} {r : Regs} {e : ExecEnv} {out : SwitchOutcome}
    (hok : Action.Starts M s (.function next r e))
    (hkey : Gyarados.keyF M next r e s = some (out, t)) :
    ∃ F', Resumable M t.core F' (saved.after s.kernel.currActiveTerm r out) := by
  obtain ⟨⟨-, hfits⟩, hvisit⟩ := hok
  have he := keyF_effect hkey
  generalize t.core = c' at he
  cases he with
  | @started i how c' hnext hi hcall =>
      -- the visit starts its shell, so of the outcomes only the launch is left
      obtain ⟨fName, entry, slot, tempArg, hplan⟩ := (hvisit hnext).exists_launch
      cases hcall with
      | returned _ hno => exact absurd hplan (hno _ _ _ _)
      | launched hplan' _ hm =>
          obtain ⟨hfree, hcons⟩ := ((h.consistent.visit hnext).save i r).launched hplan' hm
            ((hfits hnext).of_launch hplan').1
          exact ⟨F.push next _ hfree, h.launch_visit hi hcons⟩
      | nullName hnull _ => exact absurd (hplan.symm.trans hnull) (by simp)
      | overrun hplan' hbuf _ => exact absurd ((hfits hnext).of_launch hplan').2 hbuf
  | ignored hnext hnull =>
      rw [h.ignored hnext hnull]
      exact ⟨F, h⟩
  | loaded hnext hi hj => exact ⟨F, h.load r hnext hi hj⟩

theorem Resumable.of_step {M : Machine} {s t : System} {saved saved' : Saved} {a : Action}
    (h : ∃ F, Resumable M s.core F saved) (hok : a.Starts M s)
    (hstep : stepSaved M (s, saved) a = some (t, saved')) : ∃ F, Resumable M t.core F saved' := by
  obtain ⟨F, h⟩ := h
  obtain ⟨hstep, hnote⟩ := withGhost_eq_some.1 hstep
  rw [stepOnFrame_eq hok.1.1] at hstep
  have he := step_effect hstep
  cases a with
  | execute =>
      obtain ⟨out, he⟩ := he
      obtain rfl := Option.some.inj hnote
      exact h.callEffect hok.1.2 he
  | halt =>
      obtain ⟨out, he⟩ := he
      obtain rfl := Option.some.inj hnote
      exact h.haltEffect he
  | ctrlC =>
      obtain ⟨out, he⟩ := he
      obtain rfl := Option.some.inj hnote
      exact h.haltEffect he
  | openFile =>
      obtain rfl := Option.some.inj hnote
      exact ⟨F, h.fdEffect he⟩
  | closeFile =>
      obtain rfl := Option.some.inj hnote
      exact ⟨F, h.fdEffect he.sameControl⟩
  | readFile =>
      obtain rfl := Option.some.inj hnote
      exact ⟨F, h.fdEffect he.sameControl⟩
  | function next r e =>
      obtain ⟨⟨out, t'⟩, hkey, rfl⟩ := Option.map_eq_some_iff.1 hstep
      obtain ⟨⟨out', t''⟩, hkey', rfl⟩ := Option.map_eq_some_iff.1 hnote
      obtain ⟨rfl, -⟩ := Prod.mk.inj (Option.some.inj (hkey.symm.trans hkey'))
      exact h.keyF hok hkey
  | _ =>
      obtain rfl := Option.some.inj hnote
      refine ⟨F, ?_⟩
      rw [show t.core = s.core from he]
      exact h

/-- **A switched-out terminal resumes where it stopped**: in every run from the boot in which
    first visits start their shells and launches stay inside their buffers, a switch to a started
    terminal loads the registers that the last switch away from it has saved. -/
theorem loaded_of_run {M : Machine} {s u v : System} {as : List Action} {saved : Saved}
    {next : Term} {r : Regs} {e : ExecEnv} {esp ebp : Nat} (hboot : Boot M s)
    (hok : AllSteps (stepSaved M) (fun sg a => a.Starts M sg.1) (s, fun _ => none) as)
    (hrun : run (stepSaved M) (s, fun _ => none) as = some (u, saved))
    (hkey : keyF M next r e u = some (.loaded esp ebp, v)) :
    Function.update saved u.kernel.currActiveTerm (some (r.esp, r.ebp)) next = some (esp, ebp) := by
  obtain ⟨F, h⟩ := run_invariant (P := fun sg => ∃ F, Resumable M sg.1.core F sg.2)
    (fun _ _ _ h hok hstep => Resumable.of_step h hok hstep) ⟨_, Resumable.boot hboot⟩ hok hrun
  have he := keyF_effect hkey
  generalize v.core = c' at he
  cases he with
  | loaded hnext hi hj => exact h.loaded r hi hj

/-- Other registers than `sampleRegs`. -/
def otherRegs : Regs := { esp := 0x7fbe00, ebp := 0x7fbe40, esp_lt := by decide, ebp_lt := by decide }

/-- The first shell, then the second terminal. -/
def visitRun : List Action := [.execute sampleEnv (some shellName), .function 1 sampleRegs sampleEnv]

/-- Back on the first terminal the registers are those of the moment it was left. -/
theorem loaded_of_visit : ∃ u saved, run (stepSaved (sampleMachine [shellDentry]))
    (bootSystem (sampleMachine [shellDentry]), fun _ => none) visitRun = some (u, saved) ∧
    ∃ esp ebp v, keyF (sampleMachine [shellDentry]) 0 otherRegs sampleEnv u =
      some (.loaded esp ebp, v) ∧
      Function.update saved u.kernel.currActiveTerm (some (otherRegs.esp, otherRegs.ebp)) 0 =
        some (esp, ebp) := by
  have hrun : (run (stepSaved (sampleMachine [shellDentry]))
      (bootSystem (sampleMachine [shellDentry]), fun _ => none) visitRun).any (fun sg =>
        (keyF (sampleMachine [shellDentry]) 0 otherRegs sampleEnv sg.1).any fun out =>
          decide (out.1 = .loaded 0x7fde00 0x7fde40)) = true := by
    decide +kernel
  obtain ⟨⟨u, saved⟩, hu, hkey⟩ := (Option.any_eq_true _ _).1 hrun
  obtain ⟨⟨out, v⟩, hv, hout⟩ := (Option.any_eq_true _ _).1 hkey
  obtain rfl : out = .loaded 0x7fde00 0x7fde40 := of_decide_eq_true hout
  exact ⟨u, saved, hu, _, _, v, hv,
    loaded_of_run (bootSystem_boot _) (by decide +kernel) hu hv⟩

/-- The first shell waits in a system call, and later a program is interrupted on the same stack. -/
def waitingRegs : Regs := { esp := 0x7ffd00, ebp := 0x7ffd40, esp_lt := by decide, ebp_lt := by decide }

def runningRegs : Regs := { esp := 0x7fff00, ebp := 0x7fff40, esp_lt := by decide, ebp_lt := by decide }

/-- The shell of the second terminal starts a program with a search that begins with 0x21, which takes
    slot 0 while the first shell is in it. -/
def strayVisitRun : List Action :=
  [.execute sampleEnv (some shellName), .function 1 waitingRegs sampleEnv,
    .execute sampleEnv (some strayCommand)]

/-- Without the bound on the arguments the first terminal resumes with the registers of the
    second. -/
theorem loaded_stray : ¬ ∀ (M : Machine) (s u v : System) (as : List Action) (saved : Saved)
    (next : Term) (r : Regs) (e : ExecEnv) (esp ebp : Nat), Boot M s →
    (∀ a ∈ as, a.managesProcesses = true) →
    AllSteps (stepSaved M) (fun sg a => a.VisitsStart M sg.1) (s, fun _ => none) as →
    run (stepSaved M) (s, fun _ => none) as = some (u, saved) →
    keyF M next r e u = some (.loaded esp ebp, v) →
    Function.update saved u.kernel.currActiveTerm (some (r.esp, r.ebp)) next = some (esp, ebp) := by
  intro h
  have hrun : (run (stepSaved strayMachine) (bootSystem strayMachine, fun _ => none) strayVisitRun).any
      (fun sg => decide (sg.1.kernel.currActiveTerm = 1 ∧ sg.2 0 = some (0x7ffd00, 0x7ffd40)) &&
        (keyF strayMachine 0 runningRegs sampleEnv sg.1).any fun out =>
          decide (out.1 = .loaded 0x7fff00 0x7fff40)) = true := by
    decide +kernel
  obtain ⟨⟨u, saved⟩, hu, hfacts⟩ := (Option.any_eq_true _ _).1 hrun
  obtain ⟨hstate, hkey⟩ := Bool.and_eq_true_iff.1 hfacts
  obtain ⟨hterm, hsaved⟩ := of_decide_eq_true hstate
  obtain ⟨⟨out, v⟩, hv, hout⟩ := (Option.any_eq_true _ _).1 hkey
  obtain rfl : out = .loaded 0x7fff00 0x7fff40 := of_decide_eq_true hout
  have hclaim := h _ _ u v _ saved 0 runningRegs sampleEnv _ _ (bootSystem_boot _)
    (by simp [strayVisitRun, Action.managesProcesses]) (by decide +kernel) hu hv
  rw [hterm, Function.update_of_ne (by decide), show saved 0 = _ from hsaved] at hclaim
  exact absurd hclaim (by decide)

end Gyarados

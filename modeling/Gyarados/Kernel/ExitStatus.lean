import Gyarados.Kernel.Effects

set_option autoImplicit false

/-! # Exit statuses

`halt` stores the status in the global `g_status`, takes the process off its terminal and goes on in
the `execute` of the parent, which returns `g_status`. When `halt` is entered with interrupts on, they
are on again between the two, so a key can put another terminal to work there. -/

namespace Gyarados

variable {M : Machine} {s s' : System} {k k' : Kernel}

/-! ## What stores a status -/

theorem openFd_gStatus {filename : Option CString} {ret : Int}
    (h : openFd M filename k = some (ret, k')) : k'.gStatus = k.gStatus := by
  cases openFd_outcome h <;> rfl

theorem closeFd_gStatus {fd ret : Int} (h : closeFd M fd k = some (ret, k')) :
    k'.gStatus = k.gStatus := by
  cases closeFd_outcome h <;> rfl

theorem closeFds_gStatus (h : closeFds M k = some k') : k'.gStatus = k.gStatus :=
  closeFds_rel (R := fun k k' => k'.gStatus = k.gStatus) (fun _ => rfl)
    (fun _ _ _ h₁ h₂ => h₂.trans h₁) (fun _ _ _ _ hclose => closeFd_gStatus hclose) h

theorem readFd_gStatus {fd nbytes ret : Int} {bufNull : Bool} {buf : Stores}
    (h : readFd M fd bufNull nbytes s = some (ret, buf, s')) :
    s'.kernel.gStatus = s.kernel.gStatus := by
  cases readFd_outcome h with
  | failed => rfl
  | called _ _ _ _ _ hread => cases driverRead_outcome hread <;> rfl

theorem writeFd_gStatus {fd nbytes ret : Int} {buf : Option Memory}
    (h : writeFd M fd buf nbytes s = some (ret, s')) : s'.kernel.gStatus = s.kernel.gStatus := by
  cases writeFd_outcome h <;> rfl

/-- The running process has a parent, whose `execute` goes on when the process ends. -/
def Kernel.HasParent (k : Kernel) : Prop := k.prevProc k.currActiveTerm ≠ 0

instance (k : Kernel) : Decidable k.HasParent := inferInstanceAs (Decidable (_ ≠ _))

/-- `halt` stores the status unless it starts the first program of a terminal again. -/
theorem halt_gStatus {fInitData : Memory} {status : Nat} {out : HaltOutcome}
    (h : halt M fInitData status k = some (out, k')) :
    k'.gStatus = if k.HasParent then status else k.gStatus := by
  simp only [halt] at h
  obtain ⟨i, -, h⟩ := Option.bind_eq_some_iff.1 h
  split at h
  · rename_i hprev
    have hnone : ¬ k.HasParent := not_not.2 hprev
    rw [if_neg hnone]
    split at h
    · obtain ⟨-, rfl⟩ := by simpa using h
      rfl
    · obtain ⟨-, rfl⟩ := by simpa using h
      rfl
  · rename_i hprev
    have hparent : k.HasParent := hprev
    rw [if_pos hparent]
    obtain ⟨k₁, hclose, h⟩ := Option.bind_eq_some_iff.1 h
    obtain ⟨j, -, h⟩ := Option.map_eq_some_iff.1 h
    obtain ⟨-, rfl⟩ := Prod.mk.inj h
    exact closeFds_gStatus hclose

/-- `execute` faults, on a first word that is NULL or at the end of the program page. -/
def ExecPlan.faults (M : Machine) : ExecPlan → Bool
  | .nullName => true
  | .launch fName _ _ _ => ((M.copyFileToAddr fName).buf programRoom).isSome
  | _ => false

theorem pageFaultExcept_gStatus {fInitData : Memory} {addr : Nat} {out : HaltOutcome}
    (h : pageFaultExcept M fInitData addr s = some (out, s')) :
    s'.kernel.gStatus = if s.kernel.HasParent then 254 else s.kernel.gStatus := by
  simp only [pageFaultExcept] at h
  obtain ⟨⟨out', k₁⟩, hhalt, h⟩ := Option.bind_eq_some_iff.1 h
  have hst := halt_gStatus hhalt
  cases out' with
  | returned => simp at h
  | restarted entry =>
      obtain ⟨-, rfl⟩ := by simpa using h
      exact hst
  | resumed esp ebp =>
      obtain ⟨-, rfl⟩ := by simpa using h
      exact hst

/-- A launch stores no status, and it faults before the process table has changed. -/
theorem execLaunch_gStatus {e : ExecEnv} {fName : List UInt8} {entry : Nat} {slot : Slot}
    {tempArg : Memory} {out : ExecOutcome}
    (h : execLaunch M e fName entry slot tempArg k = some (out, k')) :
    k'.gStatus = k.gStatus ∧
      if ((M.copyFileToAddr fName).buf programRoom).isSome then
        out = .fault 0x8400000 ∧ (k'.HasParent ↔ k.HasParent)
      else ∃ entry, out = .launched entry := by
  simp only [execLaunch] at h
  split at h
  · rename_i hroom
    rw [if_pos hroom]
    obtain ⟨rfl, rfl⟩ := by simpa using h
    exact ⟨rfl, rfl, Iff.rfl⟩
  · rename_i hroom
    rw [if_neg hroom]
    obtain ⟨m, -, h⟩ := Option.map_eq_some_iff.1 h
    obtain ⟨rfl, rfl⟩ := Prod.mk.inj h
    exact ⟨rfl, entry, rfl⟩

theorem callExecute_gStatus {e : ExecEnv} {command : Option CString} {out : CallOutcome}
    (h : callExecute M e command s = some (out, s')) :
    s'.kernel.gStatus =
      if (execPlan M e command s.kernel.currProcIdMask).faults M ∧ s.kernel.HasParent then 254
      else s.kernel.gStatus := by
  obtain ⟨⟨out', s₁⟩, hexec, h⟩ := Option.bind_eq_some_iff.1 h
  replace hexec := carryOut_of_execute hexec
  cases hplan : execPlan M e command s.kernel.currProcIdMask with
  | nullName =>
      rw [hplan] at hexec
      obtain ⟨rfl, rfl⟩ := Prod.mk.inj (Option.some.inj hexec)
      obtain ⟨⟨how, s₁⟩, hfault, heq⟩ := Option.map_eq_some_iff.1 h
      obtain ⟨-, rfl⟩ := Prod.mk.inj heq
      simpa [ExecPlan.faults] using pageFaultExcept_gStatus hfault
  | launch fName entry slot tempArg =>
      rw [hplan] at hexec
      obtain ⟨⟨out', k₁⟩, hlaunch, heq⟩ := Option.map_eq_some_iff.1 hexec
      obtain ⟨rfl, rfl⟩ := Prod.mk.inj heq
      obtain ⟨hst, hroom⟩ := execLaunch_gStatus hlaunch
      split at hroom
      · rename_i hsome
        obtain ⟨rfl, hparent⟩ := hroom
        obtain ⟨⟨how, s₁⟩, hfault, heq⟩ := Option.map_eq_some_iff.1 h
        obtain ⟨-, rfl⟩ := Prod.mk.inj heq
        simpa [ExecPlan.faults, hsome, hparent, hst] using pageFaultExcept_gStatus hfault
      · rename_i hsome
        obtain ⟨entry', rfl⟩ := hroom
        obtain ⟨-, rfl⟩ := Prod.mk.inj (Option.some.inj h)
        simpa [ExecPlan.faults, hsome] using hst
  | _ =>
      rw [hplan] at hexec
      obtain ⟨rfl, rfl⟩ := Prod.mk.inj (Option.some.inj hexec)
      obtain ⟨-, rfl⟩ := Prod.mk.inj (Option.some.inj h)
      simp [ExecPlan.faults]

theorem keyF_gStatus {next : Term} {r : Regs} {e : ExecEnv} {out : SwitchOutcome}
    (h : keyF M next r e s = some (out, s')) :
    s'.kernel.gStatus =
      if s.tty.kbd.started next = false ∧ (execPlan M e (some shellName) s.kernel.currProcIdMask).faults M ∧
          (visit next s).kernel.HasParent then 254
      else s.kernel.gStatus := by
  cases hstarted : s.tty.kbd.started next with
  | false =>
      rw [keyF_of_not_started M r e hstarted] at h
      obtain ⟨i, -, h⟩ := Option.bind_eq_some_iff.1 h
      obtain ⟨⟨how, s₁⟩, hcall, heq⟩ := Option.map_eq_some_iff.1 h
      obtain ⟨-, rfl⟩ := Prod.mk.inj heq
      rw [callExecute_gStatus hcall]
      simp only [true_and]
      rfl
  | true =>
      rw [keyF_of_started M r e hstarted, switchTo] at h
      rw [if_neg (by simp)]
      split at h
      · obtain ⟨-, rfl⟩ := by simpa using h
        rfl
      · obtain ⟨i, -, h⟩ := Option.bind_eq_some_iff.1 h
        obtain ⟨j, -, h⟩ := Option.map_eq_some_iff.1 h
        obtain ⟨-, rfl⟩ := Prod.mk.inj h
        rfl

/-- The status of a process that is killed with interrupts off, by Ctrl-C or by a page fault: its
    parent's `execute` has returned before anything else can happen. -/
def killStatus (M : Machine) (s : System) : Action → Option Nat
  | .ctrlC _ => if s.kernel.HasParent then some 254 else none
  | .execute e command =>
      if (execPlan M e command s.kernel.currProcIdMask).faults M ∧ s.kernel.HasParent then some 254 else none
  | .function next _ e =>
      if s.tty.kbd.started next = false ∧ (execPlan M e (some shellName) s.kernel.currProcIdMask).faults M ∧
          (visit next s).kernel.HasParent then some 254
      else none
  | _ => none

/-- The status that the action stores in `g_status`, if it stores one. -/
def storedStatus (M : Machine) (s : System) : Action → Option Nat
  | .halt _ status => if s.kernel.HasParent then some status.toNat else none
  | a => killStatus M s a

/-- **One action** and `g_status`. -/
theorem step_gStatus {a : Action} (h : step M s a = some s') :
    s'.kernel.gStatus = (storedStatus M s a).getD s.kernel.gStatus := by
  cases a with
  | execute e command =>
      obtain ⟨⟨out, s₁⟩, hcall, rfl⟩ := Option.map_eq_some_iff.1 h
      rw [callExecute_gStatus hcall]
      simp only [storedStatus, killStatus]
      split <;> rfl
  | halt fInitData status =>
      obtain ⟨⟨out, k₁⟩, hhalt, rfl⟩ := Option.map_eq_some_iff.1 h
      rw [halt_gStatus hhalt]
      simp only [storedStatus]
      split <;> rfl
  | openFile filename =>
      obtain ⟨⟨ret, k₁⟩, hopen, rfl⟩ := Option.map_eq_some_iff.1 h
      exact openFd_gStatus hopen
  | closeFile fd =>
      obtain ⟨⟨ret, k₁⟩, hclose, rfl⟩ := Option.map_eq_some_iff.1 h
      exact closeFd_gStatus hclose
  | readFile fd bufNull nbytes =>
      obtain ⟨⟨ret, buf, s₁⟩, hread, rfl⟩ := Option.map_eq_some_iff.1 h
      exact readFd_gStatus hread
  | writeFile fd buf nbytes =>
      obtain ⟨⟨ret, s₁⟩, hwrite, rfl⟩ := Option.map_eq_some_iff.1 h
      exact writeFd_gStatus hwrite
  | ctrlC fInitData =>
      obtain ⟨⟨out, k₁⟩, hhalt, rfl⟩ := Option.map_eq_some_iff.1 h
      rw [halt_gStatus hhalt]
      simp only [storedStatus, killStatus]
      split <;> rfl
  | function next r e =>
      obtain ⟨⟨out, s₁⟩, hkey, rfl⟩ := Option.map_eq_some_iff.1 h
      rw [keyF_gStatus hkey]
      simp only [storedStatus, killStatus]
      split <;> rfl
  | _ =>
      obtain rfl := Option.some.inj h
      rfl

/-! ## The two halves of `halt` -/

/-- The system with the parents whose `execute` has yet to return. -/
structure ExitSystem where
  sys : System
  /-- On each terminal, the status that a child has passed to `halt` when its parent's `execute` has
      not yet read it. -/
  pending : Term → Option Nat

inductive ExitAction
  | act (a : Action)
  /-- The `execute` in which `halt` has gone on returns `g_status`. -/
  | execReturn

/-- The system calls of the running process. -/
def Action.isCall : Action → Bool
  | .execute .. | .halt .. | .openFile .. | .closeFile .. | .readFile .. | .writeFile .. => true
  | _ => false

/-- Ctrl-C leaves the running process alone only when this is the first of its terminal and the shell
    cannot be read. -/
def ReplacesRunning (M : Machine) (k : Kernel) : Prop :=
  k.HasParent ∨ (M.fsRead shellName.val 0 32).ret ≠ -1

instance (M : Machine) (k : Kernel) : Decidable (ReplacesRunning M k) :=
  inferInstanceAs (Decidable (_ ∨ _))

namespace ExitSystem

variable {x y : ExitSystem}

/-- The terminal whose programs run. -/
abbrev running (x : ExitSystem) : Term := x.sys.kernel.currActiveTerm

/-- The parents that wait after the action. -/
def pendingAfter (M : Machine) (x : ExitSystem) : Action → Term → Option Nat
  | .halt _ status =>
      if x.sys.kernel.HasParent then Function.update x.pending x.running (some status.toNat)
      else x.pending
  -- the parent is itself the process that ends, or starts again
  | .ctrlC _ =>
      if ReplacesRunning M x.sys.kernel then Function.update x.pending x.running none else x.pending
  | .function next r e =>
      if killStatus M x.sys (.function next r e) = none then x.pending
      else Function.update x.pending next none
  | _ => x.pending

/-- One action, or the second half of `halt`. A process makes no call before the `execute` it is in has
    returned. -/
def step (M : Machine) (x : ExitSystem) : ExitAction → Option ExitSystem
  | .act a =>
      if a.isCall ∧ x.pending x.running ≠ none then none
      else (Gyarados.step M x.sys a).map fun sys => { sys, pending := x.pendingAfter M a }
  | .execReturn =>
      (x.pending x.running).map fun _ =>
        { x with pending := Function.update x.pending x.running none }

/-- The value that an `execute` returns in this step, `y` being the state reached, together with the
    status that the child it started has passed to `halt`. -/
def returns (M : Machine) (x y : ExitSystem) : ExitAction → Option (Nat × Nat)
  | .act a => (killStatus M x.sys a).map fun status => (y.sys.kernel.gStatus, status)
  | .execReturn => (x.pending x.running).map fun status => (x.sys.kernel.gStatus, status)

/-- The parent gets the status of its own child. -/
def ReturnsOwn (M : Machine) (x : ExitSystem) (a : ExitAction) : Prop :=
  ∀ y ∈ x.step M a, ∀ r ∈ x.returns M y a, r.1 = r.2

instance (M : Machine) (x : ExitSystem) (a : ExitAction) : Decidable (x.ReturnsOwn M a) :=
  inferInstanceAs (Decidable (∀ y ∈ x.step M a, ∀ r ∈ x.returns M y a, r.1 = r.2))

/-- The terminal on which the action ends a process. -/
def endsOn (x : ExitSystem) : Action → Term
  | .function next _ _ => next
  | _ => x.running

/-- No status is stored over a different one that a parent on another terminal has yet to read. -/
def KeepsPending (M : Machine) (x : ExitSystem) : ExitAction → Prop
  | .act a => ∀ status ∈ storedStatus M x.sys a, ∀ u ≠ x.endsOn a, ∀ status' ∈ x.pending u,
      status' = status
  | .execReturn => True

instance (M : Machine) (x : ExitSystem) : ∀ a : ExitAction, Decidable (x.KeepsPending M a)
  | .act a => inferInstanceAs (Decidable (∀ status ∈ storedStatus M x.sys a, ∀ u ≠ x.endsOn a,
      ∀ status' ∈ x.pending u, status' = status))
  | .execReturn => isTrue trivial

/-- What the parents have yet to read is what `g_status` holds. -/
def Agrees (x : ExitSystem) : Prop := ∀ u, ∀ status ∈ x.pending u, x.sys.kernel.gStatus = status

/-- A status that a parent has yet to read is the one just stored, or has been there before, and then
    for a parent on another terminal if anything has been stored. -/
theorem mem_pendingAfter {M : Machine} {a : Action} (hcall : ¬ (a.isCall ∧ x.pending x.running ≠ none))
    {u : Term} {status : Nat} (h : status ∈ x.pendingAfter M a u) :
    status ∈ storedStatus M x.sys a ∨
      status ∈ x.pending u ∧ (storedStatus M x.sys a ≠ none → u ≠ x.endsOn a) := by
  cases a with
  | execute e command =>
      refine .inr ⟨h, fun _ hu => hcall ⟨rfl, fun hnone => ?_⟩⟩
      obtain rfl : u = x.running := hu
      have hbefore : status ∈ x.pending x.running := h
      rw [hnone] at hbefore
      simp at hbefore
  | halt fInitData status' =>
      simp only [pendingAfter] at h
      simp only [storedStatus]
      split at h
      · rename_i hparent
        rw [if_pos hparent]
        by_cases hu : u = x.running
        · subst hu
          rw [Function.update_self] at h
          exact .inl h
        · rw [Function.update_of_ne hu] at h
          exact .inr ⟨h, fun _ => hu⟩
      · rename_i hparent
        rw [if_neg hparent]
        exact .inr ⟨h, fun hne => absurd rfl hne⟩
  | ctrlC fInitData =>
      simp only [pendingAfter] at h
      split at h
      · by_cases hu : u = x.running
        · subst hu
          simp at h
        · rw [Function.update_of_ne hu] at h
          exact .inr ⟨h, fun _ => hu⟩
      · rename_i hsame
        have hparent : ¬ x.sys.kernel.HasParent := fun hparent => hsame (.inl hparent)
        exact .inr ⟨h, fun hne => absurd (if_neg hparent) hne⟩
  | function next r e =>
      simp only [pendingAfter] at h
      split at h
      · rename_i hnone
        exact .inr ⟨h, fun hne => absurd hnone hne⟩
      · by_cases hu : u = next
        · subst hu
          simp at h
        · rw [Function.update_of_ne hu] at h
          exact .inr ⟨h, fun _ => hu⟩
  | _ => exact .inr ⟨h, fun hne => absurd rfl hne⟩

theorem agrees_step {M : Machine} {a : ExitAction} (hx : x.Agrees) (hkeep : x.KeepsPending M a)
    (h : x.step M a = some y) : y.Agrees := by
  intro u status hu
  cases a with
  | act a =>
      simp only [step] at h
      split at h
      · simp at h
      · rename_i hcall
        obtain ⟨sys, hsys, rfl⟩ := Option.map_eq_some_iff.1 h
        show sys.kernel.gStatus = status
        rw [step_gStatus hsys]
        rcases mem_pendingAfter hcall hu with hstored | ⟨hbefore, hother⟩
        · rw [Option.mem_def.1 hstored, Option.getD_some]
        · cases hstored : storedStatus M x.sys a with
          | none => exact hx u status hbefore
          | some status' =>
              have hne : u ≠ x.endsOn a := hother (by simp [hstored])
              exact (hkeep status' hstored u hne status hbefore).symm
  | execReturn =>
      obtain ⟨status', -, rfl⟩ := Option.map_eq_some_iff.1 h
      by_cases hrun : u = x.running
      · subst hrun
        simp at hu
      · exact hx u status (by simpa [Function.update_of_ne hrun] using hu)

theorem storedStatus_of_kill {M : Machine} {s : System} {a : Action} {status : Nat}
    (h : status ∈ killStatus M s a) : status ∈ storedStatus M s a := by
  cases a with
  | halt => simp [killStatus] at h
  | _ => exact h

theorem Agrees.returnsOwn {M : Machine} (hx : x.Agrees) (a : ExitAction) : x.ReturnsOwn M a := by
  intro y hy r hr
  cases a with
  | act a =>
      obtain ⟨status, hkill, rfl⟩ := Option.map_eq_some_iff.1 hr
      simp only [step, Option.mem_def] at hy
      split at hy
      · simp at hy
      · obtain ⟨sys, hsys, rfl⟩ := Option.map_eq_some_iff.1 hy
        show sys.kernel.gStatus = status
        rw [step_gStatus hsys, Option.mem_def.1 (storedStatus_of_kill hkill), Option.getD_some]
  | execReturn =>
      obtain ⟨status, hpending, rfl⟩ := Option.map_eq_some_iff.1 hr
      exact hx _ status hpending

/-- The first shell runs, and no parent waits. -/
def sampleStart : ExitSystem where
  sys := afterShell (sampleMachine [shellDentry])
  pending _ := none

/-- The first shell runs another one, which halts with status 1. Before the first shell has its
    status, F2 starts a second terminal. -/
def sampleExit : List ExitAction :=
  [.act (.execute sampleEnv (some shellName)), .act (.halt (fun _ => 0) 1),
    .act (.function 1 sampleRegs sampleEnv)]

end ExitSystem

end Gyarados

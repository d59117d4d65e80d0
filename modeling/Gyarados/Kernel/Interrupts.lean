import Gyarados.Drivers.I8259
import Gyarados.Foundation.Run
import Gyarados.Kernel.Idt
import Mathlib.Tactic.IntervalCases

set_option autoImplicit false

/-! # Interrupts from the controllers to the routines and back

Devices raise requests, the processor takes the most urgent one, the table sends it to a routine, and the
routine ends it at the controllers. A routine runs with interrupts off, so that it is one step here; one
of the keyboard may leave in the middle, after it has ended its interrupt, and come back much later. -/

namespace Gyarados

/-! ## The system -/

/-- What a routine tells the controllers before interrupts are on again. -/
def IrqEntry.acknowledges : IrqEntry → I8259Pair → I8259Pair
  | pitIrq => sendEoi irqSystemTimer
  | keyIrq => sendEoi irqKeyboardCtrl
  | rtcIrq => sendEoi irqRtc
  | mouseIrq => sendEoi irqMousePs2
  | sbIrq => sendEoi irqParllPrtSnd
  -- whatever the interrupt is, `general_interrupt` ends that of the timer
  | generalIrq => sendEoi irqSystemTimer
  | _ => id

/-- What can happen to the controllers after they are set up. -/
inductive IrqEvent
  | raise (irq : Nat)
  /-- The processor takes the request that is passed on. -/
  | interrupt
  /-- It is told of a request that is gone when it asks, on the master or on the slave. -/
  | gone
  | slaveGone
  /-- A routine of the keyboard that had left comes to its end. -/
  | keypressEnd
  | enable (irq : Nat)
  | disable (irq : Nat)
  deriving DecidableEq, Repr

/-- A vector is sent to its routine. -/
def dispatch (r : BitVec 8 × I8259Pair) : Option I8259Pair :=
  (irqEntry r.1.toNat).map fun entry => entry.acknowledges r.2

/-- One event; line 2 belongs to the slave. -/
def irqStep (p : I8259Pair) : IrqEvent → Option I8259Pair
  | .raise irq => if irq < 16 ∧ irq ≠ 2 then some (p.onLine I8259.raise irq) else none
  | .interrupt =>
      if p.request.isSome then (p.acknowledge p.line (p.slave.request 0)).bind dispatch else none
  | .gone => (p.acknowledge none none).bind dispatch
  | .slaveGone =>
      if p.master.free 2 ∧ p.masked 2 = false then (p.acknowledge (some 2) none).bind dispatch
      else none
  | .keypressEnd => some (sendEoi irqKeyboardCtrl p)
  | .enable irq => if irq < 16 then some (enableIrq irq p) else none
  | .disable irq => if irq < 16 then some (disableIrq irq p) else none

/-- The pair is set up for this table. -/
abbrev TableSetUp (p : I8259Pair) : Prop := p.SetUp 0x20 0x28

/-- A routine that ends its own interrupt. -/
def ownRoutine (irq : Nat) : Bool :=
  irq == irqSystemTimer || irq == irqKeyboardCtrl || irq == irqParllPrtSnd || irq == irqRtc ||
    irq == irqMousePs2

/-- The event is not one that nobody ends: a request without a routine of its own, or one of the slave that
    is gone. -/
def Ended (p : I8259Pair) (e : IrqEvent) : Prop :=
  e ≠ .slaveGone ∧ (e = .interrupt → ∀ irq, p.request = some irq → ownRoutine irq = true)

/-- Controllers that nobody has set up. -/
def unsetPair : I8259Pair :=
  ⟨⟨.ocw1, 0, 0, 0, 0, 0, 0, 0⟩, ⟨.ocw1, 0, 0, 0, 0, 0, 0, 0⟩⟩

/-! ## One event -/

section

variable {p t : I8259Pair} {irq n : Nat} {e : IrqEvent}

/-- The routine of a request ends it if it is its own, and else the timer's. -/
theorem dispatch_vectorFrom (hirq : irq < 16) (q : I8259Pair) :
    dispatch (I8259Pair.vectorFrom 0x20 0x28 irq, q) =
      some (sendEoi (if ownRoutine irq then irq else irqSystemTimer) q) := by
  interval_cases irq <;> rfl

/-- A request is taken, and ended if it has its own routine. -/
theorem irqStep_interrupt (hset : TableSetUp p) (h : p.request = some irq) :
    irqStep p .interrupt =
      some ((p.begin irq).finish (if ownRoutine irq then irq else irqSystemTimer)) := by
  have hirq := I8259Pair.lt_of_request h
  rw [irqStep, if_pos (by rw [h]; rfl), I8259Pair.acknowledge_request hset h, Option.bind_some,
    dispatch_vectorFrom hirq, sendEoi_eq _ (by split <;> [exact hirq; decide])]

theorem irqStep_gone (hset : TableSetUp p) : irqStep p .gone = some (p.finish irqSystemTimer) := by
  rw [irqStep, I8259Pair.acknowledge, I8259Pair.answer_none hset.master, Option.map_some,
    Option.bind_some]
  exact congrArg some (sendEoi_eq p (by decide))

/-- The master takes the line of the slave, and nobody ends it. -/
theorem irqStep_slaveGone (hset : TableSetUp p) (h : p.master.free 2 ∧ p.masked 2 = false) :
    irqStep p .slaveGone =
      some (I8259Pair.finish ⟨p.master.begin 2, p.slave⟩ irqSystemTimer) := by
  rw [irqStep, if_pos h, I8259Pair.acknowledge_slave hset, I8259Pair.answer_none hset.slave,
    Option.map_some, Option.bind_some]
  exact congrArg some (sendEoi_eq _ (by decide))

/-- Everything that an event can do. -/
inductive IrqEffect (p : I8259Pair) : IrqEvent → I8259Pair → Prop
  | raise {irq : Nat} (hirq : irq < 16) (hcascade : irq ≠ 2) :
      IrqEffect p (.raise irq) (p.onLine I8259.raise irq)
  | enable {irq : Nat} (hirq : irq < 16) : IrqEffect p (.enable irq) (p.onLine I8259.enable irq)
  | disable {irq : Nat} (hirq : irq < 16) : IrqEffect p (.disable irq) (p.onLine I8259.disable irq)
  | interrupt {irq : Nat} (h : p.request = some irq) :
      IrqEffect p .interrupt ((p.begin irq).finish (if ownRoutine irq then irq else irqSystemTimer))
  | gone : IrqEffect p .gone (p.finish irqSystemTimer)
  | keypressEnd : IrqEffect p .keypressEnd (p.finish irqKeyboardCtrl)
  | slaveGone (hfree : p.master.free 2 = true) (hmask : p.masked 2 = false) :
      IrqEffect p .slaveGone (I8259Pair.finish ⟨p.master.begin 2, p.slave⟩ irqSystemTimer)

theorem irqStep_effect (hset : TableSetUp p) (h : irqStep p e = some t) : IrqEffect p e t := by
  cases e with
  | raise irq =>
      obtain ⟨⟨hirq, hcascade⟩, hstep⟩ := Option.ite_none_right_eq_some.1 h
      exact Option.some.inj hstep ▸ .raise hirq hcascade
  | enable irq =>
      obtain ⟨hirq, hstep⟩ := Option.ite_none_right_eq_some.1 h
      exact Option.some.inj hstep ▸ enableIrq_eq hset hirq ▸ .enable hirq
  | disable irq =>
      obtain ⟨hirq, hstep⟩ := Option.ite_none_right_eq_some.1 h
      exact Option.some.inj hstep ▸ disableIrq_eq hset hirq ▸ .disable hirq
  | interrupt =>
      obtain ⟨hsome, -⟩ := Option.ite_none_right_eq_some.1 h
      obtain ⟨irq, hreq⟩ := Option.isSome_iff_exists.1 hsome
      rw [irqStep_interrupt hset hreq] at h
      exact Option.some.inj h ▸ .interrupt hreq
  | gone =>
      rw [irqStep_gone hset] at h
      exact Option.some.inj h ▸ .gone
  | keypressEnd =>
      have ht : sendEoi irqKeyboardCtrl p = t := Option.some.inj h
      rw [← ht, sendEoi_eq p (by decide)]
      exact .keypressEnd
  | slaveGone =>
      obtain ⟨hcond, -⟩ := Option.ite_none_right_eq_some.1 h
      rw [irqStep_slaveGone hset hcond] at h
      exact Option.some.inj h ▸ .slaveGone hcond.1 hcond.2

/-- No event changes how the controllers are set up. -/
theorem IrqEffect.setUp (hset : TableSetUp p) (h : IrqEffect p e t) : TableSetUp t := by
  cases h with
  | raise hirq hcascade =>
      refine hset.onLine (fun c n b d h => ⟨h.1, h.2, h.3, h.4, h.5⟩) fun c hlt h => ?_
      rw [I8259.raise, getLsbD_setLine (by decide), h, decide_eq_false hcascade.symm]
      rfl
  | enable hirq => exact hset.onLine (fun c n b d h => ⟨h.1, h.2, h.3, h.4, h.5⟩) fun c _ h => h
  | disable hirq => exact hset.onLine (fun c n b d h => ⟨h.1, h.2, h.3, h.4, h.5⟩) fun c _ h => h
  | interrupt h => exact (hset.begin _).finish _
  | gone => exact hset.finish _
  | keypressEnd => exact hset.finish _
  | slaveGone hfree hmask =>
      have hbegin := hset.begin 8
      have hset' : TableSetUp ⟨p.master.begin 2, p.slave⟩ :=
        ⟨hbegin.master, hset.slave, hbegin.cascade⟩
      exact hset'.finish _

/-! ## Nothing stays in service -/

/-- A line stays in service when another one ends. -/
theorem isr_finish_of_ne (hn : n < 8) (h : p.master.isr.getLsbD n = true)
    (hne : I8259Pair.masterLine irq ≠ n) : (p.finish irq).master.isr.getLsbD n = true := by
  rw [I8259Pair.isr_finish hn, h, decide_eq_true hne.symm, Bool.and_self]

theorem not_idle_of_isr (h : p.master.isr.getLsbD n = true) : ¬ p.Idle := by
  intro hidle
  rw [hidle.master] at h
  exact absurd h (by simp)

/-- The line of the master that an event takes. -/
def lineTaken (p : I8259Pair) : IrqEvent → Nat
  | .interrupt => (p.request.map I8259Pair.masterLine).getD 2
  | _ => 2

theorem ended_of_ne (hslave : e ≠ .slaveGone) (hinterrupt : e ≠ .interrupt) : Ended p e :=
  ⟨hslave, fun h => absurd h hinterrupt⟩

theorem ended_interrupt (h : p.request = some irq) :
    Ended p .interrupt ↔ ownRoutine irq = true := by
  refine ⟨fun hended => hended.2 rfl irq h, fun hown => ⟨nofun, fun _ irq' h' => ?_⟩⟩
  rwa [← Option.some.inj (h.symm.trans h')]

/-- A request without its own routine is not that of the timer or the keyboard. -/
theorem two_le_masterLine (h : ownRoutine irq = false) : 2 ≤ I8259Pair.masterLine irq := by
  rw [I8259Pair.masterLine]
  split
  · rcases irq with _ | _ | n
    · exact absurd h (by decide)
    · exact absurd h (by decide)
    · omega
  · exact Nat.le_refl 2

/-- An event that nobody ends keeps its line in service. -/
theorem IrqEffect.kept (hset : TableSetUp p) (h : IrqEffect p e t) (he : ¬ Ended p e) :
    2 ≤ lineTaken p e ∧ lineTaken p e < 8 ∧ t.master.isr.getLsbD (lineTaken p e) = true := by
  cases h with
  | raise hirq hcascade => exact (he (ended_of_ne nofun nofun)).elim
  | enable hirq => exact (he (ended_of_ne nofun nofun)).elim
  | disable hirq => exact (he (ended_of_ne nofun nofun)).elim
  | gone => exact (he (ended_of_ne nofun nofun)).elim
  | keypressEnd => exact (he (ended_of_ne nofun nofun)).elim
  | @interrupt irq h =>
      have hown : ownRoutine irq = false := by
        rw [ended_interrupt h] at he
        exact Bool.eq_false_of_not_eq_true he
      have hline := I8259Pair.line_of_request h
      have htwo := two_le_masterLine hown
      have htaken : lineTaken p .interrupt = I8259Pair.masterLine irq := by rw [lineTaken, h]; rfl
      rw [htaken, hown]
      refine ⟨htwo, hline.2.1, isr_finish_of_ne hline.2.1 ?_ (show 0 ≠ _ by omega)⟩
      rw [I8259Pair.isr_begin hset hline.2.1, decide_eq_true rfl, Bool.or_true]
  | slaveGone hfree hmask =>
      have hbegin := @I8259Pair.isr_begin p _ _ 8 2 hset (by decide)
      have h2 : (p.master.begin 2).isr.getLsbD 2 = true := hbegin.trans (Bool.or_true _)
      exact ⟨Nat.le_refl 2, show 2 < 8 by decide,
        @isr_finish_of_ne ⟨p.master.begin 2, p.slave⟩ _ 2 (by decide) h2 (by decide)⟩

/-- **One event leaves nothing in service exactly when it is ended.** -/
theorem IrqEffect.idle_iff (hset : TableSetUp p) (hidle : p.Idle) (h : IrqEffect p e t) :
    Ended p e ↔ t.Idle := by
  refine ⟨fun hended => ?_, fun ht => by_contra fun he => not_idle_of_isr (h.kept hset he).2.2 ht⟩
  cases h with
  | raise hirq hcascade => exact hidle.onLine fun _ _ => rfl
  | enable hirq => exact hidle.onLine fun _ _ => rfl
  | disable hirq => exact hidle.onLine fun _ _ => rfl
  | gone => exact (hidle.finish _).symm ▸ hidle
  | keypressEnd => exact (hidle.finish _).symm ▸ hidle
  | interrupt h =>
      rw [if_pos ((ended_interrupt h).1 hended), I8259Pair.finish_begin hset hidle]
      exact hidle.onLine fun _ _ => rfl
  | slaveGone hfree hmask => exact absurd rfl hended.1

/-- **Interrupts are ended.** From the set-up on, in whatever state the controllers were before, nothing is
    in service after any event exactly when every event is one that somebody ends. -/
theorem idle_throughout_iff (p : I8259Pair) (es : List IrqEvent) :
    AllSteps irqStep (fun s e => ∀ t, irqStep s e = some t → t.Idle) (i8259Init p) es ↔
      AllSteps irqStep (fun s e => ∀ t, irqStep s e = some t → Ended s e) (i8259Init p) es := by
  have hstart : TableSetUp (i8259Init p) ∧ (i8259Init p).Idle := ⟨setUp_i8259Init p, idle_i8259Init p⟩
  have hiff : ∀ s e t, TableSetUp s ∧ s.Idle → irqStep s e = some t →
      TableSetUp t ∧ (Ended s e ↔ t.Idle) := fun s e t hs ht =>
    have heffect := irqStep_effect hs.1 ht
    ⟨heffect.setUp hs.1, heffect.idle_iff hs.1 hs.2⟩
  constructor <;> intro h
  · exact AllSteps.of_invariant (P := fun s => TableSetUp s ∧ s.Idle)
      (fun s e t hs hok ht => ⟨(hiff s e t hs ht).1, hok t ht⟩)
      (fun s e hs hok t ht => (hiff s e t hs ht).2.2 (hok t ht)) hstart h
  · exact AllSteps.of_invariant (P := fun s => TableSetUp s ∧ s.Idle)
      (fun s e t hs hok ht => ⟨(hiff s e t hs ht).1, (hiff s e t hs ht).2.1 (hok t ht)⟩)
      (fun s e hs hok t ht => (hiff s e t hs ht).2.1 (hok t ht)) hstart h

/-! ## An event without an end -/

/-- While line `n` is in service, every event leaves it there, and only more urgent lines are taken. -/
theorem IrqEffect.blocked (hset : TableSetUp p) (h2 : 2 ≤ n) (hn : n < 8)
    (hisr : p.master.isr.getLsbD n = true) (h : IrqEffect p e t) :
    t.master.isr.getLsbD n = true ∧
      (e = .interrupt → ∀ irq, p.request = some irq → I8259Pair.masterLine irq < n) := by
  have hbelow : ∀ irq, p.request = some irq → I8259Pair.masterLine irq < n := by
    intro irq h
    have hfree := (I8259Pair.line_of_request h).2.2
    by_contra hle
    rw [I8259.free_eq_false (Nat.le_of_not_lt hle) hisr] at hfree
    exact absurd hfree nofun
  refine ⟨?_, fun _ => hbelow⟩
  cases h with
  | raise hirq hcascade => rwa [I8259Pair.isr_onLine (f := I8259.raise) fun _ _ => rfl]
  | enable hirq => rwa [I8259Pair.isr_onLine (f := I8259.enable) fun _ _ => rfl]
  | disable hirq => rwa [I8259Pair.isr_onLine (f := I8259.disable) fun _ _ => rfl]
  | gone => exact isr_finish_of_ne hn hisr (show 0 ≠ n by omega)
  | keypressEnd => exact isr_finish_of_ne hn hisr (show 1 ≠ n by omega)
  | @interrupt irq h =>
      have hbegin : (p.begin irq).master.isr.getLsbD n = true := by
        rw [I8259Pair.isr_begin hset hn, hisr, Bool.true_or]
      refine isr_finish_of_ne hn hbegin ?_
      split
      · exact Nat.ne_of_lt (hbelow irq h)
      · exact show 0 ≠ n by omega
  | slaveGone hfree hmask =>
      have hbegin : (p.begin 8).master.isr.getLsbD n = true := by
        rw [I8259Pair.isr_begin hset hn, hisr, Bool.true_or]
      exact @isr_finish_of_ne ⟨p.master.begin 2, p.slave⟩ _ _ hn hbegin (show 0 ≠ n by omega)

/-- **An interrupt that nobody ends blocks its line and the less urgent ones for good.** After such an
    event every interrupt that is ever taken comes through a more urgent line of the master. -/
theorem blocked_of_run (p : I8259Pair) (es es' : List IrqEvent) (e : IrqEvent) (s t : I8259Pair)
    (hrun : run irqStep (i8259Init p) es = some s) (hstep : irqStep s e = some t) (he : ¬ Ended s e) :
    AllSteps irqStep (fun s' e' => e' = .interrupt → ∀ irq, s'.request = some irq →
      I8259Pair.masterLine irq < lineTaken s e) t es' := by
  have hset : TableSetUp s := run_preserves (P := TableSetUp)
    (fun s e t hs ht => (irqStep_effect hs ht).setUp hs) (setUp_i8259Init p) hrun
  have heffect := irqStep_effect hset hstep
  obtain ⟨h2, h8, hisr⟩ := heffect.kept hset he
  refine AllSteps.of_invariant
    (P := fun s' => TableSetUp s' ∧ s'.master.isr.getLsbD (lineTaken s e) = true)
    (fun s' e' t' hs' (_ : True) ht' => ?_) (fun s' e' hs' _ he' irq hreq => ?_)
    ⟨heffect.setUp hset, hisr⟩ (.of_forall fun _ _ => trivial)
  · have heffect' := irqStep_effect hs'.1 ht'
    exact ⟨heffect'.setUp hs'.1, (heffect'.blocked hs'.1 h2 h8 hs'.2).1⟩
  · have heffect' := irqStep_effect hs'.1 (irqStep_interrupt hs'.1 hreq)
    exact (heffect'.blocked hs'.1 h2 h8 hs'.2).2 rfl irq hreq

/-- The clock is not taken after a request of the slave that was gone. -/
theorem blocked_of_run_clock : ∃ s t, run irqStep (i8259Init unsetPair) [.enable 2, .enable 8] = some s ∧
    irqStep s .slaveGone = some t ∧
    AllSteps irqStep (fun s' e' => e' = .interrupt → ∀ irq, s'.request = some irq →
      I8259Pair.masterLine irq < 2) t [.raise 8, .interrupt] :=
  ⟨_, _, rfl, rfl, blocked_of_run unsetPair [.enable 2, .enable 8] _ .slaveGone _ _ rfl rfl
    fun h => h.1 rfl⟩

/-! ## Masks -/

/-- What an event makes of the mask of a request. -/
def IrqEvent.maskAfter (irq : Nat) (masked : Bool) : IrqEvent → Bool
  | enable irq' => masked && !decide (irq = irq')
  | disable irq' => masked || decide (irq = irq')
  | _ => masked

theorem IrqEffect.masked (hirq : irq < 16) (h : IrqEffect p e t) :
    t.masked irq = e.maskAfter irq (p.masked irq) := by
  cases h with
  | @raise irq' _ _ =>
      exact @I8259Pair.lineOf_onLine_same p I8259.imr I8259.raise (fun _ _ => rfl) irq' irq
  | enable hirq' => exact I8259Pair.masked_enable hirq' hirq
  | disable hirq' => exact I8259Pair.masked_disable hirq' hirq
  | interrupt h => exact (I8259Pair.masked_finish _ _ irq).trans (I8259Pair.masked_begin p _ irq)
  | gone => exact I8259Pair.masked_finish p _ irq
  | keypressEnd => exact I8259Pair.masked_finish p _ irq
  | slaveGone hfree hmask => exact I8259Pair.masked_finish _ _ irq

theorem masked_i8259Init (p : I8259Pair) (hirq : irq < 16) : (i8259Init p).masked irq = true := by
  rw [i8259Init_eq]
  revert irq
  decide

/-- **A request is masked as the last call about it says**, whatever else happens in between. -/
theorem masked_of_run (p : I8259Pair) (es : List IrqEvent) (u : I8259Pair) (irq : Nat) (hirq : irq < 16)
    (hrun : run irqStep (i8259Init p) es = some u) :
    u.masked irq = es.foldl (IrqEvent.maskAfter irq) true := by
  rw [← masked_i8259Init p hirq]
  have hset := setUp_i8259Init p
  generalize i8259Init p = s at hrun hset
  induction es generalizing s with
  | nil =>
      obtain rfl := Option.some.inj hrun
      rfl
  | cons e es ih =>
      obtain ⟨t, ht, hrun⟩ := run_cons_eq_some.1 hrun
      have heffect := irqStep_effect hset ht
      rw [List.foldl_cons, ← heffect.masked hirq]
      exact ih t hrun (heffect.setUp hset)

theorem masked_of_run_twice : ∃ u, run irqStep (i8259Init unsetPair)
    [.enable 8, .raise 8, .disable 8, .enable 1] = some u ∧ u.masked 8 = true :=
  ⟨_, rfl, masked_of_run unsetPair [.enable 8, .raise 8, .disable 8, .enable 1] _ 8 (by decide) rfl⟩

/-! ## Every request is served -/

/-- The requests that are taken in a run. -/
def noteRequest (p : I8259Pair) (e : IrqEvent) (_ : I8259Pair) (taken : List Nat) : Option (List Nat) :=
  match e with
  | .interrupt => p.request.map fun irq => taken ++ [irq]
  | _ => some taken

theorem irqStep_own (hset : TableSetUp p) (hidle : p.Idle) (h : p.request = some irq)
    (hown : ownRoutine irq = true) :
    irqStep p .interrupt =
      some (p.onLine I8259.served irq) := by
  rw [irqStep_interrupt hset h, if_pos hown, I8259Pair.finish_begin hset hidle]

/-- What is waiting after the most urgent request has been served. -/
theorem waiting_served {l : List Nat} (hirq : irq < 16)
    (h : I8259Pair.priorities.filter p.waiting = irq :: l) :
    I8259Pair.priorities.filter (p.onLine I8259.served irq).waiting = l := by
  have hnodup : (irq :: l).Nodup := h ▸ I8259Pair.nodup_priorities.filter _
  have hl : l.filter (fun irq' => !decide (irq' = irq)) = l := by
    refine List.filter_eq_self.2 fun irq' hmem => ?_
    have hne : irq' ≠ irq := fun heq => (List.nodup_cons.1 hnodup).1 (heq ▸ hmem)
    simp [hne]
  rw [List.filter_congr fun irq' hmem =>
      (I8259Pair.waiting_clear hirq (I8259Pair.lt_of_mem_priorities hmem)).trans (Bool.and_comm _ _),
    ← List.filter_filter, h, List.filter_cons_of_neg (by simp), hl]

/-- The requests that are waiting are taken in their order, each one once, and nothing else changes. -/
theorem exists_run_served (l : List Nat) : ∀ (s : I8259Pair) (taken : List Nat), TableSetUp s → s.Idle →
    I8259Pair.priorities.filter s.waiting = l → (∀ irq ∈ l, ownRoutine irq = true) →
    ∃ u, run (withGhost irqStep noteRequest) (s, taken) (List.replicate l.length .interrupt) =
        some (u, taken ++ l) ∧ TableSetUp u ∧ u.Idle ∧
      ∀ irq < 16, u.masked irq = s.masked irq ∧ u.pending irq = (s.pending irq && !decide (irq ∈ l)) := by
  induction l with
  | nil => exact fun s taken hset hidle _ _ => ⟨s, by simp, hset, hidle, by simp⟩
  | cons irq l ih =>
      intro s taken hset hidle hwaiting hown
      have hreq : s.request = some irq := by
        rw [I8259Pair.request_of_idle hset hidle, ← List.head?_filter, hwaiting]
        rfl
      have hirq := I8259Pair.lt_of_request hreq
      have hstep := irqStep_own hset hidle hreq (hown irq List.mem_cons_self)
      obtain ⟨u, hrun, hsetu, hu, hlines⟩ := ih _ (taken ++ [irq]) ((irqStep_effect hset hstep).setUp hset)
        (hidle.onLine fun _ _ => rfl) (waiting_served hirq hwaiting)
        fun irq' hmem => hown irq' (List.mem_cons_of_mem _ hmem)
      refine ⟨u, ?_, hsetu, hu, fun irq' hirq' => ?_⟩
      · rw [List.length_cons, List.replicate_succ, run_cons_eq_some]
        refine ⟨(s.onLine I8259.served irq, taken ++ [irq]), withGhost_eq_some.2 ⟨hstep, ?_⟩, ?_⟩
        · rw [noteRequest, hreq, Option.map_some]
        · rw [hrun, List.append_assoc]
          rfl
      · obtain ⟨hmask, hpending⟩ := hlines irq' hirq'
        refine ⟨hmask.trans ?_, ?_⟩
        · exact @I8259Pair.lineOf_onLine_same s I8259.imr I8259.served (fun _ _ => rfl) irq irq'
        · rw [hpending, I8259Pair.pending_clear hirq hirq']
          simp [List.mem_cons, Bool.and_assoc]

/-- The requests that `entry` enables, in its order. -/
def entryIrqs : List Nat :=
  [irqCasSig, irqKeyboardCtrl, irqMousePs2, irqRtc, irqSystemTimer, irqParllPrtSnd]

/-- An event of a kernel that enables what `entry` does, while no request of the slave goes away. -/
def KernelEvent (e : IrqEvent) : Prop := e ≠ .slaveGone ∧ ∀ irq, e = .enable irq → irq ∈ entryIrqs

/-- What holds in every state of such a kernel: whatever can be taken is ended. -/
structure Attended (p : I8259Pair) : Prop where
  setUp : TableSetUp p
  idle : p.Idle
  masked : ∀ irq < 16, p.masked irq = false → irq ∈ entryIrqs

/-- A request that is waiting has its own routine: nothing asks at the line of the slave. -/
theorem Attended.own (hattended : Attended p) (hirq : irq < 16) (hwaiting : p.waiting irq = true) :
    ownRoutine irq = true := by
  have hown : ∀ irq ∈ entryIrqs, irq = irqCasSig ∨ ownRoutine irq = true := by decide
  simp only [I8259Pair.waiting, Bool.and_eq_true, Bool.not_eq_true'] at hwaiting
  obtain ⟨⟨hpending, hmask⟩, -⟩ := hwaiting
  refine (hown irq (hattended.masked irq hirq hmask)).resolve_left ?_
  rintro rfl
  exact Bool.false_ne_true (hattended.setUp.cascade.symm.trans hpending)

theorem attended_i8259Init (p : I8259Pair) : Attended (i8259Init p) := by
  refine ⟨setUp_i8259Init p, idle_i8259Init p, fun irq hirq hmask => ?_⟩
  exact absurd (hmask.symm.trans (masked_i8259Init p hirq)) Bool.false_ne_true

theorem Attended.step (hattended : Attended p) (he : KernelEvent e) (h : irqStep p e = some t) : Attended t := by
  have heffect := irqStep_effect hattended.setUp h
  have hended : Ended p e := by
    refine ⟨he.1, fun _ irq hreq => hattended.own (I8259Pair.lt_of_request hreq) ?_⟩
    exact I8259Pair.waiting_of_request hattended.setUp hattended.idle hreq
  refine ⟨heffect.setUp hattended.setUp, (heffect.idle_iff hattended.setUp hattended.idle).1 hended, ?_⟩
  intro irq hirq hmask
  rw [heffect.masked hirq] at hmask
  cases e with
  | enable irq' =>
      by_cases hsame : irq = irq'
      · exact hsame ▸ he.2 irq' rfl
      · rw [IrqEvent.maskAfter, decide_eq_false hsame, Bool.not_false, Bool.and_true] at hmask
        exact hattended.masked irq hirq hmask
  | disable irq' => exact hattended.masked irq hirq (Bool.or_eq_false_iff.1 hmask).1
  | raise irq' => exact hattended.masked irq hirq hmask
  | interrupt => exact hattended.masked irq hirq hmask
  | gone => exact hattended.masked irq hirq hmask
  | slaveGone => exact hattended.masked irq hirq hmask
  | keypressEnd => exact hattended.masked irq hirq hmask

/-- **No interrupt is lost, and none is taken twice.** After any run of the kernel from boot, with the
    controllers in any state before, nothing is in service; and if interrupts are then taken as long as a
    request is passed on, they are the requests that were waiting, in their order, each one once. -/
theorem served_of_run (p : I8259Pair) (es : List IrqEvent) (s : I8259Pair) (hes : ∀ e ∈ es, KernelEvent e)
    (hrun : run irqStep (i8259Init p) es = some s) :
    s.Idle ∧ ∃ u, run (withGhost irqStep noteRequest) (s, [])
        (List.replicate (I8259Pair.priorities.filter s.waiting).length .interrupt) =
          some (u, I8259Pair.priorities.filter s.waiting) ∧
      u.Idle ∧ u.request = none ∧
      ∀ irq < 16, u.masked irq = s.masked irq ∧
        u.pending irq = (s.pending irq && !s.waiting irq) := by
  have hattended : Attended s :=
    @run_invariant _ _ irqStep Attended (fun _ e => KernelEvent e) (fun s e t hs hok ht => hs.step hok ht)
      es _ _ (attended_i8259Init p) (.of_forall_mem hes) hrun
  have hmem : ∀ irq < 16, irq ∈ I8259Pair.priorities.filter s.waiting ↔ s.waiting irq = true := by
    intro irq hirq
    rw [List.mem_filter, and_iff_right_iff_imp]
    exact fun hwaiting => I8259Pair.mem_priorities hattended.setUp hirq hwaiting
  obtain ⟨u, hserved, hset, hidle, hlines⟩ := exists_run_served _ s [] hattended.setUp hattended.idle rfl
    fun irq hirq => hattended.own (I8259Pair.lt_of_mem_priorities (List.mem_filter.1 hirq).1)
      (List.mem_filter.1 hirq).2
  have hpending : ∀ irq < 16, u.pending irq = (s.pending irq && !s.waiting irq) := by
    intro irq hirq
    simp only [(hlines irq hirq).2, hmem irq hirq, Bool.decide_eq_true]
  refine ⟨hattended.idle, u, hserved, hidle, ?_, fun irq hirq => ⟨(hlines irq hirq).1, hpending irq hirq⟩⟩
  rw [I8259Pair.request_of_idle hset hidle, List.find?_eq_none]
  intro irq hirq
  have hlt := I8259Pair.lt_of_mem_priorities hirq
  have hsame : u.waiting irq = (s.pending irq && !s.waiting irq && !s.masked irq &&
      (decide (irq < 8) || !s.masked 2)) := by
    rw [I8259Pair.waiting, hpending irq hlt, (hlines irq hlt).1, (hlines 2 (by decide)).1]
  rw [hsame, I8259Pair.waiting]
  cases s.pending irq <;> cases s.masked irq <;> simp

theorem served_of_run_clock : ∃ s, run irqStep (i8259Init unsetPair)
    (entryIrqs.map .enable ++ [.raise 8, .raise 14, .raise 1]) = some s ∧ s.Idle :=
  ⟨_, rfl, (served_of_run unsetPair (entryIrqs.map .enable ++ [.raise 8, .raise 14, .raise 1]) _
    (by simp [KernelEvent, entryIrqs]) rfl).1⟩

end

end Gyarados

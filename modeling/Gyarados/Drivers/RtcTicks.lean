import Gyarados.Drivers.Rtc

set_option autoImplicit false

/-! # The interrupts of the real-time clock

The line of the clock chip stays up until its flags are read, and an interrupt comes only when the line
goes up. The handler reads the flags, so the clock goes on ticking; a read of the device uses up the
interrupt that it has waited for. -/

namespace Gyarados

namespace Rtc

section

variable {logBase2 : Int → ℚ} {s s' : State} {P : Prop}

/-! ## The clock goes on -/

/-- An interrupt that is up is waiting or is being handled. -/
structure Delivered (s : State) : Prop where
  handler : s.handler.ops <:+ rtcHandleInterrupt
  index : s.handler.ops = [.inDiscard, .restoreFlags, .iret] → s.cmos.index = Cmos.regC
  line : s.cmos.line = true → s.latched = true ∨ .inDiscard ∈ s.handler.ops
  inService : s.inService = true → .sendEoi ∈ s.handler.ops

/-- The accesses of the handler, one after the other. -/
theorem cases_of_suffix {op : Op} {ops : List Op} (h : op :: ops <:+ rtcHandleInterrupt) :
    (op, ops) ∈ [(.cliAndSave, [.setOccurred, .sendEoi, .outIndex 0x0c, .inDiscard, .restoreFlags, .iret]),
      (.setOccurred, [.sendEoi, .outIndex 0x0c, .inDiscard, .restoreFlags, .iret]),
      (.sendEoi, [.outIndex 0x0c, .inDiscard, .restoreFlags, .iret]),
      (.outIndex 0x0c, [.inDiscard, .restoreFlags, .iret]),
      (.inDiscard, [.restoreFlags, .iret]), (.restoreFlags, [.iret]), (.iret, [])] := by
  simpa [rtcHandleInterrupt, List.suffix_cons_iff] using h

/-- What an access of the handler leads to. -/
theorem handler_of_next {op : Op} {ops : List Op} (hops : s.handler.ops = op :: ops)
    (hnext : next s = some s') : s' = { (op.exec s { s.handler with ops }).1 with
      handler := (op.exec s { s.handler with ops }).2 } := by
  rw [next, hops] at hnext
  exact (Option.some.inj hnext).symm

theorem Delivered.next_handler (h : Delivered s) {op : Op} {ops : List Op}
    (hops : s.handler.ops = op :: ops) (hnext : next s = some s') : Delivered s' := by
  obtain ⟨hsuffix, hindex, hline, hservice⟩ := h
  rw [hops] at hsuffix hindex hline hservice
  have hrest := (List.suffix_cons op ops).trans hsuffix
  obtain rfl := handler_of_next hops hnext
  have hcases := cases_of_suffix hsuffix
  simp only [List.mem_cons, Prod.mk.injEq, List.not_mem_nil, or_false] at hcases
  obtain ⟨rfl, rfl⟩ | ⟨rfl, rfl⟩ | ⟨rfl, rfl⟩ | ⟨rfl, rfl⟩ | ⟨rfl, rfl⟩ | ⟨rfl, rfl⟩ | ⟨rfl, rfl⟩ :=
    hcases
  · exact ⟨hrest, nofun, fun hup => .inr (by simp [Op.exec]), fun _ => by simp [Op.exec]⟩
  · exact ⟨hrest, nofun, fun hup => .inr (by simp [Op.exec]), fun _ => by simp [Op.exec]⟩
  · exact ⟨hrest, nofun, fun hup => .inr (by simp [Op.exec]), nofun⟩
  · exact ⟨hrest, fun _ => rfl, fun hup => .inr (by simp [Op.exec]), by simpa [Op.exec] using hservice⟩
  -- the flags are read, and the line goes down
  · have hdown : s.cmos.read.line = false := by
      rw [Cmos.line_read, hindex rfl, bne_self_eq_false, Bool.and_false]
    exact ⟨hrest, nofun, fun hup => absurd (hup.symm.trans hdown) (by decide),
      by simpa [Op.exec] using hservice⟩
  · exact ⟨hrest, nofun, by simpa [Op.exec] using hline, by simpa [Op.exec] using hservice⟩
  · exact ⟨hrest, nofun, by simpa [Op.exec] using hline, by simpa [Op.exec] using hservice⟩

/-- A line that has gone up is latched. -/
theorem latched_drive {c : Cmos} (hup : c.line = true) (hline : s.cmos.line = true → s.latched = true ∨ P) :
    (s.drive c).latched = true ∨ P := by
  rw [State.drive, hup, Bool.and_true, Bool.or_eq_true]
  cases h : s.cmos.line with
  | false => exact .inl (.inr rfl)
  | true => exact (hline h).imp_left .inl

/-- An access raises the line only with the interrupt latched, and takes none into service. -/
theorem exec_signals (op : Op) (s : State) (th : Thread) :
    ((op.exec s th).1.cmos.line = true → s.cmos.line = true ∨ (op.exec s th).1.latched = true) ∧
      (s.latched = true → (op.exec s th).1.latched = true) ∧
      ((op.exec s th).1.inService = true → s.inService = true) := by
  have hread : s.cmos.read.line = true → s.cmos.line = true := by
    rw [Cmos.line_read]
    exact fun h => (Bool.and_eq_true_iff.1 h).1
  cases op with
  | inPrevious | inDiscard => exact ⟨fun h => .inl (hread h), id, id⟩
  | outData keep set =>
      exact ⟨fun h => (latched_drive h .inr).symm, fun h => Bool.or_eq_true_iff.2 (.inl h), id⟩
  | sendEoi => exact ⟨.inl, id, nofun⟩
  | _ => exact ⟨.inl, id, id⟩

theorem Delivered.next_thread (h : Delivered s) (hidle : s.handler.ops = []) {op : Op}
    {ops : List Op} (hops : (s.thread s.curr).ops = op :: ops) (hnext : next s = some s') :
    Delivered s' := by
  have hsteps := steps_of_next hidle hops hnext
  obtain ⟨hline, hlatched, hservice⟩ := exec_signals op s { s.thread s.curr with ops }
  rw [← hsteps.cmos, ← hsteps.latched] at hline
  rw [← hsteps.latched] at hlatched
  rw [← hsteps.inService] at hservice
  refine ⟨hsteps.handler ▸ h.handler, ?_, fun hup => ?_, fun hup => ?_⟩
  · rw [hsteps.handler, hidle]
    exact nofun
  · rw [hsteps.handler]
    obtain hline | hlatched' := hline hup
    · exact (h.line hline).imp_left hlatched
    · exact .inl hlatched'
  · rw [hsteps.handler]
    exact h.inService (hservice hup)

/-- The chip ticks: its line was up, or the interrupt is latched. -/
theorem Delivered.tick (h : Delivered s) : Delivered (s.drive s.cmos.tick) :=
  ⟨h.handler, h.index, fun hup => latched_drive hup h.line, h.inService⟩

/-- **The step lemma.** -/
theorem Delivered.step {e : Event} (h : Delivered s) (hstep : step logBase2 s e = some s') :
    Delivered s' := by
  cases e with
  | call c =>
      rw [Rtc.step] at hstep
      split at hstep
      · obtain rfl := Option.some.inj hstep
        exact ⟨h.handler, h.index, h.line, h.inService⟩
      · cases hstep
  | next =>
      cases hops : s.handler.ops with
      | cons op ops => exact h.next_handler hops hstep
      | nil =>
          cases hops' : (s.thread s.curr).ops with
          | nil =>
              simp only [Rtc.step, next, hops, hops'] at hstep
              cases hstep
          | cons op ops => exact h.next_thread hops hops' hstep
  | tick => exact Option.some.inj hstep ▸ h.tick
  | advance r v =>
      obtain rfl := Option.some.inj hstep
      exact ⟨h.handler, fun hops => (Cmos.index_advance ..).trans (h.index hops),
        fun hup => h.line ((Cmos.line_advance ..).symm.trans hup), h.inService⟩
  | interrupt =>
      rw [Rtc.step] at hstep
      split at hstep
      · obtain rfl := Option.some.inj hstep
        exact ⟨List.suffix_refl _, fun hops => absurd hops (by simp [rtcHandleInterrupt]),
          fun _ => .inr (by simp [rtcHandleInterrupt]), fun _ => by simp [rtcHandleInterrupt]⟩
      · cases hstep
  | switch t =>
      rw [Rtc.step] at hstep
      split at hstep
      · obtain rfl := Option.some.inj hstep
        exact ⟨h.handler, h.index, h.line, h.inService⟩
      · cases hstep

/-- An interrupt that is taken is over after the seven accesses of its handler. -/
theorem run_handler (hready : s.intf = true ∧ s.latched = true ∧ s.inService = false ∧
    s.handler.ops = []) : ∃ u, run (step logBase2) s (.interrupt :: List.replicate 7 .next) = some u ∧
      u.cmos.line = false ∧ u.intf = true ∧ u.intrOcc = true ∧ u.handler.ops = [] ∧
      u.thread = s.thread := by
  have hdown : (s.cmos.select 0x0c).read.line = false := by
    rw [Cmos.line_read]
    exact Bool.and_false _
  refine ⟨_, run_cons_eq_some.2 ⟨_, if_pos hready, rfl⟩, hdown, rfl, rfl, rfl, rfl⟩

end

/-- **The clock goes on ticking.** Whatever has come in between, an interrupt that is up while no handler
    runs can be taken as soon as interrupts are on, and then it is down after seven accesses, the waiting
    program is told, and no thread has been touched. -/
theorem interrupt_of_run (logBase2 : Int → ℚ) (s₀ s : State) (hidle₀ : s₀.handler.ops = [])
    (hline₀ : s₀.cmos.line = false) (hservice₀ : s₀.inService = false) (events : List Event)
    (hrun : run (step logBase2) s₀ events = some s) (hidle : s.handler.ops = [])
    (hintf : s.intf = true) (hup : s.cmos.line = true) :
    ∃ u, run (step logBase2) s (.interrupt :: List.replicate 7 .next) = some u ∧
      u.cmos.line = false ∧ u.intf = true ∧ u.intrOcc = true ∧ u.handler.ops = [] ∧
      u.thread = s.thread := by
  have h₀ : Delivered s₀ := by
    refine ⟨hidle₀ ▸ List.nil_suffix, ?_, fun hup => ?_, fun hup => ?_⟩
    · rw [hidle₀]
      exact nofun
    · exact absurd (hup.symm.trans hline₀) (by decide)
    · exact absurd (hup.symm.trans hservice₀) (by decide)
  have h : Delivered s := run_preserves (fun _ _ _ h hstep => h.step hstep) h₀ hrun
  have hlatched := h.line hup
  have hservice := h.inService
  rw [hidle] at hlatched hservice
  exact run_handler ⟨hintf, hlatched.resolve_right List.not_mem_nil,
    Bool.eq_false_iff.2 fun h => absurd (hservice h) List.not_mem_nil, hidle⟩

theorem interrupt_of_run_tick : ∃ s, run (step exactLog) restingState [.call .read, .next, .tick] = some s ∧
    ∃ u, run (step exactLog) s (.interrupt :: List.replicate 7 .next) = some u ∧
      u.cmos.line = false ∧ u.intf = true ∧ u.intrOcc = true ∧ u.handler.ops = [] ∧
      u.thread = s.thread :=
  ⟨_, rfl, interrupt_of_run exactLog restingState _ rfl rfl rfl [.call .read, .next, .tick] rfl
    rfl rfl rfl⟩

/-! ## Reads -/

/-- The interrupts taken and the reads that have returned. -/
structure Tally where
  interrupts : Nat
  reads : Nat
  deriving DecidableEq, Repr

def tally (s : State) (e : Event) (_ : State) (n : Tally) : Option Tally :=
  match e, s.handler.ops, (s.thread s.curr).ops with
  | .interrupt, _, _ => some { n with interrupts := n.interrupts + 1 }
  | .next, [], .clearOccurred :: _ => some { n with reads := n.reads + 1 }
  | _, _, _ => some n

/-- The interrupts that a read can still use: one that is being handled, and one that has been noticed or
    has woken the thread. -/
def credit (s : State) : Nat :=
  (s.handler.ops.contains .setOccurred).toNat +
    ((s.thread s.curr).ops == [.clearOccurred] || s.intrOcc).toNat

/-- **The invariant**: every interrupt lets one read return. -/
structure Paid (s : State) (n : Tally) : Prop where
  handler : s.handler.ops <:+ rtcHandleInterrupt
  /-- A read is all that clears the flag, and no thread sets it. -/
  waits : .clearOccurred ∈ (s.thread s.curr).ops →
    (s.thread s.curr).ops = [.spin, .clearOccurred] ∨ (s.thread s.curr).ops = [.clearOccurred]
  silent : .setOccurred ∉ (s.thread s.curr).ops
  paid : n.reads + credit s ≤ n.interrupts

section

variable {logBase2 : Int → ℚ} {s s' : State} {n n' : Tally}

/-- A call that waits does nothing else. -/
theorem waits_ops (c : Call) :
    (.clearOccurred ∈ c.ops logBase2 → c.ops logBase2 = [.spin, .clearOccurred]) ∧
      .setOccurred ∉ c.ops logBase2 := by
  have hnone : ∀ frequency, .clearOccurred ∉ rtcSetFrequency logBase2 frequency ∧
      .setOccurred ∉ rtcSetFrequency logBase2 frequency := by
    intro frequency
    rw [rtcSetFrequency]
    split_ifs <;> simp
  cases c with
  | init => simp [Call.ops, rtcInit, hnone rtcDefaultHz]
  | openRtc | closeRtc => exact ⟨fun h => absurd h (hnone rtcDefaultHz).1, (hnone rtcDefaultHz).2⟩
  | read => exact ⟨fun _ => rfl, by simp [Call.ops, rtcRead]⟩
  | write nbytes buf =>
      rw [Call.ops, rtcWrite.eq_def]
      split
      · simp
      · cases buf with
        | none => simp
        | some frequency => exact ⟨fun h => absurd h (hnone frequency).1, (hnone frequency).2⟩

theorem Paid.next_handler (h : Paid s n) {op : Op} {ops : List Op} (hops : s.handler.ops = op :: ops)
    (hnext : next s = some s') : Paid s' n := by
  obtain ⟨hsuffix, hwaits, hsilent, hpaid⟩ := h
  rw [hops] at hsuffix
  rw [credit, hops] at hpaid
  have hrest := (List.suffix_cons op ops).trans hsuffix
  obtain rfl := handler_of_next hops hnext
  have hcases := cases_of_suffix hsuffix
  simp only [List.mem_cons, Prod.mk.injEq, List.not_mem_nil, or_false] at hcases
  obtain ⟨rfl, rfl⟩ | ⟨rfl, rfl⟩ | ⟨rfl, rfl⟩ | ⟨rfl, rfl⟩ | ⟨rfl, rfl⟩ | ⟨rfl, rfl⟩ | ⟨rfl, rfl⟩ :=
    hcases
  all_goals refine ⟨hrest, hwaits, hsilent, ?_⟩
  -- the flag is set by the second access
  case inr.inl =>
    refine le_trans (Nat.add_le_add_left ?_ _) hpaid
    have hafter : credit { (Op.exec s { s.handler with ops :=
        [.sendEoi, .outIndex 0x0c, .inDiscard, .restoreFlags, .iret] } .setOccurred).1 with
          handler := { s.handler with ops :=
            [.sendEoi, .outIndex 0x0c, .inDiscard, .restoreFlags, .iret] } } = 1 := by
      simp [credit, Op.exec]
    refine hafter.trans_le ?_
    exact Nat.le_add_right 1 _
  all_goals exact hpaid

/-- An access that neither waits nor clears the flag leaves a thread that has not waited. -/
theorem waits_tail {op : Op} {ops : List Op} (hspin : op ≠ .spin) (hclear : op ≠ .clearOccurred)
    (h : .clearOccurred ∈ op :: ops →
      op :: ops = [.spin, .clearOccurred] ∨ op :: ops = [.clearOccurred]) :
    .clearOccurred ∉ ops := by
  intro hmem
  obtain h | h := h (List.mem_cons_of_mem _ hmem)
  · exact hspin (List.cons_eq_cons.1 h).1
  · exact hclear (List.cons_eq_cons.1 h).1

theorem beq_clear_of_ne {op : Op} (h : op ≠ .clearOccurred) : (op == .clearOccurred) = false :=
  beq_eq_false_iff_ne.2 h

theorem Paid.next_thread (h : Paid s n) (hidle : s.handler.ops = []) {op : Op} {ops : List Op}
    (hops : (s.thread s.curr).ops = op :: ops) (hnext : next s = some s') :
    Paid s' { n with reads := n.reads + (op == .clearOccurred).toNat } := by
  have hsteps := steps_of_next hidle hops hnext
  obtain ⟨hsuffix, hwaits, hsilent, hpaid⟩ := h
  rw [credit, hidle, hops] at hpaid
  rw [hops] at hwaits hsilent
  have hmaintain : ∀ th : Thread, s'.thread s.curr = th →
      (.clearOccurred ∈ th.ops → th.ops = [.spin, .clearOccurred] ∨ th.ops = [.clearOccurred]) →
      .setOccurred ∉ th.ops →
      n.reads + (op == .clearOccurred).toNat + (th.ops == [.clearOccurred] || s'.intrOcc).toNat ≤
        n.interrupts → Paid s' { n with reads := n.reads + (op == .clearOccurred).toNat } := by
    intro th hth hwaits hsilent hpaid
    refine ⟨hsteps.handler ▸ hsuffix, ?_, ?_, ?_⟩
    · rw [hsteps.curr, hth]
      exact hwaits
    · rw [hsteps.curr, hth]
      exact hsilent
    · rw [credit, hsteps.handler, hidle, hsteps.curr, hth]
      simpa using hpaid
  have hsilent' : .setOccurred ∉ ops := fun h => hsilent (List.mem_cons_of_mem _ h)
  by_cases hspin : op = .spin
  · subst hspin
    have hocc : s'.intrOcc = s.intrOcc := hsteps.intrOcc
    cases hflag : s.intrOcc with
    | false =>
        have hself : s'.thread s.curr = { s.thread s.curr with ops := .spin :: ops } := by
          rw [hsteps.self, Op.exec, hflag]
          rfl
        refine hmaintain _ hself hwaits hsilent ?_
        rw [hocc, beq_clear_of_ne (by decide)]
        simpa using hpaid
    | true =>
        have hself : s'.thread s.curr = { s.thread s.curr with ops } := by
          rw [hsteps.self, Op.exec, hflag]
          rfl
        refine hmaintain _ hself (fun hmem => ?_) hsilent' ?_
        · obtain h | h := hwaits (List.mem_cons_of_mem _ hmem)
          · exact .inr (List.cons_eq_cons.1 h).2
          · exact absurd (List.cons_eq_cons.1 h).1 (by decide)
        · rw [hocc, beq_clear_of_ne (by decide), hflag, Bool.or_true]
          simpa [hflag] using hpaid
  by_cases hclear : op = .clearOccurred
  · subst hclear
    have hocc : s'.intrOcc = false := hsteps.intrOcc
    have hnil : ops = [] := by
      obtain h | h := hwaits List.mem_cons_self
      · exact absurd (List.cons_eq_cons.1 h).1 (by decide)
      · exact (List.cons_eq_cons.1 h).2
    subst hnil
    refine hmaintain { s.thread s.curr with ops := [] } hsteps.self (fun h => nomatch h)
      (fun h => nomatch h) ?_
    rw [hocc]
    simpa using hpaid
  have hexec : (op.exec s { s.thread s.curr with ops }).2.ops = ops := by
    cases op <;> first | rfl | exact absurd rfl hspin
  have hocc : s'.intrOcc = s.intrOcc := by
    rw [hsteps.intrOcc]
    cases op <;> first | rfl | exact absurd rfl hclear | exact absurd List.mem_cons_self hsilent
  have hnot := waits_tail hspin hclear hwaits
  refine hmaintain _ hsteps.self (fun h => absurd (hexec ▸ h) hnot) (by rw [hexec]; exact hsilent') ?_
  have hne : (ops == [.clearOccurred]) = false := by
    rw [beq_eq_false_iff_ne]
    rintro rfl
    exact hnot List.mem_cons_self
  rw [hexec, hocc, hne, beq_clear_of_ne hclear, Bool.false_or, Bool.toNat_false]
  have hnot' : (op :: ops == [.clearOccurred]) = false := by
    rw [beq_eq_false_iff_ne]
    exact fun h => hclear (List.cons_eq_cons.1 h).1
  rw [hnot'] at hpaid
  simpa using hpaid

/-- **The step lemma.** -/
theorem Paid.step {e : Event} (h : Paid s n) (hswitch : ∀ t, e ≠ .switch t)
    (hstep : step logBase2 s e = some s') (htally : tally s e s' n = some n') : Paid s' n' := by
  obtain ⟨hsuffix, hwaits, hsilent, hpaid⟩ := h
  cases e with
  | call c =>
      obtain rfl := Option.some.inj htally
      rw [Rtc.step] at hstep
      split at hstep
      · rename_i hfree
        obtain rfl := Option.some.inj hstep
        obtain ⟨hcall, hcall'⟩ := @waits_ops logBase2 c
        have hself := thread_put_self s { s.thread s.curr with ops := c.ops logBase2 }
        have hthread : ((s.put { s.thread s.curr with ops := c.ops logBase2 }).thread
            (s.put { s.thread s.curr with ops := c.ops logBase2 }).curr).ops = c.ops logBase2 :=
          congrArg Thread.ops hself
        refine ⟨hsuffix, ?_, ?_, ?_⟩
        · rw [hthread]
          exact fun h => .inl (hcall h)
        · rw [hthread]
          exact hcall'
        · have hne : (c.ops logBase2 == [.clearOccurred]) = false := by
            rw [beq_eq_false_iff_ne]
            intro heq
            exact absurd ((hcall (heq ▸ List.mem_cons_self)).symm.trans heq) (by simp)
          rw [credit, hfree.2] at hpaid
          rw [credit, hthread, hne]
          exact hpaid
      · exact nomatch hstep
  | next =>
      cases hops : s.handler.ops with
      | cons op ops =>
          simp only [tally, hops, Option.some.injEq] at htally
          subst htally
          exact Paid.next_handler ⟨hsuffix, hwaits, hsilent, hpaid⟩ hops hstep
      | nil =>
          cases hops' : (s.thread s.curr).ops with
          | nil =>
              simp only [Rtc.step, next, hops, hops'] at hstep
              exact nomatch hstep
          | cons op ops =>
              have hadds : tally s .next s' n =
                  some { n with reads := n.reads + (op == .clearOccurred).toNat } := by
                cases op <;> simp only [tally, hops, hops'] <;> rfl
              obtain rfl := Option.some.inj (hadds.symm.trans htally)
              exact Paid.next_thread ⟨hsuffix, hwaits, hsilent, hpaid⟩ hops hops' hstep
  | tick =>
      obtain rfl := Option.some.inj htally
      obtain rfl := Option.some.inj hstep
      exact ⟨hsuffix, hwaits, hsilent, hpaid⟩
  | advance r v =>
      obtain rfl := Option.some.inj htally
      obtain rfl := Option.some.inj hstep
      exact ⟨hsuffix, hwaits, hsilent, hpaid⟩
  | interrupt =>
      obtain rfl := Option.some.inj htally
      rw [Rtc.step] at hstep
      split at hstep
      · rename_i hready
        obtain rfl := Option.some.inj hstep
        refine ⟨List.suffix_refl _, hwaits, hsilent, ?_⟩
        rw [credit, hready.2.2.2] at hpaid
        have hcredit : n.reads + (1 + ((s.thread s.curr).ops == [.clearOccurred] || s.intrOcc).toNat) ≤
            n.interrupts + 1 := by
          simp only [List.contains_nil, Bool.toNat_false] at hpaid
          omega
        exact hcredit
      · exact nomatch hstep
  | switch t => exact absurd rfl (hswitch t)

end

/-- **A read waits for an interrupt of its own.** While the terminal stays the same, the reads that have
    returned are at most as many as the interrupts that were taken. -/
theorem reads_le_interrupts (logBase2 : Int → ℚ) (s₀ s : State)
    (hdone : (s₀.thread s₀.curr).ops = []) (hidle : s₀.handler.ops = []) (hocc : s₀.intrOcc = false)
    (events : List Event) (hswitch : ∀ e ∈ events, ∀ t, e ≠ .switch t) (n : Tally)
    (hrun : run (withGhost (step logBase2) tally) (s₀, ⟨0, 0⟩) events = some (s, n)) :
    n.reads ≤ n.interrupts := by
  have h₀ : Paid s₀ ⟨0, 0⟩ := by
    refine ⟨hidle ▸ List.nil_suffix, ?_, ?_, ?_⟩
    · rw [hdone]
      exact fun h => nomatch h
    · rw [hdone]
      exact fun h => nomatch h
    · rw [credit, hidle, hdone, hocc]
      decide
  have h := @run_invariant _ _ (withGhost (step logBase2) tally) (fun sn => Paid sn.1 sn.2)
    (fun _ e => ∀ t, e ≠ .switch t)
    (fun sn e sn' h hok hstep => h.step hok (withGhost_eq_some.1 hstep).1 (withGhost_eq_some.1 hstep).2)
    events _ _ h₀ (.of_forall_mem hswitch) hrun
  exact (Nat.le_add_right _ _).trans h.paid

/-- A program reads the device, and the interrupt comes. -/
def readingEvents : List Event :=
  [.call .read, .next, .tick, .interrupt] ++ List.replicate 9 .next

theorem reads_le_interrupts_reading : ∃ s n,
    run (withGhost (step exactLog) tally) (restingState, ⟨0, 0⟩) readingEvents = some (s, n) ∧
      n.reads ≤ n.interrupts :=
  ⟨_, _, rfl, reads_le_interrupts exactLog restingState _ rfl rfl rfl readingEvents
    (by simp [readingEvents]) _ rfl⟩

end Rtc

end Gyarados

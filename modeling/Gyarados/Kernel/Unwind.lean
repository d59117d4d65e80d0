import Gyarados.Kernel.Chains

set_option autoImplicit false

/-! # Nested programs unwind

`halt` does not restore what `execute` has changed, it builds it again from the link and the base
in the parent's PCB. History counts how deep the run has nested on terminal `t`: at depth 0
everything about the terminal is as it was at the start, whatever the children and the other
terminals have done. -/

namespace Gyarados

/-- How deep the run has nested, and whether another terminal has started or ended a process. -/
structure Nesting where
  depth : Nat
  others : Bool
  deriving DecidableEq

/-- A process of the run ends; there has to be one. -/
def Nesting.leave (g : Nesting) : Option Nesting :=
  match g.depth with
  | 0 => none
  | depth + 1 => some { g with depth }

/-- What a call of `execute` does to the nesting. -/
def Nesting.afterCall (g : Nesting) : CallOutcome → Option Nesting
  | .returned _ => some g
  | .launched _ => some { g with depth := g.depth + 1 }
  | .killed _ => g.leave

/-- The history on terminal `t`. It ends when the process that was there at the start acts or is
    halted, and when a key asks for a terminal that has not been started. -/
def noteNesting (M : Machine) (t : Term) (s : System) (a : Action) (_ : System) (g : Nesting) :
    Option Nesting :=
  match a with
  | .execute e command =>
      if s.kernel.currActiveTerm = t then
        (callExecute M e command s).bind fun (out, _) => g.afterCall out
      else some { g with others := true }
  | .halt _ _ | .ctrlC _ =>
      if s.kernel.currActiveTerm = t then g.leave else some { g with others := true }
  | .openFile _ | .closeFile _ | .readFile _ _ _ =>
      if s.kernel.currActiveTerm = t ∧ g.depth = 0 then none else some g
  | .function next _ _ => if s.tty.kbd.started next then some g else none
  | _ => some g

def stepNested (M : Machine) (t : Term) : System × Nesting → Action → Option (System × Nesting) :=
  withGhost (step M) (noteNesting M t)

/-- The descriptors, the arguments, the number, the base and the link of a PCB are the same. -/
structure SamePcb (m m' : Memory) : Prop where
  fds : ∀ a, a < 384 → m' a = m a
  args : ∀ a, 384 ≤ a → a < 448 → m' a = m a
  procNum : Pcb.procNum m' = Pcb.procNum m
  base : Pcb.base m' = Pcb.base m
  prev : Pcb.prev m' = Pcb.prev m

theorem SamePcb.refl (m : Memory) : SamePcb m m :=
  ⟨fun _ _ => rfl, fun _ _ _ => rfl, rfl, rfl, rfl⟩

theorem SamePcb.setSched {m m' : Memory} (h : SamePcb m m') (esp ebp : Nat) :
    SamePcb m (Pcb.setSched m' esp ebp) := by
  have hbyte : ∀ a, a < 472 ∨ 480 ≤ a → Pcb.setSched m' esp ebp a = m' a :=
    fun a ha => setSched_of_disjoint m' esp ebp ha
  refine ⟨?_, ?_, ?_, ?_, ?_⟩
  · intro a ha
    rw [hbyte a (by omega), h.fds a ha]
  · intro a ha ha'
    rw [hbyte a (by omega), h.args a ha ha']
  · exact (congrArg UInt8.toNat (hbyte 448 (by omega))).trans h.procNum
  · exact (Memory.word_congr fun a _ _ => hbyte a (by omega)).trans h.base
  · exact (Memory.word_congr fun a _ _ => hbyte a (by omega)).trans h.prev

/-- **The invariant.** The processes of the run lie on top of those that terminal `t` had at the
    start, and these have kept their PCBs. -/
structure Nested (M : Machine) (t : Term) (c₀ : Core) (F₀ : ProcessTable) (c : Core)
    (F : ProcessTable) (g : Nesting) : Prop where
  consistent : Consistent M c F
  stack : ∃ children : List Slot, children.length = g.depth ∧ F.stack t = children ++ F₀.stack t
  others : g.others = false → ∀ u, u ≠ t → F.stack u = F₀.stack u
  pcbs : ∀ i ∈ F₀.stack t, SamePcb (c₀.pcb i) (c.pcb i)

namespace Nested

variable {M : Machine} {t : Term} {c₀ c c' : Core} {F₀ F : ProcessTable} {g g' : Nesting}

theorem start (h : Consistent M c F) : Nested M t c F c F { depth := 0, others := false } where
  consistent := h
  stack := ⟨[], rfl, rfl⟩
  others _ _ _ := rfl
  pcbs _ _ := SamePcb.refl _

/-- A process below the children is not the one on top of the running terminal. -/
theorem ne_of_running (h : Nested M t c₀ F₀ c F g) (hdeep : c.running = t → g.depth ≠ 0) {i j : Slot}
    (hi : c.currSlot = some i) (hj : j ∈ F₀.stack t) : j ≠ i := by
  obtain ⟨rest, hs⟩ := h.consistent.represents.stack_of_slotAt hi
  obtain ⟨children, hlen, hstack⟩ := h.stack
  rintro rfl
  -- on the run's own terminal a child is on top; on another one every process is in another slot
  by_cases ht : c.running = t
  · subst ht
    cases children with
    | nil => exact hdeep rfl hlen.symm
    | cons k children =>
        have hnodup := F.nodup c.running
        rw [hstack] at hs hnodup
        obtain rfl := (List.cons.inj hs).1
        exact (List.nodup_cons.1 hnodup).1 (List.mem_append_right _ hj)
  · exact F.disjoint _ _ ht j (by rw [hs]; exact List.mem_cons_self)
      (by rw [hstack]; exact List.mem_append_right _ hj)

theorem fdEffect (h : Nested M t c₀ F₀ c F g) (hdeep : c.running = t → g.depth ≠ 0)
    (he : FdEffect SameControl c c') : Nested M t c₀ F₀ c' F g := by
  have hcons := h.consistent.fdEffect he
  cases he with
  | none => exact h
  | @pcb i m hi hm =>
      refine ⟨hcons, h.stack, h.others, fun j hj => ?_⟩
      have hne := h.ne_of_running hdeep hi hj
      simpa [Core.setPcb, hne] using h.pcbs j hj

/-- A process of the run that is halted gives way to the one below it. -/
theorem leave (h : Nested M t c₀ F₀ c F g) (hne : F₀.stack t ≠ []) (ht : c.running = t)
    {out : HaltOutcome} (he : HaltEffect c out c') (hg : g.leave = some g') :
    ∃ F', Nested M t c₀ F₀ c' F' g' := by
  obtain ⟨children, hlen, hstack⟩ := h.stack
  obtain ⟨depth, others⟩ := g
  cases depth with
  | zero => simp [Nesting.leave] at hg
  | succ depth =>
      obtain rfl : { depth, others } = g' := by simpa [Nesting.leave] using hg
      obtain ⟨k, children, rfl⟩ : ∃ k children', children = k :: children' :=
        List.exists_cons_of_ne_nil fun hnil => by simp [hnil] at hlen
      -- below the children lie the processes of the start, so `halt` finds a parent
      have hprev : c.prevProc c.running ≠ 0 := by
        rw [h.consistent.represents.prevProc, ht, hstack, ne_eq, topAddr_eq_null]
        simp [hne]
      cases he with
      | returned _ hnull => exact absurd hnull hprev
      | restarted _ _ hnull => exact absurd hnull hprev
      | @resumed i j m hi _ hj hm =>
          obtain ⟨rest, hs, hcons⟩ := h.consistent.resumed hi hj hm.sameControl
          refine ⟨_, hcons, ⟨children, by simpa using hlen, ?_⟩, ?_, ?_⟩
          · rw [ht, StackFamily.pop_stack_self, hstack]
            rfl
          · intro hothers u hu
            rw [StackFamily.pop_stack_of_ne _ _ (ht ▸ hu)]
            exact h.others hothers u hu
          · intro l hl
            have hli := h.ne_of_running (fun _ => by simp) hi hl
            simpa [Core.exit, hli] using h.pcbs l hl

/-- Another terminal's process that is halted is not under a child of the run. -/
theorem leave_other (h : Nested M t c₀ F₀ c F g) (ht : c.running ≠ t) {out : HaltOutcome}
    (he : HaltEffect c out c') : ∃ F', Nested M t c₀ F₀ c' F' { g with others := true } := by
  cases he with
  | returned => exact ⟨F, h.consistent, h.stack, by simp, h.pcbs⟩
  | restarted => exact ⟨F, h.consistent, h.stack, by simp, h.pcbs⟩
  | @resumed i j m hi _ hj hm =>
      obtain ⟨rest, hs, hcons⟩ := h.consistent.resumed hi hj hm.sameControl
      obtain ⟨children, hlen, hstack⟩ := h.stack
      refine ⟨_, hcons, ⟨children, hlen, ?_⟩, by simp, ?_⟩
      · rw [StackFamily.pop_stack_of_ne _ _ (Ne.symm ht), hstack]
      · intro l hl
        have hli := h.ne_of_running (fun hrun => absurd hrun ht) hi hl
        simpa [Core.exit, hli] using h.pcbs l hl

/-- The PCBs below the children survive a launch: its slot was free. -/
theorem pcbs_launch (h : Nested M t c₀ F₀ c F g) {slot : Slot} (m : Memory) (hfree : ¬ F.Uses slot) :
    ∀ i ∈ F₀.stack t, SamePcb (c₀.pcb i) ((c.launch slot m).pcb i) := by
  intro i hi
  obtain ⟨children, -, hstack⟩ := h.stack
  -- a slot under the children is in use, and the launch takes a free one
  have hne : i ≠ slot := by
    rintro rfl
    exact hfree ⟨t, by rw [hstack]; exact List.mem_append_right _ hi⟩
  simpa [Core.launch, hne] using h.pcbs i hi

theorem launch (h : Nested M t c₀ F₀ c F g) (ht : c.running = t) {slot : Slot} {m : Memory}
    {hfree : ¬ F.Uses slot}
    (hcons : Consistent M (c.launch slot m) (F.push c.running slot hfree)) :
    Nested M t c₀ F₀ (c.launch slot m) (F.push c.running slot hfree)
      { g with depth := g.depth + 1 } := by
  obtain ⟨children, hlen, hstack⟩ := h.stack
  refine ⟨hcons, ⟨slot :: children, by simp [hlen], ?_⟩, ?_,
    h.pcbs_launch m hfree⟩
  · subst ht
    rw [StackFamily.push_stack_self, hstack, List.cons_append]
  · intro hothers u hu
    rw [StackFamily.push_stack_of_ne _ _ _ _ (ht ▸ hu)]
    exact h.others hothers u hu

theorem launch_other (h : Nested M t c₀ F₀ c F g) (ht : c.running ≠ t) {slot : Slot} {m : Memory}
    {hfree : ¬ F.Uses slot}
    (hcons : Consistent M (c.launch slot m) (F.push c.running slot hfree)) :
    Nested M t c₀ F₀ (c.launch slot m) (F.push c.running slot hfree) { g with others := true } := by
  obtain ⟨children, hlen, hstack⟩ := h.stack
  refine ⟨hcons, ⟨children, hlen, ?_⟩, by simp, h.pcbs_launch m hfree⟩
  rw [StackFamily.push_stack_of_ne _ _ _ _ (Ne.symm ht), hstack]

theorem save (h : Nested M t c₀ F₀ c F g) (i : Slot) (r : Regs) :
    Nested M t c₀ F₀ (c.save i r) F g := by
  refine ⟨h.consistent.save i r, h.stack, h.others, fun j hj => ?_⟩
  by_cases hji : j = i
  · subst hji
    simpa [Core.save, Core.setPcb] using (h.pcbs j hj).setSched r.esp r.ebp
  · simpa [Core.save, Core.setPcb, hji] using h.pcbs j hj

/-- A switch between started terminals moves no process. -/
theorem keyFEffect (h : Nested M t c₀ F₀ c F g) {next : Term} {r : Regs} {e : ExecEnv}
    {out : SwitchOutcome} (hnext : c.started next = true) (he : KeyFEffect M next r e c out c') :
    Nested M t c₀ F₀ c' F g := by
  cases he with
  | started hnot => simp [hnext] at hnot
  | ignored => exact ⟨h.consistent.display next, h.stack, h.others, h.pcbs⟩
  | @loaded i j _ _ hj =>
      have hsave := h.save i r
      exact ⟨hsave.consistent.load hnext hj, hsave.stack, hsave.others, hsave.pcbs⟩

/-- A call of `execute` on terminal `t`, and what the history makes of it. -/
theorem callEffect (h : Nested M t c₀ F₀ c F g) (hne : F₀.stack t ≠ []) (ht : c.running = t)
    {e : ExecEnv} {command : Option CString} {out : CallOutcome}
    (hfits : ExecFits M e command c.mask) (he : CallEffect M e command c out c')
    (hg : g.afterCall out = some g') : ∃ F', Nested M t c₀ F₀ c' F' g' := by
  cases he with
  | returned =>
      obtain rfl := Option.some.inj hg
      exact ⟨F, h⟩
  | launched hplan _ hm =>
      obtain rfl := Option.some.inj hg
      obtain ⟨hfree, hcons⟩ := h.consistent.launched hplan hm (hfits.of_launch hplan).1
      exact ⟨_, h.launch ht hcons⟩
  | nullName _ hhalt => exact h.leave hne ht hhalt hg
  | overrun hplan hbuf _ => exact absurd (hfits.of_launch hplan).2 hbuf

theorem callEffect_other (h : Nested M t c₀ F₀ c F g) (ht : c.running ≠ t) {e : ExecEnv}
    {command : Option CString} {out : CallOutcome} (hfits : ExecFits M e command c.mask)
    (he : CallEffect M e command c out c') :
    ∃ F', Nested M t c₀ F₀ c' F' { g with others := true } := by
  cases he with
  | returned => exact ⟨F, h.consistent, h.stack, by simp, h.pcbs⟩
  | launched hplan _ hm =>
      obtain ⟨hfree, hcons⟩ := h.consistent.launched hplan hm (hfits.of_launch hplan).1
      exact ⟨_, h.launch_other ht hcons⟩
  | nullName _ hhalt => exact h.leave_other ht hhalt
  | overrun hplan hbuf _ => exact absurd (hfits.of_launch hplan).2 hbuf

/-- **One step preserves the invariant.** -/
theorem of_step {s u : System} {a : Action} (h : ∃ F, Nested M t c₀ F₀ s.core F g)
    (hne : F₀.stack t ≠ []) (hfits : a.LaunchFits M s)
    (hstep : stepNested M t (s, g) a = some (u, g')) : ∃ F, Nested M t c₀ F₀ u.core F g' := by
  obtain ⟨F, h⟩ := h
  obtain ⟨hstep, hnote⟩ := withGhost_eq_some.1 hstep
  have he := step_effect hstep
  have hhalt : ∀ {out : HaltOutcome}, HaltEffect s.core out u.core →
      (if s.kernel.currActiveTerm = t then g.leave else some { g with others := true }) = some g' →
      ∃ F, Nested M t c₀ F₀ u.core F g' := by
    intro out hhalt hg
    split at hg
    · exact h.leave hne ‹_› hhalt hg
    · obtain rfl := Option.some.inj hg
      exact h.leave_other ‹_› hhalt
  have hfd : FdEffect SameControl s.core u.core →
      (if s.kernel.currActiveTerm = t ∧ g.depth = 0 then none else some g) = some g' →
      ∃ F, Nested M t c₀ F₀ u.core F g' := by
    intro hfd hg
    split at hg
    · simp at hg
    · rename_i hdeep
      obtain rfl := Option.some.inj hg
      exact ⟨F, h.fdEffect (fun ht hzero => hdeep ⟨ht, hzero⟩) hfd⟩
  cases a with
  | execute e command =>
      obtain ⟨⟨out, u'⟩, hcall, rfl⟩ := Option.map_eq_some_iff.1 hstep
      have hcallEffect := callExecute_effect hcall
      simp only [noteNesting, hcall, Option.bind_some] at hnote
      split at hnote
      · exact h.callEffect hne ‹_› hfits hcallEffect hnote
      · obtain rfl := Option.some.inj hnote
        exact h.callEffect_other ‹_› hfits hcallEffect
  | halt =>
      obtain ⟨out, he⟩ := he
      exact hhalt he hnote
  | ctrlC =>
      obtain ⟨out, he⟩ := he
      exact hhalt he hnote
  | openFile => exact hfd he hnote
  | closeFile => exact hfd he.sameControl hnote
  | readFile => exact hfd he.sameControl hnote
  | function next r e =>
      obtain ⟨out, he⟩ := he
      simp only [noteNesting] at hnote
      split at hnote
      · obtain rfl := Option.some.inj hnote
        exact ⟨F, h.keyFEffect ‹_› he⟩
      · simp at hnote
  | _ =>
      obtain rfl := Option.some.inj hnote
      refine ⟨F, ?_⟩
      rw [show u.core = s.core from he]
      exact h

end Nested

/-! ## Unwinding -/

/-- The mask is determined by the slots in use. -/
theorem Represents.mask_eq {c c' : Core} {F F' : ProcessTable} (h : Represents c F)
    (h' : Represents c' F') (huses : ∀ i, F.Uses i ↔ F'.Uses i) : c.mask = c'.mask := by
  apply Nat.eq_of_testBit_eq
  intro n
  rcases Nat.lt_or_ge n 8 with hn | hn
  · rcases Nat.eq_zero_or_pos n with rfl | hpos
    · rw [h.mask_zero, h'.mask_zero]
    · have hi := h.mask ⟨7 - n, by omega⟩
      have hi' := h'.mask ⟨7 - n, by omega⟩
      rw [show 7 - (7 - n) = n by omega] at hi hi'
      exact Bool.eq_iff_iff.2 (hi.trans ((huses _).trans hi'.symm))
  · have hpow : (0x100 : Nat) ≤ 2 ^ n := Nat.pow_le_pow_right (n := 2) (by omega) hn
    rw [Nat.testBit_lt_two_pow (Nat.lt_of_lt_of_le h.mask_lt hpow),
      Nat.testBit_lt_two_pow (Nat.lt_of_lt_of_le h'.mask_lt hpow)]

/-- Terminal `t` is in state `u` as it was in state `s`. -/
structure Unwound (t : Term) (s u : Kernel) : Prop where
  currProc : u.currProc t = s.currProc t
  prevProc : u.prevProc t = s.prevProc t
  pageDirectory : u.paging.pageDirectory 32 = s.paging.pageDirectory 32
  tssEsp0 : u.tssEsp0 = s.tssEsp0
  pcbs : ∀ ps, Links 0 s.prevOf (s.currProc t) ps → ∀ i, pcbAddr i ∈ ps →
    SamePcb (s.kernelStack i) (u.kernelStack i)

theorem Nested.unwound {M : Machine} {s u : System} {F₀ F : ProcessTable} {others : Bool}
    (h₀ : Consistent M s.core F₀) (hne : F₀.stack s.kernel.currActiveTerm ≠ [])
    (h : Nested M s.kernel.currActiveTerm s.core F₀ u.core F { depth := 0, others })
    (hend : u.kernel.currActiveTerm = s.kernel.currActiveTerm) :
    Unwound s.kernel.currActiveTerm s.kernel u.kernel ∧
      (others = false → u.kernel.currProcIdMask = s.kernel.currProcIdMask) := by
  obtain ⟨children, hlen, hstack⟩ := h.stack
  obtain rfl := List.length_eq_zero_iff.1 hlen
  rw [List.nil_append] at hstack
  obtain ⟨i, rest, hs₀⟩ := List.exists_cons_of_ne_nil hne
  have hs : F.stack u.core.running = i :: rest := by
    rw [show u.core.running = s.kernel.currActiveTerm from hend, hstack, hs₀]
  have hmap := h.consistent.mapped i rest hs
  have hmap₀ := h₀.mapped i rest hs₀
  refine ⟨⟨?_, ?_, hmap.1.trans hmap₀.1.symm, hmap.2.trans hmap₀.2.symm, ?_⟩,
    ?_⟩
  · exact (h.consistent.represents.currProc _).trans
      ((congrArg topAddr hstack).trans (h₀.represents.currProc _).symm)
  · exact (h.consistent.represents.prevProc _).trans
      ((congrArg (fun is => topAddr is.tail) hstack).trans (h₀.represents.prevProc _).symm)
  · intro ps hps j hj
    rw [hps.unique (h₀.represents.chain _)] at hj
    obtain ⟨k, hk, hkj⟩ := List.mem_map.1 hj
    obtain rfl := pcbAddr_injective hkj
    exact h.pcbs k hk
  · intro hothers
    have hstacks : ∀ t, F.stack t = F₀.stack t := by
      intro t
      by_cases ht : t = s.kernel.currActiveTerm
      · rw [ht, hstack]
      · exact h.others hothers t ht
    exact h.consistent.represents.mask_eq h₀.represents fun j =>
      exists_congr fun t => by rw [hstacks t]

/-- `execute` and `open` stay inside their buffers. -/
def Action.Contained (M : Machine) (s : System) (a : Action) : Prop := a.LaunchFits M s ∧ a.OpenFits M

instance (M : Machine) (s : System) (a : Action) : Decidable (a.Contained M s) :=
  inferInstanceAs (Decidable (a.LaunchFits M s ∧ a.OpenFits M))

/-- **Nested programs unwind exactly.** From any reachable state with a running process, a run
    that nests properly on its terminal and comes back to it leaves the terminal as it was, and
    the mask too when no other terminal has started or ended a process, as long as nothing
    overruns its buffers. -/
theorem unwound_of_run {M : Machine} {s₀ s u : System} {as bs : List Action} {others : Bool}
    (hboot : Boot M s₀) (hfits₀ : AllSteps (step M) (Action.LaunchFits M) s₀ as)
    (hreach : run (step M) s₀ as = some s)
    (hproc : s.kernel.currProc s.kernel.currActiveTerm ≠ 0)
    (hfits : AllSteps (stepNested M s.kernel.currActiveTerm) (fun sg a => a.Contained M sg.1)
      (s, { depth := 0, others := false }) bs)
    (hrun : run (stepNested M s.kernel.currActiveTerm) (s, { depth := 0, others := false }) bs =
      some (u, { depth := 0, others }))
    (hend : u.kernel.currActiveTerm = s.kernel.currActiveTerm) :
    Unwound s.kernel.currActiveTerm s.kernel u.kernel ∧
      (others = false → u.kernel.currProcIdMask = s.kernel.currProcIdMask) := by
  obtain ⟨F₀, h₀⟩ := consistent_of_run hboot hfits₀ hreach
  have hne : F₀.stack s.kernel.currActiveTerm ≠ [] := fun hnil => hproc
    ((h₀.represents.currProc _).trans (congrArg topAddr hnil))
  obtain ⟨F, h⟩ := run_invariant
    (P := fun sg => ∃ F, Nested M s.kernel.currActiveTerm s.core F₀ sg.1.core F sg.2)
    (fun _ _ _ h hok hstep => Nested.of_step h hne hok.1 hstep) ⟨F₀, Nested.start h₀⟩ hfits hrun
  exact h.unwound h₀ hne hend

/-- The small machine with its first shell running. -/
def unwindStart : System := reached (sampleMachine [shellDentry]) [.execute sampleEnv (some shellName)]

/-- A shell is started from the first one and halted again. -/
theorem unwound_of_shell : ∃ u, run (stepNested (sampleMachine [shellDentry]) 0)
    (unwindStart, { depth := 0, others := false })
      [.execute sampleEnv (some shellName), .halt (fun _ => 0) 0] =
        some (u, { depth := 0, others := false }) ∧
    Unwound 0 unwindStart.kernel u.kernel ∧
      u.kernel.currProcIdMask = unwindStart.kernel.currProcIdMask := by
  have hrun : (run (stepNested (sampleMachine [shellDentry]) 0)
      (unwindStart, { depth := 0, others := false })
        [.execute sampleEnv (some shellName), .halt (fun _ => 0) 0]).any (fun sg =>
          decide (sg.2 = { depth := 0, others := false } ∧ sg.1.kernel.currActiveTerm = 0)) =
            true := by
    decide +kernel
  obtain ⟨⟨u, g⟩, hu, hfacts⟩ := (Option.any_eq_true _ _).1 hrun
  obtain ⟨rfl, hend⟩ := of_decide_eq_true hfacts
  have hunwound := unwound_of_run (s := unwindStart) (bootSystem_boot (sampleMachine [shellDentry]))
    (by decide +kernel) (run_reached _ [.execute sampleEnv (some shellName)] (by decide +kernel))
    (by decide +kernel) (by decide +kernel) hu hend
  exact ⟨u, hu, hunwound.1, hunwound.2 rfl⟩

/-- Without the bound on the arguments the child does not give back its slot. -/
theorem unwound_overrun : ¬ ∀ (M : Machine) (s₀ s u : System) (as bs : List Action) (others : Bool),
    Boot M s₀ → run (step M) s₀ as = some s → s.kernel.currProc s.kernel.currActiveTerm ≠ 0 →
    run (stepNested M s.kernel.currActiveTerm) (s, { depth := 0, others := false }) bs =
      some (u, { depth := 0, others }) →
    u.kernel.currActiveTerm = s.kernel.currActiveTerm →
    Unwound s.kernel.currActiveTerm s.kernel u.kernel ∧
      (others = false → u.kernel.currProcIdMask = s.kernel.currProcIdMask) := by
  intro h
  have hrun : (run (stepNested (sampleMachine [shellDentry]) 0)
      (unwindStart, { depth := 0, others := false })
        [.execute sampleEnv (some overrunCommand), .halt (fun _ => 0) 0]).any (fun sg =>
          decide (sg.2 = { depth := 0, others := false } ∧ sg.1.kernel.currActiveTerm = 0 ∧
            sg.1.kernel.currProcIdMask = 0xC0)) = true := by
    decide +kernel
  obtain ⟨⟨u, g⟩, hu, hfacts⟩ := (Option.any_eq_true _ _).1 hrun
  obtain ⟨rfl, hend, hmask⟩ := of_decide_eq_true hfacts
  have hclaim := (h _ _ unwindStart u [.execute sampleEnv (some shellName)] _ false
    (bootSystem_boot (sampleMachine [shellDentry])) (run_reached _ _ (by decide +kernel))
    (by decide +kernel) hu hend).2 rfl
  rw [show u.kernel.currProcIdMask = 0xC0 from hmask] at hclaim
  exact absurd hclaim (by decide +kernel)

end Gyarados

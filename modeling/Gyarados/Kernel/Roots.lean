import Gyarados.Kernel.Chains

set_option autoImplicit false

/-! # First shells and full tables

`halt` starts the first program of a terminal again and takes no other one off its chain, so what stands
at the end of a chain stays there. The slots are all that limits how many programs there are: a command
that can be started on an idle machine is refused only while seven of them are there. -/

namespace Gyarados

/-! ## What stands at the end of a stack -/

/-- Each terminal that has a process in `F` has the same first one in `G`. -/
def KeepsRoots (F G : ProcessTable) : Prop :=
  ∀ t i, (F.stack t).getLast? = some i → (G.stack t).getLast? = some i

section

variable {F G H : ProcessTable} {t : Term}

theorem KeepsRoots.refl (F : ProcessTable) : KeepsRoots F F := fun _ _ h => h

theorem KeepsRoots.trans (h : KeepsRoots F G) (h' : KeepsRoots G H) : KeepsRoots F H :=
  fun t i hi => h' t i (h t i hi)

theorem keepsRoots_push {slot : Slot} (hfree : ¬ F.Uses slot) : KeepsRoots F (F.push t slot hfree) := by
  intro u i hi
  by_cases hu : u = t
  · subst hu
    rw [StackFamily.push_stack_self, List.getLast?_cons, hi, Option.getD_some]
  · rwa [StackFamily.push_stack_of_ne _ _ _ _ hu]

/-- A process that has another one below it is not the first one. -/
theorem keepsRoots_pop {i j : Slot} {rest : List Slot} (hs : F.stack t = i :: j :: rest) :
    KeepsRoots F (F.pop t) := by
  intro u k hk
  by_cases hu : u = t
  · subst hu
    rw [hs, List.getLast?_cons_cons] at hk
    rwa [StackFamily.pop_stack_self, hs, List.tail_cons]
  · rwa [StackFamily.pop_stack_of_ne _ _ hu]

end

namespace Consistent

variable {M : Machine} {c c' : Core} {F : ProcessTable}

theorem keepsRoots_haltEffect (h : Consistent M c F) {out : HaltOutcome} (he : HaltEffect c out c') :
    ∃ G, Consistent M c' G ∧ KeepsRoots F G := by
  cases he with
  | returned => exact ⟨F, h, .refl F⟩
  | restarted => exact ⟨F, h, .refl F⟩
  | resumed hi _ hj hm =>
      obtain ⟨rest, hs, h'⟩ := h.resumed hi hj hm.sameControl
      exact ⟨_, h', keepsRoots_pop hs⟩

theorem keepsRoots_callEffect (h : Consistent M c F) {e : ExecEnv} {command : Option CString}
    {out : CallOutcome} (hfits : ExecFits M e command c.mask) (he : CallEffect M e command c out c') :
    ∃ G, Consistent M c' G ∧ KeepsRoots F G := by
  cases he with
  | returned => exact ⟨F, h, .refl F⟩
  | launched hplan _ hm =>
      obtain ⟨hfree, h'⟩ := h.launched hplan hm (hfits.of_launch hplan).1
      exact ⟨_, h', keepsRoots_push hfree⟩
  | nullName _ hhalt => exact h.keepsRoots_haltEffect hhalt
  | overrun hplan hbuf _ => exact absurd (hfits.of_launch hplan).2 hbuf

theorem keepsRoots_keyFEffect (h : Consistent M c F) {next : Term} {r : Regs} {e : ExecEnv}
    {out : SwitchOutcome} (hfits : c.started next = false → ExecFits M e (some shellName) c.mask)
    (he : KeyFEffect M next r e c out c') : ∃ G, Consistent M c' G ∧ KeepsRoots F G := by
  cases he with
  | started hnext _ hcall => exact ((h.visit hnext).save _ r).keepsRoots_callEffect (hfits hnext) hcall
  | ignored => exact ⟨F, h.display next, .refl F⟩
  | loaded hnext _ hj => exact ⟨F, (h.save _ r).load hnext hj, .refl F⟩

/-- One step leaves what stands at the end of each stack. -/
theorem keepsRoots_of_step {s t : System} {a : Action} (h : Consistent M s.core F)
    (hfits : a.LaunchFits M s) (hstep : step M s a = some t) :
    ∃ G, Consistent M t.core G ∧ KeepsRoots F G := by
  have he := step_effect hstep
  cases a with
  | execute e command =>
      obtain ⟨out, he⟩ := he
      exact h.keepsRoots_callEffect hfits he
  | halt =>
      obtain ⟨out, he⟩ := he
      exact h.keepsRoots_haltEffect he
  | ctrlC =>
      obtain ⟨out, he⟩ := he
      exact h.keepsRoots_haltEffect he
  | openFile => exact ⟨F, h.fdEffect he, .refl F⟩
  | closeFile => exact ⟨F, h.fdEffect he.sameControl, .refl F⟩
  | readFile => exact ⟨F, h.fdEffect he.sameControl, .refl F⟩
  | function next r e =>
      obtain ⟨out, he⟩ := he
      exact h.keepsRoots_keyFEffect hfits he
  | _ =>
      refine ⟨F, ?_, .refl F⟩
      rw [show t.core = s.core from he]
      exact h

end Consistent

/-- **The first shell of a terminal is there for ever**: the PCB at the end of a chain stays at its end,
    under its number, whatever is started and halted. -/
theorem root_of_run {M : Machine} {s u v : System} {as bs : List Action} {t : Term} {ps : List Nat}
    {p : Nat} (hboot : Boot M s) (hfits : AllSteps (step M) (Action.LaunchFits M) s as)
    (hrun : run (step M) s as = some u) (hfits' : AllSteps (step M) (Action.LaunchFits M) u bs)
    (hrun' : run (step M) u bs = some v)
    (hchain : Links 0 u.kernel.prevOf (u.kernel.currProc t) (ps ++ [p])) :
    (∃ qs, Links 0 v.kernel.prevOf (v.kernel.currProc t) (qs ++ [p])) ∧
      v.kernel.procNumAt p = u.kernel.procNumAt p := by
  obtain ⟨F, hF⟩ := consistent_of_run hboot hfits hrun
  obtain ⟨G, hG, hroots⟩ := run_invariant (P := fun s => ∃ G, Consistent M s.core G ∧ KeepsRoots F G)
    (fun s a s' h hok hstep => by
      obtain ⟨G, hG, hroots⟩ := h
      obtain ⟨H, hH, hroots'⟩ := hG.keepsRoots_of_step hok hstep
      exact ⟨H, hH, hroots.trans hroots'⟩) ⟨F, hF, .refl F⟩ hfits' hrun'
  have hps := hchain.unique (hF.represents.chain t)
  have hlast : (F.stack t).getLast?.map pcbAddr = some p := by
    rw [← List.getLast?_map, ← hps, List.getLast?_concat]
  obtain ⟨i, hi, rfl⟩ := Option.map_eq_some_iff.1 hlast
  have hi' := hroots t i hi
  refine ⟨?_, ?_⟩
  · obtain ⟨js, hjs⟩ := List.getLast?_eq_some_iff.1 hi'
    have hlinks := hG.represents.chain t
    rw [hjs, List.map_append] at hlinks
    exact ⟨js.map pcbAddr, hlinks⟩
  · rw [hF.represents.procNumAt_of_mem (List.mem_of_getLast? hi),
      hG.represents.procNumAt_of_mem (List.mem_of_getLast? hi')]

/-- A second shell is started from the first one of the small machine, and ends. -/
theorem root_of_run_shell : ∃ v, run (step (sampleMachine [shellDentry]))
    (reached (sampleMachine [shellDentry]) [.execute sampleEnv (some shellName)])
      [.execute sampleEnv (some shellName), .halt (fun _ => 0) 0] = some v ∧
    (∃ qs, Links 0 v.kernel.prevOf (v.kernel.currProc 0) (qs ++ [pcbAddr 0])) ∧
      v.kernel.procNumAt (pcbAddr 0) = (reached (sampleMachine [shellDentry])
        [.execute sampleEnv (some shellName)]).kernel.procNumAt (pcbAddr 0) := by
  have hrun : (run (step (sampleMachine [shellDentry]))
      (reached (sampleMachine [shellDentry]) [.execute sampleEnv (some shellName)])
        [.execute sampleEnv (some shellName), .halt (fun _ => 0) 0]).isSome = true := by
    decide +kernel
  obtain ⟨v, hv⟩ := Option.isSome_iff_exists.1 hrun
  have hcurr : (reached (sampleMachine [shellDentry])
      [.execute sampleEnv (some shellName)]).kernel.currProc 0 = pcbAddr 0 := by
    decide +kernel
  have hprev : (reached (sampleMachine [shellDentry])
      [.execute sampleEnv (some shellName)]).kernel.prevOf (pcbAddr 0) = 0 := by
    decide +kernel
  have hchain : Links 0 (reached (sampleMachine [shellDentry])
      [.execute sampleEnv (some shellName)]).kernel.prevOf ((reached (sampleMachine [shellDentry])
        [.execute sampleEnv (some shellName)]).kernel.currProc 0) ([] ++ [pcbAddr 0]) := by
    rw [hcurr]
    refine .cons (pcbAddr_ne_null 0) ?_
    rw [hprev]
    exact .nil
  exact ⟨v, hv, root_of_run (bootSystem_boot (sampleMachine [shellDentry])) (by decide +kernel)
    (run_reached _ [.execute sampleEnv (some shellName)] (by decide +kernel)) (by decide +kernel) hv
    hchain⟩

/-! ## How many processes there are -/

/-- The kernel has `n` processes on its chains. -/
def Kernel.HasProcesses (k : Kernel) (n : Nat) : Prop :=
  ∃ chain : Term → List Nat, (∀ t, Links 0 k.prevOf (k.currProc t) (chain t)) ∧
    (chain 0).length + (chain 1).length + (chain 2).length = n

/-- The slots of a process table, terminal by terminal. -/
def slots (F : ProcessTable) : List Slot := F.stack 0 ++ F.stack 1 ++ F.stack 2

theorem mem_slots {F : ProcessTable} {i : Slot} : i ∈ slots F ↔ F.Uses i := by
  simp only [slots, List.mem_append, StackFamily.Uses]
  constructor
  · rintro ((h | h) | h)
    exacts [⟨0, h⟩, ⟨1, h⟩, ⟨2, h⟩]
  · rintro ⟨t, h⟩
    obtain rfl | rfl | rfl := (by decide : ∀ t : Term, t = 0 ∨ t = 1 ∨ t = 2) t
    · exact .inl (.inl h)
    · exact .inl (.inr h)
    · exact .inr h

theorem nodup_slots (F : ProcessTable) : (slots F).Nodup := by
  refine List.nodup_append'.2 ⟨List.nodup_append'.2 ⟨F.nodup 0, F.nodup 1, ?_⟩, F.nodup 2, ?_⟩
  · exact fun i h h' => F.disjoint 0 1 (by decide) i h h'
  · intro i h h'
    rcases List.mem_append.1 h with h | h
    · exact F.disjoint 0 2 (by decide) i h h'
    · exact F.disjoint 1 2 (by decide) i h h'

theorem length_slots_le (F : ProcessTable) : (slots F).length ≤ 7 := by
  have := (nodup_slots F).length_le_card
  simpa using this

/-- Seven processes are there exactly when each slot is taken. -/
theorem length_slots_eq {F : ProcessTable} : (slots F).length = 7 ↔ ∀ i, F.Uses i := by
  have hcard : (slots F).length = 7 ↔ (slots F).toFinset.card = Fintype.card Slot := by
    rw [List.toFinset_card_of_nodup (nodup_slots F)]
    rfl
  rw [hcard, Finset.card_eq_iff_eq_univ, Finset.eq_univ_iff_forall]
  simp only [List.mem_toFinset, mem_slots]

theorem length_slots_push {F : ProcessTable} {t : Term} {slot : Slot} (hfree : ¬ F.Uses slot) :
    (slots (F.push t slot hfree)).length = (slots F).length + 1 := by
  have hperm : (slots (F.push t slot hfree)).Perm (slot :: slots F) := by
    refine (List.perm_ext_iff_of_nodup (nodup_slots _) (List.nodup_cons.2
      ⟨fun h => hfree (mem_slots.1 h), nodup_slots F⟩)).2 fun i => ?_
    rw [mem_slots, StackFamily.push_uses, List.mem_cons, mem_slots]
  rw [hperm.length_eq, List.length_cons]

theorem Represents.hasProcesses {k : Kernel} {kbd : Keyboard} {F : ProcessTable}
    (h : Represents (k.core kbd) F) : k.HasProcesses (slots F).length :=
  ⟨fun t => (F.stack t).map pcbAddr, h.chain, by simp [slots, Nat.add_assoc]⟩

/-- The search finds nothing exactly when each bit is set. -/
theorem findSlot_eq_none_from {mask : Nat} (d : Nat) : ∀ k, k + d = 7 →
    findSlot mask ((List.finRange 7).drop k) (2 ^ (7 - k)) = none →
      ∀ j : Slot, k ≤ j → mask.testBit (7 - j) = true := by
  induction d with
  | zero =>
      intro k hk _ j hj
      omega
  | succ d ih =>
      intro k hk h j hj
      rw [List.drop_eq_getElem_cons (by simp; omega), findSlot] at h
      split at h
      · cases h
      · rename_i hbit
        rw [show 7 - k = 7 - (k + 1) + 1 by omega, Nat.shiftRight_one, Nat.pow_succ,
          Nat.mul_div_cancel _ (by omega)] at h
        rcases Nat.eq_or_lt_of_le hj with rfl | hlt
        · rw [Nat.and_comm, Nat.and_two_pow] at hbit
          by_contra hclear
          simp [hclear] at hbit
        · exact ih (k + 1) (by omega) h j hlt

theorem findSlot_eq_none {mask : Nat} :
    findSlot mask (List.finRange 7) 0x80 = none ↔ ∀ j : Slot, mask.testBit (7 - j) = true := by
  constructor
  · exact fun h j => findSlot_eq_none_from 7 0 rfl h j (Nat.zero_le _)
  · intro h
    cases hfind : findSlot mask (List.finRange 7) 0x80 with
    | none => rfl
    | some slot => exact absurd ((h slot).symm.trans (findSlot_eq_some hfind)) (by decide)

section

variable {M : Machine} {e : ExecEnv} {command : Option CString} {fName : List UInt8} {entry : Nat}
  {slot : Slot} {tempArg : Memory}

theorem initPcb_eq_some (M : Machine) (e : ExecEnv) (slot : Slot) (base prev : Nat) (m : Memory)
    (hargs : (tempArg.stringAt 0 0x2000).length < 64) :
    ∃ m', initPcb M e slot base prev tempArg m = some m' := by
  simp only [initPcb, Pcb.strcpy]
  rw [if_pos (by omega)]
  exact ⟨_, rfl⟩

/-- A launch that stays inside its buffers goes through. -/
theorem callExecute_launch {s : System} (hstays : StaysInFrame command)
    (hplan : execPlan M e command s.kernel.currProcIdMask = .launch fName entry slot tempArg)
    (hargs : (tempArg.stringAt 0 0x2000).length < 64)
    (hroom : (M.copyFileToAddr fName).buf programRoom = none) :
    ∃ s', callExecute M e command s = some (.launched entry, s') := by
  replace hargs := length_stringAt_argSource M e fName hargs
  obtain ⟨m, hm⟩ := initPcb_eq_some M e slot (frameBase slot)
    (s.kernel.currProc s.kernel.currActiveTerm) (s.kernel.kernelStack slot) hargs
  simp [callExecute, execute_of_stays hstays, hplan, ExecPlan.carryOut, ExecOutcome.deliver, execLaunch,
    initNewProcess_eq, hroom, hm]

theorem callExecute_noSlot {s : System} (hstays : StaysInFrame command)
    (hplan : execPlan M e command s.kernel.currProcIdMask = .noSlot) :
    ∃ s', callExecute M e command s = some (.returned (-1), s') ∧ s'.kernel = s.kernel := by
  rw [callExecute, execute_of_stays hstays, hplan]
  exact ⟨_, rfl, rfl⟩

theorem core_launch (s : System) (buf : Stores) (m : Memory) :
    ({ s with kernel := s.kernel.launch slot m buf } : System).core = s.core.launch slot m := rfl

/-- A launch that goes through has put one more process on the chains. -/
theorem Consistent.hasProcesses_of_launched {s s' : System} {F : ProcessTable} (h : Consistent M s.core F)
    (hplan : execPlan M e command s.kernel.currProcIdMask = .launch fName entry slot tempArg)
    (hargs : (tempArg.stringAt 0 0x2000).length < 64)
    (hcall : callExecute M e command s = some (.launched entry, s')) :
    s'.kernel.HasProcesses ((slots F).length + 1) := by
  cases callExecute_outcome hcall with
  | @launched _ _ slot' tempArg' m hplan' _ hm =>
      obtain ⟨rfl, -, rfl, rfl⟩ := ExecPlan.launch.inj (hplan.symm.trans hplan')
      obtain ⟨hfree, h'⟩ := h.launched hplan hm hargs
      rw [← core_launch s (M.copyFileToAddr fName).buf] at h'
      rw [← length_slots_push hfree]
      exact h'.represents.hasProcesses

/-- There is a free slot while there are less than seven processes. -/
theorem Represents.findSlot_isSome_iff {c : Core} {F : ProcessTable} (h : Represents c F) :
    (findSlot c.mask (List.finRange 7) 0x80).isSome ↔ (slots F).length < 7 := by
  have hnone : findSlot c.mask (List.finRange 7) 0x80 = none ↔ (slots F).length = 7 := by
    rw [findSlot_eq_none, length_slots_eq]
    simp only [h.mask]
  have hle := length_slots_le F
  rw [← not_iff_not, Option.not_isSome_iff_eq_none, hnone]
  omega

/-- **Only seven processes are the limit**: in every state that a run reaches, a command that an idle
    machine would start is started as one more process while there are less than seven, and is
    refused when there are seven. -/
theorem starts_of_run {s u : System} {as : List Action} (hboot : Boot M s)
    (hfits : AllSteps (step M) (Action.LaunchFits M) s as) (hrun : run (step M) s as = some u)
    (hidle : execPlan M e command 0 = .launch fName entry slot tempArg)
    (hexec : ExecFits M e command 0) :
    ∃ n, u.kernel.HasProcesses n ∧ n ≤ 7 ∧
      (n < 7 → ∃ v, callExecute M e command u = some (.launched entry, v) ∧
        v.kernel.HasProcesses (n + 1)) ∧
      (n = 7 → ∃ v, callExecute M e command u = some (.returned (-1), v) ∧ v.kernel = u.kernel) := by
  obtain ⟨F, hF⟩ := consistent_of_run hboot hfits hrun
  obtain ⟨hargs, hroom⟩ := hexec.of_launch hidle
  have hstays := hexec.staysInFrame hidle
  have hplan := execPlan_of_idle hidle u.kernel.currProcIdMask
  have hfree := hF.represents.findSlot_isSome_iff
  refine ⟨(slots F).length, hF.represents.hasProcesses, length_slots_le F, fun hlt => ?_, fun hfull => ?_⟩
  · obtain ⟨slot, hfind⟩ := Option.isSome_iff_exists.1 (hfree.2 hlt)
    rw [show findSlot u.kernel.currProcIdMask (List.finRange 7) 0x80 = some slot from hfind] at hplan
    obtain ⟨v, hv⟩ := callExecute_launch hstays hplan hargs hroom
    exact ⟨v, hv, hF.hasProcesses_of_launched hplan hargs hv⟩
  · have hfind := Option.not_isSome_iff_eq_none.1 (mt hfree.1 (by omega))
    rw [show findSlot u.kernel.currProcIdMask (List.finRange 7) 0x80 = none from hfind] at hplan
    exact callExecute_noSlot hstays hplan

/-- The first shell of the small machine. -/
theorem starts_of_run_shell : ∃ n, (bootSystem (sampleMachine [shellDentry])).kernel.HasProcesses n ∧
    n ≤ 7 ∧
    (n < 7 → ∃ v, callExecute (sampleMachine [shellDentry]) sampleEnv (some shellName)
      (bootSystem (sampleMachine [shellDentry])) = some (.launched 0x8048094, v) ∧
        v.kernel.HasProcesses (n + 1)) ∧
    (n = 7 → ∃ v, callExecute (sampleMachine [shellDentry]) sampleEnv (some shellName)
      (bootSystem (sampleMachine [shellDentry])) = some (.returned (-1), v) ∧
        v.kernel = (bootSystem (sampleMachine [shellDentry])).kernel) := by
  have hcall : (callExecute (sampleMachine [shellDentry]) sampleEnv (some shellName)
      (bootSystem (sampleMachine [shellDentry]))).any
        (fun out => decide (out.1 = .launched 0x8048094)) = true := by
    decide +kernel
  obtain ⟨⟨out, s'⟩, hs', hout⟩ := (Option.any_eq_true _ _).1 hcall
  obtain rfl : out = .launched 0x8048094 := of_decide_eq_true hout
  have hrun : run (step (sampleMachine [shellDentry])) (bootSystem (sampleMachine [shellDentry])) [] =
      some (bootSystem (sampleMachine [shellDentry])) := rfl
  cases callExecute_outcome hs' with
  | launched hplan _ _ =>
      exact starts_of_run (bootSystem_boot _) (by trivial) hrun hplan (by decide +kernel)

end

end Gyarados

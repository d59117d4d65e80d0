import Gyarados.Drivers.Rtc
import Mathlib.Data.Rat.Floor
import Mathlib.Tactic.IntervalCases
import Mathlib.Tactic.Linarith

set_option autoImplicit false

/-! # The registers of the real-time clock

A change of a register is a read and a write, with interrupts off in between. Whatever comes between the
accesses of the driver, the registers hold the changes that it was asked for. -/

namespace Gyarados

namespace Rtc

open Cmos (Change Settings regA regB)

/-! ## What the calls are for -/

/-- What a call consists of. -/
inductive Piece
  | rate (v : BitVec 8)
  | enable
  | wait

/-- The change that a piece makes. -/
def Piece.change : Piece → Option Change
  | rate v => some ⟨regA, 0xf0, v⟩
  | enable => some ⟨regB, 0xff, 0x40⟩
  | wait => none

def Piece.code (p : Piece) : List Op :=
  match p.change with
  | some d =>
      [.cliAndSave, .outIndex (1#1 ++ d.register), .inPrevious, .outIndex (1#1 ++ d.register),
        .outData d.keep d.set, .restoreFlags]
  | none => [.spin, .clearOccurred]

/-- The code of several pieces, and their changes. -/
def code (ps : List Piece) : List Op := ps.flatMap Piece.code
def changes (ps : List Piece) : List Change := ps.filterMap Piece.change

/-- The frequencies that are accepted. -/
def Accepted (frequency : Int) : Prop :=
  2 ≤ frequency ∧ frequency ≤ 1024 ∧ frequency.toNat &&& (frequency.toNat - 1) = 0

instance (frequency : Int) : Decidable (Accepted frequency) :=
  inferInstanceAs (Decidable (_ ∧ _ ∧ _))

section

variable (logBase2 : Int → ℚ)

def frequencyPieces (frequency : Int) : List Piece :=
  if Accepted frequency then [.rate (rate logBase2 frequency)] else []

def Call.pieces : Call → List Piece
  | init => .enable :: frequencyPieces logBase2 rtcDefaultHz
  | openRtc | closeRtc => frequencyPieces logBase2 rtcDefaultHz
  | read => [.wait]
  | write nbytes buf => if nbytes = 4 then buf.elim [] (frequencyPieces logBase2) else []

theorem rtcSetFrequency_eq (frequency : Int) :
    rtcSetFrequency logBase2 frequency = code (frequencyPieces logBase2 frequency) := by
  rw [rtcSetFrequency, frequencyPieces]
  by_cases hrange : frequency < 2 ∨ frequency > 1024
  · rw [if_pos hrange, if_neg (fun h : Accepted frequency => by obtain ⟨_, _, _⟩ := h; omega)]
    rfl
  · rw [if_neg hrange]
    by_cases hpower : frequency.toNat &&& (frequency.toNat - 1) = 0
    · rw [if_neg (not_not.2 hpower), if_pos ⟨by omega, by omega, hpower⟩]
      simp [code, Piece.code, Piece.change]
    · rw [if_pos hpower, if_neg fun h => hpower h.2.2]
      rfl

/-- Every call is its pieces. -/
theorem ops_eq (c : Call) : c.ops logBase2 = code (c.pieces logBase2) := by
  cases c with
  | init =>
      rw [Call.ops, rtcInit, rtcSetFrequency_eq, Call.pieces]
      simp [code, Piece.code, Piece.change]
  | openRtc => exact rtcSetFrequency_eq logBase2 rtcDefaultHz
  | closeRtc => exact rtcSetFrequency_eq logBase2 rtcDefaultHz
  | read => rfl
  | write nbytes buf =>
      rw [Call.ops, rtcWrite.eq_def, Call.pieces]
      by_cases h : nbytes = 4
      · rw [if_neg (not_not.2 h), if_pos h]
        cases buf with
        | none => rfl
        | some frequency => exact rtcSetFrequency_eq logBase2 frequency
      · rw [if_pos h, if_neg h]
        rfl

end

/-! ## History -/

/-- The changes that the calls of each thread ask for, and the writes to the chip's data port with the
    thread, the register and the bits, in their order. -/
structure History where
  asked : Nat → List Change
  log : List (Nat × Change)

def History.of (h : History) (t : Nat) : List Change :=
  (h.log.filter fun e => e.1 = t).map Prod.snd

def History.ask (h : History) (t : Nat) (ds : List Change) : History :=
  { h with asked := Function.update h.asked t (h.asked t ++ ds) }

/-- What an event adds. -/
def note (logBase2 : Int → ℚ) (s : State) (e : Event) (_ : State) (h : History) : Option History :=
  match e, s.handler.ops, (s.thread s.curr).ops with
  | .call c, _, _ => some (h.ask s.curr (changes (c.pieces logBase2)))
  | .next, [], .outData keep set :: _ =>
      some { h with log := h.log ++ [(s.curr, ⟨s.cmos.index, keep, set⟩)] }
  | _, _, _ => some h

/-! ## Where a thread is -/

/-- Between its changes, or behind its wait. -/
inductive Outside (th : Thread) : List Change → Prop
  | start {ps : List Piece} (hops : th.ops = code ps) : Outside th (changes ps)
  | woken {ps : List Piece} (hops : th.ops = .clearOccurred :: code ps) : Outside th (changes ps)

/-- In a change, with the chip as the thread expects it. -/
inductive Inside (c : Cmos) (th : Thread) : List Change → Prop
  | entered {p : Piece} {d : Change} {ps : List Piece} (hd : p.change = some d)
      (hops : th.ops = .outIndex (1#1 ++ d.register) :: .inPrevious :: .outIndex (1#1 ++ d.register) ::
        .outData d.keep d.set :: .restoreFlags :: code ps) : Inside c th (d :: changes ps)
  | selected {p : Piece} {d : Change} {ps : List Piece} (hd : p.change = some d)
      (hops : th.ops = .inPrevious :: .outIndex (1#1 ++ d.register) :: .outData d.keep d.set ::
        .restoreFlags :: code ps) (hindex : c.index = d.register) : Inside c th (d :: changes ps)
  | read {p : Piece} {d : Change} {ps : List Piece} (hd : p.change = some d)
      (hops : th.ops = .outIndex (1#1 ++ d.register) :: .outData d.keep d.set :: .restoreFlags :: code ps)
      (hindex : c.index = d.register) (hagrees : c.Agrees th.previous) : Inside c th (d :: changes ps)
  | reselected {p : Piece} {d : Change} {ps : List Piece} (hd : p.change = some d)
      (hops : th.ops = .outData d.keep d.set :: .restoreFlags :: code ps)
      (hindex : c.index = d.register) (hagrees : c.Agrees th.previous) : Inside c th (d :: changes ps)
  | written {ps : List Piece} (hops : th.ops = .restoreFlags :: code ps) : Inside c th (changes ps)

/-- A thread in a change is the current one, with interrupts off. -/
def Staged (s : State) (t : Nat) (left : List Change) : Prop :=
  Outside (s.thread t) left ∨
    (t = s.curr ∧ s.intf = false ∧ s.handler.ops = [] ∧ Inside s.cmos (s.thread t) left)

/-- **The invariant**: the chip holds what the log makes of the settings at the start, and each thread has
    logged what it has asked for, up to what it still has to do. -/
structure Logged (s₀ : State) (s : State) (h : History) : Prop where
  settings : s.cmos.settings = (h.log.map Prod.snd).foldl Change.apply s₀.cmos.settings
  ram : s.cmos.ram = s₀.cmos.ram
  threads : ∀ t, ∃ left, h.of t ++ left = h.asked t ∧ Staged s t left
  handler : s.handler.ops <:+ rtcHandleInterrupt

/-! ## One access -/

/-- What an access writes to the data port. -/
def written (s : State) : Op → List Change
  | .outData keep set => [⟨s.cmos.index, keep, set⟩]
  | _ => []

section

variable {s : State} {th : Thread} {op : Op} {ops : List Op} {p : Piece} {d : Change} {ps : List Piece}
  {left : List Change}

theorem register_of_change (hd : p.change = some d) : d.register = regA ∨ d.register = regB := by
  cases p with
  | rate v => exact .inl (Option.some.inj hd ▸ rfl)
  | enable => exact .inr (Option.some.inj hd ▸ rfl)
  | wait => exact nomatch hd

theorem code_of_change (hd : p.change = some d) (ps : List Piece) : code (p :: ps) =
    .cliAndSave :: .outIndex (1#1 ++ d.register) :: .inPrevious :: .outIndex (1#1 ++ d.register) ::
      .outData d.keep d.set :: .restoreFlags :: code ps := by
  rw [code, List.flatMap_cons, Piece.code, hd]
  rfl

theorem code_of_wait (hd : p.change = none) (ps : List Piece) :
    code (p :: ps) = .spin :: .clearOccurred :: code ps := by
  rw [code, List.flatMap_cons, Piece.code, hd]
  rfl

theorem setWidth_index (r : BitVec 7) : (1#1 ++ r).setWidth 7 = r := by
  rw [BitVec.setWidth_append, dif_pos (Nat.le_refl 7), BitVec.setWidth_eq]

/-- What has been done of `left`, and where the thread is with the rest. -/
structure Goes (s : State) (op : Op) (left left' : List Change) (s' : State) (th : Thread) : Prop where
  left : left = written s op ++ left'
  settings : s'.cmos.settings = (written s op).foldl Change.apply s.cmos.settings
  ram : s'.cmos.ram = s.cmos.ram
  staged : Outside th left' ∨ (s'.intf = false ∧ Inside s'.cmos th left')

/-- An access between two changes: a turn of the wait, or the way into a change. -/
theorem goes_of_outside (h : Outside { th with ops := op :: ops } left) :
    ∃ left', Goes s op left left' (op.exec s { th with ops }).1 (op.exec s { th with ops }).2 := by
  cases h with
  | @start ps hops =>
      cases ps with
      | nil => exact nomatch hops
      | cons p ps =>
          cases hd : p.change with
          | none =>
              have hsame : changes (p :: ps) = changes ps := List.filterMap_cons_none hd
              obtain ⟨rfl, rfl⟩ := List.cons_eq_cons.1 (hops.trans (code_of_wait hd ps))
              refine ⟨changes ps, hsame, rfl, rfl, .inl ?_⟩
              cases hocc : s.intrOcc with
              | false =>
                  have hback : (Op.spin.exec s { th with ops := .clearOccurred :: code ps }).2 =
                      { th with ops := .spin :: .clearOccurred :: code ps } := by
                    rw [Op.exec, hocc]
                    rfl
                  rw [hback, ← hsame]
                  exact .start (code_of_wait hd ps).symm
              | true =>
                  have hgone : (Op.spin.exec s { th with ops := .clearOccurred :: code ps }).2 =
                      { th with ops := .clearOccurred :: code ps } := by
                    rw [Op.exec, hocc]
                    rfl
                  rw [hgone]
                  exact .woken rfl
          | some d =>
              have hcons : changes (p :: ps) = d :: changes ps := List.filterMap_cons_some hd
              obtain ⟨rfl, rfl⟩ := List.cons_eq_cons.1 (hops.trans (code_of_change hd ps))
              exact ⟨d :: changes ps, hcons, rfl, rfl, .inr ⟨rfl, .entered hd rfl⟩⟩
  | woken hops =>
      obtain ⟨rfl, rfl⟩ := List.cons_eq_cons.1 hops
      exact ⟨_, rfl, rfl, rfl, .inl (.start rfl)⟩

/-- An access in a change. -/
theorem goes_of_inside (hintf : s.intf = false) (h : Inside s.cmos { th with ops := op :: ops } left) :
    ∃ left', Goes s op left left' (op.exec s { th with ops }).1 (op.exec s { th with ops }).2 := by
  cases h with
  | entered hd hops =>
      obtain ⟨rfl, rfl⟩ := List.cons_eq_cons.1 hops
      exact ⟨_, rfl, rfl, rfl, .inr ⟨hintf, .selected hd rfl (setWidth_index _)⟩⟩
  | selected hd hops hindex =>
      obtain ⟨rfl, rfl⟩ := List.cons_eq_cons.1 hops
      have hagrees := Cmos.agrees_data (hindex ▸ register_of_change hd)
      exact ⟨_, rfl, Cmos.settings_read _, Cmos.ram_read _, .inr ⟨hintf, .read hd rfl
        ((Cmos.index_read _).trans hindex) (hagrees.congr (Cmos.index_read _) (Cmos.settings_read _))⟩⟩
  | @read p d ps hd hops hindex hagrees =>
      obtain ⟨rfl, rfl⟩ := List.cons_eq_cons.1 hops
      have hselected := setWidth_index d.register
      exact ⟨_, rfl, rfl, rfl, .inr ⟨hintf, .reselected hd rfl hselected
        (hagrees.congr (hselected.trans hindex.symm) rfl)⟩⟩
  | @reselected p d ps hd hops hindex hagrees =>
      obtain ⟨rfl, rfl⟩ := List.cons_eq_cons.1 hops
      have hwritten : written s (.outData d.keep d.set) = [d] := by
        rw [written, hindex]
      refine ⟨changes ps, by rw [hwritten]; rfl, ?_, ?_, .inr ⟨hintf, .written rfl⟩⟩
      · rw [hwritten]
        exact Cmos.settings_write hagrees hindex
      · exact Cmos.ram_write (hindex ▸ register_of_change hd) _
  | written hops =>
      obtain ⟨rfl, rfl⟩ := List.cons_eq_cons.1 hops
      exact ⟨_, rfl, rfl, rfl, .inl (.start rfl)⟩

/-- The handler leaves the settings alone. -/
theorem exec_handler (hop : op ∈ rtcHandleInterrupt) (s : State) (th : Thread) :
    (op.exec s th).1.cmos.settings = s.cmos.settings ∧ (op.exec s th).1.cmos.ram = s.cmos.ram ∧
      (op.exec s th).2.ops = th.ops := by
  simp only [rtcHandleInterrupt, List.mem_cons, List.not_mem_nil, or_false] at hop
  obtain rfl | rfl | rfl | rfl | rfl | rfl | rfl := hop
  all_goals first
    | exact ⟨rfl, rfl, rfl⟩
    | exact ⟨Cmos.settings_read _, Cmos.ram_read _, rfl⟩

end

/-! ## Any interleaving -/

section

variable {logBase2 : Int → ℚ} {s₀ s s' : State} {h h' : History} {left : List Change} {t : Nat}

/-- When interrupts are on, or one is being handled, no thread is in a change. -/
theorem outside_of_staged (hstaged : Staged s t left) (hon : s.intf = true ∨ s.handler.ops ≠ []) :
    Outside (s.thread t) left := by
  obtain hout | ⟨-, hoff, hidle, -⟩ := hstaged
  · exact hout
  · obtain hon | hbusy := hon
    · exact absurd (hon.symm.trans hoff) (by decide)
    · exact absurd hidle hbusy

/-- What keeps the chip's index and settings keeps a thread in its change. -/
theorem Inside.congr {c c' : Cmos} {th : Thread} (hinside : Inside c th left)
    (hindex : c'.index = c.index) (hsettings : c'.settings = c.settings) : Inside c' th left := by
  cases hinside with
  | entered hd hops => exact .entered hd hops
  | selected hd hops hi => exact .selected hd hops (hindex.trans hi)
  | read hd hops hi ha => exact .read hd hops (hindex.trans hi) (ha.congr hindex hsettings)
  | reselected hd hops hi ha => exact .reselected hd hops (hindex.trans hi) (ha.congr hindex hsettings)
  | written hops => exact .written hops

/-- The chip goes on by itself. -/
theorem Logged.hardware (hlogged : Logged s₀ s h) (hthread : s'.thread = s.thread)
    (hcurr : s'.curr = s.curr) (hintf : s'.intf = s.intf) (hhandler : s'.handler = s.handler)
    (hindex : s'.cmos.index = s.cmos.index) (hsettings : s'.cmos.settings = s.cmos.settings)
    (hram : s'.cmos.ram = s.cmos.ram) : Logged s₀ s' h := by
  refine ⟨hsettings.trans hlogged.settings, hram.trans hlogged.ram, fun t => ?_,
    hhandler ▸ hlogged.handler⟩
  obtain ⟨left, hleft, hstaged⟩ := hlogged.threads t
  refine ⟨left, hleft, ?_⟩
  rw [Staged, hthread, hcurr, hintf, hhandler]
  exact hstaged.imp_right fun ⟨ht, hoff, hidle, hin⟩ => ⟨ht, hoff, hidle, hin.congr hindex hsettings⟩

/-- All threads are between their changes, and stay there. -/
theorem Logged.outside (hlogged : Logged s₀ s h) (hout : s.intf = true ∨ s.handler.ops ≠ [])
    (hthread : s'.thread = s.thread) (hhandler : s'.handler.ops <:+ rtcHandleInterrupt)
    (hsettings : s'.cmos.settings = s.cmos.settings) (hram : s'.cmos.ram = s.cmos.ram) :
    Logged s₀ s' h := by
  refine ⟨hsettings.trans hlogged.settings, hram.trans hlogged.ram, fun t => ?_, hhandler⟩
  obtain ⟨left, hleft, hstaged⟩ := hlogged.threads t
  exact ⟨left, hleft, .inl (hthread ▸ outside_of_staged hstaged hout)⟩

/-- An access of the handler. -/
theorem Logged.next_handler (hlogged : Logged s₀ s h) {op : Op} {ops : List Op}
    (hops : s.handler.ops = op :: ops) (hnext : next s = some s') : Logged s₀ s' h := by
  have hsuffix := hlogged.handler
  rw [hops] at hsuffix
  obtain ⟨hsettings, hram, hrest⟩ :=
    exec_handler (hsuffix.mem List.mem_cons_self) s { s.handler with ops }
  rw [next, hops] at hnext
  obtain rfl := Option.some.inj hnext
  refine hlogged.outside (.inr (by rw [hops]; exact List.cons_ne_nil _ _)) (exec_keeps op s _).1 ?_
    hsettings hram
  exact hrest ▸ (List.suffix_cons op ops).trans hsuffix

theorem map_snd_map (t : Nat) (ds : List Change) : (ds.map (t, ·)).map Prod.snd = ds := by
  rw [List.map_map]
  exact List.map_id ds

/-- What a thread adds to the log. -/
theorem History.of_append (h : History) (t t' : Nat) (ds : List Change) :
    { h with log := h.log ++ ds.map (t', ·) }.of t = h.of t ++ if t' = t then ds else [] := by
  have hadded : ((ds.map (t', ·)).filter fun e => e.1 = t) = if t' = t then ds.map (t', ·) else [] := by
    split <;> rename_i ht
    · exact List.filter_eq_self.2 (by simp [ht])
    · exact List.filter_eq_nil_iff.2 (by simp [ht])
  rw [History.of, List.filter_append, List.map_append, hadded]
  split
  · rw [map_snd_map]
    rfl
  · rfl

/-- An access of the current thread. -/
theorem Logged.next_thread (hlogged : Logged s₀ s h) (hidle : s.handler.ops = []) {op : Op}
    {ops : List Op} (hops : (s.thread s.curr).ops = op :: ops) (hnext : next s = some s') :
    Logged s₀ s' { h with log := h.log ++ (written s op).map (s.curr, ·) } := by
  have hsteps := steps_of_next hidle hops hnext
  obtain ⟨left, hleft, hstaged⟩ := hlogged.threads s.curr
  have hsame : s.thread s.curr = { s.thread s.curr with ops := op :: ops } := by rw [← hops]
  obtain ⟨left', hgoes⟩ : ∃ left', Goes s op left left' (op.exec s { s.thread s.curr with ops }).1
      (op.exec s { s.thread s.curr with ops }).2 := by
    rw [Staged, hsame] at hstaged
    obtain hout | ⟨-, hoff, -, hin⟩ := hstaged
    · exact goes_of_outside hout
    · exact goes_of_inside hoff hin
  refine ⟨?_, (congrArg Cmos.ram hsteps.cmos).trans (hgoes.ram.trans hlogged.ram), fun t => ?_, by
    rw [hsteps.handler]
    exact hlogged.handler⟩
  · rw [List.map_append, List.foldl_append, ← hlogged.settings, map_snd_map, hsteps.cmos]
    exact hgoes.settings
  · rw [History.of_append]
    by_cases ht : t = s.curr
    · subst ht
      refine ⟨left', ?_, ?_⟩
      · rw [if_pos rfl, List.append_assoc, ← hgoes.left]
        exact hleft
      · rw [Staged, hsteps.self, hsteps.curr, hsteps.intf, hsteps.handler, hsteps.cmos]
        exact hgoes.staged.imp_right fun ⟨hoff, hin⟩ => ⟨rfl, hoff, hidle, hin⟩
    · obtain ⟨left, hleft, hstaged⟩ := hlogged.threads t
      have hout : Outside (s.thread t) left := hstaged.resolve_right fun hin => ht hin.1
      refine ⟨left, ?_, .inl ?_⟩
      · rw [if_neg (Ne.symm ht), List.append_nil]
        exact hleft
      · rw [hsteps.other t ht]
        exact hout

/-- A thread without accesses left has no changes left. -/
theorem left_of_done (hdone : (s.thread t).ops = []) (hstaged : Staged s t left) : left = [] := by
  obtain hout | ⟨-, -, -, hin⟩ := hstaged
  · cases hout with
    | @start ps hps =>
        cases ps with
        | nil => rfl
        | cons p ps =>
            rw [hdone] at hps
            cases hd : p.change with
            | none => exact nomatch hps.trans (code_of_wait hd ps)
            | some d => exact nomatch hps.trans (code_of_change hd ps)
    | woken hps => exact nomatch hdone.symm.trans hps
  · cases hin with
    | entered _ hps | selected _ hps _ | read _ hps _ _ | reselected _ hps _ _ | written hps =>
        exact nomatch hdone.symm.trans hps

/-- A thread that has nothing left starts a call. -/
theorem Logged.call (hlogged : Logged s₀ s h) {c : Call} (hdone : (s.thread s.curr).ops = [])
    {ops : List Op} (hops : ops = code (c.pieces logBase2)) :
    Logged s₀ (s.put { s.thread s.curr with ops }) (h.ask s.curr (changes (c.pieces logBase2))) := by
  refine ⟨hlogged.settings, hlogged.ram, fun t => ?_, hlogged.handler⟩
  obtain ⟨left, hleft, hstaged⟩ := hlogged.threads t
  by_cases ht : t = s.curr
  · subst ht
    have hnil := left_of_done hdone hstaged
    refine ⟨changes (c.pieces logBase2), ?_, .inl ?_⟩
    · rw [hnil, List.append_nil] at hleft
      have hof : (h.ask s.curr (changes (c.pieces logBase2))).of s.curr = h.of s.curr := rfl
      have hasked : (h.ask s.curr (changes (c.pieces logBase2))).asked s.curr =
          h.asked s.curr ++ changes (c.pieces logBase2) := Function.update_self ..
      rw [hof, hasked, hleft]
    · rw [thread_put_self]
      exact .start hops
  · have hasked : (h.ask s.curr (changes (c.pieces logBase2))).asked t = h.asked t :=
      Function.update_of_ne ht ..
    refine ⟨left, hleft.trans hasked.symm, ?_⟩
    rw [Staged, thread_put_of_ne _ _ ht]
    exact hstaged

/-- **The step lemma.** -/
theorem Logged.step {e : Event} (hlogged : Logged s₀ s h) (hstep : step logBase2 s e = some s')
    (hnote : note logBase2 s e s' h = some h') : Logged s₀ s' h' := by
  cases e with
  | call c =>
      obtain rfl := Option.some.inj hnote
      rw [Rtc.step] at hstep
      split at hstep
      · rename_i hfree
        obtain rfl := Option.some.inj hstep
        exact hlogged.call hfree.2 (ops_eq logBase2 c)
      · exact nomatch hstep
  | next =>
      cases hops : s.handler.ops with
      | cons op ops =>
          simp only [note, hops] at hnote
          obtain rfl := Option.some.inj hnote
          exact hlogged.next_handler hops hstep
      | nil =>
          cases hops' : (s.thread s.curr).ops with
          | nil =>
              simp only [Rtc.step, next, hops, hops'] at hstep
              exact nomatch hstep
          | cons op ops =>
              have hthread := hlogged.next_thread hops hops' hstep
              cases op <;> simp only [note, hops, hops', Option.some.injEq] at hnote <;> subst hnote <;>
                simpa [written] using hthread
  | tick =>
      obtain rfl := Option.some.inj hnote
      obtain rfl := Option.some.inj hstep
      exact hlogged.hardware rfl rfl rfl rfl rfl (Cmos.settings_tick _) (Cmos.ram_tick _)
  | advance r v =>
      obtain rfl := Option.some.inj hnote
      obtain rfl := Option.some.inj hstep
      exact hlogged.hardware rfl rfl rfl rfl (Cmos.index_advance ..) (Cmos.settings_advance ..)
        (Cmos.ram_advance ..)
  | interrupt =>
      obtain rfl := Option.some.inj hnote
      rw [Rtc.step] at hstep
      split at hstep
      · rename_i hready
        obtain rfl := Option.some.inj hstep
        exact hlogged.outside (.inl hready.1) rfl (List.suffix_refl _) rfl rfl
      · exact nomatch hstep
  | switch t =>
      obtain rfl := Option.some.inj hnote
      rw [Rtc.step] at hstep
      split at hstep
      · rename_i hready
        obtain rfl := Option.some.inj hstep
        exact hlogged.outside (.inl hready.1) rfl hlogged.handler rfl rfl
      · exact nomatch hstep

/-- No thread is in a call, and no interrupt is being handled. -/
structure Quiet (s : State) : Prop where
  threads : ∀ t, (s.thread t).ops = []
  handler : s.handler.ops = []

theorem logged_of_quiet (h : Quiet s) : Logged s s ⟨fun _ => [], []⟩ := by
  refine ⟨rfl, rfl, fun t => ⟨[], rfl, .inl ?_⟩, ?_⟩
  · exact @Outside.start (s.thread t) [] (h.threads t)
  · rw [h.handler]
    exact List.nil_suffix

theorem logged_of_run {events : List Event} (hquiet : Quiet s₀)
    (hrun : run (withGhost (step logBase2) (note logBase2)) (s₀, ⟨fun _ => [], []⟩) events =
      some (s, h)) : Logged s₀ s h :=
  @run_preserves _ _ _ (fun sh => Logged s₀ sh.1 sh.2)
    (fun _ _ _ hlogged hstep =>
      hlogged.step (withGhost_eq_some.1 hstep).1 (withGhost_eq_some.1 hstep).2)
    events _ _ (logged_of_quiet hquiet) hrun

end

/-- **No change of a register is lost or torn**, whatever interrupts, ticks of the chip and switches
    between the terminals come in between: the chip holds the changes of the log, each applied as a whole
    and in its order, each thread has logged a part of what its calls ask for, in order, and all of it once
    they have returned. -/
theorem registers_of_run (logBase2 : Int → ℚ) (s₀ s : State) (hquiet : Quiet s₀) (events : List Event)
    (h : History)
    (hrun : run (withGhost (step logBase2) (note logBase2)) (s₀, ⟨fun _ => [], []⟩) events =
      some (s, h)) :
    s.cmos.settings = (h.log.map Prod.snd).foldl Change.apply s₀.cmos.settings ∧
      s.cmos.ram = s₀.cmos.ram ∧
      ∀ t, h.of t <+: h.asked t ∧ ((s.thread t).ops = [] → h.of t = h.asked t) := by
  have hlogged := logged_of_run hquiet hrun
  refine ⟨hlogged.settings, hlogged.ram, fun t => ?_⟩
  obtain ⟨left, hleft, hstaged⟩ := hlogged.threads t
  refine ⟨⟨left, hleft⟩, fun hdone => ?_⟩
  rw [← hleft, left_of_done hdone hstaged, List.append_nil]

theorem quiet_restingState : Quiet restingState := ⟨fun _ => rfl, rfl⟩

theorem registers_of_run_setting : ∃ s h,
    run (withGhost (step exactLog) (note exactLog)) (restingState, ⟨fun _ => [], []⟩) settingEvents =
      some (s, h) ∧
    s.cmos.settings = (h.log.map Prod.snd).foldl Change.apply restingState.cmos.settings ∧
      s.cmos.ram = restingState.cmos.ram ∧
      ∀ t, h.of t <+: h.asked t ∧ ((s.thread t).ops = [] → h.of t = h.asked t) :=
  ⟨_, _, rfl, registers_of_run exactLog restingState _ quiet_restingState settingEvents _ rfl⟩

/-! ## The frequency -/

section

variable {logBase2 : Int → ℚ}

/-- The change for a frequency. -/
def rateChange (logBase2 : Int → ℚ) (frequency : Int) : Change := ⟨regA, 0xf0, rate logBase2 frequency⟩

theorem truncate_eq_floor {x : ℚ} (hx : 0 ≤ x) : truncate x = ⌊x⌋ := by
  rw [truncate, Rat.floor_def', Int.tdiv_eq_ediv_of_nonneg (Rat.num_nonneg.2 hx)]

/-- The accepted frequencies are the powers of two. -/
theorem exists_of_accepted {frequency : Int} (h : Accepted frequency) :
    ∃ k : Nat, 1 ≤ k ∧ k ≤ 10 ∧ frequency = 2 ^ k := by
  obtain ⟨hlo, hhi, hpower⟩ := h
  have hall : ∀ n < 1025, 2 ≤ n → n &&& (n - 1) = 0 → ∃ k, k ≤ 10 ∧ 1 ≤ k ∧ n = 2 ^ k := by
    decide +kernel
  obtain ⟨k, hk10, hk1, hk⟩ := hall frequency.toNat (by omega) (by omega) hpower
  refine ⟨k, hk1, hk10, ?_⟩
  rw [← Int.toNat_of_nonneg (show 0 ≤ frequency by omega), hk]
  exact Int.natCast_pow 2 k

/-- The rounding makes up for the approximation. -/
theorem rate_eq {k : Nat} (hk : 1 ≤ k) (hlog : |logBase2 (2 ^ k) - k| ≤ 2 / 5) :
    rate logBase2 (2 ^ k) = BitVec.ofInt 8 (16 - k) &&& 0x0f := by
  obtain ⟨hlo, hhi⟩ := abs_le.1 hlog
  generalize hx : logBase2 (2 ^ k) = x at hlo hhi
  have hk' : (1 : ℚ) ≤ k := by exact_mod_cast hk
  have hnonneg : 0 ≤ x := by linarith
  have hten : (truncate (x * 10)).tmod 10 = ⌊x * 10⌋ % 10 := by
    rw [truncate_eq_floor (by linarith)]
    exact Int.tmod_eq_emod_of_nonneg (Int.floor_nonneg.2 (by linarith))
  rw [rate, hx, hten]
  by_cases hge : (k : ℚ) ≤ x
  · have hfloor : ⌊x⌋ = k := Int.floor_eq_iff.2 ⟨by exact_mod_cast hge, by push_cast; linarith⟩
    have hdigit : ¬ ⌊x * 10⌋ % 10 > 5 := by
      have h1 : (10 * k : Int) ≤ ⌊x * 10⌋ := Int.le_floor.2 (by push_cast; linarith)
      have h2 : ⌊x * 10⌋ < 10 * k + 5 := Int.floor_lt.2 (by push_cast; linarith)
      omega
    simp only [if_neg hdigit]
    rw [floor, if_pos hnonneg, truncate_eq_floor hnonneg, hfloor]
  · have hfloor : ⌊x⌋ = k - 1 :=
      Int.floor_eq_iff.2 ⟨by push_cast; linarith, by push_cast; linarith⟩
    have hdigit : ⌊x * 10⌋ % 10 > 5 := by
      have h1 : (10 * k - 4 : Int) ≤ ⌊x * 10⌋ := Int.le_floor.2 (by push_cast; linarith)
      have h2 : ⌊x * 10⌋ < 10 * k := Int.floor_lt.2 (by push_cast; linarith)
      omega
    simp only [if_pos hdigit]
    rw [ceil, if_neg (not_lt.2 hnonneg), truncate_eq_floor hnonneg, hfloor, sub_add_cancel]

/-- A rate takes the place of the rate before. -/
theorem rate_apply (r : BitVec 8) (st : Settings) :
    ((⟨regA, 0xf0, r⟩ : Change).apply st).a.toNat % 16 = r.toNat % 16 := by
  have hlow : (((⟨regA, 0xf0, r⟩ : Change).apply st).a).setWidth 4 = r.setWidth 4 := by
    have hzero : ((0xf0 : BitVec 8).setWidth 7).setWidth 4 = 0#4 := by decide
    have ha : ((⟨regA, 0xf0, r⟩ : Change).apply st).a =
        st.a &&& (0xf0 : BitVec 8).setWidth 7 ||| r.setWidth 7 := rfl
    rw [ha, BitVec.setWidth_or, BitVec.setWidth_and, hzero, BitVec.and_zero, BitVec.zero_or,
      BitVec.setWidth_setWidth_of_le r (by decide)]
  simpa [BitVec.toNat_setWidth] using congrArg BitVec.toNat hlow

/-- The rate of an accepted frequency makes the chip run at it. -/
theorem hertz_rateChange (hlog : ∀ k : Nat, 1 ≤ k → k ≤ 10 → |logBase2 (2 ^ k) - k| ≤ 2 / 5)
    {frequency : Int} (h : Accepted frequency) (st : Settings) :
    (((rateChange logBase2 frequency).apply st).hertz : Int) = frequency := by
  obtain ⟨k, hk1, hk10, rfl⟩ := exists_of_accepted h
  rw [Settings.hertz, rateChange, rate_apply, rate_eq hk1 (hlog k hk1 hk10)]
  interval_cases k <;> rfl

/-- Changes of other registers leave the frequency alone. -/
theorem hertz_foldl {ds : List Change} (hds : ∀ d ∈ ds, d.register ≠ regA) (st : Settings) :
    (ds.foldl Change.apply st).hertz = st.hertz := by
  induction ds generalizing st with
  | nil => rfl
  | cons d ds ih =>
      have hkeeps : (d.apply st).a = st.a := by
        rw [Change.apply, if_neg (hds d List.mem_cons_self)]
        split <;> rfl
      rw [List.foldl_cons, ih fun d' hd' => hds d' (List.mem_cons_of_mem _ hd'), Settings.hertz, hkeeps]
      rfl

/-- What the calls ask for: to let the interrupt through, or an accepted frequency. -/
def IsRequest (logBase2 : Int → ℚ) (d : Change) : Prop :=
  d = ⟨regB, 0xff, 0x40⟩ ∨ ∃ frequency, Accepted frequency ∧ d = rateChange logBase2 frequency

theorem isRequest_of_mem {c : Call} {d : Change} (hd : d ∈ changes (c.pieces logBase2)) :
    IsRequest logBase2 d := by
  have hfrequency : ∀ frequency, d ∈ changes (frequencyPieces logBase2 frequency) →
      IsRequest logBase2 d := by
    intro frequency hd
    rw [frequencyPieces] at hd
    split at hd
    · rename_i haccepted
      exact .inr ⟨frequency, haccepted, List.mem_singleton.1 hd⟩
    · exact nomatch hd
  cases c with
  | init =>
      obtain rfl | hd := List.mem_cons.1 hd
      · exact .inl rfl
      · exact hfrequency _ hd
  | openRtc | closeRtc => exact hfrequency _ hd
  | read => exact nomatch hd
  | write nbytes buf =>
      rw [Call.pieces] at hd
      split at hd
      · cases buf with
        | none => exact nomatch hd
        | some frequency => exact hfrequency frequency hd
      · exact nomatch hd

/-- Only a call asks for something. -/
theorem asked_of_note {s s' : State} {h h' : History} {e : Event}
    (hnote : note logBase2 s e s' h = some h') :
    h'.asked = h.asked ∨ ∃ c : Call, h' = h.ask s.curr (changes (c.pieces logBase2)) := by
  simp only [note] at hnote
  split at hnote <;> obtain rfl := Option.some.inj hnote
  · exact .inr ⟨_, rfl⟩
  · exact .inl rfl
  · exact .inl rfl

/-- Threads ask for nothing else. -/
theorem isRequest_asked {s₀ s : State} {h₀ h : History} {events : List Event}
    (hrun : run (withGhost (step logBase2) (note logBase2)) (s₀, h₀) events = some (s, h))
    (h₀asked : ∀ t, ∀ d ∈ h₀.asked t, IsRequest logBase2 d) :
    ∀ t, ∀ d ∈ h.asked t, IsRequest logBase2 d := by
  refine @run_preserves _ _ _ (fun sh => ∀ t, ∀ d ∈ sh.2.asked t, IsRequest logBase2 d)
    (fun sh e sh' hasked hstep t d hd => ?_) events _ _ h₀asked hrun
  obtain hsame | ⟨c, hsame⟩ := asked_of_note (withGhost_eq_some.1 hstep).2
  · exact hasked t d (hsame ▸ hd)
  · have hasks : sh'.2.asked t =
        if t = sh.1.curr then sh.2.asked sh.1.curr ++ changes (c.pieces logBase2) else sh.2.asked t := by
      rw [hsame]
      exact Function.update_apply ..
    rw [hasks] at hd
    split at hd
    · obtain hd | hd := List.mem_append.1 hd
      · exact hasked _ d hd
      · exact isRequest_of_mem hd
    · exact hasked t d hd

end

/-- **The chip runs at the last frequency that was accepted**, for a logarithm that is right to two fifths
    at the powers of two: every write to register A comes from an accepted frequency, and with no other one
    behind it the chip runs at that frequency. -/
theorem hertz_of_run (logBase2 : Int → ℚ)
    (hlog : ∀ k : Nat, 1 ≤ k → k ≤ 10 → |logBase2 (2 ^ k) - k| ≤ 2 / 5) (s₀ s : State)
    (hquiet : Quiet s₀) (events : List Event) (h : History)
    (hrun : run (withGhost (step logBase2) (note logBase2)) (s₀, ⟨fun _ => [], []⟩) events =
      some (s, h)) :
    ∀ l t d l', h.log = l ++ (t, d) :: l' → d.register = regA → (∀ e ∈ l', e.2.register ≠ regA) →
      ∃ frequency, Accepted frequency ∧ d = rateChange logBase2 frequency ∧
        (s.cmos.settings.hertz : Int) = frequency := by
  intro l t d l' hsplit hregister hlast
  have hlogged := logged_of_run hquiet hrun
  obtain ⟨left, hleft, -⟩ := hlogged.threads t
  have hmem : d ∈ h.asked t := by
    rw [← hleft, List.mem_append, History.of, hsplit]
    exact .inl (List.mem_map.2 ⟨(t, d), List.mem_filter.2 ⟨by simp, by simp⟩, rfl⟩)
  obtain rfl | ⟨frequency, haccepted, rfl⟩ := isRequest_asked hrun (fun _ _ hd => nomatch hd) t d hmem
  · exact absurd hregister (by decide)
  · refine ⟨frequency, haccepted, rfl, ?_⟩
    have hothers : ∀ d ∈ l'.map Prod.snd, d.register ≠ regA := by
      intro d hd
      obtain ⟨e, he, rfl⟩ := List.mem_map.1 hd
      exact hlast e he
    rw [hlogged.settings, hsplit, List.map_append, List.map_cons, List.foldl_append, List.foldl_cons,
      hertz_foldl hothers]
    exact hertz_rateChange hlog haccepted _

theorem exactLog_pow (k : Nat) : |exactLog (2 ^ k) - k| ≤ 2 / 5 := by
  have hpow : ((2 : Int) ^ k).toNat = 2 ^ k := by
    rw [show (2 : Int) ^ k = ((2 ^ k : Nat) : Int) by push_cast; rfl, Int.toNat_natCast]
  rw [exactLog, hpow, Nat.log_pow (by decide), sub_self, abs_zero]
  norm_num

theorem hertz_of_run_setting : ∃ s h,
    run (withGhost (step exactLog) (note exactLog)) (restingState, ⟨fun _ => [], []⟩) settingEvents =
      some (s, h) ∧
    ∀ l t d l', h.log = l ++ (t, d) :: l' → d.register = regA → (∀ e ∈ l', e.2.register ≠ regA) →
      ∃ frequency, Accepted frequency ∧ d = rateChange exactLog frequency ∧
        (s.cmos.settings.hertz : Int) = frequency :=
  ⟨_, _, rfl, hertz_of_run exactLog (fun k _ _ => exactLog_pow k) restingState _ quiet_restingState
    settingEvents _ rfl⟩

end Rtc

end Gyarados

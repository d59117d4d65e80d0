import Gyarados.Kernel.CommandLine
import Gyarados.Kernel.Descriptors
import Gyarados.Kernel.Unwind

set_option autoImplicit false

/-! # The arguments of a program

`execute` copies the rest of a command line from `temp_arg` into the PCB of the program it starts, and
`getargs` copies it from there. In between the program may use its files, run other programs and lose
the processor to another terminal. -/

namespace Gyarados

/-- The two PCBs have the same bytes in `args`. -/
def SameArgs (m m' : Memory) : Prop := ∀ a, 384 ≤ a → a < 448 → m' a = m a

theorem SameArgs.refl (m : Memory) : SameArgs m m := fun _ _ _ => rfl

theorem SameArgs.trans {m m' m'' : Memory} (h : SameArgs m m') (h' : SameArgs m' m'') :
    SameArgs m m'' := fun a ha ha' => (h' a ha ha').trans (h a ha ha')

/-- A text that fits `args` is read from these bytes alone. -/
theorem SameArgs.args {m m' : Memory} (h : SameArgs m m') (hlen : (Pcb.args m).length < 64) :
    Pcb.args m' = Pcb.args m :=
  Memory.stringAt_congr_of_length_lt _ _ 64 (by omega) hlen fun a ha ha' => h a ha (by omega)

theorem OutsideFd.sameArgs {m m' : Memory} {fd : Nat} (h : OutsideFd fd m m') (hfd : fd < 8) :
    SameArgs m m' := fun a ha _ => h a (by omega)

/-- A change of one PCB, seen from any slot. -/
theorem SameArgs.update {pcb : Slot → Memory} {j : Slot} {m : Memory} (h : SameArgs (pcb j) m)
    (i : Slot) : SameArgs (pcb i) (Function.update pcb j m i) := by
  by_cases hij : i = j
  · subst hij
    rw [Function.update_self]
    exact h
  · rw [Function.update_of_ne hij]
    exact .refl _

/-! ## Into the PCB -/

section

variable {M : Machine} {e : ExecEnv} {slot : Slot} {base prev : Nat} {source m m' : Memory}

theorem initPcb_args_bytes (h : initPcb M e slot base prev source m = some m') {a : Nat}
    (ha : 384 ≤ a) (ha' : a < 448) :
    ∃ m₀ : Memory, m' a = m₀.writeBytes 384 (source.stringAt 0 0x2000 ++ [0]) a :=
  ⟨_, initPcb_bytes h ha (by omega)⟩

theorem args_initPcb (h : initPcb M e slot base prev source m = some m')
    (hlen : (source.stringAt 0 0x2000).length < 64) :
    Pcb.args m' = source.stringAt 0 0x2000 := by
  have hzero := Memory.zero_notMem_stringAt source 0x2000 0
  generalize htext : source.stringAt 0 0x2000 = text at hlen hzero
  refine Memory.stringAt_eq_of_bytes text 384 _ hzero (by omega) (fun k hk => ?_) ?_
  · obtain ⟨m₀, hbyte⟩ := initPcb_args_bytes h (a := 384 + k) (by omega) (by omega)
    rw [hbyte, htext, Memory.writeBytes_getElem _ _ _ _ (by simp; omega),
      List.getElem_append_left hk]
  · obtain ⟨m₀, hbyte⟩ := initPcb_args_bytes h (a := 384 + text.length) (by omega) (by omega)
    rw [hbyte, htext, Memory.writeBytes_getElem _ _ _ _ (by simp)]
    simp

/-- Empty arguments come from an empty text. -/
theorem stringAt_of_args_nil (h : initPcb M e slot base prev source m = some m')
    (hnil : Pcb.args m' = []) : source.stringAt 0 0x2000 = [] := by
  have hbyte : m' 384 = 0 := Memory.stringAt_eq_nil.1 hnil
  obtain ⟨m₀, hwrite⟩ := initPcb_args_bytes h (a := 384) (by omega) (by omega)
  have hzero := Memory.zero_notMem_stringAt source 0x2000 0
  generalize source.stringAt 0 0x2000 = text at hwrite hzero
  cases text with
  | nil => rfl
  | cons c text =>
      have hc : m₀.writeBytes 384 (c :: text ++ [0]) (384 + 0) = c :=
        Memory.writeBytes_getElem _ _ _ 0 (by simp)
      rw [Nat.add_zero, ← hwrite, hbyte] at hc
      simp [hc] at hzero

end

/-! ## Out of the PCB -/

/-- The buffer received the string and its NUL. -/
def Stores.HoldsString (buf : Stores) (r : List UInt8) : Prop :=
  ∀ j, j ≤ r.length → buf j = (r ++ [0])[j]?

theorem holdsString_strncpy {r : List UInt8} {n : Nat} (h : r.length < n) :
    Stores.HoldsString (fun j => (strncpy r n)[j]?) r := by
  intro j hj
  obtain ⟨k, rfl⟩ : ∃ k, n = r.length + (k + 1) := ⟨n - r.length - 1, by omega⟩
  have hcopy : strncpy r (r.length + (k + 1)) = r ++ [0] ++ List.replicate k 0 := by
    rw [strncpy, List.take_of_length_le (by omega), Nat.add_sub_cancel_left, List.replicate_succ,
      List.append_assoc]
    rfl
  show (strncpy r _)[j]? = _
  rw [hcopy, List.getElem?_append_left (by simp; omega)]

theorem eq_nil_of_holdsString {s : List UInt8} {n : Nat} (hn : 0 < n) (hzero : (0 : UInt8) ∉ s)
    (h : Stores.HoldsString (fun j => (strncpy s n)[j]?) []) : s = [] := by
  obtain ⟨n, rfl⟩ := Nat.exists_eq_succ_of_ne_zero hn.ne'
  cases s with
  | nil => rfl
  | cons c s =>
      have hc := h 0 (Nat.le_refl _)
      simp [strncpy] at hc
      simp [hc] at hzero

theorem getargs_of_running {k : Kernel} {i : Slot} (hi : k.currSlot = some i) {n : Int}
    (hn : 0 ≤ n) : getargs false n k = some (0,
      fun j => (strncpy (Pcb.args (k.kernelStack i)) n.toNat)[j]?, k.cli.restoreFlags k.intFlag) := by
  have hbad : ¬ (n < 0 ∨ false = true) := by
    rintro (h | h)
    · omega
    · simp at h
  have hi' : k.cli.currSlot = some i := hi
  simp only [getargs, if_neg hbad, hi', Option.map_some]
  rfl

/-! ## In between -/

/-- The history of a program on terminal `t`: as for nested programs, but the program may use its files,
    and keys may ask for terminals that have not been started. It ends with the program. -/
def noteProgram (M : Machine) (t : Term) (s : System) (a : Action) (u : System) (g : Nesting) :
    Option Nesting :=
  match a with
  | .openFile _ | .closeFile _ | .readFile _ _ _ => some g
  | .function next _ _ => if s.tty.kbd.started next then some g else some { g with others := true }
  | a => noteNesting M t s a u g

def stepProgram (M : Machine) (t : Term) : System × Nesting → Action → Option (System × Nesting) :=
  withGhost (step M) (noteProgram M t)

/-- The program in `slot` is the one whose history is kept, and the arguments in its PCB are those
    of `m`. -/
def ArgsKept (M : Machine) (t : Term) (slot : Slot) (m : Memory) (c : Core) (g : Nesting) : Prop :=
  ∃ c₀ F₀ F, Nested M t c₀ F₀ c F g ∧ (∃ below, F₀.stack t = slot :: below) ∧
    SameArgs m (c₀.pcb slot)

/-! ### Files -/

theorem openFd_sameArgs {M : Machine} {filename : Option CString} {k k' : Kernel} {ret : Int}
    (kbd : Keyboard) (hfits : (Action.openFile filename).OpenFits M)
    (h : openFd M filename k = some (ret, k')) (i : Slot) :
    SameArgs ((k.core kbd).pcb i) ((k'.core kbd).pcb i) := by
  cases filename with
  | none =>
      rw [openFd_unknown (by simp)] at h
      obtain ⟨-, rfl⟩ := Prod.mk.inj (Option.some.inj h)
      exact .refl _
  | some filename =>
      rcases openFd_cases hfits h with
        ⟨-, hcore⟩ | ⟨j, fd, fileInfo, table, m, -, -, hfree, -, -, -, hout, -, hcore⟩
      · rw [hcore]
        exact .refl _
      · rw [hcore]
        exact (hout.sameArgs (freeFd_mem hfree).2).update i

theorem closeFd_sameArgs {M : Machine} {fd ret : Int} {k k' : Kernel}
    (h : closeFd M fd k = some (ret, k')) (i : Slot) :
    SameArgs (k.kernelStack i) (k'.kernelStack i) := by
  cases closeFd_outcome h with
  | kept => exact .refl _
  | @closed j h2 h7 _ _ =>
      have hout : OutsideFd fd.toNat (k.kernelStack j)
          (Pcb.setFilePosition (Pcb.setFlags (k.kernelStack j) fd.toNat 0) fd.toNat 0) :=
        (OutsideFd.setWord _ _ (by omega) (by omega)).trans
          (OutsideFd.setWord _ _ (by omega) (by omega))
      exact (hout.sameArgs (by omega)).update i

theorem readFd_sameArgs {M : Machine} {fd nbytes ret : Int} {bufNull : Bool} {buf : Stores}
    {s s' : System} (h : readFd M fd bufNull nbytes s = some (ret, buf, s')) (i : Slot) :
    SameArgs (s.kernel.kernelStack i) (s'.kernel.kernelStack i) := by
  cases readFd_outcome h with
  | failed => exact .refl _
  | @called j _ _ _ _ _ hfd _ _ _ hread =>
      cases driverRead_outcome hread with
      | device => exact .refl _
      | moved v =>
          have hout : OutsideFd fd.toNat (s.kernel.kernelStack j)
              (Pcb.setFilePosition (s.kernel.kernelStack j) fd.toNat v) :=
            OutsideFd.setWord _ v (by omega) (by omega)
          exact (hout.sameArgs (by omega)).update i

namespace ArgsKept

variable {M : Machine} {t : Term} {slot : Slot} {m : Memory} {c c' : Core} {g g' : Nesting}

theorem of_nested {c₀ : Core} {F₀ : ProcessTable} {below : List Slot}
    (h : ∃ F, Nested M t c₀ F₀ c F g) (hs : F₀.stack t = slot :: below)
    (hm : SameArgs m (c₀.pcb slot)) : ArgsKept M t slot m c g := by
  obtain ⟨F, h⟩ := h
  exact ⟨c₀, F₀, F, h, ⟨below, hs⟩, hm⟩

/-- The arguments are there now. -/
theorem sameArgs (h : ArgsKept M t slot m c g) : SameArgs m (c.pcb slot) := by
  obtain ⟨c₀, F₀, F, h, ⟨below, hs⟩, hm⟩ := h
  exact hm.trans (h.pcbs slot (by rw [hs]; exact List.mem_cons_self)).args

/-- A file call of the program itself: the history starts anew from here. -/
theorem ownCall (h : ArgsKept M t slot m c g) (hdepth : g.depth = 0) (he : FdEffect SameControl c c')
    (hargs : SameArgs (c.pcb slot) (c'.pcb slot)) : ArgsKept M t slot m c' g := by
  have hm := h.sameArgs.trans hargs
  obtain ⟨c₀, F₀, F, h, ⟨below, hs⟩, -⟩ := h
  obtain ⟨children, hlen, hstack⟩ := h.stack
  obtain rfl := List.length_eq_zero_iff.1 (hlen.trans hdepth)
  refine ⟨c', F, F, ⟨h.consistent.fdEffect he, ⟨[], hdepth.symm, rfl⟩, fun _ _ _ => rfl,
    fun _ _ => SamePcb.refl _⟩, ⟨below, ?_⟩, hm⟩
  rw [hstack, hs]
  rfl

theorem fileCall {s u : System} (h : ArgsKept M t slot m s.core g)
    (he : FdEffect SameControl s.core u.core)
    (hargs : SameArgs (s.core.pcb slot) (u.core.pcb slot)) : ArgsKept M t slot m u.core g := by
  by_cases hown : s.core.running = t ∧ g.depth = 0
  · exact h.ownCall hown.2 he hargs
  · obtain ⟨c₀, F₀, F, h, ⟨below, hs⟩, hm⟩ := h
    exact .of_nested ⟨F, h.fdEffect (fun ht hzero => hown ⟨ht, hzero⟩) he⟩ hs hm

/-- A key for a new terminal: it is not the terminal of the program. -/
theorem firstVisit (h : ArgsKept M t slot m c g) {next : Term} {r : Regs} {e : ExecEnv}
    {out : SwitchOutcome} (hnext : c.started next = false)
    (hfits : ExecFits M e (some shellName) c.mask) (he : KeyFEffect M next r e c out c') :
    ArgsKept M t slot m c' { g with others := true } := by
  obtain ⟨c₀, F₀, F, h, ⟨below, hs⟩, hm⟩ := h
  obtain ⟨children, -, hstack⟩ := h.stack
  have hne : next ≠ t := by
    rintro rfl
    have hnil := h.consistent.stack_of_not_started _ hnext
    rw [hstack, hs] at hnil
    simp at hnil
  cases he with
  | @started i how _ _ _ hcall =>
      have hvisit : Nested M t c₀ F₀ (c.visit next) F g :=
        ⟨h.consistent.visit hnext, h.stack, h.others, h.pcbs⟩
      exact .of_nested ((hvisit.save i r).callEffect_other hne hfits hcall) hs hm
  | ignored hstarted => simp [hnext] at hstarted
  | loaded hstarted => simp [hnext] at hstarted

/-- **One step keeps the arguments.** -/
theorem of_step {s u : System} {a : Action} (h : ArgsKept M t slot m s.core g)
    (hfits : a.Contained M s) (hstep : stepProgram M t (s, g) a = some (u, g')) :
    ArgsKept M t slot m u.core g' := by
  obtain ⟨hstep, hnote⟩ := withGhost_eq_some.1 hstep
  have he := step_effect hstep
  -- every other action is one that the history of nested programs allows
  have hnested : noteNesting M t s a u g = some g' → ArgsKept M t slot m u.core g' := by
    intro hnote
    obtain ⟨c₀, F₀, F, h, ⟨below, hs⟩, hm⟩ := h
    exact .of_nested (Nested.of_step ⟨F, h⟩ (by simp [hs]) hfits.1
      (withGhost_eq_some.2 ⟨hstep, hnote⟩)) hs hm
  cases a with
  | openFile filename =>
      obtain rfl := Option.some.inj hnote
      obtain ⟨⟨ret, k'⟩, hopen, rfl⟩ := Option.map_eq_some_iff.1 hstep
      exact h.fileCall he (openFd_sameArgs s.tty.kbd hfits.2 hopen slot)
  | closeFile fd =>
      obtain rfl := Option.some.inj hnote
      obtain ⟨⟨ret, k'⟩, hclose, rfl⟩ := Option.map_eq_some_iff.1 hstep
      exact h.fileCall he.sameControl (closeFd_sameArgs hclose slot)
  | readFile fd bufNull nbytes =>
      obtain rfl := Option.some.inj hnote
      obtain ⟨⟨ret, buf, u'⟩, hread, rfl⟩ := Option.map_eq_some_iff.1 hstep
      exact h.fileCall he.sameControl (readFd_sameArgs hread slot)
  | function next r e =>
      obtain ⟨out, he⟩ := he
      simp only [noteProgram] at hnote
      split at hnote
      · rename_i hstarted
        refine hnested ?_
        rw [noteNesting, if_pos hstarted]
        exact hnote
      · rename_i hnot
        obtain rfl := Option.some.inj hnote
        have hnext : s.tty.kbd.started next = false := Bool.eq_false_iff.2 hnot
        exact h.firstVisit hnext (hfits.1 hnext) he
  | _ => exact hnested hnote

/-- A program just started, on top of the processes of its terminal. -/
theorem start {F : ProcessTable} (ht : c.running = t) {m : Memory} {hfree : ¬ F.Uses slot}
    (hcons : Consistent M (c.launch slot m) (F.push c.running slot hfree)) :
    ArgsKept M t slot m (c.launch slot m) { depth := 0, others := false } := by
  subst ht
  refine ⟨_, _, _, Nested.start hcons, ⟨F.stack c.running, StackFamily.push_stack_self _ _ _ _⟩, ?_⟩
  simpa [Core.launch] using SameArgs.refl m

/-- When the program runs it is the process whose arguments `getargs` copies. -/
theorem currSlot (h : ArgsKept M t slot m c g) (hdepth : g.depth = 0) (ht : c.running = t) :
    c.currSlot = some slot := by
  obtain ⟨c₀, F₀, F, h, ⟨below, hs⟩, -⟩ := h
  obtain ⟨children, hlen, hstack⟩ := h.stack
  obtain rfl := List.length_eq_zero_iff.1 (hlen.trans hdepth)
  rw [Core.currSlot, ht, h.consistent.represents.currProc, hstack, hs]
  exact slotAt_pcbAddr slot

end ArgsKept

/-! ## Both together -/

/-- Each `getargs` with room for 64 bytes of the program that has been started on terminal `t` in state
    `s` returns 0 and the string, whatever has happened since then inside the buffers. -/
def Delivers (M : Machine) (t : Term) (s : System) (r : List UInt8) : Prop :=
  ∀ (bs : List Action) (u : System) (others : Bool),
    AllSteps (stepProgram M t) (fun sg a => a.Contained M sg.1) (s, { depth := 0, others := false }) bs →
    run (stepProgram M t) (s, { depth := 0, others := false }) bs = some (u, { depth := 0, others }) →
    u.kernel.currActiveTerm = t → ∀ n : Int, 64 ≤ n →
    ∃ buf k, getargs false n u.kernel = some (0, buf, k) ∧ buf.HoldsString r

/-- The call of `execute` takes the command line apart: it finds the word, clears the screen for `clear`
    alone, and hands the rest to the program that it starts. -/
structure TakesApart (M : Machine) (e : ExecEnv) (s : System) (command : CString) (w : List UInt8)
    (rest : Option (List UInt8)) (out : CallOutcome) (s' : System) : Prop where
  word : strtok command.val = some w
  clear : execPlan M e (some command) s.kernel.currProcIdMask = .clear ↔ w = clearName.val
  args : ∀ entry, out = .launched entry → Delivers M s.kernel.currActiveTerm s' (rest.getD [])

/-- The word has no newline and does not merely begin with `clear`; and if it stands alone and a program
    starts, what `temp_arg` held before is an empty string, or the NUL is stored at its head. -/
structure LineFits (M : Machine) (e : ExecEnv) (mask : Nat) (w : List UInt8)
    (rest : Option (List UInt8)) : Prop where
  newline : 10 ∉ w
  clear : w.take 5 = clearName.val → w = clearName.val
  args : w ≠ clearName.val → StartsProgram M e mask w → ArgsSet e w rest

theorem delivers_of_kept {M : Machine} {t : Term} {slot : Slot} {m : Memory} {s : System}
    (h : ArgsKept M t slot m s.core { depth := 0, others := false }) (hlen : (Pcb.args m).length < 64) :
    Delivers M t s (Pcb.args m) := by
  intro bs u others hfits hrun ht n hn
  have hkept := run_invariant (P := fun sg => ArgsKept M t slot m sg.1.core sg.2)
    (fun _ _ _ h hok hstep => ArgsKept.of_step h hok hstep) h hfits hrun
  refine ⟨_, _, getargs_of_running (hkept.currSlot rfl ht) (by omega), ?_⟩
  have hargs : Pcb.args (u.kernel.kernelStack slot) = Pcb.args m := hkept.sameArgs.args hlen
  rw [hargs]
  exact holdsString_strncpy (by omega)

/-- At once after the start, empty arguments are those of an empty text. -/
theorem args_nil_of_delivers {M : Machine} {t : Term} {s : System} {slot : Slot}
    (h : Delivers M t s []) (ht : s.kernel.currActiveTerm = t)
    (hcurr : s.kernel.currSlot = some slot) : Pcb.args (s.kernel.kernelStack slot) = [] := by
  obtain ⟨buf, k, hget, hbuf⟩ := h [] s false trivial rfl ht 64 (by omega)
  rw [getargs_of_running hcurr (by omega)] at hget
  obtain ⟨hcopy, -⟩ := Prod.mk.inj (Prod.mk.inj (Option.some.inj hget)).2
  rw [← hcopy] at hbuf
  exact eq_nil_of_holdsString (by omega) (Memory.zero_notMem_stringAt _ _ _) hbuf

theorem CallEffect.of_plan {M : Machine} {e : ExecEnv} {command : Option CString} {c c' : Core}
    {out : CallOutcome} {fName : List UInt8} {entry : Nat} {slot : Slot} {tempArg : Memory}
    (h : CallEffect M e command c out c')
    (hplan : execPlan M e command c.mask = .launch fName entry slot tempArg)
    (hfits : (M.copyFileToAddr fName).buf programRoom = none) :
    out = .launched entry ∧ ∃ m,
      initPcb M e slot (frameBase slot) (c.currProc c.running) (argSource M e fName tempArg)
        (c.pcb slot) = some m ∧ c' = c.launch slot m := by
  cases h with
  | returned _ hno => exact absurd hplan (hno _ _ _ _)
  | launched hplan' _ hm =>
      obtain ⟨rfl, rfl, rfl, rfl⟩ := by simpa using hplan'.symm.trans hplan
      exact ⟨rfl, _, hm, rfl⟩
  | nullName hnull => simp [hplan] at hnull
  | overrun hplan' hover =>
      obtain ⟨rfl, -⟩ := by simpa using hplan'.symm.trans hplan
      exact absurd hfits hover

section

variable {M : Machine} {s s' : System} {e : ExecEnv} {command : CString} {w : List UInt8}
variable {rest : Option (List UInt8)} {out : CallOutcome}
variable (hline : command.val = commandLine w rest) (hpos : w ≠ []) (hlen : w.length ≤ 31)
variable (hspace : 32 ∉ w) (hrest : ∀ r ∈ rest, r.length ≤ 63)
variable (hcall : callExecute M e (some command) s = some (out, s'))

include hline hlen hspace hrest

/-- The rest of such a line as `execute` finds it. -/
theorem exists_tempArg : ∃ tempArg, execArgs e (commandLine w rest) = some tempArg ∧
    (tempArg.stringAt 0 0x2000 = rest.getD [] ↔ ArgsSet e w rest) := by
  refine exists_execArgs e hspace hlen fun r hr => ?_
  obtain rfl := Option.mem_def.1 hr
  exact ⟨hrest r hr, zero_notMem_rest hline⟩

include hpos hcall

/-- What a line must be like that is taken apart. -/
theorem TakesApart.lineFits (h : TakesApart M e s command w rest out s') :
    LineFits M e s.kernel.currProcIdMask w rest := by
  obtain ⟨tempArg, hargs, htext⟩ := exists_tempArg hline hlen hspace hrest
  have hnewline : 10 ∉ w := (strtok_commandLine hpos hspace).1 (hline ▸ h.word)
  have hclear := (execPlan_eq_clear hline hpos hspace hnewline hargs).symm.trans h.clear
  refine ⟨hnewline, hclear.1, fun hne hstarts hnone => ?_⟩
  subst hnone
  obtain ⟨entry, slot, hplan⟩ := execPlan_of_starts hline hpos hspace hnewline
    (fun h5 => hne (hclear.1 h5)) hargs hstarts
  obtain ⟨hout, m, hm, hlaunch⟩ := (callExecute_effect hcall).of_plan hplan hstarts.fits
  have hpcb : s'.kernel.kernelStack slot = m := by
    rw [show s'.kernel.kernelStack = s'.core.pcb from rfl, hlaunch]
    exact Function.update_self _ _ _
  have hcurr : s'.kernel.currSlot = some slot := by
    rw [show s'.kernel.currSlot = s'.core.currSlot from rfl, hlaunch]
    exact Core.currSlot_launch _ _ _
  have hnil := args_nil_of_delivers (h.args entry hout) (congrArg Core.running hlaunch) hcurr
  rw [hpcb] at hnil
  have hsource := Memory.stringAt_eq_nil.1 (stringAt_of_args_nil hm hnil)
  rw [argSource, if_neg (fun hnul => absurd hnul.2 (by omega)), if_pos (by decide)] at hsource
  exact htext.1 (Memory.stringAt_eq_nil.2 hsource) rfl

/-- A line that fits is taken apart. -/
theorem LineFits.takesApart {F : ProcessTable} (hcons : Consistent M s.core F)
    (h : LineFits M e s.kernel.currProcIdMask w rest) : TakesApart M e s command w rest out s' := by
  obtain ⟨tempArg, hargs, htext⟩ := exists_tempArg hline hlen hspace hrest
  have hword : strtok command.val = some w := by
    rw [hline]
    exact (strtok_commandLine hpos hspace).2 h.newline
  have hclear : execPlan M e (some command) s.kernel.currProcIdMask = .clear ↔
      w.take 5 = clearName.val := execPlan_eq_clear hline hpos hspace h.newline hargs
  refine ⟨hword, hclear.trans ⟨h.clear, fun heq => by rw [heq]; rfl⟩, fun entry hout => ?_⟩
  subst hout
  have heffect := callExecute_effect hcall
  generalize hs' : s'.core = c' at heffect
  cases heffect with
  | @launched fName entry slot tempArg' m hplan hroom hm =>
      obtain ⟨rfl, hno, hstarts⟩ := starts_of_execPlan hline hpos hspace h.newline hargs hplan hroom
      have hne : w ≠ clearName.val := fun heq => hno (by rw [heq]; rfl)
      have hstring := htext.2 (h.args hne hstarts)
      have hlength : (rest.getD []).length ≤ 63 := by
        cases rest with
        | none => simp
        | some r => exact hrest r rfl
      rw [← hstring] at hlength
      have hfits : (tempArg'.stringAt 0 0x2000).length < 64 := Nat.lt_succ_of_le hlength
      obtain ⟨hfree, hcons'⟩ := hcons.launched hplan hm hfits
      obtain ⟨text, htext, -, -, hname⟩ := (execPlan_eq_launch hplan).words
      obtain rfl := Option.some.inj htext
      have hshort : fName.length ≠ 32 := by
        rw [Option.some.inj (hname.symm.trans hword)]
        omega
      have hsource := stringAt_argSource M e hshort hfits
      have hargs' : Pcb.args m = tempArg'.stringAt 0 0x2000 :=
        (args_initPcb hm (hsource ▸ hfits)).trans hsource
      have hkept : ArgsKept M s.kernel.currActiveTerm slot m s'.core
          { depth := 0, others := false } := by
        rw [hs']
        exact ArgsKept.start rfl hcons'
      rw [← hstring, ← hargs']
      exact delivers_of_kept hkept (by rw [hargs']; exact hfits)

end

/-- **Command lines** are taken apart as they should be exactly when they fit. -/
theorem takesApart_iff {M : Machine} {s₀ s s' : System} {as : List Action} {e : ExecEnv}
    {command : CString} {w : List UInt8} {rest : Option (List UInt8)} {out : CallOutcome}
    (hboot : Boot M s₀) (hfits : AllSteps (step M) (Action.LaunchFits M) s₀ as)
    (hreach : run (step M) s₀ as = some s) (hline : command.val = commandLine w rest) (hpos : w ≠ [])
    (hlen : w.length ≤ 31) (hspace : 32 ∉ w) (hrest : ∀ r ∈ rest, r.length ≤ 63)
    (hcall : callExecute M e (some command) s = some (out, s')) :
    TakesApart M e s command w rest out s' ↔ LineFits M e s.kernel.currProcIdMask w rest := by
  obtain ⟨F, hcons⟩ := consistent_of_run hboot hfits hreach
  constructor
  · exact TakesApart.lineFits hline hpos hlen hspace hrest hcall
  · exact LineFits.takesApart hline hpos hlen hspace hrest hcall hcons

/-- `"shell ab"` -/
def shellLine : CString := ⟨ascii "shell ab", by decide⟩

/-- The first shell starts another one with the arguments `"ab"`. -/
theorem takesApart_shellLine : ∃ s',
    callExecute (sampleMachine [shellDentry]) sampleEnv (some shellLine) unwindStart =
        some (.launched 0x8048094, s') ∧
      TakesApart (sampleMachine [shellDentry]) sampleEnv unwindStart shellLine shellName.val
        (some (ascii "ab")) (.launched 0x8048094) s' := by
  have hany : (callExecute (sampleMachine [shellDentry]) sampleEnv (some shellLine) unwindStart).any
      (fun r => decide (r.1 = .launched 0x8048094)) = true := by
    decide +kernel
  obtain ⟨⟨out, s'⟩, hcall, hout⟩ := (Option.any_eq_true _ _).1 hany
  obtain rfl := of_decide_eq_true hout
  refine ⟨s', hcall, ?_⟩
  refine (takesApart_iff (bootSystem_boot (sampleMachine [shellDentry])) (by decide +kernel)
    (run_reached _ [.execute sampleEnv (some shellName)] (by decide +kernel)) (by decide) (by decide)
    (by decide) (by decide) (by decide) hcall).2 ⟨by decide, by decide, fun _ _ h => ?_⟩
  simp at h

/-- `"clearly"` -/
def clearlyName : CString := ⟨ascii "clearly", by decide⟩

/-- `execute("clearly")` clears the screen. -/
theorem takesApart_clearly : ¬ ∀ (M : Machine) (s₀ s s' : System) (as : List Action) (e : ExecEnv)
    (command : CString) (w : List UInt8) (rest : Option (List UInt8)) (out : CallOutcome),
    Boot M s₀ → AllSteps (step M) (Action.LaunchFits M) s₀ as → run (step M) s₀ as = some s →
    command.val = commandLine w rest → w ≠ [] → w.length ≤ 31 → 32 ∉ w →
    (∀ r ∈ rest, r.length ≤ 63) → callExecute M e (some command) s = some (out, s') →
    TakesApart M e s command w rest out s' := by
  intro h
  have hplan : ∀ mask, execPlan (sampleMachine [shellDentry]) sampleEnv (some clearlyName) mask =
      .clear := fun _ => rfl
  have hcall : ∃ s', callExecute (sampleMachine [shellDentry]) sampleEnv (some clearlyName)
      (bootSystem (sampleMachine [shellDentry])) = some (.returned 0, s') := by
    rw [callExecute, execute, hplan]
    exact ⟨_, rfl⟩
  obtain ⟨s', hcall⟩ := hcall
  have happart := h _ _ _ _ [] _ _ clearlyName.val none _
    (bootSystem_boot (sampleMachine [shellDentry])) trivial rfl rfl (by decide) (by decide) (by decide)
    (by simp) hcall
  exact absurd (happart.clear.1 (hplan _)) (by decide)

end Gyarados

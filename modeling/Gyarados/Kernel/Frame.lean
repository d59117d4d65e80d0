import Gyarados.Kernel.ExecBuffers

set_option autoImplicit false

/-! # The stack frame of `execute`

Nothing bounds the arguments of a command, and behind `temp_arg` lie the other variables of `execute`:
first those that are set later, then those that are in use. In the system a call that stores over these
has no next state. Here such a call goes on, with its variables as the stores have left them, in the frame
that the compiler lays out when it does not optimise. -/

namespace Gyarados

/-! ## The frame -/

namespace Frame

/-! Places in the frame, counted from `temp_arg`. -/

abbrev entrypoint : Nat := 108
abbrev flags : Nat := 112
abbrev cmdLen : Nat := 118
abbrev spaceFlag : Nat := 119
abbrev i : Nat := 120
abbrev tempProcessMask : Nat := 128
abbrev savedEbp : Nat := 140

/-- From the `ebp` of the caller upwards lies what the call returns with. What is far up is below
    `temp_arg`, where nothing is in use. -/
def Lost (j : Nat) : Prop := savedEbp ≤ j ∧ j < 0x80000000

instance (j : Nat) : Decidable (Lost j) := inferInstanceAs (Decidable (_ ∧ _))

end Frame

/-- The frame at the head of the argument loop. -/
def ExecEnv.frame (e : ExecEnv) (intFlag : Bool) : Memory :=
  let f := e.tempArg.setWord Frame.entrypoint 0
  let f := f.setWord Frame.flags (if intFlag then 0x202 else 0x002)
  let f := f.setByte Frame.cmdLen (UInt8.ofNat e.cmdLen)
  let f := f.setByte Frame.spaceFlag 0
  f.setWord Frame.tempProcessMask 0x80

/-- How the argument loop ends. -/
inductive LoopEnd
  /-- The first word is too long. -/
  | tooLong
  /-- A store has hit what the loop itself or the return depends on. -/
  | lost
  | done (i : Nat) (f : Memory)

/-- The argument loop, with its variables in the frame. -/
def frameLoop : Nat → List UInt8 → Memory → LoopEnd
  | i, [], f => .done i f
  | i, c :: cs, f =>
      if c = 32 ∧ f Frame.spaceFlag = 0 then
        frameLoop (i + 1) cs ((f.setByte Frame.spaceFlag 1).setByte Frame.cmdLen (UInt8.ofNat i))
      else if f Frame.spaceFlag = 1 then
        let j := argIndex i (f Frame.cmdLen).toNat
        if (Frame.i ≤ j ∧ j < Frame.i + 4) ∨ Frame.Lost j then .lost
        else frameLoop (i + 1) cs (f.setByte j c)
      else if 32 ≤ i ∧ f Frame.spaceFlag = 0 then .tooLong
      else frameLoop (i + 1) cs f

/-- The frame when the arguments have been stored and terminated. -/
def ExecEnv.frameAfter (e : ExecEnv) (intFlag : Bool) (command : List UInt8) : LoopEnd :=
  match frameLoop 0 command (e.frame intFlag) with
  | .done i f =>
      let j := argIndex i (f Frame.cmdLen).toNat
      if Frame.Lost j then .lost else .done i (f.setByte j 0)
  | out => out

/-! ## The rest of the call -/

/-- `restore_flags(flags)`, with the word in the frame, before a return. -/
def restoreOnFrame (f : Memory) : ExecOutcome × System → ExecOutcome × System
  | (.returned ret, s) =>
      (.returned ret, { s with kernel := s.kernel.restoreFlags ((f.word Frame.flags).testBit 9) })
  | out => out

/-- What `execute` goes on to do with the frame `f`, when an idle machine would have this plan: the
    search for a slot starts with the bit in the frame, and the address of the program is added to what is
    there. -/
def ExecPlan.carryOutOnFrame (M : Machine) (e : ExecEnv) (s : System) (f : Memory) :
    ExecPlan → Option (ExecOutcome × System)
  | .launch fName entry _ _ =>
      let tempMask := f.word Frame.tempProcessMask
      match findSlot s.kernel.currProcIdMask (List.finRange 7) tempMask with
      | none => (ExecPlan.noSlot.carryOut M e s).map (restoreOnFrame f)
      | some slot =>
          (execLaunch M e fName ((entry + f.word Frame.entrypoint) % 0x100000000) slot f s.kernel).map
            fun (out, kernel) => (out, { s with kernel := { kernel with
              currProcIdMask := s.kernel.currProcIdMask ||| (tempMask >>> (slot : Nat)) % 0x100 } })
  | plan => (plan.carryOut M e s).map (restoreOnFrame f)

/-- `execute` on its frame. -/
def executeOnFrame (M : Machine) (e : ExecEnv) (command : Option CString) (s : System) :
    Option (ExecOutcome × System) :=
  match command with
  | none => some (.returned (-1), s)
  | some text =>
      if text.val.length = 0 then some (.returned (-1), s)
      else
        match e.frameAfter s.kernel.intFlag text.val with
        -- no byte of a command is NUL, so `space_flag` has never been set and nothing has been stored
        | .tooLong => some (.returned (-1), s)
        | .lost => none
        | .done _ f =>
            -- the bits for single steps, the direction of strings, the level of ports and nested tasks
            if f.word Frame.flags &&& 0x7500 = 0 then
              (execPlan M e (some text) 0).carryOutOnFrame M e s f
            else none

/-- A call of `execute` on its frame, with the exception handler behind it. -/
def callOnFrame (M : Machine) (e : ExecEnv) (command : Option CString) (s : System) :
    Option (CallOutcome × System) :=
  (executeOnFrame M e command s).bind fun (out, s) => out.deliver M e s

/-- The system with `execute` on its frame. The shell that a first visit starts has no arguments. -/
def stepOnFrame (M : Machine) (s : System) : Action → Option System
  | .execute e command => (callOnFrame M e command s).map Prod.snd
  | a => step M s a

/-- The arguments end before the variables that are in use. -/
def Action.StaysInFrame : Action → Prop
  | .execute _ command => Gyarados.StaysInFrame command
  | _ => True

instance : ∀ a : Action, Decidable a.StaysInFrame
  | .execute _ command => inferInstanceAs (Decidable (StaysInFrame command))
  | .function .. | .halt .. | .openFile .. | .closeFile .. | .readFile .. | .writeFile .. | .key ..
  | .enter | .backspace | .ctrlC .. | .rtcTick => isTrue trivial

/-- The action stays in front of the variables of `execute`, and inside its buffers if it launches. -/
def Action.Fits (M : Machine) (s : System) (a : Action) : Prop := a.StaysInFrame ∧ a.LaunchFits M s

instance (M : Machine) (s : System) (a : Action) : Decidable (a.Fits M s) :=
  inferInstanceAs (Decidable (_ ∧ _))

/-! ## Arguments that stay in front of the variables -/

theorem frameLoop_skip {c : UInt8} {i : Nat} (cs : List UInt8) {f : Memory} (hflag : f Frame.spaceFlag = 0)
    (hc : 32 ≠ c) (hi : i < 32) : frameLoop i (c :: cs) f = frameLoop (i + 1) cs f := by
  rw [frameLoop, if_neg (fun h => hc h.1.symm), hflag, if_neg (by decide), if_neg (fun h => by omega)]

theorem frameLoop_word (cs : List UInt8) {f : Memory} (hflag : f Frame.spaceFlag = 0) :
    ∀ (w : List UInt8) (i : Nat), 32 ∉ w → i + w.length ≤ 32 →
      frameLoop i (w ++ cs) f = frameLoop (i + w.length) cs f
  | [], _, _, _ => rfl
  | c :: w, i, hspace, hlen => by
      rw [List.mem_cons, not_or] at hspace
      rw [List.length_cons] at hlen
      rw [List.cons_append, frameLoop_skip _ hflag hspace.1 (by omega),
        frameLoop_word cs hflag w (i + 1) hspace.2 (by omega), List.length_cons, Nat.add_right_comm i 1,
        Nat.add_assoc i]

theorem frameLoop_long (cs : List UInt8) {f : Memory} (hflag : f Frame.spaceFlag = 0) :
    ∀ (w : List UInt8) (i : Nat), 32 ∉ w → i ≤ 32 → 32 < i + w.length →
      frameLoop i (w ++ cs) f = .tooLong
  | [], i, _, hi, hlen => by
      rw [List.length_nil] at hlen
      omega
  | c :: w, i, hspace, hi, hlen => by
      rw [List.mem_cons, not_or] at hspace
      rw [List.length_cons] at hlen
      rw [List.cons_append]
      by_cases hend : 32 ≤ i
      · rw [frameLoop, if_neg (fun h => hspace.1 h.1.symm), if_neg (by rw [hflag]; decide),
          if_pos ⟨hend, hflag⟩]
      · rw [frameLoop_skip _ hflag hspace.1 (by omega)]
        exact frameLoop_long cs hflag w (i + 1) hspace.2 (by omega) (by omega)

/-- Behind the space the loop copies, and it finds its variables as they were. -/
theorem frameLoop_rest {n : Nat} : ∀ (r : List UInt8) (i : Nat) (f : Memory), f Frame.spaceFlag = 1 →
    (f Frame.cmdLen).toNat = n → n < i → i - n - 1 + r.length ≤ Frame.entrypoint →
    frameLoop i r f = .done (i + r.length) (f.writeBytes (i - n - 1) r)
  | [], _, _, _, _, _, _ => rfl
  | c :: r, i, f, hflag, hcmd, hlt, hlen => by
      rw [List.length_cons] at hlen
      have hn := (f Frame.cmdLen).toNat_lt
      have hindex : argIndex i n = i - n - 1 := by
        unfold argIndex
        simp only [Frame.entrypoint] at hlen
        omega
      have hplace : i - n - 1 < Frame.entrypoint := by omega
      have hkeeps : ∀ j, Frame.entrypoint ≤ j → (f.setByte (i - n - 1) c) j = f j := fun j hj =>
        Memory.setByte_of_ne _ _ (by omega)
      have hsafe : ¬ ((Frame.i ≤ i - n - 1 ∧ i - n - 1 < Frame.i + 4) ∨ Frame.Lost (i - n - 1)) := by
        simp only [Frame.Lost, Frame.i, Frame.savedEbp, Frame.entrypoint] at hplace ⊢
        omega
      have ih := frameLoop_rest r (i + 1) (f.setByte (i - n - 1) c)
        (by rw [hkeeps _ (by decide), hflag]) (by rw [hkeeps _ (by decide), hcmd]) (by omega) (by omega)
      rw [frameLoop, if_neg (by rw [hflag]; simp), if_pos hflag, hcmd]
      simp only [hindex]
      rw [if_neg hsafe, ih, List.length_cons, Memory.writeBytes, Nat.add_right_comm i 1, Nat.add_assoc i,
        show i + 1 - n - 1 = i - n - 1 + 1 by omega]

/-- What is in use is as `execute` has set it up, and `temp_arg` holds `m`. -/
structure Intact (intFlag : Bool) (m f : Memory) : Prop where
  tempArg : ∀ a, a < 64 → f a = m a
  entrypoint : f.word Frame.entrypoint = 0
  flags : f.word Frame.flags = if intFlag then 0x202 else 0x002
  tempProcessMask : f.word Frame.tempProcessMask = 0x80

section

variable {e : ExecEnv} {b : Bool} {m f : Memory} {w : List UInt8}

theorem intact_frame (e : ExecEnv) (b : Bool) : Intact b e.tempArg (e.frame b) where
  tempArg a ha := by
    simp only [ExecEnv.frame, Frame.tempProcessMask, Frame.spaceFlag, Frame.cmdLen, Frame.flags,
      Frame.entrypoint]
    rw [Memory.setWord_of_disjoint _ _ (by omega), Memory.setByte_of_ne _ _ (by omega),
      Memory.setByte_of_ne _ _ (by omega), Memory.setWord_of_disjoint _ _ (by omega),
      Memory.setWord_of_disjoint _ _ (by omega)]
  entrypoint := by cases b <;> rfl
  flags := by cases b <;> rfl
  tempProcessMask := by rw [ExecEnv.frame, Memory.word_setWord]

/-- A store in front of `entrypoint`, or below `temp_arg`; `entrypoint` may get the NUL. -/
theorem Intact.setByte (h : Intact b m f) {j : Nat} {c : UInt8}
    (hj : j < Frame.entrypoint ∨ 0x80000000 ≤ j ∨ j = Frame.entrypoint ∧ c = 0) :
    Intact b (m.setByte j c) (f.setByte j c) := by
  have hzero : f Frame.entrypoint = 0 := by
    have hword := h.entrypoint
    rw [Memory.word] at hword
    exact UInt8.toNat_inj.1 (show (f Frame.entrypoint).toNat = 0 by omega)
  have hkeeps : ∀ a, Frame.entrypoint ≤ a → a < Frame.savedEbp → (f.setByte j c) a = f a := by
    intro a ha ha'
    rw [Memory.setByte]
    split
    · rename_i heq
      simp only [Frame.savedEbp] at ha'
      obtain hlt | hle | ⟨hat, rfl⟩ := hj
      · omega
      · omega
      · rw [heq, hat, hzero]
    · rfl
  have hword : ∀ a, Frame.entrypoint ≤ a → a + 4 ≤ Frame.savedEbp →
      (f.setByte j c).word a = f.word a := fun a ha ha' =>
    Memory.word_congr fun k hk hk' => hkeeps k (by omega) (by omega)
  refine ⟨fun a ha => ?_, (hword _ le_rfl (by decide)).trans h.entrypoint,
    (hword _ (by decide) (by decide)).trans h.flags,
    (hword _ (by decide) (by decide)).trans h.tempProcessMask⟩
  simp only [Memory.setByte, h.tempArg a ha]

theorem Intact.writeBytes (r : List UInt8) : ∀ {m f : Memory} {j : Nat}, Intact b m f →
    j + r.length ≤ Frame.entrypoint → Intact b (m.writeBytes j r) (f.writeBytes j r) := by
  induction r with
  | nil => exact fun h _ => h
  | cons c r ih =>
      intro m f j h hlen
      rw [List.length_cons] at hlen
      exact ih (h.setByte (.inl (by omega))) (by omega)

/-- The loop's own variables. -/
theorem Intact.setLoop (h : Intact b m f) {j : Nat} (hj : Frame.cmdLen ≤ j)
    (hj' : j < Frame.tempProcessMask) (c : UInt8) : Intact b m (f.setByte j c) := by
  simp only [Frame.cmdLen, Frame.tempProcessMask] at hj hj'
  have hword : ∀ a, a + 4 ≤ j ∨ j < a → (f.setByte j c).word a = f.word a := fun a ha =>
    Memory.word_congr fun k hk hk' => Memory.setByte_of_ne _ _ (by omega)
  refine ⟨fun a ha => ?_, (hword _ ?_).trans h.entrypoint, (hword _ ?_).trans h.flags,
    (hword _ ?_).trans h.tempProcessMask⟩
  · rw [Memory.setByte_of_ne _ _ (by omega), h.tempArg a ha]
  · simp only [Frame.entrypoint]
    omega
  · simp only [Frame.flags]
    omega
  · simp only [Frame.tempProcessMask]
    omega

theorem frameAfter_eq_tooLong (e : ExecEnv) (b : Bool) {command : List UInt8}
    (hlen : 32 < (firstWord command).length) : e.frameAfter b command = .tooLong := by
  have happend : command = firstWord command ++ command.dropWhile fun c => decide (c ≠ 32) :=
    List.takeWhile_append_dropWhile.symm
  rw [happend, ExecEnv.frameAfter,
    frameLoop_long _ (by cases b <;> rfl) _ 0 (space_notMem_firstWord command) (Nat.zero_le _) (by omega)]

/-- Without arguments only a NUL is stored. -/
theorem exists_frameAfter_word (e : ExecEnv) (b : Bool) (hspace : 32 ∉ w) (hlen : w.length ≤ 32) :
    ∃ m i f, execArgs e (commandLine w none) = some m ∧
      e.frameAfter b (commandLine w none) = .done i f ∧ Intact b m f := by
  have hcmd := e.cmdLen_lt
  have hloop := frameLoop_word [] (f := e.frame b) (by cases b <;> rfl) w 0 hspace (by omega)
  rw [List.append_nil, Nat.zero_add] at hloop
  have hread : ((e.frame b) Frame.cmdLen).toNat = e.cmdLen := by
    have hcell : (e.frame b) Frame.cmdLen = UInt8.ofNat e.cmdLen := by cases b <;> rfl
    rw [hcell, UInt8.toNat_ofNat', Nat.mod_eq_of_lt hcmd]
  have hplace : argIndex w.length e.cmdLen < 64 ∨ 0x80000000 ≤ argIndex w.length e.cmdLen := by
    unfold argIndex
    omega
  have hsafe : ¬ Frame.Lost (argIndex w.length e.cmdLen) := by
    simp only [Frame.Lost, Frame.savedEbp]
    omega
  refine ⟨_, w.length, _, execArgs_word e hspace hlen, ?_, (intact_frame e b).setByte
    (hplace.imp (·.trans (by decide)) .inl)⟩
  rw [ExecEnv.frameAfter, commandLine, hloop, frameLoop]
  simp only [hread]
  rw [if_neg hsafe]

/-- The arguments and their NUL are stored, and what is in use is untouched. -/
theorem exists_frameAfter_rest (e : ExecEnv) (b : Bool) {r : List UInt8} (hspace : 32 ∉ w)
    (hlen : w.length ≤ 32) (hr : r.length ≤ Frame.entrypoint) :
    ∃ m i f, execArgs e (commandLine w (some r)) = some m ∧
      e.frameAfter b (commandLine w (some r)) = .done i f ∧ Intact b m f := by
  simp only [Frame.entrypoint] at hr
  have hflag : (e.frame b) Frame.spaceFlag = 0 := by cases b <;> rfl
  set f := ((e.frame b).setByte Frame.spaceFlag 1).setByte Frame.cmdLen (UInt8.ofNat w.length) with hf
  have hcmd : (f Frame.cmdLen).toNat = w.length := by
    rw [hf, Memory.setByte_self, UInt8.toNat_ofNat', Nat.mod_eq_of_lt (by omega)]
  have hspaceFlag : f Frame.spaceFlag = 1 := by
    rw [hf, Memory.setByte_of_ne _ _ (by decide), Memory.setByte_self]
  have hloop : frameLoop 0 (commandLine w (some r)) (e.frame b) =
      .done (w.length + 1 + r.length) (f.writeBytes 0 r) := by
    have hrest := frameLoop_rest r (w.length + 1) f hspaceFlag hcmd (by omega)
      (by simp only [Frame.entrypoint]; omega)
    rw [commandLine, frameLoop_word _ hflag w 0 hspace (by omega), Nat.zero_add, frameLoop,
      if_pos ⟨rfl, hflag⟩, hrest, show w.length + 1 - w.length - 1 = 0 by omega]
  have hkept : (f.writeBytes 0 r) Frame.cmdLen = f Frame.cmdLen :=
    Memory.writeBytes_of_disjoint r f (.inr (by simp only [Frame.cmdLen]; omega))
  have hindex : argIndex (w.length + 1 + r.length) w.length = r.length := by
    unfold argIndex
    omega
  have hsafe : ¬ Frame.Lost r.length := by
    simp only [Frame.Lost, Frame.savedEbp]
    omega
  have hintact : Intact b (e.tempArg.writeBytes 0 r) (f.writeBytes 0 r) :=
    Intact.writeBytes r (((intact_frame e b).setLoop (by decide) (by decide) 1).setLoop le_rfl
      (by decide) _) (by simp only [Frame.entrypoint]; omega)
  refine ⟨_, w.length + 1 + r.length, _, execArgs_rest e hspace hlen hr, ?_, hintact.setByte ?_⟩
  · rw [ExecEnv.frameAfter, hloop]
    simp only [hkept, hcmd, hindex]
    rw [if_neg hsafe]
  · simp only [Frame.entrypoint, and_true]
    omega

/-- A command that stays in front of the variables. -/
theorem exists_frameAfter (e : ExecEnv) (b : Bool) {command : List UInt8}
    (hlen : (firstWord command).length ≤ 32) (hstays : ¬ OverrunsFrame command) :
    ∃ m i f, execArgs e command = some m ∧ e.frameAfter b command = .done i f ∧ Intact b m f := by
  have hspace := space_notMem_firstWord command
  rw [← commandLine_firstWord command]
  cases hrest : argText command with
  | none => exact exists_frameAfter_word e b hspace hlen
  | some r =>
      refine exists_frameAfter_rest e b hspace hlen ?_
      by_contra hlong
      exact hstays ⟨hlen, r, hrest, not_le.1 hlong⟩

end

/-! ## The frame and the system -/

section

variable {M : Machine} {e : ExecEnv} {command : Option CString} {s s' : System} {b : Bool} {m f : Memory}

theorem entryPoint_lt (header : Memory) : entryPoint header < 0x100000000 := by
  have h24 := (header 24).toNat_lt
  have h25 := (header 25).toNat_lt
  have h26 := (header 26).toNat_lt
  have h27 := (header 27).toNat_lt
  unfold entryPoint
  omega

theorem execLaunch_mask {fName : List UInt8} {entry : Nat} {slot : Slot} {k k' : Kernel}
    {out : ExecOutcome} (h : execLaunch M e fName entry slot m k = some (out, k')) :
    k'.currProcIdMask = k.currProcIdMask ||| programBit slot := by
  simp only [execLaunch] at h
  split at h
  · obtain ⟨-, rfl⟩ := Prod.mk.inj (Option.some.inj h)
    rfl
  · obtain ⟨pcb, -, h⟩ := Option.map_eq_some_iff.1 h
    obtain ⟨-, rfl⟩ := Prod.mk.inj h
    rfl

/-- Of `temp_arg` a launch reads the 64 bytes. -/
theorem execLaunch_congr (h : ∀ a, a < 64 → f a = m a) (fName : List UInt8) (entry : Nat) (slot : Slot)
    (k : Kernel) : execLaunch M e fName entry slot f k = execLaunch M e fName entry slot m k := by
  have hsource : argSource M e fName f = argSource M e fName m := by
    funext a
    rw [argSource, argSource]
    split
    · rfl
    split
    · exact h a ‹_›
    · rfl
  simp only [execLaunch, hsource]

theorem Intact.restoreOnFrame_eq (h : Intact b m f) (hs : s.kernel.intFlag = b) (out : ExecOutcome) :
    restoreOnFrame f (out, s) = (out, s) := by
  have hbit : (f.word Frame.flags).testBit 9 = s.kernel.intFlag := by
    rw [h.flags, hs]
    cases b <;> rfl
  cases out with
  | returned ret =>
      rw [restoreOnFrame, hbit]
      rfl
  | launched entry => rfl
  | fault addr => rfl

theorem Intact.carryOutOnFrame_eq {text : CString} (h : Intact s.kernel.intFlag m f)
    (hargs : execArgs e text.val = some m) :
    (execPlan M e (some text) 0).carryOutOnFrame M e s f =
      (execPlan M e (some text) s.kernel.currProcIdMask).carryOut M e s := by
  have hrestore : ∀ (out : ExecOutcome) (tty : Tty),
      restoreOnFrame f (out, { s with tty }) = (out, { s with tty }) := fun out tty =>
    h.restoreOnFrame_eq (s := { s with tty }) rfl out
  cases hidle : execPlan M e (some text) 0 with
  | launch fName entry slot tempArg =>
      obtain ⟨⟨text', htext, -, hargs', -⟩, -, -, -, hentry, -, -⟩ := execPlan_eq_launch hidle
      obtain rfl := Option.some.inj htext
      obtain rfl := Option.some.inj (hargs'.symm.trans hargs)
      have hadd : (entry + 0) % 0x100000000 = entry := by
        rw [Nat.add_zero, hentry, Nat.mod_eq_of_lt (entryPoint_lt _)]
      rw [execPlan_of_idle hidle, ExecPlan.carryOutOnFrame, h.tempProcessMask, h.entrypoint, hadd]
      cases findSlot s.kernel.currProcIdMask (List.finRange 7) 0x80 with
      | none => exact congrArg some (hrestore _ _)
      | some slot =>
          have hbit : (0x80 >>> (slot : Nat)) % 0x100 = programBit slot := by
            revert slot
            decide
          simp only [ExecPlan.carryOut, Option.elim_some, hbit, execLaunch_congr h.tempArg]
          refine Option.map_congr fun r hr => ?_
          rw [← execLaunch_mask hr]
  | nullName =>
      rw [execPlan_of_idle_ne (by simp [hidle]), hidle]
      rfl
  | fail | clear | nonRunnable | noSlot =>
      rw [execPlan_of_idle_ne (by simp [hidle]), hidle]
      exact congrArg some (hrestore _ _)

/-- **The frame and the system agree** on a call that does not store over its variables. -/
theorem executeOnFrame_eq (M : Machine) (e : ExecEnv) (s : System) (h : StaysInFrame command) :
    executeOnFrame M e command s = execute M e command s := by
  rw [execute_of_stays h]
  cases command with
  | none => rfl
  | some text =>
      rw [executeOnFrame]
      split
      · rename_i hnil
        rw [execPlan, if_pos hnil]
        rfl
      · rename_i hne
        by_cases hlen : (firstWord text.val).length ≤ 32
        · obtain ⟨m, i, f, hargs, hafter, hintact⟩ :=
            exists_frameAfter e s.kernel.intFlag hlen (h text rfl)
          have hflags : f.word Frame.flags &&& 0x7500 = 0 := by
            rw [hintact.flags]
            split <;> rfl
          rw [hafter]
          simp only [hflags]
          exact hintact.carryOutOnFrame_eq hargs
        · have hnone : execArgs e text.val = none := by
            rw [← Option.not_isSome_iff_eq_none, execArgs_isSome_iff]
            exact hlen
          have hplan : execPlan M e (some text) s.kernel.currProcIdMask = .fail := by
            rw [execPlan, if_neg hne, hnone]
          rw [frameAfter_eq_tooLong e _ (not_le.1 hlen), hplan]
          rfl

theorem callOnFrame_eq (M : Machine) (e : ExecEnv) (s : System) (h : StaysInFrame command) :
    callOnFrame M e command s = callExecute M e command s := by
  rw [callOnFrame, executeOnFrame_eq M e s h, callExecute]

theorem stepOnFrame_eq {a : Action} (h : a.StaysInFrame) : stepOnFrame M s a = step M s a := by
  cases a with
  | execute e command => exact congrArg (Option.map Prod.snd) (callOnFrame_eq M e s h)
  | _ => rfl

/-- What the system does, it does with the frame. -/
theorem stepOnFrame_of_step {a : Action} (h : step M s a = some s') : stepOnFrame M s a = some s' := by
  rw [stepOnFrame_eq]
  · exact h
  cases a with
  | execute e command =>
      obtain ⟨_, hcall, _⟩ := Option.map_eq_some_iff.1 h
      obtain ⟨_, hexec, _⟩ := Option.bind_eq_some_iff.1 hcall
      exact staysInFrame_of_execute hexec
  | _ => trivial

theorem runOnFrame_of_run {as : List Action} (h : run (step M) s as = some s') :
    run (stepOnFrame M) s as = some s' :=
  run_mono (fun _ _ _ => stepOnFrame_of_step) h

end

/-! ## A call that goes astray -/

/-- Another name for the file of the shell. -/
def tenLettersDentry : Dentry := { fileName := ascii "tenletters", fileType := 2, inodeNum := 0 }

/-- A small machine with both names. -/
def strayMachine : Machine := sampleMachine [shellDentry, tenLettersDentry]

/-- The arguments take one off `entrypoint`, leave harmless flags, and make `cmd_len` 1: the last byte goes
    to `temp_process_mask`, and the search for a slot starts with 0x21. -/
def strayCommand : CString :=
  ⟨ascii "tenletters " ++ List.replicate 108 97 ++
    [0xff, 0xff, 0xff, 0xff, 0x02, 0x02, 0x01, 0x01, 97, 97, 0x01, 0x21], by decide⟩

end Gyarados

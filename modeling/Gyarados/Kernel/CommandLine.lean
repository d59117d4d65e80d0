import Gyarados.Kernel.Effects
import Mathlib.Data.List.TakeWhile

set_option autoImplicit false

/-! # Command lines

`execute` cuts the first word off a command line twice: `strtok` copies it, up to a space or a
newline, and the argument loop looks for the first space and copies what stands behind it. -/

namespace Gyarados

/-- The command line of a word, and of the rest behind a space when there is one. -/
def commandLine (w : List UInt8) : Option (List UInt8) → List UInt8
  | none => w
  | some r => w ++ 32 :: r

variable {w : List UInt8} {rest : Option (List UInt8)}

/-! ## The first word -/

theorem strtokWord_eq_takeWhile (s : List UInt8) :
    strtokWord s = s.takeWhile fun c => decide (c ≠ 32 ∧ c ≠ 10) := by
  induction s with
  | nil => rfl
  | cons c s ih =>
      rw [strtokWord, List.takeWhile_cons, ih]
      split
      · rename_i hstop
        rw [if_neg (by simpa [← not_or] using hstop)]
      · rename_i hgo
        rw [if_pos (by simpa [not_or] using hgo)]

/-- `strtok` stops at a newline too, so that a word with one in it is cut short. -/
theorem strtok_commandLine (hpos : w ≠ []) (hspace : 32 ∉ w) :
    strtok (commandLine w rest) = some w ↔ 10 ∉ w := by
  obtain ⟨c, w, rfl⟩ := List.exists_cons_of_ne_nil hpos
  have hc : ¬ c = 32 := fun h => hspace (by simp [h])
  have hword : strtok (commandLine (c :: w) rest) = some (strtokWord (commandLine (c :: w) rest)) := by
    cases rest <;> simp [commandLine, strtok, hc]
  rw [hword, Option.some.injEq, strtokWord_eq_takeWhile]
  constructor
  · intro h hnewline
    rw [← h] at hnewline
    have := List.mem_takeWhile_imp hnewline
    simp at this
  · intro hnewline
    have hall : ∀ b ∈ c :: w, decide (b ≠ 32 ∧ b ≠ 10) = true := by
      intro b hb
      have hb32 : b ≠ 32 := fun h => hspace (h ▸ hb)
      have hb10 : b ≠ 10 := fun h => hnewline (h ▸ hb)
      simp [hb32, hb10]
    cases rest with
    | none => exact List.takeWhile_eq_self_iff.2 hall
    | some r =>
        rw [commandLine, List.takeWhile_append_of_pos hall, List.takeWhile_cons_of_neg (by simp),
          List.append_nil]

/-! ## The rest -/

/-- Up to place 32 the loop passes over a byte of the word. -/
theorem argLoop_skip {c : UInt8} {i : Nat} (cs : List UInt8) {a : ArgState} (hflag : a.spaceFlag = false)
    (hc : 32 ≠ c) (hi : i < 32) : argLoop i (c :: cs) a = argLoop (i + 1) cs a := by
  rw [argLoop, if_neg (fun h => hc h.1.symm), hflag, if_neg Bool.false_ne_true, if_neg (by omega)]

/-- The loop passes over a word of at most 32 bytes. -/
theorem argLoop_word (cs : List UInt8) : ∀ (w : List UInt8) (i : Nat) {a : ArgState},
    a.spaceFlag = false → 32 ∉ w → i + w.length ≤ 32 →
    argLoop i (w ++ cs) a = argLoop (i + w.length) cs a
  | [], _, _, _, _, _ => rfl
  | c :: w, i, a, hflag, hspace, hlen => by
      rw [List.mem_cons, not_or] at hspace
      rw [List.length_cons] at hlen
      rw [List.cons_append, argLoop_skip _ hflag hspace.1 (by omega),
        argLoop_word cs w (i + 1) hflag hspace.2 (by omega), List.length_cons]
      congr 1
      omega

/-- Behind the space the loop copies. -/
theorem argLoop_rest : ∀ (r : List UInt8) (i : Nat) {a : ArgState}, a.spaceFlag = true →
    a.cmdLen < i → i + r.length < 0x100000000 →
    argLoop i r a =
      some (i + r.length, { a with tempArg := a.tempArg.writeBytes (i - a.cmdLen - 1) r })
  | [], _, _, _, _, _ => rfl
  | c :: r, i, a, hflag, hcmd, hlen => by
      rw [List.length_cons] at hlen
      have hindex : argIndex i a.cmdLen = i - a.cmdLen - 1 := by
        unfold argIndex
        omega
      have hnext : i + 1 - a.cmdLen - 1 = i - a.cmdLen - 1 + 1 := by omega
      have ih := argLoop_rest r (i + 1)
        (a := { a with tempArg := a.tempArg.setByte (i - a.cmdLen - 1) c }) hflag
        (Nat.lt_succ_of_lt hcmd) (by omega)
      rw [argLoop, if_neg (by simp [hflag]), if_pos hflag, hindex, ih, hnext, List.length_cons,
        Nat.add_right_comm i 1, Nat.add_assoc i, Memory.writeBytes]

/-- Without a space `temp_arg` and `cmd_len` stay unset, and a NUL is stored somewhere. -/
theorem execArgs_word (e : ExecEnv) (hspace : 32 ∉ w) (hlen : w.length ≤ 32) :
    execArgs e (commandLine w none) =
      some (e.tempArg.setByte (argIndex w.length e.cmdLen) 0) := by
  have hloop := argLoop_word [] w 0
    (a := { spaceFlag := false, cmdLen := e.cmdLen, tempArg := e.tempArg }) rfl hspace (by omega)
  rw [List.append_nil, Nat.zero_add] at hloop
  rw [commandLine, execArgs, hloop]
  rfl

theorem execArgs_rest (e : ExecEnv) {r : List UInt8} (hspace : 32 ∉ w) (hlen : w.length ≤ 32)
    (hr : r.length ≤ 108) :
    execArgs e (commandLine w (some r)) =
      some ((e.tempArg.writeBytes 0 r).setByte r.length 0) := by
  have hmod : w.length % 0x100 = w.length := Nat.mod_eq_of_lt (by omega)
  have hindex : argIndex (w.length + 1 + r.length) w.length = r.length := by
    unfold argIndex
    omega
  rw [commandLine, execArgs, argLoop_word _ w 0 rfl hspace (by omega), Nat.zero_add, argLoop,
    if_pos ⟨rfl, rfl⟩, argLoop_rest r _ rfl (by simp [hmod]) (by omega)]
  simp only [hmod, Option.map_some, hindex, show w.length + 1 - w.length - 1 = 0 by omega]

/-- `temp_arg` holds the rest when there is one. Without a space nothing is copied, and the NUL goes to
    a place that an unset `cmd_len` determines. -/
def ArgsSet (e : ExecEnv) (w : List UInt8) (rest : Option (List UInt8)) : Prop :=
  rest = none → e.tempArg 0 = 0 ∨ argIndex w.length e.cmdLen = 0

/-- The argument text in `temp_arg`. -/
theorem exists_execArgs (e : ExecEnv) (hspace : 32 ∉ w) (hlen : w.length ≤ 31)
    (hrest : ∀ r ∈ rest, r.length ≤ 63 ∧ 0 ∉ r) :
    ∃ tempArg, execArgs e (commandLine w rest) = some tempArg ∧
      (tempArg.stringAt 0 0x2000 = rest.getD [] ↔ ArgsSet e w rest) := by
  cases rest with
  | none =>
      refine ⟨_, execArgs_word e hspace (by omega), ?_⟩
      rw [Option.getD_none, Memory.stringAt_eq_nil, ArgsSet, Memory.setByte]
      split
      · rename_i hzero
        exact iff_of_true rfl fun _ => .inr hzero.symm
      · rename_i hne
        exact ⟨fun h _ => .inl h, fun h => (h rfl).resolve_right fun hzero => hne hzero.symm⟩
  | some r =>
      obtain ⟨hr, hzero⟩ := hrest r rfl
      refine ⟨_, execArgs_rest e hspace (by omega) (by omega), iff_of_true ?_ fun h => by simp at h⟩
      refine Memory.stringAt_eq_of_bytes r 0 _ hzero (by omega) (fun k hk => ?_) ?_
      · rw [Memory.setByte_of_ne _ _ (by omega), Memory.writeBytes_getElem r _ 0 k hk]
      · rw [Nat.zero_add]
        exact Memory.setByte_self _ _ _

/-! ## What `execute` does with a command line -/

/-- There is a program of that name, a slot for it and room for it on a page. -/
structure StartsProgram (M : Machine) (e : ExecEnv) (mask : Nat) (fName : List UInt8) : Prop where
  read : (M.fsRead fName 0 32).ret ≠ -1
  runnable : isRunnable ((M.fsRead fName 0 32).buf.onto e.fInitData) = true
  slot : (findSlot mask (List.finRange 7) 0x80).isSome = true
  fits : (M.copyFileToAddr fName).buf programRoom = none

section

variable {M : Machine} {e : ExecEnv} {mask : Nat} {command : CString}

theorem commandLine_ne_nil (hpos : w ≠ []) : commandLine w rest ≠ [] := by
  cases rest <;> simp [commandLine, hpos]

theorem zero_notMem_word (h : command.val = commandLine w rest) : (0 : UInt8) ∉ w := by
  intro hzero
  refine command.2 ?_
  rw [h]
  cases rest with
  | none => exact hzero
  | some r => exact List.mem_append_left _ hzero

theorem zero_notMem_rest {r : List UInt8} (h : command.val = commandLine w (some r)) :
    (0 : UInt8) ∉ r := by
  intro hzero
  refine command.2 ?_
  rw [h]
  exact List.mem_append_right _ (List.mem_cons_of_mem _ hzero)

/-- The plan behind the read of the header. -/
def headerPlan (M : Machine) (fName : List UInt8) (tempArg header : Memory) (mask : Nat) : ExecPlan :=
  if (M.fsRead fName 0 32).ret = -1 then .fail
  else if isRunnable ((M.fsRead fName 0 32).buf.onto header) then
    match findSlot mask (List.finRange 7) 0x80 with
    | none => .noSlot
    | some slot =>
        .launch fName (entryPoint ((M.fsRead fName 0 32).buf.onto header)) slot tempArg
  else .nonRunnable

/-- The plan once the command line has been parsed. -/
theorem execPlan_eq_headerPlan (hne : command.val ≠ []) {tempArg : Memory} {fName : List UInt8}
    (hargs : execArgs e command.val = some tempArg) (hword : strtok command.val = some fName) :
    execPlan M e (some command) mask =
      if strncmp fName [99, 108, 101, 97, 114] 5 = 0 then .clear
      else headerPlan M fName tempArg e.fInitData mask := by
  have hlen : ¬ command.val.length = 0 := fun hz => hne (List.length_eq_zero_iff.1 hz)
  simp only [execPlan, if_neg hlen, hargs, hword]
  rfl

theorem execPlan_commandLine (h : command.val = commandLine w rest) (hpos : w ≠ [])
    (hspace : 32 ∉ w) (hnewline : 10 ∉ w) {tempArg : Memory}
    (hargs : execArgs e (commandLine w rest) = some tempArg) :
    execPlan M e (some command) mask =
      if w.take 5 = clearName.val then .clear
      else headerPlan M w tempArg e.fInitData mask := by
  have hclear : strncmp w [99, 108, 101, 97, 114] 5 = 0 ↔ w.take 5 = clearName.val :=
    strncmp_eq_zero_iff 5 (zero_notMem_word h) (by decide)
  rw [execPlan_eq_headerPlan (h ▸ commandLine_ne_nil hpos) (h ▸ hargs)
    (h ▸ (strtok_commandLine hpos hspace).2 hnewline)]
  exact if_congr hclear rfl rfl

/-- The screen is cleared for every word that starts with `clear`. -/
theorem execPlan_eq_clear (h : command.val = commandLine w rest) (hpos : w ≠ []) (hspace : 32 ∉ w)
    (hnewline : 10 ∉ w) {tempArg : Memory} (hargs : execArgs e (commandLine w rest) = some tempArg) :
    execPlan M e (some command) mask = .clear ↔ w.take 5 = clearName.val := by
  rw [execPlan_commandLine h hpos hspace hnewline hargs]
  split
  · rename_i hclear
    exact iff_of_true rfl hclear
  · rename_i hclear
    refine iff_of_false ?_ hclear
    rw [headerPlan]
    repeat' split
    all_goals simp

theorem execPlan_of_starts (h : command.val = commandLine w rest) (hpos : w ≠ []) (hspace : 32 ∉ w)
    (hnewline : 10 ∉ w) (hclear : w.take 5 ≠ clearName.val) {tempArg : Memory}
    (hargs : execArgs e (commandLine w rest) = some tempArg) (hstarts : StartsProgram M e mask w) :
    ∃ entry slot, execPlan M e (some command) mask = .launch w entry slot tempArg := by
  obtain ⟨slot, hslot⟩ := Option.isSome_iff_exists.1 hstarts.slot
  rw [execPlan_commandLine h hpos hspace hnewline hargs, if_neg hclear, headerPlan,
    if_neg hstarts.read, if_pos hstarts.runnable, hslot]
  exact ⟨_, slot, rfl⟩

theorem starts_of_execPlan (h : command.val = commandLine w rest) (hpos : w ≠ []) (hspace : 32 ∉ w)
    (hnewline : 10 ∉ w) {tempArg tempArg' : Memory} {fName : List UInt8} {entry : Nat} {slot : Slot}
    (hargs : execArgs e (commandLine w rest) = some tempArg)
    (hplan : execPlan M e (some command) mask = .launch fName entry slot tempArg')
    (hfits : (M.copyFileToAddr fName).buf programRoom = none) :
    tempArg' = tempArg ∧ w.take 5 ≠ clearName.val ∧ StartsProgram M e mask w := by
  rw [execPlan_commandLine h hpos hspace hnewline hargs] at hplan
  split at hplan
  · simp at hplan
  · rename_i hclear
    rw [headerPlan] at hplan
    split at hplan
    · simp at hplan
    · rename_i hread
      split at hplan
      · rename_i hrun
        split at hplan
        · simp at hplan
        · rename_i slot' hslot
          obtain ⟨rfl, -, -, rfl⟩ := by simpa using hplan
          exact ⟨rfl, hclear, hread, hrun, Option.isSome_iff_exists.2 ⟨slot', hslot⟩, hfits⟩
      · simp at hplan

end

end Gyarados

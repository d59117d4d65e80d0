import Gyarados.Kernel.CommandLine

set_option autoImplicit false

/-! # The buffers of `execute`

A command line passes through four buffers: `temp_arg` for the arguments, the literal that `strtok`
copies the name to, `file_name` and the `args` of the new PCB. The stores to `temp_arg` are listed one
by one here; what the copies of strings store is told by the lengths of the strings. -/

namespace Gyarados

/-! ## The stores to `temp_arg` -/

/-- The stores of the argument loop: where, and what. -/
def argLoopStores : Nat → List UInt8 → ArgState → List (Nat × UInt8)
  | _, [], _ => []
  | i, c :: cs, a =>
      if c = 32 ∧ a.spaceFlag = false then
        argLoopStores (i + 1) cs { a with spaceFlag := true, cmdLen := i % 0x100 }
      else if a.spaceFlag then
        (argIndex i a.cmdLen, c) ::
          argLoopStores (i + 1) cs { a with tempArg := a.tempArg.setByte (argIndex i a.cmdLen) c }
      else if 32 ≤ i then []
      else argLoopStores (i + 1) cs a

/-- The locals at the head of the argument loop. -/
def argStart (e : ExecEnv) : ArgState where
  spaceFlag := false
  cmdLen := e.cmdLen
  tempArg := e.tempArg

/-- All stores to `temp_arg`, the NUL behind the arguments included. -/
def argStores (e : ExecEnv) (command : List UInt8) : List (Nat × UInt8) :=
  argLoopStores 0 command (argStart e) ++
    ((argLoop 0 command (argStart e)).map fun (i, a) => (argIndex i a.cmdLen, (0 : UInt8))).toList

theorem argLoop_eq_stores (cs : List UInt8) : ∀ (i : Nat) (a : ArgState) {j : Nat} {a' : ArgState},
    argLoop i cs a = some (j, a') →
      a'.tempArg = (argLoopStores i cs a).foldl (fun m st => m.setByte st.1 st.2) a.tempArg := by
  induction cs with
  | nil =>
      intro i a j a' h
      obtain ⟨-, rfl⟩ := Prod.mk.inj (Option.some.inj h)
      rfl
  | cons c cs ih =>
      intro i a j a' h
      rw [argLoop] at h
      rw [argLoopStores]
      split at h
      · rename_i hspace
        rw [if_pos hspace]
        exact ih _ _ h
      · rename_i hspace
        rw [if_neg hspace]
        split at h
        · rename_i hflag
          rw [if_pos hflag]
          exact ih _ _ h
        · rename_i hflag
          rw [if_neg hflag]
          split at h
          · simp at h
          · rename_i hi
            rw [if_neg hi]
            exact ih _ _ h

/-- `temp_arg` is what these stores have made of it. -/
theorem execArgs_eq_stores {e : ExecEnv} {command : List UInt8} {m : Memory}
    (h : execArgs e command = some m) :
    m = (argStores e command).foldl (fun m st => m.setByte st.1 st.2) e.tempArg := by
  obtain ⟨⟨i, a⟩, hloop, rfl⟩ := Option.map_eq_some_iff.1 h
  replace hloop : argLoop 0 command (argStart e) = some (i, a) := hloop
  have hstores := argLoop_eq_stores command 0 (argStart e) hloop
  rw [argStores, hloop, List.foldl_append, show e.tempArg = (argStart e).tempArg from rfl, ← hstores]
  rfl

/-- One of the stores is the NUL that ends the arguments. -/
theorem exists_nul_of_execArgs {e : ExecEnv} {command : List UInt8} {m : Memory}
    (h : execArgs e command = some m) : ∃ k, (k, 0) ∈ argStores e command ∧ m k = 0 := by
  obtain ⟨⟨i, a⟩, hloop, rfl⟩ := Option.map_eq_some_iff.1 h
  refine ⟨argIndex i a.cmdLen, ?_, Memory.setByte_self _ _ _⟩
  rw [argStores, show argLoop 0 command (argStart e) = some (i, a) from hloop]
  simp

/-! ## Words and what stands behind them -/

theorem space_notMem_firstWord (command : List UInt8) : 32 ∉ firstWord command := by
  intro h
  simpa using List.mem_takeWhile_imp h

theorem commandLine_firstWord (command : List UInt8) :
    commandLine (firstWord command) (argText command) = command := by
  have hsplit := List.takeWhile_append_dropWhile (p := fun c : UInt8 => decide (c ≠ 32))
    (l := command)
  unfold argText
  split
  · rename_i hdrop
    rw [hdrop, List.append_nil] at hsplit
    exact hsplit
  · rename_i c r hdrop
    have hspace := List.head?_dropWhile_not (fun c : UInt8 => decide (c ≠ 32)) command
    rw [hdrop] at hspace
    obtain rfl : c = 32 := by simpa using hspace
    rw [hdrop] at hsplit
    exact hsplit

theorem length_strtokWord_le (command : List UInt8) :
    (strtokWord command).length ≤ (firstWord command).length := by
  induction command with
  | nil => exact le_rfl
  | cons c cs ih =>
      rw [strtokWord]
      split
      · exact Nat.zero_le _
      · rename_i hgo
        have hc : decide (c ≠ 32) = true := by simpa using fun h => hgo (.inl h)
        rw [firstWord, List.takeWhile_cons_of_pos (p := fun c : UInt8 => decide (c ≠ 32)) hc]
        exact Nat.succ_le_succ ih

/-! ## Where the loop stores -/

theorem argLoopStores_skip {c : UInt8} {i : Nat} (cs : List UInt8) {a : ArgState}
    (hflag : a.spaceFlag = false) (hc : 32 ≠ c) (hi : i < 32) :
    argLoopStores i (c :: cs) a = argLoopStores (i + 1) cs a := by
  rw [argLoopStores, if_neg (fun h => hc h.1.symm), hflag, if_neg Bool.false_ne_true,
    if_neg (by omega)]

/-- A word of more than 32 bytes ends the loop early. -/
theorem argLoop_long (cs : List UInt8) : ∀ (w : List UInt8) (i : Nat) {a : ArgState},
    a.spaceFlag = false → 32 ∉ w → i ≤ 32 → 32 < i + w.length →
    argLoop i (w ++ cs) a = none ∧ argLoopStores i (w ++ cs) a = []
  | [], i, _, _, _, hi, hlen => by
      rw [List.length_nil] at hlen
      omega
  | c :: w, i, a, hflag, hspace, hi, hlen => by
      rw [List.mem_cons, not_or] at hspace
      rw [List.length_cons] at hlen
      rw [List.cons_append]
      by_cases hend : 32 ≤ i
      · have hc : ¬ (c = 32 ∧ a.spaceFlag = false) := fun h => hspace.1 h.1.symm
        rw [argLoop, argLoopStores, if_neg hc, if_neg hc, hflag, if_neg Bool.false_ne_true,
          if_neg Bool.false_ne_true, if_pos hend, if_pos hend]
        exact ⟨rfl, rfl⟩
      · rw [argLoop_skip _ hflag hspace.1 (by omega), argLoopStores_skip _ hflag hspace.1 (by omega)]
        exact argLoop_long cs w (i + 1) hflag hspace.2 (by omega) (by omega)

/-- Before the first space the loop stores nothing. -/
theorem argLoopStores_word (cs : List UInt8) : ∀ (w : List UInt8) (i : Nat) {a : ArgState},
    a.spaceFlag = false → 32 ∉ w → i + w.length ≤ 32 →
    argLoopStores i (w ++ cs) a = argLoopStores (i + w.length) cs a
  | [], _, _, _, _, _ => rfl
  | c :: w, i, a, hflag, hspace, hlen => by
      rw [List.mem_cons, not_or] at hspace
      rw [List.length_cons] at hlen
      rw [List.cons_append, argLoopStores_skip _ hflag hspace.1 (by omega),
        argLoopStores_word cs w (i + 1) hflag hspace.2 (by omega), List.length_cons]
      congr 1
      omega

/-- Behind it the loop goes on to the end. -/
theorem argLoop_flag : ∀ (r : List UInt8) (i : Nat) {a : ArgState}, a.spaceFlag = true →
    ∃ m, argLoop i r a = some (i + r.length, { a with tempArg := m })
  | [], _, a, _ => ⟨a.tempArg, rfl⟩
  | c :: r, i, a, hflag => by
      obtain ⟨m, hm⟩ := argLoop_flag r (i + 1)
        (a := { a with tempArg := a.tempArg.setByte (argIndex i a.cmdLen) c }) hflag
      refine ⟨m, ?_⟩
      rw [argLoop, if_neg (by simp [hflag]), if_pos hflag, hm, List.length_cons,
        Nat.add_right_comm, Nat.add_assoc]

/-- The places go up by one each time: none is past the end of `temp_arg` when the last is not. -/
theorem argLoopStores_lt : ∀ (r : List UInt8) (i : Nat) {a : ArgState}, a.spaceFlag = true →
    a.cmdLen ≤ 32 → a.cmdLen < i → i ≤ a.cmdLen + 65 →
    ((∀ st ∈ argLoopStores i r a, st.1 < 64) ↔ i + r.length ≤ a.cmdLen + 65)
  | [], _, _, _, _, _, hi => iff_of_true (by simp [argLoopStores]) hi
  | c :: r, i, a, hflag, hcmd, hlt, hi => by
      have hindex : argIndex i a.cmdLen = i - a.cmdLen - 1 := by
        unfold argIndex
        omega
      have ih : i ≤ a.cmdLen + 64 → ((∀ st ∈ argLoopStores (i + 1) r
          { a with tempArg := a.tempArg.setByte (argIndex i a.cmdLen) c }, st.1 < 64) ↔
            i + 1 + r.length ≤ a.cmdLen + 65) := fun hlast =>
        argLoopStores_lt r (i + 1) hflag hcmd (Nat.lt_succ_of_lt hlt) (Nat.succ_le_succ hlast)
      rw [argLoopStores, if_neg (by simp [hflag]), if_pos hflag, List.forall_mem_cons,
        List.length_cons]
      by_cases hlast : i ≤ a.cmdLen + 64
      · rw [ih hlast, hindex]
        omega
      · constructor
        · rintro ⟨hhead, -⟩
          rw [hindex] at hhead
          omega
        · intro hend
          omega

variable {e : ExecEnv} {w : List UInt8} {rest : Option (List UInt8)}

theorem execArgs_isSome (hspace : 32 ∉ w) :
    (execArgs e (commandLine w rest)).isSome = true ↔ w.length ≤ 32 := by
  have happend : ∃ cs, commandLine w rest = w ++ cs := by
    cases rest with
    | none => exact ⟨[], (List.append_nil w).symm⟩
    | some r => exact ⟨32 :: r, rfl⟩
  obtain ⟨cs, hcs⟩ := happend
  rw [execArgs, Option.isSome_map]
  by_cases hlen : w.length ≤ 32
  · refine iff_of_true ?_ hlen
    cases rest with
    | none =>
        rw [commandLine, ← List.append_nil w, argLoop_word [] w 0 rfl hspace (by omega)]
        rfl
    | some r =>
        rw [commandLine, argLoop_word _ w 0 rfl hspace (by omega), argLoop, if_pos ⟨rfl, rfl⟩]
        obtain ⟨m, hm⟩ := argLoop_flag r (0 + w.length + 1)
          (a := { spaceFlag := true, cmdLen := (0 + w.length) % 0x100, tempArg := e.tempArg }) rfl
        rw [hm]
        rfl
  · refine iff_of_false ?_ hlen
    rw [hcs, (argLoop_long cs w 0 rfl hspace (by omega) (by omega)).1]
    simp

/-- The arguments fit into `temp_arg` with their NUL. Without arguments the NUL goes where the unset
    `cmd_len` says. -/
def ArgsFit (e : ExecEnv) (w : List UInt8) : Option (List UInt8) → Prop
  | none => e.cmdLen < w.length
  | some r => r.length ≤ 63

instance (e : ExecEnv) (w : List UInt8) : ∀ rest, Decidable (ArgsFit e w rest)
  | none => inferInstanceAs (Decidable (e.cmdLen < w.length))
  | some r => inferInstanceAs (Decidable (r.length ≤ 63))

theorem argStores_lt (hspace : 32 ∉ w) (hlen : w.length ≤ 32) :
    (∀ st ∈ argStores e (commandLine w rest), st.1 < 64) ↔ ArgsFit e w rest := by
  cases rest with
  | none =>
      have hcmd := e.cmdLen_lt
      have hloop := argLoop_word [] w 0 (a := argStart e) rfl hspace (by omega)
      have hstores := argLoopStores_word [] w 0 (a := argStart e) rfl hspace (by omega)
      rw [List.append_nil, Nat.zero_add] at hloop hstores
      rw [commandLine, argStores, hloop, hstores]
      show (∀ st ∈ [(argIndex w.length e.cmdLen, (0 : UInt8))], st.1 < 64) ↔ e.cmdLen < w.length
      rw [List.forall_mem_singleton, argIndex]
      omega
  | some r =>
      have hmod : w.length % 0x100 = w.length := Nat.mod_eq_of_lt (by omega)
      set a : ArgState := { spaceFlag := true, cmdLen := w.length, tempArg := e.tempArg } with ha
      have hloop : argLoop 0 (commandLine w (some r)) (argStart e) = argLoop (w.length + 1) r a := by
        rw [commandLine, argLoop_word _ w 0 rfl hspace (by omega), argLoop, if_pos ⟨rfl, rfl⟩,
          Nat.zero_add, hmod]
        rfl
      have hstores : argLoopStores 0 (commandLine w (some r)) (argStart e) =
          argLoopStores (w.length + 1) r a := by
        rw [commandLine, argLoopStores_word _ w 0 rfl hspace (by omega), argLoopStores,
          if_pos ⟨rfl, rfl⟩, Nat.zero_add, hmod]
        rfl
      obtain ⟨m, hm⟩ := argLoop_flag r (w.length + 1) (a := a) rfl
      have hin := argLoopStores_lt r (w.length + 1) (a := a) rfl hlen (Nat.lt_succ_self _) (by omega)
      rw [show a.cmdLen = w.length from rfl] at hin
      rw [argStores, hloop, hstores, hm, List.forall_mem_append, hin]
      show _ ∧ (∀ st ∈ [(argIndex (w.length + 1 + r.length) w.length, (0 : UInt8))], st.1 < 64) ↔
        r.length ≤ 63
      rw [List.forall_mem_singleton, argIndex]
      omega

/-! ## All four buffers -/

/-- `execute` gets past the argument loop. -/
def PassesLoop (e : ExecEnv) (command : CString) : Prop :=
  command.val ≠ [] ∧ (execArgs e command.val).isSome = true

/-- `execute` gets to the copy of the name. -/
def ReachesHeader (e : ExecEnv) (command : CString) (fName : List UInt8) : Prop :=
  PassesLoop e command ∧ strtok command.val = some fName ∧
    strncmp fName [99, 108, 101, 97, 114] 5 ≠ 0

/-- The bytes that a copy of the string takes. -/
def strSize (s : List UInt8) : Nat := s.length + 1

/-- Each buffer is long enough for what a call of `execute` that gets there stores into it. -/
structure StaysInBuffers (e : ExecEnv) (command : CString) : Prop where
  tempArg : command.val ≠ [] → ∀ st ∈ argStores e command.val, st.1 < 64
  literal : ∀ fName, PassesLoop e command → strtok command.val = some fName → strSize fName ≤ 34
  fileName : ∀ fName, ReachesHeader e command fName → strSize fName ≤ 32
  args : ∀ (M : Machine) (mask : Nat) (fName : List UInt8) (entry : Nat) (slot : Slot)
    (tempArg : Memory), execPlan M e (some command) mask = .launch fName entry slot tempArg →
    (M.copyFileToAddr fName).buf programRoom = none →
      strSize ((argSource M e fName tempArg).stringAt 0 0x2000) ≤ 64

/-- The name is shorter than its buffer, or `execute` clears the screen instead of copying it. -/
def NameFits (command : List UInt8) : Prop :=
  (strtokWord command).length ≠ 32 ∨ strncmp (strtokWord command) [99, 108, 101, 97, 114] 5 = 0

/-- `execute` returns at once, or both the arguments and the name fit. -/
def CommandFits (e : ExecEnv) (command : List UInt8) : Prop :=
  command = [] ∨ 32 < (firstWord command).length ∨
    ArgsFit e (firstWord command) (argText command) ∧ NameFits command

instance (e : ExecEnv) (command : List UInt8) : Decidable (CommandFits e command) :=
  inferInstanceAs (Decidable (command = [] ∨ 32 < (firstWord command).length ∨
    ArgsFit e (firstWord command) (argText command) ∧
      ((strtokWord command).length ≠ 32 ∨
        strncmp (strtokWord command) [99, 108, 101, 97, 114] 5 = 0)))

variable {command : CString}

theorem strtok_eq_some {s fName : List UInt8} (h : strtok s = some fName) : fName = strtokWord s := by
  cases s with
  | nil => simp [strtok] at h
  | cons c cs =>
      simp only [strtok] at h
      split at h
      · simp at h
      · exact (Option.some.inj h).symm

theorem execArgs_isSome_iff (command : List UInt8) :
    (execArgs e command).isSome = true ↔ (firstWord command).length ≤ 32 := by
  have h : (execArgs e (commandLine (firstWord command) (argText command))).isSome = true ↔
      (firstWord command).length ≤ 32 := execArgs_isSome (space_notMem_firstWord command)
  rwa [commandLine_firstWord] at h

theorem argStores_lt_iff {command : List UInt8}
    (hlen : (firstWord command).length ≤ 32) :
    (∀ st ∈ argStores e command, st.1 < 64) ↔ ArgsFit e (firstWord command) (argText command) := by
  have h : (∀ st ∈ argStores e (commandLine (firstWord command) (argText command)), st.1 < 64) ↔
      ArgsFit e (firstWord command) (argText command) :=
    argStores_lt (space_notMem_firstWord command) hlen
  rwa [commandLine_firstWord] at h

/-- A first word that is too long is found before anything is stored. -/
theorem argStores_of_long {command : List UInt8} (hlong : 32 < (firstWord command).length) :
    argStores e command = [] := by
  have happend : command = firstWord command ++ command.dropWhile fun c => decide (c ≠ 32) :=
    List.takeWhile_append_dropWhile.symm
  have h := argLoop_long (command.dropWhile fun c => decide (c ≠ 32)) (firstWord command) 0
    (a := argStart e) rfl (space_notMem_firstWord command) (Nat.zero_le _) (by omega)
  rw [← happend] at h
  rw [argStores, h.1, h.2]
  rfl

theorem PassesLoop.length_strtokWord (h : PassesLoop e command) :
    (strtokWord command.val).length ≤ 32 :=
  (length_strtokWord_le _).trans ((execArgs_isSome_iff _).1 h.2)

/-- The literal that `strtok` writes to has room for every first word that gets there. -/
theorem PassesLoop.strSize_le (h : PassesLoop e command) {fName : List UInt8}
    (hword : strtok command.val = some fName) : strSize fName ≤ 34 := by
  have hlen := h.length_strtokWord
  rw [strtok_eq_some hword, strSize]
  omega

/-- The arguments that fit into `temp_arg` fit into the PCB. -/
theorem strSize_args_le {M : Machine} {mask : Nat} {fName : List UInt8} {entry : Nat} {slot : Slot}
    {tempArg : Memory} (hplan : execPlan M e (some command) mask = .launch fName entry slot tempArg)
    (hstores : ∀ st ∈ argStores e command.val, st.1 < 64) :
    strSize ((argSource M e fName tempArg).stringAt 0 0x2000) ≤ 64 := by
  obtain ⟨text, htext, -, hargs, -⟩ := (execPlan_eq_launch hplan).words
  obtain rfl := Option.some.inj htext
  obtain ⟨k, hk, hz⟩ := exists_nul_of_execArgs hargs
  have hlt : k < 64 := hstores _ hk
  have hsource : argSource M e fName tempArg (0 + k) = 0 := by
    rw [Nat.zero_add, argSource, if_pos hlt, hz, ite_self]
  have hlen : ((argSource M e fName tempArg).stringAt 0 0x2000).length ≤ k :=
    Memory.length_stringAt_le_of_zero _ 0 hsource
  rw [strSize]
  omega

theorem staysInBuffers_of_commandFits (h : CommandFits e command.val) :
    StaysInBuffers e command := by
  have hstores : command.val ≠ [] → ∀ st ∈ argStores e command.val, st.1 < 64 := by
    intro hne
    by_cases hlong : 32 < (firstWord command.val).length
    · simp [argStores_of_long hlong]
    · exact (argStores_lt_iff (by omega)).2 ((h.resolve_left hne).resolve_left hlong).1
  refine ⟨hstores, fun fName hpass hword => hpass.strSize_le hword, fun fName hreach => ?_,
    fun M mask fName entry slot tempArg hplan _ => ?_⟩
  · obtain ⟨hpass, hword, hclear⟩ := hreach
    have hlen := hpass.length_strtokWord
    have hshort : ¬ 32 < (firstWord command.val).length := by
      have := (execArgs_isSome_iff _).1 hpass.2
      omega
    obtain rfl := strtok_eq_some hword
    have hname := ((h.resolve_left hpass.1).resolve_left hshort).2.resolve_right hclear
    rw [strSize]
    omega
  · obtain ⟨text, htext, hne, -⟩ := (execPlan_eq_launch hplan).words
    obtain rfl := Option.some.inj htext
    exact strSize_args_le hplan (hstores hne)

theorem strtok_of_length {s : List UInt8} (h : (strtokWord s).length ≠ 0) :
    strtok s = some (strtokWord s) := by
  cases s with
  | nil => simp [strtokWord] at h
  | cons c cs =>
      have hc : ¬ c = 32 := by
        rintro rfl
        simp [strtokWord] at h
      rw [strtok, if_neg hc]

theorem StaysInBuffers.commandFits (h : StaysInBuffers e command) : CommandFits e command.val := by
  by_cases hnil : command.val = []
  · exact .inl hnil
  by_cases hlong : 32 < (firstWord command.val).length
  · exact .inr (.inl hlong)
  have hshort : (firstWord command.val).length ≤ 32 := by omega
  refine .inr (.inr ⟨(argStores_lt_iff hshort).1 (h.tempArg hnil), ?_⟩)
  by_contra hname
  obtain ⟨hfull, hclear⟩ := not_or.1 hname
  rw [not_not] at hfull
  have hsize := h.fileName (strtokWord command.val)
    ⟨⟨hnil, (execArgs_isSome_iff _).2 hshort⟩, strtok_of_length (by omega), hclear⟩
  rw [strSize] at hsize
  omega

/-- **`execute` stays inside its buffers** exactly for the commands that fit. -/
theorem staysInBuffers_iff (e : ExecEnv) (command : CString) :
    StaysInBuffers e command ↔ CommandFits e command.val :=
  ⟨StaysInBuffers.commandFits, staysInBuffers_of_commandFits⟩

/-- A command with 64 bytes of arguments. -/
def longArgs : CString := ⟨ascii "ls " ++ List.replicate 64 97, by decide⟩

/-- The NUL behind 64 bytes of arguments is stored past the end of `temp_arg`. -/
theorem staysInBuffers_longArgs : ¬ StaysInBuffers sampleEnv longArgs := by
  intro h
  have hlt := h.tempArg (by decide) (64, 0) (by decide +kernel)
  simp at hlt

end Gyarados

import Gyarados.Kernel.Syscall

set_option autoImplicit false

/-! # What the file calls can do

For each call one theorem lists everything that can have happened when it has returned. What the calls
do to the descriptors, to the interrupt flag and to the globals is read off from these. -/

namespace Gyarados

variable {M : Machine} {k k' : Kernel} {s s' : System} {ret : Int} {buf : Stores}

/-! ## open and close -/

/-- The free descriptor that `open` takes: the first whose flags are 0. -/
def freeFd (m : Memory) : Option Nat := [2, 3, 4, 5, 6, 7].find? fun fd => Pcb.flags m fd = 0

theorem freeFd_mem {m : Memory} {fd : Nat} (h : freeFd m = some fd) : 2 ≤ fd ∧ fd < 8 := by
  have hmem := List.mem_of_find?_eq_some h
  simp at hmem
  omega

/-- `open` does not know the name, or it fills in a descriptor if one is free. -/
inductive OpenOutcome (M : Machine) (filename : Option CString) (k : Kernel) : Int → Kernel → Prop
  | unknown : (∀ name, filename = some name → name.val = [] ∨ M.readDentryByName name.val = none) →
      OpenOutcome M filename k (-1) k.cli
  | full {name : CString} {fileInfo : Dentry} {i : Slot} : filename = some name → name.val ≠ [] →
      M.readDentryByName name.val = some fileInfo → k.currSlot = some i →
      freeFd (k.kernelStack i) = none → OpenOutcome M filename k (-1) k
  | opened {name : CString} {fileInfo : Dentry} {i : Slot} {fd : Nat} {m : Memory} :
      filename = some name → name.val ≠ [] → M.readDentryByName name.val = some fileInfo →
      k.currSlot = some i → freeFd (k.kernelStack i) = some fd →
      fillFd M fd name.val fileInfo (k.kernelStack i) = some m →
      OpenOutcome M filename k fd (k.setPcb i (Pcb.setFlags m fd 1))

theorem openFd_outcome {filename : Option CString} (h : openFd M filename k = some (ret, k')) :
    OpenOutcome M filename k ret k' := by
  cases filename with
  | none =>
      obtain ⟨rfl, rfl⟩ := Prod.mk.inj (Option.some.inj h)
      exact .unknown (by simp)
  | some name =>
      simp only [openFd] at h
      split at h
      · rename_i hlen
        obtain ⟨rfl, rfl⟩ := Prod.mk.inj (Option.some.inj h)
        refine .unknown fun name' hname => .inl ?_
        rw [← Option.some.inj hname]
        exact List.length_eq_zero_iff.1 hlen
      · rename_i hlen
        have hne : name.val ≠ [] := fun hnil => hlen (by rw [hnil]; rfl)
        split at h
        · rename_i hnone
          obtain ⟨rfl, rfl⟩ := Prod.mk.inj (Option.some.inj h)
          refine .unknown fun name' hname => .inr ?_
          rw [← Option.some.inj hname]
          exact hnone
        · rename_i fileInfo hfound
          obtain ⟨i, hi, h⟩ := Option.bind_eq_some_iff.1 h
          split at h
          · rename_i hfree
            obtain ⟨rfl, rfl⟩ := Prod.mk.inj (Option.some.inj h)
            exact .full rfl hne hfound hi hfree
          · rename_i fd hfree
            obtain ⟨m, hm, hk⟩ := Option.map_eq_some_iff.1 h
            obtain ⟨rfl, rfl⟩ := Prod.mk.inj hk
            exact .opened rfl hne hfound hi hfree hm

/-- `close` fails and changes nothing, or it frees the descriptor. -/
inductive CloseOutcome (fd : Int) (k : Kernel) : Int → Kernel → Prop
  | kept : CloseOutcome fd k (-1) k
  | closed {i : Slot} : 2 ≤ fd → fd ≤ 7 → k.currSlot = some i →
      Pcb.flags (k.kernelStack i) fd.toNat = 1 →
      CloseOutcome fd k 0 (k.setPcb i
        (Pcb.setFilePosition (Pcb.setFlags (k.kernelStack i) fd.toNat 0) fd.toNat 0))

theorem closeFd_outcome {fd : Int} (h : closeFd M fd k = some (ret, k')) :
    CloseOutcome fd k ret k' := by
  simp only [closeFd] at h
  split at h
  · rename_i hfd
    obtain ⟨i, hi, h⟩ := Option.bind_eq_some_iff.1 h
    split at h
    · rename_i hused
      obtain ⟨d, -, h⟩ := Option.map_eq_some_iff.1 h
      obtain ⟨rfl, rfl⟩ := Prod.mk.inj h
      exact .closed hfd.1 hfd.2 hi hused
    · obtain ⟨rfl, rfl⟩ := Prod.mk.inj (Option.some.inj h)
      exact .kept
  · obtain ⟨rfl, rfl⟩ := Prod.mk.inj (Option.some.inj h)
    exact .kept

/-- What holds between the states around each `close`, and composes, holds around all of them. -/
theorem closeFds_rel {R : Kernel → Kernel → Prop} (hrefl : ∀ k, R k k)
    (htrans : ∀ k₁ k₂ k₃, R k₁ k₂ → R k₂ k₃ → R k₁ k₃)
    (hclose : ∀ fd k k' ret, closeFd M fd k = some (ret, k') → R k k')
    (h : closeFds M k = some k') : R k k' := by
  have hfold : ∀ (fds : List Int) (k : Kernel),
      fds.foldlM (fun k fd => (closeFd M fd k).map Prod.snd) k = some k' → R k k' := by
    intro fds
    induction fds with
    | nil =>
        intro k h
        obtain rfl := Option.some.inj h
        exact hrefl k
    | cons fd fds ih =>
        intro k h
        rw [List.foldlM_cons] at h
        obtain ⟨k₁, hk₁, h⟩ := Option.bind_eq_some_iff.1 h
        obtain ⟨⟨ret, k₂⟩, hstep, rfl⟩ := Option.map_eq_some_iff.1 hk₁
        exact htrans _ _ _ (hclose fd k k₂ ret hstep) (ih k₂ h)
  exact hfold _ k h

/-! ## read and write -/

/-- A read function uses its device, or it moves the position of the descriptor. -/
inductive DriverReadOutcome (i : Slot) (fd : Nat) (s : System) : Driver → System → Prop
  | device {d : Driver} {tty : Tty} {intrOcc : Bool} : s.tty.kbd.SameTerminals tty.kbd →
      DriverReadOutcome i fd s d { s with tty, intrOcc }
  | moved {d : Driver} (v : Nat) : d = .dirRead ∨ d = .fsRead →
      DriverReadOutcome i fd s d
        { s with kernel := s.kernel.setPcb i (Pcb.setFilePosition (s.kernel.kernelStack i) fd v) }

theorem driverRead_outcome {i : Slot} {fd : Nat} {nbytes : Int} {d : Driver}
    (h : driverRead M i fd nbytes s d = some (ret, buf, s')) : DriverReadOutcome i fd s d s' := by
  cases d with
  | terminalRead =>
      obtain ⟨⟨ret', buf', tty⟩, htty, h⟩ := Option.map_eq_some_iff.1 h
      obtain ⟨-, -, rfl⟩ := by simpa using h
      exact .device (Tty.terminalRead_sameTerminals htty)
  | rtcRead =>
      simp only [driverRead] at h
      split at h
      · obtain ⟨-, -, rfl⟩ := by simpa using h
        exact .device (.refl _)
      · simp at h
  | dirRead =>
      obtain ⟨-, -, rfl⟩ := by simpa [driverRead] using h
      exact .moved _ (.inl rfl)
  | fsRead =>
      obtain ⟨-, -, rfl⟩ := by simpa [driverRead] using h
      exact .moved _ (.inr rfl)
  | _ => simp [driverRead] at h

/-- Descriptor `fd` of the running process is not in use. -/
def NotInUse (s : System) (fd : Int) : Prop :=
  ∃ i, s.kernel.currSlot = some i ∧ Pcb.flags (s.kernel.kernelStack i) fd.toNat ≠ 1

/-- `read` fails a test, or it calls the read function of the table. -/
inductive ReadOutcome (M : Machine) (fd : Int) (bufNull : Bool) (nbytes : Int) (s : System) :
    Int → Stores → System → Prop
  | failed : bufNull = true ∨ fd > 7 ∨ fd < 0 ∨ fd = 1 ∨ NotInUse s fd →
      ReadOutcome M fd bufNull nbytes s (-1) .empty { s with kernel := s.kernel.cli }
  | called {i : Slot} {d : Driver} {ret : Int} {buf : Stores} {s' : System} : bufNull = false →
      0 ≤ fd ∧ fd ≤ 7 ∧ fd ≠ 1 → s.kernel.currSlot = some i →
      Pcb.flags (s.kernel.kernelStack i) fd.toNat = 1 →
      (M.tableAt (Pcb.operationsPointer (s.kernel.kernelStack i) fd.toNat)).bind (·.entry .read) =
        some d → driverRead M i fd.toNat nbytes s d = some (ret, buf, s') →
      ReadOutcome M fd bufNull nbytes s ret buf s'

theorem readFd_outcome {fd nbytes : Int} {bufNull : Bool}
    (h : readFd M fd bufNull nbytes s = some (ret, buf, s')) :
    ReadOutcome M fd bufNull nbytes s ret buf s' := by
  simp only [readFd] at h
  split at h
  · rename_i hbad
    obtain ⟨rfl, rfl, rfl⟩ := by simpa using h
    refine .failed ?_
    rcases hbad with hnull | hgt | hlt | hone
    · exact .inl hnull
    · exact .inr (.inl hgt)
    · exact .inr (.inr (.inl hlt))
    · exact .inr (.inr (.inr (.inl hone)))
  · rename_i hbad
    obtain ⟨i, hi, h⟩ := Option.bind_eq_some_iff.1 h
    split at h
    · rename_i hfree
      obtain ⟨rfl, rfl, rfl⟩ := by simpa using h
      exact .failed (.inr (.inr (.inr (.inr ⟨i, hi, hfree⟩))))
    · rename_i hused
      obtain ⟨d, hd, h⟩ := Option.bind_eq_some_iff.1 h
      have hnull : bufNull = false := by
        cases bufNull with
        | false => rfl
        | true => simp at hbad
      exact .called hnull (by omega) hi (not_not.1 hused) hd h

theorem driverWrite_outcome {buf : Memory} {nbytes : Int} {d : Driver}
    (h : driverWrite buf nbytes s d = some (ret, s')) :
    ∃ tty, s.tty.kbd.SameTerminals tty.kbd ∧ s' = { s with tty } := by
  cases d with
  | terminalWrite =>
      obtain ⟨-, rfl⟩ := by simpa [driverWrite] using h
      exact ⟨_, Tty.terminalWrite_sameTerminals _ _ _, rfl⟩
  | rtcWrite =>
      simp only [driverWrite] at h
      split at h
      · obtain ⟨-, rfl⟩ := by simpa using h
        exact ⟨_, .refl _, rfl⟩
      · obtain ⟨-, rfl⟩ := by simpa using h
        exact ⟨_, .refl _, rfl⟩
  | dirWrite =>
      obtain ⟨-, rfl⟩ := by simpa [driverWrite] using h
      exact ⟨_, .refl _, rfl⟩
  | fsWrite =>
      obtain ⟨-, rfl⟩ := by simpa [driverWrite] using h
      exact ⟨_, .refl _, rfl⟩
  | _ => simp [driverWrite] at h

/-- `write` fails a test, or its driver uses the terminal at most. -/
inductive WriteOutcome (fd : Int) (buf : Option Memory) (s : System) : System → Prop
  | failed : buf = none ∨ fd > 7 ∨ fd ≤ 0 ∨ NotInUse s fd →
      WriteOutcome fd buf s { s with kernel := s.kernel.cli }
  | called {i : Slot} {tty : Tty} : buf ≠ none → 0 < fd ∧ fd ≤ 7 → s.kernel.currSlot = some i →
      Pcb.flags (s.kernel.kernelStack i) fd.toNat = 1 → s.tty.kbd.SameTerminals tty.kbd →
      WriteOutcome fd buf s { s with tty }

theorem writeFd_outcome {fd nbytes : Int} {buf : Option Memory}
    (h : writeFd M fd buf nbytes s = some (ret, s')) : WriteOutcome fd buf s s' := by
  simp only [writeFd] at h
  cases buf with
  | none =>
      obtain ⟨-, rfl⟩ := by simpa using h
      exact .failed (.inl rfl)
  | some buf =>
      dsimp only at h
      split at h
      · rename_i hbad
        obtain ⟨-, rfl⟩ := by simpa using h
        exact .failed (.inr (hbad.imp_right .inl))
      · rename_i hbad
        obtain ⟨i, hi, h⟩ := Option.bind_eq_some_iff.1 h
        split at h
        · rename_i hfree
          obtain ⟨-, rfl⟩ := by simpa using h
          exact .failed (.inr (.inr (.inr ⟨i, hi, hfree⟩)))
        · rename_i hused
          obtain ⟨d, -, h⟩ := Option.bind_eq_some_iff.1 h
          obtain ⟨tty, htty, rfl⟩ := driverWrite_outcome h
          exact .called (by simp) (by omega) hi (not_not.1 hused) htty

end Gyarados

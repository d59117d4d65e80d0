import Gyarados.Kernel.FdTable

set_option autoImplicit false

/-! # The file calls of a running process

In every state the system reaches, the three calls refine the operations of the descriptor table.
What the reads through one descriptor deliver follows from the name and position it starts with,
whatever calls are made on the others in between. -/

namespace Gyarados

/-- A call of `open`, `close` or `read`. -/
inductive FileCall
  | openFile (filename : Option CString)
  | closeFile (fd : Int)
  | readFile (fd : Int) (bufNull : Bool) (nbytes : Int)

namespace FileCall

def action : FileCall → Action
  | .openFile filename => .openFile filename
  | .closeFile fd => .closeFile fd
  | .readFile fd bufNull nbytes => .readFile fd bufNull nbytes

/-- The call: the value returned, what the buffer received and the state. -/
def call (M : Machine) (s : System) : FileCall → Option (Int × Stores × System)
  | .openFile filename =>
      (openFd M filename s.kernel).map fun (ret, kernel) => (ret, .empty, { s with kernel })
  | .closeFile fd =>
      (closeFd M fd s.kernel).map fun (ret, kernel) => (ret, .empty, { s with kernel })
  | .readFile fd bufNull nbytes => readFd M fd bufNull nbytes s

theorem step_action (M : Machine) (s : System) (c : FileCall) :
    step M s c.action = (c.call M s).map fun (_, _, t) => t := by
  cases c <;> simp [action, call, step, Function.comp_def]

/-- A read through descriptor `fd`: whether its buffer is NULL, and its size. -/
def request (fd : Nat) : FileCall → Option (Bool × Int)
  | .readFile fd' bufNull nbytes => if fd' = fd then some (bufNull, nbytes) else none
  | _ => none

theorem request_eq_some {fd : Nat} {c : FileCall} {bufNull : Bool} {nbytes : Int}
    (h : c.request fd = some (bufNull, nbytes)) : c = .readFile fd bufNull nbytes := by
  cases c with
  | readFile fd' bufNull' nbytes' =>
      simp only [request] at h
      split at h
      · rename_i hfd
        obtain ⟨rfl, rfl⟩ := Prod.mk.inj (Option.some.inj h)
        rw [hfd]
      · simp at h
  | _ => simp [request] at h

end FileCall

/-- What the reads through descriptor `fd` deliver while the calls are made. -/
def delivered (M : Machine) (fd : Nat) : List FileCall → System → Option (List (Int × Stores))
  | [], _ => some []
  | c :: calls, s =>
      (c.call M s).bind fun (ret, buf, t) =>
        (delivered M fd calls t).map fun data =>
          if (c.request fd).isSome then (ret, buf) :: data else data

/-- What these reads of one file deliver when nothing else happens. -/
def Image.readThrough (I : Image) (name : List UInt8) : Nat → List (Bool × Int) → List (Int × Stores)
  | _, [] => []
  | pos, (bufNull, nbytes) :: requests =>
      if bufNull then (-1, .empty) :: readThrough I name pos requests
      else
        match I.readNamed name pos nbytes with
        | none => []
        | some r => (r.ret, r.buf) :: readThrough I name r.filePosition requests

/-- A name of a regular file or a directory. -/
def Image.Readable (I : Image) (name : List UInt8) : Prop :=
  ∃ fileInfo, I.readDentryByName name = some fileInfo ∧
    (fileInfo.fileType = 1 ∨ fileInfo.fileType = 2)

theorem Image.Readable.exists_read {I : Image} {name : List UInt8} (h : I.Readable name) (pos : Nat)
    (nbytes : Int) : ∃ r, I.readNamed name pos nbytes = some r := by
  obtain ⟨fileInfo, hfound, htype⟩ := h
  rcases htype with hdir | hfile
  · exact ⟨_, by rw [readNamed, hfound, Option.bind_some, if_pos hdir]⟩
  · exact ⟨_, by rw [readNamed, hfound, Option.bind_some, if_neg (by omega), if_pos hfile]⟩

/-! ## Other descriptors in the map -/

namespace FdTable

variable {T : FdTable} {fd : Nat}

theorem openFile_of_used (dir : Set (List UInt8)) (name : List UInt8) (hfd : T fd ≠ none) :
    (T.openFile dir name).2 fd = T fd := by
  unfold openFile
  split
  · cases hfree : T.free with
    | none => rfl
    | some free =>
        have hne : fd ≠ free := fun h => hfd (h ▸ (free_eq_some hfree).2.2.1)
        exact Function.update_of_ne hne _ _
  · rfl

theorem closeFile_of_ne {fd' : Int} (hne : fd' ≠ fd) : (T.closeFile fd').2 fd = T fd := by
  unfold closeFile
  split
  · exact Function.update_of_ne (by omega) _ _
  · rfl

theorem readFile_eq_some {data : List UInt8 → Nat → Int → Option DescRead} {name : List UInt8}
    {pos : Nat} {nbytes : Int} {r : DescRead} (hfd : T fd = some (name, pos))
    (hr : data name pos nbytes = some r) : T.readFile data fd nbytes =
      some (r.ret, r.buf, Function.update T fd (some (name, r.filePosition))) := by
  simp [readFile, hfd, hr]

end FdTable

/-! ## Reachable states -/

/-- The state of the running process in slot `i` is one in which the calls refine the map. -/
structure Running (M : Machine) (s : System) (i : Slot) : Prop where
  currSlot : s.kernel.currSlot = some i
  openFiles : ∃ g, OpenFiles M s.core g

namespace Running

variable {M : Machine} {s t : System} {i : Slot}

theorem known (h : Running M s i) : ∃ g opened, OpenFiles M s.core g ∧ g i = some opened := by
  obtain ⟨g, hg⟩ := h.openFiles
  obtain ⟨opened, hopened⟩ := Option.isSome_iff_exists.1 ((hg.currProc _).isSome h.currSlot)
  exact ⟨g, opened, hg, hopened⟩

theorem descriptorsOk (h : Running M s i) : DescriptorsOk M (s.kernel.kernelStack i) := by
  obtain ⟨g, opened, hg, hopened⟩ := h.known
  exact fun fd h2 h8 => ⟨opened fd, hg.fds i opened hopened fd h2 h8⟩

theorem std (h : Running M s i) :
    Pcb.operationsPointer (s.kernel.kernelStack i) 0 = M.opsAddr .stdin ∨
      Pcb.operationsPointer (s.kernel.kernelStack i) 0 = 0 := by
  obtain ⟨g, opened, hg, hopened⟩ := h.known
  exact hg.std i (by simp [hopened])

/-- With a well-formed directory every step preserves the invariant of the open files. -/
theorem openFiles_of_step (hwf : M.WellFormedDirectory) {a : Action}
    (h : ∃ g, OpenFiles M s.core g) (hstep : step M s a = some t) : ∃ g, OpenFiles M t.core g := by
  obtain ⟨g, hg⟩ := h
  obtain ⟨g', hnote⟩ := exists_noteOpened g hstep
  refine ⟨g', hg.of_step (a := a) ?_ (withGhost_eq_some.2 ⟨hstep, hnote⟩)⟩
  cases a with
  | openFile filename =>
      cases filename with
      | none => trivial
      | some filename => exact hwf.openFits filename
  | _ => trivial

/-- The running process of a state that a run from the boot reaches. -/
theorem of_run (hwf : M.WellFormedDirectory) (hboot : Boot M s) {as : List Action}
    (hrun : run (step M) s as = some t) (hi : t.kernel.currSlot = some i) : Running M t i :=
  ⟨hi, run_invariant (P := fun s => ∃ g, OpenFiles M s.core g)
    (fun _ _ _ h _ hstep => openFiles_of_step hwf h hstep) ⟨_, OpenFiles.boot hboot⟩
    (AllSteps.of_forall fun _ _ => trivial) hrun⟩

/-- The process that makes the call goes on running. -/
theorem call (hwf : M.WellFormedDirectory) (h : Running M s i) {c : FileCall} {ret : Int}
    {buf : Stores} (hcall : c.call M s = some (ret, buf, t)) : Running M t i := by
  have hstep : step M s c.action = some t := by rw [c.step_action, hcall]; rfl
  refine ⟨?_, openFiles_of_step hwf h.openFiles hstep⟩
  have hcore : t.core.currSlot = s.core.currSlot := by
    cases c with
    | openFile => exact (step_effect hstep).currSlot
    | closeFile => exact (step_effect hstep).currSlot
    | readFile => exact (step_effect hstep).currSlot
  exact hcore.trans h.currSlot

end Running

/-! ## The refinement -/

/-- The calls of the process in slot `i` refine the operations of its map, and nothing else in a PCB
    changes. -/
structure RefinesFdTable (M : Machine) (s : System) (i : Slot) : Prop where
  openFile (filename : CString) : ∃ ret k', openFd M (some filename) s.kernel = some (ret, k') ∧
    (ret, Pcb.fdTable (k'.kernelStack i)) =
      (Pcb.fdTable (s.kernel.kernelStack i)).openFile M.directory filename.val ∧
    (ret = -1 → k'.kernelStack = s.kernel.kernelStack) ∧
    (ret ≠ -1 → 2 ≤ ret ∧ OnlyFd i ret.toNat s.kernel k')
  openNull : ∃ k', openFd M none s.kernel = some (-1, k') ∧
    k'.kernelStack = s.kernel.kernelStack
  closeFile (fd : Int) : ∃ ret k', closeFd M fd s.kernel = some (ret, k') ∧
    (ret, Pcb.fdTable (k'.kernelStack i)) =
      (Pcb.fdTable (s.kernel.kernelStack i)).closeFile fd ∧
    (ret = -1 → k'.kernelStack = s.kernel.kernelStack) ∧
    (ret ≠ -1 → 2 ≤ fd ∧ OnlyFd i fd.toNat s.kernel k')
  readFile {fd nbytes ret : Int} {buf : Stores} {T : FdTable} :
    (Pcb.fdTable (s.kernel.kernelStack i)).readFile M.readNamed fd nbytes = some (ret, buf, T) →
    ∃ s', readFd M fd false nbytes s = some (ret, buf, s') ∧
      Pcb.fdTable (s'.kernel.kernelStack i) = T ∧ OnlyPosition i fd.toNat s.kernel s'.kernel
  readOther {fd nbytes ret : Int} {bufNull : Bool} {buf : Stores} {s' : System} :
    (bufNull = false →
      (Pcb.fdTable (s.kernel.kernelStack i)).readFile M.readNamed fd nbytes = none) →
    readFd M fd bufNull nbytes s = some (ret, buf, s') →
    s'.kernel.kernelStack = s.kernel.kernelStack
  delivered {fd pos : Nat} {name : List UInt8} {calls : List FileCall}
    {data : List (Int × Stores)} :
    Pcb.fdTable (s.kernel.kernelStack i) fd = some (name, pos) → M.Readable name →
    FileCall.closeFile fd ∉ calls → delivered M fd calls s = some data →
    data = M.readThrough name pos (calls.filterMap (·.request fd))

section

variable {M : Machine} {s t : System} {i : Slot} {fd pos : Nat} {name : List UInt8}

/-- A read into NULL. -/
theorem readFd_null {fd nbytes ret : Int} {buf : Stores}
    (h : readFd M fd true nbytes s = some (ret, buf, t)) : ret = -1 ∧ buf = .empty ∧
      t.kernel.kernelStack = s.kernel.kernelStack := by
  simp only [readFd, true_or, if_true, Option.some.injEq, Prod.mk.injEq] at h
  obtain ⟨rfl, rfl, rfl⟩ := h
  exact ⟨rfl, rfl, rfl⟩

/-- **A call that neither reads nor closes a descriptor in use** leaves its name and position. -/
theorem fdTable_of_call (hwf : M.WellFormedDirectory) (h : Running M s i)
    (hfd : Pcb.fdTable (s.kernel.kernelStack i) fd = some (name, pos)) {c : FileCall} {ret : Int}
    {buf : Stores} (hcall : c.call M s = some (ret, buf, t)) (hclose : c ≠ .closeFile fd)
    (hread : c.request fd = none) :
    Pcb.fdTable (t.kernel.kernelStack i) fd = some (name, pos) := by
  cases c with
  | openFile filename =>
      obtain ⟨⟨ret', k⟩, hopen, heq⟩ := Option.map_eq_some_iff.1 hcall
      obtain ⟨rfl, -, rfl⟩ := by simpa using heq
      cases filename with
      | none =>
          obtain ⟨rfl, rfl⟩ := Prod.mk.inj (Option.some.inj hopen)
          exact hfd
      | some filename =>
          obtain ⟨ret'', k', hopen', hview, -⟩ :=
            openFd_refines hwf h.currSlot h.descriptorsOk filename
          obtain ⟨rfl, rfl⟩ := Prod.mk.inj (Option.some.inj (hopen.symm.trans hopen'))
          have hsame : ((Pcb.fdTable (s.kernel.kernelStack i)).openFile M.directory
              filename.val).2 fd = Pcb.fdTable (s.kernel.kernelStack i) fd :=
            FdTable.openFile_of_used _ _ (by simp [hfd])
          rw [← hview, hfd] at hsame
          exact hsame
  | closeFile fd' =>
      obtain ⟨⟨ret', k⟩, hclose', heq⟩ := Option.map_eq_some_iff.1 hcall
      obtain ⟨rfl, -, rfl⟩ := by simpa using heq
      obtain ⟨ret'', k', hclose'', hview, -⟩ := closeFd_refines h.currSlot h.descriptorsOk fd'
      obtain ⟨rfl, rfl⟩ := Prod.mk.inj (Option.some.inj (hclose'.symm.trans hclose''))
      have hsame : ((Pcb.fdTable (s.kernel.kernelStack i)).closeFile fd').2 fd =
          Pcb.fdTable (s.kernel.kernelStack i) fd :=
        FdTable.closeFile_of_ne fun heq => hclose (heq ▸ rfl)
      rw [← hview, hfd] at hsame
      exact hsame
  | readFile fd' bufNull nbytes =>
      have hne : fd' ≠ fd := by
        intro heq
        simp [FileCall.request, heq] at hread
      rcases readFd_frame hcall h.currSlot with hsame | ⟨_, v, -, hfd', -, -, -, hstack⟩
      · rw [hsame, hfd]
      · have hout : OutsideFd fd'.toNat (s.kernel.kernelStack i)
            (Pcb.setFilePosition (s.kernel.kernelStack i) fd'.toNat v) :=
          OutsideFd.setWord _ _ (by omega) (by omega)
        rw [hstack, Function.update_self,
          fdTable_of_sameFd h.descriptorsOk (hout.sameFd (by omega)), hfd]

/-- **The reads through one descriptor** deliver what the file holds from its position on,
    whatever calls are made between them. -/
theorem delivered_eq (hwf : M.WellFormedDirectory) (hname : M.Readable name) :
    ∀ {calls : List FileCall} {s : System} {pos : Nat} {data : List (Int × Stores)},
      Running M s i → Pcb.fdTable (s.kernel.kernelStack i) fd = some (name, pos) →
      FileCall.closeFile fd ∉ calls → delivered M fd calls s = some data →
      data = M.readThrough name pos (calls.filterMap (·.request fd)) := by
  intro calls
  induction calls with
  | nil =>
      intro s pos data _ _ _ h
      obtain rfl := Option.some.inj h
      rfl
  | cons c calls ih =>
      intro s pos data hs hfd hclose h
      obtain ⟨⟨ret, buf, t⟩, hcall, h⟩ := Option.bind_eq_some_iff.1 h
      dsimp only at h
      obtain ⟨rest, hrest, rfl⟩ := Option.map_eq_some_iff.1 h
      have ht := hs.call hwf hcall
      obtain ⟨hc, hclose'⟩ := not_or.1 (mt List.mem_cons.2 hclose)
      -- the call is a read through `fd`, or it leaves `fd` alone
      cases hreq : c.request fd with
      | none =>
          have hfd' := fdTable_of_call hwf hs hfd hcall (Ne.symm hc) hreq
          rw [List.filterMap_cons_none hreq]
          exact ih ht hfd' hclose' hrest
      | some request =>
          obtain ⟨bufNull, nbytes⟩ := request
          rw [List.filterMap_cons_some hreq]
          obtain rfl : c = .readFile fd bufNull nbytes := FileCall.request_eq_some hreq
          cases bufNull with
          | true =>
              obtain ⟨rfl, rfl, hstack⟩ :=
                readFd_null (show readFd M fd true nbytes s = _ from hcall)
              rw [← hstack] at hfd
              simp [Image.readThrough, ih ht hfd hclose' hrest]
          | false =>
              obtain ⟨r, hr⟩ := hname.exists_read pos nbytes
              obtain ⟨s', hread, hview, -⟩ := readFd_refines hs.currSlot hs.descriptorsOk
                (FdTable.readFile_eq_some hfd hr)
              obtain ⟨rfl, rfl, rfl⟩ : ret = r.ret ∧ buf = r.buf ∧ t = s' := by
                simpa using hcall.symm.trans hread
              have hfd' : Pcb.fdTable (t.kernel.kernelStack i) fd = some (name, r.filePosition) := by
                rw [hview, Function.update_self]
              simp [Image.readThrough, hr, ih ht hfd' hclose' hrest]

end

/-- **The descriptor table refines a map** from descriptors to names and positions, in every state
    that a run from the boot reaches. -/
theorem refinesFdTable_of_run {M : Machine} {s u : System} {as : List Action} {i : Slot}
    (hwf : M.WellFormedDirectory) (hboot : Boot M s) (hrun : run (step M) s as = some u)
    (hi : u.kernel.currSlot = some i) : RefinesFdTable M u i := by
  have h := Running.of_run hwf hboot hrun hi
  exact {
    openFile := openFd_refines hwf hi h.descriptorsOk
    openNull := ⟨_, rfl, rfl⟩
    closeFile := closeFd_refines hi h.descriptorsOk
    readFile := readFd_refines hi h.descriptorsOk
    readOther := readFd_other hi h.descriptorsOk h.std
    delivered := fun hfd hname hclose => delivered_eq hwf hname h hfd hclose }

/-- The shell has opened the file `shell`. -/
theorem refinesFdTable_of_shell : ∃ u, run (step (sampleMachine [shellDentry]))
    (bootSystem (sampleMachine [shellDentry]))
      [.execute sampleEnv (some shellName), .openFile (some shellName)] = some u ∧
    RefinesFdTable (sampleMachine [shellDentry]) u 0 := by
  have hrun : (run (step (sampleMachine [shellDentry])) (bootSystem (sampleMachine [shellDentry]))
      [.execute sampleEnv (some shellName), .openFile (some shellName)]).any (fun u =>
        decide (u.kernel.currSlot = some 0)) = true := by
    decide +kernel
  obtain ⟨u, hu, hslot⟩ := (Option.any_eq_true _ _).1 hrun
  exact ⟨u, hu, refinesFdTable_of_run (by decide +kernel) (bootSystem_boot _) hu
    (of_decide_eq_true hslot)⟩

end Gyarados

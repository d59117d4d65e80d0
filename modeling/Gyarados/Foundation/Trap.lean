import Gyarados.Foundation.Descriptor
import Gyarados.Foundation.X86

set_option autoImplicit false

/-! # Traps and returns

How the processor goes through a gate into a routine, on another stack if the routine is more privileged,
and how `iret` takes it back. -/

namespace Gyarados

namespace X86

/-! ## The flags as a word -/

/-- The bits of `Flags` in `eflags`. -/
abbrev flagsMask : Word := 0xec1

def Flags.toWord (f : Flags) : Word :=
  (if f.cf then 0x1 else 0) ||| (if f.zf then 0x40 else 0) ||| (if f.sf then 0x80 else 0) |||
    (if f.intf then 0x200 else 0) ||| (if f.df then 0x400 else 0) ||| (if f.of then 0x800 else 0)

def Flags.ofWord (w : Word) : Flags where
  cf := w.getLsbD 0
  zf := w.getLsbD 6
  sf := w.getLsbD 7
  of := w.getLsbD 11
  df := w.getLsbD 10
  intf := w.getLsbD 9

/-! ## The machine -/

/-- The processor with what decides its privilege. The bits of `eflags` that no instruction here reads are
    kept apart. -/
structure Machine where
  cpu : Cpu
  eip : Word
  cs : BitVec 16
  ss : BitVec 16
  fs : BitVec 16
  gs : BitVec 16
  otherFlags : Word

/-- The tables that the processor looks into, and the stack of privilege 0 in the task state. -/
structure Tables where
  gate : Nat → Gate
  segment : Nat → Segment
  esp0 : Word
  ss0 : BitVec 16

namespace Machine

variable (T : Tables) (g : Gate) (m : Machine)

def withCpu (c : Cpu) : Machine := { m with cpu := c }

/-- The current privilege level; 0 is the highest. -/
def privilege : BitVec 2 := selectorPrivilege m.cs

def eflags : Word := m.cpu.flags.toWord ||| m.otherFlags &&& ~~~flagsMask

/-- The privilege of the routine behind a gate. -/
def level : BitVec 2 := (T.segment (selectorIndex g.selector)).dpl

/-- The words that are pushed, the last one first. -/
def frame : List Word :=
  m.eip :: m.cs.setWidth 32 :: m.eflags ::
    if level T g < m.privilege then [m.cpu.reg .esp, m.ss.setWidth 32] else []

/-- Through a gate, with the error code if there is one. -/
def enter (error : Option Word) : Machine :=
  let c := if level T g < m.privilege then
      ((m.cpu.set .esp T.esp0).push (m.ss.setWidth 32)).push (m.cpu.reg .esp)
    else m.cpu
  let c := ((c.push m.eflags).push (m.cs.setWidth 32)).push m.eip
  let c := error.elim c c.push
  { m with
    cpu := c.setFlags { c.flags with intf := c.flags.intf && g.kind != Gate.interruptKind }
    eip := g.offset
    cs := g.selector &&& 0xfffc ||| (level T g).setWidth 16
    ss := if level T g < m.privilege then T.ss0 else m.ss
    -- TF, NT, RF and VM
    otherFlags := m.otherFlags &&& ~~~0x34100 }

/-- `int n`, with the address of the instruction behind it. A gate that is not open to the program is a
    general-protection fault, and one that is not there is reported as such. -/
def int (n : Nat) (next : Word) : Machine :=
  if (T.gate n).dpl < m.privilege then m.enter T (T.gate 13) (some (BitVec.ofNat 32 (8 * n + 2)))
  else if (T.gate n).present = 0 then m.enter T (T.gate 11) (some (BitVec.ofNat 32 (8 * n + 2)))
  else { m with eip := next }.enter T (T.gate n) none

/-- A selector that may stay in a data-segment register at a privilege. -/
def visible (privilege : BitVec 2) (s : BitVec 16) : BitVec 16 :=
  if (T.segment (selectorIndex s)).dpl < privilege then 0 else s

/-- `iret` at privilege 0, where it may change every flag. -/
def iret : Machine :=
  let esp := m.cpu.reg .esp
  let word := fun k => m.cpu.mem.load32 (esp + BitVec.ofNat 32 (4 * k))
  let cs := (word 1).setWidth 16
  let p := selectorPrivilege cs
  let m' := { m with eip := word 0, cs, otherFlags := word 2 }
  let c := m.cpu.setFlags (.ofWord (word 2))
  if m.privilege < p then
    { m' with
      cpu := { c with ds := visible T p c.ds, es := visible T p c.es }.set .esp (word 3)
      ss := (word 4).setWidth 16
      fs := visible T p m.fs
      gs := visible T p m.gs }
  else { m' with cpu := c.set .esp (esp + 12) }

end Machine

/-! ## Flags and back -/

theorem Flags.ofWord_toWord (f : Flags) : Flags.ofWord f.toWord = f := by
  obtain ⟨cf, zf, sf, of, df, intf⟩ := f
  cases cf <;> cases zf <;> cases sf <;> cases of <;> cases df <;> cases intf <;> rfl

theorem Flags.toWord_and (f : Flags) : f.toWord &&& ~~~flagsMask = 0 := by
  obtain ⟨cf, zf, sf, of, df, intf⟩ := f
  cases cf <;> cases zf <;> cases sf <;> cases of <;> cases df <;> cases intf <;> rfl

/-- The flags come back from a word that has other bits beside them. -/
theorem Flags.ofWord_or (f : Flags) (w : Word) :
    Flags.ofWord (f.toWord ||| w &&& ~~~flagsMask) = f := by
  have hbit : ∀ k ∈ [0, 6, 7, 11, 10, 9],
      (f.toWord ||| w &&& ~~~flagsMask).getLsbD k = f.toWord.getLsbD k := by
    intro k hk
    have hmask : (~~~flagsMask).getLsbD k = false := by
      revert k
      decide
    rw [BitVec.getLsbD_or, BitVec.getLsbD_and, hmask, Bool.and_false, Bool.or_false]
  rw [ofWord, hbit 0 (by simp), hbit 6 (by simp), hbit 7 (by simp), hbit 11 (by simp),
    hbit 10 (by simp), hbit 9 (by simp)]
  exact f.ofWord_toWord

namespace Machine

variable {T : Tables} {g : Gate} {m : Machine}

/-- The other bits come back as well. -/
theorem and_eflags (m : Machine) : m.eflags &&& ~~~flagsMask = m.otherFlags &&& ~~~flagsMask := by
  rw [eflags, BitVec.and_or_distrib_right, Flags.toWord_and, BitVec.and_assoc, BitVec.and_self]
  exact BitVec.zero_or

/-! ## There and back -/

/-- `m'` goes on where `m` was interrupted: at its instruction, at its privilege, on its stack and with
    its flags. -/
structure Resumes (m m' : Machine) : Prop where
  eip : m'.eip = m.eip
  cs : m'.cs = m.cs
  eflags : m'.eflags = m.eflags
  esp : m'.cpu.reg .esp = m.cpu.reg .esp
  ss : m'.ss = m.ss

theorem stack_push {c : Cpu} {ws : List Word} (h : c.mem.Stack (c.reg .esp) ws)
    (hroom : 4 * (ws.length + 1) ≤ 2 ^ 32) (w : Word) :
    (c.push w).mem.Stack ((c.push w).reg .esp) (w :: ws) :=
  h.push hroom w

/-- Behind the gate the words are on the stack. -/
theorem stack_enter (T : Tables) (g : Gate) (m : Machine) :
    (m.enter T g none).cpu.mem.Stack ((m.enter T g none).cpu.reg .esp) (m.frame T g) := by
  have hnil : ∀ c : Cpu, c.mem.Stack (c.reg .esp) [] := fun c k hk => absurd hk (Nat.not_lt_zero k)
  have hthree : ∀ (c : Cpu) (ws : List Word), ws.length ≤ 2 → c.mem.Stack (c.reg .esp) ws →
      (((c.push m.eflags).push (m.cs.setWidth 32)).push m.eip).mem.Stack
        ((((c.push m.eflags).push (m.cs.setWidth 32)).push m.eip).reg .esp)
        (m.eip :: m.cs.setWidth 32 :: m.eflags :: ws) := by
    intro c ws hlen hws
    refine stack_push (stack_push (stack_push hws ?_ _) ?_ _) ?_ _ <;> simp <;> omega
  rw [enter, frame]
  split
  · exact hthree _ _ (Nat.le_refl 2) (stack_push (stack_push (hnil _) (by simp) _) (by simp) _)
  · exact hthree _ [] (by decide) (hnil _)

/-- An error code is on top of them. -/
theorem stack_enter_error (hlen : 4 * ((m.frame T g).length + 1) ≤ 2 ^ 32) (w : Word) :
    (m.enter T g (some w)).cpu.mem.Stack ((m.enter T g (some w)).cpu.reg .esp) (w :: m.frame T g) :=
  stack_push (stack_enter T g m) hlen w

theorem esp_enter_of_not_lt (h : ¬ level T g < m.privilege) :
    (m.enter T g none).cpu.reg .esp = m.cpu.reg .esp - 12 := by
  have hpushed : (m.enter T g none).cpu.reg .esp = m.cpu.reg .esp - 4 - 4 - 4 := by
    rw [enter, if_neg h]
    rfl
  rw [hpushed]
  bv_omega

theorem privilege_enter (T : Tables) (g : Gate) (m : Machine) (error : Option Word) :
    (m.enter T g error).privilege = level T g := by
  have hcs : (m.enter T g error).cs = g.selector &&& 0xfffc ||| (level T g).setWidth 16 := rfl
  have hmask : (0xfffc : BitVec 16).setWidth 2 = 0 := by decide
  rw [privilege, selectorPrivilege, hcs, BitVec.setWidth_or, BitVec.setWidth_and, hmask,
    show ∀ x : BitVec 2, x &&& 0 = 0 from fun _ => BitVec.and_zero,
    show ∀ x : BitVec 2, 0 ||| x = x from fun _ => BitVec.zero_or]
  simp

/-- Only the stack pointer changes among the registers. -/
theorem reg_enter (T : Tables) (g : Gate) (m : Machine) {r : Reg} (hr : r ≠ .esp) :
    (m.enter T g none).cpu.reg r = m.cpu.reg r := by
  have hthree : ∀ (c : Cpu) (w₁ w₂ w₃ : Word), (((c.push w₁).push w₂).push w₃).reg r = c.reg r :=
    fun c w₁ w₂ w₃ => (if_neg hr).trans ((if_neg hr).trans (if_neg hr))
  have htwo : ∀ (c : Cpu) (w w₁ w₂ : Word), (((c.set .esp w).push w₁).push w₂).reg r = c.reg r :=
    fun c w w₁ w₂ => (if_neg hr).trans ((if_neg hr).trans (if_neg hr))
  rw [enter]
  split
  · exact (hthree _ _ _ m.eip).trans (htwo _ _ _ _)
  · exact hthree _ _ _ m.eip

/-- What `iret` takes from the stack. -/
structure Returns (m m' : Machine) (eip w esp : Word) (cs ss : BitVec 16) : Prop where
  eip : m'.eip = eip
  cs : m'.cs = cs
  flags : m'.cpu.flags = .ofWord w
  otherFlags : m'.otherFlags = w
  esp : m'.cpu.reg .esp = esp
  ss : m'.ss = ss
  reg : ∀ r, r ≠ .esp → m'.cpu.reg r = m.cpu.reg r
  mem : m'.cpu.mem = m.cpu.mem

/-- To a lower privilege, on the stack that is in the frame. -/
theorem returns_outer {eip w esp : Word} {cs ss : BitVec 16}
    (hstack : m.cpu.mem.Stack (m.cpu.reg .esp)
      [eip, cs.setWidth 32, w, esp, ss.setWidth 32]) (hlt : m.privilege < selectorPrivilege cs) :
    Returns m (m.iret T) eip w esp cs ss := by
  have hwidth : ∀ s : BitVec 16, (s.setWidth 32).setWidth 16 = s := fun s => by simp
  have hcs := congrArg (BitVec.setWidth 16) (hstack 1 (by simp))
  have hss := congrArg (BitVec.setWidth 16) (hstack 4 (by simp))
  simp only [List.getElem_cons_succ, List.getElem_cons_zero, hwidth] at hcs hss
  rw [iret]
  simp only [hcs, hss, if_pos hlt]
  exact ⟨hstack 0 (by simp), rfl, congrArg Flags.ofWord (hstack 2 (by simp)), hstack 2 (by simp),
    hstack 3 (by simp), rfl, fun r hr => if_neg hr, rfl⟩

/-- Within the privilege, on the stack behind the frame. -/
theorem returns_inner {eip w : Word} {cs : BitVec 16}
    (hstack : m.cpu.mem.Stack (m.cpu.reg .esp) [eip, cs.setWidth 32, w])
    (hle : ¬ m.privilege < selectorPrivilege cs) :
    Returns m (m.iret T) eip w (m.cpu.reg .esp + 12) cs m.ss := by
  have hwidth : (cs.setWidth 32).setWidth 16 = cs := by simp
  have hcs := congrArg (BitVec.setWidth 16) (hstack 1 (by simp))
  simp only [List.getElem_cons_succ, List.getElem_cons_zero, hwidth] at hcs
  rw [iret]
  simp only [hcs, if_neg hle]
  exact ⟨hstack 0 (by simp), rfl, congrArg Flags.ofWord (hstack 2 (by simp)), hstack 2 (by simp), rfl, rfl,
    fun r hr => if_neg hr, rfl⟩

/-- The words of the flags lead back to them. -/
theorem eflags_of_returns {m' m'' : Machine} {eip esp : Word} {cs ss : BitVec 16}
    (h : Returns m' m'' eip m.eflags esp cs ss) :
    m''.cpu.flags = m.cpu.flags ∧ m''.eflags = m.eflags := by
  have hflags : m''.cpu.flags = m.cpu.flags := h.flags.trans (Flags.ofWord_or _ _)
  refine ⟨hflags, ?_⟩
  rw [eflags, hflags, h.otherFlags, and_eflags]
  rfl

/-- **The frame leads back**, whatever the routine has made of the registers, as long as it has kept its
    stack. -/
theorem resumes_iret {c : Cpu} (hesp : c.reg .esp = (m.enter T g none).cpu.reg .esp)
    (hstack : c.mem.Stack (c.reg .esp) (m.frame T g)) :
    Resumes m (((m.enter T g none).withCpu c).iret T) ∧
      ∀ r, r ≠ .esp → (((m.enter T g none).withCpu c).iret T).cpu.reg r = c.reg r := by
  have hprivilege : ((m.enter T g none).withCpu c).privilege = level T g :=
    privilege_enter T g m none
  by_cases hlt : level T g < m.privilege
  · rw [frame, if_pos hlt] at hstack
    have h := @returns_outer T ((m.enter T g none).withCpu c) _ _ _ _ _ hstack
      (by rw [hprivilege]; exact hlt)
    exact ⟨⟨h.eip, h.cs, (eflags_of_returns h).2, h.esp, h.ss⟩, h.reg⟩
  · rw [frame, if_neg hlt] at hstack
    have h := @returns_inner T ((m.enter T g none).withCpu c) _ _ _ hstack
      (by rw [hprivilege]; exact hlt)
    have hss : (m.enter T g none).ss = m.ss := if_neg hlt
    have hback : c.reg .esp + 12 = m.cpu.reg .esp := by
      rw [hesp, esp_enter_of_not_lt hlt]
      bv_omega
    exact ⟨⟨h.eip, h.cs, (eflags_of_returns h).2, h.esp.trans hback, h.ss.trans hss⟩, h.reg⟩

/-! ## A view of the machine -/

/-- The machines look the same to a program that may read the memory in `U`. -/
structure Alike (U : Word → Prop) (m m' : Machine) : Prop where
  resumes : Resumes m m'
  reg : ∀ r, m'.cpu.reg r = m.cpu.reg r
  ds : m'.cpu.ds = m.cpu.ds
  es : m'.cpu.es = m.cpu.es
  fs : m'.fs = m.fs
  gs : m'.gs = m.gs
  mem : ∀ a, U a → m'.cpu.mem a = m.cpu.mem a

variable {U : Word → Prop} {m₁ m₂ m₃ : Machine}

theorem Alike.refl (U : Word → Prop) (m : Machine) : Alike U m m :=
  ⟨⟨rfl, rfl, rfl, rfl, rfl⟩, fun _ => rfl, rfl, rfl, rfl, rfl, fun _ _ => rfl⟩

theorem Alike.trans (h : Alike U m₁ m₂) (h' : Alike U m₂ m₃) : Alike U m₁ m₃ where
  resumes :=
    { eip := h'.resumes.eip.trans h.resumes.eip
      cs := h'.resumes.cs.trans h.resumes.cs
      eflags := h'.resumes.eflags.trans h.resumes.eflags
      esp := h'.resumes.esp.trans h.resumes.esp
      ss := h'.resumes.ss.trans h.resumes.ss }
  reg r := (h'.reg r).trans (h.reg r)
  ds := h'.ds.trans h.ds
  es := h'.es.trans h.es
  fs := h'.fs.trans h.fs
  gs := h'.gs.trans h.gs
  mem a ha := (h'.mem a ha).trans (h.mem a ha)

/-- The selectors in the data-segment registers may stay there. -/
def Settled (T : Tables) (m : Machine) : Prop :=
  ∀ s ∈ [m.cpu.ds, m.cpu.es, m.fs, m.gs], visible T m.privilege s = s

theorem settled_of_alike (h : Alike U m₁ m₂) (hsettled : Settled T m₁) : Settled T m₂ := by
  rw [Settled, privilege, h.ds, h.es, h.fs, h.gs, h.resumes.cs]
  exact hsettled

theorem segments_enter (T : Tables) (g : Gate) (m : Machine) :
    (m.enter T g none).cpu.ds = m.cpu.ds ∧ (m.enter T g none).cpu.es = m.cpu.es := by
  rw [enter]
  split <;> exact ⟨rfl, rfl⟩

/-- Selectors that may stay do so on the way out. -/
theorem segments_iret {p : BitVec 2} (hp : selectorPrivilege
    ((m.cpu.mem.load32 (m.cpu.reg .esp + BitVec.ofNat 32 (4 * 1))).setWidth 16) = p)
    (hlt : m.privilege < p)
    (hsettled : ∀ s ∈ [m.cpu.ds, m.cpu.es, m.fs, m.gs], visible T p s = s) :
    (m.iret T).cpu.ds = m.cpu.ds ∧ (m.iret T).cpu.es = m.cpu.es ∧ (m.iret T).fs = m.fs ∧
      (m.iret T).gs = m.gs := by
  simp only [List.mem_cons, List.not_mem_nil, or_false, forall_eq_or_imp, forall_eq] at hsettled
  rw [iret]
  simp only [hp, if_pos hlt]
  exact hsettled

/-- Where the memory was written on the way to `c`: in the `n` bytes below `top`, where the stack pointer
    now is. -/
structure WritesBelow (mem : Ram) (top : Word) (n : Nat) (c : Cpu) : Prop where
  esp : c.reg .esp = top - BitVec.ofNat 32 n
  mem : ∀ a, (∀ k < n, a ≠ top - BitVec.ofNat 32 (k + 1)) → c.mem a = mem a

theorem WritesBelow.push {mem : Ram} {top : Word} {n : Nat} {c : Cpu} (h : WritesBelow mem top n c)
    (w : Word) : WritesBelow mem top (n + 4) (c.push w) := by
  have hesp : (c.push w).reg .esp = top - BitVec.ofNat 32 (n + 4) := by
    have hpushed : (c.push w).reg .esp = c.reg .esp - 4 := rfl
    rw [hpushed, h.esp, BitVec.ofNat_add, sub_add_eq_sub_sub]
    rfl
  refine ⟨hesp, fun a ha => ?_⟩
  have hfar : ¬ (a - (c.reg .esp - 4)).toNat < 4 := by
    intro hnear
    refine ha (n + 3 - (a - (c.reg .esp - 4)).toNat) (by omega) ?_
    have haddr : a = top - BitVec.ofNat 32 (n + 4) +
        BitVec.ofNat 32 (a - (c.reg .esp - 4)).toNat := by
      rw [ofNat_toNat_word, ← hesp]
      exact (add_sub_cancel _ _).symm
    generalize (a - (c.reg .esp - 4)).toNat = j at hnear haddr ⊢
    have hsum : BitVec.ofNat 32 (n + 4) = BitVec.ofNat 32 (n + 3 - j + 1) + BitVec.ofNat 32 j := by
      rw [← BitVec.ofNat_add, show n + 3 - j + 1 + j = n + 4 by omega]
    rw [haddr, hsum, sub_add_eq_sub_sub, sub_add_cancel]
  exact (if_neg hfar).trans (h.mem a fun k hk => ha k (by omega))

/-- A gate to a higher privilege writes five words on the stack of the task state. -/
theorem writesBelow_enter (hlt : level T g < m.privilege) :
    WritesBelow m.cpu.mem T.esp0 20 (m.enter T g none).cpu := by
  have hstart : WritesBelow m.cpu.mem T.esp0 0 (m.cpu.set .esp T.esp0) :=
    ⟨by simp, fun _ _ => rfl⟩
  have hfive := ((((hstart.push (m.ss.setWidth 32)).push (m.cpu.reg .esp)).push m.eflags).push
    (m.cs.setWidth 32)).push m.eip
  rw [enter, if_pos hlt]
  exact ⟨hfive.esp, hfive.mem⟩

/-- **A routine that keeps the registers and the memory of the program is not seen.** -/
theorem alike_iret {c : Cpu} (hlt : level T g < m.privilege) (hsettled : Settled T m)
    (hreg : ∀ r, c.reg r = (m.enter T g none).cpu.reg r)
    (hstack : c.mem.Stack (c.reg .esp) (m.frame T g)) (hds : c.ds = m.cpu.ds) (hes : c.es = m.cpu.es)
    (hmem : ∀ a, U a → c.mem a = m.cpu.mem a) :
    Alike U m (((m.enter T g none).withCpu c).iret T) := by
  obtain ⟨hresumes, hregs⟩ := resumes_iret (hreg .esp) hstack
  rw [frame, if_pos hlt] at hstack
  have hprivilege : ((m.enter T g none).withCpu c).privilege = level T g := privilege_enter T g m none
  have hout : ((m.enter T g none).withCpu c).privilege < selectorPrivilege m.cs := by
    rw [hprivilege]
    exact hlt
  have hcs : selectorPrivilege ((c.mem.load32 (c.reg .esp + BitVec.ofNat 32 (4 * 1))).setWidth 16) =
      selectorPrivilege m.cs := by
    rw [hstack 1 (by simp)]
    simp
  have hselectors := @segments_iret T ((m.enter T g none).withCpu c) _ hcs hout (by
    rw [Settled, ← hds, ← hes] at hsettled
    exact hsettled)
  have hreturns := @returns_outer T ((m.enter T g none).withCpu c) _ _ _ _ _ hstack hout
  refine ⟨hresumes, fun r => ?_, hselectors.1.trans hds, hselectors.2.1.trans hes, hselectors.2.2.1,
    hselectors.2.2.2, fun a ha => ?_⟩
  · obtain rfl | hr := eq_or_ne r .esp
    · exact hresumes.esp
    · rw [hregs r hr, hreg, reg_enter T g m hr]
  · rw [hreturns.mem]
    exact hmem a ha

end Machine

end X86

end Gyarados

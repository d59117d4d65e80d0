import Gyarados.Drivers.Keyboard
import Gyarados.Foundation.Run
import Gyarados.Lib.OnScreen

set_option autoImplicit false

/-! # Three screens

The F1 to F3 keys copy the visible page to the backing page of the terminal being left, and the
backing page of the next terminal to the visible one. The backing pages are 16 KB and more behind
`VIDEO`; no store to the visible page reaches them. -/

namespace Gyarados

/-- A call that writes to the screen, or one of the keys F1 to F3. -/
inductive ScreenAction
  | call (c : ScreenCall)
  | display (next : Term)

namespace ScreenAction

/-- The offsets from `VIDEO` that the action stores to. -/
def stores (s : Tty) : ScreenAction → List Int
  | .call c => c.stores s.kbd.activeTerminal s.con
  | .display _ => Console.updateScreenStores

end ScreenAction

/-- One action; `del_last_char` is not called with the cursor on the first cell. -/
def Tty.screenStep (s : Tty) : ScreenAction → Option Tty
  | .call c =>
      if c.Allowed s.kbd.activeTerminal s.con then
        some { s with con := c.apply s.kbd.activeTerminal s.con }
      else none
  | .display next => some (s.showTerminal next)

/-- The 2000 characters on the screen are the same. -/
def Console.SameText (con con' : Console) : Prop := ∀ k < 2000, con'.cell k = con.cell k

/-- The action stores to the 4 KB page at `VIDEO` only. -/
def StoresInFrame (s : Tty) (a : ScreenAction) : Prop := ∀ o ∈ a.stores s, 0 ≤ o ∧ o < 0x1000

namespace Tty

variable {s u : Tty} {a : ScreenAction} {as : List ScreenAction} {t : Term}

/-- What an action does: a call that is allowed, or a switch. -/
theorem screenStep_cases (h : s.screenStep a = some u) :
    (∃ c, a = .call c ∧ c.Allowed s.kbd.activeTerminal s.con ∧
      u = { s with con := c.apply s.kbd.activeTerminal s.con }) ∨
    ∃ next, a = .display next ∧ u = s.showTerminal next := by
  cases a with
  | call c =>
      simp only [screenStep] at h
      split at h
      · exact .inl ⟨c, rfl, ‹_›, (Option.some.inj h).symm⟩
      · simp at h
  | display next => exact .inr ⟨next, rfl, (Option.some.inj h).symm⟩

theorem onScreen_screenStep (hs : s.con.OnScreen) (h : s.screenStep a = some u) : u.con.OnScreen := by
  obtain ⟨c, rfl, hok, rfl⟩ | ⟨next, rfl, rfl⟩ := screenStep_cases h
  · exact ScreenCall.onScreen hs hok
  · exact hs.updateScreen next s.kbd.activeTerminal

/-- The cursors stay on the screen in every run. -/
theorem onScreen_run (hs : s.con.OnScreen) (h : run screenStep s as = some u) : u.con.OnScreen :=
  run_preserves (P := fun s => s.con.OnScreen) (fun _ _ _ hs h => onScreen_screenStep hs h) hs h

theorem storesInFrame_of_step (hs : s.con.OnScreen) (h : s.screenStep a = some u) :
    StoresInFrame s a := by
  intro o ho
  obtain ⟨c, rfl, hok, -⟩ | ⟨next, rfl, -⟩ := screenStep_cases h
  · have hin := ScreenCall.inPage_of_mem_stores hs hok ho
    unfold Console.InPage at hin
    omega
  · exact Console.mem_updateScreenStores.1 ho

/-- No run stores outside the page. -/
theorem storesInFrame_of_run (hs : s.con.OnScreen) (h : run screenStep s as = some u) :
    AllSteps screenStep StoresInFrame s as :=
  .of_run (P := fun s => s.con.OnScreen)
    (fun _ _ _ hs h => ⟨storesInFrame_of_step hs h, onScreen_screenStep hs h⟩) hs h

/-! ## Behind the screen -/

/-- Terminal `t` is not on display, and its backing page holds the text `text`. -/
structure Saved (t : Term) (text : Nat → UInt8) (s : Tty) : Prop where
  hidden : s.kbd.activeTerminal ≠ t
  savedCell : ∀ k < 2000, s.con.savedCell t k = text k

/-- Leaving a terminal saves its text. -/
theorem saved_showTerminal (s : Tty) {next : Term} (hnext : next ≠ s.kbd.activeTerminal) :
    Saved s.kbd.activeTerminal s.con.cell (s.showTerminal next) where
  hidden := hnext
  savedCell k hk := by
    simp only [showTerminal]
    rw [Console.savedCell_updateScreen _ _ _ _ hk, if_pos rfl]

/-- **One action** that does not display `t` leaves its text alone. -/
theorem Saved.screenStep {text : Nat → UInt8} (hs : Saved t text s) (ha : a ≠ .display t)
    (h : s.screenStep a = some u) : Saved t text u := by
  obtain ⟨c, rfl, -, rfl⟩ | ⟨next, rfl, rfl⟩ := screenStep_cases h
  · refine ⟨hs.hidden, fun k hk => ?_⟩
    rw [← hs.savedCell k hk, Console.savedCell, Console.savedCell, ScreenCall.termVidMem_apply]
  · refine ⟨fun hnext => ha (by rw [← hnext]; rfl), fun k hk => ?_⟩
    simp only [showTerminal]
    rw [Console.savedCell_updateScreen _ _ _ _ hk, if_neg hs.hidden.symm, hs.savedCell k hk]

/-- **Any number of actions** of the other terminals. -/
theorem Saved.run {text : Nat → UInt8} (hs : Saved t text s) (has : ∀ a ∈ as, a ≠ .display t)
    (h : run Tty.screenStep s as = some u) : Saved t text u := by
  induction as generalizing s with
  | nil =>
      obtain rfl := Option.some.inj h
      exact hs
  | cons a as ih =>
      obtain ⟨v, hv, h⟩ := run_cons_eq_some.1 h
      exact ih (hs.screenStep (has a List.mem_cons_self) hv)
        (fun b hb => has b (List.mem_cons_of_mem a hb)) h

/-- Displaying the terminal brings its text back. -/
theorem Saved.cell_showTerminal {text : Nat → UInt8} (hs : Saved t text s) {k : Nat} (hk : k < 2000) :
    (s.showTerminal t).con.cell k = text k := by
  simp only [showTerminal]
  rw [Console.cell_updateScreen _ _ _ hk, if_neg hs.hidden.symm, hs.savedCell k hk]

/-- A switch from a terminal to itself. -/
theorem sameText_showTerminal_self (s : Tty) :
    s.con.SameText (s.showTerminal s.kbd.activeTerminal).con := by
  intro k hk
  simp only [showTerminal]
  rw [Console.cell_updateScreen _ _ _ hk, if_pos rfl]

end Tty

/-- **The screens keep their text**: when the terminal on display is left and displayed again, it
    shows the text it showed, whatever has happened on the other two; and displaying it when it is on
    display changes no character. -/
theorem screens_keepText {s₀ s : Tty} {before : List ScreenAction} (h₀ : s₀.con.OnScreen)
    (hbefore : run Tty.screenStep s₀ before = some s) :
    s.con.SameText (s.showTerminal s.kbd.activeTerminal).con ∧
      ∀ (next : Term) (away : List ScreenAction) (u : Tty), next ≠ s.kbd.activeTerminal →
        (∀ a ∈ away, a ≠ .display s.kbd.activeTerminal) →
        run Tty.screenStep s (.display next :: away ++ [.display s.kbd.activeTerminal]) = some u →
        s.con.SameText u.con ∧ AllSteps Tty.screenStep StoresInFrame s
          (.display next :: away ++ [.display s.kbd.activeTerminal]) := by
  have hs : s.con.OnScreen := Tty.onScreen_run h₀ hbefore
  refine ⟨Tty.sameText_showTerminal_self s, fun next away u hnext haway hrun => ⟨?_, ?_⟩⟩
  · obtain ⟨v, hv, hu⟩ := run_append_eq_some.1 hrun
    obtain ⟨w, hw, hv⟩ := run_cons_eq_some.1 hv
    obtain rfl : s.showTerminal next = w := Option.some.inj hw
    obtain ⟨x, hx, hu⟩ := run_cons_eq_some.1 hu
    obtain rfl : v.showTerminal s.kbd.activeTerminal = x := Option.some.inj hx
    obtain rfl : v.showTerminal s.kbd.activeTerminal = u := Option.some.inj hu
    have hsaved := (Tty.saved_showTerminal s hnext).run haway hv
    exact fun k hk => hsaved.cell_showTerminal hk
  · exact Tty.storesInFrame_of_run hs hrun

/-- A character on the first terminal, then a visit to the other two. -/
def sampleVisit : List ScreenAction :=
  [.call (.putc 66), .call .newLine, .display 2, .call .clearScreen]

theorem screens_keepText_sampleVisit : ∃ s u,
    run Tty.screenStep bootTty [.call (.putc 65)] = some s ∧
      run Tty.screenStep s (.display 1 :: sampleVisit ++ [.display s.kbd.activeTerminal]) = some u ∧
      s.con.SameText u.con := by
  obtain ⟨s, hs⟩ := Option.isSome_iff_exists.1
    (show (run Tty.screenStep bootTty [.call (.putc 65)]).isSome by decide)
  have hactive : s.kbd.activeTerminal = 0 := by
    obtain ⟨t, ht, hs⟩ := run_cons_eq_some.1 hs
    obtain ⟨c, -, -, rfl⟩ | ⟨next, hnext, -⟩ := Tty.screenStep_cases ht
    · obtain rfl := Option.some.inj hs
      rfl
    · simp at hnext
  obtain ⟨u, hu⟩ := Option.isSome_iff_exists.1
    (show (run Tty.screenStep s (.display 1 :: sampleVisit ++ [.display s.kbd.activeTerminal])).isSome
      by rfl)
  have hscreen : bootTty.con.OnScreen := by decide
  refine ⟨s, u, hs, hu, ((screens_keepText hscreen hs).2 1 sampleVisit u ?_ ?_ hu).1⟩
  · rw [hactive]
    decide
  · rw [hactive]
    intro a ha
    simp only [sampleVisit, List.mem_cons, List.not_mem_nil, or_false] at ha
    rcases ha with rfl | rfl | rfl | rfl <;> simp

end Gyarados

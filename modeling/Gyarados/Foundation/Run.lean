import Mathlib.Tactic.Common

set_option autoImplicit false

/-! # Runs of a partial transition function

A system is a function `step : σ → α → Option σ`; `none` means that the run ends at this action. The
rules below carry a property of one step to whole runs, with a side condition on the actions taken
(`AllSteps`) and with history kept beside the state (`withGhost`). -/

namespace Gyarados

variable {σ α γ : Type*}

/-- Take the actions one after the other. -/
def run (step : σ → α → Option σ) : σ → List α → Option σ
  | s, [] => some s
  | s, a :: as => (step s a).bind fun t => run step t as

/-- Every action of the run meets `ok` in the state it is taken in. -/
def AllSteps (step : σ → α → Option σ) (ok : σ → α → Prop) : σ → List α → Prop
  | _, [] => True
  | s, a :: as => ok s a ∧ ∀ t, step s a = some t → AllSteps step ok t as

variable {step : σ → α → Option σ}

@[simp] theorem run_nil (s : σ) : run step s [] = some s := rfl

theorem run_cons_eq_some {s u : σ} {a : α} {as : List α} :
    run step s (a :: as) = some u ↔ ∃ t, step s a = some t ∧ run step t as = some u := by
  simp only [run, Option.bind_eq_some_iff]

theorem AllSteps.mono {ok ok' : σ → α → Prop} (h : ∀ s a, ok s a → ok' s a) :
    ∀ {as : List α} {s : σ}, AllSteps step ok s as → AllSteps step ok' s as
  | [], _, _ => trivial
  | _ :: _, _, hs => ⟨h _ _ hs.1, fun t ht => AllSteps.mono h (hs.2 t ht)⟩

theorem AllSteps.congr {ok ok' : σ → α → Prop} (h : ∀ s a, ok s a ↔ ok' s a) {as : List α} {s : σ} :
    AllSteps step ok s as ↔ AllSteps step ok' s as :=
  ⟨AllSteps.mono fun s a => (h s a).1, AllSteps.mono fun s a => (h s a).2⟩

theorem AllSteps.of_forall {ok : σ → α → Prop} (h : ∀ s a, ok s a) :
    ∀ {as : List α} {s : σ}, AllSteps step ok s as
  | [], _ => trivial
  | _ :: _, _ => ⟨h _ _, fun _ _ => AllSteps.of_forall h⟩

theorem AllSteps.of_forall_mem {ok : α → Prop} :
    ∀ {as : List α} {s : σ}, (∀ a ∈ as, ok a) → AllSteps step (fun _ a => ok a) s as
  | [], _, _ => trivial
  | _ :: _, _, h => ⟨h _ List.mem_cons_self, fun _ _ =>
      AllSteps.of_forall_mem fun a ha => h a (List.mem_cons_of_mem _ ha)⟩

instance decidableAllSteps {ok : σ → α → Prop} [∀ s a, Decidable (ok s a)] :
    ∀ (s : σ) (as : List α), Decidable (AllSteps step ok s as)
  | _, [] => isTrue trivial
  | s, a :: as =>
      match h : step s a with
      | none => decidable_of_iff (ok s a) ⟨fun hok => ⟨hok, by simp [h]⟩, And.left⟩
      | some t =>
          have : Decidable (AllSteps step ok t as) := decidableAllSteps t as
          decidable_of_iff (ok s a ∧ AllSteps step ok t as)
            ⟨fun hok => ⟨hok.1, fun u hu => by
              rw [h] at hu
              exact Option.some.inj hu ▸ hok.2⟩, fun hok => ⟨hok.1, hok.2 t h⟩⟩

/-- **The invariant rule.** What one step under the side condition preserves, every run
    preserves. -/
theorem run_invariant {P : σ → Prop} {ok : σ → α → Prop}
    (hstep : ∀ s a t, P s → ok s a → step s a = some t → P t) :
    ∀ {as : List α} {s u : σ}, P s → AllSteps step ok s as → run step s as = some u → P u
  | [], s, u, hs, _, hr => by
      obtain rfl : s = u := by simpa using hr
      exact hs
  | a :: as, s, u, hs, hok, hr => by
      obtain ⟨t, ht, hr⟩ := run_cons_eq_some.1 hr
      exact run_invariant hstep (hstep s a t hs hok.1 ht) (hok.2 t ht) hr

/-- What the invariant gives to each step, every step of a run under the side condition has. -/
theorem AllSteps.of_invariant {P : σ → Prop} {ok ok' : σ → α → Prop}
    (hstep : ∀ s a t, P s → ok s a → step s a = some t → P t)
    (hok : ∀ s a, P s → ok s a → ok' s a) :
    ∀ {as : List α} {s : σ}, P s → AllSteps step ok s as → AllSteps step ok' s as
  | [], _, _, _ => trivial
  | a :: _, s, hs, h =>
      ⟨hok s a hs h.1, fun t ht => AllSteps.of_invariant hstep hok (hstep s a t hs h.1 ht) (h.2 t ht)⟩

/-- What every step preserves, every run preserves. -/
theorem run_preserves {P : σ → Prop} (hstep : ∀ s a t, P s → step s a = some t → P t) {as : List α}
    {s u : σ} (hs : P s) (hrun : run step s as = some u) : P u :=
  run_invariant (fun s a t hs (_ : True) => hstep s a t hs) hs (.of_forall fun _ _ => trivial) hrun

/-- A run that goes through meets every condition that the invariant gives to each step. -/
theorem AllSteps.of_run {P : σ → Prop} {ok : σ → α → Prop}
    (hstep : ∀ s a t, P s → step s a = some t → ok s a ∧ P t) :
    ∀ {as : List α} {s u : σ}, P s → run step s as = some u → AllSteps step ok s as
  | [], _, _, _, _ => trivial
  | a :: as, s, u, hs, hr => by
      obtain ⟨t, ht, hr⟩ := run_cons_eq_some.1 hr
      refine ⟨(hstep s a t hs ht).1, fun t' ht' => ?_⟩
      obtain rfl : t = t' := Option.some.inj (ht.symm.trans ht')
      exact AllSteps.of_run hstep (hstep s a t hs ht).2 hr

/-- What does at least as much as another step function has its runs. -/
theorem run_mono {step' : σ → α → Option σ} (h : ∀ s a t, step s a = some t → step' s a = some t) :
    ∀ {as : List α} {s u : σ}, run step s as = some u → run step' s as = some u
  | [], _, _, hr => hr
  | _ :: _, _, _, hr => by
      obtain ⟨t, ht, hr⟩ := run_cons_eq_some.1 hr
      exact run_cons_eq_some.2 ⟨t, h _ _ _ ht, run_mono h hr⟩

theorem run_append_eq_some {s u : σ} {as bs : List α} :
    run step s (as ++ bs) = some u ↔ ∃ t, run step s as = some t ∧ run step t bs = some u := by
  induction as generalizing s with
  | nil => simp
  | cons a as ih =>
      simp only [List.cons_append, run_cons_eq_some, ih]
      constructor
      · rintro ⟨t, ht, v, hv, hu⟩
        exact ⟨v, ⟨t, ht, hv⟩, hu⟩
      · rintro ⟨v, ⟨t, ht, hv⟩, hu⟩
        exact ⟨t, ht, v, hv, hu⟩

/-- A run in two parts meets the condition when both parts do. -/
theorem AllSteps.append_iff {ok : σ → α → Prop} {s u : σ} {as bs : List α} (hrun : run step s as = some u) :
    AllSteps step ok s (as ++ bs) ↔ AllSteps step ok s as ∧ AllSteps step ok u bs := by
  induction as generalizing s with
  | nil =>
      obtain rfl := Option.some.inj hrun
      exact ⟨fun h => ⟨trivial, h⟩, And.right⟩
  | cons a as ih =>
      obtain ⟨t, ht, hrun⟩ := run_cons_eq_some.1 hrun
      constructor
      · rintro ⟨hok, hrest⟩
        obtain ⟨has, hbs⟩ := (ih hrun).1 (hrest t ht)
        refine ⟨⟨hok, fun t' ht' => ?_⟩, hbs⟩
        obtain rfl : t = t' := Option.some.inj (ht.symm.trans ht')
        exact has
      · rintro ⟨⟨hok, hrest⟩, hbs⟩
        refine ⟨hok, fun t' ht' => ?_⟩
        obtain rfl : t = t' := Option.some.inj (ht.symm.trans ht')
        exact (ih hrun).2 ⟨hrest t ht, hbs⟩

theorem AllSteps.and {ok ok' : σ → α → Prop} :
    ∀ {as : List α} {s : σ}, AllSteps step ok s as → AllSteps step ok' s as →
      AllSteps step (fun s a => ok s a ∧ ok' s a) s as
  | [], _, _, _ => trivial
  | _ :: _, _, h, h' => ⟨⟨h.1, h'.1⟩, fun t ht => AllSteps.and (h.2 t ht) (h'.2 t ht)⟩

/-- The condition holds of an action in the middle of the run, in the state reached. -/
theorem AllSteps.of_run_append {ok : σ → α → Prop} {s u : σ} {as bs : List α} {a : α}
    (h : AllSteps step ok s (as ++ a :: bs)) (hrun : run step s as = some u) : ok u a :=
  ((AllSteps.append_iff hrun).1 h).2.1

theorem rel_mono {R R' : σ → σ → Prop} {s t : Option σ} (h : Option.Rel R s t)
    (hle : ∀ s t, R s t → R' s t) : Option.Rel R' s t := by
  cases h with
  | some h => exact .some (hle _ _ h)
  | none => exact .none

/-- **The stutter rule.** Quiet actions keep the relation to a system that does not take them, and the
    others keep it on both sides: the runs end alike, or not at all. -/
theorem run_stutter {R : σ → σ → Prop} {quiet : α → Bool} {ok : α → Prop}
    (hquiet : ∀ s t a, R s t → quiet a = true → ok a → ∃ u, step t a = some u ∧ R s u)
    (hloud : ∀ s t a, R s t → quiet a = false → Option.Rel R (step s a) (step t a)) {as : List α}
    {s t : σ} (h : R s t) (hok : ∀ a ∈ as, ok a) :
    Option.Rel R (run step s (as.filter fun a => !quiet a)) (run step t as) := by
  induction as generalizing s t with
  | nil => exact .some h
  | cons a as ih =>
      have hok' := fun b hb => hok b (List.mem_cons_of_mem _ hb)
      by_cases ha : quiet a = true
      · obtain ⟨u, hu, h⟩ := hquiet s t a h ha (hok a List.mem_cons_self)
        rw [List.filter_cons_of_neg (by simp [ha]), run, hu]
        exact ih h hok'
      · have hboth := hloud s t a h (Bool.eq_false_iff.2 ha)
        rw [List.filter_cons_of_pos (by simp [ha]), run, run]
        cases hs : step s a <;> cases ht : step t a <;> rw [hs, ht] at hboth
        · exact .none
        · exact nomatch hboth
        · exact nomatch hboth
        · cases hboth with
          | some h => exact ih h hok'

/-! ## History -/

/-- The system with history: `note s a t g` is what the history `g` becomes when `a` leads from `s`
    to `t`, or `none` when the action is not one the history allows. -/
def withGhost (step : σ → α → Option σ) (note : σ → α → σ → γ → Option γ) :
    σ × γ → α → Option (σ × γ) :=
  fun sg a => (step sg.1 a).bind fun t => (note sg.1 a t sg.2).map fun g => (t, g)

theorem withGhost_eq_some {note : σ → α → σ → γ → Option γ} {sg tg : σ × γ} {a : α} :
    withGhost step note sg a = some tg ↔
      step sg.1 a = some tg.1 ∧ note sg.1 a tg.1 sg.2 = some tg.2 := by
  obtain ⟨t, g⟩ := tg
  simp only [withGhost, Option.bind_eq_some_iff, Option.map_eq_some_iff, Prod.mk.injEq]
  constructor
  · rintro ⟨t', ht, g', hg, rfl, rfl⟩
    exact ⟨ht, hg⟩
  · rintro ⟨ht, hg⟩
    exact ⟨t, ht, g, hg, rfl, rfl⟩

/-- A history that allows every action can be kept beside every run. -/
theorem exists_run_withGhost {note : σ → α → σ → γ → Option γ}
    (hnote : ∀ s a t g, step s a = some t → ∃ g', note s a t g = some g') {as : List α} {s u : σ}
    (h : run step s as = some u) (g : γ) :
    ∃ g', run (withGhost step note) (s, g) as = some (u, g') := by
  induction as generalizing s g with
  | nil =>
      obtain rfl := Option.some.inj h
      exact ⟨g, rfl⟩
  | cons a as ih =>
      obtain ⟨t, ht, h⟩ := run_cons_eq_some.1 h
      obtain ⟨g₁, hg₁⟩ := hnote s a t g ht
      obtain ⟨g₂, hg₂⟩ := ih h g₁
      exact ⟨g₂, run_cons_eq_some.2 ⟨(t, g₁), withGhost_eq_some.2 ⟨ht, hg₁⟩, hg₂⟩⟩

end Gyarados

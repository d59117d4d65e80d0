import Mathlib.Data.List.Nodup
import Mathlib.Tactic.Common

set_option autoImplicit false

/-! # Linked chains

A store of cells, each pointing to the next, seen as the list of cells met from a given one on.
`Links null next p ps` says that following `next` from `p` visits exactly `ps` and then meets
`null`, so it also says that the chain ends. -/

namespace Gyarados

variable {α : Type*} {null : α} {next next' : α → α}

inductive Links (null : α) (next : α → α) : α → List α → Prop
  | nil : Links null next null []
  | cons {p : α} {ps : List α} :
      p ≠ null → Links null next (next p) ps → Links null next p (p :: ps)

namespace Links

theorem eq_null {p : α} (h : Links null next p []) : p = null := by
  cases h
  rfl

theorem tail {p q : α} {ps : List α} (h : Links null next p (q :: ps)) :
    Links null next (next q) ps := by
  cases h
  assumption

theorem head_eq {p q : α} {ps : List α} (h : Links null next p (q :: ps)) : p = q := by
  cases h
  rfl

theorem exists_cons {p : α} {ps : List α} (h : Links null next p ps) (hp : p ≠ null) :
    ∃ qs, ps = p :: qs ∧ Links null next (next p) qs := by
  cases h with
  | nil => exact absurd rfl hp
  | cons _ h => exact ⟨_, rfl, h⟩

/-- There is one chain from a cell. -/
theorem unique {p : α} {ps qs : List α} (h : Links null next p ps) (h' : Links null next p qs) :
    ps = qs := by
  induction h generalizing qs with
  | nil =>
      cases h' with
      | nil => rfl
      | cons hp _ => exact absurd rfl hp
  | cons hp _ ih =>
      obtain ⟨rs, rfl, hr⟩ := h'.exists_cons hp
      rw [ih hr]

/-- The chain depends on the links of its own cells only. -/
theorem congr {p : α} {ps : List α} (h : Links null next p ps)
    (hn : ∀ q ∈ ps, next' q = next q) : Links null next' p ps := by
  induction h with
  | nil => exact .nil
  | cons hp _ ih =>
      refine .cons hp ?_
      rw [hn _ List.mem_cons_self]
      exact ih fun q hq => hn q (List.mem_cons_of_mem _ hq)

/-- From a cell in the middle the chain is what is left. -/
theorem suffix {p q : α} {as bs : List α} (h : Links null next p (as ++ q :: bs)) :
    Links null next q (q :: bs) := by
  induction as generalizing p with
  | nil => exact h.head_eq ▸ h
  | cons a as ih => exact ih h.tail

/-- A chain that ends visits no cell twice: it would go on for ever. -/
theorem nodup {p : α} {ps : List α} (h : Links null next p ps) : ps.Nodup := by
  induction h with
  | nil => exact List.nodup_nil
  | @cons p ps hp h ih =>
      refine List.nodup_cons.2 ⟨fun hmem => ?_, ih⟩
      obtain ⟨as, bs, rfl⟩ := List.append_of_mem hmem
      have hlong : Links null next p (p :: (as ++ p :: bs)) := .cons hp h
      have hlen := congrArg List.length (hlong.unique h.suffix)
      simp only [List.length_cons, List.length_append] at hlen
      omega

end Links

end Gyarados

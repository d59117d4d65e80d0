import Mathlib.Data.List.Nodup
import Mathlib.Logic.Function.Basic
import Mathlib.Tactic.Common

set_option autoImplicit false

/-! # Families of disjoint stacks

Several stacks that share one pool of resources: no resource is on a stack twice or on two stacks.
The invariant is part of the type, so a family that shares a resource cannot be built. -/

namespace Gyarados

variable {ι α : Type*}

structure StackFamily (ι α : Type*) where
  stack : ι → List α
  nodup : ∀ i, (stack i).Nodup
  disjoint : ∀ i j, i ≠ j → ∀ a ∈ stack i, a ∉ stack j

namespace StackFamily

/-- The family with nothing on any stack. -/
def empty : StackFamily ι α where
  stack _ := []
  nodup _ := List.nodup_nil
  disjoint _ _ _ _ h := by simp at h

/-- The resource is on some stack. -/
def Uses (F : StackFamily ι α) (a : α) : Prop := ∃ i, a ∈ F.stack i

theorem index_unique (F : StackFamily ι α) {i j : ι} {a : α} (hi : a ∈ F.stack i)
    (hj : a ∈ F.stack j) : i = j :=
  by_contra fun h => F.disjoint i j h a hi hj

variable [DecidableEq ι]

/-- Put an unused resource on top of stack `i`. -/
def push (F : StackFamily ι α) (i : ι) (a : α) (ha : ¬ F.Uses a) : StackFamily ι α where
  stack := Function.update F.stack i (a :: F.stack i)
  nodup j := by
    by_cases h : j = i
    · subst h
      rw [Function.update_self]
      exact List.nodup_cons.2 ⟨fun hm => ha ⟨_, hm⟩, F.nodup _⟩
    · rw [Function.update_of_ne h]
      exact F.nodup j
  disjoint j k hjk b hb hb' := by
    by_cases hj : j = i
    · subst hj
      rw [Function.update_self] at hb
      rw [Function.update_of_ne (Ne.symm hjk)] at hb'
      rcases List.mem_cons.1 hb with rfl | hb
      · exact ha ⟨k, hb'⟩
      · exact F.disjoint _ _ hjk b hb hb'
    · rw [Function.update_of_ne hj] at hb
      by_cases hk : k = i
      · subst hk
        rw [Function.update_self] at hb'
        rcases List.mem_cons.1 hb' with rfl | hb'
        · exact ha ⟨j, hb⟩
        · exact F.disjoint _ _ hjk b hb hb'
      · rw [Function.update_of_ne hk] at hb'
        exact F.disjoint _ _ hjk b hb hb'

/-- Take the top off stack `i`. -/
def pop (F : StackFamily ι α) (i : ι) : StackFamily ι α where
  stack := Function.update F.stack i (F.stack i).tail
  nodup j := by
    by_cases h : j = i
    · subst h
      rw [Function.update_self]
      exact (F.nodup j).sublist (List.tail_sublist _)
    · rw [Function.update_of_ne h]
      exact F.nodup j
  disjoint j k hjk b hb hb' := by
    have hsub : ∀ l, b ∈ Function.update F.stack i (F.stack i).tail l → b ∈ F.stack l := by
      intro l hl
      by_cases h : l = i
      · subst h
        rw [Function.update_self] at hl
        exact List.mem_of_mem_tail hl
      · rwa [Function.update_of_ne h] at hl
    exact F.disjoint j k hjk b (hsub j hb) (hsub k hb')

variable (F : StackFamily ι α) (i : ι) (a : α) (ha : ¬ F.Uses a)

@[simp] theorem push_stack_self : (F.push i a ha).stack i = a :: F.stack i := by simp [push]

@[simp] theorem push_stack_of_ne {j : ι} (h : j ≠ i) : (F.push i a ha).stack j = F.stack j := by
  simp [push, h]

@[simp] theorem pop_stack_self : (F.pop i).stack i = (F.stack i).tail := by simp [pop]

@[simp] theorem pop_stack_of_ne {j : ι} (h : j ≠ i) : (F.pop i).stack j = F.stack j := by
  simp [pop, h]

/-- After a push the new resource is in use, and what was. -/
theorem push_uses (b : α) : (F.push i a ha).Uses b ↔ b = a ∨ F.Uses b := by
  constructor
  · rintro ⟨j, hj⟩
    by_cases h : j = i
    · subst h
      rw [push_stack_self] at hj
      exact (List.mem_cons.1 hj).imp id fun h => ⟨_, h⟩
    · rw [push_stack_of_ne F i a ha h] at hj
      exact Or.inr ⟨j, hj⟩
  · rintro (rfl | ⟨j, hj⟩)
    · exact ⟨i, by simp⟩
    · by_cases h : j = i
      · subst h
        exact ⟨j, by simp [hj]⟩
      · exact ⟨j, by simpa [h] using hj⟩

/-- After a pop everything but the resource taken off is in use as before. -/
theorem pop_uses {rest : List α} (hi : F.stack i = a :: rest) (b : α) :
    (F.pop i).Uses b ↔ F.Uses b ∧ b ≠ a := by
  have hnd : a ∉ rest := (List.nodup_cons.1 (hi ▸ F.nodup i)).1
  constructor
  · rintro ⟨j, hj⟩
    by_cases h : j = i
    · subst h
      rw [pop_stack_self, hi, List.tail_cons] at hj
      exact ⟨⟨j, by simp [hi, hj]⟩, fun hba => hnd (hba ▸ hj)⟩
    · rw [pop_stack_of_ne F i h] at hj
      refine ⟨⟨j, hj⟩, fun hba => h (F.index_unique hj ?_)⟩
      simp [hba, hi]
  · rintro ⟨⟨j, hj⟩, hba⟩
    by_cases h : j = i
    · subst h
      refine ⟨j, ?_⟩
      rw [hi] at hj
      rw [pop_stack_self, hi, List.tail_cons]
      exact (List.mem_cons.1 hj).resolve_left hba
    · exact ⟨j, by simpa [h] using hj⟩

end StackFamily

end Gyarados

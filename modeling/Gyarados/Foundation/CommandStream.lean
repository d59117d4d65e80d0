import Mathlib.Data.List.Basic

set_option autoImplicit false

/-! # Commands in a stream

A device that is told everything through one port takes the first word for a command and as many of the
next ones for its parameters as that command has. -/

namespace Gyarados

variable {β : Type*} {arity : β → Nat}

/-- A command and its parameters. -/
abbrev Command (β : Type*) := β × List β

/-- The commands complete so far, and the one whose parameters are still coming. -/
structure Decoder (β : Type*) where
  commands : List (Command β)
  pending : Option (Command β)

/-- The device waits for a command. -/
def Decoder.ready (commands : List (Command β)) : Decoder β := ⟨commands, none⟩

/-- The next word. -/
def Decoder.feed (arity : β → Nat) (d : Decoder β) (b : β) : Decoder β :=
  let next := match d.pending with
    | none => (b, [])
    | some (c, ps) => (c, ps ++ [b])
  if next.2.length = arity next.1 then ⟨d.commands ++ [next], none⟩ else ⟨d.commands, some next⟩

/-- The words of a list of commands. -/
def encode (cmds : List (Command β)) : List β := cmds.flatMap fun c => c.1 :: c.2

/-- A command with all its parameters. -/
def Whole (arity : β → Nat) (c : Command β) : Prop := c.2.length = arity c.1

/-- While parameters are missing, they are collected. -/
theorem foldl_feed_pending {c : β} {cmds : List (Command β)} {ps qs : List β} (hqs : qs ≠ [])
    (h : ps.length + qs.length = arity c) :
    qs.foldl (Decoder.feed arity) ⟨cmds, some (c, ps)⟩ = .ready (cmds ++ [(c, ps ++ qs)]) := by
  induction qs generalizing ps with
  | nil => exact absurd rfl hqs
  | cons q qs ih =>
      rw [List.length_cons] at h
      cases qs with
      | nil => simp [Decoder.feed, Decoder.ready, ← h]
      | cons r rs =>
          have hmore : ¬ (ps ++ [q]).length = arity c := by
            simp only [List.length_append, List.length_cons, List.length_nil] at h ⊢
            omega
          have hstep : Decoder.feed arity ⟨cmds, some (c, ps)⟩ q = ⟨cmds, some (c, ps ++ [q])⟩ :=
            if_neg hmore
          rw [List.foldl_cons, hstep, ih (List.cons_ne_nil _ _) (by simp at h ⊢; omega)]
          simp

theorem foldl_feed_command {c : Command β} (cmds : List (Command β)) (h : Whole arity c) :
    (c.1 :: c.2).foldl (Decoder.feed arity) (.ready cmds) = .ready (cmds ++ [c]) := by
  obtain ⟨c, ps⟩ := c
  rw [List.foldl_cons]
  cases ps with
  | nil => exact if_pos h
  | cons p ps =>
      have hmore : ¬ ([] : List β).length = arity c := by
        rw [← show (p :: ps).length = arity c from h]
        simp
      have hstep : Decoder.feed arity (.ready cmds) c = ⟨cmds, some (c, [])⟩ := if_neg hmore
      rw [hstep, foldl_feed_pending (List.cons_ne_nil _ _) (by simpa [Whole] using h)]
      rfl

/-- **Whole commands are read back**, and the device is ready for the next one. -/
theorem foldl_feed_encode {cmds' : List (Command β)} (cmds : List (Command β))
    (h : ∀ c ∈ cmds', Whole arity c) :
    (encode cmds').foldl (Decoder.feed arity) (.ready cmds) = .ready (cmds ++ cmds') := by
  induction cmds' generalizing cmds with
  | nil => simp [encode]
  | cons c cmds' ih =>
      have hc := h c List.mem_cons_self
      rw [encode, List.flatMap_cons, List.foldl_append, foldl_feed_command cmds hc]
      have hrest := ih (cmds ++ [c]) fun c' hc' => h c' (List.mem_cons_of_mem _ hc')
      rw [encode] at hrest
      rw [hrest, List.append_assoc, List.singleton_append]

end Gyarados

import Mathlib

/-! # Replaying writes

A list of writes `(address, value)` applied in order to a store, over arbitrary addresses and values:
what a transaction does to the contents of a disk. -/

namespace Xv6Freezer.Lib

open Function

variable {α β : Type*} [DecidableEq α]

def replay (ws : List (α × β)) (f : α → β) : α → β :=
  ws.foldl (fun f w => update f w.1 w.2) f

variable {ws : List (α × β)} {f : α → β} {a : α}

@[simp] theorem replay_nil : replay [] f = f := rfl

@[simp] theorem replay_concat (w : α × β) : replay (ws ++ [w]) f = update (replay ws f) w.1 w.2 := by
  simp [replay]

theorem replay_of_forall_ne (h : ∀ w ∈ ws, w.1 ≠ a) : replay ws f a = f a := by
  induction ws generalizing f with
  | nil => rfl
  | cons w ws ih =>
    have hw : a ≠ w.1 := (h w (.head _)).symm
    refine (ih fun w' hw' => h w' (.tail _ hw')).trans ?_
    exact Function.update_of_ne hw _ _

end Xv6Freezer.Lib

import Mathlib

/-! # Ring buffers with free-running counters

A buffer of `N` cells with two counters that only grow and wrap around at `W`, a multiple of `N`. `Rep k l`
says that the buffer represents the list `l` after `k` bytes have been taken out.
-/

namespace Xv6Freezer.Lib

open Function

structure RingBuffer (α : Type) where
  data : Nat → α
  r : Nat
  w : Nat

namespace RingBuffer

variable {α : Type} {N W k : Nat} {b : RingBuffer α} {l : List α} {x : α}

def put (N W : Nat) (b : RingBuffer α) (x : α) : RingBuffer α :=
  { b with data := update b.data (b.w % N) x, w := (b.w + 1) % W }

/-- Write the cell of the next element, and leave the counter. -/
def store (N : Nat) (b : RingBuffer α) (x : α) : RingBuffer α :=
  { b with data := update b.data (b.w % N) x }

def bump (W : Nat) (b : RingBuffer α) : RingBuffer α := { b with w := (b.w + 1) % W }

def take (W : Nat) (b : RingBuffer α) : RingBuffer α := { b with r := (b.r + 1) % W }

def unput (W : Nat) (b : RingBuffer α) : RingBuffer α := { b with w := (b.w + W - 1) % W }

/-- The buffer holds `l`, after `k` elements have been taken out. -/
structure Rep (N W : Nat) (b : RingBuffer α) (k : Nat) (l : List α) : Prop where
  r_eq : b.r = k % W
  w_eq : b.w = (k + l.length) % W
  length_le : l.length ≤ N
  cell : ∀ j (hj : j < l.length), b.data ((k + j) % N) = l[j]

theorem Rep.length_eq (h : Rep N W b k l) (hNW : N < W) : (b.w + (W - b.r)) % W = l.length := by
  have hle := h.length_le
  have hk : k % W < W := Nat.mod_lt _ (by omega)
  rw [h.r_eq, h.w_eq, Nat.add_mod, Nat.mod_mod, ← Nat.add_mod]
  have hsum : k + l.length + (W - k % W) = l.length + W * (k / W + 1) := by
    have := Nat.div_add_mod k W
    rw [Nat.mul_add, Nat.mul_one]
    omega
  rw [hsum, Nat.add_mul_mod_self_left, Nat.mod_eq_of_lt (by omega)]

theorem Rep.empty_iff (h : Rep N W b k l) (hNW : N < W) : b.r = b.w ↔ l = [] := by
  have hlen := h.length_eq hNW
  have hr : b.r < W := by rw [h.r_eq]; exact Nat.mod_lt _ (by omega)
  constructor
  · intro heq
    rw [← heq, Nat.add_sub_cancel' hr.le, Nat.mod_self] at hlen
    exact List.eq_nil_of_length_eq_zero hlen.symm
  · rintro rfl
    rw [h.r_eq, h.w_eq, List.length_nil, Nat.add_zero]

theorem Rep.full_iff (h : Rep N W b k l) (hNW : N < W) : b.w = (b.r + N) % W ↔ l.length = N := by
  have hle := h.length_le
  rw [h.r_eq, h.w_eq, Nat.mod_add_mod]
  constructor
  · intro heq
    have hmod : l.length ≡ N [MOD W] := Nat.ModEq.add_left_cancel' k heq
    exact Nat.ModEq.eq_of_lt_of_lt hmod (by omega) hNW
  · rintro rfl
    rfl

theorem mod_mod_cell (hdvd : N ∣ W) (k j : Nat) : (k % W + j) % N = (k + j) % N := by
  rw [Nat.add_mod, Nat.mod_mod_of_dvd k hdvd, ← Nat.add_mod]

section

variable (h : Rep N W b k l) (hdvd : N ∣ W) (hroom : l.length < N)

include h hdvd hroom

theorem Rep.cell_ne {j : Nat} (hj : j < l.length) : (k + j) % N ≠ b.w % N := by
  rw [h.w_eq, Nat.mod_mod_of_dvd _ hdvd]
  intro heq
  have hmod : j ≡ l.length [MOD N] := Nat.ModEq.add_left_cancel' k heq
  exact Nat.ne_of_lt hj (Nat.ModEq.eq_of_lt_of_lt hmod (by omega) hroom)

theorem Rep.store : Rep N W (b.store N x) k l where
  r_eq := h.r_eq
  w_eq := h.w_eq
  length_le := h.length_le
  cell j hj := (Function.update_of_ne (h.cell_ne hdvd hroom hj) _ _).trans (h.cell j hj)

theorem Rep.bump (hx : b.data (b.w % N) = x) : Rep N W (b.bump W) k (l ++ [x]) where
  r_eq := h.r_eq
  w_eq := by
    show (b.w + 1) % W = _
    rw [h.w_eq, Nat.mod_add_mod, List.length_append, List.length_singleton, Nat.add_assoc]
  length_le := by
    rw [List.length_append, List.length_singleton]
    exact hroom
  cell j hj := by
    rw [List.length_append, List.length_singleton] at hj
    show b.data ((k + j) % N) = _
    by_cases hlast : j = l.length
    · subst hlast
      rw [List.getElem_concat_length rfl, ← hx, h.w_eq, Nat.mod_mod_of_dvd _ hdvd]
    · rw [List.getElem_append_left (by omega)]
      exact h.cell j (by omega)

theorem Rep.put : Rep N W (b.put N W x) k (l ++ [x]) :=
  (h.store hdvd hroom).bump hdvd hroom (Function.update_self ..)

end

theorem Rep.head (h : Rep N W b k (x :: l)) (hdvd : N ∣ W) : b.data (b.r % N) = x := by
  have := h.cell 0 (Nat.succ_pos _)
  rwa [Nat.add_zero, ← Nat.mod_mod_of_dvd k hdvd, ← h.r_eq] at this

theorem Rep.take (h : Rep N W b k (x :: l)) : Rep N W (b.take W) (k + 1) l where
  r_eq := by
    show (b.r + 1) % W = _
    rw [h.r_eq, Nat.mod_add_mod]
  w_eq := by
    show b.w = _
    rw [h.w_eq, List.length_cons]
    congr 1
    omega
  length_le := (Nat.le_succ _).trans h.length_le
  cell j hj := by
    have := h.cell (j + 1) (Nat.succ_lt_succ hj)
    rwa [List.getElem_cons_succ, Nat.add_comm j 1, ← Nat.add_assoc] at this

theorem mod_pred_succ (hW : 0 < W) (n : Nat) : ((n + 1) % W + W - 1) % W = n % W := by
  rw [Nat.add_sub_assoc hW, Nat.mod_add_mod, Nat.add_assoc, Nat.add_sub_cancel' hW, Nat.add_mod_right]

theorem Rep.unput_w (h : Rep N W b k (l ++ [x])) (hW : 0 < W) :
    (b.w + W - 1) % W = (k + l.length) % W := by
  rw [h.w_eq, List.length_append, List.length_singleton, ← Nat.add_assoc, mod_pred_succ hW]

theorem Rep.unput (h : Rep N W b k (l ++ [x])) (hW : 0 < W) : Rep N W (b.unput W) k l where
  r_eq := h.r_eq
  w_eq := h.unput_w hW
  length_le := by
    have := h.length_le
    rw [List.length_append] at this
    omega
  cell j hj := by
    have := h.cell j (by rw [List.length_append]; omega)
    rwa [List.getElem_append_left hj] at this

theorem Rep.last (h : Rep N W b k (l ++ [x])) (hW : 0 < W) (hdvd : N ∣ W) :
    b.data ((b.w + W - 1) % W % N) = x := by
  have hcell := h.cell l.length (by rw [List.length_append, List.length_singleton]; omega)
  rw [List.getElem_concat_length rfl] at hcell
  rw [h.unput_w hW, Nat.mod_mod_of_dvd _ hdvd]
  exact hcell

end RingBuffer

end Xv6Freezer.Lib

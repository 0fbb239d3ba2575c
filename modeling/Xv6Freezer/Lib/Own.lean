import Mathlib

/-! # Ownership of cells

`Moves A A'` says that an operation that owned the multiset `A` of cells ends up owning `A'`: no cell is lost
or made up, and every cell that was neither owned nor free has the content it had. What a larger operation
owns besides is a **frame**.
-/

namespace Xv6Freezer.Lib

variable {σ ι κ : Type}

/-- A state seen as cells, with a preorder for what operations do to the rest of it. -/
structure Heap (σ ι κ : Type) where
  free : σ → Multiset ι
  cell : σ → ι → κ
  /-- How the rest of the state may develop. -/
  Le : σ → σ → Prop
  refl : ∀ s, Le s s
  trans : ∀ {s s' s''}, Le s s' → Le s' s'' → Le s s''

namespace Heap

variable {H : Heap σ ι κ} {A A' A'' C : Multiset ι} {s s' s'' : σ}

/-- An operation that owned the cells `A` and owns `A'` leads from `s` to `s'`. -/
structure Moves (H : Heap σ ι κ) (A A' : Multiset ι) (s s' : σ) : Prop where
  /-- Cells are neither lost nor made up. -/
  cells : H.free s' + A' = H.free s + A
  /-- Cells that are neither owned nor free keep their content. -/
  same : ∀ i, i ∉ H.free s + A → H.cell s' i = H.cell s i
  le : H.Le s s'

theorem Moves.refl (H : Heap σ ι κ) (A : Multiset ι) (s : σ) : H.Moves A A s s :=
  ⟨rfl, fun _ _ => rfl, H.refl s⟩

theorem Moves.trans (h : H.Moves A A' s s') (h' : H.Moves A' A'' s' s'') : H.Moves A A'' s s'' where
  cells := h'.cells.trans h.cells
  same i hi := by
    have hi' : i ∉ H.free s' + A' := by rwa [h.cells]
    rw [h'.same i hi', h.same i hi]
  le := H.trans h.le h'.le

theorem Moves.frame (C : Multiset ι) (h : H.Moves A A' s s') : H.Moves (A + C) (A' + C) s s' where
  cells := by rw [← add_assoc, ← add_assoc, h.cells]
  same i hi := by
    refine h.same i fun hmem => hi ?_
    rw [← add_assoc]
    exact Multiset.mem_add.2 (.inl hmem)
  le := h.le

theorem Moves.congr {B B' : Multiset ι} (h : H.Moves A A' s s') (hA : A = B) (hA' : A' = B') :
    H.Moves B B' s s' := hA ▸ hA' ▸ h

theorem Moves.nodup (h : H.Moves A A' s s') (hn : (H.free s + A).Nodup) :
    (H.free s' + A').Nodup := by
  rwa [h.cells]

theorem Moves.forall (h : H.Moves A A' s s') {P : ι → Prop} (hp : ∀ i ∈ H.free s + A, P i) :
    ∀ i ∈ H.free s' + A', P i := by
  rwa [h.cells]

theorem notMem_of_nodup (hn : (H.free s + (A + C)).Nodup) {i : ι} (hi : i ∈ C) :
    i ∉ H.free s + A := by
  rw [← add_assoc] at hn
  exact fun hmem => (Multiset.disjoint_left.1 (Multiset.nodup_add.1 hn).2.2) hmem hi

theorem Moves.same_frame (h : H.Moves A A' s s') (hn : (H.free s + (A + C)).Nodup) :
    ∀ i ∈ C, H.cell s' i = H.cell s i :=
  fun i hi => h.same i (notMem_of_nodup hn hi)

end Heap

end Xv6Freezer.Lib

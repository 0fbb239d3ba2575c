import Mathlib

/-! # Forests as parent links

A forest is given by the link from each node to its parent. A node with a parent reaches the root, when the
links go down in some rank and only the root has none; and the depth-first order of the nodes below a root.
-/

namespace Xv6Freezer.Lib

variable {α : Type*}

def climb (parent : α → Option α) : Nat → α → Option α
  | 0, i => some i
  | k + 1, i => (parent i).bind (climb parent k)

variable {parent : α → Option α} {rank : α → Nat} {root i : α} {S : Finset α}

/-- **No cycle, no orphan**: from a node of the finite set `S` the links lead to the root. -/
theorem exists_climb_root (hS : ∀ i p, parent i = some p → i ∈ S)
    (hrank : ∀ i p, parent i = some p → rank p < rank i)
    (hup : ∀ i p, parent i = some p → p = root ∨ ∃ p', parent p = some p')
    (hi : ∃ p, parent i = some p) : ∃ k ≤ S.card, climb parent k i = some root := by
  -- the links used lie in the part of `S` up to the rank of the node
  suffices hsuff : ∃ k ≤ (S.filter fun j => rank j ≤ rank i).card, climb parent k i = some root by
    obtain ⟨k, hk, hc⟩ := hsuff
    exact ⟨k, hk.trans (Finset.card_filter_le S _), hc⟩
  induction hr : rank i using Nat.strong_induction_on generalizing i with
  | _ n ih =>
    subst hr
    obtain ⟨p, hp⟩ := hi
    have hmem : i ∈ S.filter fun j => rank j ≤ rank i :=
      Finset.mem_filter.mpr ⟨hS i p hp, le_rfl⟩
    rcases hup i p hp with rfl | hp'
    · exact ⟨1, Finset.card_pos.mpr ⟨i, hmem⟩, by simp [climb, hp]⟩
    · have hlt := hrank i p hp
      obtain ⟨k, hk, hc⟩ := ih (rank p) hlt hp' rfl
      have hcard : (S.filter fun j => rank j ≤ rank p).card <
          (S.filter fun j => rank j ≤ rank i).card := by
        refine Finset.card_lt_card (Finset.ssubset_iff_of_subset ?_ |>.mpr ⟨i, hmem, ?_⟩)
        · intro j hj
          obtain ⟨hjS, hj⟩ := Finset.mem_filter.mp hj
          exact Finset.mem_filter.mpr ⟨hjS, hj.trans hlt.le⟩
        · intro hi
          exact absurd (Finset.mem_filter.mp hi).2 (Nat.not_le.mpr hlt)
      exact ⟨k + 1, Nat.succ_le_of_lt (hk.trans_lt hcard), by simp [climb, hp, hc]⟩

/-! ## Climbing -/

theorem climb_add (a b : Nat) (i : α) :
    climb parent (a + b) i = (climb parent a i).bind (climb parent b) := by
  induction a generalizing i with
  | zero => rw [Nat.zero_add]; rfl
  | succ a ih =>
    rw [Nat.succ_add]
    cases hp : parent i with
    | none => simp only [climb, hp, Option.bind_none]
    | some p => simp only [climb, hp, Option.bind_some, ih]

theorem climb_succ_eq {k : Nat} {p : α} :
    climb parent (k + 1) i = some p ↔ ∃ j, climb parent k i = some j ∧ parent j = some p := by
  rw [climb_add, Option.bind_eq_some_iff]
  refine exists_congr fun j => and_congr_right fun _ => ?_
  rw [climb, Option.bind_eq_some_iff]
  constructor
  · rintro ⟨q, hq, h⟩
    rw [hq, show q = p from Option.some.inj h]
  · exact fun h => ⟨p, h, rfl⟩

theorem rank_of_climb (hrank : ∀ i p, parent i = some p → rank p < rank i) {k : Nat} {p : α}
    (h : climb parent k i = some p) : rank p + k ≤ rank i := by
  induction k generalizing p with
  | zero => rw [show i = p from Option.some.inj h]; exact le_rfl
  | succ k ih =>
    obtain ⟨j, hj, hp⟩ := climb_succ_eq.mp h
    have := ih hj
    have := hrank j p hp
    omega

theorem climb_unique (hrank : ∀ i p, parent i = some p → rank p < rank i) {k l : Nat} {p : α}
    (hk : climb parent k i = some p) (hl : climb parent l i = some p) : k = l := by
  wlog hle : k ≤ l generalizing k l
  · exact (this hl hk (by omega)).symm
  · obtain ⟨m, rfl⟩ := Nat.exists_eq_add_of_le hle
    rw [climb_add, hk, Option.bind_some] at hl
    have := rank_of_climb hrank hl
    omega

/-! ## Depth-first order -/

/-- The nodes below `p` in depth-first order, each with its depth when `p` has depth `d`. -/
inductive Preorder (children : α → List α) : α → Nat → List (α × Nat) → Prop
  | node {p : α} {d : Nat} (below : α → List (α × Nat))
      (h : ∀ i ∈ children p, Preorder children i (d + 1) (below i)) :
      Preorder children p d ((p, d) :: (children p).flatMap below)

variable {children : α → List α} {p : α} {d : Nat} {vs : List (α × Nat)}

/-- **The order lists** the nodes from which the links lead to `p`, with the number of links. -/
theorem Preorder.mem_iff (hch : ∀ i p, i ∈ children p ↔ parent i = some p)
    (h : Preorder children p d vs) (i : α) (e : Nat) :
    (i, e) ∈ vs ↔ ∃ k, e = d + k ∧ climb parent k i = some p := by
  induction h generalizing i e with
  | @node p d below hbelow ih =>
    rw [List.mem_cons, List.mem_flatMap]
    constructor
    · rintro (hi | ⟨j, hj, hi⟩)
      · obtain ⟨rfl, rfl⟩ := Prod.mk.inj hi
        exact ⟨0, rfl, rfl⟩
      · obtain ⟨k, rfl, hk⟩ := (ih j hj i e).mp hi
        exact ⟨k + 1, by omega, climb_succ_eq.mpr ⟨j, hk, (hch j p).mp hj⟩⟩
    · rintro ⟨k, rfl, hk⟩
      cases k with
      | zero => exact .inl (by rw [show i = p from Option.some.inj hk]; rfl)
      | succ k =>
        obtain ⟨j, hj, hp⟩ := climb_succ_eq.mp hk
        have hjc := (hch j p).mpr hp
        exact .inr ⟨j, hjc, (ih j hjc i _).mpr ⟨k, by omega, hj⟩⟩

theorem Preorder.nodup (hch : ∀ i p, i ∈ children p ↔ parent i = some p)
    (hnd : ∀ p, (children p).Nodup) (hrank : ∀ i p, parent i = some p → rank p < rank i)
    (h : Preorder children p d vs) : (vs.map Prod.fst).Nodup := by
  induction h with
  | @node p d below hbelow ih =>
    -- the nodes below a child are those from which the links lead to it
    have hmem : ∀ j ∈ children p, ∀ i ∈ (below j).map Prod.fst, ∃ k, climb parent k i = some j := by
      intro j hj i hi
      obtain ⟨⟨i, e⟩, he, rfl⟩ := List.mem_map.mp hi
      obtain ⟨k, -, hk⟩ := ((hbelow j hj).mem_iff hch i e).mp he
      exact ⟨k, hk⟩
    rw [List.map_cons, List.map_flatMap, List.nodup_cons, List.nodup_flatMap]
    refine ⟨fun hp => ?_, fun j hj => ih j hj, ?_⟩
    · obtain ⟨j, hj, hi⟩ := List.mem_flatMap.mp hp
      obtain ⟨k, hk⟩ := hmem j hj p hi
      have := rank_of_climb hrank hk
      have := hrank j p ((hch j p).mp hj)
      omega
    · refine (hnd p).imp_of_mem fun {j j'} hj hj' hne => List.disjoint_left.mpr fun i hi hi' => ?_
      obtain ⟨k, hk⟩ := hmem j hj i hi
      obtain ⟨k', hk'⟩ := hmem j' hj' i hi'
      have hkk : k + 1 = k' + 1 := climb_unique hrank
        (climb_succ_eq.mpr ⟨j, hk, (hch j p).mp hj⟩) (climb_succ_eq.mpr ⟨j', hk', (hch j' p).mp hj'⟩)
      rw [Nat.succ.inj hkk, hk'] at hk
      exact hne (Option.some.inj hk).symm

end Xv6Freezer.Lib

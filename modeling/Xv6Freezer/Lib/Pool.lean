import Mathlib

/-! # A pool of resources

`N` resources that are taken and given back one at a time. `Pool` says that the table of free ones and the
lists of what every party has taken agree.
-/

namespace Xv6Freezer.Lib

open Function

variable {ι : Type} {N i : Nat} {free : Nat → Bool} {owns : ι → List Nat} {t : ι}
  {l : List Nat}

/-- Every resource is free or owned by exactly one party. -/
structure Pool (N : Nat) (free : Nat → Bool) (owns : ι → List Nat) : Prop where
  owner : ∀ i < N, free i = false → ∃ t, i ∈ owns t
  /-- What is owned is a resource, and not free. -/
  taken : ∀ t, ∀ i ∈ owns t, i < N ∧ free i = false
  nodup : ∀ t, (owns t).Nodup
  disjoint : ∀ t t' i, i ∈ owns t → i ∈ owns t' → t = t'

namespace Pool

theorem empty (hfree : ∀ i < N, free i = true) : Pool N free fun _ : ι => [] where
  owner i hi hf := absurd (hfree i hi) (by simp [hf])
  taken _ _ h := absurd h List.not_mem_nil
  nodup _ := List.nodup_nil
  disjoint _ _ _ h := absurd h List.not_mem_nil

theorem free_eq (h : Pool N free owns) (hi : i ∈ owns t) : free i = false := (h.taken t i hi).2

variable [DecidableEq ι]

theorem take (h : Pool N free owns) (hi : i < N) (hf : free i = true) :
    Pool N (update free i false) (update owns t (owns t ++ [i])) := by
  have hnew : ∀ t', i ∉ owns t' := fun t' hm => by
    rw [(h.taken t' i hm).2] at hf
    cases hf
  have hmem : ∀ t' j, j ∈ update owns t (owns t ++ [i]) t' → j ∈ owns t' ∨ t' = t ∧ j = i := by
    intro t' j hj
    by_cases ht : t' = t
    · subst ht
      rw [update_self] at hj
      simpa using hj
    · rw [update_of_ne ht] at hj
      exact .inl hj
  refine ⟨fun j hj hf' => ?_, fun t' j hj => ?_, fun t' => ?_, fun t1 t2 j h1 h2 => ?_⟩
  · by_cases hji : j = i
    · exact ⟨t, by rw [hji, update_self]; simp⟩
    · rw [update_of_ne hji] at hf'
      obtain ⟨t', ht'⟩ := h.owner j hj hf'
      refine ⟨t', ?_⟩
      by_cases ht : t' = t
      · rw [ht, update_self]; exact List.mem_append_left _ (ht ▸ ht')
      · rwa [update_of_ne ht]
  · rcases hmem t' j hj with hj | ⟨-, rfl⟩
    · refine ⟨(h.taken t' j hj).1, ?_⟩
      rw [update_of_ne (fun e : j = i => hnew t' (e ▸ hj))]
      exact (h.taken t' j hj).2
    · exact ⟨hi, update_self ..⟩
  · by_cases ht : t' = t
    · rw [ht, update_self]
      exact List.nodup_append.mpr ⟨h.nodup t, List.nodup_singleton i, fun a ha b hb e =>
        hnew t (List.mem_singleton.mp hb ▸ e ▸ ha)⟩
    · rw [update_of_ne ht]; exact h.nodup t'
  · rcases hmem t1 j h1 with h1 | ⟨e1, rfl⟩ <;> rcases hmem t2 j h2 with h2 | ⟨e2, e⟩
    · exact h.disjoint t1 t2 j h1 h2
    · exact absurd (e ▸ h1) (hnew t1)
    · exact absurd h2 (hnew t2)
    · rw [e1, e2]

theorem give (h : Pool N free owns) (ho : owns t = i :: l) :
    Pool N (update free i true) (update owns t l) := by
  have hi : i ∈ owns t := by rw [ho]; exact .head _
  have hil : i ∉ l := (List.nodup_cons.mp (ho ▸ h.nodup t)).1
  have hmem : ∀ t' j, j ∈ update owns t l t' → j ∈ owns t' ∧ j ≠ i := by
    intro t' j hj
    by_cases ht : t' = t
    · subst ht
      rw [update_self] at hj
      exact ⟨by rw [ho]; exact .tail _ hj, fun e => hil (e ▸ hj)⟩
    · rw [update_of_ne ht] at hj
      exact ⟨hj, fun e => ht (h.disjoint t' t i (e ▸ hj) hi)⟩
  refine ⟨fun j hj hf => ?_, fun t' j hj => ?_, fun t' => ?_, fun t1 t2 j h1 h2 =>
    h.disjoint t1 t2 j (hmem _ _ h1).1 (hmem _ _ h2).1⟩
  · have hji : j ≠ i := fun e => by
      rw [e, update_self] at hf
      cases hf
    rw [update_of_ne hji] at hf
    obtain ⟨t', ht'⟩ := h.owner j hj hf
    refine ⟨t', ?_⟩
    by_cases ht : t' = t
    · rw [ht, update_self]
      rw [ht, ho] at ht'
      exact (List.mem_cons.mp ht').resolve_left hji
    · rwa [update_of_ne ht]
  · obtain ⟨hj, hji⟩ := hmem t' j hj
    rw [update_of_ne hji]
    exact h.taken t' j hj
  · by_cases ht : t' = t
    · rw [ht, update_self]
      exact (List.nodup_cons.mp (ho ▸ h.nodup t)).2
    · rw [update_of_ne ht]; exact h.nodup t'

end Pool

end Xv6Freezer.Lib

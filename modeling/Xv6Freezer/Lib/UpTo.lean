import Xv6Freezer.Lib.Bytes

/-! # Ranges with missing elements

`upTo f a n` lists what a loop finds that goes from `a` on until it has seen `n` addresses or comes to the
first one that is missing. `Bytes.put` stores bytes at a list of addresses.
-/

namespace Xv6Freezer.Lib

open Function

variable {α : Type} {f : Nat → Option α} {a n k : Nat}

/-- The values of `f` at `a, a + 1, …`, at most `n`, up to the first address that has none. -/
def upTo (f : Nat → Option α) : Nat → Nat → List α
  | _, 0 => []
  | a, n + 1 =>
    match f a with
    | none => []
    | some x => x :: upTo f (a + 1) n

@[simp] theorem upTo_zero : upTo f a 0 = [] := rfl

theorem upTo_of_none (h : f a = none) : upTo f a n = [] := by
  cases n with
  | zero => rfl
  | succ n => rw [upTo, h]

theorem upTo_succ_of_some {x : α} (h : f a = some x) : upTo f a (n + 1) = x :: upTo f (a + 1) n := by
  rw [upTo, h]

/-- **The first piece**, if nothing is missing there. -/
theorem upTo_add {g : Nat → α} (h : ∀ i < n, f (a + i) = some (g i)) :
    upTo f a (n + k) = (List.range n).map g ++ upTo f (a + n) k := by
  induction n generalizing a g with
  | zero => rw [Nat.zero_add, Nat.add_zero, List.range_zero, List.map_nil, List.nil_append]
  | succ n ih =>
    have h0 : f a = some (g 0) := h 0 (Nat.succ_pos n)
    have hrest : ∀ i < n, f (a + 1 + i) = some (g (i + 1)) := fun i hi => by
      rw [Nat.add_assoc, Nat.add_comm 1 i]
      exact h (i + 1) (Nat.succ_lt_succ hi)
    rw [Nat.succ_add, upTo_succ_of_some h0, ih hrest, List.range_succ_eq_map, List.map_cons,
      List.map_map, Nat.add_assoc, Nat.add_comm 1 n]
    rfl

theorem length_upTo_le (f : Nat → Option α) (a n : Nat) : (upTo f a n).length ≤ n := by
  induction n generalizing a with
  | zero => exact Nat.le_refl 0
  | succ n ih =>
    rw [upTo]
    split
    · exact Nat.zero_le _
    · exact Nat.succ_le_succ (ih _)

theorem getElem?_upTo (hk : k < (upTo f a n).length) : (upTo f a n)[k]? = f (a + k) := by
  induction n generalizing a k with
  | zero => exact absurd hk (Nat.not_lt_zero k)
  | succ n ih =>
    cases h : f a with
    | none =>
      rw [upTo_of_none h] at hk
      exact absurd hk (Nat.not_lt_zero k)
    | some x =>
      rw [upTo_succ_of_some h] at hk ⊢
      cases k with
      | zero => rw [List.getElem?_cons_zero, Nat.add_zero, h]
      | succ k =>
        rw [List.getElem?_cons_succ, ih (Nat.lt_of_succ_lt_succ hk), Nat.add_assoc, Nat.add_comm 1 k]

theorem upTo_stop (h : (upTo f a n).length < n) : f (a + (upTo f a n).length) = none := by
  induction n generalizing a with
  | zero => exact absurd h (Nat.not_lt_zero _)
  | succ n ih =>
    cases hf : f a with
    | none => rw [upTo_of_none hf, List.length_nil, Nat.add_zero, hf]
    | some x =>
      rw [upTo_succ_of_some hf, List.length_cons] at h ⊢
      rw [Nat.add_comm _ 1, ← Nat.add_assoc]
      exact ih (Nat.lt_of_succ_lt_succ h)

theorem length_upTo_eq_iff : (upTo f a n).length = n ↔ ∀ i < n, (f (a + i)).isSome := by
  refine ⟨fun h i hi => ?_, fun h => ?_⟩
  · have hlt : i < (upTo f a n).length := h.symm ▸ hi
    rw [← getElem?_upTo hlt, List.getElem?_eq_getElem hlt]
    rfl
  · by_contra hne
    have hlt := Nat.lt_of_le_of_ne (length_upTo_le f a n) hne
    have hsome := h _ hlt
    rw [upTo_stop hlt] at hsome
    cases hsome

namespace Bytes

variable {m : Bytes}

def put (m : Bytes) (ps : List (Nat × UInt8)) : Bytes := ps.foldl (fun m p => update m p.1 p.2) m

theorem put_append (ps qs : List (Nat × UInt8)) : m.put (ps ++ qs) = (m.put ps).put qs :=
  List.foldl_append

theorem put_of_notMem {ps : List (Nat × UInt8)} {x : Nat} (h : x ∉ ps.map Prod.fst) :
    m.put ps x = m x := by
  induction ps generalizing m with
  | nil => rfl
  | cons p ps ih =>
    rw [List.map_cons, List.mem_cons, not_or] at h
    show Bytes.put (update m p.1 p.2) ps x = m x
    rw [ih h.2, update_of_ne h.1]

theorem put_of_mem {ps : List (Nat × UInt8)} {p : Nat × UInt8} (hn : (ps.map Prod.fst).Nodup)
    (hp : p ∈ ps) : m.put ps p.1 = p.2 := by
  induction ps generalizing m with
  | nil => exact absurd hp List.not_mem_nil
  | cons q ps ih =>
    rw [List.map_cons, List.nodup_cons] at hn
    show Bytes.put (update m q.1 q.2) ps p.1 = p.2
    rcases List.mem_cons.mp hp with rfl | hp
    · rw [put_of_notMem hn.1, update_self]
    · exact ih hn.2 hp

/-- **Bytes at different addresses.** -/
theorem put_map {g : Nat → Nat} {src : List UInt8} {i : Nat}
    (hinj : ∀ i < src.length, ∀ j < src.length, g i = g j → i = j) (hi : i < src.length) :
    m.put (((List.range src.length).map g).zip src) (g i) = src.getD i 0 := by
  have hfst : (((List.range src.length).map g).zip src).map Prod.fst = (List.range src.length).map g :=
    List.map_fst_zip (by rw [List.length_map, List.length_range])
  have hmem : (g i, src.getD i 0) ∈ ((List.range src.length).map g).zip src := by
    refine List.mem_iff_getElem?.mpr ⟨i, List.getElem?_zip_eq_some.mpr ⟨?_, ?_⟩⟩
    · rw [List.getElem?_map, List.getElem?_range hi]
      rfl
    · rw [List.getD_eq_getElem?_getD, List.getElem?_eq_getElem hi]
      rfl
  refine put_of_mem ?_ hmem
  rw [hfst]
  exact List.nodup_range.map_on fun i hi j hj => hinj i (List.mem_range.mp hi) j (List.mem_range.mp hj)

/-- **Bytes at consecutive addresses** fill a range. -/
theorem put_range (m : Bytes) (a : Nat) (src : List UInt8) :
    m.put (((List.range src.length).map (a + ·)).zip src) =
      m.fill a src.length fun i => src.getD i 0 := by
  induction src generalizing a m with
  | nil =>
    funext x
    show m x = _
    rw [fill, if_neg (by simp)]
  | cons y src ih =>
    have hmap : (List.map Nat.succ (List.range src.length)).map (a + ·) =
        (List.range src.length).map (a + 1 + ·) := by
      rw [List.map_map]
      refine List.map_congr_left fun i _ => ?_
      show a + (i + 1) = a + 1 + i
      omega
    rw [List.length_cons, List.range_succ_eq_map, List.map_cons, hmap, List.zip_cons_cons]
    show Bytes.put (update m (a + 0) y) _ = _
    rw [ih]
    funext x
    unfold fill
    by_cases hx : x = a
    · subst hx
      rw [if_neg (by omega), if_pos (by omega), Nat.add_zero, update_self, Nat.sub_self]
      rfl
    · by_cases hr : a + 1 ≤ x ∧ x < a + 1 + src.length
      · obtain ⟨j, rfl⟩ : ∃ j, x = a + 1 + j := ⟨x - (a + 1), by omega⟩
        rw [if_pos hr, if_pos (by omega), Nat.add_sub_cancel_left,
          show a + 1 + j - a = j + 1 by omega]
        rfl
      · rw [if_neg hr, if_neg (by omega), Nat.add_zero, update_of_ne hx]

end Bytes

end Xv6Freezer.Lib

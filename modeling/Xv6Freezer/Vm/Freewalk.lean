import Xv6Freezer.Vm.Map

/-! # `freewalk`

Once a page table maps nothing, `freewalk` gives back each of its pages, once (`freewalk_spec`). -/

namespace Xv6Freezer.Vm

open Lib

variable {L : Layout} {C : Multiset Nat} {b : Bytes} {m m' : Mem} {l pg c i v : Nat}

/-! ## Entries of a part of the table -/

theorem entry_add (b : Bytes) (l pg k v : Nat) :
    entry b l pg (k * 512 ^ (l + 1) + v) = entry b l pg v := by
  induction l generalizing pg k with
  | zero => rw [entry, entry, Nat.zero_add, pow_one, Nat.mul_add_mod']
  | succ l ih =>
    have hmul : k * 512 ^ (l + 2) = k * 512 * 512 ^ (l + 1) := by rw [pow_succ' 512 (l + 1), Nat.mul_assoc]
    have hdigit : (k * 512 ^ (l + 2) + v) / 512 ^ (l + 1) % 512 = v / 512 ^ (l + 1) % 512 := by
      rw [hmul, Nat.add_comm, Nat.add_mul_div_right _ _ (by positivity), Nat.add_mul_mod_self_right]
    rw [entry, entry, hdigit]
    split
    · rw [hmul]
      exact ih _ _
    · rfl

theorem entry_child (hw : word b pg i = mkPte c PTE_V) (hc : IsPage c) (hi : i < 512)
    (h : ∀ v, entry b (l + 1) pg v &&& PTE_V = 0) (v : Nat) : entry b l c v &&& PTE_V = 0 := by
  have hr : v % 512 ^ (l + 1) < 512 ^ (l + 1) := Nat.mod_lt _ (by positivity)
  have hdigit : (i * 512 ^ (l + 1) + v % 512 ^ (l + 1)) / 512 ^ (l + 1) % 512 = i := by
    rw [Nat.add_comm, Nat.add_mul_div_right _ _ (by positivity), Nat.div_eq_of_lt hr, Nat.zero_add,
      Nat.mod_eq_of_lt hi]
  have hv := h (i * 512 ^ (l + 1) + v % 512 ^ (l + 1))
  rw [entry_of_pointer (by rw [hdigit, hw]) hc, entry_add] at hv
  rwa [← Nat.div_add_mod v (512 ^ (l + 1)), Nat.mul_comm, entry_add]

def belowAll (b : Bytes) (l pg : Nat) (is : List Nat) : Multiset Nat := (is.map (below b l pg)).sum

theorem belowAll_cons (is : List Nat) :
    belowAll b l pg (i :: is) = below b l pg i + belowAll b l pg is := by
  rw [belowAll, List.map_cons, List.sum_cons, belowAll]

theorem belowAll_append (is js : List Nat) :
    belowAll b l pg (is ++ js) = belowAll b l pg is + belowAll b l pg js := by
  rw [belowAll, List.map_append, List.sum_append, belowAll, belowAll]

theorem below_le_belowAll {is : List Nat} (hi : i ∈ is) :
    below b l pg i ≤ belowAll b l pg is := by
  induction is with
  | nil => cases hi
  | cons j is ih =>
    rw [belowAll_cons]
    rcases List.mem_cons.mp hi with rfl | hi
    · exact Multiset.le_add_right _ _
    · exact (ih hi).trans (Multiset.le_add_left _ _)

/-- `freewalk` with the entries `is` left: the parts below the others are free. -/
structure Freeing (m : Mem) (l pg : Nat) (is : List Nat) (m' : Mem) : Prop where
  suffix : ∃ js, js ++ is = List.range 512 ∧
    ∃ ts : List Nat, m'.freelist = ts ++ m.freelist ∧ (ts : Multiset Nat) = belowAll m.bytes l pg js
  moves : heap.Moves (tables m.bytes (l + 1) pg) ({pg} + belowAll m.bytes l pg is) m m'
  word : ∀ i ∈ is, word m'.bytes pg i = word m.bytes pg i
  same : ∀ i ∈ is, ∀ x ∈ below m.bytes l pg i, SamePage m.bytes m'.bytes x

theorem Freeing.start (m : Mem) (l pg : Nat) : Freeing m l pg (List.range 512) m := by
  refine ⟨⟨[], List.nil_append _, [], (List.nil_append _).symm, ?_⟩, ?_, fun _ _ => rfl,
    fun _ _ _ _ _ _ => rfl⟩
  · rw [belowAll, List.map_nil, List.sum_nil, Multiset.coe_nil]
  · rw [tables_succ, entries_eq_sum, ← belowAll]
    exact .refl _ _ _

variable {is : List Nat}

theorem Freeing.skip (h : Freeing m l pg (i :: is) m') (hi : below m.bytes l pg i = 0) :
    Freeing m l pg is m' := by
  obtain ⟨js, hjs, ts, hts, hsum⟩ := h.suffix
  refine ⟨⟨js ++ [i], by rw [List.append_assoc]; exact hjs, ts, hts, ?_⟩, ?_,
    fun j hj => h.word j (.tail _ hj), fun j hj => h.same j (.tail _ hj)⟩
  · rw [belowAll_append, belowAll_cons, hi, hsum]
    simp [belowAll]
  · have := h.moves
    rwa [belowAll_cons, hi, zero_add] at this

theorem Freeing.owns (h : Freeing m l pg is m') (ho : Owns L (tables m.bytes (l + 1) pg + C) m) :
    Owns L ({pg} + belowAll m.bytes l pg is + C) m' := ho.moves (h.moves.frame C)

theorem Freeing.child {m1 : Mem} (h : Freeing m l pg (i :: is) m')
    (hs : Shape m.bytes (l + 1) pg) (ho : Owns L (tables m.bytes (l + 1) pg + C) m)
    (hi : below m.bytes l pg i = tables m'.bytes l c) (hmv : heap.Moves (tables m'.bytes l c) 0 m' m1)
    {ts : List Nat} (hts : m1.freelist = ts ++ m'.freelist)
    (hsum : (ts : Multiset Nat) = tables m'.bytes l c) :
    Freeing m l pg is { m1 with bytes := m1.bytes.store64 (pg + 8 * i) 0 } := by
  obtain ⟨js, hjs, ts', hts', hsum'⟩ := h.suffix
  have hnd : (i :: is).Nodup := (hjs ▸ List.nodup_range (n := 512) : (js ++ i :: is).Nodup).of_append_right
  have hi512 : ∀ j ∈ i :: is, j < 512 := fun j hj => by
    have : j ∈ List.range 512 := hjs ▸ List.mem_append_right _ hj
    exact List.mem_range.mp this
  have hne : ∀ j ∈ is, j ≠ i := fun j hj e => (List.nodup_cons.mp hnd).1 (e ▸ hj)
  -- the root and what is below the other entries are a frame of the recursive call
  have hown : Owns L (tables m'.bytes l c + ({pg} + belowAll m.bytes l pg is + C)) m' := by
    have := h.owns ho
    rw [belowAll_cons, hi] at this
    have e : {pg} + (tables m'.bytes l c + belowAll m.bytes l pg is) + C =
        tables m'.bytes l c + ({pg} + belowAll m.bytes l pg is + C) := by abel
    rwa [e] at this
  have hframe := hown.same hmv
  have hroot : SamePage m'.bytes m1.bytes pg := hframe pg (by simp)
  have hp := hs.isPage
  have hstore : heap.Moves {pg} {pg} m1 { m1 with bytes := m1.bytes.store64 (pg + 8 * i) 0 } :=
    moves_bytes fun y hy hy' => samePage_store hp hy (fun e => hy' (by simp [e])) (hi512 i (.head _))
  refine ⟨⟨js ++ [i], by rw [List.append_assoc]; exact hjs, ts ++ ts', ?_, ?_⟩, ?_, fun j hj => ?_,
    fun j hj x hx => ?_⟩
  · show m1.freelist = _
    rw [hts, hts', List.append_assoc]
  · rw [← Multiset.coe_add, hsum, hsum', belowAll_append, belowAll_cons, hi]
    simp only [belowAll, List.map_nil, List.sum_nil, add_zero]
    exact add_comm _ _
  · have h1 := h.moves
    rw [belowAll_cons, hi] at h1
    have h2 := hmv.frame ({pg} + belowAll m.bytes l pg is)
    have h3 := hstore.frame (belowAll m.bytes l pg is)
    exact (h1.congr rfl (by abel)).trans (h2.trans (h3.congr (by abel) rfl))
  · rw [word_store_of_ne hp (hne j hj), word_congr hroot (hi512 j (.tail _ hj))]
    exact h.word j (.tail _ hj)
  · have hxall : x ∈ belowAll m.bytes l pg is := Multiset.mem_of_le (below_le_belowAll hj) hx
    have hxC : x ∈ {pg} + belowAll m.bytes l pg is + C :=
      Multiset.mem_add.2 (.inl (Multiset.mem_add.2 (.inr hxall)))
    have hxp := hown.right.isPage_mem hxC
    have hxpg : x ≠ pg := fun e => by
      have hn := hown.right.left.nodup_owned
      rw [e] at hxall
      exact Multiset.disjoint_left.1 (Multiset.nodup_add.1 hn).2.2 (Multiset.mem_singleton_self pg) hxall
    have h1 := h.same j (.tail _ hj) x hx
    have h2 := hframe x hxC
    have h3 := samePage_store (b := m1.bytes) (x := 0) hp hxp.aligned hxpg (hi512 i (.head _))
    exact (h1.trans h2).trans h3

theorem freeRoot_spec {m0 : Mem} {A : Multiset Nat} (ts : List Nat) (ho : Owns L ({pg} + C) m)
    (hmv : heap.Moves A {pg} m0 m) (hts : m.freelist = ts ++ m0.freelist)
    (hsum : {pg} + (ts : Multiset Nat) = A) :
    wp (kfree L pg) (fun _ m' => heap.Moves A 0 m0 m' ∧
      ∃ ts : List Nat, m'.freelist = ts ++ m0.freelist ∧ (ts : Multiset Nat) = A) m := by
  have hkfree : wp (kfree L pg) (fun _ m' => heap.Moves (0 + {pg}) 0 m m' ∧
      m'.freelist = pg :: m.freelist) m := kfree_spec (by rw [zero_add]; exact ho.left)
  refine wp_mono hkfree fun _ m' ⟨hk, hfree⟩ => ?_
  rw [zero_add] at hk
  refine ⟨hmv.trans hk, pg :: ts, by rw [hfree, hts, List.cons_append], ?_⟩
  rw [← Multiset.cons_coe, ← Multiset.singleton_add, hsum]

theorem freewalk_spec (hs : Shape m.bytes l pg) (ho : Owns L (tables m.bytes l pg + C) m)
    (hnone : ∀ v, entry m.bytes l pg v &&& PTE_V = 0) :
    wp (freewalk L (l + 1) pg) (fun _ m' => heap.Moves (tables m.bytes l pg) 0 m m' ∧
      ∃ ts : List Nat, m'.freelist = ts ++ m.freelist ∧ (ts : Multiset Nat) = tables m.bytes l pg) m := by
  induction l generalizing pg m C with
  | zero =>
    rw [freewalk, wp_bind]
    refine wp_mono (wp_forM (I := fun is m' => m' = m ∧ ∀ i ∈ is, i < 512)
      ⟨rfl, fun i hi => List.mem_range.mp hi⟩ fun i is m' h => ?_) fun _ m' h => ?_
    · obtain ⟨rfl, hlt⟩ := h
      have hv : m'.bytes.load64 (pg + 8 * i) &&& PTE_V = 0 := by
        have := hnone i
        rwa [entry, Nat.mod_eq_of_lt (hlt i (.head _))] at this
      rw [wp_bind, wp_load, if_neg (fun h => h.1 hv), if_neg (fun h => h hv), wp_pure]
      exact ⟨rfl, fun j hj => hlt j (.tail _ hj)⟩
    · obtain ⟨rfl, -⟩ := h
      exact freeRoot_spec [] ho (.refl _ _ _) rfl
        (by rw [Multiset.coe_nil, add_zero, tables_zero])
  | succ l ih =>
    rw [freewalk, wp_bind]
    refine wp_mono (wp_forM (I := fun is m' => Freeing m l pg is m') (Freeing.start m l pg)
      fun i is m' hF => ?_) fun _ m' hF => ?_
    · have hi : i < 512 := by
        obtain ⟨js, hjs, -⟩ := hF.suffix
        exact List.mem_range.mp (hjs ▸ List.mem_append_right _ (.head _))
      have hload : m'.bytes.load64 (pg + 8 * i) = word m.bytes pg i := hF.word i (.head _)
      rw [wp_bind, wp_load, hload]
      rcases hs.2 i hi with h0 | ⟨c, hw, hc⟩
      · rw [h0, if_neg (fun h => h.1 (zero_and _)), if_neg (fun h => h (zero_and _)), wp_pure]
        exact hF.skip (below_of_invalid (by rw [h0, zero_and]))
      · rw [hw, if_pos ⟨pointer_and hc.isPage, pointer_perm hc.isPage⟩, wp_bind, PTE2PA_pointer hc.isPage]
        have hbelow := below_of_pointer (l := l) hw hc.isPage
        have hsame : ∀ x ∈ tables m.bytes l c, SamePage m.bytes m'.bytes x := by
          rw [← hbelow]
          exact hF.same i (.head _)
        have hown := hF.owns ho
        rw [belowAll_cons, hbelow, ← tables_congr hsame] at hown
        refine wp_mono (ih (C := {pg} + belowAll m.bytes l pg is + C) (hc.congr hsame) ?_ fun v => ?_)
          fun _ m1 h1 => ?_
        · have e : {pg} + (tables m'.bytes l c + belowAll m.bytes l pg is) + C =
            tables m'.bytes l c + ({pg} + belowAll m.bytes l pg is + C) := by abel
          rwa [e] at hown
        · rw [entry_congr hsame]
          exact entry_child hw hc.isPage hi hnone v
        · obtain ⟨hmv, ts, hts, hsum⟩ := h1
          rw [wp_store]
          exact hF.child hs ho (by rw [hbelow, tables_congr hsame]) hmv hts hsum
    · obtain ⟨js, hjs, ts, hts, hsum⟩ := hF.suffix
      have hown := hF.owns ho
      have hmv := hF.moves
      rw [show belowAll m.bytes l pg [] = 0 from rfl, add_zero] at hown hmv
      refine freeRoot_spec ts hown hmv hts ?_
      rw [hsum, ← List.append_nil js, hjs, tables_succ, entries_eq_sum]
      rfl

end Xv6Freezer.Vm

import Xv6Freezer.Vm.Table

/-! # `walk`, and stores to entries

`walk` without `alloc` only reads. With `alloc` it adds tables and changes no entry; it fails only for lack of
a free page. A store to the address that `walk` found changes one entry of the table and nothing else.
-/

namespace Xv6Freezer.Vm

open Lib Function

variable {b b' : Bytes} {m m' : Mem} {l pg c i j v v' a x va : Nat}

/-! ## Primitives -/

@[simp] theorem wp_load {Q : Nat → Mem → Prop} : wp (load a) Q m ↔ Q (m.bytes.load64 a) m := by
  unfold wp; exact Iff.rfl

@[simp] theorem wp_store {Q : Unit → Mem → Prop} :
    wp (store a x) Q m ↔ Q () { m with bytes := m.bytes.store64 a x } := by
  unfold wp; exact Iff.rfl

@[simp] theorem wp_memset {u : UInt8} {n : Nat} {Q : Unit → Mem → Prop} :
    wp (memset a u n) Q m ↔ Q () { m with bytes := m.bytes.fill a n fun _ => u } := by
  unfold wp; exact Iff.rfl

@[simp] theorem wp_memmove {n : Nat} {Q : Unit → Mem → Prop} :
    wp (memmove a x n) Q m ↔
      Q () { m with bytes := m.bytes.fill a n fun i => m.bytes (x + i) } := by
  unfold wp; exact Iff.rfl

inductive Allocated (m : Mem) (r : Nat) (m' : Mem) : Prop where
  | none (hr : r = 0) (hfree : m'.freelist = m.freelist) (moves : heap.Moves 0 0 m m')
      (why : m.fails ≠ [] ∨ m.freelist = [])
  | page (hr : IsPage r) (hfree : m.freelist = r :: m'.freelist) (moves : heap.Moves 0 {r} m m')

theorem kalloc_spec (hf : ∀ x ∈ heap.free m, IsPage x) :
    wp kalloc (fun r m' => Allocated m r m') m := by
  have hle : heap.Le m { m with fails := m.fails.tail } := ⟨rfl, List.tail_suffix _⟩
  unfold kalloc
  simp only [wp_bind, wp_get]
  cases hl : m.freelist with
  | nil =>
    simp only [wp_bind, wp_set, wp_pure]
    exact .none rfl (by rw [hl]) ⟨by simp [heap, hl], fun _ _ => rfl, hle⟩ (.inr hl)
  | cons r next =>
    have hr : IsPage r := hf r (by simp [heap, hl])
    simp only [wp_ite]
    split
    · rename_i hfail
      simp only [wp_bind, wp_set, wp_pure]
      refine .none rfl hl.symm ⟨by simp [heap, hl], fun _ _ => rfl, hle⟩ (.inl ?_)
      intro hnil
      rw [hnil] at hfail
      cases hfail
    · simp only [wp_bind, wp_set, wp_memset, wp_pure]
      refine .page hr hl ⟨?_, fun x hx => page_of_samePage fun hp => ?_, hle⟩
      · show (next : Multiset Nat) + {r} = m.freelist + 0
        rw [hl, ← Multiset.cons_coe, ← Multiset.singleton_add]
        abel
      · refine samePage_fill_page (f := fun _ => 5) hr hp fun heq => hx ?_
        simp [heap, hl, heq]

variable {L : Layout}

/-- The free pages and the pages `A` are different pages that the allocator manages. -/
structure Owns (L : Layout) (A : Multiset Nat) (m : Mem) : Prop where
  nodup : (heap.free m + A).Nodup
  isPage : ∀ x ∈ heap.free m + A, IsPage x
  end_le : ∀ x ∈ heap.free m + A, L.kernelEnd ≤ x

namespace Owns

variable {A A' C : Multiset Nat}

theorem moves (h : Owns L A m) (hm : heap.Moves A A' m m') : Owns L A' m' :=
  ⟨hm.nodup h.nodup, hm.forall h.isPage, hm.forall h.end_le⟩

theorem mono (h : Owns L C m) (hle : A ≤ C) : Owns L A m := by
  have hle' : heap.free m + A ≤ heap.free m + C := by gcongr
  exact ⟨Multiset.nodup_of_le hle' h.nodup, fun x hx => h.isPage x (Multiset.mem_of_le hle' hx),
    fun x hx => h.end_le x (Multiset.mem_of_le hle' hx)⟩

theorem left (h : Owns L (A + C) m) : Owns L A m := h.mono (Multiset.le_add_right _ _)

theorem right (h : Owns L (A + C) m) : Owns L C m := h.mono (Multiset.le_add_left _ _)

theorem isPage_free (h : Owns L A m) : ∀ x ∈ heap.free m, IsPage x :=
  fun x hx => h.isPage x (Multiset.mem_add.2 (.inl hx))

theorem isPage_mem (h : Owns L A m) (hx : x ∈ A) : IsPage x :=
  h.isPage x (Multiset.mem_add.2 (.inr hx))

theorem same (h : Owns L (A + C) m) (hm : heap.Moves A A' m m') :
    ∀ x ∈ C, SamePage m.bytes m'.bytes x :=
  samePage_of_moves hm h.nodup fun _ hx => h.right.isPage_mem hx

theorem kept (h : Owns L A m) (hm : heap.Moves 0 A' m m') : ∀ x ∈ A, SamePage m.bytes m'.bytes x :=
  same (by rwa [zero_add]) hm

theorem notMem (h : Owns L (A + C) m) (hx : x ∈ C) : x ∉ A := fun hA =>
  Heap.notMem_of_nodup (H := heap) h.nodup hx (Multiset.mem_add.2 (.inr hA))

theorem nodup_owned (h : Owns L A m) : A.Nodup := (Multiset.nodup_add.1 h.nodup).2.1

theorem notMem_of_free (h : Owns L A m) (hx : x ∈ m.freelist) : x ∉ A :=
  Multiset.disjoint_left.1 (Multiset.nodup_add.1 h.nodup).2.2 hx

end Owns

theorem kfree_spec {A : Multiset Nat} (ho : Owns L (A + {pg}) m) :
    wp (kfree L pg) (fun _ m' => heap.Moves (A + {pg}) A m m' ∧ m'.freelist = pg :: m.freelist) m := by
  have hmem : pg ∈ A + {pg} := Multiset.mem_add.2 (.inr (Multiset.mem_singleton_self pg))
  have hp := ho.isPage_mem hmem
  have hal := hp.aligned
  have hlt := hp.lt
  have hend := ho.end_le pg (Multiset.mem_add.2 (.inr hmem))
  have hfree : pg ∉ m.freelist := fun h => ho.notMem_of_free h hmem
  unfold kfree
  rw [if_neg (by omega)]
  simp only [wp_bind, wp_memset, wp_modify]
  refine ⟨⟨?_, fun x hx => page_of_samePage fun hp' => ?_, ?_, List.suffix_refl _⟩, trivial⟩
  · show ((pg :: m.freelist : List Nat) : Multiset Nat) + A = m.freelist + (A + {pg})
    rw [← Multiset.cons_coe, ← Multiset.singleton_add]
    abel
  · refine samePage_fill_page (f := fun _ => 1) hp hp' fun heq => hx ?_
    simp [heq]
  · show (m.doubleFree || decide (pg ∈ m.freelist)) = m.doubleFree
    simp [hfree]

/-! ## A table in which the part below one entry has changed -/

section Rebuild

variable (hs : Shape b (l + 1) pg) (hne : ∀ j < 512, j ≠ i → word b' pg j = word b pg j)
  (hrest : ∀ x ∈ others i (below b l pg), SamePage b b' x)

include hs hne hrest

omit hs hne in
theorem same_of_ne (hj : j < 512) (hji : j ≠ i) (hw : word b pg j = mkPte c PTE_V)
    (hc : IsPage c) : ∀ x ∈ tables b l c, SamePage b b' x := by
  intro x hx
  refine hrest x (mem_others.2 ⟨j, hj, hji, ?_⟩)
  rwa [below_of_pointer hw hc]

theorem others_rebuild : others i (below b' l pg) = others i (below b l pg) := by
  refine others_congr fun j hj hji => ?_
  obtain h0 | ⟨c, hw, hc⟩ := hs.2 j hj
  · rw [below_of_invalid (by rw [hne j hj hji, h0, zero_and]),
      below_of_invalid (by rw [h0, zero_and])]
  · rw [below_of_pointer ((hne j hj hji).trans hw) hc.isPage, below_of_pointer hw hc.isPage]
    exact tables_congr (same_of_ne hrest hj hji hw hc.isPage)

theorem entry_rebuild (hv : v / 512 ^ (l + 1) % 512 ≠ i) :
    entry b' (l + 1) pg v = entry b (l + 1) pg v := by
  have hj := digit_lt v (512 ^ (l + 1))
  obtain h0 | ⟨c, hw, hc⟩ := hs.2 _ hj
  · rw [entry_of_invalid (by rw [hne _ hj hv, h0, zero_and]),
      entry_of_invalid (by rw [h0, zero_and])]
  · rw [entry_of_pointer ((hne _ hj hv).trans hw) hc.isPage, entry_of_pointer hw hc.isPage]
    exact entry_congr (same_of_ne hrest hj hv hw hc.isPage)

theorem shape_rebuild (hw : word b' pg i = mkPte c PTE_V) (hc : Shape b' l c) :
    Shape b' (l + 1) pg := by
  refine ⟨hs.1, fun j hj => ?_⟩
  by_cases hji : j = i
  · subst hji
    exact .inr ⟨c, hw, hc⟩
  · rw [hne j hj hji]
    obtain h0 | ⟨d, hw, hd⟩ := hs.2 j hj
    · exact .inl h0
    · exact .inr ⟨d, hw, hd.congr (same_of_ne hrest hj hji hw hd.isPage)⟩

theorem tables_rebuild (hi : i < 512) (hw : word b' pg i = mkPte c PTE_V) (hc : IsPage c) :
    tables b' (l + 1) pg = {pg} + (tables b' l c + others i (below b l pg)) := by
  rw [tables_split hi, below_of_pointer hw hc, others_rebuild hs hne hrest]

end Rebuild

/-! ## Stores to entries -/

theorem mod_pow_succ_eq (hv : v' / 512 ^ l % 512 = v / 512 ^ l % 512) :
    v' % 512 ^ (l + 1) = v % 512 ^ (l + 1) ↔ v' % 512 ^ l = v % 512 ^ l := by
  rw [pow_succ, Nat.mod_mul, Nat.mod_mul, hv]
  exact ⟨fun h => by omega, fun h => by rw [h]⟩

theorem mod_pow_succ_ne (hv : v' / 512 ^ l % 512 ≠ v / 512 ^ l % 512) :
    v' % 512 ^ (l + 1) ≠ v % 512 ^ (l + 1) := by
  intro h
  apply hv
  have hdiv (u : Nat) : u % 512 ^ (l + 1) / 512 ^ l = u / 512 ^ l % 512 := by
    rw [pow_succ, Nat.mod_mul_right_div_self]
  rw [← hdiv, ← hdiv, h]

structure Stored (b b' : Bytes) (l pg v x : Nat) : Prop where
  shape : Shape b' l pg
  tables_eq : tables b' l pg = tables b l pg
  entry_eq : ∀ v', entry b' l pg v' =
    if v' % 512 ^ (l + 1) = v % 512 ^ (l + 1) then x else entry b l pg v'

theorem stored (hs : Shape b l pg) (hn : (tables b l pg).Nodup) (h : slot b l pg v = some a)
    (hx : x < 2 ^ 64) : Stored b (b.store64 a x) l pg v x := by
  induction l generalizing pg with
  | zero =>
    cases h
    refine ⟨hs, rfl, fun v' => ?_⟩
    rw [entry, entry, Nat.zero_add, pow_one]
    split
    · rename_i hv
      rw [hv, word_store hx]
    · rename_i hv
      rw [word_store_of_ne hs hv]
  | succ l ih =>
    have hi := digit_lt v (512 ^ (l + 1))
    by_cases hv : word b pg (v / 512 ^ (l + 1) % 512) &&& PTE_V = 0
    · rw [slot_of_invalid hv] at h
      cases h
    obtain ⟨c, hw, hc⟩ := hs.child hi hv
    rw [slot_of_pointer hw hc.isPage] at h
    rw [tables_split hi, below_of_pointer hw hc.isPage] at hn
    -- The store is in a table below the pointer, so the root and the other parts are not touched.
    obtain ⟨t, ht, k, hk, rfl⟩ := exists_of_slot hc h
    have hdis := Multiset.nodup_add.1 hn
    have hdis' := Multiset.nodup_add.1 hdis.2.1
    have htp := hc.isPage_of_mem ht
    have hpg : pg ≠ t := by
      rintro rfl
      exact Multiset.disjoint_left.1 hdis.2.2 (Multiset.mem_singleton_self pg)
        (Multiset.mem_add.2 (.inl ht))
    have hroot : SamePage b (b.store64 (t + 8 * k) x) pg :=
      samePage_store htp hs.isPage.aligned hpg hk
    have hne : ∀ j < 512, j ≠ v / 512 ^ (l + 1) % 512 →
        word (b.store64 (t + 8 * k) x) pg j = word b pg j := fun j hj _ => word_congr hroot hj
    have hrest : ∀ y ∈ others (v / 512 ^ (l + 1) % 512) (below b l pg),
        SamePage b (b.store64 (t + 8 * k) x) y := by
      intro y hy
      have hyp : IsPage y := hs.isPage_of_mem (by
        rw [tables_split hi]
        exact Multiset.mem_add.2 (.inr (Multiset.mem_add.2 (.inr hy))))
      refine samePage_store htp hyp.aligned ?_ hk
      rintro rfl
      exact Multiset.disjoint_left.1 hdis'.2.2 ht hy
    have hw' := (word_congr hroot hi).trans hw
    have ihc := ih hc hdis'.1 h
    refine ⟨shape_rebuild hs hne hrest hw' ihc.shape, ?_, fun v' => ?_⟩
    · rw [tables_rebuild hs hne hrest hi hw' hc.isPage, ihc.tables_eq, tables_split hi,
        below_of_pointer hw hc.isPage]
    · by_cases hv' : v' / 512 ^ (l + 1) % 512 = v / 512 ^ (l + 1) % 512
      · rw [entry_of_pointer (by rw [hv', hw']) hc.isPage, ihc.entry_eq,
          entry_of_pointer (by rw [hv', hw]) hc.isPage, if_congr (mod_pow_succ_eq hv') rfl rfl]
      · rw [entry_rebuild hs hne hrest hv', if_neg (mod_pow_succ_ne hv')]

/-! ## `walk` -/

theorem load_PX (m : Mem) (l pg va : Nat) :
    m.bytes.load64 (pg + 8 * PX l va) = word m.bytes pg (va / PGSIZE / 512 ^ l % 512) := by
  rw [PX_eq, word]

/-- **Without `alloc`, `walk` returns the address of the entry and changes nothing.** -/
theorem walkFrom_read {Q : Nat → Mem → Prop} :
    wp (walkFrom va false l pg) Q m ↔ Q ((slot m.bytes l pg (va / PGSIZE)).getD 0) m := by
  induction l generalizing pg with
  | zero => rw [walkFrom, wp_pure, PX_eq, pow_zero, Nat.div_one, slot, Option.getD_some]
  | succ l ih =>
    rw [walkFrom, wp_bind, wp_load, load_PX, slot]
    by_cases hv : word m.bytes pg (va / PGSIZE / 512 ^ (l + 1) % 512) &&& PTE_V ≠ 0
    · rw [if_pos hv, if_pos hv]
      exact ih
    · rw [if_neg hv, if_neg hv]
      simp only [if_true, wp_pure, Option.getD_none]

/-- `walk` with `alloc` may add tables, changes no entry, and fails only for lack of pages. -/
structure Walked (m : Mem) (l pg v a : Nat) (m' : Mem) : Prop where
  shape : Shape m'.bytes l pg
  /-- New tables are taken from the free pages. -/
  moves : heap.Moves (tables m.bytes l pg) (tables m'.bytes l pg) m m'
  entry_eq : ∀ v', entry m'.bytes l pg v' = entry m.bytes l pg v'
  found : a ≠ 0 → slot m'.bytes l pg v = some a
  /-- At most one page is taken for each level. -/
  room : m.freelist.length ≤ m'.freelist.length + l
  fails : a = 0 → m.fails ≠ [] ∨ m.freelist.length < l

theorem Walked.up {m0 : Mem} (hs : Shape m0.bytes (l + 1) pg)
    (ho : Owns L (tables m0.bytes (l + 1) pg) m0) (hi : v / 512 ^ (l + 1) % 512 = i)
    (hw : word m.bytes pg i = mkPte c PTE_V) (hc : Shape m.bytes l c)
    (hentry : ∀ v', v' / 512 ^ (l + 1) % 512 = i →
      entry m0.bytes (l + 1) pg v' = entry m.bytes l c v')
    (hne : ∀ j < 512, j ≠ i → word m.bytes pg j = word m0.bytes pg j)
    (hmv : heap.Moves (below m0.bytes l pg i + {pg}) (tables m.bytes l c + {pg}) m0 m)
    (h : Walked m l c v a m')
    (hroom : m0.freelist.length ≤ m'.freelist.length + (l + 1))
    (hfails : a = 0 → m0.fails ≠ [] ∨ m0.freelist.length < l + 1) :
    Walked m0 (l + 1) pg v a m' := by
  have hi' : i < 512 := hi ▸ digit_lt v _
  have hsplit : tables m0.bytes (l + 1) pg = _ := tables_split' hi'
  rw [hsplit] at ho
  -- The root is in the frame of the walk below it, the other parts are in the frame of both steps.
  have hmv' : heap.Moves (below m0.bytes l pg i + {pg}) (tables m'.bytes l c + {pg}) m0 m' :=
    hmv.trans (h.moves.frame {pg})
  have hrest := ho.same hmv'
  have hroot : SamePage m.bytes m'.bytes pg :=
    (ho.left.moves hmv).same h.moves pg (Multiset.mem_singleton_self pg)
  have hne' : ∀ j < 512, j ≠ i → word m'.bytes pg j = word m0.bytes pg j := fun j hj hji =>
    (word_congr hroot hj).trans (hne j hj hji)
  have hw' := (word_congr hroot hi').trans hw
  refine ⟨shape_rebuild hs hne' hrest hw' h.shape, ?_, fun v' => ?_, fun ha => ?_, hroom, hfails⟩
  · rw [hsplit, tables_rebuild hs hne' hrest hi' hw' hc.isPage]
    exact (hmv'.frame _).congr rfl (by abel)
  · by_cases hv' : v' / 512 ^ (l + 1) % 512 = i
    · rw [hentry v' hv', entry_of_pointer (by rw [hv', hw']) hc.isPage, h.entry_eq]
    · exact entry_rebuild hs hne' hrest hv'
  · rw [slot_of_pointer (by rw [hi, hw']) hc.isPage]
    exact h.found ha

/-- What happens when a new, empty table `c` is put below the `i`-th entry. -/
structure Grown (m : Mem) (l pg i c : Nat) (m' : Mem) : Prop where
  zero : ZeroPage m'.bytes c
  pointer : word m'.bytes pg i = mkPte c PTE_V
  others : ∀ j < 512, j ≠ i → word m'.bytes pg j = word m.bytes pg j
  /-- The new table was free. -/
  moves : heap.Moves (below m.bytes l pg i + {pg}) ({c} + {pg}) m m'

theorem grown {A : Multiset Nat} (ho : Owns L A m) (hA : pg ∈ A) (hi : i < 512)
    (hv : word m.bytes pg i &&& PTE_V = 0) (hc : IsPage c) (hfree : m.freelist = c :: m'.freelist)
    (moves : heap.Moves 0 {c} m m') :
    Grown m l pg i c { m' with
      bytes := (m'.bytes.fill c PGSIZE fun _ => 0).store64 (pg + 8 * i) (mkPte c PTE_V) } := by
  have hp := ho.isPage_mem hA
  have hpg : pg ≠ c := by
    rintro rfl
    exact ho.notMem_of_free (by rw [hfree]; exact .head _) hA
  have hsame : SamePage m.bytes m'.bytes pg :=
    Owns.same (by rwa [zero_add]) moves pg hA
  have hzero := samePage_fill_page (b := m'.bytes) (f := fun _ => 0) hc hp.aligned hpg
  have h1 : heap.Moves {c} {c} m' { m' with bytes := m'.bytes.fill c PGSIZE fun _ => 0 } :=
    moves_bytes fun y hy hne => samePage_fill_page hc hy fun h => hne (by simp [h])
  have h2 : heap.Moves {pg} {pg} { m' with bytes := m'.bytes.fill c PGSIZE fun _ => 0 }
      { m' with
        bytes := (m'.bytes.fill c PGSIZE fun _ => 0).store64 (pg + 8 * i) (mkPte c PTE_V) } :=
    moves_bytes fun y hy hne => samePage_store hp hy (fun h => hne (by simp [h])) hi
  constructor
  · exact fun j hj => (word_congr (samePage_store hp hc.aligned hpg.symm hi) hj).trans
      (zeroPage_fill m'.bytes c j hj)
  · exact word_store (mkPte_lt hc (by decide))
  · exact fun j hj hji => (word_store_of_ne hp hji).trans
      ((word_congr hzero hj).trans (word_congr hsame hj))
  · rw [below_of_invalid hv]
    exact ((moves.trans h1).frame {pg}).trans
      ((h2.frame {c}).congr (add_comm _ _) (add_comm _ _))

theorem walkFrom_spec (hs : Shape m.bytes l pg) (ho : Owns L (tables m.bytes l pg) m) :
    wp (walkFrom va true l pg) (fun a m' => Walked m l pg (va / PGSIZE) a m') m := by
  induction l generalizing pg m with
  | zero =>
    rw [walkFrom, wp_pure, PX_eq, pow_zero, Nat.div_one]
    refine ⟨hs, .refl _ _ _, fun _ => rfl, fun _ => rfl, le_rfl, fun h => ?_⟩
    have := hs.isPage.pos
    omega
  | succ l ih =>
    have hi := digit_lt (va / PGSIZE) (512 ^ (l + 1))
    have hsub := ho
    rw [tables_split' hi] at hsub
    rw [walkFrom, wp_bind, wp_load, load_PX]
    by_cases hv : word m.bytes pg (va / PGSIZE / 512 ^ (l + 1) % 512) &&& PTE_V ≠ 0
    · -- The table exists.
      rw [if_pos hv]
      obtain ⟨c, hw, hc⟩ := hs.child hi hv
      rw [hw, PTE2PA_pointer hc.isPage]
      rw [below_of_pointer hw hc.isPage] at hsub
      refine wp_mono (ih hc hsub.left.left) fun a m' h => ?_
      refine Walked.up hs ho rfl hw hc (fun v' hv' => ?_) (fun _ _ _ => rfl) ?_ h
        (h.room.trans (by omega)) fun ha => (h.fails ha).imp_right (by omega)
      · exact entry_of_pointer (by rw [hv', hw]) hc.isPage
      · rw [below_of_pointer hw hc.isPage]
        exact .refl _ _ _
    · -- The table is missing: a new one is taken from the free pages.
      rw [if_neg hv, if_neg (by decide), wp_bind]
      have hv0 := not_not.1 hv
      refine wp_mono (kalloc_spec ho.isPage_free) fun r m1 hr => ?_
      cases hr with
      | none hr hfree moves why =>
        subst hr
        rw [if_pos rfl, wp_pure]
        have hsame := Owns.same (C := tables m.bytes (l + 1) pg) (by rwa [zero_add]) moves
        refine ⟨hs.congr hsame, ?_, fun v' => entry_congr hsame, fun h => absurd rfl h, ?_,
          fun _ => ?_⟩
        · rw [tables_congr hsame]
          exact (moves.frame _).congr (zero_add _) (zero_add _)
        · rw [hfree]
          omega
        · exact why.imp_right fun h => by rw [h]; exact Nat.succ_pos l
      | page hp hfree moves =>
        rw [if_neg hp.pos.ne']
        simp only [wp_bind, wp_memset, wp_store]
        rw [PX_eq, ← mkPte]
        have hg := grown (l := l) ho self_mem_tables hi hv0 hp hfree moves
        have hlen : m.freelist.length = m1.freelist.length + 1 := by
          rw [hfree, List.length_cons]
        refine wp_mono (ih (hg.zero.shape hp) ?_) fun a m' h => Walked.up hs ho rfl hg.pointer
          (hg.zero.shape hp) (fun v' hv' => ?_) hg.others ?_ h ?_ fun ha => ?_
        · rw [hg.zero.tables]
          exact (hsub.left.moves hg.moves).left
        · rw [hg.zero.entry, entry_of_invalid (by rw [hv']; exact hv0)]
        · rw [hg.zero.tables]
          exact hg.moves
        · exact hlen.le.trans (Nat.succ_le_succ h.room)
        · obtain hne | hlt := h.fails ha
          · refine .inl fun hnil => hne ?_
            have hsuffix := moves.le.2
            rw [hnil] at hsuffix
            exact List.suffix_nil.1 hsuffix
          · exact .inr (hlen ▸ Nat.succ_lt_succ hlt)

end Xv6Freezer.Vm

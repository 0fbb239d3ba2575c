import Xv6Freezer.Vm.Walk

/-! # `mappages` and `uvmunmap`

`mappages` fills in the entries of the pages of a range, in order, until it is done or finds no memory for a
table (`mappages_spec`); `uvmunmap` clears them (`uvmunmap_spec`). Every other entry stays as it is.
-/

namespace Xv6Freezer.Vm

open Lib

variable {L : Layout} {C D : Multiset Nat} {m m' m'' : Mem} {root v v' k n a pa perm stop : Nat}

/-- A page table of three levels whose pages are allocated, next to pages `C` of others. -/
structure IsTable (L : Layout) (C : Multiset Nat) (root : Nat) (m : Mem) : Prop where
  shape : Shape m.bytes 2 root
  owns : Owns L (tables m.bytes 2 root + C) m

def Mem.pte (m : Mem) (root v : Nat) : Nat := entry m.bytes 2 root v

theorem page_lt (h : a < MAXVA) : a / PGSIZE < 512 ^ 3 := by
  unfold MAXVA at h
  unfold PGSIZE
  omega

/-! ## Stores -/

theorem IsTable.store (h : IsTable L C root m) (hs : slot m.bytes 2 root v = some a) {x : Nat}
    (hx : x < 2 ^ 64) (hv : v < 512 ^ 3) :
    ∃ m', m' = { m with bytes := m.bytes.store64 a x } ∧ IsTable L C root m' ∧
      heap.Moves (tables m.bytes 2 root) (tables m'.bytes 2 root) m m' ∧
      ∀ v' < 512 ^ 3, m'.pte root v' = if v' = v then x else m.pte root v' := by
  have hst := stored h.shape h.owns.left.nodup_owned hs hx
  obtain ⟨t, ht, i, hi, rfl⟩ := exists_of_slot h.shape hs
  have hmv : heap.Moves (tables m.bytes 2 root) (tables m.bytes 2 root) m
      { m with bytes := m.bytes.store64 (t + 8 * i) x } :=
    moves_bytes fun y hy hne => samePage_store (h.shape.isPage_of_mem ht) hy
      (fun e => hne (e ▸ ht)) hi
  refine ⟨_, rfl, ⟨hst.shape, ?_⟩, by rwa [hst.tables_eq], fun v' hv' => ?_⟩
  · rw [hst.tables_eq]
    exact h.owns.moves (hmv.frame C)
  · show entry _ 2 root v' = _
    rw [hst.entry_eq, Nat.mod_eq_of_lt hv', Nat.mod_eq_of_lt hv]
    rfl

theorem IsTable.other {C' : Multiset Nat} (h : IsTable L C root m) (hmv : heap.Moves C C' m m') :
    IsTable L C' root m' ∧ (∀ x ∈ tables m.bytes 2 root, SamePage m.bytes m'.bytes x) ∧
      tables m'.bytes 2 root = tables m.bytes 2 root ∧ ∀ v, m'.pte root v = m.pte root v := by
  have ho : Owns L (C + tables m.bytes 2 root) m := by rw [add_comm]; exact h.owns
  have hsame := ho.same hmv
  refine ⟨⟨h.shape.congr hsame, ?_⟩, hsame, tables_congr hsame, fun v => entry_congr hsame⟩
  rw [tables_congr hsame, add_comm]
  exact ho.moves (hmv.frame _)

theorem walk_read {Q : Nat → Mem → Prop} (ha : a < MAXVA) :
    wp (walk root a false) Q m ↔ Q ((slot m.bytes 2 root (a / PGSIZE)).getD 0) m := by
  rw [walk, if_neg (by omega)]
  exact walkFrom_read

theorem walk_alloc (h : IsTable L C root m) (ha : a < MAXVA) :
    wp (walk root a true) (fun r m' => IsTable L C root m' ∧
      heap.Moves (tables m.bytes 2 root) (tables m'.bytes 2 root) m m' ∧
      (∀ v, m'.pte root v = m.pte root v) ∧
      (r ≠ 0 → slot m'.bytes 2 root (a / PGSIZE) = some r) ∧
      (r = 0 → m.fails ≠ [] ∨ m.freelist.length < 2)) m := by
  rw [walk, if_neg (by omega)]
  refine wp_mono (walkFrom_spec h.shape h.owns.left) fun r m' hw => ?_
  exact ⟨⟨hw.shape, h.owns.moves (hw.moves.frame C)⟩, hw.moves, hw.entry_eq, hw.found, hw.fails⟩

/-! ## `uvmcreate` -/

theorem uvmcreate_spec (ho : Owns L C m) :
    wp uvmcreate (fun r m' => (r = 0 → heap.Moves 0 0 m m') ∧ (r ≠ 0 → IsTable L C r m' ∧
      heap.Moves 0 (tables m'.bytes 2 r) m m' ∧ ∀ v, m'.pte r v = 0)) m := by
  rw [uvmcreate, wp_bind]
  refine wp_mono (kalloc_spec ho.isPage_free) fun r m1 hr => ?_
  cases hr with
  | none hr _ moves =>
    rw [if_pos hr, wp_pure]
    exact ⟨fun _ => moves, fun h => absurd rfl h⟩
  | page hr hfree moves =>
    rw [if_neg hr.pos.ne', wp_bind, wp_memset, wp_pure]
    refine ⟨fun h => absurd h hr.pos.ne', fun _ => ?_⟩
    have hz := zeroPage_fill m1.bytes r
    have hmv : heap.Moves {r} {r} m1 { m1 with bytes := m1.bytes.fill r PGSIZE fun _ => 0 } := moves_fill hr
    have hnew : heap.Moves 0 (tables (m1.bytes.fill r PGSIZE fun _ => 0) 2 r) m
        { m1 with bytes := m1.bytes.fill r PGSIZE fun _ => 0 } := by
      rw [hz.tables]
      exact moves.trans hmv
    exact ⟨⟨hz.shape hr, ho.moves ((hnew.frame C).congr (zero_add C) rfl)⟩, hnew, fun v => hz.entry⟩

/-! ## `mappages` -/

/-- The entries after the first `k` pages of a range have been mapped. -/
def addPages (f : Nat → Nat) (v k pa perm : Nat) : Nat → Nat := fun v' =>
  if v ≤ v' ∧ v' < v + k then mkPte (pa + (v' - v) * PGSIZE) (perm ||| PTE_V) else f v'

theorem addPages_zero (f : Nat → Nat) : addPages f v 0 pa perm = f := by
  funext v'
  exact if_neg (by omega)

theorem addPages_succ (f : Nat → Nat) :
    addPages (fun v' => if v' = v then mkPte pa (perm ||| PTE_V) else f v') (v + 1) k (pa + PGSIZE) perm =
      addPages f v (k + 1) pa perm := by
  funext v'
  simp only [addPages]
  by_cases hv : v' = v
  · subst hv
    rw [if_neg (by omega), if_pos rfl, if_pos (by omega), Nat.sub_self, Nat.zero_mul, Nat.add_zero]
  · by_cases hr : v + 1 ≤ v' ∧ v' < v + 1 + k
    · rw [if_pos hr, if_pos (by omega)]
      congr 1
      have : v' - v = v' - (v + 1) + 1 := by omega
      rw [this, Nat.add_mul, Nat.one_mul]
      omega
    · rw [if_neg hr, if_neg hv, if_neg (by omega)]

structure Mapped (L : Layout) (C : Multiset Nat) (root : Nat) (m m' : Mem) (v n pa perm : Nat) (r : Int) :
    Prop where
  table : IsTable L C root m'
  moves : heap.Moves (tables m.bytes 2 root) (tables m'.bytes 2 root) m m'
  /-- It maps all pages, or fails and has mapped the first ones. -/
  pages : ∃ k, (r = 0 ∧ k = n ∨ r = -1 ∧ k < n) ∧
    ∀ v' < 512 ^ 3, m'.pte root v' = addPages (m.pte root) v k pa perm v'

theorem mappagesLoop_round {last : Nat} {Q : Int → Mem → Prop} (h : IsTable L C root m) (ha : a < MAXVA)
    (hpa : FitsPte pa) (hperm : perm < 1024) (hfree : m.pte root (a / PGSIZE) &&& PTE_V = 0)
    (hfail : ∀ m', IsTable L C root m' →
      heap.Moves (tables m.bytes 2 root) (tables m'.bytes 2 root) m m' →
      (∀ v, m'.pte root v = m.pte root v) → Q (-1) m')
    (hnext : ∀ m', IsTable L C root m' →
      heap.Moves (tables m.bytes 2 root) (tables m'.bytes 2 root) m m' →
      (∀ v' < 512 ^ 3, m'.pte root v' =
        if v' = a / PGSIZE then mkPte pa (perm ||| PTE_V) else m.pte root v') →
      wp (if a = last then pure 0
        else mappagesLoop root last perm n (u64 (a + PGSIZE)) (u64 (pa + PGSIZE))) Q m') :
    wp (mappagesLoop root last perm (n + 1) a pa) Q m := by
  rw [mappagesLoop, wp_bind]
  refine wp_mono (walk_alloc h ha) fun r m1 ⟨ht, hmv, hpte, hfound, _⟩ => ?_
  by_cases hr : r = 0
  · rw [if_pos hr, wp_pure]
    exact hfail m1 ht hmv hpte
  · have hslot := hfound hr
    have hload : m1.bytes.load64 r = m.pte root (a / PGSIZE) := by
      rw [load_of_slot hslot]
      exact hpte _
    have hflags : perm ||| PTE_V < 1024 := Nat.or_lt_two_pow (n := 10) hperm (by decide)
    obtain ⟨m2, hm2, ht', hmv', hpte'⟩ := ht.store hslot (hpa.mkPte_lt hflags) (page_lt ha)
    rw [if_neg hr, wp_bind, wp_load, hload, if_neg (by simpa using hfree), wp_bind, wp_store,
      Nat.or_assoc, ← mkPte, ← hm2]
    refine hnext _ ht' (hmv.trans hmv') fun v' hv' => ?_
    rw [hpte' v' hv', hpte]

theorem mappagesLoop_spec (h : IsTable L C root m) (hal : a % PGSIZE = 0)
    (hmax : a + (n + 1) * PGSIZE ≤ MAXVA) (hpa : pa % PGSIZE = 0)
    (hlt : pa + (n + 1) * PGSIZE ≤ 2 ^ 56) (hperm : perm < 1024)
    (hfree : ∀ i < n + 1, m.pte root (a / PGSIZE + i) &&& PTE_V = 0) :
    wp (mappagesLoop root (a + n * PGSIZE) perm (n + 1) a pa)
      (fun r m' => Mapped L C root m m' (a / PGSIZE) (n + 1) pa perm r) m := by
  induction n generalizing a pa m with
  | zero =>
    unfold PGSIZE at hmax hlt
    refine mappagesLoop_round h (by omega) ⟨hpa, by omega⟩ hperm (hfree 0 (by omega))
      (fun m1 ht hmv hpte => ⟨ht, hmv, 0, .inr ⟨rfl, by omega⟩, fun v' _ => by rw [addPages_zero, hpte]⟩)
      fun m1 ht hmv hpte => ?_
    rw [if_pos (by omega), wp_pure]
    refine ⟨ht, hmv, 1, .inl ⟨rfl, rfl⟩, fun v' hv' => ?_⟩
    rw [hpte v' hv', ← addPages_succ, addPages_zero]
  | succ n ih =>
    have hPG : PGSIZE = 4096 := rfl
    have hM : MAXVA < 2 ^ 64 := by decide
    have h1 : (n + 1) * PGSIZE = n * PGSIZE + PGSIZE := Nat.succ_mul n PGSIZE
    have h2 : (n + 1 + 1) * PGSIZE = (n + 1) * PGSIZE + PGSIZE := Nat.succ_mul (n + 1) PGSIZE
    refine mappagesLoop_round h (by omega) ⟨hpa, by omega⟩ hperm (hfree 0 (by omega))
      (fun m1 ht hmv hpte => ⟨ht, hmv, 0, .inr ⟨rfl, by omega⟩, fun v' _ => by rw [addPages_zero, hpte]⟩)
      fun m1 ht hmv hpte => ?_
    have hdiv : (a + PGSIZE) / PGSIZE = a / PGSIZE + 1 := Nat.add_div_right _ (by decide)
    rw [if_neg (by omega), u64_of_lt (by omega), u64_of_lt (by omega),
      show a + (n + 1) * PGSIZE = a + PGSIZE + n * PGSIZE by omega]
    have hfree' : ∀ i < n + 1, m1.pte root ((a + PGSIZE) / PGSIZE + i) &&& PTE_V = 0 := by
      intro i hi
      have hi' : (i + 1) * PGSIZE ≤ (n + 1) * PGSIZE := Nat.mul_le_mul_right _ (by omega)
      have hlt' := page_lt (a := a + (i + 1) * PGSIZE) (by omega)
      rw [Nat.add_mul_div_right _ _ (by decide)] at hlt'
      have hidx : (a + PGSIZE) / PGSIZE + i = a / PGSIZE + (i + 1) := by omega
      rw [hidx, hpte _ hlt', if_neg (by omega)]
      exact hfree (i + 1) (by omega)
    have hrec := @ih m1 (a + PGSIZE) (pa + PGSIZE) ht (by rw [Nat.add_mod_right, hal]) (by omega)
      (by rw [Nat.add_mod_right, hpa]) (by omega) hfree'
    obtain ⟨r, m2, he, hM⟩ := wp_iff.mp hrec
    obtain ⟨k, hk, hpages⟩ := hM.pages
    refine wp_iff.mpr ⟨r, m2, he, hM.table, hmv.trans hM.moves, k + 1, hk.imp (fun h => ⟨h.1, by omega⟩)
      (fun h => ⟨h.1, by omega⟩), fun v' hv' => ?_⟩
    rw [hpages v' hv', hdiv, ← addPages_succ]
    unfold addPages
    rw [hpte v' hv']

theorem mappages_spec {va size : Nat} (h : IsTable L C root m) (hva : va % PGSIZE = 0)
    (hsz : size % PGSIZE = 0) (hpos : 0 < size) (hmax : va + size ≤ MAXVA) (hpa : pa % PGSIZE = 0)
    (hlt : pa + size ≤ 2 ^ 56) (hperm : perm < 1024)
    (hfree : ∀ i < size / PGSIZE, m.pte root (va / PGSIZE + i) &&& PTE_V = 0) :
    wp (mappages root va size pa perm)
      (fun r m' => Mapped L C root m m' (va / PGSIZE) (size / PGSIZE) pa perm r) m := by
  have hPG : PGSIZE = 4096 := rfl
  have hM : MAXVA < 2 ^ 64 := by decide
  obtain ⟨n, hn⟩ : ∃ n, size / PGSIZE = n + 1 := by
    refine ⟨size / PGSIZE - 1, (Nat.sub_add_cancel (Nat.div_pos ?_ (by decide))).symm⟩
    exact Nat.le_of_dvd hpos (Nat.dvd_of_mod_eq_zero hsz)
  have hsize : size = (n + 1) * PGSIZE := by
    rw [← hn]
    exact (Nat.div_mul_cancel (Nat.dvd_of_mod_eq_zero hsz)).symm
  have h1 : (n + 1) * PGSIZE = n * PGSIZE + PGSIZE := Nat.succ_mul n PGSIZE
  rw [mappages, if_neg (by omega), if_neg (by omega), if_neg (by omega), u64_of_lt (by omega),
    sub64_of_le (by omega) (by omega), hn,
    show va + size - PGSIZE = va + n * PGSIZE by omega]
  exact mappagesLoop_spec h hva (by omega) hpa (by omega) hperm (by rwa [hn] at hfree)

/-! ## `uvmunmap` -/

/-- The entries after the first `n` pages of a range have been unmapped. -/
def removePages (f : Nat → Nat) (v n : Nat) : Nat → Nat := fun v' =>
  if v ≤ v' ∧ v' < v + n then 0 else f v'

theorem removePages_succ (f : Nat → Nat) :
    removePages (fun v' => if v' = v then 0 else f v') (v + 1) n = removePages f v (n + 1) := by
  funext v'
  simp only [removePages]
  by_cases hv : v' = v
  · subst hv
    rw [if_neg (by omega), if_pos rfl, if_pos (by omega)]
  · by_cases hr : v + 1 ≤ v' ∧ v' < v + 1 + n
    · rw [if_pos hr, if_pos (by omega)]
    · rw [if_neg hr, if_neg hv, if_neg (by omega)]

/-- The pages that `n` entries map. -/
def mappedPages (f : Nat → Nat) (v n : Nat) : Multiset Nat :=
  ((List.range n).map fun i => PTE2PA (f (v + i)) : List Nat)

theorem mappedPages_succ (f : Nat → Nat) :
    mappedPages f v (n + 1) = {PTE2PA (f v)} + mappedPages f (v + 1) n := by
  unfold mappedPages
  rw [List.range_succ_eq_map, List.map_cons, List.map_map, Nat.add_zero, Multiset.singleton_add,
    Multiset.cons_coe]
  refine congrArg (fun l => (PTE2PA (f v) :: l : Multiset Nat)) (List.map_congr_left fun i _ => ?_)
  rw [Function.comp, Nat.succ_eq_add_one, Nat.add_assoc, Nat.add_comm 1 i]

theorem mappedPages_succ_last (f : Nat → Nat) :
    mappedPages f v (n + 1) = mappedPages f v n + {PTE2PA (f (v + n))} := by
  unfold mappedPages
  rw [List.range_succ, List.map_append, ← Multiset.coe_add]
  rfl

theorem mem_mappedPages {f : Nat → Nat} {i : Nat} (hi : i < n) :
    PTE2PA (f (v + i)) ∈ mappedPages f v n :=
  List.mem_map.mpr ⟨i, List.mem_range.mpr hi, rfl⟩

theorem mappedPages_congr {f g : Nat → Nat} (h : ∀ i < n, f (v + i) = g (v + i)) :
    mappedPages f v n = mappedPages g v n :=
  congrArg Multiset.ofList (List.map_congr_left fun i hi => by rw [h i (List.mem_range.mp hi)])

theorem freeLeaf_spec {doFree : Bool} {pg : Nat}
    (h : IsTable L (C + if doFree then {pg} + D else 0) root m) :
    wp (if doFree = true then kfree L pg else pure ()) (fun _ m' =>
      IsTable L (C + if doFree then D else 0) root m' ∧
      heap.Moves (tables m.bytes 2 root + if doFree then {pg} + D else 0)
        (tables m'.bytes 2 root + if doFree then D else 0) m m' ∧
      ∀ x ∈ tables m.bytes 2 root, SamePage m.bytes m'.bytes x) m := by
  cases doFree with
  | false =>
    simp only [Bool.false_eq_true, if_false, wp_pure] at h ⊢
    exact ⟨h, .refl _ _ _, fun _ _ _ _ => rfl⟩
  | true =>
    simp only [if_true] at h ⊢
    have ho : Owns L ({pg} + (tables m.bytes 2 root + (C + D))) m := by
      have hC : tables m.bytes 2 root + (C + ({pg} + D)) =
          {pg} + (tables m.bytes 2 root + (C + D)) := by abel
      rw [← hC]
      exact h.owns
    have hkfree : wp (kfree L pg) (fun _ m' => heap.Moves (0 + {pg}) 0 m m' ∧
        m'.freelist = pg :: m.freelist) m := kfree_spec (by rw [zero_add]; exact ho.left)
    refine wp_mono hkfree fun _ m' h => ?_
    obtain ⟨hmv, -⟩ := h
    rw [zero_add] at hmv
    have hsame := ho.same hmv
    have htab : ∀ x ∈ tables m.bytes 2 root, SamePage m.bytes m'.bytes x := fun x hx =>
      hsame x (Multiset.mem_add.2 (.inl hx))
    refine ⟨⟨h.shape.congr htab, ?_⟩, ?_, htab⟩
    · rw [tables_congr htab]
      have := ho.moves (hmv.frame _)
      rwa [zero_add] at this
    · rw [tables_congr htab]
      exact (hmv.frame (tables m.bytes 2 root + D)).congr (by abel) (by abel)

theorem uvmunmapLoop_spec {doFree : Bool}
    (h : IsTable L (C + if doFree then mappedPages (m.pte root) (a / PGSIZE) n else 0) root m)
    (hal : a % PGSIZE = 0) (hstop : stop = a + n * PGSIZE) (hmax : stop ≤ MAXVA)
    (hleaf : ∀ i < n, m.pte root (a / PGSIZE + i) &&& PTE_V ≠ 0 ∧
      PTE_FLAGS (m.pte root (a / PGSIZE + i)) ≠ PTE_V) :
    wp (uvmunmapLoop L root stop doFree n a) (fun _ m' => IsTable L C root m' ∧
      heap.Moves (tables m.bytes 2 root + if doFree then mappedPages (m.pte root) (a / PGSIZE) n else 0)
        (tables m'.bytes 2 root) m m' ∧
      ∀ v' < 512 ^ 3, m'.pte root v' = removePages (m.pte root) (a / PGSIZE) n v') m := by
  have hPG : PGSIZE = 4096 := rfl
  have hM : MAXVA < 2 ^ 64 := by decide
  induction n generalizing a m with
  | zero =>
    rw [uvmunmapLoop, wp_pure]
    have h0 : (if doFree then mappedPages (m.pte root) (a / PGSIZE) 0 else 0) = 0 := by
      split <;> rfl
    rw [h0, add_zero] at h
    rw [h0, add_zero]
    exact ⟨h, .refl _ _ _, fun v' _ => (if_neg (by omega)).symm⟩
  | succ n ih =>
    have h1 : (n + 1) * PGSIZE = n * PGSIZE + PGSIZE := Nat.succ_mul n PGSIZE
    have ha : a < MAXVA := by omega
    have hdiv : (a + PGSIZE) / PGSIZE = a / PGSIZE + 1 := Nat.add_div_right _ (by decide)
    obtain ⟨hv, hflags⟩ := hleaf 0 (by omega)
    rw [Nat.add_zero] at hv hflags
    -- the entry is there
    obtain ⟨pte, hslot⟩ : ∃ pte, slot m.bytes 2 root (a / PGSIZE) = some pte := by
      cases hs : slot m.bytes 2 root (a / PGSIZE) with
      | some pte => exact ⟨pte, rfl⟩
      | none =>
        rw [Mem.pte, entry_of_slot_none hs] at hv
        exact absurd (zero_and _) hv
    have hload : m.bytes.load64 pte = m.pte root (a / PGSIZE) := load_of_slot hslot
    rw [uvmunmapLoop, if_pos (by omega), wp_bind, walk_read ha, hslot, Option.getD_some,
      if_neg (slot_ne_zero h.shape hslot), wp_bind, wp_load, hload, if_neg hv, if_neg hflags]
    refine (wp_ite_bind (k := fun _ => do
      store pte 0
      uvmunmapLoop L root stop doFree n (u64 (a + PGSIZE)))).mpr ?_
    rw [mappedPages_succ] at h
    rw [mappedPages_succ]
    refine wp_mono (freeLeaf_spec h) fun _ m1 ⟨h₁, hmv1, hsame⟩ => ?_
    have hslot1 : slot m1.bytes 2 root (a / PGSIZE) = some pte := by rw [slot_congr hsame, hslot]
    obtain ⟨m2, hm2, h2, hmv2, hpte⟩ := h₁.store (x := 0) hslot1 (by decide) (page_lt ha)
    rw [wp_bind, wp_store, ← hm2, u64_of_lt (by omega)]
    -- the entries of the pages that are left are as before
    have hold : ∀ v' < 512 ^ 3, v' ≠ a / PGSIZE → m2.pte root v' = m.pte root v' := fun v' hv' hne => by
      rw [hpte v' hv', if_neg hne]
      exact entry_congr hsame
    have hlt : ∀ i < n, a / PGSIZE + 1 + i < 512 ^ 3 := fun i hi => by
      have hi' : (i + 1) * PGSIZE ≤ n * PGSIZE := Nat.mul_le_mul_right _ (by omega)
      have hlt' := page_lt (a := a + (i + 1) * PGSIZE) (by omega)
      rw [Nat.add_mul_div_right _ _ (by decide)] at hlt'
      omega
    have hleft : mappedPages (m2.pte root) (a / PGSIZE + 1) n =
        mappedPages (m.pte root) (a / PGSIZE + 1) n :=
      mappedPages_congr fun i hi => hold _ (hlt i hi) (by omega)
    have hrec := ih (a := a + PGSIZE) (m := m2)
    rw [hdiv, hleft] at hrec
    refine wp_mono (hrec h2 (by rw [Nat.add_mod_right, hal]) (by omega) fun i hi => ?_)
      fun _ m3 ⟨h3, hmv3, hpte3⟩ => ⟨h3, ?_, fun v' hv' => ?_⟩
    · rw [hold _ (hlt i hi) (by omega), Nat.add_assoc, Nat.add_comm 1 i]
      exact hleaf (i + 1) (by omega)
    · exact hmv1.trans ((hmv2.frame _).trans hmv3)
    · rw [hpte3 v' hv', ← removePages_succ]
      unfold removePages
      rw [hpte v' hv', show m1.pte root v' = m.pte root v' from entry_congr hsame]

theorem uvmunmap_spec {doFree : Bool} {va : Nat}
    (h : IsTable L (C + if doFree then mappedPages (m.pte root) (va / PGSIZE) n else 0) root m)
    (hva : va % PGSIZE = 0) (hmax : va + n * PGSIZE ≤ MAXVA)
    (hleaf : ∀ i < n, m.pte root (va / PGSIZE + i) &&& PTE_V ≠ 0 ∧
      PTE_FLAGS (m.pte root (va / PGSIZE + i)) ≠ PTE_V) :
    wp (uvmunmap L root va n doFree) (fun _ m' => IsTable L C root m' ∧
      heap.Moves (tables m.bytes 2 root + if doFree then mappedPages (m.pte root) (va / PGSIZE) n else 0)
        (tables m'.bytes 2 root) m m' ∧
      ∀ v' < 512 ^ 3, m'.pte root v' = removePages (m.pte root) (va / PGSIZE) n v') m := by
  have hM : MAXVA < 2 ^ 64 := by decide
  rw [uvmunmap, if_neg (by omega), u64_of_lt (by omega)]
  exact uvmunmapLoop_spec h hva rfl hmax hleaf

end Xv6Freezer.Vm

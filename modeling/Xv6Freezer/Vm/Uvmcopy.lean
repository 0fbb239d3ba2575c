import Xv6Freezer.Vm.Map

/-! # `uvmcopy`

What a call of `uvmcopy` that succeeds has done (`uvmcopy_spec`): the new table maps as many pages as the
old one has below the size, each a fresh page with the bytes and the flags of the old one.
-/

namespace Xv6Freezer.Vm

open Lib

variable {L : Layout} {R : Multiset Nat} {m0 m : Mem} {old new sz k n : Nat}

/-- The first `k` pages have been copied from `old` to `new`, since the memory was `m0`. -/
structure Copied (L : Layout) (R : Multiset Nat) (old new : Nat) (m0 : Mem) (k : Nat) (m : Mem) :
    Prop where
  table : IsTable L (mappedPages (m.pte new) 0 k + R) new m
  /-- Only free pages and the pages of the new table have been written. -/
  moves : heap.Moves (tables m0.bytes 2 new) (tables m.bytes 2 new + mappedPages (m.pte new) 0 k) m0 m
  flags : ∀ v < k, m.pte new v &&& PTE_V ≠ 0 ∧ PTE_FLAGS (m.pte new v) = PTE_FLAGS (m0.pte old v)
  content : ∀ v < k, ∀ j < PGSIZE,
    m.bytes (PTE2PA (m.pte new v) + j) = m0.bytes (PTE2PA (m0.pte old v) + j)
  rest : ∀ v < 512 ^ 3, k ≤ v → m.pte new v = m0.pte new v

theorem Copied.start (h : IsTable L R new m0) : Copied L R old new m0 0 m0 where
  table := by
    show IsTable L (0 + R) new m0
    rwa [zero_add]
  moves := (Heap.Moves.refl _ _ _).congr rfl (add_zero _).symm
  flags _ h := absurd h (Nat.not_lt_zero _)
  content _ h := absurd h (Nat.not_lt_zero _)
  rest _ _ _ := rfl

theorem Copied.same (h : Copied L R old new m0 k m) (h0 : IsTable L R new m0) :
    ∀ x ∈ R, SamePage m0.bytes m.bytes x := h0.owns.same h.moves

theorem flags_or_valid {w : Nat} (hw : w &&& PTE_V ≠ 0) : PTE_FLAGS w ||| PTE_V = PTE_FLAGS w := by
  rw [and_flags (by decide)] at hw
  have hlt := PTE_FLAGS_lt w
  generalize PTE_FLAGS w = f at hw hlt
  have hbit : f.testBit 0 = true := by
    rw [Nat.testBit_zero]
    have : f &&& 1 ≠ 0 := hw
    rw [Nat.and_one_is_mod] at this
    simpa using Nat.mod_two_ne_zero.mp this
  refine Nat.eq_of_testBit_eq fun i => ?_
  rw [Nat.testBit_or]
  cases i with
  | zero => rw [hbit, Bool.true_or]
  | succ i =>
    have hone : PTE_V < 2 ^ (i + 1) := Nat.one_lt_two_pow (Nat.succ_ne_zero i)
    rw [Nat.testBit_lt_two_pow hone, Bool.or_false]

theorem Copied.next {r : Nat} {m1 m2 m3 : Mem} (h0 : IsTable L R new m0)
    (hpg : PTE2PA (m0.pte old k) ∈ R) (hk : k < 512 ^ 3) (h : Copied L R old new m0 k m)
    (hr : IsPage r) (hw : m0.pte old k &&& PTE_V ≠ 0) (hmv1 : heap.Moves 0 {r} m m1)
    (hm2 : m2 = { m1 with
      bytes := m1.bytes.fill r PGSIZE fun i => m1.bytes (PTE2PA (m0.pte old k) + i) })
    (hM : Mapped L ({r} + (mappedPages (m.pte new) 0 k + R)) new m2 m3 k 1 r
      (PTE_FLAGS (m0.pte old k)) 0)
    (ht2 : IsTable L ({r} + (mappedPages (m.pte new) 0 k + R)) new m2)
    (htab : tables m2.bytes 2 new = tables m.bytes 2 new) (hpte2 : ∀ v, m2.pte new v = m.pte new v) :
    Copied L R old new m0 (k + 1) m3 := by
  obtain ⟨k', hk', hpages⟩ := hM.pages
  obtain rfl : k' = 1 := by omega
  have hflags := PTE_FLAGS_lt (m0.pte old k)
  have hvalid : PTE_FLAGS (m0.pte old k) &&& PTE_V ≠ 0 := by rwa [and_flags (by decide)] at hw
  have hpte : ∀ v < 512 ^ 3, m3.pte new v =
      if v = k then mkPte r (PTE_FLAGS (m0.pte old k)) else m.pte new v := by
    intro v hv
    rw [hpages v hv, addPages, flags_or_valid hw, hpte2]
    by_cases hvk : v = k
    · rw [if_pos (by omega), if_pos hvk, hvk, Nat.sub_self, Nat.zero_mul, Nat.add_zero]
    · rw [if_neg (by omega), if_neg hvk]
  have hnew : m3.pte new k = mkPte r (PTE_FLAGS (m0.pte old k)) := (hpte k hk).trans (if_pos rfl)
  have hold : ∀ v < k, m3.pte new v = m.pte new v := fun v hv =>
    (hpte v (hv.trans hk)).trans (if_neg hv.ne)
  have hpa : PTE2PA (m3.pte new k) = r := by rw [hnew, PTE2PA_mkPte hr hflags]
  have hframes : mappedPages (m3.pte new) 0 (k + 1) = mappedPages (m.pte new) 0 k + {r} := by
    have hcongr : mappedPages (m3.pte new) 0 k = mappedPages (m.pte new) 0 k :=
      mappedPages_congr fun i hi => by rw [Nat.zero_add, hold i hi]
    rw [mappedPages_succ_last, Nat.zero_add, hpa, hcongr]
  -- the page is filled, and then the table changes
  have hfill : heap.Moves {r} {r} m1 m2 := hm2 ▸ moves_fill hr
  have hround : heap.Moves (tables m.bytes 2 new) (tables m3.bytes 2 new + {r}) m m3 := by
    have h1 := ((hmv1.trans hfill).frame (tables m.bytes 2 new)).congr (zero_add _) (add_comm _ _)
    exact h1.trans ((hM.moves.congr htab rfl).frame {r})
  have hsame := h.table.owns.same hround
  have ht1 : Owns L (0 + (tables m.bytes 2 new + (mappedPages (m.pte new) 0 k + R))) m := by
    rw [zero_add]
    exact h.table.owns
  have hr3 : SamePage m2.bytes m3.bytes r := ht2.owns.same hM.moves r (by simp)
  refine ⟨?_, ?_, fun v hv => ?_, fun v hv j hj => ?_, fun v hv hkv => ?_⟩
  · have hpool : mappedPages (m.pte new) 0 k + {r} + R = {r} + (mappedPages (m.pte new) 0 k + R) := by
      abel
    rw [hframes, hpool]
    exact hM.table
  · rw [hframes, ← add_assoc, add_right_comm]
    exact h.moves.trans (hround.frame _)
  · rcases Nat.lt_succ_iff_lt_or_eq.mp hv with hv | rfl
    · rw [hold v hv]
      exact h.flags v hv
    · rw [hnew, mkPte_and hr hflags (by decide), hr.fits.PTE_FLAGS_mkPte hflags]
      exact ⟨hvalid, rfl⟩
  · rcases Nat.lt_succ_iff_lt_or_eq.mp hv with hv | rfl
    · have hmem : PTE2PA (m.pte new v) ∈ mappedPages (m.pte new) 0 k := by
        simpa using mem_mappedPages (f := m.pte new) (v := 0) hv
      rw [hold v hv, hsame _ (Multiset.mem_add.mpr (.inl hmem)) j hj]
      exact h.content v hv j hj
    · -- the page was copied before it was mapped
      have hsrc : SamePage m.bytes m1.bytes (PTE2PA (m0.pte old v)) :=
        ht1.same hmv1 _ (by simp [hpg])
      rw [hpa, hr3 j hj, hm2]
      dsimp only
      rw [Bytes.fill_of_lt hj, hsrc j hj, h.same h0 _ hpg j hj]
  · rw [hpte v hv, if_neg (by omega)]
    exact h.rest v hv (by omega)

theorem IsPage.fits_page {r : Nat} (h : IsPage r) : r + PGSIZE ≤ 2 ^ 56 := by
  have := h.lt
  unfold PHYSTOP KERNBASE at this
  unfold PGSIZE
  omega

theorem add_pgsize_le (hva : k * PGSIZE < MAXVA) : k * PGSIZE + PGSIZE ≤ MAXVA := by
  unfold PGSIZE MAXVA at *
  omega

theorem add_pgsize_lt (hva : k * PGSIZE < MAXVA) : k * PGSIZE + PGSIZE < 2 ^ 64 :=
  (add_pgsize_le hva).trans_lt (by decide)

theorem copyPage_spec (next : M Int) {Q : Mem → Prop} (h0 : IsTable L R new m0)
    (hpg : PTE2PA (m0.pte old k) ∈ R) (hfree : m0.pte new k &&& PTE_V = 0)
    (hva : k * PGSIZE < MAXVA) (h : Copied L R old new m0 k m) (hw : ¬m0.pte old k &&& PTE_V = 0)
    (hnext : ∀ m', Copied L R old new m0 (k + 1) m' → wlp next (fun r m'' => 0 ≤ r → Q m'') m') :
    wlp kalloc (fun mem m' => wlp (if mem = 0 then do
          uvmunmap L new 0 k true
          return -1
        else do
          memmove mem (PTE2PA (m0.pte old k)) PGSIZE
          let r ← mappages new (k * PGSIZE) PGSIZE mem (PTE_FLAGS (m0.pte old k))
          if r ≠ 0 then do
            kfree L mem
            uvmunmap L new 0 k true
            return -1
          else next)
      (fun r m'' => 0 ≤ r → Q m'') m') m := by
  have hk : k < 512 ^ 3 := by
    have := page_lt hva
    rwa [Nat.mul_div_cancel _ (by decide)] at this
  refine wlp_mono (wlp_of_wp (kalloc_spec h.table.owns.isPage_free)) fun r m1 hr => ?_
  cases hr with
  | none hr =>
    rw [if_pos hr, wlp_bind]
    exact wlp_of_forall fun _ _ => wlp_pure.mpr fun h => absurd h (by decide)
  | page hr _ hmv1 =>
    rw [if_neg hr.pos.ne', wlp_bind]
    refine wlp_of_wp (wp_memmove.mpr ?_)
    generalize hm2 : { m1 with
      bytes := m1.bytes.fill r PGSIZE fun i => m1.bytes (PTE2PA (m0.pte old k) + i) } = m2
    have hfill : heap.Moves {r} {r} m1 m2 := hm2 ▸ moves_fill hr
    obtain ⟨ht2, -, htab, hpte2⟩ := h.table.other
      (((hmv1.trans hfill).frame (mappedPages (m.pte new) 0 k + R)).congr (zero_add _) rfl)
    rw [wlp_bind]
    have hone : PGSIZE / PGSIZE = 1 := rfl
    have hdiv : k * PGSIZE / PGSIZE = k := Nat.mul_div_cancel _ (by decide)
    have hspec := mappages_spec ht2 (Nat.mul_mod_left k PGSIZE) (Nat.mod_self PGSIZE) (by decide)
      (add_pgsize_le hva) hr.aligned (hr.fits_page) (PTE_FLAGS_lt (m0.pte old k)) fun i hi => by
        obtain rfl : i = 0 := by omega
        rw [hpte2, hdiv, Nat.add_zero, h.rest k hk (Nat.le_refl k)]
        exact hfree
    rw [hdiv, hone] at hspec
    refine wlp_mono (wlp_of_wp hspec) fun r' m3 hM => ?_
    by_cases hr' : r' = 0
    · subst hr'
      rw [if_neg (not_not.mpr rfl)]
      exact hnext m3 (h.next h0 hpg hk hr hw hmv1 hm2.symm hM ht2 htab hpte2)
    · rw [if_pos hr', wlp_bind]
      refine wlp_of_forall fun _ _ => ?_
      rw [wlp_bind]
      exact wlp_of_forall fun _ _ => wlp_pure.mpr fun h => absurd h (by decide)

theorem uvmcopyLoop_spec (h0 : IsTable L R new m0) (hold : Shape m0.bytes 2 old)
    (htabs : ∀ x ∈ tables m0.bytes 2 old, x ∈ R) (hpages : ∀ v < n, PTE2PA (m0.pte old v) ∈ R)
    (hfree : ∀ v < n, m0.pte new v &&& PTE_V = 0) (hn : n * PGSIZE ≤ MAXVA)
    (hsz : ∀ v, v * PGSIZE < sz ↔ v < n) (fuel : Nat) :
    ∀ {k m}, k ≤ n → Copied L R old new m0 k m →
      wlp (uvmcopyLoop L old new sz fuel (k * PGSIZE))
        (fun r m' => 0 ≤ r → Copied L R old new m0 n m') m := by
  induction fuel with
  | zero => exact fun _ _ => wlp_throw
  | succ fuel ih =>
    intro k m hk h
    rw [uvmcopyLoop]
    by_cases hkn : k < n
    · have hva : k * PGSIZE < MAXVA :=
        (Nat.mul_lt_mul_of_pos_right hkn (by decide)).trans_le hn
      have hdiv : k * PGSIZE / PGSIZE = k := Nat.mul_div_cancel _ (by decide)
      have hsame := fun x hx => h.same h0 x (htabs x hx)
      rw [if_pos ((hsz k).mpr hkn), wlp_bind]
      refine wlp_of_wp ((walk_read hva).mpr ?_)
      rw [hdiv]
      cases hs : slot m.bytes 2 old k with
      | none => exact wlp_throw
      | some a =>
        have hload : m.bytes.load64 a = m0.pte old k := (load_of_slot hs).trans (entry_congr hsame)
        rw [Option.getD_some, if_neg (slot_ne_zero (hold.congr hsame) hs), wlp_bind]
        refine wlp_of_wp (wp_load.mpr ?_)
        rw [hload]
        by_cases hw : m0.pte old k &&& PTE_V = 0
        · rw [if_pos hw]
          exact wlp_throw
        · rw [if_neg hw, wlp_bind]
          have hround := copyPage_spec (uvmcopyLoop L old new sz fuel (u64 (k * PGSIZE + PGSIZE)))
            (Q := Copied L R old new m0 n) h0 (hpages k hkn) (hfree k hkn) hva h hw fun m3 h3 => by
              rw [u64_of_lt (add_pgsize_lt hva), ← Nat.succ_mul]
              exact ih hkn h3
          exact hround
    · rw [if_neg (fun hlt => hkn ((hsz k).mp hlt)), wlp_pure]
      obtain rfl : k = n := by omega
      exact fun _ => h

theorem mul_lt_iff_of_roundUp {v : Nat} (hsz : sz ≤ MAXVA) :
    v * PGSIZE < sz ↔ v < PGROUNDUP sz / PGSIZE := by
  rw [PGROUNDUP, u64_roundUp hsz, Nat.mul_div_cancel _ (by decide)]
  unfold PGSIZE
  omega

theorem uvmcopy_spec (h0 : IsTable L R new m0) (hold : Shape m0.bytes 2 old)
    (htabs : ∀ x ∈ tables m0.bytes 2 old, x ∈ R)
    (hpages : ∀ v < PGROUNDUP sz / PGSIZE, PTE2PA (m0.pte old v) ∈ R)
    (hfree : ∀ v < PGROUNDUP sz / PGSIZE, m0.pte new v &&& PTE_V = 0) (hsz : sz ≤ MAXVA) :
    wlp (uvmcopy L old new sz)
      (fun r m' => 0 ≤ r → Copied L R old new m0 (PGROUNDUP sz / PGSIZE) m') m0 := by
  have hn : PGROUNDUP sz / PGSIZE * PGSIZE ≤ MAXVA := by
    by_contra hlt
    have hlast := (mul_lt_iff_of_roundUp (v := PGROUNDUP sz / PGSIZE - 1) hsz).mpr
    unfold PGSIZE MAXVA at *
    omega
  have := uvmcopyLoop_spec h0 hold htabs hpages hfree hn (fun v => mul_lt_iff_of_roundUp hsz)
    (sz / PGSIZE + 2) (Nat.zero_le _) (Copied.start h0)
  rwa [Nat.zero_mul] at this

end Xv6Freezer.Vm

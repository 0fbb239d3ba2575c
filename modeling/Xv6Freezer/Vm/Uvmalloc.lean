import Xv6Freezer.Vm.UserTable

/-! # `uvmalloc` and `uvmdealloc`

`uvmdealloc` cuts user memory off at a size (`uvmdealloc_spec`). `uvmalloc` appends pages full of zeros
(`uvmalloc_spec`); if the memory runs out, it takes back what it has appended.
-/

namespace Xv6Freezer.Vm

open Lib

variable {L : Layout} {C : Multiset Nat} {m m0 m' : Mem} {root tf n k perm sz oldsz newsz : Nat}

/-! ## Sizes and page counts -/

theorem roundUp_mul (sz : Nat) : PGROUNDUP sz / PGSIZE * PGSIZE = PGROUNDUP sz := by
  rw [PGROUNDUP, Nat.mul_div_cancel _ (by decide)]

theorem roundUp_bounds (hsz : sz ≤ MAXVA) : sz ≤ PGROUNDUP sz ∧ PGROUNDUP sz < sz + PGSIZE := by
  rw [PGROUNDUP, u64_roundUp hsz]
  unfold PGSIZE
  omega

theorem roundUp_div_eq (hsz : sz ≤ MAXVA) (hle : sz ≤ k * PGSIZE) (hlt : k * PGSIZE < sz + PGSIZE) :
    PGROUNDUP sz / PGSIZE = k := by
  rw [PGROUNDUP, u64_roundUp hsz, Nat.mul_div_cancel _ (by decide)]
  unfold PGSIZE at *
  omega

theorem roundUp_mono (h : sz ≤ newsz) (hmax : newsz ≤ MAXVA) : PGROUNDUP sz ≤ PGROUNDUP newsz := by
  rw [PGROUNDUP, PGROUNDUP, u64_roundUp hmax, u64_roundUp (h.trans hmax)]
  exact Nat.mul_le_mul_right _ (Nat.div_le_div_right (by omega))

theorem roundUp_mul_div (h : k * PGSIZE ≤ MAXVA) : PGROUNDUP (k * PGSIZE) / PGSIZE = k :=
  roundUp_div_eq h (Nat.le_refl _) (Nat.lt_add_of_pos_right (by decide))

theorem UserTable.roundUp_lt (h : UserTable L C root tf (PGROUNDUP sz / PGSIZE) m) :
    PGROUNDUP sz < TRAPFRAME := by
  have hlt := h.lt_trapframe
  rw [← roundUp_mul sz]
  unfold trapframePage TRAPFRAME TRAMPOLINE MAXVA PGSIZE at *
  omega

/-! ## `uvmdealloc` -/

theorem UserTable.popped_self (h : UserTable L C root tf n m) : Popped L C root tf n n m m where
  table := h
  moves := by
    rw [Nat.sub_self]
    exact (Heap.Moves.refl heap (tables m.bytes 2 root) m).congr (add_zero _).symm rfl
  pte _ _ := rfl

/-- **`uvmdealloc`** cuts user memory off at the new size, unless it is not larger. -/
theorem uvmdealloc_spec (newsz : Nat) (h : UserTable L C root tf (PGROUNDUP oldsz / PGSIZE) m)
    (hsz : oldsz ≤ MAXVA) :
    wp (uvmdealloc L root oldsz newsz) (fun r m' => r = min newsz oldsz ∧
      Popped L C root tf (PGROUNDUP oldsz / PGSIZE) (PGROUNDUP (min newsz oldsz) / PGSIZE) m m') m := by
  rw [uvmdealloc]
  by_cases hge : newsz ≥ oldsz
  · rw [if_pos hge, wp_pure, Nat.min_eq_right hge]
    exact ⟨rfl, h.popped_self⟩
  have hlt : newsz < oldsz := Nat.lt_of_not_le hge
  have hle : PGROUNDUP newsz / PGSIZE ≤ PGROUNDUP oldsz / PGSIZE :=
    Nat.div_le_div_right (roundUp_mono hlt.le hsz)
  rw [if_neg hge, wp_ite_bind, Nat.min_eq_left hlt.le]
  by_cases hround : PGROUNDUP newsz < PGROUNDUP oldsz
  · have hcount : (PGROUNDUP oldsz - PGROUNDUP newsz) / PGSIZE =
        PGROUNDUP oldsz / PGSIZE - PGROUNDUP newsz / PGSIZE := by
      rw [← roundUp_mul oldsz, ← roundUp_mul newsz, ← Nat.sub_mul]
      simp only [Nat.mul_div_cancel _ (show 0 < PGSIZE by decide)]
    have hsmall : PGROUNDUP oldsz / PGSIZE - PGROUNDUP newsz / PGSIZE < 2 ^ 31 :=
      ((Nat.sub_le _ _).trans h.le_phystop).trans_lt (by decide)
    rw [if_pos hround, hcount, ofInt_int32 hsmall, ← roundUp_mul newsz]
    have hpop := h.pop hle
    rw [roundUp_mul newsz] at hpop ⊢
    exact wp_mono hpop fun _ m' hm' => wp_pure.mpr ⟨rfl, hm'⟩
  · have heq : PGROUNDUP oldsz / PGSIZE = PGROUNDUP newsz / PGSIZE :=
      (Nat.div_le_div_right (Nat.le_of_not_lt hround)).antisymm hle
    rw [if_neg hround, wp_pure, wp_pure, ← heq]
    exact ⟨rfl, h.popped_self⟩

/-! ## Appending pages -/

/-- User memory has grown from `n` to `k` pages, since the memory was `m0`. -/
structure Appended (L : Layout) (C : Multiset Nat) (root tf n : Nat) (m0 : Mem) (k : Nat) (m : Mem) :
    Prop where
  le : n ≤ k
  table : UserTable L C root tf k m
  moves : heap.Moves (tables m0.bytes 2 root)
    (tables m.bytes 2 root + mappedPages (m.pte root) n (k - n)) m0 m
  pte : ∀ v < n, m.pte root v = m0.pte root v

theorem Appended.start (h : UserTable L C root tf n m0) : Appended L C root tf n m0 n m0 where
  le := Nat.le_refl n
  table := h
  moves := by
    rw [Nat.sub_self]
    exact (Heap.Moves.refl heap (tables m0.bytes 2 root) m0).congr rfl (add_zero _).symm
  pte _ _ := rfl

theorem Appended.same (h : Appended L C root tf n m0 k m) (h0 : UserTable L C root tf n m0) :
    ∀ x ∈ mappedPages (m0.pte root) 0 n + C, SamePage m0.bytes m.bytes x :=
  h0.table.owns.same h.moves

theorem Appended.space_moves (h : Appended L C root tf n m0 k m) :
    heap.Moves (m0.space root n) (m.space root k) m0 m := by
  have hmapped : mappedPages (m.pte root) 0 n = mappedPages (m0.pte root) 0 n :=
    mappedPages_congr fun i hi => by rw [Nat.zero_add, h.pte i hi]
  rw [Mem.space, Mem.space, mappedPages_split _ h.le, hmapped, add_comm (mappedPages _ 0 n), ← add_assoc]
  exact h.moves.frame _

theorem Appended.kept (h : Appended L C root tf n m0 k m) (ht : UserTable L C root tf k m')
    (hmv : heap.Moves (tables m.bytes 2 root) (tables m'.bytes 2 root) m m')
    (hpte : ∀ v < k, m'.pte root v = m.pte root v) : Appended L C root tf n m0 k m' := by
  have hle := h.le
  have hmapped : mappedPages (m'.pte root) n (k - n) = mappedPages (m.pte root) n (k - n) :=
    mappedPages_congr fun i hi => hpte _ (by omega)
  refine ⟨hle, ht, ?_, fun v hv => ?_⟩
  · rw [hmapped]
    exact h.moves.trans (hmv.frame _)
  · rw [hpte v (hv.trans_le hle)]
    exact h.pte v hv

/-- What `mappages` of the page `r`, taken and filled since the memory was `m`, does. -/
inductive Round (L : Layout) (C : Multiset Nat) (root tf n : Nat) (m0 : Mem) (k r perm : Nat)
    (m m2 : Mem) (x : Int) (m3 : Mem) : Prop where
  /-- There is one page more; nothing is written but the table. -/
  | page (hx : x = 0) (next : Appended L C root tf n m0 (k + 1) m3)
      (pte : m3.pte root k = mkPte r (perm ||| PTE_V)) (content : SamePage m2.bytes m3.bytes r)
      (kept : ∀ v < k, m3.pte root v = m.pte root v ∧
        SamePage m.bytes m3.bytes (PTE2PA (m.pte root v)))
  /-- It fails, and all is well as soon as the page is given back. -/
  | failed (hx : x = -1) (back : wp (kfree L r) (fun _ m4 => Appended L C root tf n m0 k m4) m3)

section

variable (h : Appended L C root tf n m0 k m)

include h

theorem Appended.next {r : Nat} {m2 m3 : Mem} (hr : IsPage r)
    (hperm : perm < 1024) (hmv2 : heap.Moves 0 {r} m m2)
    (hmv3 : heap.Moves (tables m2.bytes 2 root) (tables m3.bytes 2 root) m2 m3)
    (ht3 : UserTable L C root tf (k + 1) m3)
    (hpte3 : ∀ v < 512 ^ 3, m3.pte root v =
      if v = k then mkPte r (perm ||| PTE_V) else m2.pte root v) :
    Round L C root tf n m0 k r perm m m2 0 m3 := by
  have hle := h.le
  have hlt := h.table.page_lt (Nat.le_refl k)
  have hflags : perm ||| PTE_V < 1024 := Nat.or_lt_two_pow (n := 10) hperm (by decide)
  obtain ⟨ht2, -, htab, hpte2⟩ := h.table.other ((hmv2.frame C).congr (zero_add C) rfl)
  have hnew : m3.pte root k = mkPte r (perm ||| PTE_V) := (hpte3 k hlt).trans (if_pos rfl)
  have hold : ∀ v < k, m3.pte root v = m.pte root v := fun v hv => by
    rw [hpte3 v (hv.trans hlt), if_neg hv.ne, hpte2]
  have hframes : mappedPages (m3.pte root) n (k + 1 - n) =
      mappedPages (m.pte root) n (k - n) + {r} := by
    have hcongr : mappedPages (m3.pte root) n (k - n) = mappedPages (m.pte root) n (k - n) :=
      mappedPages_congr fun i hi => hold (n + i) (by omega)
    rw [Nat.succ_sub hle, mappedPages_succ_last, Nat.add_sub_cancel' hle, hnew, PTE2PA_mkPte hr hflags,
      hcongr]
  have hround : heap.Moves (tables m.bytes 2 root) (tables m3.bytes 2 root + {r}) m m3 := by
    have h1 := (hmv2.frame (tables m.bytes 2 root)).congr (zero_add _) (add_comm _ _)
    exact h1.trans ((hmv3.congr htab rfl).frame {r})
  refine .page rfl ⟨Nat.le_succ_of_le hle, ht3, ?_, fun v hv => ?_⟩ hnew
    (ht2.table.owns.same hmv3 r (by simp)) fun v hv => ⟨hold v hv, ?_⟩
  · rw [hframes, ← add_assoc, add_right_comm]
    exact h.moves.trans (hround.frame _)
  · rw [hold v (hv.trans_le hle)]
    exact h.pte v hv
  · exact h.table.table.owns.same hround _ (user_mem _ _ _ hv)

theorem Appended.back {r : Nat} {m2 m3 : Mem} (hmv2 : heap.Moves 0 {r} m m2)
    (hmv3 : heap.Moves (tables m2.bytes 2 root) (tables m3.bytes 2 root) m2 m3)
    (ht3 : UserTable L ({r} + C) root tf k m3)
    (hpte3 : ∀ v < 512 ^ 3, m3.pte root v = m2.pte root v) :
    wp (kfree L r) (fun _ m4 => Appended L C root tf n m0 k m4) m3 := by
  have hown : Owns L (0 + {r}) m3 := by
    rw [zero_add]
    exact ht3.table.owns.right.right.left
  obtain ⟨-, -, htab, hpte2⟩ := h.table.other ((hmv2.frame C).congr (zero_add C) rfl)
  refine wp_mono (kfree_spec hown) fun _ m4 ⟨hmv4, _⟩ => ?_
  rw [zero_add] at hmv4
  obtain ⟨ht4, -, htab4, hpte4⟩ := ht3.other ((hmv4.frame C).congr rfl (zero_add C))
  refine h.kept ht4 ?_ fun v hv => by rw [hpte4, hpte3 v (h.table.page_lt hv.le), hpte2]
  have h1 := (hmv2.frame (tables m.bytes 2 root)).congr (zero_add _) (add_comm _ _)
  have h2 := (hmv3.congr htab rfl).frame {r}
  have h3 := (hmv4.frame (tables m3.bytes 2 root)).congr (add_comm _ _) (zero_add _)
  exact (h1.trans h2).trans (h3.congr rfl htab4.symm)

theorem Appended.round {r : Nat} {m2 : Mem} (hr : IsPage r)
    (hperm : perm < 1024) (hrwx : perm &&& (PTE_R ||| PTE_W ||| PTE_X) ≠ 0)
    (hmv2 : heap.Moves 0 {r} m m2) :
    wp (mappages root (k * PGSIZE) PGSIZE r perm) (fun x m3 =>
      m3.freelist.length ≤ m2.freelist.length ∧ Round L C root tf n m0 k r perm m m2 x m3) m2 := by
  obtain ⟨ht2, -, -, -⟩ := h.table.other ((hmv2.frame C).congr (zero_add C) rfl)
  refine wp_mono (ht2.push hperm hrwx) fun x m3 ⟨hmv3, hlen, hp⟩ => ⟨hlen, ?_⟩
  cases hp with
  | mapped hx ht3 hpte3 =>
    subst hx
    exact h.next hr hperm hmv2 hmv3 ht3 hpte3
  | failed hx ht3 hpte3 => exact .failed hx (h.back hmv2 hmv3 ht3 hpte3)

theorem Appended.none {m1 : Mem} (hmv : heap.Moves 0 0 m m1) : Appended L C root tf n m0 k m1 := by
  obtain ⟨ht, -, htab, hpte⟩ := h.table.other ((hmv.frame C).congr (zero_add C) (zero_add C))
  refine h.kept ht ?_ fun v _ => hpte v
  exact ((hmv.frame _).congr (zero_add _) (zero_add _)).congr rfl htab.symm

theorem Appended.undo :
    wp (uvmunmap L root (n * PGSIZE) (k - n) true) (fun _ m' => Popped L C root tf n n m0 m') m := by
  refine wp_mono (h.table.pop h.le) fun _ m' hp => ⟨hp.table, ?_, fun v hv => ?_⟩
  · rw [Nat.sub_self]
    exact (h.moves.trans hp.moves).congr (add_zero _).symm rfl
  · exact (hp.pte v hv).trans (h.pte v hv)

theorem Appended.dealloc :
    wp (uvmdealloc L root (k * PGSIZE) (n * PGSIZE))
      (fun _ m' => Popped L C root tf n n m0 m') m := by
  have hk : k * PGSIZE ≤ MAXVA := (Nat.le_add_right _ _).trans (h.table.mul_le (Nat.le_refl k))
  have hle : n * PGSIZE ≤ k * PGSIZE := Nat.mul_le_mul_right _ h.le
  have hspec := uvmdealloc_spec (n * PGSIZE) (by rw [roundUp_mul_div hk]; exact h.table) hk
  rw [Nat.min_eq_left hle, roundUp_mul_div hk, roundUp_mul_div (hle.trans hk)] at hspec
  refine wp_mono hspec fun _ m' ⟨_, hp⟩ => ⟨hp.table, ?_, fun v hv => ?_⟩
  · rw [Nat.sub_self]
    exact (h.moves.trans hp.moves).congr (add_zero _).symm rfl
  · exact (hp.pte v hv).trans (h.pte v hv)

end

/-! ## `uvmalloc` -/

/-- User memory has grown by pages full of zeros with the flags `perm`. -/
structure Extended (L : Layout) (C : Multiset Nat) (root tf perm n : Nat) (m0 : Mem) (k : Nat) (m : Mem) :
    Prop extends Appended L C root tf n m0 k m where
  flags : ∀ v, n ≤ v → v < k → PTE_FLAGS (m.pte root v) = perm ||| PTE_V
  zero : ∀ v, n ≤ v → v < k → ∀ j < PGSIZE, m.bytes (PTE2PA (m.pte root v) + j) = 0

theorem Extended.start (h : UserTable L C root tf n m0) : Extended L C root tf perm n m0 n m0 where
  toAppended := .start h
  flags _ hn hk := absurd hk (by omega)
  zero _ hn hk := absurd hk (by omega)

theorem Extended.next {r : Nat} {m1 m2 m3 : Mem} (h : Extended L C root tf perm n m0 k m) (hr : IsPage r)
    (hperm : perm < 1024) (hm2 : m2 = { m1 with bytes := m1.bytes.fill r PGSIZE fun _ => 0 })
    (hnext : Appended L C root tf n m0 (k + 1) m3) (hpte : m3.pte root k = mkPte r (perm ||| PTE_V))
    (hcontent : SamePage m2.bytes m3.bytes r)
    (hkept : ∀ v < k, m3.pte root v = m.pte root v ∧
      SamePage m.bytes m3.bytes (PTE2PA (m.pte root v))) :
    Extended L C root tf perm n m0 (k + 1) m3 := by
  have hflags : perm ||| PTE_V < 1024 := Nat.or_lt_two_pow (n := 10) hperm (by decide)
  refine ⟨hnext, fun v hn hv => ?_, fun v hn hv j hj => ?_⟩
  · rcases Nat.lt_succ_iff_lt_or_eq.mp hv with hv | rfl
    · rw [(hkept v hv).1]
      exact h.flags v hn hv
    · rw [hpte]
      exact hr.fits.PTE_FLAGS_mkPte hflags
  · rcases Nat.lt_succ_iff_lt_or_eq.mp hv with hv | rfl
    · rw [(hkept v hv).1, (hkept v hv).2 j hj]
      exact h.zero v hn hv j hj
    · rw [hpte, PTE2PA_mkPte hr hflags, hcontent j hj, hm2]
      dsimp only
      rw [Bytes.fill_of_lt hj]

inductive Uvmalloced (L : Layout) (C : Multiset Nat) (root tf perm n newsz : Nat) (m0 : Mem) (x : Nat)
    (m : Mem) : Prop where
  | grown (hx : x = newsz) (hmax : newsz ≤ MAXVA)
      (grown : Extended L C root tf perm n m0 (PGROUNDUP newsz / PGSIZE) m)
  | failed (hx : x = 0) (popped : Popped L C root tf n n m0 m)

theorem uvmallocLoop_spec {xperm : Nat} (newsz : Nat)
    (hperm : PTE_R ||| PTE_U ||| xperm < 1024) (fuel : Nat) :
    ∀ {k m}, Extended L C root tf (PTE_R ||| PTE_U ||| xperm) n m0 k m → m.freelist.length < fuel →
      k * PGSIZE < newsz + PGSIZE →
      wp (uvmallocLoop L root (n * PGSIZE) newsz xperm fuel (k * PGSIZE))
        (fun x m' => Uvmalloced L C root tf (PTE_R ||| PTE_U ||| xperm) n newsz m0 x m') m := by
  have hrwx : (PTE_R ||| PTE_U ||| xperm) &&& (PTE_R ||| PTE_W ||| PTE_X) ≠ 0 := by
    rw [Nat.or_assoc, Nat.and_or_distrib_right]
    exact fun h0 => absurd (Nat.or_eq_zero_iff.mp h0).1 (by decide)
  induction fuel with
  | zero => exact fun _ hlen => absurd hlen (Nat.not_lt_zero _)
  | succ fuel ih =>
    intro k m h hlen hk
    have hmax := h.table.mul_le (Nat.le_refl k)
    rw [uvmallocLoop]
    by_cases hlt : k * PGSIZE < newsz
    · rw [if_pos hlt, wp_bind]
      refine wp_mono (kalloc_spec h.table.owns.isPage_free) fun r m1 hr => ?_
      cases hr with
      | none hr hfree hmv1 =>
        rw [if_pos hr, wp_bind]
        exact wp_mono ((h.toAppended.none hmv1).dealloc) fun _ m' hp => wp_pure.mpr (.failed rfl hp)
      | page hr hfree hmv1 =>
        rw [if_neg hr.pos.ne', wp_bind, wp_memset, wp_bind]
        generalize hm2 : { m1 with bytes := m1.bytes.fill r PGSIZE fun _ => 0 } = m2
        have hfill : heap.Moves {r} {r} m1 m2 := hm2 ▸ moves_fill hr
        -- one page of the free list is gone
        have hlen2 : m2.freelist.length < fuel := by
          rw [← hm2]
          rw [hfree, List.length_cons] at hlen
          exact Nat.lt_of_succ_lt_succ hlen
        refine wp_mono (h.toAppended.round hr hperm hrwx (hmv1.trans hfill)) fun x m3 ⟨hlen3, hR⟩ => ?_
        cases hR with
        | page hx hnext hpte hcontent hkept =>
          rw [if_neg (not_not.mpr hx), u64_of_lt (hmax.trans_lt (by decide)), ← Nat.succ_mul]
          refine ih (h.next hr hperm hm2.symm hnext hpte hcontent hkept) (hlen3.trans_lt hlen2) ?_
          rw [Nat.succ_mul]
          omega
        | failed hx hback =>
          rw [if_pos (by rw [hx]; decide), wp_bind]
          refine wp_mono hback fun _ m4 h4 => ?_
          rw [wp_bind]
          exact wp_mono (h4.dealloc) fun _ m' hp => wp_pure.mpr (.failed rfl hp)
    · rw [if_neg hlt, wp_pure]
      have hle : newsz ≤ k * PGSIZE := Nat.le_of_not_lt hlt
      have hsz : newsz ≤ MAXVA := hle.trans ((Nat.le_add_right _ _).trans hmax)
      exact .grown rfl hsz (by rw [roundUp_div_eq hsz hle hk]; exact h)

theorem uvmalloc_spec {xperm : Nat} (h : UserTable L C root tf (PGROUNDUP oldsz / PGSIZE) m)
    (hsz : oldsz ≤ MAXVA) (hle : oldsz ≤ newsz) (hperm : PTE_R ||| PTE_U ||| xperm < 1024) :
    wp (uvmalloc L root oldsz newsz xperm)
      (fun x m' => Uvmalloced L C root tf (PTE_R ||| PTE_U ||| xperm) (PGROUNDUP oldsz / PGSIZE) newsz m
        x m') m := by
  have hbounds := (roundUp_bounds hsz).2
  have hloop := uvmallocLoop_spec newsz hperm (m.freelist.length + 1) (.start h)
    (Nat.lt_succ_self _)
  rw [roundUp_mul] at hloop
  rw [uvmalloc, if_neg (by omega), wp_bind, wp_get]
  exact hloop (by omega)

end Xv6Freezer.Vm

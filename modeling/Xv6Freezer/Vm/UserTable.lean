import Xv6Freezer.Vm.Freewalk
import Xv6Freezer.Vm.Uvmcopy

/-! # The page table of a process

It maps the first `n` pages, the trapframe and the trampoline, and **nothing else**. Pages are added at the
end of user memory (`UserTable.push`) and taken from it (`UserTable.pop`), and the whole table is given back
(`procFreepagetable_spec`); none of this panics.
-/

namespace Xv6Freezer.Vm

open Lib

variable {L : Layout} {C C' : Multiset Nat} {m m' : Mem} {root tf n k : Nat}

def trapframePage : Nat := TRAPFRAME / PGSIZE

def trampolinePage : Nat := TRAMPOLINE / PGSIZE

/-- The pages of a table and of the user memory that it maps. -/
def Mem.space (m : Mem) (root n : Nat) : Multiset Nat :=
  tables m.bytes 2 root + mappedPages (m.pte root) 0 n

/-- **The page table of a process** with `n` pages and the trapframe `tf`, next to pages `C` of others. -/
structure UserTable (L : Layout) (C : Multiset Nat) (root tf n : Nat) (m : Mem) : Prop where
  /-- The pages of the table and of user memory are allocated, each once. -/
  table : IsTable L (mappedPages (m.pte root) 0 n + C) root m
  leaf : ∀ v < n, Leaf (m.pte root v)
  trapframe : m.pte root trapframePage = mkPte tf (PTE_R ||| PTE_W ||| PTE_V)
  trampoline : m.pte root trampolinePage = mkPte L.trampoline (PTE_R ||| PTE_X ||| PTE_V)
  rest : ∀ v < 512 ^ 3, n ≤ v → v ≠ trapframePage → v ≠ trampolinePage → m.pte root v = 0
  isPage : IsPage tf

/-! ## There are not many pages -/

theorem card_mappedPages (f : Nat → Nat) (v n : Nat) : (mappedPages f v n).card = n := by
  simp [mappedPages]

theorem mappedPages_add (f : Nat → Nat) (v n k : Nat) :
    mappedPages f v (n + k) = mappedPages f v n + mappedPages f (v + n) k := by
  induction k with
  | zero => exact (add_zero _).symm
  | succ k ih => rw [← Nat.add_assoc, mappedPages_succ_last, ih, mappedPages_succ_last, add_assoc,
      Nat.add_assoc]

theorem Owns.card_le {A : Multiset Nat} (h : Owns L A m) : A.card ≤ PHYSTOP / PGSIZE := by
  have hsub : A.toFinset ⊆ (Finset.range (PHYSTOP / PGSIZE)).image (· * PGSIZE) := by
    intro x hx
    have hp := h.isPage_mem (Multiset.mem_toFinset.mp hx)
    have hal := hp.aligned
    have hlt := hp.lt
    refine Finset.mem_image.mpr ⟨x / PGSIZE, Finset.mem_range.mpr ?_, Nat.div_mul_cancel
      (Nat.dvd_of_mod_eq_zero hal)⟩
    unfold PHYSTOP KERNBASE PGSIZE at *
    omega
  have hcard := Finset.card_le_card hsub
  rw [Multiset.toFinset_card_of_nodup h.nodup_owned] at hcard
  exact hcard.trans (Finset.card_image_le.trans (Finset.card_range _).le)

theorem UserTable.le_phystop (h : UserTable L C root tf n m) : n ≤ PHYSTOP / PGSIZE := by
  have hcard := h.table.owns.right.left.card_le
  rwa [card_mappedPages] at hcard

theorem UserTable.lt_trapframe (h : UserTable L C root tf n m) : n < trapframePage :=
  h.le_phystop.trans_lt (by decide)

theorem trapframePage_lt : trapframePage < trampolinePage := by decide

theorem trampolinePage_lt : trampolinePage < 512 ^ 3 := by decide

theorem page_end_le {v : Nat} (hv : v ≤ trampolinePage) : v * PGSIZE + PGSIZE ≤ MAXVA := by
  unfold trampolinePage TRAMPOLINE MAXVA PGSIZE at *
  omega

theorem UserTable.mul_le (h : UserTable L C root tf n m) (hk : k ≤ n) : k * PGSIZE + PGSIZE ≤ MAXVA :=
  page_end_le ((hk.trans h.lt_trapframe.le).trans trapframePage_lt.le)

theorem UserTable.page_lt (h : UserTable L C root tf n m) (hk : k ≤ n) : k < 512 ^ 3 :=
  (hk.trans_lt h.lt_trapframe).trans (trapframePage_lt.trans trampolinePage_lt)

/-! ## What others do -/

theorem UserTable.owns (h : UserTable L C root tf n m) : Owns L (m.space root n + C) m := by
  rw [Mem.space, add_assoc]
  exact h.table.owns

theorem mem_space (m : Mem) (root : Nat) {v : Nat} (hv : v < n) :
    PTE2PA (m.pte root v) ∈ m.space root n := by
  have := mem_mappedPages (f := m.pte root) (v := 0) hv
  rw [Nat.zero_add] at this
  exact Multiset.mem_add.mpr (.inr this)

theorem user_mem (C : Multiset Nat) (m : Mem) (root : Nat) {v : Nat} (hv : v < n) :
    PTE2PA (m.pte root v) ∈ mappedPages (m.pte root) 0 n + C := by
  have := mem_mappedPages (f := m.pte root) (v := 0) hv
  rw [Nat.zero_add] at this
  exact Multiset.mem_add.mpr (.inl this)

theorem UserTable.other (h : UserTable L C root tf n m) (hmv : heap.Moves C C' m m') :
    UserTable L C' root tf n m' ∧ (∀ x ∈ m.space root n, SamePage m.bytes m'.bytes x) ∧
      tables m'.bytes 2 root = tables m.bytes 2 root ∧ ∀ v, m'.pte root v = m.pte root v := by
  obtain ⟨ht, -, htab, hpte⟩ := h.table.other
    ((hmv.frame (mappedPages (m.pte root) 0 n)).congr (add_comm _ _) (add_comm _ _))
  have hmapped : mappedPages (m'.pte root) 0 n = mappedPages (m.pte root) 0 n :=
    mappedPages_congr fun i _ => hpte _
  have ho : Owns L (C + m.space root n) m := by
    rw [add_comm]
    exact h.owns
  refine ⟨⟨by rwa [hmapped], fun v hv => ?_, ?_, ?_, fun v hv hn h1 h2 => ?_, h.isPage⟩, ho.same hmv, htab,
    hpte⟩
  · rw [hpte]
    exact h.leaf v hv
  · rw [hpte]
    exact h.trapframe
  · rw [hpte]
    exact h.trampoline
  · rw [hpte]
    exact h.rest v hv hn h1 h2

theorem UserTable.space_other (h : UserTable L C root tf n m) (hmv : heap.Moves C C' m m') :
    m'.space root n = m.space root n := by
  obtain ⟨-, -, htab, hpte⟩ := h.other hmv
  have hmapped : mappedPages (m'.pte root) 0 n = mappedPages (m.pte root) 0 n :=
    mappedPages_congr fun i _ => hpte _
  rw [Mem.space, Mem.space, htab, hmapped]

/-! ## The free list -/

theorem walkFrom_freelist (va : Nat) (alloc : Bool) (level pagetable : Nat)
    (hf : ∀ x ∈ heap.free m, IsPage x) :
    wlp (walkFrom va alloc level pagetable)
      (fun _ m' => m'.freelist.length ≤ m.freelist.length ∧ ∀ x ∈ heap.free m', IsPage x) m := by
  induction level generalizing pagetable m with
  | zero => exact wlp_pure.mpr ⟨Nat.le_refl _, hf⟩
  | succ level ih =>
    rw [walkFrom, wlp_bind]
    refine wlp_of_wp (wp_load.mpr ?_)
    split
    · exact ih _ hf
    split
    · exact wlp_pure.mpr ⟨Nat.le_refl _, hf⟩
    rw [wlp_bind]
    refine wlp_mono (wlp_of_wp (kalloc_spec hf)) fun r m1 hr => ?_
    cases hr with
    | none hr hfree _ =>
      rw [if_pos hr, wlp_pure, hfree]
      refine ⟨Nat.le_refl _, fun x hx => hf x ?_⟩
      have hx : x ∈ (m1.freelist : Multiset Nat) := hx
      rw [hfree] at hx
      exact hx
    | page hr hfree _ =>
      rw [if_neg hr.pos.ne', wlp_bind]
      refine wlp_of_wp (wp_memset.mpr ?_)
      rw [wlp_bind]
      refine wlp_of_wp (wp_store.mpr ?_)
      refine wlp_mono (ih r fun x hx => hf x ?_) fun _ m2 h2 => ⟨h2.1.trans ?_, h2.2⟩
      · have hx : x ∈ (m1.freelist : Multiset Nat) := hx
        show x ∈ (m.freelist : Multiset Nat)
        rw [hfree]
        exact .tail _ hx
      · show m1.freelist.length ≤ m.freelist.length
        rw [hfree]
        exact Nat.le_succ _

theorem mappagesLoop_freelist (last perm fuel a pa : Nat) (hf : ∀ x ∈ heap.free m, IsPage x) :
    wlp (mappagesLoop root last perm fuel a pa)
      (fun _ m' => m'.freelist.length ≤ m.freelist.length) m := by
  induction fuel generalizing m a pa with
  | zero => exact wlp_throw
  | succ fuel ih =>
    rw [mappagesLoop, wlp_bind, walk]
    split
    · exact wlp_throw
    refine wlp_mono (walkFrom_freelist a true 2 root hf) fun pte m1 h1 => ?_
    obtain ⟨hle, hf1⟩ := h1
    split
    · exact wlp_pure.mpr hle
    rw [wlp_bind]
    refine wlp_of_wp (wp_load.mpr ?_)
    split
    · exact wlp_throw
    rw [wlp_bind]
    refine wlp_of_wp (wp_store.mpr ?_)
    split
    · exact wlp_pure.mpr hle
    · exact wlp_mono (ih _ _ hf1) fun _ m2 h2 => h2.trans hle

theorem mappages_freelist (va size pa perm : Nat) (hf : ∀ x ∈ heap.free m, IsPage x) :
    wlp (mappages root va size pa perm)
      (fun _ m' => m'.freelist.length ≤ m.freelist.length) m := by
  rw [mappages]
  split
  · exact wlp_throw
  split
  · exact wlp_throw
  split
  · exact wlp_throw
  exact mappagesLoop_freelist _ _ _ _ _ hf

/-! ## One entry -/

theorem IsTable.mapPage {v pa perm : Nat} (h : IsTable L C root m) (hv : v ≤ trampolinePage)
    (hal : pa % PGSIZE = 0) (hpa : pa + PGSIZE ≤ 2 ^ 56) (hperm : perm < 1024)
    (hfree : m.pte root v = 0) :
    wp (mappages root (v * PGSIZE) PGSIZE pa perm) (fun x m' => IsTable L C root m' ∧
      heap.Moves (tables m.bytes 2 root) (tables m'.bytes 2 root) m m' ∧
      (x = 0 ∧ (∀ v' < 512 ^ 3, m'.pte root v' =
          if v' = v then mkPte pa (perm ||| PTE_V) else m.pte root v') ∨
        x = -1 ∧ ∀ v' < 512 ^ 3, m'.pte root v' = m.pte root v')) m := by
  have hdiv : v * PGSIZE / PGSIZE = v := Nat.mul_div_cancel _ (by decide)
  have hmax := page_end_le hv
  have hspec := mappages_spec h (Nat.mul_mod_left v PGSIZE) (Nat.mod_self PGSIZE) (by decide) hmax hal
    hpa hperm fun i hi => by
      obtain rfl : i = 0 := Nat.lt_one_iff.mp hi
      rw [hdiv, Nat.add_zero, hfree, zero_and]
  rw [hdiv, show PGSIZE / PGSIZE = 1 from rfl] at hspec
  refine wp_mono hspec fun x m' hM => ?_
  obtain ⟨j, hj, hpages⟩ := hM.pages
  refine ⟨hM.table, hM.moves, ?_⟩
  rcases hj with ⟨hx, rfl⟩ | ⟨hx, hj⟩
  · refine .inl ⟨hx, fun v' hv' => ?_⟩
    rw [hpages v' hv', addPages]
    by_cases hvv : v' = v
    · rw [if_pos (by omega), if_pos hvv, hvv, Nat.sub_self, Nat.zero_mul, Nat.add_zero]
    · rw [if_neg (by omega), if_neg hvv]
  · obtain rfl : j = 0 := by omega
    rw [addPages_zero] at hpages
    exact .inr ⟨hx, hpages⟩

theorem IsTable.unmapPage {v : Nat} (h : IsTable L C root m) (hv : v ≤ trampolinePage)
    (hleaf : Leaf (m.pte root v)) :
    wp (uvmunmap L root (v * PGSIZE) 1 false) (fun _ m' => IsTable L C root m' ∧
      heap.Moves (tables m.bytes 2 root) (tables m'.bytes 2 root) m m' ∧
      ∀ v' < 512 ^ 3, m'.pte root v' = if v' = v then 0 else m.pte root v') m := by
  have hdiv : v * PGSIZE / PGSIZE = v := Nat.mul_div_cancel _ (by decide)
  have hmax : v * PGSIZE + 1 * PGSIZE ≤ MAXVA := by
    rw [Nat.one_mul]
    exact page_end_le hv
  have htable : IsTable L (C + if (false : Bool) then mappedPages (m.pte root) (v * PGSIZE / PGSIZE) 1
      else 0) root m := by
    rw [if_neg Bool.false_ne_true, add_zero]
    exact h
  refine wp_mono (uvmunmap_spec htable (Nat.mul_mod_left v PGSIZE) hmax fun i hi => ?_)
    fun _ m' ⟨ht, hmv, hpte⟩ => ⟨ht, ?_, fun v' hv' => ?_⟩
  · obtain rfl : i = 0 := by omega
    rw [hdiv]
    exact ⟨hleaf.valid, hleaf.flags_ne⟩
  · rwa [if_neg Bool.false_ne_true, add_zero] at hmv
  · rw [hpte v' hv', removePages, hdiv]
    by_cases hvv : v' = v
    · rw [if_pos (by omega), if_pos hvv]
    · rw [if_neg (by omega), if_neg hvv]

/-! ## One page more -/

/-- What `mappages` of one page at the end of user memory leaves. -/
inductive Pushed (L : Layout) (C : Multiset Nat) (root tf n r perm : Nat) (m : Mem) (x : Int) (m' : Mem) :
    Prop where
  | mapped (hx : x = 0) (table : UserTable L C root tf (n + 1) m')
      (pte : ∀ v < 512 ^ 3, m'.pte root v = if v = n then mkPte r (perm ||| PTE_V) else m.pte root v)
  | failed (hx : x = -1) (table : UserTable L ({r} + C) root tf n m')
      (pte : ∀ v < 512 ^ 3, m'.pte root v = m.pte root v)

theorem UserTable.mapped {r perm : Nat} (h : UserTable L ({r} + C) root tf n m) (hperm : perm < 1024)
    (hrwx : perm &&& (PTE_R ||| PTE_W ||| PTE_X) ≠ 0)
    (ht : IsTable L (mappedPages (m.pte root) 0 n + ({r} + C)) root m')
    (hpte : ∀ v < 512 ^ 3, m'.pte root v = if v = n then mkPte r (perm ||| PTE_V) else m.pte root v) :
    UserTable L C root tf (n + 1) m' := by
  have hr : IsPage r := h.owns.isPage_mem (by simp)
  have hflags : perm ||| PTE_V < 1024 := Nat.or_lt_two_pow (n := 10) hperm (by decide)
  have hlt := h.page_lt (Nat.le_refl n)
  have htf := h.lt_trapframe
  have hnew : m'.pte root n = mkPte r (perm ||| PTE_V) := (hpte n hlt).trans (if_pos rfl)
  have hold : ∀ v < 512 ^ 3, v ≠ n → m'.pte root v = m.pte root v := fun v hv hne =>
    (hpte v hv).trans (if_neg hne)
  have hframes : mappedPages (m'.pte root) 0 (n + 1) = mappedPages (m.pte root) 0 n + {r} := by
    have hcongr : mappedPages (m'.pte root) 0 n = mappedPages (m.pte root) 0 n :=
      mappedPages_congr fun i hi => by
        rw [Nat.zero_add]
        exact hold i (hi.trans hlt) hi.ne
    rw [mappedPages_succ_last, Nat.zero_add, hnew, PTE2PA_mkPte hr hflags, hcongr]
  have hmax := trapframePage_lt.trans trampolinePage_lt
  refine ⟨?_, fun v hv => ?_, ?_, ?_, fun v hv hn h1 h2 => ?_, h.isPage⟩
  · rw [hframes, add_assoc]
    exact ht
  · rcases Nat.lt_succ_iff_lt_or_eq.mp hv with hv | rfl
    · rw [hold v (hv.trans hlt) hv.ne]
      exact h.leaf v hv
    · rw [hnew]
      refine leaf_mkPte hr hflags ?_ fun h0 => hrwx ?_
      · rw [Nat.and_or_distrib_right, show PTE_V &&& PTE_V = 1 from rfl]
        exact fun h0 => absurd (Nat.or_eq_zero_iff.mp h0).2 (by decide)
      · rw [Nat.and_or_distrib_right] at h0
        exact (Nat.or_eq_zero_iff.mp h0).1
  · rw [hold _ hmax htf.ne']
    exact h.trapframe
  · rw [hold _ trampolinePage_lt (htf.trans trapframePage_lt).ne']
    exact h.trampoline
  · rw [hold v hv (by omega)]
    exact h.rest v hv (by omega) h1 h2

theorem UserTable.unchanged (h : UserTable L C root tf n m)
    (ht : IsTable L (mappedPages (m.pte root) 0 n + C) root m')
    (hpte : ∀ v < 512 ^ 3, m'.pte root v = m.pte root v) : UserTable L C root tf n m' := by
  have hlt := h.page_lt (Nat.le_refl n)
  have hmapped : mappedPages (m'.pte root) 0 n = mappedPages (m.pte root) 0 n :=
    mappedPages_congr fun i hi => by
      rw [Nat.zero_add]
      exact hpte i (hi.trans hlt)
  refine ⟨by rwa [hmapped], fun v hv => ?_, ?_, ?_, fun v hv hn h1 h2 => ?_, h.isPage⟩
  · rw [hpte v (hv.trans hlt)]
    exact h.leaf v hv
  · rw [hpte _ (trapframePage_lt.trans trampolinePage_lt)]
    exact h.trapframe
  · rw [hpte _ trampolinePage_lt]
    exact h.trampoline
  · rw [hpte v hv]
    exact h.rest v hv hn h1 h2

theorem UserTable.push {r perm : Nat} (h : UserTable L ({r} + C) root tf n m) (hperm : perm < 1024)
    (hrwx : perm &&& (PTE_R ||| PTE_W ||| PTE_X) ≠ 0) :
    wp (mappages root (n * PGSIZE) PGSIZE r perm) (fun x m' =>
      heap.Moves (tables m.bytes 2 root) (tables m'.bytes 2 root) m m' ∧
      m'.freelist.length ≤ m.freelist.length ∧ Pushed L C root tf n r perm m x m') m := by
  have hr : IsPage r := h.owns.isPage_mem (by simp)
  have hlt := h.page_lt (Nat.le_refl n)
  have hfree : m.pte root n = 0 := h.rest n hlt (Nat.le_refl n) h.lt_trapframe.ne
    (h.lt_trapframe.trans trapframePage_lt).ne
  refine wp_mono (wp_and_wlp
    (h.table.mapPage (h.lt_trapframe.trans trapframePage_lt).le hr.aligned hr.fits_page hperm hfree)
    (mappages_freelist _ _ _ _ h.owns.isPage_free)) fun x m' ⟨⟨ht, hmv, hx⟩, hlen⟩ => ?_
  refine ⟨hmv, hlen, ?_⟩
  rcases hx with ⟨hx, hpte⟩ | ⟨hx, hpte⟩
  · exact .mapped hx (h.mapped hperm hrwx ht hpte) hpte
  · exact .failed hx (h.unchanged ht hpte) hpte

/-! ## Fewer pages -/

/-- User memory has been cut off at `k` pages. -/
structure Popped (L : Layout) (C : Multiset Nat) (root tf n k : Nat) (m m' : Mem) : Prop where
  table : UserTable L C root tf k m'
  /-- The other pages have been given back. -/
  moves : heap.Moves (tables m.bytes 2 root + mappedPages (m.pte root) k (n - k))
    (tables m'.bytes 2 root) m m'
  pte : ∀ v < k, m'.pte root v = m.pte root v

theorem mappedPages_split (f : Nat → Nat) (hk : k ≤ n) :
    mappedPages f 0 n = mappedPages f 0 k + mappedPages f k (n - k) := by
  have hadd := mappedPages_add f 0 k (n - k)
  rwa [Nat.add_sub_cancel' hk, Nat.zero_add] at hadd

theorem Popped.space_moves (h : Popped L C root tf n k m m') (hk : k ≤ n) :
    heap.Moves (m.space root n) (m'.space root k) m m' := by
  have hmapped : mappedPages (m'.pte root) 0 k = mappedPages (m.pte root) 0 k :=
    mappedPages_congr fun i hi => by rw [Nat.zero_add, h.pte i hi]
  rw [Mem.space, Mem.space, mappedPages_split _ hk, hmapped, add_comm (mappedPages _ 0 k), ← add_assoc]
  exact h.moves.frame _

theorem Popped.same (hP : Popped L C root tf n k m m') (h : UserTable L C root tf n m) (hk : k ≤ n) :
    ∀ x ∈ mappedPages (m.pte root) 0 k + C, SamePage m.bytes m'.bytes x := by
  have ho := h.owns
  rw [Mem.space, mappedPages_split _ hk, add_comm (mappedPages _ 0 _), ← add_assoc, add_assoc] at ho
  exact ho.same hP.moves

theorem UserTable.pop (h : UserTable L C root tf n m) (hk : k ≤ n) :
    wp (uvmunmap L root (k * PGSIZE) (n - k) true) (fun _ m' => Popped L C root tf n k m m') m := by
  have hdiv : k * PGSIZE / PGSIZE = k := Nat.mul_div_cancel _ (by decide)
  have htable : IsTable L (mappedPages (m.pte root) 0 k + C +
      if (true : Bool) then mappedPages (m.pte root) (k * PGSIZE / PGSIZE) (n - k) else 0) root m := by
    rw [if_pos rfl, hdiv, add_right_comm, ← mappedPages_split _ hk]
    exact h.table
  have hmax : k * PGSIZE + (n - k) * PGSIZE ≤ MAXVA := by
    have := h.mul_le (Nat.le_refl n)
    rw [← Nat.add_mul, Nat.add_sub_cancel' hk]
    omega
  refine wp_mono (uvmunmap_spec htable (Nat.mul_mod_left k PGSIZE) hmax fun i hi => ?_)
    fun _ m' ⟨ht, hmv, hpte⟩ => ?_
  · rw [hdiv]
    have hleaf := h.leaf (k + i) (by omega)
    exact ⟨hleaf.valid, hleaf.flags_ne⟩
  rw [hdiv] at hpte hmv
  rw [if_pos rfl] at hmv
  have hlt := h.page_lt (Nat.le_refl n)
  have htf := h.lt_trapframe
  have hout : ∀ v < 512 ^ 3, v < k ∨ n ≤ v → m'.pte root v = m.pte root v := by
    intro v hv hvk
    rw [hpte v hv, removePages, if_neg (by omega)]
  have hmapped : mappedPages (m'.pte root) 0 k = mappedPages (m.pte root) 0 k :=
    mappedPages_congr fun i hi => by
      rw [Nat.zero_add]
      exact hout i ((hi.trans_le hk).trans hlt) (.inl hi)
  refine ⟨⟨by rwa [hmapped], fun v hv => ?_, ?_, ?_, fun v hv hn h1 h2 => ?_, h.isPage⟩, hmv,
    fun v hv => hout v ((hv.trans_le hk).trans hlt) (.inl hv)⟩
  · rw [hout v ((hv.trans_le hk).trans hlt) (.inl hv)]
    exact h.leaf v (hv.trans_le hk)
  · rw [hout _ (trapframePage_lt.trans trampolinePage_lt) (.inr htf.le)]
    exact h.trapframe
  · rw [hout _ trampolinePage_lt (.inr (htf.trans trapframePage_lt).le)]
    exact h.trampoline
  · rcases Nat.lt_or_ge v n with hvn | hvn
    · rw [hpte v hv, removePages, if_pos (by omega)]
    · rw [hout v hv (.inr hvn)]
      exact h.rest v hv hvn h1 h2

/-! ## The whole table -/

theorem uvmfree_spec {sz : Nat} (h : IsTable L (mappedPages (m.pte root) 0 n + C) root m)
    (hleaf : ∀ v < n, Leaf (m.pte root v)) (hrest : ∀ v < 512 ^ 3, n ≤ v → m.pte root v = 0)
    (hmax : n * PGSIZE ≤ MAXVA) (hn : n = PGROUNDUP sz / PGSIZE) :
    wp (uvmfree L root sz) (fun _ m' => heap.Moves (m.space root n) 0 m m') m := by
  -- after user memory has been unmapped
  have hwalk : ∀ m1, IsTable L C root m1 →
      heap.Moves (m.space root n) (tables m1.bytes 2 root) m m1 →
      (∀ v < 512 ^ 3, m1.pte root v = 0) →
      wp (freewalk L 3 root) (fun _ m' => heap.Moves (m.space root n) 0 m m') m1 := by
    intro m1 ht hmv hpte
    refine wp_mono (freewalk_spec (l := 2) ht.shape ht.owns fun v => ?_) fun _ m' h' => hmv.trans h'.1
    have hsplit := entry_add m1.bytes 2 root (v / 512 ^ 3) (v % 512 ^ 3)
    rw [Nat.div_add_mod'] at hsplit
    rw [hsplit]
    have h0 : entry m1.bytes 2 root (v % 512 ^ 3) = 0 := hpte _ (Nat.mod_lt _ (by decide))
    rw [h0, zero_and]
  rw [uvmfree, wp_ite_bind]
  by_cases hsz : sz > 0
  · rw [if_pos hsz]
    have htable : IsTable L (C + if (true : Bool) then mappedPages (m.pte root) (0 / PGSIZE) n else 0)
        root m := by
      rw [if_pos rfl, Nat.zero_div, add_comm]
      exact h
    rw [← hn]
    refine wp_mono (uvmunmap_spec htable (Nat.zero_mod _) (by omega) fun i hi => ?_)
      fun _ m1 ⟨ht, hmv, hpte⟩ => hwalk m1 ht ?_ fun v hv => ?_
    · rw [Nat.zero_div, Nat.zero_add]
      exact ⟨(hleaf i hi).valid, (hleaf i hi).flags_ne⟩
    · rwa [if_pos rfl, Nat.zero_div] at hmv
    · rw [hpte v hv, removePages, Nat.zero_div]
      split
      · rfl
      · exact hrest v hv (by omega)
  · obtain rfl : sz = 0 := by omega
    obtain rfl : n = 0 := hn.trans (by decide)
    have hnone : mappedPages (m.pte root) 0 0 = 0 := rfl
    rw [if_neg hsz, wp_pure]
    rw [hnone, zero_add] at h
    refine hwalk m h ?_ fun v hv => hrest v hv (Nat.zero_le v)
    rw [Mem.space, hnone, add_zero]
    exact .refl _ _ _

theorem UserTable.trampoline_isPage (h : UserTable L C root tf n m) : IsPage L.trampoline := by
  have hroot : root ∈ tables m.bytes 2 root := self_mem_tables
  refine L.trampoline_isPage ?_
  have h1 := h.owns.end_le root (by simp [Mem.space, hroot])
  have h2 := (h.owns.isPage_mem (x := root) (by simp [Mem.space, hroot])).lt
  exact h1.trans h2.le

/-- **`proc_freepagetable`** gives back the pages of user memory and of the table. -/
theorem procFreepagetable_spec {sz : Nat} (h : UserTable L C root tf n m)
    (hn : n = PGROUNDUP sz / PGSIZE) :
    wp (procFreepagetable L root sz) (fun _ m' => heap.Moves (m.space root n) 0 m m') m := by
  have hlt := h.page_lt (Nat.le_refl n)
  have htf := h.lt_trapframe
  have hne := trapframePage_lt
  have hmax := hne.trans trampolinePage_lt
  have hleaf1 : Leaf (m.pte root trampolinePage) := by
    rw [h.trampoline]
    exact leaf_mkPte h.trampoline_isPage (by decide) (by decide) (by decide)
  have e1 : TRAMPOLINE = trampolinePage * PGSIZE := by decide
  have e2 : TRAPFRAME = trapframePage * PGSIZE := by decide
  rw [procFreepagetable, wp_bind, e1]
  refine wp_mono (h.table.unmapPage (Nat.le_refl _) hleaf1) fun _ m1 ⟨ht1, hmv1, hpte1⟩ => ?_
  have hleaf2 : Leaf (m1.pte root trapframePage) := by
    rw [hpte1 _ hmax, if_neg hne.ne, h.trapframe]
    exact leaf_mkPte h.isPage (by decide) (by decide) (by decide)
  rw [wp_bind, e2]
  refine wp_mono (ht1.unmapPage hne.le hleaf2) fun _ m2 ⟨ht2, hmv2, hpte2⟩ => ?_
  have huser : ∀ v < n, m2.pte root v = m.pte root v := by
    intro v hv
    rw [hpte2 v (by omega), if_neg (by omega), hpte1 v (by omega), if_neg (by omega)]
  have hmapped : mappedPages (m2.pte root) 0 n = mappedPages (m.pte root) 0 n :=
    mappedPages_congr fun i hi => by
      rw [Nat.zero_add]
      exact huser i hi
  have hsz : n * PGSIZE ≤ MAXVA := (Nat.le_add_right _ _).trans (h.mul_le (Nat.le_refl n))
  refine wp_mono (uvmfree_spec (by rwa [hmapped]) (fun v hv => ?_) (fun v hv hnv => ?_) hsz hn)
    fun _ m3 hmv3 => ?_
  · rw [huser v hv]
    exact h.leaf v hv
  · rw [hpte2 v hv, hpte1 v hv]
    split
    · rfl
    split
    · rfl
    exact h.rest v hv hnv ‹_› ‹_›
  · rw [Mem.space, hmapped] at hmv3
    exact ((hmv1.trans hmv2).frame _).trans hmv3

inductive NewUserTable (L : Layout) (C : Multiset Nat) (tf pt : Nat) (m m' : Mem) : Prop where
  | none (hpt : pt = 0) (moves : heap.Moves 0 0 m m')
  /-- The new table maps the trampoline and the trapframe. -/
  | table (hpt : pt ≠ 0) (table : UserTable L C pt tf 0 m')
      (moves : heap.Moves 0 (tables m'.bytes 2 pt) m m')

/-- **`proc_pagetable`** makes a table without user memory, or gives everything back. -/
theorem procPagetable_total (ho : Owns L C m) (hmem : tf ∈ C) :
    wp (procPagetable L tf) (fun pt m' => NewUserTable L C tf pt m m') m := by
  have htf := ho.isPage_mem hmem
  have htramp : IsPage L.trampoline := L.trampoline_isPage
    ((ho.end_le tf (Multiset.mem_add.mpr (.inr hmem))).trans htf.lt.le)
  have hne := trapframePage_lt
  have hmax := hne.trans trampolinePage_lt
  have e1 : TRAMPOLINE = trampolinePage * PGSIZE := by decide
  have e2 : TRAPFRAME = trapframePage * PGSIZE := by decide
  -- both error paths end with `uvmfree` of a table that maps nothing
  have hfree : ∀ pt m1, IsTable L C pt m1 → heap.Moves 0 (tables m1.bytes 2 pt) m m1 →
      (∀ v < 512 ^ 3, m1.pte pt v = 0) →
      wp (do uvmfree L pt 0; return 0) (fun x m' => NewUserTable L C tf x m m') m1 := by
    intro pt m1 ht hmv hpte
    have hnone : mappedPages (m1.pte pt) 0 0 = 0 := rfl
    rw [wp_bind]
    refine wp_mono (uvmfree_spec (n := 0) (by rwa [hnone, zero_add]) (fun v hv => absurd hv (by omega))
      (fun v hv _ => hpte v hv) (by decide) (by decide)) fun _ m' hmv' => ?_
    rw [wp_pure]
    rw [Mem.space, hnone, add_zero] at hmv'
    exact .none rfl (hmv.trans hmv')
  rw [procPagetable, wp_bind]
  refine wp_mono (uvmcreate_spec ho) fun pt m1 ⟨hzero, hnew⟩ => ?_
  by_cases hpt : pt = 0
  · rw [if_pos hpt, wp_pure]
    exact .none rfl (hzero hpt)
  obtain ⟨ht1, hmv1, hpte1⟩ := hnew hpt
  rw [if_neg hpt, wp_bind, e1]
  refine wp_mono (ht1.mapPage (Nat.le_refl _) htramp.aligned htramp.fits_page (by decide)
    (hpte1 _)) fun x m2 ⟨ht2, hmv2, hx⟩ => ?_
  rcases hx with ⟨rfl, hpte2⟩ | ⟨rfl, hpte2⟩
  · rw [if_neg (by decide), wp_bind, e2]
    refine wp_mono (ht2.mapPage hne.le htf.aligned htf.fits_page (by decide)
      (by rw [hpte2 _ hmax, if_neg hne.ne, hpte1])) fun x m3 ⟨ht3, hmv3, hx⟩ => ?_
    have hmv := (hmv1.trans hmv2).trans hmv3
    rcases hx with ⟨rfl, hpte3⟩ | ⟨rfl, hpte3⟩
    · rw [if_neg (by decide), wp_pure]
      refine .table hpt ⟨?_, fun v hv => absurd hv (by omega), ?_, ?_, fun v hv _ h1 h2 => ?_, htf⟩ hmv
      · show IsTable L (0 + C) pt m3
        rwa [zero_add]
      · rw [hpte3 _ hmax, if_pos rfl]
      · rw [hpte3 _ trampolinePage_lt, if_neg hne.ne', hpte2 _ trampolinePage_lt, if_pos rfl]
      · rw [hpte3 v hv, if_neg h1, hpte2 v hv, if_neg h2, hpte1]
    · have hleaf : Leaf (m3.pte pt trampolinePage) := by
        rw [hpte3 _ trampolinePage_lt, hpte2 _ trampolinePage_lt, if_pos rfl]
        exact leaf_mkPte htramp (by decide) (by decide) (by decide)
      rw [if_pos (by decide), wp_bind]
      refine wp_mono (ht3.unmapPage (Nat.le_refl _) hleaf) fun _ m4 ⟨ht4, hmv4, hpte4⟩ => ?_
      refine hfree pt m4 ht4 (hmv.trans hmv4) fun v hv => ?_
      rw [hpte4 v hv]
      split
      · rfl
      · rw [hpte3 v hv, hpte2 v hv, if_neg ‹_›, hpte1]
  · rw [if_pos (by decide)]
    exact hfree pt m2 ht2 (hmv1.trans hmv2) fun v hv => by rw [hpte2 v hv, hpte1]

end Xv6Freezer.Vm

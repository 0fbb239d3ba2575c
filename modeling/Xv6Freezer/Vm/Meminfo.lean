import Xv6Freezer.Vm.Basic

/-! # The list of free pages, and `sys_meminfo`

`kernel/kalloc.c` with its list of free pages as it is in memory, and the two programs that count them:
`sys_meminfo` and `user/meminfo.c`. Whatever is allocated, freed and written, the counts are exact
(`meminfo_exact`).
-/

namespace Xv6Freezer.Kalloc

open Lib
open Lib.Bytes (SameOn)
open Vm (u64 sub64 KERNBASE PHYSTOP PGROUNDUP)

/-! ## `kernel/kalloc.c` -/

/-- Physical memory, and the pointer `kmem.freelist`; 0 is the null pointer. -/
structure Kmem where
  bytes : Bytes
  freelist : Nat

def memset (m : Bytes) (dst : Nat) (c : UInt8) (n : Nat) : Bytes := m.fill dst n fun _ => c

/-- `kfree(pa)`, when `kend` is the address `end`. It panics without a result. -/
def kfree (kend pa : Nat) (k : Kmem) : Option Kmem :=
  if pa % PGSIZE ≠ 0 ∨ pa < kend ∨ pa ≥ PHYSTOP then none
  else some { bytes := (memset k.bytes pa 1 PGSIZE).store64 pa k.freelist, freelist := pa }

def kalloc (k : Kmem) : Kmem × Nat :=
  let r := k.freelist
  if r ≠ 0 then ({ bytes := memset k.bytes r 5 PGSIZE, freelist := k.bytes.load64 r }, r) else (k, 0)

theorem kalloc_of_eq {k : Kmem} (h : k.freelist = 0) : kalloc k = (k, 0) := if_neg fun hne => hne h

theorem kalloc_of_ne {k : Kmem} (h : k.freelist ≠ 0) : kalloc k =
    ({ bytes := memset k.bytes k.freelist 5 PGSIZE, freelist := k.bytes.load64 k.freelist },
      k.freelist) := if_pos h

/-- The loop of `freerange`, with a number of rounds that is large enough. -/
def freerangeLoop (kend paEnd : Nat) : Nat → Nat → Kmem → Option Kmem
  | 0, _, _ => none
  | n + 1, p, k =>
    if p + PGSIZE ≤ paEnd then (kfree kend p k).bind (freerangeLoop kend paEnd n (p + PGSIZE))
    else some k

def freerange (kend paStart paEnd : Nat) (k : Kmem) : Option Kmem :=
  freerangeLoop kend paEnd (paEnd / PGSIZE + 1) (PGROUNDUP paStart) k

def kinit (kend : Nat) (k : Kmem) : Option Kmem := freerange kend kend PHYSTOP k

/-! ## `sys_meminfo` and `user/meminfo.c` -/

/-- The loop that counts the free pages from `r` on; `n` bounds its rounds. -/
def countRuns (m : Bytes) : Nat → Nat → Nat → Option Nat
  | 0, r, freePages => if r = 0 then some freePages else none
  | n + 1, r, freePages =>
    if r = 0 then some freePages else countRuns m n (m.load64 r) (u64 (freePages + 1))

/-- `sys_meminfo()`, if the loop ends in `n` rounds. -/
def sysMeminfo (kend n : Nat) (k : Kmem) : Option Nat :=
  let totalPages := sub64 PHYSTOP kend / PGSIZE
  (countRuns k.bytes n k.freelist 0).map fun freePages =>
    let usedPages := sub64 totalPages freePages
    u64 (freePages <<< 32) ||| usedPages

/-- `main()` of `user/meminfo.c`: the percentage it prints, or nothing after a failure. -/
def meminfoMain (memStats : Nat) : Option Int :=
  if memStats = 2 ^ 64 - 1 then none
  else
    let freePages := memStats >>> 32
    let usedPages := memStats &&& 0xFFFFFFFF
    let freeBytes := u64 (freePages * 4096)
    let usedBytes := u64 (usedPages * 4096)
    let totalBytes := u64 (freeBytes + usedBytes)
    if totalBytes = 0 then some 0 else some (int32 ((u64 (usedBytes * 100) / totalBytes : Nat) : Int))

/-! ## Pages and links -/

def pagesFrom (p : Nat) : Nat → List Nat
  | 0 => []
  | n + 1 => p :: pagesFrom (p + PGSIZE) n

/-- The pages that `kinit` hands out. -/
def pages (kend : Nat) : List Nat :=
  pagesFrom (PGROUNDUP kend) ((PHYSTOP - PGROUNDUP kend) / PGSIZE)

/-- The list that starts at `r` in memory has these pages. -/
def Linked (m : Bytes) : Nat → List Nat → Prop
  | r, [] => r = 0
  | r, pg :: fl => r = pg ∧ Linked m (m.load64 pg) fl

variable {m m' : Bytes} {kend p r pa n : Nat} {fl A : List Nat} {k k' : Kmem}

theorem length_pagesFrom (p n : Nat) : (pagesFrom p n).length = n := by
  induction n generalizing p with
  | zero => rfl
  | succ n ih => rw [pagesFrom, List.length_cons, ih]

theorem mem_pagesFrom : r ∈ pagesFrom p n ↔ ∃ i < n, r = p + i * PGSIZE := by
  induction n generalizing p with
  | zero => simp [pagesFrom]
  | succ n ih =>
    rw [pagesFrom, List.mem_cons, ih]
    constructor
    · rintro (rfl | ⟨i, hi, rfl⟩)
      · exact ⟨0, Nat.succ_pos n, by omega⟩
      · exact ⟨i + 1, by omega, by rw [Nat.succ_mul]; omega⟩
    · rintro ⟨i, hi, rfl⟩
      cases i with
      | zero => exact .inl (by omega)
      | succ i => exact .inr ⟨i, by omega, by rw [Nat.succ_mul]; omega⟩

theorem nodup_pagesFrom (p n : Nat) : (pagesFrom p n).Nodup := by
  induction n generalizing p with
  | zero => exact List.nodup_nil
  | succ n ih =>
    refine List.nodup_cons.mpr ⟨fun h => ?_, ih _⟩
    obtain ⟨i, -, hi⟩ := mem_pagesFrom.mp h
    simp only [PGSIZE] at hi
    omega

theorem PGROUNDUP_eq (h : kend ≤ PHYSTOP) : PGROUNDUP kend = (kend + 4095) / 4096 * 4096 := by
  have hP : PHYSTOP = 2281701376 := rfl
  rw [PGROUNDUP, u64, show PGSIZE = 4096 from rfl, Nat.mod_eq_of_lt (by omega)]
  rfl

theorem length_pages (h : kend ≤ PHYSTOP) : (pages kend).length = (PHYSTOP - kend) / PGSIZE := by
  have hP : PHYSTOP = 2281701376 := rfl
  rw [pages, length_pagesFrom, PGROUNDUP_eq h, show PGSIZE = 4096 from rfl]
  omega

theorem of_mem_pages (hbase : KERNBASE ≤ kend) (h : kend ≤ PHYSTOP) (hr : r ∈ pages kend) :
    r % PGSIZE = 0 ∧ kend ≤ r ∧ r < PHYSTOP ∧ 0 < r := by
  obtain ⟨i, hi, rfl⟩ := mem_pagesFrom.mp hr
  have hP : PHYSTOP = 2281701376 := rfl
  have hB : KERNBASE = 2147483648 := rfl
  rw [PGROUNDUP_eq h, show PGSIZE = 4096 from rfl] at hi ⊢
  omega

theorem Linked.congr (h : Linked m r fl) (hsame : ∀ pg ∈ fl, SameOn m m' pg 8) : Linked m' r fl := by
  induction fl generalizing r with
  | nil => exact h
  | cons pg fl ih =>
    refine ⟨h.1, ?_⟩
    rw [Lib.Bytes.load64_congr (hsame pg (.head _))]
    exact ih h.2 fun pg' hpg => hsame pg' (.tail _ hpg)

theorem sameOn_fill_page {f : Nat → UInt8} (hr : r % PGSIZE = 0) (hp : p % PGSIZE = 0) (hne : r ≠ p)
    (hn : n ≤ PGSIZE) : SameOn m (m.fill p n f) r 8 := by
  refine SameOn.fill_of_disjoint ?_
  simp only [PGSIZE] at hr hp hn
  omega

theorem countRuns_eq (h : Linked m r fl) (hpos : ∀ pg ∈ fl, 0 < pg) (hn : fl.length ≤ n)
    (c : Nat) (hc : c + fl.length < 2 ^ 64) : countRuns m n r c = some (c + fl.length) := by
  induction fl generalizing r n c with
  | nil =>
    rw [show r = 0 from h]
    cases n <;> rfl
  | cons pg fl ih =>
    obtain ⟨rfl, hrest⟩ := h
    have hr := hpos r (.head _)
    cases n with
    | zero => cases hn
    | succ n =>
      rw [List.length_cons] at hn hc ⊢
      rw [countRuns, if_neg (by omega), u64, Nat.mod_eq_of_lt (by omega)]
      rw [ih hrest (fun pg hpg => hpos pg (.tail _ hpg)) (by omega) _ (by omega)]
      congr 1
      omega

/-! ## Histories -/

/-- A history of calls after `kinit` has led to the memory `k` with the pages `A` allocated. Only pages of `A`
are freed; in between, they and the memory below `end` may be written. -/
inductive History (kend : Nat) : Kmem → List Nat → Prop
  | kinit {m : Bytes} {k : Kmem} (h : kinit kend ⟨m, 0⟩ = some k) : History kend k []
  | kalloc {k : Kmem} {A : List Nat} (h : History kend k A) :
      History kend (kalloc k).1 (if (kalloc k).2 = 0 then A else (kalloc k).2 :: A)
  | kfree {k k' : Kmem} {A : List Nat} {pa : Nat} (h : History kend k A) (ha : pa ∈ A)
      (hk : kfree kend pa k = some k') : History kend k' (A.erase pa)
  | write {k : Kmem} {A : List Nat} {m : Bytes} (h : History kend k A)
      (hm : ∀ pg ∈ pages kend, pg ∉ A → SameOn k.bytes m pg PGSIZE) :
      History kend { k with bytes := m } A

/-- The list in memory has the pages that are not allocated. -/
def Exact (kend : Nat) (k : Kmem) (A : List Nat) : Prop :=
  ∃ fl, Linked k.bytes k.freelist fl ∧ (fl ++ A).Perm (pages kend)

section
variable (hbase : KERNBASE ≤ kend) (hend : kend ≤ PHYSTOP)
include hbase hend

theorem kfree_linked (h : Linked k.bytes k.freelist fl) (hfl : ∀ pg ∈ fl, pg ∈ pages kend)
    (hpa : pa ∈ pages kend) (hnot : pa ∉ fl) :
    ∃ k', kfree kend pa k = some k' ∧ Linked k'.bytes k'.freelist (pa :: fl) := by
  obtain ⟨hmod, hge, hlt, -⟩ := of_mem_pages hbase hend hpa
  refine ⟨_, if_neg (by omega), rfl, ?_⟩
  -- the old list fits into a word
  have hP : PHYSTOP = 2281701376 := rfl
  have hsmall : k.freelist < 2 ^ 64 := by
    cases fl with
    | nil => rw [show k.freelist = 0 from h]; decide
    | cons pg fl =>
      rw [h.1]
      have := (of_mem_pages hbase hend (hfl pg (.head _))).2.2.1
      omega
  rw [Lib.Bytes.load64_store64 hsmall]
  refine h.congr fun pg hpg => ?_
  have hpgmod := (of_mem_pages hbase hend (hfl pg hpg)).1
  have hne : pg ≠ pa := fun e => hnot (e ▸ hpg)
  have hset : SameOn k.bytes (memset k.bytes pa 1 PGSIZE) pg 8 :=
    sameOn_fill_page hpgmod hmod hne le_rfl
  have hstore : SameOn (memset k.bytes pa 1 PGSIZE)
      ((memset k.bytes pa 1 PGSIZE).store64 pa k.freelist) pg 8 :=
    sameOn_fill_page hpgmod hmod hne (by decide)
  exact hset.trans hstore

theorem freerangeLoop_linked {j i : Nat} (hj : j < n)
    (hp : p = PGROUNDUP kend + i * PGSIZE) (hij : i + j = (PHYSTOP - PGROUNDUP kend) / PGSIZE)
    (h : Linked k.bytes k.freelist fl) (hfl : ∀ pg ∈ fl, pg ∈ pages kend ∧ pg < p) :
    ∃ k' fl', freerangeLoop kend PHYSTOP n p k = some k' ∧ Linked k'.bytes k'.freelist fl' ∧
      fl'.Perm (pagesFrom p j ++ fl) := by
  have hP : PHYSTOP = 2281701376 := rfl
  have hround := PGROUNDUP_eq hend
  have hpage : PGSIZE = 4096 := rfl
  induction n generalizing p k fl j i with
  | zero => omega
  | succ n ih =>
    cases j with
    | zero =>
      have hstop : ¬ p + PGSIZE ≤ PHYSTOP := by
        rw [hp, hpage] at *
        omega
      exact ⟨k, fl, if_neg hstop, h, .refl _⟩
    | succ j =>
      have hgo : p + PGSIZE ≤ PHYSTOP := by
        rw [hp, hpage] at *
        omega
      have hmem : p ∈ pages kend := mem_pagesFrom.mpr ⟨i, by omega, hp⟩
      obtain ⟨k1, hk1, hl1⟩ := kfree_linked hbase hend h (fun pg hpg => (hfl pg hpg).1) hmem
        fun hin => absurd (hfl p hin).2 (lt_irrefl p)
      obtain ⟨k', fl', hk', hl', hperm⟩ := ih (p := p + PGSIZE) (k := k1) (j := j)
        (i := i + 1) (by omega) (by rw [hp, Nat.succ_mul]; omega) (by omega) hl1 fun pg hpg => by
          rcases List.mem_cons.mp hpg with rfl | hpg
          · exact ⟨hmem, by omega⟩
          · exact ⟨(hfl pg hpg).1, by have := (hfl pg hpg).2; omega⟩
      refine ⟨k', fl', ?_, hl', hperm.trans ?_⟩
      · rw [freerangeLoop, if_pos hgo, hk1]
        exact hk'
      · exact List.perm_middle

theorem kinit_exact (m : Bytes) : ∃ k, kinit kend ⟨m, 0⟩ = some k ∧ Exact kend k [] := by
  have hP : PHYSTOP = 2281701376 := rfl
  obtain ⟨k, fl, hk, hl, hperm⟩ := freerangeLoop_linked (k := ⟨m, 0⟩) (i := 0)
    (n := PHYSTOP / PGSIZE + 1) (p := PGROUNDUP kend) (j := (PHYSTOP - PGROUNDUP kend) / PGSIZE)
    hbase hend (by rw [show PGSIZE = 4096 from rfl]; omega) (by omega) (by omega)
    (show Linked m 0 [] from rfl) nofun
  rw [List.append_nil] at hperm
  exact ⟨k, hk, fl, hl, by rwa [List.append_nil]⟩

theorem History.exact (h : History kend k A) : Exact kend k A := by
  induction h with
  | kinit hk =>
    rename_i m k
    obtain ⟨k', hk', hex⟩ := kinit_exact hbase hend m
    rw [hk] at hk'
    cases hk'
    exact hex
  | kalloc h ih =>
    rename_i k A
    obtain ⟨fl, hl, hperm⟩ := ih
    cases fl with
    | nil =>
      have h0 : k.freelist = 0 := hl
      rw [kalloc_of_eq h0, if_pos rfl]
      exact ⟨[], hl, hperm⟩
    | cons pg fl =>
      have hmem : ∀ x ∈ pg :: fl, x ∈ pages kend := fun x hx =>
        hperm.mem_iff.mp (List.mem_append_left A hx)
      obtain ⟨hmod, -, -, hpos⟩ := of_mem_pages hbase hend (hmem pg (.head _))
      obtain ⟨hr, hrest⟩ := hl
      have hnd : (pg :: fl).Nodup :=
        (List.nodup_append.mp (hperm.nodup_iff.mpr (nodup_pagesFrom _ _))).1
      have hne : k.freelist ≠ 0 := by omega
      rw [kalloc_of_ne hne, if_neg hne, hr]
      refine ⟨fl, hrest.congr fun x hx => ?_, List.perm_middle.trans hperm⟩
      show SameOn k.bytes (memset k.bytes pg 5 PGSIZE) x 8
      exact sameOn_fill_page (of_mem_pages hbase hend (hmem x (.tail _ hx))).1 hmod
        (fun e => (List.nodup_cons.mp hnd).1 (e ▸ hx)) le_rfl
  | kfree h ha hk ih =>
    rename_i k k' A pa
    obtain ⟨fl, hl, hperm⟩ := ih
    have hnd := hperm.nodup_iff.mpr (nodup_pagesFrom _ _)
    have hnot : pa ∉ fl := fun hin => (List.nodup_append.mp hnd).2.2 pa hin pa ha rfl
    obtain ⟨k1, hk1, hl1⟩ := kfree_linked hbase hend hl
      (fun x hx => hperm.mem_iff.mp (List.mem_append_left A hx))
      (hperm.mem_iff.mp (List.mem_append_right fl ha)) hnot
    rw [hk] at hk1
    cases hk1
    refine ⟨pa :: fl, hl1, List.Perm.trans ?_ hperm⟩
    exact List.perm_middle.symm.trans (List.Perm.append_left fl (List.perm_cons_erase ha).symm)
  | write h hm ih =>
    rename_i k A m
    obtain ⟨fl, hl, hperm⟩ := ih
    have hnd := hperm.nodup_iff.mpr (nodup_pagesFrom _ _)
    refine ⟨fl, hl.congr fun pg hpg => ?_, hperm⟩
    exact (hm pg (hperm.mem_iff.mp (List.mem_append_left A hpg)) fun ha =>
      (List.nodup_append.mp hnd).2.2 pg hpg pg ha rfl).mono (i := 0) (by decide)

end

theorem meminfo_decode {free used : Nat} (hfree : free < 2 ^ 31) (hused : used < 2 ^ 31) :
    (u64 (free <<< 32) ||| used) >>> 32 = free ∧
      (u64 (free <<< 32) ||| used) &&& 0xFFFFFFFF = used := by
  have hshift : free <<< 32 = free * 2 ^ 32 := Nat.shiftLeft_eq free 32
  have hu : u64 (free <<< 32) = free <<< 32 := by
    rw [u64, hshift]
    exact Nat.mod_eq_of_lt (by omega)
  have hor : free <<< 32 ||| used = free * 2 ^ 32 + used := by
    rw [← Nat.shiftLeft_add_eq_or_of_lt (by omega), hshift]
  rw [hu, hor]
  constructor
  · rw [Nat.shiftRight_eq_div_pow]
    omega
  · rw [show (0xFFFFFFFF : Nat) = 2 ^ 32 - 1 from rfl, Nat.and_two_pow_sub_one_eq_mod]
    omega

theorem meminfoMain_of_decode {v free used : Nat} (hfree : v >>> 32 = free)
    (hused : v &&& 0xFFFFFFFF = used) (hf : free < 2 ^ 31) (hu : used < 2 ^ 31) :
    ∃ pct : Int, meminfoMain v = some pct ∧ 0 ≤ pct ∧ pct ≤ 100 := by
  have hv : v ≠ 2 ^ 64 - 1 := by
    rintro rfl
    rw [← hfree, Nat.shiftRight_eq_div_pow] at hf
    omega
  rw [meminfoMain, if_neg hv]
  simp only [hfree, hused]
  have h64 : ∀ x < 2 ^ 64, u64 x = x := fun x hx => Nat.mod_eq_of_lt hx
  rw [h64 (free * 4096) (by omega), h64 (used * 4096) (by omega),
    h64 (free * 4096 + used * 4096) (by omega), h64 (used * 4096 * 100) (by omega)]
  split
  · exact ⟨0, rfl, le_rfl, by decide⟩
  · rename_i htot
    have hle : used * 4096 * 100 / (free * 4096 + used * 4096) ≤ 100 := by
      refine Nat.div_le_of_le_mul ?_
      omega
    generalize used * 4096 * 100 / (free * 4096 + used * 4096) = q at hle
    refine ⟨_, rfl, ?_⟩
    rw [int32, Int.bmod_eq_of_le (by omega) (by omega)]
    omega

/-- **The counts of `sys_meminfo` are exact**, for every address of `end` in RAM and every history in which
only allocated pages are freed; nothing panics, the loop ends, and the percentage is between 0 and 100. -/
theorem meminfo_exact (hbase : KERNBASE ≤ kend) (hend : kend ≤ PHYSTOP) :
    (∀ m, ∃ k, kinit kend ⟨m, 0⟩ = some k) ∧
    ∀ k A, History kend k A → (∀ pa ∈ A, ∃ k', kfree kend pa k = some k') ∧
      ∃ fl v, Linked k.bytes k.freelist fl ∧ (fl ++ A).Perm (pages kend) ∧
        fl.length ≤ sub64 PHYSTOP kend / PGSIZE ∧
        (∀ n ≥ fl.length, sysMeminfo kend n k = some v) ∧
        v >>> 32 = fl.length ∧ v &&& 0xFFFFFFFF = A.length ∧
        v >>> 32 + (v &&& 0xFFFFFFFF) = (pages kend).length ∧
        ∃ pct, meminfoMain v = some pct ∧ 0 ≤ pct ∧ pct ≤ 100 := by
  have hP : PHYSTOP = 2281701376 := rfl
  refine ⟨fun m => ?_, fun k A h => ?_⟩
  · obtain ⟨k, hk, -⟩ := kinit_exact hbase hend m
    exact ⟨k, hk⟩
  · obtain ⟨fl, hl, hperm⟩ := h.exact hbase hend
    have hnd := hperm.nodup_iff.mpr (nodup_pagesFrom _ _)
    have hmem : ∀ x ∈ fl, x ∈ pages kend := fun x hx =>
      hperm.mem_iff.mp (List.mem_append_left A hx)
    have hlen : fl.length + A.length = (PHYSTOP - kend) / PGSIZE := by
      rw [← List.length_append, hperm.length_eq, length_pages hend]
    have htotal : sub64 PHYSTOP kend / PGSIZE = (PHYSTOP - kend) / PGSIZE := by
      rw [sub64, u64, u64, Nat.mod_eq_of_lt (by omega : kend < 2 ^ 64)]
      congr 1
      omega
    have hsmall : (PHYSTOP - kend) / PGSIZE < 2 ^ 31 := by
      rw [show PGSIZE = 4096 from rfl]
      omega
    obtain ⟨hdfree, hdused⟩ := meminfo_decode (show fl.length < 2 ^ 31 by omega)
      (show A.length < 2 ^ 31 by omega)
    refine ⟨fun pa ha => ?_, fl, u64 (fl.length <<< 32) ||| A.length, hl, hperm, by omega,
      fun n hn => ?_, hdfree, hdused, by rw [hdfree, hdused, ← hperm.length_eq, List.length_append],
      meminfoMain_of_decode hdfree hdused (by omega) (by omega)⟩
    · have hnot : pa ∉ fl := fun hin => (List.nodup_append.mp hnd).2.2 pa hin pa ha rfl
      obtain ⟨k', hk', -⟩ := kfree_linked hbase hend hl hmem
        (hperm.mem_iff.mp (List.mem_append_right fl ha)) hnot
      exact ⟨k', hk'⟩
    · have hcount := countRuns_eq hl (fun pg hpg => (of_mem_pages hbase hend (hmem pg hpg)).2.2.2) hn
        0 (by omega)
      have hused : sub64 (sub64 PHYSTOP kend / PGSIZE) fl.length = A.length := by
        rw [htotal, ← hlen, sub64, u64, u64, Nat.mod_eq_of_lt (by omega : fl.length < 2 ^ 64)]
        omega
      rw [sysMeminfo, hcount, Option.map_some, Nat.zero_add]
      simp only [hused]

/-- With an unaligned `end` that leaves two pages, after `kinit` and one `kalloc`. -/
theorem meminfo_exact_kalloc : ∃ k pa v, pa ≠ 0 ∧ History (PHYSTOP - 9000) k [pa] ∧
    (∀ n ≥ 1, sysMeminfo (PHYSTOP - 9000) n k = some v) ∧ v >>> 32 = 1 ∧ v &&& 0xFFFFFFFF = 1 := by
  obtain ⟨hinit, hall⟩ := meminfo_exact (show KERNBASE ≤ PHYSTOP - 9000 by decide) (by decide)
  obtain ⟨k, hk⟩ := hinit fun _ => 0
  have hpages : (pages (PHYSTOP - 9000)).length = 2 := by
    rw [length_pages (by decide)]
    decide
  have hne : (kalloc k).2 ≠ 0 := by
    intro h0
    -- `kalloc` fails only if the list is empty, but the two pages are in it
    obtain ⟨-, fl, -, hl, hperm, -⟩ := hall k [] (.kinit hk)
    cases fl with
    | nil =>
      have := hperm.length_eq
      rw [hpages] at this
      cases this
    | cons pg fl =>
      have hpg := of_mem_pages (by decide) (by decide) (hperm.mem_iff.mp (.head _))
      have hr : k.freelist = pg := hl.1
      rw [kalloc_of_ne (by omega)] at h0
      exact hpg.2.2.2.ne' (hr.symm.trans h0)
  have hist : History (PHYSTOP - 9000) (kalloc k).1 [(kalloc k).2] := by
    have := History.kalloc (.kinit hk)
    rwa [if_neg hne] at this
  obtain ⟨-, fl, v, -, hperm, -, hv, hfree, hused, -⟩ := hall _ _ hist
  have hlen : fl.length = 1 := by
    have := hperm.length_eq
    rw [List.length_append, hpages] at this
    exact Nat.succ_injective this
  rw [hlen] at hv hfree
  exact ⟨_, _, v, hne, hist, hv, hfree, hused⟩

end Xv6Freezer.Kalloc

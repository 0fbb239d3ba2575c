import Xv6Freezer.Vm.Freewalk

/-! # A page table is a finite map

Runs of `mappages` and `uvmunmap` on one page table, while the rest of the kernel allocates, frees and writes
pages of its own. What `walk` finds is a finite map that follows the calls (`page_table_is_map`).
-/

namespace Xv6Freezer.Vm

open Lib

/-! ## Translations -/

/-- `walk(pagetable, va, 0)`, and the address and the flags of a valid entry it finds. -/
def lookup (root va : Nat) : M (Option (Nat × Nat)) := do
  let pte ← walk root va false
  if pte = 0 then return none
  else
    let w ← load pte
    if w &&& PTE_V = 0 then return none else return some (PTE2PA w, PTE_FLAGS w)

abbrev PMap := Nat → Option (Nat × Nat)

/-- Where the page with number `v` is mapped. -/
def translate (m : Mem) (root : Nat) : PMap := fun v =>
  if v * PGSIZE < MAXVA then
    match lookup root (v * PGSIZE) m with
    | .ok (x, _) => x
    | .error _ => none
  else none

namespace PMap

def add (f : PMap) (v k pa perm : Nat) : PMap := fun v' =>
  if v ≤ v' ∧ v' < v + k then some (pa + (v' - v) * PGSIZE, perm ||| PTE_V) else f v'

def remove (f : PMap) (v n : Nat) : PMap := fun v' => if v ≤ v' ∧ v' < v + n then none else f v'

end PMap

inductive Op where
  | map (va size pa perm : Nat)
  | unmap (va npages : Nat) (doFree : Bool)

/-- What a call does to the map. A `mappages` that fails has added the first `k` pages. -/
inductive Effect : Op → Int → PMap → PMap → Prop where
  | mapped {f : PMap} (va size pa perm : Nat) :
      Effect (.map va size pa perm) 0 f (f.add (va / PGSIZE) (size / PGSIZE) pa perm)
  | failed {f : PMap} (va size pa perm k : Nat) (hk : k < size / PGSIZE) :
      Effect (.map va size pa perm) (-1) f (f.add (va / PGSIZE) k pa perm)
  | unmapped {f : PMap} (va n : Nat) (doFree : Bool) :
      Effect (.unmap va n doFree) 0 f (f.remove (va / PGSIZE) n)

abbrev Trace := List (Op × Int × PMap)

/-- The translations after the calls so far. -/
def Trace.current : Trace → PMap
  | [] => fun _ => none
  | (_, _, f) :: _ => f

/-- Every call has its effect on the map that the one before left. -/
def Trace.Follows : Trace → Prop
  | [] => True
  | (op, r, f) :: tr => Effect op r (Trace.current tr) f ∧ Trace.Follows tr

/-! ## Runs -/

/-- What `mappages` may be called with: pages below `MAXVA` that are not mapped, a physical address below
`PHYSTOP`, and flags with at least one of R, W and X. -/
structure CanMap (m : Mem) (root va size pa perm : Nat) : Prop where
  va_aligned : va % PGSIZE = 0
  size_aligned : size % PGSIZE = 0
  pos : 0 < size
  le : va + size ≤ MAXVA
  pa_aligned : pa % PGSIZE = 0
  pa_lt : pa < PHYSTOP
  perm_lt : perm < 1024
  leaf : perm &&& (PTE_R ||| PTE_W ||| PTE_X) ≠ 0
  free : ∀ i < size / PGSIZE, translate m root (va / PGSIZE + i) = none

/-- What `uvmunmap` may be called with: pages that are mapped. -/
structure CanUnmap (m : Mem) (root va n : Nat) : Prop where
  va_aligned : va % PGSIZE = 0
  le : va + n * PGSIZE ≤ MAXVA
  mapped : ∀ i < n, translate m root (va / PGSIZE + i) ≠ none

/-- The physical pages of a range. -/
def framesOf (m : Mem) (root va n : Nat) : Multiset Nat :=
  ((List.range n).map fun i => ((translate m root (va / PGSIZE + i)).getD (0, 0)).1 : List Nat)

/-- The states of a page table and of memory. The rest of the kernel may write, free and allocate the other
pages, `C`. -/
inductive Run (L : Layout) (root : Nat) : Trace → Multiset Nat → Mem → Prop where
  | create {C : Multiset Nat} {m m' : Mem} (ho : Owns L C m) (h : uvmcreate m = .ok (root, m'))
      (hroot : root ≠ 0) : Run L root [] C m'
  | map {tr : Trace} {C : Multiset Nat} {m m' : Mem} {va size pa perm : Nat} {r : Int}
      (run : Run L root tr C m) (can : CanMap m root va size pa perm)
      (h : mappages root va size pa perm m = .ok (r, m')) :
      Run L root ((.map va size pa perm, r, translate m' root) :: tr) C m'
  | unmap {tr : Trace} {C : Multiset Nat} {m m' : Mem} {va n : Nat} {doFree : Bool}
      (run : Run L root tr (C + if doFree then framesOf m root va n else 0) m)
      (can : CanUnmap m root va n) (h : uvmunmap L root va n doFree m = .ok ((), m')) :
      Run L root ((.unmap va n doFree, 0, translate m' root) :: tr) C m'
  | other {tr : Trace} {C C' : Multiset Nat} {m m' : Mem} (run : Run L root tr C m)
      (h : heap.Moves C C' m m') : Run L root tr C' m'

variable {L : Layout} {C C' : Multiset Nat} {m m' : Mem} {root v va n pa perm size : Nat} {tr : Trace}

/-! ## Entries and translations -/

/-- What an entry says. -/
def decode (w : Nat) : Option (Nat × Nat) :=
  if w &&& PTE_V = 0 then none else some (PTE2PA w, PTE_FLAGS w)

theorem lookup_eq (h : Shape m.bytes 2 root) (hva : va < MAXVA) :
    lookup root va m = .ok (decode (m.pte root (va / PGSIZE)), m) := by
  have hwp : wp (lookup root va) (fun x m' => x = decode (m.pte root (va / PGSIZE)) ∧ m' = m) m := by
    rw [lookup, wp_bind, walk_read hva]
    cases hs : slot m.bytes 2 root (va / PGSIZE) with
    | none =>
      rw [Option.getD_none, if_pos rfl, wp_pure, Mem.pte, entry_of_slot_none hs]
      exact ⟨rfl, rfl⟩
    | some a =>
      rw [Option.getD_some, if_neg (slot_ne_zero h hs), wp_bind, wp_load, load_of_slot hs, wp_ite,
        wp_pure, wp_pure, decode, Mem.pte]
      split <;> exact ⟨rfl, rfl⟩
  obtain ⟨x, m', he, rfl, rfl⟩ := wp_iff.mp hwp
  exact he

theorem translate_eq (h : Shape m.bytes 2 root) (hv : v * PGSIZE < MAXVA) :
    translate m root v = decode (m.pte root v) := by
  rw [translate, if_pos hv, lookup_eq h hv, Nat.mul_div_cancel _ (by decide)]

theorem translate_of_le (hv : MAXVA ≤ v * PGSIZE) : translate m root v = none := if_neg (by omega)

theorem page_lt' (hv : v * PGSIZE < MAXVA) : v < 512 ^ 3 := by
  have := page_lt hv
  rwa [Nat.mul_div_cancel _ (by decide)] at this

theorem range_lt {i : Nat} (hva : va % PGSIZE = 0) (hle : va + n * PGSIZE ≤ MAXVA) (hi : i < n) :
    (va / PGSIZE + i) * PGSIZE < MAXVA := by
  have hPG : PGSIZE = 4096 := rfl
  have h1 : (i + 1) * PGSIZE ≤ n * PGSIZE := Nat.mul_le_mul_right _ hi
  rw [Nat.add_mul, Nat.div_mul_cancel (Nat.dvd_of_mod_eq_zero hva)]
  rw [Nat.succ_mul] at h1
  omega

theorem decode_eq_none {w : Nat} : decode w = none ↔ w &&& PTE_V = 0 := by
  unfold decode
  split
  · exact iff_of_true rfl ‹_›
  · exact iff_of_false nofun ‹_›

theorem decode_mkPte {pa f : Nat} (hpa : FitsPte pa) (hf : f < 1024) (hv : f &&& PTE_V ≠ 0) :
    decode (mkPte pa f) = some (pa, f) := by
  rw [decode, hpa.mkPte_and hf (by decide), if_neg hv, hpa.PTE2PA_mkPte hf, hpa.PTE_FLAGS_mkPte hf]

/-! ## The invariant -/

structure MapInv (L : Layout) (C : Multiset Nat) (root : Nat) (m : Mem) : Prop where
  table : IsTable L C root m
  /-- Valid entries of the last level are leaves. -/
  leaf : ∀ v < 512 ^ 3, m.pte root v &&& PTE_V ≠ 0 → PTE_FLAGS (m.pte root v) ≠ PTE_V
  upper : ∀ v < 512 ^ 3, MAXVA ≤ v * PGSIZE → m.pte root v &&& PTE_V = 0

theorem create_inv (ho : Owns L C m) (h : uvmcreate m = .ok (root, m')) (hroot : root ≠ 0) :
    MapInv L C root m' ∧ ∀ v, m'.pte root v = 0 := by
  obtain ⟨r, m1, he, -, hQ⟩ := wp_iff.mp (uvmcreate_spec ho)
  rw [h] at he
  obtain ⟨rfl, rfl⟩ : root = r ∧ m' = m1 := by simpa using he
  obtain ⟨ht, -, hpte⟩ := hQ hroot
  refine ⟨⟨ht, fun v _ hv => ?_, fun v _ _ => by rw [hpte, zero_and]⟩, hpte⟩
  rw [hpte] at hv
  exact absurd (zero_and _) hv

theorem MapInv.other (I : MapInv L C root m) (h : heap.Moves C C' m m') :
    MapInv L C' root m' ∧ ∀ v, m'.pte root v = m.pte root v := by
  obtain ⟨ht, -, -, hpte⟩ := I.table.other h
  refine ⟨⟨ht, fun v hv => ?_, fun v hv => ?_⟩, hpte⟩
  · rw [hpte]; exact I.leaf v hv
  · rw [hpte]; exact I.upper v hv

theorem flags_ne (hp : perm < 1024) (hl : perm &&& (PTE_R ||| PTE_W ||| PTE_X) ≠ 0) :
    perm ||| PTE_V < 1024 ∧ (perm ||| PTE_V) &&& PTE_V ≠ 0 ∧ perm ||| PTE_V ≠ PTE_V := by
  refine ⟨Nat.or_lt_two_pow (n := 10) hp (by decide), ?_, fun h => hl ?_⟩
  · rw [Nat.and_or_distrib_right]
    intro h
    have := (Nat.or_eq_zero_iff.mp h).2
    exact absurd this (by decide)
  · have hand := congrArg (· &&& (PTE_R ||| PTE_W ||| PTE_X)) h
    simp only [Nat.and_or_distrib_right] at hand
    exact (Nat.or_eq_zero_iff.mp (hand.trans (by decide))).1

theorem MapInv.map (I : MapInv L C root m) (can : CanMap m root va size pa perm) :
    ∃ r m', mappages root va size pa perm m = .ok (r, m') ∧ MapInv L C root m' ∧
      Effect (.map va size pa perm) r (translate m root) (translate m' root) := by
  have hsh := I.table.shape
  have hsize : size / PGSIZE * PGSIZE = size := Nat.div_mul_cancel (Nat.dvd_of_mod_eq_zero can.size_aligned)
  have hle : va + size / PGSIZE * PGSIZE ≤ MAXVA := by rw [hsize]; exact can.le
  have hpa : pa < 2 ^ 32 := can.pa_lt.trans (by decide)
  have hmaxva : MAXVA = 2 ^ 38 := rfl
  have hmax := can.le
  obtain ⟨hflags, hvalid, hne⟩ := flags_ne can.perm_lt can.leaf
  obtain ⟨r, m', he, hM⟩ := wp_iff.mp (mappages_spec I.table can.va_aligned can.size_aligned can.pos
    can.le can.pa_aligned (by omega) can.perm_lt fun i hi => by
      rw [← decode_eq_none, ← translate_eq hsh (range_lt can.va_aligned hle hi)]
      exact can.free i hi)
  obtain ⟨k, hk, hpages⟩ := hM.pages
  have hkn : k ≤ size / PGSIZE := by omega
  -- the pages that have been added, and their entries
  have hin : ∀ v, va / PGSIZE ≤ v ∧ v < va / PGSIZE + k → v * PGSIZE < MAXVA ∧
      FitsPte (pa + (v - va / PGSIZE) * PGSIZE) := fun v hv => by
    have h1 := range_lt (i := v - va / PGSIZE) can.va_aligned hle (by omega)
    have h2 : (v - va / PGSIZE) * PGSIZE ≤ size / PGSIZE * PGSIZE := Nat.mul_le_mul_right _ (by omega)
    rw [Nat.add_sub_cancel' hv.1] at h1
    refine ⟨h1, ?_, by omega⟩
    rw [Nat.add_mul_mod_self_right]
    exact can.pa_aligned
  have htr : translate m' root = (translate m root).add (va / PGSIZE) k pa perm := by
    funext v
    by_cases hv : v * PGSIZE < MAXVA
    · rw [translate_eq hM.table.shape hv, hpages v (page_lt' hv), addPages, PMap.add, translate_eq hsh hv]
      split
      · rename_i hr
        exact decode_mkPte (hin v hr).2 hflags hvalid
      · rfl
    · rw [translate_of_le (by omega), PMap.add, if_neg fun hr => hv (hin v hr).1,
        translate_of_le (by omega)]
  refine ⟨r, m', he, ⟨hM.table, fun v hv => ?_, fun v hv hup => ?_⟩, ?_⟩
  · rw [hpages v hv, addPages]
    split
    · rename_i hr
      rw [(hin v hr).2.PTE_FLAGS_mkPte hflags]
      exact fun _ => hne
    · exact I.leaf v hv
  · rw [hpages v hv, addPages, if_neg fun hr => absurd (hin v hr).1 (by omega)]
    exact I.upper v hv hup
  · rw [htr]
    rcases hk with ⟨rfl, rfl⟩ | ⟨rfl, hk⟩
    · exact .mapped va size pa perm
    · exact .failed va size pa perm k hk

theorem MapInv.unmap {doFree : Bool} (can : CanUnmap m root va n)
    (I : MapInv L (C + if doFree then framesOf m root va n else 0) root m) :
    ∃ m', uvmunmap L root va n doFree m = .ok ((), m') ∧ MapInv L C root m' ∧
      Effect (.unmap va n doFree) 0 (translate m root) (translate m' root) := by
  have hsh := I.table.shape
  have hvalid : ∀ i < n, m.pte root (va / PGSIZE + i) &&& PTE_V ≠ 0 := fun i hi h => by
    refine can.mapped i hi ?_
    rw [translate_eq hsh (range_lt can.va_aligned can.le hi)]
    exact decode_eq_none.mpr h
  have hframes : framesOf m root va n = mappedPages (m.pte root) (va / PGSIZE) n := by
    unfold framesOf mappedPages
    congr 1
    refine List.map_congr_left fun i hi => ?_
    have hi := List.mem_range.mp hi
    rw [translate_eq hsh (range_lt can.va_aligned can.le hi), decode, if_neg (hvalid i hi)]
    rfl
  have htable := I.table
  rw [hframes] at htable
  obtain ⟨_, m', he, ht, -, hpages⟩ := wp_iff.mp (uvmunmap_spec htable can.va_aligned can.le fun i hi =>
    ⟨hvalid i hi, I.leaf _ (page_lt' (range_lt can.va_aligned can.le hi)) (hvalid i hi)⟩)
  have htr : translate m' root = (translate m root).remove (va / PGSIZE) n := by
    funext v
    by_cases hv : v * PGSIZE < MAXVA
    · rw [translate_eq ht.shape hv, hpages v (page_lt' hv), removePages, PMap.remove, translate_eq hsh hv]
      split
      · rfl
      · rfl
    · rw [translate_of_le (by omega), PMap.remove, translate_of_le (by omega), ite_self]
  refine ⟨m', he, ⟨ht, fun v hv => ?_, fun v hv hup => ?_⟩, ?_⟩
  · rw [hpages v hv, removePages]
    split
    · exact fun h => absurd (zero_and _) h
    · exact I.leaf v hv
  · rw [hpages v hv, removePages]
    split
    · exact zero_and _
    · exact I.upper v hv hup
  · rw [htr]
    exact .unmapped va n doFree

theorem MapInv.freewalk (I : MapInv L C root m) (hnone : ∀ v, translate m root v = none) :
    ∃ m' ts, Vm.freewalk L 3 root m = .ok ((), m') ∧ m'.freelist = ts ++ m.freelist ∧ ts.Nodup ∧
      (ts : Multiset Nat) = tables m.bytes 2 root ∧ m'.doubleFree = m.doubleFree := by
  have hentry : ∀ v, entry m.bytes 2 root v &&& PTE_V = 0 := by
    intro v
    have hlt : v % 512 ^ 3 < 512 ^ 3 := Nat.mod_lt _ (by positivity)
    rw [← Nat.div_add_mod v (512 ^ 3), Nat.mul_comm, entry_add]
    by_cases hva : v % 512 ^ 3 * PGSIZE < MAXVA
    · rw [← decode_eq_none]
      exact (translate_eq I.table.shape hva).symm.trans (hnone _)
    · exact I.upper _ hlt (by omega)
  obtain ⟨_, m', he, hmv, ts, hts, hsum⟩ :=
    wp_iff.mp (freewalk_spec (C := C) I.table.shape I.table.owns hentry)
  refine ⟨m', ts, he, hts, ?_, hsum, hmv.le.1⟩
  rw [← Multiset.coe_nodup, hsum]
  exact I.table.owns.left.nodup_owned

theorem Run.inv (run : Run L root tr C m) :
    MapInv L C root m ∧ tr.Follows ∧ translate m root = tr.current := by
  induction run with
  | create ho h hroot =>
    obtain ⟨I, hpte⟩ := create_inv ho h hroot
    refine ⟨I, trivial, funext fun v => ?_⟩
    by_cases hv : v * PGSIZE < MAXVA
    · rw [translate_eq I.table.shape hv, hpte]
      rfl
    · exact translate_of_le (by omega)
  | map run can h ih =>
    obtain ⟨I, hfollows, hcur⟩ := ih
    obtain ⟨r, m', he, I', heff⟩ := I.map can
    rw [h] at he
    obtain ⟨rfl, rfl⟩ := Prod.mk.inj (Except.ok.inj he)
    rw [hcur] at heff
    exact ⟨I', ⟨heff, hfollows⟩, rfl⟩
  | unmap run can h ih =>
    obtain ⟨I, hfollows, hcur⟩ := ih
    obtain ⟨m', he, I', heff⟩ := I.unmap can
    rw [h] at he
    obtain ⟨-, rfl⟩ := Prod.mk.inj (Except.ok.inj he)
    rw [hcur] at heff
    exact ⟨I', ⟨heff, hfollows⟩, rfl⟩
  | other run h ih =>
    obtain ⟨I, hfollows, hcur⟩ := ih
    obtain ⟨I', hpte⟩ := I.other h
    refine ⟨I', hfollows, hcur ▸ funext fun v => ?_⟩
    by_cases hv : v * PGSIZE < MAXVA
    · rw [translate_eq I'.table.shape hv, translate_eq I.table.shape hv, hpte]
    · rw [translate_of_le (by omega), translate_of_le (by omega)]

/-- **A page table is a finite map.** `mappages` adds the pages of its range, or the first of them, and
`uvmunmap` removes them; `walk` finds exactly what the map has; no call panics; and once the map is empty,
`freewalk` frees each page of the table, once. -/
theorem page_table_is_map (run : Run L root tr C m) :
    tr.Follows ∧
    (∀ va < MAXVA, lookup root va m = .ok (tr.current (va / PGSIZE), m)) ∧
    (∀ va size pa perm, CanMap m root va size pa perm →
      ∃ r m', mappages root va size pa perm m = .ok (r, m') ∧
        Effect (.map va size pa perm) r tr.current (translate m' root)) ∧
    (∀ va n doFree C', CanUnmap m root va n → C = C' + (if doFree then framesOf m root va n else 0) →
      ∃ m', uvmunmap L root va n doFree m = .ok ((), m') ∧
        Effect (.unmap va n doFree) 0 tr.current (translate m' root)) ∧
    ((∀ v, tr.current v = none) → ∃ m' ts, freewalk L 3 root m = .ok ((), m') ∧
      m'.freelist = ts ++ m.freelist ∧ ts.Nodup ∧ (ts : Multiset Nat) = tables m.bytes 2 root ∧
      m'.doubleFree = m.doubleFree) := by
  obtain ⟨I, hfollows, hcur⟩ := run.inv
  rw [← hcur]
  refine ⟨hfollows, fun va hva => ?_, fun va size pa perm can => ?_, fun va n doFree C' can hC => ?_,
    fun hnone => I.freewalk hnone⟩
  · rw [lookup_eq I.table.shape hva, translate_eq I.table.shape]
    exact (Nat.div_mul_le_self va PGSIZE).trans_lt hva
  · obtain ⟨r, m', he, -, heff⟩ := I.map can
    exact ⟨r, m', he, heff⟩
  · subst hC
    obtain ⟨m', he, -, heff⟩ := I.unmap can
    exact ⟨m', he, heff⟩

/-- A kernel of one page. -/
def smallLayout : Layout where
  kernelEnd := KERNBASE + PGSIZE
  trampoline := KERNBASE
  base_le := Nat.le_refl _
  trampoline_aligned := by decide
  trampoline_lt := Nat.le_refl _

/-- Memory with three free pages. -/
def smallMem : Mem where
  bytes _ := 0
  freelist := [KERNBASE + PGSIZE, KERNBASE + 2 * PGSIZE, KERNBASE + 3 * PGSIZE]
  fails := []
  doubleFree := false

theorem smallMem_owns : Owns smallLayout 0 smallMem := by
  refine ⟨?_, fun x hx => ?_, fun x hx => ?_⟩
  · rw [add_zero]
    show (smallMem.freelist : Multiset Nat).Nodup
    rw [Multiset.coe_nodup]
    decide
  all_goals
    rw [add_zero] at hx
    have hx : x ∈ smallMem.freelist := hx
    simp only [smallMem, List.mem_cons, List.not_mem_nil, or_false] at hx
    rcases hx with rfl | rfl | rfl
  · exact ⟨by decide, by decide, by decide⟩
  · exact ⟨by decide, by decide, by decide⟩
  · exact ⟨by decide, by decide, by decide⟩
  · decide
  · decide
  · decide

theorem page_table_is_map_one : ∃ root m f,
    Run smallLayout root [(.map 0 PGSIZE KERNBASE PTE_R, 0, f)] 0 m ∧
      lookup root 0 m = .ok (some (KERNBASE, PTE_R ||| PTE_V), m) := by
  obtain ⟨root, m, hm⟩ : ∃ root m, uvmcreate smallMem = .ok (root, m) := ⟨_, _, rfl⟩
  have hroot : root = KERNBASE + PGSIZE := by
    have h := congrArg (fun x => x.toOption.map Prod.fst) hm
    exact (Option.some.inj h).symm
  have run := Run.create smallMem_owns hm (by rw [hroot]; decide)
  obtain ⟨-, -, hcur⟩ := run.inv
  have can : CanMap m root 0 PGSIZE KERNBASE PTE_R :=
    ⟨rfl, rfl, by decide, by decide, by decide, by decide, by decide, by decide, fun i _ => by
      rw [hcur]; rfl⟩
  obtain ⟨-, -, hmap, -⟩ := page_table_is_map run
  obtain ⟨r, m', he, heff⟩ := hmap 0 PGSIZE KERNBASE PTE_R can
  have hr : r = 0 := by
    have hex : ((uvmcreate smallMem).toOption.bind fun x =>
        (mappages x.1 0 PGSIZE KERNBASE PTE_R x.2).toOption.map Prod.fst) = some 0 := by decide
    rw [hm] at hex
    simp only [Except.toOption, Option.bind_some, he, Option.map_some] at hex
    exact Option.some.inj hex
  subst hr
  have run' := Run.map run can he
  obtain ⟨-, hlookup, -⟩ := page_table_is_map run'
  have hmapped : translate m' root =
      PMap.add (fun _ => none) (0 / PGSIZE) (PGSIZE / PGSIZE) KERNBASE PTE_R := by
    generalize translate m' root = g at heff
    cases heff
    rfl
  refine ⟨root, m', _, run', ?_⟩
  rw [hlookup 0 (by decide), Trace.current, hmapped]
  rfl

end Xv6Freezer.Vm

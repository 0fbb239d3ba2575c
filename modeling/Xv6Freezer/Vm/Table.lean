import Xv6Freezer.Lib.Own
import Xv6Freezer.Vm.Pte

/-! # Page tables in memory

A page table in the bytes of memory: its pages (`tables`), the address at which `walk` finds an entry
(`slot`), that entry (`entry`), and the condition that every entry above the last level is zero or a bare
pointer to the next table (`Shape`).
-/

namespace Xv6Freezer.Vm

open Lib
open Finset (range)

/-! ## Pages as cells -/

/-- The content of the page at `pg`, if a page starts there. -/
def page (m : Mem) (pg : Nat) : Fin PGSIZE → UInt8 := fun i =>
  if pg % PGSIZE = 0 then m.bytes (pg + i) else 0

/-- Memory as a heap of pages; `kalloc` takes its decisions off the front of `fails`. -/
def heap : Heap Mem Nat (Fin PGSIZE → UInt8) where
  free m := m.freelist
  cell := page
  Le m m' := m'.doubleFree = m.doubleFree ∧ m'.fails <:+ m.fails
  refl _ := ⟨rfl, List.suffix_refl _⟩
  trans h h' := ⟨h'.1.trans h.1, h'.2.trans h.2⟩

abbrev SamePage (b b' : Bytes) (pg : Nat) : Prop := b.SameOn b' pg PGSIZE

variable {b b' : Bytes} {m m' : Mem} {l pg pg' c i j v v' a x : Nat}

theorem samePage_of_page (hp : pg % PGSIZE = 0) (h : page m' pg = page m pg) :
    SamePage m.bytes m'.bytes pg := by
  intro i hi
  have := congrFun h ⟨i, hi⟩
  simpa only [page, if_pos hp] using this

theorem page_of_samePage (h : pg % PGSIZE = 0 → SamePage m.bytes m'.bytes pg) :
    page m' pg = page m pg := by
  funext i
  unfold page
  split
  · rename_i hp
    exact h hp i i.isLt
  · rfl

theorem moves_bytes {A : Multiset Nat}
    (h : ∀ x, x % PGSIZE = 0 → x ∉ A → SamePage m.bytes b x) :
    heap.Moves A A m { m with bytes := b } where
  cells := rfl
  same x hx := page_of_samePage fun hp => h x hp fun hA => hx (Multiset.mem_add.2 (.inr hA))
  le := heap.refl m

theorem samePage_of_moves {A A' C : Multiset Nat} (h : heap.Moves A A' m m')
    (hn : (heap.free m + (A + C)).Nodup) (hC : ∀ x ∈ C, IsPage x) :
    ∀ x ∈ C, SamePage m.bytes m'.bytes x :=
  fun x hx => samePage_of_page (hC x hx).aligned (h.same_frame hn x hx)

theorem samePage_fill {f : Nat → UInt8} {n o : Nat} (h : IsPage pg) (h' : pg' % PGSIZE = 0)
    (hne : pg' ≠ pg) (ho : o + n ≤ PGSIZE) : SamePage b (b.fill (pg + o) n f) pg' := by
  have h1 := h.aligned
  apply Bytes.SameOn.fill_of_disjoint
  unfold PGSIZE at *
  omega

theorem samePage_fill_page {f : Nat → UInt8} (h : IsPage pg) (h' : pg' % PGSIZE = 0)
    (hne : pg' ≠ pg) : SamePage b (b.fill pg PGSIZE f) pg' :=
  samePage_fill h h' hne (Nat.zero_add PGSIZE).le

theorem moves_fill {f : Nat → UInt8} (h : IsPage pg) :
    heap.Moves {pg} {pg} m { m with bytes := m.bytes.fill pg PGSIZE f } :=
  moves_bytes fun _ hy hne => samePage_fill_page h hy fun e => hne (by simp [e])

/-- The `i`-th entry of the table in page `pg`. -/
def word (b : Bytes) (pg i : Nat) : Nat := b.load64 (pg + 8 * i)

theorem word_congr (h : SamePage b b' pg) (hi : i < 512) : word b' pg i = word b pg i :=
  Bytes.load64_congr (h.mono (by unfold PGSIZE; omega))

theorem samePage_store (h : IsPage pg) (h' : pg' % PGSIZE = 0) (hne : pg' ≠ pg) (hi : i < 512) :
    SamePage b (b.store64 (pg + 8 * i) x) pg' :=
  samePage_fill h h' hne (by unfold PGSIZE; omega)

theorem word_store (hx : x < 2 ^ 64) : word (b.store64 (pg + 8 * i) x) pg i = x :=
  Bytes.load64_store64 hx

theorem word_store_of_ne (h : IsPage pg) (hne : j ≠ i) :
    word (b.store64 (pg + 8 * i) x) pg j = word b pg j := by
  have := h.aligned
  unfold PGSIZE at this
  exact Bytes.load64_store64_of_ne (by omega) (by omega) (by omega)

/-! ## Sums over the entries of a table

They stand in definitions of their own, which are not unfolded: the sums have 512 terms. -/

@[irreducible] def entries (f : Nat → Multiset Nat) : Multiset Nat := ∑ i ∈ range 512, f i

/-- The sum over the entries but the `i`-th. -/
@[irreducible] def others (i : Nat) (f : Nat → Multiset Nat) : Multiset Nat :=
  ∑ j ∈ (range 512).erase i, f j

variable {f g : Nat → Multiset Nat}

theorem mem_entries : x ∈ entries f ↔ ∃ i < 512, x ∈ f i := by
  unfold entries
  generalize 512 = n
  simp [Multiset.mem_sum]

theorem mem_others : x ∈ others i f ↔ ∃ j < 512, j ≠ i ∧ x ∈ f j := by
  unfold others
  generalize 512 = n
  simp only [Multiset.mem_sum, Finset.mem_erase, Finset.mem_range]
  exact ⟨fun ⟨j, ⟨hne, hj⟩, hx⟩ => ⟨j, hj, hne, hx⟩, fun ⟨j, hj, hne, hx⟩ => ⟨j, ⟨hne, hj⟩, hx⟩⟩

theorem entries_split (hi : i < 512) : entries f = f i + others i f := by
  unfold entries others
  rw [Finset.add_sum_erase _ _ (Finset.mem_range.2 hi)]

theorem entries_congr (h : ∀ i < 512, f i = g i) : entries f = entries g := by
  unfold entries
  exact Finset.sum_congr rfl fun i hi => h i (Finset.mem_range.1 hi)

theorem others_congr (h : ∀ j < 512, j ≠ i → f j = g j) : others i f = others i g := by
  unfold others
  exact Finset.sum_congr rfl fun j hj =>
    h j (Finset.mem_range.1 (Finset.mem_of_mem_erase hj)) (Finset.ne_of_mem_erase hj)

theorem entries_zero (h : ∀ i < 512, f i = 0) : entries f = 0 := by
  unfold entries
  exact Finset.sum_eq_zero fun i hi => h i (Finset.mem_range.1 hi)

theorem entries_eq_sum : entries f = ((List.range 512).map f).sum := by
  unfold entries
  rw [Finset.sum_eq_multiset_sum, Finset.range_val, ← Multiset.coe_range, Multiset.map_coe,
    Multiset.sum_coe]

/-! ## The tree of tables -/

/-- The pages of the page table at `pg`, with `l` levels below it. -/
def tables (b : Bytes) : Nat → Nat → Multiset Nat
  | 0, pg => {pg}
  | l + 1, pg => {pg} + entries fun i =>
      if word b pg i &&& PTE_V ≠ 0 then tables b l (PTE2PA (word b pg i)) else 0

/-- The pages below the `i`-th entry. -/
def below (b : Bytes) (l pg i : Nat) : Multiset Nat :=
  if word b pg i &&& PTE_V ≠ 0 then tables b l (PTE2PA (word b pg i)) else 0

theorem tables_zero : tables b 0 pg = {pg} := rfl

theorem tables_succ : tables b (l + 1) pg = {pg} + entries (below b l pg) := rfl

/-- The address of the entry for page number `v`, if all tables on the way exist. -/
def slot (b : Bytes) : Nat → Nat → Nat → Option Nat
  | 0, pg, v => some (pg + 8 * (v % 512))
  | l + 1, pg, v =>
    if word b pg (v / 512 ^ (l + 1) % 512) &&& PTE_V ≠ 0 then
      slot b l (PTE2PA (word b pg (v / 512 ^ (l + 1) % 512))) v
    else none

/-- The entry for page number `v`; 0 if some table on the way does not exist. -/
def entry (b : Bytes) : Nat → Nat → Nat → Nat
  | 0, pg, v => word b pg (v % 512)
  | l + 1, pg, v =>
    if word b pg (v / 512 ^ (l + 1) % 512) &&& PTE_V ≠ 0 then
      entry b l (PTE2PA (word b pg (v / 512 ^ (l + 1) % 512))) v
    else 0

/-- An entry above the last level is zero or points to a table, with no flag but `PTE_V`. -/
def Shape (b : Bytes) : Nat → Nat → Prop
  | 0, pg => IsPage pg
  | l + 1, pg => IsPage pg ∧
      ∀ i < 512, word b pg i = 0 ∨ ∃ c, word b pg i = mkPte c PTE_V ∧ Shape b l c

theorem digit_lt (v k : Nat) : v / k % 512 < 512 := Nat.mod_lt _ (by decide)

theorem Shape.isPage (h : Shape b l pg) : IsPage pg := by
  cases l with
  | zero => exact h
  | succ l => exact h.1

theorem pointer_and (hc : IsPage c) : mkPte c PTE_V &&& PTE_V ≠ 0 := by
  rw [mkPte_and hc (by decide) (by decide)]
  decide

theorem PTE2PA_pointer (hc : IsPage c) : PTE2PA (mkPte c PTE_V) = c := PTE2PA_mkPte hc (by decide)

theorem pointer_perm (hc : IsPage c) : mkPte c PTE_V &&& (PTE_R ||| PTE_W ||| PTE_X) = 0 := by
  rw [mkPte_and hc (by decide) (by decide)]
  decide

theorem Shape.child (h : Shape b (l + 1) pg) (hi : i < 512) (hv : word b pg i &&& PTE_V ≠ 0) :
    ∃ c, word b pg i = mkPte c PTE_V ∧ Shape b l c := by
  obtain h0 | hc := h.2 i hi
  · rw [h0] at hv
    exact absurd (by decide) hv
  · exact hc

theorem below_of_pointer (hw : word b pg i = mkPte c PTE_V) (hc : IsPage c) :
    below b l pg i = tables b l c := by
  rw [below, hw, if_pos (pointer_and hc), PTE2PA_pointer hc]

theorem below_of_invalid (hw : word b pg i &&& PTE_V = 0) : below b l pg i = 0 := by
  rw [below, if_neg (by simpa using hw)]


theorem tables_split (hi : i < 512) :
    tables b (l + 1) pg = {pg} + (below b l pg i + others i (below b l pg)) := by
  rw [tables_succ, entries_split hi]

theorem tables_split' (hi : i < 512) :
    tables b (l + 1) pg = below b l pg i + {pg} + others i (below b l pg) := by
  rw [tables_split hi, ← add_assoc, add_comm (below b l pg i)]

theorem self_mem_tables : pg ∈ tables b l pg := by
  cases l with
  | zero =>
    rw [tables_zero]
    exact Multiset.mem_singleton_self pg
  | succ l =>
    rw [tables_succ]
    exact Multiset.mem_add.2 (.inl (Multiset.mem_singleton_self pg))

theorem below_le (hi : i < 512) : below b l pg i ≤ tables b (l + 1) pg := by
  rw [tables_split hi]
  exact (Multiset.le_add_right _ _).trans (Multiset.le_add_left _ _)

theorem Shape.isPage_of_mem (h : Shape b l pg) (hx : x ∈ tables b l pg) : IsPage x := by
  induction l generalizing pg with
  | zero =>
    rw [tables_zero, Multiset.mem_singleton] at hx
    rwa [hx]
  | succ l ih =>
    rw [tables_succ, Multiset.mem_add, Multiset.mem_singleton] at hx
    obtain rfl | hx := hx
    · exact h.isPage
    · obtain ⟨i, hi, hx⟩ := mem_entries.1 hx
      by_cases hv : word b pg i &&& PTE_V = 0
      · rw [below_of_invalid hv] at hx
        exact absurd hx (Multiset.notMem_zero x)
      · obtain ⟨c, hw, hs⟩ := h.child hi hv
        rw [below_of_pointer hw hs.isPage] at hx
        exact ih hs hx

/-! ## The tree depends on its own pages only -/

theorem word_congr_root (h : ∀ x ∈ tables b l pg, SamePage b b' x) (hi : i < 512) :
    word b' pg i = word b pg i :=
  word_congr (h pg self_mem_tables) hi

theorem same_below (h : ∀ x ∈ tables b (l + 1) pg, SamePage b b' x) (hi : i < 512)
    (hv : word b pg i &&& PTE_V ≠ 0) :
    ∀ x ∈ tables b l (PTE2PA (word b pg i)), SamePage b b' x := by
  intro x hx
  refine h x (Multiset.mem_of_le (below_le hi) ?_)
  rwa [below, if_pos hv]

theorem tables_congr (h : ∀ x ∈ tables b l pg, SamePage b b' x) :
    tables b' l pg = tables b l pg := by
  induction l generalizing pg with
  | zero => rw [tables_zero, tables_zero]
  | succ l ih =>
    rw [tables_succ, tables_succ, entries_congr (g := below b l pg)]
    intro i hi
    rw [below, below, word_congr_root h hi]
    split
    · rename_i hv
      exact ih (same_below h hi hv)
    · rfl

theorem slot_congr (h : ∀ x ∈ tables b l pg, SamePage b b' x) : slot b' l pg v = slot b l pg v := by
  induction l generalizing pg with
  | zero => rfl
  | succ l ih =>
    simp only [slot]
    rw [word_congr_root h (digit_lt _ _)]
    split
    · rename_i hv
      exact ih (same_below h (digit_lt _ _) hv)
    · rfl

theorem entry_congr (h : ∀ x ∈ tables b l pg, SamePage b b' x) :
    entry b' l pg v = entry b l pg v := by
  induction l generalizing pg with
  | zero => exact word_congr_root h (Nat.mod_lt _ (by decide))
  | succ l ih =>
    simp only [entry]
    rw [word_congr_root h (digit_lt _ _)]
    split
    · rename_i hv
      exact ih (same_below h (digit_lt _ _) hv)
    · rfl

theorem Shape.congr (hs : Shape b l pg) (h : ∀ x ∈ tables b l pg, SamePage b b' x) :
    Shape b' l pg := by
  induction l generalizing pg with
  | zero => exact hs
  | succ l ih =>
    refine ⟨hs.1, fun i hi => ?_⟩
    rw [word_congr_root h hi]
    obtain h0 | ⟨c, hw, hc⟩ := hs.2 i hi
    · exact .inl h0
    · refine .inr ⟨c, hw, ih hc ?_⟩
      have hbelow := same_below h hi (by rw [hw]; exact pointer_and hc.isPage)
      rwa [hw, PTE2PA_pointer hc.isPage] at hbelow

/-! ## Empty tables -/

def ZeroPage (b : Bytes) (pg : Nat) : Prop := ∀ i < 512, word b pg i = 0

theorem zeroPage_fill (b : Bytes) (pg : Nat) : ZeroPage (b.fill pg PGSIZE fun _ => 0) pg := by
  intro i hi
  refine Bytes.load64_zero fun k hk => ?_
  rw [Nat.add_assoc]
  exact Bytes.fill_of_lt (by unfold PGSIZE; omega)

theorem zero_and (f : Nat) : 0 &&& f = 0 := Nat.zero_and f

theorem ZeroPage.shape (hz : ZeroPage b pg) (hp : IsPage pg) : Shape b l pg := by
  cases l with
  | zero => exact hp
  | succ l => exact ⟨hp, fun i hi => .inl (hz i hi)⟩

theorem ZeroPage.tables (hz : ZeroPage b pg) : tables b l pg = {pg} := by
  cases l with
  | zero => rw [tables_zero]
  | succ l =>
    rw [tables_succ, entries_zero, add_zero]
    intro i hi
    exact below_of_invalid (by rw [hz i hi, zero_and])

theorem ZeroPage.entry (hz : ZeroPage b pg) : entry b l pg v = 0 := by
  cases l with
  | zero => exact hz _ (Nat.mod_lt _ (by decide))
  | succ l => rw [Vm.entry, hz _ (digit_lt _ _), if_neg (by simp)]

/-! ## One step down the tree -/

theorem entry_of_pointer (hw : word b pg (v / 512 ^ (l + 1) % 512) = mkPte c PTE_V)
    (hc : IsPage c) : entry b (l + 1) pg v = entry b l c v := by
  rw [entry, hw, if_pos (pointer_and hc), PTE2PA_pointer hc]

theorem entry_of_invalid (hw : word b pg (v / 512 ^ (l + 1) % 512) &&& PTE_V = 0) :
    entry b (l + 1) pg v = 0 := by
  rw [entry, if_neg (by simpa using hw)]

theorem slot_of_pointer (hw : word b pg (v / 512 ^ (l + 1) % 512) = mkPte c PTE_V)
    (hc : IsPage c) : slot b (l + 1) pg v = slot b l c v := by
  rw [slot, hw, if_pos (pointer_and hc), PTE2PA_pointer hc]

theorem slot_of_invalid (hw : word b pg (v / 512 ^ (l + 1) % 512) &&& PTE_V = 0) :
    slot b (l + 1) pg v = none := by
  rw [slot, if_neg (by simpa using hw)]

theorem exists_of_slot (hs : Shape b l pg) (h : slot b l pg v = some a) :
    ∃ t ∈ tables b l pg, ∃ i < 512, a = t + 8 * i := by
  induction l generalizing pg with
  | zero =>
    cases h
    exact ⟨pg, self_mem_tables, v % 512, Nat.mod_lt _ (by decide), rfl⟩
  | succ l ih =>
    have hd := digit_lt v (512 ^ (l + 1))
    by_cases hv : word b pg (v / 512 ^ (l + 1) % 512) &&& PTE_V = 0
    · rw [slot_of_invalid hv] at h
      cases h
    · obtain ⟨c, hw, hc⟩ := hs.child hd hv
      rw [slot_of_pointer hw hc.isPage] at h
      obtain ⟨t, ht, hi⟩ := ih hc h
      refine ⟨t, Multiset.mem_of_le (below_le hd) ?_, hi⟩
      rwa [below_of_pointer hw hc.isPage]

theorem load_of_slot (h : slot b l pg v = some a) : b.load64 a = entry b l pg v := by
  induction l generalizing pg with
  | zero =>
    cases h
    rfl
  | succ l ih =>
    rw [slot] at h
    rw [entry]
    split at h
    · rename_i hv
      rw [if_pos hv]
      exact ih h
    · cases h

theorem entry_of_slot_none (h : slot b l pg v = none) : entry b l pg v = 0 := by
  induction l generalizing pg with
  | zero => cases h
  | succ l ih =>
    rw [slot] at h
    rw [entry]
    split at h
    · rename_i hv
      rw [if_pos hv]
      exact ih h
    · rename_i hv
      rw [if_neg hv]

theorem slot_ne_zero (hs : Shape b l pg) (h : slot b l pg v = some a) : a ≠ 0 := by
  obtain ⟨t, ht, i, -, rfl⟩ := exists_of_slot hs h
  have := (hs.isPage_of_mem ht).pos
  omega

end Xv6Freezer.Vm

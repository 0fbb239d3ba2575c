import Xv6Freezer.Vm.Uvmalloc
import Xv6Freezer.Vm.Copy

/-! # Memory images

The bytes of user memory as a function of the virtual address. Stores overlay the image (`Image.write` inside
one page, `Image.copyout`); `uvmalloc` extends it by zeros (`Image.grow`), and `uvmclear` takes a page away
from the user (`Image.clear`).
-/

namespace Xv6Freezer.Vm

open Lib

variable {L : Layout} {C C' : Multiset Nat} {m m' : Mem} {root tf n k v w o len : Nat}
  {img : Nat → UInt8} {src : List UInt8}

/-- Bytes `f` from address `s` on, over an image. -/
def overlay (img : Nat → UInt8) (s len : Nat) (f : Nat → UInt8) : Nat → UInt8 := fun a =>
  if s ≤ a ∧ a < s + len then f (a - s) else img a

/-- The physical address of the virtual address `a`. -/
def Mem.addr (m : Mem) (root a : Nat) : Nat := PTE2PA (m.pte root (a / PGSIZE)) + a % PGSIZE

/-- **The image of user memory**: the bytes below `n` pages are those of `img`. -/
structure Image (L : Layout) (C : Multiset Nat) (root tf n : Nat) (m : Mem) (img : Nat → UInt8) :
    Prop where
  table : UserTable L C root tf n m
  bytes : ∀ v < n, ∀ j < PGSIZE, m.bytes (PTE2PA (m.pte root v) + j) = img (v * PGSIZE + j)

theorem UserTable.page_inj (h : UserTable L C root tf n m) (hv : v < n) (hw : w < n)
    (heq : PTE2PA (m.pte root v) = PTE2PA (m.pte root w)) : v = w := by
  have hnodup : (mappedPages (m.pte root) 0 n).Nodup := h.table.owns.right.left.nodup_owned
  have hlist : ((List.range n).map fun i => PTE2PA (m.pte root (0 + i))).Nodup := hnodup
  refine List.inj_on_of_nodup_map hlist (List.mem_range.mpr hv) (List.mem_range.mpr hw) ?_
  rw [Nat.zero_add, Nat.zero_add]
  exact heq

theorem UserTable.user_isPage (h : UserTable L C root tf n m) (hv : v < n) :
    IsPage (PTE2PA (m.pte root v)) :=
  h.owns.isPage_mem (Multiset.mem_add.mpr (.inl (mem_space m root hv)))

theorem UserTable.stored (h : UserTable L C root tf n m)
    (hmv : heap.Moves (mappedPages (m.pte root) 0 n) (mappedPages (m.pte root) 0 n) m m') :
    UserTable L C root tf n m' ∧ (∀ w, m'.pte root w = m.pte root w) ∧
      m'.space root n = m.space root n ∧ heap.Moves (m.space root n) (m'.space root n) m m' := by
  obtain ⟨ht, -, htab, hpte⟩ := h.table.other (hmv.frame C)
  have hmapped : mappedPages (m'.pte root) 0 n = mappedPages (m.pte root) 0 n :=
    mappedPages_congr fun i _ => hpte _
  have hspace : m'.space root n = m.space root n := by rw [Mem.space, Mem.space, htab, hmapped]
  refine ⟨h.unchanged ht fun w _ => hpte w, hpte, hspace, ?_⟩
  rw [hspace, Mem.space, add_comm]
  exact hmv.frame _

theorem Image.write {f : Nat → UInt8} (h : Image L C root tf n m img) (hv : v < n)
    (ho : o + len ≤ PGSIZE)
    (hm' : m' = { m with bytes := m.bytes.fill (PTE2PA (m.pte root v) + o) len f }) :
    Image L C root tf n m' (overlay img (v * PGSIZE + o) len f) ∧
      heap.Moves (m.space root n) (m'.space root n) m m' ∧
      ∀ w, m'.pte root w = m.pte root w := by
  have hpage := h.table.user_isPage hv
  have hsame : ∀ y, y % PGSIZE = 0 → y ≠ PTE2PA (m.pte root v) → SamePage m.bytes m'.bytes y := by
    intro y hy hne
    rw [hm']
    exact samePage_copyBytes hpage.aligned hy hne ho
  have hpages : heap.Moves (mappedPages (m.pte root) 0 n) (mappedPages (m.pte root) 0 n) m m' := by
    have hmem := mem_mappedPages (f := m.pte root) (v := 0) hv
    rw [Nat.zero_add] at hmem
    rw [hm'] at hsame ⊢
    exact moves_bytes fun y hy hne => hsame y hy fun e => hne (e ▸ hmem)
  obtain ⟨ht, hpte, -, hmoves⟩ := h.table.stored hpages
  refine ⟨⟨ht, fun w hw j hj => ?_⟩, hmoves, hpte⟩
  rw [hpte]
  by_cases hvw : w = v
  · -- the bytes of the page, inside and outside of the range
    subst hvw
    have hbytes := h.bytes w hw j hj
    rw [hm', overlay]
    dsimp only
    unfold Bytes.fill
    by_cases hin : o ≤ j ∧ j < o + len
    · rw [if_pos (by omega), if_pos (by omega)]
      congr 1
      omega
    · rw [if_neg (by omega), if_neg (by omega), hbytes]
  · have hne : PTE2PA (m.pte root w) ≠ PTE2PA (m.pte root v) := fun e =>
      hvw (h.table.page_inj hw hv e)
    rw [hsame _ (h.table.user_isPage hw).aligned hne j hj, h.bytes w hw j hj, overlay, if_neg]
    unfold PGSIZE at *
    omega

theorem Image.grow {perm : Nat} (h : Image L C root tf n m img)
    (hE : Extended L C root tf perm n m k m') (hzero : ∀ a, n * PGSIZE ≤ a → img a = 0) :
    Image L C root tf k m' img ∧ heap.Moves (m.space root n) (m'.space root k) m m' := by
  refine ⟨⟨hE.table, fun v hv j hj => ?_⟩, hE.toAppended.space_moves⟩
  rcases Nat.lt_or_ge v n with hvn | hvn
  · rw [hE.pte v hvn, hE.toAppended.same h.table _ (user_mem _ _ _ hvn) j hj]
    exact h.bytes v hvn j hj
  · rw [hE.zero v hvn hv j hj, hzero]
    exact (Nat.mul_le_mul_right _ hvn).trans (Nat.le_add_right _ _)

theorem Image.other (h : Image L C root tf n m img) (hmv : heap.Moves C C' m m') :
    Image L C' root tf n m' img ∧ (∀ v, m'.pte root v = m.pte root v) ∧
      m'.space root n = m.space root n := by
  obtain ⟨ht, hsame, -, hpte⟩ := h.table.other hmv
  refine ⟨⟨ht, fun v hv j hj => ?_⟩, hpte, h.table.space_other hmv⟩
  rw [hpte, hsame _ (mem_space m root hv) j hj]
  exact h.bytes v hv j hj

/-! ## `uvmclear` -/

/-- An entry without `PTE_U`. -/
def clearUser (w : Nat) : Nat := w &&& (2 ^ 64 - 1 - PTE_U)

theorem clearUser_and {b : Nat} (w : Nat) (hb : (2 ^ 64 - 1 - PTE_U) &&& b = b) :
    clearUser w &&& b = w &&& b := by
  rw [clearUser, Nat.and_assoc, hb]

theorem PTE2PA_clearUser {x : Nat} (hx : x < 2 ^ 64) : PTE2PA (clearUser x) = PTE2PA x := by
  have hshift : (2 ^ 64 - 1 - PTE_U) >>> 10 = 2 ^ 54 - 1 := by decide
  have hlt : x >>> 10 < 2 ^ 54 := by
    rw [Nat.shiftRight_eq_div_pow]
    omega
  unfold PTE2PA clearUser
  rw [Nat.shiftRight_and_distrib, hshift, Nat.and_two_pow_sub_one_of_lt_two_pow hlt]

theorem Leaf.clearUser {x : Nat} (h : Leaf x) : Leaf (Vm.clearUser x) where
  valid := by
    rw [clearUser_and x (by decide)]
    exact h.valid
  perm := by
    rw [clearUser_and x (by decide)]
    exact h.perm
  lt := Nat.and_le_left.trans_lt h.lt

theorem Image.clear (h : Image L C root tf n m img) (hv : v < n) :
    wp (uvmclear root (v * PGSIZE)) (fun _ m' => Image L C root tf n m' img ∧
      heap.Moves (m.space root n) (m'.space root n) m m' ∧
      ∀ w < n, m'.pte root w = if w = v then clearUser (m.pte root v) else m.pte root w) m := by
  have hlt := h.table.page_lt (Nat.le_refl n)
  have hva : v * PGSIZE < MAXVA := by
    have hend := h.table.mul_le hv.le
    unfold PGSIZE at *
    omega
  have hleaf := h.table.leaf v hv
  rw [uvmclear, wp_bind, walk_read hva, Nat.mul_div_cancel _ (by decide)]
  cases hs : slot m.bytes 2 root v with
  | none => exact absurd (entry_of_slot_none hs) hleaf.ne_zero
  | some a =>
    have hload : m.bytes.load64 a = m.pte root v := load_of_slot hs
    rw [Option.getD_some, if_neg (slot_ne_zero h.table.table.shape hs), wp_bind, wp_load, hload, wp_store]
    obtain ⟨m', hm', ht, hmv, hpte⟩ := h.table.table.store hs hleaf.clearUser.lt (hv.trans hlt)
    have hm'' : { m with bytes := m.bytes.store64 a (m.pte root v &&& (2 ^ 64 - 1 - PTE_U)) } = m' :=
      hm'.symm
    rw [hm'']
    have hpage : ∀ w < n, PTE2PA (m'.pte root w) = PTE2PA (m.pte root w) := by
      intro w hw
      rw [hpte w (hw.trans hlt)]
      by_cases hwv : w = v
      · rw [if_pos hwv, hwv]
        exact PTE2PA_clearUser hleaf.lt
      · rw [if_neg hwv]
    have hlist : ((List.range n).map fun i => PTE2PA (m'.pte root (0 + i))) =
        (List.range n).map fun i => PTE2PA (m.pte root (0 + i)) :=
      List.map_congr_left fun i hi => by
        rw [Nat.zero_add]
        exact hpage i (List.mem_range.mp hi)
    have hmapped : mappedPages (m'.pte root) 0 n = mappedPages (m.pte root) 0 n :=
      congrArg Multiset.ofList hlist
    have htf := h.table.lt_trapframe
    have hmax := trapframePage_lt
    refine ⟨⟨⟨by rwa [hmapped], fun w hw => ?_, ?_, ?_, fun w hw hn h1 h2 => ?_, h.table.isPage⟩,
      fun w hw j hj => ?_⟩, ?_, fun w hw => hpte w (hw.trans hlt)⟩
    · rw [hpte w (hw.trans hlt)]
      by_cases hwv : w = v
      · rw [if_pos hwv]
        exact hleaf.clearUser
      · rw [if_neg hwv]
        exact h.table.leaf w hw
    · rw [hpte _ (hmax.trans trampolinePage_lt), if_neg (by omega)]
      exact h.table.trapframe
    · rw [hpte _ trampolinePage_lt, if_neg (by omega)]
      exact h.table.trampoline
    · rw [hpte w hw, if_neg (by omega)]
      exact h.table.rest w hw hn h1 h2
    · rw [hpage w hw, h.table.table.owns.same hmv _ (user_mem _ _ _ hw) j hj]
      exact h.bytes w hw j hj
    · rw [Mem.space, Mem.space, hmapped]
      exact hmv.frame _

/-! ## Access by the user -/

section

variable (h : UserTable L C root tf n m)

include h

theorem UserTable.valid_cases (hv : v < 512 ^ 3) (hvalid : m.pte root v &&& PTE_V ≠ 0) :
    v < n ∨ IsPage (PTE2PA (m.pte root v)) ∧ m.pte root v &&& PTE_U = 0 := by
  rcases Nat.lt_or_ge v n with hvn | hvn
  · exact .inl hvn
  right
  by_cases h1 : v = trapframePage
  · rw [h1, h.trapframe, PTE2PA_mkPte h.isPage (by decide), mkPte_and h.isPage (by decide) (by decide)]
    exact ⟨h.isPage, by decide⟩
  by_cases h2 : v = trampolinePage
  · rw [h2, h.trampoline, PTE2PA_mkPte h.trampoline_isPage (by decide),
      mkPte_and h.trampoline_isPage (by decide) (by decide)]
    exact ⟨h.trampoline_isPage, by decide⟩
  · rw [h.rest v hv hvn h1 h2, zero_and] at hvalid
    exact absurd rfl hvalid

theorem UserTable.isWritable : IsWritableTable root m where
  shape := h.table.shape
  ne_zero v hv hvalid := by
    rcases h.valid_cases hv hvalid with hvn | ⟨hp, -⟩
    · exact (h.user_isPage hvn).pos.ne'
    · exact hp.pos.ne'
  separate va pa haddr hmem := by
    unfold userAddr at haddr
    split at haddr
    · rename_i hc
      cases haddr
      rw [Nat.add_sub_cancel] at hmem
      rcases h.valid_cases (Vm.page_lt hc.1) hc.2.1 with hvn | ⟨-, hu⟩
      · exact h.table.owns.notMem (user_mem _ _ _ hvn) hmem
      · exact hc.2.2.1 hu
    · cases haddr

theorem UserTable.userAddr_eq {write : Bool} (hv : v < n)
    (ho : o < PGSIZE) (hu : m.pte root v &&& PTE_U ≠ 0)
    (hw : write = true → m.pte root v &&& PTE_W ≠ 0) :
    userAddr m root write (v * PGSIZE + o) = some (PTE2PA (m.pte root v) + o) := by
  have hdiv : (v * PGSIZE + o) / PGSIZE = v := by
    unfold PGSIZE at *
    omega
  have hmod : (v * PGSIZE + o) % PGSIZE = o := by
    unfold PGSIZE at *
    omega
  have hlt : v * PGSIZE + o < MAXVA := by
    have := h.mul_le hv.le
    omega
  rw [userAddr, hdiv, hmod, if_pos ⟨hlt, (h.leaf v hv).valid, hu, hw⟩]

theorem UserTable.walkaddr {Q : Nat → Mem → Prop} (hv : v < n) (hu : m.pte root v &&& PTE_U ≠ 0)
    (hQ : PTE2PA (m.pte root v) ≠ 0 → Q (PTE2PA (m.pte root v)) m) :
    wp (walkaddr root (v * PGSIZE)) Q m := by
  have haddr : userAddr m root false (v * PGSIZE + 0) = some (PTE2PA (m.pte root v) + 0) :=
    h.userAddr_eq hv (by decide) hu nofun
  rw [Nat.add_zero, Nat.add_zero] at haddr
  have hdown : PGROUNDDOWN (v * PGSIZE) = v * PGSIZE := by
    rw [PGROUNDDOWN, Nat.mul_div_cancel _ (by decide)]
  rw [← hdown]
  refine walkaddr_eq h.isWritable.toIsUserTable (fun hnone => ?_) fun pa hpa hsome => ?_
  · rw [haddr] at hnone
    cases hnone
  · rw [haddr, Nat.mul_mod_left, Nat.add_zero] at hsome
    cases hsome
    exact hQ hpa

theorem UserTable.addr_inj {a b : Nat} (ha : a / PGSIZE < n) (hb : b / PGSIZE < n)
    (heq : m.addr root a = m.addr root b) : a = b := by
  have hpa := (h.user_isPage ha).aligned
  have hpb := (h.user_isPage hb).aligned
  unfold Mem.addr at heq
  have hpage : PTE2PA (m.pte root (a / PGSIZE)) = PTE2PA (m.pte root (b / PGSIZE)) := by
    unfold PGSIZE at *
    omega
  have hdiv := h.page_inj ha hb hpage
  rw [hpage] at heq
  rw [← Nat.div_add_mod a PGSIZE, hdiv, Nat.add_left_cancel heq, Nat.div_add_mod]

end

/-! ## `copyout` to several pages -/

theorem Image.copyout {va : Nat} (h : Image L C root tf n m img) (hhi : va + src.length ≤ n * PGSIZE)
    (hok : ∀ a, va ≤ a → a < va + src.length →
      m.pte root (a / PGSIZE) &&& PTE_U ≠ 0 ∧ m.pte root (a / PGSIZE) &&& PTE_W ≠ 0) :
    wp (Vm.copyout root va src) (fun r m' => r = 0 ∧
      Image L C root tf n m' (overlay img va src.length fun i => src.getD i 0) ∧
      heap.Moves (m.space root n) (m'.space root n) m m' ∧ ∀ w, m'.pte root w = m.pte root w) m := by
  have hpage : ∀ i < src.length, (va + i) / PGSIZE < n := fun i hi =>
    (Nat.div_lt_iff_lt_mul (by decide)).mpr (by omega)
  have hup : upTo (userAddr m root true) va src.length =
      (List.range src.length).map fun i => m.addr root (va + i) := by
    have hadd := upTo_add (f := userAddr m root true) (a := va) (n := src.length) (k := 0)
      (g := fun i => m.addr root (va + i)) fun i hi => by
        obtain ⟨hu, hw⟩ := hok (va + i) (Nat.le_add_right _ _) (by omega)
        have haddr : userAddr m root true _ = _ := h.table.userAddr_eq (hpage i hi) (Nat.mod_lt (va + i) (by decide)) hu
          fun _ => hw
        rwa [Nat.div_add_mod'] at haddr
    rwa [Nat.add_zero, upTo_zero, List.append_nil] at hadd
  have hrun := Vm.copyout_eq h.table.isWritable va src
  rw [hup, List.length_map, List.length_range, accessResult, if_pos rfl] at hrun
  refine wp_iff.mpr ⟨_, _, hrun, rfl, ?_⟩
  -- a byte outside of the range keeps its value
  have hout : ∀ x, (∀ i < src.length, m.addr root (va + i) ≠ x) →
      m.bytes.put (((List.range src.length).map fun i => m.addr root (va + i)).zip src) x = m.bytes x := by
    intro x hx
    refine Bytes.put_of_notMem fun hmem => ?_
    rw [List.map_fst_zip (by rw [List.length_map, List.length_range])] at hmem
    obtain ⟨i, hi, e⟩ := List.mem_map.mp hmem
    exact hx i (List.mem_range.mp hi) e
  generalize hb : m.bytes.put (((List.range src.length).map fun i => m.addr root (va + i)).zip src) = b
    at hout
  have hmv : heap.Moves (mappedPages (m.pte root) 0 n) (mappedPages (m.pte root) 0 n) m
      { m with bytes := b } := by
    refine moves_bytes fun x hx hmem j hj => hout _ fun i hi e => hmem ?_
    have hal := (h.table.user_isPage (hpage i hi)).aligned
    have hx' : x = PTE2PA (m.pte root ((va + i) / PGSIZE)) := by
      unfold Mem.addr at e
      unfold PGSIZE at *
      omega
    have hin := mem_mappedPages (f := m.pte root) (v := 0) (hpage i hi)
    rwa [Nat.zero_add, ← hx'] at hin
  obtain ⟨ht, hpte, -, hmoves⟩ := h.table.stored hmv
  refine ⟨⟨ht, fun v hv j hj => ?_⟩, hmoves, hpte⟩
  have hdiv : (v * PGSIZE + j) / PGSIZE = v := by
    unfold PGSIZE at *
    omega
  have hmod : (v * PGSIZE + j) % PGSIZE = j := by
    unfold PGSIZE at *
    omega
  have haddr : PTE2PA (m.pte root v) + j = m.addr root (v * PGSIZE + j) := by
    rw [Mem.addr, hdiv, hmod]
  rw [hpte, haddr, overlay]
  show b _ = _
  by_cases hin : va ≤ v * PGSIZE + j ∧ v * PGSIZE + j < va + src.length
  · obtain ⟨i, hi⟩ : ∃ i, v * PGSIZE + j = va + i := ⟨v * PGSIZE + j - va, by omega⟩
    rw [if_pos hin, ← hb, hi, Nat.add_sub_cancel_left]
    refine Bytes.put_map (g := fun i => m.addr root (va + i)) (fun i hi j hj e => ?_) (by omega)
    exact Nat.add_left_cancel (h.table.addr_inj (hpage i hi) (hpage j hj) e)
  · rw [if_neg hin, hout, ← haddr, h.bytes v hv j hj]
    intro i hi e
    have := h.table.addr_inj (hpage i hi) (by rwa [hdiv]) e
    omega

end Xv6Freezer.Vm

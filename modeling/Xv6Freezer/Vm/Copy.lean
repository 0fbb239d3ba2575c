import Xv6Freezer.Lib.UpTo
import Xv6Freezer.Vm.FiniteMap

/-! # `copyout`, `copyin` and `copyinstr`

The three functions cut a range of user addresses at page boundaries. Seen from outside they go through the
addresses one by one (`userAddr`), and stop at the first one that the user may not access.
-/

namespace Xv6Freezer.Vm

open Lib

variable {m : Mem} {root va len fuel : Nat} {write : Bool} {dst src : List UInt8}

/-! ## User addresses -/

/-- The physical address of the user address `va`, if the user may access it, or write to it. -/
def userAddr (m : Mem) (root : Nat) (write : Bool) (va : Nat) : Option Nat :=
  if va < MAXVA ∧ m.pte root (va / PGSIZE) &&& PTE_V ≠ 0 ∧ m.pte root (va / PGSIZE) &&& PTE_U ≠ 0 ∧
      (write = true → m.pte root (va / PGSIZE) &&& PTE_W ≠ 0) then
    some (PTE2PA (m.pte root (va / PGSIZE)) + va % PGSIZE)
  else none

def userByte (m : Mem) (root va : Nat) : Option UInt8 := (userAddr m root false va).map m.bytes

/-- A page table whose pages are as `kalloc` gives them, and no user page at address 0. -/
structure IsUserTable (root : Nat) (m : Mem) : Prop where
  shape : Shape m.bytes 2 root
  ne_zero : ∀ v < 512 ^ 3, m.pte root v &&& PTE_V ≠ 0 → PTE2PA (m.pte root v) ≠ 0

theorem userAddr_page {i : Nat} (hi : va % PGSIZE + i < PGSIZE) :
    userAddr m root write (va + i) = (userAddr m root write va).map (· + i) := by
  have hdiv : (va + i) / PGSIZE = va / PGSIZE := by
    unfold PGSIZE at *
    omega
  have hmod : (va + i) % PGSIZE = va % PGSIZE + i := by
    unfold PGSIZE at *
    omega
  have hlt : va + i < MAXVA ↔ va < MAXVA := by
    unfold MAXVA PGSIZE at *
    omega
  unfold userAddr
  rw [hdiv, hmod]
  simp only [hlt]
  split
  · rw [Option.map_some, Nat.add_assoc]
  · rfl

theorem roundDown_lt : PGROUNDDOWN va < MAXVA ↔ va < MAXVA := by
  unfold PGROUNDDOWN PGSIZE MAXVA
  omega

theorem roundDown_div : PGROUNDDOWN va / PGSIZE = va / PGSIZE := Nat.mul_div_cancel _ (by decide)

theorem sub_roundDown : va - PGROUNDDOWN va = va % PGSIZE := by
  unfold PGROUNDDOWN PGSIZE
  omega

theorem walkaddr_eq (h : IsUserTable root m) {Q : Nat → Mem → Prop}
    (hnone : userAddr m root false va = none → Q 0 m)
    (hsome : ∀ pa, pa ≠ 0 → userAddr m root false va = some (pa + va % PGSIZE) → Q pa m) :
    wp (walkaddr root (PGROUNDDOWN va)) Q m := by
  unfold walkaddr
  by_cases hlt : va < MAXVA
  · rw [if_neg (Nat.not_le.mpr (roundDown_lt.mpr hlt)), wp_bind, walk_read (roundDown_lt.mpr hlt),
      roundDown_div]
    cases hs : slot m.bytes 2 root (va / PGSIZE) with
    | none =>
      have hpte : m.pte root (va / PGSIZE) = 0 := entry_of_slot_none hs
      rw [Option.getD_none, if_pos rfl, wp_pure]
      refine hnone (if_neg fun hc => hc.2.1 ?_)
      rw [hpte, zero_and]
    | some a =>
      have hload : m.bytes.load64 a = m.pte root (va / PGSIZE) := load_of_slot hs
      rw [Option.getD_some, if_neg (slot_ne_zero h.shape hs), wp_bind, wp_load, hload]
      by_cases hv : m.pte root (va / PGSIZE) &&& PTE_V = 0
      · rw [if_pos hv, wp_pure]
        exact hnone (if_neg fun hc => hc.2.1 hv)
      · rw [if_neg hv]
        by_cases hu : m.pte root (va / PGSIZE) &&& PTE_U = 0
        · rw [if_pos hu, wp_pure]
          exact hnone (if_neg fun hc => hc.2.2.1 hu)
        · rw [if_neg hu, wp_pure]
          exact hsome _ (h.ne_zero _ (page_lt hlt) hv) (if_pos ⟨hlt, hv, hu, nofun⟩)
  · rw [if_pos (Nat.le_of_not_lt (mt roundDown_lt.mp hlt)), wp_pure]
    exact hnone (if_neg fun hc => hlt hc.1)

theorem wp_readBytes {a n : Nat} {Q : List UInt8 → Mem → Prop} :
    wp (readBytes a n) Q m ↔ Q ((List.range n).map fun i => m.bytes (a + i)) m := by
  unfold readBytes
  rw [wp_bind, wp_get, wp_pure]

theorem userByte_piece {pa n : Nat} (h : userAddr m root false va = some (pa + va % PGSIZE))
    (hn : va % PGSIZE + n ≤ PGSIZE) :
    ∀ i < n, userByte m root (va + i) = some (m.bytes (pa + va % PGSIZE + i)) := by
  intro i hi
  rw [userByte, userAddr_page (by omega), h]
  rfl

theorem next_page (hlt : va < MAXVA) : u64 (PGROUNDDOWN va + PGSIZE) = va + (PGSIZE - va % PGSIZE) := by
  rw [u64_of_lt]
  · unfold PGROUNDDOWN PGSIZE
    omega
  · unfold PGROUNDDOWN PGSIZE
    unfold MAXVA at hlt
    omega

theorem lt_of_userAddr {pa : Nat} (h : userAddr m root write va = some pa) : va < MAXVA := by
  by_contra hc
  rw [userAddr, if_neg fun hc' => hc hc'.1] at h
  cases h

theorem upTo_piece {α : Type} {f : Nat → Option α} {g : Nat → α} {n : Nat}
    (hn : min (PGSIZE - va % PGSIZE) len = n) (hf : ∀ i < n, f (va + i) = some (g i)) :
    upTo f va len = (List.range n).map g ++ upTo f (va + (PGSIZE - va % PGSIZE)) (len - n) := by
  have hsplit : upTo f va len = (List.range n).map g ++ upTo f (va + n) (len - n) := by
    rw [← upTo_add hf, Nat.add_sub_cancel' (by omega)]
  -- the next round starts where the piece ends, unless nothing is left
  rcases Nat.eq_zero_or_pos (len - n) with h0 | h0
  · rw [hsplit, h0]
    rfl
  · rw [hsplit, show PGSIZE - va % PGSIZE = n by omega]

theorem userBytes_piece {pa : Nat} (h : userAddr m root false va = some (pa + va % PGSIZE)) :
    ∃ n bs, min (PGSIZE - va % PGSIZE) len = n ∧
      bs = ((List.range n).map fun i => m.bytes (pa + va % PGSIZE + i)) ∧ bs.length = n ∧
      upTo (userByte m root) va len =
        bs ++ upTo (userByte m root) (va + (PGSIZE - va % PGSIZE)) (len - n) := by
  have hmod : va % PGSIZE < PGSIZE := Nat.mod_lt _ (by decide)
  exact ⟨_, _, rfl, rfl, by rw [List.length_map, List.length_range],
    upTo_piece rfl (userByte_piece h (by omega))⟩

/-! ## `copyin` -/

/-- The result of an access of `n` addresses that went through `k` of them. -/
def accessResult (k n : Nat) : Int := if k = n then 0 else -1

theorem accessResult_add {k n : Nat} (hn : n ≤ len) :
    accessResult (n + k) len = accessResult k (len - n) := by
  unfold accessResult
  by_cases h : k = len - n
  · rw [if_pos h, if_pos (by omega)]
  · rw [if_neg h, if_neg (by omega)]

theorem copyinLoop_eq (h : IsUserTable root m) (va : Nat) (dst : List UInt8) (hfuel : len ≤ fuel) :
    wp (copyinLoop root fuel va len dst) (fun r m' => m' = m ∧
      r = (accessResult (upTo (userByte m root) va len).length len,
        dst ++ upTo (userByte m root) va len)) m := by
  induction fuel generalizing va len dst with
  | zero =>
    obtain rfl : len = 0 := Nat.le_zero.mp hfuel
    rw [copyinLoop, wp_pure, upTo_zero, List.append_nil]
    exact ⟨rfl, rfl⟩
  | succ fuel ih =>
    rw [copyinLoop]
    by_cases hlen : len > 0
    · rw [if_pos hlen, wp_bind]
      refine walkaddr_eq h (fun hnone => ?_) fun pa hpa hsome => ?_
      · have hnil : upTo (userByte m root) va len = [] := upTo_of_none (by rw [userByte, hnone]; rfl)
        rw [if_pos rfl, wp_pure, hnil, List.append_nil]
        exact ⟨rfl, by rw [accessResult, if_neg (show ([] : List UInt8).length ≠ len from hlen.ne)]⟩
      · obtain ⟨n, bs, hn, hbs, hbslen, hsplit⟩ := userBytes_piece hsome
        have hmod : va % PGSIZE < PGSIZE := Nat.mod_lt _ (by decide)
        rw [if_neg hpa, wp_bind, sub_roundDown, wp_readBytes, next_page (lt_of_userAddr hsome), hn, ← hbs]
        refine wp_mono (ih _ _ (by omega)) ?_
        rintro r m' ⟨rfl, rfl⟩
        refine ⟨rfl, ?_⟩
        rw [hsplit, List.append_assoc, List.length_append, hbslen, accessResult_add (by omega)]
    · obtain rfl : len = 0 := by omega
      rw [if_neg hlen, wp_pure, upTo_zero, List.append_nil]
      exact ⟨rfl, rfl⟩

theorem copyin_eq (h : IsUserTable root m) (va len : Nat) :
    copyin root va len m = .ok ((accessResult (upTo (userByte m root) va len).length len,
      upTo (userByte m root) va len), m) := by
  obtain ⟨r, m', he, rfl, rfl⟩ := wp_iff.mp (copyinLoop_eq h va [] (Nat.le_refl len))
  exact he

/-! ## `copyout` -/

/-- A page table none of whose own pages the user may write. -/
structure IsWritableTable (root : Nat) (m : Mem) : Prop extends IsUserTable root m where
  separate : ∀ va pa, userAddr m root true va = some pa → pa - va % PGSIZE ∉ tables m.bytes 2 root

theorem PTE2PA_aligned (w : Nat) : PTE2PA w % PGSIZE = 0 := by
  unfold PTE2PA u64 PGSIZE
  rw [Nat.shiftLeft_eq]
  omega

theorem IsWritableTable.after {b : Bytes} (h : IsWritableTable root m)
    (hsame : ∀ x ∈ tables m.bytes 2 root, SamePage m.bytes b x) :
    IsWritableTable root { m with bytes := b } ∧
      userAddr { m with bytes := b } root = userAddr m root := by
  have hpte : ∀ v, Mem.pte { m with bytes := b } root v = m.pte root v := fun v => entry_congr hsame
  have haddr : userAddr { m with bytes := b } root = userAddr m root := by
    funext write va
    unfold userAddr
    rw [hpte]
  refine ⟨⟨⟨h.shape.congr hsame, fun v hv => ?_⟩, fun va pa => ?_⟩, haddr⟩
  · rw [hpte]
    exact h.ne_zero v hv
  · rw [haddr]
    show _ → pa - va % PGSIZE ∉ tables b 2 root
    rw [tables_congr hsame]
    exact h.separate va pa

theorem samePage_copyBytes {b : Bytes} {pa o x n : Nat} {f : Nat → UInt8} (hpa : pa % PGSIZE = 0)
    (hx : x % PGSIZE = 0) (hne : x ≠ pa) (ho : o + n ≤ PGSIZE) :
    SamePage b (b.fill (pa + o) n f) x := by
  refine Bytes.SameOn.fill_of_disjoint ?_
  unfold PGSIZE at *
  omega

theorem wp_copyBytes {a : Nat} {Q : Unit → Mem → Prop} : wp (copyBytes a src) Q m ↔
    Q () { m with bytes := m.bytes.fill a src.length fun i => src.getD i 0 } := wp_modify

structure CopiedOut (root va : Nat) (src : List UInt8) (m : Mem) (r : Int) (m' : Mem) : Prop where
  result : r = accessResult (upTo (userAddr m root true) va src.length).length src.length
  mem : m' = { m with bytes := m.bytes.put ((upTo (userAddr m root true) va src.length).zip src) }

theorem CopiedOut.piece {pa n : Nat} {m1 : Mem} (h : IsWritableTable root m)
    (haddr : userAddr m root true va = some (pa + va % PGSIZE)) (hpa : pa % PGSIZE = 0)
    (hn : min (PGSIZE - va % PGSIZE) src.length = n)
    (hm1 : m1 = { m with
      bytes := m.bytes.fill (pa + va % PGSIZE) (src.take n).length fun i => (src.take n).getD i 0 }) :
    IsWritableTable root m1 ∧ ∀ r m', CopiedOut root (va + (PGSIZE - va % PGSIZE)) (src.drop n) m1 r m' →
      CopiedOut root va src m r m' := by
  have hmod : va % PGSIZE < PGSIZE := Nat.mod_lt _ (by decide)
  have hlen : (src.take n).length = n := List.length_take_of_le (by omega)
  have htabs : ∀ x ∈ tables m.bytes 2 root, SamePage m.bytes m1.bytes x := by
    intro x hx
    have hsep := h.separate va _ haddr
    rw [Nat.add_sub_cancel] at hsep
    have hfit : va % PGSIZE + (src.take n).length ≤ PGSIZE := by omega
    rw [hm1]
    dsimp only
    exact samePage_copyBytes hpa (h.shape.isPage_of_mem hx).aligned (fun e => hsep (e ▸ hx)) hfit
  obtain ⟨h1, haddr1⟩ : IsWritableTable root m1 ∧ userAddr m1 root = userAddr m root := by
    have := h.after htabs
    rwa [show { m with bytes := m1.bytes } = m1 by rw [hm1]] at this
  refine ⟨h1, fun r m' hrest => ?_⟩
  have hpiece : ∀ i < n, userAddr m root true (va + i) = some (pa + va % PGSIZE + i) := fun i hi => by
    rw [userAddr_page (by omega), haddr]
    rfl
  have hsplit := upTo_piece hn hpiece
  obtain ⟨hr, hm'⟩ := hrest
  rw [haddr1, List.length_drop] at hr hm'
  refine ⟨?_, ?_⟩
  · rw [hr, hsplit, List.length_append, List.length_map, List.length_range,
      accessResult_add (by omega)]
  · have hzip : (upTo (userAddr m root true) va src.length).zip src =
        ((List.range (src.take n).length).map (pa + va % PGSIZE + ·)).zip (src.take n) ++
          (upTo (userAddr m root true) (va + (PGSIZE - va % PGSIZE)) (src.length - n)).zip
            (src.drop n) := by
      rw [hsplit, hlen, ← List.zip_append (by rw [List.length_map, List.length_range, hlen]),
        List.take_append_drop]
    rw [hm', hzip, Bytes.put_append, Bytes.put_range, hm1]

theorem copyoutLoop_eq (h : IsWritableTable root m) (va : Nat) (hfuel : src.length ≤ fuel) :
    wp (copyoutLoop root fuel va src) (fun r m' => CopiedOut root va src m r m') m := by
  induction fuel generalizing va src m with
  | zero =>
    obtain rfl : src = [] := List.length_eq_zero_iff.mp (Nat.le_zero.mp hfuel)
    rw [copyoutLoop, wp_pure]
    exact ⟨rfl, rfl⟩
  | succ fuel ih =>
    rw [copyoutLoop]
    by_cases hlen : src.length > 0
    · have hbad (hnone : userAddr m root true va = none) : CopiedOut root va src m (-1) m := by
        refine ⟨?_, ?_⟩
        · rw [upTo_of_none hnone, accessResult, if_neg (show ([] : List Nat).length ≠ _ from hlen.ne)]
        · rw [upTo_of_none hnone]
          rfl
      rw [if_pos hlen]
      by_cases hlt : va < MAXVA
      · rw [if_neg (Nat.not_le.mpr (roundDown_lt.mpr hlt)), wp_bind,
          walk_read (roundDown_lt.mpr hlt), roundDown_div]
        cases hs : slot m.bytes 2 root (va / PGSIZE) with
        | none =>
          have hpte : m.pte root (va / PGSIZE) = 0 := entry_of_slot_none hs
          rw [Option.getD_none, if_pos rfl, wp_pure]
          refine hbad (if_neg fun hc => hc.2.1 ?_)
          rw [hpte, zero_and]
        | some a =>
          have hload : m.bytes.load64 a = m.pte root (va / PGSIZE) := load_of_slot hs
          rw [Option.getD_some, if_neg (slot_ne_zero h.shape hs), wp_bind, wp_load, hload]
          by_cases hw : m.pte root (va / PGSIZE) &&& PTE_V = 0 ∨
              m.pte root (va / PGSIZE) &&& PTE_U = 0 ∨ m.pte root (va / PGSIZE) &&& PTE_W = 0
          · rw [if_pos hw, wp_pure]
            refine hbad (if_neg fun hc => ?_)
            rcases hw with hw | hw | hw
            · exact hc.2.1 hw
            · exact hc.2.2.1 hw
            · exact hc.2.2.2 rfl hw
          · rw [if_neg hw, wp_bind, sub_roundDown, wp_copyBytes, next_page hlt]
            have haddr : userAddr m root true va =
                some (PTE2PA (m.pte root (va / PGSIZE)) + va % PGSIZE) :=
              if_pos ⟨hlt, fun hv => hw (.inl hv), fun hu => hw (.inr (.inl hu)),
                fun _ hw' => hw (.inr (.inr hw'))⟩
            obtain ⟨h1, hrest⟩ := CopiedOut.piece h haddr (PTE2PA_aligned _) rfl rfl
            refine wp_mono (ih h1 _ ?_) hrest
            have hmod : va % PGSIZE < PGSIZE := Nat.mod_lt _ (by decide)
            rw [List.length_drop]
            omega
      · rw [if_pos (Nat.le_of_not_lt (mt roundDown_lt.mp hlt)), wp_pure]
        exact hbad (if_neg fun hc => hlt hc.1)
    · obtain rfl : src = [] := List.length_eq_zero_iff.mp (by omega)
      rw [if_neg hlen, wp_pure]
      exact ⟨rfl, rfl⟩

theorem copyout_eq (h : IsWritableTable root m) (va : Nat) (src : List UInt8) :
    copyout root va src m =
      .ok (accessResult (upTo (userAddr m root true) va src.length).length src.length,
        { m with bytes := m.bytes.put ((upTo (userAddr m root true) va src.length).zip src) }) := by
  obtain ⟨r, m', he, rfl, rfl⟩ := wp_iff.mp (copyoutLoop_eq h va (Nat.le_refl src.length))
  exact he

/-! ## What the user sees -/

/-- An access of `len` addresses from `va` on went through the first `k` and returned `r`: all of them, or
those in the pages before the first bad one. -/
structure Accessed (m : Mem) (root : Nat) (write : Bool) (va len k : Nat) (r : Int) : Prop where
  /-- It returns 0 exactly if every page of the range is accessible. -/
  ok_iff : r = 0 ↔ ∀ i < len, (userAddr m root write (va + i)).isSome
  fail : r = 0 ∨ r = -1
  good : ∀ i < k, (userAddr m root write (va + i)).isSome
  all : r = 0 → k = len
  /-- It stops at the first byte of the first bad page that it touches. -/
  bad : r = -1 → k < len ∧ userAddr m root write (va + k) = none ∧ (k = 0 ∨ (va + k) % PGSIZE = 0)

theorem accessed_upTo {α : Type} {f : Nat → Option α}
    (hf : ∀ a, (f a).isSome = (userAddr m root write a).isSome) :
    Accessed m root write va len (upTo f va len).length (accessResult (upTo f va len).length len) := by
  have hle := length_upTo_le f va len
  have hgood : ∀ i < (upTo f va len).length, (userAddr m root write (va + i)).isSome := by
    intro i hi
    rw [← hf, ← getElem?_upTo hi, List.getElem?_eq_getElem hi]
    rfl
  have hiff : (upTo f va len).length = len ↔ ∀ i < len, (userAddr m root write (va + i)).isSome := by
    rw [length_upTo_eq_iff]
    simp only [hf]
  unfold accessResult
  by_cases hk : (upTo f va len).length = len
  · rw [if_pos hk]
    exact ⟨iff_of_true rfl (hiff.mp hk), .inl rfl, hgood, fun _ => hk, nofun⟩
  · have hlt : (upTo f va len).length < len := Nat.lt_of_le_of_ne hle hk
    have hnone : userAddr m root write (va + (upTo f va len).length) = none := by
      rw [← Option.not_isSome_iff_eq_none, ← hf, upTo_stop hlt]
      exact nofun
    rw [if_neg hk]
    refine ⟨iff_of_false (by decide) (mt hiff.mpr hk), .inr rfl, hgood, nofun, fun _ => ⟨hlt, hnone, ?_⟩⟩
    -- the address before is in the page that went well
    by_contra hc
    rw [not_or] at hc
    have hprev := hgood ((upTo f va len).length - 1) (by omega)
    have hsame : userAddr m root write (va + ((upTo f va len).length - 1) + 1) =
        (userAddr m root write (va + ((upTo f va len).length - 1))).map (· + 1) :=
      userAddr_page (by unfold PGSIZE at *; omega)
    rw [show va + ((upTo f va len).length - 1) + 1 = va + (upTo f va len).length by omega, hnone] at hsame
    cases hu : userAddr m root write (va + ((upTo f va len).length - 1)) with
    | none =>
      rw [hu] at hprev
      cases hprev
    | some x =>
      rw [hu] at hsame
      cases hsame

/-! ## `copyinstr` -/

/-- What a search for the NUL in the bytes `s` returns, and what it has copied. -/
def strResult (s : List UInt8) : Int × List UInt8 :=
  if (s.takeWhile (· ≠ 0)).length < s.length then (0, s.takeWhile (· ≠ 0) ++ [0]) else (-1, s)

theorem strResult_nil : strResult [] = (-1, []) := rfl

theorem strResult_append_of_lt {s t : List UInt8} (h : (s.takeWhile (· ≠ 0)).length < s.length) :
    strResult (s ++ t) = (0, s.takeWhile (· ≠ 0) ++ [0]) := by
  have htake : (s ++ t).takeWhile (· ≠ 0) = s.takeWhile (· ≠ 0) := by
    rw [List.takeWhile_append, if_neg h.ne]
  rw [strResult, htake, if_pos]
  rw [List.length_append]
  omega

theorem strResult_append_of_eq {s t : List UInt8} (h : s.takeWhile (· ≠ 0) = s) :
    strResult (s ++ t) = ((strResult t).1, s ++ (strResult t).2) := by
  have htake : (s ++ t).takeWhile (· ≠ 0) = s ++ t.takeWhile (· ≠ 0) := by
    rw [List.takeWhile_append, if_pos (congrArg List.length h)]
  unfold strResult
  rw [htake, List.length_append, List.length_append]
  by_cases hlt : (t.takeWhile (· ≠ 0)).length < t.length
  · rw [if_pos (by omega), if_pos hlt, List.append_assoc]
  · rw [if_neg (by omega), if_neg hlt]

theorem copyinstrLoop_eq {max : Nat} (h : IsUserTable root m) (va : Nat) (dst : List UInt8)
    (hfuel : max ≤ fuel) :
    wp (copyinstrLoop root fuel va max dst) (fun r m' => m' = m ∧
      r = ((strResult (upTo (userByte m root) va max)).1,
        dst ++ (strResult (upTo (userByte m root) va max)).2)) m := by
  induction fuel generalizing va max dst with
  | zero =>
    obtain rfl : max = 0 := Nat.le_zero.mp hfuel
    rw [copyinstrLoop, wp_pure, upTo_zero, strResult_nil, List.append_nil]
    exact ⟨rfl, rfl⟩
  | succ fuel ih =>
    rw [copyinstrLoop]
    by_cases hmax : max > 0
    · rw [if_pos hmax, wp_bind]
      refine walkaddr_eq h (fun hnone => ?_) fun pa hpa hsome => ?_
      · have hnil : upTo (userByte m root) va max = [] := upTo_of_none (by rw [userByte, hnone]; rfl)
        rw [if_pos rfl, wp_pure, hnil, strResult_nil, List.append_nil]
        exact ⟨rfl, rfl⟩
      · obtain ⟨n, bs, hn, hbs, hlen, hsplit⟩ := userBytes_piece hsome
        have hmod : va % PGSIZE < PGSIZE := Nat.mod_lt _ (by decide)
        rw [if_neg hpa, wp_bind, sub_roundDown, wp_readBytes, next_page (lt_of_userAddr hsome), hn, ← hbs]
        by_cases hnul : (bs.takeWhile (· ≠ 0)).length < n
        · rw [if_pos hnul, wp_pure, hsplit, strResult_append_of_lt (hlen.symm ▸ hnul),
            List.append_assoc]
          exact ⟨rfl, rfl⟩
        · have hall : bs.takeWhile (· ≠ 0) = bs := by
            refine (List.takeWhile_prefix _).eq_of_length ?_
            have := (List.takeWhile_prefix (l := bs) (· ≠ 0)).length_le
            omega
          rw [if_neg hnul, hall]
          refine wp_mono (ih _ _ (by omega)) ?_
          rintro r m' ⟨rfl, rfl⟩
          refine ⟨rfl, ?_⟩
          rw [hsplit, strResult_append_of_eq hall, List.append_assoc]
    · obtain rfl : max = 0 := by omega
      rw [if_neg hmax, wp_pure, upTo_zero, strResult_nil, List.append_nil]
      exact ⟨rfl, rfl⟩

/-- **`copyinstr`** reads up to the NUL or to the first address that is not accessible. -/
theorem copyinstr_eq (h : IsUserTable root m) (va max : Nat) :
    copyinstr root va max m = .ok (strResult (upTo (userByte m root) va max), m) := by
  obtain ⟨r, m', he, rfl, rfl⟩ :=
    wp_iff.mp (copyinstrLoop_eq h va [] (Nat.le_refl max))
  exact he

/-- Reading byte by byte with `copyin`, until a NUL or `max` bytes. -/
def copyinBytes (root : Nat) : Nat → Nat → List UInt8 → M (Int × List UInt8)
  | _, 0, dst => return (-1, dst)
  | va, max + 1, dst => do
    let (r, bs) ← copyin root va 1
    if r ≠ 0 then return (-1, dst)
    else if bs = [0] then return (0, dst ++ bs)
    else copyinBytes root (u64 (va + 1)) max (dst ++ bs)

theorem copyinBytes_eq (h : IsUserTable root m) (max : Nat) (dst : List UInt8) :
    copyinBytes root va max dst m = .ok (((strResult (upTo (userByte m root) va max)).1,
      dst ++ (strResult (upTo (userByte m root) va max)).2), m) := by
  induction max generalizing va dst with
  | zero =>
    rw [upTo_zero, strResult_nil, List.append_nil]
    rfl
  | succ max ih =>
    have hstep : copyinBytes root va (max + 1) dst m = (if accessResult
        (upTo (userByte m root) va 1).length 1 ≠ 0 then pure (-1, dst)
        else if upTo (userByte m root) va 1 = [0] then
          pure (0, dst ++ upTo (userByte m root) va 1)
        else copyinBytes root (u64 (va + 1)) max (dst ++ upTo (userByte m root) va 1)) m := by
      show (copyin root va 1 m).bind _ = _
      rw [copyin_eq h]
      rfl
    rw [hstep]
    cases hb : userByte m root va with
    | none =>
      rw [upTo_of_none hb, upTo_of_none hb, if_pos (by decide), strResult_nil, List.append_nil]
      rfl
    | some b =>
      have hlt : va < MAXVA := by
        unfold userByte at hb
        cases hu : userAddr m root false va with
        | none =>
          rw [hu] at hb
          cases hb
        | some pa => exact lt_of_userAddr hu
      have hone : upTo (userByte m root) va 1 = [b] := by rw [upTo_succ_of_some hb, upTo_zero]
      have hcons : upTo (userByte m root) va (max + 1) = [b] ++ upTo (userByte m root) (va + 1) max :=
        upTo_succ_of_some hb
      rw [hone, hcons, if_neg (by simp [accessResult])]
      by_cases h0 : b = 0
      · subst h0
        rw [if_pos rfl, strResult_append_of_lt (by decide)]
        rfl
      · have hall : [b].takeWhile (· ≠ 0) = [b] := by simp [h0]
        rw [if_neg (by simpa using h0), u64_of_lt (Nat.lt_of_le_of_lt hlt (by decide)), ih,
          strResult_append_of_eq hall, List.append_assoc]

/-- The `k + 1` bytes at `va` are accessible and make a string. -/
def IsUserString (m : Mem) (root va k : Nat) : Prop :=
  userByte m root (va + k) = some 0 ∧ ∀ i < k, ∃ b, b ≠ 0 ∧ userByte m root (va + i) = some b

/-- The bytes `s` start with a string of `k` bytes and its NUL. -/
def StartsWithString (s : List UInt8) (k : Nat) : Prop :=
  s[k]? = some 0 ∧ ∀ i < k, ∃ b, b ≠ 0 ∧ s[i]? = some b

theorem StartsWithString.takeWhile_eq {s : List UInt8} {k : Nat} (h : StartsWithString s k) :
    s.takeWhile (· ≠ 0) = s.take k := by
  induction s generalizing k with
  | nil => cases h.1
  | cons c s ih =>
    cases k with
    | zero =>
      obtain rfl : c = 0 := Option.some.inj h.1
      rfl
    | succ k =>
      obtain ⟨b, hb, hc⟩ := h.2 0 (Nat.succ_pos k)
      obtain rfl : c = b := Option.some.inj hc
      rw [List.takeWhile_cons_of_pos (by simpa using hb), List.take_succ_cons,
        ih ⟨h.1, fun i hi => h.2 (i + 1) (Nat.succ_lt_succ hi)⟩]

theorem startsWithString_of_lt {s : List UInt8} (h : (s.takeWhile (· ≠ 0)).length < s.length) :
    StartsWithString s (s.takeWhile (· ≠ 0)).length := by
  induction s with
  | nil => exact absurd h (Nat.lt_irrefl 0)
  | cons c s ih =>
    by_cases hc : c = 0
    · subst hc
      exact ⟨rfl, fun i hi => absurd hi (Nat.not_lt_zero i)⟩
    · rw [List.takeWhile_cons_of_pos (by simpa using hc), List.length_cons] at h ⊢
      have hs := ih (Nat.lt_of_succ_lt_succ h)
      refine ⟨hs.1, fun i hi => ?_⟩
      cases i with
      | zero => exact ⟨c, hc, rfl⟩
      | succ i => exact hs.2 i (Nat.lt_of_succ_lt_succ hi)

theorem StartsWithString.strResult_eq {s : List UInt8} {k : Nat} (h : StartsWithString s k) :
    strResult s = (0, s.take k ++ [0]) := by
  have hk : k < s.length := (List.getElem?_eq_some_iff.mp h.1).1
  rw [strResult, h.takeWhile_eq, List.length_take_of_le hk.le, if_pos hk]

theorem isUserString_iff {k max : Nat} (hk : k < max) :
    IsUserString m root va k ↔ StartsWithString (upTo (userByte m root) va max) k := by
  refine ⟨fun h => ?_, fun h => ?_⟩
  · have hlen : k < (upTo (userByte m root) va max).length := by
      by_contra hc
      have hstop := upTo_stop (f := userByte m root) (a := va) (n := max) (by omega)
      rcases Nat.lt_or_eq_of_le (Nat.le_of_not_lt hc) with hlt | he
      · obtain ⟨b, -, hb⟩ := h.2 _ hlt
        rw [hstop] at hb
        cases hb
      · rw [he, h.1] at hstop
        cases hstop
    refine ⟨(getElem?_upTo hlen).trans h.1, fun i hi => ?_⟩
    obtain ⟨b, hb, hbyte⟩ := h.2 i hi
    exact ⟨b, hb, (getElem?_upTo (hi.trans hlen)).trans hbyte⟩
  · have hlen : k < (upTo (userByte m root) va max).length := (List.getElem?_eq_some_iff.mp h.1).1
    refine ⟨(getElem?_upTo hlen).symm.trans h.1, fun i hi => ?_⟩
    obtain ⟨b, hb, hbyte⟩ := h.2 i hi
    exact ⟨b, hb, (getElem?_upTo (hi.trans hlen)).symm.trans hbyte⟩

end Xv6Freezer.Vm

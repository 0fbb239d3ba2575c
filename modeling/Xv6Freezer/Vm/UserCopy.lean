import Xv6Freezer.Vm.Growproc
import Xv6Freezer.Vm.Image

/-! # What system calls copy

`copyin`, `copyout` and `copyinstr` as the kernel uses them, for any address (`copyin_copyout_exact`,
`copyinstr_exact`).
-/

namespace Xv6Freezer.Vm

open Lib Fork

variable {m : Mem} {root : Nat}

/-- **`copyin` and `copyout` transfer exactly the bytes of the accessible pages**, for every address, and do
not panic. `copyin` changes nothing; `copyout` changes nothing but these bytes. -/
theorem copyin_copyout_exact (h : IsWritableTable root m) (va len : Nat) (src : List UInt8) :
    (∃ r dst, copyin root va len m = .ok ((r, dst), m) ∧ Accessed m root false va len dst.length r ∧
      ∀ i < dst.length, dst[i]? = userByte m root (va + i)) ∧
    ∃ (r : Int) (ps : List Nat), copyout root va src m = .ok (r, { m with bytes := m.bytes.put (ps.zip src) }) ∧
      Accessed m root true va src.length ps.length r ∧
      (∀ i < ps.length, ps[i]? = userAddr m root true (va + i)) ∧
      (∀ x ∉ ps, m.bytes.put (ps.zip src) x = m.bytes x) ∧
      (ps.Nodup → ∀ i < ps.length, ∀ pa, userAddr m root true (va + i) = some pa →
        some (m.bytes.put (ps.zip src) pa) = src[i]?) := by
  refine ⟨⟨_, _, copyin_eq h.toIsUserTable va len, accessed_upTo fun a => ?_, fun i hi =>
    getElem?_upTo hi⟩, _, _, copyout_eq h va src, accessed_upTo fun a => rfl, fun i hi =>
    getElem?_upTo hi, fun x hx => ?_, fun hnodup i hi pa hpa => ?_⟩
  · rw [userByte, Option.isSome_map]
  · refine Bytes.put_of_notMem fun hmem => hx ?_
    obtain ⟨p, hp, rfl⟩ := List.mem_map.mp hmem
    exact (List.of_mem_zip hp).1
  · have hle := length_upTo_le (userAddr m root true) va src.length
    have hsrc : i < src.length := by omega
    have hi' : (upTo (userAddr m root true) va src.length)[i] = pa := by
      rw [← getElem?_upTo hi, List.getElem?_eq_getElem hi] at hpa
      exact Option.some.inj hpa
    have hmem : (pa, src[i]) ∈ (upTo (userAddr m root true) va src.length).zip src := by
      rw [List.mem_iff_getElem]
      refine ⟨i, by rw [List.length_zip]; omega, ?_⟩
      rw [List.getElem_zip, hi']
    have hfst : ((upTo (userAddr m root true) va src.length).zip src).map Prod.fst =
        upTo (userAddr m root true) va src.length := List.map_fst_zip hle
    rw [List.getElem?_eq_getElem hsrc]
    exact congrArg some (Bytes.put_of_mem (hfst.symm ▸ hnodup) hmem)

/-- The result of `copyout` across a page boundary, and a byte in the second page. -/
def writeResult (m : Mem) : Option (Int × Option UInt8) :=
  (copyout (ramPage 4) 4094 [104, 105, 33, 0] m).toOption.map fun x => (x.1, userByte x.2 (ramPage 4) 4096)

def readResult (m : Mem) : Option (Int × List UInt8) := (copyin (ramPage 4) 4094 4 m).toOption.map Prod.fst

theorem copyin_copyout_boundary : ∃ root m m', copyin root 4094 4 m = .ok ((0, [0, 0, 0, 0]), m) ∧
    copyout root 4094 [104, 105, 33, 0] m = .ok (0, m') ∧ userByte m' root 4096 = some 33 := by
  obtain ⟨m, h, hrun⟩ := exists_addressSpace
  have hw : IsWritableTable (ramPage 4) m := h.table.isWritable
  obtain ⟨⟨r, dst, hin, -⟩, r', ps, hout, -⟩ := copyin_copyout_exact hw 4094 4 [104, 105, 33, 0]
  have hdst : readResult m = some (0, [0, 0, 0, 0]) := (hrun readResult).symm.trans (by decide +kernel)
  have hbyte : writeResult m = some (0, some 33) := (hrun writeResult).symm.trans (by decide +kernel)
  rw [readResult, hin] at hdst
  rw [writeResult, hout] at hbyte
  obtain ⟨rfl, rfl⟩ := Prod.mk.inj (Option.some.inj hdst)
  obtain ⟨rfl, hb⟩ := Prod.mk.inj (Option.some.inj hbyte)
  exact ⟨_, m, _, hin, hout, hb⟩

/-- **`copyinstr` reads a string**: it returns 0 and copies it exactly if one of at most `max` bytes, with its
NUL, is accessible at the address, otherwise -1. It does what `copyin` does byte by byte. -/
theorem copyinstr_exact (h : IsUserTable root m) (va max : Nat) :
    ∃ r dst, copyinstr root va max m = .ok ((r, dst), m) ∧ (r = 0 ∨ r = -1) ∧
      (r = 0 ↔ ∃ k < max, IsUserString m root va k) ∧
      (∀ k < max, IsUserString m root va k →
        dst.length = k + 1 ∧ ∀ i ≤ k, dst[i]? = userByte m root (va + i)) ∧
      dst.length ≤ max ∧ copyinBytes root va max [] m = .ok ((r, dst), m) := by
  have hle := length_upTo_le (userByte m root) va max
  have hfound : ∀ k < max, IsUserString m root va k → strResult (upTo (userByte m root) va max) =
      (0, (upTo (userByte m root) va max).take k ++ [0]) := fun k hk hs =>
    ((isUserString_iff hk).mp hs).strResult_eq
  refine ⟨(strResult (upTo (userByte m root) va max)).1, (strResult (upTo (userByte m root) va max)).2,
    copyinstr_eq h va max, ?_, ⟨fun hr => ?_, ?_⟩, fun k hk hs => ?_, ?_, copyinBytes_eq h max []⟩
  · unfold strResult
    split
    · exact .inl rfl
    · exact .inr rfl
  · unfold strResult at hr
    split at hr
    · rename_i hlt
      exact ⟨_, by omega, (isUserString_iff (by omega)).mpr (startsWithString_of_lt hlt)⟩
    · cases hr
  · rintro ⟨k, hk, hs⟩
    rw [hfound k hk hs]
  · have hstart := (isUserString_iff hk).mp hs
    have hlen : k < (upTo (userByte m root) va max).length :=
      (List.getElem?_eq_some_iff.mp hstart.1).1
    have htake : ((upTo (userByte m root) va max).take k).length = k :=
      List.length_take_of_le hlen.le
    rw [hfound k hk hs]
    refine ⟨by rw [List.length_append, htake]; rfl, fun i hi => ?_⟩
    rcases Nat.lt_or_eq_of_le hi with hi | rfl
    · rw [List.getElem?_append_left (by omega), List.getElem?_take_of_lt hi,
        getElem?_upTo (hi.trans hlen)]
    · rw [List.getElem?_append_right (by omega), htake, Nat.sub_self, hs.1]
      rfl
  · unfold strResult
    split
    · rename_i hlt
      rw [List.length_append]
      exact Nat.le_trans hlt hle
    · exact hle

/-- The user may write to the two pages. -/
def writable (m : Mem) : Option Bool :=
  some ((List.range 2).all fun v => m.pte (ramPage 4) v &&& PTE_U ≠ 0 ∧ m.pte (ramPage 4) v &&& PTE_W ≠ 0)

/-- A string is written across the page boundary, and read back. -/
def stringResult (m : Mem) : Option (Int × List UInt8) :=
  (copyout (ramPage 4) 4094 [104, 105, 33, 0] m).toOption.bind fun x =>
    (copyinstr (ramPage 4) 4094 10 x.2).toOption.map Prod.fst

theorem copyinstr_exact_boundary : ∃ root m m', copyout root 4094 [104, 105, 33, 0] m = .ok (0, m') ∧
    copyinstr root 4094 10 m' = .ok ((0, [104, 105, 33, 0]), m') := by
  obtain ⟨m, h, hrun⟩ := exists_addressSpace
  have himg : Image smallLayout _ (ramPage 4) _ 2 m fun a => m.bytes (m.addr (ramPage 4) a) :=
    ⟨h.table, fun v hv j hj => by
      rw [Mem.addr, Nat.mul_comm v, Nat.mul_add_div (by decide), Nat.div_eq_of_lt hj, Nat.mul_add_mod,
        Nat.mod_eq_of_lt hj, Nat.add_zero]⟩
  have hperm : writable m = some true := (hrun writable).symm.trans (by decide +kernel)
  obtain ⟨r, m', hout, rfl, himg', -⟩ := wp_iff.mp (show wp (copyout (ramPage 4) 4094 [104, 105, 33, 0]) _ m from
    himg.copyout (by decide) fun a _ ha => by
      have hv : a / PGSIZE < 2 := (Nat.div_lt_iff_lt_mul (by decide)).mpr (ha.trans (by decide))
      exact of_decide_eq_true (List.all_eq_true.mp (Option.some.inj hperm) _ (List.mem_range.mpr hv)))
  obtain ⟨r, dst, hstr, -⟩ := copyinstr_exact himg'.table.isWritable.toIsUserTable 4094 10
  have hr : stringResult m = some (0, [104, 105, 33, 0]) := (hrun stringResult).symm.trans (by decide +kernel)
  rw [stringResult, hout] at hr
  change (copyinstr (ramPage 4) 4094 10 m').toOption.map Prod.fst = _ at hr
  rw [hstr] at hr
  obtain ⟨rfl, rfl⟩ := Prod.mk.inj (Option.some.inj hr)
  exact ⟨_, m, m', hout, hstr⟩

end Xv6Freezer.Vm

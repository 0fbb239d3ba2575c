import Xv6Freezer.Pipe.Basic
import Xv6Freezer.Vm.UserCopy

/-! # What `piperead` delivers

`piperead` from the moment at which it leaves its first loop. A byte leaves the pipe before `copyout` is
tried: **exactly the bytes that are reported are removed and stored if and only if no address that is reached
is bad** (`piperead_conserves_iff`).
-/

namespace Xv6Freezer

open Function Lib
open Vm (Mem SamePage PTE2PA_aligned userAddr copyout copyout_eq IsWritableTable u64
  samePage_copyBytes)

/-! ## The code -/

/-- The second loop of `piperead`, with the rounds that are left: `i`, and the pipe. -/
def pipereadLoop (pagetable addr : Nat) : Nat → Nat → Pipe → Vm.M (Nat × Pipe)
  | 0, i, d => return (i, d)
  | rounds + 1, i, d =>
    if d.isEmpty then return (i, d)
    else do
      let r ← copyout pagetable (u64 (addr + i)) [d.data (d.nread % PIPESIZE)]
      if r = -1 then return (i, d.take) else pipereadLoop pagetable addr rounds (i + 1) d.take

/-- `piperead(pi, addr, n)` with `pi->lock` held: it goes to sleep (`none`), or returns. -/
def piperead (pagetable addr : Nat) (n : Int) (killed : Bool) (d : Pipe) : Vm.M (Option (Int × Pipe)) :=
  if d.isEmpty ∧ d.writeopen then return if killed then some (-1, d) else none
  else do
    let (i, d) ← pipereadLoop pagetable addr n.toNat 0 d
    return some (i, d)

/-! ## The bytes of a pipe -/

namespace Pipe

def count (d : Pipe) : Nat := (d.nwrite + 2 ^ 32 - d.nread) % 2 ^ 32

/-- The first `k` bytes of the pipe. -/
def front (d : Pipe) (k : Nat) : List UInt8 :=
  (List.range k).map fun j => (take^[j] d).data ((take^[j] d).nread % PIPESIZE)

/-- The counters are `uint`s. -/
def Counters (d : Pipe) : Prop := d.nread < 2 ^ 32 ∧ d.nwrite < 2 ^ 32

variable {d : Pipe}

theorem Counters.take (h : d.Counters) : d.take.Counters := ⟨Nat.mod_lt _ (by decide), h.2⟩

theorem isEmpty_iff (h : d.Counters) : d.isEmpty = true ↔ d.count = 0 := by
  obtain ⟨hr, hw⟩ := h
  rw [isEmpty, decide_eq_true_iff, count]
  omega

theorem count_take (h : d.Counters) (hne : d.count ≠ 0) : d.take.count = d.count - 1 := by
  obtain ⟨hr, hw⟩ := h
  unfold count at *
  show (d.nwrite + 2 ^ 32 - (d.nread + 1) % 2 ^ 32) % 2 ^ 32 = _
  omega

theorem front_succ (d : Pipe) (k : Nat) :
    d.front (k + 1) = d.data (d.nread % PIPESIZE) :: d.take.front k := by
  rw [front, List.range_succ_eq_map, List.map_cons, List.map_map]
  rfl

theorem length_removed_iterate (d : Pipe) (k : Nat) :
    (Pipe.take^[k] d).removed.length = d.removed.length + k := by
  induction k generalizing d with
  | zero => rfl
  | succ k ih =>
    rw [iterate_succ_apply, ih]
    simp only [Pipe.take, List.length_append, List.length_singleton]
    omega

end Pipe

variable {root addr : Nat} {m : Mem} {d : Pipe}

theorem copyout_byte (h : IsWritableTable root m) (va : Nat) (ch : UInt8) :
    (userAddr m root true va = none ∧ copyout root va [ch] m = .ok (-1, m)) ∨
      ∃ pa m', userAddr m root true va = some pa ∧ copyout root va [ch] m = .ok (0, m') ∧
        m' = { m with bytes := m.bytes.put [(pa, ch)] } ∧ IsWritableTable root m' ∧
        userAddr m' root = userAddr m root := by
  have hrun := copyout_eq h va [ch]
  cases hu : userAddr m root true va with
  | none =>
    rw [upTo_of_none hu] at hrun
    exact .inl ⟨rfl, hrun⟩
  | some pa =>
    rw [show [ch].length = 0 + 1 from rfl, upTo_succ_of_some hu] at hrun
    refine .inr ⟨pa, _, rfl, hrun, rfl, h.after fun x hx => ?_⟩
    -- the byte is in a page of the user, which is none of the table
    have hsep := h.separate va pa hu
    obtain ⟨base, rfl, hbase⟩ : ∃ base, base + va % PGSIZE = pa ∧ base % PGSIZE = 0 := by
      unfold userAddr at hu
      split at hu
      · exact ⟨_, Option.some.inj hu, PTE2PA_aligned _⟩
      · cases hu
    rw [Nat.add_sub_cancel] at hsep
    have hfill : m.bytes.put [(base + va % PGSIZE, ch)] =
        m.bytes.fill (base + va % PGSIZE) 1 fun i => [ch].getD i 0 := Bytes.put_range m.bytes _ [ch]
    show SamePage m.bytes (m.bytes.put [(base + va % PGSIZE, ch)]) x
    rw [hfill]
    exact samePage_copyBytes hbase (h.shape.isPage_of_mem hx).aligned (fun e => hsep (e ▸ hx))
      (Nat.mod_lt _ (by decide))

/-- **The second loop of `piperead`** stores the bytes up to the first bad address, and takes one more. -/
theorem pipereadLoop_eq (h : IsWritableTable root m) (hd : d.Counters) (addr rounds i : Nat) :
    ∃ ps : List Nat, ps.length ≤ min rounds d.count ∧
      (∀ j < ps.length, ps[j]? = userAddr m root true (u64 (addr + (i + j)))) ∧
      (ps.length < min rounds d.count → userAddr m root true (u64 (addr + (i + ps.length))) = none) ∧
      pipereadLoop root addr rounds i d m =
        .ok ((i + ps.length,
            Pipe.take^[if ps.length < min rounds d.count then ps.length + 1 else ps.length] d),
          { m with bytes := m.bytes.put (ps.zip (d.front ps.length)) }) := by
  induction rounds generalizing i d m with
  | zero => exact ⟨[], Nat.zero_le _, nofun, by simp, by simp [pipereadLoop]; rfl⟩
  | succ rounds ih =>
    by_cases hempty : d.isEmpty = true
    · have hcount : d.count = 0 := (Pipe.isEmpty_iff hd).mp hempty
      refine ⟨[], Nat.zero_le _, nofun, fun hlt => ?_, ?_⟩
      · rw [hcount, Nat.min_zero] at hlt
        cases hlt
      · rw [pipereadLoop, if_pos hempty, hcount]
        rfl
    · have hcount : d.count ≠ 0 := mt (Pipe.isEmpty_iff hd).mpr hempty
      have htake := Pipe.count_take hd hcount
      rw [pipereadLoop, if_neg hempty]
      rcases copyout_byte h (u64 (addr + i)) (d.data (d.nread % PIPESIZE)) with
        ⟨hnone, hrun⟩ | ⟨pa, m1, hpa, hrun, hm1, h1, haddr⟩
      · -- the byte is lost
        refine ⟨[], Nat.zero_le _, nofun, fun _ => hnone, ?_⟩
        rw [if_pos (show [].length < min (rounds + 1) d.count by simp only [List.length_nil]; omega)]
        show (copyout root _ _ >>= _) m = _
        simp only [bind, StateT.bind, hrun, Except.bind]
        rfl
      · obtain ⟨ps, hle, hps, hstop, hloop⟩ := ih h1 hd.take (i + 1)
        rw [htake, haddr] at *
        refine ⟨pa :: ps, ?_, ?_, ?_, ?_⟩
        · rw [List.length_cons]
          omega
        · intro j hj
          cases j with
          | zero => exact hpa.symm
          | succ j =>
            rw [List.getElem?_cons_succ, hps j (Nat.lt_of_succ_lt_succ hj), Nat.add_assoc i 1 j,
              Nat.add_comm 1 j]
        · intro hlt
          rw [List.length_cons] at hlt ⊢
          rw [← hstop (by omega), Nat.add_assoc i 1, Nat.add_comm 1]
        · show (copyout root _ _ >>= _) m = _
          simp only [bind, StateT.bind, hrun, Except.bind]
          rw [if_neg (by decide), hloop, hm1, List.length_cons, Pipe.front_succ, List.zip_cons_cons]
          have hlt : ps.length + 1 < min (rounds + 1) d.count ↔ ps.length < min rounds (d.count - 1) := by
            omega
          simp only [hlt]
          refine congrArg Except.ok (Prod.ext (Prod.ext (by simp only; omega) ?_) rfl)
          simp only
          split <;> rfl

/-! ## `piperead` -/

/-- The call has removed the first `r` bytes and stored them at `addr`; 0 means the end of the file. -/
structure Conserves (root addr : Nat) (m : Mem) (d : Pipe) (n r : Int) (d' : Pipe) (m' : Mem) : Prop where
  removed : d' = Pipe.take^[r.toNat] d
  stored : ∃ ps : List Nat, (ps.length : Int) = r ∧
    (∀ j < ps.length, ps[j]? = userAddr m root true (u64 (addr + j))) ∧
    m' = { m with bytes := m.bytes.put (ps.zip (d.front ps.length)) }
  eof : 0 < n → r = 0 → d.isEmpty = true ∧ d.writeopen = false

/-- **`piperead` and bad addresses**: a call that returns `r ≥ 0` removes exactly `r` bytes, stores them, and
returns 0 only at the end of the file, if and only if every address that it wants to store to is accessible.
-/
theorem piperead_conserves_iff {n r : Int} {killed : Bool} {d' : Pipe} {m' : Mem}
    (h : IsWritableTable root m) (hd : d.Counters)
    (hrun : piperead root addr n killed d m = .ok (some (r, d'), m')) (hr : 0 ≤ r) :
    Conserves root addr m d n r d' m' ↔
      ∀ j < min n.toNat d.count, (userAddr m root true (u64 (addr + j))).isSome := by
  unfold piperead at hrun
  by_cases hwait : d.isEmpty ∧ d.writeopen
  · -- a call that would wait returns -1, if at all
    rw [if_pos hwait] at hrun
    cases killed with
    | false => cases hrun
    | true =>
      cases hrun
      exact absurd hr (by decide)
  rw [if_neg hwait] at hrun
  obtain ⟨ps, hle, hps, hstop, hloop⟩ := pipereadLoop_eq h hd addr n.toNat 0
  simp only [Nat.zero_add] at hps hstop hloop
  have hrun' : some ((ps.length : Int),
      Pipe.take^[if ps.length < min n.toNat d.count then ps.length + 1 else ps.length] d) = some (r, d') ∧
      { m with bytes := m.bytes.put (ps.zip (d.front ps.length)) } = m' := by
    simp only [bind, StateT.bind, hloop, Except.bind, pure, StateT.pure, Except.pure] at hrun
    cases hrun
    exact ⟨rfl, rfl⟩
  obtain ⟨hrd, hm'⟩ := hrun'
  obtain ⟨rfl, rfl⟩ := Prod.mk.inj (Option.some.inj hrd)
  constructor
  · intro hcons j hj
    -- one more byte would have been removed
    have hlen := congrArg (fun d : Pipe => d.removed.length) hcons.removed
    simp only [Pipe.length_removed_iterate, Int.toNat_natCast] at hlen
    have hall : ¬ ps.length < min n.toNat d.count := fun hlt => by
      rw [if_pos hlt] at hlen
      omega
    rw [← hps j (by omega), List.getElem?_eq_getElem (by omega)]
    rfl
  · intro hgood
    have hall : ¬ ps.length < min n.toNat d.count := fun hlt => by
      have := hgood _ hlt
      rw [hstop hlt] at this
      cases this
    refine ⟨?_, ⟨ps, rfl, hps, hm'.symm⟩, fun hn h0 => ?_⟩
    · rw [if_neg hall, Int.toNat_natCast]
    · have hempty : d.isEmpty = true := by
        rw [Pipe.isEmpty_iff hd]
        omega
      exact ⟨hempty, Bool.eq_false_iff.mpr fun hw => hwait ⟨hempty, hw⟩⟩

def oneByte : Pipe := pipealloc.put 7

/-- A read of that byte to an accessible address. -/
theorem piperead_conserves_one : ∃ root m d' m', oneByte.Counters ∧
    piperead root 10 1 false oneByte m = .ok (some (1, d'), m') ∧
    Conserves root 10 m oneByte 1 1 d' m' := by
  obtain ⟨m, hspace, heval⟩ := Fork.exists_addressSpace
  have h : IsWritableTable (Fork.ramPage 4) m := hspace.table.isWritable
  have hd : oneByte.Counters := by
    constructor <;> decide
  have hu : userAddr m (Fork.ramPage 4) true (u64 10) = some (Fork.ramPage 7 + 10) :=
    (heval fun m => userAddr m (Fork.ramPage 4) true (u64 10)).symm.trans (by decide +kernel)
  rcases copyout_byte h (u64 10) 7 with ⟨hnone, -⟩ | ⟨pa, m₁, -, hcopy, -⟩
  · rw [hu] at hnone
    cases hnone
  have hrun : piperead (Fork.ramPage 4) 10 1 false oneByte m = .ok (some (1, oneByte.take), m₁) := by
    show ((copyout _ (u64 10) [7] >>= _) >>= _) m = _
    simp only [bind, StateT.bind, hcopy, Except.bind]
    rfl
  refine ⟨_, m, _, m₁, hd, hrun, (piperead_conserves_iff h hd hrun (by decide)).mpr fun j hj => ?_⟩
  obtain rfl : j = 0 := Nat.lt_one_iff.mp (Nat.lt_of_lt_of_le hj (Nat.min_le_left _ _))
  rw [hu]
  rfl

/-- A read to a bad address returns 0, as at the end of the file, and the byte is gone. -/
theorem piperead_loses_byte : ∃ root m, IsWritableTable root m ∧ oneByte.isEmpty = false ∧
    piperead root Vm.MAXVA 1 false oneByte m = .ok (some (0, oneByte.take), m) ∧
    oneByte.take.isEmpty = true := by
  obtain ⟨m, hspace, -⟩ := Fork.exists_addressSpace
  have h : IsWritableTable (Fork.ramPage 4) m := hspace.table.isWritable
  refine ⟨_, m, h, by decide, ?_, by decide⟩
  rcases copyout_byte h (u64 Vm.MAXVA) 7 with ⟨-, hcopy⟩ | ⟨pa, m₁, hpa, -⟩
  · show ((copyout _ (u64 Vm.MAXVA) [7] >>= _) >>= _) m = _
    simp only [bind, StateT.bind, hcopy, Except.bind]
    rfl
  · exact absurd (Vm.lt_of_userAddr hpa) (by decide)

end Xv6Freezer

import Xv6Freezer.Params

/-! # The file-system log

The in-memory log of `kernel/log.c`: what `begin_op`, `log_write` and `end_op` do to it inside their
critical sections on `log.lock`. A `panic` is an `Except` error with its message. -/

namespace Xv6Freezer

/-- `struct log`, with `log.lh.block[0..n)` as a list. -/
structure Log where
  start : Nat
  size : Nat
  outstanding : Int
  committing : Bool
  lh : List Nat
  deriving DecidableEq

namespace Log

/-- The log after `initlog` and recovery. -/
def init (start size : Nat) : Log :=
  { start := start, size := size, outstanding := 0, committing := false, lh := [] }

/-- The tests of the loop in `begin_op`: does the caller sleep? -/
def mustWait (l : Log) : Bool :=
  l.committing || decide ((l.lh.length : Int) + (l.outstanding + 1) * MAXOPBLOCKS > LOGSIZE)

def beginOp (l : Log) : Log := { l with outstanding := l.outstanding + 1 }

/-- The first critical section of `end_op`, with its `do_commit`. -/
def endOp (l : Log) : Except String (Log × Bool) :=
  let l := { l with outstanding := l.outstanding - 1 }
  if l.committing then .error "log.committing"
  else if l.outstanding = 0 then .ok ({ l with committing := true }, true)
  else .ok (l, false)

/-- The search loop of `log_write`: the new header, and whether the block was added. -/
def absorb (lh : List Nat) (blockno : Nat) : List Nat × Bool :=
  let i := lh.findIdx (· == blockno)
  if i = lh.length then (lh ++ [blockno], true) else (lh.set i blockno, false)

def logWrite (l : Log) (blockno : Nat) : Except String (Log × Bool) :=
  if l.lh.length ≥ LOGSIZE ∨ (l.lh.length : Int) ≥ (l.size : Int) - 1 then
    .error "too big a transaction"
  else if l.outstanding < 1 then .error "log_write outside of trans"
  else .ok ({ l with lh := (absorb l.lh blockno).1 }, (absorb l.lh blockno).2)

/-- The end of `commit`: `log.lh.n = 0`. -/
def clear (l : Log) : Log := { l with lh := [] }

/-- The last critical section of `end_op`. -/
def commitDone (l : Log) : Log := { l with committing := false }

theorem absorb_of_mem {lh : List Nat} {b : Nat} (h : b ∈ lh) : absorb lh b = (lh, false) := by
  have hlt : lh.findIdx (· == b) < lh.length :=
    List.findIdx_lt_length_of_exists ⟨b, h, by simp⟩
  have hget : lh[lh.findIdx (· == b)] = b := by
    simpa using List.findIdx_getElem (w := hlt)
  have hset : lh.set (lh.findIdx (· == b)) b = lh := by
    conv_rhs => rw [← List.set_getElem_self hlt]
    rw [hget]
  simp [absorb, Nat.ne_of_lt hlt, hset]

theorem absorb_of_not_mem {lh : List Nat} {b : Nat} (h : b ∉ lh) :
    absorb lh b = (lh ++ [b], true) := by
  have hidx : lh.findIdx (· == b) = lh.length := by
    rw [List.findIdx_eq_length]
    intro x hx
    simpa using fun e : x = b => h (e ▸ hx)
  simp [absorb, hidx]

theorem mem_absorb {lh : List Nat} {b x : Nat} : x ∈ (absorb lh b).1 ↔ x ∈ lh ∨ x = b := by
  by_cases h : b ∈ lh
  · rw [absorb_of_mem h]
    exact ⟨.inl, fun hx => hx.elim id fun e => e ▸ h⟩
  · rw [absorb_of_not_mem h]
    simp

theorem nodup_absorb {lh : List Nat} {b : Nat} (h : lh.Nodup) : (absorb lh b).1.Nodup := by
  by_cases hb : b ∈ lh
  · rw [absorb_of_mem hb]; exact h
  · rw [absorb_of_not_mem hb]
    exact List.Nodup.append h (List.nodup_singleton b) (by simpa using hb)

variable {l l' : Log} {b : Nat} {r : Bool}

theorem logWrite_ok (h : l.logWrite b = .ok (l', r)) :
    (l.lh.length < LOGSIZE ∧ l.lh.length + 1 < l.size) ∧
      l' = { l with lh := (absorb l.lh b).1 } ∧ r = (absorb l.lh b).2 := by
  unfold logWrite at h
  split at h
  · cases h
  · rename_i hroom
    split at h <;> cases h
    exact ⟨by omega, rfl, rfl⟩

theorem length_absorb_le (lh : List Nat) (b : Nat) : (absorb lh b).1.length ≤ lh.length + 1 := by
  unfold absorb
  simp only
  split <;> simp

theorem endOp_ok (h : l.endOp = .ok (l', r)) :
    l'.size = l.size ∧ l'.outstanding = l.outstanding - 1 := by
  simp only [endOp] at h
  split at h
  · cases h
  · split at h <;> cases h <;> exact ⟨rfl, rfl⟩

end Log

end Xv6Freezer

import Xv6Freezer.Fs.Ops
import Xv6Freezer.Kernel.Hold

/-! # Freezing and the file system

A process that is frozen while it sleeps inside a file-system operation keeps its sleep-locks and its place
among the outstanding operations. Which steps lead to such a state.
-/

namespace Xv6Freezer

open Function

/-! ## What the file system does to its data -/

/-- The ways in which a statement of process `self` changes the data. -/
inductive Fs.Update (d : Fs) (self : Option Slot) : Fs → Prop
  | refl : Fs.Update d self d
  | beginOp (p : Slot) (hp : self = some p) :
      Fs.Update d self { d with log := d.log.beginOp, ops := update d.ops p (d.ops p + 1) }
  | endOp (p : Slot) (l : Log) (doCommit : Bool) (hp : self = some p)
      (hl : d.log.endOp = .ok (l, doCommit)) :
      Fs.Update d self { d with log := l, ops := update d.ops p (d.ops p - 1) }
  /-- `log_write` and `commit`. -/
  | log (l : Log) (hl : l.outstanding = d.log.outstanding) : Fs.Update d self { d with log := l }
  | lock (p : Slot) (l : Nat) (pid : Int) (hp : self = some p) :
      Fs.Update d self { d with sleeplocks := update d.sleeplocks l
                                  { locked := true, pid := pid, owner := some p } }
  | unlock (l : Nat) :
      Fs.Update d self { d with sleeplocks := update d.sleeplocks l
                                  { locked := false, pid := 0, owner := none } }
  | disk (v : Nat → Bool) : Fs.Update d self { d with disk := v }

variable {d d' : Fs} {k : FsFrame}

theorem Fs.Update.of_goto {self : Option Slot} {f : FsFrame} (h : d.goto f = .update d' k) :
    d.Update self d' := by
  cases h
  exact .refl

theorem fsCode_update {f : FsFrame} {self : Option Slot} {pid : Int} {x : Nat}
    (h : fsCode f self pid d x = .update d' k) : d.Update self d' := by
  cases f with
  | virtioDiskIntr pc =>
    cases pc <;> simp only [fsCode, virtioDiskIntrCode] at h <;> (repeat' split at h) <;> cases h
    exact .disk _
  | panic msg held => exact .of_goto h
  | cont kc =>
    cases self with
    | none => exact .of_goto h
    | some p =>
      cases kc with
      | op held inOp =>
        simp only [fsCode, contCode, opCode] at h
        (repeat' split at h) <;> first | exact .of_goto h | cases h
      | run steps kc =>
        cases steps with
        | nil => exact .of_goto h
        | cons st steps =>
          cases st with
          | clear => cases h; exact .log _ rfl
          | read b =>
            simp only [fsCode, contCode] at h
            split at h <;> exact .of_goto h
          | _ => exact .of_goto h
      | finish kc => cases h
  | beginOp pc kc =>
    cases self with
    | none => exact .of_goto h
    | some p =>
      cases pc <;> simp only [fsCode, beginOpCode] at h <;> (repeat' split at h) <;> cases h
      exact .beginOp p rfl
  | logWrite b pc kc =>
    cases self with
    | none => exact .of_goto h
    | some p =>
      cases pc with
      | body =>
        simp only [fsCode, logWriteCode] at h
        split at h
        · exact .of_goto h
        · rename_i hok
          cases h
          exact .log _ (by rw [(Log.logWrite_ok hok).2.1])
      | _ => cases h
  | endOp pc kc =>
    cases self with
    | none => exact .of_goto h
    | some p =>
      cases pc with
      | body =>
        simp only [fsCode, endOpCode] at h
        split at h
        · exact .of_goto h
        · rename_i hok
          cases h
          exact .endOp p _ _ rfl hok
      | rel doCommit => cases doCommit <;> cases h
      | done => cases h; exact .log _ rfl
      | _ => cases h
  | acquiresleep l pc kc =>
    cases self with
    | none => exact .of_goto h
    | some p =>
      cases pc <;> simp only [fsCode, acquiresleepCode] at h <;> (repeat' split at h) <;> cases h
      exact .lock p l pid rfl
  | holdingsleep l msg pc kc =>
    cases self with
    | none => exact .of_goto h
    | some p =>
      cases pc with
      | read => exact .of_goto h
      | rel r => cases r <;> cases h
      | acq => cases h
  | releasesleep l pc kc =>
    cases self with
    | none => exact .of_goto h
    | some p => cases pc <;> cases h; exact .unlock l
  | virtioDiskRw b pc kc =>
    cases self with
    | none => exact .of_goto h
    | some p =>
      cases pc <;> simp only [fsCode, virtioDiskRwCode] at h <;> (repeat' split at h) <;>
        first | exact .of_goto h | (cases h; exact .disk _) | cases h

/-! ## What a process holds -/

/-- The process is between `begin_op` and `end_op`, or owns a sleep-lock. -/
def Fs.Holds (d : Fs) (p : Slot) : Prop := 0 < d.ops p ∨ ∃ l, (d.sleeplocks l).owner = some p

theorem Fs.Update.own {self : Option Slot} {p : Slot} (h : d.Update self d') (hp : d'.Holds p) :
    d.Holds p ∨ self = some p := by
  by_cases hself : self = some p
  · exact .inr hself
  left
  have hne : ∀ q, self = some q → p ≠ q := fun q hq e => hself (by rw [hq, e])
  cases h with
  | refl => exact hp
  | beginOp q hq => simpa [Fs.Holds, update_of_ne (hne q hq)] using hp
  | endOp q l doCommit hq hl => simpa [Fs.Holds, update_of_ne (hne q hq)] using hp
  | log l hl => exact hp
  | lock q l pid hq =>
    refine hp.imp_right fun ⟨l', hl'⟩ => ⟨l', ?_⟩
    by_cases hll : l' = l
    · subst hll
      simp only [update_self, Option.some.injEq] at hl'
      exact absurd hl'.symm (hne q hq)
    · simpa [update_of_ne hll] using hl'
  | unlock l =>
    refine hp.imp_right fun ⟨l', hl'⟩ => ⟨l', ?_⟩
    by_cases hll : l' = l
    · subst hll; simp at hl'
    · simpa [update_of_ne hll] using hl'
  | disk v => exact hp

def fsHolding : Holding fsClient where
  holds := Fs.Holds
  own _ _ _ _ _ _ _ _ h := (fsCode_update h).own

/-! ## Locks and operations have a process -/

/-- A sleep-lock that is taken has an owner, and `log.outstanding` counts the open operations. -/
structure Fs.Ok (d : Fs) : Prop where
  owned : ∀ l, (d.sleeplocks l).locked = true → ∃ p, (d.sleeplocks l).owner = some p
  counted : ∃ S : Finset Slot, (∀ p, p ∉ S → d.ops p = 0) ∧ d.log.outstanding = ∑ p ∈ S, d.ops p

theorem sum_update_add {S : Finset Slot} {f : Slot → Int} {p : Slot} (v : Int)
    (h : p ∉ S → f p = 0) :
    ∑ q ∈ insert p S, update f p (f p + v) q = ∑ q ∈ S, f q + v := by
  rw [Finset.sum_update_of_mem (Finset.mem_insert_self p S),
    ← Finset.sum_insert_of_eq_zero_if_notMem h,
    ← Finset.add_sum_erase _ f (Finset.mem_insert_self p S), Finset.sdiff_singleton_eq_erase]
  omega

theorem Fs.Ok.count {l : Log} {p : Slot} {v : Int} (h : d.Ok)
    (hl : l.outstanding = d.log.outstanding + v) :
    ({ d with log := l, ops := update d.ops p (d.ops p + v) } : Fs).Ok where
  owned := h.owned
  counted := by
    obtain ⟨S, hS, hsum⟩ := h.counted
    refine ⟨insert p S, fun q hq => ?_, ?_⟩
    · rw [Finset.mem_insert, not_or] at hq
      exact (update_of_ne hq.1 _ _).trans (hS q hq.2)
    · rw [hl, hsum, sum_update_add v (hS p)]

theorem Fs.Update.ok {self : Option Slot} (h : d.Update self d') (hd : d.Ok) : d'.Ok := by
  cases h with
  | refl => exact hd
  | beginOp p hp => exact hd.count rfl
  | endOp p l doCommit hp hl =>
    have := hd.count (p := p) (v := -1) (l := l) (by rw [(Log.endOp_ok hl).2]; rfl)
    exact this
  | log l hl => exact ⟨hd.owned, by rw [hl]; exact hd.counted⟩
  | lock p l pid hp =>
    refine ⟨fun l' hl' => ?_, hd.counted⟩
    by_cases hll : l' = l
    · subst hll; exact ⟨p, by simp⟩
    · simp only [update_of_ne hll] at hl' ⊢
      exact hd.owned l' hl'
  | unlock l =>
    refine ⟨fun l' hl' => ?_, hd.counted⟩
    by_cases hll : l' = l
    · subst hll; simp at hl'
    · simp only [update_of_ne hll] at hl' ⊢
      exact hd.owned l' hl'
  | disk v => exact ⟨hd.owned, hd.counted⟩

theorem Fs.Ok.exists_op (h : d.Ok) (hout : 0 < d.log.outstanding) : ∃ p, 0 < d.ops p := by
  obtain ⟨S, -, hsum⟩ := h.counted
  by_contra hno
  have hle : ∑ p ∈ S, d.ops p ≤ 0 :=
    Finset.sum_nonpos fun p _ => not_lt.mp fun hp => hno ⟨p, hp⟩
  omega

variable {start size : Nat} {s : State fsClient}

theorem fsKernel_ok (h : (fsKernel start size).Reachable s) : s.data.Ok := by
  refine reachable_data (I := Fs.Ok) h (fun d hd => ?_) fun _ _ _ _ _ _ _ hc => (fsCode_update hc).ok
  subst hd
  exact ⟨fun l hl => by simp [Fs.boot] at hl, ∅, fun _ _ => rfl, rfl⟩

/-- The first process has forked a child, with pid 2, which runs on CPU 1. -/
def fsForkTrace : List (CpuId × Act fsClient) :=
  goes 0 7 ++ [(0, .go 0)] ++ goes 0 1 ++ [(0, .call .fork)] ++ goes 0 16 ++ goes 1 10

/-- The child begins an operation, locks buffer 3 and waits for the disk. -/
def fsReadTrace : List (CpuId × Act fsClient) :=
  [(1, .call (.op FsFrame.start))] ++ goes 1 4 ++ [(1, .go 45)] ++ goes 1 3 ++ [(1, .go 26)] ++
    goes 1 12

/-- The first process freezes the child and then wants the lock of buffer 3. -/
def fsFreezeTrace : List (CpuId × Act fsClient) :=
  [(0, .call (.sysFreeze 2))] ++ goes 0 6 ++ [(0, .call (.op FsFrame.start)), (0, .go 45)] ++ goes 0 8

set_option maxRecDepth 100000 in
/-- A process is frozen inside an operation: it owns the lock of buffer 3, for which another one waits, and
the log has an outstanding operation. -/
theorem frozen_in_operation : ∃ s, (fsKernel 2 nlog).Reachable s ∧
    (s.procs 1).frozen ≠ 0 ∧ (s.procs 1).state = .sleeping ∧ 0 < s.data.ops 1 ∧
    s.data.log.outstanding = 1 ∧ (s.data.sleeplocks (bufLock 3)).owner = some 1 ∧
    (s.procs 0).state = .sleeping ∧
    (s.procs 0).chan = some (.addr (chanSleepLock (bufLock 3))) := by
  have hinit : (fsKernel 2 nlog).init (boot 1 1 1 (Fs.boot 2 nlog)) := ⟨1, 1, 1, _, rfl, rfl⟩
  obtain ⟨s, hs, hp⟩ := Lib.Lts.reachable_of_execs (fsForkTrace ++ fsReadTrace ++ fsFreezeTrace)
    (fun s : State fsClient => decide ((s.procs 1).frozen ≠ 0 ∧ (s.procs 1).state = .sleeping ∧
      0 < s.data.ops 1 ∧ s.data.log.outstanding = 1 ∧
      (s.data.sleeplocks (bufLock 3)).owner = some 1 ∧ (s.procs 0).state = .sleeping ∧
      (s.procs 0).chan = some (.addr (chanSleepLock (bufLock 3))))) hinit (by decide)
  exact ⟨s, hs, of_decide_eq_true hp⟩

/-- **When freezing is safe for the file system.** In a run of safe steps (`SafeStop`), a process that is
frozen and not `RUNNING` is in no operation and owns no sleep-lock; and a step keeps that iff it is safe. -/
theorem frozen_holds_nothing_iff :
    (∀ s, (fsKernel start size).ReachableIf (SafeStop fsHolding) s →
      (∀ p, (s.procs p).frozen ≠ 0 → (s.procs p).state ≠ .running → ¬ s.data.Holds p) ∧
      (0 < s.data.log.outstanding → ∃ p, 0 < s.data.ops p ∧
        ((s.procs p).frozen = 0 ∨ (s.procs p).state = .running)) ∧
      ∀ l, (s.data.sleeplocks l).locked = true → ∃ p, (s.data.sleeplocks l).owner = some p ∧
        ((s.procs p).frozen = 0 ∨ (s.procs p).state = .running)) ∧
    ∀ s a s', (fsKernel start size).Reachable s → StoppedFree fsHolding s →
      (fsKernel start size).step s a = some s' →
      (StoppedFree fsHolding s' ↔ SafeStop fsHolding s a) := by
  refine ⟨fun s h => ?_, fun s a s' h hfree hs => kstep_stoppedFree (reachable_inv h) hfree hs⟩
  have hok := fsKernel_ok h.reachable
  have hfree : StoppedFree fsHolding s := reachableIf_stoppedFree h
  -- a process that holds something is not frozen, or it is `RUNNING`
  have hruns : ∀ p, s.data.Holds p → (s.procs p).frozen = 0 ∨ (s.procs p).state = .running := by
    intro p hp
    by_contra hno
    rw [not_or] at hno
    exact hfree p hno.1 hno.2 hp
  refine ⟨hfree, fun hout => ?_, fun l hl => ?_⟩
  · obtain ⟨p, hp⟩ := hok.exists_op hout
    exact ⟨p, hp, hruns p (.inl hp)⟩
  · obtain ⟨p, hp⟩ := hok.owned l hl
    exact ⟨p, hp, hruns p (.inr ⟨l, hp⟩)⟩

/-- The child freezes itself and is taken off the CPU; the first process begins an operation and waits for the
disk. -/
def fsSafeTrace : List (CpuId × Act fsClient) :=
  fsForkTrace ++ [(1, .call (.sysFreeze 2))] ++ goes 1 6 ++ [(1, .timer)] ++ goes 1 4 ++
    [(0, .call (.op FsFrame.start))] ++ goes 0 4 ++ [(0, .go 45)] ++ goes 0 3 ++ [(0, .go 26)] ++ goes 0 12

/-- Only the process in slot 1 is frozen, and it executes no code of the file system. -/
def leavesChild (t : State fsClient) (a : CpuId × Act fsClient) : Bool :=
  (match event t a with
    | .freezes p _ => decide (p = 1)
    | _ => true) &&
  (stopping t a).all (fun p => decide ((t.procs p).frozen = 0 ∨ p = 1)) &&
  match t.stackOf a.1 with
  | .client _ :: _ => decide (myproc t a.1 ≠ some 1)
  | _ => true

theorem safeStop_of_leavesChild (h : (fsKernel start size).ReachableIf (fun t a => leavesChild t a = true) s) :
    (fsKernel start size).ReachableIf (SafeStop fsHolding) s := by
  suffices hall : (fsKernel start size).ReachableIf (SafeStop fsHolding) s ∧ Inv s ∧ ¬s.data.Holds 1 from hall.1
  refine h.invariant (I := fun t => (fsKernel start size).ReachableIf (SafeStop fsHolding) t ∧ Inv t ∧
    ¬t.data.Holds 1) (fun t ht => ⟨⟨t, ht, .refl t⟩, ?_⟩) ?_
  · obtain ⟨tf, pt, cwd, d, rfl, rfl⟩ := ht
    refine ⟨boot_inv tf pt cwd _, ?_⟩
    rintro (hop | ⟨l, hl⟩)
    · cases hop
    · cases hl
  · rintro t ⟨c, a⟩ t' ⟨hr, hi, hno⟩ ha hs
    obtain ⟨f, rest, hf, -⟩ := kstep_stepped hi hs
    simp only [leavesChild, Bool.and_eq_true] at ha
    obtain ⟨⟨hfz, hst⟩, hself⟩ := ha
    have hsafe : SafeStop fsHolding t (c, a) := by
      refine ⟨fun p pid he => .inr ?_, fun p hp hz => ?_⟩
      · rw [he] at hfz
        rw [of_decide_eq_true hfz]
        exact hno
      · rw [hp] at hst
        rw [(of_decide_eq_true hst).resolve_left hz]
        exact hno
    refine ⟨hr.trans (Lib.Lts.RunIf.tail (.refl t) hsafe hs), kstep_inv hi hs, fun hh => ?_⟩
    rcases kstep_data hs hf with e | ⟨x, g, d, k, rfl, rfl, hc, rfl, -⟩
    · exact hno (e ▸ hh)
    · rw [hf] at hself
      have hne : myproc t c ≠ some 1 := of_decide_eq_true hself
      exact ((fsCode_update hc).own hh).elim hno hne

/-- The child is frozen and holds nothing while the first process is in an operation. -/
theorem frozen_holds_nothing_child : ∃ s,
    (fsKernel 2 nlog).ReachableIf (SafeStop fsHolding) s ∧ (s.procs 1).frozen ≠ 0 ∧
    (s.procs 1).state = .runnable ∧ ¬s.data.Holds 1 ∧ 0 < s.data.log.outstanding ∧
    ∃ p, 0 < s.data.ops p ∧ ((s.procs p).frozen = 0 ∨ (s.procs p).state = .running) := by
  have hinit : (fsKernel 2 nlog).init (boot 1 1 1 (Fs.boot 2 nlog)) := ⟨1, 1, 1, _, rfl, rfl⟩
  obtain ⟨s, hs, hp⟩ := Lib.Lts.reachableIf_of_execs fsSafeTrace leavesChild
    (fun s : State fsClient => decide ((s.procs 1).frozen ≠ 0 ∧ (s.procs 1).state = .runnable ∧
      0 < s.data.log.outstanding)) hinit (by decide)
  obtain ⟨hz, hrun, hout⟩ := of_decide_eq_true hp
  obtain ⟨hfree, hops, -⟩ := frozen_holds_nothing_iff.1 s (safeStop_of_leavesChild hs)
  exact ⟨s, safeStop_of_leavesChild hs, hz, hrun, hfree 1 hz (by rw [hrun]; decide), hout, hops hout⟩

end Xv6Freezer

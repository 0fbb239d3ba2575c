import Xv6Freezer.Kernel.Assert

/-! # No lost wakeup

Code outside `proc.c` that uses `sleep` and `wakeup` as a monitor under one spinlock `lk`. From the moment
when a condition becomes true until the end of the scan of `wakeup`, the CPU that holds `lk` owes the sleepers
a wakeup (`Owes`). The scan cannot overtake a process that is about to sleep, since that process holds its own
lock.
-/

namespace Xv6Freezer

open Function (update)

variable {M : Client} {init : M.Data → Prop} {s s' : State M} {c c' : CpuId} {p i : Slot}
  {f : Frame M} {k rest : List (Frame M)} {a : Act M} {ret : Frame M}

/-! ## Monitors -/

/-- The statement at program point `f` follows the discipline of the monitor. `dirty` marks the program points
between a store that makes a condition true and the call of `wakeup`. -/
def Stmt.Monitored {F D L : Type} (lk : L) (chan : Nat) (cond : F → Slot → D → Bool)
    (dirty : F → Bool) (f : F) (self : Option Slot) (d : D) : Stmt F D L → Prop
  | .acquire _ k => dirty f = true → dirty k = true
  | .release l k => (l = lk → dirty f = false) ∧ (dirty f = true → dirty k = true)
  | .sleep n l k =>
    dirty f = false ∧ (n = chan → l = lk ∧ ∀ p, self = some p → cond k p d = false)
  | .wakeup n k => n = chan ∨ (dirty f = true → dirty k = true)
  | .killed k => dirty f = true → ∀ b, dirty (k b) = true
  | .update d' k =>
    (dirty f = true → dirty k = true) ∧
      ((∃ g p, cond g p d = false ∧ cond g p d' = true) → dirty k = true)
  | .ret => True

/-- Conditions protected by the spinlock `lk`, waited for on the channel `chan`. -/
structure Waiting (M : Client) where
  lk : M.Lk
  chan : Nat
  /-- The condition of a process whose `sleep` returns to the given program point. -/
  cond : M.Frame → Slot → M.Data → Bool
  /-- A condition has been made true, and `wakeup` has not been called yet. -/
  dirty : M.Frame → Bool
  /-- Conditions are made true under the lock. -/
  dirty_held : ∀ f, dirty f = true → lk ∈ M.held f

/-- Every statement follows the discipline, whatever the data are. -/
structure Monitor (M : Client) extends Waiting M where
  code_monitored : ∀ f self pid d x,
    (M.code f self pid d x).Monitored lk chan cond dirty f self d

/-- The step follows the discipline if it executes a statement outside `proc.c`. -/
def Waiting.Follows (m : Waiting M) (s : State M) (a : CpuId × Act M) : Prop :=
  match s.stackOf a.1, a.2 with
  | .client f :: _, .go x => (M.code f (myproc s a.1) (mypid s a.1) s.data x).Monitored
      m.lk m.chan m.cond m.dirty f (myproc s a.1) s.data
  | _, _ => True

theorem Monitor.follows (m : Monitor M) (s : State M) (a : CpuId × Act M) :
    m.toWaiting.Follows s a := by
  unfold Waiting.Follows
  split
  · exact m.code_monitored _ _ _ _ _
  · trivial

variable (m : Waiting M)

theorem Waiting.Follows.code {m : Waiting M} {g : M.Frame} {x : Nat} (h : m.Follows s (c, .go x))
    (hf : s.stackOf c = .client g :: rest) :
    (M.code g (myproc s c) (mypid s c) s.data x).Monitored m.lk m.chan m.cond m.dirty g
      (myproc s c) s.data := by
  unfold Waiting.Follows at h
  simpa only [hf] using h

/-! ## Owed wakeups -/

/-- The frame in which a CPU has panicked, or the frame itself. -/
def Frame.core : Frame M → Frame M
  | .panic _ f => f.core
  | f => f

@[simp] theorem Frame.held_core (f : Frame M) : f.core.held = f.held := by
  induction f with
  | panic msg f ih => exact ih
  | _ => rfl

/-- The scan at slot `i` has not yet passed slot `p`. -/
def Ahead (i p : Slot) : ScanPc → Prop
  | .test | .visit => i ≤ p
  | .rel none => i < p
  | .rel (some _) => False

def Waiting.wakeup : ScanOp := .wakeup (some (.addr m.chan))

/-- The thread with this stack still owes process `p` a wakeup. -/
inductive Owes (p : Slot) : List (Frame M) → Prop
  /-- It has not called `wakeup` yet. -/
  | dirty {f : Frame M} {g : M.Frame} {rest : List (Frame M)} (hf : f.core = .client g)
      (hd : m.dirty g = true) : Owes p (f :: rest)
  /-- It calls another `wakeup` first. -/
  | under {f : Frame M} {op : ScanOp} {i : Slot} {pc : ScanPc} {g : M.Frame}
      {rest : List (Frame M)} (hf : f.core = .scan op i pc) (hd : m.dirty g = true) :
      Owes p (f :: .client g :: rest)
  /-- Its `wakeup` has not passed slot `p`. -/
  | scan {f : Frame M} {i : Slot} {pc : ScanPc} {g : M.Frame} {rest : List (Frame M)}
      (hf : f.core = .scan m.wakeup i pc) (hl : m.lk ∈ M.held g) (hi : Ahead i p pc) :
      Owes p (f :: .client g :: rest)

variable {m}

theorem Owes.held {st : List (Frame M)} (h : Owes m p st) : Lock.client m.lk ∈ heldBy st := by
  cases h with
  | dirty hf hd =>
    rw [heldBy_cons, ← Frame.held_core, hf]
    exact List.mem_append_left _ (List.mem_map_of_mem (m.dirty_held _ hd))
  | under hf hd =>
    exact List.mem_append_right _ (List.mem_append_left _
      (List.mem_map_of_mem (m.dirty_held _ hd)))
  | scan hf hl hi =>
    exact List.mem_append_right _ (List.mem_append_left _ (List.mem_map_of_mem hl))

theorem Owes.panic {msg : String} (h : Owes m p (f :: rest)) :
    Owes m p (.panic msg f :: rest) := by
  cases h with
  | dirty hf hd => exact .dirty hf hd
  | under hf hd => exact .under hf hd
  | scan hf hl hi => exact .scan hf hl hi

theorem clientCode_owes {g : M.Frame} {x : Nat} {instr : Instr M} (hd : m.dirty g = true)
    (hmon : (M.code g (myproc s c) (mypid s c) s.data x).Monitored m.lk m.chan m.cond m.dirty g
      (myproc s c) s.data) (hcode : clientCode s c g x = some instr) : Owes m p (instr.next ++ rest) := by
  have hfail : ∀ msg, Owes m p ([.panic msg (.client g)] ++ rest) := fun msg =>
    .dirty (g := g) rfl hd
  have hlocked := M.code_locked g (myproc s c) (mypid s c) s.data x
  unfold clientCode at hcode
  cases hc : M.code g (myproc s c) (mypid s c) s.data x with
  | acquire l k =>
    rw [hc] at hcode hmon
    cases hcode
    exact .dirty rfl (hmon hd)
  | release l k =>
    rw [hc] at hcode hmon
    cases hcode
    exact .dirty rfl (hmon.2 hd)
  | sleep n l k =>
    rw [hc] at hmon
    rw [hmon.1] at hd
    cases hd
  | wakeup n k =>
    rw [hc] at hcode hmon hlocked
    cases hcode
    rcases hmon with rfl | hmon
    · refine .scan rfl ?_ (Nat.zero_le p)
      rw [show M.held k = M.held g from hlocked]
      exact m.dirty_held g hd
    · exact .under rfl (hmon hd)
  | killed k =>
    rw [hc] at hcode hmon
    simp only at hcode
    split at hcode
    · cases hcode
      exact hfail _
    · split at hcode <;> cases hcode
      exact .dirty rfl (hmon hd _)
  | update d k =>
    rw [hc] at hcode hmon
    cases hcode
    exact .dirty rfl (hmon.1 hd)
  | ret =>
    rw [hc] at hlocked
    have hl := m.dirty_held g hd
    rw [show M.held g = [] from hlocked] at hl
    cases hl

/-- Does the scan of `wakeup` pass slot `p` with its next instruction? -/
def Passes (m : Waiting M) (s : State M) (c : CpuId) (p : Slot) (f : Frame M) : Prop :=
  f = .scan m.wakeup p .visit ∨ f = .scan m.wakeup p .test ∧ myproc s c = some p

theorem scanCode_owes {op : ScanOp} {pc : ScanPc} (hp : p < NPROC)
    (h : Owes m p (.scan op i pc :: rest)) :
    Owes m p ((scanCode s c op i pc).next ++ rest) ∨ Passes m s c p (.scan op i pc) := by
  cases h with
  | dirty hf hd => cases hf
  | under hf hd =>
    -- the scan returns to a frame that owes the wakeup, or goes on above it
    left
    cases pc with
    | test =>
      simp only [scanCode]
      (repeat' split)
      · exact .under rfl hd
      · exact .under rfl hd
      · exact .dirty rfl hd
    | visit => exact .under rfl hd
    | rel r =>
      cases r with
      | none => exact .under rfl hd
      | some r => exact .dirty rfl hd
  | scan hf hl hi =>
    obtain ⟨rfl, rfl, rfl⟩ : op = m.wakeup ∧ _ ∧ _ := by simpa [Frame.core] using hf
    cases pc with
    | test =>
      have hle : i ≤ p := hi
      have hlt : i < NPROC := Nat.lt_of_le_of_lt hle hp
      simp only [scanCode, if_pos hlt]
      by_cases hskip : myproc s c = some i
      · have hs : skips s c m.wakeup i = true := by simp [skips, Waiting.wakeup, hskip]
        rw [if_pos hs]
        rcases Nat.lt_or_eq_of_le hle with hlt' | rfl
        · exact .inl (.scan rfl hl hlt')
        · exact .inr (.inr ⟨rfl, hskip⟩)
      · have hs : ¬ skips s c m.wakeup i = true := by simp [skips, Waiting.wakeup, hskip]
        rw [if_neg hs]
        exact .inl (.scan rfl hl hle)
    | visit =>
      rcases Nat.lt_or_eq_of_le (show i ≤ p from hi) with hlt | rfl
      · have hcore : (Frame.scan m.wakeup i (.rel (visit m.wakeup (s.procs i)).2) : Frame M).core =
            .scan m.wakeup i (.rel none) := by
          simp only [Frame.core, Waiting.wakeup, visit, wakeupVisit]
          split <;> rfl
        exact .inl (.scan hcore hl hlt)
      · exact .inr (.inl rfl)
    | rel r =>
      cases r with
      | none => exact .inl (.scan rfl hl (Nat.succ_le_of_lt hi))
      | some r => exact hi.elim

theorem Owes.core_cases (h : Owes m p (f :: rest)) :
    (∃ g, f.core = .client g ∧ m.dirty g = true) ∨ ∃ op i pc, f.core = .scan op i pc := by
  cases h with
  | dirty hf hd => exact .inl ⟨_, hf, hd⟩
  | under hf hd => exact .inr ⟨_, _, _, hf⟩
  | scan hf hl hi => exact .inr ⟨_, _, _, hf⟩

/-- **A step of a thread that owes a wakeup**: it still owes it, or its scan passes the slot. -/
theorem kstep_owes (h : Inv s) (hmon : m.Follows s (c, a)) (hs : kstep s c a = some s')
    (hf : s.stackOf c = f :: rest) (hp : p < NPROC) (ho : Owes m p (s.stackOf c)) :
    Owes m p (s'.stackOf c) ∨ Passes m s c p f := by
  have hheld := ho.held
  rw [hf] at ho hheld
  have hbody : ∀ q, f ≠ .body q := by
    rintro q rfl
    obtain ⟨g, e, -⟩ | ⟨op, i, pc, e⟩ := ho.core_cases <;> cases e
  obtain ⟨x, instr, rfl, -, hcode, he⟩ := go_of_heldBy h hf (List.ne_nil_of_mem hheld) hbody hs
  have hcore := ho.core_cases
  have hquiet := code_quiet hcode (by rintro pc rfl; simp [Frame.core] at hcore)
    (by rintro q ret rfl; simp [Frame.core] at hcore)
  rcases exec_stackOf he hquiet.1 with e | ⟨msg, e⟩
  case inr => rw [e]; exact .inl ho.panic
  rw [e]
  cases f with
  | client g =>
    obtain ⟨g', e', hd⟩ | ⟨op, i, pc, e'⟩ := hcore
    · obtain rfl : g = g' := by simpa [Frame.core] using e'
      exact .inl (clientCode_owes hd (hmon.code hf) hcode)
    · cases e'
  | scan op i pc =>
    cases hcode
    exact scanCode_owes hp ho
  | panic msg f => cases hcode
  | _ => obtain ⟨g, e', -⟩ | ⟨op, i, pc, e'⟩ := hcore <;> cases e'

/-! ## The invariant -/

/-- Process `p` is, or is about to be, `SLEEPING` on the channel in a `sleep` that returns to `k`. -/
def Blocked (m : Waiting M) (s : State M) (p : Slot) (k : M.Frame) : Prop :=
  (∃ c lk, .sleep p (.addr m.chan) lk .set (.client k) ∈ s.stackOf c) ∨
    Asleep s p (.addr m.chan) (.client k)

/-- The invariant of a monitor: a process that has called `sleep` and holds the lock has its condition false;
one that has released it, too, or it is owed a wakeup. -/
structure MonInv (m : Waiting M) (s : State M) : Prop where
  entering : ∀ c p lk pc ret, .sleep p (.addr m.chan) lk pc ret ∈ s.stackOf c →
    pc = .acq ∨ pc = .rel →
    lk = .client m.lk ∧ ∃ k, ret = .client k ∧ m.cond k p s.data = false
  blocked : ∀ p k, p < NPROC → Blocked m s p k →
    m.cond k p s.data = false ∨ ∃ c, Owes m p (s.stackOf c)

theorem mem_heldBy_of_mem {st : List (Frame M)} {l : Lock M} (hf : f ∈ st) (hl : l ∈ f.held) :
    l ∈ heldBy st := List.mem_flatMap.mpr ⟨f, hf, hl⟩

theorem Inv.set_on_top {chan : Chan} {lk : Lock M} (h : Inv s)
    (hm : .sleep p chan lk .set ret ∈ s.stackOf c) :
    ∃ rest, s.stackOf c = .sleep p chan lk .set ret :: rest := by
  have hst := h.stack c
  cases hk : s.stackOf c with
  | nil => rw [hk] at hm; cases hm
  | cons f rest =>
    rw [hk] at hm hst
    rcases List.mem_cons.mp hm with rfl | hm
    · exact ⟨rest, rfl⟩
    · exact absurd (mem_heldBy_of_mem hm (by simp [Frame.held, SleepPc.held]))
        (hst.noProcLock_below p)

theorem Inv.not_running_of_blocked {k : M.Frame} (h : Inv s) (hb : Blocked m s p k)
    (hf : s.stackOf c = f :: rest) (hon : (s.cpus c).on = some p) (hin : f.stateIn = .running) :
    ∃ lk, f = .sleep p (.addr m.chan) lk .set (.client k) := by
  rcases hb with ⟨c', lk, hm⟩ | ha
  · obtain ⟨rest', hf'⟩ := h.set_on_top hm
    have hst := h.stack_cons hf'
    obtain ⟨p', hon'⟩ := hst.on_some (fun _ => id) id
    obtain rfl : p = p' := (hst.ok hon').1.1
    have hc : c = c' := by
      by_contra hne
      exact h.on_ne hne hon' hon
    subst hc
    rw [hf] at hf'
    exact ⟨lk, (List.cons.inj hf').1⟩
  · have hst := ((h.stack_cons hf).ok hon).2
    rw [hin, ha.state] at hst
    cases hst

theorem not_passes {k : M.Frame} (h : Inv s) (hs : kstep s c a = some s')
    (hf : s.stackOf c = f :: rest) (hb : Blocked m s p k) (hb' : Blocked m s' p k) :
    ¬ Passes m s c p f := by
  rintro (rfl | ⟨rfl, hp⟩)
  · -- the scan holds the lock of `p`
    have hl : Lock.proc p ∈ heldBy (s.stackOf c) := by simp [hf, Frame.held]
    obtain ⟨x, rfl, -⟩ := go_of_held h hf (by simp [Frame.held]) hs
    rcases hb with ⟨c', lk, hm⟩ | ha
    · obtain ⟨rest', hf'⟩ := h.set_on_top hm
      have hl' : Lock.proc p ∈ heldBy (s.stackOf c') :=
        mem_heldBy_of_mem hm (by simp [Frame.held, SleepPc.held])
      by_cases hc : c' = c
      · subst hc; rw [hf] at hf'; cases hf'
      · exact h.not_mem_of_ne hl hc hl'
    · -- and makes it `RUNNABLE`
      have hrun : (s'.procs p).state = .runnable := by
        simp only [kstep, hf, code, scanCode, Option.bind_some] at hs
        cases hs
        simp [State.apply, State.setProc, Waiting.wakeup, visit, wakeupVisit, ha.state, ha.waits]
      rcases hb' with ⟨c', lk, hm⟩ | ha'
      · obtain ⟨rest', hf'⟩ := (kstep_inv h hs).set_on_top hm
        have hst := (kstep_inv h hs).stack_cons hf'
        obtain ⟨p', hon'⟩ := hst.on_some (fun _ => id) id
        obtain ⟨hok, hstate⟩ := hst.ok hon'
        obtain rfl : p = p' := hok.1
        rw [hrun] at hstate
        cases hstate
      · rw [ha'.state] at hrun
        cases hrun
  · obtain ⟨lk, e⟩ := h.not_running_of_blocked hb hf (h.on_of_current hf (fun _ => id) hp) rfl
    cases e

theorem blocked_of_step {k : M.Frame} (h : Inv s) (hsl : SleepInv s) (hs : kstep s c a = some s')
    (hf : s.stackOf c = f :: rest) (hb : Blocked m s' p k) :
    Blocked m s p k ∨ ∃ lk, f = .sleep p (.addr m.chan) lk .rel (.client k) := by
  rcases hb with ⟨c', lk, hm⟩ | ha
  · rcases kstep_sleep_mem h hs hf hm rfl with hm | ⟨-, x, -, hfrom⟩
    · exact .inl (.inl ⟨c', lk, hm⟩)
    · cases hfrom
      exact .inr ⟨lk, rfl⟩
  · rcases kstep_asleep h hs ha.state with ⟨hst, hkeep⟩ | ⟨chan, lk, ret, rest', hf', ha', -⟩
    · obtain ⟨chan, ret, ha0⟩ := hsl p hst
      obtain ⟨rfl, rfl⟩ := (hkeep chan ret ha0).unique ha
      exact .inl (.inr ha0)
    · obtain ⟨rfl, rfl⟩ := ha'.unique ha
      exact .inl (.inl ⟨c, lk, by rw [hf']; exact .head _⟩)

theorem kstep_cond {k : M.Frame} (hmon : m.Follows s (c, a)) (hs : kstep s c a = some s')
    (hf : s.stackOf c = f :: rest) (hc : m.cond k p s.data = false) :
    m.cond k p s'.data = false ∨ ∃ g g', f = .client g ∧ s'.stackOf c = .client g' :: rest ∧
      m.dirty g' = true ∧ M.held g' = M.held g := by
  rcases kstep_data hs hf with e | ⟨x, g, d, g', rfl, rfl, hcode, rfl, hstk⟩
  · rw [e]; exact .inl hc
  · have hmon := hmon.code hf
    have hlocked := M.code_locked g (myproc s c) (mypid s c) s.data x
    rw [hcode] at hmon hlocked
    cases hc' : m.cond k p s'.data with
    | false => exact .inl rfl
    | true => exact .inr ⟨g, g', rfl, hstk, hmon.2 ⟨k, p, hc, hc'⟩, hlocked⟩

theorem kstep_monInv (hm : MonInv m s) (h : Inv s) (hsl : SleepInv s) (hmon : m.Follows s (c, a))
    (hs : kstep s c a = some s') : MonInv m s' := by
  obtain ⟨f, rest, hf, hstep⟩ := kstep_stepped h hs
  refine ⟨fun c' p lk pc ret hmem hpc => ?_, fun p k hp hb => ?_⟩
  · have hearly : pc.early = true := by rcases hpc with rfl | rfl <;> rfl
    -- a process that has called `sleep` holds the lock, so that nobody changes its condition
    have hold : ∀ lk ret, .sleep p (.addr m.chan) lk pc ret ∈ s.stackOf c' →
        lk = .client m.lk ∧ ∃ k, ret = .client k ∧ m.cond k p s'.data = false := by
      intro lk ret hmem
      obtain ⟨rfl, k, rfl, hc⟩ := hm.entering c' p lk pc ret hmem hpc
      refine ⟨rfl, k, rfl, ?_⟩
      rcases kstep_cond hmon hs hf hc with hc' | ⟨g, g', rfl, -, hd, hheld⟩
      · exact hc'
      · exfalso
        have hl : Lock.client m.lk ∈ (Frame.client g).held :=
          List.mem_map_of_mem (by rw [← hheld]; exact m.dirty_held g' hd)
        have hl' : Lock.client m.lk ∈
            (Frame.sleep p (.addr m.chan) (.client m.lk) pc (.client k)).held := by
          rcases hpc with rfl | rfl <;> simp [Frame.held, SleepPc.held]
        by_cases hcc : c' = c
        · subst hcc
          rw [hf] at hmem
          have hnd := h.nodup c'
          rw [hf, heldBy_cons] at hnd
          rcases List.mem_cons.mp hmem with e | hmem
          · cases e
          · exact (List.nodup_append.mp hnd).2.2 _ hl _ (mem_heldBy_of_mem hmem hl') rfl
        · refine h.not_mem_of_ne (mem_heldBy_of_mem hmem hl') (Ne.symm hcc) ?_
          rw [hf]
          exact List.mem_append_left _ hl
    rcases kstep_sleep_mem h hs hf hmem hearly with hmem | ⟨rfl, x, rfl, hfrom⟩
    · exact hold lk ret hmem
    · have hsame : (∀ g, f ≠ .client g) → s'.data = s.data := fun hne => by
        rcases kstep_data hs hf with e | ⟨x, g, d, k, -, e, -⟩
        · exact e
        · exact absurd e (hne g)
      cases hfrom with
      | client hself hcode hchan hlk hret =>
        rename_i g k n l
        obtain rfl : m.chan = n := by simpa using hchan
        have hmon := hmon.code hf
        rw [hcode] at hmon
        obtain ⟨rfl, hc⟩ := hmon.2 rfl
        refine ⟨hlk, k, hret, ?_⟩
        -- the call of `sleep` itself changes no data
        have hdata : s'.data = s.data := by
          rcases kstep_data hs hf with e | ⟨x', g', d, k', hx, hg, hcode', -⟩
          · exact e
          · cases hx; cases hg
            rw [hcode] at hcode'
            cases hcode'
        rw [hdata]
        exact hc p hself
      | wait hchan => cases hchan
      | rel =>
        obtain ⟨hlk, k, hret, hc⟩ := hm.entering c' p lk .acq ret (by rw [hf]; exact .head _)
          (.inl rfl)
        exact ⟨hlk, k, hret, by rw [hsame (by simp)]; exact hc⟩
      | set => rcases hpc with h | h <;> cases h
  · rcases blocked_of_step h hsl hs hf hb with hb0 | ⟨lk, rfl⟩
    · rcases hm.blocked p k hp hb0 with hc | ⟨c', ho⟩
      · rcases kstep_cond hmon hs hf hc with hc' | ⟨g, g', -, hstk, hd, -⟩
        · exact .inl hc'
        · exact .inr ⟨c, by rw [hstk]; exact .dirty rfl hd⟩
      · by_cases hcc : c' = c
        · subst hcc
          rcases kstep_owes h hmon hs hf hp ho with ho' | hpass
          · exact .inr ⟨c', ho'⟩
          · exact absurd hpass (not_passes h hs hf hb0 hb)
        · exact .inr ⟨c', by rw [hstep.stackOf_of_ne h hf hcc]; exact ho⟩
    · -- the process releases the lock now: its condition is still false
      obtain ⟨-, k', hk, hc⟩ := hm.entering c p lk .rel (.client k)
        (by rw [hf]; exact .head _) (.inr rfl)
      obtain rfl : k = k' := by simpa using hk
      rcases kstep_data hs hf with e | ⟨x, g, d, k', -, e, -⟩
      · rw [e]; exact .inl hc
      · cases e

theorem boot_monInv (tf pt cwd : Nat) (d : M.Data) : MonInv m (boot tf pt cwd d) := by
  refine ⟨fun c p lk pc ret hmem => ?_, fun p k _ hb => ?_⟩
  · simp [boot, State.stackOf] at hmem
  · rcases hb with ⟨c, lk, hmem⟩ | ha
    · simp [boot, State.stackOf] at hmem
    · obtain ⟨chan, ret, ha'⟩ := boot_sleepInv tf pt cwd d p ha.state
      obtain ⟨f, rest, hk, -⟩ := ha'.top
      simp [boot] at hk

/-- **A run of steps that follow the discipline**: whenever the lock is free, a process `SLEEPING` on the
channel, frozen or not, has its condition false. -/
theorem cond_of_sleeping {ok : State M → CpuId × Act M → Prop}
    (h : (kernel M init).ReachableIf ok s)
    (hok : ∀ t a, (kernel M init).ReachableIf ok t → ok t a → m.Follows t a)
    (hfree : s.locks (.client m.lk) = none) (hp : p < NPROC)
    (hsl : (s.procs p).state = .sleeping) (hchan : (s.procs p).chan = some (.addr m.chan)) :
    ∃ k, Asleep s p (.addr m.chan) (.client k) ∧ m.cond k p s.data = false := by
  obtain ⟨-, hi, hsi, hmi⟩ : (kernel M init).ReachableIf ok s ∧ Inv s ∧ SleepInv s ∧ MonInv m s := by
    refine h.invariant (I := fun t => (kernel M init).ReachableIf ok t ∧ Inv t ∧ SleepInv t ∧
      MonInv m t) (fun t ht => ⟨⟨t, ht, .refl t⟩, ?_⟩) ?_
    · obtain ⟨tf, pt, cwd, d, -, rfl⟩ := ht
      exact ⟨boot_inv tf pt cwd d, boot_sleepInv tf pt cwd d, boot_monInv tf pt cwd d⟩
    · rintro t ⟨c, a⟩ t' ⟨hr, hi, hsi, hmi⟩ ha hs
      exact ⟨hr.trans (Lib.Lts.RunIf.tail (.refl t) ha hs), kstep_inv hi hs,
        kstep_sleepInv hsi hi hs, kstep_monInv hmi hi hsi (hok t _ hr ha) hs⟩
  obtain ⟨chan, ret, ha⟩ := hsi p hsl
  obtain rfl : chan = .addr m.chan := by simpa using ha.waits.symm.trans hchan
  obtain ⟨k, n, rfl, -⟩ | ⟨q, addr, i, b, -, e⟩ := Frame.sleeps_cases ha.sleeps
  · refine ⟨k, ha, ?_⟩
    rcases hmi.blocked p k hp (.inr ha) with hc | ⟨c, ho⟩
    · exact hc
    · have hl := (hi.locks c _).mpr ho.held
      rw [hfree] at hl
      cases hl
  · cases e

/-- **No lost wakeup.** For every code outside `proc.c`, in a run in which the statements that are executed
follow the discipline: whenever the lock is free, a process `SLEEPING` on the channel, frozen or not, has its
condition false. -/
theorem no_lost_wakeup (m : Waiting M) {ok : State M → CpuId × Act M → Prop}
    (h : (kernel M init).ReachableIf ok s)
    (hok : ∀ t a, (kernel M init).ReachableIf ok t → ok t a → m.Follows t a)
    (hfree : s.locks (.client m.lk) = none) (hp : p < NPROC)
    (hsl : (s.procs p).state = .sleeping) (hchan : (s.procs p).chan = some (.addr m.chan)) :
    ∃ k, Asleep s p (.addr m.chan) (.client k) ∧ m.cond k p s.data = false :=
  cond_of_sleeping h hok hfree hp hsl hchan

/-- Two system calls on a flag: one waits until it is set, unless the process is killed, and clears it; the
other sets it. -/
inductive FlagPc where
  | wait | test | check | sleep | got | set | store | wake | stored | done
  deriving DecidableEq

def flagCode (f : FlagPc) (flag : Bool) : Stmt FlagPc Bool Unit :=
  match f with
  | .wait => .acquire () .test
  | .test => if flag then .update false .got else .update flag .check
  | .check => .killed fun b => if b then .got else .sleep
  | .sleep => .sleep 0 () .test
  | .got => .release () .done
  | .set => .acquire () .store
  | .store => .update true .wake
  | .wake => .wakeup 0 .stored
  | .stored => .release () .done
  | .done => .ret

def flagHeld : FlagPc → List Unit
  | .test | .check | .sleep | .got | .store | .wake | .stored => [()]
  | _ => []

def flagClient : Client where
  Frame := FlagPc
  Data := Bool
  Lk := Unit
  code f _ _ d _ := flagCode f d
  held := flagHeld
  entry f := f = .wait ∨ f = .set
  handler _ := false
  fileclose _ := .done
  iput _ := .done
  fsinit := .done
  code_locked f _ _ d _ := by
    cases f <;> cases d <;> simp [flagCode, flagHeld, Stmt.Locked]
  held_entry f h := by cases f <;> simp_all [flagHeld]
  held_handler _ h := by cases h
  held_fileclose _ := rfl
  held_iput _ := rfl
  held_fsinit := rfl

def flagKernel : Lib.Lts (State flagClient) (CpuId × Act flagClient) :=
  kernel flagClient fun _ => True

/-- The flag is not set between the test and the call of `sleep`. -/
def flagHolds : FlagPc → Bool → Prop
  | .check, d | .sleep, d => d = false
  | _, _ => True

def flagAssertion : Assertion flagClient where
  lk := ()
  holds := flagHolds
  free f d h := by
    cases f with
    | check | sleep => exact absurd (List.mem_singleton_self ()) h
    | _ => trivial
  code f _ _ d _ h := by
    cases f with
    | test => cases d <;> exact ⟨List.mem_singleton_self (), by trivial⟩
    | check =>
      intro b
      cases b with
      | true => trivial
      | false => exact h
    | store => exact ⟨List.mem_singleton_self (), trivial⟩
    | _ => trivial
  sleep f _ _ d _ n l k h d' := by
    cases f with
    | sleep => cases h; trivial
    | test => cases d <;> cases h
    | _ => cases h

/-- The flag has been set, and the sleepers have not been woken yet. -/
def flagDirty : FlagPc → Bool
  | .wake => true
  | _ => false

def flagWaiting : Waiting flagClient where
  lk := ()
  chan := 0
  cond _ _ d := d
  dirty := flagDirty
  dirty_held f h := by
    cases f with
    | wake => exact List.mem_singleton_self _
    | _ => cases h

theorem flag_follows {s : State flagClient} {a : CpuId × Act flagClient} (h : flagKernel.Reachable s) :
    flagWaiting.Follows s a := by
  unfold Waiting.Follows
  split
  · rename_i f rest x hf ha
    have hholds : flagHolds f s.data := flagAssertion.holds_of_top h hf
    generalize s.data = d at hholds
    cases f with
    | sleep => exact ⟨rfl, fun _ => ⟨rfl, fun _ _ => hholds⟩⟩
    | _ => cases d <;> simp [flagClient, flagCode, flagWaiting, flagDirty, Stmt.Monitored]
  · trivial

/-- The first process freezes itself and then waits for the flag. -/
def flagTrace : List (CpuId × Act flagClient) :=
  goes 0 9 ++ [(0, .call (.sysFreeze 1))] ++ goes 0 3 ++ [(0, .call (.op FlagPc.wait))] ++ goes 0 7

/-- A process that froze itself is `SLEEPING` on the flag, which is not set. -/
theorem no_lost_wakeup_frozen : ∃ s, flagKernel.Reachable s ∧
    (s.procs 0).state = .sleeping ∧ (s.procs 0).frozen ≠ 0 ∧
    ∃ k, Asleep s 0 (.addr 0) (.client k) ∧ flagWaiting.cond k 0 s.data = false := by
  have hinit : flagKernel.init (boot 1 1 1 false) := ⟨1, 1, 1, false, trivial, rfl⟩
  obtain ⟨s, hs, hp⟩ := Lib.Lts.reachable_of_execs flagTrace
    (fun s : State flagClient => decide ((s.procs 0).state = .sleeping ∧ (s.procs 0).frozen ≠ 0 ∧
      s.locks (.client ()) = none ∧ (s.procs 0).chan = some (.addr 0))) hinit (by decide)
  obtain ⟨hsl, hz, hfree, hchan⟩ := of_decide_eq_true hp
  exact ⟨s, hs, hsl, hz, no_lost_wakeup flagWaiting hs (fun t a ht _ => flag_follows ht) hfree (by decide)
    hsl hchan⟩

end Xv6Freezer

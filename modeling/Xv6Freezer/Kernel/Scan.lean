import Xv6Freezer.Kernel.Pid

/-! # `kill`, `sys_freeze` and `sys_unfreeze` as functions of the process table

The three calls scan the table for the first slot with a given pid (`scanTable`). In a reachable
table a slot in use has its own positive pid, and every free slot has pid 0. `sys_unfreeze` and `kill` do not
look at the state, so that pid 0 leads them to a free slot.
-/

namespace Xv6Freezer

open Function (update update_of_ne update_eq_self)

variable {M : Client} {init : M.Data → Prop} {s s₀ s' : State M} {c : CpuId} {i : Nat}
  {rest : List (Frame M)} {a : Act M} {op : ScanOp} {pid : Int} {given : List (Slot × Int)}
  {t : Slot → Proc M} {n : Nat}

/-! ## The loop -/

/-- A scan over `n` slots from `i` on: the table after it, and the value returned in its body. -/
def scanTable (op : ScanOp) : Nat → Nat → (Slot → Proc M) → (Slot → Proc M) × Option Int
  | 0, _, t => (t, none)
  | n + 1, i, t =>
    match visit op (t i) with
    | (q, some r) => (update t i q, some r)
    | (q, none) => scanTable op n (i + 1) (update t i q)

/-- A call that scans the whole table, and returns -1 when the loop ends. -/
def scanCall (op : ScanOp) (t : Slot → Proc M) : (Slot → Proc M) × Int :=
  ((scanTable op NPROC 0 t).1, (scanTable op NPROC 0 t).2.getD (-1))

/-- `sys_freeze()` with argument `pid`, on a table that nothing else changes. -/
def sysFreeze (pid : Int) (t : Slot → Proc M) : (Slot → Proc M) × Int := scanCall (.sysFreeze pid) t

/-- `sys_unfreeze()` with argument `pid`, on a table that nothing else changes. -/
def sysUnfreeze (pid : Int) (t : Slot → Proc M) : (Slot → Proc M) × Int :=
  scanCall (.sysUnfreeze pid) t

/-- `kill(pid)`, on a table that nothing else changes. -/
def kill (pid : Int) (t : Slot → Proc M) : (Slot → Proc M) × Int := scanCall (.kill pid) t

/-- Slot `i` is the first one with this pid. -/
def FirstWith (t : Slot → Proc M) (pid : Int) (i : Nat) : Prop :=
  i < NPROC ∧ (t i).pid = pid ∧ ∀ j : Nat, j < i → (t j).pid ≠ pid

theorem visit_of_pid_eq {q : Proc M} (hop : op.pid? = some pid) (hq : q.pid = pid) :
    ∃ r, (visit op q).2 = some r := by
  cases op <;> simp only [ScanOp.pid?, Option.some.injEq, reduceCtorEq] at hop <;> subst hop <;>
    simp only [visit, killVisit, sysFreezeVisit, sysUnfreezeVisit, if_pos hq]
  · exact ⟨0, rfl⟩
  · split <;> exact ⟨_, rfl⟩
  · split <;> exact ⟨_, rfl⟩

theorem scanTable_cases (hop : op.pid? = some pid) :
    (∃ k : Nat, i ≤ k ∧ k < i + n ∧ (t k).pid = pid ∧ (∀ j : Nat, i ≤ j → j < k → (t j).pid ≠ pid) ∧
      scanTable op n i t = (update t k (visit op (t k)).1, (visit op (t k)).2)) ∨
    (∀ k : Nat, i ≤ k → k < i + n → (t k).pid ≠ pid) ∧ scanTable op n i t = (t, none) := by
  induction n generalizing i with
  | zero => exact .inr ⟨fun k hk hlt => by omega, rfl⟩
  | succ n ih =>
    by_cases hi : (t i).pid = pid
    · obtain ⟨r, hr⟩ := visit_of_pid_eq hop hi
      refine .inl ⟨i, Nat.le_refl i, by omega, hi, fun j hj hlt => by omega, ?_⟩
      rw [scanTable]
      cases hv : visit op (t i) with
      | mk q x =>
        rw [hv] at hr
        obtain rfl : x = some r := hr
        rfl
    · -- the slot has another pid: it is written back as it was
      have hskip : scanTable op (n + 1) i t = scanTable op n (i + 1) t := by
        rw [scanTable, visit_of_pid_ne hop hi]
        simp only [update_eq_self]
      rw [hskip]
      rcases ih (i := i + 1) with ⟨k, hk, hlt, hpid, hfirst, e⟩ | ⟨hnone, e⟩
      · refine .inl ⟨k, by omega, by omega, hpid, fun j hj hjk => ?_, e⟩
        by_cases hji : j = i
        · rwa [hji]
        · exact hfirst j (by omega) hjk
      · refine .inr ⟨fun k hk hlt => ?_, e⟩
        by_cases hki : k = i
        · rwa [hki]
        · exact hnone k (by omega) (by omega)

/-- **What a scan for a pid computes**: it visits the first slot with the pid, or returns -1. -/
theorem scanCall_cases (op : ScanOp) (hop : op.pid? = some pid) (t : Slot → Proc M) :
    (∃ k : Nat, FirstWith t pid k ∧
      scanCall op t = (update t k (visit op (t k)).1, (visit op (t k)).2.getD (-1))) ∨
    (∀ k : Nat, k < NPROC → (t k).pid ≠ pid) ∧ scanCall op t = (t, -1) := by
  rcases scanTable_cases (i := 0) (n := NPROC) (t := t) hop with ⟨k, -, hlt, hk, hfirst, e⟩ | ⟨hnone, e⟩
  · refine .inl ⟨k, ⟨by omega, hk, fun j hj => hfirst j (Nat.zero_le j) hj⟩, ?_⟩
    rw [scanCall, e]
  · refine .inr ⟨fun k hk => hnone k (Nat.zero_le k) (by omega), ?_⟩
    rw [scanCall, e]
    rfl

theorem scanCall_of_first (hop : op.pid? = some pid) (h : FirstWith t pid i) :
    scanCall op t = (update t i (visit op (t i)).1, (visit op (t i)).2.getD (-1)) := by
  rcases scanCall_cases op hop t with ⟨k, hk, e⟩ | ⟨hnone, -⟩
  · have hki : k = i := by
      rcases Nat.lt_trichotomy k i with hlt | heq | hlt
      · exact absurd hk.2.1 (h.2.2 k hlt)
      · exact heq
      · exact absurd h.2.1 (hk.2.2 i hlt)
    rw [e, hki]
  · exact absurd h.2.1 (hnone i h.1)

/-! ## `sys_freeze` -/

theorem pidInv_of_emits (h0 : (kernel M init).init s₀)
    (hr : (kernel M init).Emits givesPid s₀ given s) (hn : allocpidCalls given < 2 ^ 31 - 1) :
    PidInv given s := by
  have hinv0 : Inv s₀ := reachable_inv ⟨s₀, h0, Lib.Lts.RunIf.refl s₀⟩
  have hp0 : PidInv [] s₀ := by
    obtain ⟨tf, pt, cwd, d, -, rfl⟩ := h0
    exact pidInv_boot tf pt cwd d
  have hp := (PidInv.run hr hinv0 hp0 (by simpa using hn)).2
  rwa [List.append_nil] at hp

theorem PidInv.first (hp : PidInv given s) (hi : i < NPROC) (hu : (s.procs i).state ≠ .unused) :
    FirstWith s.procs (s.procs i).pid i :=
  ⟨hi, rfl, fun j hj e => absurd (hp.distinct i j hu e.symm) (Nat.ne_of_gt hj)⟩

def Freezable (pid : Int) (q : Proc M) : Prop :=
  q.pid = pid ∧ q.state ≠ .unused ∧ q.state ≠ .zombie ∧ q.frozen = 0

theorem sysFreezeVisit_eq {q : Proc M} (hq : q.pid = pid) :
    (Freezable pid q ∧ sysFreezeVisit pid q = ({ q with frozen := 1 }, some 0)) ∨
      (¬ Freezable pid q ∧ sysFreezeVisit pid q = (q, some (-1))) := by
  rw [sysFreezeVisit, if_pos hq]
  by_cases h : q.state ≠ .zombie ∧ q.state ≠ .unused ∧ q.frozen = 0
  · exact .inl ⟨⟨hq, h.2.1, h.1, h.2.2⟩, if_pos h⟩
  · exact .inr ⟨fun hfz => h ⟨hfz.2.2.1, hfz.2.1, hfz.2.2.2⟩, if_neg h⟩

/-- **`sys_freeze(pid)`** returns 0 iff some slot has that pid, is neither `UNUSED` nor `ZOMBIE` and is not
frozen, and then only sets the flag of that slot; otherwise it returns -1. -/
theorem sys_freeze_spec (h0 : (kernel M init).init s₀)
    (hr : (kernel M init).Emits givesPid s₀ given s) (hn : allocpidCalls given < 2 ^ 31 - 1)
    (pid : Int) :
    ((sysFreeze pid s.procs).2 = 0 ↔ ∃ i < NPROC, Freezable pid (s.procs i)) ∧
    (∀ i < NPROC, Freezable pid (s.procs i) →
      sysFreeze pid s.procs = (update s.procs i { s.procs i with frozen := 1 }, 0)) ∧
    ((¬ ∃ i < NPROC, Freezable pid (s.procs i)) → sysFreeze pid s.procs = (s.procs, -1)) := by
  have hp := pidInv_of_emits h0 hr hn
  have hset : ∀ i < NPROC, Freezable pid (s.procs i) →
      sysFreeze pid s.procs = (update s.procs i { s.procs i with frozen := 1 }, 0) := by
    intro i hi hfz
    have hfirst := hp.first hi hfz.2.1
    rw [hfz.1] at hfirst
    rcases sysFreezeVisit_eq hfz.1 with ⟨-, hv⟩ | ⟨hno, -⟩
    · rw [sysFreeze, scanCall_of_first rfl hfirst]
      simp only [visit, hv, Option.getD_some]
    · exact absurd hfz hno
  have hkeep : (¬ ∃ i < NPROC, Freezable pid (s.procs i)) → sysFreeze pid s.procs = (s.procs, -1) := by
    intro hno
    rcases scanCall_cases (.sysFreeze pid) rfl s.procs with ⟨k, hk, e⟩ | ⟨-, e⟩
    · rcases sysFreezeVisit_eq hk.2.1 with ⟨hfz, -⟩ | ⟨-, hv⟩
      · exact absurd ⟨k, hk.1, hfz⟩ hno
      · rw [sysFreeze, e]
        simp only [visit, hv, Option.getD_some, update_eq_self]
    · exact e
  refine ⟨⟨fun hz => ?_, fun hex => ?_⟩, hset, hkeep⟩
  · by_contra hno
    rw [hkeep hno] at hz
    cases hz
  · obtain ⟨i, hi, hfz⟩ := hex
    rw [hset i hi hfz]

/-- With a child of pid 2: `sys_freeze(2)` returns 0, `sys_freeze(0)` and `sys_freeze(7)` return -1. -/
theorem sys_freeze_spec_child : ∃ given s, idleKernel.Emits givesPid idleBoot given s ∧
    Freezable 2 (s.procs 1) ∧
    sysFreeze 2 s.procs = (update s.procs 1 { s.procs 1 with frozen := 1 }, 0) ∧
    sysFreeze 0 s.procs = (s.procs, -1) ∧ sysFreeze 7 s.procs = (s.procs, -1) := by
  have hex : (idleKernel.execsEmits givesPid idleBoot [] forkTrace).map (fun r =>
      decide (r.1 = [(1, 2)] ∧ ((r.2.procs 1).pid = 2 ∧ (r.2.procs 1).state = .runnable ∧
        (r.2.procs 1).frozen = 0) ∧ ∀ i < NPROC, (r.2.procs i).pid = 0 → (r.2.procs i).state = .unused) &&
      decide (∀ i < NPROC, (r.2.procs i).pid ≠ 7)) = some true := by
    decide
  obtain ⟨⟨given, s⟩, hs, hp⟩ := Option.map_eq_some_iff.mp hex
  obtain ⟨hp1, hp2⟩ := (Bool.and_eq_true _ _).mp hp
  obtain ⟨hgiven, ⟨hpid, hst, hz⟩, hzero⟩ := of_decide_eq_true hp1
  have hseven := of_decide_eq_true hp2
  simp only at hgiven hpid hst hz hzero hseven
  have hr : idleKernel.Emits givesPid idleBoot given s := Lib.Lts.Emits.refl.execs hs
  have hspec := fun pid => sys_freeze_spec idleKernel_init hr (by rw [hgiven]; decide) pid
  have hfz : Freezable 2 (s.procs 1) := ⟨hpid, by simp [hst], by simp [hst], hz⟩
  refine ⟨given, s, hr, hfz, (hspec 2).2.1 1 (by decide) hfz, (hspec 0).2.2 ?_, (hspec 7).2.2 ?_⟩
  · rintro ⟨i, hi, hpid, hu, -⟩
    exact hu (hzero i hi hpid)
  · rintro ⟨i, hi, hpid, -⟩
    exact hseven i hi hpid

/-! ## `sys_unfreeze` -/

def Unfreezable (pid : Int) (q : Proc M) : Prop :=
  q.pid = pid ∧ q.state ≠ .unused ∧ q.frozen ≠ 0

/-- The slot after `sys_unfreeze`: not frozen, and `RUNNABLE` if it was `SLEEPING`. -/
def thaw (q : Proc M) : Proc M :=
  { q with frozen := 0, state := if q.state = .sleeping then .runnable else q.state }

/-- What `sys_unfreeze(pid)` is to do: act on a frozen process with that pid, and on nothing else. -/
def UnfreezeSpec (pid : Int) (t : Slot → Proc M) : Prop :=
  ((sysUnfreeze pid t).2 = 0 ↔ ∃ i < NPROC, Unfreezable pid (t i)) ∧
  (∀ i < NPROC, Unfreezable pid (t i) → sysUnfreeze pid t = (update t i (thaw (t i)), 0)) ∧
  ((¬ ∃ i < NPROC, Unfreezable pid (t i)) → sysUnfreeze pid t = (t, -1))

theorem sysUnfreezeVisit_eq {q : Proc M} (hq : q.pid = pid) :
    sysUnfreezeVisit pid q = if q.frozen ≠ 0 then (thaw q, some 0) else (q, some (-1)) := by
  rw [sysUnfreezeVisit, if_pos hq]
  by_cases hz : q.frozen ≠ 0
  · rw [if_pos hz, if_pos hz, thaw]
    by_cases hs : q.state = .sleeping
    · simp only [hs, if_true]
    · simp only [hs, if_false]
  · rw [if_neg hz, if_neg hz]

/-- **`sys_unfreeze(pid)`** does its work for every pid but 0, and for 0 iff the first free slot, if any, has
its flag cleared. -/
theorem sys_unfreeze_spec (h0 : (kernel M init).init s₀)
    (hr : (kernel M init).Emits givesPid s₀ given s) (hn : allocpidCalls given < 2 ^ 31 - 1)
    (pid : Int) :
    UnfreezeSpec pid s.procs ↔
      (pid = 0 → ∀ i < NPROC, (s.procs i).state = .unused →
        (∀ j < i, (s.procs j).state ≠ .unused) → (s.procs i).frozen = 0) := by
  have hp := pidInv_of_emits h0 hr hn
  have hset : ∀ i < NPROC, Unfreezable pid (s.procs i) →
      sysUnfreeze pid s.procs = (update s.procs i (thaw (s.procs i)), 0) := by
    intro i hi hun
    have hfirst := hp.first hi hun.2.1
    rw [hun.1] at hfirst
    rw [sysUnfreeze, scanCall_of_first rfl hfirst]
    simp only [visit, sysUnfreezeVisit_eq hun.1, if_pos hun.2.2, Option.getD_some]
  constructor
  · -- the first free slot is the first slot with pid 0
    rintro hspec rfl i hi hu hfirst
    by_contra hz
    have hwith : FirstWith s.procs 0 i :=
      ⟨hi, hp.unused i hu, fun j hj e => absurd (hp.used j (hfirst j hj)).1 (by omega)⟩
    have hret : (sysUnfreeze 0 s.procs).2 = 0 := by
      rw [sysUnfreeze, scanCall_of_first rfl hwith]
      simp only [visit, sysUnfreezeVisit_eq hwith.2.1, if_pos hz, Option.getD_some]
    obtain ⟨k, -, hpid, hk, -⟩ := hspec.1.mp hret
    have := (hp.used k hk).1
    omega
  · intro hcond
    have hkeep : (¬ ∃ i < NPROC, Unfreezable pid (s.procs i)) →
        sysUnfreeze pid s.procs = (s.procs, -1) := by
      intro hno
      rcases scanCall_cases (.sysUnfreeze pid) rfl s.procs with ⟨k, hk, e⟩ | ⟨-, e⟩
      · have hz : (s.procs k).frozen = 0 := by
          by_cases hu : (s.procs k).state = .unused
          · -- a free slot: its pid is 0, and those before it are in use
            have hpid : pid = 0 := hk.2.1 ▸ hp.unused k hu
            refine hcond hpid k hk.1 hu fun j hj hju => hk.2.2 j hj ?_
            rw [hp.unused j hju, hpid]
          · by_contra hz
            exact hno ⟨k, hk.1, hk.2.1, hu, hz⟩
        rw [sysUnfreeze, e]
        simp only [visit, sysUnfreezeVisit_eq hk.2.1, hz, ne_eq, not_true, if_false,
          Option.getD_some, update_eq_self]
      · exact e
    refine ⟨⟨fun hz => ?_, fun hex => ?_⟩, hset, hkeep⟩
    · by_contra hno
      rw [hkeep hno] at hz
      cases hz
    · obtain ⟨i, hi, hun⟩ := hex
      rw [hset i hi hun]

/-- A child that was frozen before it first ran: `sys_unfreeze(2)` does what it is to do. -/
theorem sys_unfreeze_spec_child : ∃ given s, idleKernel.Emits givesPid idleBoot given s ∧
    Unfreezable 2 (s.procs 1) ∧ UnfreezeSpec 2 s.procs := by
  have hex : (idleKernel.execsEmits givesPid idleBoot [] (forkTrace ++ freezeTrace)).map (fun r =>
      decide (r.1 = [(1, 2)] ∧ (r.2.procs 1).pid = 2 ∧ (r.2.procs 1).state = .runnable ∧
        (r.2.procs 1).frozen ≠ 0)) = some true := by
    decide
  obtain ⟨⟨given, s⟩, hs, hp⟩ := Option.map_eq_some_iff.mp hex
  obtain ⟨hgiven, hpid, hst, hz⟩ := of_decide_eq_true hp
  simp only at hgiven hpid hst hz
  have hr : idleKernel.Emits givesPid idleBoot given s := Lib.Lts.Emits.refl.execs hs
  exact ⟨given, s, hr, ⟨hpid, by simp [hst], hz⟩,
    (sys_unfreeze_spec idleKernel_init hr (by rw [hgiven]; decide) 2).mpr fun h => by cases h⟩

set_option maxRecDepth 100000 in
/-- `sys_unfreeze(0)` returns 0 although no process has pid 0, and changes the free slot. -/
theorem sys_unfreeze_zero : ∃ given s, idleKernel.Emits givesPid idleBoot given s ∧
    allocpidCalls given < 2 ^ 31 - 1 ∧ (s.procs 1).state = .unused ∧
    (∀ i < NPROC, (s.procs i).pid = 0 → (s.procs i).state = .unused) ∧
    (sysUnfreeze 0 s.procs).2 = 0 ∧ ((sysUnfreeze 0 s.procs).1 1).frozen ≠ (s.procs 1).frozen ∧
    ¬ UnfreezeSpec 0 s.procs := by
  have hex : (idleKernel.execsEmits givesPid idleBoot [] exitFrozenTrace).map (fun r =>
      decide (r.1.length = 1 ∧ (r.2.procs 1).state = .unused ∧
        (∀ i < NPROC, (r.2.procs i).pid = 0 → (r.2.procs i).state = .unused) ∧
        (sysUnfreeze 0 r.2.procs).2 = 0 ∧
        ((sysUnfreeze 0 r.2.procs).1 1).frozen ≠ (r.2.procs 1).frozen)) = some true := by
    decide
  obtain ⟨⟨given, s⟩, hs, hp⟩ := Option.map_eq_some_iff.mp hex
  obtain ⟨hgiven, hst, hzero, hret, hchg⟩ := of_decide_eq_true hp
  simp only at hgiven hst hzero hret hchg
  refine ⟨given, s, Lib.Lts.Emits.refl.execs hs, by rw [allocpidCalls, hgiven]; decide, hst, hzero,
    hret, hchg, fun hspec => ?_⟩
  obtain ⟨i, hi, hpid, hu, -⟩ := hspec.1.mp hret
  exact hu (hzero i hi hpid)

/-! ## `kill` -/

/-- What `kill(pid)` is to do: report success only for a process, and leave the free slots. -/
def KillSpec (pid : Int) (t : Slot → Proc M) : Prop :=
  ((kill pid t).2 = 0 → ∃ i < NPROC, (t i).pid = pid ∧ (t i).state ≠ .unused) ∧
  ∀ i, (t i).state = .unused → (kill pid t).1 i = t i

/-- The steps in which `kill` does not find the pid it looks for in a free slot. -/
def KillsUsed (s : State M) (a : CpuId × Act M) : Prop :=
  ∀ pid i rest, s.stackOf a.1 = .scan (.kill pid) i .visit :: rest → (s.procs i).pid = pid →
    (s.procs i).state ≠ .unused

/-- Free slots and slots under construction have the property `P`. -/
structure FreshSlots (P : Proc M → Prop) (s : State M) : Prop where
  unused : ∀ p, (s.procs p).state = .unused → P (s.procs p)
  building : ∀ c r pc rest p, s.stackOf c = .fork r pc :: rest → pc.claims = some p →
    pc.building = true → P (s.procs p)

/-- **A step keeps a property of the free slots**, if it keeps it of each and `wait` establishes it. -/
theorem FreshSlots.step {P : Proc M → Prop} (hF : FreshSlots P s) (h : Inv s) (hs : kstep s c a = some s')
    (hunused : ∀ p, (s.procs p).state = .unused → P (s.procs p) → P (s'.procs p))
    (hbuild : ∀ c' r pc rest' p, s.stackOf c' = .fork r pc :: rest' → pc.claims = some p →
      pc.building = true → P (s.procs p) → P (s'.procs p))
    (hreap : ∀ p, event s (c, a) = .reaps p → P (s'.procs p)) : FreshSlots P s' := by
  obtain ⟨f, rest, hf, hstep⟩ := kstep_stepped h hs
  refine ⟨fun p hu => ?_, fun c' r pc rest' p hf' hc hb => ?_⟩
  · rcases hstep.slot h hf p with hchg | ⟨hon, ret, -, e⟩
    · rcases kstep_unused h hs hf hchg hu with hu' | he | ⟨r, rfl⟩
      · exact hunused p hu' (hF.unused p hu')
      · exact hreap p he
      · exact hbuild c r _ rest p hf rfl rfl (hF.building c r _ rest p hf rfl rfl)
    · rw [e] at hu
      exact absurd hu (h.live_of_on hon).ne_unused
  · rcases hstep.building_of h (hstep.inv h hf) hf hf' hc hb with
      ⟨r0, pc0, rest0, hf0, hc0, hb0⟩ | ⟨-, hu⟩
    · exact hbuild c' r0 pc0 rest0 p hf0 hc0 hb0 (hF.building c' r0 pc0 rest0 p hf0 hc0 hb0)
    · exact hunused p hu (hF.unused p hu)

theorem visit_killed {q : Proc M} (h : ∀ pid, op = .kill pid → q.pid ≠ pid) :
    (visit op q).1.killed = q.killed := by
  cases op with
  | kill pid => simp [visit, killVisit, h pid rfl]
  | wakeup chan => simp only [visit, wakeupVisit]; split <;> rfl
  | sysFreeze pid => simp only [visit, sysFreezeVisit]; repeat' split
                     all_goals rfl
  | sysUnfreeze pid => simp only [visit, sysUnfreezeVisit]; repeat' split
                       all_goals rfl

theorem Change.killed_of {f : Frame M} {q : Proc M} (h : Change s c i f q) :
    q.killed = (s.procs i).killed ∨ q.killed = 0 ∨
      (∃ pid, f = .scan (.kill pid) i .visit ∧ (s.procs i).pid = pid) ∨
      ((s.cpus c).on = some i ∧ s.locks (.proc i) = none) := by
  cases h with
  | visit op =>
    by_cases hk : ∃ pid, op = .kill pid ∧ (s.procs i).pid = pid
    · obtain ⟨pid, rfl, hpid⟩ := hk
      exact .inr (.inr (.inl ⟨pid, rfl, hpid⟩))
    · exact .inl (visit_killed fun pid hop hpid => hk ⟨pid, hop, hpid⟩)
  | setkilled hon hfree => exact .inr (.inr (.inr ⟨hon, hfree⟩))
  | undo | reap => exact .inr (.inl rfl)
  | _ => exact .inl rfl

/-- **A step in which `kill` finds no free slot** leaves `killed` cleared in the free slots. -/
theorem kstep_unkilled (hF : FreshSlots (fun q : Proc M => q.killed = 0) s) (h : Inv s)
    (hs : kstep s c a = some s') (hok : KillsUsed s (c, a)) :
    FreshSlots (fun q => q.killed = 0) s' := by
  obtain ⟨f, rest, hf, hstep⟩ := kstep_stepped h hs
  refine hF.step h hs (fun p hu hz => ?_) (fun c' r pc rest' p hf' hc hb hz => ?_) fun p he => ?_
  · rcases hstep.slot h hf p with hchg | ⟨hon, ret, -, e⟩
    · rcases hchg.killed_of with e | e | ⟨pid, rfl, hpid⟩ | ⟨hon, -⟩
      · exact e.trans hz
      · exact e
      · exact absurd hu (hok pid p rest hf hpid)
      · exact absurd hu (h.live_of_on hon).ne_unused
    · exact absurd hu (h.live_of_on hon).ne_unused
  · -- the slot's lock is held by the `fork`
    have hheld : Lock.proc p ∈ heldBy (s.stackOf c') := by
      simp [hf', Frame.held, ForkPc.held_of_building hb hc]
    rcases hstep.slot h hf p with hchg | ⟨-, ret, -, e⟩
    · rcases hchg.killed_of with e | e | ⟨pid, rfl, -⟩ | ⟨-, hfree⟩
      · exact e.trans hz
      · exact e
      · have hm : Lock.proc p ∈ heldBy (s.stackOf c) := by simp [hf, Frame.held]
        by_cases hcc : c' = c
        · rw [hcc, hf] at hf'
          cases hf'
        · exact absurd hheld (h.not_mem_of_ne hm hcc)
      · rw [(h.locks c' _).mpr hheld] at hfree
        cases hfree
    · rw [e]; exact hz
  · show (s'.procs p).killed = 0
    rw [kstep_reaps he hs]
    rfl

theorem unused_pid (h : (kernel M init).Reachable s) (p : Slot) (hu : (s.procs p).state = .unused) :
    (s.procs p).pid = 0 := by
  have hinv : Inv s ∧ ∀ p, (s.procs p).state = .unused → (s.procs p).pid = 0 := by
    refine h.invariant (I := fun t => Inv t ∧ ∀ p, (t.procs p).state = .unused → (t.procs p).pid = 0)
      (fun t ht => ?_) ?_
    · obtain ⟨tf, pt, cwd, d, -, rfl⟩ := ht
      exact ⟨boot_inv tf pt cwd d, (pidInv_boot tf pt cwd d).unused⟩
    · rintro t ⟨c, a⟩ t' ⟨hi, hz⟩ - hs
      refine ⟨kstep_inv hi hs, fun p hu => ?_⟩
      rcases kstep_pid hi hs p with ⟨e, hiff⟩ | ⟨e, -⟩ | ⟨-, -, hused⟩
      · rw [e]; exact hz p (hiff.mp hu)
      · exact e
      · rw [hused] at hu; cases hu
  exact hinv.2 p hu

/-- **`kill` and the free slots**: `kill(pid)` does its work iff the first slot with that pid is not free, so
for every pid but 0; without such a call every free slot and every new process has `killed` cleared. -/
theorem kill_spares_unused (h : (kernel M init).ReachableIf KillsUsed s) :
    (∀ pid, KillSpec pid s.procs ↔ ∀ i, FirstWith s.procs pid i → (s.procs i).state ≠ .unused) ∧
    (∀ pid, pid ≠ 0 → KillSpec pid s.procs) ∧
    (∀ p, (s.procs p).state = .unused → (s.procs p).killed = 0) ∧
    ∀ a np pid s₁, event s a = .creates np pid → (kernel M init).step s a = some s₁ →
      (s₁.procs np).killed = 0 := by
  obtain ⟨hi, hF⟩ : Inv s ∧ FreshSlots (fun q : Proc M => q.killed = 0) s := by
    refine h.invariant (I := fun t => Inv t ∧ FreshSlots (fun q : Proc M => q.killed = 0) t)
      (fun t ht => ?_) ?_
    · obtain ⟨tf, pt, cwd, d, -, rfl⟩ := ht
      refine ⟨boot_inv tf pt cwd d, fun p _ => ?_, fun c r pc rest p hf => ?_⟩
      · by_cases hp : p = 0
        · subst hp; simp [boot, userinit, procinit]
        · simp [boot, update_of_ne hp, procinit]
      · simp [boot, State.stackOf] at hf
    · rintro t ⟨c, a⟩ t' ⟨hi, hF⟩ hok hs
      exact ⟨kstep_inv hi hs, kstep_unkilled hF hi hs hok⟩
  have hiff : ∀ pid, KillSpec pid s.procs ↔
      ∀ i, FirstWith s.procs pid i → (s.procs i).state ≠ .unused := by
    refine fun pid => ⟨fun hspec i hi hu => ?_, fun hcond => ?_⟩
    · -- `kill` would set the flag of the free slot, which is cleared
      have hkilled := congrArg Proc.killed (hspec.2 i hu)
      rw [kill, scanCall_of_first rfl hi, hF.unused i hu] at hkilled
      simp [visit, killVisit, hi.2.1, hu] at hkilled
    · rcases scanCall_cases (.kill pid) rfl s.procs with ⟨k, hk, e⟩ | ⟨-, e⟩
      · refine ⟨fun _ => ⟨k, hk.1, hk.2.1, hcond k hk⟩, fun i hu => ?_⟩
        have hik : i ≠ k := fun e => hcond k hk (e ▸ hu)
        rw [kill, e]
        exact update_of_ne hik _ _
      · rw [KillSpec, kill, e]
        exact ⟨fun h => (by cases h), fun _ _ => rfl⟩
  refine ⟨hiff, fun pid hpid => (hiff pid).mpr fun i hi hu => hpid ?_, hF.unused,
    fun a np pid s₁ he hs => ?_⟩
  · rw [← hi.2.1, unused_pid h.reachable i hu]
  · obtain ⟨c, a⟩ := a
    obtain ⟨r, rest, hf, -, hs₁⟩ := kstep_creates he hs
    rw [hs₁]
    exact hF.building c r _ rest np hf rfl rfl

/-- A visit of `kill` does not find a free slot. -/
def killsUsed (procs : Slot → Proc M) : List (Frame M) → Bool
  | .scan (.kill pid) i .visit :: _ => decide ((procs i).pid = pid → (procs i).state ≠ .unused)
  | _ => true

/-- The first process has forked a child and killed it. -/
theorem kill_spares_unused_child : ∃ s, idleKernel.ReachableIf KillsUsed s ∧
    (s.procs 1).killed ≠ 0 ∧ (s.procs 2).state = .unused ∧ (s.procs 2).killed = 0 ∧
    KillSpec 2 s.procs := by
  obtain ⟨s, hs, hp⟩ := Lib.Lts.reachableIf_of_execs (killTrace ++ goes 0 2)
    (fun t a => killsUsed t.procs (t.stackOf a.1))
    (fun s : State idleClient => decide ((s.procs 1).killed ≠ 0 ∧ (s.procs 2).state = .unused))
    idleKernel_init (by decide)
  obtain ⟨hk, hu⟩ := of_decide_eq_true hp
  have hs' : idleKernel.ReachableIf KillsUsed s :=
    hs.mono fun t a h pid i rest hf => by rw [hf] at h; exact of_decide_eq_true h
  have hspec := kill_spares_unused hs'
  exact ⟨s, hs', hk, hu, hspec.2.2.1 2 hu, hspec.2.1 2 (by decide)⟩

/-- The first process calls `kill(0)`, and then `fork`. -/
def killZeroTrace : List (CpuId × Act idleClient) :=
  goes 0 9 ++ [(0, .call (.kill 0))] ++ goes 0 6

/-- `kill(0)` returns 0 although no process has pid 0, and marks the first free slot: the process that `fork`
then creates there is killed from its start. -/
theorem kill_zero_condemns :
    ¬ KillSpec 0 idleBoot.procs ∧
    ∃ s s', idleKernel.Reachable s ∧ (s.procs 1).state = .unused ∧ (s.procs 1).killed ≠ 0 ∧
      idleKernel.Run s s' ∧ (s'.procs 1).state = .runnable ∧ (s'.procs 1).pid = 2 ∧
      (s'.procs 1).killed ≠ 0 := by
  refine ⟨fun hspec => ?_, ?_⟩
  · have hret : (kill 0 idleBoot.procs).2 = 0 ∧ ∀ i < NPROC, (idleBoot.procs i).pid = 0 →
        (idleBoot.procs i).state = .unused := by decide
    obtain ⟨i, hi, hpid, hu⟩ := hspec.1 hret.1
    exact hu (hret.2 i hi hpid)
  · obtain ⟨s, s', hs, hrun, hp⟩ := Lib.Lts.reachable_run_of_execs killZeroTrace
      ([(0, .call .fork)] ++ goes 0 16) (fun _ _ => true)
      (fun s s' : State idleClient => decide ((s.procs 1).state = .unused ∧ (s.procs 1).killed ≠ 0 ∧
        (s'.procs 1).state = .runnable ∧ (s'.procs 1).pid = 2 ∧ (s'.procs 1).killed ≠ 0))
      idleKernel_init (by decide)
    obtain ⟨hu, hk, hr, hpid, hk'⟩ := of_decide_eq_true hp
    exact ⟨s, s', hs, hu, hk, hrun.mono fun _ _ _ => trivial, hr, hpid, hk'⟩

end Xv6Freezer

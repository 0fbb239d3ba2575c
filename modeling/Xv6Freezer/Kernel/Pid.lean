import Xv6Freezer.Kernel.Frames

/-! # Process identifiers

`allocpid` counts up from 1 in an `int`. The history of a run is the list of the pairs (slot, pid) that
`allocproc` has made; in it, a pid names one process (`pids_unique`).
-/

namespace Xv6Freezer

open Function (update update_self update_of_ne)

variable {M : Client} {init : M.Data → Prop} {s s₀ s₁ s₂ s' : State M} {c : CpuId} {i j : Slot}
  {f : Frame M} {rest : List (Frame M)} {a : Act M} {given given' : List (Slot × Int)}

/-- The slot that gets a pid in a step, and the pid: the call of `allocpid` in `allocproc`. -/
def givesPid (s : State M) (a : CpuId × Act M) : Option (Slot × Int) :=
  match s.stackOf a.1, a.2 with
  | .fork _ (.check i) :: _, .go _ =>
    if (s.procs i).state = .unused then some (i, s.nextpid) else none
  | _, _ => none

/-- The calls of `allocpid` up to a state: one in `userinit`, and the history. -/
def allocpidCalls (given : List (Slot × Int)) : Nat := given.length + 1

/-- The pids given up to a state, the latest first: `userinit` has got 1. -/
def pidsGiven (given : List (Slot × Int)) : List Int := given.map Prod.snd ++ [1]

theorem int32_of_lt {x : Int} (h0 : 0 ≤ x) (hx : x < 2 ^ 31) : int32 x = x := by
  unfold int32
  exact Int.bmod_eq_of_le (by omega) (by omega)

theorem kstep_givesPid (h : Inv s) (hs : kstep s c a = some s') :
    (givesPid s (c, a) = none ∧ s'.nextpid = s.nextpid) ∨
      ∃ i, givesPid s (c, a) = some (i, s.nextpid) ∧ s'.nextpid = int32 (s.nextpid + 1) ∧
        (s.procs i).state = .unused ∧
        s'.procs = update s.procs i { s.procs i with pid := s.nextpid, state := .used } := by
  obtain ⟨f, rest, hf, -⟩ := kstep_stepped h hs
  by_cases hg : givesPid s (c, a) = none
  · refine .inl ⟨hg, ?_⟩
    rcases kstep_nextpid hf hs with e | ⟨r, i, rfl, hu, -, -⟩
    · exact e
    · obtain ⟨x, rfl, -⟩ := go_of_held h hf (by simp [Frame.held, ForkPc.held]) hs
      simp [givesPid, hf, hu] at hg
  · unfold givesPid at hg
    split at hg
    · rename_i r i rest' x hf' ha
      obtain rfl : a = .go x := ha
      by_cases hu : (s.procs i).state = .unused
      · have hg' : givesPid s (c, .go x) = some (i, s.nextpid) := by
          simp only at hf'
          simp [givesPid, hf', hu]
        refine .inr ⟨i, hg', ?_⟩
        simp only [kstep, hf', code, forkCode, if_pos hu, Option.bind_some] at hs
        cases hs
        exact ⟨by simp [State.apply], hu, by simp [State.apply, State.setProc]⟩
      · rw [if_neg hu] at hg
        exact absurd rfl hg
    · exact absurd rfl hg

/-- **The pid of a slot** stays, or `freeproc` clears it, or `allocproc` stores a new one. -/
theorem kstep_pid (h : Inv s) (hs : kstep s c a = some s') (j : Slot) :
    ((s'.procs j).pid = (s.procs j).pid ∧
        ((s'.procs j).state = .unused ↔ (s.procs j).state = .unused)) ∨
      ((s'.procs j).pid = 0 ∧ (s'.procs j).state = .unused) ∨
      givesPid s (c, a) = some (j, s.nextpid) ∧ (s'.procs j).pid = s.nextpid ∧
        (s'.procs j).state = .used := by
  obtain ⟨f, rest, hf, hstep⟩ := kstep_stepped h hs
  have hforks := StackOk.fork_holds h hf
  rcases hstep.slot h hf j with hchg | ⟨-, ret, -, e⟩
  · have hon := fun hon : (s.cpus c).on = some j => (h.live_of_on hon).ne_unused
    generalize hq : s'.procs j = q at hchg ⊢
    cases hchg with
    | visit op =>
      refine .inl ⟨visit_pid op _, ?_⟩
      rcases visit_state op (s.procs j) with e | ⟨e, e'⟩
      · rw [e]
      · simp [e, e']
    | alloc hu =>
      obtain ⟨x, rfl, -⟩ := go_of_held h hf (by simp [Frame.held, ForkPc.held]) hs
      exact .inr (.inr ⟨by simp [givesPid, hf, hu], rfl, rfl⟩)
    | run pid =>
      have hu := (hforks _ _ rfl j rfl).1
      exact .inl ⟨rfl, by simp [hu]⟩
    | undo | reap => exact .inr (.inl ⟨rfl, rfl⟩)
    | pick found hfr hr => exact .inl ⟨rfl, by simp [hr]⟩
    | yield hp => exact .inl ⟨rfl, by simp [hon hp]⟩
    | sleep chan hp => exact .inl ⟨rfl, by simp [hon hp]⟩
    | zombie status hp => exact .inl ⟨rfl, by simp [hon hp]⟩
    | _ => exact .inl ⟨rfl, by simp [Private.apply, copyParent]⟩
  · exact .inl ⟨by rw [e], by rw [e]⟩

/-! ## The invariant of a run -/

/-- What holds after the history `given`, as long as the counter has not overflowed. -/
structure PidInv (given : List (Slot × Int)) (s : State M) : Prop where
  nextpid : s.nextpid = allocpidCalls given + 1
  used : ∀ j, (s.procs j).state ≠ .unused → 0 < (s.procs j).pid ∧ (s.procs j).pid < s.nextpid
  unused : ∀ j, (s.procs j).state = .unused → (s.procs j).pid = 0
  distinct : ∀ i j, (s.procs i).state ≠ .unused → (s.procs i).pid = (s.procs j).pid → i = j
  pids : (pidsGiven given).Pairwise (· > ·)
  lt : ∀ x ∈ pidsGiven given, x < s.nextpid

theorem pidInv_boot (tf pt cwd : Nat) (d : M.Data) : PidInv [] (boot tf pt cwd d) := by
  have hne : ∀ j, j ≠ 0 → ((boot tf pt cwd d).procs j) = procinit j := fun j hj =>
    update_of_ne hj _ _
  have h0 : (boot tf pt cwd d).procs 0 = userinit tf pt cwd := update_self 0 _ procinit
  refine ⟨rfl, fun j hj => ?_, fun j hj => ?_, fun i j hi e => ?_, by simp [pidsGiven], by simp [pidsGiven, boot]⟩
  · by_cases h : j = 0
    · subst h; rw [h0]; exact ⟨Int.one_pos, Int.lt_succ 1⟩
    · rw [hne j h] at hj; exact absurd rfl hj
  · by_cases h : j = 0
    · subst h; rw [h0] at hj; cases hj
    · rw [hne j h]; rfl
  · by_cases hi0 : i = 0
    · by_cases hj0 : j = 0
      · rw [hi0, hj0]
      · rw [hi0, hne j hj0, h0] at e
        cases e
    · rw [hne i hi0] at hi; exact absurd rfl hi

theorem PidInv.step (hp : PidInv given s) (h : Inv s) (hs : kstep s c a = some s')
    (hn : allocpidCalls ((givesPid s (c, a)).toList ++ given) < 2 ^ 31 - 1) :
    PidInv ((givesPid s (c, a)).toList ++ given) s' := by
  have hnext := hp.nextpid
  rcases kstep_givesPid h hs with ⟨hg, he⟩ | ⟨i, hg, he, hu, hprocs⟩
  · -- no pid is given: every slot keeps its own, or loses it
    have hslot : ∀ j, ((s'.procs j).pid = (s.procs j).pid ∧
        ((s'.procs j).state = .unused ↔ (s.procs j).state = .unused)) ∨
        ((s'.procs j).pid = 0 ∧ (s'.procs j).state = .unused) := fun j => by
      rcases kstep_pid h hs j with h1 | h1 | h1
      · exact .inl h1
      · exact .inr h1
      · rw [hg] at h1; cases h1.1
    rw [hg]
    refine ⟨by rw [he, hnext]; rfl, fun j hj => ?_, fun j hj => ?_, fun i j hi e => ?_, hp.pids,
      fun x hx => by rw [he]; exact hp.lt x hx⟩
    · rcases hslot j with ⟨e, hiff⟩ | ⟨-, hu⟩
      · rw [e, he]; exact hp.used j fun h => hj (hiff.mpr h)
      · exact absurd hu hj
    · rcases hslot j with ⟨e, hiff⟩ | ⟨e, -⟩
      · rw [e]; exact hp.unused j (hiff.mp hj)
      · exact e
    · rcases hslot i with ⟨ei, hiff⟩ | ⟨-, hu⟩
      · have hi' : (s.procs i).state ≠ .unused := fun h => hi (hiff.mpr h)
        rcases hslot j with ⟨ej, -⟩ | ⟨ej, -⟩
        · exact hp.distinct i j hi' (by rw [← ei, ← ej, e])
        · have := (hp.used i hi').1
          omega
      · exact absurd hu hi
  · rw [hg] at hn ⊢
    have hlen : allocpidCalls ((some (i, s.nextpid)).toList ++ given) = allocpidCalls given + 1 := by
      simp [allocpidCalls, Nat.add_comm]
    rw [hlen] at hn
    have he' : s'.nextpid = s.nextpid + 1 := by
      rw [he, hnext]
      exact int32_of_lt (by omega) (by omega)
    have hself : s'.procs i = { s.procs i with pid := s.nextpid, state := .used } := by
      rw [hprocs, update_self]
    have hother : ∀ j, j ≠ i → s'.procs j = s.procs j := fun j hj => by
      rw [hprocs, update_of_ne hj]
    -- the slots in use before the step have smaller pids
    have hsmall : ∀ j, (s.procs j).pid < s.nextpid := fun j => by
      by_cases hj : (s.procs j).state = .unused
      · rw [hp.unused j hj]; omega
      · exact (hp.used j hj).2
    refine ⟨by rw [he', hlen, hnext]; push_cast; rfl, fun j hj => ?_, fun j hj => ?_,
      fun k j hk e => ?_, ?_, ?_⟩
    · by_cases hji : j = i
      · subst hji; rw [hself, he']; exact ⟨by simp only; omega, by simp only; omega⟩
      · rw [hother j hji] at hj ⊢
        have := hp.used j hj
        exact ⟨this.1, by omega⟩
    · by_cases hji : j = i
      · subst hji; rw [hself] at hj; cases hj
      · rw [hother j hji] at hj ⊢; exact hp.unused j hj
    · by_cases hki : k = i <;> by_cases hji : j = i
      · rw [hki, hji]
      · rw [hki, hself, hother j hji] at e
        exact absurd e (Int.ne_of_gt (hsmall j))
      · rw [hji, hself, hother k hki] at e
        exact absurd e (Int.ne_of_lt (hsmall k))
      · rw [hother k hki] at hk e
        rw [hother j hji] at e
        exact hp.distinct k j hk e
    · refine List.pairwise_cons.mpr ?_
      exact ⟨fun x hx => hp.lt x hx, hp.pids⟩
    · intro x hx
      rcases List.mem_cons.mp hx with rfl | hx
      · omega
      · have := hp.lt x hx
        omega

theorem PidInv.run (hr : (kernel M init).Emits givesPid s₁ given' s₂) (h : Inv s₁)
    (hp : PidInv given s₁) (hn : allocpidCalls (given' ++ given) < 2 ^ 31 - 1) :
    Inv s₂ ∧ PidInv (given' ++ given) s₂ := by
  induction hr with
  | refl => exact ⟨h, hp⟩
  | tail hr hs ih =>
    rename_i es s' s'' a
    rw [List.append_assoc] at hn ⊢
    have hle : allocpidCalls (es ++ given) < 2 ^ 31 - 1 := by
      simp only [allocpidCalls, List.length_append] at hn ⊢
      omega
    obtain ⟨hi, hp⟩ := ih hle
    exact ⟨kstep_inv hi hs, hp.step hi hs hn⟩

/-! ## One pid, one process -/

def ScanOp.pid? : ScanOp → Option Int
  | .kill pid | .sysFreeze pid | .sysUnfreeze pid => some pid
  | .wakeup _ => none

/-- The slot on which `kill`, `sys_freeze` or `sys_unfreeze` acts next, and the pid found there. -/
def actsOn (s : State M) (c : CpuId) : Option (Slot × Int) :=
  match s.stackOf c with
  | .scan op i .visit :: _ => if op.pid? = some (s.procs i).pid then some (i, (s.procs i).pid) else none
  | _ => none

theorem pid_of_actsOn {pid : Int} (h : actsOn s c = some (i, pid)) : (s.procs i).pid = pid := by
  unfold actsOn at h
  split at h
  · split at h <;> cases h
    rfl
  · cases h

theorem visit_of_pid_ne {op : ScanOp} {pid : Int} {q : Proc M} (hop : op.pid? = some pid)
    (hq : q.pid ≠ pid) : visit op q = (q, none) := by
  cases op <;> simp only [ScanOp.pid?, Option.some.injEq, reduceCtorEq] at hop <;> subst hop <;>
    simp [visit, killVisit, sysFreezeVisit, sysUnfreezeVisit, hq]

theorem pid_stays {pid : Int} (hr : (kernel M init).Emits givesPid s₁ given' s₂) (h : Inv s₁)
    (hp : PidInv given s₁) (hn : allocpidCalls (given' ++ given) < 2 ^ 31 - 1) (h0 : 0 < pid)
    (hi : (s₁.procs i).pid = pid) :
    ∀ j, (s₂.procs j).pid = pid → j = i ∧ ∀ e ∈ given', e.1 ≠ i := by
  have hu : (s₁.procs i).state ≠ .unused := fun hu => by
    have := hp.unused i hu
    omega
  have hlt : pid < s₁.nextpid := hi ▸ (hp.used i hu).2
  suffices hsuff : pid < s₂.nextpid ∧
      ∀ j, (s₂.procs j).pid = pid → j = i ∧ ∀ e ∈ given', e.1 ≠ i from hsuff.2
  -- induction on the run: a step gives a larger pid, or none
  induction hr with
  | refl => exact ⟨hlt, fun j hj => ⟨(hp.distinct i j hu (hi.trans hj.symm)).symm, by simp⟩⟩
  | tail hr hs ih =>
    rename_i es s' s'' a
    obtain ⟨c, a⟩ := a
    rw [List.append_assoc] at hn
    have hle : allocpidCalls (es ++ given) < 2 ^ 31 - 1 := by
      simp only [allocpidCalls, List.length_append] at hn ⊢
      omega
    obtain ⟨hlt', hj'⟩ := ih hle
    obtain ⟨hinv, hp'⟩ := PidInv.run hr h hp hle
    have hp'' := hp'.step hinv hs hn
    have hmono : s'.nextpid ≤ s''.nextpid := by
      rw [hp'.nextpid, hp''.nextpid]
      simp only [allocpidCalls, List.length_append]
      omega
    refine ⟨by omega, fun j hj => ?_⟩
    have hback : (s'.procs j).pid = pid := by
      rcases kstep_pid hinv hs j with ⟨e, -⟩ | ⟨e, -⟩ | ⟨-, e, -⟩ <;> omega
    obtain ⟨rfl, hes⟩ := hj' j hback
    refine ⟨rfl, fun e he => ?_⟩
    rcases List.mem_append.mp he with he | he
    · rintro rfl
      rcases kstep_givesPid hinv hs with ⟨hg, -⟩ | ⟨i, hg, -, -, hprocs⟩
      · rw [hg] at he; cases he
      · rw [hg] at he
        obtain rfl := List.mem_singleton.mp he
        rw [hprocs, update_self] at hj
        simp only at hj
        omega
    · exact hes e he

/-- **A pid names one process of the run**, with fewer than 2³¹ − 1 calls of `allocpid`: the slots in use have
distinct positive pids, no pid was given twice, and if `kill`, `sys_freeze` or `sys_unfreeze` of a positive
pid act twice, they act on one slot, not allocated in between. -/
theorem pids_unique (h0 : (kernel M init).init s₀) (hr : (kernel M init).Emits givesPid s₀ given s₁)
    (hn : allocpidCalls given < 2 ^ 31 - 1) :
    (∀ j, (s₁.procs j).state ≠ .unused → 0 < (s₁.procs j).pid) ∧
    (∀ i j, (s₁.procs i).state ≠ .unused → (s₁.procs j).state ≠ .unused →
      (s₁.procs i).pid = (s₁.procs j).pid → i = j) ∧
    (∀ j, (s₁.procs j).state = .unused → (s₁.procs j).pid = 0) ∧
    (pidsGiven given).Nodup ∧
    ∀ pid, 0 < pid → ∀ c i, actsOn s₁ c = some (i, pid) → ∀ given' s₂ c' j,
      (kernel M init).Emits givesPid s₁ given' s₂ →
      allocpidCalls (given' ++ given) < 2 ^ 31 - 1 → actsOn s₂ c' = some (j, pid) →
      j = i ∧ ∀ e ∈ given', e.1 ≠ i := by
  have hinv₀ : Inv s₀ := reachable_inv ⟨s₀, h0, Lib.Lts.RunIf.refl s₀⟩
  have hp₀ : PidInv [] s₀ := by
    obtain ⟨tf, pt, cwd, d, -, rfl⟩ := h0
    exact pidInv_boot tf pt cwd d
  obtain ⟨hinv, hp⟩ := PidInv.run hr hinv₀ hp₀ (by simpa using hn)
  rw [List.append_nil] at hp
  refine ⟨fun j hj => (hp.used j hj).1, fun i j hi _ e => hp.distinct i j hi e, hp.unused,
    hp.pids.imp Int.ne_of_gt, ?_⟩
  intro pid hpos c i hi given' s₂ c' j hr' hn' hj
  exact pid_stays hr' hinv hp hn' hpos (pid_of_actsOn hi) j (pid_of_actsOn hj)

/-- `fork`, and then `kill(2)` up to the child's slot. -/
def killTrace : List (CpuId × Act idleClient) :=
  forkTrace ++ [(0, .call (.kill 2))] ++ goes 0 4

theorem pids_unique_kill : ∃ given s, idleKernel.Emits givesPid idleBoot given s ∧
    given = [(1, 2)] ∧ actsOn s 0 = some (1, 2) ∧ (s.procs 1).state = .runnable ∧ 0 < (s.procs 1).pid ∧
    (pidsGiven given).Nodup := by
  have hex : (idleKernel.execsEmits givesPid idleBoot [] killTrace).map (fun r =>
      decide (r.1 = [(1, 2)] ∧ actsOn r.2 0 = some (1, 2) ∧
        (r.2.procs 1).state = .runnable)) = some true := by
    decide
  obtain ⟨⟨given, s⟩, hs, hp⟩ := Option.map_eq_some_iff.mp hex
  obtain ⟨hgiven, hacts, hstate⟩ := of_decide_eq_true hp
  simp only at hgiven hacts hstate
  have hr : idleKernel.Emits givesPid idleBoot given s := Lib.Lts.Emits.refl.execs hs
  have hu := pids_unique idleKernel_init hr (by rw [hgiven]; decide)
  exact ⟨given, s, hr, hgiven, hacts, hstate, hu.1 1 (by simp [hstate]), hu.2.2.2.1⟩

end Xv6Freezer

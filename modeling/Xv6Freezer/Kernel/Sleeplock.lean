import Xv6Freezer.Kernel.Clients
import Xv6Freezer.Kernel.Wakeup

/-! # Sleep-locks

`kernel/sleeplock.c` on one sleep-lock, as code that runs on the kernel of `proc.c`. A process that waits may
be made `RUNNABLE` at any time; the loop in `acquiresleep` keeps the lock exclusive (`sleeplock_exclusive`).
-/

namespace Xv6Freezer

namespace Sleeplock

/-! ## The code -/

structure Data where
  locked : Bool
  pid : Int

/-- The spinlocks: `lk->lk`, and one for what the owner waits for. -/
inductive Lk where
  | lk | other
  deriving DecidableEq

/-- `lk`, as a channel. Other channels have other numbers. -/
def chanLk : Nat := 0

/-- Program points. `inside` says whether the caller owns the lock. -/
inductive Pc where
  /-- `acquiresleep`: `acquire(&lk->lk)`. -/
  | acq
  /-- The test of the loop, and `sleep(lk, &lk->lk)`. -/
  | test
  /-- `lk->locked = 1; lk->pid = myproc()->pid`. -/
  | take
  | acqRel
  /-- The owner asks whether it is killed, and then does something else or calls `releasesleep`. -/
  | crit
  /-- The owner waits for something else, on another channel. -/
  | otherAcq (n : Nat)
  | otherSleep (n : Nat)
  /-- `releasesleep`: `acquire(&lk->lk)`. -/
  | rel
  /-- `lk->locked = 0; lk->pid = 0`. -/
  | free
  /-- `wakeup(lk)`. -/
  | wake
  | relRel
  /-- `holdingsleep`: `acquire(&lk->lk)`. -/
  | hold (inside : Bool)
  /-- `r = lk->locked && (lk->pid == myproc()->pid)`. -/
  | holdTest (inside : Bool)
  /-- `release(&lk->lk); return r`. -/
  | holdRel (inside r : Bool)
  /-- `wakeup` on any channel. -/
  | wakeup (n : Nat) (inside : Bool)
  | done

def Pc.back (inside : Bool) : Pc := if inside then .crit else .done

/-- The statement at a program point. `x` chooses what the owner does. -/
def code (f : Pc) (pid : Int) (d : Data) (x : Nat) : Stmt Pc Data Lk :=
  match f with
  | .acq => .acquire .lk .test
  | .test => if d.locked then .sleep chanLk .lk .test else .update d .take
  | .take => .update { locked := true, pid := pid } .acqRel
  | .acqRel => .release .lk .crit
  | .crit => .killed fun _ =>
    match x % 4 with
    | 0 => .rel
    | 1 => .hold true
    | 2 => .otherAcq (x / 4)
    | _ => .wakeup (x / 4) true
  | .otherAcq n => .acquire .other (.otherSleep n)
  | .otherSleep n => if x = 0 then .release .other .crit else .sleep (n + 1) .other (.otherSleep n)
  | .rel => .acquire .lk .free
  | .free => .update { locked := false, pid := 0 } .wake
  | .wake => .wakeup chanLk .relRel
  | .relRel => .release .lk .done
  | .hold b => .acquire .lk (.holdTest b)
  | .holdTest b => .update d (.holdRel b (d.locked && d.pid == pid))
  | .holdRel b _ => .release .lk (.back b)
  | .wakeup n b => .wakeup n (.back b)
  | .done => .ret

def held : Pc → List Lk
  | .test | .take | .acqRel | .free | .wake | .relRel | .holdTest _ | .holdRel _ _ => [.lk]
  | .otherSleep _ => [.other]
  | _ => []

abbrev client : Client where
  Frame := Pc
  Data := Data
  Lk := Lk
  code f _ pid d x := code f pid d x
  held := held
  entry
    | .acq | .hold false | .wakeup _ false => true
    | _ => false
  handler
    | .wakeup _ false => true
    | _ => false
  fileclose _ := .done
  iput _ := .done
  fsinit := .done
  code_locked f _ pid d x := by
    cases f with
    | test | otherSleep => simp only [code]; split <;> simp [Stmt.Locked, held]
    | crit => intro _; simp only; split <;> rfl
    | holdRel b r => cases b <;> simp [code, Pc.back, Stmt.Locked, held]
    | wakeup n b => cases b <;> simp [code, Pc.back, Stmt.Locked, held]
    | _ => simp [code, Stmt.Locked, held]
  held_entry f h := by cases f <;> first | rfl | cases h
  held_handler f h := by cases f <;> first | rfl | cases h
  held_fileclose _ := rfl
  held_iput _ := rfl
  held_fsinit := rfl

def sys : Lib.Lts (State client) (CpuId × Act client) :=
  kernel client fun d => d.locked = false ∧ d.pid = 0

def Pc.owns : Pc → Bool
  | .acqRel | .crit | .otherAcq _ | .otherSleep _ | .rel | .free | .hold true | .holdTest true
  | .holdRel true _ | .wakeup _ true => true
  | _ => false

/-- Process `p` is between taking the lock and giving it up. -/
def Inside (s : State client) (p : Slot) : Prop := ∃ k ∈ clients (s.kst p), Pc.owns k = true

variable {s s₀ s' : State client} {c : CpuId} {p q : Slot} {f : Frame client}
  {rest : List (Frame client)} {a : Act client} {given : List (Slot × Int)}

/-! ## Discipline of the code -/

/-- The lock is free when it is taken. -/
def freeAtTake : Assertion client where
  lk := .lk
  holds f d := f = Pc.take → d.locked = false
  free f d hf := by rintro rfl; exact absurd (List.mem_singleton_self _) hf
  code f _ pid d x h := by
    cases f with
    | test =>
      simp only [client, code]
      split
      · trivial
      · rename_i hl
        exact ⟨List.mem_singleton_self _, fun _ => by simpa using hl⟩
    | crit =>
      intro _
      simp only
      split <;> nofun
    | otherSleep n =>
      simp only [client, code]
      split
      · nofun
      · trivial
    | take | free | holdTest => exact ⟨List.mem_singleton_self _, nofun⟩
    | holdRel b r => cases b <;> nofun
    | wakeup n b => cases b <;> nofun
    | done => trivial
    | _ => nofun
  sleep f _ pid d x n l k hc d' := by
    rintro rfl
    cases f <;> simp only [client, code] at hc <;> (repeat' split at hc) <;> cases hc

/-- The lock as a monitor: a process waits for `lk->locked = 0`. -/
def monitor : Monitor client where
  lk := .lk
  chan := chanLk
  cond _ _ d := !d.locked
  dirty
    | .wake => true
    | _ => false
  dirty_held f h := by cases f <;> first | exact List.mem_singleton_self _ | cases h
  code_monitored f _ pid d x := by
    cases f with
    | test =>
      simp only [client, code]
      split
      · rename_i hl
        exact ⟨rfl, fun _ => ⟨rfl, fun _ _ => by simp [hl]⟩⟩
      · exact ⟨nofun, fun ⟨_, _, h, h'⟩ => by rw [h] at h'; cases h'⟩
    | crit => nofun
    | otherSleep n =>
      simp only [client, code]
      split
      · exact ⟨nofun, nofun⟩
      · exact ⟨rfl, nofun⟩
    | take => exact ⟨nofun, fun ⟨_, _, _, h'⟩ => by cases h'⟩
    | free => exact ⟨nofun, fun _ => rfl⟩
    | holdTest b => exact ⟨nofun, fun ⟨_, _, h, h'⟩ => by rw [h] at h'; cases h'⟩
    | wake => exact .inl rfl
    | wakeup n b => exact .inr nofun
    | acqRel | relRel | holdRel => exact ⟨fun _ => rfl, nofun⟩
    | done => trivial
    | _ => nofun

/-! ## The invariant -/

theorem owns_next {k : Pc} {pid : Int} {d : Data} {x : Nat} {o : Option Pc} (ht : k ≠ .take)
    (hf : k ≠ .free) (h : (code k pid d x).Next o) :
    o.toList.countP Pc.owns = [k].countP Pc.owns ∧ (code k pid d x).data d = d := by
  cases k with
  | take => exact absurd rfl ht
  | free => exact absurd rfl hf
  | crit =>
    obtain ⟨b, rfl⟩ := h
    refine ⟨?_, rfl⟩
    simp only
    split <;> rfl
  | test | otherSleep => simp only [code] at h ⊢; split at h <;> cases h <;> simp_all [Stmt.data, Pc.owns]
  | hold b => cases h; cases b <;> exact ⟨rfl, rfl⟩
  | holdTest b => cases h; cases b <;> exact ⟨rfl, rfl⟩
  | holdRel b r => cases h; cases b <;> exact ⟨rfl, rfl⟩
  | wakeup n b => cases h; cases b <;> exact ⟨rfl, rfl⟩
  | _ => cases h; exact ⟨rfl, rfl⟩

/-- The number of calls of process `q` that own the lock. -/
def owned (s : State client) (q : Slot) : Nat := (clients (s.kst q)).countP Pc.owns

/-- The lock is taken iff exactly one call owns it. -/
structure LockInv (s : State client) : Prop where
  free : s.data.locked = false → ∀ q, owned s q = 0
  taken : s.data.locked = true →
    ∃ p, owned s p = 1 ∧ s.data.pid = (s.procs p).pid ∧ ∀ q, q ≠ p → owned s q = 0

theorem inside_iff : Inside s p ↔ owned s p ≠ 0 := by
  rw [owned, Nat.ne_zero_iff_zero_lt, List.countP_pos_iff]
  rfl

theorem pid_of_mem {k k' : Pc} (h : Inv s) (hl : SysInv s) (hs : kstep s c a = some s')
    (hk : k ∈ clients (s.kst p)) (hk' : k' ∈ clients (s'.kst p)) :
    (s'.procs p).pid = (s.procs p).pid := by
  have hlive := hl.live_of_client h hk
  have hlive' := (kstep_sysInv h hl hs).live_of_client (kstep_inv h hs) hk'
  rcases kstep_pid h hs p with ⟨e, -⟩ | ⟨-, hu⟩ | ⟨-, -, hu⟩
  · exact e
  · exact absurd hu hlive'.ne_unused
  · exact absurd hu hlive'.ne_used

/-- The program points of an interrupt handler, which only calls `wakeup`. -/
def Pc.isHandler : Pc → Prop
  | .wakeup _ false | .done => True
  | _ => False

theorem isHandler_of_reachable (hr : sys.Reachable s) (hon : (s.cpus c).on = none) {k : Pc}
    (hm : .client k ∈ s.stackOf c) : k.isHandler := by
  refine handler_invariant (fun k hk => ?_) (fun g self pid d x k hg hn => ?_) hr hon hm
  · simp only at hk
    split at hk
    · trivial
    · cases hk
  · unfold Pc.isHandler at hg
    split at hg
    · cases hn
      trivial
    · cases hn
    · exact hg.elim

theorem owns_of_starts {k : Pc} (hk : client.Starts k) : k.owns = false := by
  rcases hk with hk | hk | ⟨_, rfl⟩ | ⟨_, rfl⟩ | rfl
  · simp only at hk
    split at hk <;> first | rfl | cases hk
  · simp only at hk
    split at hk <;> first | rfl | cases hk
  all_goals rfl

theorem kstep_owned (hr : sys.Reachable s) (hf : s.stackOf c = f :: rest)
    (hs : kstep s c a = some s') : ((∀ q, owned s' q = owned s q) ∧ s'.data = s.data) ∨
      ∃ p, (s.cpus c).on = some p ∧ (∀ q, q ≠ p → owned s' q = owned s q) ∧
        ((f = .client Pc.take ∧ owned s' p = owned s p + 1 ∧
            s'.data = { locked := true, pid := (s.procs p).pid }) ∨
          f = .client Pc.free ∧ owned s p = owned s' p + 1 ∧
            s'.data = { locked := false, pid := 0 }) := by
  obtain ⟨h, hl, -⟩ := reachable_forest hr
  have hother : ∀ q, (s.cpus c).on ≠ some q → owned s' q = owned s q := fun q hq => by
    rcases kstep_clients h hl hf hs q with ⟨e, -⟩ | ⟨hon, -⟩
    · rw [owned, e, owned]
    · exact absurd hon hq
  cases hon : (s.cpus c).on with
  | none =>
    refine .inl ⟨fun q => hother q (by rw [hon]; nofun), ?_⟩
    refine (kstep_data hs hf).resolve_right fun ⟨x, g, d, k, _, hg, hc, _⟩ => ?_
    subst hg
    have hk := isHandler_of_reachable hr hon (hf ▸ List.mem_cons_self)
    unfold Pc.isHandler at hk
    split at hk
    · cases hc
    · cases hc
    · exact hk
  | some p =>
    have hne : ∀ q, q ≠ p → owned s' q = owned s q := fun q hq =>
      hother q fun e => hq (Option.some.inj (e.symm.trans hon))
    have hall : owned s' p = owned s p → ∀ q, owned s' q = owned s q := fun e q => by
      by_cases hq : q = p
      · rw [hq, e]
      · exact hne q hq
    rcases kstep_clients h hl hf hs p with
      ⟨e, hd⟩ | ⟨-, ⟨k, hk, e, hd⟩ | ⟨g, x, o, rfl, rfl, ho, hd, e, e'⟩⟩
    · exact .inl ⟨hall (by rw [owned, e, owned]), hd hon⟩
    · refine .inl ⟨hall ?_, hd⟩
      rw [owned, e, List.countP_cons_of_neg (by simp [owns_of_starts hk]), owned]
    · have hown : owned s p = [g].countP Pc.owns + (clients rest).countP Pc.owns := by
        rw [owned, e, ← List.countP_append, List.singleton_append]
      have hown' : owned s' p = o.toList.countP Pc.owns + (clients rest).countP Pc.owns := by
        rw [owned, e', List.countP_append]
      by_cases ht : g = .take
      · subst ht
        obtain rfl : o = some .acqRel := ho
        refine .inr ⟨p, rfl, hne, .inl ⟨rfl, ?_, hd⟩⟩
        rw [hown, hown', show [Pc.take].countP Pc.owns = 0 from rfl,
          show (some Pc.acqRel).toList.countP Pc.owns = 1 from rfl]
        omega
      · by_cases hfr : g = .free
        · subst hfr
          obtain rfl : o = some .wake := ho
          refine .inr ⟨p, rfl, hne, .inr ⟨rfl, ?_, hd⟩⟩
          rw [hown, hown', show [Pc.free].countP Pc.owns = 1 from rfl,
            show (some Pc.wake).toList.countP Pc.owns = 0 from rfl]
          omega
        · obtain ⟨hcount, hdata⟩ := owns_next ht hfr ho
          exact .inl ⟨hall (by rw [hown, hown', hcount]), hd.trans hdata⟩

theorem LockInv.step (L : LockInv s) (hr : sys.Reachable s) (hs : kstep s c a = some s') :
    LockInv s' := by
  obtain ⟨h, hl, -⟩ := reachable_forest hr
  obtain ⟨f, rest, hf, -⟩ := kstep_stepped h hs
  have hpid : ∀ p, owned s p ≠ 0 → owned s' p ≠ 0 → (s'.procs p).pid = (s.procs p).pid := by
    intro p hp hp'
    obtain ⟨k, hk, -⟩ := inside_iff.mpr hp
    obtain ⟨k', hk', -⟩ := inside_iff.mpr hp'
    exact pid_of_mem h hl hs hk hk'
  rcases kstep_owned hr hf hs with ⟨hown, hd⟩ | ⟨p, hon, hother, ⟨rfl, hone, hd⟩ | ⟨rfl, hone, hd⟩⟩
  · refine ⟨fun hfree q => ?_, fun htaken => ?_⟩
    · rw [hown]; exact L.free (hd ▸ hfree) q
    · obtain ⟨p, h1, hp, hrest⟩ := L.taken (hd ▸ htaken)
      refine ⟨p, by rw [hown, h1], ?_, fun q hq => by rw [hown, hrest q hq]⟩
      rw [hd, hp, hpid p (by rw [h1]; decide) (by rw [hown, h1]; decide)]
  · -- the lock was free
    have hfree := L.free (freeAtTake.holds_of_top hr hf rfl)
    rw [hfree p] at hone
    obtain ⟨k', hk', -⟩ := inside_iff.mpr (by rw [hone]; decide : owned s' p ≠ 0)
    have hk : Pc.take ∈ clients (s.kst p) := by
      rw [← State.stackOf_of_on hon, hf, clients_cons]
      exact .head _
    refine ⟨fun hf => absurd (hd ▸ hf) nofun, fun _ => ⟨p, hone, ?_, fun q hq => ?_⟩⟩
    · rw [hd, pid_of_mem h hl hs hk hk']
    · rw [hother q hq, hfree q]
  · -- the process was the owner
    have htaken : s.data.locked = true := by
      by_contra hk
      have := L.free (by simpa using hk) p
      omega
    obtain ⟨p', h1, -, hrest⟩ := L.taken htaken
    have hpp : p = p' := by
      by_contra hne
      have := hrest p hne
      omega
    subst hpp
    refine ⟨fun _ q => ?_, fun hf => absurd (hd ▸ hf) nofun⟩
    by_cases hq : q = p
    · subst hq; omega
    · rw [hother q hq, hrest q hq]

theorem reachable_lockInv (hr : sys.Reachable s) : LockInv s := by
  obtain ⟨s₀, h0, hrun⟩ := hr
  suffices hsuff : sys.Reachable s ∧ LockInv s from hsuff.2
  refine hrun.invariant (I := fun t => sys.Reachable t ∧ LockInv t) ⟨⟨s₀, h0, .refl s₀⟩, ?_⟩ ?_
  · obtain ⟨tf, pt, cwd, d, hd, rfl⟩ := h0
    refine ⟨fun _ q => rfl, fun ht => ?_⟩
    exact absurd (hd.1.symm.trans ht) nofun
  · rintro t a t' ⟨hr, hL⟩ - hs
    exact ⟨hr.trans (Lib.Lts.RunIf.tail (.refl t) trivial hs), hL.step hr hs⟩

theorem LockInv.unique (L : LockInv s) (hp : Inside s p) (hq : Inside s q) : p = q := by
  rw [inside_iff] at hp hq
  cases hl : s.data.locked with
  | false => exact absurd (L.free hl p) hp
  | true =>
    obtain ⟨r, -, -, hrest⟩ := L.taken hl
    rw [Decidable.byContradiction fun h => hp (hrest p h),
      Decidable.byContradiction fun h => hq (hrest q h)]

theorem LockInv.locked_iff (L : LockInv s) : s.data.locked = true ↔ ∃ p, Inside s p := by
  refine ⟨fun hl => ?_, fun ⟨p, hp⟩ => ?_⟩
  · obtain ⟨p, h1, -⟩ := L.taken hl
    exact ⟨p, inside_iff.mpr (by rw [h1]; decide)⟩
  · by_contra hl
    exact inside_iff.mp hp (L.free (by simpa using hl) p)

theorem LockInv.pid_eq (L : LockInv s) (hp : Inside s p) : s.data.pid = (s.procs p).pid := by
  obtain ⟨q, h1, hpid, -⟩ := L.taken (L.locked_iff.mpr ⟨p, hp⟩)
  rw [L.unique hp (inside_iff.mpr (by rw [h1]; decide : owned s q ≠ 0)), hpid]

theorem holdTest_step {b : Bool} {x : Nat} (hf : s.stackOf c = .client (Pc.holdTest b) :: rest)
    (hs : kstep s c (.go x) = some s') :
    s'.stackOf c = .client (Pc.holdRel b (s.data.locked && s.data.pid == mypid s c)) :: rest := by
  obtain ⟨instr, hi, he⟩ := kstep_instr hf hs
  cases hi
  cases he
  exact State.stackOf_setStack _

/-- **A sleep-lock is exclusive.** At most one process is between `acquiresleep` and `releasesleep`. While
`lk->lk` is free, `lk->locked` says whether there is one, `lk->pid` is its pid, and nobody sleeps on a lock
that is not taken; and `holdingsleep` is right, as long as `allocpid` has not run out of pids. -/
theorem sleeplock_exclusive (h0 : sys.init s₀) (hr : sys.Emits givesPid s₀ given s) :
    (∀ p q, Inside s p → Inside s q → p = q) ∧
    (s.locks (.client Lk.lk) = none →
      (s.data.locked = true ↔ ∃ p, Inside s p) ∧
      (∀ p, Inside s p → s.data.pid = (s.procs p).pid) ∧
      (s.data.locked = false → ∀ p, (s.procs p).state = .sleeping →
        (s.procs p).chan ≠ some (.addr chanLk))) ∧
    ∀ c p b rest x s', (s.cpus c).on = some p → s.stackOf c = .client (Pc.holdTest b) :: rest →
      kstep s c (.go x) = some s' → ∃ r, s'.stackOf c = .client (Pc.holdRel b r) :: rest ∧
        (r = true ↔ ∃ q, Inside s q ∧ (s.procs q).pid = (s.procs p).pid) ∧
        (allocpidCalls given < 2 ^ 31 - 1 → (r = true ↔ Inside s p)) := by
  have hreach : sys.Reachable s := ⟨s₀, h0, hr.run⟩
  obtain ⟨h, hl, F⟩ := reachable_forest hreach
  have L := reachable_lockInv hreach
  refine ⟨fun p q => L.unique,
    fun hfree => ⟨L.locked_iff, fun p => L.pid_eq, fun hun p hsl hchan => ?_⟩, ?_⟩
  · -- whoever sleeps waits for a lock that is taken
    have hp : p < NPROC := F.lt_of_live (by rw [hsl]; exact .inr (.inl rfl))
    obtain ⟨k, -, hcond⟩ := cond_of_sleeping (m := monitor.toWaiting) hreach
      (fun t a _ _ => monitor.follows t a) hfree hp hsl hchan
    simp [monitor, hun] at hcond
  · intro c p b rest x s' hon hf hs
    have hmy : mypid s c = (s.procs p).pid := by
      have hp : myproc s c = some p := (h.busy c p hon).1
      simp [mypid, hp]
    have hanswer : (s.data.locked && s.data.pid == mypid s c) = true ↔
        ∃ q, Inside s q ∧ (s.procs q).pid = (s.procs p).pid := by
      rw [Bool.and_eq_true, beq_iff_eq, hmy, L.locked_iff]
      constructor
      · rintro ⟨⟨q, hq⟩, hpid⟩
        exact ⟨q, hq, (L.pid_eq hq).symm.trans hpid⟩
      · rintro ⟨q, hq, hpid⟩
        exact ⟨⟨q, hq⟩, (L.pid_eq hq).trans hpid⟩
    refine ⟨_, holdTest_step hf hs, hanswer, fun hn => hanswer.trans ⟨?_, fun hp => ⟨p, hp, rfl⟩⟩⟩
    -- the caller is the only process with its pid
    rintro ⟨q, hq, hpid⟩
    have hp₀ : PidInv [] s₀ := by
      obtain ⟨tf, pt, cwd, d, -, rfl⟩ := h0
      exact pidInv_boot tf pt cwd d
    obtain ⟨-, hP⟩ := PidInv.run hr (reachable_inv ⟨s₀, h0, .refl s₀⟩) hp₀ (by simpa using hn)
    have hqp : q = p := by
      obtain ⟨k, hk, -⟩ := hq
      exact hP.distinct q p (hl.live_of_client h hk).ne_unused hpid
    rwa [hqp] at hq

/-- The first process takes the lock, and its child on another CPU sleeps for it. -/
def waitTrace : List (CpuId × Act client) :=
  goes 0 9 ++ [(0, .call .fork)] ++ goes 0 16 ++ [(0, .call (.op Pc.acq))] ++ goes 0 4 ++ goes 1 10 ++
    [(1, .call (.op Pc.acq))] ++ goes 1 7

theorem sleeplock_exclusive_waiter : ∃ given s, sys.Emits givesPid (boot 1 1 1 ⟨false, 0⟩) given s ∧
    (s.procs 1).state = .sleeping ∧ (s.procs 1).chan = some (.addr chanLk) ∧
    (∃ p, Inside s p ∧ (s.procs p).pid = 1) ∧ ∀ p q, Inside s p → Inside s q → p = q := by
  have hinit : sys.init (boot 1 1 1 ⟨false, 0⟩) := ⟨1, 1, 1, _, ⟨rfl, rfl⟩, rfl⟩
  have hex : (sys.execsEmits givesPid (boot 1 1 1 ⟨false, 0⟩) [] waitTrace).map (fun r =>
      decide (r.2.data.locked = true ∧ r.2.data.pid = 1 ∧ r.2.locks (.client Lk.lk) = none ∧
        (r.2.procs 1).state = .sleeping ∧ (r.2.procs 1).chan = some (.addr chanLk))) = some true := by
    decide +kernel
  obtain ⟨⟨given, s⟩, hs, hp⟩ := Option.map_eq_some_iff.mp hex
  obtain ⟨hheld, hone, hfree, hsl, hchan⟩ := of_decide_eq_true hp
  simp only at hheld hone hfree hsl hchan
  have hr : sys.Emits givesPid (boot 1 1 1 ⟨false, 0⟩) given s := Lib.Lts.Emits.refl.execs hs
  obtain ⟨huniq, hstate, -⟩ := sleeplock_exclusive hinit hr
  obtain ⟨hlocked, hpid, -⟩ := hstate hfree
  obtain ⟨p, hin⟩ := hlocked.mp hheld
  exact ⟨given, s, hr, hsl, hchan, ⟨p, hin, (hpid p hin).symm.trans hone⟩, huniq⟩

end Sleeplock

end Xv6Freezer

import Xv6Freezer.Kernel.Clients

/-! # The clock and `sys_sleep`

`sys_sleep` and `sys_uptime` (`kernel/sysproc.c`) and `clockintr` (`kernel/trap.c`) as code that runs on
the kernel of `proc.c`.
-/

namespace Xv6Freezer

namespace Clock

/-! ## The code -/

/-- The counter `ticks`, a `uint`. -/
structure Data where
  ticks : Nat
  /-- History: the value of `ticks` at the start. -/
  start : Nat
  /-- History: the number of clock ticks so far. -/
  count : Nat

inductive Lk where
  | tickslock
  deriving DecidableEq

/-- `&ticks`, as a channel. Other channels have other numbers. -/
def chanTicks : Nat := 0

/-- Program points; `since` is the number of clock ticks at the entry of `sys_sleep`. -/
inductive Pc where
  /-- `sys_sleep`: `argint(0, &n)`. -/
  | start (n : Int)
  | acq (n : Int) (since : Nat)
  /-- `ticks0 = ticks`. -/
  | read (n : Int) (since : Nat)
  /-- The test of the loop. -/
  | test (n : Int) (since ticks0 : Nat)
  /-- `if(killed(myproc()))`. -/
  | check (n : Int) (since ticks0 : Nat)
  /-- `sleep(&ticks, &tickslock)`. -/
  | sleep (n : Int) (since ticks0 : Nat)
  | rel (n : Int) (since : Nat) (r : Int)
  /-- `return r`. -/
  | ret (n : Int) (since : Nat) (r : Int)
  /-- `sys_uptime`. -/
  | upAcq | upRead
  | upRel (xticks : Nat)
  /-- `clockintr`: `acquire(&tickslock)`. -/
  | tickAcq
  /-- `ticks++`. -/
  | tickInc
  /-- `wakeup(&ticks)`. -/
  | tickWake
  | tickRel
  /-- `wakeup` on any channel. -/
  | wakeup (chan : Nat)
  | done

/-- An `int` converted to `uint`. -/
def toUint (n : Int) : Nat := (n % 2 ^ 32).toNat

def clamp (n : Int) : Int := if n < 0 then 0 else n

/-- `ticks - ticks0 < n`, a comparison of `uint`s. -/
def early (d : Data) (n : Int) (ticks0 : Nat) : Bool :=
  decide ((d.ticks + 2 ^ 32 - ticks0) % 2 ^ 32 < toUint (clamp n))

def code (f : Pc) (d : Data) : Stmt Pc Data Lk :=
  match f with
  | .start n => .update d (.acq n d.count)
  | .acq n since => .acquire .tickslock (.read n since)
  | .read n since => .update d (.test n since d.ticks)
  | .test n since ticks0 =>
    .update d (if early d n ticks0 then .check n since ticks0 else .rel n since 0)
  | .check n since ticks0 => .killed fun b => if b then .rel n since (-1) else .sleep n since ticks0
  | .sleep n since ticks0 => .sleep chanTicks .tickslock (.test n since ticks0)
  | .rel n since r => .release .tickslock (.ret n since r)
  | .ret _ _ _ => .ret
  | .upAcq => .acquire .tickslock .upRead
  | .upRead => .update d (.upRel d.ticks)
  | .upRel _ => .release .tickslock .done
  | .tickAcq => .acquire .tickslock .tickInc
  | .tickInc => .update { d with ticks := (d.ticks + 1) % 2 ^ 32, count := d.count + 1 } .tickWake
  | .tickWake => .wakeup chanTicks .tickRel
  | .tickRel => .release .tickslock .done
  | .wakeup n => .wakeup n .done
  | .done => .ret

def held : Pc → List Lk
  | .read _ _ | .test _ _ _ | .check _ _ _ | .sleep _ _ _ | .rel _ _ _ | .upRead | .upRel _ | .tickInc
  | .tickWake | .tickRel => [.tickslock]
  | _ => []

/-- A kernel whose processes call `sys_sleep`, with any `int`, and `sys_uptime`. -/
abbrev client : Client where
  Frame := Pc
  Data := Data
  Lk := Lk
  code f _ _ d _ := code f d
  held := held
  entry
    | .start n => decide (-2 ^ 31 ≤ n ∧ n < 2 ^ 31)
    | .upAcq | .wakeup _ => true
    | _ => false
  handler
    | .tickAcq | .wakeup _ => true
    | _ => false
  fileclose _ := .done
  iput _ := .done
  fsinit := .done
  code_locked f _ _ d _ := by
    cases f with
    | test n since ticks0 => simp only [code]; split <;> simp [Stmt.Locked, held]
    | check n since ticks0 => intro b; cases b <;> rfl
    | _ => simp [code, Stmt.Locked, held]
  held_entry f h := by cases f <;> first | rfl | cases h
  held_handler f h := by cases f <;> first | rfl | cases h
  held_fileclose _ := rfl
  held_iput _ := rfl
  held_fsinit := rfl

/-- The kernel with the clock, from any value of the counter. -/
def sys : Lib.Lts (State client) (CpuId × Act client) :=
  kernel client fun d => d.ticks < 2 ^ 32 ∧ d.start = d.ticks ∧ d.count = 0

variable {s s' : State client} {c : CpuId} {p q : Slot} {f : Frame client}
  {rest : List (Frame client)} {a : Act client} {d d' : Data} {n : Int} {since ticks0 : Nat}

/-! ## Counting ticks -/

def Counted (d : Data) : Prop := d.ticks = (d.start + d.count) % 2 ^ 32

/-- What a call of `sys_sleep` knows at a program point. -/
def Knows (d : Data) : Pc → Prop
  | .start n => -2 ^ 31 ≤ n ∧ n < 2 ^ 31
  | .acq n since | .read n since => (-2 ^ 31 ≤ n ∧ n < 2 ^ 31) ∧ since ≤ d.count
  | .test n since ticks0 | .check n since ticks0 | .sleep n since ticks0 =>
    (-2 ^ 31 ≤ n ∧ n < 2 ^ 31) ∧ ∃ k, since ≤ k ∧ k ≤ d.count ∧ ticks0 = (d.start + k) % 2 ^ 32
  | .rel n since r | .ret n since r => (r = 0 ∧ since + max n 0 ≤ d.count) ∨ r = -1
  | _ => True

theorem Knows.mono {k : Pc} (h : Knows d k) (hs : d'.start = d.start) (hc : d.count ≤ d'.count) :
    Knows d' k := by
  cases k with
  | acq | read => exact ⟨h.1, h.2.trans hc⟩
  | test n since ticks0 | check n since ticks0 | sleep n since ticks0 =>
    obtain ⟨hn, k, h1, h2, h3⟩ := h
    exact ⟨hn, k, h1, h2.trans hc, by rw [hs]; exact h3⟩
  | rel n since r | ret n since r =>
    rcases h with ⟨rfl, h⟩ | h
    · exact .inl ⟨rfl, by omega⟩
    · exact .inr h
  | _ => exact h

/-- **The comparison**: when it fails, the ticks have occurred since `ticks0` was read. -/
theorem ticks_of_not_early (hd : Counted d) (hn : -2 ^ 31 ≤ n ∧ n < 2 ^ 31) {k : Nat}
    (hk : k ≤ d.count) (h0 : ticks0 = (d.start + k) % 2 ^ 32) (h : early d n ticks0 = false) :
    (k : Int) + max n 0 ≤ d.count := by
  have hle : toUint (clamp n) ≤ (d.ticks + 2 ^ 32 - ticks0) % 2 ^ 32 :=
    Nat.not_lt.mp (of_decide_eq_false h)
  have hdiff : (d.ticks + 2 ^ 32 - ticks0) % 2 ^ 32 ≤ d.count - k := by
    rw [hd, h0]
    omega
  have hclamp : ((toUint (clamp n) : Nat) : Int) = max n 0 := by
    unfold toUint clamp
    split <;> omega
  omega

theorem code_data (k : Pc) (d : Data) : (code k d).data d = d ∨
    k = .tickInc ∧ (code k d).data d = { d with ticks := (d.ticks + 1) % 2 ^ 32, count := d.count + 1 } := by
  cases k with
  | tickInc => exact .inr ⟨rfl, rfl⟩
  | _ => exact .inl rfl

theorem code_count (k : Pc) (d : Data) :
    ((code k d).data d).start = d.start ∧ d.count ≤ ((code k d).data d).count := by
  rcases code_data k d with e | ⟨-, e⟩ <;> rw [e]
  · exact ⟨rfl, le_rfl⟩
  · exact ⟨rfl, Nat.le_succ _⟩

theorem reachable_knows (h : sys.Reachable s) :
    TableInv s ∧ Counted s.data ∧ AllAt (Knows s.data) s := by
  refine allAt_invariant (I := Counted) (J := Knows) (fun d hd => ?_) (fun d k _ hk => ?_)
    (fun g self pid d x hd hg => ⟨?_, fun k hk => ?_⟩) (fun t c g rest x k _ _ _ _ _ hk => ?_) h
  · rw [Counted, hd.2.1, hd.2.2, Nat.add_zero, Nat.mod_eq_of_lt hd.1]
  · rcases hk with hk | hk | ⟨_, rfl⟩ | ⟨_, rfl⟩ | rfl
    · cases k with
      | start n =>
        have hn : -2 ^ 31 ≤ n ∧ n < 2 ^ 31 := of_decide_eq_true hk
        exact hn
      | _ => trivial
    · cases k <;> trivial
    all_goals trivial
  · show Counted ((code g d).data d)
    rcases code_data g d with e | ⟨-, e⟩ <;> rw [e]
    · exact hd
    · simp only [Counted] at hd ⊢
      omega
  · change (code g d).Next (some k) at hk
    show Knows ((code g d).data d) k
    cases g with
    | start n => cases hk; exact ⟨hg, le_rfl⟩
    | acq n since => cases hk; exact hg
    | read n since => cases hk; exact ⟨hg.1, d.count, hg.2, le_rfl, hd⟩
    | test n since ticks0 =>
      cases hk
      show Knows d _
      cases he : early d n ticks0 with
      | true => exact hg
      | false =>
        obtain ⟨hn, k, h1, h2, h3⟩ := hg
        have := ticks_of_not_early hd hn h2 h3 he
        exact .inl ⟨rfl, by omega⟩
    | check n since ticks0 =>
      obtain ⟨b, hb⟩ := hk
      cases hb
      cases b with
      | true => exact .inr rfl
      | false => exact hg
    | sleep | rel => cases hk; exact hg
    | _ => cases hk <;> trivial
  · obtain ⟨hs, hc⟩ := code_count g t.data
    exact Knows.mono hk hs hc

/-! ## Being killed -/

/-- The program points on the way to `return -1`. -/
def Pc.failing : Pc → Bool
  | .rel _ _ r | .ret _ _ r => r = -1
  | _ => false

theorem killed_of_failing (h : sys.Reachable s) {k : Pc} (hk : k ∈ clients (s.kst q))
    (hfail : Pc.failing k = true) : (s.procs q).killed ≠ 0 := by
  refine killedAt_invariant (F := fun k => Pc.failing k = true) (fun k hk hF => ?_)
    (fun g self pid d x k hk hF => ?_) h hk hfail
  · rcases hk with hk | hk | ⟨_, rfl⟩ | ⟨_, rfl⟩ | rfl
    · cases k <;> first | cases hF | cases hk
    · cases k <;> first | cases hF | cases hk
    all_goals cases hF
  · change (code g d).Next (some k) at hk
    cases g with
    | check n since ticks0 => exact .inr ⟨_, rfl, nofun⟩
    | rel n since r =>
      cases hk
      exact .inl hF
    | test n since ticks0 =>
      cases hk
      split at hF <;> cases hF
    | _ => cases hk <;> cases hF

/-- **`sys_sleep(n)`**, for every start value of the counter and in every interleaving, returns 0 after at
least `max n 0` clock ticks, or -1 to a process that has been killed. -/
theorem sys_sleep_exact (h : sys.Reachable s) {r : Int}
    (hm : Pc.ret n since r ∈ clients (s.kst p)) :
    (r = 0 ∧ since + max n 0 ≤ s.data.count) ∨ (r = -1 ∧ (s.procs p).killed ≠ 0) := by
  obtain ⟨-, -, hJ⟩ := reachable_knows h
  rcases hJ.procs p _ hm with hret | rfl
  · exact .inl hret
  · exact .inr ⟨rfl, killed_of_failing h hm rfl⟩

/-- The first process calls `sys_sleep(1)` and sleeps until a clock tick, at which `ticks` overflows. -/
def sleepTrace : List (CpuId × Act client) :=
  goes 0 9 ++ [(0, .call (.op (Pc.start 1)))] ++ goes 0 13 ++ [(0, .intr Pc.tickAcq)] ++ goes 0 397

/-- The first process kills itself and calls `sys_sleep(5)`. -/
def killedTrace : List (CpuId × Act client) :=
  goes 0 9 ++ [(0, .call (.kill 1))] ++ goes 0 3 ++ [(0, .call (.op (Pc.start 5)))] ++ goes 0 6

theorem sys_init : sys.init (boot 1 1 1 ⟨2 ^ 32 - 1, 2 ^ 32 - 1, 0⟩) :=
  ⟨1, 1, 1, _, ⟨by decide, rfl, rfl⟩, rfl⟩

/-- The thread is about to return from a call. -/
def returns (n : Int) (since : Nat) (r : Int) : List Pc → Bool
  | [.ret n' since' r'] => decide (n' = n ∧ since' = since ∧ r' = r)
  | _ => false

theorem mem_of_returns {n : Int} {since : Nat} {r : Int} {pcs : List Pc} (h : returns n since r pcs = true) :
    Pc.ret n since r ∈ pcs := by
  unfold returns at h
  split at h
  · obtain ⟨rfl, rfl, rfl⟩ := of_decide_eq_true h
    exact .head _
  · cases h

theorem sys_sleep_exact_both :
    (∃ s, sys.Reachable s ∧ Pc.ret 1 0 0 ∈ clients (s.kst 0) ∧ s.data.ticks = 0 ∧ 1 ≤ s.data.count) ∧
    ∃ s, sys.Reachable s ∧ Pc.ret 5 0 (-1) ∈ clients (s.kst 0) ∧ (s.procs 0).killed ≠ 0 := by
  refine ⟨?_, ?_⟩
  · obtain ⟨s, hs, hp⟩ := Lib.Lts.reachable_of_execs sleepTrace
      (fun s : State client => returns 1 0 0 (clients (s.kst 0)) && decide (s.data.ticks = 0)) sys_init
      (by decide +kernel)
    obtain ⟨hret, hticks⟩ := (Bool.and_eq_true _ _).mp hp
    have hm := mem_of_returns hret
    rcases sys_sleep_exact hs hm with ⟨-, hle⟩ | ⟨h, -⟩
    · exact ⟨s, hs, hm, of_decide_eq_true hticks, by omega⟩
    · cases h
  · obtain ⟨s, hs, hp⟩ := Lib.Lts.reachable_of_execs killedTrace
      (fun s : State client => returns 5 0 (-1) (clients (s.kst 0))) sys_init (by decide)
    have hm := mem_of_returns hp
    rcases sys_sleep_exact hs hm with ⟨h, -⟩ | ⟨-, hz⟩
    · cases h
    · exact ⟨s, hs, hm, hz⟩

end Clock

end Xv6Freezer

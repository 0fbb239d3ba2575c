import Xv6Freezer.Intr.Basic

/-! # Interrupt-enable nesting follows the kernel thread

`noff` and `intena` are kept by the CPU, but belong to the thread that executes there. `Fits` compares the
rest of a thread's code with what it has taken, `Inv` the CPU with its thread.
-/

namespace Xv6Freezer.Intr

open Function (update update_self update_of_ne)

variable {L : Type} [DecidableEq L] {nproc : Nat} {s s' : State L} {c c' : CpuId} {p : Slot} {u : Cpu L}
  {op : Op L} {k : List (Op L)} {me : Option Slot} {b : Nat} {H : Finset (Lock L)}

/-! ## The code that is left -/

/-- The process has set its state and goes on to `sched`. -/
def Leaves (p : Slot) : List (Op L) → Prop
  | .sched :: _ | .panic _ :: _ => True
  | .drop l :: k => l ≠ .proc p ∧ Leaves p k
  | .popOff :: k => Leaves p k
  | _ => False

/-- A thread of `me` with the spinlocks `h` and `b` other `push_off`s can execute the code. A `push_off` waits
below a handler only if it has found interrupts on. -/
def Fits (me : Option Slot) : List (Op L) → Nat → Finset (Lock L) → Prop
  | .intrGet :: k, b, h => Fits me k (b + 1) h
  | .popOff :: k, b, h => 0 < b ∧ Fits me k (b - 1) h
  | .take l :: k, b, h => 0 < b ∧ (l ∉ h → Fits me k (b - 1) (insert l h))
  | .drop l :: k, b, h => l ∈ h → Fits me k (b + 1) (h.erase l)
  | .setState _ :: k, b, h => (∀ p, me = some p → .proc p ∈ h ∧ Leaves p k) ∧ Fits me k b h
  | .sched :: k, _, _ => ∀ p, me = some p → Fits me k 0 {.proc p}
  | .head :: _, b, h | .scan _ _ :: _, b, h => me = none ∧ b = 0 ∧ h = ∅
  | .pick i _ :: _, b, h => me = none ∧ b = 0 ∧ h = {.proc i}
  | .handler :: .pushOff old :: k, _, _ => old = true ∧ Fits me k 1 ∅
  | .handler :: k, _, _ => Fits me k 0 ∅
  | .panic msg :: _, _, _ => msg ≠ "pop_off" ∧ msg ≠ "pop_off - interruptible"
  | .pushOff _ :: _, _, _ | .restore _ :: _, _, _ => False
  | .body :: _, _, _ | [], _, _ => True

/-- The same for the thread that a CPU executes, which may be in `push_off` and `sched`. -/
def Runs (me : Option Slot) (sie : Bool) (b : Nat) (h : Finset (Lock L)) : List (Op L) → Prop
  | .pushOff old :: k => sie = old ∧ Fits me k (b + 1) h
  | .restore _ :: k => h ≠ ∅ ∧ Fits me k b h
  | k => Fits me k b h

theorem Fits.runs (hf : Fits me k b H) (sie : Bool) : Runs me sie b H k := by
  unfold Runs
  split
  · exact hf.elim
  · exact hf.elim
  · exact hf

theorem fits_handler (b : Nat) (h : Finset (Lock L)) :
    Fits me (.handler :: k) b h ↔ Runs me true 0 ∅ k := by
  cases k with
  | nil => exact Iff.rfl
  | cons op k =>
    cases op with
    | pushOff old => exact and_congr_left' eq_comm
    | restore intena => exact iff_of_false id fun hr => hr.1 rfl
    | _ => exact Iff.rfl

/-- The `intena` of the thread, when that of the CPU is `x`. -/
def intenaOf (x : Bool) : List (Op L) → Bool
  | .restore intena :: _ => intena
  | _ => x

theorem Fits.intenaOf (hf : Fits me k b H) (x : Bool) : Intr.intenaOf x k = x := by
  unfold Intr.intenaOf
  split
  · exact hf.elim
  · rfl

/-! ## The invariant -/

/-- What holds of a thread that waits in `swtch`, or has not started. -/
structure Parked (me : Option Slot) (p : Slot) (t : Thread L) : Prop where
  bare : t.bare = 0
  held : t.held = {.proc p}
  runs : Runs me false 0 {.proc p} t.todo
  intena : me.isSome → ∀ on x, t.outer = some on → intenaOf x t.todo = on

structure Local (u : Cpu L) : Prop where
  noff : u.noff = u.thread.depth
  off : 0 < u.noff → u.sie = false
  runs : Runs u.proc u.sie u.thread.bare u.thread.held u.thread.todo
  intena : u.proc.isSome → 0 < u.noff → ∀ on, u.thread.outer = some on →
    intenaOf u.intena u.thread.todo = on
  back : ∀ p, u.proc = some p → Parked none p u.context

structure Inv (s : State L) : Prop where
  here : ∀ c, Local (s.cpus c)
  /-- A lock is taken by the CPU whose thread holds it. -/
  locks : ∀ c l, s.locks l = some c ↔ l ∈ (s.cpus c).thread.held
  uniq : ∀ c c' p, (s.cpus c).proc = some p → (s.cpus c').proc = some p → c = c'
  /-- A process that executes is `RUNNING`, or about to leave. -/
  state : ∀ c p, (s.cpus c).proc = some p →
    s.state p = .running ∨ .proc p ∈ (s.cpus c).thread.held ∧ Leaves p (s.cpus c).thread.todo
  parked : ∀ p, (∀ c, (s.cpus c).proc ≠ some p) → Parked (some p) p (s.context p)

theorem fresh_parked (p : Slot) : Parked (some p) p (.fresh p : Thread L) where
  bare := rfl
  held := rfl
  runs := fun _ => ⟨Nat.one_pos, trivial⟩
  intena _ _ _ ho := by cases ho

namespace Inv

variable (h : Inv s)

include h

/-! ## Steps of one thread -/

/-- **A step of CPU `c`** that leaves alone the locks and the states of the other CPUs' processes, and the
threads that wait. -/
theorem set {context : Slot → Thread L} {locks : Lock L → Option CpuId}
    {state : Slot → ProcState} {frozen : Slot → Bool} (hhere : Local u)
    (hlocks : ∀ l, locks l = some c ↔ l ∈ u.thread.held)
    (hother : ∀ c', c' ≠ c → ∀ l, locks l = some c' ↔ s.locks l = some c')
    (huniq : ∀ p, u.proc = some p → ∀ c', c' ≠ c → (s.cpus c').proc ≠ some p)
    (hstate : ∀ p, u.proc = some p →
      state p = .running ∨ .proc p ∈ u.thread.held ∧ Leaves p u.thread.todo)
    (hrest : ∀ c', c' ≠ c → ∀ p, (s.cpus c').proc = some p → state p = s.state p)
    (hparked : ∀ p, u.proc ≠ some p → (∀ c', c' ≠ c → (s.cpus c').proc ≠ some p) →
      Parked (some p) p (context p)) :
    Inv ⟨update s.cpus c u, context, locks, state, frozen⟩ := by
  constructor
  case here =>
    exact (Function.forall_update_iff s.cpus fun _ u => Local u).mpr ⟨hhere, fun c' _ => h.here c'⟩
  case locks =>
    refine (Function.forall_update_iff s.cpus fun c' u => ∀ l, locks l = some c' ↔
      l ∈ u.thread.held).mpr ⟨hlocks, fun c' hc l => ?_⟩
    rw [hother c' hc, h.locks]
  case uniq =>
    intro c1 c2 p h1 h2
    simp only [Function.update_apply] at h1 h2
    split_ifs at h1 h2 with hc1 hc2 hc2
    · rw [hc1, hc2]
    · exact absurd h2 (huniq p h1 c2 hc2)
    · exact absurd h1 (huniq p h2 c1 hc1)
    · exact h.uniq c1 c2 p h1 h2
  case state =>
    refine (Function.forall_update_iff s.cpus fun _ u => ∀ p, u.proc = some p →
      state p = .running ∨ .proc p ∈ u.thread.held ∧ Leaves p u.thread.todo).mpr ⟨hstate, ?_⟩
    intro c' hc p hp
    rw [hrest c' hc p hp]
    exact h.state c' p hp
  case parked =>
    intro p hidle
    have hall := (Function.forall_update_iff s.cpus fun _ u => u.proc ≠ some p).mp hidle
    exact hparked p hall.1 hall.2

/-- The same for a step that goes on with the same process. -/
theorem stay {locks : Lock L → Option CpuId} {state : Slot → ProcState}
    (hproc : u.proc = (s.cpus c).proc) (hhere : Local u)
    (hlocks : ∀ l, locks l = some c ↔ l ∈ u.thread.held)
    (hother : ∀ c', c' ≠ c → ∀ l, locks l = some c' ↔ s.locks l = some c')
    (hstate : ∀ p, u.proc = some p →
      state p = .running ∨ .proc p ∈ u.thread.held ∧ Leaves p u.thread.todo)
    (hrest : ∀ p, u.proc ≠ some p → state p = s.state p) :
    Inv { s with cpus := update s.cpus c u, locks := locks, state := state } := by
  have huniq : ∀ p, u.proc = some p → ∀ c', c' ≠ c → (s.cpus c').proc ≠ some p :=
    fun p hp c' hc hp' => hc (h.uniq c' c p hp' (hproc.symm.trans hp))
  refine h.set hhere hlocks hother huniq hstate (fun c' hc p hp => hrest p fun e => huniq p e c' hc hp)
    fun p hp hidle => h.parked p fun c' => ?_
  by_cases hc : c' = c
  · rwa [hc, ← hproc]
  · exact hidle c' hc

theorem runs (htodo : (s.cpus c).thread.todo = op :: k) :
    Runs (s.cpus c).proc (s.cpus c).sie (s.cpus c).thread.bare (s.cpus c).thread.held (op :: k) :=
  htodo ▸ (h.here c).runs

/-- The `intena` of the thread is that of the CPU, unless it comes out of `swtch`. -/
theorem intena (htodo : (s.cpus c).thread.todo = op :: k) {on : Bool}
    (hp : (s.cpus c).proc.isSome) (hn : 0 < (s.cpus c).noff) (ho : (s.cpus c).thread.outer = some on) :
    intenaOf (s.cpus c).intena (op :: k) = on :=
  htodo ▸ (h.here c).intena hp hn on ho

theorem running (htodo : (s.cpus c).thread.todo = op :: k) (hp : (s.cpus c).proc = some p) :
    s.state p = .running ∨ .proc p ∈ (s.cpus c).thread.held ∧ Leaves p (op :: k) :=
  htodo ▸ h.state c p hp

theorem quiet (htodo : (s.cpus c).thread.todo = op :: k) (k' : List (Op L))
    {sie intena : Bool} (hoff : 0 < (s.cpus c).noff → sie = false)
    (hruns : Runs (s.cpus c).proc sie (s.cpus c).thread.bare (s.cpus c).thread.held k')
    (hintena : 0 < (s.cpus c).noff → intenaOf intena k' = intenaOf (s.cpus c).intena (op :: k))
    (hleaves : ∀ p, .proc p ∈ (s.cpus c).thread.held → Leaves p (op :: k) → Leaves p k') :
    Inv (s.setCpu c { (s.cpus c).goto k' with sie := sie, intena := intena }) := by
  refine h.stay (u := { (s.cpus c).goto k' with sie := sie, intena := intena }) rfl
    ⟨(h.here c).noff, hoff, hruns, fun hp hn on ho => ?_, (h.here c).back⟩ (h.locks c)
    (fun _ _ _ => Iff.rfl) (fun p hp => ?_) (fun _ _ => rfl)
  · exact (hintena hn).trans (h.intena htodo hp hn ho)
  · exact (h.running htodo hp).imp_right fun ⟨hm, hl⟩ => ⟨hm, hleaves p hm hl⟩

theorem panic (htodo : (s.cpus c).thread.todo = op :: k) {msg : String}
    (hmsg : msg ≠ "pop_off" ∧ msg ≠ "pop_off - interruptible")
    (hi : intenaOf (s.cpus c).intena (op :: k) = (s.cpus c).intena) :
    Inv (s.setCpu c ((s.cpus c).goto [.panic msg])) :=
  h.quiet htodo [.panic msg] (h.here c).off hmsg (fun _ => hi.symm) fun _ _ _ => trivial

theorem depth_zero (hd : (s.cpus c).thread.depth = 0) :
    (s.cpus c).noff = 0 ∧ (s.cpus c).thread.bare = 0 ∧ (s.cpus c).thread.held = ∅ := by
  have hn := (h.here c).noff
  unfold Thread.depth at hd hn
  exact ⟨by omega, by omega, Finset.card_eq_zero.mp (by omega)⟩

theorem pushOff {old : Bool} (htodo : (s.cpus c).thread.todo = .pushOff old :: k)
    (hs : exec nproc s c k (.pushOff old) = some s') : Inv s' := by
  have hl := h.here c
  obtain ⟨hold, hfits⟩ := h.runs htodo
  cases hs
  refine h.stay (u := _) rfl ⟨?_, fun _ => rfl, hfits.runs _, fun hp _ on ho => ?_, hl.back⟩ (h.locks c)
    (fun _ _ _ => Iff.rfl) (fun p hp => .inl ?_) (fun _ _ => rfl)
  · exact congrArg (· + 1) hl.noff
  · -- the outermost `push_off` records what it has found, the others leave it alone
    rw [hfits.intenaOf]
    show (if (s.cpus c).noff = 0 then old else (s.cpus c).intena) = on
    simp only [← hl.noff] at ho
    split at ho
    · rename_i hz
      rw [if_pos hz, ← hold]
      exact Option.some.inj ho
    · rename_i hz
      rw [if_neg hz]
      exact h.intena htodo hp (Nat.pos_of_ne_zero hz) ho
  · exact (h.running htodo hp).resolve_right And.right

theorem popOff (htodo : (s.cpus c).thread.todo = .popOff :: k)
    (hs : exec nproc s c k .popOff = some s') : Inv s' := by
  have hl := h.here c
  obtain ⟨hpos, hfits⟩ := h.runs htodo
  have hn := hl.noff
  unfold Thread.depth at hn
  -- a `push_off` is outstanding, so that neither panic is possible
  have hsie := hl.off (by omega)
  simp only [exec, Cpu.popOff, hsie, Bool.false_eq_true, if_false,
    show ¬ (s.cpus c).noff < 1 by omega] at hs
  cases hs
  refine h.stay (u := _) rfl ⟨?_, fun hz => ?_, hfits.runs _, fun hp _ on ho => ?_, hl.back⟩ (h.locks c)
    (fun _ _ _ => Iff.rfl) (fun p hp => h.running htodo hp) (fun _ _ => rfl)
  · show (s.cpus c).noff - 1 = (s.cpus c).thread.held.card + ((s.cpus c).thread.bare - 1)
    omega
  · exact if_neg fun hx => absurd hx.1 (Nat.pos_iff_ne_zero.mp hz)
  · rw [hfits.intenaOf]
    exact h.intena htodo hp (by omega) ho

theorem take {l : Lock L} (htodo : (s.cpus c).thread.todo = .take l :: k)
    (hs : exec nproc s c k (.take l) = some s') : Inv s' := by
  have hl := h.here c
  obtain ⟨hpos, hfits⟩ := h.runs htodo
  simp only [exec] at hs
  split_ifs at hs with hself hfree <;> cases hs
  · exact h.panic htodo (by decide) rfl
  · have hnone : s.locks l = none := of_not_not hfree
    have hnot : l ∉ (s.cpus c).thread.held := fun hm => by simp [(h.locks c l).mpr hm] at hnone
    refine h.stay (u := _) rfl ⟨?_, hl.off, (hfits hnot).runs _, fun hp hz on ho => ?_, hl.back⟩
      (fun l' => ?_) (fun c' hc l' => ?_) (fun p hp => .inl ?_) (fun _ _ => rfl)
    · have hn := hl.noff
      simp only [Thread.depth, Finset.card_insert_of_notMem hnot] at hn ⊢
      omega
    · rw [(hfits hnot).intenaOf]
      exact h.intena htodo hp hz ho
    · rw [Finset.mem_insert, ← h.locks c l']
      by_cases he : l' = l <;> simp [he]
    · by_cases he : l' = l <;> simp [he, hnone, hc.symm]
    · exact (h.running htodo hp).resolve_right And.right

theorem drop {l : Lock L} (htodo : (s.cpus c).thread.todo = .drop l :: k)
    (hs : exec nproc s c k (.drop l) = some s') : Inv s' := by
  have hl := h.here c
  have hfits := h.runs htodo
  simp only [exec] at hs
  split_ifs at hs with hself <;> cases hs
  · exact h.panic htodo (by decide) rfl
  · have hown : s.locks l = some c := of_not_not hself
    have hmem := (h.locks c l).mp hown
    refine h.stay (u := _) rfl ⟨?_, hl.off, (hfits hmem).runs _, fun hp hz on ho => ?_, hl.back⟩
      (fun l' => ?_) (fun c' hc l' => ?_) (fun p hp => ?_) (fun _ _ => rfl)
    · have hn := hl.noff
      have hcard := Finset.card_pos.mpr ⟨l, hmem⟩
      simp only [Thread.depth, Finset.card_erase_of_mem hmem] at hn ⊢
      omega
    · rw [(hfits hmem).intenaOf]
      exact h.intena htodo hp hz ho
    · rw [Finset.mem_erase, ← h.locks c l']
      by_cases he : l' = l <;> simp [he]
    · by_cases he : l' = l <;> simp [he, hown, hc.symm]
    · exact (h.running htodo hp).imp_right fun ⟨hm, hne, hlv⟩ =>
        ⟨Finset.mem_erase_of_ne_of_mem hne.symm hm, hlv⟩

theorem setState {x : ProcState} (htodo : (s.cpus c).thread.todo = .setState x :: k)
    (hs : exec nproc s c k (.setState x) = some s') : Inv s' := by
  have hl := h.here c
  obtain ⟨hown, hfits⟩ := h.runs htodo
  obtain ⟨p, hp, rfl⟩ := Option.map_eq_some_iff.mp hs
  refine h.stay (u := (s.cpus c).goto k) rfl
    ⟨hl.noff, hl.off, hfits.runs _, fun hp hz on ho => ?_, hl.back⟩
    (h.locks c) (fun _ _ _ => Iff.rfl) (fun q hq => .inr (hown q hq)) (fun q hq => update_of_ne ?_ ..)
  · exact (hfits.intenaOf _).trans (h.intena htodo hp hz ho)
  · rintro rfl
    exact hq hp

/-! ## Switching threads -/

/-- `swtch` of `sched`: the thread takes its `intena` along. -/
theorem sched (htodo : (s.cpus c).thread.todo = .sched :: k)
    (hs : exec nproc s c k .sched = some s') : Inv s' := by
  have hl := h.here c
  have hfits := h.runs htodo
  obtain ⟨p, hp, hs⟩ := Option.bind_eq_some_iff.mp hs
  split_ifs at hs with hlock hnoff hrun hsie <;> cases hs
  · exact h.panic htodo (by decide) rfl
  · exact h.panic htodo (by decide) rfl
  · exact h.panic htodo (by decide) rfl
  · exact h.panic htodo (by decide) rfl
  · have hmem := (h.locks c _).mp (of_not_not hlock)
    have hone : (s.cpus c).noff = 1 := of_not_not hnoff
    have hsie : (s.cpus c).sie = false := by simpa using hsie
    -- `p->lock` is all that the thread holds
    obtain ⟨hheld, hbare⟩ : (s.cpus c).thread.held = {.proc p} ∧ (s.cpus c).thread.bare = 0 := by
      have hn := hl.noff
      have hcard := Finset.card_pos.mpr ⟨_, hmem⟩
      unfold Thread.depth at hn
      obtain ⟨l, he⟩ := Finset.card_eq_one.mp (show (s.cpus c).thread.held.card = 1 by omega)
      rw [he, Finset.mem_singleton] at hmem
      exact ⟨by rw [he, hmem], by omega⟩
    have hback := hl.back p hp
    refine h.set (u := { s.cpus c with proc := none, thread := (s.cpus c).context })
      ⟨?_, fun _ => hsie, ?_, nofun, nofun⟩ (fun l => ?_) (fun _ _ _ => Iff.rfl) nofun nofun
      (fun _ _ _ _ => rfl) fun q _ hidle => ?_
    · rw [hone, Thread.depth, hback.held, hback.bare]
      rfl
    · rw [hsie, hback.held, hback.bare]
      exact hback.runs
    · show s.locks l = some c ↔ l ∈ (s.cpus c).context.held
      rw [h.locks, hheld, hback.held]
    · by_cases hq : q = p
      · rw [hq, update_self]
        exact ⟨hbare, hheld, ⟨Finset.singleton_ne_empty _, hp ▸ hfits p hp⟩, fun _ on x ho =>
          h.intena htodo (by rw [hp]; rfl) (by omega) ho⟩
      · rw [update_of_ne hq]
        refine h.parked q fun c' e => ?_
        by_cases hc : c' = c
        · rw [hc, hp] at e
          exact hq (Option.some.inj e).symm
        · exact hidle c' hc e

/-- `swtch` of `scheduler`: a `RUNNABLE` process whose lock is held waits. -/
theorem pick {i : Slot} {found : Bool} (htodo : (s.cpus c).thread.todo = .pick i found :: k)
    (hs : exec nproc s c k (.pick i found) = some s') : Inv s' := by
  have hl := h.here c
  obtain ⟨hp, hbare, hheld⟩ := h.runs htodo
  have hfits : ∀ found, Fits (s.cpus c).proc (release (.proc i) ++ [.scan (i + 1) found])
      (s.cpus c).thread.bare (s.cpus c).thread.held := by
    intro found _
    rw [hp, hbare, hheld]
    exact ⟨Nat.one_pos, rfl, rfl, Finset.erase_singleton _⟩
  have hn : (s.cpus c).noff = 1 := by
    rw [hl.noff, Thread.depth, hbare, hheld]
    rfl
  simp only [exec] at hs
  split_ifs at hs with hrun <;> cases hs
  · -- the process executes nowhere: it would be `RUNNING`, or hold its lock
    have hidle : ∀ c', (s.cpus c').proc ≠ some i := by
      intro c' hc'
      rcases h.state c' i hc' with hr | ⟨hm, -⟩
      · rw [hrun.2] at hr
        cases hr
      · have hown := (h.locks c (.proc i)).mpr (hheld ▸ Finset.mem_singleton_self _)
        have he := Option.some.inj (hown.symm.trans ((h.locks c' _).mpr hm))
        rw [← he, hp] at hc'
        cases hc'
    have hpark := h.parked i hidle
    refine h.set (u := _) ⟨?_, hl.off, ?_, fun _ _ on ho => hpark.intena rfl on _ ho, fun q hq => ?_⟩
      (fun l => ?_) (fun _ _ _ => Iff.rfl) (fun q hq c' _ => ?_) (fun q hq => .inl ?_)
      (fun c' _ q hq => ?_) fun q hq hrest => h.parked q fun c' e => ?_
    · show (s.cpus c).noff = (s.context i).depth
      rw [hn, Thread.depth, hpark.held, hpark.bare]
      rfl
    · show Runs (some i) (s.cpus c).sie (s.context i).bare (s.context i).held _
      rw [hl.off (by omega), hpark.held, hpark.bare]
      exact hpark.runs
    · cases hq
      exact ⟨hbare, hheld, hbare ▸ hheld ▸ hp ▸ (hfits true).runs _, nofun⟩
    · show s.locks l = some c ↔ l ∈ (s.context i).held
      rw [h.locks, hheld, hpark.held]
    · cases hq
      exact hidle c'
    · cases hq
      exact update_self ..
    · refine update_of_ne ?_ ..
      rintro rfl
      exact hidle c' hq
    · by_cases hc : c' = c
      · rw [hc, hp] at e
        cases e
      · exact hrest c' hc e
  · exact h.quiet htodo _ hl.off ((hfits found).runs _) (fun _ => rfl) fun _ _ => False.elim

theorem exec (htodo : (s.cpus c).thread.todo = op :: k)
    (hs : Intr.exec nproc s c k op = some s') : Inv s' := by
  have hl := h.here c
  have hr := h.runs htodo
  cases op with
  | pushOff old => exact h.pushOff htodo hs
  | popOff => exact h.popOff htodo hs
  | take l => exact h.take htodo hs
  | drop l => exact h.drop htodo hs
  | setState x => exact h.setState htodo hs
  | sched => exact h.sched htodo hs
  | pick i found => exact h.pick htodo hs
  | intrGet =>
    cases hs
    exact h.quiet htodo (.pushOff _ :: k) hl.off ⟨rfl, hr⟩ (fun _ => rfl) fun _ _ => id
  | restore intena =>
    cases hs
    exact h.quiet htodo k hl.off (hr.2.runs _) (fun _ => hr.2.intenaOf _) fun _ _ => False.elim
  | head =>
    cases hs
    have hz := (h.depth_zero (by rw [Thread.depth, hr.2.1, hr.2.2]; rfl)).1
    exact h.quiet htodo [.scan 0 false] (fun hn => absurd hz hn.ne') hr (fun _ => rfl) fun _ _ => id
  | scan i found =>
    simp only [Intr.exec] at hs
    split_ifs at hs <;> cases hs
    · refine h.quiet htodo (acquire (.proc i) ++ [.pick i found]) hl.off ?_ (fun _ => rfl) fun _ _ => id
      exact ⟨Nat.succ_pos _, fun _ => ⟨hr.1, hr.2.1, by rw [hr.2.2]; rfl⟩⟩
    · have hz := (h.depth_zero (by rw [Thread.depth, hr.2.1, hr.2.2]; rfl)).1
      exact h.quiet htodo [.head] (fun hn => absurd hz hn.ne') hr (fun _ => rfl) fun _ _ => id
  | body | handler | panic => cases hs

/-! ## Calls, interrupts and the process table -/

/-- A call may be made from the code of a process and from a handler. -/
theorem call (htodo : (s.cpus c).thread.todo = op :: k) (hop : op = .body ∨ op = .handler)
    {f : Call L} {ops : List (Op L)} (hf : f.code (s.cpus c).proc (s.cpus c).thread = some ops) :
    Inv (s.setCpu c ((s.cpus c).goto (ops ++ op :: k))) := by
  have hr := h.runs htodo
  have hlv : ∀ p, ¬ Leaves p (op :: k) := by
    rcases hop with rfl | rfl <;> exact fun _ => id
  have hi : intenaOf (s.cpus c).intena (op :: k) = (s.cpus c).intena := by
    rcases hop with rfl | rfl <;> rfl
  -- the code that called goes on with whatever it has then
  have hrest : ∀ b h, Fits (s.cpus c).proc (op :: k) b h := by
    rcases hop with rfl | rfl
    · exact fun _ _ => trivial
    · exact fun b h => (fits_handler b h).mpr ((fits_handler _ _).mp hr)
  have hfits : Fits (s.cpus c).proc (ops ++ op :: k) (s.cpus c).thread.bare (s.cpus c).thread.held := by
    have hme : ∀ {p q : Slot}, (s.cpus c).proc = some p → (s.cpus c).proc = some q → q = p :=
      fun hp hq => Option.some.inj (hq.symm.trans hp)
    cases f with
    | pushOff =>
      cases hf
      exact hrest _ _
    | popOff =>
      simp only [Call.code] at hf
      split_ifs at hf with hb
      cases hf
      exact ⟨hb, hrest _ _⟩
    | acquire l =>
      cases hf
      exact ⟨Nat.succ_pos _, fun _ => hrest _ _⟩
    | release l =>
      cases hf
      exact fun _ => ⟨Nat.succ_pos _, hrest _ _⟩
    | yield =>
      obtain ⟨p, hp, rfl⟩ := Option.map_eq_some_iff.mp hf
      refine ⟨Nat.succ_pos _, fun _ => ⟨fun q hq => ⟨?_, trivial⟩, fun q _ _ => ⟨Nat.one_pos, hrest _ _⟩⟩⟩
      rw [hme hp hq]
      exact Finset.mem_insert_self _ _
    | sleep lk =>
      simp only [Call.code] at hf
      split_ifs at hf with hlk
      obtain ⟨p, hp, rfl⟩ := Option.map_eq_some_iff.mp hf
      refine ⟨Nat.succ_pos _, fun hnot _ => ⟨Nat.succ_pos _, fun q hq => ⟨?_, trivial⟩, fun q _ _ =>
        ⟨Nat.one_pos, Nat.succ_pos _, fun _ => hrest _ _⟩⟩⟩
      rw [hme hp hq]
      exact Finset.mem_erase.mpr ⟨fun e => hnot (e ▸ hlk), Finset.mem_insert_self _ _⟩
    | exit lk =>
      simp only [Call.code] at hf
      split_ifs at hf with hlk
      obtain ⟨p, hp, rfl⟩ := Option.map_eq_some_iff.mp hf
      refine ⟨Nat.succ_pos _, fun hnot => ⟨fun q hq => ?_, fun _ => ⟨Nat.succ_pos _, fun q _ => ?_⟩⟩⟩
      · rw [hme hp hq]
        exact ⟨Finset.mem_insert_self _ _, fun e => hnot (e ▸ hlk), trivial⟩
      · exact ⟨by decide, by decide⟩
  exact h.quiet htodo _ (h.here c).off (hfits.runs _) (fun _ => by rw [hi, hfits.intenaOf])
    fun p _ hx => absurd hx (hlv p)

/-- `p->state` changes under `p->lock` while the process waits, or stays `RUNNING`. -/
theorem write (htodo : (s.cpus c).thread.todo = op :: k) (hop : op = .body ∨ op = .handler)
    {x : ProcState} (hheld : .proc p ∈ (s.cpus c).thread.held) (hx : changes (s.state p) x = true)
    {context : Slot → Thread L} {frozen : Slot → Bool}
    (hcontext : ∀ q, context q = s.context q ∨ context q = .fresh q) :
    Inv ⟨s.cpus, context, s.locks, update s.state p x, frozen⟩ := by
  -- whoever leaves holds its lock, which this CPU has
  have hrun : ∀ c', (s.cpus c').proc = some p → s.state p = .running := by
    intro c' hp
    refine (h.state c' p hp).resolve_right fun ⟨hm, hlv⟩ => ?_
    have hc := ((h.locks c _).mpr hheld).symm.trans ((h.locks c' _).mpr hm)
    rw [← Option.some.inj hc, htodo] at hlv
    rcases hop with rfl | rfl <;> exact hlv
  refine ⟨h.here, h.locks, h.uniq, fun c' q hq => ?_, fun q hq => ?_⟩
  · show update s.state p x q = _ ∨ _
    by_cases he : q = p
    · subst he
      rw [hrun c' hq] at hx
      rw [update_self]
      cases x <;> first | exact .inl rfl | cases hx
    · rw [update_of_ne he]
      exact h.state c' q hq
  · show Parked (some q) q (context q)
    rcases hcontext q with e | e <;> rw [e]
    · exact h.parked q hq
    · exact fresh_parked q

theorem step {a : Act L} (hs : Intr.step nproc s c a = some s') : Inv s' := by
  have hl := h.here c
  unfold Intr.step at hs
  simp only at hs
  split at hs
  · rename_i op k htodo
    exact h.exec htodo hs
  · rename_i op k htodo
    split_ifs at hs with hsie
    cases hs
    -- interrupts are on, so that the thread below the handler has nothing outstanding
    have hn : (s.cpus c).noff = 0 := Nat.eq_zero_of_not_pos fun hn => by simp [hl.off hn] at hsie
    obtain ⟨-, hbare, hheld⟩ := h.depth_zero (hl.noff.symm.trans hn)
    refine h.quiet htodo (.handler :: op :: k) (fun _ => rfl) ((fits_handler _ _).mpr ?_)
      (fun hn' => absurd hn hn'.ne') fun p hp => by simp [hheld] at hp
    have := h.runs htodo
    rwa [hsie, hbare, hheld] at this
  · rename_i k htodo
    split_ifs at hs with hd
    cases hs
    obtain ⟨hn, hbare, hheld⟩ := h.depth_zero hd
    refine h.quiet htodo k (fun hn' => absurd hn hn'.ne') ?_ (fun hn' => absurd hn hn'.ne') fun _ _ =>
      False.elim
    rw [hbare, hheld]
    exact (fits_handler _ _).mp (h.runs htodo)
  · rename_i on k htodo
    split_ifs at hs with hd
    cases hs
    have hn := (h.depth_zero hd).1
    have : Inv (s.setCpu c { (s.cpus c).goto (.body :: k) with sie := on }) :=
      h.quiet htodo (.body :: k) (fun hn' => absurd hn hn'.ne') trivial (fun _ => rfl) fun _ _ => id
    rwa [← htodo] at this
  · rename_i f op k htodo
    split_ifs at hs with hop
    obtain ⟨ops, hf, rfl⟩ := Option.map_eq_some_iff.mp hs
    exact h.call htodo hop hf
  · rename_i p x z op k htodo
    split_ifs at hs with hc <;> cases hs
    · refine h.write htodo hc.1 hc.2.1 hc.2.2 fun q => ?_
      by_cases he : q = p
      · rw [he]
        exact .inr (update_self ..)
      · exact .inl (update_of_ne he ..)
    · exact h.write htodo hc.1 hc.2.1 hc.2.2 fun q => .inl rfl
  · cases hs

end Inv

theorem boot_inv : Inv (boot L) where
  here _ := ⟨rfl, fun hn => absurd rfl hn.ne', ⟨rfl, rfl, rfl⟩, nofun, nofun⟩
  locks _ _ := iff_of_false nofun (Finset.notMem_empty _)
  uniq := nofun
  state := nofun
  parked p _ := fresh_parked p

theorem reachable_inv (h : (machine L nproc).Reachable s) : Inv s := by
  refine h.invariant (fun s hs => ?_) fun s a s' hi _ hs => hi.step hs
  rw [show s = boot L from hs]
  exact boot_inv

/-! ## Interrupts follow the thread -/

omit [DecidableEq L] in
theorem setCpu_cpus (s : State L) (c : CpuId) (u : Cpu L) : (s.setCpu c u).cpus c = u := update_self ..

theorem exec_noff (hs : exec nproc s c k op = some s') (hop : op ≠ .popOff) :
    (s.cpus c).noff ≤ (s'.cpus c).noff := by
  cases op <;> simp only [exec, Option.map_eq_some_iff, Option.bind_eq_some_iff] at hs <;>
    grind [setCpu_cpus, Cpu.goto, Cpu.pushOff]

theorem popOff_of_step {a : Act L} (hs : step nproc s c a = some s') (hn : 0 < (s.cpus c).noff)
    (hz : (s'.cpus c).noff = 0) : a = .go ∧ ∃ k, (s.cpus c).thread.todo = .popOff :: k := by
  unfold step at hs
  simp only at hs
  split at hs
  · rename_i op k htodo
    refine ⟨rfl, k, ?_⟩
    rw [htodo]
    by_contra hop
    have := exec_noff hs fun e => hop (e ▸ rfl)
    omega
  all_goals grind [setCpu_cpus, Cpu.goto, Option.map_eq_some_iff]

/-- **Interrupt-enable nesting follows the kernel thread**: interrupts are off while `noff > 0`; `noff` counts
the spinlocks and other `push_off`s; when it falls back to 0, interrupts are as they were at the outermost
`push_off` of the process, on whatever CPU; no thread panics in `pop_off`. -/
theorem interrupts_follow_thread (h : (machine L nproc).Reachable s) (c : CpuId) :
    (0 < (s.cpus c).noff → (s.cpus c).sie = false) ∧
    (s.cpus c).noff = {l | s.locks l = some c}.ncard + (s.cpus c).thread.bare ∧
    (∀ p on a s', (s.cpus c).proc = some p → (s.cpus c).thread.outer = some on →
      step nproc s c a = some s' → 0 < (s.cpus c).noff → (s'.cpus c).noff = 0 →
      (s'.cpus c).sie = on) ∧
    ∀ msg k, (s.cpus c).thread.todo = .panic msg :: k →
      msg ≠ "pop_off" ∧ msg ≠ "pop_off - interruptible" := by
  have hi := reachable_inv h
  have hl := hi.here c
  refine ⟨hl.off, ?_, fun p on a s' hp ho hs hn hz => ?_, fun msg k htodo => hi.runs htodo⟩
  · have hset : {l | s.locks l = some c} = ((s.cpus c).thread.held : Set (Lock L)) :=
      Set.ext fun l => hi.locks c l
    rw [hset, Set.ncard_coe_finset, hl.noff, Thread.depth]
  · obtain ⟨rfl, k, htodo⟩ := popOff_of_step hs hn hz
    have hon := hi.intena htodo (by rw [hp]; rfl) hn ho
    simp only [step, htodo, exec, Cpu.popOff, hl.off hn, Bool.false_eq_true, if_false,
      show ¬ (s.cpus c).noff < 1 by omega] at hs
    cases hs
    simp only [State.setCpu, update_self] at hz ⊢
    simp only [hz, true_and]
    rw [← hon]
    show (if (s.cpus c).intena = true then true else false) = (s.cpus c).intena
    cases (s.cpus c).intena <;> rfl

/-- A process turns interrupts on, gives up CPU 0 and goes on on CPU 1. -/
def migration : List (CpuId × Act Empty) :=
  let go (c n : Nat) : List (CpuId × Act Empty) := List.replicate n (c, .go)
  go 0 8 ++ [(0, .intrSet true), (0, .call .yield)] ++ go 0 7 ++ go 1 8

theorem interrupts_follow_migration : ∃ s s' : State Empty, (machine Empty 1).Reachable s ∧
    (s.cpus 1).proc = some 0 ∧ step 1 s 1 .go = some s' ∧ (s'.cpus 1).sie = true := by
  obtain ⟨s, hr, hs⟩ := Lib.Lts.reachable_of_execs (T := machine Empty 1) migration (fun s =>
    (s.cpus 1).proc == some 0 && (s.cpus 1).thread.outer == some true && (s.cpus 1).noff == 1 &&
      ((step 1 s 1 .go).map fun s' => (s'.cpus 1).noff) == some 0) rfl (by decide)
  simp only [Bool.and_eq_true, beq_iff_eq] at hs
  obtain ⟨⟨⟨hp, ho⟩, hn⟩, hz⟩ := hs
  obtain ⟨s', hs', hz⟩ := Option.map_eq_some_iff.mp hz
  exact ⟨s, s', hr, hp, hs', (interrupts_follow_thread hr 1).2.2.1 0 true .go s' hp ho hs' (by omega) hz⟩

end Xv6Freezer.Intr

import Xv6Freezer.Kernel.Forest
import Xv6Freezer.Kernel.Pid

/-! # From `exit` to `wait`

A call `exit(status)` stays on the stack until the process is a zombie, and a zombie keeps `status` and its
pid until a `wait` takes it (`Exits`), whatever other processes do.
-/

namespace Xv6Freezer

open Function (update update_self update_of_ne)

variable {M : Client} {init : M.Data → Prop} {s s' : State M} {c : CpuId} {p q r i j : Slot}
  {f g : Frame M} {rest : List (Frame M)} {a : Act M} {instr : Instr M} {status pid : Int}

/-! ## Frames that stay -/

theorem exec_jump_kst {k : List (Frame M)} (he : exec s c f rest (.jump k) = some s')
    (hon : (s.cpus c).on = some q) : s'.kst q = k ++ rest := by
  cases he
  exact State.setStack_kst_of_eq _ hon

/-- **A system call under way stays on its stack** until its own next instruction. -/
theorem kstep_fixed (h : Inv s) (hl : SysInv s) (hf : s.stackOf c = f :: rest)
    (hs : kstep s c a = some s') (hm : g ∈ s.kst q) (hg : g.isFixed = true) :
    g ∈ s'.kst q ∨ (s.cpus c).on = some q ∧ f = g ∧ ∃ x instr, a = .go x ∧
      code s c x f = some instr ∧ exec s c f rest instr = some s' ∧
      (s'.kst q = instr.next ++ rest ∨ ∃ msg, s'.kst q = .panic msg f :: rest) := by
  obtain ⟨instr, hi, he⟩ := kstep_instr hf hs
  by_cases hon : (s.cpus c).on = some q
  · rw [← State.stackOf_of_on hon, hf] at hm
    have hk := kstep_kst_self h hf hi he hon
    rcases List.mem_cons.mp hm with rfl | hm
    · cases a with
      | go x => exact .inr ⟨hon, rfl, x, instr, rfl, hi, he, hk⟩
      | call call =>
        simp only [instrOf] at hi
        split at hi
        · cases hg
        · cases hi
      | intr k =>
        simp only [instrOf] at hi
        split at hi <;> cases hi
        exact .inl (by simp [exec_jump_kst he hon])
      | timer =>
        simp only [instrOf] at hi
        (repeat' split at hi) <;> cases hi
        exact .inl (by simp [exec_jump_kst he hon])
    · refine .inl ?_
      rcases hk with e | ⟨msg, e⟩ <;> rw [e]
      · exact List.mem_append_right _ hm
      · exact .tail _ hm
  · rcases kstep_kst_other h hf hi he hon with e | ⟨-, hoff, hctx⟩
    · rw [e]; exact .inl hm
    · rcases hl q g hm hg with ⟨c', hon'⟩ | ⟨-, hctx'⟩
      · exact absurd hon' (hoff c')
      · rw [← hctx', hctx] at hm
        rw [List.mem_singleton.mp hm] at hg
        cases hg

/-! ## The delivery of a status -/

/-- The program points of `exit` before the process is a zombie. -/
def ExitPc.before : ExitPc → Bool
  | .relWait | .dead => false
  | _ => true

theorem ExitPc.isFixed_of_before {pc : ExitPc} (h : pc.before = true) :
    (Frame.exit p status pc : Frame M).isFixed = true := by
  cases pc <;> first | rfl | cases h

/-- Process `p` is in `exit(status)`, or a panic has stopped it there. -/
def Exiting (s : State M) (p : Slot) (status : Int) : Prop :=
  (∃ pc : ExitPc, pc.before = true ∧ .exit p status pc ∈ s.kst p) ∨ ∃ msg g, .panic msg g ∈ s.kst p

/-- Process `p` has called `exit(status)` and no `wait` has taken it yet. -/
structure Exits (s : State M) (p : Slot) (status pid : Int) : Prop where
  pid_eq : (s.procs p).pid = pid
  stage : Exiting s p status ∨ (s.procs p).state = .zombie ∧ (s.procs p).xstate = status

theorem Exiting.sysLive (hx : Exiting s p status) (hl : SysInv s) : SysLive s p := by
  rcases hx with ⟨pc, hpc, hm⟩ | ⟨msg, g, hm⟩
  · exact hl p _ hm (ExitPc.isFixed_of_before hpc)
  · exact hl p _ hm rfl

theorem exitCode_goes_on {pc : ExitPc} (hpc : pc.before = true) (hz : pc ≠ .zombie) :
    (∃ pc' : ExitPc, pc'.before = true ∧ .exit p status pc' ∈ (exitCode s p status pc).next) ∨
      ∃ msg g, .panic msg g ∈ (exitCode s p status pc).next := by
  cases pc with
  | zombie => exact absurd rfl hz
  | relWait | dead => cases hpc
  | _ =>
    simp only [exitCode]
    (repeat' split) <;> simp only [Instr.next, Instr.jump, Instr.fail] <;> first
      | (refine .inl ⟨_, ?_, List.mem_cons_self⟩; rfl)
      | (refine .inl ⟨_, ?_, List.mem_cons_of_mem _ (.head _)⟩; rfl)
      | exact .inr ⟨_, _, List.mem_cons_self⟩

theorem Exiting.step (hx : Exiting s p status) (h : Inv s) (hl : SysInv s)
    (hf : s.stackOf c = f :: rest) (hs : kstep s c a = some s') :
    Exiting s' p status ∨ (s'.procs p).state = .zombie ∧ (s'.procs p).xstate = status := by
  rcases hx with ⟨pc, hpc, hm⟩ | ⟨msg, g, hm⟩
  · rcases kstep_fixed h hl hf hs hm (ExitPc.isFixed_of_before hpc) with
      hm' | ⟨hon, rfl, x, instr, rfl, hi, he, e | ⟨msg, e⟩⟩
    · exact .inl (.inl ⟨pc, hpc, hm'⟩)
    · cases hi
      by_cases hz : pc = .zombie
      · subst hz
        cases he
        exact .inr ⟨by simp [State.apply, State.setProc], by simp [State.apply, State.setProc]⟩
      · refine .inl ?_
        rw [Exiting, e]
        rcases exitCode_goes_on hpc hz with ⟨pc', hpc', hm'⟩ | ⟨msg, g, hm'⟩
        · exact .inl ⟨pc', hpc', List.mem_append_left _ hm'⟩
        · exact .inr ⟨msg, g, List.mem_append_left _ hm'⟩
    · exact .inl (.inr ⟨msg, _, by rw [e]; exact .head _⟩)
  · rcases kstep_fixed h hl hf hs hm rfl with hm' | ⟨-, rfl, x, instr, -, hi, -⟩
    · exact .inl (.inr ⟨msg, g, hm'⟩)
    · cases hi

theorem visit_xstate (op : ScanOp) (q : Proc M) : (visit op q).1.xstate = q.xstate := by
  cases op <;> simp only [visit, wakeupVisit, killVisit, sysFreezeVisit, sysUnfreezeVisit] <;>
    (repeat' split) <;> rfl

theorem zombie_step (h : Inv s) (hf : s.stackOf c = f :: rest) (hs : kstep s c a = some s')
    (hno : event s (c, a) ≠ .reaps p) (hz : (s.procs p).state = .zombie) :
    (s'.procs p).state = .zombie ∧ (s'.procs p).xstate = (s.procs p).xstate := by
  have hstep := kstep_stepped_of h hf hs
  rcases hstep.slot h hf p with hchg | ⟨-, ret, -, e⟩
  · have hlive : (s.procs p).state.Live := .inr (.inr (.inr hz))
    have hhold := StackOk.fork_holds h hf
    -- a zombie that still executes is on its way out of `exit`
    have hrun : (s.cpus c).on = some p → f.stateIn ≠ .running := fun hon e => by
      rw [((h.stack_cons hf).ok hon).2, e] at hz
      cases hz
    have hfree := kstep_unused h hs hf hchg
    generalize s'.procs p = x at hchg hfree ⊢
    cases hchg with
    | visit op =>
      refine ⟨?_, visit_xstate op _⟩
      rcases visit_state op (s.procs p) with e | ⟨e, -⟩
      · rw [e, hz]
      · rw [hz] at e; cases e
    | yield hon => exact absurd rfl (hrun hon)
    | sleep chan hon => exact absurd rfl (hrun hon)
    | zombie status hon => exact absurd rfl (hrun hon)
    | pick found hfr hr => rw [hz] at hr; cases hr
    | alloc hu => exact absurd hu hlive.ne_unused
    | undo | run => exact absurd (hhold _ _ rfl p rfl).1 hlive.ne_used
    | reap _ =>
      rcases hfree rfl with e | e | ⟨r, e⟩
      · exact absurd e hlive.ne_unused
      · exact absurd e hno
      · cases e
    | _ => exact ⟨hz, rfl⟩
  · rw [e]; exact ⟨hz, rfl⟩

/-- **One step**: the status is on its way as long as no `wait` takes the process. -/
theorem Exits.step (hx : Exits s p status pid) (h : Inv s) (hl : SysInv s)
    (hs : kstep s c a = some s') (hno : event s (c, a) ≠ .reaps p) : Exits s' p status pid := by
  obtain ⟨f, rest, hf, hstep⟩ := kstep_stepped h hs
  have hlive : (s.procs p).state.Live := by
    rcases hx.stage with hx | ⟨hz, -⟩
    · rcases hx.sysLive hl with ⟨c', hon⟩ | ⟨hlive, -⟩
      · exact h.live_of_on hon
      · exact hlive.1
    · exact .inr (.inr (.inr hz))
  refine ⟨?_, ?_⟩
  · rw [← hx.pid_eq]
    rcases kstep_pid h hs p with ⟨e, -⟩ | ⟨-, hu⟩ | ⟨hg, -⟩
    · exact e
    · rcases hstep.slot h hf p with hchg | ⟨-, ret, -, e⟩
      · rcases kstep_unused h hs hf hchg hu with e | e | ⟨r, rfl⟩
        · exact absurd e hlive.ne_unused
        · exact absurd e hno
        · exact absurd (StackOk.fork_holds h hf _ _ rfl p rfl).1 hlive.ne_used
      · rw [e]
    · rcases kstep_givesPid h hs with ⟨hg', -⟩ | ⟨i, hg', -, hu, -⟩
      · rw [hg] at hg'; cases hg'
      · rw [hg] at hg'
        cases hg'
        exact absurd hu hlive.ne_unused
  · rcases hx.stage with hx | ⟨hz, hst⟩
    · exact hx.step h hl hf hs
    · obtain ⟨hz', e⟩ := zombie_step h hf hs hno hz
      exact .inr ⟨hz', e.trans hst⟩

def TableInv (s : State M) : Prop := Inv s ∧ SysInv s ∧ Forest s

theorem kstep_tableInv (h : TableInv s) (hs : kstep s c a = some s') : TableInv s' :=
  ⟨kstep_inv h.1 hs, kstep_sysInv h.1 h.2.1 hs, h.2.2.step h.1 h.2.1 hs⟩

theorem Exits.run (hx : Exits s p status pid) (h : TableInv s)
    (hr : (kernel M init).RunIf (fun t b => event t b ≠ .reaps p) s s') :
    TableInv s' ∧ Exits s' p status pid :=
  hr.carry (I := TableInv) (P := fun t => Exits t p status pid) h hx
    (fun _ _ _ h hs => kstep_tableInv h hs)
    fun _ _ _ h hx hno hs => hx.step h.1 h.2.1 hs hno

theorem exits_of_call (h : Inv s) (hon : (s.cpus c).on = some p)
    (hs : kstep s c (.call (.exit status)) = some s') :
    Exits s' p status (s.procs p).pid := by
  obtain ⟨f, rest, hf, -⟩ := kstep_stepped h hs
  have hp : myproc s c = some p := (h.busy c p hon).1
  simp only [kstep, hf, hp] at hs
  split at hs
  · rename_i b q e
    cases e
    simp only [callCode, Option.bind_some] at hs
    have hk := exec_jump_kst hs hon
    cases hs
    refine ⟨by simp [State.apply], .inl (.inl ⟨.start, rfl, ?_⟩)⟩
    rw [hk]
    exact .head _
  · cases hs

theorem SysLive.ne_zombie {r : Slot} {addr : Nat} (hx : SysLive s p) (h : Inv s)
    (hf : s.stackOf c = .wait r addr (.look p) :: rest) : (s.procs p).state ≠ .zombie := by
  intro hz
  rcases hx with ⟨c', hon⟩ | ⟨hlive, -⟩
  · -- a zombie that executes holds its own lock, which `wait` holds
    have hst := h.stack c'
    rw [StackOk, hon] at hst
    have hheld := hst.1.held_of_stateIn (by rw [← hst.2, hz]; decide)
    have hmine : Lock.proc p ∈ heldBy (s.stackOf c) := by simp [hf, Frame.held, WaitPc.held]
    by_cases hc : c' = c
    · subst hc
      rw [((h.stack_cons hf).ok hon).2] at hz
      cases hz
    · exact h.not_mem_of_ne hmine hc hheld
  · exact hlive.2 hz

theorem Exits.delivered (hx : Exits s p status pid) (h : Inv s) (hl : SysInv s)
    (he : event s (c, a) = .reaps p) :
    (s.procs p).pid = pid ∧ (s.procs p).xstate = status := by
  refine ⟨hx.pid_eq, ?_⟩
  obtain ⟨r, addr, rest, hf, hz⟩ := event_reaps he
  rcases hx.stage with hx | ⟨-, e⟩
  · exact absurd hz ((hx.sysLive hl).ne_zombie h hf)
  · exact e

end Xv6Freezer

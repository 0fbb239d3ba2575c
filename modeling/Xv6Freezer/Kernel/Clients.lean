import Xv6Freezer.Kernel.Exit

/-! # Program points of the code outside `proc.c`

The program points at which a process is outside `proc.c`, those it returns to from `sleep` included. A step
leaves them alone unless the process executes a statement of that code or enters it (`kstep_clients`).
-/

namespace Xv6Freezer

variable {M : Client} {init : M.Data → Prop} {s s' : State M} {c : CpuId} {p q : Slot}
  {f g : Frame M} {rest : List (Frame M)} {a : Act M} {instr : Instr M}

/-- The program point outside `proc.c` that a frame is at, or returns to. -/
def Frame.client? : Frame M → Option M.Frame
  | .client k => some k
  | .sleep _ _ _ _ ret | .schedCheck ret | .schedSwtch _ ret | .panic _ ret => ret.client?
  | _ => none

/-- The program points outside `proc.c` on a stack, the innermost first. -/
def clients (st : List (Frame M)) : List M.Frame := st.filterMap Frame.client?

@[simp] theorem clients_nil : clients ([] : List (Frame M)) = [] := rfl

theorem clients_cons (f : Frame M) (st : List (Frame M)) :
    clients (f :: st) = f.client?.toList ++ clients st := by
  cases h : f.client? <;> simp [clients, h]

theorem clients_append (st st' : List (Frame M)) :
    clients (st ++ st') = clients st ++ clients st' := List.filterMap_append

/-- A program point at which code outside `proc.c` is entered. -/
def Client.Starts (M : Client) (k : M.Frame) : Prop :=
  M.entry k = true ∨ M.handler k = true ∨ (∃ n, k = M.fileclose n) ∨ (∃ n, k = M.iput n) ∨
    k = M.fsinit

theorem code_clients {x : Nat} (hok : f.Ok q) (hc : ∀ g, f ≠ .client g)
    (hi : code s c x f = some instr) : clients instr.next = f.client?.toList ∨
      ∃ k, M.Starts k ∧ clients instr.next = k :: f.client?.toList := by
  cases f with
  | scheduler pc => exact hok.elim
  | body | panic => cases hi
  | client g => exact absurd rfl (hc g)
  | schedSwtch p ret =>
    cases hi
    exact .inl (by simp [Instr.next, clients_cons, Frame.client?])
  | forkret r pc =>
    cases hi
    cases pc <;> simp only [forkretCode] <;> (repeat' split) <;>
      first
        | exact .inl rfl
        | exact .inr ⟨_, .inr (.inr (.inr (.inr rfl))), rfl⟩
  | yield r pc => cases hi; cases pc <;> exact .inl rfl
  | schedCheck ret =>
    cases hi
    simp only [schedCode]
    (repeat' split) <;>
      exact .inl (by simp [Instr.next, Instr.jump, Instr.fail, clients_cons, Frame.client?])
  | sleep r chan lk pc ret =>
    cases hi
    cases pc <;> exact .inl (by simp [sleepCode, Instr.next, clients_cons, Frame.client?])
  | scan op i pc =>
    cases hi
    cases pc with
    | test => simp only [scanCode]; (repeat' split) <;> exact .inl rfl
    | visit => exact .inl rfl
    | rel r => cases r <;> exact .inl rfl
  | fork r pc =>
    cases hi
    cases pc <;> simp only [forkCode] <;> (repeat' split) <;> exact .inl rfl
  | exit r status pc =>
    cases hi
    cases pc <;> simp only [exitCode] <;> (repeat' split) <;>
      first
        | exact .inl rfl
        | exact .inr ⟨_, .inr (.inr (.inl ⟨_, rfl⟩)), rfl⟩
        | exact .inr ⟨_, .inr (.inr (.inr (.inl ⟨_, rfl⟩))), rfl⟩
  | wait r addr pc =>
    cases pc <;> simp only [code, waitCode] at hi <;> (repeat' split at hi) <;> cases hi <;>
      (try simp only [callSleep]) <;> (repeat' split) <;> exact .inl rfl

theorem clientCode_clients {x : Nat} {g : M.Frame} (hp : myproc s c = some p)
    (hi : clientCode s c g x = some instr) :
    ∃ o, (M.code g (myproc s c) (mypid s c) s.data x).Next o ∧ clients instr.next = o.toList := by
  simp only [clientCode] at hi
  cases hc : M.code g (myproc s c) (mypid s c) s.data x with
  | sleep n l k =>
    rw [hc] at hi
    cases hi
    simp only [callSleep, hp]
    exact ⟨some k, rfl, rfl⟩
  | killed k =>
    rw [hc] at hi
    simp only [hp] at hi
    split at hi <;> cases hi
    exact ⟨_, ⟨_, rfl⟩, rfl⟩
  | acquire l k => rw [hc] at hi; cases hi; exact ⟨some k, rfl, rfl⟩
  | release l k => rw [hc] at hi; cases hi; exact ⟨some k, rfl, rfl⟩
  | wakeup n k => rw [hc] at hi; cases hi; exact ⟨some k, rfl, rfl⟩
  | update d k => rw [hc] at hi; cases hi; exact ⟨some k, rfl, rfl⟩
  | ret => rw [hc] at hi; cases hi; exact ⟨none, rfl, rfl⟩

theorem Frame.isFixed_of_client? {k : M.Frame} (h : g.client? = some k) : g.isFixed = true := by
  cases g <;> first | rfl | cases h

theorem SysInv.sysLive_of_client (hl : SysInv s) {k : M.Frame} (hk : k ∈ clients (s.kst q)) :
    SysLive s q := by
  obtain ⟨g, hg, hgk⟩ := List.mem_filterMap.mp hk
  exact hl q g hg (Frame.isFixed_of_client? hgk)

theorem SysInv.live_of_client (hl : SysInv s) (h : Inv s) {k : M.Frame} (hk : k ∈ clients (s.kst q)) :
    (s.procs q).state.Live := by
  rcases hl.sysLive_of_client hk with ⟨c, hon⟩ | ⟨hlive, -⟩
  · exact h.live_of_on hon
  · exact hlive.1

theorem kstep_clients (h : Inv s) (hl : SysInv s) (hf : s.stackOf c = f :: rest)
    (hs : kstep s c a = some s') (q : Slot) :
    (clients (s'.kst q) = clients (s.kst q) ∧ ((s.cpus c).on = some q → s'.data = s.data)) ∨
      (s.cpus c).on = some q ∧
        ((∃ k, M.Starts k ∧ clients (s'.kst q) = k :: clients (s.kst q) ∧ s'.data = s.data) ∨
          ∃ g x o, f = .client g ∧ a = .go x ∧
            (M.code g (some q) (s.procs q).pid s.data x).Next o ∧
            s'.data = (M.code g (some q) (s.procs q).pid s.data x).data s.data ∧
            clients (s.kst q) = g :: clients rest ∧ clients (s'.kst q) = o.toList ++ clients rest) := by
  obtain ⟨instr, hi, he⟩ := kstep_instr hf hs
  by_cases hon : (s.cpus c).on = some q
  · have hkst : s.kst q = f :: rest := by rw [← hf, State.stackOf_of_on hon]
    have hp : myproc s c = some q := (h.busy c q hon).1
    have hdata : (∀ g x, f = .client g → a ≠ .go x) → s'.data = s.data := by
      intro hne
      refine (kstep_data hs hf).resolve_right ?_
      rintro ⟨x, g, _, _, ha, hg, _⟩
      exact hne g x hg ha
    rw [hkst, clients_cons]
    rcases kstep_kst_self h hf hi he hon with e | ⟨msg, e⟩
    · rw [e, clients_append]
      cases a with
      | go x =>
        by_cases hc : ∃ g, f = .client g
        · obtain ⟨g, rfl⟩ := hc
          have hd := clientCode_data hi
          obtain ⟨o, ho, hcl⟩ := clientCode_clients hp hi
          have hpid : mypid s c = (s.procs q).pid := by simp [mypid, hp]
          rw [hp, hpid] at hd ho
          refine .inr ⟨hon, .inr ⟨g, x, o, rfl, rfl, ho, ?_, rfl, by rw [hcl]⟩⟩
          rw [exec_data he, hd]
        · rcases code_clients ((h.stack_cons hf).ok hon).1 (fun g e => hc ⟨g, e⟩) hi with
            e' | ⟨k, hk, e'⟩
          · exact .inl ⟨by rw [e'], fun _ => hdata fun g _ e => absurd ⟨g, e⟩ hc⟩
          · exact .inr ⟨hon, .inl ⟨k, hk, by rw [e']; rfl, hdata fun g _ e => absurd ⟨g, e⟩ hc⟩⟩
      | call call =>
        simp only [instrOf] at hi
        split at hi
        · cases call with
          | op k =>
            simp only [callCode] at hi
            split at hi <;> cases hi
            rename_i hent
            exact .inr ⟨hon, .inl ⟨k, .inl hent, rfl, hdata (by simp)⟩⟩
          | _ =>
            simp only [callCode] at hi
            (repeat' split at hi) <;> cases hi <;> exact .inl ⟨rfl, fun _ => hdata (by simp)⟩
        · cases hi
      | intr k =>
        simp only [instrOf] at hi
        split at hi <;> cases hi
        rename_i hk
        refine .inr ⟨hon, .inl ⟨k, .inr (.inl hk.2), ?_, hdata (by simp)⟩⟩
        simp [Instr.next, Instr.jump, clients_cons, Frame.client?]
      | timer =>
        simp only [instrOf] at hi
        (repeat' split at hi) <;> cases hi
        exact .inl ⟨by simp [Instr.next, Instr.jump, clients_cons, Frame.client?],
          fun _ => hdata (by simp)⟩
    · -- a panic updates nothing
      refine .inl ⟨by rw [e, clients_cons]; rfl, fun _ => ?_⟩
      refine (kstep_data hs hf).resolve_right ?_
      rintro ⟨_, g, _, k, _, rfl, _, _, hst⟩
      rcases kstep_on h hf hs hon with hon' | ⟨-, _, hg, -⟩
      · rw [State.stackOf_of_on hon', e] at hst
        cases hst
      · cases hg
  · rcases kstep_kst_other h hf hi he hon with e | ⟨e, hoff, hctx⟩
    · exact .inl ⟨by rw [e], fun hon' => absurd hon' hon⟩
    · -- a process that starts was not in any code before
      refine .inl ⟨?_, fun hon' => absurd hon' hon⟩
      rw [e]
      symm
      rw [show clients [(.forkret q .rel : Frame M)] = [] from rfl]
      by_contra hne
      obtain ⟨k, hk⟩ := List.exists_mem_of_ne_nil _ hne
      obtain ⟨g, hg, hgk⟩ := List.mem_filterMap.mp hk
      rcases hl q g hg (Frame.isFixed_of_client? hgk) with ⟨c', hon'⟩ | ⟨-, hctx'⟩
      · exact hoff c' hon'
      · rw [← hctx', hctx] at hg
        rw [List.mem_singleton.mp hg] at hgk
        cases hgk

/-! ## The flag `killed` of a process in this code -/

theorem kstep_killed_stays {k : M.Frame} (h : Inv s)
    (hl : SysInv s) (hs : kstep s c a = some s') (hk : k ∈ clients (s.kst q))
    (hz : (s.procs q).killed ≠ 0) : (s'.procs q).killed ≠ 0 := by
  obtain ⟨f, rest, hf, hstep⟩ := kstep_stepped h hs
  rcases hstep.slot h hf q with hchg | ⟨-, ret, -, e⟩
  · generalize hq : s'.procs q = x at hchg
    cases hchg with
    | visit op =>
      cases op <;> simp only [visit, wakeupVisit, killVisit, sysFreezeVisit, sysUnfreezeVisit] <;>
        (repeat' split) <;> first | exact hz | exact one_ne_zero
    | setkilled hon hfree => exact one_ne_zero
    | undo => exact absurd ((StackOk.fork_holds h hf) _ _ rfl q rfl).1 (hl.live_of_client h hk).ne_used
    | reap hzo => exact absurd hzo ((hl.sysLive_of_client hk).ne_zombie h hf)
    | _ => exact hz
  · rw [e]; exact hz

theorem kstep_killed_branch {g : M.Frame}
    {k : Bool → M.Frame} {x : Nat} (h : Inv s) (hf : s.stackOf c = .client g :: rest)
    (hon : (s.cpus c).on = some q) (hcode : M.code g (some q) (s.procs q).pid s.data x = .killed k)
    (hs : kstep s c (.go x) = some s') :
    clients (s'.kst q) = k (decide ((s.procs q).killed ≠ 0)) :: clients rest := by
  have hp : myproc s c = some q := (h.busy c q hon).1
  have hpid : mypid s c = (s.procs q).pid := by simp [mypid, hp]
  simp only [kstep, hf, code, clientCode, hp, hpid, hcode] at hs
  split at hs
  · cases hs
  · rw [Option.bind_some] at hs
    rw [exec_jump_kst hs hon]
    rfl

/-! ## Interrupt handlers on the scheduler's stack -/

theorem kstep_handler {c' : CpuId} {k : M.Frame} (h : Inv s) (hf : s.stackOf c = f :: rest)
    (hs : kstep s c a = some s') (hon : (s'.cpus c').on = none) (hm : .client k ∈ s'.stackOf c') :
    ((s.cpus c').on = none ∧ .client k ∈ s.stackOf c') ∨ M.handler k = true ∨
      (s.cpus c).on = none ∧ ∃ g x, f = .client g ∧ a = .go x ∧
        (M.code g (myproc s c) (mypid s c) s.data x).Next (some k) := by
  cases hon0 : (s.cpus c').on with
  | some q =>
    -- the process has just left the CPU, which is back in `scheduler`
    obtain ⟨instr, hi, he⟩ := kstep_instr hf hs
    rcases kstep_on h hf hs hon0 with e | ⟨rfl, ret, rfl, -⟩
    · rw [hon] at e
      cases e
    · cases a with
      | go x =>
        cases hi
        cases he
        simp [State.stackOf, (h.busy c' q hon0).2] at hm
      | _ =>
        rw [exec_on he (instrOf_quiet hi (by simp)).1, hon0] at hon
        cases hon
  | none =>
    rcases kstep_stackOf_mem h hf hs hm with hm | ⟨rfl, harises | ⟨i, rfl, hon', -⟩ | ⟨i, ret, -, e⟩⟩
    · exact .inl ⟨rfl, hm⟩
    · have hst := h.stack_cons hf
      simp only [StackOk, hon0] at hst
      obtain ⟨pc, hsched, -⟩ := hst
      have hok : f.IsScheduler pc ∨ f.OnScheduler := hsched.imp And.left And.left
      cases harises with
      | go hcode hg =>
        cases code_follows hcode hg with
        | client hnext => exact .inr (.inr ⟨hon0, _, _, rfl, rfl, hnext⟩)
        | _ => exact (hok.elim id id).elim
      | under => exact .inl ⟨rfl, hf ▸ List.mem_cons_self⟩
      | op hbody =>
        subst hbody
        exact (hok.elim id id).elim
      | intr hk => exact .inr (.inl hk)
    · rw [hon] at hon'
      cases hon'
    · cases e

/-- **What handlers on a scheduler's stack are at**: a property that their statements keep. -/
theorem handler_invariant {R : M.Frame → Prop} (hR : ∀ k, M.handler k = true → R k)
    (hnext : ∀ g self pid d x k, R g → (M.code g self pid d x).Next (some k) → R k)
    (h : (kernel M init).Reachable s) (hon : (s.cpus c).on = none) {k : M.Frame}
    (hm : .client k ∈ s.stackOf c) : R k := by
  suffices hsuff : Inv s ∧ ∀ c k, (s.cpus c).on = none → .client k ∈ s.stackOf c → R k from
    hsuff.2 c k hon hm
  refine h.invariant (I := fun t => Inv t ∧ ∀ c k, (t.cpus c).on = none → .client k ∈ t.stackOf c →
    R k) (fun t ht => ?_) ?_
  · obtain ⟨tf, pt, cwd, d, -, rfl⟩ := ht
    refine ⟨boot_inv tf pt cwd d, fun c k _ hm => ?_⟩
    simp [boot, State.stackOf] at hm
  · rintro t a t' ⟨hinv, hI⟩ - hs
    refine ⟨kstep_inv hinv hs, fun c k hon hm => ?_⟩
    obtain ⟨f, rest, hf, -⟩ := kstep_stepped hinv hs
    rcases kstep_handler hinv hf hs hon hm with ⟨hon, hm⟩ | hk | ⟨hon, g, x, rfl, -, hg⟩
    · exact hI c k hon hm
    · exact hR k hk
    · exact hnext g _ _ t.data x k (hI _ g hon (hf ▸ List.mem_cons_self)) hg

/-! ## Every program point -/

/-- Every program point outside `proc.c` has the property `J`. -/
structure AllAt (J : M.Frame → Prop) (s : State M) : Prop where
  procs : ∀ q k, k ∈ clients (s.kst q) → J k
  handlers : ∀ c k, (s.cpus c).on = none → .client k ∈ s.stackOf c → J k

theorem AllAt.executes {J : M.Frame → Prop} (hJ : AllAt J s) {g : M.Frame}
    (hf : s.stackOf c = .client g :: rest) : J g := by
  cases hon : (s.cpus c).on with
  | none => exact hJ.handlers c g hon (hf ▸ List.mem_cons_self)
  | some q =>
    refine hJ.procs q g ?_
    rw [← State.stackOf_of_on hon, hf, clients_cons]
    exact .head _

/-- A program point other than the one that CPU `c` executes, which is above `rest`. -/
inductive Elsewhere (s : State M) (c : CpuId) (rest : List (Frame M)) (k : M.Frame) : Prop
  | proc (q : Slot) (hne : (s.cpus c).on ≠ some q) (hk : k ∈ clients (s.kst q))
  | below (hk : k ∈ clients rest)
  | handler (c' : CpuId) (hon : (s.cpus c').on = none) (hk : .client k ∈ s.stackOf c')

/-- **An invariant of the data and of every program point**: it holds on entry, and a statement establishes it
for the next point and keeps it for all others. -/
theorem allAt_invariant {I : M.Data → Prop} {J : M.Data → M.Frame → Prop}
    (hinit : ∀ d, init d → I d) (hstarts : ∀ d k, I d → M.Starts k → J d k)
    (hself : ∀ g self pid d x, I d → J d g → I ((M.code g self pid d x).data d) ∧
      ∀ k, (M.code g self pid d x).Next (some k) → J ((M.code g self pid d x).data d) k)
    (hother : ∀ t c g rest x k, (kernel M init).Reachable t → t.stackOf c = .client g :: rest →
      Elsewhere t c rest k → I t.data → J t.data g → J t.data k →
      J ((M.code g (myproc t c) (mypid t c) t.data x).data t.data) k)
    (h : (kernel M init).Reachable s) : TableInv s ∧ I s.data ∧ AllAt (J s.data) s := by
  suffices hall : (kernel M init).Reachable s ∧ TableInv s ∧ I s.data ∧ AllAt (J s.data) s from hall.2
  refine h.invariant (I := fun t => (kernel M init).Reachable t ∧ TableInv t ∧ I t.data ∧ AllAt (J t.data) t)
    (fun t ht => ?_) ?_
  · refine ⟨⟨t, ht, .refl t⟩, reachable_forest ⟨t, ht, .refl t⟩, ?_⟩
    obtain ⟨tf, pt, cwd, d, hd, rfl⟩ := ht
    refine ⟨hinit d hd, fun q k hk => (by cases hk), fun c k _ hm => ?_⟩
    simp [boot, State.stackOf] at hm
  · rintro t ⟨c, a⟩ t' ⟨hr, hT, hI, hJ⟩ - hs
    have hr' := hr.trans (Lib.Lts.RunIf.tail (.refl t) trivial hs)
    replace hs : kstep t c a = some t' := hs
    obtain ⟨hinv, hl, -⟩ := id hT
    obtain ⟨f, rest, hf, -⟩ := kstep_stepped hinv hs
    -- the data after the step are those after the statement that is being executed
    have hdata : t'.data = t.data ∨ ∃ g x, f = .client g ∧
        t'.data = (M.code g (myproc t c) (mypid t c) t.data x).data t.data := by
      rcases kstep_data hs hf with e | ⟨x, g, d, k, -, rfl, hcode, e, -⟩
      · exact .inl e
      · exact .inr ⟨g, x, rfl, by rw [hcode, e]; rfl⟩
    have hI' : I t'.data := by
      rcases hdata with e | ⟨g, x, rfl, e⟩ <;> rw [e]
      · exact hI
      · exact (hself g _ _ t.data x hI (hJ.executes hf)).1
    have hkeep : ∀ k, Elsewhere t c rest k → J t.data k → J t'.data k := fun k helse hk => by
      rcases hdata with e | ⟨g, x, rfl, e⟩ <;> rw [e]
      · exact hk
      · exact hother t c g rest x k hr hf helse hI (hJ.executes hf) hk
    refine ⟨hr', kstep_tableInv hT hs, hI', fun q k hk => ?_, fun c' k hon hm => ?_⟩
    · rcases kstep_clients hinv hl hf hs q with ⟨e, hd⟩ | ⟨hon, ⟨k', hk', e, hd⟩ |
        ⟨g, x, o, rfl, -, ho, hd, hcl, e⟩⟩ <;> rw [e] at hk
      · by_cases hon : (t.cpus c).on = some q
        · rw [hd hon]
          exact hJ.procs q k hk
        · exact hkeep k (.proc q hon hk) (hJ.procs q k hk)
      · rcases List.mem_cons.mp hk with rfl | hk
        · exact hstarts _ k hI' hk'
        · rw [hd]
          exact hJ.procs q k hk
      · rcases List.mem_append.mp hk with hk | hk
        · obtain rfl : o = some k := Option.mem_toList.mp hk
          rw [hd]
          exact (hself g _ _ t.data x hI (hJ.executes hf)).2 k ho
        · exact hkeep k (.below hk) (hJ.procs q k (hcl ▸ List.mem_cons_of_mem _ hk))
    · rcases kstep_handler hinv hf hs hon hm with ⟨hon, hm⟩ | hk | ⟨-, g, x, rfl, rfl, hg⟩
      · exact hkeep k (.handler c' hon hm) (hJ.handlers c' k hon hm)
      · exact hstarts _ k hI' (.inr (.inl hk))
      · have hd : t'.data = (M.code g (myproc t c) (mypid t c) t.data x).data t.data := by
          obtain ⟨instr, hi, he⟩ := kstep_instr hf hs
          rw [exec_data he]
          exact clientCode_data hi
        rw [hd]
        exact (hself g _ _ t.data x hI (hJ.executes hf)).2 k hg

/-! ## Calls with numbers of their own -/

section Ticket

variable (M) (init) in
/-- The calls in progress are numbered: a statement keeps the number of its call, gives it the next one, or
ends the call. -/
structure Ticket where
  ident : M.Frame → Option Nat
  next : M.Data → Nat
  starts : ∀ k, M.Starts k → ident k = none
  code : ∀ g self pid d x, next d ≤ next ((M.code g self pid d x).data d) ∧
    ∀ k, (M.code g self pid d x).Next (some k) → ident k = none ∨ ident k = ident g ∨
      ident k = some (next d) ∧ next d < next ((M.code g self pid d x).data d)
  handlers : ∀ s c k, (kernel M init).Reachable s → (s.cpus c).on = none → .client k ∈ s.stackOf c →
    ident k = none

variable (T : Ticket M init)

/-- The numbers of the calls that a process is in. -/
def Ticket.of (s : State M) (q : Slot) : List Nat := (clients (s.kst q)).filterMap T.ident

/-- **No two calls have the same number.** -/
structure Ticket.Distinct (s : State M) : Prop where
  nodup : ∀ q, (T.of s q).Nodup
  apart : ∀ q q' i, q ≠ q' → i ∈ T.of s q → i ∉ T.of s q'
  lt : ∀ q i, i ∈ T.of s q → i < T.next s.data

variable {T}

theorem Ticket.Distinct.step (h : T.Distinct s) (hle : T.next s.data ≤ T.next s'.data)
    (hother : ∀ q', q' ≠ q → T.of s' q' = T.of s q')
    (hself : (T.of s' q).Sublist (T.of s q) ∨ ∃ l, l.Sublist (T.of s q) ∧ T.of s' q = T.next s.data :: l ∧
      T.next s.data < T.next s'.data) : T.Distinct s' := by
  -- a number is an old one, or the next one in the process that makes the step
  have hmem : ∀ q' i, i ∈ T.of s' q' → i ∈ T.of s q' ∨ q' = q ∧ i = T.next s.data ∧
      T.next s.data < T.next s'.data := by
    intro q' i hi
    by_cases hq : q' = q
    · subst hq
      rcases hself with hsub | ⟨l, hsub, e, hlt⟩
      · exact .inl (hsub.subset hi)
      · rw [e] at hi
        rcases List.mem_cons.mp hi with rfl | hi
        · exact .inr ⟨rfl, rfl, hlt⟩
        · exact .inl (hsub.subset hi)
    · exact .inl (hother q' hq ▸ hi)
  refine ⟨fun q' => ?_, fun q₁ q₂ i hne h₁ h₂ => ?_, fun q' i hi => ?_⟩
  · by_cases hq : q' = q
    · subst hq
      rcases hself with hsub | ⟨l, hsub, e, hlt⟩
      · exact (h.nodup q').sublist hsub
      · rw [e]
        refine List.nodup_cons.mpr ⟨fun hi => ?_, (h.nodup q').sublist hsub⟩
        exact Nat.lt_irrefl _ (h.lt q' _ (hsub.subset hi))
    · rw [hother q' hq]
      exact h.nodup q'
  · rcases hmem q₁ i h₁ with h₁ | ⟨rfl, rfl, -⟩ <;> rcases hmem q₂ _ h₂ with h₂ | ⟨rfl, e, -⟩
    · exact h.apart q₁ q₂ i hne h₁ h₂
    · exact Nat.lt_irrefl _ (e ▸ h.lt q₁ i h₁)
    · exact Nat.lt_irrefl _ (h.lt q₂ _ h₂)
    · exact hne rfl
  · rcases hmem q' i hi with hi | ⟨-, rfl, hlt⟩
    · exact (h.lt q' i hi).trans_le hle
    · exact hlt

theorem Ticket.distinct (h : (kernel M init).Reachable s) : T.Distinct s := by
  suffices hall : TableInv s ∧ T.Distinct s from hall.2
  refine h.invariant (I := fun t => TableInv t ∧ T.Distinct t) (fun t ht => ?_) ?_
  · refine ⟨reachable_forest ⟨t, ht, .refl t⟩, ?_⟩
    obtain ⟨tf, pt, cwd, d, -, rfl⟩ := ht
    exact ⟨fun _ => .nil, fun _ _ _ _ hi => (by cases hi), fun _ _ hi => (by cases hi)⟩
  · rintro t ⟨c, a⟩ t' ⟨hT, hD⟩ - hs
    replace hs : kstep t c a = some t' := hs
    obtain ⟨hinv, hl, -⟩ := id hT
    obtain ⟨f, rest, hf, -⟩ := kstep_stepped hinv hs
    have hle : T.next t.data ≤ T.next t'.data := by
      rcases kstep_data hs hf with e | ⟨x, g, d, k, -, -, hcode, e, -⟩
      · rw [e]
      · have hle := (T.code g (myproc t c) (mypid t c) t.data x).1
        rwa [hcode, ← e] at hle
    have hcl := kstep_clients hinv hl hf hs
    refine ⟨kstep_tableInv hT hs, hD.step hle (q := (t.cpus c).on.getD 0) (fun q' hq' => ?_) ?_⟩
    · rcases hcl q' with ⟨e, -⟩ | ⟨hon, -⟩
      · rw [Ticket.of, e, Ticket.of]
      · rw [hon] at hq'
        exact absurd rfl hq'
    · generalize (t.cpus c).on.getD 0 = q
      unfold Ticket.of
      rcases hcl q with ⟨e, -⟩ | ⟨-, ⟨k, hk, e, -⟩ | ⟨g, x, o, -, -, ho, hd, hcl, e⟩⟩
      · rw [e]
        exact .inl (List.Sublist.refl _)
      · rw [e, List.filterMap_cons_none (T.starts k hk)]
        exact .inl (List.Sublist.refl _)
      · have hrest : ((clients rest).filterMap T.ident).Sublist ((clients (t.kst q)).filterMap T.ident) := by
          rw [hcl]
          exact (List.sublist_cons_self ..).filterMap _
        rw [e]
        cases o with
        | none => exact .inl hrest
        | some k =>
          have hk := (T.code g (some q) (t.procs q).pid t.data x).2 k ho
          rw [← hd] at hk
          change (List.filterMap _ (k :: clients rest)).Sublist _ ∨
            ∃ l, _ ∧ List.filterMap _ (k :: clients rest) = _ ∧ _
          rcases hk with hk | hk | ⟨hk, hlt⟩
          · rw [List.filterMap_cons_none hk]
            exact .inl hrest
          · left
            rw [hcl]
            cases hg : T.ident g with
            | none => rw [List.filterMap_cons_none (hk.trans hg), List.filterMap_cons_none hg]
            | some i => rw [List.filterMap_cons_some (hk.trans hg), List.filterMap_cons_some hg]
          · exact .inr ⟨_, hrest, List.filterMap_cons_some hk, hlt⟩

/-- A call elsewhere has another number than the call that executes a statement. -/
theorem Ticket.ne_of_elsewhere {g k : M.Frame} {i : Nat} (h : (kernel M init).Reachable s)
    (hf : s.stackOf c = .client g :: rest) (hk : Elsewhere s c rest k) (hg : T.ident g = some i) :
    T.ident k ≠ some i := by
  have hD : T.Distinct s := Ticket.distinct h
  cases hon : (s.cpus c).on with
  | none =>
    have hnone := T.handlers s c g h hon (hf ▸ List.mem_cons_self)
    rw [hg] at hnone
    cases hnone
  | some q =>
    have hcl : T.of s q = i :: (clients rest).filterMap T.ident := by
      rw [Ticket.of, ← State.stackOf_of_on hon, hf, clients_cons]
      exact List.filterMap_cons_some hg
    intro hi
    cases hk with
    | proc q' hne hk =>
      refine hD.apart q q' i (fun e => hne (e ▸ hon)) (hcl ▸ List.mem_cons_self) ?_
      exact List.mem_filterMap.mpr ⟨k, hk, hi⟩
    | below hk =>
      have hnd := hD.nodup q
      rw [hcl] at hnd
      exact (List.nodup_cons.mp hnd).1 (List.mem_filterMap.mpr ⟨k, hk, hi⟩)
    | handler c' hon' hk =>
      rw [T.handlers s c' k h hon' hk] at hi
      cases hi

end Ticket

/-! ## Program points reached only when killed -/

/-- **A process at a program point that is reached only through the test `killed(p)` has been killed.** -/
theorem killedAt_invariant {F : M.Frame → Prop} (hstarts : ∀ k, M.Starts k → ¬F k)
    (hnext : ∀ g self pid d x k, (M.code g self pid d x).Next (some k) → F k →
      F g ∨ ∃ br, M.code g self pid d x = .killed br ∧ ¬F (br false))
    (h : (kernel M init).Reachable s) {k : M.Frame} (hk : k ∈ clients (s.kst q)) (hF : F k) :
    (s.procs q).killed ≠ 0 := by
  suffices hsuff : TableInv s ∧ ∀ q k, k ∈ clients (s.kst q) → F k → (s.procs q).killed ≠ 0 from
    hsuff.2 q k hk hF
  refine h.invariant (I := fun t => TableInv t ∧ ∀ q k, k ∈ clients (t.kst q) → F k →
    (t.procs q).killed ≠ 0) (fun t ht => ?_) ?_
  · refine ⟨reachable_forest ⟨t, ht, .refl t⟩, ?_⟩
    obtain ⟨tf, pt, cwd, d, -, rfl⟩ := ht
    intro q k hk
    cases hk
  · rintro t ⟨c, a⟩ t' ⟨hT, hI⟩ - hs
    replace hs : kstep t c a = some t' := hs
    obtain ⟨hinv, hl, -⟩ := id hT
    obtain ⟨f, rest, hf, -⟩ := kstep_stepped hinv hs
    refine ⟨kstep_tableInv hT hs, fun q k hk hF => ?_⟩
    have hold : ∀ k, k ∈ clients (t.kst q) → F k → (t'.procs q).killed ≠ 0 := fun k hm hF =>
      kstep_killed_stays hinv hl hs hm (hI q k hm hF)
    rcases kstep_clients hinv hl hf hs q with ⟨e, -⟩ | ⟨hon, ⟨k', hk', e, -⟩ |
      ⟨g, x, o, rfl, rfl, ho, -, hcl, e⟩⟩
    · exact hold k (e ▸ hk) hF
    · rw [e] at hk
      rcases List.mem_cons.mp hk with rfl | hk
      · exact (hstarts k hk' hF).elim
      · exact hold k hk hF
    · have hg : g ∈ clients (t.kst q) := hcl ▸ List.mem_cons_self
      have hk0 := hk
      rw [e] at hk
      rcases List.mem_append.mp hk with hk | hk
      · obtain rfl : o = some k := Option.mem_toList.mp hk
        rcases hnext g _ _ _ x k ho hF with hFg | ⟨br, hcode, hbr⟩
        · exact hold g hg hFg
        · -- the flag was set when the test was made
          have hcl' := kstep_killed_branch hinv hf hon hcode hs
          rw [e] at hcl'
          have hk' : k = br (decide ((t.procs q).killed ≠ 0)) := (List.cons.inj hcl').1
          by_cases hz : (t.procs q).killed = 0
          · rw [hk', hz] at hF
            exact (hbr hF).elim
          · exact kstep_killed_stays hinv hl hs hg hz
      · exact hold k (hcl ▸ List.mem_cons_of_mem _ hk) hF

end Xv6Freezer

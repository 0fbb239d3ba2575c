import Xv6Freezer.Kernel.Exit

/-! # The process tree printer

`sys_ptree` walks the process forest from the init process. It holds `child->lock` only while it looks at a
slot and never `wait_lock`, so the forest changes under it. A slot on the stack of active calls can be freed
and allocated again as a child of a deeper one (`ptree_twice`). If no slot of the stack is, the walk ends
(`ptree_nodup`).
-/

namespace Xv6Freezer

open Function (update update_self update_of_ne)

variable {M : Client} {init : M.Data → Prop} {s s' : State M} {c : CpuId} {p q r w i j : Slot}
  {f g : Frame M} {rest : List (Frame M)} {a : Act M} {instr : Instr M}

/-! ## The walk -/

/-- An active call `print_ptree_recursive(p, depth)`; its depth is the number of calls below it. -/
structure PtreeCall where
  p : Slot
  child : Slot
  /-- Has the line of `p` been printed? -/
  printed : Bool
  deriving DecidableEq

inductive Walk where
  | idle
  /-- The search for the init process, at slot `i`. -/
  | find (w i : Slot)
  /-- The active calls of `print_ptree_recursive`, innermost first. -/
  | tree (w : Slot) (calls : List PtreeCall)
  | done (r : Int)
  deriving DecidableEq

structure PtreeLine where
  depth : Nat
  name : String
  pid : Int
  ppid : Int

def Walk.walker : Walk → Option Slot
  | .find w _ | .tree w _ => some w
  | _ => none

def Walk.stack : Walk → List Slot
  | .tree _ calls => calls.map PtreeCall.p
  | _ => []

/-- The kernel, the walk and what it has printed, the latest line first. -/
structure PtreeState (M : Client) where
  kern : State M
  walk : Walk
  out : List PtreeLine

def ptreeLine (s : State M) (p : Slot) (depth : Nat) : PtreeLine :=
  { depth := depth, name := (s.procs p).name, pid := (s.procs p).pid
    ppid := (s.procs p).parent.elim 0 fun q => (s.procs q).pid }

/-- The next step of `sys_ptree`. A slot whose lock is taken makes it spin. -/
def walkStep (s : State M) (out : List PtreeLine) : Walk → Option (Walk × List PtreeLine)
  | .find w i =>
    if i < NPROC then
      if s.locks (.proc i) ≠ none then none
      else if (s.procs i).pid = 1 ∧ (s.procs i).state ≠ .unused then some (.tree w [⟨i, 0, false⟩], out)
      else some (.find w (i + 1), out)
    else some (.done (-1), out)
  | .tree _ [] => some (.done 0, out)
  | .tree w (⟨p, child, false⟩ :: calls) =>
    some (.tree w (⟨p, child, true⟩ :: calls), ptreeLine s p calls.length :: out)
  | .tree w (⟨p, child, true⟩ :: calls) =>
    if child < NPROC then
      if s.locks (.proc child) ≠ none then none
      else if (s.procs child).state ≠ .unused ∧ (s.procs child).parent = some p then
        some (.tree w (⟨child, 0, false⟩ :: ⟨p, child + 1, true⟩ :: calls), out)
      else some (.tree w (⟨p, child + 1, true⟩ :: calls), out)
    else some (.tree w calls, out)
  | .idle | .done _ => none

/-- A step of the kernel, the start of `sys_ptree` on a CPU, or a step of it. -/
inductive PtreeAct (M : Client) where
  | kernel (c : CpuId) (a : Act M)
  | start (c : CpuId)
  | walk (c : CpuId)

def Act.isCall : Act M → Bool
  | .call _ => true
  | _ => false

/-- Does CPU `c` execute process `w` outside the code of `proc.c`? -/
def atBody (s : State M) (c : CpuId) (w : Slot) : Bool :=
  match s.stackOf c with
  | [.body q] => q = w
  | _ => false

/-- One step of the kernel with `sys_ptree`. The process in `sys_ptree` makes no other call. -/
def ptreeStep (s : PtreeState M) : PtreeAct M → Option (PtreeState M)
  | .kernel c a =>
    if a.isCall ∧ s.walk.walker ≠ none ∧ (s.kern.cpus c).on = s.walk.walker then none
    else (kstep s.kern c a).map fun k => { s with kern := k }
  | .start c =>
    match s.walk.walker, (s.kern.cpus c).on with
    | none, some w => if atBody s.kern c w then some ⟨s.kern, .find w 0, []⟩ else none
    | _, _ => none
  | .walk c =>
    match s.walk.walker with
    | some w =>
      if atBody s.kern c w then
        (walkStep s.kern s.out s.walk).map fun r => { s with walk := r.1, out := r.2 }
      else none
    | none => none

def ptreeKernel (M : Client) (init : M.Data → Prop) : Lib.Lts (PtreeState M) (PtreeAct M) where
  init s := (kernel M init).init s.kern ∧ s.walk = .idle ∧ s.out = []
  step := ptreeStep

/-- The step does not allocate a slot that is on the stack of active calls. -/
def keepsStack (s : PtreeState M) : PtreeAct M → Bool
  | .kernel c a =>
    match givesPid s.kern (c, a) with
    | some (j, _) => j ∉ s.walk.stack
    | none => true
  | _ => true

/-! ## Slots that `fork` has not linked yet -/

/-- A slot that `fork` works on has no parent before `np->parent = p`. -/
def Unlinked (s : State M) : Prop :=
  ∀ q r pc i, .fork r pc ∈ s.kst q → pc.claims = some i → pc.linked = none →
    (s.procs i).parent = none

theorem forkCode_claims {x : Nat} {r : Slot} {pc0 pc : ForkPc}
    (hg : .fork r pc ∈ (forkCode s r x pc0).next) (hc : pc.claims = some i) (hl : pc.linked = none) :
    pc0 = .check i ∧ (s.procs i).state = .unused ∨
      pc0.claims = some i ∧ pc0.linked = none ∧ ∀ j pid, pc0 ≠ .link j pid := by
  cases pc0 with
  | check k =>
    simp only [forkCode] at hg
    split at hg
    · rename_i hun
      cases List.mem_singleton.mp hg
      cases hc
      exact .inl ⟨rfl, hun⟩
    · cases List.mem_singleton.mp hg
      cases hc
  | alloc k =>
    simp only [forkCode] at hg
    split at hg
    · cases List.mem_singleton.mp hg; cases hc
    · cases hg
  | link | linkRel | runAcq => cases List.mem_singleton.mp hg; cases hl
  | run k pid => cases List.mem_singleton.mp hg; cases hc
  | runRel | fail => cases hg
  | _ =>
    simp only [forkCode] at hg
    (repeat' split at hg) <;> cases List.mem_singleton.mp hg <;>
      first | exact .inr ⟨hc, rfl, by simp⟩ | cases hc

theorem kstep_unlinked (hu : Unlinked s) (h : Inv s) (F : Forest s) (hs : kstep s c a = some s') :
    Unlinked s' := by
  obtain ⟨f, rest, hf, -⟩ := kstep_stepped h hs
  intro q r pc i hm hc hl
  rcases kstep_sys h hf hs hm rfl with ⟨hm0, hnot⟩ | ⟨-, rfl⟩ | ⟨hon, hk, x, instr, rfl, hi, hg⟩
  · have hn := hu q r pc i hm0 hc hl
    rcases kstep_parent hf hs i with e | ⟨r', pid, rfl, -⟩ | ⟨r', st, -, -, e, -⟩ | ⟨e, -⟩
    · rw [e, hn]
    · -- no other `fork` works on the slot
      obtain ⟨q', hon', -, hm', -⟩ := h.sys_mem hf rfl
      obtain rfl := h.claims q q' r r' pc _ i hm0 hm' hc rfl
      obtain ⟨x, rfl, -⟩ := go_of_held h hf (by simp [Frame.held, ForkPc.held]) hs
      rcases hnot hon' with hk | hx
      · exact absurd rfl hk
      · exact absurd rfl (hx x)
    · rw [hn] at e; cases e
    · rw [e]; rfl
  · cases hc
  · obtain ⟨pc0, rfl, rfl⟩ := code_fork ((h.stack_cons hf).ok hon).1 hk hi hg
    have hmem : Frame.fork r pc0 ∈ s.kst q := by
      rw [← State.stackOf_of_on hon, hf]; exact .head _
    -- the parent of the slot before the step
    have hn : (s.procs i).parent = none ∧ ∀ j pid, pc0 ≠ .link j pid := by
      rcases forkCode_claims hg hc hl with ⟨rfl, hun⟩ | ⟨hc0, hl0, hne⟩
      · exact ⟨F.unused i hun, by simp⟩
      · exact ⟨hu q r pc0 i hmem hc0 hl0, hne⟩
    rcases kstep_parent hf hs i with e | ⟨_, _, e, -⟩ | ⟨_, _, e, -⟩ | ⟨e, -⟩
    · rw [e, hn.1]
    · cases e; exact absurd rfl (hn.2 _ _)
    · cases e
    · rw [e]; rfl

/-! ## The invariant -/

/-- The first process is in slot 0 for ever, with pid 1. -/
structure InitFirst (s : State M) : Prop where
  init : s.initproc = 0
  pid : (s.procs 0).pid = 1

theorem kstep_initFirst (hi : InitFirst s) (h : Inv s) (F : Forest s) (hs : kstep s c a = some s') :
    InitFirst s' := by
  obtain ⟨f, rest, hf, -⟩ := kstep_stepped h hs
  have hact := F.init
  rw [hi.init] at hact
  refine ⟨(kstep_initproc hf hs).trans hi.init, ?_⟩
  rw [← hi.pid]
  rcases kstep_pid h hs 0 with ⟨e, -⟩ | ⟨-, hu⟩ | ⟨hg, -⟩
  · exact e
  · have hact' := F.init_step h hf hs
    rw [hi.init] at hact'
    exact absurd hu hact'.live.ne_unused
  · rcases kstep_givesPid h hs with ⟨hg', -⟩ | ⟨k, hg', -, hu, -⟩
    · rw [hg] at hg'; cases hg'
    · rw [hg] at hg'
      cases hg'
      exact absurd hu hact.live.ne_unused

/-- Each slot of the stack has the parent below it, or has lost it to `initproc`, or has been freed. -/
def Chained (s : State M) : List Slot → Prop
  | [] => True
  | [b] => b = s.initproc
  | b :: a :: l => ((s.procs b).parent = some a ∨ (s.procs b).parent = some s.initproc ∨
      (s.procs b).parent = none) ∧ Chained s (a :: l)

theorem Chained.init_mem {l : List Slot} (h : Chained s l) (hl : l ≠ []) : s.initproc ∈ l := by
  induction l with
  | nil => exact absurd rfl hl
  | cons b l ih =>
    cases l with
    | nil => rw [show b = s.initproc from h]; exact List.mem_singleton_self _
    | cons a l => exact .tail _ (ih h.2 (List.cons_ne_nil a l))

theorem Chained.parent_mem {l : List Slot} (h : Chained s l)
    (hroot : (s.procs s.initproc).parent = none) (hi : i ∈ l)
    (hp : (s.procs i).parent = some p) : p ∈ l := by
  induction l with
  | nil => cases hi
  | cons b l ih =>
    cases l with
    | nil =>
      obtain rfl := List.mem_singleton.mp hi
      rw [show i = s.initproc from h, hroot] at hp
      cases hp
    | cons a l =>
      rcases List.mem_cons.mp hi with rfl | hi
      · rcases h.1 with e | e | e <;> rw [e] at hp
        · cases hp
          exact .tail _ (.head _)
        · cases hp
          exact .tail _ (Chained.init_mem h.2 (List.cons_ne_nil a l))
        · cases hp
      · exact .tail _ (ih h.2 hi)

/-- No `fork` is about to link a slot of the stack. -/
def Settled (s : State M) (l : List Slot) : Prop :=
  ∀ q r pc i, .fork r pc ∈ s.kst q → pc.claims = some i → i ∈ l → i ≠ s.initproc → pc.linked ≠ none

structure WalkInv (s : PtreeState M) : Prop where
  table : TableInv s.kern
  unlinked : Unlinked s.kern
  first : InitFirst s.kern
  found : ∀ w i, s.walk = .find w i → i = 0
  nodup : s.walk.stack.Nodup
  lt : ∀ i ∈ s.walk.stack, i < NPROC
  chained : Chained s.kern s.walk.stack
  settled : Settled s.kern s.walk.stack

theorem Chained.kstep {l : List Slot} (hch : Chained s l) (hse : Settled s l) (hnd : l.Nodup)
    (h : Inv s) (hs : kstep s c a = some s') : Chained s' l := by
  obtain ⟨f, rest, hf, -⟩ := kstep_stepped h hs
  have hinit := kstep_initproc hf hs
  induction l with
  | nil => trivial
  | cons b l ih =>
    cases l with
    | nil => exact (show b = s.initproc from hch).trans hinit.symm
    | cons a' l =>
      have hne : b ≠ s.initproc := by
        rintro rfl
        exact (List.nodup_cons.mp hnd).1 (Chained.init_mem hch.2 (List.cons_ne_nil a' l))
      refine ⟨?_, ih hch.2 (fun q r pc i hm hc hi => hse q r pc i hm hc (.tail _ hi))
        (List.nodup_cons.mp hnd).2⟩
      rcases kstep_parent hf hs b with e | ⟨r, pid, rfl, -⟩ | ⟨r, st, -, -, -, e⟩ | ⟨e, -⟩
      · rw [e, hinit]; exact hch.1
      · obtain ⟨q, -, -, hm, -⟩ := h.sys_mem hf rfl
        exact absurd rfl (hse q r _ b hm rfl (.head _) hne)
      · rw [e, hinit]; exact .inr (.inl rfl)
      · rw [e]; exact .inr (.inr rfl)

theorem Settled.kstep {l : List Slot} (hse : Settled s l) (h : Inv s) (hs : kstep s c a = some s')
    (hok : ∀ j pid, givesPid s (c, a) = some (j, pid) → j ∉ l) : Settled s' l := by
  obtain ⟨f, rest, hf, -⟩ := kstep_stepped h hs
  have hinit := kstep_initproc hf hs
  intro q r pc i hm hc hi hne
  rw [hinit] at hne
  rcases kstep_sys h hf hs hm rfl with ⟨hm0, -⟩ | ⟨-, rfl⟩ | ⟨hon, hk, x, instr, rfl, hcode, hg⟩
  · exact hse q r pc i hm0 hc hi hne
  · cases hc
  · obtain ⟨pc0, rfl, rfl⟩ := code_fork ((h.stack_cons hf).ok hon).1 hk hcode hg
    have hmem : Frame.fork r pc0 ∈ s.kst q := by
      rw [← State.stackOf_of_on hon, hf]; exact .head _
    intro hl
    rcases forkCode_claims hg hc hl with ⟨rfl, hun⟩ | ⟨hc0, hl0, -⟩
    · exact hok i s.nextpid (by simp [givesPid, hf, hun]) hi
    · exact hse q r pc0 i hmem hc0 hi hne hl0

theorem length_le_of_nodup {l : List Nat} {n : Nat} (hnd : l.Nodup) (hlt : ∀ i ∈ l, i < n) :
    l.length ≤ n := by
  have hsub : l ⊆ List.range n := fun i hi => List.mem_range.mpr (hlt i hi)
  have hle := (hnd.subperm hsub).length_le
  rwa [List.length_range] at hle

variable {t t' : PtreeState M}

/-- **A step of the kernel** that allocates no slot of the stack keeps the invariant. -/
theorem WalkInv.kernel (W : WalkInv t) (hs : kstep t.kern c a = some s')
    (hok : keepsStack t (.kernel c a) = true) : WalkInv { t with kern := s' } := by
  have hok' : ∀ j pid, givesPid t.kern (c, a) = some (j, pid) → j ∉ t.walk.stack := by
    intro j pid hg
    simpa [keepsStack, hg] using hok
  obtain ⟨hinv, hl, F⟩ := W.table
  exact
    { table := kstep_tableInv W.table hs
      unlinked := kstep_unlinked W.unlinked hinv F hs
      first := kstep_initFirst W.first hinv F hs
      found := W.found
      nodup := W.nodup
      lt := W.lt
      chained := W.chained.kstep W.settled W.nodup hinv hs
      settled := W.settled.kstep hinv hs hok' }

theorem WalkInv.not_mem {calls : List PtreeCall} {b : Bool} {child : Slot} (W : WalkInv t)
    (hw : t.walk = .tree w (⟨p, child, b⟩ :: calls)) (hp : (t.kern.procs i).parent = some p) :
    i ∉ t.walk.stack := by
  obtain ⟨-, -, F⟩ := W.table
  have hnd := W.nodup
  have hch := W.chained
  rw [hw] at hnd hch ⊢
  intro hi
  rcases List.mem_cons.mp hi with rfl | hi
  · obtain ⟨rank, -, hrank⟩ := F.rank
    exact absurd (hrank i i hp) (Nat.lt_irrefl _)
  · -- otherwise its parent, the innermost slot, would be further down as well
    have hch' : Chained t.kern (calls.map PtreeCall.p) := by
      cases calls with
      | nil => trivial
      | cons call calls => exact hch.2
    exact (List.nodup_cons.mp hnd).1 (hch'.parent_mem F.root hi hp)

theorem WalkInv.walk (W : WalkInv t) {walk' : Walk} {out' : List PtreeLine}
    (hs : walkStep t.kern t.out t.walk = some (walk', out')) :
    WalkInv { t with walk := walk', out := out' } := by
  have hmk : ∀ {wk : Walk}, (∀ w i, wk = .find w i → i = 0) → wk.stack.Nodup →
      (∀ i ∈ wk.stack, i < NPROC) → Chained t.kern wk.stack → Settled t.kern wk.stack →
      WalkInv { t with walk := wk, out := out' } := fun h1 h2 h3 h4 h5 =>
    { table := W.table, unlinked := W.unlinked, first := W.first, found := h1, nodup := h2, lt := h3
      chained := h4, settled := h5 }
  obtain ⟨hinv, hl, F⟩ := W.table
  have hempty : ∀ r, WalkInv { t with walk := .done r, out := out' } := fun r =>
    hmk nofun List.nodup_nil nofun trivial nofun
  cases hw : t.walk with
  | idle | done => rw [hw] at hs; cases hs
  | find w i =>
    rw [hw] at hs
    obtain rfl := W.found w i hw
    have hact := F.init
    rw [W.first.init] at hact
    simp only [walkStep] at hs
    split at hs
    · split at hs
      · cases hs
      · -- slot 0 is the first process
        rw [if_pos ⟨W.first.pid, hact.live.ne_unused⟩] at hs
        cases hs
        refine hmk nofun (List.nodup_singleton _) (fun i hi => ?_) W.first.init.symm ?_
        · rw [List.mem_singleton.mp hi]; decide
        · intro q r pc i hm hc hi hne
          exact absurd ((List.mem_singleton.mp hi).trans W.first.init.symm) hne
    · cases hs; exact hempty _
  | tree w calls =>
    have hnd := W.nodup
    have hlt := W.lt
    have hch := W.chained
    have hse := W.settled
    rw [hw] at hs hnd hlt hch hse
    cases calls with
    | nil => cases hs; exact hempty _
    | cons call calls =>
      obtain ⟨p, child, b⟩ := call
      cases b with
      | false => cases hs; exact hmk nofun hnd hlt hch hse
      | true =>
        simp only [walkStep] at hs
        split at hs
        · rename_i hclt
          split at hs
          · cases hs
          · split at hs
            · -- a new call, of a child that is not on the stack
              rename_i hchild
              cases hs
              have hnot := W.not_mem hw hchild.2
              rw [hw] at hnot
              refine hmk nofun (List.nodup_cons.mpr ⟨hnot, hnd⟩) (fun i hi => ?_)
                ⟨.inl hchild.2, hch⟩ ?_
              · rcases List.mem_cons.mp hi with rfl | hi
                · exact hclt
                · exact hlt i hi
              · intro q r pc i hm hc hi hne
                rcases List.mem_cons.mp hi with rfl | hi
                · intro hl
                  have := W.unlinked q r pc i hm hc hl
                  rw [hchild.2] at this
                  cases this
                · exact hse q r pc i hm hc hi hne
            · cases hs; exact hmk nofun hnd hlt hch hse
        · cases hs
          refine hmk nofun (List.nodup_cons.mp hnd).2
            (fun i hi => hlt i (.tail _ hi)) ?_ fun q r pc i hm hc hi =>
              hse q r pc i hm hc (.tail _ hi)
          cases calls with
          | nil => trivial
          | cons call calls => exact hch.2

theorem WalkInv.step {l : PtreeAct M} (W : WalkInv t) (hok : keepsStack t l = true)
    (hs : ptreeStep t l = some t') : WalkInv t' := by
  cases l with
  | kernel c a =>
    simp only [ptreeStep] at hs
    split at hs
    · cases hs
    · obtain ⟨k, hk, rfl⟩ := Option.map_eq_some_iff.mp hs
      exact W.kernel hk hok
  | start c =>
    simp only [ptreeStep] at hs
    (repeat' split at hs) <;> cases hs
    exact
      { table := W.table, unlinked := W.unlinked, first := W.first
        found := fun w i e => by cases e; rfl
        nodup := List.nodup_nil, lt := nofun, chained := trivial, settled := nofun }
  | walk c =>
    simp only [ptreeStep] at hs
    (repeat' split at hs) <;> try cases hs
    obtain ⟨r, hr, rfl⟩ := Option.map_eq_some_iff.mp hs
    exact W.walk hr

theorem walkInv_init (h : (ptreeKernel M init).init t) : WalkInv t := by
  obtain ⟨h0, hwalk, -⟩ := h
  have ht : TableInv t.kern := reachable_forest ⟨t.kern, h0, Lib.Lts.RunIf.refl _⟩
  obtain ⟨tf, pt, cwd, d, -, hk⟩ := h0
  refine ⟨ht, ?_, ⟨by rw [hk]; rfl, by rw [hk]; rfl⟩, ?_, ?_, ?_, ?_, ?_⟩
  · intro q r pc i hm
    rw [hk] at hm
    cases hm
  · rw [hwalk]; exact nofun
  all_goals rw [hwalk]
  · exact List.nodup_nil
  · exact nofun
  · trivial
  · exact nofun

/-! ## The length of a walk -/

def ptreeBase : Nat := 2 * NPROC + 4

/-- The steps that the active calls can still make, weighted by their depth. -/
def callsLeft : List PtreeCall → Nat
  | [] => 0
  | call :: calls =>
    (2 * (NPROC - call.child) + (if call.printed then 1 else 2)) *
      ptreeBase ^ (NPROC - calls.length) + callsLeft calls

/-- A bound for the steps that `sys_ptree` can still make. -/
def ptreeLeft : Walk → Nat
  | .idle | .done _ => 0
  | .find _ i => (NPROC - i) + 3 + (2 * NPROC + 2) * ptreeBase ^ NPROC
  | .tree _ calls => callsLeft calls + 1

theorem ptreeLeft_lt (W : WalkInv t) {walk' : Walk} {out' : List PtreeLine}
    (hs : walkStep t.kern t.out t.walk = some (walk', out')) : ptreeLeft walk' < ptreeLeft t.walk := by
  have hpos : ∀ n, 0 < ptreeBase ^ n := fun n => Nat.pow_pos (by decide)
  have hmul : ∀ {a b n : Nat}, a < b → a * ptreeBase ^ n < b * ptreeBase ^ n := fun h =>
    Nat.mul_lt_mul_of_pos_right h (hpos _)
  cases hw : t.walk with
  | idle | done => rw [hw] at hs; cases hs
  | find w i =>
    rw [hw] at hs
    simp only [walkStep] at hs
    split at hs
    · rename_i hlt
      have hsub : NPROC - (i + 1) < NPROC - i := Nat.sub_lt_sub_left hlt (Nat.lt_succ_self i)
      (repeat' split at hs) <;> cases hs <;>
        simp only [ptreeLeft, callsLeft, List.length_nil, Nat.sub_zero, Bool.false_eq_true,
          if_false] <;>
        omega
    · cases hs
      simp only [ptreeLeft]
      omega
  | tree w calls =>
    have hlen : t.walk.stack.length ≤ NPROC := length_le_of_nodup W.nodup W.lt
    rw [hw] at hs hlen
    cases calls with
    | nil => cases hs; exact Nat.succ_pos _
    | cons call calls =>
      obtain ⟨p, child, b⟩ := call
      cases b with
      | false =>
        cases hs
        exact Nat.succ_lt_succ (Nat.add_lt_add_right (hmul (by simp)) _)
      | true =>
        have hd : calls.length + 1 ≤ NPROC := by simpa [Walk.stack] using hlen
        simp only [walkStep] at hs
        split at hs
        · rename_i hclt
          have hnext : 2 * (NPROC - (child + 1)) + 1 + 2 = 2 * (NPROC - child) + 1 := by
            have hsub : NPROC - child = NPROC - (child + 1) + 1 := (Nat.succ_pred_eq_of_pos
              (Nat.sub_pos_of_lt hclt)).symm
            omega
          split at hs
          · cases hs
          · split at hs
            · -- the new call is one level deeper
              cases hs
              refine Nat.succ_lt_succ ?_
              have hexp : NPROC - calls.length = NPROC - (calls.length + 1) + 1 := by omega
              have hnew : (2 * NPROC + 2) * ptreeBase ^ (NPROC - (calls.length + 1)) <
                  2 * ptreeBase ^ (NPROC - calls.length) := by
                rw [hexp, Nat.pow_succ, Nat.mul_comm (ptreeBase ^ _) ptreeBase, ← Nat.mul_assoc]
                exact hmul (by simp only [ptreeBase]; omega)
              simp only [callsLeft, List.length_cons, Bool.false_eq_true, if_false, if_true,
                Nat.sub_zero]
              rw [← hnext, Nat.add_mul (2 * (NPROC - (child + 1)) + 1) 2]
              omega
            · cases hs
              exact Nat.succ_lt_succ (Nat.add_lt_add_right
                (hmul (by simp only [if_true]; exact hnext ▸ Nat.lt_add_of_pos_right (by decide))) _)
        · cases hs
          refine Nat.succ_lt_succ ?_
          simp only [callsLeft, if_true]
          exact Nat.lt_add_of_pos_left (Nat.mul_pos (Nat.succ_pos _) (hpos _))

/-! ## The theorem and its counterexample -/

def PtreeAct.isWalk : PtreeAct M → Bool
  | .walk _ => true
  | _ => false

def PtreeAct.isStart : PtreeAct M → Bool
  | .start _ => true
  | _ => false

theorem WalkInv.steps_le {ls : List (PtreeAct M)} (W : WalkInv t)
    (hs : (ptreeKernel M init).execs keepsStack t ls = some t')
    (hno : ∀ l ∈ ls, PtreeAct.isStart l = false) :
    ls.countP PtreeAct.isWalk + ptreeLeft t'.walk ≤ ptreeLeft t.walk := by
  induction ls generalizing t with
  | nil =>
    obtain rfl : t = t' := by simpa [Lib.Lts.execs] using hs
    simp
  | cons l ls ih =>
    simp only [Lib.Lts.execs] at hs
    split at hs
    · rename_i hok
      obtain ⟨t1, hs1, hrest⟩ := Option.bind_eq_some_iff.mp hs
      have hle := ih (W.step hok hs1) hrest fun l hl => hno l (.tail _ hl)
      cases l with
      | kernel c a =>
        simp only [ptreeKernel, ptreeStep] at hs1
        split at hs1
        · cases hs1
        · obtain ⟨k, -, rfl⟩ := Option.map_eq_some_iff.mp hs1
          simpa [PtreeAct.isWalk] using hle
      | start c => cases hno (.start c) (.head _)
      | walk c =>
        simp only [ptreeKernel, ptreeStep] at hs1
        (repeat' split at hs1) <;> try cases hs1
        obtain ⟨r, hr, rfl⟩ := Option.map_eq_some_iff.mp hs1
        have hlt := ptreeLeft_lt W hr
        rw [List.countP_cons_of_pos rfl]
        simp only at hle
        omega
    · cases hs

/-- **The walk enters no slot twice**, if no slot of its stack is allocated while it is there: the slots of
the active calls are distinct, and the walk ends. -/
theorem ptree_nodup (h : (ptreeKernel M init).ReachableIf (fun t l => keepsStack t l = true) t) :
    t.walk.stack.Nodup ∧ (∀ w call calls, t.walk = .tree w (call :: calls) → calls.length < NPROC) ∧
    ∀ ls t', (ptreeKernel M init).execs keepsStack t ls = some t' →
      (∀ l ∈ ls, PtreeAct.isStart l = false) → ls.countP PtreeAct.isWalk ≤ ptreeLeft t.walk := by
  have W : WalkInv t := h.invariant (fun _ => walkInv_init) fun t l t' W hok hs => W.step hok hs
  refine ⟨W.nodup, fun w call calls hw => ?_, fun ls t' hs hno => ?_⟩
  · have hlen := length_le_of_nodup W.nodup W.lt
    rw [hw] at hlen
    exact Nat.lt_of_succ_le (by simpa [Walk.stack] using hlen)
  · exact Nat.le_of_add_right_le (W.steps_le hs hno)

def kernelActs (l : List (CpuId × Act idleClient)) : List (PtreeAct idleClient) :=
  l.map fun x => .kernel x.1 x.2

/-- Process 1 has a child 2; process 3 is in `sys_ptree` and has just entered the call for 2. -/
def ptreeTrace : List (PtreeAct idleClient) :=
  kernelActs (forkTrace ++ goes 1 10 ++ [(1, .call .fork)] ++ goes 1 19 ++ goes 2 13 ++
    [(0, .call .fork)] ++ goes 0 22 ++ goes 3 16) ++ [.start 3] ++ List.replicate 9 (.walk 3)

/-- Process 1 exits, is waited for, and process 2 calls `fork`, which takes slot 1. -/
def reuseTrace : List (PtreeAct idleClient) :=
  kernelActs ([(1, .call (.exit 0))] ++ goes 1 477 ++ [(0, .call (.wait 0))] ++ goes 0 6 ++
    [(2, .call .fork)] ++ goes 2 12) ++ List.replicate 2 (.walk 3)

theorem ptreeKernel_init :
    (ptreeKernel idleClient fun _ => True).init ⟨idleBoot, .idle, []⟩ :=
  ⟨idleKernel_init, rfl, rfl⟩

set_option maxRecDepth 100000 in
theorem ptree_nodup_three : ∃ t, (ptreeKernel idleClient fun _ => True).ReachableIf
    (fun t l => keepsStack t l = true) t ∧ t.walk.stack = [2, 1, 0] ∧ t.walk.stack.Nodup := by
  obtain ⟨t, ht, hp⟩ := Lib.Lts.reachableIf_of_execs ptreeTrace keepsStack
    (fun t : PtreeState idleClient => decide (t.walk.stack = [2, 1, 0])) ptreeKernel_init
    (by decide +kernel)
  exact ⟨t, ht, of_decide_eq_true hp, (ptree_nodup ht).1⟩

set_option maxRecDepth 100000 in
/-- **Slot 1 is on the stack twice**: it was allocated again as a child of slot 2. -/
theorem ptree_twice : ∃ t, (ptreeKernel idleClient fun _ => True).Reachable t ∧
    t.walk.stack = [1, 2, 1, 0] ∧ ¬ t.walk.stack.Nodup := by
  obtain ⟨t, ht, hp⟩ := Lib.Lts.reachable_of_execs (ptreeTrace ++ reuseTrace)
    (fun t : PtreeState idleClient => decide (t.walk.stack = [1, 2, 1, 0])) ptreeKernel_init
    (by decide +kernel)
  have hst := of_decide_eq_true hp
  exact ⟨t, ht, hst, by rw [hst]; decide⟩

end Xv6Freezer

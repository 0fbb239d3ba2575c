import Xv6Freezer.Files.Calls
import Xv6Freezer.Files.Exec

/-! # Exact reference counts

The invariant holds in every state of every interleaving (`reachable_inv`). Between system calls the
reference counts can be read off the descriptors and current directories alone (`Exact`).
-/

namespace Xv6Freezer.Files

open Lib Function

variable {P : Type}

/-! ## Counting descriptors -/

section Counting

theorem count_refsOf {o : Option Nat} {e : Nat} : (refsOf o).count e = if o = some e then 1 else 0 := by
  cases o with
  | none => simp [refsOf]
  | some x => simp [refsOf, Multiset.count_singleton, eq_comm]

theorem count_filterMap_range {o : Nat → Option Nat} {f n : Nat} :
    ((Multiset.range n).filterMap o).count f =
      ∑ fd ∈ Finset.range n, if o fd = some f then 1 else 0 := by
  induction n with
  | zero => rfl
  | succ n ih =>
    rw [Multiset.range_succ, Finset.sum_range_succ, ← ih]
    cases ho : o n with
    | none => rw [Multiset.filterMap_cons_none _ _ ho, if_neg nofun, Nat.add_zero]
    | some x =>
      rw [Multiset.filterMap_cons_some _ _ _ ho, Multiset.count_cons]
      simp only [Option.some.injEq, eq_comm]

variable [Fintype P]

def descriptors (s : State P) (f : Nat) : Nat :=
  ((Finset.univ ×ˢ Finset.range NOFILE).filter fun x : P × Nat =>
    (s.proc x.1).ofile x.2 = some f).card

/-- The open files of type `FD_INODE` or `FD_DEVICE` that refer to an inode. -/
def openFiles (s : State P) (e : Nat) : Nat := countFiles s.file fun F => 0 < F.ref ∧ F.On e

def cwds (s : State P) (e : Nat) : Nat :=
  (Finset.univ.filter fun p => (s.proc p).cwd = some e).card

/-- Some descriptor points to this end of the pipe. -/
def HasEnd (s : State P) (pi : Nat) (w : Bool) : Prop :=
  ∃ p fd f, fd < NOFILE ∧ (s.proc p).ofile fd = some f ∧ (s.file f).End pi w

/-- **Exact reference counts**: of files, of inodes, and of the ends of pipes. -/
structure Exact (s : State P) : Prop where
  file : ∀ f, (s.file f).ref = descriptors s f
  inode : ∀ e, (s.inode e).ref = (openFiles s e + cwds s e : Nat)
  pipeEnd : ∀ pi w, (s.pipe pi).isOpen w = true ↔ HasEnd s pi w
  /-- The page of a pipe is in use as long as a descriptor of one of the ends is left. -/
  pipePage : ∀ pi, (s.pipe pi).live = true ↔ ∃ w, HasEnd s pi w

variable {s : State P} {γ : P → Own P}

theorem descriptors_eq {f : Nat} :
    descriptors s f = total (fun p => (s.proc p).fileRefs) f := by
  unfold descriptors total
  rw [Finset.card_filter, Finset.sum_product]
  exact Finset.sum_congr rfl fun p _ => count_filterMap_range.symm

theorem cwds_eq {e : Nat} : cwds s e = total (fun p => (s.proc p).cwdRefs) e := by
  unfold cwds total
  rw [Finset.card_filter]
  exact Finset.sum_congr rfl fun p _ => count_refsOf.symm

theorem exists_descriptor {f : Nat} (h : 0 < descriptors s f) :
    ∃ p fd, fd < NOFILE ∧ (s.proc p).ofile fd = some f := by
  obtain ⟨⟨p, fd⟩, hx⟩ := Finset.card_pos.mp h
  obtain ⟨hmem, hf⟩ := Finset.mem_filter.mp hx
  exact ⟨p, fd, Finset.mem_range.mp (Finset.mem_product.mp hmem).2, hf⟩

theorem Inv.exact (hI : Inv s γ) (hidle : ∀ p, (γ p).Idle) : Exact s := by
  have hfrefs : Own.frefs ∘ γ = fun p => (s.proc p).fileRefs :=
    funext fun p => by rw [hI.slots.proc p]; exact (hidle p).frefs
  have hirefs : Own.irefs ∘ γ = fun p => (s.proc p).cwdRefs :=
    funext fun p => by rw [hI.slots.proc p]; exact (hidle p).irefs
  have hfile : ∀ f, (s.file f).ref = descriptors s f := fun f => by
    rw [hI.files.ref f, hfrefs, descriptors_eq]
  have hend : ∀ pi w, (s.pipe pi).isOpen w = true ↔ HasEnd s pi w := fun pi w => by
    have hcount := hI.pipes.ends pi w
    have hnone : total (Own.ends ∘ γ) (pi, w) = 0 :=
      Finset.sum_eq_zero fun p _ => by
        rw [Function.comp_apply, (hidle p).ends, Multiset.count_zero]
    rw [hnone, Nat.add_zero] at hcount
    constructor
    · intro hopen
      rw [if_pos hopen] at hcount
      obtain ⟨f, hf⟩ := Finset.card_pos.mp (hcount ▸ Nat.one_pos)
      have hon := (Finset.mem_filter.mp hf).2
      have href : (s.file f).ref ≠ 0 := fun h0 => by
        have := hI.files.closed f h0
        rw [hon.1] at this
        cases this
      rw [hfile f] at href
      obtain ⟨p, fd, hfd, ho⟩ := exists_descriptor (s := s) (f := f) (by omega)
      exact ⟨p, fd, f, hfd, ho, hon⟩
    · rintro ⟨p, fd, f, -, -, hon⟩
      have htype : (s.file f).type ≠ .none := by rw [hon.1]; exact nofun
      have hpos := countFiles_pos (φ := (File.End · pi w)) (hI.files.lt_nfile htype) hon
      by_contra hc
      rw [if_neg hc] at hcount
      omega
  refine ⟨hfile, fun e => ?_, hend, fun pi => ?_⟩
  · have hopen : openFiles s e = countFiles s.file (File.On · e) := by
      unfold openFiles countFiles
      congr 1
      refine Finset.filter_congr fun f _ => and_iff_right_of_imp fun hon => ?_
      have hne : (s.file f).ref ≠ 0 := fun h0 => hon.type_ne (hI.files.closed f h0)
      rw [hI.files.ref f] at hne ⊢
      omega
    rw [hopen, cwds_eq, ← hirefs, Nat.add_comm]
    exact hI.irefs e
  · constructor
    · intro hlive
      rcases hI.pipes.live pi hlive with h | h
      · exact ⟨false, (hend pi false).mp h⟩
      · exact ⟨true, (hend pi true).mp h⟩
    · rintro ⟨w, h⟩
      exact (Bool.and_eq_true_iff.mp ((hend pi w).mpr h)).1

end Counting

/-! ## Boot -/

section Boot

variable {P : Type} {s : State P} {initproc : P}

/-- No inode of the disk has holes. -/
def HoleFree (s : State P) : Prop :=
  ∀ i, (s.dinode i).type ≠ .none → (s.dinode i).Full (s.ind i)

def Own.ofProc (q : Proc) : Own P :=
  { proc := q, irefs := q.cwdRefs, frefs := q.fileRefs, ends := 0, new := ∅, seen := fun _ => none
    held := fun _ => none, child := none }

section

variable (hb : Boot initproc s)

include hb

theorem Boot.ofile (p : P) (fd : Nat) : (s.proc p).ofile fd = none := by
  by_cases hp : p = initproc
  · rw [hp, hb.first]
  · rw [hb.procs p hp]

theorem Boot.fileRefs (p : P) : (s.proc p).fileRefs = 0 := by
  rw [Proc.fileRefs, show (s.proc p).ofile = fun _ => none from funext (hb.ofile p)]
  rfl

theorem Boot.idle (p : P) : (Own.ofProc (s.proc p) : Own P).Idle := by
  refine ⟨rfl, rfl, rfl, fun _ => rfl, rfl, fun fd _ => hb.ofile p fd, fun ha => ?_⟩
  show (s.proc p).cwd ≠ none
  by_cases hp : p = initproc
  · rw [hp, hb.first]
    exact nofun
  · change (s.proc p).stage = .alive at ha
    rw [hb.procs p hp] at ha
    cases ha

theorem Boot.countFiles {φ : File → Prop} [DecidablePred φ]
    (hφ : ∀ F, φ F → F.type ≠ .none) : countFiles s.file φ = 0 :=
  Finset.card_eq_zero.mpr (Finset.filter_eq_empty_iff.mpr fun f _ hf => hφ _ hf (hb.files f).2)

theorem Boot.slots : SlotInv s.proc fun p => (Own.ofProc (s.proc p) : Own P) := by
  refine ⟨fun p => rfl, fun p _ => hb.idle p, fun p hp => ⟨hb.ofile p, ?_⟩, ?_, ?_⟩
  · have hne : p ≠ initproc := by
      rintro rfl
      change (s.proc p).stage = .unused ∨ (s.proc p).stage = .zombie at hp
      rw [hb.first] at hp
      rcases hp with hp | hp <;> cases hp
    show (s.proc p).cwd = none
    rw [hb.procs p hne]
  · intro p c hc
    cases hc
  · intro p q c d hc
    cases hc

theorem Boot.lockInv : LockInv (Inode.lock ∘ s.inode) s.file
    (fun p => (s.proc p).cwdRefs) (fun p => (s.proc p).fileRefs) fun _ _ => none := by
  refine ⟨fun e p => ⟨fun h => ?_, fun ⟨_, h⟩ => ?_⟩, fun p e h hh => ?_⟩
  · change (s.inode e).lock = some p at h
    by_cases he : e = 0
    · rw [he, hb.root] at h
      cases h
    · rw [(hb.entries e he).2.1] at h
      cases h
  · cases h
  · cases hh

theorem Boot.diskInv (hfull : HoleFree s) :
    DiskInv s.inode s.dinode s.ind s.slot s.unread fun (_ : P) _ => none := by
  have hroot : ∀ e, 0 < (s.inode e).ref → e = 0 := fun e he => by
    by_contra hne
    rw [(hb.entries e hne).1] at he
    omega
  have hinvalid : ∀ e, (s.inode e).valid = false := fun e => by
    by_cases he : e = 0
    · rw [he, hb.root]
    · exact (hb.entries e he).2.2
  refine ⟨fun e he => ?_, fun e he => ?_, fun e e' he he' _ => ?_, fun e _ hv => ?_,
    fun i hi _ => hfull i hi, fun p e h hh => ?_, fun i t hu => ?_⟩
  · rw [hroot e he]
    decide
  · rw [hroot e he, hb.root]
  · rw [hroot e he, hroot e' he']
  · rw [hinvalid e] at hv
    cases hv
  · cases hh
  · rw [hb.unread i] at hu
    cases hu

end

variable [Fintype P]

theorem Boot.cwds (hb : Boot initproc s) (e : Nat) : cwds s e = if e = 0 then 1 else 0 := by
  unfold Files.cwds
  rw [Finset.card_filter, Finset.sum_eq_single initproc]
  · rw [hb.first]
    simp only [Option.some.injEq, eq_comm]
  · intro p _ hp
    rw [hb.procs p hp, if_neg nofun]
  · exact fun h => absurd (Finset.mem_univ initproc) h

theorem Boot.irefs (hb : Boot initproc s) :
    IrefInv (Inode.ref ∘ s.inode) s.file fun p => (s.proc p).cwdRefs := fun e => by
  rw [hb.countFiles fun F hF => hF.type_ne, Nat.add_zero, ← cwds_eq, hb.cwds e]
  show (s.inode e).ref = _
  by_cases he : e = 0
  · rw [if_pos he, he, hb.root]
    rfl
  · rw [if_neg he, (hb.entries e he).1]
    rfl

theorem Boot.fileInv (hb : Boot initproc s) : FileInv s.file (fun p => (s.proc p).fileRefs)
    (fun _ => ∅) fun _ _ => none := by
  refine ⟨fun f => ?_, fun f _ => (hb.files f).2, fun f hf => ?_,
    fun _ f h => absurd h (Finset.notMem_empty f), fun _ _ _ h _ => nomatch h⟩
  · have h0 : total (fun p => (s.proc p).fileRefs) f = 0 :=
      Finset.sum_eq_zero fun p _ => by
        simp only [hb.fileRefs p, Multiset.count_zero]
    rw [(hb.files f).1, h0]
    rfl
  · rw [(hb.files f).1] at hf
    omega

theorem Boot.pipeInv (hb : Boot initproc s) : PipeInv s.pipe s.file fun _ : P => 0 := by
  have hlive : ∀ pi, (s.pipe pi).live = false := fun pi => by
    simp only [PipePage.live, hb.pipes pi, ne_eq, not_true, decide_false]
  refine ⟨fun pi w => ?_, fun pi => .inl (hb.pipes pi), fun pi h => ?_⟩
  · have h0 : total (fun _ : P => (0 : Multiset (Nat × Bool))) (pi, w) = 0 :=
      Finset.sum_eq_zero fun p _ => Multiset.count_zero _
    rw [hb.countFiles fun F hF => by rw [hF.1]; intro h; cases h]
    simp only [h0, PipePage.isOpen, hlive pi, Bool.false_and, Bool.false_eq_true, if_false]
  · rw [hlive pi] at h
    cases h

theorem Boot.inv (hb : Boot initproc s) (hfull : HoleFree s) :
    Inv s fun p => Own.ofProc (s.proc p) :=
  ⟨hb.slots, hb.irefs, hb.fileInv, hb.pipeInv, hb.lockInv, hb.diskInv hfull⟩

end Boot

/-! ## Runs -/

variable {t : Conc P (Op P) (State P) Res}

def Quiescent (t : Conc P (Op P) (State P) Res) : Prop := ∀ p, (t.thread p).isIdle = true

theorem idle_of_isIdle {th : Thread (Op P) Res} {g : Own P} (h : th.isIdle = true)
    (hty : th.Typed rules Own.Idle g) : g.Idle := by
  cases th with
  | panicked msg => cases h
  | run c =>
    cases c with
    | ret v => exact hty
    | op o k => cases h

theorem Quiescent.idle (hq : Quiescent t) {γ : P → Own P}
    (hty : ∀ p, (t.thread p).Typed rules Own.Idle (γ p)) (p : P) : (γ p).Idle := idle_of_isIdle (hq p) (hty p)

variable [Fintype P] [DecidableEq P] {initproc : P}

/-- **The invariant holds in every state of every interleaving of system calls.** -/
theorem reachable_inv (h : (machine initproc HoleFree).lts.Reachable t) :
    ∃ γ, Inv t.shared γ ∧ ∀ p, (t.thread p).Typed rules Own.Idle (γ p) := by
  refine Machine.invariant (m := machine initproc HoleFree) (R := rules) (I := Inv)
    (fun _ _ => trivial) ?_ ?_ ?_ h
  · rintro s ⟨hb, hfull⟩
    exact ⟨_, hb.inv hfull, hb.idle⟩
  · intro u γ p c prog _ hI _ hidle hcode
    refine ⟨γ p, by rwa [Function.update_eq_self], ?_⟩
    simp only [machine] at hcode
    split at hcode
    · rename_i ha
      rw [hI.slots.proc p] at ha
      split at hcode
      · cases hcode
        exact Prog.wt_ite (fun _ => wt_panic ha (by decide)) fun _ => exit_wt hidle ha
      · cases hcode
        exact Call.code_wt hidle ha c
    · cases hcode
  · intro u γ p o k e r s' _ hI hty _ hth hpre hx
    obtain ⟨γ', hg, hI', hother⟩ := exec_kept hI hpre.1 hpre.2 hx
    refine ⟨γ', hg, hI', fun q hq => ?_⟩
    rcases hother q hq with h | ⟨hdead, hidle⟩
    · exact .inl h
    · refine .inr ⟨?_, hidle⟩
      -- a process that has an operation to execute is alive
      cases hthq : u.thread q with
      | panicked msg => rfl
      | run c =>
        cases c with
        | ret v => rfl
        | op o' k' =>
          have hq := hty q
          rw [hthq] at hq
          exact absurd hq.1.1 hdead

theorem reachable_panic (h : (machine initproc HoleFree).lts.Reachable t) {p : P} {msg : String}
    (hp : t.thread p = .panicked msg) : msg ∉ refPanics := by
  refine Machine.panicked (m := machine initproc HoleFree) (G := (· ∉ refPanics))
    (fun u hu => reachable_inv hu) ?_ h hp
  rintro u q o k e msg ⟨γ, hI, hty⟩ hth hx
  have hq := hty q
  rw [hth] at hq
  exact exec_panic hI hq.1.2 hx

/-- **Reference counts** are exact whenever no system call is in progress; the page of a pipe is freed once;
and the panics that a wrong count would lead to do not happen. -/
theorem references_exact (h : (machine initproc HoleFree).lts.Reachable t) :
    (Quiescent t → Exact t.shared) ∧
      (∀ pi, (t.shared.pipe pi).allocs = (t.shared.pipe pi).frees ∨
        (t.shared.pipe pi).allocs = (t.shared.pipe pi).frees + 1) ∧
      ∀ p, t.thread p ≠ .panicked "filedup" ∧ t.thread p ≠ .panicked "fileclose" ∧
        t.thread p ≠ .panicked "ilock" ∧ t.thread p ≠ .panicked "iunlock" := by
  obtain ⟨γ, hI, hty⟩ := reachable_inv h
  refine ⟨fun hq => hI.exact (hq.idle hty), hI.pipes.allocs, fun p => ?_⟩
  have hpanic : ∀ msg, msg ∈ refPanics → t.thread p ≠ .panicked msg :=
    fun msg hmsg hp => reachable_panic h hp hmsg
  exact ⟨hpanic _ (by decide), hpanic _ (by decide), hpanic _ (by decide), hpanic _ (by decide)⟩

/-- **No inode lock is leaked**: the holder of one is in the middle of a system call, and the entry of the table
is referenced, so that it is not recycled. -/
theorem inode_locks_released (h : (machine initproc HoleFree).lts.Reachable t) {e : Nat} {p : P}
    (hl : (t.shared.inode e).lock = some p) :
    (t.thread p).isIdle = false ∧ 0 < (t.shared.inode e).ref := by
  obtain ⟨γ, hI, hty⟩ := reachable_inv h
  obtain ⟨k, hk⟩ := (hI.locks.lock e p).mp hl
  refine ⟨Bool.eq_false_iff.mpr fun hidle => ?_, hI.ref_pos_of_held hk⟩
  have hnone := (idle_of_isIdle hidle (hty p)).held e
  cases hk.symm.trans hnone

def dirDinode (nlink : Int) (size block : Nat) : Dinode :=
  { type := .dir, major := 0, minor := 0, nlink := nlink, size := size
    addrs := fun k => if k = 0 then block else 0 }

/-- Two process slots after boot, on a disk with the directories `/`, `/a` and `/a/b`. -/
def sample : State Bool where
  ninodes := 200
  dinode
    | 1 => dirDinode 2 48 46
    | 2 => dirDinode 2 48 47
    | 3 => dirDinode 1 32 48
    | _ => Dinode.fresh .none
  ind _ _ := 0
  slot
    | 1, 0 => ⟨1, dot, 0⟩
    | 1, 1 => ⟨1, dotdot, 0⟩
    | 1, 2 => ⟨2, [97], 0⟩
    | 2, 0 => ⟨2, dot, 0⟩
    | 2, 1 => ⟨1, dotdot, 0⟩
    | 2, 2 => ⟨3, [98], 0⟩
    | 3, 0 => ⟨3, dot, 0⟩
    | 3, 1 => ⟨2, dotdot, 0⟩
    | _, _ => ⟨0, [], 0⟩
  nfree := 1000
  inode e :=
    { dev := ROOTDEV, inum := ROOTINO, ref := if e = 0 then 1 else 0, lock := none, valid := false
      d := Dinode.fresh .none }
  file _ :=
    { ref := 0, type := .none, readable := false, writable := false, pipe := 0, ip := 0, off := 0
      major := 0 }
  pipe _ := { readopen := false, writeopen := false, allocs := 0, frees := 0 }
  proc p :=
    if p then { stage := .alive, ofile := fun _ => none, cwd := some 0 }
    else { stage := .unused, ofile := fun _ => none, cwd := none }
  gen _ := 0
  unread _ := none

theorem sample_boot : Boot true sample := by
  refine ⟨rfl, fun e he => ⟨if_neg he, rfl, rfl⟩, fun _ => ⟨rfl, rfl⟩, fun _ => rfl, fun _ => rfl,
    rfl, fun p hp => ?_⟩
  cases p with
  | true => exact absurd rfl hp
  | false => rfl

theorem dirDinode_full {nlink : Int} {size block : Nat} (hs : size ≤ BSIZE) (hb : block ≠ 0)
    (ind : Nat → Nat) : (dirDinode nlink size block).Full ind := by
  refine ⟨hs.trans (by decide), fun bn hbn => ?_⟩
  have h0 : bn = 0 := by
    have : bn * BSIZE < BSIZE := Nat.lt_of_lt_of_le hbn hs
    rcases Nat.eq_zero_or_pos bn with h | h
    · exact h
    · exact absurd this (Nat.not_lt.mpr (Nat.le_mul_of_pos_left BSIZE h))
  subst h0
  exact hb

theorem sample_holeFree : HoleFree sample := fun i => by
  match i with
  | 0 => exact fun h => absurd rfl h
  | 1 => exact fun _ => dirDinode_full (by decide) (by decide) _
  | 2 => exact fun _ => dirDinode_full (by decide) (by decide) _
  | 3 => exact fun _ => dirDinode_full (by decide) (by decide) _
  | _ + 4 => exact fun h => absurd rfl h

def atRest (s : State P) : Conc P (Op P) (State P) Res :=
  { shared := s, thread := fun _ => .run (.ret 0) }

/-- A call of a process and its operations; the environment answers `1`, and finds slot two. -/
def callSteps (p : Bool) (c : Call) (n : Nat) : List (Bool × ConcAct (Env Bool) Call) :=
  (p, .call c) :: List.replicate n (p, .go { x := fun _ => 1, q := false })

theorem sample_init : (machine true HoleFree).lts.init (atRest sample) :=
  ⟨⟨sample_boot, sample_holeFree⟩, fun _ => rfl⟩

/-- After `pipe`, `fork` and a `close` of the child three descriptors are left. -/
theorem references_exact_pipe : ∃ t, (machine true HoleFree).lts.Reachable t ∧ Quiescent t ∧
    Exact t.shared ∧ descriptors t.shared 0 = 1 ∧ descriptors t.shared 1 = 2 := by
  obtain ⟨t, ht, hp⟩ := Lts.reachable_of_execs
    (callSteps true .pipe 10 ++ callSteps true .fork 10 ++ callSteps false (.close 0) 3)
    (fun t : Conc Bool (Op Bool) (State Bool) Res => decide ((t.thread true).isIdle = true ∧
      (t.thread false).isIdle = true ∧ (t.shared.file 0).ref = 1 ∧ (t.shared.file 1).ref = 2))
    sample_init (by decide +kernel)
  obtain ⟨h1, h2, h3, h4⟩ := of_decide_eq_true hp
  have hq : Quiescent t := fun p => by
    cases p with
    | true => exact h1
    | false => exact h2
  have hexact := (references_exact ht).1 hq
  refine ⟨t, ht, hq, hexact, ?_, ?_⟩
  · exact_mod_cast (hexact.file 0).symm.trans h3
  · exact_mod_cast (hexact.file 1).symm.trans h4

theorem inode_locks_released_open : ∃ t, (machine true HoleFree).lts.Reachable t ∧
    (t.shared.inode 0).lock = some true ∧ (t.thread true).isIdle = false := by
  obtain ⟨t, ht, hp⟩ := Lts.reachable_of_execs (callSteps true (.open (some [47]) 0) 8)
    (fun t : Conc Bool (Op Bool) (State Bool) Res => decide ((t.shared.inode 0).lock = some true))
    sample_init (by decide +kernel)
  have hl := of_decide_eq_true hp
  exact ⟨t, ht, hl, (inode_locks_released ht hl).1⟩

end Xv6Freezer.Files

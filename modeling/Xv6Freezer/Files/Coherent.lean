import Xv6Freezer.Files.Exact

/-! # Coherence of the inode table

At most one entry of the table is in use for an inode, and a valid unlocked entry has the contents of the
inode on the disk. A new inode can be lost before it is locked (`ialloc_lost`).
-/

namespace Xv6Freezer.Files

open Lib Function

variable {P : Type} {s s' : State P} {γ : P → Own P} {p q : P} {e i : Nat}

/-- A process has the inode locked and loaded, in an entry of the table. -/
def Inode.HeldBy (x : Inode P) (i : Nat) (q : P) : Prop :=
  x.inum = i ∧ x.lock = some q ∧ x.valid = true

/-- No process gets hold of the inode. -/
def NoIlock (i : Nat) (s s' : State P) : Prop :=
  ∀ e q, (s'.inode e).HeldBy i q → (s.inode e).HeldBy i q

theorem NoIlock.of_eq (h : s'.inode = s.inode) : NoIlock i s s' := fun e q hq => by
  rwa [h] at hq

theorem NoIlock.setEntry {f : Inode P → Inode P}
    (hf : ∀ q, (f (s.inode e)).HeldBy i q → (s.inode e).HeldBy i q) :
    NoIlock i s (s.setEntry e f) := fun e' q hq => by
  change (update s.inode e (f (s.inode e)) e').HeldBy i q at hq
  by_cases he : e' = e
  · subst he
    rw [update_self] at hq
    exact hf q hq
  · rwa [update_of_ne he] at hq

variable [Fintype P] [DecidableEq P]

omit [Fintype P] in
omit [DecidableEq P] in
theorem NoIlock.setBlocks {b : Blocks} {size : Nat} : NoIlock i s (s.setBlocks e b size) :=
  NoIlock.setEntry (s := s) (e := e)
    (f := fun x => { x with d := { x.d with addrs := b.addrs, size := size } }) fun _ hq => hq

omit [DecidableEq P] in
/-- A valid entry of an inode that nobody has read yet is locked. -/
theorem Inv.locked_of_unread (hI : Inv s γ) {t : FileType} (hu : s.unread i = some t) (hr : 0 < (s.inode e).ref)
    (hi : (s.inode e).inum = i) (hv : (s.inode e).valid = true) : (s.inode e).lock ≠ none := fun hn => by
  obtain ⟨q, h, hh, -⟩ := (hI.disk.fresh i t hu).2.2 e hr hi hv
  have := hI.lock_eq_none.mp hn q
  simp only [comp_apply] at hh
  rw [this] at hh
  cases hh

omit [DecidableEq P] in
/-- The sleep-lock is that of another inode, or of one that is not loaded. -/
theorem Inv.acquiresleep_unread (hI : Inv s γ) {t : FileType} (hu : s.unread i = some t)
    (hr : 0 < (s.inode e).ref) (hl : (s.inode e).lock = none) :
    (s.acquiresleep p e).unread i = some t ∧ NoIlock i s (s.acquiresleep p e) := by
  have hor : (s.inode e).inum ≠ i ∨ (s.inode e).valid = false := by
    by_contra hc
    rw [not_or, not_not, Bool.not_eq_false] at hc
    exact hI.locked_of_unread hu hr hc.1 hc.2 hl
  refine ⟨?_, NoIlock.setEntry (s := s) (e := e) (f := fun x => { x with lock := some p }) fun q hq => ?_⟩
  · show (if (s.inode e).valid = true then update s.unread (s.inode e).inum none else s.unread) i = _
    split
    · rename_i hv
      rw [update_of_ne (hor.resolve_right (by rw [hv]; exact nofun)).symm]
      exact hu
    · exact hu
  · rcases hor with h | h
    · exact absurd hq.1 h
    · have hv : (s.inode e).valid = true := hq.2.2
      rw [h] at hv
      cases hv

theorem exec_unread (hI : Inv s γ) {o : Op P} {x : Env P} {r : Res o} (hn : needs o (γ p))
    (hx : exec p o x s = .done r s') {t : FileType} (hu : s.unread i = some t) :
    s'.unread i = some t ∧ NoIlock i s s' ∨ ∃ e, o = .loadInode e ∧ (s.inode e).inum = i := by
  have hsame : s'.inode = s.inode → s'.unread = s.unread →
      s'.unread i = some t ∧ NoIlock i s s' := fun h1 h2 => ⟨h2 ▸ hu, .of_eq h1⟩
  have hentry : ∀ e (f : Inode P → Inode P), s' = s.setEntry e f →
      (∀ q, (f (s.inode e)).HeldBy i q → (s.inode e).HeldBy i q) →
      s'.unread i = some t ∧ NoIlock i s s' := fun e f h1 h2 => by
    rw [h1]
    exact ⟨hu, .setEntry h2⟩
  cases o with
  | loadInode ip =>
    by_cases hi : (s.inode ip).inum = i
    · exact .inr ⟨ip, rfl, hi⟩
    · cases hx
      refine .inl ⟨?_, NoIlock.setEntry (s := s) (e := ip)
        (f := fun x => { x with d := s.dinode x.inum, valid := true }) fun q hq => absurd hq.1 hi⟩
      show update s.unread (s.inode ip).inum none i = some t
      rwa [update_of_ne (Ne.symm hi)]
  | iget dev inum =>
    simp only [exec, State.iget] at hx
    split at hx
    · cases hx
      exact .inl (hentry _ _ rfl fun _ hq => hq)
    · split at hx
      · cases hx
        refine .inl (hentry _ _ rfl fun _ hq => ?_)
        cases hq.2.2
      · cases hx
  | acquiresleep ip =>
    simp only [exec] at hx
    split at hx
    · rename_i hl
      cases hx
      exact .inl (hI.acquiresleep_unread hu (hI.ref_pos_of_refd hn) hl)
    · cases hx
  | iputTest ip =>
    simp only [exec, State.iputTest] at hx
    split at hx
    · rename_i hfree
      split at hx
      · rename_i hl
        cases hx
        exact .inl (hI.acquiresleep_unread hu (by rw [hfree.1]; decide) hl)
      · cases hx
    · cases hx
      exact .inl (hentry _ _ rfl fun _ hq => hq)
  | iunlock ip =>
    simp only [exec] at hx
    split at hx <;> cases hx
    refine .inl (hentry _ _ rfl fun _ hq => ?_)
    cases hq.2.1
  | releasesleep ip =>
    cases hx
    refine .inl (hentry _ _ rfl fun _ hq => ?_)
    cases hq.2.1
  | clearValid ip =>
    cases hx
    refine .inl (hentry _ _ rfl fun _ hq => ?_)
    cases hq.2.2
  | idup ip | setInode ip f | iputDrop ip => cases hx; exact .inl (hentry _ _ rfl fun _ hq => hq)
  | iallocTry inum type =>
    simp only [exec, State.iallocTry] at hx
    split at hx
    · rename_i hfree
      cases hx
      have hne : i ≠ inum := by
        obtain ⟨ht, hd, -⟩ := hI.disk.fresh i t hu
        rintro rfl
        rw [hd] at hfree
        exact ht hfree
      refine .inl ⟨?_, .of_eq rfl⟩
      show update s.unread inum (some type) i = some t
      rwa [update_of_ne hne]
    · cases hx
      exact .inl (hsame rfl rfl)
  | readDirent ip off =>
    obtain ⟨h, hp, hc⟩ := hn
    obtain ⟨rfl, -⟩ := hI.readDirent hp hc hx
    exact .inl (hsame rfl rfl)
  | writeDirent ip off inum name =>
    simp only [exec, State.writeDirent] at hx
    (repeat' split at hx) <;> cases hx
    · exact .inl (hsame rfl rfl)
    · exact .inl ⟨hu, .setBlocks⟩
    · exact .inl ⟨hu, fun e q hq => NoIlock.setBlocks (s := s) e q hq⟩
  | readi ip off n =>
    obtain ⟨h, hp, hc⟩ := hn
    obtain rfl := hI.readi hp hc hx
    exact .inl (hsame rfl rfl)
  | writei ip off n =>
    simp only [exec, State.writei] at hx
    (repeat' split at hx) <;> cases hx
    · exact .inl (hsame rfl rfl)
    · exact .inl ⟨hu, .setBlocks⟩
  | reap =>
    cases hx
    refine .inl ?_
    unfold State.reap
    split <;> exact ⟨hu, .of_eq rfl⟩
  | panic | ilockCheck | filealloc | filedup | fileclose | newPipe | allocproc =>
    -- these leave the inodes alone
    simp only [exec, State.filealloc, State.filedup, State.fileclose, State.newPipe, State.allocproc] at hx
    (repeat' split at hx) <;> cases hx <;> exact .inl (hsame rfl rfl)
  | _ => cases hx; exact .inl (hsame rfl rfl)

variable {initproc : P} {t t' : Conc P (Op P) (State P) Res}

/-- The thread is about to try the inode in `ialloc`. -/
def triesInode (i : Nat) (type : FileType) : Thread (Op P) Res → Bool
  | .run (.op (.iallocTry j type') _) => decide (j = i ∧ type' = type)
  | _ => false

/-- The thread is about to look up the inode with `iget`. -/
def getsInode (i : Nat) : Thread (Op P) Res → Bool
  | .run (.op (.iget dev j) _) => decide (dev = ROOTDEV ∧ j = i)
  | _ => false

/-- A step of `ialloc` that finds the inode free. -/
def Allocates (p : P) (i : Nat) (type : FileType) (t : Conc P (Op P) (State P) Res) : Prop :=
  triesInode i type (t.thread p) = true ∧ (t.shared.dinode i).type = .none

omit [Fintype P] in
theorem unread_of_allocates {type : FileType} {x : Env P} (ha : Allocates p i type t)
    (hs : (machine initproc HoleFree).step t (p, .go x) = some t') :
    t'.shared.unread i = some type := by
  obtain ⟨htry, hfree⟩ := ha
  unfold Machine.step at hs
  unfold triesInode at htry
  split at htry
  · rename_i j type' k hth
    obtain ⟨rfl, rfl⟩ := of_decide_eq_true htry
    simp only [hth, machine, exec, State.iallocTry, hfree, if_true] at hs
    cases hs
    exact update_self ..
  · cases htry

theorem step_unread (h : (machine initproc HoleFree).lts.Reachable t) {a : P × ConcAct (Env P) Call}
    (hs : (machine initproc HoleFree).step t a = some t') {type : FileType}
    (hu : t.shared.unread i = some type) :
    t'.shared.unread i = some type ∧ NoIlock i t.shared t'.shared ∨
      ∃ e, (t.shared.inode e).inum = i ∧ t'.shared = t.shared.loadInode e ∧
        (t.shared.inode e).lock = some a.1 ∧ (t.shared.inode e).valid = false := by
  obtain ⟨γ, hI, hty⟩ := reachable_inv h
  obtain ⟨p, a⟩ := a
  unfold Machine.step at hs
  simp only at hs
  split at hs
  · rename_i o k x hth
    have hp := hty p
    rw [hth] at hp
    split at hs
    · cases hs
    · cases hs
      exact .inl ⟨hu, .of_eq rfl⟩
    · rename_i r s' hx
      cases hs
      rcases exec_unread hI hp.1.2 hx hu with h | ⟨e, rfl, hi⟩
      · exact .inl h
      · obtain ⟨k', hk, hv⟩ := hp.1.2
        have hl := (hI.locks.lock e p).mpr ⟨k', hk⟩
        have hval := (hI.disk.loaded p e k' hk).1
        cases hx
        exact .inr ⟨e, hi, rfl, hl, hval.trans hv⟩
  · obtain ⟨prog, -, rfl⟩ := Option.map_eq_some_iff.mp hs
    exact .inl ⟨hu, .of_eq rfl⟩
  · cases hs

/-- The step gets hold of no inode of this number. -/
def Leaves (initproc : P) (i : Nat) (t : Conc P (Op P) (State P) Res)
    (a : P × ConcAct (Env P) Call) : Prop :=
  ∀ t', (machine initproc HoleFree).step t a = some t' → NoIlock i t.shared t'.shared

/-- **Coherence of the inode table**: an inode has at most one entry, an entry that is valid and unlocked is
as on the disk, and who first gets hold of a new inode finds it new. -/
theorem inode_table_coherent (h : (machine initproc HoleFree).lts.Reachable t) :
    (∀ e e', 0 < (t.shared.inode e).ref → 0 < (t.shared.inode e').ref →
      (t.shared.inode e).dev = (t.shared.inode e').dev →
      (t.shared.inode e).inum = (t.shared.inode e').inum → e = e') ∧
    (∀ e, 0 < (t.shared.inode e).ref → (t.shared.inode e).valid = true →
      (t.shared.inode e).lock = none →
      (t.shared.inode e).d = t.shared.dinode (t.shared.inode e).inum) ∧
    ∀ p i type x t₁ t₂ t₃ a e q, Allocates p i type t →
      (machine initproc HoleFree).lts.step t (p, .go x) = some t₁ →
      (machine initproc HoleFree).lts.RunIf (Leaves initproc i) t₁ t₂ →
      (machine initproc HoleFree).lts.step t₂ a = some t₃ →
      (t₃.shared.inode e).HeldBy i q → ¬ (t₂.shared.inode e).HeldBy i q →
      (t₃.shared.inode e).d = Dinode.fresh type := by
  obtain ⟨γ, hI, -⟩ := reachable_inv h
  refine ⟨fun e e' he he' _ hn => hI.disk.uniq e e' he he' hn, fun e he hv hl => ?_, ?_⟩
  · exact (hI.disk.free e he hv fun p => hI.lock_eq_none.mp hl p).1
  · intro p i type x t₁ t₂ t₃ a e q hal hs hrun hs' hheld hnot
    have hr₁ := h.trans (Lts.RunIf.tail (.refl t) trivial hs)
    -- along the run the inode stays allocated and unread
    have hr₂ : (machine initproc HoleFree).lts.Reachable t₂ ∧ t₂.shared.unread i = some type := by
      refine hrun.invariant (I := fun u => (machine initproc HoleFree).lts.Reachable u ∧
        u.shared.unread i = some type) ⟨hr₁, unread_of_allocates hal hs⟩ ?_
      rintro u b u' ⟨hu, hun⟩ hleave hstep
      refine ⟨hu.trans (Lts.RunIf.tail (.refl u) trivial hstep), ?_⟩
      rcases step_unread hu hstep hun with h | ⟨e', hi, hload, hlock, hval⟩
      · exact h.1
      · -- loading the inode would get hold of it
        have hgot := hleave u' hstep e' b.1 (by
          rw [hload]
          simp [State.loadInode, State.setEntry, Inode.HeldBy, hi, hlock])
        rw [hgot.2.2] at hval
        cases hval
    rcases step_unread hr₂.1 hs' hr₂.2 with ⟨-, hno⟩ | ⟨e', hi, hload, -, -⟩
    · exact absurd (hno e q hheld) hnot
    · obtain ⟨γ₂, hI₂, -⟩ := reachable_inv hr₂.1
      have hee : e = e' := by
        by_contra hne
        have heq : t₃.shared.inode e = t₂.shared.inode e := by
          rw [hload]
          exact update_of_ne hne _ _
        rw [heq] at hheld
        exact hnot hheld
      subst hee
      rw [hload]
      show (update t₂.shared.inode e _ e).d = _
      rw [update_self]
      show t₂.shared.dinode (t₂.shared.inode e).inum = _
      rw [hi]
      exact (hI₂.disk.fresh i type hr₂.2).2.1

theorem run_leaves {type : FileType} (h : (machine initproc HoleFree).lts.Reachable t)
    (hu : t.shared.unread i = some type)
    (hrun : (machine initproc HoleFree).lts.RunIf
      (fun u b => ∀ u', (machine initproc HoleFree).step u b = some u' →
        u'.shared.unread i = some type) t t') :
    (machine initproc HoleFree).lts.RunIf (Leaves initproc i) t t' := by
  have hall : (machine initproc HoleFree).lts.RunIf (Leaves initproc i) t t' ∧
      (machine initproc HoleFree).lts.Reachable t' ∧ t'.shared.unread i = some type := by
    refine hrun.invariant (I := fun u => (machine initproc HoleFree).lts.RunIf (Leaves initproc i) t u ∧
      (machine initproc HoleFree).lts.Reachable u ∧ u.shared.unread i = some type)
      ⟨.refl t, h, hu⟩ ?_
    rintro u b u' ⟨hr, hreach, hun⟩ hok hs
    refine ⟨hr.tail (fun u'' hs'' => ?_) hs, hreach.trans (Lts.RunIf.tail (.refl u) trivial hs),
      hok u' hs⟩
    rcases step_unread hreach hs'' hun with h | ⟨e, hi, hload, -, -⟩
    · exact h.2
    · have h1 := hok u'' hs''
      rw [hload] at h1
      simp [State.loadInode, hi] at h1
  exact hall.1

/-- The process `true` in `mkdir("/x")` after `n` operations. -/
def mkdirSteps (n : Nat) : List (Bool × ConcAct (Env Bool) Call) :=
  callSteps true (.mkdir (some [47, 120])) n

/-- One more operation of the process `true`. -/
def oneStep : Bool × ConcAct (Env Bool) Call := (true, .go { x := fun _ => 1, q := false })

/-- In the example the inode is unread after the step. -/
def staysUnread (i : Nat) (t : Conc Bool (Op Bool) (State Bool) Res)
    (a : Bool × ConcAct (Env Bool) Call) : Bool :=
  match (machine true HoleFree).step t a with
  | none => true
  | some t' => decide (t'.shared.unread i = some .dir)

theorem of_staysUnread {u u' : Conc Bool (Op Bool) (State Bool) Res}
    {b : Bool × ConcAct (Env Bool) Call} (h : staysUnread i u b = true)
    (hs : (machine true HoleFree).step u b = some u') : u'.shared.unread i = some .dir := by
  unfold staysUnread at h
  rw [hs] at h
  exact of_decide_eq_true h

/-- `mkdir` finds the inode that `ialloc` has allocated as new. -/
theorem inode_table_coherent_mkdir : ∃ t t₁ t₂ t₃ e, (machine true HoleFree).lts.Reachable t ∧
    Allocates true 4 .dir t ∧ (machine true HoleFree).lts.step t oneStep = some t₁ ∧
    (machine true HoleFree).lts.RunIf (Leaves true 4) t₁ t₂ ∧
    (machine true HoleFree).lts.step t₂ oneStep = some t₃ ∧
    (t₃.shared.inode e).d = Dinode.fresh .dir := by
  -- the states in question exist
  have heval : (((machine true HoleFree).lts.execs (fun _ _ => true) (atRest sample)
      (mkdirSteps 21)).bind fun t => ((machine true HoleFree).lts.step t oneStep).bind fun t₁ =>
      ((machine true HoleFree).lts.execs (staysUnread 4) t₁ (List.replicate 4 oneStep)).bind fun t₂ =>
      ((machine true HoleFree).lts.step t₂ oneStep).map fun t₃ =>
        decide (triesInode 4 .dir (t.thread true) = true ∧ (t.shared.dinode 4).type = .none ∧
          ((t₃.shared.inode 1).inum = 4 ∧ (t₃.shared.inode 1).lock = some true ∧
            (t₃.shared.inode 1).valid = true) ∧ (t₂.shared.inode 1).valid = false)) = some true := by
    decide
  obtain ⟨t, ht, h1⟩ := Option.bind_eq_some_iff.mp heval
  obtain ⟨t₁, ht₁, h2⟩ := Option.bind_eq_some_iff.mp h1
  obtain ⟨t₂, ht₂, h3⟩ := Option.bind_eq_some_iff.mp h2
  obtain ⟨t₃, ht₃, h4⟩ := Option.map_eq_some_iff.mp h3
  obtain ⟨htry, hfree, hheld, hinvalid⟩ := of_decide_eq_true h4
  have hreach : (machine true HoleFree).lts.Reachable t :=
    ⟨_, sample_init, (Lts.runIf_of_execs ht).mono fun _ _ _ => trivial⟩
  have hal : Allocates true 4 .dir t := ⟨htry, hfree⟩
  have hrun := run_leaves (hreach.trans (Lts.RunIf.tail (.refl t) trivial ht₁))
    (unread_of_allocates hal ht₁)
    ((Lts.runIf_of_execs ht₂).mono fun u b hb u' hs => of_staysUnread hb hs)
  refine ⟨t, t₁, t₂, t₃, 1, hreach, hal, ht₁, hrun, ht₃, ?_⟩
  refine (inode_table_coherent hreach).2.2 true 4 .dir _ t₁ t₂ t₃ oneStep 1 true hal ht₁ hrun ht₃ hheld
    fun hc => ?_
  have hv : (t₂.shared.inode 1).valid = true := hc.2.2
  rw [hinvalid] at hv
  cases hv

/-- **An inode that `ialloc` has allocated can be lost before it is locked.** The entry `..` of a removed
directory, the current one of `false`, still names the freed inode 2. While `true` is in `ialloc` of it,
`false` opens and closes `..`, which frees it again. -/
theorem ialloc_lost : ∃ t t₁ t₂ t₃ t₄ t₅ t₆, (machine true HoleFree).lts.Reachable t ∧
    Allocates true 2 .dir t ∧ (machine true HoleFree).lts.step t oneStep = some t₁ ∧
    (machine true HoleFree).lts.RunIf (fun _ a => a.1 = false) t₁ t₂ ∧
    getsInode 2 (t₂.thread true) = true ∧ (machine true HoleFree).lts.step t₂ oneStep = some t₃ ∧
    (machine true HoleFree).lts.RunIf (fun _ a => a.1 = true) t₃ t₄ ∧
    (machine true HoleFree).lts.step t₄ oneStep = some t₅ ∧
    (t₅.shared.inode 1).HeldBy 2 true ∧ ¬ (t₄.shared.inode 1).HeldBy 2 true ∧
    (t₅.shared.inode 1).d.type = .none ∧
    (machine true HoleFree).lts.RunIf (fun _ a => a.1 = true) t₅ t₆ ∧
    ∃ msg, t₆.thread true = .panicked msg ∧ msg = "ilock: no type" := by
  have heval : (((machine true HoleFree).lts.execs (fun _ _ => true) (atRest sample)
      (callSteps true .fork 6 ++ callSteps false (.chdir (some [47, 97, 47, 98])) 39 ++
        callSteps true (.unlink (some [47, 97, 47, 98])) 44 ++
        callSteps true (.unlink (some [47, 97])) 56 ++ mkdirSteps 17)).bind fun t =>
      ((machine true HoleFree).lts.step t oneStep).bind fun t₁ =>
      ((machine true HoleFree).lts.execs (fun _ a => a.1 = false) t₁
        (callSteps false (.open (some [46, 46]) 0) 27 ++ callSteps false (.close 0) 26)).bind fun t₂ =>
      ((machine true HoleFree).lts.step t₂ oneStep).bind fun t₃ =>
      ((machine true HoleFree).lts.execs (fun _ a => a.1 = true) t₃
        (List.replicate 3 oneStep)).bind fun t₄ =>
      ((machine true HoleFree).lts.step t₄ oneStep).bind fun t₅ =>
      ((machine true HoleFree).lts.execs (fun _ a => a.1 = true) t₅
        (List.replicate 2 oneStep)).map fun t₆ =>
        decide (triesInode 2 .dir (t.thread true) = true ∧ (t.shared.dinode 2).type = .none ∧
          getsInode 2 (t₂.thread true) = true ∧
          ((t₅.shared.inode 1).inum = 2 ∧ (t₅.shared.inode 1).lock = some true ∧
            (t₅.shared.inode 1).valid = true) ∧ (t₄.shared.inode 1).valid = false ∧
          (t₅.shared.inode 1).d.type = .none ∧ (t₆.thread true).msg? = some "ilock: no type")) =
      some true := by
    decide +kernel
  obtain ⟨t, ht, h1⟩ := Option.bind_eq_some_iff.mp heval
  obtain ⟨t₁, ht₁, h2⟩ := Option.bind_eq_some_iff.mp h1
  obtain ⟨t₂, ht₂, h3⟩ := Option.bind_eq_some_iff.mp h2
  obtain ⟨t₃, ht₃, h4⟩ := Option.bind_eq_some_iff.mp h3
  obtain ⟨t₄, ht₄, h5⟩ := Option.bind_eq_some_iff.mp h4
  obtain ⟨t₅, ht₅, h6⟩ := Option.bind_eq_some_iff.mp h5
  obtain ⟨t₆, ht₆, h7⟩ := Option.map_eq_some_iff.mp h6
  obtain ⟨htry, hfree, hget, hheld, hinvalid, htype, hpanic⟩ := of_decide_eq_true h7
  refine ⟨t, t₁, t₂, t₃, t₄, t₅, t₆,
    ⟨_, sample_init, (Lts.runIf_of_execs ht).mono fun _ _ _ => trivial⟩, ⟨htry, hfree⟩, ht₁,
    (Lts.runIf_of_execs ht₂).mono fun _ _ hb => of_decide_eq_true hb, hget, ht₃,
    (Lts.runIf_of_execs ht₄).mono fun _ _ hb => of_decide_eq_true hb, ht₅, hheld, fun hc => ?_, htype,
    (Lts.runIf_of_execs ht₆).mono fun _ _ hb => of_decide_eq_true hb, ?_⟩
  · have hv : (t₄.shared.inode 1).valid = true := hc.2.2
    rw [hinvalid] at hv
    cases hv
  · exact ⟨_, Thread.eq_of_msg? hpanic, rfl⟩

end Xv6Freezer.Files

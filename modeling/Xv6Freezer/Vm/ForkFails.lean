import Xv6Freezer.Vm.Growproc

/-! # `fork` that fails

When something runs out, `allocproc` and `fork` call `freeproc`, which has to give back exactly what has been
taken so far (`freeproc_spec`). **A call that fails leaves everything as it was** (`fork_fails_clean`): it
does not panic, and only `nextpid` has advanced. A child is a copy of its parent (`fork_copies`).
-/

namespace Xv6Freezer.Vm

open Lib

variable {L : Layout} {R : Multiset Nat} {m0 m : Mem} {old new tf sz n : Nat}

/-! ## `uvmcopy` -/

inductive Uvmcopied (L : Layout) (R : Multiset Nat) (new tf n : Nat) (m0 : Mem) (x : Int) (m : Mem) :
    Prop where
  | copied (hx : x = 0) (appended : Appended L R new tf 0 m0 n m)
  | failed (hx : x = -1) (popped : Popped L R new tf 0 0 m0 m)

theorem uvmcopyLoop_total (h₀ : UserTable L R new tf 0 m0) (hold : Shape m0.bytes 2 old)
    (htabs : ∀ x ∈ tables m0.bytes 2 old, x ∈ R) (hleaf : ∀ v < n, Leaf (m0.pte old v))
    (hn : n * PGSIZE ≤ MAXVA) (hsz : ∀ v, v * PGSIZE < sz ↔ v < n) (fuel : Nat) :
    ∀ {k m}, k ≤ n → n - k < fuel → Appended L R new tf 0 m0 k m →
      wp (uvmcopyLoop L old new sz fuel (k * PGSIZE))
        (fun x m' => Uvmcopied L R new tf n m0 x m') m := by
  induction fuel with
  | zero => exact fun _ hfuel => absurd hfuel (Nat.not_lt_zero _)
  | succ fuel ih =>
    intro k m hk hfuel h
    rw [uvmcopyLoop]
    by_cases hkn : k < n
    · have hva : k * PGSIZE < MAXVA :=
        (Nat.mul_lt_mul_of_pos_right hkn (by decide)).trans_le hn
      have hdiv : k * PGSIZE / PGSIZE = k := Nat.mul_div_cancel _ (by decide)
      -- the old table is among the pages that are not touched
      have hsame : ∀ x ∈ tables m0.bytes 2 old, SamePage m0.bytes m.bytes x := fun x hx =>
        h.same h₀ x (Multiset.mem_add.mpr (.inr (htabs x hx)))
      have hw := hleaf k hkn
      have hperm := PTE_FLAGS_lt (m0.pte old k)
      have hrwx : PTE_FLAGS (m0.pte old k) &&& (PTE_R ||| PTE_W ||| PTE_X) ≠ 0 := by
        rw [← and_flags (by decide)]
        exact hw.perm
      have hundo : ∀ m1, Appended L R new tf 0 m0 k m1 →
          wp (do uvmunmap L new 0 k true; return -1)
            (fun x m' => Uvmcopied L R new tf n m0 x m') m1 := by
        intro m1 h1
        have hu := h1.undo
        rw [Nat.zero_mul, Nat.sub_zero] at hu
        rw [wp_bind]
        exact wp_mono hu fun _ m' hp => wp_pure.mpr (.failed rfl hp)
      rw [if_pos ((hsz k).mpr hkn), wp_bind, walk_read hva, hdiv]
      cases hs : slot m.bytes 2 old k with
      | none =>
        have h0 : m0.pte old k = 0 := (entry_congr hsame).symm.trans (entry_of_slot_none hs)
        exact absurd h0 hw.ne_zero
      | some a =>
        have hload : m.bytes.load64 a = m0.pte old k := (load_of_slot hs).trans (entry_congr hsame)
        rw [Option.getD_some, if_neg (slot_ne_zero (hold.congr hsame) hs), wp_bind, wp_load, hload,
          if_neg hw.valid, wp_bind]
        refine wp_mono (kalloc_spec h.table.owns.isPage_free) fun r m1 hr => ?_
        cases hr with
        | none hr _ hmv1 =>
          rw [if_pos hr]
          exact hundo m1 (h.none hmv1)
        | page hr _ hmv1 =>
          rw [if_neg hr.pos.ne', wp_bind, wp_memmove, wp_bind]
          generalize hm2 : { m1 with
            bytes := m1.bytes.fill r PGSIZE fun i => m1.bytes (PTE2PA (m0.pte old k) + i) } = m2
          have hfill : heap.Moves {r} {r} m1 m2 := hm2 ▸ moves_fill hr
          refine wp_mono (h.round hr hperm hrwx (hmv1.trans hfill)) fun x m3 h3 => ?_
          obtain ⟨-, hR⟩ := h3
          cases hR with
          | page hx hnext _ _ _ =>
            rw [if_neg (not_not.mpr hx), u64_of_lt (add_pgsize_lt hva), ← Nat.succ_mul]
            exact ih hkn (by omega) hnext
          | failed hx hback =>
            rw [if_pos (by rw [hx]; decide), wp_bind]
            exact wp_mono hback fun _ m4 h4 => hundo m4 h4
    · rw [if_neg (fun hlt => hkn ((hsz k).mp hlt)), wp_pure]
      obtain rfl : k = n := by omega
      exact .copied rfl h

/-- **`uvmcopy`** copies all pages of a table that has them, or none. -/
theorem uvmcopy_total (h0 : UserTable L R new tf 0 m0) (hold : Shape m0.bytes 2 old)
    (htabs : ∀ x ∈ tables m0.bytes 2 old, x ∈ R)
    (hleaf : ∀ v < PGROUNDUP sz / PGSIZE, Leaf (m0.pte old v)) (hsz : sz ≤ MAXVA) :
    wp (uvmcopy L old new sz)
      (fun x m' => Uvmcopied L R new tf (PGROUNDUP sz / PGSIZE) m0 x m') m0 := by
  have hbounds := roundUp_bounds hsz
  have hmul := roundUp_mul sz
  have hn : PGROUNDUP sz / PGSIZE * PGSIZE ≤ MAXVA := by
    rw [hmul]
    unfold PGROUNDUP PGSIZE MAXVA u64 at *
    omega
  have hfuel : PGROUNDUP sz / PGSIZE - 0 < sz / PGSIZE + 2 := by
    unfold PGSIZE at *
    omega
  have hloop := uvmcopyLoop_total h0 hold htabs hleaf hn (fun v => mul_lt_iff_of_roundUp hsz) _
    (Nat.zero_le _) hfuel (.start h0)
  rwa [Nat.zero_mul] at hloop

end Xv6Freezer.Vm

namespace Xv6Freezer.Fork

open Lib Vm Function

variable {L : Layout} {forkret : Nat} {C A : Multiset Nat} {m m' : Mem} {s s' : State} {p np : Slot}
  {q : Proc}

/-! ## `freeproc` -/

def freed (q : Proc) : Proc :=
  { q with
    trapframe := 0, pagetable := 0, sz := 0, pid := 0, parent := none, name := [], chan := 0,
    killed := 0, xstate := 0, state := .unused }

/-- **The pages that a slot holds**: none, a trapframe, or a trapframe and an address space. -/
inductive Held (L : Layout) (C : Multiset Nat) (q : Proc) (m : Mem) : Multiset Nat → Prop where
  | none (htf : q.trapframe = 0) (hpt : q.pagetable = 0) : Held L C q m 0
  | trapframe (hpt : q.pagetable = 0) (owns : Owns L ({q.trapframe} + C) m) :
      Held L C q m {q.trapframe}
  | space (hpt : q.pagetable ≠ 0)
      (table : UserTable L ({q.trapframe} + C) q.pagetable q.trapframe q.npages m) :
      Held L C q m (m.space q.pagetable q.npages + {q.trapframe})

theorem Held.fresh (hsz : q.sz = 0) (hpt : q.pagetable ≠ 0)
    (table : UserTable L ({q.trapframe} + C) q.pagetable q.trapframe 0 m) :
    Held L C q m (tables m.bytes 2 q.pagetable + {q.trapframe}) := by
  have hn : q.npages = 0 := by
    rw [Proc.npages, hsz]
    decide
  have hspace : m.space q.pagetable q.npages = tables m.bytes 2 q.pagetable := by
    rw [hn]
    exact add_zero _
  rw [← hspace]
  exact .space hpt (by rwa [hn])

theorem kfree_trapframe {tf : Nat} (ho : Owns L ({tf} + C) m) :
    wp (kfree L tf) (fun _ m' => heap.Moves {tf} 0 m m') m := by
  have hown : Owns L (0 + {tf}) m := by
    rw [zero_add]
    exact ho.left
  refine wp_mono (kfree_spec hown) fun _ m' ⟨hmv, _⟩ => ?_
  rwa [zero_add] at hmv

theorem freeproc_spec (h : Held L C (s.proc np) s.mem A) :
    wp (freeproc L np) (fun _ s' => ∃ m', heap.Moves A 0 s.mem m' ∧
      s' = State.setProc { s with mem := m' } np freed) s := by
  rw [freeproc, wp_bind, wp_get, wp_ite_bind]
  cases h with
  | none htf hpt =>
    rw [if_neg (not_not.mpr htf), wp_pure, wp_ite_bind, if_neg (not_not.mpr hpt), wp_pure, wp_setProc]
    exact ⟨s.mem, .refl _ _ _, rfl⟩
  | trapframe hpt ho =>
    have htf := (ho.isPage_mem (x := (s.proc np).trapframe) (by simp)).pos.ne'
    rw [if_pos htf, wp_onMem]
    refine wp_mono (kfree_trapframe ho) fun _ m1 hmv => ?_
    rw [wp_ite_bind, if_neg (not_not.mpr hpt), wp_pure, wp_setProc]
    exact ⟨m1, hmv, rfl⟩
  | space hpt ht =>
    rw [if_pos ht.isPage.pos.ne', wp_onMem]
    refine wp_mono (kfree_trapframe ht.table.owns.right.right) fun _ m1 hmv => ?_
    have hmv1 := (hmv.frame C).congr rfl (zero_add C)
    have ht1 := (ht.other hmv1).1
    have hspace := ht.space_other hmv1
    rw [wp_ite_bind, if_pos hpt, wp_onMem]
    refine wp_mono (procFreepagetable_spec ht1 rfl) fun _ m2 hmv2 => ?_
    rw [wp_setProc]
    refine ⟨m2, ?_, rfl⟩
    rw [hspace] at hmv2
    exact ((hmv.frame _).congr (add_comm _ _) (zero_add _)).trans hmv2

/-! ## `allocproc` -/

/-- Unused slots hold nothing, as `freeproc` leaves them. -/
def UnusedSlots (s : State) : Prop :=
  ∀ q, (s.proc q).state = .unused → (s.proc q).pagetable = 0 ∧ (s.proc q).sz = 0

/-- **Everything is as it was**, but for `nextpid` and a slot that is free again. -/
structure Undone (s s' : State) : Prop where
  moves : heap.Moves 0 0 s.mem s'.mem
  slots : s'.proc = s.proc ∨ ∃ np context, (s.proc np).state = .unused ∧
    s'.proc = update s.proc np (freed { s.proc np with context := context })
  nextpid : s'.nextpid = s.nextpid ∨ s'.nextpid = int32 (s.nextpid + 1)
  fileRef : s'.fileRef = s.fileRef
  inodeRef : s'.inodeRef = s.inodeRef

inductive Allocproced (L : Layout) (C : Multiset Nat) (s : State) : Option Slot → State → Prop where
  | none {s' : State} (undone : Undone s s') : Allocproced L C s none s'
  /-- A slot has a trapframe, and a page table without user memory. -/
  | some {m' : Mem} {np tf pt : Nat} {context : Nat → Nat} (unused : (s.proc np).state = .unused)
      (hpt : pt ≠ 0) (table : UserTable L ({tf} + C) pt tf 0 m')
      (moves : heap.Moves 0 (tables m'.bytes 2 pt + {tf}) s.mem m') :
      Allocproced L C s (some np)
        { s with
          mem := m'
          proc := update s.proc np { s.proc np with
            pid := s.nextpid, state := .used, trapframe := tf, pagetable := pt, context := context }
          nextpid := int32 (s.nextpid + 1) }

theorem setProc_proc (f : Proc → Proc) : (s.setProc p f).proc = update s.proc p (f (s.proc p)) := rfl

theorem freeproc_undone {s1 : State} (context : Nat → Nat) (hunused : (s.proc np).state = .unused)
    (hproc : s1.proc = update s.proc np q) (hq : freed q = freed { s.proc np with context := context })
    (hheld : Held L C q s1.mem A) (hmv : heap.Moves 0 A s.mem s1.mem)
    (hpid : s1.nextpid = int32 (s.nextpid + 1)) (hfile : s1.fileRef = s.fileRef)
    (hinode : s1.inodeRef = s.inodeRef) : wp (freeproc L np) (fun _ s' => Undone s s') s1 := by
  have hself : s1.proc np = q := by rw [hproc, update_self]
  rw [← hself] at hheld
  refine wp_mono (freeproc_spec hheld) fun _ s' ⟨m', hmv', hs'⟩ => ?_
  subst hs'
  refine ⟨hmv.trans hmv', .inr ⟨np, context, hunused, ?_⟩, .inr hpid, hfile, hinode⟩
  rw [setProc_proc, ← hq]
  dsimp only
  rw [hself, hproc, update_idem]

theorem allocproc_total (ho : Owns L C s.mem) (hslots : UnusedSlots s) :
    wp (allocproc L forkret) (fun r s' => Allocproced L C s r s') s := by
  rw [allocproc, wp_bind, wp_get]
  cases hfind : (List.range NPROC).find? fun p => (s.proc p).state = .unused with
  | none => exact wp_pure.mpr (.none ⟨.refl _ _ _, .inl rfl, .inl rfl, rfl, rfl⟩)
  | some np =>
    have hunused : (s.proc np).state = .unused := by
      simpa using List.find?_some hfind
    have hpt0 := (hslots np hunused).1
    dsimp only
    rw [wp_bind, allocpid, wp_bind, wp_get, wp_bind, wp_modify, wp_pure, wp_bind, wp_setProc, wp_bind,
      wp_onMem]
    refine wp_mono (kalloc_spec ho.isPage_free) fun tf m1 h1 => ?_
    rw [wp_bind, wp_setProc]
    cases h1 with
    | none hr _ hmv =>
      rw [if_pos hr, wp_bind]
      refine wp_mono (freeproc_undone (L := L) (C := C) (A := 0) (s := s)
        (q := { s.proc np with pid := s.nextpid, state := .used, trapframe := tf })
        (s.proc np).context hunused ?_ rfl
        (.none hr hpt0) hmv rfl rfl rfl) fun _ s' hs' => wp_pure.mpr (.none hs')
      simp only [setProc_proc, update_self, update_idem]
    | page hr _ hmv =>
      have ho1 : Owns L ({tf} + C) m1 := ho.moves ((hmv.frame C).congr (zero_add C) rfl)
      rw [if_neg hr.pos.ne', wp_bind, wp_onMem]
      refine wp_mono (procPagetable_total ho1 (by simp)) fun pt m2 h2 => ?_
      rw [wp_bind, wp_setProc]
      cases h2 with
      | none hpt hmv2 =>
        have hmv' : heap.Moves 0 {tf} s.mem m2 :=
          hmv.trans ((hmv2.frame {tf}).congr (zero_add _) (zero_add _))
        rw [if_pos hpt, wp_bind]
        refine wp_mono (freeproc_undone (L := L) (C := C) (A := {tf}) (s := s)
          (q := { s.proc np with pid := s.nextpid, state := .used, trapframe := tf, pagetable := pt })
          (s.proc np).context hunused ?_ rfl (.trapframe hpt (ho.moves ((hmv'.frame C).congr (zero_add C) rfl)))
          hmv' rfl rfl rfl) fun _ s' hs' => wp_pure.mpr (.none hs')
        simp only [setProc_proc, update_self, update_idem]
      | table hpt ht hmv2 =>
        have hmv' : heap.Moves 0 (tables m2.bytes 2 pt + {tf}) s.mem m2 :=
          hmv.trans ((hmv2.frame {tf}).congr (zero_add _) rfl)
        rw [if_neg hpt, wp_bind, wp_setProc, wp_pure]
        simp only [State.setProc, update_self, update_idem]
        exact .some hunused hpt ht hmv'

/-! ## `fork` -/

theorem forkOfiles_total (hne : p ≠ np) (fds : List Nat)
    (href : ∀ fd ∈ fds, ∀ f, (s.proc p).ofile fd = some f → 1 ≤ s.fileRef f) :
    wp (fds.forM (forkOfile p np)) (fun _ _ => True) s := by
  induction fds generalizing s with
  | nil => exact wp_pure.mpr trivial
  | cons fd fds ih =>
    show wp (forkOfile p np fd >>= fun _ => fds.forM (forkOfile p np)) _ s
    have hrest : ∀ fd' ∈ fds, ∀ f, (s.proc p).ofile fd' = some f → 1 ≤ s.fileRef f :=
      fun fd' h => href fd' (.tail _ h)
    rw [wp_bind, forkOfile, wp_bind, wp_get]
    cases hfd : (s.proc p).ofile fd with
    | none => exact wp_pure.mpr (ih hrest)
    | some f =>
      have hf := href fd (.head _) f hfd
      dsimp only
      rw [wp_bind, filedup, wp_bind, wp_get, if_neg (by omega), wp_modify, wp_setProc]
      refine ih fun fd' hmem f' hf' => ?_
      rw [setProc_of_ne hne] at hf'
      show 1 ≤ update s.fileRef f (s.fileRef f + 1) f'
      by_cases hff : f' = f
      · rw [hff, update_self]
        omega
      · rw [update_of_ne hff]
        exact hrest fd' hmem f' hf'

inductive ForkDone (L : Layout) (p : Slot) (s : State) (r : Int) (s' : State) : Prop where
  | failed (hr : r = -1) (undone : Undone s s')
  | child (np : Slot) (hr : r = s.nextpid) (unused : (s.proc np).state = .unused)
      (state : (s'.proc np).state = .runnable) (parent : (s'.proc np).parent = some p)

/-- **`fork` makes a child, or gives everything back.** -/
theorem fork_total (forkret : Nat) (h : AddressSpace L C (s.proc p) s.mem) (hp : (s.proc p).state ≠ .unused)
    (hslots : UnusedSlots s)
    (href : ∀ fd < NOFILE, ∀ f, (s.proc p).ofile fd = some f → 1 ≤ s.fileRef f) :
    wp (fork L forkret p) (fun r s' => ForkDone L p s r s') s := by
  rw [fork, wp_bind]
  refine wp_mono (allocproc_total h.table.owns hslots) fun r s1 h1 => ?_
  cases h1 with
  | none hundone => exact wp_pure.mpr (.failed rfl hundone)
  | @some m1 np tf pt context hunused hpt ht hmv =>
    have hne : p ≠ np := by
      rintro rfl
      exact hp hunused
    have hsz := (hslots np hunused).2
    -- the pages of the parent are where they were
    have hparent := (h.table.other ((hmv.frame _).congr (zero_add _) rfl)).1
    obtain ⟨-, -, htab, hpte⟩ := h.table.other ((hmv.frame _).congr (zero_add _) rfl)
    dsimp only
    rw [wp_bind, wp_get, wp_bind, wp_onMem]
    dsimp only
    rw [update_self, update_of_ne hne]
    refine wp_mono (uvmcopy_total ht hparent.table.shape (fun x hx => ?_) (fun v hv => ?_) h.le_maxva)
      fun x m2 h2 => ?_
    · rw [htab] at hx
      simp [Mem.space, hx]
    · rw [hpte]
      exact h.table.leaf v hv
    cases h2 with
    | failed hx hP =>
      have hmv2 := hP.moves
      rw [Nat.sub_self, show mappedPages (m1.pte pt) 0 0 = 0 from rfl, add_zero] at hmv2
      have hheld := Held.fresh (q := { s.proc np with
        pid := s.nextpid, state := .used, trapframe := tf, pagetable := pt, context := context })
        hsz hpt hP.table
      rw [if_pos (by omega), wp_bind]
      exact wp_mono (freeproc_undone context hunused rfl rfl hheld
        (hmv.trans (hmv2.frame {tf})) rfl rfl rfl) fun _ s' hs' => wp_pure.mpr (.failed rfl hs')
    | copied hx hA =>
      rw [if_neg (by omega), wp_bind, wp_setProc, wp_bind, wp_onMem, wp_memmove, wp_bind, wp_onMem,
        wp_store, wp_bind]
      refine wp_mono (forkOfiles_total hne _ fun fd hfd f hf => ?_) fun _ s4 _ => ?_
      · simp only [setProc_of_ne hne, update_of_ne hne] at hf
        exact href fd (List.mem_range.mp hfd) f hf
      · rw [wp_bind, idup, wp_modify, wp_bind, wp_setProc, wp_pure]
        exact .child np rfl hunused (by simp) (by simp)

structure ForkFailed (C : Multiset Nat) (p : Slot) (s s' : State) : Prop where
  free : (s'.mem.freelist : Multiset Nat) = s.mem.freelist
  /-- If a slot has been tried, it is unused again. -/
  slots : s'.proc = s.proc ∨ ∃ np, (s.proc np).state = .unused ∧
    (∀ q ≠ np, s'.proc q = s.proc q) ∧ (s'.proc np).state = .unused ∧ (s'.proc np).pid = 0 ∧
    (s'.proc np).sz = 0 ∧ (s'.proc np).pagetable = 0 ∧ (s'.proc np).trapframe = 0 ∧
    (s'.proc np).parent = none ∧ (s'.proc np).killed = 0
  parent_eq : s'.proc p = s.proc p
  fileRef : s'.fileRef = s.fileRef
  inodeRef : s'.inodeRef = s.inodeRef
  kept : ∀ x ∈ (s.proc p).pages s.mem + C, SamePage s.mem.bytes s'.mem.bytes x
  mapping : ∀ va < MAXVA, ∃ x, lookup (s.proc p).pagetable va s.mem = .ok (x, s.mem) ∧
    lookup (s.proc p).pagetable va s'.mem = .ok (x, s'.mem)
  nextpid : s'.nextpid = s.nextpid ∨ s'.nextpid = int32 (s.nextpid + 1)

theorem Undone.forkFailed (h : Undone s s') (hspace : Space L C (s.proc p) s.mem)
    (hp : (s.proc p).state ≠ .unused) : ForkFailed C p s s' := by
  have hkept := hspace.owns.kept h.moves
  have hcells := h.moves.cells
  rw [add_zero, add_zero] at hcells
  have hslots : s'.proc p = s.proc p := by
    rcases h.slots with heq | ⟨np, context, hunused, heq⟩
    · rw [heq]
    · have hne : p ≠ np := by
        rintro rfl
        exact hp hunused
      rw [heq, update_of_ne hne]
  refine ⟨hcells, ?_, hslots, h.fileRef, h.inodeRef, hkept, fun va hva => hspace.lookup_kept hkept hva,
    h.nextpid⟩
  rcases h.slots with heq | ⟨np, context, hunused, heq⟩
  · exact .inl heq
  · refine .inr ⟨np, hunused, fun q hq => ?_, ?_⟩
    · rw [heq, update_of_ne hq]
    · rw [heq, update_self]
      exact ⟨rfl, rfl, rfl, rfl, rfl, rfl, rfl⟩

/-- **A call of `fork` that fails leaves everything as it was**, whichever allocation fails: `fork` returns
the pid of a child, or -1 with the free pages, the slots, the reference counts and the memory of the parent as
they were. -/
theorem fork_fails_clean (h : AddressSpace L C (s.proc p) s.mem) (hp : (s.proc p).state ≠ .unused)
    (hslots : UnusedSlots s)
    (href : ∀ fd < NOFILE, ∀ f, (s.proc p).ofile fd = some f → 1 ≤ s.fileRef f) :
    ∃ r s', fork L forkret p s = .ok (r, s') ∧
      (r = -1 ∧ ForkFailed C p s s' ∨ r = s.nextpid ∧ ∃ np, (s.proc np).state = .unused ∧
        (s'.proc np).state = .runnable ∧ (s'.proc np).parent = some p) := by
  obtain ⟨r, s', hrun, hdone⟩ := wp_iff.mp (fork_total forkret h hp hslots href)
  refine ⟨r, s', hrun, ?_⟩
  cases hdone with
  | failed hr hundone => exact .inl ⟨hr, hundone.forkFailed h.space hp⟩
  | child np hr hunused hstate hparent => exact .inr ⟨hr, np, hunused, hstate, hparent⟩

theorem unusedSlots_stateOf {q : Proc} (hq : q.state ≠ .unused) (m : Mem) : UnusedSlots (stateOf q m) := by
  intro i hi
  by_cases h0 : i = 0
  · subst h0
    exact absurd hi hq
  · show (update (fun _ => unusedSlot) 0 q i).pagetable = 0 ∧ (update (fun _ => unusedSlot) 0 q i).sz = 0
    rw [update_of_ne h0]
    exact ⟨rfl, rfl⟩

/-- The result of `fork`, and the next pid. -/
def forkResult (m : Mem) : Option (Int × Int) :=
  (fork smallLayout 0 0 (stateOf pageProc m)).toOption.map fun x => (x.1, x.2.nextpid)

/-- The slot, the pid and the page for the trapframe have been taken when there is no page for the root of the
page table. -/
theorem fork_fails_clean_midway : ∃ m s', AddressSpace smallLayout 0 pageProc m ∧
    fork smallLayout 0 0 (stateOf pageProc m) = .ok (-1, s') ∧ ForkFailed 0 0 (stateOf pageProc m) s' ∧
    s'.nextpid = 3 := by
  have ho : Owns smallLayout ({ramPage 2} + 0) emptyMem := emptyMem_isTable.owns.right.mono (by simp)
  obtain ⟨m, hrun, h, -⟩ := exists_page (failingMem (List.replicate 8 false ++ [true])) 0
    (owns_of_freelist ho rfl) (by decide +kernel)
  have hr : forkResult m = some (-1, 3) := (hrun forkResult).symm.trans (by decide +kernel)
  obtain ⟨r, s', hfork, hdone⟩ : ∃ r s', fork smallLayout 0 0 (stateOf pageProc m) = .ok (r, s') ∧ _ :=
    fork_fails_clean h (by simp [stateOf, pageProc])
      (unusedSlots_stateOf (by simp [pageProc]) m) (by simp [stateOf, pageProc, unusedSlot])
  rw [forkResult, hfork] at hr
  obtain ⟨rfl, hpid⟩ := Prod.mk.inj (Option.some.inj hr)
  rcases hdone with ⟨-, hfail⟩ | ⟨hr, -⟩
  · exact ⟨m, s', h, hfork, hfail, hpid⟩
  · cases hr

/-! ## A child -/

/-- **A child is a copy of its parent.** If `fork` returns a pid, the child has the parent's user memory on
pages that were free, its registers with `a0 = 0`, its open files and current directory with a reference more;
and the parent is unchanged. -/
theorem fork_copies {pid : Int} (hspace : Space L C (s.proc p) s.mem)
    (hp : (s.proc p).state ≠ .unused)
    (hunused : ∀ q, (s.proc q).state = .unused → ∀ fd < NOFILE, (s.proc q).ofile fd = none)
    (h : fork L forkret p s = .ok (pid, s')) (hpid : pid ≠ -1) : ∃ np, Forked L C p np pid s s' :=
  wlp_iff.mp (fork_spec hspace hp hunused) pid s' h hpid

/-- Three descriptors for one file. -/
def filesProc : Proc := { pageProc with ofile := fun fd => if fd < 3 then some 0 else none }

def filesState (m : Mem) : State := { stateOf filesProc m with fileRef := fun _ => 3 }

def forkPid (m : Mem) : Option Int := (fork smallLayout 0 0 (filesState m)).toOption.map Prod.fst

theorem fork_copies_page : ∃ m np s', fork smallLayout 0 0 (filesState m) = .ok (2, s') ∧
    Forked smallLayout 0 0 np 2 (filesState m) s' := by
  obtain ⟨m, h, hrun⟩ := exists_addressSpace
  have hpid : forkPid m = some 2 := (hrun forkPid).symm.trans (by decide +kernel)
  obtain ⟨⟨pid, s'⟩, hfork, rfl⟩ := Option.map_eq_some_iff.mp hpid
  have hunused : ∀ q, ((filesState m).proc q).state = .unused → ∀ fd < NOFILE,
      ((filesState m).proc q).ofile fd = none := by
    intro q hq fd _
    by_cases h0 : q = 0
    · subst h0
      cases hq
    · show (update (fun _ => unusedSlot) 0 _ q).ofile fd = none
      rw [update_of_ne h0]
      rfl
  have hspace : AddressSpace smallLayout 0 filesProc m := ⟨h.table, h.size⟩
  cases hrun' : fork smallLayout 0 0 (filesState m) with
  | error e =>
    rw [hrun'] at hfork
    cases hfork
  | ok x =>
    rw [hrun'] at hfork
    cases hfork
    obtain ⟨np, hnp⟩ := fork_copies hspace.space
      (by simp [filesState, stateOf, filesProc, pageProc]) hunused hrun' (by decide)
    exact ⟨m, np, s', hrun', hnp⟩

end Xv6Freezer.Fork

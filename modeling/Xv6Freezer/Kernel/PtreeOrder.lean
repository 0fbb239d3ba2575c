import Xv6Freezer.Kernel.Ptree

/-! # What `sys_ptree` prints

`sys_ptree` over a table that nobody changes while it walks; other CPUs may hold locks of slots. The walk
ends, and its lines are the nodes of the process tree in depth-first order (`ptree_preorder`).
-/

namespace Xv6Freezer

open Lib

variable {M : Client} {init : M.Data → Prop} {s : State M} {p w : Slot} {d : Nat}

def unlocked (s : State M) : State M := { s with locks := fun _ => none }

/-- Steps of `sys_ptree` alone, and the lines printed, the latest first. -/
def WalkSteps (s : State M) : Walk × List PtreeLine → Walk × List PtreeLine → Prop :=
  Relation.ReflTransGen fun x y => walkStep s x.2 x.1 = some y

/-- The test of the loop in `print_ptree_recursive(p, depth)`. -/
def isChild (s : State M) (p i : Slot) : Bool :=
  decide ((s.procs i).state ≠ .unused ∧ (s.procs i).parent = some p)

/-- The children that `print_ptree_recursive(p, depth)` finds, in order. -/
def ptreeChildren (s : State M) (p : Slot) : List Slot := (List.range NPROC).filter (isChild s p)

def PtreeLine.indent (l : PtreeLine) : Nat := l.depth * 2

def lineAt (s : State M) (v : Slot × Nat) : PtreeLine := ptreeLine s v.1 v.2

theorem Forest.mem_ptreeChildren (F : Forest s) (i p : Slot) :
    i ∈ ptreeChildren s p ↔ (s.procs i).parent = some p := by
  rw [ptreeChildren, List.mem_filter, List.mem_range, isChild, decide_eq_true_eq]
  refine ⟨fun h => h.2.2, fun h => ⟨F.bound i (by rw [h]; exact Option.some_ne_none p), ?_, h⟩⟩
  intro hu
  rw [F.unused i hu] at h
  cases h

/-! ## The walk -/

theorem walk_children {below : Slot → List (Slot × Nat)}
    (hrun : ∀ i, isChild s p i = true → ∀ calls out, calls.length = d + 1 →
      WalkSteps (unlocked s) (.tree w (⟨i, 0, false⟩ :: calls), out)
        (.tree w calls, ((below i).map (lineAt s)).reverse ++ out))
    {n k : Nat} (hk : k + n = NPROC) {calls : List PtreeCall} (hd : calls.length = d)
    (out : List PtreeLine) :
    WalkSteps (unlocked s) (.tree w (⟨p, k, true⟩ :: calls), out) (.tree w calls,
      ((((List.range' k n).filter (isChild s p)).flatMap below).map (lineAt s)).reverse ++ out) := by
  induction n generalizing k out with
  | zero =>
    have hge : ¬ k < NPROC := by omega
    refine .single ?_
    simp only [walkStep, if_neg hge]
    rfl
  | succ n ih =>
    have hlt : k < NPROC := by omega
    rw [List.range'_succ]
    by_cases hc : isChild s p k = true
    · -- the call for the child, then the rest of the loop
      have hstep : walkStep (unlocked s) out (.tree w (⟨p, k, true⟩ :: calls)) =
          some (.tree w (⟨k, 0, false⟩ :: ⟨p, k + 1, true⟩ :: calls), out) := by
        simp only [walkStep, if_pos hlt]
        rw [if_neg (fun h => h rfl)]
        exact if_pos (of_decide_eq_true hc)
      rw [List.filter_cons_of_pos hc, List.flatMap_cons, List.map_append, List.reverse_append,
        List.append_assoc]
      exact .head hstep ((hrun k hc (⟨p, k + 1, true⟩ :: calls) out (by rw [List.length_cons, hd])).trans
        (ih (by omega) _))
    · have hstep : walkStep (unlocked s) out (.tree w (⟨p, k, true⟩ :: calls)) =
          some (.tree w (⟨p, k + 1, true⟩ :: calls), out) := by
        simp only [walkStep, if_pos hlt]
        rw [if_neg (fun h => h rfl)]
        exact if_neg fun h => hc (decide_eq_true h)
      rw [List.filter_cons_of_neg hc]
      exact .head hstep (ih (by omega) out)

/-- **One call** prints the part of the tree below `p` in depth-first order, and returns. -/
theorem walk_call (F : Forest s) (p : Slot) (d : Nat) : ∃ vs, Preorder (ptreeChildren s) p d vs ∧
    ∀ w calls out, calls.length = d →
      WalkSteps (unlocked s) (.tree w (⟨p, 0, false⟩ :: calls), out)
        (.tree w calls, (vs.map (lineAt s)).reverse ++ out) := by
  obtain ⟨rank, -, hrank⟩ := F.rank
  -- induction on the number of slots of higher rank: the children have fewer
  induction hn : ((Finset.range NPROC).filter fun j => rank p < rank j).card
    using Nat.strong_induction_on generalizing p d with
  | _ n ih =>
    subst hn
    have hsmaller : ∀ i, isChild s p i = true →
        ((Finset.range NPROC).filter fun j => rank i < rank j).card <
          ((Finset.range NPROC).filter fun j => rank p < rank j).card := by
      intro i hi
      have hparent : (s.procs i).parent = some p := (of_decide_eq_true hi).2
      have hlt := hrank i p hparent
      have hmem : i ∈ (Finset.range NPROC).filter fun j => rank p < rank j :=
        Finset.mem_filter.mpr ⟨Finset.mem_range.mpr
          (F.bound i (by rw [hparent]; exact Option.some_ne_none p)), hlt⟩
      refine Finset.card_lt_card ((Finset.ssubset_iff_of_subset fun j hj => ?_).mpr ⟨i, hmem, ?_⟩)
      · obtain ⟨hj, hij⟩ := Finset.mem_filter.mp hj
        exact Finset.mem_filter.mpr ⟨hj, hlt.trans hij⟩
      · exact fun h => absurd (Finset.mem_filter.mp h).2 (lt_irrefl _)
    have hcall : ∀ i, ∃ vs, isChild s p i = true → Preorder (ptreeChildren s) i (d + 1) vs ∧
        ∀ w calls out, calls.length = d + 1 →
          WalkSteps (unlocked s) (.tree w (⟨i, 0, false⟩ :: calls), out)
            (.tree w calls, (vs.map (lineAt s)).reverse ++ out) := by
      intro i
      by_cases hi : isChild s p i = true
      · obtain ⟨vs, hvs⟩ := ih _ (hsmaller i hi) i (d + 1) rfl
        exact ⟨vs, fun _ => hvs⟩
      · exact ⟨[], fun h => absurd h hi⟩
    choose below hbelow using hcall
    refine ⟨(p, d) :: (ptreeChildren s p).flatMap below,
      .node below fun i hi => (hbelow i (List.mem_filter.mp hi).2).1, fun w calls out hd => ?_⟩
    have hprint : walkStep (unlocked s) out (.tree w (⟨p, 0, false⟩ :: calls)) =
        some (.tree w (⟨p, 0, true⟩ :: calls), lineAt s (p, d) :: out) := by
      simp only [walkStep, hd]
      rfl
    rw [List.map_cons, List.reverse_cons, List.append_assoc, ptreeChildren, List.range_eq_range']
    exact .head hprint (walk_children (fun i hi calls out hlen => (hbelow i hi).2 w calls out hlen)
      (Nat.zero_add NPROC) hd _)

theorem reachable_initFirst (h : (kernel M init).Reachable s) : TableInv s ∧ InitFirst s := by
  refine h.invariant (I := fun s => TableInv s ∧ InitFirst s) (fun t h0 => ?_) ?_
  · refine ⟨reachable_forest ⟨t, h0, Lib.Lts.RunIf.refl _⟩, ?_⟩
    obtain ⟨tf, pt, cwd, d, -, rfl⟩ := h0
    exact ⟨rfl, rfl⟩
  · rintro t ⟨c, a⟩ t' ⟨hT, hfirst⟩ - hs
    exact ⟨kstep_tableInv hT hs, kstep_initFirst hfirst hT.1 hT.2.2 hs⟩

/-- **What `sys_ptree` prints** on a table that stays as it is during the call: the process tree in a
depth-first order from `initproc`, each slot once, indented by twice its depth, with the pid of its parent. -/
theorem ptree_preorder (h : (kernel M init).Reachable s) (w : Slot) :
    ∃ vs : List (Slot × Nat),
      WalkSteps (unlocked s) (.find w 0, []) (.done 0, (vs.map (lineAt s)).reverse) ∧
      Preorder (ptreeChildren s) s.initproc 0 vs ∧ vs.head? = some (s.initproc, 0) ∧
      (vs.map Prod.fst).Nodup ∧
      (∀ i, i ∈ vs.map Prod.fst ↔
        i = s.initproc ∨ (s.procs i).state ≠ .unused ∧ (s.procs i).parent ≠ none) ∧
      ∀ v ∈ vs, (s.procs v.1).state ≠ .unused ∧
        climb (fun i => (s.procs i).parent) v.2 v.1 = some s.initproc ∧
        (lineAt s v).indent = 2 * v.2 ∧ (lineAt s v).pid = (s.procs v.1).pid ∧
        (lineAt s v).ppid = (s.procs v.1).parent.elim 0 fun q => (s.procs q).pid := by
  obtain ⟨⟨hinv, hsys, F⟩, hfirst⟩ := reachable_initFirst h
  obtain ⟨vs, hpre, hrun⟩ := walk_call F s.initproc 0
  obtain ⟨rank, -, hrank⟩ := F.rank
  have hmem := hpre.mem_iff F.mem_ptreeChildren
  have hused : ∀ v ∈ vs, (s.procs v.1).state ≠ .unused := by
    rintro ⟨i, e⟩ hv
    obtain ⟨k, -, hk⟩ := (hmem i e).mp hv
    intro hu
    cases k with
    | zero =>
      rw [show i = s.initproc from Option.some.inj hk] at hu
      exact F.init.live.ne_unused hu
    | succ k => simp [climb, F.unused i hu] at hk
  refine ⟨vs, ?_, hpre, ?_, hpre.nodup F.mem_ptreeChildren (fun p => List.nodup_range.filter _) hrank,
    fun i => ?_, fun v hv => ?_⟩
  · -- the search for the init process ends at slot 0
    have hfind : walkStep (unlocked s) [] (.find w 0) =
        some (.tree w [⟨s.initproc, 0, false⟩], []) := by
      have hact := F.init.live.ne_unused
      rw [hfirst.init] at hact ⊢
      simp only [walkStep, if_pos (show 0 < NPROC by decide)]
      rw [if_neg (fun h => h rfl)]
      exact if_pos ⟨hfirst.pid, hact⟩
    have hcall := hrun w [] [] rfl
    rw [List.append_nil] at hcall
    have hall : WalkSteps (unlocked s) (.find w 0, []) (.tree w [], (vs.map (lineAt s)).reverse) :=
      .head hfind hcall
    exact hall.tail rfl
  · cases hpre with
    | node below hbelow => rfl
  · rw [List.mem_map]
    constructor
    · rintro ⟨⟨j, e⟩, hv, rfl⟩
      obtain ⟨k, -, hk⟩ := (hmem j e).mp hv
      cases k with
      | zero => exact .inl (Option.some.inj hk)
      | succ k =>
        refine .inr ⟨hused _ hv, fun hnone => ?_⟩
        simp only at hnone
        simp [climb, hnone] at hk
    · rintro (rfl | ⟨-, hp⟩)
      · exact ⟨(s.initproc, 0), (hmem _ _).mpr ⟨0, rfl, rfl⟩, rfl⟩
      · obtain ⟨k, -, hk⟩ := F.climbs i hp
        exact ⟨(i, 0 + k), (hmem _ _).mpr ⟨k, rfl, hk⟩, rfl⟩
  · obtain ⟨k, he, hk⟩ := (hmem v.1 v.2).mp hv
    refine ⟨hused v hv, ?_, Nat.mul_comm _ _, rfl, rfl⟩
    rw [he, Nat.zero_add]
    exact hk

/-- The tree of the first process and its child: two lines. -/
theorem ptree_preorder_child : ∃ s, idleKernel.Reachable s ∧ (s.procs 1).parent = some 0 ∧
    ∃ vs : List (Slot × Nat),
      WalkSteps (unlocked s) (.find 0 0, []) (.done 0, (vs.map (lineAt s)).reverse) ∧
      vs.head? = some (s.initproc, 0) ∧ 1 ∈ vs.map Prod.fst := by
  obtain ⟨s, hs, hp⟩ := Lib.Lts.reachable_of_execs forkTrace
    (fun s : State idleClient => decide ((s.procs 1).parent = some 0 ∧
      (s.procs 1).state = .runnable)) idleKernel_init (by decide)
  obtain ⟨hparent, hst⟩ := of_decide_eq_true hp
  obtain ⟨vs, hrun, -, hhead, -, hmem, -⟩ := ptree_preorder hs 0
  exact ⟨s, hs, hparent, vs, hrun, hhead, (hmem 1).mpr (.inr ⟨by simp [hst], by simp [hparent]⟩)⟩

end Xv6Freezer

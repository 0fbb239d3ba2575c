import Xv6Freezer.Files.Exact

/-! # Path resolution

`namei` and `nameiparent`, while no other process is in the file system. `Walks` compares the inode table with
the one at the start: every inode has the references that it had, and those of the walk.
-/

namespace Xv6Freezer.Files

open Lib Prog Function

variable {P : Type} [DecidableEq P] {α β : Type} {p : P} {s t t' : State P} {x : Nat → Nat} {lk : Option Nat}
  {e i : Nat} {c : Name} {path rest : Path}

/-! ## One process alone -/

/-- An operation has to succeed whatever the environment answers. -/
def alone (p : P) : Rules (Op P) Res (State P) where
  pre o s := ∀ env, ∃ r s', exec p o env s = .done r s'
  post o s r s' := ∃ env, exec p o env s = .done r s'

theorem wt_alone {o : Op P} {k : Res o → Code P β} {Q : β → State P → Prop} {r : Res o}
    (h : ∀ env, exec p o env s = .done r t) (hk : (k r).wt (alone p) t Q) :
    (atomic o >>= k).wt (alone p) s Q := by
  refine wt_bind.mpr ⟨fun env => ⟨r, t, h env⟩, fun r' t' ⟨env, he⟩ => ?_⟩
  cases (h env).symm.trans he
  exact hk

theorem wt_alone_last {o : Op P} {Q : Res o → State P → Prop} {r : Res o}
    (h : ∀ env, exec p o env s = .done r t) (hq : Q r t) : (atomic o : Code P (Res o)).wt (alone p) s Q := by
  refine ⟨fun env => ⟨r, t, h env⟩, fun r' t' ⟨env, he⟩ => ?_⟩
  cases (h env).symm.trans he
  exact hq

/-! ## Consistent states -/

/-- What `dirlookup` finds in inode `i` on the disk. -/
def State.lookup (s : State P) (i : Nat) (c : Name) : Option Nat :=
  ((List.range' 0 (slots (s.dinode i).size)).find? fun j =>
    (s.slot i j).inum ≠ 0 ∧ (s.slot i j).name = c).map fun j => (s.slot i j).inum

/-- `iput` does not free the inode: it has a link, or somebody refers to it. -/
def State.Kept (s : State P) (i : Nat) : Prop :=
  (s.dinode i).type ≠ .none ∧
    ((s.dinode i).nlink ≠ 0 ∨ ∃ e < NINODE, 0 < (s.inode e).ref ∧ (s.inode e).inum = i)

/-- The inode table: one entry for an inode, and a loaded one as on the disk. -/
structure Table (s : State P) : Prop where
  ref : ∀ e, 0 ≤ (s.inode e).ref
  unique : ∀ e < NINODE, ∀ e' < NINODE, 0 < (s.inode e).ref → 0 < (s.inode e').ref →
    (s.inode e).inum = (s.inode e').inum → e = e'
  dev : ∀ e < NINODE, 0 < (s.inode e).ref → (s.inode e).dev = ROOTDEV
  loaded : ∀ e < NINODE, 0 < (s.inode e).ref → (s.inode e).valid = true →
    (s.inode e).d = s.dinode (s.inode e).inum

/-- The disk: directories without holes that name allocated inodes. -/
structure Tree (s : State P) : Prop where
  full : ∀ i, (s.dinode i).type ≠ .none → (s.dinode i).Full (s.ind i)
  whole : ∀ i, (s.dinode i).type = .dir → DIRENT ∣ (s.dinode i).size
  named : ∀ i c k, (s.dinode i).type = .dir → s.lookup i c = some k → s.Kept k
  root : s.Kept ROOTINO

/-- A state at rest with a table that agrees with a sound disk, no lock taken and two free entries. -/
structure Ready (p : P) (s : State P) : Prop where
  table : Table s
  tree : Tree s
  cwd : ∃ w < NINODE, (s.proc p).cwd = some w ∧ 0 < (s.inode w).ref ∧ (s.dinode (s.inode w).inum).type ≠ .none
  unlocked : ∀ e, (s.inode e).lock = none
  room : ∃ a < NINODE, ∃ b < NINODE, a ≠ b ∧ (s.inode a).ref = 0 ∧ (s.inode b).ref = 0

/-! ## Walks -/

/-- The table of `s`, with `x e` more references to entry `e`; `lk` is locked. -/
structure Walks (p : P) (s t : State P) (x : Nat → Nat) (lk : Option Nat) : Prop where
  dinode : t.dinode = s.dinode
  slot : t.slot = s.slot
  ind : t.ind = s.ind
  table : Table t
  ref : ∀ e, (t.inode e).ref = (s.inode e).ref + x e
  inum : ∀ e, 0 < (s.inode e).ref → (t.inode e).inum = (s.inode e).inum
  lock : ∀ e, (t.inode e).lock = if lk = some e then some p else none

omit [DecidableEq P] in
theorem Walks.set (h : Walks p s t x lk) {n : Inode P} {x' : Nat → Nat} {lk' : Option Nat}
    (hinode : t'.inode = update t.inode e n)
    (hdisk : t'.dinode = t.dinode ∧ t'.slot = t.slot ∧ t'.ind = t.ind)
    (href : n.ref = (s.inode e).ref + x' e) (hx : ∀ a, a ≠ e → x' a = x a) (h0 : 0 ≤ n.ref)
    (huniq : 0 < n.ref → ∀ a < NINODE, a ≠ e → 0 < (t.inode a).ref → (t.inode a).inum ≠ n.inum)
    (hdev : 0 < n.ref → n.dev = ROOTDEV) (hload : n.valid = true → n.d = t.dinode n.inum)
    (hinum : 0 < (s.inode e).ref → n.inum = (s.inode e).inum)
    (hlock : n.lock = if lk' = some e then some p else none)
    (hlk : ∀ a, a ≠ e → (lk' = some a ↔ lk = some a)) : Walks p s t' x' lk' := by
  refine ⟨hdisk.1.trans h.dinode, hdisk.2.1.trans h.slot, hdisk.2.2.trans h.ind, ⟨?_, ?_, ?_, ?_⟩, ?_, ?_, ?_⟩
  · intro a
    rw [hinode, Function.update_apply]
    split
    exacts [h0, h.table.ref a]
  · intro a ha b hb
    rw [hinode, Function.update_apply, Function.update_apply]
    split <;> split <;> rename_i hae hbe
    · exact fun _ _ _ => hae.trans hbe.symm
    · exact fun hpa hpb hab => absurd hab.symm (huniq hpa b hb hbe hpb)
    · exact fun hpa hpb hab => absurd hab (huniq hpb a ha hae hpa)
    · exact h.table.unique a ha b hb
  · intro a ha
    rw [hinode, Function.update_apply]
    split
    exacts [hdev, h.table.dev a ha]
  · intro a ha
    rw [hdisk.1, hinode, Function.update_apply]
    split
    exacts [fun _ => hload, h.table.loaded a ha]
  · intro a
    rw [hinode, Function.update_apply]
    split
    · rename_i hae
      rw [hae]
      exact href
    · rename_i hae
      rw [hx a hae]
      exact h.ref a
  · intro a
    rw [hinode, Function.update_apply]
    split
    · rename_i hae
      rw [hae]
      exact hinum
    · exact h.inum a
  · intro a
    rw [hinode, Function.update_apply]
    split
    · rename_i hae
      rw [hae]
      exact hlock
    · rename_i hae
      rw [h.lock a]
      simp only [hlk a hae]

omit [DecidableEq P] in
/-- An entry that is in use stays the entry of its inode. -/
theorem Walks.touch (h : Walks p s t x lk) {n : Inode P} {x' : Nat → Nat} {lk' : Option Nat} (he : e < NINODE)
    (hpos : 0 < (t.inode e).ref) (hinode : t'.inode = update t.inode e n)
    (hdisk : t'.dinode = t.dinode ∧ t'.slot = t.slot ∧ t'.ind = t.ind)
    (hsame : n.dev = (t.inode e).dev ∧ n.inum = (t.inode e).inum)
    (href : n.ref = (s.inode e).ref + x' e) (hx : ∀ a, a ≠ e → x' a = x a) (h0 : 0 ≤ n.ref)
    (hload : n.valid = true → n.d = t.dinode n.inum)
    (hlock : n.lock = if lk' = some e then some p else none)
    (hlk : ∀ a, a ≠ e → (lk' = some a ↔ lk = some a)) : Walks p s t' x' lk' := by
  refine h.set hinode hdisk href hx h0 (fun _ a ha hne hpa e' => hne ?_) (fun _ => ?_) hload (fun hs => ?_)
    hlock hlk
  · exact h.table.unique a ha e he hpa hpos (e'.trans hsame.2)
  · rw [hsame.1]; exact h.table.dev e he hpos
  · rw [hsame.2]; exact h.inum e hs

def more (x : Nat → Nat) (e : Nat) : Nat → Nat := update x e (x e + 1)

theorem more_self : more x e e = x e + 1 := update_self ..

theorem more_of_ne {a : Nat} (h : a ≠ e) : more x e a = x a := update_of_ne h ..

omit [DecidableEq P] in
theorem setEntry_inum {f : Inode P → Inode P} (hf : (f (t.inode e)).inum = (t.inode e).inum) (a : Nat) :
    ((t.setEntry e f).inode a).inum = (t.inode a).inum := by
  simp only [State.setEntry, Function.update_apply]
  split
  · rename_i ha
    rw [ha, hf]
  · rfl

omit [DecidableEq P] in
theorem Walks.pos (h : Walks p s t (more x e) lk) (hR : Ready p s) : 0 < (t.inode e).ref := by
  have hr := h.ref e
  have hs := hR.table.ref e
  rw [more_self] at hr
  omega

theorem Walks.iget (h : Walks p s t x lk) (hR : Ready p s) (hroom : ∃ a < NINODE, (t.inode a).ref = 0)
    (i : Nat) :
    ∃ e t', (∀ env, exec p (.iget ROOTDEV i) env t = .done e t') ∧ e < NINODE ∧ (t'.inode e).inum = i ∧
      Walks p s t' (more x e) lk ∧ ∀ a, 0 < (t.inode a).ref → (t'.inode a).inum = (t.inode a).inum := by
  cases hfind : (List.range NINODE).find? fun e =>
      0 < (t.inode e).ref ∧ (t.inode e).dev = ROOTDEV ∧ (t.inode e).inum = i with
  | some e =>
    have he : e < NINODE := List.mem_range.mp (List.mem_of_find?_eq_some hfind)
    obtain ⟨hpos, -, hi⟩ : 0 < (t.inode e).ref ∧ (t.inode e).dev = ROOTDEV ∧ (t.inode e).inum = i := by
      simpa using List.find?_some hfind
    have hr := h.ref e
    refine ⟨e, t.setEntry e fun i => { i with ref := i.ref + 1 }, fun env => ?_, he, ?_, ?_, fun a _ => ?_⟩
    · simp only [exec, State.iget, hfind]
    · simp [State.setEntry, hi]
    · refine h.touch he hpos rfl ⟨rfl, rfl, rfl⟩ ⟨rfl, rfl⟩ ?_ (fun a ha => more_of_ne ha) ?_
        (h.table.loaded e he hpos) (h.lock e) fun _ _ => Iff.rfl
      · rw [more_self]
        push_cast
        omega
      · dsimp only
        omega
    · exact setEntry_inum rfl a
  | none =>
    have hnone : ∀ a < NINODE, 0 < (t.inode a).ref → (t.inode a).inum ≠ i := fun a ha hpos hi => by
      have := List.find?_eq_none.mp hfind a (List.mem_range.mpr ha)
      simp [hpos, h.table.dev a ha hpos, hi] at this
    obtain ⟨b, hb, hb0⟩ := hroom
    cases hfree : (List.range NINODE).find? fun e => (t.inode e).ref = 0 with
    | none => exact absurd hb0 (by simpa using List.find?_eq_none.mp hfree b (List.mem_range.mpr hb))
    | some e =>
      have he : e < NINODE := List.mem_range.mp (List.mem_of_find?_eq_some hfree)
      have h0 : (t.inode e).ref = 0 := by simpa using List.find?_some hfree
      have hr := h.ref e
      have hs0 := hR.table.ref e
      refine ⟨e, _, fun env => by simp only [exec, State.iget, hfind, hfree]; rfl, he, ?_, ?_, fun a ha => ?_⟩
      · simp [State.setEntry]
      · refine h.set rfl ⟨rfl, rfl, rfl⟩ ?_ (fun a ha => more_of_ne ha) (by decide : (0 : Int) ≤ 1)
          (fun _ a ha _ hpa => hnone a ha hpa) (fun _ => rfl) (fun h => by cases h) (fun hp => absurd hp (by omega)) (h.lock e)
          fun _ _ => Iff.rfl
        rw [more_self]
        dsimp only
        omega
      · have : a ≠ e := by
          rintro rfl
          omega
        simp [State.setEntry, update_of_ne this]

theorem Walks.ilock (h : Walks p s t (more x e) none) (hR : Ready p s) (he : e < NINODE)
    (htype : (s.dinode (t.inode e).inum).type ≠ .none) {Q : Unit → State P → Prop}
    (hQ : ∀ t', Walks p s t' (more x e) (some e) → (t'.inode e).d = s.dinode (t.inode e).inum →
      (t'.inode e).inum = (t.inode e).inum → Q () t') : (ilock e).wt (alone p) t Q := by
  have hpos := h.pos hR
  have hlock : (t.inode e).lock = none := h.lock e
  have h1 : Walks p s (t.acquiresleep p e) (more x e) (some e) := by
    refine h.touch he hpos rfl ⟨rfl, rfl, rfl⟩ ⟨rfl, rfl⟩ (h.ref e) (fun _ _ => rfl) (h.table.ref e)
      (h.table.loaded e he hpos) (if_pos rfl).symm fun a ha => ?_
    simp [Ne.symm ha]
  have hself : (t.acquiresleep p e).inode e = { t.inode e with lock := some p } := update_self ..
  refine wt_alone (r := ()) (t := t) (fun _ => if_neg (by omega)) ?_
  refine wt_alone (r := ()) (fun _ => if_pos hlock) (wt_alone (fun _ => rfl) ?_)
  rw [hself]
  split
  · rename_i hv
    refine hQ _ h1 ?_ (by rw [hself])
    rw [hself]
    exact (h.table.loaded e he hpos hv).trans (by rw [h.dinode])
  · refine wt_alone (r := ()) (fun _ => rfl) (wt_alone (fun _ => rfl) ?_)
    have hself2 : ((t.acquiresleep p e).loadInode e).inode e =
        { t.inode e with lock := some p, d := t.dinode (t.inode e).inum, valid := true } := by
      simp [State.loadInode, State.setEntry, State.acquiresleep]
    rw [hself2, if_neg (by rw [h.dinode]; exact htype)]
    refine hQ _ ?_ (by rw [hself2, h.dinode]) (by rw [hself2])
    refine h1.touch he (by rw [hself]; exact hpos) (n := ((t.acquiresleep p e).loadInode e).inode e) ?_
      ⟨rfl, rfl, rfl⟩ ?_ ?_ (fun _ _ => rfl) ?_ ?_ ?_ fun _ _ => Iff.rfl
    · rw [hself2]
      simp [State.loadInode, State.setEntry, State.acquiresleep]
    · rw [hself2, hself]; exact ⟨rfl, rfl⟩
    · rw [hself2]; exact h.ref e
    · rw [hself2]; exact h.table.ref e
    · rw [hself2]; exact fun _ => rfl
    · rw [hself2]; exact (if_pos rfl).symm

theorem Walks.iunlock (h : Walks p s t (more x e) (some e)) (hR : Ready p s) (he : e < NINODE) :
    ∃ t', (∀ env, exec p (.iunlock e) env t = .done () t') ∧ Walks p s t' (more x e) none ∧
      ∀ a, (t'.inode a).inum = (t.inode a).inum := by
  have hpos := h.pos hR
  have hlock : (t.inode e).lock = some p := (h.lock e).trans (if_pos rfl)
  refine ⟨t.setEntry e fun i => { i with lock := none }, fun _ => if_neg ?_, ?_, setEntry_inum rfl⟩
  · rw [not_or, not_not]
    exact ⟨hlock, by omega⟩
  · refine h.touch he hpos rfl ⟨rfl, rfl, rfl⟩ ⟨rfl, rfl⟩ (h.ref e) (fun _ _ => rfl) (h.table.ref e)
      (h.table.loaded e he hpos) (by simp) fun a ha => ?_
    simp [Ne.symm ha]

theorem Walks.iput (h : Walks p s t (more x e) none) (hR : Ready p s) (he : e < NINODE)
    (hk : s.Kept (t.inode e).inum) {Q : Unit → State P → Prop}
    (hQ : ∀ t', Walks p s t' x none → (∀ a, (t'.inode a).inum = (t.inode a).inum) → Q () t') :
    (iput e).wt (alone p) t Q := by
  have hr := h.ref e
  have hse := hR.table.ref e
  have hpos := h.pos hR
  rw [more_self] at hr
  have hnot : ¬ ((t.inode e).ref = 1 ∧ (t.inode e).valid = true ∧ (t.inode e).d.nlink = 0) := by
    rintro ⟨h1, hv, hn⟩
    rw [h.table.loaded e he hpos hv, h.dinode] at hn
    rcases hk.2 with hl | ⟨a, ha, hpa, hia⟩
    · exact hl hn
    · -- another reference: the entry is the same, and has it besides that of the walk
      have hra := h.ref a
      have : a = e := h.table.unique a ha e he (by omega) hpos ((h.inum a hpa).trans hia)
      subst this
      omega
  refine wt_alone (r := false) (fun _ => if_neg hnot) ?_
  rw [if_neg Bool.false_ne_true]
  refine hQ _ (h.touch he hpos rfl ⟨rfl, rfl, rfl⟩ ⟨rfl, rfl⟩ ?_ (fun a ha => (more_of_ne ha).symm) ?_
    (h.table.loaded e he hpos) (h.lock e) fun _ _ => Iff.rfl) (setEntry_inum rfl)
  · push_cast at hr
    dsimp only
    omega
  · dsimp only
    omega

theorem Walks.iunlockput (h : Walks p s t (more x e) (some e)) (hR : Ready p s) (he : e < NINODE)
    (hk : s.Kept (t.inode e).inum) {Q : Unit → State P → Prop}
    (hQ : ∀ t', Walks p s t' x none → (∀ a, (t'.inode a).inum = (t.inode a).inum) → Q () t') :
    (iunlockput e).wt (alone p) t Q := by
  obtain ⟨t1, hrun, hw, hsame⟩ := h.iunlock hR he
  refine wt_alone hrun (hw.iput hR he (hsame e ▸ hk) fun t' hw' hs' => ?_)
  exact hQ t' hw' fun a => (hs' a).trans (hsame a)

omit [DecidableEq P] in
theorem Walks.room (h : Walks p s t (more 0 e) lk) (hR : Ready p s) :
    ∃ a < NINODE, (t.inode a).ref = 0 := by
  obtain ⟨a, ha, b, hb, hab, ha0, hb0⟩ := hR.room
  by_cases hae : a = e
  · refine ⟨b, hb, ?_⟩
    rw [h.ref b, more_of_ne (fun hbe => hab (hae.trans hbe.symm)), hb0]
    rfl
  · refine ⟨a, ha, ?_⟩
    rw [h.ref a, more_of_ne hae, ha0]
    rfl

/-! ## `dirlookup` -/

theorem Walks.readDirent (h : Walks p s t x lk) (hR : Ready p s) (hd : (t.inode e).d = s.dinode (t.inode e).inum)
    (htype : (s.dinode (t.inode e).inum).type = .dir) {j : Nat}
    (hj : j < slots (s.dinode (t.inode e).inum).size) (env : Env P) :
    exec p (.readDirent e (DIRENT * j)) env t = .done (some (s.slot (t.inode e).inum j)) t := by
  have hfull : (t.blocks e).Full (t.inode e).d.size := by
    have := hR.tree.full _ (by rw [htype]; decide : (s.dinode (t.inode e).inum).type ≠ .none)
    rw [hd]
    exact Blocks.Full.congr this (by rw [State.blocks, hd]) (by rw [State.blocks, h.ind])
  obtain ⟨k, hk⟩ := hR.tree.whole _ htype
  have hlt : ¬ (t.inode e).d.size < DIRENT * j + DIRENT := by
    rw [hd]
    unfold slots DIRENT at *
    omega
  show t.readDirent e (DIRENT * j) env.x = _
  rw [State.readDirent_full hfull, if_neg hlt, Nat.mul_div_cancel_left _ (by decide), h.slot]

theorem Walks.dirlookupLoop (h : Walks p s t (more 0 e) (some e)) (hR : Ready p s)
    (hd : (t.inode e).d = s.dinode (t.inode e).inum) (hi : (t.inode e).inum = i)
    (htype : (s.dinode i).type = .dir) {Q : Option (Nat × Nat) → State P → Prop} (n : Nat) :
    ∀ {j}, j + n = slots (s.dinode i).size →
    (∀ r, ((List.range' j n).find? fun j => (s.slot i j).inum ≠ 0 ∧ (s.slot i j).name = c).map
      (fun j => (s.slot i j).inum) = r → match r with
      | none => Q none t
      | some k => ∀ e' off t', e' < NINODE → (t'.inode e').inum = k → (t'.inode e).inum = i →
          Walks p s t' (more (more 0 e) e') (some e) → Q (some (e', off)) t') →
    (dirlookupLoop e ROOTDEV c n (DIRENT * j)).wt (alone p) t Q := by
  induction n with
  | zero => exact fun _ hQ => hQ none rfl
  | succ n ih =>
    intro j hj hQ
    rw [List.range'_succ, List.find?_cons] at hQ
    refine wt_alone (h.readDirent hR hd (hi ▸ htype) (by rw [hi]; omega)) ?_
    rw [hi]
    dsimp only
    split
    · rename_i hm
      rw [decide_eq_true hm] at hQ
      obtain ⟨e', t', hget, he', hi', hw, hsame⟩ := h.iget hR (h.room hR) (s.slot i j).inum
      refine wt_alone hget ?_
      exact hQ _ rfl e' _ t' he' hi' ((hsame e (h.pos hR)).trans hi) hw
    · rename_i hm
      rw [decide_eq_false hm] at hQ
      exact ih (j := j + 1) (by omega) hQ

theorem Walks.dirlookup (h : Walks p s t (more 0 e) (some e)) (hR : Ready p s) (he : e < NINODE)
    (hd : (t.inode e).d = s.dinode (t.inode e).inum) (hi : (t.inode e).inum = i)
    (htype : (s.dinode i).type = .dir) {Q : Option (Nat × Nat) → State P → Prop}
    (hnone : s.lookup i c = none → Q none t)
    (hsome : ∀ k e' off t', s.lookup i c = some k → e' < NINODE → (t'.inode e').inum = k →
      (t'.inode e).inum = i → Walks p s t' (more (more 0 e) e') (some e) → Q (some (e', off)) t') :
    (dirlookup e c).wt (alone p) t Q := by
  refine wt_alone (fun _ => rfl) ?_
  rw [hd, hi, if_neg (not_not.mpr htype), h.table.dev e he (h.pos hR)]
  refine h.dirlookupLoop hR hd hi htype _ (Nat.zero_add _) fun r hr => ?_
  cases r with
  | none => exact hnone hr
  | some k => exact fun e' off t' => hsome k e' off t' hr

/-! ## Components -/

/-- The non-empty parts of a path between slashes, cut to `DIRSIZ` bytes. -/
def components (path : Path) : List Name := ((path.splitOn slash).filter (· ≠ [])).map (·.take DIRSIZ)

theorem components_slash (path : Path) : components (slash :: path) = components path := by
  rw [components, List.splitOn, List.splitOnP_cons_eq_if_modifyHead, if_pos (by simp)]
  rfl

theorem components_dropWhile (path : Path) : components (path.dropWhile (· == slash)) = components path := by
  induction path with
  | nil => rfl
  | cons b path ih =>
    rw [List.dropWhile_cons]
    split
    · rename_i hb
      rw [ih, show b = slash by simpa using hb, components_slash]
    · rfl

theorem components_cons {b : UInt8} {q : Path} (hb : b ≠ slash) :
    components (b :: q) = ((b :: q).takeWhile (· != slash)).take DIRSIZ ::
      components ((b :: q).dropWhile (· != slash)) := by
  have hw : (b :: q).takeWhile (· != slash) ≠ [] := by simp [hb]
  have hno : ∀ a ∈ (b :: q).takeWhile (· != slash), (a == slash) = false := fun a ha => by
    simpa using List.all_eq_true.mp List.all_takeWhile a ha
  have hsplit := List.takeWhile_append_dropWhile (p := (· != slash)) (l := b :: q)
  have hhead := List.head?_dropWhile_not (· != slash) (b :: q)
  generalize (b :: q).takeWhile (· != slash) = w, (b :: q).dropWhile (· != slash) = r at *
  rw [← hsplit]
  cases r with
  | nil =>
    rw [List.append_nil, components, List.splitOn, List.splitOnP_eq_singleton hno]
    simp [hw, components]
  | cons a r =>
    obtain rfl : a = slash := by simpa using hhead
    rw [components_slash, components, List.splitOn,
      List.splitOnP_append_cons_of_forall_mem hno _ (by simp)]
    simp [hw, components, List.splitOn]

theorem skipelem_spec (path : Path) : match skipelem path with
    | none => components path = []
    | some (c, rest) => components path = c :: components rest ∧ rest.length < path.length ∧
        (components rest = [] → rest = []) := by
  have hlen : ∀ (f : UInt8 → Bool) (l : Path), (l.dropWhile f).length ≤ l.length := fun f l =>
    (List.dropWhile_sublist f).length_le
  have hhead : ∀ {l : Path} {b q}, l.dropWhile (· == slash) = b :: q → b ≠ slash := fun {l b q} h => by
    have := List.head?_dropWhile_not (· == slash) l
    rw [h] at this
    simpa using this
  rw [skipelem, ← components_dropWhile path]
  cases hp : path.dropWhile (· == slash) with
  | nil => rfl
  | cons b q =>
    dsimp only
    refine ⟨by rw [components_cons (hhead hp), components_dropWhile], ?_, fun hnil => ?_⟩
    · have h1 := hlen (· == slash) ((b :: q).dropWhile (· != slash))
      have h2 : ((b :: q).dropWhile (· != slash)).length ≤ q.length := by
        rw [List.dropWhile_cons, if_pos (by simpa using hhead hp)]
        exact hlen ..
      have h3 := hlen (· == slash) path
      rw [hp, List.length_cons] at h3
      omega
    · cases hr : ((b :: q).dropWhile (· != slash)).dropWhile (· == slash) with
      | nil => rfl
      | cons a r =>
        rw [hr, components_cons (hhead hr)] at hnil
        cases hnil

/-! ## `namex` -/

/-- The inode that is reached from inode `i` by looking up the names. -/
def State.follow (s : State P) : Nat → List Name → Option Nat
  | i, [] => some i
  | i, c :: cs => if (s.dinode i).type = .dir then (s.lookup i c).bind fun k => s.follow k cs else none

/-- Where `nameiparent` gets: to a directory, with the last name left. -/
def State.followParent (s : State P) (i : Nat) (cs : List Name) : Option Nat :=
  if cs = [] then none else (s.follow i cs.dropLast).filter fun k => (s.dinode k).type = .dir

def State.target (s : State P) (parent : Bool) (i : Nat) (cs : List Name) : Option Nat :=
  if parent = true then s.followParent i cs else s.follow i cs

omit [DecidableEq P] in
theorem target_cons {parent : Bool} {cs : List Name} : s.target parent i (c :: cs) =
    if (s.dinode i).type ≠ .dir then none else if parent = true ∧ cs = [] then some i
    else (s.lookup i c).bind fun k => s.target parent k cs := by
  unfold State.target State.followParent
  cases parent with
  | false => by_cases h : (s.dinode i).type = .dir <;> simp [State.follow, h]
  | true =>
    cases cs with
    | nil => by_cases h : (s.dinode i).type = .dir <;> simp [State.follow, h]
    | cons b cs =>
      by_cases h : (s.dinode i).type = .dir
      · simp only [List.dropLast_cons_cons, State.follow, h, if_true, ne_eq, not_true_eq_false, if_false,
          reduceCtorEq, and_false]
        cases s.lookup i c <;> simp
      · simp [State.follow, h]

/-- The result is the entry of the target, with one more reference. -/
def Reached (p : P) (s : State P) (parent : Bool) (cs : List Name) :
    Option Nat → Option (Nat × Name) → State P → Prop
  | none, none, t => Walks p s t 0 none
  | some i, some (e, name), t => e < NINODE ∧ (t.inode e).inum = i ∧ Walks p s t (more 0 e) none ∧
      (parent = true → cs.getLast? = some name)
  | _, _, _ => False

omit [DecidableEq P] in
theorem Reached.cons {parent : Bool} {cs : List Name} {o : Option Nat} {r : Option (Nat × Name)}
    (h : Reached p s parent cs o r t) (hne : parent = true → cs ≠ []) : Reached p s parent (c :: cs) o r t := by
  match o, r, h with
  | none, none, h => exact h
  | some _, some _, ⟨he, hi, hw, hn⟩ =>
    refine ⟨he, hi, hw, fun hp => ?_⟩
    rw [List.getLast?_cons_of_ne_nil (hne hp)]
    exact hn hp

theorem more_comm {a b : Nat} : more (more x a) b = more (more x b) a := by
  funext k
  simp only [more, Function.update_apply]
  split <;> split <;> simp_all

theorem Walks.namexEnd {parent : Bool} {name : Name} (h : Walks p s t (more 0 e) none)
    (hR : Ready p s) (he : e < NINODE) (hi : (t.inode e).inum = i) (hk : s.Kept i) :
    (namexEnd parent e name).wt (alone p) t (Reached p s parent [] (s.target parent i [])) := by
  unfold Files.namexEnd
  cases parent with
  | false => exact ⟨he, hi, h, nofun⟩
  | true =>
    rw [if_pos rfl]
    refine wt_bind.mpr (h.iput hR he (hi ▸ hk) fun t' hw _ => ?_)
    exact hw

/-- **The loop of `namex`** reaches the target, and gives back everything else. -/
theorem namexLoop_walks {parent : Bool} (hR : Ready p s) (n : Nat) : ∀ {e i path name t}, path.length ≤ n →
    Walks p s t (more 0 e) none → e < NINODE → (t.inode e).inum = i → s.Kept i →
    (namexLoop parent n e path name).wt (alone p) t
      (Reached p s parent (components path) (s.target parent i (components path))) := by
  induction n with
  | zero =>
    intro e i path name t hlen h he hi hk
    obtain rfl : path = [] := List.length_eq_zero_iff.mp (Nat.le_zero.mp hlen)
    exact h.namexEnd hR he hi hk
  | succ n ih =>
    intro e i path name t hlen h he hi hk
    have hskip := skipelem_spec path
    rw [namexLoop]
    cases hsk : skipelem path with
    | none =>
      rw [hsk] at hskip
      rw [hskip]
      exact h.namexEnd hR he hi hk
    | some cr =>
      obtain ⟨c, rest⟩ := cr
      rw [hsk] at hskip
      obtain ⟨hcomp, hlt, hnil⟩ := hskip
      rw [hcomp, target_cons]
      refine wt_bind.mpr (h.ilock hR he (hi ▸ hk.1) fun t1 h1 hd hi1 => ?_)
      rw [hi] at hd hi1
      refine wt_alone (fun _ => rfl) ?_
      rw [hd]
      by_cases htype : (s.dinode i).type ≠ .dir
      · rw [if_pos htype, if_pos htype]
        refine wt_bind.mpr (h1.iunlockput hR he (hi1 ▸ hk) fun t' hw _ => ?_)
        exact hw
      rw [if_neg htype, if_neg htype]
      by_cases hlast : parent = true ∧ rest = []
      · obtain ⟨t', hrun, hw, hsame⟩ := h1.iunlock hR he
        have hlast' : parent = true ∧ components rest = [] := ⟨hlast.1, by rw [hlast.2]; rfl⟩
        rw [if_pos hlast, if_pos hlast']
        refine wt_alone hrun ⟨he, (hsame e).trans hi1, hw, fun _ => ?_⟩
        rw [hlast'.2]
        rfl
      rw [if_neg hlast, if_neg fun h => hlast ⟨h.1, hnil h.2⟩]
      refine wt_bind.mpr (h1.dirlookup hR he (hi1 ▸ hd) hi1 (not_not.mp htype)
        (fun hl => ?_) fun k e' off t' hl he' hk' hi' hw => ?_)
      · rw [hl]
        refine wt_bind.mpr (h1.iunlockput hR he (hi1 ▸ hk) fun t' hw _ => ?_)
        exact hw
      · rw [hl, Option.bind_some]
        rw [more_comm] at hw
        refine wt_bind.mpr (hw.iunlockput hR he (hi' ▸ hk) fun t2 h2 hs2 => ?_)
        have hkept := hR.tree.named i c k (not_not.mp htype) hl
        refine wt_mono (ih (by omega) h2 he' ((hs2 e').trans hk') hkept) fun r t3 h3 => ?_
        exact h3.cons fun hp => fun hc => hlast ⟨hp, hnil hc⟩

def State.start (s : State P) (p : P) (path : Path) : Nat :=
  if path.head? = some slash then ROOTINO
  else match (s.proc p).cwd with
    | some w => (s.inode w).inum
    | none => 0

/-- No lock is held, and the entry that is returned has one more reference. -/
structure Balanced (s t : State P) (r : Option Nat) : Prop where
  disk : t.dinode = s.dinode ∧ t.slot = s.slot
  lock : ∀ e, (t.inode e).lock = none
  ref : ∀ e, (t.inode e).ref = (s.inode e).ref + if r = some e then 1 else 0
  inum : ∀ e, 0 < (s.inode e).ref → (t.inode e).inum = (s.inode e).inum

omit [DecidableEq P] in
theorem Reached.balanced {parent : Bool} {cs : List Name} {o : Option Nat} {r : Option (Nat × Name)}
    (h : Reached p s parent cs o r t) :
    Balanced s t (r.map Prod.fst) ∧ (r.map fun a => (t.inode a.1).inum) = o ∧
      (parent = true → ∀ a ∈ r, cs.getLast? = some a.2) := by
  match o, r, h with
  | none, none, h =>
    exact ⟨⟨⟨h.dinode, h.slot⟩, h.lock, fun e => by simp [h.ref e], h.inum⟩, rfl, nofun⟩
  | some _, some (e, name), ⟨he, hi, hw, hn⟩ =>
    refine ⟨⟨⟨hw.dinode, hw.slot⟩, hw.lock, fun a => ?_, hw.inum⟩, by rw [← hi]; rfl, fun hp a ha => ?_⟩
    · rw [hw.ref a]
      by_cases hae : e = a
      · simp [hae, more_self]
      · simp [hae, more_of_ne (Ne.symm hae)]
    · cases ha
      exact hn hp

theorem namex_walks (hR : Ready p s) (path : Path) (parent : Bool) : (namex path parent).wt (alone p) s
    (Reached p s parent (components path) (s.target parent (s.start p path) (components path))) := by
  have h0 : Walks p s s 0 none := ⟨rfl, rfl, rfl, hR.table, by simp, fun _ _ => rfl, hR.unlocked⟩
  obtain ⟨w, hw, hcwd, hpos, htype⟩ := hR.cwd
  obtain ⟨a, ha, -, -, -, ha0, -⟩ := hR.room
  refine wt_bind.mpr ?_
  unfold namexStart State.start
  split
  · obtain ⟨e, t, hget, he, hi, hwalk, -⟩ := h0.iget hR ⟨a, ha, ha0⟩ ROOTINO
    exact wt_alone_last hget (namexLoop_walks hR _ (Nat.le_refl _) hwalk he hi hR.tree.root)
  · unfold idupCwd
    refine wt_alone (fun _ => rfl) ?_
    rw [hcwd]
    refine wt_alone (r := ()) (fun _ => rfl) ?_
    refine namexLoop_walks hR _ (Nat.le_refl _) ?_ hw ?_ ⟨htype, .inr ⟨w, hw, hpos, rfl⟩⟩
    · refine h0.touch hw hpos rfl ⟨rfl, rfl, rfl⟩ ⟨rfl, rfl⟩ ?_ (fun a ha => more_of_ne ha) ?_
        (hR.table.loaded w hw hpos) (hR.unlocked w) fun _ _ => Iff.rfl
      · rw [more_self]
        rfl
      · dsimp only
        omega
    · simp [State.setEntry]

/-- **Path resolution.** `namei` returns the inode reached by looking up the components one after another,
`nameiparent` that of all but the last, if it is a directory; both return 0 exactly if there is none; only the
reference to the result is kept. -/
theorem namei_resolves (hR : Ready p s) (path : Path) :
    (namei path).wt (alone p) s (fun r t => Balanced s t r ∧
      (r.map fun e => (t.inode e).inum) = s.follow (s.start p path) (components path)) ∧
    (nameiparent path).wt (alone p) s (fun r t => Balanced s t (r.map Prod.fst) ∧
      (r.map fun a => (t.inode a.1).inum) = s.followParent (s.start p path) (components path) ∧
      ∀ a ∈ r, (components path).getLast? = some a.2) := by
  constructor
  · refine wt_bind.mpr (wt_mono (namex_walks hR path false) fun r t h => ?_)
    obtain ⟨hb, hi, -⟩ := h.balanced
    refine ⟨hb, ?_⟩
    rw [Option.map_map]
    exact hi
  · refine wt_mono (namex_walks hR path true) fun r t h => ?_
    obtain ⟨hb, hi, hl⟩ := h.balanced
    exact ⟨hb, hi, hl rfl⟩

theorem sample_tree : Tree sample := by
  have hkept : ∀ k, k = 1 ∨ k = 2 ∨ k = 3 → sample.Kept k := by
    rintro k (rfl | rfl | rfl) <;> exact ⟨by decide, .inl (by decide)⟩
  have hslot : ∀ i j, (sample.slot i j).inum ≠ 0 → sample.Kept (sample.slot i j).inum := fun i j h => by
    refine hkept _ ?_
    revert h
    unfold sample
    dsimp only
    split <;> decide
  refine ⟨sample_holeFree, fun i hi => ?_, fun i c k _ h => ?_, hkept _ (.inl rfl)⟩
  · revert hi
    unfold sample
    dsimp only
    split <;> decide
  · obtain ⟨j, hj, rfl⟩ := Option.map_eq_some_iff.mp h
    have hfound := List.find?_some hj
    exact hslot i j (of_decide_eq_true hfound).1

theorem sample_ready : Ready true sample := by
  have href : ∀ e, 0 < (sample.inode e).ref → e = 0 := fun e h => by
    by_contra hne
    have h0 : (sample.inode e).ref = 0 := if_neg hne
    omega
  refine ⟨⟨fun e => ?_, fun e _ e' _ h h' _ => (href e h).trans (href e' h').symm, fun _ _ _ => rfl,
    fun _ _ _ h => by cases h⟩, sample_tree, ⟨0, by decide, rfl, by decide, by decide⟩, fun _ => rfl,
    ⟨1, by decide, 2, by decide, by decide, by decide, by decide⟩⟩
  show (0 : Int) ≤ if e = 0 then 1 else 0
  split <;> decide

/-- `//a/b/../b` is `/a/b`, and the parent of `a/b/../c` is `/a`. -/
theorem namei_resolves_dotdot : Ready true sample ∧
    (namei [47, 47, 97, 47, 98, 47, 46, 46, 47, 98]).wt (alone true) sample (fun r t => Balanced sample t r ∧
      (r.map fun e => (t.inode e).inum) = some 3) ∧
    (nameiparent [97, 47, 98, 47, 46, 46, 47, 99]).wt (alone true) sample (fun r t =>
      Balanced sample t (r.map Prod.fst) ∧ (r.map fun a => (t.inode a.1).inum) = some 2 ∧
      ∀ a ∈ r, some [99] = some a.2) :=
  ⟨sample_ready, (namei_resolves sample_ready [47, 47, 97, 47, 98, 47, 46, 46, 47, 98]).1,
    (namei_resolves sample_ready [97, 47, 98, 47, 46, 46, 47, 99]).2⟩

/-- A disk with an empty root directory, and a table whose entries from `n` on are free. -/
def tableOf (n : Nat) : State Unit where
  ninodes := 200
  dinode i := { Dinode.fresh (if i = ROOTINO then .dir else .file) with nlink := 1 }
  ind _ _ := 0
  slot _ _ := ⟨0, [], 0⟩
  nfree := 0
  inode e := ⟨ROOTDEV, e + 2, if e < n then 1 else 0, none, false, Dinode.fresh .none⟩
  file _ := ⟨0, .none, false, false, 0, 0, 0, 0⟩
  pipe _ := ⟨false, false, 0, 0⟩
  proc _ := ⟨.alive, fun _ => none, some 0⟩
  gen _ := 0
  unread _ := none

theorem tableOf_table (n : Nat) : Table (tableOf n) := by
  refine ⟨fun e => ?_, fun e _ e' _ _ _ h => Nat.add_right_cancel h, fun _ _ _ => rfl,
    fun _ _ _ h => by cases h⟩
  show (0 : Int) ≤ if e < n then 1 else 0
  split <;> decide

theorem tableOf_tree (n : Nat) : Tree (tableOf n) := by
  refine ⟨fun i _ => Dinode.full_of_size rfl _, fun i _ => Dvd.intro 0 rfl, fun i c k _ h => ?_, ?_⟩
  · simp [State.lookup, tableOf, Dinode.fresh, slots, DIRENT] at h
  · exact ⟨(nofun : FileType.dir ≠ .none), .inl (by decide : (1 : Int) ≠ 0)⟩

/-- With all entries in use, `namei("/")` does not return. -/
theorem namei_panics : Table (tableOf NINODE) ∧ Tree (tableOf NINODE) ∧
    (∀ e, ((tableOf NINODE).inode e).lock = none) ∧
    (∀ env, exec () (.iget ROOTDEV ROOTINO) env (tableOf NINODE) = .panic "iget: no inodes") ∧
    ¬ (namei [slash]).wt (alone ()) (tableOf NINODE) fun _ _ => True := by
  have hget : ∀ env, exec () (.iget ROOTDEV ROOTINO) env (tableOf NINODE) = .panic "iget: no inodes" :=
    fun _ => rfl
  refine ⟨tableOf_table _, tableOf_tree _, fun _ => rfl, hget, fun h => ?_⟩
  obtain ⟨r, t, hdone⟩ := (wt_bind.mp (wt_bind.mp h)).1 ⟨fun _ => 0, ()⟩
  cases (hget _).symm.trans hdone

end Xv6Freezer.Files

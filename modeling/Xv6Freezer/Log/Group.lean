import Xv6Freezer.Lib.Transition
import Xv6Freezer.Log.Basic

/-! # Group commit

Any number of processes that call `begin_op`, `log_write` and `end_op`, in any order of their critical
sections, and the steps of `commit`, which runs without the lock. A process that waits in `begin_op` may run
its test again at any time. History variables record which blocks each operation logged.
-/

namespace Xv6Freezer

open Function

/-! ## The transition system -/

inductive OpPc where
  | idle
  | waiting
  /-- Between `begin_op` and `end_op`, as operation number `id`. -/
  | inOp (id : Nat)
  /-- `commit`: the test of `log.lh.n`. -/
  | commit
  /-- `write_log`, at `tail`. -/
  | writeLog (tail : Nat)
  /-- The first `write_head`. -/
  | writeHead
  /-- `install_trans(0)`, at `tail`. -/
  | install (tail : Nat)
  | clear
  /-- The second `write_head`. -/
  | erase
  /-- The last critical section of `end_op`. -/
  | finish
  deriving DecidableEq

def OpPc.commits : OpPc → Bool
  | .idle | .waiting | .inOp _ => false
  | _ => true

/-- Has `commit` cleared the header in memory? -/
def OpPc.cleared : OpPc → Bool
  | .erase | .finish => true
  | _ => false

structure Group where
  log : Log
  pc : Nat → OpPc
  /-- How often each block is pinned in the buffer cache by `bpin`. -/
  pins : Nat → Nat
  panic : Option String
  /-- The number of operations admitted so far. -/
  nextOp : Nat
  /-- The first operation of the transaction under way. -/
  first : Nat
  /-- The blocks each operation passed to `log_write`. -/
  blocks : Nat → List Nat
  /-- Has the operation called `end_op`? -/
  ended : Nat → Bool
  /-- The blocks the commit under way has copied into the log. -/
  copied : List Nat
  /-- The blocks the commit under way has written to their home location. -/
  installed : List Nat

inductive GroupAct where
  /-- `begin_op`: the test, on entry or after a wakeup. -/
  | beginOp (p : Nat)
  | logWrite (p : Nat) (blockno : Nat)
  /-- `end_op`, up to `commit`. -/
  | endOp (p : Nat)
  | commit (p : Nat)
  deriving DecidableEq

namespace Group

def beginOp (s : Group) (p : Nat) : Group :=
  if s.log.mustWait then { s with pc := update s.pc p .waiting }
  else
    { s with log := s.log.beginOp, pc := update s.pc p (.inOp s.nextOp), nextOp := s.nextOp + 1,
             blocks := update s.blocks s.nextOp [], ended := update s.ended s.nextOp false }

def logWrite (s : Group) (id b : Nat) : Group :=
  match s.log.logWrite b with
  | .error msg => { s with panic := some msg }
  | .ok (l, added) =>
    { s with log := l, blocks := update s.blocks id (s.blocks id ++ [b]),
             pins := if added then update s.pins b (s.pins b + 1) else s.pins }

def endOp (s : Group) (p id : Nat) : Group :=
  match s.log.endOp with
  | .error msg => { s with panic := some msg }
  | .ok (l, doCommit) =>
    { s with log := l, pc := update s.pc p (if doCommit then .commit else .idle),
             ended := update s.ended id true }

/-- One step of `commit`, at the given program point of process `p`. -/
def commitStep (s : Group) (p : Nat) : OpPc → Option Group
  | .commit =>
    some { s with pc := update s.pc p (if s.log.lh.length > 0 then .writeLog 0 else .finish) }
  | .writeLog tail =>
    match s.log.lh[tail]? with
    | some b => some { s with pc := update s.pc p (.writeLog (tail + 1)), copied := s.copied ++ [b] }
    | none => some { s with pc := update s.pc p .writeHead }
  | .writeHead => some { s with pc := update s.pc p (.install 0) }
  | .install tail =>
    match s.log.lh[tail]? with
    | some b => some { s with pc := update s.pc p (.install (tail + 1)),
                              installed := s.installed ++ [b],
                              pins := update s.pins b (s.pins b - 1) }
    | none => some { s with pc := update s.pc p .clear }
  | .clear => some { s with pc := update s.pc p .erase, log := s.log.clear }
  | .erase => some { s with pc := update s.pc p .finish }
  | .finish =>
    some { s with pc := update s.pc p .idle, log := s.log.commitDone, first := s.nextOp,
                  copied := [], installed := [] }
  | _ => none

/-- One step of the system; a panic stops it. -/
def step (s : Group) (a : GroupAct) : Option Group :=
  if s.panic ≠ none then none
  else
    match a with
    | .beginOp p =>
      match s.pc p with
      | .idle | .waiting => some (s.beginOp p)
      | _ => none
    | .logWrite p b =>
      match s.pc p with
      | .inOp id => some (s.logWrite id b)
      | _ => none
    | .endOp p =>
      match s.pc p with
      | .inOp id => some (s.endOp p id)
      | _ => none
    | .commit p => s.commitStep p (s.pc p)

/-- The state after boot, with the log area at `start` of size `size`. -/
def boot (start size : Nat) : Group :=
  { log := Log.init start size, pc := fun _ => .idle, pins := fun _ => 0, panic := none, nextOp := 0,
    first := 0, blocks := fun _ => [], ended := fun _ => false, copied := [], installed := [] }

end Group

def groupCommit (start size : Nat) : Lib.Lts Group GroupAct where
  init s := s = Group.boot start size
  step := Group.step

/-! ## The invariant -/

namespace Group

variable {s s' : Group} {p id b : Nat}

theorem step_cases {a : GroupAct} (hs : s.step a = some s') : s.panic = none ∧
    ((∃ p, a = .beginOp p ∧ (s.pc p = .idle ∨ s.pc p = .waiting) ∧ s' = s.beginOp p) ∨
      (∃ p b id, a = .logWrite p b ∧ s.pc p = .inOp id ∧ s' = s.logWrite id b) ∨
      (∃ p id, a = .endOp p ∧ s.pc p = .inOp id ∧ s' = s.endOp p id) ∨
      ∃ p, a = .commit p ∧ s.commitStep p (s.pc p) = some s') := by
  unfold Group.step at hs
  split at hs
  · cases hs
  rename_i hpanic
  refine ⟨not_not.mp hpanic, ?_⟩
  cases a with
  | beginOp p =>
    simp only at hs
    split at hs <;> cases hs
    · rename_i hp; exact .inl ⟨p, rfl, .inl hp, rfl⟩
    · rename_i hp; exact .inl ⟨p, rfl, .inr hp, rfl⟩
  | logWrite p b =>
    simp only at hs
    split at hs <;> cases hs
    rename_i hp
    exact .inr (.inl ⟨p, b, _, rfl, hp, rfl⟩)
  | endOp p =>
    simp only at hs
    split at hs <;> cases hs
    rename_i hp
    exact .inr (.inr (.inl ⟨p, _, rfl, hp, rfl⟩))
  | commit p => exact .inr (.inr (.inr ⟨p, rfl, hs⟩))

theorem commitStep_frame {pc : OpPc} (hs : s.commitStep p pc = some s') :
    s'.log.size = s.log.size ∧ s'.panic = s.panic := by
  cases pc with
  | writeLog | install =>
    simp only [Group.commitStep] at hs
    split at hs <;> cases hs <;> exact ⟨rfl, rfl⟩
  | _ => cases hs <;> exact ⟨rfl, rfl⟩

def Logged (s : Group) (b : Nat) : Prop := ∃ id, s.first ≤ id ∧ id < s.nextOp ∧ b ∈ s.blocks id

/-- What the commit under way has written when it is at a program point. -/
def Written (s : Group) : OpPc → Prop
  | .commit => s.copied = [] ∧ s.installed = []
  | .writeLog tail => s.copied = s.log.lh.take tail ∧ s.installed = []
  | .writeHead => s.copied = s.log.lh ∧ s.installed = []
  | .install tail => s.copied = s.log.lh ∧ s.installed = s.log.lh.take tail
  | .clear => s.copied = s.log.lh ∧ s.installed = s.log.lh
  | .erase | .finish => s.log.lh = [] ∧ s.copied = s.installed ∧ ∀ b, b ∈ s.installed ↔ s.Logged b
  | _ => True

structure Inv (s : Group) : Prop where
  /-- `outstanding` counts the processes between `begin_op` and `end_op`. -/
  active : ∃ S : Finset Nat, (∀ p, p ∈ S ↔ ∃ id, s.pc p = .inOp id) ∧ s.log.outstanding = S.card
  committing : s.log.committing = true ↔ ∃ p, (s.pc p).commits = true
  single : ∀ p q, (s.pc p).commits = true → (s.pc q).commits = true → p = q
  quiet : s.log.committing = true → ∀ p id, s.pc p ≠ .inOp id
  nodup : s.log.lh.Nodup
  /-- A logged block is pinned once, until it is installed. -/
  pinned : ∀ b, s.pins b = if b ∈ s.log.lh ∧ b ∉ s.installed then 1 else 0
  first_le : s.first ≤ s.nextOp
  ids : ∀ p id, s.pc p = .inOp id → s.first ≤ id ∧ id < s.nextOp ∧ s.ended id = false
  ids_ne : ∀ p q id, s.pc p = .inOp id → s.pc q = .inOp id → p = q
  /-- An operation of the transaction has ended, or some process is in it. -/
  ended : ∀ id, s.first ≤ id → id < s.nextOp → s.ended id = true ∨ ∃ p, s.pc p = .inOp id
  /-- The header has the blocks that the operations of the transaction logged. -/
  logged : (∀ p, (s.pc p).cleared = false) → ∀ b, b ∈ s.log.lh ↔ s.Logged b
  written : ∀ p, s.Written (s.pc p)
  /-- Outside of `commit` nothing has been written. -/
  fresh : (∀ p, (s.pc p).commits = false) → s.copied = [] ∧ s.installed = []
  panic : ∀ msg, s.panic = some msg → msg = "too big a transaction"

theorem Inv.not_committing (h : Inv s) (hp : s.pc p = .inOp id) : s.log.committing = false := by
  cases hc : s.log.committing with
  | false => rfl
  | true => exact absurd hp (h.quiet hc p id)

theorem Inv.commits_false (h : Inv s) (hc : s.log.committing = false) (q : Nat) :
    (s.pc q).commits = false := by
  cases hq : (s.pc q).commits with
  | false => rfl
  | true =>
    rw [h.committing.mpr ⟨q, hq⟩] at hc
    cases hc

theorem cleared_of_commits {pc : OpPc} (h : pc.commits = false) : pc.cleared = false := by
  cases pc <;> simp_all [OpPc.commits, OpPc.cleared]

theorem Inv.beginOp_wait (h : Inv s) (hp : s.pc p = .idle ∨ s.pc p = .waiting) :
    Inv { s with pc := update s.pc p .waiting } := by
  have hcommits : ∀ q, (update s.pc p .waiting q).commits = (s.pc q).commits := by
    intro q
    by_cases hq : q = p
    · subst hq; rcases hp with e | e <;> simp [e, OpPc.commits]
    · rw [update_of_ne hq]
  have hcleared : ∀ q, (update s.pc p .waiting q).cleared = (s.pc q).cleared := by
    intro q
    by_cases hq : q = p
    · subst hq; rcases hp with e | e <;> simp [e, OpPc.cleared]
    · rw [update_of_ne hq]
  have hin : ∀ q id, update s.pc p .waiting q = .inOp id ↔ s.pc q = .inOp id := by
    intro q id
    by_cases hq : q = p
    · subst hq; rcases hp with e | e <;> simp [e]
    · rw [update_of_ne hq]
  exact
    { active := by simpa only [hin] using h.active
      committing := by simpa only [hcommits] using h.committing
      single := by simpa only [hcommits] using h.single
      quiet := by simpa only [ne_eq, hin] using h.quiet
      nodup := h.nodup
      pinned := h.pinned
      first_le := h.first_le
      ids := by simpa only [hin] using h.ids
      ids_ne := by simpa only [hin] using h.ids_ne
      ended := by simpa only [hin] using h.ended
      logged := fun hc => h.logged (by simpa only [hcleared] using hc)
      written := fun q => by
        show Written _ (update s.pc p .waiting q)
        by_cases hq : q = p
        · subst hq; simp [Written]
        · rw [update_of_ne hq]; exact h.written q
      fresh := by simpa only [hcommits] using h.fresh
      panic := h.panic }

theorem written_of_commits_false {pc : OpPc} (h : pc.commits = false) : s.Written pc := by
  cases pc with
  | idle | waiting | inOp => trivial
  | _ => cases h

theorem Inv.beginOp_admit (h : Inv s) (hp : s.pc p = .idle ∨ s.pc p = .waiting)
    (hw : s.log.committing = false) :
    Inv { s with log := s.log.beginOp, pc := update s.pc p (.inOp s.nextOp), nextOp := s.nextOp + 1,
                 blocks := update s.blocks s.nextOp [], ended := update s.ended s.nextOp false } := by
  have hno : ∀ q, (update s.pc p (.inOp s.nextOp) q).commits = false := by
    intro q
    by_cases hq : q = p
    · subst hq; simp [OpPc.commits]
    · rw [update_of_ne hq]; exact h.commits_false hw q
  have hpn : ∀ id, s.pc p ≠ .inOp id := by rcases hp with e | e <;> simp [e]
  have hold : ∀ q id, q ≠ p → (update s.pc p (.inOp s.nextOp) q = .inOp id ↔ s.pc q = .inOp id) :=
    fun q id hq => by rw [update_of_ne hq]
  have hblocks : ∀ id, id < s.nextOp → update s.blocks s.nextOp [] id = s.blocks id := fun id hid =>
    update_of_ne (Nat.ne_of_lt hid) _ _
  have hended : ∀ id, id < s.nextOp → update s.ended s.nextOp false id = s.ended id := fun id hid =>
    update_of_ne (Nat.ne_of_lt hid) _ _
  exact
    { active := by
        obtain ⟨S, hS, hcard⟩ := h.active
        have hpS : p ∉ S := fun hm => by obtain ⟨id, e⟩ := (hS p).mp hm; exact hpn id e
        refine ⟨insert p S, fun q => ?_, ?_⟩
        · by_cases hq : q = p
          · subst hq; simp
          · simp only [Finset.mem_insert, hq, false_or, hold q _ hq]; exact hS q
        · simp [Log.beginOp, hcard, Finset.card_insert_of_notMem hpS]
      committing := by simp [Log.beginOp, hw, hno]
      single := fun q r hq => by rw [hno] at hq; cases hq
      quiet := fun hc => by simp [Log.beginOp, hw] at hc
      nodup := h.nodup
      pinned := h.pinned
      first_le := Nat.le_succ_of_le h.first_le
      ids := fun q id hq => by
        by_cases hqp : q = p
        · subst hqp
          obtain rfl : s.nextOp = id := by simpa using hq
          exact ⟨h.first_le, Nat.lt_succ_self _, by simp⟩
        · obtain ⟨h1, h2, h3⟩ := h.ids q id ((hold q id hqp).mp hq)
          exact ⟨h1, Nat.lt_succ_of_lt h2, by simpa [hended id h2] using h3⟩
      ids_ne := fun q r id hq hr => by
        have hlt : ∀ {q}, q ≠ p → update s.pc p (.inOp s.nextOp) q = .inOp id → id < s.nextOp :=
          fun {q} hqp e => (h.ids q id ((hold q id hqp).mp e)).2.1
        by_cases hqp : q = p <;> by_cases hrp : r = p
        · rw [hqp, hrp]
        · subst hqp
          obtain rfl : s.nextOp = id := by simpa using hq
          exact absurd (hlt hrp hr) (Nat.lt_irrefl _)
        · subst hrp
          obtain rfl : s.nextOp = id := by simpa using hr
          exact absurd (hlt hqp hq) (Nat.lt_irrefl _)
        · exact h.ids_ne q r id ((hold q id hqp).mp hq) ((hold r id hrp).mp hr)
      ended := fun id h1 h2 => by
        rcases Nat.lt_succ_iff_lt_or_eq.mp h2 with hlt | rfl
        · rcases h.ended id h1 hlt with he | ⟨q, hq⟩
          · exact .inl (by simpa [hended id hlt] using he)
          · have hqp : q ≠ p := by rintro rfl; exact hpn id hq
            exact .inr ⟨q, (hold q id hqp).mpr hq⟩
        · exact .inr ⟨p, by simp⟩
      logged := fun _ b => by
        have hcl : ∀ q, (s.pc q).cleared = false := fun q =>
          cleared_of_commits (h.commits_false hw q)
        refine (h.logged hcl b).trans ⟨?_, ?_⟩
        · rintro ⟨id, h1, h2, h3⟩
          exact ⟨id, h1, Nat.lt_succ_of_lt h2, by simpa [hblocks id h2] using h3⟩
        · rintro ⟨id, h1, h2, h3⟩
          rcases Nat.lt_succ_iff_lt_or_eq.mp h2 with hlt | rfl
          · exact ⟨id, h1, hlt, by simpa [hblocks id hlt] using h3⟩
          · simp at h3
      written := fun q => written_of_commits_false (hno q)
      fresh := fun _ => h.fresh (h.commits_false hw)
      panic := h.panic }

theorem Inv.panicked (h : Inv s) : Inv { s with panic := some "too big a transaction" } :=
  { h with panic := fun _ e => (Option.some.inj e).symm }

theorem Inv.outstanding_pos (h : Inv s) (hp : s.pc p = .inOp id) : 1 ≤ s.log.outstanding := by
  obtain ⟨S, hS, hcard⟩ := h.active
  have hpos : 0 < S.card := Finset.card_pos.mpr ⟨p, (hS p).mpr ⟨id, hp⟩⟩
  omega

theorem Inv.logWrite (h : Inv s) (hp : s.pc p = .inOp id) : Inv (s.logWrite id b) := by
  have hc := h.not_committing hp
  have hno := h.commits_false hc
  have hcl : ∀ q, (s.pc q).cleared = false := fun q => cleared_of_commits (hno q)
  obtain ⟨-, hinst⟩ := h.fresh hno
  obtain ⟨h1, h2, -⟩ := h.ids p id hp
  have hout : ¬ s.log.outstanding < 1 := by have := h.outstanding_pos hp; omega
  unfold Group.logWrite Log.logWrite
  by_cases hfull : s.log.lh.length ≥ LOGSIZE ∨ (s.log.lh.length : Int) ≥ (s.log.size : Int) - 1
  · simp only [if_pos hfull]; exact h.panicked
  simp only [if_neg hfull, if_neg hout]
  exact
    { h with
      nodup := Log.nodup_absorb h.nodup
      pinned := fun x => by
        have hx := h.pinned x
        simp only [hinst, List.not_mem_nil, not_false_eq_true, and_true] at hx ⊢
        by_cases hb : b ∈ s.log.lh
        · simpa [Log.absorb_of_mem hb] using hx
        · simp only [Log.absorb_of_not_mem hb, if_true, List.mem_append, List.mem_singleton]
          by_cases hxb : x = b
          · subst hxb; simp [hx, hb]
          · simp [hx, hxb]
      logged := fun _ x => by
        refine Log.mem_absorb.trans ?_
        rw [h.logged hcl x]
        constructor
        · rintro (⟨i, hi, hi', hx⟩ | rfl)
          · refine ⟨i, hi, hi', ?_⟩
            by_cases hii : i = id
            · subst hii; simp [hx]
            · simpa [update_of_ne hii] using hx
          · exact ⟨id, h1, h2, by simp⟩
        · rintro ⟨i, hi, hi', hx⟩
          by_cases hii : i = id
          · subst hii
            have hx' : x ∈ s.blocks i ∨ x = b := by simpa using hx
            exact hx'.imp_left fun hx => ⟨i, hi, hi', hx⟩
          · exact .inl ⟨i, hi, hi', by simpa [update_of_ne hii] using hx⟩
      written := fun q => written_of_commits_false (hno q) }

theorem endOp_eq (hc : s.log.committing = false) : s.endOp p id =
    { s with log := { s.log with outstanding := s.log.outstanding - 1,
                                 committing := decide (s.log.outstanding - 1 = 0) },
             pc := update s.pc p (if s.log.outstanding - 1 = 0 then .commit else .idle),
             ended := update s.ended id true } := by
  by_cases hz : s.log.outstanding - 1 = 0
  · simp [Group.endOp, Log.endOp, hc, hz]
  · simp [Group.endOp, Log.endOp, hc, hz]

theorem Inv.endOp (h : Inv s) (hp : s.pc p = .inOp id) : Inv (s.endOp p id) := by
  have hc := h.not_committing hp
  have hno := h.commits_false hc
  have hcl : ∀ q, (s.pc q).cleared = false := fun q => cleared_of_commits (hno q)
  obtain ⟨S, hS, hcard⟩ := h.active
  have hpS : p ∈ S := (hS p).mpr ⟨id, hp⟩
  have hcard' : (S.card : Int) - 1 = (S.erase p).card := by
    rw [Finset.card_erase_of_mem hpS]
    have := Finset.card_pos.mpr ⟨p, hpS⟩
    omega
  -- the program point after `end_op`
  have key : ∀ (x : OpPc) (com : Bool), (∀ i, x ≠ .inOp i) → x.cleared = false →
      x.commits = com → (com = true → S.erase p = ∅) →
      (s.copied = [] → s.installed = [] → Written { s with log := { s.log with
        outstanding := s.log.outstanding - 1, committing := com } } x) →
      Inv { s with log := { s.log with outstanding := s.log.outstanding - 1, committing := com },
                   pc := update s.pc p x, ended := update s.ended id true } := by
    intro x com hx hxc hcom hempty hwr
    have hin : ∀ q i, update s.pc p x q = .inOp i ↔ q ≠ p ∧ s.pc q = .inOp i := by
      intro q i
      by_cases hq : q = p
      · subst hq; simp [hx i]
      · simp [hq]
    have hcommits : ∀ q, (update s.pc p x q).commits = true ↔ q = p ∧ com = true := by
      intro q
      by_cases hq : q = p
      · subst hq; simp [hcom]
      · simp [hno q, hq]
    exact
      { h with
        active := by
          refine ⟨S.erase p, fun q => ?_, by rw [← hcard', ← hcard]⟩
          simp only [Finset.mem_erase, hS, hin, exists_and_left]
        committing := by simp [hcommits]
        single := fun q r hq hr => by rw [((hcommits q).mp hq).1, ((hcommits r).mp hr).1]
        quiet := fun hc q i hq => by
          obtain ⟨hqp, hq⟩ := (hin q i).mp hq
          have hm : q ∈ S.erase p := Finset.mem_erase.mpr ⟨hqp, (hS q).mpr ⟨i, hq⟩⟩
          rw [hempty hc] at hm
          cases hm
        ids := fun q i hq => by
          obtain ⟨hqp, hq'⟩ := (hin q i).mp hq
          obtain ⟨h1, h2, h3⟩ := h.ids q i hq'
          refine ⟨h1, h2, ?_⟩
          have hne : i ≠ id := by rintro rfl; exact hqp (h.ids_ne q p i hq' hp)
          simpa [update_of_ne hne] using h3
        ids_ne := fun q r i hq hr => h.ids_ne q r i ((hin q i).mp hq).2 ((hin r i).mp hr).2
        ended := fun i h1 h2 => by
          by_cases hi : i = id
          · subst hi; exact .inl (by simp)
          · rcases h.ended i h1 h2 with he | ⟨q, hq⟩
            · exact .inl (by simpa [update_of_ne hi] using he)
            · have hqp : q ≠ p := by
                rintro rfl
                rw [hp] at hq
                exact hi (by simpa using hq.symm)
              exact .inr ⟨q, (hin q i).mpr ⟨hqp, hq⟩⟩
        logged := fun _ => h.logged hcl
        written := fun q => by
          show Written _ (update s.pc p x q)
          by_cases hq : q = p
          · subst hq
            rw [update_self]
            exact hwr (h.fresh hno).1 (h.fresh hno).2
          · rw [update_of_ne hq]; exact written_of_commits_false (hno q)
        fresh := fun _ => h.fresh hno }
  rw [endOp_eq hc]
  by_cases hz : s.log.outstanding - 1 = 0
  · simp only [if_pos hz, decide_eq_true hz]
    refine key .commit true (by simp) rfl rfl (fun _ => ?_) fun h1 h2 => ⟨h1, h2⟩
    rw [hcard, hcard'] at hz
    exact Finset.card_eq_zero.mp (by exact_mod_cast hz)
  · simp only [if_neg hz, decide_eq_false hz]
    exact key .idle false (by simp) rfl rfl (by simp) fun _ _ => trivial

theorem Inv.move {x : OpPc} {lh : List Nat} {pins : Nat → Nat} {copied installed : List Nat}
    (h : Inv s) (hp : (s.pc p).commits = true) (hx : x.commits = true) (hnd : lh.Nodup)
    (hpins : ∀ b, pins b = if b ∈ lh ∧ b ∉ installed then 1 else 0)
    (hlog : x.cleared = false → ∀ b, b ∈ lh ↔ s.Logged b)
    (hwr : Written { s with log := { s.log with lh := lh }, copied := copied,
                            installed := installed } x) :
    Inv { s with log := { s.log with lh := lh }, pc := update s.pc p x, pins := pins,
                 copied := copied, installed := installed } := by
  have hpn : ∀ i, s.pc p ≠ .inOp i := fun i e => by rw [e] at hp; cases hp
  have hxn : ∀ i, x ≠ .inOp i := fun i e => by rw [e] at hx; cases hx
  have hin : ∀ q i, update s.pc p x q = .inOp i ↔ s.pc q = .inOp i := by
    intro q i
    by_cases hq : q = p
    · subst hq; simp [hxn i, hpn i]
    · rw [update_of_ne hq]
  have hcommits : ∀ q, (update s.pc p x q).commits = (s.pc q).commits := by
    intro q
    by_cases hq : q = p
    · subst hq; simp [hx, hp]
    · rw [update_of_ne hq]
  exact
    { active := by simpa only [hin] using h.active
      committing := by simpa only [hcommits] using h.committing
      single := by simpa only [hcommits] using h.single
      quiet := by simpa only [ne_eq, hin] using h.quiet
      nodup := hnd
      pinned := hpins
      first_le := h.first_le
      ids := by simpa only [hin] using h.ids
      ids_ne := by simpa only [hin] using h.ids_ne
      ended := by simpa only [hin] using h.ended
      logged := fun hc => hlog (by simpa using hc p)
      written := fun q => by
        show Written _ (update s.pc p x q)
        by_cases hq : q = p
        · subst hq; rw [update_self]; exact hwr
        · rw [update_of_ne hq]
          refine written_of_commits_false ?_
          cases hcq : (s.pc q).commits with
          | false => rfl
          | true => exact absurd (h.single q p hcq hp) hq
      fresh := fun hf => by
        have := hf p
        rw [show (update s.pc p x p).commits = (s.pc p).commits from hcommits p, hp] at this
        cases this
      panic := h.panic }

theorem Inv.finish (h : Inv s) (hp : s.pc p = .finish) :
    Inv { s with pc := update s.pc p .idle, log := s.log.commitDone, first := s.nextOp,
                 copied := [], installed := [] } := by
  have hpc : (s.pc p).commits = true := by rw [hp]; rfl
  have hcom : s.log.committing = true := h.committing.mpr ⟨p, hpc⟩
  have hnop := h.quiet hcom
  have hno : ∀ q, (update s.pc p .idle q).commits = false := by
    intro q
    by_cases hq : q = p
    · subst hq; simp [OpPc.commits]
    · rw [update_of_ne hq]
      cases hcq : (s.pc q).commits with
      | false => rfl
      | true => exact absurd (h.single q p hcq hpc) hq
  have hin : ∀ q i, update s.pc p .idle q ≠ .inOp i := by
    intro q i
    by_cases hq : q = p
    · subst hq; simp
    · rw [update_of_ne hq]; exact hnop q i
  have hwr := h.written p
  rw [hp] at hwr
  obtain ⟨hlh, -, -⟩ := hwr
  obtain ⟨S, hS, hcard⟩ := h.active
  exact
    { active := by
        refine ⟨∅, fun q => ?_, ?_⟩
        · simpa using fun i => hin q i
        · have hS' : S = ∅ := Finset.eq_empty_of_forall_notMem fun q hq => by
            obtain ⟨i, hi⟩ := (hS q).mp hq
            exact hnop q i hi
          simpa [Log.commitDone, hS'] using hcard
      committing := by simp [Log.commitDone, hno]
      single := fun q r hq => by rw [hno] at hq; cases hq
      quiet := fun hc => by simp [Log.commitDone] at hc
      nodup := h.nodup
      pinned := fun b => by simpa [Log.commitDone, hlh] using h.pinned b
      first_le := le_refl _
      ids := fun q i hq => absurd hq (hin q i)
      ids_ne := fun q r i hq => absurd hq (hin q i)
      ended := fun i h1 h2 => absurd h2 (Nat.not_lt.mpr h1)
      logged := fun _ b => by
        simp only [Log.commitDone, hlh, List.not_mem_nil, false_iff]
        rintro ⟨i, h1, h2, -⟩
        exact absurd h2 (Nat.not_lt.mpr h1)
      written := fun q => written_of_commits_false (hno q)
      fresh := fun _ => ⟨rfl, rfl⟩
      panic := h.panic }

theorem Inv.commitStep (h : Inv s) (hs : s.commitStep p (s.pc p) = some s') : Inv s' := by
  have hwr := h.written p
  -- nobody else commits, so the header is cleared only where `p` says
  have hcl : (s.pc p).commits = true → (s.pc p).cleared = false →
      ∀ b, b ∈ s.log.lh ↔ s.Logged b := by
    intro hp hpc
    refine h.logged fun q => ?_
    by_cases hq : q = p
    · subst hq; exact hpc
    · refine cleared_of_commits ?_
      cases hcq : (s.pc q).commits with
      | false => rfl
      | true => exact absurd (h.single q p hcq hp) hq
  cases hpc : s.pc p with
  | idle | waiting | inOp => rw [hpc] at hs; cases hs
  | commit =>
    rw [hpc] at hs hwr hcl
    cases hs
    have hlog := hcl rfl rfl
    split
    · exact h.move (by rw [hpc]; rfl) rfl h.nodup h.pinned (fun _ => hlog) ⟨hwr.1, hwr.2⟩
    · rename_i hz
      have hnil : s.log.lh = [] := List.length_eq_zero_iff.mp (by omega)
      refine h.move (by rw [hpc]; rfl) rfl h.nodup h.pinned (fun _ => hlog) ⟨hnil, ?_, fun b => ?_⟩
      · rw [hwr.1, hwr.2]
      · have := hlog b
        rw [hnil] at this
        rw [hwr.2]
        exact this
  | writeLog tail =>
    rw [hpc] at hs hwr hcl
    have hlog := hcl rfl rfl
    simp only [Group.commitStep] at hs
    split at hs <;> cases hs
    · rename_i b hb
      obtain ⟨hlt, rfl⟩ := List.getElem?_eq_some_iff.mp hb
      refine h.move (by rw [hpc]; rfl) rfl h.nodup h.pinned (fun _ => hlog) ⟨?_, hwr.2⟩
      rw [hwr.1, List.take_succ_eq_append_getElem hlt]
    · rename_i hb
      refine h.move (by rw [hpc]; rfl) rfl h.nodup h.pinned (fun _ => hlog) ⟨?_, hwr.2⟩
      rw [hwr.1]
      exact List.take_of_length_le (List.getElem?_eq_none_iff.mp hb)
  | writeHead =>
    rw [hpc] at hs hwr hcl
    cases hs
    exact h.move (by rw [hpc]; rfl) rfl h.nodup h.pinned (fun _ => hcl rfl rfl)
      ⟨hwr.1, by rw [hwr.2]; rfl⟩
  | install tail =>
    rw [hpc] at hs hwr hcl
    have hlog := hcl rfl rfl
    simp only [Group.commitStep] at hs
    split at hs <;> cases hs
    · rename_i b hb
      obtain ⟨hlt, rfl⟩ := List.getElem?_eq_some_iff.mp hb
      have hinst : s.installed ++ [s.log.lh[tail]] = s.log.lh.take (tail + 1) := by
        rw [hwr.2, List.take_succ_eq_append_getElem hlt]
      refine h.move (by rw [hpc]; rfl) rfl h.nodup (fun x => ?_) (fun _ => hlog) ⟨hwr.1, hinst⟩
      -- the block installed now was pinned once: it is not among the earlier ones
      have hnew : s.log.lh[tail] ∉ s.installed := by
        rw [hwr.2]
        exact fun hm => by
          have hnd := h.nodup
          rw [← List.take_append_drop tail s.log.lh] at hnd
          refine (List.nodup_append.mp hnd).2.2 _ hm _ ?_ rfl
          rw [List.drop_eq_getElem_cons hlt]
          exact .head _
      have hold := h.pinned x
      by_cases hx : x = s.log.lh[tail]
      · subst hx
        simp [h.pinned, hnew]
      · simp [hold, hx]
    · rename_i hb
      refine h.move (by rw [hpc]; rfl) rfl h.nodup h.pinned (fun _ => hlog) ⟨hwr.1, ?_⟩
      rw [hwr.2]
      exact List.take_of_length_le (List.getElem?_eq_none_iff.mp hb)
  | clear =>
    rw [hpc] at hs hwr hcl
    cases hs
    have hlog := hcl rfl rfl
    refine h.move (by rw [hpc]; rfl) rfl List.nodup_nil (fun b => ?_) (by simp [OpPc.cleared])
      ⟨rfl, hwr.1.trans hwr.2.symm, fun b => ?_⟩
    · have := h.pinned b
      rw [hwr.2] at this
      simpa using this
    · rw [show s.installed = s.log.lh from hwr.2]; exact hlog b
  | erase =>
    rw [hpc] at hs hwr
    cases hs
    exact h.move (by rw [hpc]; rfl) rfl h.nodup h.pinned (by simp [OpPc.cleared]) hwr
  | finish =>
    rw [hpc] at hs
    cases hs
    exact h.finish hpc

theorem step_inv {a : GroupAct} (h : Inv s) (hs : s.step a = some s') : Inv s' := by
  obtain ⟨-, ⟨p, -, hp, rfl⟩ | ⟨p, b, id, -, hp, rfl⟩ | ⟨p, id, -, hp, rfl⟩ | ⟨p, -, hc⟩⟩ :=
    step_cases hs
  · unfold Group.beginOp
    split
    · exact h.beginOp_wait hp
    · rename_i hw
      simp only [Log.mustWait, Bool.or_eq_true, not_or, Bool.not_eq_true] at hw
      exact h.beginOp_admit hp hw.1
  · exact h.logWrite hp
  · exact h.endOp hp
  · exact h.commitStep hc

theorem boot_inv (start size : Nat) : Inv (boot start size) where
  active := ⟨∅, fun p => by simp [boot], rfl⟩
  committing := by simp [boot, Log.init, OpPc.commits]
  single p q hp := by simp [boot, OpPc.commits] at hp
  quiet hc := by simp [boot, Log.init] at hc
  nodup := List.nodup_nil
  pinned b := by simp [boot, Log.init]
  first_le := le_refl _
  ids p id hp := by simp [boot] at hp
  ids_ne p q id hp := by simp [boot] at hp
  ended id _ h := absurd h (Nat.not_lt_zero id)
  logged _ b := by simp [boot, Log.init, Logged]
  written p := trivial
  fresh _ := ⟨rfl, rfl⟩
  panic msg h := by cases h

theorem reachable_inv {start size : Nat} (h : (groupCommit start size).Reachable s) : Inv s := by
  refine h.invariant (fun t ht => ?_) fun t a t' hi _ hs => step_inv hi hs
  subst ht
  exact boot_inv start size

/-! ## Isolation -/

theorem Inv.outstanding_eq_zero (h : Inv s) (hc : s.log.committing = true) :
    s.log.outstanding = 0 := by
  obtain ⟨S, hS, hcard⟩ := h.active
  have hempty : S = ∅ := Finset.eq_empty_of_forall_notMem fun q hq => by
    obtain ⟨id, hid⟩ := (hS q).mp hq
    exact h.quiet hc q id hid
  rw [hcard, hempty]
  rfl

theorem beginOp_of_committing (hc : s.log.committing = true) :
    s.beginOp p = { s with pc := update s.pc p .waiting } := by
  simp [Group.beginOp, Log.mustWait, hc]

theorem logWrite_of_outstanding {l : Log} (h : l.outstanding = 0) (r : Log × Bool) :
    l.logWrite b ≠ .ok r := by
  unfold Log.logWrite
  rw [h]
  split <;> simp

theorem Inv.ended_of_commits (h : Inv s) (hp : (s.pc p).commits = true) (h1 : s.first ≤ id)
    (h2 : id < s.nextOp) : s.ended id = true := by
  rcases h.ended id h1 h2 with he | ⟨q, hq⟩
  · exact he
  · exact absurd hq (h.quiet (h.committing.mpr ⟨p, hp⟩) q id)

theorem Inv.written_of_cleared (h : Inv s) (hp : (s.pc p).cleared = true) :
    s.copied = s.installed ∧ ∀ b, b ∈ s.installed ↔ s.Logged b := by
  have hwr := h.written p
  cases hpc : s.pc p with
  | erase | finish => rw [hpc] at hwr; exact hwr.2
  | _ => rw [hpc] at hp; cases hp

/-- **Group commit is isolated from the operations.** While `committing` is set no process is in an operation,
`begin_op` waits and no `log_write` succeeds; the blocks of the header are distinct, and pinned once until
they are installed; what a commit installs is what its operations, all ended, have logged. -/
theorem commit_isolated {start size : Nat} (h : (groupCommit start size).Reachable s) :
    (s.log.committing = true →
      s.log.outstanding = 0 ∧
      (∀ p s', s.step (.beginOp p) = some s' → s'.log = s.log ∧ s'.pc p = .waiting) ∧
      (∀ p b, s.step (.logWrite p b) = none) ∧ ∀ b r, s.log.logWrite b ≠ .ok r) ∧
    s.panic ≠ some "log.committing" ∧
    (s.log.lh.Nodup ∧ ∀ b, s.pins b = if b ∈ s.log.lh ∧ b ∉ s.installed then 1 else 0) ∧
    (∀ p, (s.pc p).commits = true → ∀ id, s.first ≤ id → id < s.nextOp → s.ended id = true) ∧
    ∀ p, (s.pc p).cleared = true →
      s.copied = s.installed ∧ ∀ b, b ∈ s.installed ↔ s.Logged b := by
  have hi := reachable_inv h
  refine ⟨fun hc => ⟨hi.outstanding_eq_zero hc, fun p s' hs => ?_, fun p b => ?_, fun b =>
    logWrite_of_outstanding (hi.outstanding_eq_zero hc)⟩, fun hp => ?_, ⟨hi.nodup, hi.pinned⟩,
    fun p hp id => hi.ended_of_commits hp, fun p => hi.written_of_cleared⟩
  · have hs' : s' = { s with pc := update s.pc p .waiting } := by
      simp only [Group.step, beginOp_of_committing hc] at hs
      split at hs
      · cases hs
      · split at hs <;> cases hs <;> rfl
    rw [hs']
    exact ⟨rfl, update_self ..⟩
  · simp only [Group.step]
    split
    · rfl
    · split
      · rename_i hp; exact absurd hp (hi.quiet hc _ _)
      · rfl
  · exact absurd (hi.panic _ hp) (by decide)

/-- Two operations that log blocks 40 and 41, and a commit, while process 2 waits. -/
def isolatedTrace : List GroupAct :=
  [.beginOp 0, .beginOp 1, .logWrite 0 40, .logWrite 1 41, .logWrite 1 40, .endOp 0, .endOp 1,
    .beginOp 2, .commit 1, .commit 1, .commit 1, .commit 1, .beginOp 2, .commit 1, .commit 1,
    .commit 1, .commit 1, .commit 1]

/-- A commit at whose end the two blocks have been installed. -/
theorem commit_isolated_two : ∃ s, (groupCommit 2 nlog).Reachable s ∧ s.log.committing = true ∧
    s.log.outstanding = 0 ∧ s.pc 2 = .waiting ∧ s.copied = s.installed ∧ s.installed = [40, 41] ∧
    ∀ b, b ∈ [40, 41] ↔ s.Logged b := by
  have hinit : (groupCommit 2 nlog).init (boot 2 nlog) := rfl
  obtain ⟨s, hs, hp⟩ := Lib.Lts.reachable_of_execs isolatedTrace
    (fun s : Group => decide (s.log.committing = true ∧ s.pc 2 = .waiting ∧
      (s.pc 1).cleared = true ∧ s.installed = [40, 41])) hinit (by decide)
  obtain ⟨hc, hwait, hcl, hinst⟩ := of_decide_eq_true hp
  obtain ⟨hcom, -, -, -, hwritten⟩ := commit_isolated hs
  obtain ⟨hcopied, hmem⟩ := hwritten 1 hcl
  exact ⟨s, hs, hc, (hcom hc).1, hwait, hcopied, hinst, hinst ▸ hmem⟩

/-! ## Reservation of log space -/

/-- The distinct blocks that the operations of the transaction under way logged. -/
def loggedBlocks (s : Group) : Finset Nat :=
  (Finset.Ico s.first s.nextOp).biUnion fun id => (s.blocks id).toFinset

theorem mem_loggedBlocks : b ∈ s.loggedBlocks ↔ s.Logged b := by
  simp [loggedBlocks, Logged, and_assoc]

theorem Inv.length_lh (h : Inv s) (hp : s.pc p = .inOp id) :
    s.log.lh.length = s.loggedBlocks.card := by
  have hcl : ∀ q, (s.pc q).cleared = false := fun q =>
    cleared_of_commits (h.commits_false (h.not_committing hp) q)
  have heq : s.loggedBlocks = s.log.lh.toFinset := by
    ext b
    rw [mem_loggedBlocks, List.mem_toFinset]
    exact (h.logged hcl b).symm
  rw [heq, List.toFinset_card_of_nodup h.nodup]

theorem step_size {a : GroupAct} (hs : s.step a = some s') : s'.log.size = s.log.size := by
  obtain ⟨-, ⟨p, -, -, rfl⟩ | ⟨p, b, id, -, -, rfl⟩ | ⟨p, id, -, -, rfl⟩ | ⟨p, -, hc⟩⟩ :=
    step_cases hs
  · unfold Group.beginOp; split <;> rfl
  · unfold Group.logWrite
    split
    · rfl
    · rename_i hok; rw [(Log.logWrite_ok hok).2.1]
  · unfold Group.endOp
    split
    · rfl
    · rename_i hok; exact (Log.endOp_ok hok).1
  · exact (commitStep_frame hc).1

theorem reachable_size {start size : Nat} (h : (groupCommit start size).Reachable s) :
    s.log.size = size := by
  refine h.invariant (I := fun t => t.log.size = size) (fun t ht => ?_) fun t a t' hi _ hs => ?_
  · subst ht; rfl
  · rw [step_size hs, hi]

theorem Inv.logWrite_panics (h : Inv s) (hp : s.pc p = .inOp id) (hsize : s.log.size = nlog) :
    s.log.logWrite b = .error "too big a transaction" ↔ nlog - 1 ≤ s.loggedBlocks.card := by
  have hout : ¬ s.log.outstanding < 1 := by have := h.outstanding_pos hp; omega
  have hfull : (s.log.lh.length ≥ LOGSIZE ∨ (s.log.lh.length : Int) ≥ (s.log.size : Int) - 1) ↔
      nlog - 1 ≤ s.loggedBlocks.card := by
    rw [hsize, h.length_lh hp]
    simp only [nlog, LOGSIZE, MAXOPBLOCKS]
    omega
  unfold Log.logWrite
  rw [← hfull, if_neg hout]
  split <;> simp_all

/-- Three operations that log ten blocks each, up to the last block of the third one. -/
def reservedTrace : List GroupAct :=
  [.beginOp 0, .beginOp 1, .beginOp 2] ++ (List.range 10).map (fun i => .logWrite 0 (40 + i)) ++
    (List.range 10).map (fun i => .logWrite 1 (50 + i)) ++
    (List.range 9).map (fun i => .logWrite 2 (60 + i))

/-- Three operations together, none of which logs more than `MAXOPBLOCKS` distinct blocks: `log_write` panics
on the last block of the third. -/
theorem log_write_panics_at_limit : ∃ s, (groupCommit 2 nlog).Reachable s ∧ s.pc 2 = .inOp 2 ∧
    (∀ id < s.nextOp, (s.blocks id).toFinset.card ≤ MAXOPBLOCKS) ∧
    (69 :: s.blocks 2).toFinset.card ≤ MAXOPBLOCKS ∧
    ∃ s', s.step (.logWrite 2 69) = some s' ∧ s'.panic = some "too big a transaction" := by
  have hinit : (groupCommit 2 nlog).init (boot 2 nlog) := rfl
  obtain ⟨s, hs, hp⟩ := Lib.Lts.reachable_of_execs reservedTrace
    (fun s : Group => decide (s.pc 2 = .inOp 2 ∧
      (∀ id ∈ List.range s.nextOp, (s.blocks id).toFinset.card ≤ MAXOPBLOCKS) ∧
      (69 :: s.blocks 2).toFinset.card ≤ MAXOPBLOCKS ∧
      (s.step (.logWrite 2 69)).map (fun t => t.panic) = some (some "too big a transaction")))
    hinit (by decide)
  obtain ⟨hpc, hblocks, hlast, hstep⟩ := of_decide_eq_true hp
  exact ⟨s, hs, hpc, fun id hid => hblocks id (List.mem_range.mpr hid), hlast,
    Option.map_eq_some_iff.mp hstep⟩

/-- The step is not a `log_write` when the transaction already has `log.size - 1` distinct blocks. -/
def HasRoom (s : Group) : GroupAct → Prop
  | .logWrite _ _ => s.loggedBlocks.card < nlog - 1
  | _ => True

instance (s : Group) : (a : GroupAct) → Decidable (s.HasRoom a)
  | .logWrite _ _ => inferInstanceAs (Decidable (_ < _))
  | .beginOp _ | .endOp _ | .commit _ => instDecidableTrue

theorem Inv.step_panic {a : GroupAct} (h : Inv s) (hsize : s.log.size = nlog) (ha : s.HasRoom a)
    (hs : s.step a = some s') : s'.panic = none := by
  have hi' := step_inv h hs
  obtain ⟨hnone, ⟨p, -, -, rfl⟩ | ⟨p, b, id, rfl, hp, rfl⟩ | ⟨p, id, -, hp, rfl⟩ | ⟨p, -, hc⟩⟩ :=
    step_cases hs
  · unfold Group.beginOp; split <;> exact hnone
  · -- the only panic that an operation can reach is the one that `HasRoom` excludes
    cases hr : s.log.logWrite b with
    | error msg =>
      have hmsg := hi'.panic msg (by simp only [Group.logWrite, hr])
      rw [hmsg] at hr
      exact absurd ((h.logWrite_panics hp hsize).mp hr) (Nat.not_le.mpr ha)
    | ok r => simpa only [Group.logWrite, hr] using hnone
  · rw [endOp_eq (h.not_committing hp)]
    exact hnone
  · rw [(commitStep_frame hc).2, hnone]

/-- **When `log_write` panics.** Nothing panics while every call of `log_write` finds fewer than `nlog - 1`
distinct blocks in the transaction; and it panics iff the operations have logged that many or more. -/
theorem log_write_panics_iff {start : Nat} :
    (∀ s, (groupCommit start nlog).ReachableIf HasRoom s → s.panic = none) ∧
    ∀ s, (groupCommit start nlog).Reachable s → ∀ p id b, s.pc p = .inOp id →
      (s.log.logWrite b = .error "too big a transaction" ↔ ¬ s.HasRoom (.logWrite p b)) := by
  refine ⟨fun s h => ?_, fun s h p id b hp => ?_⟩
  · have hall : Inv s ∧ s.log.size = nlog ∧ s.panic = none := by
      refine h.invariant (I := fun t => Inv t ∧ t.log.size = nlog ∧ t.panic = none)
        (fun t ht => ?_) ?_
      · subst ht; exact ⟨boot_inv start nlog, rfl, rfl⟩
      · rintro t a t' ⟨hi, hsize, -⟩ ha hs
        exact ⟨step_inv hi hs, (step_size hs).trans hsize, hi.step_panic hsize ha hs⟩
    exact hall.2.2
  · rw [(reachable_inv h).logWrite_panics hp (reachable_size h)]
    exact Nat.not_lt.symm

/-- A run whose `log_write`s all have room, until the next one panics. -/
theorem log_write_panics_iff_limit : ∃ s, (groupCommit 2 nlog).ReachableIf HasRoom s ∧
    s.panic = none ∧ s.pc 2 = .inOp 2 ∧ ¬ s.HasRoom (.logWrite 2 69) ∧
    s.log.logWrite 69 = .error "too big a transaction" := by
  have hinit : (groupCommit 2 nlog).init (boot 2 nlog) := rfl
  obtain ⟨s, hs, hp⟩ := Lib.Lts.reachableIf_of_execs reservedTrace
    (fun (s : Group) a => decide (s.HasRoom a))
    (fun s : Group => decide (s.pc 2 = .inOp 2 ∧ ¬ s.HasRoom (.logWrite 2 69))) hinit
    (by decide)
  obtain ⟨hpc, hroom⟩ := of_decide_eq_true hp
  have hs' : (groupCommit 2 nlog).ReachableIf HasRoom s := hs.mono fun _ _ => of_decide_eq_true
  exact ⟨s, hs', log_write_panics_iff.1 s hs', hpc, hroom,
    (log_write_panics_iff.2 s hs'.reachable 2 2 69 hpc).mpr hroom⟩

end Group

end Xv6Freezer

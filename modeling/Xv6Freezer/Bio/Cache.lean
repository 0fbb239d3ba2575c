import Xv6Freezer.Lib.Circular
import Xv6Freezer.Lib.Transition
import Xv6Freezer.Log.Basic

/-! # The buffer cache

`bio.c`: `NBUF` buffers in a circular list, most recently used first, and any number of processes. A section
of code under `bcache.lock` is one step.
-/

namespace Xv6Freezer

open Lib Function

def NBUF : Nat := MAXOPBLOCKS * 3

/-- `&bcache.head`, as a node of the list. -/
def bhead : Nat := NBUF

inductive BioPc where
  | idle
  /-- `bget`: `acquiresleep(&b->lock)`. -/
  | waiting (b : Nat)
  /-- `bread`: the buffer is locked, and read from the disk unless it is valid. -/
  | loading (b : Nat)
  /-- `brelse`: the sleep-lock is released, `b->refcnt--` comes next. -/
  | releasing (b : Nat)
  | panicked (msg : String)
  deriving DecidableEq

structure Bcache (P : Type) where
  links : Links Nat
  dev : Nat → Nat
  blockno : Nat → Nat
  valid : Nat → Bool
  /-- A 32-bit number. -/
  refcnt : Nat → Nat
  lock : Nat → Option P
  pc : P → BioPc
  /-- The buffers that a process has from `bread`. -/
  held : P → Finset Nat
  /-- History: the `bpin`s of the buffer that no `bunpin` has undone. -/
  pins : Nat → Nat
  /-- History: when the `refcnt` of the buffer last fell to 0. -/
  fell : Nat → Nat
  /-- History: how often a `refcnt` has fallen to 0. -/
  clock : Nat

inductive BioAct where
  /-- `bread`: the section of `bget` under `bcache.lock`. -/
  | bread (dev blockno : Nat)
  | acquiresleep
  | load
  /-- `brelse`: up to `releasesleep`. -/
  | brelse (b : Nat)
  /-- `brelse`: the section under `bcache.lock`. -/
  | decref
  | bpin (b : Nat)
  | bunpin (b : Nat)
  deriving DecidableEq

namespace Bcache

variable {P : Type}

/-! ## The code -/

def binit : Links Nat :=
  (List.range NBUF).foldl (fun L b => L.pushFront bhead b) ⟨fun _ => bhead, fun _ => bhead⟩

def boot : Bcache P :=
  { links := binit, dev := fun _ => 0, blockno := fun _ => 0, valid := fun _ => false
    refcnt := fun _ => 0, lock := fun _ => none, pc := fun _ => .idle, held := fun _ => ∅
    pins := fun _ => 0, fell := fun _ => 0, clock := 0 }

/-- The first loop of `bget`: is the block cached? -/
def lookup (s : Bcache P) (dev blockno : Nat) : Option (Option Nat) :=
  Links.scan s.links.next bhead (fun b => s.dev b = dev ∧ s.blockno b = blockno) (NBUF + 1)
    (s.links.next bhead)

/-- The second loop of `bget`: the buffer to recycle. -/
def victim (s : Bcache P) : Option (Option Nat) :=
  Links.scan s.links.prev bhead (fun b => s.refcnt b = 0) (NBUF + 1) (s.links.prev bhead)

/-- `b->refcnt = n`; the history notes when it falls to 0. -/
def setRefcnt (s : Bcache P) (b n : Nat) : Bcache P :=
  if n = 0 then
    { s with refcnt := update s.refcnt b n, fell := update s.fell b (s.clock + 1)
             clock := s.clock + 1 }
  else { s with refcnt := update s.refcnt b n }

def incr (s : Bcache P) (b : Nat) : Bcache P :=
  { s with refcnt := update s.refcnt b ((s.refcnt b + 1) % 2 ^ 32) }

def decr (s : Bcache P) (b : Nat) : Bcache P := s.setRefcnt b ((s.refcnt b + (2 ^ 32 - 1)) % 2 ^ 32)

variable [DecidableEq P]

/-- `bget`, under `bcache.lock`. A scan that does not end gives no step. -/
def bget (s : Bcache P) (p : P) (dev blockno : Nat) : Option (Bcache P) :=
  match s.lookup dev blockno with
  | none => none
  | some (some b) => some { s.incr b with pc := update s.pc p (.waiting b) }
  | some none =>
    match s.victim with
    | none => none
    | some (some b) =>
      some { s with
        dev := update s.dev b dev, blockno := update s.blockno b blockno
        valid := update s.valid b false, refcnt := update s.refcnt b 1
        pc := update s.pc p (.waiting b) }
    | some none => some { s with pc := update s.pc p (.panicked "bget: no buffers") }

/-- The section of `brelse` under `bcache.lock`. -/
def release (s : Bcache P) (p : P) (b : Nat) : Bcache P :=
  let s := { s.decr b with
    pc := update s.pc p .idle, held := update s.held p ((s.held p).erase b) }
  if s.refcnt b = 0 then { s with links := (s.links.unlink b).pushFront bhead b } else s

/-- One step of a process. A process calls `bunpin` only while it holds the buffer. -/
def step (s : Bcache P) (a : P × BioAct) : Option (Bcache P) :=
  match s.pc a.1, a.2 with
  | .idle, .bread dev blockno => s.bget a.1 dev blockno
  | .waiting b, .acquiresleep =>
    if s.lock b = none then
      some { s with lock := update s.lock b (some a.1), pc := update s.pc a.1 (.loading b)
                    held := update s.held a.1 (insert b (s.held a.1)) }
    else none
  | .loading b, .load =>
    some { s with valid := update s.valid b true, pc := update s.pc a.1 .idle }
  | .idle, .brelse b =>
    if s.lock b = some a.1 then
      some { s with lock := update s.lock b none, pc := update s.pc a.1 (.releasing b) }
    else some { s with pc := update s.pc a.1 (.panicked "brelse") }
  | .releasing b, .decref => some (s.release a.1 b)
  | .idle, .bpin b =>
    if b < NBUF then some { s.incr b with pins := update s.pins b (s.pins b + 1) } else none
  | .idle, .bunpin b =>
    if s.lock b = some a.1 then some { s.decr b with pins := update s.pins b (s.pins b - 1) } else none
  | _, _ => none

end Bcache

def bcache (P : Type) [DecidableEq P] : Lts (Bcache P) (P × BioAct) where
  init s := s = Bcache.boot
  step s a := s.step a

namespace Bcache

variable {P : Type}

/-! ## The list -/

/-- The list is a ring through the buffers in the order `l`. -/
def Listed (L : Links Nat) (l : List Nat) : Prop := L.Ring bhead l ∧ l.Perm (List.range NBUF)

namespace Listed

variable {L : Links Nat} {l : List Nat} {test : Nat → Bool} {b : Nat}

theorem mem_iff (h : Listed L l) : b ∈ l ↔ b < NBUF := by rw [h.2.mem_iff, List.mem_range]

theorem length_lt (h : Listed L l) : l.length < NBUF + 1 := by
  rw [h.2.length_eq, List.length_range]
  exact Nat.lt_succ_self _

theorem toFront (h : Listed L l) (hb : b < NBUF) :
    ∃ l1 l2, l = l1 ++ b :: l2 ∧ Listed ((L.unlink b).pushFront bhead b) (b :: (l1 ++ l2)) := by
  obtain ⟨l1, l2, rfl⟩ := List.append_of_mem (h.mem_iff.mpr hb)
  refine ⟨l1, l2, rfl, h.1.unlink.pushFront ?_, List.perm_middle.symm.trans h.2⟩
  have hnd := (List.nodup_cons.mp h.1.2).2
  have hb' : b ∉ l1 ++ l2 := (List.nodup_cons.mp (List.perm_middle.nodup_iff.mp hnd)).1
  intro hm
  rcases List.mem_cons.mp hm with e | hm
  · exact absurd hb (by rw [e]; exact lt_irrefl _)
  · exact hb' hm

end Listed

theorem ring_foldl (n : Nat) (hn : n ≤ NBUF) :
    ((List.range n).foldl (fun (L : Links Nat) b => L.pushFront bhead b)
      ⟨fun _ => bhead, fun _ => bhead⟩).Ring bhead (List.range n).reverse := by
  induction n with
  | zero => exact ⟨⟨rfl, rfl⟩, by simp⟩
  | succ n ih =>
    rw [List.range_succ, List.foldl_append, List.reverse_append]
    refine (ih (Nat.le_of_succ_le hn)).pushFront ?_
    have hne : n ≠ bhead := Nat.ne_of_lt hn
    simpa using hne

theorem listed_binit : Listed binit (List.range NBUF).reverse :=
  ⟨ring_foldl NBUF le_rfl, List.reverse_perm _⟩

/-! ## References -/

/-- The references of process `p` to the buffer: it holds it, it waits for it. -/
def uses (s : Bcache P) (b : Nat) (p : P) : Nat :=
  (if b ∈ s.held p then 1 else 0) + if s.pc p = .waiting b then 1 else 0

variable [Fintype P] [DecidableEq P]

/-- How many processes hold the buffer, those in `brelse` before the decrement included. -/
def holders (s : Bcache P) (b : Nat) : Nat := (Finset.univ.filter fun p => b ∈ s.held p).card

def waiters (s : Bcache P) (b : Nat) : Nat :=
  (Finset.univ.filter fun p => s.pc p = .waiting b).card

omit [DecidableEq P] in
theorem holders_add_waiters (s : Bcache P) (b : Nat) :
    s.holders b + s.waiters b = ∑ p, s.uses b p := by
  simp only [holders, waiters, uses, Finset.card_filter, Finset.sum_add_distrib]

theorem sum_uses_of_ne {s : Bcache P} (s' : Bcache P) {p : P} {b : Nat}
    (h : ∀ q, q ≠ p → s'.uses b q = s.uses b q) :
    ∑ q, s'.uses b q + s.uses b p = ∑ q, s.uses b q + s'.uses b p := by
  have hrest : ∑ q ∈ Finset.univ.erase p, s'.uses b q = ∑ q ∈ Finset.univ.erase p, s.uses b q :=
    Finset.sum_congr rfl fun q hq => h q (Finset.ne_of_mem_erase hq)
  rw [← Finset.add_sum_erase Finset.univ (s.uses b) (Finset.mem_univ p),
    ← Finset.add_sum_erase Finset.univ (s'.uses b) (Finset.mem_univ p), hrest]
  omega

/-! ## The invariant -/

/-- Unused buffers stand in the order in which they were given back, the last first. -/
def Recent (refcnt fell : Nat → Nat) (l : List Nat) : Prop :=
  l.Pairwise fun b b' => refcnt b = 0 → refcnt b' = 0 → fell b' ≤ fell b

theorem Recent.mono {refcnt refcnt' fell : Nat → Nat} {l : List Nat} (h : Recent refcnt fell l)
    (hmono : ∀ b ∈ l, refcnt' b = 0 → refcnt b = 0) : Recent refcnt' fell l :=
  h.imp_of_mem fun {b b'} hb hb' hr h0 h0' => hr (hmono b hb h0) (hmono b' hb' h0')

structure Inv (s : Bcache P) : Prop where
  list : ∃ l, Listed s.links l ∧ Recent s.refcnt s.fell l
  uniq : ∀ b b', b < NBUF → b' < NBUF → s.dev b ≠ 0 → s.dev b = s.dev b' →
    s.blockno b = s.blockno b' → b = b'
  refcnt : ∀ b, b < NBUF → s.refcnt b = ∑ p, s.uses b p + s.pins b
  refcnt_lt : ∀ b, s.refcnt b < 2 ^ 32
  held_lt : ∀ p, ∀ b ∈ s.held p, b < NBUF
  waiting_lt : ∀ p b, s.pc p = .waiting b → b < NBUF
  owner : ∀ p b, s.lock b = some p → b ∈ s.held p
  locked : ∀ p, ∀ b ∈ s.held p, s.lock b = some p ∨ s.pc p = .releasing b
  releasing : ∀ p b, s.pc p = .releasing b → b ∈ s.held p ∧ s.lock b ≠ some p
  fell_le : ∀ b, s.fell b ≤ s.clock

variable {s s' : Bcache P} {p : P} {b : Nat}

omit [DecidableEq P] in
theorem boot_inv : (boot : Bcache P).Inv where
  list := ⟨_, listed_binit, List.pairwise_of_forall fun _ _ _ _ => le_rfl⟩
  uniq _ _ _ _ h := absurd rfl h
  refcnt b _ := by simp [boot, uses]
  refcnt_lt b := by simp [boot]
  held_lt p b h := by simp [boot] at h
  waiting_lt p b h := by cases h
  owner p b h := by cases h
  locked p b h := by simp [boot] at h
  releasing p b h := by cases h
  fell_le b := le_rfl

namespace Inv

omit [DecidableEq P] in
theorem lookup_cases (h : s.Inv) (dev blockno : Nat) :
    (∃ b, s.lookup dev blockno = some (some b) ∧ b < NBUF ∧ s.dev b = dev ∧ s.blockno b = blockno) ∨
    s.lookup dev blockno = some none ∧ ∀ b, b < NBUF → s.dev b = dev → s.blockno b ≠ blockno := by
  obtain ⟨l, hl, -⟩ := h.list
  have hscan := hl.1.scan_next (fun b => s.dev b = dev ∧ s.blockno b = blockno) hl.length_lt
  cases hf : l.find? (fun b => s.dev b = dev ∧ s.blockno b = blockno) with
  | some b =>
    rw [hf] at hscan
    have hp := List.find?_some hf
    refine .inl ⟨b, hscan, hl.mem_iff.mp (List.mem_of_find?_eq_some hf), ?_⟩
    simpa using hp
  | none =>
    rw [hf] at hscan
    refine .inr ⟨hscan, fun b hb hd hn => ?_⟩
    have := List.find?_eq_none.mp hf b (hl.mem_iff.mpr hb)
    simp [hd, hn] at this

omit [DecidableEq P] in
theorem victim_cases (h : s.Inv) :
    (∃ b, s.victim = some (some b) ∧ b < NBUF ∧ s.refcnt b = 0 ∧
      ∀ b', b' < NBUF → s.refcnt b' = 0 → s.fell b ≤ s.fell b') ∨
    s.victim = some none ∧ ∀ b, b < NBUF → s.refcnt b ≠ 0 := by
  obtain ⟨l, hl, hrec⟩ := h.list
  have hscan := hl.1.scan_prev (fun b => s.refcnt b = 0) hl.length_lt
  cases hf : l.reverse.find? (fun b => s.refcnt b = 0) with
  | some b =>
    rw [hf] at hscan
    obtain ⟨h0, as, bs, hrev, hbefore⟩ := List.find?_eq_some_iff_append.mp hf
    have hmem : b ∈ l := List.mem_reverse.mp (List.mem_of_find?_eq_some hf)
    refine .inl ⟨b, hscan, hl.mem_iff.mp hmem, by simpa using h0, fun b' hb' h0' => ?_⟩
    -- an unused buffer comes after the one found, in the order of the scan
    have hb' : b' ∈ as ++ b :: bs := by rw [← hrev]; simpa using hl.mem_iff.mpr hb'
    rcases List.mem_append.mp hb' with hm | hm
    · have := hbefore b' hm
      simp [h0'] at this
    · rcases List.mem_cons.mp hm with rfl | hm
      · exact le_rfl
      · have hpw := List.pairwise_reverse.mpr hrec
        rw [hrev] at hpw
        exact (List.pairwise_cons.mp (List.pairwise_append.mp hpw).2.1).1 b' hm h0' (by simpa using h0)
  | none =>
    rw [hf] at hscan
    refine .inr ⟨hscan, fun b hb h0 => ?_⟩
    have := List.find?_eq_none.mp hf b (by simpa using hl.mem_iff.mpr hb)
    simp [h0] at this

structure Sound (s : Bcache P) (p : P) : Prop where
  held_lt : ∀ b ∈ s.held p, b < NBUF
  waiting_lt : ∀ b, s.pc p = .waiting b → b < NBUF
  owner : ∀ b, s.lock b = some p → b ∈ s.held p
  locked : ∀ b ∈ s.held p, s.lock b = some p ∨ s.pc p = .releasing b
  releasing : ∀ b, s.pc p = .releasing b → b ∈ s.held p ∧ s.lock b ≠ some p

/-- **A step of process `p`** leaves the other processes alone, and `refcnt` follows `p` and the pins. -/
theorem moves (h : s.Inv) (hpc : ∀ q, q ≠ p → s'.pc q = s.pc q) (hheld : ∀ q, q ≠ p → s'.held q = s.held q)
    (hlock : ∀ q, q ≠ p → ∀ b, s'.lock b = some q ↔ s.lock b = some q)
    (hlist : ∃ l, Listed s'.links l ∧ Recent s'.refcnt s'.fell l)
    (huniq : ∀ b b', b < NBUF → b' < NBUF → s'.dev b ≠ 0 → s'.dev b = s'.dev b' →
      s'.blockno b = s'.blockno b' → b = b')
    (hrefcnt : ∀ b, s'.refcnt b + s.uses b p + s.pins b = s.refcnt b + s'.uses b p + s'.pins b)
    (hlt : ∀ b, s'.refcnt b < 2 ^ 32) (hfell : ∀ b, s'.fell b ≤ s'.clock) (hp : Sound s' p) : s'.Inv := by
  have hq : ∀ q, Sound s' q := fun q => by
    by_cases hqp : q = p
    · subst hqp
      exact hp
    · constructor <;> simp only [ne_eq, hpc q hqp, hheld q hqp, hlock q hqp]
      exacts [h.held_lt q, h.waiting_lt q, h.owner q, h.locked q, h.releasing q]
  refine ⟨hlist, huniq, fun b hb => ?_, hlt, fun q => (hq q).held_lt, fun q => (hq q).waiting_lt,
    fun q => (hq q).owner, fun q => (hq q).locked, fun q => (hq q).releasing, hfell⟩
  have hsum := sum_uses_of_ne (s := s) s' (p := p) (b := b) fun q hqp => by
    rw [uses, uses, hpc q hqp, hheld q hqp]
  have h0 := h.refcnt b hb
  have h1 := hrefcnt b
  omega

theorem jump {pc : BioPc} {valid : Nat → Bool} (h : s.Inv) (hw : ∀ b, s.pc p ≠ .waiting b)
    (hr : ∀ b, s.pc p ≠ .releasing b) (hw' : ∀ b, pc ≠ .waiting b) (hr' : ∀ b, pc ≠ .releasing b) :
    Inv { s with valid := valid, pc := update s.pc p pc } := by
  refine h.moves (p := p) (fun q hq => update_of_ne hq ..) (fun _ _ => rfl) (fun _ _ _ => Iff.rfl) h.list h.uniq
    (fun b => ?_) h.refcnt_lt h.fell_le ⟨h.held_lt p, fun b hb => ?_, h.owner p, fun b hb => ?_, fun b hb => ?_⟩
  · simp [uses, hw b, hw' b]
  · exact absurd (by simpa using hb) (hw' b)
  · exact .inl ((h.locked p b hb).resolve_right (hr b))
  · exact absurd (by simpa using hb) (hr' b)

omit [DecidableEq P] in
theorem refcnt_lt_update {n : Nat} (h : s.Inv) (hn : n < 2 ^ 32) :
    ∀ b', update s.refcnt b n b' < 2 ^ 32 :=
  (forall_update_iff s.refcnt fun _ n => n < 2 ^ 32).mpr ⟨hn, fun b' _ => h.refcnt_lt b'⟩

omit [DecidableEq P] in
theorem list_incr (h : s.Inv) (b : Nat) :
    ∃ l, Listed s.links l ∧ Recent (update s.refcnt b (s.refcnt b + 1)) s.fell l := by
  obtain ⟨l, hl, hrec⟩ := h.list
  refine ⟨l, hl, hrec.mono fun b' _ h0 => ?_⟩
  by_cases hb' : b' = b
  · subst hb'
    simp at h0
  · simpa [update_of_ne hb'] using h0

theorem enter (h : s.Inv) (dev blockno : Nat → Nat) (valid : Nat → Bool) (hp : s.pc p = .idle) (hb : b < NBUF)
    (hlt : s.refcnt b + 1 < 2 ^ 32) (huniq : ∀ b b', b < NBUF → b' < NBUF → dev b ≠ 0 → dev b = dev b' →
      blockno b = blockno b' → b = b') :
    Inv { s with
      dev := dev, blockno := blockno, valid := valid
      refcnt := update s.refcnt b (s.refcnt b + 1), pc := update s.pc p (.waiting b) } := by
  refine h.moves (p := p) (fun q hq => update_of_ne hq ..) (fun _ _ => rfl) (fun _ _ _ => Iff.rfl) (h.list_incr b)
    huniq (fun b' => ?_) (h.refcnt_lt_update hlt) h.fell_le
    ⟨h.held_lt p, fun b' hb' => ?_, h.owner p, fun b' hb' => ?_, fun b' hb' => ?_⟩
  · by_cases hbb : b' = b
    · subst hbb
      simp only [uses, update_self, hp, reduceCtorEq, if_true, if_false]
      omega
    · simp [uses, update_of_ne hbb, hp, Ne.symm hbb]
  · obtain rfl : b = b' := by simpa using hb'
    exact hb
  · exact .inl ((h.locked p b' hb').resolve_right (by simp [hp]))
  · simp at hb'

theorem hit (h : s.Inv) (hp : s.pc p = .idle) (hb : b < NBUF) (hlt : s.refcnt b + 1 < 2 ^ 32) :
    Inv { s with refcnt := update s.refcnt b (s.refcnt b + 1)
                 pc := update s.pc p (.waiting b) } :=
  h.enter s.dev s.blockno s.valid hp hb hlt h.uniq

theorem miss {dev blockno : Nat} (h : s.Inv) (hp : s.pc p = .idle) (hb : b < NBUF)
    (h0 : s.refcnt b = 0) (hno : ∀ b, b < NBUF → s.dev b = dev → s.blockno b ≠ blockno) :
    Inv { s with
      dev := update s.dev b dev, blockno := update s.blockno b blockno
      valid := update s.valid b false, refcnt := update s.refcnt b 1
      pc := update s.pc p (.waiting b) } := by
  have hinv := h.enter (update s.dev b dev) (update s.blockno b blockno) (update s.valid b false) hp hb
    (by rw [h0]; decide) fun b1 b2 h₁ h₂ hd hdev hblk => ?_
  · rwa [h0, Nat.zero_add] at hinv
  -- the recycled buffer is the only one of its block
  by_cases h1 : b1 = b <;> by_cases h2 : b2 = b
  · rw [h1, h2]
  · subst h1
    simp only [update_self, update_of_ne h2] at hdev hblk
    exact absurd hblk.symm (hno b2 h₂ hdev.symm)
  · subst h2
    simp only [update_self, update_of_ne h1] at hdev hblk
    exact absurd hblk (hno b1 h₁ hdev)
  · simp only [update_of_ne h1, update_of_ne h2] at hd hdev hblk
    exact h.uniq b1 b2 h₁ h₂ hd hdev hblk

omit [DecidableEq P] in
theorem pin (h : s.Inv) (hlt : s.refcnt b + 1 < 2 ^ 32) :
    Inv { s with refcnt := update s.refcnt b (s.refcnt b + 1)
                 pins := update s.pins b (s.pins b + 1) } := by
  refine { h with list := h.list_incr b, refcnt := fun b' hb' => ?_
                  refcnt_lt := h.refcnt_lt_update hlt }
  have h0 := h.refcnt b' hb'
  by_cases hbb : b' = b
  · subst hbb
    simp only [uses, update_self] at h0 ⊢
    omega
  · simpa only [uses, update_of_ne hbb] using h0

omit [DecidableEq P] in
theorem unpin (h : s.Inv) (hpin : 0 < s.pins b) (hu : s.refcnt b ≠ 1) :
    Inv { s with refcnt := update s.refcnt b (s.refcnt b - 1)
                 pins := update s.pins b (s.pins b - 1) } := by
  refine { h with list := ?_, refcnt := fun b' hb' => ?_
                  refcnt_lt := h.refcnt_lt_update ((Nat.sub_le _ _).trans_lt (h.refcnt_lt b)) }
  · obtain ⟨l, hl, hrec⟩ := h.list
    refine ⟨l, hl, hrec.mono fun b' hb' h0 => ?_⟩
    by_cases hbb : b' = b
    · subst hbb
      have := h.refcnt b' (hl.mem_iff.mp hb')
      simp only [update_self] at h0
      omega
    · simpa only [update_of_ne hbb] using h0
  · have h0 := h.refcnt b' hb'
    by_cases hbb : b' = b
    · subst hbb
      simp only [uses, update_self] at h0 ⊢
      omega
    · simpa only [uses, update_of_ne hbb] using h0

omit [Fintype P] [DecidableEq P] in
theorem lock_other {l : Option P} {q : P} (hs : s.lock b ≠ some q) (hl : l ≠ some q) (b' : Nat) :
    update s.lock b l b' = some q ↔ s.lock b' = some q := by
  by_cases hbb : b' = b
  · subst hbb
    simp [hs, hl]
  · rw [update_of_ne hbb]

theorem acquire (h : s.Inv) (hp : s.pc p = .waiting b) (hfree : s.lock b = none) :
    Inv { s with lock := update s.lock b (some p), pc := update s.pc p (.loading b)
                 held := update s.held p (insert b (s.held p)) } := by
  have hnot : b ∉ s.held p := fun hm => by
    rcases h.locked p b hm with e | e
    · simp [hfree] at e
    · simp [hp] at e
  refine h.moves (p := p) (fun q hq => update_of_ne hq ..) (fun q hq => update_of_ne hq ..)
    (fun q hq => lock_other (by simp [hfree]) (by simpa using Ne.symm hq)) h.list h.uniq (fun b' => ?_)
    h.refcnt_lt h.fell_le ⟨fun b' hb' => ?_, fun b' hb' => ?_, fun b' hb' => ?_, fun b' hb' => ?_, fun b' hb' => ?_⟩
  · by_cases hbb : b' = b
    · subst hbb
      simp [uses, hp, hnot]
    · simp [uses, hp, hbb, Ne.symm hbb]
  · rcases Finset.mem_insert.mp (by simpa using hb') with rfl | hm
    · exact h.waiting_lt p _ hp
    · exact h.held_lt p b' hm
  · simp at hb'
  · by_cases hbb : b' = b
    · simp [hbb]
    · simp [h.owner p b' (by simpa [update_of_ne hbb] using hb')]
  · by_cases hbb : b' = b
    · simp [hbb]
    · have hm : b' ∈ s.held p := by simpa [hbb] using hb'
      rcases h.locked p b' hm with e | e
      · simpa [update_of_ne hbb] using e
      · simp [hp] at e
  · simp at hb'

theorem unlock (h : s.Inv) (hp : s.pc p = .idle) (hlock : s.lock b = some p) :
    Inv { s with lock := update s.lock b none, pc := update s.pc p (.releasing b) } := by
  refine h.moves (p := p) (fun q hq => update_of_ne hq ..) (fun _ _ => rfl)
    (fun q hq => lock_other (by rw [hlock]; simpa using Ne.symm hq) nofun) h.list h.uniq
    (fun b' => by simp [uses, hp]) h.refcnt_lt h.fell_le
    ⟨h.held_lt p, fun b' hb' => ?_, fun b' hb' => ?_, fun b' hb' => ?_, fun b' hb' => ?_⟩
  · simp at hb'
  · by_cases hbb : b' = b
    · simp [hbb] at hb'
    · exact h.owner p b' (by simpa [update_of_ne hbb] using hb')
  · by_cases hbb : b' = b
    · simp [hbb]
    · refine .inl ?_
      simpa [update_of_ne hbb] using (h.locked p b' hb').resolve_right (by simp [hp])
  · obtain rfl : b = b' := by simpa using hb'
    exact ⟨h.owner p b hlock, by simp⟩

theorem decref (h : s.Inv) (links : Links Nat) (fell : Nat → Nat) (clock : Nat)
    (hp : s.pc p = .releasing b)
    (hlist : ∃ l, Listed links l ∧ Recent (update s.refcnt b (s.refcnt b - 1)) fell l)
    (hfell : ∀ b, fell b ≤ clock) (hpos : s.refcnt b ≠ 0) :
    Inv { s with links := links, fell := fell, clock := clock
                 refcnt := update s.refcnt b (s.refcnt b - 1), pc := update s.pc p .idle
                 held := update s.held p ((s.held p).erase b) } := by
  obtain ⟨hmem, hnot⟩ := h.releasing p b hp
  refine h.moves (p := p) (fun q hq => update_of_ne hq ..) (fun q hq => update_of_ne hq ..)
    (fun _ _ _ => Iff.rfl) hlist h.uniq (fun b' => ?_)
    (h.refcnt_lt_update ((Nat.sub_le _ _).trans_lt (h.refcnt_lt b))) hfell
    ⟨fun b' hb' => ?_, fun b' hb' => ?_, fun b' hb' => ?_, fun b' hb' => ?_, fun b' hb' => ?_⟩
  · by_cases hbb : b' = b
    · subst hbb
      simp only [uses, update_self, hp, reduceCtorEq, if_true, if_false, hmem, Finset.notMem_erase]
      omega
    · simp [uses, hp, hbb]
  · exact h.held_lt p b' (Finset.mem_of_mem_erase (by simpa using hb'))
  · simp at hb'
  · have hbb : b' ≠ b := by
      rintro rfl
      exact hnot hb'
    simp [hbb, h.owner p b' hb']
  · obtain ⟨hbb, hm⟩ : b' ≠ b ∧ b' ∈ s.held p := by simpa using hb'
    refine .inl ((h.locked p b' hm).resolve_right ?_)
    simpa [hp] using Ne.symm hbb
  · simp at hb'

omit [DecidableEq P] in
theorem decr_eq (h : s.Inv) (hpos : s.refcnt b ≠ 0) : s.decr b = s.setRefcnt b (s.refcnt b - 1) := by
  have hlt := h.refcnt_lt b
  have e : (s.refcnt b + (2 ^ 32 - 1)) % 2 ^ 32 = s.refcnt b - 1 := by omega
  rw [decr, e]

omit [DecidableEq P] in
theorem refcnt_pos (h : s.Inv) (hmem : b ∈ s.held p) : s.pins b + 1 ≤ s.refcnt b := by
  have hle : s.uses b p ≤ ∑ q, s.uses b q :=
    Finset.single_le_sum (fun q _ => Nat.zero_le _) (Finset.mem_univ p)
  have hone : 1 ≤ s.uses b p := by simp [uses, hmem]
  have := h.refcnt b (h.held_lt p b hmem)
  omega

theorem release (h : s.Inv) (hp : s.pc p = .releasing b) : (s.release p b).Inv := by
  obtain ⟨hmem, -⟩ := h.releasing p b hp
  have hb := h.held_lt p b hmem
  have hpos : s.refcnt b ≠ 0 := by
    have := h.refcnt_pos hmem
    omega
  obtain ⟨l, hl, hrec⟩ := h.list
  by_cases hone : s.refcnt b = 1
  · obtain ⟨l1, l2, rfl, hl'⟩ := hl.toFront hb
    have hb' : b ∉ l1 ++ l2 :=
      (List.nodup_cons.mp (List.perm_middle.nodup_iff.mp (List.nodup_cons.mp hl.1.2).2)).1
    have hinv := h.decref ((s.links.unlink b).pushFront bhead b) (update s.fell b (s.clock + 1))
      (s.clock + 1) hp ⟨_, hl', ?_⟩ (fun b' => ?_) hpos
    · rw [hone, Nat.sub_self] at hinv
      rw [Bcache.release, h.decr_eq hpos, hone, Nat.sub_self]
      simpa only [setRefcnt, if_true, update_self] using hinv
    · refine List.pairwise_cons.mpr ⟨fun b' hb2 _ _ => ?_, ?_⟩
      · have hbb : b' ≠ b := by rintro rfl; exact hb' hb2
        simpa [update_of_ne hbb] using (h.fell_le b').trans (Nat.le_succ _)
      · refine (hrec.sublist (List.Sublist.append_left (List.sublist_cons_self b l2) l1)).imp_of_mem ?_
        intro b1 b2 h1 h2 hr
        have hb1 : b1 ≠ b := by rintro rfl; exact hb' h1
        have hb2 : b2 ≠ b := by rintro rfl; exact hb' h2
        simpa [update_of_ne hb1, update_of_ne hb2] using hr
    · by_cases hbb : b' = b
      · subst hbb; simp
      · simpa [update_of_ne hbb] using (h.fell_le b').trans (Nat.le_succ _)
  · have hne : s.refcnt b - 1 ≠ 0 := by omega
    have hinv := h.decref s.links s.fell s.clock hp
      ⟨l, hl, hrec.mono fun b' _ h0 => ?_⟩ h.fell_le hpos
    · rw [Bcache.release, h.decr_eq hpos]
      simpa only [setRefcnt, if_neg hne, update_self] using hinv
    · by_cases hbb : b' = b
      · subst hbb
        exact absurd (by simpa using h0) hne
      · simpa [update_of_ne hbb] using h0

end Inv

/-- The step overflows no `refcnt`, and a `bunpin` undoes a `bpin`. -/
def proper (s : Bcache P) (a : P × BioAct) : Bool :=
  match a.2 with
  | .bread dev blockno =>
    match s.lookup dev blockno with
    | some (some b) => s.refcnt b + 1 < 2 ^ 32
    | _ => true
  | .bpin b => s.refcnt b + 1 < 2 ^ 32
  | .bunpin b => 0 < s.pins b
  | _ => true

theorem bget_inv {dev blockno : Nat} (h : s.Inv) (hp : s.pc p = .idle)
    (hok : s.proper (p, .bread dev blockno) = true) (hs : s.bget p dev blockno = some s') :
    s'.Inv := by
  rcases h.lookup_cases dev blockno with ⟨b, hl, hb, -⟩ | ⟨hl, hno⟩
  · simp only [proper, hl, decide_eq_true_eq] at hok
    simp only [bget, hl, incr, Nat.mod_eq_of_lt hok] at hs
    obtain rfl := Option.some.inj hs
    exact h.hit hp hb hok
  · rcases h.victim_cases with ⟨b, hv, hb, h0, -⟩ | ⟨hv, -⟩
    · simp only [bget, hl, hv] at hs
      obtain rfl := Option.some.inj hs
      exact h.miss hp hb h0 hno
    · simp only [bget, hl, hv] at hs
      obtain rfl := Option.some.inj hs
      exact h.jump (by simp [hp]) (by simp [hp]) (by simp) (by simp)

theorem step_inv {a : P × BioAct} (h : s.Inv) (hok : s.proper a = true) (hs : s.step a = some s') :
    s'.Inv := by
  obtain ⟨p, act⟩ := a
  unfold step at hs
  split at hs
  case h_1 dev blockno hp ha =>
    simp only at hp ha
    subst ha
    exact bget_inv h hp hok hs
  case h_2 b hp ha =>
    split at hs
    · rename_i hfree
      obtain rfl := Option.some.inj hs
      exact h.acquire hp hfree
    · cases hs
  case h_3 b hp ha =>
    obtain rfl := Option.some.inj hs
    exact h.jump (by simp [hp]) (by simp [hp]) (by simp) (by simp)
  case h_4 b hp ha =>
    split at hs
    · rename_i hlock
      obtain rfl := Option.some.inj hs
      exact h.unlock hp hlock
    · obtain rfl := Option.some.inj hs
      exact h.jump (by simp [hp]) (by simp [hp]) (by simp) (by simp)
  case h_5 b hp ha =>
    obtain rfl := Option.some.inj hs
    exact h.release hp
  case h_6 b hp ha =>
    simp only at ha
    subst ha
    split at hs
    · obtain rfl := Option.some.inj hs
      have hlt : s.refcnt b + 1 < 2 ^ 32 := of_decide_eq_true hok
      simpa only [incr, Nat.mod_eq_of_lt hlt] using h.pin hlt
    · cases hs
  case h_7 b hp ha =>
    simp only at ha
    subst ha
    split at hs
    · rename_i hlock
      obtain rfl := Option.some.inj hs
      have hpin : 0 < s.pins b := of_decide_eq_true hok
      -- the holder and the pin are two references
      have h2 := h.refcnt_pos (h.owner p b hlock)
      have hpos : s.refcnt b ≠ 0 := by omega
      have hne : s.refcnt b - 1 ≠ 0 := by omega
      rw [h.decr_eq hpos]
      simpa only [setRefcnt, if_neg hne] using h.unpin hpin (by omega)
    · cases hs
  case h_8 => cases hs

theorem reachableIf_inv (h : (bcache P).ReachableIf (fun s a => s.proper a = true) s) : s.Inv :=
  h.invariant (fun _ h0 => h0 ▸ boot_inv) fun _ _ _ hi hok hs => step_inv hi hok hs

omit [Fintype P] in
theorem run_bpin (n : Nat) (hp : s.pc p = .idle) (hb : b < NBUF) (hlt : s.refcnt b < 2 ^ 32) :
    (bcache P).Run s { s with refcnt := update s.refcnt b ((s.refcnt b + n) % 2 ^ 32)
                              pins := update s.pins b (s.pins b + n) } := by
  induction n with
  | zero =>
    rw [Nat.add_zero, Nat.add_zero, Nat.mod_eq_of_lt hlt, update_eq_self,
      update_eq_self]
    exact .refl s
  | succ n ih =>
    refine ih.tail (a := (p, .bpin b)) trivial ?_
    show Bcache.step _ _ = _
    simp only [step, hp, if_pos hb, incr, update_self, update_idem, Nat.mod_add_mod,
      Nat.add_assoc]

def readTrace : List (Unit × BioAct) := [((), .bread 1 5), ((), .acquiresleep), ((), .load)]

set_option maxRecDepth 100000 in
/-- After `2 ^ 32` calls of `bpin` the `refcnt` counts the holder only. -/
theorem bpin_overflows : ∃ s : Bcache Unit, (bcache Unit).Reachable s ∧ s.holders 0 = 1 ∧
    s.pins 0 = 2 ^ 32 ∧ s.refcnt 0 = 1 ∧ s.refcnt 0 ≠ s.holders 0 + s.waiters 0 + s.pins 0 := by
  obtain ⟨s, hs, hp⟩ := Lib.Lts.reachable_of_execs readTrace
    (fun s : Bcache Unit => decide (s.pc () = .idle ∧ s.refcnt 0 = 1 ∧ s.pins 0 = 0 ∧
      s.holders 0 = 1)) (show (bcache Unit).init boot from rfl) (by decide)
  obtain ⟨hpc, href, hpins, hheld⟩ := of_decide_eq_true hp
  have hrun := run_bpin (s := s) (p := ()) (b := 0) (2 ^ 32) hpc (by decide) (by rw [href]; decide)
  rw [href, hpins, Nat.add_mod_right, Nat.zero_add, Nat.mod_eq_of_lt (by decide)] at hrun
  refine ⟨_, hs.trans hrun, hheld, by simp only [update_self],
    by simp only [update_self], ?_⟩
  refine ne_of_lt (lt_of_lt_of_le ?_ (Nat.le_add_left _ _))
  simp only [update_self]
  decide

/-- **The buffer cache.** After any calls that overflow no `refcnt` and undo only pins that exist, the links
form one ring through all buffers, no block has two buffers, every `refcnt` counts holders, waiters and pins,
and a miss takes the buffer that has been unused longest, or panics if there is none. -/
theorem bcache_exact (h : (bcache P).ReachableIf (fun s a => s.proper a = true) s) :
    (∃ l, s.links.Ring bhead l ∧ l.Perm (List.range NBUF)) ∧
    (∀ b b', b < NBUF → b' < NBUF → s.dev b ≠ 0 → s.dev b = s.dev b' →
      s.blockno b = s.blockno b' → b = b') ∧
    (∀ b, b < NBUF → s.refcnt b = s.holders b + s.waiters b + s.pins b) ∧
    ∀ p dev blockno, s.pc p = .idle → ∃ s', s.step (p, .bread dev blockno) = some s' ∧
      ((∀ b, b < NBUF → s.dev b = dev → s.blockno b ≠ blockno) →
        (∃ b, s'.pc p = .waiting b ∧ s'.dev b = dev ∧ s'.blockno b = blockno ∧ b < NBUF ∧
          s.refcnt b = 0 ∧ ∀ b', b' < NBUF → s.refcnt b' = 0 → s.fell b ≤ s.fell b') ∨
        s'.pc p = .panicked "bget: no buffers" ∧ ∀ b, b < NBUF → s.refcnt b ≠ 0) := by
  have hi := reachableIf_inv h
  refine ⟨?_, hi.uniq, fun b hb => ?_, fun p dev blockno hp => ?_⟩
  · obtain ⟨l, hl, -⟩ := hi.list
    exact ⟨l, hl⟩
  · rw [holders_add_waiters]
    exact hi.refcnt b hb
  · simp only [step, hp]
    rcases hi.lookup_cases dev blockno with ⟨b, hl, hb, hd, hn⟩ | ⟨hl, -⟩
    · exact ⟨_, by rw [bget, hl], fun hmiss => absurd hn (hmiss b hb hd)⟩
    · rcases hi.victim_cases with ⟨b, hv, hb, h0, hold⟩ | ⟨hv, hall⟩
      · refine ⟨_, by rw [bget, hl]; simp only [hv]; rfl, fun _ => .inl ⟨b, ?_⟩⟩
        simp only [update_self, true_and]
        exact ⟨hb, h0, hold⟩
      · refine ⟨_, by rw [bget, hl]; simp only [hv]; rfl, fun _ => .inr ⟨?_, hall⟩⟩
        simp only [update_self]

/-- Process 0 holds buffer 0 and has pinned it, process 1 waits for it, process 2 has released buffer 1. -/
def shareTrace : List (Fin 3 × BioAct) :=
  [(0, .bread 1 5), (0, .acquiresleep), (0, .load), (0, .bpin 0), (1, .bread 1 5), (2, .bread 1 6),
    (2, .acquiresleep), (2, .load), (2, .brelse 1), (2, .decref)]

set_option maxRecDepth 100000 in
/-- A miss then takes a buffer that has been unused longer than buffer 1. -/
theorem bcache_exact_shared : ∃ s s' : Bcache (Fin 3), ∃ b,
    (bcache (Fin 3)).ReachableIf (fun s a => s.proper a = true) s ∧ s.holders 0 = 1 ∧ s.waiters 0 = 1 ∧
    s.pins 0 = 1 ∧ s.refcnt 0 = 3 ∧ s.refcnt 1 = 0 ∧ s.step (2, .bread 1 7) = some s' ∧
    s'.pc 2 = .waiting b ∧ s.refcnt b = 0 ∧ s.fell b ≤ s.fell 1 := by
  obtain ⟨s, hs, hp⟩ := Lib.Lts.reachableIf_of_execs shareTrace proper
    (fun s : Bcache (Fin 3) => decide (s.holders 0 = 1 ∧ s.waiters 0 = 1 ∧ s.pins 0 = 1 ∧ s.refcnt 1 = 0 ∧
      s.pc 2 = .idle ∧ ∀ b < NBUF, s.dev b = 1 → s.blockno b ≠ 7))
    (show (bcache (Fin 3)).init boot from rfl) (by decide)
  obtain ⟨hh, hw, hpin, h1, hpc, hmiss⟩ := of_decide_eq_true hp
  obtain ⟨-, -, href, hread⟩ := bcache_exact hs
  obtain ⟨s', hstep, hnew⟩ := hread 2 1 7 hpc
  rcases hnew hmiss with ⟨b, hpc', -, -, -, hb, hold⟩ | ⟨-, hall⟩
  · exact ⟨s, s', b, hs, hh, hw, hpin, by rw [href 0 (by decide), hh, hw, hpin], h1, hstep, hpc', hb,
      hold 1 (by decide) h1⟩
  · exact absurd h1 (hall 1 (by decide))

end Bcache

end Xv6Freezer

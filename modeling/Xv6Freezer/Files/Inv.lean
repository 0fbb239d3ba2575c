import Xv6Freezer.Files.Own

/-! # The invariant of inodes, files and pipes

How the shared state and the records of all processes hang together. Each part of the invariant speaks only
about the fields that it depends on, so that an operation which leaves them alone keeps it by definition.
-/

namespace Xv6Freezer.Files

open Lib Function

/-! ## Counting -/

section Counting

/-- How many open files satisfy `φ`. -/
def countFiles (file : Nat → File) (φ : File → Prop) [DecidablePred φ] : Nat :=
  ((Finset.range NFILE).filter fun f => φ (file f)).card

variable {φ : File → Prop} [DecidablePred φ] {file : Nat → File} {f : Nat} {F : File}

variable (φ file F) in
theorem countFiles_update (hf : f < NFILE) :
    countFiles (update file f F) φ + (if φ (file f) then 1 else 0) =
      countFiles file φ + if φ F then 1 else 0 := by
  have hmem : f ∈ Finset.range NFILE := Finset.mem_range.mpr hf
  unfold countFiles
  simp only [Finset.card_filter]
  rw [← Finset.add_sum_erase _ _ hmem,
    ← Finset.add_sum_erase _ (fun g => if φ (file g) then 1 else 0) hmem]
  have hrest : ∑ g ∈ (Finset.range NFILE).erase f, (if φ (update file f F g) then 1 else 0) =
      ∑ g ∈ (Finset.range NFILE).erase f, if φ (file g) then 1 else 0 :=
    Finset.sum_congr rfl fun g hg => by rw [update_of_ne (Finset.ne_of_mem_erase hg)]
  rw [hrest, update_self]
  omega

theorem countFiles_pos (hf : f < NFILE) (h : φ (file f)) : 0 < countFiles file φ :=
  Finset.card_pos.mpr ⟨f, Finset.mem_filter.mpr ⟨Finset.mem_range.mpr hf, h⟩⟩

variable {P : Type} [Fintype P] {α : Type} [DecidableEq α] {m : P → Multiset α} {p : P}
  {M : Multiset α} {a : α}

/-- How often all processes together have `a`. -/
def total (m : P → Multiset α) (a : α) : Nat := ∑ q, (m q).count a

theorem count_le_total : (m p).count a ≤ total m a :=
  Finset.single_le_sum (f := fun q => (m q).count a) (fun _ _ => Nat.zero_le _) (Finset.mem_univ p)

theorem total_pos (h : a ∈ m p) : 0 < total m a :=
  Nat.lt_of_lt_of_le (Multiset.count_pos.mpr h) count_le_total

variable [DecidableEq P]

theorem total_update : total (update m p M) a + (m p).count a = total m a + M.count a := by
  unfold total
  rw [← Finset.add_sum_erase _ _ (Finset.mem_univ p),
    ← Finset.add_sum_erase _ (fun q => (m q).count a) (Finset.mem_univ p)]
  have hrest : ∑ q ∈ Finset.univ.erase p, (update m p M q).count a =
      ∑ q ∈ Finset.univ.erase p, (m q).count a :=
    Finset.sum_congr rfl fun q hq => by rw [update_of_ne (Finset.ne_of_mem_erase hq)]
  rw [hrest, update_self]
  omega

theorem two_le_total {q : P} (hpq : p ≠ q) (hp : a ∈ m p) (hq : a ∈ m q) : 2 ≤ total m a := by
  have h := total_update (m := m) (p := p) (M := 0) (a := a)
  have hq' : a ∈ update m p 0 q := by rwa [update_of_ne hpq.symm]
  have h1 := total_pos hq'
  have h2 := Multiset.count_pos.mpr hp
  simp only [Multiset.count_zero] at h
  omega

theorem total_cons : total (update m p (a ::ₘ m p)) a = total m a + 1 := by
  have h := total_update (m := m) (p := p) (M := a ::ₘ m p) (a := a)
  rw [Multiset.count_cons_self] at h
  omega

theorem total_cons_of_ne {b : α} (hb : b ≠ a) : total (update m p (a ::ₘ m p)) b = total m b := by
  have h := total_update (m := m) (p := p) (M := a ::ₘ m p) (a := b)
  rw [Multiset.count_cons_of_ne hb] at h
  omega

theorem total_erase (ha : a ∈ m p) : total (update m p ((m p).erase a)) a + 1 = total m a := by
  have h := total_update (m := m) (p := p) (M := (m p).erase a) (a := a)
  have hc := Multiset.count_pos.mpr ha
  rw [Multiset.count_erase_self] at h
  omega

theorem total_erase_of_ne {b : α} (hb : b ≠ a) :
    total (update m p ((m p).erase a)) b = total m b := by
  have h := total_update (m := m) (p := p) (M := (m p).erase a) (a := b)
  rw [Multiset.count_erase_of_ne hb] at h
  omega

theorem total_move {q : P} {b : α} (hpq : p ≠ q) (hp : a ∈ m p) :
    total (update (update m q (a ::ₘ m q)) p ((m p).erase a)) b = total m b := by
  have h1 := total_update (m := m) (p := q) (M := a ::ₘ m q) (a := b)
  have h2 := total_update (m := update m q (a ::ₘ m q)) (p := p) (M := (m p).erase a) (a := b)
  rw [update_of_ne hpq] at h2
  by_cases hb : b = a
  · subst hb
    have hc := Multiset.count_pos.mpr hp
    rw [Multiset.count_cons_self] at h1
    rw [Multiset.count_erase_self] at h2
    omega
  · rw [Multiset.count_cons_of_ne hb] at h1
    rw [Multiset.count_erase_of_ne hb] at h2
    omega

end Counting

variable {P : Type}

/-! ## The parts -/

structure SlotInv (proc : P → Proc) (γ : P → Own P) : Prop where
  proc : ∀ p, proc p = (γ p).proc
  /-- A process that is not alive owns what its slot says. -/
  rest : ∀ p, (γ p).proc.stage ≠ .alive → (γ p).Idle
  /-- A slot without a process is empty. -/
  gone : ∀ p, (γ p).proc.stage = .unused ∨ (γ p).proc.stage = .zombie →
    (∀ fd, (γ p).proc.ofile fd = none) ∧ (γ p).proc.cwd = none
  child : ∀ p c, (γ p).child = some c → (γ c.slot).proc.stage = .embryo ∧
    (∀ fd, c.fds ≤ fd → (γ c.slot).proc.ofile fd = none) ∧
    (c.cwd = true ↔ (γ c.slot).proc.cwd ≠ none)
  parent : ∀ p q c d, (γ p).child = some c → (γ q).child = some d → c.slot = d.slot → p = q

variable [Fintype P]

def IrefInv (ref : Nat → Int) (file : Nat → File) (irefs : P → Multiset Nat) : Prop :=
  ∀ e, ref e = (total irefs e + countFiles file (File.On · e) : Nat)

structure FileInv (file : Nat → File) (frefs : P → Multiset Nat) (new : P → Finset Nat)
    (seen : P → Nat → Option File) : Prop where
  ref : ∀ f, (file f).ref = total frefs f
  closed : ∀ f, (file f).ref = 0 → (file f).type = .none
  bound : ∀ f, 0 < (file f).ref → f < NFILE
  new : ∀ p f, f ∈ new p → f ∈ frefs p ∧ (file f).ref = 1 ∧ (file f).type = .none
  seen : ∀ p f F, seen p f = some F → f ∈ frefs p → (file f).type = F.type ∧ (file f).ip = F.ip

def PipePage.live (g : PipePage) : Bool := g.allocs ≠ g.frees

def PipePage.isOpen (g : PipePage) (w : Bool) : Bool := g.live && if w then g.writeopen else g.readopen

/-- Pipes: an end is open as long as a file or a process has it. -/
structure PipeInv (pipe : Nat → PipePage) (file : Nat → File) (ends : P → Multiset (Nat × Bool)) :
    Prop where
  ends : ∀ pi w, countFiles file (File.End · pi w) + total ends (pi, w) =
    if (pipe pi).isOpen w then 1 else 0
  allocs : ∀ pi, (pipe pi).allocs = (pipe pi).frees ∨ (pipe pi).allocs = (pipe pi).frees + 1
  live : ∀ pi, (pipe pi).live = true → (pipe pi).isOpen false = true ∨ (pipe pi).isOpen true = true

/-- Why the holder of a sleep-lock may use the inode. -/
def Via.Holds (file : Nat → File) (irefs frefs : Multiset Nat) (e : Nat) : Via → Prop
  | .own => e ∈ irefs
  | .file f => f ∈ frefs ∧ (file f).On e

structure LockInv (lock : Nat → Option P) (file : Nat → File) (irefs frefs : P → Multiset Nat)
    (held : P → Nat → Option Held) : Prop where
  lock : ∀ e p, lock e = some p ↔ ∃ h, held p e = some h
  via : ∀ p e h, held p e = some h → h.via.Holds file (irefs p) (frefs p) e

structure DiskInv (inode : Nat → Inode P) (dinode : Nat → Dinode) (ind : Nat → Nat → Nat)
    (slot : Nat → Nat → Dirent) (unread : Nat → Option FileType) (held : P → Nat → Option Held) :
    Prop where
  bound : ∀ e, 0 < (inode e).ref → e < NINODE
  dev : ∀ e, 0 < (inode e).ref → (inode e).dev = ROOTDEV
  uniq : ∀ e e', 0 < (inode e).ref → 0 < (inode e').ref → (inode e).inum = (inode e').inum → e = e'
  /-- An unlocked inode is as on the disk. -/
  free : ∀ e, 0 < (inode e).ref → (inode e).valid = true → (∀ p, held p e = none) →
    (inode e).d = dinode (inode e).inum ∧ (inode e).d.type ≠ .none ∧
      (inode e).d.Full (ind (inode e).inum)
  /-- An inode that nobody has loaded has no holes. -/
  disk : ∀ i, (dinode i).type ≠ .none →
    (∀ e, 0 < (inode e).ref → (inode e).inum = i → (inode e).valid = false) →
    (dinode i).Full (ind i)
  loaded : ∀ p e h, held p e = some h → (inode e).valid = h.valid ∧ (h.valid = true →
    (inode e).d = h.d ∧
    (h.disk.type ≠ .none → dinode (inode e).inum = h.disk ∧ ind (inode e).inum = h.ind ∧
      slot (inode e).inum = h.slot) ∧
    (h.disk.type = .none → (dinode (inode e).inum).type = .none ∨
      unread (inode e).inum ≠ none))
  /-- An allocated inode that nobody has locked and loaded yet is new. -/
  fresh : ∀ i t, unread i = some t → t ≠ .none ∧ dinode i = Dinode.fresh t ∧
    ∀ e, 0 < (inode e).ref → (inode e).inum = i → (inode e).valid = true →
      ∃ p h, held p e = some h ∧ h.disk.type = .none

structure Inv (s : State P) (γ : P → Own P) : Prop where
  slots : SlotInv s.proc γ
  irefs : IrefInv (Inode.ref ∘ s.inode) s.file (Own.irefs ∘ γ)
  files : FileInv s.file (Own.frefs ∘ γ) (Own.new ∘ γ) (Own.seen ∘ γ)
  pipes : PipeInv s.pipe s.file (Own.ends ∘ γ)
  locks : LockInv (Inode.lock ∘ s.inode) s.file (Own.irefs ∘ γ) (Own.frefs ∘ γ) (Own.held ∘ γ)
  disk : DiskInv s.inode s.dinode s.ind s.slot s.unread (Own.held ∘ γ)

/-! ## Consequences -/

section Consequences

variable {s : State P} {γ : P → Own P} {p q : P} {e f : Nat} {h h' : Held}

theorem FileInv.ref_pos {file : Nat → File} {frefs : P → Multiset Nat} {new : P → Finset Nat}
    {seen : P → Nat → Option File} (hf : FileInv file frefs new seen) (h : f ∈ frefs p) :
    0 < (file f).ref := by
  rw [hf.ref]
  exact_mod_cast total_pos h

theorem FileInv.lt_nfile {file : Nat → File} {frefs : P → Multiset Nat} {new : P → Finset Nat}
    {seen : P → Nat → Option File} (hf : FileInv file frefs new seen) (h : (file f).type ≠ .none) :
    f < NFILE := by
  refine hf.bound f (lt_of_le_of_ne ?_ fun h0 => h (hf.closed f h0.symm))
  rw [hf.ref]
  exact Int.natCast_nonneg _

theorem File.On.type_ne {F : File} (h : F.On e) : F.type ≠ .none := by
  rcases h.1 with h | h <;> rw [h] <;> exact nofun

namespace Inv

theorem ref_pos_of_mem (hI : Inv s γ) (h : e ∈ (γ p).irefs) : 0 < (s.inode e).ref := by
  have h1 := hI.irefs e
  have h2 : 0 < total (Own.irefs ∘ γ) e := total_pos (p := p) h
  simp only [comp_apply] at h1
  omega

theorem ref_pos_of_on (hI : Inv s γ) (h : (s.file f).On e) : 0 < (s.inode e).ref := by
  have h1 := hI.irefs e
  have h2 := countFiles_pos (φ := (File.On · e)) (hI.files.lt_nfile h.type_ne) h
  simp only [comp_apply] at h1
  omega

theorem ref_pos_of_refd (hI : Inv s γ) (h : (γ p).Refd e) : 0 < (s.inode e).ref := by
  rcases h with h | ⟨f, F, hf, hF, hon⟩
  · exact hI.ref_pos_of_mem h
  · obtain ⟨ht, hip⟩ := hI.files.seen p f F hF hf
    exact hI.ref_pos_of_on (f := f) ⟨by rw [ht]; exact hon.1, by rw [hip]; exact hon.2⟩

theorem ref_pos_of_held (hI : Inv s γ) (h : (γ p).held e = some h') : 0 < (s.inode e).ref := by
  have hv := hI.locks.via p e h' h
  cases hvia : h'.via with
  | own =>
    rw [hvia] at hv
    exact hI.ref_pos_of_mem hv
  | file f =>
    rw [hvia] at hv
    exact hI.ref_pos_of_on hv.2

theorem held_uniq (hI : Inv s γ) (hp : (γ p).held e = some h)
    (hq : (γ q).held e = some h') : p = q := by
  have h1 := (hI.locks.lock e p).mpr ⟨h, hp⟩
  have h2 := (hI.locks.lock e q).mpr ⟨h', hq⟩
  exact Option.some.inj (h1.symm.trans h2)

theorem lock_eq_none (hI : Inv s γ) : (s.inode e).lock = none ↔ ∀ p, (γ p).held e = none := by
  constructor
  · intro h p
    by_contra hc
    obtain ⟨h', hh⟩ := Option.ne_none_iff_exists'.mp hc
    have := (hI.locks.lock e p).mpr ⟨h', hh⟩
    simp only [comp_apply, h] at this
    cases this
  · intro h
    by_contra hc
    obtain ⟨p, hp⟩ := Option.ne_none_iff_exists'.mp hc
    obtain ⟨h', hh⟩ := (hI.locks.lock e p).mp hp
    simp only [comp_apply, h p] at hh
    cases hh

variable [DecidableEq P]

theorem one_lt_ref (hI : Inv s γ) (hmem : e ∈ (γ p).irefs) (hq : (γ q).held e = some h)
    (hown : q = p → h.via = .own → e ∈ (γ p).irefs.erase e) : 1 < (s.inode e).ref := by
  have h1 := hI.irefs e
  have hv := hI.locks.via q e h hq
  simp only [comp_apply] at h1 hv
  cases hvia : h.via with
  | own =>
    rw [hvia] at hv
    by_cases hqp : q = p
    · have h2 := total_erase (m := Own.irefs ∘ γ) (p := p) hmem
      have h3 : e ∈ update (Own.irefs ∘ γ) p (((Own.irefs ∘ γ) p).erase e) p := by
        rw [update_self]
        exact hown hqp hvia
      have h4 := total_pos h3
      omega
    · have h2 : 2 ≤ total (Own.irefs ∘ γ) e := two_le_total (Ne.symm hqp) hmem hv
      omega
  | file f =>
    rw [hvia] at hv
    have h2 : 0 < total (Own.irefs ∘ γ) e := total_pos (p := p) hmem
    have h3 := countFiles_pos (φ := (File.On · e)) (hI.files.lt_nfile hv.2.type_ne) hv.2
    omega

end Inv

end Consequences

omit [Fintype P]

variable [DecidableEq P]

omit [DecidableEq P] in
theorem SlotInv.not_child {proc : P → Proc} {γ : P → Own P} {p q : P} {c : Child P}
    (h : SlotInv proc γ) (halive : (γ p).proc.stage ≠ .embryo) (hc : (γ q).child = some c) :
    c.slot ≠ p := by
  rintro rfl
  exact halive (h.child q c hc).1

theorem SlotInv.set {proc : P → Proc} {γ : P → Own P} {p : P} {g : Own P} (h : SlotInv proc γ)
    (hp : (γ p).proc.stage ≠ .embryo) (hchild : g.child = (γ p).child)
    (hrest : g.proc.stage ≠ .alive → g.Idle)
    (hgone : g.proc.stage = .unused ∨ g.proc.stage = .zombie →
      (∀ fd, g.proc.ofile fd = none) ∧ g.proc.cwd = none) :
    SlotInv (update proc p g.proc) (update γ p g) := by
  have hc : ∀ q, (update γ p g q).child = (γ q).child := fun q => by
    by_cases hq : q = p
    · subst hq
      rw [update_self, hchild]
    · rw [update_of_ne hq]
  refine ⟨fun q => ?_, fun q hq => ?_, fun q hq => ?_, fun q c hqc => ?_, fun q r c d hq hr => ?_⟩
  · by_cases hqp : q = p
    · subst hqp
      simp only [update_self]
    · simp only [update_of_ne hqp]
      exact h.proc q
  · by_cases hqp : q = p
    · subst hqp
      rw [update_self] at hq ⊢
      exact hrest hq
    · rw [update_of_ne hqp] at hq ⊢
      exact h.rest q hq
  · by_cases hqp : q = p
    · subst hqp
      rw [update_self] at hq ⊢
      exact hgone hq
    · rw [update_of_ne hqp] at hq ⊢
      exact h.gone q hq
  · rw [hc] at hqc
    rw [update_of_ne (h.not_child hp hqc)]
    exact h.child q c hqc
  · rw [hc] at hq hr
    exact h.parent q r c d hq hr

theorem SlotInv.frame {proc : P → Proc} {γ : P → Own P} {p : P} {g : Own P} (h : SlotInv proc γ)
    (halive : (γ p).proc.stage = .alive) (hg : g.proc = (γ p).proc)
    (hchild : g.child = (γ p).child) : SlotInv proc (update γ p g) := by
  have h' := h.set (p := p) (g := g) (by rw [halive]; exact nofun) hchild
    (fun hc => absurd (by rw [hg, halive]) hc) (by rw [hg, halive]; rintro (h | h) <;> cases h)
  rwa [hg, ← h.proc p, update_eq_self] at h'

theorem SlotInv.family {proc : P → Proc} {γ : P → Own P} {p q : P} {gp gq : Own P}
    (h : SlotInv proc γ) (hpq : p ≠ q) (hp : (γ p).proc.stage = .alive) (hgp : gp.proc = (γ p).proc)
    (hq : ∀ r c, r ≠ p → (γ r).child = some c → c.slot ≠ q) (hqc : gq.child = (γ q).child)
    (hrest : gq.proc.stage ≠ .alive → gq.Idle)
    (hgone : gq.proc.stage = .unused ∨ gq.proc.stage = .zombie →
      (∀ fd, gq.proc.ofile fd = none) ∧ gq.proc.cwd = none)
    (hchild : ∀ c, gp.child = some c → c.slot = q ∧ gq.proc.stage = .embryo ∧
      (∀ fd, c.fds ≤ fd → gq.proc.ofile fd = none) ∧ (c.cwd = true ↔ gq.proc.cwd ≠ none)) :
    SlotInv (update proc q gq.proc) (update (update γ q gq) p gp) := by
  have hval : ∀ r, update (update γ q gq) p gp r = if r = p then gp else if r = q then gq else γ r :=
    fun r => by
      by_cases hrp : r = p
      · simp [hrp]
      · by_cases hrq : r = q
        · simp [hrq, hpq.symm]
        · simp [hrp, hrq]
  -- whose child a process is does not change, except that of `p`
  have hold : ∀ r c, r ≠ p → (update (update γ q gq) p gp r).child = some c →
      (γ r).child = some c := fun r c hrp hc => by
    rw [hval, if_neg hrp] at hc
    by_cases hrq : r = q
    · rwa [if_pos hrq, hqc, ← hrq] at hc
    · rwa [if_neg hrq] at hc
  refine ⟨fun r => ?_, fun r hr => ?_, fun r hr => ?_, fun r c hrc => ?_, fun r t c d hr ht hcd => ?_⟩
  · rw [hval]
    by_cases hrp : r = p
    · rw [if_pos hrp, hgp, hrp, update_of_ne hpq]
      exact h.proc p
    · rw [if_neg hrp]
      by_cases hrq : r = q
      · rw [if_pos hrq, hrq, update_self]
      · rw [if_neg hrq, update_of_ne hrq]
        exact h.proc r
  · rw [hval] at hr ⊢
    by_cases hrp : r = p
    · rw [if_pos hrp, hgp] at hr
      exact absurd hp hr
    · rw [if_neg hrp] at hr ⊢
      by_cases hrq : r = q
      · rw [if_pos hrq] at hr ⊢
        exact hrest hr
      · rw [if_neg hrq] at hr ⊢
        exact h.rest r hr
  · rw [hval] at hr ⊢
    by_cases hrp : r = p
    · rw [if_pos hrp, hgp, hp] at hr
      rcases hr with hr | hr <;> cases hr
    · rw [if_neg hrp] at hr ⊢
      by_cases hrq : r = q
      · rw [if_pos hrq] at hr ⊢
        exact hgone hr
      · rw [if_neg hrq] at hr ⊢
        exact h.gone r hr
  · by_cases hrp : r = p
    · rw [hval, if_pos hrp] at hrc
      obtain ⟨hslot, hc⟩ := hchild c hrc
      rw [hval, hslot, if_neg hpq.symm, if_pos rfl]
      exact hc
    · have hc := hold r c hrp hrc
      have hslot := hq r c hrp hc
      have hslot' := h.not_child (p := p) (by rw [hp]; exact nofun) hc
      rw [hval, if_neg hslot', if_neg hslot]
      exact h.child r c hc
  · by_cases hrp : r = p <;> by_cases htp : t = p
    · rw [hrp, htp]
    · rw [hval, if_pos hrp] at hr
      exact absurd (hcd.symm.trans (hchild c hr).1) (hq t d htp (hold t d htp ht))
    · rw [hval, if_pos htp] at ht
      exact absurd (hcd.trans (hchild d ht).1) (hq r c hrp (hold r c hrp hr))
    · exact h.parent r t c d (hold r c hrp hr) (hold t d htp ht) hcd

theorem comp_update_of_eq {ι α β : Type} [DecidableEq ι] (π : α → β) (γ : ι → α) (i : ι) {a : α}
    (h : π a = π (γ i)) : π ∘ update γ i a = π ∘ γ := by
  rw [comp_update, h]
  exact update_eq_self i (π ∘ γ)

section Frames

variable {γ : P → Own P} {p : P} {g : Own P} {file : Nat → File} {lock : Nat → Option P}

theorem LockInv.frame (h : LockInv lock file (Own.irefs ∘ γ) (Own.frefs ∘ γ) (Own.held ∘ γ))
    (h1 : g.irefs = (γ p).irefs) (h2 : g.frefs = (γ p).frefs) (h3 : g.held = (γ p).held) :
    LockInv lock file (Own.irefs ∘ update γ p g) (Own.frefs ∘ update γ p g)
      (Own.held ∘ update γ p g) := by
  rwa [comp_update_of_eq _ _ _ h1, comp_update_of_eq _ _ _ h2, comp_update_of_eq _ _ _ h3]

theorem DiskInv.frame {inode : Nat → Inode P} {dinode : Nat → Dinode} {ind : Nat → Nat → Nat}
    {slot : Nat → Nat → Dirent} {unread : Nat → Option FileType}
    (h : DiskInv inode dinode ind slot unread (Own.held ∘ γ)) (h1 : g.held = (γ p).held) :
    DiskInv inode dinode ind slot unread (Own.held ∘ update γ p g) := by
  rwa [comp_update_of_eq _ _ _ h1]

variable [Fintype P]

theorem IrefInv.frame {ref : Nat → Int} (h : IrefInv ref file (Own.irefs ∘ γ))
    (h1 : g.irefs = (γ p).irefs) : IrefInv ref file (Own.irefs ∘ update γ p g) := by
  rwa [comp_update_of_eq _ _ _ h1]

theorem FileInv.frame (h : FileInv file (Own.frefs ∘ γ) (Own.new ∘ γ) (Own.seen ∘ γ))
    (h1 : g.frefs = (γ p).frefs) (h2 : g.new = (γ p).new) (h3 : g.seen = (γ p).seen) :
    FileInv file (Own.frefs ∘ update γ p g) (Own.new ∘ update γ p g)
      (Own.seen ∘ update γ p g) := by
  rwa [comp_update_of_eq _ _ _ h1, comp_update_of_eq _ _ _ h2, comp_update_of_eq _ _ _ h3]

theorem PipeInv.frame {pipe : Nat → PipePage} (h : PipeInv pipe file (Own.ends ∘ γ))
    (h1 : g.ends = (γ p).ends) : PipeInv pipe file (Own.ends ∘ update γ p g) := by
  rwa [comp_update_of_eq _ _ _ h1]

end Frames

end Xv6Freezer.Files

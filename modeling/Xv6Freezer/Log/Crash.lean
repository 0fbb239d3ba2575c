import Xv6Freezer.Lib.Replay
import Xv6Freezer.Log.Disk
import Xv6Freezer.Log.Group

/-! # Crash atomicity of the log

The processes of `groupCommit` with the contents of the blocks they log. The buffer cache may recycle every
block that is not pinned. A crash may come between any two steps. `home` is the contents of the disk after the
last transaction whose header was written, `txn` has the writes since.
-/

namespace Xv6Freezer

open Function

open Lib

/-! ## The transition system -/

inductive RecoveryPc where
  | readHead
  /-- `install_trans(1)`, at `tail`, with the header that was read. -/
  | install (lh : List Nat) (tail : Nat)
  | erase
  | up
  deriving DecidableEq

structure Store where
  grp : Group
  dev : Dev
  recovery : RecoveryPc
  txn : List (Nat × Block)
  home : Nat → Block

inductive StoreAct where
  /-- A step of a process; `v` is the data of the buffer that `log_write` is called with. -/
  | op (a : GroupAct) (v : Block)
  /-- The buffer of a block is recycled. -/
  | evict (b : Nat)
  | crash
  | recover

namespace Store

/-- What a step of a process does to the contents of blocks. -/
def effect (s : Store) (v : Block) : GroupAct → Store
  | .logWrite _ b => { s with dev := s.dev.modify b v, txn := s.txn ++ [(b, v)] }
  | .commit p =>
    match s.grp.pc p with
    | .writeLog tail =>
      match s.grp.log.lh[tail]? with
      | some b => { s with dev := writeLogBlock s.grp.log.start tail b s.dev }
      | none => s
    | .writeHead =>
      -- the true point at which the transaction commits
      { s with dev := Xv6Freezer.writeHead s.grp.log.start s.grp.log.lh s.dev,
               home := replay s.txn s.home, txn := [] }
    | .install tail =>
      match s.grp.log.lh[tail]? with
      | some b => { s with dev := installBlock s.grp.log.start tail b s.dev }
      | none => s
    | .erase => { s with dev := Xv6Freezer.writeHead s.grp.log.start s.grp.log.lh s.dev }
    | _ => s
  | _ => s

/-- The blocks of a file-system operation are outside the log area. -/
def Outside (start size : Nat) : GroupAct → Prop
  | .logWrite _ b => ¬ InLog start size b
  | _ => True

instance (start size b : Nat) : Decidable (InLog start size b) :=
  inferInstanceAs (Decidable (_ ∧ _))

instance (start size : Nat) : (a : GroupAct) → Decidable (Outside start size a)
  | .logWrite _ _ => inferInstanceAs (Decidable (¬ _))
  | .beginOp _ | .endOp _ | .commit _ => instDecidableTrue

def recoverStep (s : Store) (start : Nat) : Option Store :=
  match s.recovery with
  | .readHead =>
    let (lh, d) := Xv6Freezer.readHead start s.dev
    some { s with dev := d, recovery := .install lh 0 }
  | .install lh tail =>
    match lh[tail]? with
    | some b => some { s with dev := installBlock start tail b s.dev,
                              recovery := .install lh (tail + 1) }
    | none => some { s with recovery := .erase }
  | .erase => some { s with dev := Xv6Freezer.writeHead start [] s.dev, recovery := .up }
  | .up => none

def crash (s : Store) (start size : Nat) : Store :=
  { s with grp := Group.boot start size, dev := s.dev.reboot, recovery := .readHead, txn := [] }

def step (start size : Nat) (s : Store) : StoreAct → Option Store
  | .op a v =>
    if s.recovery = .up ∧ Outside start size a then
      (s.grp.step a).map fun g => { s.effect v a with grp := g }
    else none
  | .evict b => if s.grp.pins b = 0 then some { s with dev := s.dev.evict b } else none
  | .crash => some (s.crash start size)
  | .recover => s.recoverStep start

def boot (start size : Nat) (disk : Nat → Block) : Store :=
  { grp := Group.boot start size, dev := { disk := disk, cache := fun _ => none },
    recovery := .readHead, txn := [], home := disk }

end Store

/-- The log on a disk whose header `mkfs` has zeroed. -/
def journal (start size : Nat) : Lib.Lts Store StoreAct where
  init s := ∃ disk, disk start 0 = 0 ∧ s = Store.boot start size disk
  step := Store.step start size

/-! ## The invariant -/

namespace Store

def view (s : Store) : Nat → Block := replay s.txn s.home

/-- What the disk has when a process is at a program point of `commit`. -/
def DiskAt (start size : Nat) (s : Store) : OpPc → Prop
  | .commit | .finish => Recoverable start size s.home s.dev.disk [] 0
  | .writeLog tail => Recoverable start size s.home s.dev.disk [] 0 ∧
    ∀ i b, i < tail → s.grp.log.lh[i]? = some b → s.dev.disk (start + i + 1) = s.view b
  | .writeHead => Recoverable start size s.home s.dev.disk [] 0 ∧
    ∀ i b, s.grp.log.lh[i]? = some b → s.dev.disk (start + i + 1) = s.view b
  | .install tail => s.txn = [] ∧ Recoverable start size s.home s.dev.disk s.grp.log.lh tail
  | .clear =>
    s.txn = [] ∧ Recoverable start size s.home s.dev.disk s.grp.log.lh s.grp.log.lh.length
  | .erase => Recoverable start size s.home s.dev.disk s.grp.installed s.grp.installed.length
  | .idle | .waiting | .inOp _ => True

/-- What the disk has during recovery. -/
def RecoveryAt (start size : Nat) (s : Store) : RecoveryPc → Prop
  | .readHead => ∃ lst t, Recoverable start size s.home s.dev.disk lst t
  | .install lh tail => Recoverable start size s.home s.dev.disk lh tail
  | .erase => ∃ lst, Recoverable start size s.home s.dev.disk lst lst.length
  | .up => True

/-- Pinned blocks are cached as processes see them, all other cached blocks as on disk. -/
structure CacheOk (s : Store) : Prop where
  clean : ∀ b, s.grp.pins b = 0 → s.dev.Clean b
  dirty : ∀ b, s.grp.pins b ≠ 0 → s.dev.cache b = some (s.view b)
  touched : ∀ w ∈ s.txn, w.1 ∈ s.grp.log.lh

structure Inv (start size : Nat) (s : Store) : Prop where
  grp : s.grp.Inv
  area : s.grp.log.start = start ∧ s.grp.log.size = size
  room : s.grp.log.lh.length < size
  outside : ∀ b ∈ s.grp.log.lh, ¬ InLog start size b
  /-- Everything committed is at home when nobody commits. -/
  idle : s.recovery = .up → (∀ p, (s.grp.pc p).commits = false) →
    Recoverable start size s.home s.dev.disk [] 0
  commit : ∀ p, s.DiskAt start size (s.grp.pc p)
  recovery : s.RecoveryAt start size s.recovery
  /-- The log has no users yet during recovery. -/
  booting : s.recovery ≠ .up → s.grp = Group.boot start size ∧ s.txn = []
  cache : s.grp.panic = none → s.CacheOk

variable {start size p b : Nat} {s s' : Store} {x : OpPc}

theorem diskAt_of_commits (h : x.commits = false) : s.DiskAt start size x := by
  cases x with
  | idle | waiting | inOp => trivial
  | _ => cases h

theorem Inv.recoverable (h : Inv start size s) :
    ∃ lst t, Recoverable start size s.home s.dev.disk lst t := by
  have hrec := h.recovery
  cases hr : s.recovery with
  | readHead => rw [hr] at hrec; exact hrec
  | install lh tail => rw [hr] at hrec; exact ⟨lh, tail, hrec⟩
  | erase =>
    rw [hr] at hrec
    obtain ⟨lst, hl⟩ := hrec
    exact ⟨lst, _, hl⟩
  | up =>
    by_cases hc : ∀ p, (s.grp.pc p).commits = false
    · exact ⟨[], 0, h.idle hr hc⟩
    · obtain ⟨p, hp⟩ := not_forall.mp hc
      have hd := h.commit p
      cases hpc : s.grp.pc p with
      | commit => rw [hpc] at hd; exact ⟨_, _, hd⟩
      | writeLog | writeHead => rw [hpc] at hd; exact ⟨_, _, hd.1⟩
      | install | clear => rw [hpc] at hd; exact ⟨_, _, hd.2⟩
      | erase | finish => rw [hpc] at hd; exact ⟨_, _, hd⟩
      | _ => rw [hpc] at hp; exact absurd rfl hp

theorem Inv.mem_of_pinned (h : Inv start size s) (hb : s.grp.pins b ≠ 0) : b ∈ s.grp.log.lh := by
  rw [h.grp.pinned] at hb
  by_contra hm
  simp [hm] at hb

theorem Inv.pins_of_inLog (h : Inv start size s) (hb : InLog start size b) : s.grp.pins b = 0 := by
  by_contra hp
  exact h.outside b (h.mem_of_pinned hp) hb

theorem Inv.clean_of_inLog (h : Inv start size s) (hc : s.CacheOk) (hb : InLog start size b) :
    s.dev.Clean b :=
  hc.clean b (h.pins_of_inLog hb)

theorem CacheOk.view_eq (h : s.CacheOk) (hb : b ∉ s.grp.log.lh) : s.view b = s.home b :=
  Lib.replay_of_forall_ne fun w hw e => hb (e ▸ h.touched w hw)

theorem Inv.start_inLog (h : Inv start size s) : InLog start size start :=
  ⟨le_refl _, by have := h.room; omega⟩

theorem Inv.copy_inLog {i : Nat} (h : Inv start size s) (hb : s.grp.log.lh[i]? = some b) :
    InLog start size (start + i + 1) := by
  have hi := (List.getElem?_eq_some_iff.mp hb).1
  have := h.room
  exact ⟨by omega, by omega⟩

/-! ## Steps of `commit` -/

theorem Inv.move (h : Inv start size s) (hp : (s.grp.pc p).commits = true) (hg : s'.grp.Inv)
    (hpc : s'.grp.pc = update s.grp.pc p x) (hrec' : s'.recovery = .up)
    (harea : s'.grp.log.start = s.grp.log.start ∧ s'.grp.log.size = s.grp.log.size)
    (hlh : ∀ b ∈ s'.grp.log.lh, b ∈ s.grp.log.lh)
    (hlen : s'.grp.log.lh.length ≤ s.grp.log.lh.length)
    (hidle : x.commits = false → Recoverable start size s'.home s'.dev.disk [] 0)
    (hdisk : s'.DiskAt start size x) (hcache : s'.CacheOk) : Inv start size s' where
  grp := hg
  area := ⟨harea.1.trans h.area.1, harea.2.trans h.area.2⟩
  room := Nat.lt_of_le_of_lt hlen h.room
  outside b hb := h.outside b (hlh b hb)
  idle _ hall := hidle (by simpa [hpc] using hall p)
  commit q := by
    rw [hpc]
    by_cases hq : q = p
    · subst hq; rw [update_self]; exact hdisk
    · -- nobody else is in `commit`
      rw [update_of_ne hq]
      refine diskAt_of_commits ?_
      cases hcq : (s.grp.pc q).commits with
      | false => rfl
      | true => exact absurd (h.grp.single q p hcq hp) hq
  recovery := by rw [hrec']; trivial
  booting hne := absurd hrec' hne
  cache _ := hcache

variable {g : Group} {tail : Nat}

section

variable (h : Inv start size s)

include h

theorem Inv.writeLogBlock (hrec : s.recovery = .up) (hc : s.CacheOk)
    (hpc : s.grp.pc p = .writeLog tail) (hb : s.grp.log.lh[tail]? = some b) (hg : g.Inv)
    (hgeq : g = { s.grp with pc := update s.grp.pc p (.writeLog (tail + 1)),
                             copied := s.grp.copied ++ [b] }) :
    Inv start size
      { s with grp := g, dev := Xv6Freezer.writeLogBlock s.grp.log.start tail b s.dev } := by
  subst hgeq
  have hd := h.commit p
  rw [hpc] at hd
  have hstart := h.area.1
  -- the block is pinned, so the cache has what processes see
  have hpin : s.grp.pins b ≠ 0 := by
    have hw := h.grp.written p
    rw [hpc] at hw
    rw [h.grp.pinned, hw.2]
    simp [List.mem_of_getElem? hb]
  have hread : s.dev.read b = s.view b := Dev.read_of_cache (hc.dirty b hpin)
  have hroom := (h.copy_inLog hb).2
  refine h.move (x := .writeLog (tail + 1)) (by rw [hpc]; rfl) hg rfl hrec ⟨rfl, rfl⟩
    (fun _ => id) (le_refl _) (fun hx => by cases hx) ⟨?_, fun i x hi hx => ?_⟩
    ⟨fun x hx => (hc.clean x hx).writeLogBlock, fun x hx => ?_, hc.touched⟩
  · show Recoverable _ _ _ (Xv6Freezer.writeLogBlock _ _ _ _).disk _ _
    rw [disk_writeLogBlock, hstart]
    exact hd.1.writeLog (by omega) _
  · show (Xv6Freezer.writeLogBlock _ _ _ _).disk _ = _
    rw [disk_writeLogBlock, hstart]
    by_cases hit : i = tail
    · subst hit
      obtain rfl : b = x := Option.some.inj (hb.symm.trans hx)
      rw [update_self]
      exact hread
    · rw [update_of_ne (by omega)]
      exact hd.2 i x (by omega) hx
  · refine cache_writeLogBlock (hc.dirty x hx) fun e => ?_
    rw [hstart] at e
    exact h.outside x (h.mem_of_pinned hx) (e ▸ h.copy_inLog hb)

theorem Inv.cacheOk_writeHead (hc : s.CacheOk) (lh : List Nat) :
    (∀ b, s.grp.pins b = 0 → (Xv6Freezer.writeHead s.grp.log.start lh s.dev).Clean b) ∧
    ∀ b, s.grp.pins b ≠ 0 →
      (Xv6Freezer.writeHead s.grp.log.start lh s.dev).cache b = some (s.view b) := by
  refine ⟨fun b hb => (hc.clean b hb).writeHead, fun b hb => cache_writeHead (hc.dirty b hb) ?_⟩
  intro e
  rw [h.area.1] at e
  exact h.outside b (h.mem_of_pinned hb) (e ▸ h.start_inLog)

section

variable (hrec : s.recovery = .up)

include hrec

theorem Inv.writeHead (hc : s.CacheOk) (hpc : s.grp.pc p = .writeHead) (hg : g.Inv)
    (hgeq : g = { s.grp with pc := update s.grp.pc p (.install 0) }) :
    Inv start size
      { s with grp := g, dev := Xv6Freezer.writeHead s.grp.log.start s.grp.log.lh s.dev,
               home := s.view, txn := [] } := by
  subst hgeq
  have hd := h.commit p
  rw [hpc] at hd
  obtain ⟨hclean, hdirty⟩ := h.cacheOk_writeHead hc s.grp.log.lh
  refine h.move (x := .install 0) (by rw [hpc]; rfl) hg rfl hrec ⟨rfl, rfl⟩
    (fun _ => id) (le_refl _) (fun hx => by cases hx) ⟨rfl, ?_⟩ ⟨hclean, hdirty, by simp⟩
  show Recoverable _ _ _ (Xv6Freezer.writeHead _ _ _).disk _ _
  rw [disk_writeHead, h.area.1]
  exact hd.1.commit h.room h.outside hd.2 (fun b hb => hc.view_eq hb) _

theorem Inv.installBlock (hc : s.CacheOk)
    (hpc : s.grp.pc p = .install tail) (hb : s.grp.log.lh[tail]? = some b) (hg : g.Inv)
    (hgeq : g = { s.grp with pc := update s.grp.pc p (.install (tail + 1)),
                             installed := s.grp.installed ++ [b],
                             pins := update s.grp.pins b (s.grp.pins b - 1) }) :
    Inv start size
      { s with grp := g, dev := Xv6Freezer.installBlock s.grp.log.start tail b s.dev } := by
  subst hgeq
  have hd := h.commit p
  rw [hpc] at hd
  refine h.move (x := .install (tail + 1)) (by rw [hpc]; rfl) hg rfl hrec ⟨rfl, rfl⟩
    (fun _ => id) (le_refl _) (fun hx => by cases hx) ⟨hd.1, ?_⟩
    ⟨fun x hx => ?_, fun x hx => ?_, hc.touched⟩
  · show Recoverable _ _ _ (Xv6Freezer.installBlock _ _ _ _).disk _ _
    rw [h.area.1]
    exact hd.2.installBlock hb (h.clean_of_inLog hc (h.copy_inLog hb))
  · by_cases hxb : x = b
    · subst hxb; exact clean_installBlock_self
    · refine (hc.clean x ?_).installBlock
      simpa [update_of_ne hxb] using hx
  · -- a block that stays pinned is another one
    have hxb : x ≠ b := by
      rintro rfl
      have hle : s.grp.pins x ≤ 1 := by rw [h.grp.pinned]; split <;> omega
      simp only [update_self] at hx
      omega
    refine cache_installBlock (hc.dirty x ?_) hxb
    simpa [update_of_ne hxb] using hx

theorem Inv.clear (hc : s.CacheOk) (hpc : s.grp.pc p = .clear) (hg : g.Inv)
    (hgeq : g = { s.grp with pc := update s.grp.pc p .erase, log := s.grp.log.clear }) :
    Inv start size { s with grp := g } := by
  subst hgeq
  have hd := h.commit p
  have hw := h.grp.written p
  rw [hpc] at hd hw
  refine h.move (x := .erase) (by rw [hpc]; rfl) hg rfl hrec ⟨rfl, rfl⟩
    (fun b hb => by cases hb) (Nat.zero_le _) (fun hx => by cases hx) ?_
    ⟨hc.clean, hc.dirty, by simp [hd.1]⟩
  show Recoverable start size s.home s.dev.disk s.grp.installed s.grp.installed.length
  rw [hw.2]
  exact hd.2

theorem Inv.erase (hc : s.CacheOk) (hpc : s.grp.pc p = .erase) (hg : g.Inv)
    (hgeq : g = { s.grp with pc := update s.grp.pc p .finish }) :
    Inv start size
      { s with grp := g, dev := Xv6Freezer.writeHead s.grp.log.start s.grp.log.lh s.dev } := by
  subst hgeq
  have hd := h.commit p
  have hw := h.grp.written p
  rw [hpc] at hd hw
  obtain ⟨hclean, hdirty⟩ := h.cacheOk_writeHead hc s.grp.log.lh
  refine h.move (x := .finish) (by rw [hpc]; rfl) hg rfl hrec ⟨rfl, rfl⟩
    (fun _ => id) (le_refl _) (fun hx => by cases hx) ?_ ⟨hclean, hdirty, hc.touched⟩
  show Recoverable _ _ _ (Xv6Freezer.writeHead _ _ _).disk _ _
  rw [disk_writeHead, h.area.1, hw.1]
  exact Recoverable.erase hd _

theorem Inv.commitStep (hpanic : s.grp.panic = none) (v : Block)
    (hs : s.grp.commitStep p (s.grp.pc p) = some g) :
    Inv start size { s.effect v (.commit p) with grp := g } := by
  have hg : g.Inv := h.grp.commitStep hs
  have hc := h.cache hpanic
  have hd := h.commit p
  cases hpc : s.grp.pc p with
  | idle | waiting | inOp => rw [hpc] at hs; cases hs
  | commit =>
    rw [hpc] at hs hd
    simp only [effect, hpc]
    cases hs
    refine h.move (by rw [hpc]; rfl) hg rfl hrec ⟨rfl, rfl⟩ (fun _ => id) (le_refl _) ?_ ?_
      ⟨hc.clean, hc.dirty, hc.touched⟩
    · split <;> exact fun hx => by cases hx
    · split
      · exact ⟨hd, fun i b hi => absurd hi (Nat.not_lt_zero i)⟩
      · exact hd
  | writeLog tail =>
    rw [hpc] at hs hd
    simp only [effect, hpc]
    simp only [Group.commitStep] at hs
    cases hb : s.grp.log.lh[tail]? with
    | none =>
      -- the loop is over: `tail` has reached the end of the header
      rw [hb] at hs
      cases hs
      have hlen := List.getElem?_eq_none_iff.mp hb
      refine h.move (x := .writeHead) (by rw [hpc]; rfl) hg rfl hrec ⟨rfl, rfl⟩ (fun _ => id)
        (le_refl _) (fun hx => by cases hx) ⟨hd.1, fun i b hi => ?_⟩ ⟨hc.clean, hc.dirty, hc.touched⟩
      have hlt := (List.getElem?_eq_some_iff.mp hi).1
      exact hd.2 i b (Nat.lt_of_lt_of_le hlt hlen) hi
    | some b =>
      rw [hb] at hs
      exact h.writeLogBlock hrec hc hpc hb hg (Option.some.inj hs).symm
  | writeHead =>
    rw [hpc] at hs
    simp only [effect, hpc]
    exact h.writeHead hrec hc hpc hg (Option.some.inj hs).symm
  | install tail =>
    rw [hpc] at hs hd
    simp only [effect, hpc]
    simp only [Group.commitStep] at hs
    cases hb : s.grp.log.lh[tail]? with
    | none =>
      rw [hb] at hs
      cases hs
      have hlen := List.getElem?_eq_none_iff.mp hb
      refine h.move (x := .clear) (by rw [hpc]; rfl) hg rfl hrec ⟨rfl, rfl⟩ (fun _ => id)
        (le_refl _) (fun hx => by cases hx) ⟨hd.1, ?_⟩ ⟨hc.clean, hc.dirty, hc.touched⟩
      refine { hd.2 with rest := fun b hb _ => hd.2.rest b hb ?_ }
      rw [List.drop_eq_nil_of_le hlen]
      exact List.not_mem_nil
    | some b =>
      rw [hb] at hs
      exact h.installBlock hrec hc hpc hb hg (Option.some.inj hs).symm
  | clear =>
    rw [hpc] at hs
    simp only [effect, hpc]
    exact h.clear hrec hc hpc hg (Option.some.inj hs).symm
  | erase =>
    rw [hpc] at hs
    simp only [effect, hpc]
    exact h.erase hrec hc hpc hg (Option.some.inj hs).symm
  | finish =>
    rw [hpc] at hs hd
    simp only [effect, hpc]
    cases hs
    exact h.move (x := .idle) (by rw [hpc]; rfl) hg rfl hrec ⟨rfl, rfl⟩ (fun _ => id)
      (le_refl _) (fun _ => hd) trivial ⟨hc.clean, hc.dirty, hc.touched⟩

/-- A step of a process that changes neither the header nor a block. -/
theorem Inv.frame (hg : g.Inv)
    (hlog : g.log.start = s.grp.log.start ∧ g.log.size = s.grp.log.size ∧ g.log.lh = s.grp.log.lh)
    (hinst : g.installed = s.grp.installed) (hpins : g.pins = s.grp.pins)
    (hpanic : g.panic = s.grp.panic)
    (hpc : ∀ q, g.pc q = s.grp.pc q ∨ DiskAt start size { s with grp := g } (g.pc q))
    (hidle : (∀ q, (g.pc q).commits = false) → ∀ q, (s.grp.pc q).commits = false) :
    Inv start size { s with grp := g } where
  grp := hg
  area := ⟨hlog.1.trans h.area.1, hlog.2.1.trans h.area.2⟩
  room := by rw [hlog.2.2]; exact h.room
  outside b hb := h.outside b (by rw [← hlog.2.2]; exact hb)
  idle _ hall := h.idle hrec (hidle hall)
  commit q := by
    rcases hpc q with e | hd
    · have hq := h.commit q
      rw [← e] at hq
      revert hq
      show DiskAt start size s (g.pc q) → DiskAt start size { s with grp := g } (g.pc q)
      -- the header and the installed blocks are all that `DiskAt` reads of the log
      cases g.pc q <;> simp only [DiskAt, hlog.2.2, hinst] <;> exact id
    · exact hd
  recovery := by
    show RecoveryAt start size { s with grp := g } s.recovery
    rw [hrec]
    trivial
  booting hne := absurd hrec hne
  cache hp := by
    obtain ⟨hclean, hdirty, htouched⟩ := h.cache (hpanic ▸ hp)
    exact ⟨fun b hb => hclean b (hpins ▸ hb), fun b hb => hdirty b (hpins ▸ hb),
      fun w hw => by rw [hlog.2.2]; exact htouched w hw⟩

theorem Inv.beginOp (hp : s.grp.pc p = .idle ∨ s.grp.pc p = .waiting) (hg : (s.grp.beginOp p).Inv) :
    Inv start size { s with grp := s.grp.beginOp p } := by
  have hout : (s.grp.pc p).commits = false := by rcases hp with e | e <;> rw [e] <;> rfl
  obtain ⟨y, hy, hpc⟩ : ∃ y : OpPc, y.commits = false ∧
      (s.grp.beginOp p).pc = update s.grp.pc p y := by
    unfold Group.beginOp
    split
    · exact ⟨.waiting, rfl, rfl⟩
    · exact ⟨.inOp s.grp.nextOp, rfl, rfl⟩
  refine h.frame hrec hg ?_ ?_ ?_ ?_ (fun q => ?_) fun hall q => ?_
  · unfold Group.beginOp; split <;> exact ⟨rfl, rfl, rfl⟩
  · unfold Group.beginOp; split <;> rfl
  · unfold Group.beginOp; split <;> rfl
  · unfold Group.beginOp; split <;> rfl
  · rw [hpc]
    by_cases hq : q = p
    · subst hq; rw [update_self]; exact .inr (diskAt_of_commits hy)
    · rw [update_of_ne hq]; exact .inl rfl
  · have := hall q
    rw [hpc] at this
    by_cases hq : q = p
    · subst hq; exact hout
    · rwa [update_of_ne hq] at this

theorem Inv.endOp {id : Nat} (hp : s.grp.pc p = .inOp id) (hg : (s.grp.endOp p id).Inv) :
    Inv start size { s with grp := s.grp.endOp p id } := by
  have hno := h.grp.commits_false (h.grp.not_committing hp)
  have hidle := h.idle hrec hno
  rw [Group.endOp_eq (h.grp.not_committing hp)] at hg ⊢
  refine h.frame hrec hg ⟨rfl, rfl, rfl⟩ rfl rfl rfl (fun q => ?_) fun _ => hno
  by_cases hq : q = p
  · subst hq
    refine .inr ?_
    simp only [update_self]
    split
    · exact hidle
    · trivial
  · exact .inl (update_of_ne hq _ _)

theorem Inv.logWrite {id : Nat} {v : Block}
    (hp : s.grp.pc p = .inOp id) (hb : ¬ InLog start size b) (hg : (s.grp.logWrite id b).Inv)
    (hpanic : s.grp.panic = none) :
    Inv start size { s with grp := s.grp.logWrite id b, dev := s.dev.modify b v,
                            txn := s.txn ++ [(b, v)] } := by
  have hno := h.grp.commits_false (h.grp.not_committing hp)
  have hinst := (h.grp.fresh hno).2
  cases hr : s.grp.log.logWrite b with
  | error msg =>
    have heq : s.grp.logWrite id b = { s.grp with panic := some msg } := by
      simp only [Group.logWrite, hr]
    rw [heq] at hg ⊢
    exact
      { grp := hg
        area := h.area
        room := h.room
        outside := h.outside
        idle := fun _ _ => h.idle hrec hno
        commit := fun q => diskAt_of_commits (hno q)
        recovery := by
          show RecoveryAt start size _ s.recovery
          rw [hrec]
          trivial
        booting := fun hne => absurd hrec hne
        cache := fun hnone => by cases hnone }
  | ok r =>
    obtain ⟨l, added⟩ := r
    obtain ⟨⟨-, hroom⟩, rfl, -⟩ := Log.logWrite_ok hr
    have heq : s.grp.logWrite id b =
        { s.grp with log := { s.grp.log with lh := (Log.absorb s.grp.log.lh b).1 },
                     blocks := update s.grp.blocks id (s.grp.blocks id ++ [b]),
                     pins := if added then update s.grp.pins b (s.grp.pins b + 1)
                             else s.grp.pins } := by
      simp only [Group.logWrite, hr]
    -- the block is pinned now, whether it was added or absorbed
    have hpin : (s.grp.logWrite id b).pins b ≠ 0 := by
      rw [hg.pinned, heq]
      simp [hinst, Log.mem_absorb]
    have hpin_ne : ∀ x, x ≠ b → (s.grp.logWrite id b).pins x = s.grp.pins x := by
      intro x hx
      rw [heq]
      cases added <;> simp [hx]
    obtain ⟨hclean, hdirty, htouched⟩ := h.cache hpanic
    have hview : ∀ x, replay (s.txn ++ [(b, v)]) s.home x = update s.view b v x := fun x => by
      rw [Lib.replay_concat]
      rfl
    refine
      { grp := hg
        area := by rw [heq]; exact h.area
        room := ?_
        outside := fun x hx => ?_
        idle := fun _ _ => h.idle hrec hno
        commit := fun q => diskAt_of_commits (by rw [heq]; exact hno q)
        recovery := by
          show RecoveryAt start size _ s.recovery
          rw [hrec]
          trivial
        booting := fun hne => absurd hrec hne
        cache := fun _ => ⟨fun x hx w hw => ?_, fun x hx => ?_, fun w hw => ?_⟩ }
    · rw [heq]
      have hlen := Log.length_absorb_le s.grp.log.lh b
      rw [h.area.2] at hroom
      exact Nat.lt_of_le_of_lt hlen hroom
    · rw [heq] at hx
      rcases Log.mem_absorb.mp hx with hx | rfl
      · exact h.outside x hx
      · exact hb
    · have hxb : x ≠ b := by rintro rfl; exact hpin hx
      rw [hpin_ne x hxb] at hx
      exact hclean x hx w (by simpa [Dev.modify, hxb] using hw)
    · show (s.dev.modify b v).cache x = some (replay (s.txn ++ [(b, v)]) s.home x)
      rw [hview]
      by_cases hxb : x = b
      · subst hxb; simp [Dev.modify]
      · simp only [Dev.modify, update_of_ne hxb]
        exact hdirty x (by rwa [← hpin_ne x hxb])
    · rw [heq]
      refine Log.mem_absorb.mpr ?_
      rcases List.mem_append.mp hw with hw | hw
      · exact .inl (htouched w hw)
      · rw [List.mem_singleton.mp hw]; exact .inr rfl

end

theorem Inv.evict (hb : s.grp.pins b = 0) : Inv start size { s with dev := s.dev.evict b } :=
  { h with
    commit := fun q => by
      have hq := h.commit q
      revert hq
      show DiskAt start size s (s.grp.pc q) → DiskAt start size _ (s.grp.pc q)
      cases s.grp.pc q <;> exact id
    recovery := by
      have hrec := h.recovery
      revert hrec
      show RecoveryAt start size s s.recovery → RecoveryAt start size _ s.recovery
      cases s.recovery <;> exact id
    cache := fun hp => by
      obtain ⟨hclean, hdirty, htouched⟩ := h.cache hp
      refine ⟨fun x hx => (hclean x hx).evict, fun x hx => ?_, htouched⟩
      have hxb : x ≠ b := by rintro rfl; exact hx hb
      exact (update_of_ne hxb _ _).trans (hdirty x hx) }

end

/-! ## Crash and recovery -/

theorem inv_of_booting (hg : s.grp = Group.boot start size) (ht : s.txn = [])
    (hroom : 0 < size) (hrec : s.RecoveryAt start size s.recovery)
    (hup : s.recovery = .up → Recoverable start size s.home s.dev.disk [] 0)
    (hclean : ∀ b, s.dev.Clean b) : Inv start size s where
  grp := by rw [hg]; exact Group.boot_inv start size
  area := by rw [hg]; exact ⟨rfl, rfl⟩
  room := by rw [hg]; exact hroom
  outside b hb := by rw [hg] at hb; cases hb
  idle hr _ := hup hr
  commit q := by rw [hg]; trivial
  recovery := hrec
  booting _ := ⟨hg, ht⟩
  cache _ := by
    refine ⟨fun b _ => hclean b, fun b hb => ?_, by simp [ht]⟩
    rw [hg] at hb
    exact absurd rfl hb

theorem Inv.crash (h : Inv start size s) : Inv start size (s.crash start size) :=
  inv_of_booting rfl rfl (Nat.lt_of_le_of_lt (Nat.zero_le _) h.room) h.recoverable
    (fun e => by cases e) fun _ => Dev.clean_reboot

theorem Inv.clean_of_booting (h : Inv start size s) (hr : s.recovery ≠ .up) (b : Nat) :
    s.dev.Clean b := by
  obtain ⟨hg, -⟩ := h.booting hr
  exact (h.cache (by rw [hg]; rfl)).clean b (by rw [hg]; rfl)

theorem Inv.recoverStep (h : Inv start size s) (hs : s.recoverStep start = some s') :
    Inv start size s' := by
  have hroom : 0 < size := Nat.lt_of_le_of_lt (Nat.zero_le _) h.room
  have hrec := h.recovery
  have hclean := h.clean_of_booting
  unfold Store.recoverStep at hs
  cases hr : s.recovery with
  | readHead =>
    obtain ⟨hg, ht⟩ := h.booting (by simp [hr])
    rw [hr] at hs hrec hclean
    obtain ⟨lst, t, hl⟩ := hrec
    have hread : (Xv6Freezer.readHead start s.dev).1 = lst := by
      show decodeHead (s.dev.read start) = lst
      rw [(hclean (by simp) start).read_eq, hl.head]
    cases hs
    refine inv_of_booting hg ht hroom ?_ (fun e => by cases e) fun b => (hclean (by simp) b).bread
    show Recoverable start size s.home s.dev.disk (Xv6Freezer.readHead start s.dev).1 0
    rw [hread]
    exact hl.restart
  | install lh tail =>
    obtain ⟨hg, ht⟩ := h.booting (by simp [hr])
    rw [hr] at hs hrec hclean
    simp only at hs
    cases hb : lh[tail]? with
    | none =>
      rw [hb] at hs
      cases hs
      have hlen := List.getElem?_eq_none_iff.mp hb
      refine inv_of_booting hg ht hroom ⟨lh, { hrec with rest := fun b hb _ => hrec.rest b hb ?_ }⟩
        (fun e => by cases e) (hclean (by simp))
      rw [List.drop_eq_nil_of_le hlen]
      exact List.not_mem_nil
    | some b =>
      rw [hb] at hs
      cases hs
      exact inv_of_booting hg ht hroom (hrec.installBlock hb (hclean (by simp) _))
        (fun e => by cases e) fun x => (hclean (by simp) x).installBlock
  | erase =>
    obtain ⟨hg, ht⟩ := h.booting (by simp [hr])
    rw [hr] at hs hrec hclean
    obtain ⟨lst, hl⟩ := hrec
    cases hs
    exact inv_of_booting hg ht hroom trivial (fun _ => hl.erase _) fun b =>
      (hclean (by simp) b).writeHead
  | up => rw [hr] at hs; cases hs

theorem step_inv {a : StoreAct} (h : Inv start size s) (hs : s.step start size a = some s') :
    Inv start size s' := by
  cases a with
  | op a v =>
    simp only [Store.step] at hs
    split at hs
    · rename_i hup
      obtain ⟨g, hgs, rfl⟩ := Option.map_eq_some_iff.mp hs
      have hg := Group.step_inv h.grp hgs
      obtain ⟨hpanic, ⟨p, rfl, hp, rfl⟩ | ⟨p, b, id, rfl, hp, rfl⟩ | ⟨p, id, rfl, hp, rfl⟩ |
        ⟨p, rfl, hc⟩⟩ := Group.step_cases hgs
      · exact h.beginOp hup.1 hp hg
      · exact h.logWrite hup.1 hp hup.2 hg hpanic
      · exact h.endOp hup.1 hp hg
      · exact h.commitStep hup.1 hpanic v hc
    · cases hs
  | evict b =>
    simp only [Store.step] at hs
    split at hs
    · rename_i hb
      cases hs
      exact h.evict hb
    · cases hs
  | crash =>
    cases hs
    exact h.crash
  | recover => exact h.recoverStep hs

theorem boot_inv {disk : Nat → Block} (hsize : 0 < size) (hdisk : disk start 0 = 0) :
    Inv start size (boot start size disk) := by
  refine inv_of_booting rfl rfl hsize ⟨[], 0, ?_⟩ (fun e => by cases e) fun b v hv => by cases hv
  exact
    { head := by
        show decodeHead (disk start) = []
        simp [decodeHead, hdisk]
      room := hsize
      outside := by simp
      copy := by simp
      rest := fun b _ _ => rfl }

theorem reachable_inv (hsize : 0 < size) (h : (journal start size).Reachable s) :
    Inv start size s := by
  refine h.invariant (fun t ht => ?_) fun t a t' hi _ hs => step_inv hi hs
  obtain ⟨disk, hdisk, rfl⟩ := ht
  exact boot_inv hsize hdisk

theorem run_install {lh bs : List Nat} (hr : s.recovery = .install lh tail)
    (hbs : lh.drop tail = bs) :
    (journal start size).RunIf (fun _ a => a = .recover) s
      { s with dev := Xv6Freezer.writeHead start [] (installTrans start tail bs s.dev),
               recovery := .up } := by
  induction bs generalizing s tail with
  | nil =>
    have hnone : lh[tail]? = none := by
      rw [List.getElem?_eq_none_iff]
      exact List.drop_eq_nil_iff.mp hbs
    have hend : (journal start size).step s .recover = some { s with recovery := .erase } := by
      simp [journal, Store.step, Store.recoverStep, hr, hnone]
    exact Lib.Lts.RunIf.head rfl hend (Lib.Lts.RunIf.head rfl rfl (Lib.Lts.RunIf.refl _))
  | cons b bs ih =>
    have hb : lh[tail]? = some b := by
      rw [← List.head?_drop, hbs]
      rfl
    have hstep : (journal start size).step s .recover =
        some { s with dev := Xv6Freezer.installBlock start tail b s.dev,
                      recovery := .install lh (tail + 1) } := by
      simp [journal, Store.step, Store.recoverStep, hr, hb]
    refine Lib.Lts.RunIf.head rfl hstep (ih rfl ?_)
    rw [← List.tail_drop, hbs]
    rfl

/-- **Recovery terminates**, with the disk and the cache that the function computes. -/
theorem run_recover (s : Store) :
    (journal start size).RunIf (fun _ a => a = .recover) (s.crash start size)
      { s.crash start size with dev := recoverFromLog start s.dev.reboot, recovery := .up } := by
  have hstep : (journal start size).step (s.crash start size) .recover =
      some { s.crash start size with
        dev := (Xv6Freezer.readHead start s.dev.reboot).2,
        recovery := .install (Xv6Freezer.readHead start s.dev.reboot).1 0 } := rfl
  exact Lib.Lts.RunIf.head rfl hstep (run_install rfl List.drop_zero)

theorem home_step {a : StoreAct} (hs : s.step start size a = some s') : s'.home = s.home ∨
    ∃ p v, a = .op (.commit p) v ∧ s.grp.pc p = .writeHead ∧ s'.home = s.view := by
  cases a with
  | op a v =>
    simp only [Store.step] at hs
    split at hs
    · obtain ⟨g, -, rfl⟩ := Option.map_eq_some_iff.mp hs
      cases a with
      | commit p =>
        cases hpc : s.grp.pc p with
        | writeHead => exact .inr ⟨p, v, rfl, hpc, by simp [effect, hpc, view]⟩
        | writeLog | install => left; simp only [effect, hpc]; split <;> rfl
        | _ => left; simp only [effect, hpc]
      | _ => exact .inl rfl
    · cases hs
  | evict b =>
    simp only [Store.step] at hs
    split at hs <;> cases hs
    exact .inl rfl
  | crash => cases hs; exact .inl rfl
  | recover =>
    left
    simp only [Store.step, Store.recoverStep] at hs
    split at hs
    · cases hs; rfl
    · split at hs <;> cases hs <;> rfl
    · cases hs; rfl
    · cases hs

/-- **Crash atomicity.** After a crash in any state, also inside `commit` and `recover_from_log`, recovery
ends and gives, outside the log area, the contents after the last transaction whose header was written; these
change only in the first `write_head` of a commit, by the writes of its transaction. -/
theorem crash_atomic (hsize : 0 < size) (h : (journal start size).Reachable s) :
    (∀ b, ¬ InLog start size b → (recoverFromLog start s.dev.reboot).disk b = s.home b) ∧
    (journal start size).RunIf (fun _ a => a = .recover) (s.crash start size)
      { s.crash start size with dev := recoverFromLog start s.dev.reboot, recovery := .up } ∧
    ∀ a s', s.step start size a = some s' → s'.home = s.home ∨
      ∃ p v, a = .op (.commit p) v ∧ s.grp.pc p = .writeHead ∧
        s'.home = replay s.txn s.home := by
  refine ⟨fun b hb => ?_, run_recover s, fun a s' hs => home_step hs⟩
  obtain ⟨lst, t, hl⟩ := (reachable_inv hsize h).recoverable
  have hl' : Recoverable start size s.home s.dev.reboot.disk lst t := hl
  exact (hl'.recoverFromLog fun _ => Dev.clean_reboot).rest b hb (by simp)

/-- One transaction that sets a word of block 40, up to the commit point. -/
def crashTrace : List StoreAct :=
  [.recover, .recover, .recover, .op (.beginOp 0) (fun _ => 0), .op (.logWrite 0 40) (fun _ => 7),
    .op (.endOp 0) (fun _ => 0), .op (.commit 0) (fun _ => 0), .op (.commit 0) (fun _ => 0),
    .op (.commit 0) (fun _ => 0), .op (.commit 0) (fun _ => 0)]

/-- A crash right after the commit point: block 40 is recovered from the log. -/
theorem crash_atomic_committed : ∃ s, (journal 2 nlog).Reachable s ∧ s.dev.disk 40 0 = 0 ∧
    (recoverFromLog 2 s.dev.reboot).disk 40 0 = 7 := by
  have hinit : (journal 2 nlog).init (boot 2 nlog fun _ _ => 0) := ⟨_, rfl, rfl⟩
  obtain ⟨s, hs, hp⟩ := Lib.Lts.reachable_of_execs crashTrace
    (fun s : Store => decide (s.dev.disk 40 0 = 0 ∧ s.home 40 0 = 7)) hinit (by decide)
  obtain ⟨hdisk, hhome⟩ := of_decide_eq_true hp
  refine ⟨s, hs, hdisk, ?_⟩
  rw [(crash_atomic (by decide) hs).1 40 (by decide), hhome]

end Store

end Xv6Freezer

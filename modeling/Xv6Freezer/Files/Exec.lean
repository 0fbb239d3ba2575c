import Xv6Freezer.Files.Tables

/-! # Process slots, and all operations together

What `fork`, `exit` and `wait` do to the slots of processes, and the two results about operations: every one
keeps the invariant (`exec_kept`), and none comes to a panic that exact reference counts exclude
(`exec_panic`).
-/

namespace Xv6Freezer.Files

open Lib Function

variable {P : Type} [DecidableEq P] {s s' : State P} {γ : P → Own P} {p q : P}

/-! ## Process slots -/

theorem comp_update₂_of_eq {β : Type} (π : Own P → β) (gq gp : Own P) (hpq : p ≠ q)
    (hq : π gq = π (γ q)) (hp : π gp = π (γ p)) :
    π ∘ update (update γ q gq) p gp = π ∘ γ := by
  rw [comp_update_of_eq π (update γ q gq) p (hp.trans (by rw [update_of_ne hpq])),
    comp_update_of_eq π γ q hq]

variable [Fintype P]

section

variable (hI : Inv s γ)

include hI

theorem Inv.slot {f : Proc → Proc} (hchild : (γ q).proc.stage ≠ .embryo)
    (hrest : (f (γ q).proc).stage ≠ .alive → ((γ q).setProc f).Idle)
    (hgone : (f (γ q).proc).stage = .unused ∨ (f (γ q).proc).stage = .zombie →
      (∀ fd, (f (γ q).proc).ofile fd = none) ∧ (f (γ q).proc).cwd = none) :
    Inv (s.setProc q f) (update γ q ((γ q).setProc f)) := by
  have hslots := hI.slots.set (p := q) (g := (γ q).setProc f) hchild rfl hrest hgone
  have hproc : (s.setProc q f).proc = update s.proc q ((γ q).setProc f).proc := by
    show update s.proc q (f (s.proc q)) = _
    rw [hI.slots.proc q]
    rfl
  exact ⟨by rw [hproc]; exact hslots, hI.irefs.frame rfl, hI.files.frame rfl rfl rfl,
    hI.pipes.frame rfl, hI.locks.frame rfl rfl rfl, hI.disk.frame rfl⟩

theorem Inv.setProc (ha : (γ p).proc.stage = .alive) {f : Proc → Proc}
    (hf : (f (γ p).proc).stage = .alive) :
    Inv (s.setProc p f) (update γ p ((γ p).setProc f)) := by
  refine hI.slot (by rw [ha]; exact nofun) (fun hc => absurd hf hc) fun hc => ?_
  rw [hf] at hc
  rcases hc with hc | hc <;> cases hc

theorem Inv.zombie (ha : (γ p).proc.stage = .alive)
    (hidle : ((γ p).setProc fun q => { q with stage := .zombie }).Idle)
    (hofile : ∀ fd, (γ p).proc.ofile fd = none) (hcwd : (γ p).proc.cwd = none) :
    Inv (s.setProc p fun q => { q with stage := .zombie })
      (update γ p ((γ p).setProc fun q => { q with stage := .zombie })) :=
  hI.slot (by rw [ha]; exact nofun) (fun _ => hidle) fun _ => ⟨hofile, hcwd⟩

theorem Inv.reap (hq : (s.proc q).stage = .zombie) :
    Inv (s.setProc q fun r => { r with stage := .unused })
      (update γ q ((γ q).setProc fun r => { r with stage := .unused })) ∧
      ((γ q).setProc fun r => { r with stage := .unused }).Idle := by
  rw [hI.slots.proc q] at hq
  have hidle := hI.slots.rest q (by rw [hq]; exact nofun)
  have hidle' : ((γ q).setProc fun r => { r with stage := .unused }).Idle :=
    ⟨hidle.irefs, hidle.frefs, hidle.ends, hidle.held, hidle.child, hidle.fds, nofun⟩
  exact ⟨hI.slot (by rw [hq]; exact nofun) (fun _ => hidle') fun _ => hI.slots.gone q (.inr hq), hidle'⟩

theorem Inv.family (hpq : p ≠ q) {gp gq : Own P} {f : Proc → Proc}
    (hproc : gq.proc = f (γ q).proc) (hslots : SlotInv (update s.proc q gq.proc)
      (update (update γ q gq) p gp))
    (hp : gp.irefs = (γ p).irefs ∧ gp.frefs = (γ p).frefs ∧ gp.new = (γ p).new ∧
      gp.seen = (γ p).seen ∧ gp.ends = (γ p).ends ∧ gp.held = (γ p).held)
    (hq : gq.irefs = (γ q).irefs ∧ gq.frefs = (γ q).frefs ∧ gq.new = (γ q).new ∧
      gq.seen = (γ q).seen ∧ gq.ends = (γ q).ends ∧ gq.held = (γ q).held) :
    Inv (s.setProc q f) (update (update γ q gq) p gp) := by
  obtain ⟨p1, p2, p3, p4, p5, p6⟩ := hp
  obtain ⟨q1, q2, q3, q4, q5, q6⟩ := hq
  have h1 := comp_update₂_of_eq Own.irefs _ _ hpq q1 p1
  have h2 := comp_update₂_of_eq Own.frefs _ _ hpq q2 p2
  have h3 := comp_update₂_of_eq Own.new _ _ hpq q3 p3
  have h4 := comp_update₂_of_eq Own.seen _ _ hpq q4 p4
  have h5 := comp_update₂_of_eq Own.ends _ _ hpq q5 p5
  have h6 := comp_update₂_of_eq Own.held _ _ hpq q6 p6
  have hs : (s.setProc q f).proc = update s.proc q gq.proc := by
    rw [hproc, ← hI.slots.proc q]
    rfl
  exact ⟨by rw [hs]; exact hslots, by rw [h1]; exact hI.irefs,
    by rw [h2, h3, h4]; exact hI.files, by rw [h5]; exact hI.pipes,
    by rw [h1, h2, h6]; exact hI.locks, by rw [h6]; exact hI.disk⟩

section

variable (ha : (γ p).proc.stage = .alive)

include ha

theorem Inv.allocproc (hq : (s.proc q).stage = .unused) :
    p ≠ q ∧ Inv (s.setProc q fun r => { r with stage := .embryo })
      (update (update γ q ((γ q).setProc fun r => { r with stage := .embryo })) p
        { γ p with child := some ⟨q, 0, false⟩ }) ∧
      ((γ q).setProc fun r => { r with stage := .embryo }).Idle := by
  rw [hI.slots.proc q] at hq
  have hpq : p ≠ q := by
    rintro rfl
    rw [ha] at hq
    cases hq
  have hidle := hI.slots.rest q (by rw [hq]; exact nofun)
  obtain ⟨hofile, hcwd⟩ := hI.slots.gone q (.inl hq)
  have hidle' : ((γ q).setProc fun r => { r with stage := .embryo }).Idle :=
    ⟨hidle.irefs, hidle.frefs, hidle.ends, hidle.held, hidle.child, hidle.fds, nofun⟩
  refine ⟨hpq, hI.family hpq rfl ?_ ⟨rfl, rfl, rfl, rfl, rfl, rfl⟩ ⟨rfl, rfl, rfl, rfl, rfl, rfl⟩, hidle'⟩
  refine hI.slots.family hpq ha rfl (fun r c _ hc => hI.slots.not_child (by rw [hq]; exact nofun) hc)
    rfl (fun _ => hidle') (fun h => ?_) fun c hc => ?_
  · rcases h with h | h <;> cases h
  · cases hc
    exact ⟨rfl, rfl, fun fd _ => hofile fd, iff_of_false nofun fun h => h hcwd⟩

omit [DecidableEq P] in
theorem Inv.child {c : Child P} (hc : (γ p).child = some c) :
    p ≠ c.slot ∧ (γ c.slot).proc.stage ≠ .alive ∧ (γ c.slot).Idle := by
  obtain ⟨hstage, -⟩ := hI.slots.child p c hc
  have hne : (γ c.slot).proc.stage ≠ .alive := by
    rw [hstage]
    exact nofun
  exact ⟨fun h => hne (h ▸ ha), hne, hI.slots.rest c.slot hne⟩

theorem Inv.childRun {c : Child P} (hc : (γ p).child = some c) (hcwd : c.cwd = true) :
    p ≠ c.slot ∧ Inv (s.setProc c.slot fun r => { r with stage := .alive })
      (update (update γ c.slot ((γ c.slot).setProc fun r => { r with stage := .alive })) p
        { γ p with child := none }) ∧
      ((γ c.slot).setProc fun r => { r with stage := .alive }).Idle ∧
      (γ c.slot).proc.stage ≠ .alive := by
  obtain ⟨hstage, -, hcwd'⟩ := hI.slots.child p c hc
  obtain ⟨hpq, hne, hidle⟩ := hI.child ha hc
  refine ⟨hpq, hI.family hpq rfl ?_ ⟨rfl, rfl, rfl, rfl, rfl, rfl⟩ ⟨rfl, rfl, rfl, rfl, rfl, rfl⟩,
    ⟨hidle.irefs, hidle.frefs, hidle.ends, hidle.held, hidle.child, hidle.fds, fun _ => hcwd'.mp hcwd⟩, hne⟩
  refine hI.slots.family hpq ha rfl (fun r d hr hd hslot => hr (hI.slots.parent r p d c hd hc hslot))
    rfl (fun h => absurd rfl h) (fun h => ?_) fun d hd => ?_
  · rcases h with h | h <;> cases h
  · cases hd

theorem Inv.child_slots {c : Child P} {f : Proc → Proc}
    {gp g : Own P} (hc : (γ p).child = some c) (hgp : gp.proc = (γ p).proc)
    (hg : g.proc = f (γ c.slot).proc) (hgc : g.child = (γ c.slot).child) (hidle : g.Idle)
    (hstage : g.proc.stage = .embryo)
    (hchild : ∀ d, gp.child = some d → d.slot = c.slot ∧ g.proc.stage = .embryo ∧
      (∀ fd, d.fds ≤ fd → g.proc.ofile fd = none) ∧ (d.cwd = true ↔ g.proc.cwd ≠ none)) :
    SlotInv (s.setProc c.slot f).proc (update (update γ c.slot g) p gp) := by
  rw [show (s.setProc c.slot f).proc = update s.proc c.slot g.proc by
    rw [State.setProc, hI.slots.proc c.slot, hg]]
  refine hI.slots.family (hI.child ha hc).1 ha hgp
    (fun r d hr hd hslot => hr (hI.slots.parent r p d c hd hc hslot)) hgc (fun _ => hidle) (fun h => ?_) hchild
  rw [hstage] at h
  rcases h with h | h <;> cases h

theorem Inv.childOfile {c : Child P} {fd f : Nat}
    (hc : (γ p).child = some c) (hfds : c.fds ≤ fd) (hfd : fd < NOFILE) (hf : f ∈ (γ p).frefs)
    (hheld : ∀ e, (γ p).held e = none) :
    ∃ g, p ≠ c.slot ∧ Inv (s.setProc c.slot fun r => { r with ofile := update r.ofile fd (some f) })
      (update (update γ c.slot g) p ((γ p).giveFile fd f)) ∧ g.Idle ∧
      (γ c.slot).proc.stage ≠ .alive := by
  obtain ⟨hstage, hofile, hcwd⟩ := hI.slots.child p c hc
  obtain ⟨hpq, hne, hidle⟩ := hI.child ha hc
  let g : Own P := { γ c.slot with
    proc := { (γ c.slot).proc with ofile := update (γ c.slot).proc.ofile fd (some f) }
    frefs := f ::ₘ (γ c.slot).frefs
    seen := update (γ c.slot).seen f none }
  have hrefs : g.frefs = g.proc.fileRefs := by
    have h := fileRefs_update (o := (γ c.slot).proc.ofile) (some f) hfd
    rw [hofile fd hfds] at h
    simp only [refsOf, Multiset.zero_add, Multiset.singleton_add] at h
    show f ::ₘ (γ c.slot).frefs = _
    rw [hidle.frefs]
    exact h.symm
  have hfds' : ∀ x, NOFILE ≤ x → g.proc.ofile x = none := fun x hx => by
    rw [show g.proc.ofile x = (γ c.slot).proc.ofile x from update_of_ne (by omega) _ _]
    exact hidle.fds x hx
  have hgidle : g.Idle := ⟨hidle.irefs, hrefs, hidle.ends, hidle.held, hidle.child,
    hfds', fun h => absurd h hne⟩
  refine ⟨g, hpq, ⟨?_, ?_, ?_, ?_, ?_, ?_⟩, hgidle, hne⟩
  · refine hI.child_slots ha hc rfl rfl rfl hgidle hstage fun d hd => ?_
    obtain rfl : d = { c with fds := fd + 1 } := by
      simp only [Own.giveFile, hc, Option.map_some, Option.some.injEq] at hd
      exact hd.symm
    refine ⟨rfl, hstage, fun x hx => ?_, hcwd⟩
    simp only at hx
    rw [show g.proc.ofile x = (γ c.slot).proc.ofile x from
      update_of_ne (by omega) _ _]
    exact hofile x (by omega)
  · rw [comp_update₂_of_eq Own.irefs g ((γ p).giveFile fd f) hpq rfl rfl]
    exact hI.irefs
  · simp only [comp_update]
    refine hI.files.move hpq hf (fun r x hx => ?_) fun r x X hX => ?_
    · by_cases hrp : r = p
      · subst hrp
        rw [update_self] at hx
        exact ⟨Finset.mem_of_mem_erase hx, fun _ => Finset.ne_of_mem_erase hx⟩
      · rw [update_of_ne hrp] at hx
        refine ⟨?_, fun h => absurd h hrp⟩
        by_cases hrq : r = c.slot
        · subst hrq
          rwa [update_self] at hx
        · rwa [update_of_ne hrq] at hx
    · by_cases hrp : r = p
      · subst hrp
        rw [update_self] at hX
        exact ⟨hX, fun h => absurd h hpq⟩
      · rw [update_of_ne hrp] at hX
        by_cases hrq : r = c.slot
        · subst hrq
          rw [update_self] at hX
          by_cases hxf : x = f
          · subst hxf
            simp [g] at hX
          · rw [show g.seen x = (γ c.slot).seen x from update_of_ne hxf _ _] at hX
            exact ⟨hX, fun _ => hxf⟩
        · rw [update_of_ne hrq] at hX
          exact ⟨hX, fun h => absurd h hrq⟩
  · rw [comp_update₂_of_eq Own.ends g ((γ p).giveFile fd f) hpq rfl rfl]
    exact hI.pipes
  · rw [comp_update₂_of_eq Own.irefs g ((γ p).giveFile fd f) hpq rfl rfl,
      comp_update₂_of_eq Own.held g ((γ p).giveFile fd f) hpq rfl rfl]
    refine hI.locks.refs fun r x k hk hv => hv.imp (fun _ => id) fun y _ hy hon => ⟨?_, hon⟩
    have hrp : r ≠ p := by
      rintro rfl
      rw [show (Own.held ∘ γ) r x = none from hheld x] at hk
      cases hk
    rw [comp_update, comp_update, update_of_ne hrp]
    exact mem_update_cons.mpr (.inr hy)
  · rw [comp_update₂_of_eq Own.held g ((γ p).giveFile fd f) hpq rfl rfl]
    exact hI.disk

theorem Inv.childCwd {c : Child P} {ip : Nat}
    (hc : (γ p).child = some c) (hnone : c.cwd = false) (hip : ip ∈ (γ p).irefs)
    (hheld : ∀ e, (γ p).held e = none) :
    ∃ g, p ≠ c.slot ∧ Inv (s.setProc c.slot fun r => { r with cwd := some ip })
      (update (update γ c.slot g) p ((γ p).giveCwd ip)) ∧ g.Idle ∧
      (γ c.slot).proc.stage ≠ .alive := by
  obtain ⟨hstage, hofile, hcwd⟩ := hI.slots.child p c hc
  obtain ⟨hpq, hne, hidle⟩ := hI.child ha hc
  have hcwd0 : (γ c.slot).proc.cwd = none := by
    by_contra h
    rw [hcwd.mpr h] at hnone
    cases hnone
  have hirefs0 : (γ c.slot).irefs = 0 := by
    rw [hidle.irefs, Proc.cwdRefs, hcwd0, refsOf]
  let g : Own P := { γ c.slot with
    proc := { (γ c.slot).proc with cwd := some ip }, irefs := ip ::ₘ (γ c.slot).irefs }
  have hgidle : g.Idle := ⟨by
    show ip ::ₘ (γ c.slot).irefs = _
    rw [hirefs0]
    rfl, hidle.frefs, hidle.ends, hidle.held, hidle.child, hidle.fds, fun h => absurd h hne⟩
  have hirefs : Own.irefs ∘ update (update γ c.slot g) p ((γ p).giveCwd ip) =
      update (update (Own.irefs ∘ γ) c.slot (ip ::ₘ (Own.irefs ∘ γ) c.slot)) p
        (((Own.irefs ∘ γ) p).erase ip) := by
    rw [comp_update, comp_update]
    rfl
  refine ⟨g, hpq, ⟨?_, ?_, ?_, ?_, ?_, ?_⟩, hgidle, hne⟩
  · refine hI.child_slots ha hc rfl rfl rfl hgidle hstage fun d hd => ?_
    obtain rfl : d = { c with cwd := true } := by
      simp only [Own.giveCwd, hc, Option.map_some, Option.some.injEq] at hd
      exact hd.symm
    exact ⟨rfl, hstage, hofile, iff_of_true rfl (by simp)⟩
  · rw [hirefs]
    intro e
    rw [total_move hpq hip]
    exact hI.irefs e
  · rw [comp_update₂_of_eq Own.frefs g ((γ p).giveCwd ip) hpq rfl rfl,
      comp_update₂_of_eq Own.new g ((γ p).giveCwd ip) hpq rfl rfl,
      comp_update₂_of_eq Own.seen g ((γ p).giveCwd ip) hpq rfl rfl]
    exact hI.files
  · rw [comp_update₂_of_eq Own.ends g ((γ p).giveCwd ip) hpq rfl rfl]
    exact hI.pipes
  · rw [comp_update₂_of_eq Own.frefs g ((γ p).giveCwd ip) hpq rfl rfl,
      comp_update₂_of_eq Own.held g ((γ p).giveCwd ip) hpq rfl rfl, hirefs]
    refine hI.locks.refs fun r x k hk hv => hv.imp (fun _ hx => ?_) fun y _ => And.intro
    have hrp : r ≠ p := by
      rintro rfl
      rw [show (Own.held ∘ γ) r x = none from hheld x] at hk
      cases hk
    rw [update_of_ne hrp]
    exact mem_update_cons.mpr (.inr hx)
  · rw [comp_update₂_of_eq Own.held g ((γ p).giveCwd ip) hpq rfl rfl]
    exact hI.disk

end

/-! ## All operations -/

omit [DecidableEq P] in
theorem Inv.nfree (n : Nat) : Inv { s with nfree := n } γ :=
  ⟨hI.slots, hI.irefs, hI.files, hI.pipes, hI.locks, hI.disk⟩

omit [DecidableEq P] in
theorem Inv.blocks_full {e : Nat} {h : Held} (hp : (γ p).held e = some h)
    (hc : h.Clean) : (s.blocks e).Full (s.inode e).d.size ∧ (s.inode e).d = h.d ∧
      s.ind (s.inode e).inum = h.ind ∧ s.slot (s.inode e).inum = h.slot := by
  obtain ⟨hd, hlive, -⟩ := (hI.disk.loaded p e h hp).2 hc.valid
  obtain ⟨-, hind, hslot⟩ := hlive (hc.disk ▸ hc.type)
  refine ⟨?_, hd, hind, hslot⟩
  have hf := hc.full
  rw [← hd, ← hind] at hf
  exact Blocks.Full.congr hf rfl rfl

end

omit [Fintype P] [DecidableEq P] in
theorem State.setBlocks_self (s : State P) (e : Nat) :
    s.setBlocks e (s.blocks e) (s.inode e).d.size = s := by
  simp only [State.setBlocks, State.blocks, State.setD, State.setEntry, update_eq_self]

omit [Fintype P] [DecidableEq P] in
theorem State.readDirent_full {e off : Nat} {x : Nat → Nat} (hfull : (s.blocks e).Full (s.inode e).d.size) :
    s.readDirent e off x = .done (if (s.inode e).d.size < off + DIRENT then none
      else some (s.slot (s.inode e).inum (off / DIRENT))) s := by
  unfold State.readDirent
  simp only
  by_cases hsize : (s.inode e).d.size < off + DIRENT
  · rw [if_pos hsize, if_pos hsize]
  · have hlt : off < (s.inode e).d.size := by
      unfold DIRENT at hsize
      omega
    have haddr := hfull.addr_ne (off / BSIZE) (Nat.lt_of_le_of_lt (blockStart_le off) hlt)
    rw [if_neg hsize, if_neg hsize,
      Blocks.bmap_of_addr haddr (block_lt_maxfile (Nat.lt_of_lt_of_le hlt hfull.size_le))]
    simp only [haddr, if_false, State.setBlocks_self]

section

variable (hI : Inv s γ)

include hI

theorem Inv.readDirent {e off : Nat} {x : Nat → Nat} {h : Held} {r : Option Dirent}
    (hp : (γ p).held e = some h) (hc : h.Clean) (hx : s.readDirent e off x = .done r s') :
    s' = s ∧ r = if h.d.size < off + DIRENT then none else some (h.slot (off / DIRENT)) := by
  obtain ⟨hfull, hd, -, hslot⟩ := hI.blocks_full hp hc
  rw [State.readDirent_full hfull, hd, hslot] at hx
  cases hx
  exact ⟨rfl, rfl⟩

theorem Inv.readi {e off n : Nat} {x : Nat → Nat} {h : Held} {r : Int}
    (hp : (γ p).held e = some h) (hc : h.Clean) (hx : s.readi x e off n = .done r s') : s' = s := by
  obtain ⟨hfull, -⟩ := hI.blocks_full hp hc
  unfold State.readi at hx
  simp only at hx
  split at hx
  · cases hx
    rfl
  · rename_i hoff
    have hle : off + ((if (s.inode e).d.size < off + n then (s.inode e).d.size - off else n) - 0) ≤
        (s.inode e).d.size := by
      split <;> omega
    obtain ⟨v, hv⟩ := readLoop_full (x := x)
      (k := (if (s.inode e).d.size < off + n then (s.inode e).d.size - off else n) + 1) hfull hle
    rw [hv] at hx
    simp only [State.setBlocks_self] at hx
    cases hx
    rfl

theorem Inv.writeDirent (ha : (γ p).proc.stage = .alive) {e off inum : Nat}
    {name : Name} {x : Nat → Nat} {h : Held} {r : Int} (hdvd : DIRENT ∣ off)
    (hp : (γ p).held e = some h) (hc : h.Clean)
    (hx : s.writeDirent e off inum name x = .done r s') :
    (r = -1 → s' = s) ∧
      (r ≠ -1 → ∃ h', h.Written h' ∧ Inv s' (update γ p ((γ p).hold e h'))) := by
  obtain ⟨hfull, hd, hind, hslot⟩ := hI.blocks_full hp hc
  unfold State.writeDirent at hx
  simp only at hx
  split at hx
  · cases hx
    exact ⟨fun _ => rfl, fun h => absurd rfl h⟩
  · rename_i hoff
    split at hx
    · cases hx
    · rename_i addr b hb
      obtain ⟨haddr, hgrow⟩ := Blocks.bmap_spec hb
      split at hx
      · cases hx
        refine ⟨fun h => absurd h (by decide), fun _ => ?_⟩
        refine ⟨{ h with d := { h.d with addrs := b.addrs, size := (s.inode e).d.size }
                         ind := b.ind, slot := s.slot (s.inode e).inum }, ⟨_, _, _, _, rfl, ?_⟩, ?_⟩
        · exact Blocks.Full.congr (hgrow.full hfull) rfl rfl
        · have hI' := hI.setBlocks ha b (s.inode e).d.size (s.slot (s.inode e).inum) hp hc
          rwa [update_eq_self] at hI'
      · rename_i haddr0
        cases hx
        refine ⟨fun h => absurd h (by decide), fun _ => ?_⟩
        refine ⟨_, ⟨_, _, _, _, rfl, ?_⟩, hI.setBlocks ha _ _ _ hp hc⟩
        obtain ⟨k, rfl⟩ := hdvd
        have hext := hfull.extend (m := DIRENT) hgrow (by rwa [haddr]) (by omega)
          (by unfold DIRENT BSIZE; omega) (by omega)
        exact Blocks.Full.congr hext rfl rfl

theorem Inv.writei (ha : (γ p).proc.stage = .alive) {e off n : Nat} {x : Nat → Nat}
    {h : Held} {r : Int} (hp : (γ p).held e = some h) (hc : h.Clean)
    (hx : s.writei x e off n = .done r s') :
    (r = -1 → s' = s) ∧
      (r ≠ -1 → ∃ h', h.Written h' ∧ Inv s' (update γ p ((γ p).hold e h'))) := by
  obtain ⟨hfull, hd, hind, hslot⟩ := hI.blocks_full hp hc
  unfold State.writei at hx
  simp only at hx
  split at hx
  · cases hx
    exact ⟨fun _ => rfl, fun h => absurd rfl h⟩
  · rename_i hoff
    split at hx
    · cases hx
    · rename_i tot off' b hb
      cases hx
      refine ⟨fun h => ?_, fun _ => ?_⟩
      · omega
      · have hmax : max (s.inode e).d.size off = (s.inode e).d.size := by omega
        have hf := writeLoop_full (hmax.symm ▸ hfull) (by omega) hb
        refine ⟨{ h with d := { h.d with addrs := b.addrs, size := max (s.inode e).d.size off' }
                         ind := b.ind, slot := s.slot (s.inode e).inum }, ⟨_, _, _, _, rfl, ?_⟩, ?_⟩
        · exact Blocks.Full.congr hf rfl rfl
        · have hI' := hI.setBlocks ha b (max (s.inode e).d.size off') (s.slot (s.inode e).inum) hp hc
          rwa [update_eq_self] at hI'

omit [DecidableEq P] in
theorem Inv.iallocTry {i : Nat} {t : FileType} {r : Bool} (ht : t ≠ .none)
    (hx : s.iallocTry i t = .done r s') : Inv s' γ := by
  unfold State.iallocTry at hx
  split at hx
  · rename_i h0
    cases hx
    exact ⟨hI.slots, hI.irefs, hI.files, hI.pipes, hI.locks, hI.disk.ialloc h0 ht⟩
  · cases hx
    exact hI

theorem Inv.iputTest (ha : (γ p).proc.stage = .alive) {e : Nat} {r : Bool} (he : e ∈ (γ p).irefs)
    (hown : ∀ h, (γ p).held e = some h → h.via = .own → e ∈ (γ p).irefs.erase e)
    (hx : s.iputTest p e = .done r s') :
    ∃ g, gives (.iputTest e) (γ p) r g ∧ Inv s' (update γ p g) := by
  unfold State.iputTest at hx
  simp only at hx
  split at hx
  · rename_i hlast
    split at hx
    · rename_i hlock
      cases hx
      obtain ⟨hI', hclean⟩ := hI.acquire ha (v := .own) hlock he (hI.ref_pos_of_mem he)
      exact ⟨_, ⟨fun _ => ⟨hI.lock_eq_none.mp hlock p, _, rfl, hclean hlast.2.1, rfl⟩, nofun⟩, hI'⟩
    · cases hx
  · cases hx
    exact ⟨_, ⟨nofun, fun _ => rfl⟩, hI.dropRef ha he hown⟩

theorem Inv.acquiresleep (ha : (γ p).proc.stage = .alive) {e : Nat}
    (he : (γ p).Refd e) (hlock : (s.inode e).lock = none) :
    ∃ g, gives (.acquiresleep e) (γ p) () g ∧ Inv (s.acquiresleep p e) (update γ p g) := by
  have hfree := hI.lock_eq_none.mp hlock p
  have href := hI.ref_pos_of_refd he
  by_cases hmem : e ∈ (γ p).irefs
  · obtain ⟨hI', hclean⟩ := hI.acquire ha (v := .own) hlock hmem href
    exact ⟨_, ⟨hfree, _, rfl, hclean, fun _ => rfl, fun _ => hmem⟩, hI'⟩
  · obtain ⟨f, F, hf, hF, hon⟩ := he.resolve_left hmem
    obtain ⟨ht, hip⟩ := hI.files.seen p f F hF hf
    have hon' : (s.file f).On e := ⟨by rw [ht]; exact hon.1, by rw [hip]; exact hon.2⟩
    obtain ⟨hI', hclean⟩ := hI.acquire ha (v := .file f) hlock ⟨hf, hon'⟩ href
    exact ⟨_, ⟨hfree, _, rfl, hclean, fun h => absurd h hmem, nofun⟩, hI'⟩

theorem Inv.fileclose (ha : (γ p).proc.stage = .alive) {f : Nat} {r : Option File}
    (hf : f ∈ (γ p).frefs) (hvia : ∀ e h, (γ p).held e = some h → h.via ≠ .file f)
    (hx : s.fileclose f = .done r s') : Inv s' (update γ p (((γ p).close f).take r)) := by
  unfold State.fileclose at hx
  split at hx
  · cases hx
  · split at hx
    · rename_i hmore
      cases hx
      exact hI.fileclose_more ha hf hvia hmore
    · cases hx
      exact hI.fileclose_last ha hf hvia (by omega)

/-- **Every operation keeps the invariant**, if its process is alive and has what it needs. -/
theorem exec_kept (ha : (γ p).proc.stage = .alive) {o : Op P} {e : Env P} {r : Res o}
    (hn : needs o (γ p)) (hx : exec p o e s = .done r s') : Kept p o γ r s' := by
  cases o with
  | panic msg => cases hx
  | myproc => cases hx; exact .self ⟨hI.slots.proc p, rfl⟩ hI
  | setOfile | setCwd => cases hx; exact .one rfl (hI.setProc ha ha)
  | iget dev inum => exact .one rfl (hI.iget ha hn hx)
  | idup ip => cases hx; exact .one rfl (hI.addRef ha (hI.ref_pos_of_mem hn))
  | ilockCheck ip =>
    simp only [exec] at hx
    split at hx <;> cases hx
    exact .self rfl hI
  | acquiresleep ip =>
    simp only [exec] at hx
    split at hx
    · rename_i hlock
      cases hx
      obtain ⟨g, hg, hI'⟩ := hI.acquiresleep ha hn hlock
      exact .one hg hI'
    · cases hx
  | getInode ip =>
    cases hx
    refine .self ⟨rfl, fun hip => hI.disk.dev ip (hI.ref_pos_of_mem hip), fun h hh => ?_⟩ hI
    obtain ⟨hv, hrest⟩ := hI.disk.loaded p ip h hh
    exact ⟨hv, fun hval => (hrest hval).1⟩
  | loadInode ip =>
    cases hx
    obtain ⟨h, hp, hv⟩ := hn
    obtain ⟨k, h1, h2, h3, h4, -, hI'⟩ := hI.load ha hp hv
    exact .one ⟨h, k, hp, rfl, h1, h2, h3, h4⟩ hI'
  | iunlock ip =>
    simp only [exec] at hx
    split at hx <;> cases hx
    obtain ⟨h, hp, hc⟩ := hn
    exact .one rfl (hI.release ha hp hc)
  | releasesleep ip =>
    cases hx
    obtain ⟨h, hp, hc⟩ := hn
    exact .one rfl (hI.release ha hp hc)
  | setInode ip f =>
    cases hx
    obtain ⟨h, hp, hv⟩ := hn
    exact .one ⟨h, hp, rfl⟩ (hI.setInode ha hp hv)
  | iupdate ip =>
    cases hx
    obtain ⟨h, hp, hv, ht⟩ := hn
    exact .one ⟨h, hp, rfl⟩ (hI.iupdate ha hp hv ht)
  | clearValid ip =>
    cases hx
    obtain ⟨h, hp, hv, ht⟩ := hn
    exact .one ⟨h, hp, rfl⟩ (hI.clearValid ha hp hv ht)
  | iputTest ip =>
    obtain ⟨g, hg, hI'⟩ := hI.iputTest ha hn.1 hn.2 hx
    exact .one hg hI'
  | iputDrop ip =>
    cases hx
    refine .one rfl (hI.dropRef ha hn.1 fun h hh => ?_)
    rw [hn.2] at hh
    cases hh
  | bfree => cases hx; exact .self rfl (hI.nfree _)
  | iallocTry inum type => exact .self rfl (hI.iallocTry hn hx)
  | readDirent ip off =>
    obtain ⟨h, hp, hc⟩ := hn
    obtain ⟨rfl, hr⟩ := hI.readDirent hp hc hx
    refine .self ⟨rfl, fun h' hh => ?_⟩ hI
    obtain rfl := Option.some.inj (hp.symm.trans hh)
    exact hr
  | writeDirent ip off inum name =>
    obtain ⟨hdvd, h, hp, hc⟩ := hn
    obtain ⟨h1, h2⟩ := hI.writeDirent ha hdvd hp hc hx
    by_cases hr : r = (-1 : Int)
    · obtain rfl := h1 hr
      exact .self ⟨fun _ => rfl, fun h => absurd hr h⟩ hI
    · obtain ⟨h', hw, hI'⟩ := h2 hr
      exact .one ⟨fun h => absurd h hr, fun _ => ⟨h, h', hp, rfl, hw⟩⟩ hI'
  | readi ip off n =>
    obtain ⟨h, hp, hc⟩ := hn
    obtain rfl := hI.readi hp hc hx
    exact .self rfl hI
  | writei ip off n =>
    obtain ⟨h, hp, hc⟩ := hn
    obtain ⟨h1, h2⟩ := hI.writei ha hp hc hx
    by_cases hr : r = (-1 : Int)
    · obtain rfl := h1 hr
      exact .self ⟨fun _ => rfl, fun h => absurd hr h⟩ hI
    · obtain ⟨h', hw, hI'⟩ := h2 hr
      exact .one ⟨fun h => absurd h hr, fun _ => ⟨h, h', hp, rfl, hw⟩⟩ hI'
  | filealloc =>
    cases r with
    | none =>
      have hs : s' = s := by
        simp only [exec, State.filealloc] at hx
        split at hx <;> cases hx
        rfl
      exact .self rfl (hs ▸ hI)
    | some f =>
      obtain ⟨hnot, hI'⟩ := hI.filealloc ha hx
      exact .one ⟨hnot, rfl⟩ hI'
  | filedup f =>
    simp only [exec, State.filedup] at hx
    split at hx <;> cases hx
    exact .one rfl (hI.filedup ha hn)
  | fileclose f => exact .one rfl (hI.fileclose ha hn.1 hn.2 hx)
  | getFile f =>
    cases hx
    exact .one ⟨fun hf F hF => hI.files.seen p f F hF hf, rfl⟩ (hI.look ha)
  | openInode f ip type readable writable major =>
    cases hx
    exact .one rfl (hI.openInode ha hn.1 hn.2.1 ⟨hn.2.2, rfl⟩ rfl)
  | openPipe f pi w =>
    cases hx
    exact .one rfl (hI.openPipe ha hn.1 hn.2 ⟨rfl, rfl, rfl⟩ rfl)
  | setOff f off => cases hx; exact .self rfl hI.setOff
  | newPipe =>
    simp only [exec, State.newPipe] at hx
    split at hx
    · rename_i h0
      cases hx
      exact .one rfl (hI.newPipe ha h0)
    · cases hx
      exact .self rfl hI
  | pipeclose pi w => cases hx; exact .one rfl (hI.pipeclose ha hn)
  | allocproc =>
    simp only [exec, State.allocproc] at hx
    split at hx
    · rename_i hq
      cases hx
      obtain ⟨hpq, hI', hidle⟩ := hI.allocproc ha hq.1
      refine .two rfl hI' ?_ hidle
      rw [← hI.slots.proc, hq.1]
      exact nofun
    · cases hx
      exact .self rfl hI
  | childOfile np fd f =>
    cases hx
    obtain ⟨hf, hheld, hfd, c, hc, rfl, hfds⟩ := hn
    obtain ⟨g, hpq, hI', hidle, hne⟩ := hI.childOfile ha hc hfds hfd hf hheld
    exact .two rfl hI' hne hidle
  | childCwd np ip =>
    cases hx
    obtain ⟨hip, hheld, c, hc, rfl, hcwd⟩ := hn
    obtain ⟨g, hpq, hI', hidle, hne⟩ := hI.childCwd ha hc hcwd hip hheld
    exact .two rfl hI' hne hidle
  | childRun np =>
    cases hx
    obtain ⟨c, hc, rfl, hcwd⟩ := hn
    obtain ⟨hpq, hI', hidle, hne⟩ := hI.childRun ha hc hcwd
    exact .two rfl hI' hne hidle
  | zombie =>
    cases hx
    exact .one rfl (hI.zombie ha hn.1 hn.2.1 hn.2.2)
  | reap =>
    cases hx
    unfold State.reap
    split
    · rename_i hq
      obtain ⟨hI', hidle⟩ := hI.reap hq
      have hqp : e.q ≠ p := by
        intro h
        rw [hI.slots.proc, h, ha] at hq
        cases hq
      refine ⟨_, ?_, hI', fun r hr => ?_⟩
      · rw [update_of_ne hqp.symm]
        rfl
      · by_cases hrq : r = e.q
        · subst hrq
          rw [update_self]
          refine .inr ⟨?_, hidle⟩
          rw [← hI.slots.proc, hq]
          exact nofun
        · exact .inl (update_of_ne hrq _ _)
    · exact .self rfl hI
  | _ => cases hx; exact .self rfl hI

theorem exec_panic {o : Op P} {e : Env P} {msg : String} (hn : needs o (γ p))
    (hx : exec p o e s = .panic msg) : msg ∉ refPanics := by
  cases o with
  | panic m =>
    cases hx
    exact hn
  | ilockCheck ip =>
    have := hI.ref_pos_of_refd hn
    simp only [exec] at hx
    split at hx
    · omega
    · cases hx
  | iunlock ip =>
    obtain ⟨h, hp, -⟩ := hn
    have href := hI.ref_pos_of_held hp
    have hlock := (hI.locks.lock ip p).mpr ⟨h, hp⟩
    simp only [exec] at hx
    split at hx
    · rename_i hbad
      rcases hbad with hbad | hbad
      · exact absurd hlock hbad
      · omega
    · cases hx
  | iputTest ip =>
    simp only [exec, State.iputTest] at hx
    split at hx
    · rename_i hlast
      split at hx
      · cases hx
      · rename_i hlock
        obtain ⟨q, hq⟩ := Option.ne_none_iff_exists'.mp hlock
        obtain ⟨h, hh⟩ := (hI.locks.lock ip q).mp hq
        have := hI.one_lt_ref hn.1 hh fun hqp => by
          subst hqp
          exact hn.2 h hh
        omega
    · cases hx
  | filedup f =>
    have := hI.files.ref_pos (p := p) hn
    simp only [exec, State.filedup] at hx
    split at hx
    · omega
    · cases hx
  | fileclose f =>
    have := hI.files.ref_pos (p := p) hn.1
    simp only [exec, State.fileclose] at hx
    split at hx
    · omega
    · split at hx <;> cases hx
  | iget | readDirent | writeDirent | readi | writei =>
    -- these panic for other reasons: no inodes, or a block out of range
    simp only [exec, State.iget, State.readDirent, State.writeDirent, State.readi, State.writei] at hx
    (repeat' split at hx) <;> cases hx <;> decide
  | acquiresleep | iallocTry | filealloc | newPipe | allocproc =>
    simp only [exec, State.iallocTry, State.filealloc, State.newPipe, State.allocproc] at hx
    (repeat' split at hx) <;> cases hx
  | _ => cases hx

end

end Xv6Freezer.Files

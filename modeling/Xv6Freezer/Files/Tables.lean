import Xv6Freezer.Files.Step

/-! # The file table, pipes and process slots

The rest of the operations: `file.c` and `pipe.c` under their spinlocks, and what `fork`, `exit` and
`wait` do to the slots of processes. -/

namespace Xv6Freezer.Files

open Lib
open Function (update update_self update_of_ne update_eq_self comp_update comp_apply)

variable {P : Type} [Fintype P] [DecidableEq P] {s s' : State P} {γ : P → Own P} {p q : P} {f : Nat}

/-! ## Files -/

section Locks

variable {lock : Nat → Option P} {file : Nat → File} {irefs frefs frefs' : P → Multiset Nat}
  {held : P → Nat → Option Held} {F : File}

omit [Fintype P] [DecidableEq P] in
theorem LockInv.same (h : LockInv lock file irefs frefs held) (hF : (file f).Same F)
    (hfrefs : ∀ q e k, held q e = some k → ∀ g, k.via = .file g → g ∈ frefs q → g ∈ frefs' q) :
    LockInv lock (update file f F) irefs frefs' held := by
  refine h.refs fun q x k hk hv => hv.imp (fun _ => id) fun g hvia hg hon =>
    ⟨hfrefs q x k hk g hvia hg, ?_⟩
  by_cases hgf : g = f
  · subst hgf
    rwa [update_self, hF.on]
  · rwa [update_of_ne hgf]

end Locks

omit [Fintype P] in
theorem mem_comp_update_cons {g : Own P} (hg : g.frefs = f ::ₘ (γ p).frefs) {x : Nat}
    (hx : x ∈ (Own.frefs ∘ γ) q) : x ∈ (Own.frefs ∘ update γ p g) q := by
  rw [comp_update, hg]
  exact mem_update_cons.mpr (.inr hx)

theorem Inv.filealloc (hI : Inv s γ) (ha : (γ p).proc.stage = .alive)
    (h : s.filealloc = .done (some f) s') :
    f ∉ (γ p).frefs ∧ Inv s' (update γ p ((γ p).alloc f)) := by
  unfold State.filealloc at h
  split at h
  · rename_i f' hf
    cases h
    have h0 := List.find?_some hf
    simp only [decide_eq_true_eq] at h0
    have hlt := List.mem_range.mp (List.mem_of_find?_eq_some hf)
    have hsame : (s.file f).Same { s.file f with ref := 1 } := ⟨rfl, rfl, rfl, rfl⟩
    refine ⟨fun hmem => ?_, hI.slots.frame ha rfl rfl, IrefInv.frame (hI.irefs.same hsame.on) rfl, ?_,
      PipeInv.frame (hI.pipes.same hsame.end) rfl, ?_, hI.disk.frame rfl⟩
    · have := hI.files.ref_pos (p := p) hmem
      omega
    · simp only [comp_update]
      exact hI.files.alloc h0 hlt
    · rw [comp_update_of_eq Own.irefs γ p (a := (γ p).alloc f) rfl,
        comp_update_of_eq Own.held γ p (a := (γ p).alloc f) rfl]
      exact hI.locks.same hsame fun q e k _ g _ hg => mem_comp_update_cons rfl hg
  · cases h

theorem Inv.filedup (hI : Inv s γ) (ha : (γ p).proc.stage = .alive) (hp : f ∈ (γ p).frefs) :
    Inv (s.setFile f fun f => { f with ref := f.ref + 1 }) (update γ p ((γ p).dup f)) := by
  have hsame : (s.file f).Same { s.file f with ref := (s.file f).ref + 1 } := ⟨rfl, rfl, rfl, rfl⟩
  refine ⟨hI.slots.frame ha rfl rfl, IrefInv.frame (hI.irefs.same hsame.on) rfl, ?_,
    PipeInv.frame (hI.pipes.same hsame.end) rfl, ?_, hI.disk.frame rfl⟩
  · rw [comp_update_of_eq Own.seen γ p (a := (γ p).dup f) rfl]
    simp only [comp_update]
    exact hI.files.dup hp
  · rw [comp_update_of_eq Own.irefs γ p (a := (γ p).dup f) rfl,
      comp_update_of_eq Own.held γ p (a := (γ p).dup f) rfl]
    exact hI.locks.same hsame fun q e k _ g _ hg => mem_comp_update_cons rfl hg

omit [DecidableEq P] in
theorem Inv.setOff (hI : Inv s γ) {off : Nat} :
    Inv (s.setFile f fun f => { f with off := off }) γ := by
  have hsame : (s.file f).Same { s.file f with off := off } := ⟨rfl, rfl, rfl, rfl⟩
  exact ⟨hI.slots, hI.irefs.same hsame.on, hI.files.same rfl hsame, hI.pipes.same hsame.end,
    hI.locks.same hsame fun q e k _ g _ hg => hg, hI.disk⟩

theorem Inv.look (hI : Inv s γ) (ha : (γ p).proc.stage = .alive) :
    Inv s (update γ p ((γ p).look f (s.file f))) := by
  refine ⟨hI.slots.frame ha rfl rfl, hI.irefs.frame rfl, ?_, hI.pipes.frame rfl,
    hI.locks.frame rfl rfl rfl, hI.disk.frame rfl⟩
  rw [comp_update_of_eq Own.frefs γ p (a := (γ p).look f (s.file f)) rfl,
    comp_update_of_eq Own.new γ p (a := (γ p).look f (s.file f)) rfl, comp_update]
  exact hI.files.look

omit [Fintype P] in
theorem mem_comp_update_erase {g : Own P} (hg : g.frefs = (γ p).frefs.erase f) {x : Nat}
    (hx : x ∈ (Own.frefs ∘ γ) q) (hne : q = p → x ≠ f) : x ∈ (Own.frefs ∘ update γ p g) q := by
  rw [comp_update, hg]
  exact mem_update_erase hne hx

theorem Inv.fileclose_more (hI : Inv s γ) (ha : (γ p).proc.stage = .alive) (hp : f ∈ (γ p).frefs)
    (hvia : ∀ e h, (γ p).held e = some h → h.via ≠ .file f) (hmore : 0 < (s.file f).ref - 1) :
    Inv (s.setFile f fun f => { f with ref := f.ref - 1 }) (update γ p ((γ p).close f)) := by
  have hsame : (s.file f).Same { s.file f with ref := (s.file f).ref - 1 } := ⟨rfl, rfl, rfl, rfl⟩
  refine ⟨hI.slots.frame ha rfl rfl, IrefInv.frame (hI.irefs.same hsame.on) rfl, ?_,
    PipeInv.frame (hI.pipes.same hsame.end) rfl, ?_, hI.disk.frame rfl⟩
  · rw [comp_update_of_eq Own.seen γ p (a := (γ p).close f) rfl]
    simp only [comp_update]
    refine hI.files.close hp rfl (fun h0 => ?_) fun _ => ⟨rfl, rfl⟩
    simp only at h0
    omega
  · rw [comp_update_of_eq Own.irefs γ p (a := (γ p).close f) rfl,
      comp_update_of_eq Own.held γ p (a := (γ p).close f) rfl]
    refine hI.locks.same hsame fun q e k hk g hg hmem => mem_comp_update_erase rfl hmem ?_
    rintro rfl rfl
    exact hvia e k hk hg

omit [Fintype P] [DecidableEq P] in
theorem Own.take_frame (g : Own P) (r : Option File) :
    (g.take r).proc = g.proc ∧ (g.take r).frefs = g.frefs ∧ (g.take r).new = g.new ∧
      (g.take r).seen = g.seen ∧ (g.take r).held = g.held ∧ (g.take r).child = g.child := by
  cases r with
  | none => exact ⟨rfl, rfl, rfl, rfl, rfl, rfl⟩
  | some F =>
    unfold Own.take
    simp only
    split
    · exact ⟨rfl, rfl, rfl, rfl, rfl, rfl⟩
    · split <;> exact ⟨rfl, rfl, rfl, rfl, rfl, rfl⟩

omit [Fintype P] [DecidableEq P] in
theorem Own.mem_take_irefs {g : Own P} {r : Option File} {e : Nat} (h : e ∈ g.irefs) :
    e ∈ (g.take r).irefs := by
  cases r with
  | none => exact h
  | some F =>
    unfold Own.take
    simp only
    split
    · exact h
    · split
      · exact Multiset.mem_cons_of_mem h
      · exact h

section

variable (hI : Inv s γ) (ha : (γ p).proc.stage = .alive)

include hI ha

theorem Inv.fileclose_last (hp : f ∈ (γ p).frefs)
    (hvia : ∀ e h, (γ p).held e = some h → h.via ≠ .file f) (hlast : (s.file f).ref = 1) :
    Inv (s.setFile f fun f => { f with ref := 0, type := .none })
      (update γ p (((γ p).close f).take (some (s.file f)))) := by
  have hlt : f < NFILE := hI.files.bound f (by omega)
  obtain ⟨h1, h2, h3, h4, h5, h6⟩ := Own.take_frame ((γ p).close f) (some (s.file f))
  have hnone : ({ s.file f with ref := 0, type := .none } : File).type = .none := rfl
  have hnoOn : ∀ e, ¬ ({ s.file f with ref := 0, type := .none } : File).On e :=
    fun e hon => hon.type_ne hnone
  have hnoEnd : ∀ pi w, ¬ ({ s.file f with ref := 0, type := .none } : File).End pi w :=
    fun pi w hend => by
      rw [hend.1] at hnone
      cases hnone
  refine ⟨hI.slots.frame ha h1 h6, ?_, ?_, ?_, ?_, hI.disk.frame h5⟩
  · rw [comp_update]
    by_cases hon : (s.file f).type = .inode ∨ (s.file f).type = .device
    · have htake : ((γ p).close f).take (some (s.file f)) = ((γ p).close f).ref (s.file f).ip := by
        have hpipe : (s.file f).type ≠ .pipe := by
          rcases hon with hon | hon <;> rw [hon] <;> exact nofun
        simp [Own.take, hpipe, hon]
      rw [htake]
      exact hI.irefs.unfill hlt ⟨hon, rfl⟩ rfl
    · have htake : (((γ p).close f).take (some (s.file f))).irefs = (γ p).irefs := by
        unfold Own.take
        simp only [if_neg hon]
        split <;> rfl
      rw [htake, ← comp_apply (f := Own.irefs) (g := γ), update_eq_self]
      exact hI.irefs.same fun e => iff_of_false (hnoOn e) fun h => hon h.1
  · rw [comp_update_of_eq Own.seen γ p (h4.trans rfl)]
    simp only [comp_update, h2, h3]
    refine hI.files.close hp ?_ (fun _ => rfl) fun h0 => absurd h0 (lt_irrefl 0)
    rw [hlast]
    rfl
  · rw [comp_update]
    by_cases hpipe : (s.file f).type = .pipe
    · have htake : (((γ p).close f).take (some (s.file f))).ends =
          ((s.file f).pipe, (s.file f).writable) ::ₘ (γ p).ends := by
        simp [Own.take, hpipe, Own.close]
      rw [htake]
      exact hI.pipes.unfill hlt ⟨hpipe, rfl, rfl⟩ rfl
    · have htake : (((γ p).close f).take (some (s.file f))).ends = (γ p).ends := by
        unfold Own.take
        simp only [if_neg hpipe]
        split <;> rfl
      rw [htake, ← comp_apply (f := Own.ends) (g := γ), update_eq_self]
      exact hI.pipes.same fun pi w => iff_of_false (hnoEnd pi w) fun h => hpipe h.1
  · rw [comp_update_of_eq Own.held γ p (h5.trans rfl)]
    refine hI.locks.refs fun q x k hk hv => hv.imp (fun _ hx => ?_) fun g hg hmem hon => ?_
    · by_cases hq : q = p
      · subst hq
        simp only [comp_apply, update_self]
        exact Own.mem_take_irefs hx
      · simpa only [comp_apply, update_of_ne hq] using hx
    · -- nobody else refers to the file
      have hgf : g ≠ f := by
        rintro rfl
        by_cases hq : q = p
        · subst hq
          exact hvia x k hk hg
        · have h2' := two_le_total (m := Own.frefs ∘ γ) hq hmem hp
          have href := hI.files.ref g
          omega
      refine ⟨mem_comp_update_erase h2 hmem fun _ => hgf, ?_⟩
      rw [show (s.setFile f fun f => { f with ref := 0, type := .none }).file g = s.file g from
        update_of_ne hgf _ _]
      exact hon

theorem Inv.openInode {ip : Nat} {F : File}
    (hnew : f ∈ (γ p).new) (hip : ip ∈ (γ p).irefs) (hF : F.On ip) (href : F.ref = (s.file f).ref) :
    Inv (s.setFile f fun _ => F) (update γ p ((γ p).fillInode f ip)) := by
  obtain ⟨hmem, hone, htype⟩ := hI.files.new p f hnew
  have hlt : f < NFILE := hI.files.bound f (by omega)
  have hnoOn : ∀ e, ¬ (s.file f).On e := fun e hon => hon.type_ne htype
  refine ⟨hI.slots.frame ha rfl rfl, ?_, ?_, ?_, ?_, ?_⟩
  · rw [comp_update]
    exact hI.irefs.fill hlt hip htype hF
  · rw [comp_update_of_eq Own.frefs γ p (a := (γ p).fillInode f ip) rfl]
    simp only [comp_update]
    exact hI.files.fill hnew href
  · refine PipeInv.frame (hI.pipes.same fun pi w => iff_of_false (fun hend => ?_) fun hend => ?_) rfl
    · rcases hF.1 with h | h <;> rw [hend.1] at h <;> cases h
    · rw [hend.1] at htype
      cases htype
  · rw [comp_update_of_eq Own.frefs γ p (a := (γ p).fillInode f ip) rfl]
    have hother : ∀ q x k, (γ q).held x = some k → (q = p → x ≠ ip) →
        k.via.Holds (s.setFile f fun _ => F).file ((Own.irefs ∘ update γ p ((γ p).fillInode f ip)) q)
          ((Own.frefs ∘ γ) q) x := by
      intro q x k hk hne
      refine (hI.locks.via q x k hk).imp (fun _ hx => ?_) fun g _ hg hon => ⟨hg, ?_⟩
      · rw [comp_update]
        exact mem_update_erase hne hx
      · have hgf : g ≠ f := by
          rintro rfl
          exact hnoOn x hon
        rw [show (s.setFile f fun _ => F).file g = s.file g from update_of_ne hgf _ _]
        exact hon
    constructor
    · intro x q
      have hlock := hI.locks.lock x q
      by_cases hq : q = p
      · subst hq
        by_cases hx : x = ip
        · subst hx
          simpa [Own.fillInode, State.setFile] using hlock
        · simpa [Own.fillInode, State.setFile, update_of_ne hx] using hlock
      · simpa [State.setFile, update_of_ne hq] using hlock
    · intro q x k hk
      by_cases hq : q = p
      · subst hq
        by_cases hx : x = ip
        · subst hx
          simp only [comp_apply, update_self, Own.fillInode,
            Option.map_eq_some_iff] at hk
          obtain ⟨h', -, rfl⟩ := hk
          refine ⟨hmem, ?_⟩
          rw [show (s.setFile f fun _ => F).file f = F from update_self ..]
          exact hF
        · simp only [comp_apply, update_self, Own.fillInode,
            update_of_ne hx] at hk
          exact hother q x k hk fun _ => hx
      · simp only [comp_apply, update_of_ne hq] at hk
        exact hother q x k hk fun h => absurd h hq
  · -- only the reason for holding the lock changes
    rw [comp_update]
    cases hk : (γ p).held ip with
    | none =>
      have hsame : ((γ p).fillInode f ip).held = (γ p).held := by
        simp only [Own.fillInode, hk, Option.map_none]
        rw [← hk, update_eq_self]
      rw [hsame, ← comp_apply (f := Own.held) (g := γ), update_eq_self]
      exact hI.disk
    | some k =>
      obtain ⟨hval, hrest⟩ := hI.disk.loaded p ip k hk
      have hD := hI.disk.change (k := { k with via := .file f }) (i := s.inode ip)
        (u := s.unread (s.inode ip).inum) (fun q x k' hk' => hI.ref_pos_of_held hk') hk
        (hI.onlyHolder hk) ⟨rfl, rfl, rfl⟩ hval hrest (fun hv hn => ?_) fun t ht => ?_
      · simp only [update_eq_self] at hD
        simp only [Own.fillInode, hk, Option.map_some]
        exact hD
      · refine hI.disk.disk _ hn fun x hx hxi => ?_
        rw [hI.disk.uniq x ip hx (hI.ref_pos_of_held hk) hxi, hval]
        exact hv
      · obtain ⟨h1, h2, h3⟩ := hI.disk.fresh _ t ht
        refine ⟨h1, h2, fun hv => ?_⟩
        obtain ⟨q, k', hk', hn⟩ := h3 ip (hI.ref_pos_of_held hk) rfl (hval.trans hv)
        obtain rfl := hI.held_uniq hk' hk
        obtain rfl := Option.some.inj (hk.symm.trans hk')
        exact hn

theorem Inv.openPipe {pi : Nat} {w : Bool} {F : File}
    (hnew : f ∈ (γ p).new) (hend : (pi, w) ∈ (γ p).ends) (hF : F.End pi w)
    (href : F.ref = (s.file f).ref) :
    Inv (s.setFile f fun _ => F) (update γ p (((γ p).fill f).dropEnd pi w)) := by
  obtain ⟨hmem, hone, htype⟩ := hI.files.new p f hnew
  have hlt : f < NFILE := hI.files.bound f (by omega)
  have hnoOn : ∀ e, ¬ (s.file f).On e := fun e hon => hon.type_ne htype
  refine ⟨hI.slots.frame ha rfl rfl, ?_, ?_, ?_, ?_, hI.disk.frame rfl⟩
  · refine IrefInv.frame (hI.irefs.same fun e => iff_of_false (fun hon => ?_) (hnoOn e)) rfl
    rcases hon.1 with h | h <;> rw [hF.1] at h <;> cases h
  · rw [comp_update_of_eq Own.frefs γ p (a := ((γ p).fill f).dropEnd pi w) rfl]
    simp only [comp_update]
    exact hI.files.fill hnew href
  · rw [comp_update]
    exact hI.pipes.fill hlt hend htype hF
  · refine LockInv.frame (hI.locks.refs fun q x k _ hv => hv.imp (fun _ => id) fun g _ hg hon => ?_)
      rfl rfl rfl
    have hgf : g ≠ f := by
      rintro rfl
      exact hnoOn x hon
    refine ⟨hg, ?_⟩
    rw [show (s.setFile f fun _ => F).file g = s.file g from update_of_ne hgf _ _]
    exact hon

theorem Inv.newPipe {pi : Nat} (h0 : (s.pipe pi).allocs = (s.pipe pi).frees) :
    Inv (s.setPipe pi fun g =>
      { g with readopen := true, writeopen := true, allocs := g.allocs + 1 })
      (update γ p { γ p with ends := (pi, false) ::ₘ (pi, true) ::ₘ (γ p).ends }) := by
  refine ⟨hI.slots.frame ha rfl rfl, hI.irefs.frame rfl, hI.files.frame rfl rfl rfl, ?_,
    hI.locks.frame rfl rfl rfl, hI.disk.frame rfl⟩
  rw [comp_update]
  exact hI.pipes.alloc h0

theorem Inv.pipeclose {pi : Nat} {w : Bool} (hend : (pi, w) ∈ (γ p).ends) :
    Inv (s.pipeclose pi w) (update γ p ((γ p).dropEnd pi w)) := by
  refine ⟨hI.slots.frame ha rfl rfl, hI.irefs.frame rfl, hI.files.frame rfl rfl rfl, ?_,
    hI.locks.frame rfl rfl rfl, hI.disk.frame rfl⟩
  rw [comp_update]
  exact hI.pipes.close hend

end

end Xv6Freezer.Files

import Xv6Freezer.Files.Disk
import Xv6Freezer.Files.Refs

/-! # Every operation keeps the invariant

An operation that a process executes with what it `needs` keeps the invariant, with the record that it
`gives` (`exec_kept`). -/

namespace Xv6Freezer.Files

open Lib Function

variable {P : Type} [Fintype P] [DecidableEq P] {s s' : State P} {γ : P → Own P} {p : P}

/-- The invariant holds again with a record that the operation gives. -/
def Kept (p : P) (o : Op P) (γ : P → Own P) (r : Res o) (s' : State P) : Prop :=
  ∃ γ', gives o (γ p) r (γ' p) ∧ Inv s' γ' ∧
    ∀ q, q ≠ p → γ' q = γ q ∨ (γ q).proc.stage ≠ .alive ∧ (γ' q).Idle

theorem Kept.one {o : Op P} {r : Res o} {g : Own P} (hg : gives o (γ p) r g)
    (hI : Inv s' (update γ p g)) : Kept p o γ r s' :=
  ⟨update γ p g, by rwa [update_self], hI, fun _ hq => .inl (update_of_ne hq _ _)⟩

/-- The process and another one, which is not alive. -/
theorem Kept.two {o : Op P} {r : Res o} {g g' : Own P} (hg : gives o (γ p) r g')
    (hI : Inv s' (update (update γ q g) p g')) (hne : (γ q).proc.stage ≠ .alive) (hidle : g.Idle) :
    Kept p o γ r s' := by
  refine ⟨_, by rwa [update_self], hI, fun r hr => ?_⟩
  rw [update_of_ne hr]
  by_cases hrq : r = q
  · rw [hrq, update_self]
    exact .inr ⟨hne, hidle⟩
  · exact .inl (update_of_ne hrq _ _)

omit [DecidableEq P] in
theorem Kept.self {o : Op P} {r : Res o} (hg : gives o (γ p) r (γ p)) (hI : Inv s' γ) :
    Kept p o γ r s' :=
  ⟨γ, hg, hI, fun _ _ => .inl rfl⟩

omit [Fintype P] [DecidableEq P] in
theorem comp_setEntry {β : Type} (π : Inode P → β) (e : Nat) (f : Inode P → Inode P) :
    π ∘ (s.setEntry e f).inode = update (π ∘ s.inode) e (π (f (s.inode e))) :=
  comp_update ..

omit [Fintype P] [DecidableEq P] in
theorem Via.Holds.imp {file file' : Nat → File} {m m' n n' : Multiset Nat} {e : Nat} {v : Via}
    (h : v.Holds file m n e) (hm : v = .own → e ∈ m → e ∈ m')
    (hn : ∀ f, v = .file f → f ∈ n → (file f).On e → f ∈ n' ∧ (file' f).On e) :
    v.Holds file' m' n' e := by
  cases v with
  | own => exact hm rfl h
  | file f => exact hn f rfl h.1 h.2

/-! ## References to inodes -/

omit [Fintype P] in
theorem LockInv.ref {lock : Nat → Option P} {file : Nat → File} {e : Nat}
    (h : LockInv lock file (Own.irefs ∘ γ) (Own.frefs ∘ γ) (Own.held ∘ γ)) :
    LockInv lock file (Own.irefs ∘ update γ p ((γ p).ref e))
      (Own.frefs ∘ update γ p ((γ p).ref e)) (Own.held ∘ update γ p ((γ p).ref e)) := by
  rw [comp_update_of_eq Own.frefs γ p (a := (γ p).ref e) rfl,
    comp_update_of_eq Own.held γ p (a := (γ p).ref e) rfl]
  refine h.refs fun q x k _ hv => hv.imp (fun _ hx => ?_) fun _ _ => And.intro
  by_cases hq : q = p
  · subst hq
    simp only [comp_apply, update_self]
    exact Multiset.mem_cons_of_mem hx
  · simpa only [comp_apply, update_of_ne hq] using hx

theorem Inv.addRef (hI : Inv s γ) (ha : (γ p).proc.stage = .alive) {e : Nat}
    (he : 0 < (s.inode e).ref) :
    Inv (s.setEntry e fun i => { i with ref := i.ref + 1 }) (update γ p ((γ p).ref e)) where
  slots := hI.slots.frame ha rfl rfl
  irefs := by
    rw [comp_setEntry, comp_update]
    exact hI.irefs.add
  files := hI.files.frame rfl rfl rfl
  pipes := hI.pipes.frame rfl
  locks := by
    rw [show Inode.lock ∘ (s.setEntry e fun i => { i with ref := i.ref + 1 }).inode =
      Inode.lock ∘ s.inode from comp_update_of_eq _ _ _ rfl]
    exact hI.locks.ref
  disk := by
    refine DiskInv.frame (hI.disk.entry ⟨rfl, rfl, rfl, rfl⟩ (fun _ => he) fun _ h => ?_) rfl
    simp only at h
    omega

theorem Inv.iget (hI : Inv s γ) (ha : (γ p).proc.stage = .alive) {dev inum e : Nat}
    (hdev : dev = ROOTDEV) (h : s.iget dev inum = .done e s') : Inv s' (update γ p ((γ p).ref e)) := by
  unfold State.iget at h
  split at h
  · rename_i e' he
    cases h
    have hp := List.find?_some he
    simp only [decide_eq_true_eq] at hp
    exact hI.addRef ha hp.1
  · rename_i hnone
    split at h
    · rename_i e' he
      cases h
      have h0 := List.find?_some he
      simp only [decide_eq_true_eq] at h0
      have hlt := List.mem_range.mp (List.mem_of_find?_eq_some he)
      have hheld : ∀ q, (γ q).held e = none := fun q => by
        by_contra hc
        obtain ⟨k, hk⟩ := Option.ne_none_iff_exists'.mp hc
        have := hI.ref_pos_of_held hk
        omega
      -- no entry in use is for this inode
      have hother : ∀ x, 0 < (s.inode x).ref → (s.inode x).inum ≠ inum := fun x hx hxi => by
        have := List.find?_eq_none.mp hnone x (List.mem_range.mpr (hI.disk.bound x hx))
        simp only [decide_eq_true_eq, not_and] at this
        exact this hx (by rw [hI.disk.dev x hx, hdev]) hxi
      refine ⟨hI.slots.frame ha rfl rfl, ?_, hI.files.frame rfl rfl rfl, hI.pipes.frame rfl, ?_,
        DiskInv.frame (hI.disk.recycle h0 hlt hdev hother hheld ⟨rfl, rfl, rfl⟩) rfl⟩
      · have hadd := hI.irefs.add (p := p) (e := e)
        rw [show (Inode.ref ∘ s.inode) e = 0 from h0, Int.zero_add] at hadd
        rw [comp_setEntry, comp_update]
        exact hadd
      · rw [show Inode.lock ∘ (s.setEntry e fun i =>
            { i with dev := dev, inum := inum, ref := 1, valid := false }).inode =
          Inode.lock ∘ s.inode from comp_update_of_eq _ _ _ rfl]
        exact hI.locks.ref
    · cases h

theorem Inv.dropRef (hI : Inv s γ) (ha : (γ p).proc.stage = .alive) {e : Nat}
    (he : e ∈ (γ p).irefs)
    (hown : ∀ h, (γ p).held e = some h → h.via = .own → e ∈ (γ p).irefs.erase e) :
    Inv (s.setEntry e fun i => { i with ref := i.ref - 1 }) (update γ p ((γ p).drop e)) where
  slots := hI.slots.frame ha rfl rfl
  irefs := by
    rw [comp_setEntry, comp_update]
    exact hI.irefs.drop he
  files := hI.files.frame rfl rfl rfl
  pipes := hI.pipes.frame rfl
  locks := by
    rw [show Inode.lock ∘ (s.setEntry e fun i => { i with ref := i.ref - 1 }).inode =
      Inode.lock ∘ s.inode from comp_update_of_eq _ _ _ rfl,
      comp_update_of_eq Own.frefs γ p (a := (γ p).drop e) rfl,
      comp_update_of_eq Own.held γ p (a := (γ p).drop e) rfl]
    refine hI.locks.refs fun q x k hk hv => ?_
    by_cases hq : q = p
    · subst hq
      simp only [comp_apply, update_self]
      refine hv.imp (fun hvia hx' => ?_) fun _ _ => And.intro
      by_cases hx : x = e
      · subst hx
        exact hown k hk hvia
      · exact (Multiset.mem_erase_of_ne hx).mpr hx'
    · simp only [comp_apply, update_of_ne hq]
      exact hv
  disk := by
    refine DiskInv.frame
      (hI.disk.entry ⟨rfl, rfl, rfl, rfl⟩ (fun _ => hI.ref_pos_of_mem he) fun _ h q => ?_) rfl
    by_contra hc
    obtain ⟨k, hk⟩ := Option.ne_none_iff_exists'.mp hc
    have := hI.one_lt_ref he hk fun hqp => by
      subst hqp
      exact hown k hk
    simp only at h
    omega

/-- What the sleep-lock of an entry protects. -/
def State.held (s : State P) (e : Nat) (v : Via) : Held where
  via := v
  valid := (s.inode e).valid
  d := (s.inode e).d
  disk := s.dinode (s.inode e).inum
  ind := s.ind (s.inode e).inum
  slot := s.slot (s.inode e).inum

theorem Inv.acquire (hI : Inv s γ) (ha : (γ p).proc.stage = .alive) {e : Nat} {v : Via}
    (h0 : (s.inode e).lock = none)
    (hv : v.Holds s.file (γ p).irefs (γ p).frefs e) (href : 0 < (s.inode e).ref) :
    Inv (s.acquiresleep p e) (update γ p ((γ p).hold e (s.held e v))) ∧
      ((s.held e v).valid = true → (s.held e v).Clean) := by
  obtain ⟨hD, hclean⟩ := hI.disk.acquire (p := p) (k := s.held e v) href
    (hI.lock_eq_none.mp h0) ⟨rfl, rfl, rfl, rfl, rfl⟩
  refine ⟨⟨hI.slots.frame ha rfl rfl, ?_, hI.files.frame rfl rfl rfl, hI.pipes.frame rfl, ?_, ?_⟩,
    hclean⟩
  · rw [show Inode.ref ∘ (s.acquiresleep p e).inode = Inode.ref ∘ s.inode from
      comp_update_of_eq _ _ _ rfl]
    exact hI.irefs.frame rfl
  · rw [show Inode.lock ∘ (s.acquiresleep p e).inode = update (Inode.lock ∘ s.inode) e (some p) from
      comp_update ..,
      comp_update_of_eq Own.irefs γ p (a := (γ p).hold e (s.held e v)) rfl,
      comp_update_of_eq Own.frefs γ p (a := (γ p).hold e (s.held e v)) rfl, comp_update]
    exact hI.locks.acquire h0 hv
  · rw [comp_update]
    exact hD.entry ⟨rfl, rfl, rfl, rfl⟩ id fun h h' => absurd h h'

omit [DecidableEq P] in
theorem Inv.onlyHolder (hI : Inv s γ) {e : Nat} {h : Held} (hp : (γ p).held e = some h) :
    OnlyHolder (Own.held ∘ γ) p e := fun q hq => by
  by_contra hc
  obtain ⟨k, hk⟩ := Option.ne_none_iff_exists'.mp hc
  exact hq (hI.held_uniq hk hp)

section

variable (hI : Inv s γ) (ha : (γ p).proc.stage = .alive)

include hI ha

theorem Inv.release {e : Nat} {h : Held}
    (hp : (γ p).held e = some h) (hclean : h.valid = true → h.Clean) :
    Inv (s.setEntry e fun i => { i with lock := none }) (update γ p ((γ p).release e)) where
  slots := hI.slots.frame ha rfl rfl
  irefs := by
    rw [show Inode.ref ∘ (s.setEntry e fun i => { i with lock := none }).inode =
      Inode.ref ∘ s.inode from comp_update_of_eq _ _ _ rfl]
    exact hI.irefs.frame rfl
  files := hI.files.frame rfl rfl rfl
  pipes := hI.pipes.frame rfl
  locks := by
    rw [comp_setEntry, comp_update_of_eq Own.irefs γ p (a := (γ p).release e) rfl,
      comp_update_of_eq Own.frefs γ p (a := (γ p).release e) rfl, comp_update]
    exact hI.locks.release hp
  disk := by
    rw [comp_update]
    exact (hI.disk.release hp (hI.onlyHolder hp) hclean).entry ⟨rfl, rfl, rfl, rfl⟩ id
      fun h h' => absurd h h'

/-! ## The contents of a locked inode -/

theorem Inv.change {e : Nat} {h : Held} (k : Held)
    (i : Inode P) (dd : Dinode) (ii : Nat → Nat) (ss : Nat → Dirent) (u : Option FileType) (n : Nat)
    (hp : (γ p).held e = some h) (hvia : k.via = h.via)
    (hi : i.ref = (s.inode e).ref ∧ i.dev = (s.inode e).dev ∧ i.inum = (s.inode e).inum)
    (hlock : i.lock = (s.inode e).lock) (hval : i.valid = k.valid)
    (hk : k.valid = true → i.d = k.d ∧ (k.disk.type ≠ .none → dd = k.disk ∧ ii = k.ind ∧ ss = k.slot) ∧
      (k.disk.type = .none → dd.type = .none ∨ u ≠ none))
    (hfull : k.valid = false → dd.type ≠ .none → dd.Full ii)
    (hu : ∀ t, u = some t → t ≠ .none ∧ dd = Dinode.fresh t ∧ (k.valid = true → k.disk.type = .none)) :
    Inv { s with
      inode := update s.inode e i
      dinode := update s.dinode (s.inode e).inum dd
      ind := update s.ind (s.inode e).inum ii
      slot := update s.slot (s.inode e).inum ss
      unread := update s.unread (s.inode e).inum u
      nfree := n } (update γ p ((γ p).hold e k)) where
  slots := hI.slots.frame ha rfl rfl
  irefs := by
    rw [show Inode.ref ∘ update s.inode e i = Inode.ref ∘ s.inode from comp_update_of_eq _ _ _ hi.1]
    exact hI.irefs.frame rfl
  files := hI.files.frame rfl rfl rfl
  pipes := hI.pipes.frame rfl
  locks := by
    rw [show Inode.lock ∘ update s.inode e i = Inode.lock ∘ s.inode from
        comp_update_of_eq _ _ _ hlock,
      comp_update_of_eq Own.irefs γ p (a := (γ p).hold e k) rfl,
      comp_update_of_eq Own.frefs γ p (a := (γ p).hold e k) rfl, comp_update]
    exact hI.locks.change hp hvia
  disk := by
    rw [comp_update]
    exact hI.disk.change (fun q x k' hk' => hI.ref_pos_of_held hk') hp (hI.onlyHolder hp) hi hval hk
      hfull hu

theorem Inv.load {e : Nat} {h : Held} (hp : (γ p).held e = some h) (hv : h.valid = false) :
    ∃ k : Held, k.via = h.via ∧ k.valid = true ∧ k.d = k.disk ∧ (k.d.type ≠ .none → k.Clean) ∧
      k.d = s.dinode (s.inode e).inum ∧ Inv (s.loadInode e) (update γ p ((γ p).hold e k)) := by
  let k : Held := { via := h.via, valid := true, d := s.dinode (s.inode e).inum
                    disk := s.dinode (s.inode e).inum, ind := s.ind (s.inode e).inum
                    slot := s.slot (s.inode e).inum }
  have hval : (s.inode e).valid = false := by
    rw [(hI.disk.loaded p e h hp).1, hv]
  -- this entry is the only one, and it is not loaded
  have hfull : (s.dinode (s.inode e).inum).type ≠ .none →
      (s.dinode (s.inode e).inum).Full (s.ind (s.inode e).inum) := fun ht =>
    hI.disk.disk _ ht fun x hx hxi => by
      rw [hI.disk.uniq x e hx (hI.ref_pos_of_held hp) hxi, hval]
  refine ⟨k, rfl, rfl, rfl, fun ht => ⟨rfl, rfl, ht, hfull ht⟩, rfl, ?_⟩
  have hI' := hI.change ha k { s.inode e with d := s.dinode (s.inode e).inum, valid := true }
    (s.dinode (s.inode e).inum) (s.ind (s.inode e).inum) (s.slot (s.inode e).inum) none s.nfree hp rfl
    ⟨rfl, rfl, rfl⟩ rfl rfl (fun _ => ⟨rfl, fun _ => ⟨rfl, rfl, rfl⟩, fun hn => .inl hn⟩) nofun nofun
  simp only [update_eq_self] at hI'
  exact hI'

theorem Inv.setInode {e : Nat} {h : Held}
    {f : Dinode → Dinode} (hp : (γ p).held e = some h) (hv : h.valid = true) :
    Inv (s.setD e f) (update γ p ((γ p).hold e { h with d := f h.d })) := by
  obtain ⟨hval, hrest⟩ := hI.disk.loaded p e h hp
  obtain ⟨hd, hlive, hdead⟩ := hrest hv
  have hI' := hI.change ha { h with d := f h.d } { s.inode e with d := f (s.inode e).d }
    (s.dinode (s.inode e).inum) (s.ind (s.inode e).inum) (s.slot (s.inode e).inum)
    (s.unread (s.inode e).inum) s.nfree hp rfl ⟨rfl, rfl, rfl⟩ rfl hval
    (fun _ => ⟨by rw [hd], hlive, hdead⟩) (fun hc => by rw [hv] at hc; cases hc) fun t ht => ?_
  · simp only [update_eq_self] at hI'
    exact hI'
  · obtain ⟨h1, h2, h3⟩ := hI.disk.fresh _ t ht
    refine ⟨h1, h2, fun _ => ?_⟩
    obtain ⟨q, k, hk, hn⟩ := h3 e (hI.ref_pos_of_held hp) rfl (hval.trans hv)
    obtain rfl := hI.held_uniq hk hp
    obtain rfl := Option.some.inj (hp.symm.trans hk)
    exact hn

end

omit [DecidableEq P] in
theorem Inv.read (hI : Inv s γ) {e : Nat} {h : Held} (hp : (γ p).held e = some h)
    (hv : h.valid = true) (hn : h.disk.type ≠ .none) : s.unread (s.inode e).inum = none := by
  by_contra hc
  obtain ⟨t, ht⟩ := Option.ne_none_iff_exists'.mp hc
  obtain ⟨q, k, hk, hkn⟩ := (hI.disk.fresh _ t ht).2.2 e (hI.ref_pos_of_held hp) rfl
    ((hI.disk.loaded p e h hp).1.trans hv)
  obtain rfl := hI.held_uniq hk hp
  obtain rfl := Option.some.inj (hp.symm.trans hk)
  exact hn hkn

theorem Inv.iupdate (hI : Inv s γ) (ha : (γ p).proc.stage = .alive) {e : Nat} {h : Held}
    (hp : (γ p).held e = some h) (hv : h.valid = true) (hn : h.disk.type ≠ .none) :
    Inv { s with dinode := update s.dinode (s.inode e).inum (s.inode e).d }
      (update γ p ((γ p).hold e { h with disk := h.d })) := by
  obtain ⟨hval, hrest⟩ := hI.disk.loaded p e h hp
  obtain ⟨hd, hlive, -⟩ := hrest hv
  have hI' := hI.change ha { h with disk := h.d } (s.inode e) (s.inode e).d
    (s.ind (s.inode e).inum) (s.slot (s.inode e).inum) (s.unread (s.inode e).inum) s.nfree hp rfl
    ⟨rfl, rfl, rfl⟩ rfl hval
    (fun _ => ⟨hd, fun _ => ⟨hd, (hlive hn).2⟩, fun hc => .inl (by rw [hd]; exact hc)⟩)
    (fun hc => by rw [hv] at hc; cases hc) fun t ht => ?_
  · simp only [update_eq_self] at hI'
    exact hI'
  · rw [hI.read hp hv hn] at ht
    cases ht

theorem Inv.clearValid (hI : Inv s γ) (ha : (γ p).proc.stage = .alive) {e : Nat} {h : Held}
    (hp : (γ p).held e = some h) (hv : h.valid = true) (hn : h.disk.type = .none) :
    Inv (s.setEntry e fun i => { i with valid := false })
      (update γ p ((γ p).hold e { h with valid := false })) := by
  obtain ⟨hval, hrest⟩ := hI.disk.loaded p e h hp
  obtain ⟨-, -, hdead⟩ := hrest hv
  have hI' := hI.change ha { h with valid := false } { s.inode e with valid := false }
    (s.dinode (s.inode e).inum) (s.ind (s.inode e).inum) (s.slot (s.inode e).inum)
    (s.unread (s.inode e).inum) s.nfree hp rfl ⟨rfl, rfl, rfl⟩ rfl rfl
    nofun (fun _ ht => ?_) fun t ht => ?_
  · simp only [update_eq_self] at hI'
    exact hI'
  · -- if somebody has allocated the inode again, it is new
    obtain ⟨t, hu⟩ := Option.ne_none_iff_exists'.mp ((hdead hn).resolve_left ht)
    rw [(hI.disk.fresh _ t hu).2.1]
    exact Dinode.full_of_size rfl _
  · obtain ⟨h1, h2, -⟩ := hI.disk.fresh _ t ht
    exact ⟨h1, h2, nofun⟩

theorem Inv.setBlocks (hI : Inv s γ) (ha : (γ p).proc.stage = .alive) {e : Nat} {h : Held}
    (b : Blocks) (size : Nat) (ss : Nat → Dirent) (hp : (γ p).held e = some h) (hc : h.Clean) :
    Inv { s.setBlocks e b size with slot := update s.slot (s.inode e).inum ss }
      (update γ p ((γ p).hold e { h with
        d := { h.d with addrs := b.addrs, size := size }, ind := b.ind, slot := ss })) := by
  obtain ⟨hval, hrest⟩ := hI.disk.loaded p e h hp
  obtain ⟨hd, hlive, -⟩ := hrest hc.valid
  have hn : h.disk.type ≠ .none := hc.disk ▸ hc.type
  have hI' := hI.change ha
    { h with d := { h.d with addrs := b.addrs, size := size }, ind := b.ind, slot := ss }
    { s.inode e with d := { (s.inode e).d with addrs := b.addrs, size := size } }
    (s.dinode (s.inode e).inum) b.ind ss (s.unread (s.inode e).inum) b.nfree hp rfl
    ⟨rfl, rfl, rfl⟩ rfl hval
    (fun _ => ⟨by rw [hd], fun _ => ⟨(hlive hn).1, rfl, rfl⟩, fun hc' => absurd hc' hn⟩)
    (fun hc' => by rw [hc.valid] at hc'; cases hc') fun t ht => ?_
  · simp only [update_eq_self] at hI'
    exact hI'
  · rw [hI.read hp hc.valid hn] at ht
    cases ht

end Xv6Freezer.Files

import Xv6Freezer.Files.Inv

/-! # Inodes in memory and on the disk

The part of the invariant about the contents of inodes: an entry is recycled or loses its last reference, its
sleep-lock is taken or released, and the holder of the lock reads, changes, writes or frees the inode.
-/

namespace Xv6Freezer.Files

open Lib
open Function (update update_self update_of_ne update_eq_self)

variable {P : Type} {inode : Nat → Inode P} {dinode : Nat → Dinode} {ind : Nat → Nat → Nat}
  {slot : Nat → Nat → Dirent} {unread : Nat → Option FileType} {held : P → Nat → Option Held} {e : Nat}

/-- The fields of an entry that the contents of inodes depend on. -/
structure Inode.Same (i i' : Inode P) : Prop where
  dev : i'.dev = i.dev
  inum : i'.inum = i.inum
  valid : i'.valid = i.valid
  d : i'.d = i.d

/-- Reference counts and locks change, but no entry comes into use. -/
theorem DiskInv.entry {i : Inode P} (h : DiskInv inode dinode ind slot unread held)
    (hi : (inode e).Same i) (hpos : 0 < i.ref → 0 < (inode e).ref)
    (hzero : 0 < (inode e).ref → ¬ 0 < i.ref → ∀ p, held p e = none) :
    DiskInv (update inode e i) dinode ind slot unread held := by
  have hsame : ∀ x, (inode x).Same (update inode e i x) := fun x => by
    by_cases hx : x = e
    · subst hx
      rwa [update_self]
    · rw [update_of_ne hx]
      exact ⟨rfl, rfl, rfl, rfl⟩
  have hp : ∀ x, 0 < (update inode e i x).ref → 0 < (inode x).ref := fun x => by
    by_cases hx : x = e
    · subst hx
      rwa [update_self]
    · rw [update_of_ne hx]
      exact id
  refine ⟨fun x hx => h.bound x (hp x hx), fun x hx => ?_, fun x y hx hy hxy => ?_,
    fun x hx hv hfree => ?_, fun j hj hall => ?_, fun p x k hk => ?_, fun j t ht => ?_⟩
  · rw [(hsame x).dev]
    exact h.dev x (hp x hx)
  · rw [(hsame x).inum, (hsame y).inum] at hxy
    exact h.uniq x y (hp x hx) (hp y hy) hxy
  · rw [(hsame x).valid] at hv
    rw [(hsame x).d, (hsame x).inum]
    exact h.free x (hp x hx) hv hfree
  · -- an inode whose entry goes out of use was unlocked, and so as on the disk
    by_cases hgone : 0 < (inode e).ref ∧ ¬ 0 < i.ref ∧ (inode e).inum = j ∧ (inode e).valid = true
    · obtain ⟨hr, hr', rfl, hv⟩ := hgone
      obtain ⟨hd, -, hf⟩ := h.free e hr hv (hzero hr hr')
      rwa [← hd]
    · refine h.disk j hj fun x hx hxj => ?_
      by_cases hxe : x = e
      · subst hxe
        by_cases hr' : 0 < i.ref
        · have := hall x (by rwa [update_self]) (by rw [(hsame x).inum, hxj])
          rwa [(hsame x).valid] at this
        · simp only [hx, hr', hxj, not_false_eq_true, true_and, Bool.not_eq_true] at hgone
          exact hgone
      · have := hall x (by rwa [update_of_ne hxe]) (by rw [(hsame x).inum, hxj])
        rwa [(hsame x).valid] at this
  · rw [(hsame x).valid, (hsame x).d, (hsame x).inum]
    exact h.loaded p x k hk
  · obtain ⟨h1, h2, h3⟩ := h.fresh j t ht
    refine ⟨h1, h2, fun x hx hxj hv => ?_⟩
    rw [(hsame x).inum] at hxj
    rw [(hsame x).valid] at hv
    exact h3 x (hp x hx) hxj hv

theorem DiskInv.recycle {dev inum : Nat} {i : Inode P} (h : DiskInv inode dinode ind slot unread held)
    (h0 : (inode e).ref = 0) (he : e < NINODE) (hdev : dev = ROOTDEV)
    (hother : ∀ x, 0 < (inode x).ref → (inode x).inum ≠ inum)
    (hheld : ∀ p, held p e = none) (hi : i.dev = dev ∧ i.inum = inum ∧ i.valid = false) :
    DiskInv (update inode e i) dinode ind slot unread held := by
  have hne : ∀ x, 0 < (inode x).ref → x ≠ e := fun x hx hxe => by
    subst hxe
    omega
  have hback : ∀ x, x ≠ e → 0 < (update inode e i x).ref → 0 < (inode x).ref := fun x hx hr => by
    rwa [update_of_ne hx] at hr
  refine ⟨fun x hx => ?_, fun x hx => ?_, fun x y hx hy hxy => ?_, fun x hx hv hfree => ?_,
    fun j hj hall => ?_, fun p x k hk => ?_, fun j t ht => ?_⟩
  · by_cases hxe : x = e
    · rwa [hxe]
    · exact h.bound x (hback x hxe hx)
  · by_cases hxe : x = e
    · subst hxe
      rw [update_self, hi.1, hdev]
    · rw [update_of_ne hxe]
      exact h.dev x (hback x hxe hx)
  · by_cases hxe : x = e <;> by_cases hye : y = e
    · rw [hxe, hye]
    · subst hxe
      rw [update_self, update_of_ne hye, hi.2.1] at hxy
      exact absurd hxy.symm (hother y (hback y hye hy))
    · subst hye
      rw [update_self, update_of_ne hxe, hi.2.1] at hxy
      exact absurd hxy (hother x (hback x hxe hx))
    · rw [update_of_ne hxe, update_of_ne hye] at hxy
      exact h.uniq x y (hback x hxe hx) (hback y hye hy) hxy
  · by_cases hxe : x = e
    · subst hxe
      rw [update_self, hi.2.2] at hv
      cases hv
    · rw [update_of_ne hxe] at hv ⊢
      exact h.free x (hback x hxe hx) hv hfree
  · refine h.disk j hj fun x hx hxj => ?_
    have hxe := hne x hx
    have := hall x (by rwa [update_of_ne hxe]) (by rwa [update_of_ne hxe])
    rwa [update_of_ne hxe] at this
  · have hxe : x ≠ e := fun hxe => by
      subst hxe
      rw [hheld p] at hk
      cases hk
    rw [update_of_ne hxe]
    exact h.loaded p x k hk
  · obtain ⟨h1, h2, h3⟩ := h.fresh j t ht
    refine ⟨h1, h2, fun x hx hxj hv => ?_⟩
    by_cases hxe : x = e
    · subst hxe
      rw [update_self, hi.2.2] at hv
      cases hv
    · rw [update_of_ne hxe] at hxj hv
      exact h3 x (hback x hxe hx) hxj hv

theorem DiskInv.ialloc {i : Nat} {t : FileType} (h : DiskInv inode dinode ind slot unread held)
    (h0 : (dinode i).type = .none) (ht : t ≠ .none) :
    DiskInv inode (update dinode i (Dinode.fresh t)) ind slot (update unread i (some t)) held := by
  -- nobody has a live copy of a free inode
  have hnofree : ∀ e, 0 < (inode e).ref → (inode e).inum = i → (inode e).valid = true →
      ¬ ∀ p, held p e = none := fun e he hei hv hfree => by
    obtain ⟨hd, htype, -⟩ := h.free e he hv hfree
    rw [hd, hei] at htype
    exact htype h0
  have hnolive : ∀ p e k, held p e = some k → k.valid = true → (inode e).inum = i →
      k.disk.type = .none := fun p e k hk hv hei => by
    by_contra hlive
    have hd := (((h.loaded p e k hk).2 hv).2.1 hlive).1
    rw [hei] at hd
    rw [← hd] at hlive
    exact hlive h0
  refine ⟨h.bound, h.dev, h.uniq, fun e he hv hfree => ?_, fun j hj hall => ?_,
    fun p e k hk => ⟨(h.loaded p e k hk).1, fun hv => ?_⟩, fun j u hu => ?_⟩
  · have hei : (inode e).inum ≠ i := fun hei => hnofree e he hei hv hfree
    rw [update_of_ne hei]
    exact h.free e he hv hfree
  · by_cases hji : j = i
    · subst hji
      rw [update_self]
      exact Dinode.full_of_size rfl _
    · rw [update_of_ne hji] at hj ⊢
      exact h.disk j hj hall
  · obtain ⟨hd, hlive, hdead⟩ := (h.loaded p e k hk).2 hv
    by_cases hei : (inode e).inum = i
    · have hdisk := hnolive p e k hk hv hei
      refine ⟨hd, fun hl => absurd hdisk hl, fun _ => .inr ?_⟩
      rw [hei, update_self]
      exact Option.some_ne_none t
    · rw [update_of_ne hei, update_of_ne hei]
      exact ⟨hd, hlive, hdead⟩
  · by_cases hji : j = i
    · subst hji
      rw [update_self] at hu ⊢
      cases hu
      refine ⟨ht, rfl, fun e he hei hv => ?_⟩
      obtain ⟨p, hp⟩ := not_forall.mp (hnofree e he hei hv)
      obtain ⟨k, hk⟩ := Option.ne_none_iff_exists'.mp hp
      exact ⟨p, k, hk, hnolive p e k hk ((h.loaded p e k hk).1 ▸ hv) hei⟩
    · rw [update_of_ne hji] at hu ⊢
      exact h.fresh j u hu

variable [DecidableEq P]

section Holder

variable {p : P} {h k : Held}

/-- Only the holder of a lock has the inode. -/
def OnlyHolder (held : P → Nat → Option Held) (p : P) (e : Nat) : Prop :=
  ∀ q, q ≠ p → held q e = none

theorem held_update_of_ne {x : Nat} {o : Option Held} {q : P} (hx : x ≠ e) :
    update held p (update (held p) e o) q x = held q x := by
  by_cases hq : q = p
  · subst hq
    rw [update_self, update_of_ne hx]
  · rw [update_of_ne hq]

theorem DiskInv.acquire (hD : DiskInv inode dinode ind slot unread held) (href : 0 < (inode e).ref)
    (hfree : ∀ q, held q e = none) (hk : k.valid = (inode e).valid ∧ k.d = (inode e).d ∧
      k.disk = dinode (inode e).inum ∧ k.ind = ind (inode e).inum ∧ k.slot = slot (inode e).inum) :
    DiskInv inode dinode ind slot
      (if (inode e).valid = true then update unread (inode e).inum none else unread)
      (update held p (update (held p) e (some k))) ∧ (k.valid = true → k.Clean) := by
  obtain ⟨hkv, hkd, hkdisk, hkind, hkslot⟩ := hk
  have hclean : k.valid = true → k.Clean := fun hv => by
    obtain ⟨hd, ht, hf⟩ := hD.free e href (hkv ▸ hv) hfree
    exact ⟨hv, by rw [hkd, hkdisk, hd], by rwa [hkd], by rwa [hkd, hkind]⟩
  -- a loaded inode has been read before
  have hunread : (if (inode e).valid = true then update unread (inode e).inum none else unread) =
      unread := by
    split
    · rename_i hv
      have hnone : unread (inode e).inum = none := by
        by_contra hc
        obtain ⟨t, ht⟩ := Option.ne_none_iff_exists'.mp hc
        obtain ⟨q, k', hk', -⟩ := (hD.fresh _ t ht).2.2 e href rfl hv
        rw [hfree q] at hk'
        cases hk'
      rw [← hnone, update_eq_self]
    · rfl
  rw [hunread]
  refine ⟨⟨hD.bound, hD.dev, hD.uniq, fun x hx hv hfx => ?_, hD.disk, fun q x k' hk' => ?_,
    fun j t ht => ?_⟩, hclean⟩
  · refine hD.free x hx hv fun q => ?_
    by_cases hxe : x = e
    · rw [hxe]
      exact hfree q
    · have := hfx q
      rwa [held_update_of_ne hxe] at this
  · by_cases hxe : x = e
    · subst hxe
      by_cases hq : q = p
      · subst hq
        rw [update_self, update_self] at hk'
        cases hk'
        refine ⟨hkv.symm, fun hv => ⟨hkd.symm, fun _ => ⟨hkdisk.symm, hkind.symm, hkslot.symm⟩,
          fun hn => absurd ?_ (hclean hv).type⟩⟩
        rw [(hclean hv).disk, hn]
      · rw [update_of_ne hq, hfree q] at hk'
        cases hk'
    · rw [held_update_of_ne hxe] at hk'
      exact hD.loaded q x k' hk'
  · obtain ⟨h1, h2, h3⟩ := hD.fresh j t ht
    refine ⟨h1, h2, fun x hx hxj hv => ?_⟩
    obtain ⟨q, k', hk', hn⟩ := h3 x hx hxj hv
    have hxe : x ≠ e := fun hxe => by
      rw [hxe, hfree q] at hk'
      cases hk'
    exact ⟨q, k', by rwa [held_update_of_ne hxe], hn⟩

theorem DiskInv.release (hD : DiskInv inode dinode ind slot unread held) (hp : held p e = some h)
    (honly : OnlyHolder held p e) (hclean : h.valid = true → h.Clean) :
    DiskInv inode dinode ind slot unread (update held p (update (held p) e none)) := by
  refine ⟨hD.bound, hD.dev, hD.uniq, fun x hx hv hfx => ?_, hD.disk, fun q x k' hk' => ?_,
    fun j t ht => ?_⟩
  · by_cases hxe : x = e
    · subst hxe
      obtain ⟨hval, hrest⟩ := hD.loaded p x h hp
      have hc := hclean (hval ▸ hv)
      obtain ⟨hd, hlive, -⟩ := hrest (hval ▸ hv)
      obtain ⟨hdisk, hind, -⟩ := hlive (hc.disk ▸ hc.type)
      rw [hd, hdisk, hind]
      exact ⟨hc.disk, hc.type, hc.full⟩
    · refine hD.free x hx hv fun q => ?_
      have := hfx q
      rwa [held_update_of_ne hxe] at this
  · have hxe : x ≠ e := fun hxe => by
      subst hxe
      by_cases hq : q = p
      · subst hq
        rw [update_self, update_self] at hk'
        cases hk'
      · rw [update_of_ne hq, honly q hq] at hk'
        cases hk'
    rw [held_update_of_ne hxe] at hk'
    exact hD.loaded q x k' hk'
  · obtain ⟨h1, h2, h3⟩ := hD.fresh j t ht
    refine ⟨h1, h2, fun x hx hxj hv => ?_⟩
    obtain ⟨q, k', hk', hn⟩ := h3 x hx hxj hv
    have hxe : x ≠ e := fun hxe => by
      subst hxe
      have hq : q = p := by
        by_contra hq
        rw [honly q hq] at hk'
        cases hk'
      subst hq
      obtain rfl := Option.some.inj (hp.symm.trans hk')
      have hc := hclean ((hD.loaded q x h hp).1 ▸ hv)
      exact hc.type (hc.disk ▸ hn)
    exact ⟨q, k', by rwa [held_update_of_ne hxe], hn⟩

/-- **The holder of a lock changes the inode**: in memory (`i`), on the disk (`dd`), in the indirect block
(`ii`) and in the directory (`ss`) is what the holder knows afterwards (`k`). -/
theorem DiskInv.change (hD : DiskInv inode dinode ind slot unread held) {i : Inode P} {dd : Dinode}
    {ii : Nat → Nat} {ss : Nat → Dirent} {u : Option FileType}
    (href : ∀ q x k, held q x = some k → 0 < (inode x).ref)
    (hp : held p e = some h) (honly : OnlyHolder held p e)
    (hi : i.ref = (inode e).ref ∧ i.dev = (inode e).dev ∧ i.inum = (inode e).inum)
    (hval : i.valid = k.valid)
    (hk : k.valid = true → i.d = k.d ∧ (k.disk.type ≠ .none → dd = k.disk ∧ ii = k.ind ∧ ss = k.slot) ∧
      (k.disk.type = .none → dd.type = .none ∨ u ≠ none))
    (hfull : k.valid = false → dd.type ≠ .none → dd.Full ii)
    (hu : ∀ t, u = some t → t ≠ .none ∧ dd = Dinode.fresh t ∧ (k.valid = true → k.disk.type = .none)) :
    DiskInv (update inode e i) (update dinode (inode e).inum dd) (update ind (inode e).inum ii)
      (update slot (inode e).inum ss) (update unread (inode e).inum u)
      (update held p (update (held p) e (some k))) := by
  have hsame : ∀ x, (update inode e i x).ref = (inode x).ref ∧
      (update inode e i x).dev = (inode x).dev ∧ (update inode e i x).inum = (inode x).inum := by
    intro x
    by_cases hx : x = e
    · subst hx
      rwa [update_self]
    · rw [update_of_ne hx]
      exact ⟨rfl, rfl, rfl⟩
  -- no other entry in use is for this inode
  have hinum : ∀ x, 0 < (inode x).ref → x ≠ e → (inode x).inum ≠ (inode e).inum :=
    fun x hx hxe hxi => hxe (hD.uniq x e hx (href p e h hp) hxi)
  have hself : update held p (update (held p) e (some k)) p e = some k := by
    rw [update_self, update_self]
  refine ⟨fun x hx => ?_, fun x hx => ?_, fun x y hx hy hxy => ?_, fun x hx hv hfx => ?_,
    fun j hj hall => ?_, fun q x k' hk' => ?_, fun j t ht => ?_⟩
  · rw [(hsame x).1] at hx
    exact hD.bound x hx
  · rw [(hsame x).1] at hx
    rw [(hsame x).2.1]
    exact hD.dev x hx
  · rw [(hsame x).1] at hx
    rw [(hsame y).1] at hy
    rw [(hsame x).2.2, (hsame y).2.2] at hxy
    exact hD.uniq x y hx hy hxy
  · have hxe : x ≠ e := fun hxe => by
      have := hfx p
      rw [hxe, hself] at this
      cases this
    rw [(hsame x).1] at hx
    rw [update_of_ne hxe] at hv ⊢
    rw [update_of_ne (hinum x hx hxe), update_of_ne (hinum x hx hxe)]
    refine hD.free x hx hv fun q => ?_
    have := hfx q
    rwa [held_update_of_ne hxe] at this
  · by_cases hji : j = (inode e).inum
    · subst hji
      rw [update_self] at hj ⊢
      rw [update_self]
      refine hfull ?_ hj
      have := hall e (by rw [(hsame e).1]; exact href p e h hp) (hsame e).2.2
      rwa [update_self, hval] at this
    · rw [update_of_ne hji] at hj ⊢
      rw [update_of_ne hji]
      refine hD.disk j hj fun x hx hxj => ?_
      have hxe : x ≠ e := fun hxe => hji (by rw [← hxj, hxe])
      have := hall x (by rwa [update_of_ne hxe]) (by rwa [update_of_ne hxe])
      rwa [update_of_ne hxe] at this
  · by_cases hxe : x = e
    · subst hxe
      have hq : q = p := by
        by_contra hq
        rw [update_of_ne hq, honly q hq] at hk'
        cases hk'
      subst hq
      rw [hself] at hk'
      cases hk'
      rw [(hsame x).2.2]
      simp only [update_self]
      exact ⟨hval, hk⟩
    · rw [held_update_of_ne hxe] at hk'
      have hxi := hinum x (href q x k' hk') hxe
      rw [update_of_ne hxe]
      simp only [update_of_ne hxi]
      exact hD.loaded q x k' hk'
  · by_cases hji : j = (inode e).inum
    · subst hji
      rw [update_self] at ht ⊢
      obtain ⟨h1, h2, h3⟩ := hu t ht
      refine ⟨h1, h2, fun x hx hxj hv => ?_⟩
      rw [(hsame x).1] at hx
      rw [(hsame x).2.2] at hxj
      obtain rfl := hD.uniq x e hx (href p e h hp) hxj
      rw [update_self, hval] at hv
      exact ⟨p, k, hself, h3 hv⟩
    · rw [update_of_ne hji] at ht ⊢
      obtain ⟨h1, h2, h3⟩ := hD.fresh j t ht
      refine ⟨h1, h2, fun x hx hxj hv => ?_⟩
      rw [(hsame x).1] at hx
      rw [(hsame x).2.2] at hxj
      have hxe : x ≠ e := fun hxe => hji (by rw [← hxj, hxe])
      rw [update_of_ne hxe] at hv
      obtain ⟨q, k', hk', hn⟩ := h3 x hx hxj hv
      exact ⟨q, k', by rwa [held_update_of_ne hxe], hn⟩

end Holder

end Xv6Freezer.Files

import Xv6Freezer.Mkfs.Layout

/-! # What the functions of `mkfs` do to the layout

The bytes of an image show a `View` (`OnDisk`); while `iappend` runs, the inode of its file is in memory
and newer than the one on disk (`Shows`). Each function moves the view by the rules of `Layout`.
-/

namespace Xv6Freezer.Mkfs

open Function Lib Lib.Bytes

variable {st st' : State} {v v' : View} {m m' din din' buf : Bytes} {ni nb i j n f b k off x : Nat}
  {a g : Nat → Nat} {p : List UInt8}

/-! ## Sectors and inodes -/

def inodeOff (i : Nat) : Nat := sb.inodestart * BSIZE + i * DINODE

theorem secOff_of_lt (hx : x < FSSIZE) : secOff x = x * BSIZE := by
  unfold secOff
  rw [show BSIZE = 1024 from rfl, show FSSIZE = 2000 from rfl] at *
  omega

theorem rsect_of_lt (hfs : st.fsize = FSSIZE * BSIZE) (hx : x < FSSIZE) :
    rsect st x = some (st.image.sub (x * BSIZE)) := by
  rw [rsect, secOff_of_lt hx, if_pos]
  rw [hfs, show BSIZE = 1024 from rfl, show FSSIZE = 2000 from rfl] at *
  omega

theorem rsect_eq_some (hfs : st.fsize = FSSIZE * BSIZE) (hx : x ≤ FSSIZE + 1)
    (h : rsect st x = some buf) : x < FSSIZE ∧ buf = st.image.sub (x * BSIZE) := by
  by_cases hlt : x < FSSIZE
  · rw [rsect_of_lt hfs hlt] at h
    exact ⟨hlt, (Option.some.inj h).symm⟩
  · rw [rsect, if_neg] at h
    · cases h
    · unfold secOff
      rw [hfs, show BSIZE = 1024 from rfl, show FSSIZE = 2000 from rfl] at *
      omega

theorem wsect_of_lt (hfs : st.fsize = FSSIZE * BSIZE) (hx : x < FSSIZE) :
    wsect st x buf = { st with image := st.image.fill (x * BSIZE) BSIZE buf } := by
  have hmax : max st.fsize (x * BSIZE + BSIZE) = st.fsize := by
    rw [hfs, show BSIZE = 1024 from rfl, show FSSIZE = 2000 from rfl] at *
    omega
  rw [wsect, secOff_of_lt hx, hmax]

theorem IBLOCK_lt (hi : i < NINODES) : IBLOCK i < FSSIZE := by
  unfold IBLOCK
  rw [show IPB = 16 from rfl, show sb.inodestart = 32 from rfl, show FSSIZE = 2000 from rfl,
    show NINODES = 200 from rfl] at *
  omega

theorem IBLOCK_mul (i : Nat) : IBLOCK i * BSIZE + i % IPB * DINODE = inodeOff i := by
  unfold IBLOCK inodeOff
  rw [show IPB = 16 from rfl, show sb.inodestart = 32 from rfl, show BSIZE = 1024 from rfl,
    show DINODE = 64 from rfl]
  omega

theorem rinode_eq (hfs : st.fsize = FSSIZE * BSIZE) (hi : i < NINODES) :
    rinode st i = some (st.image.sub (inodeOff i)) := by
  rw [rinode, rsect_of_lt hfs (IBLOCK_lt hi), Option.map_some]
  refine congrArg some (funext fun y => congrArg st.image ?_)
  rw [← IBLOCK_mul, Nat.add_assoc]

theorem winode_eq (hfs : st.fsize = FSSIZE * BSIZE) (hi : i < NINODES) :
    winode st i din = some { st with image := st.image.fill (inodeOff i) DINODE din } := by
  rw [winode, rsect_of_lt hfs (IBLOCK_lt hi), Option.map_some, wsect_of_lt hfs (IBLOCK_lt hi)]
  have hfill : st.image.fill (IBLOCK i * BSIZE) BSIZE
      ((st.image.sub (IBLOCK i * BSIZE)).fill (i % IPB * DINODE) DINODE din) =
      st.image.fill (inodeOff i) DINODE din := by
    have hplace := IBLOCK_mul i
    have hmod : i % IPB < 16 := Nat.mod_lt _ (by decide)
    rw [show BSIZE = 1024 from rfl, show DINODE = 64 from rfl] at *
    funext y
    unfold fill sub
    by_cases hin : inodeOff i ≤ y ∧ y < inodeOff i + 64
    · rw [if_pos hin, if_pos (by omega), if_pos (by omega)]
      congr 1
      omega
    · rw [if_neg hin]
      split
      · rw [if_neg (by omega)]
        congr 1
        omega
      · rfl
  rw [hfill]

theorem addrs_setAddr (hb : b < 2 ^ 32) :
    addrs (setAddr din k b) = update (addrs din) k b := by
  funext j
  unfold addrs setAddr
  by_cases hj : j = k
  · subst hj
    rw [update_self]
    exact loadLE_storeLE hb
  · rw [update_of_ne hj]
    exact loadLE_storeLE_of_disjoint (by omega)

theorem size_setSize (hn : n < 2 ^ 32) : size (setSize din n) = n := loadLE_storeLE hn

theorem addrs_setSize : addrs (setSize din n) k = addrs din k :=
  loadLE_storeLE_of_disjoint (by omega)

/-! ## The view of an image -/

def viewOf (m : Bytes) : View where
  size i := size (m.sub (inodeOff i))
  addr i := addrs (m.sub (inodeOff i))
  ind b k := m.loadLE (b * BSIZE + 4 * k) 4

structure ShowsBut (m : Bytes) (i0 : Nat → Prop) (v : View) : Prop where
  size : ∀ i, i < NINODES → ¬i0 i → (viewOf m).size i = v.size i
  addr : ∀ i, i < NINODES → ¬i0 i → ∀ k, k ≤ NDIRECT → (viewOf m).addr i k = v.addr i k
  ind : ∀ b, nmeta ≤ b → b < FSSIZE → ∀ k, k < NINDIRECT → (viewOf m).ind b k = v.ind b k

/-- **The image shows the view.** -/
abbrev OnDisk (m : Bytes) (v : View) : Prop := ShowsBut m (fun _ => False) v

/-- **The image shows the view** together with the inode `din` of file `i`, whose size is `off`. -/
structure Shows (m : Bytes) (i : Nat) (din : Bytes) (off : Nat) (v : View) : Prop where
  disk : ShowsBut m (· = i) v
  off_eq : off = v.size i
  din_eq : ∀ k, k ≤ NDIRECT → addrs din k = v.addr i k

theorem OnDisk.shows (h : OnDisk m v) (hi : i < NINODES) :
    Shows m i (m.sub (inodeOff i)) (size (m.sub (inodeOff i))) v where
  disk := ⟨fun j hj _ => h.size j hj id, fun j hj _ => h.addr j hj id, h.ind⟩
  off_eq := h.size i hi id
  din_eq := h.addr i hi id

theorem viewOf_size_congr (h : SameOn m m' (inodeOff i) DINODE) :
    (viewOf m').size i = (viewOf m).size i := by
  simp only [viewOf, size, loadLE_sub]
  exact loadLE_congr (h.mono (by decide))

theorem viewOf_addr_congr (h : SameOn m m' (inodeOff i) DINODE) (hk : k ≤ NDIRECT) :
    (viewOf m').addr i k = (viewOf m).addr i k := by
  simp only [viewOf, addrs, loadLE_sub]
  refine loadLE_congr (h.mono ?_)
  rw [show NDIRECT = 12 from rfl] at hk
  rw [show DINODE = 64 from rfl]
  omega

theorem viewOf_ind_congr (h : SameOn m m' (b * BSIZE) BSIZE) (hk : k < NINDIRECT) :
    (viewOf m').ind b k = (viewOf m).ind b k := by
  refine loadLE_congr (h.mono ?_)
  rw [show NINDIRECT = 256 from rfl] at hk
  rw [show BSIZE = 1024 from rfl]
  omega

theorem inodeOff_le (hi : i < NINODES) : inodeOff i + DINODE ≤ sb.bmapstart * BSIZE := by
  unfold inodeOff
  rw [show NINODES = 200 from rfl] at hi
  rw [show sb.inodestart = 32 from rfl, show BSIZE = 1024 from rfl, show DINODE = 64 from rfl,
    show sb.bmapstart = 45 from rfl]
  omega

theorem sameOn_inode (hi : i < NINODES) (hlo : sb.bmapstart ≤ b) :
    SameOn m (m.fill (b * BSIZE) BSIZE buf) (inodeOff i) DINODE :=
  SameOn.fill_of_disjoint (.inl ((inodeOff_le hi).trans (Nat.mul_le_mul_right _ hlo)))

theorem sameOn_block (hne : b ≠ x) : SameOn m (m.fill (x * BSIZE) BSIZE buf) (b * BSIZE) BSIZE := by
  refine SameOn.fill_of_disjoint ?_
  rw [show BSIZE = 1024 from rfl]
  omega

theorem sameOn_of_inode (hi : i < NINODES) (hlo : nmeta ≤ b) :
    SameOn m (m.fill (inodeOff i) DINODE buf) (b * BSIZE) BSIZE :=
  SameOn.fill_of_disjoint (.inr ((inodeOff_le hi).trans
    (Nat.mul_le_mul_right _ (Nat.le_of_succ_le hlo))))

theorem sameOn_inode_of_ne (hne : j ≠ i) :
    SameOn m (m.fill (inodeOff i) DINODE buf) (inodeOff j) DINODE := by
  refine SameOn.fill_of_disjoint ?_
  unfold inodeOff
  rw [show DINODE = 64 from rfl]
  omega

section

variable (h : Shows m i din off v)

include h

theorem Shows.winode (hi : i < NINODES) (hoff : off < 2 ^ 32) :
    OnDisk (m.fill (inodeOff i) DINODE (setSize din off)) v := by
  refine ⟨fun j hj _ => ?_, fun j hj _ k hk => ?_, fun b hlo hhi k hk => ?_⟩
  · by_cases hji : j = i
    · subst hji
      rw [← h.off_eq]
      show size _ = off
      rw [size, loadLE_sub, loadLE_fill _ (by decide)]
      exact size_setSize hoff
    · rw [viewOf_size_congr (sameOn_inode_of_ne hji)]
      exact h.disk.size j hj hji
  · by_cases hji : j = i
    · subst hji
      rw [← h.din_eq k hk]
      show addrs _ k = _
      rw [addrs, loadLE_sub, loadLE_fill]
      · exact addrs_setSize
      · rw [show NDIRECT = 12 from rfl] at hk
        rw [show DINODE = 64 from rfl]
        omega
    · rw [viewOf_addr_congr (sameOn_inode_of_ne hji) hk]
      exact h.disk.addr j hj hji k hk
  · rw [viewOf_ind_congr (sameOn_of_inode hi hlo) hk]
    exact h.disk.ind b hlo hhi k hk

theorem Shows.withInode (ha : ∀ k, k ≤ NDIRECT → addrs din' k = a k) :
    Shows m i din' n (v.withInode i n a) where
  disk :=
    { size := fun j hj hne => (h.disk.size j hj hne).trans (update_of_ne hne _ _).symm
      addr := fun j hj hne k hk => (h.disk.addr j hj hne k hk).trans
        (congrFun (update_of_ne hne _ _).symm k)
      ind := h.disk.ind }
  off_eq := by simp only [View.withInode, update_self]
  din_eq k hk := by
    simp only [ha k hk, View.withInode, update_self]

theorem Shows.withBlock (hlo : nmeta ≤ b) (hg : ∀ k, k < NINDIRECT → buf.loadLE (4 * k) 4 = g k) :
    Shows (m.fill (b * BSIZE) BSIZE buf) i din off (v.withBlock b g) where
  disk := by
    have hlo' : sb.bmapstart ≤ b := Nat.le_of_succ_le hlo
    refine ⟨fun j hj hne => ?_, fun j hj hne k hk => ?_, fun x hx hhi k hk => ?_⟩
    · rw [viewOf_size_congr (sameOn_inode hj hlo')]
      exact h.disk.size j hj hne
    · rw [viewOf_addr_congr (sameOn_inode hj hlo') hk]
      exact h.disk.addr j hj hne k hk
    · by_cases hxb : x = b
      · subst hxb
        simp only [View.withBlock, update_self, ← hg k hk]
        refine loadLE_fill _ ?_
        rw [show NINDIRECT = 256 from rfl] at hk
        rw [show BSIZE = 1024 from rfl]
        omega
      · simp only [View.withBlock, update_of_ne hxb, viewOf_ind_congr (sameOn_block hxb) hk]
        exact h.disk.ind x hx hhi k hk
  off_eq := h.off_eq
  din_eq := h.din_eq

theorem Shows.loadLE (hlo : nmeta ≤ b) (hhi : b < FSSIZE)
    (hk : k < NINDIRECT) : (m.sub (b * BSIZE)).loadLE (4 * k) 4 = v.ind b k := by
  rw [loadLE_sub]
  exact h.disk.ind b hlo hhi k hk

theorem Shows.withEntry (hlo : nmeta ≤ b) (hhi : b < FSSIZE) (hn : n < 2 ^ 32) :
    Shows (m.fill (b * BSIZE) BSIZE ((m.sub (b * BSIZE)).storeLE (4 * f) 4 n)) i din off
      (v.withBlock b (update (v.ind b) f n)) := by
  refine h.withBlock hlo fun k hk => ?_
  by_cases hkf : k = f
  · subst hkf
    rw [update_self]
    exact loadLE_storeLE hn
  · rw [update_of_ne hkf, loadLE_storeLE_of_disjoint (by omega)]
    exact h.loadLE hlo hhi hk

end

/-! ## `iappend` -/

/-- **The state while `iappend` runs** on file `i`, with the inode `din` in memory. -/
structure Appending (st : State) (i : Nat) (din : Bytes) (off : Nat) (v : View) : Prop where
  shown : Shows st.image i din off v
  layout : Layout v st.freeinode st.freeblock
  fsize : st.fsize = FSSIZE * BSIZE
  full : st.freeblock ≤ FSSIZE
  inum : 1 ≤ i ∧ i < st.freeinode ∧ st.freeinode ≤ NINODES
  bound : ∀ j, 1 ≤ j → j < st.freeinode → v.size j ≤ MAXFILE * BSIZE

/-- The slot is there, and if its sector can be read, the image is not over-full. -/
structure Found (st : State) (i : Nat) (din : Bytes) (off fbn x : Nat) (v : View) : Prop where
  shown : Shows st.image i din off v
  layout : Layout v st.freeinode st.freeblock
  fsize : st.fsize = FSSIZE * BSIZE
  entry : v.entry (i, some fbn) = x
  mem : (i, some fbn) ∈ v.slots st.freeinode
  full : x < FSSIZE → st.freeblock ≤ FSSIZE
  near : x ≤ FSSIZE + 1

theorem blocks_of_lt (hlt : f * BSIZE < n) (hle : n ≤ (f + 1) * BSIZE) :
    (n + (BSIZE - 1)) / BSIZE = f + 1 := by
  rw [show BSIZE = 1024 from rfl] at *
  omega

theorem blocks_of_dvd (h : n % BSIZE = 0) : (n + (BSIZE - 1)) / BSIZE = n / BSIZE := by
  rw [show BSIZE = 1024 from rfl] at *
  omega

theorem blocks_of_not_dvd (h : n % BSIZE ≠ 0) : (n + (BSIZE - 1)) / BSIZE = n / BSIZE + 1 := by
  rw [show BSIZE = 1024 from rfl] at *
  omega

theorem blockFor_entry {st1 : State} {din1 : Bytes} {f : Nat}
    (halloc : allocAddr st din NDIRECT = (st1, din1)) (hd : ¬f < NDIRECT) (hmax : f < MAXFILE)
    (hs : Shows st1.image i din1 n v) (hfs : st1.fsize = FSSIZE * BSIZE) (hnb : st1.freeblock < 2 ^ 32)
    (haddr : addrs din1 NDIRECT = b) (hlo : nmeta ≤ b) (hhi : b < FSSIZE)
    (hzero : v.ind b (f - NDIRECT) = 0) :
    ∃ st', blockFor st din f = some (st', din1, st1.freeblock) ∧ st'.freeinode = st1.freeinode ∧
      st'.freeblock = st1.freeblock + 1 ∧ st'.fsize = FSSIZE * BSIZE ∧
      Shows st'.image i din1 n (v.withBlock b (update (v.ind b) (f - NDIRECT) st1.freeblock)) := by
  have hk : f - NDIRECT < NINDIRECT := by
    unfold MAXFILE at hmax
    omega
  have hload := hs.loadLE hlo hhi hk
  rw [hzero] at hload
  have hw : ∀ buf, wsect { st1 with freeblock := st1.freeblock + 1 } b buf =
      { st1 with freeblock := st1.freeblock + 1, image := st1.image.fill (b * BSIZE) BSIZE buf } :=
    fun buf => wsect_of_lt hfs hhi
  rw [blockFor, if_neg hd, halloc]
  dsimp only
  rw [haddr, rsect_of_lt hfs hhi, Option.map_some, if_pos hload, hw, loadLE_storeLE hnb]
  exact ⟨_, rfl, rfl, rfl, hfs, hs.withEntry hlo hhi hnb⟩

namespace Appending

section

variable (h : Appending st i din off v)

include h

theorem blocks : v.blocks i = (off + (BSIZE - 1)) / BSIZE := by
  rw [View.blocks, ← h.shown.off_eq]

theorem indirect (hb : NDIRECT < v.blocks i) :
    nmeta ≤ v.addr i NDIRECT ∧ v.addr i NDIRECT < FSSIZE ∧ allocAddr st din NDIRECT = (st, din) ∧
      addrs din NDIRECT = v.addr i NDIRECT := by
  obtain ⟨hlo, hhi⟩ := h.layout.indirect_mem h.inum.1 h.inum.2.1 hb
  have haddr := h.shown.din_eq NDIRECT (Nat.le_refl _)
  refine ⟨hlo, hhi.trans_le h.full, if_neg fun h0 => ?_, haddr⟩
  rw [← haddr, h0] at hlo
  exact absurd hlo (by decide)

theorem blockFor_old (hoff : off % BSIZE ≠ 0)
    (hn : (n + (BSIZE - 1)) / BSIZE = off / BSIZE + 1) (hmax : off / BSIZE < MAXFILE) :
    blockFor st din (off / BSIZE) = some (st, din, v.entry (i, some (off / BSIZE))) ∧
      Found st i din n (off / BSIZE) (v.entry (i, some (off / BSIZE))) (v.withInode i n (v.addr i)) := by
  have hb : v.blocks i = off / BSIZE + 1 := h.blocks.trans (blocks_of_not_dvd hoff)
  have hmem : (i, some (off / BSIZE)) ∈ v.slots st.freeinode :=
    ⟨h.inum.1, h.inum.2.1, by rw [hb]; exact Nat.lt_succ_self _⟩
  obtain ⟨hlo, hhi⟩ := h.layout.mem hmem
  have hne : v.entry (i, some (off / BSIZE)) ≠ 0 := fun h0 => by
    rw [h0] at hlo
    exact absurd hlo (by decide)
  constructor
  · unfold blockFor
    by_cases hd : off / BSIZE < NDIRECT
    · have hent : addrs din (off / BSIZE) = v.entry (i, some (off / BSIZE)) := by
        rw [h.shown.din_eq _ hd.le, View.entry, if_pos hd]
      rw [if_pos hd, allocAddr, if_neg (by rw [hent]; exact hne)]
      dsimp only
      rw [hent]
    · obtain ⟨hlo', hhi', halloc, haddr⟩ := h.indirect (by omega)
      have hk : off / BSIZE - NDIRECT < NINDIRECT := by
        unfold MAXFILE at hmax
        omega
      have hent : (st.image.sub (v.addr i NDIRECT * BSIZE)).loadLE (4 * (off / BSIZE - NDIRECT)) 4 =
          v.entry (i, some (off / BSIZE)) := by
        rw [h.shown.loadLE hlo' hhi' hk, View.entry, if_neg hd]
      rw [if_neg hd, halloc]
      dsimp only
      rw [haddr, rsect_of_lt h.fsize hhi', Option.map_some, hent, if_neg hne]
  · exact
      { shown := h.shown.withInode h.shown.din_eq
        layout := h.layout.within (hn.trans hb.symm)
        fsize := h.fsize
        entry := by rw [View.entry_withInode_addr]
        mem := ⟨h.inum.1, h.inum.2.1, by
          rw [View.blocks_withInode_self, hn]
          exact Nat.lt_succ_self _⟩
        full := fun _ => h.full
        near := (hhi.le.trans h.full).trans (Nat.le_succ _) }

section

variable (hoff : off % BSIZE = 0) (hn : (n + (BSIZE - 1)) / BSIZE = off / BSIZE + 1)

include hoff hn

theorem blockFor_direct (hd : off / BSIZE < NDIRECT) :
    ∃ st' din', blockFor st din (off / BSIZE) = some (st', din', st.freeblock) ∧
      st'.freeinode = st.freeinode ∧
      Found st' i din' n (off / BSIZE) st.freeblock
        (v.withInode i n (update (v.addr i) (off / BSIZE) st.freeblock)) := by
  have hb : v.blocks i = off / BSIZE := h.blocks.trans (blocks_of_dvd hoff)
  have hnb : st.freeblock < 2 ^ 32 := h.full.trans_lt (by decide)
  have hzero : addrs din (off / BSIZE) = 0 := by
    have := h.layout.zero i h.inum.1 h.inum.2.1 (off / BSIZE) hb.le (hd.trans (by decide)) (.inl hd)
    rwa [View.entry, if_pos hd, ← h.shown.din_eq _ hd.le] at this
  refine ⟨{ st with freeblock := st.freeblock + 1 }, setAddr din (off / BSIZE) st.freeblock, ?_, rfl, ?_⟩
  · rw [blockFor, if_pos hd, allocAddr, if_pos hzero]
    dsimp only
    rw [addrs_setAddr hnb, update_self]
  · have hlay := h.layout.direct (n := n) h.inum.1 h.inum.2.1 (hb ▸ hd) (by rw [hn, hb])
    rw [hb] at hlay
    exact
      { shown := h.shown.withInode fun k hk => by
          rw [addrs_setAddr hnb]
          by_cases hkf : k = off / BSIZE
          · rw [hkf, update_self, update_self]
          · rw [update_of_ne hkf, update_of_ne hkf, h.shown.din_eq k hk]
        layout := hlay
        fsize := h.fsize
        entry := by rw [View.entry_withInode_some, if_pos hd, update_self]
        mem := ⟨h.inum.1, h.inum.2.1, by
          rw [View.blocks_withInode_self, hn]
          exact Nat.lt_succ_self _⟩
        full := fun hlt => hlt
        near := h.full.trans (Nat.le_succ _) }

theorem blockFor_first {r : State × Bytes × Nat} (hf : off / BSIZE = NDIRECT)
    (hr : blockFor st din (off / BSIZE) = some r) :
    r.1.freeinode = st.freeinode ∧ Found r.1 i r.2.1 n (off / BSIZE) r.2.2
      ((v.withInode i n (update (v.addr i) NDIRECT st.freeblock)).withBlock st.freeblock
        (update (v.ind st.freeblock) 0 (st.freeblock + 1))) := by
  have hb : v.blocks i = NDIRECT := by rw [h.blocks, blocks_of_dvd hoff, hf]
  have hfull := h.full
  have hnb : st.freeblock < 2 ^ 32 := h.full.trans_lt (by decide)
  have hzero : addrs din NDIRECT = 0 :=
    (h.shown.din_eq _ (Nat.le_refl _)).trans (h.layout.indirect i h.inum.1 h.inum.2.1 hb.le)
  have halloc : allocAddr st din NDIRECT =
      ({ st with freeblock := st.freeblock + 1 }, setAddr din NDIRECT st.freeblock) := if_pos hzero
  have haddr : addrs (setAddr din NDIRECT st.freeblock) NDIRECT = st.freeblock := by
    rw [addrs_setAddr hnb, update_self]
  -- the new indirect block can be read
  have hhi : st.freeblock < FSSIZE := by
    rw [hf, blockFor, if_neg (Nat.lt_irrefl _), halloc] at hr
    dsimp only at hr
    rw [haddr] at hr
    obtain ⟨buf, hbuf, -⟩ := Option.map_eq_some_iff.mp hr
    exact (rsect_eq_some h.fsize (h.full.trans (Nat.le_succ _)) hbuf).1
  have hs : Shows st.image i (setAddr din NDIRECT st.freeblock) n
      (v.withInode i n (update (v.addr i) NDIRECT st.freeblock)) :=
    h.shown.withInode fun k hk => by
      rw [addrs_setAddr hnb]
      by_cases hkf : k = NDIRECT
      · rw [hkf, update_self, update_self]
      · rw [update_of_ne hkf, update_of_ne hkf, h.shown.din_eq k hk]
  obtain ⟨st', hr', hfi, hfb, hfs, hs'⟩ := blockFor_entry halloc (by omega : ¬off / BSIZE < NDIRECT)
    (by rw [hf]; decide) hs h.fsize
    (show st.freeblock + 1 < 2 ^ 32 from Nat.lt_of_le_of_lt hhi (by decide)) haddr h.layout.nb_ge hhi
    (by rw [hf, Nat.sub_self]; exact h.layout.fresh _ (Nat.le_refl _) 0 (by decide))
  rw [hr'] at hr
  cases hr
  rw [hf, Nat.sub_self] at hs'
  refine ⟨hfi, ?_⟩
  exact
    { shown := hs'
      layout := by
        rw [hfi, hfb]
        exact h.layout.firstIndirect h.inum.1 h.inum.2.1 hb (by rw [hn, hf])
      fsize := hfs
      entry := by simp [View.entry, View.withBlock, View.withInode, hf]
      mem := ⟨h.inum.1, hfi ▸ h.inum.2.1, by
        rw [View.blocks_withBlock, View.blocks_withInode_self, hn]
        exact Nat.lt_succ_self _⟩
      full := fun hlt => by
        rw [hfb]
        exact hlt
      near := Nat.succ_le_succ hhi.le }

theorem blockFor_next (hf : NDIRECT < off / BSIZE) (hmax : off / BSIZE < MAXFILE) :
    ∃ st', blockFor st din (off / BSIZE) = some (st', din, st.freeblock) ∧
      st'.freeinode = st.freeinode ∧
      Found st' i din n (off / BSIZE) st.freeblock
        ((v.withInode i n (v.addr i)).withBlock (v.addr i NDIRECT)
          (update (v.ind (v.addr i NDIRECT)) (off / BSIZE - NDIRECT) st.freeblock)) := by
  have hb : v.blocks i = off / BSIZE := h.blocks.trans (blocks_of_dvd hoff)
  obtain ⟨hlo, hhi, halloc, haddr⟩ := h.indirect (hb ▸ hf)
  have hzero : v.ind (v.addr i NDIRECT) (off / BSIZE - NDIRECT) = 0 := by
    have := h.layout.zero i h.inum.1 h.inum.2.1 (off / BSIZE) hb.le hmax (.inr (hb ▸ hf))
    rwa [View.entry, if_neg (Nat.lt_asymm hf)] at this
  have hs : Shows st.image i din n (v.withInode i n (v.addr i)) := h.shown.withInode h.shown.din_eq
  obtain ⟨st', hr', hfi, hfb, hfs, hs'⟩ := blockFor_entry halloc (Nat.lt_asymm hf) hmax hs h.fsize
    (h.full.trans_lt (by decide)) haddr hlo hhi hzero
  have hlay := h.layout.nextIndirect (n := n) h.inum.1 h.inum.2.1 (hb ▸ hf) (by rw [hn, hb])
  rw [hb] at hlay
  refine ⟨st', hr', hfi, ?_⟩
  exact
    { shown := hs'
      layout := by
        rw [hfi, hfb]
        exact hlay
      fsize := hfs
      entry := by simp [View.entry, View.withBlock, View.withInode, Nat.lt_asymm hf]
      mem := ⟨h.inum.1, hfi ▸ h.inum.2.1, by
        rw [View.blocks_withBlock, View.blocks_withInode_self, hn]
        exact Nat.lt_succ_self _⟩
      full := fun hlt => by
        rw [hfb]
        exact hlt
      near := h.full.trans (Nat.le_succ _) }

end

theorem blockFor {r : State × Bytes × Nat}
    (hn : (n + (BSIZE - 1)) / BSIZE = off / BSIZE + 1) (hmax : off / BSIZE < MAXFILE)
    (hr : Mkfs.blockFor st din (off / BSIZE) = some r) :
    ∃ v', Found r.1 i r.2.1 n (off / BSIZE) r.2.2 v' ∧ r.1.freeinode = st.freeinode ∧
      v'.size = update v.size i n := by
  by_cases hoff : off % BSIZE = 0
  · rcases Nat.lt_trichotomy (off / BSIZE) NDIRECT with hd | hd | hd
    · obtain ⟨st', din', hr', hfi, hfound⟩ := h.blockFor_direct hoff hn hd
      rw [hr'] at hr
      cases hr
      exact ⟨_, hfound, hfi, rfl⟩
    · obtain ⟨hfi, hfound⟩ := h.blockFor_first hoff hn hd hr
      exact ⟨_, hfound, hfi, rfl⟩
    · obtain ⟨st', hr', hfi, hfound⟩ := h.blockFor_next hoff hn hd hmax
      rw [hr'] at hr
      cases hr
      exact ⟨_, hfound, hfi, rfl⟩
  · obtain ⟨hr', hfound⟩ := h.blockFor_old hoff hn hmax
    rw [hr'] at hr
    cases hr
    exact ⟨_, hfound, rfl, rfl⟩

theorem round {r : State × Bytes} (hp : p ≠ []) (hr : appendRound st din off p = some r) :
    ∃ v', Appending r.1 i r.2 (off + roundSize off p) v' ∧ r.1.freeinode = st.freeinode ∧
      v'.size = update v.size i (off + roundSize off p) := by
  have hpos : 0 < p.length := List.length_pos_iff.mpr hp
  have hsize : off / BSIZE * BSIZE < off + roundSize off p ∧
      off + roundSize off p ≤ (off / BSIZE + 1) * BSIZE := by
    unfold roundSize
    rw [show BSIZE = 1024 from rfl]
    omega
  unfold appendRound at hr
  dsimp only at hr
  split at hr
  case isFalse => cases hr
  rename_i hmax
  obtain ⟨⟨st1, din1, x⟩, hb, hr⟩ := Option.bind_eq_some_iff.mp hr
  obtain ⟨buf, hbuf, hr⟩ := Option.map_eq_some_iff.mp hr
  obtain ⟨v1, hfound, hfi, hv1⟩ := h.blockFor (blocks_of_lt hsize.1 hsize.2) hmax hb
  dsimp only at hfound hfi hbuf
  obtain ⟨hx, rfl⟩ := rsect_eq_some hfound.fsize hfound.near hbuf
  rw [wsect_of_lt hfound.fsize hx] at hr
  obtain rfl := hr
  have hlo : nmeta ≤ x := hfound.entry ▸ (hfound.layout.mem hfound.mem).1
  refine ⟨v1.withBlock x _, ⟨hfound.shown.withBlock hlo fun k _ => rfl, ?_, hfound.fsize,
    hfound.full hx, ?_, ?_⟩, hfi, hv1⟩
  · rw [← hfound.entry]
    exact hfound.layout.write hfound.mem
  · rw [hfi]
    exact h.inum
  · intro j h1 hj
    show v1.size j ≤ _
    rw [hv1]
    by_cases hji : j = i
    · subst hji
      rw [update_self]
      exact hsize.2.trans (Nat.mul_le_mul_right _ hmax)
    · rw [update_of_ne hji]
      exact h.bound j h1 (by rw [← hfi]; exact hj)

end

theorem loop {r : State × Bytes × Nat} (fuel : Nat) : ∀ {st : State} {din : Bytes} {off : Nat} {v : View}
    {p : List UInt8}, Appending st i din off v → p.length ≤ fuel →
    appendLoop fuel st din off p = some r →
    ∃ v', Appending r.1 i r.2.1 r.2.2 v' ∧ r.1.freeinode = st.freeinode ∧
      v'.size = update v.size i (off + p.length) := by
  induction fuel with
  | zero =>
    intro st din off v p h hle hr
    cases hr
    refine ⟨v, h, rfl, ?_⟩
    rw [Nat.le_zero.mp hle, Nat.add_zero, h.shown.off_eq, update_eq_self]
  | succ fuel ih =>
    intro st din off v p h hle hr
    unfold appendLoop at hr
    split at hr
    · rename_i hp
      cases hr
      refine ⟨v, h, rfl, ?_⟩
      rw [hp, List.length_nil, Nat.add_zero, h.shown.off_eq, update_eq_self]
    · rename_i hp
      obtain ⟨⟨st1, din1⟩, hround, hr⟩ := Option.bind_eq_some_iff.mp hr
      obtain ⟨v1, h1, hfi, hv1⟩ := h.round hp hround
      have hpos : 0 < p.length := List.length_pos_iff.mpr hp
      have hsize : 0 < roundSize off p ∧ roundSize off p ≤ p.length := by
        unfold roundSize
        rw [show BSIZE = 1024 from rfl]
        omega
      obtain ⟨v2, h2, hfi2, hv2⟩ := ih h1 (by rw [List.length_drop]; omega) hr
      refine ⟨v2, h2, hfi2.trans hfi, ?_⟩
      rw [hv2, hv1, update_idem, List.length_drop]
      congr 1
      omega

end Appending

/-! ## The functions that call it -/

/-- **The state between calls.** -/
structure Good (st : State) (v : View) : Prop where
  shown : OnDisk st.image v
  layout : Layout v st.freeinode st.freeblock
  fsize : st.fsize = FSSIZE * BSIZE
  full : st.freeblock ≤ FSSIZE
  inodes : st.freeinode ≤ NINODES
  bound : ∀ j, 1 ≤ j → j < st.freeinode → v.size j ≤ MAXFILE * BSIZE

theorem Good.iappend (h : Good st v) (h1 : 1 ≤ i) (hi : i < st.freeinode)
    (hr : iappend st i p = some st') :
    ∃ v', Good st' v' ∧ st'.freeinode = st.freeinode ∧
      v'.size = update v.size i (v.size i + p.length) := by
  have hlt : i < NINODES := hi.trans_le h.inodes
  obtain ⟨din, hdin, hr⟩ := Option.bind_eq_some_iff.mp hr
  rw [rinode_eq h.fsize hlt] at hdin
  obtain rfl := Option.some.inj hdin
  obtain ⟨⟨st1, din1, off⟩, hloop, hr⟩ := Option.bind_eq_some_iff.mp hr
  have hshown := h.shown.shows hlt
  have happ : Appending st i (st.image.sub (inodeOff i)) (size (st.image.sub (inodeOff i))) v :=
    ⟨hshown, h.layout, h.fsize, h.full, ⟨h1, hi, h.inodes⟩, h.bound⟩
  obtain ⟨v', h', hfi, hv'⟩ := happ.loop _ (Nat.le_refl _) hloop
  dsimp only at h' hr hfi
  have hoff : off < 2 ^ 32 := by
    rw [h'.shown.off_eq]
    exact (h'.bound i h1 (by rw [hfi]; exact hi)).trans_lt (by decide)
  rw [winode_eq h'.fsize hlt] at hr
  obtain rfl := Option.some.inj hr
  have hdisk := h'.shown.winode hlt hoff
  have hinodes : st1.freeinode ≤ NINODES := hfi ▸ h.inodes
  refine ⟨v', ?_, hfi, ?_⟩
  · constructor <;> dsimp only
    exacts [hdisk, h'.layout, h'.fsize, h'.full, hinodes, h'.bound]
  · rw [hv', hshown.off_eq]

theorem Good.ialloc {type : Nat} {r : State × Nat} (h : Good st v) (hi : st.freeinode < NINODES)
    (hr : ialloc st type = some r) :
    r.2 = st.freeinode ∧ r.1.freeinode = st.freeinode + 1 ∧
      Good r.1 (v.withInode st.freeinode 0 fun _ => 0) := by
  obtain ⟨st', hw, rfl⟩ := Option.map_eq_some_iff.mp hr
  have hw' : winode { st with freeinode := st.freeinode + 1 } st.freeinode (Mkfs.newInode type) =
      some { st with
        freeinode := st.freeinode + 1
        image := st.image.fill (inodeOff st.freeinode) DINODE (Mkfs.newInode type) } :=
    winode_eq h.fsize hi
  rw [hw'] at hw
  obtain rfl := Option.some.inj hw
  have hshows : Shows st.image st.freeinode ((zeroes.storeLE 0 2 type).storeLE 6 2 1) 0
      (v.withInode st.freeinode 0 fun _ => 0) :=
    (h.shown.shows hi).withInode fun k _ => by
      rw [addrs, loadLE_storeLE_of_disjoint (by omega), loadLE_storeLE_of_disjoint (by omega)]
      exact loadLE_zero fun _ _ => rfl
  have hdisk := hshows.winode hi (by decide)
  have hbound : ∀ j, 1 ≤ j → j < st.freeinode + 1 →
      (v.withInode st.freeinode 0 fun _ => 0).size j ≤ MAXFILE * BSIZE := by
    intro j h1 hj
    by_cases hjn : j = st.freeinode
    · simp only [View.withInode, hjn, update_self]
      exact Nat.zero_le _
    · simp only [View.withInode, update_of_ne hjn]
      exact h.bound j h1 (by omega)
  refine ⟨rfl, rfl, ?_⟩
  constructor <;> dsimp only
  exacts [hdisk, h.layout.newInode, h.fsize, h.full, hi, hbound]

end Xv6Freezer.Mkfs

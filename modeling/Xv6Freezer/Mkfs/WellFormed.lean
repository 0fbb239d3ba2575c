import Xv6Freezer.Mkfs.Image

/-! # The images that `mkfs` produces

Whenever `mkfs` finishes, the image is well formed except in two cases: with more than 198 files the inode
numbers pass `sb.ninodes`, and when the entries of the root directory fill its last block, the size that
`main` rounds up covers a block that has not been allocated.
-/

namespace Xv6Freezer.Mkfs

open Function Lib Lib.Bytes

variable {st st' : State} {v v' : View} {m : Bytes} {i n b : Nat} {p : List UInt8} {input : Input}
  {inputs : List Input}

def marked (m : Bytes) (b : Nat) : Bool := (m (sb.bmapstart * BSIZE + b / 8)).toNat.testBit (b % 8)

/-- **A well-formed image**: inode numbers are below `sb.ninodes`; the block of every slot of an inode is
below `sb.size`, not zero and in no other slot; the bitmap marks the meta blocks and these blocks. -/
structure WellFormed (st : State) : Prop where
  inodes : ∀ i, 1 ≤ i → i < st.freeinode → i < sb.ninodes
  lt : ∀ x ∈ (viewOf st.image).slots st.freeinode, (viewOf st.image).entry x < sb.size
  ne : ∀ x ∈ (viewOf st.image).slots st.freeinode, (viewOf st.image).entry x ≠ 0
  inj : ∀ x ∈ (viewOf st.image).slots st.freeinode, ∀ y ∈ (viewOf st.image).slots st.freeinode,
    (viewOf st.image).entry x = (viewOf st.image).entry y → x = y
  bitmap : ∀ b, b < sb.size → (marked st.image b = true ↔
    b < nmeta ∨ ∃ x ∈ (viewOf st.image).slots st.freeinode, (viewOf st.image).entry x = b)

/-! ## The loop over the files -/

theorem Good.iappends (reads : List Chunk) : ∀ {st : State} {v : View}, Good st v → 1 ≤ i →
    i < st.freeinode → reads.foldlM (fun st p => Mkfs.iappend st i p.val) st = some st' →
    ∃ v', Good st' v' ∧ st'.freeinode = st.freeinode ∧ ∀ j, j ≠ i → v'.size j = v.size j := by
  induction reads with
  | nil =>
    intro st v h _ _ hr
    cases hr
    exact ⟨v, h, rfl, fun _ _ => rfl⟩
  | cons p reads ih =>
    intro st v h h1 hi hr
    rw [List.foldlM_cons] at hr
    obtain ⟨st1, happ, hr⟩ := Option.bind_eq_some_iff.mp hr
    obtain ⟨v1, h₁, hfi, hv1⟩ := h.iappend h1 hi happ
    obtain ⟨v2, h2, hfi2, hv2⟩ := ih h₁ h1 (hfi ▸ hi) hr
    refine ⟨v2, h2, hfi2.trans hfi, fun j hj => ?_⟩
    rw [hv2 j hj, hv1, update_of_ne hj]

theorem length_dirent (inum : Nat) (name : List UInt8) : (dirent inum name).length = 16 := by
  simp [dirent, DIRSIZ]

/-- **A file is added**: one inode, and one entry of the root directory. -/
theorem Good.addFile (h : Good st v) (h2 : 2 ≤ st.freeinode) (hi : st.freeinode < NINODES)
    (hr : addFile st input = some st') :
    ∃ v', Good st' v' ∧ st'.freeinode = st.freeinode + 1 ∧
      v'.size ROOTINO = v.size ROOTINO + 16 := by
  unfold Mkfs.addFile at hr
  split at hr
  · cases hr
  obtain ⟨reads, -, hr⟩ := Option.bind_eq_some_iff.mp hr
  dsimp only at hr
  split at hr
  case isFalse => cases hr
  obtain ⟨⟨st1, inum⟩, halloc, hr⟩ := Option.bind_eq_some_iff.mp hr
  obtain ⟨st2, hroot, hr⟩ := Option.bind_eq_some_iff.mp hr
  obtain ⟨hinum, hfi1, h1⟩ := h.ialloc hi halloc
  dsimp only at hinum hfi1 h1 hroot hr
  subst hinum
  obtain ⟨v2, h₂, hfi2, hv2⟩ := h1.iappend (i := ROOTINO) (Nat.le_refl _)
    (by rw [hfi1, show ROOTINO = 1 from rfl]; omega) hroot
  obtain ⟨v3, h3, hfi3, hv3⟩ := h₂.iappends reads (by omega) (by rw [hfi2, hfi1]; omega) hr
  have hne : ROOTINO ≠ st.freeinode := by
    rw [show ROOTINO = 1 from rfl]
    omega
  refine ⟨v3, h3, by rw [hfi3, hfi2, hfi1], ?_⟩
  rw [hv3 ROOTINO hne, hv2, update_self, length_dirent]
  simp only [View.withInode, update_of_ne hne]

theorem Good.addFiles (inputs : List Input) : ∀ {st : State} {v : View}, Good st v → 2 ≤ st.freeinode →
    st.freeinode + inputs.length ≤ NINODES → inputs.foldlM Mkfs.addFile st = some st' →
    ∃ v', Good st' v' ∧ v'.size ROOTINO = v.size ROOTINO + 16 * inputs.length := by
  induction inputs with
  | nil =>
    intro st v h _ _ hr
    cases hr
    exact ⟨v, h, rfl⟩
  | cons input inputs ih =>
    intro st v h h2 hi hr
    rw [List.foldlM_cons] at hr
    rw [List.length_cons] at hi
    obtain ⟨st1, hadd, hr⟩ := Option.bind_eq_some_iff.mp hr
    obtain ⟨v1, h1, hfi, hv1⟩ := h.addFile h2 (by omega) hadd
    obtain ⟨v2, h₂, hv2⟩ := ih h1 (by omega) (by omega) hr
    refine ⟨v2, h₂, ?_⟩
    rw [hv2, hv1, List.length_cons]
    omega

/-! ## The number of inodes, whatever the image -/

theorem wsect_freeinode (st : State) (sec : Nat) (buf : Bytes) :
    (wsect st sec buf).freeinode = st.freeinode := rfl

theorem winode_freeinode {din : Bytes} (h : winode st i din = some st') :
    st'.freeinode = st.freeinode := by
  obtain ⟨buf, -, rfl⟩ := Option.map_eq_some_iff.mp h
  exact wsect_freeinode ..

theorem blockFor_freeinode {din : Bytes} {f : Nat} {r : State × Bytes × Nat}
    (h : blockFor st din f = some r) : r.1.freeinode = st.freeinode := by
  have halloc : ∀ k, (allocAddr st din k).1.freeinode = st.freeinode := fun k => by
    unfold allocAddr
    split <;> rfl
  unfold blockFor at h
  split at h
  · cases h
    exact halloc f
  · obtain ⟨buf, -, h⟩ := Option.map_eq_some_iff.mp h
    have hr := halloc NDIRECT
    generalize allocAddr st din NDIRECT = r0 at h hr
    split at h <;> rw [← h]
    · exact hr
    · exact hr

theorem appendLoop_freeinode {r : State × Bytes × Nat} (fuel : Nat) : ∀ {st : State} {din : Bytes}
    {off : Nat} {p : List UInt8}, appendLoop fuel st din off p = some r →
    r.1.freeinode = st.freeinode := by
  induction fuel with
  | zero =>
    intro st din off p h
    cases h
    rfl
  | succ fuel ih =>
    intro st din off p h
    unfold appendLoop at h
    split at h
    · cases h
      rfl
    · obtain ⟨⟨st1, din1⟩, hround, h⟩ := Option.bind_eq_some_iff.mp h
      rw [ih h]
      unfold appendRound at hround
      dsimp only at hround
      split at hround
      case isFalse => cases hround
      obtain ⟨⟨st2, din2, x⟩, hb, hround⟩ := Option.bind_eq_some_iff.mp hround
      obtain ⟨buf, -, hround⟩ := Option.map_eq_some_iff.mp hround
      cases hround
      exact blockFor_freeinode hb

theorem iappend_freeinode (h : iappend st i p = some st') : st'.freeinode = st.freeinode := by
  obtain ⟨din, -, h⟩ := Option.bind_eq_some_iff.mp h
  obtain ⟨⟨st1, din1, off⟩, hloop, h⟩ := Option.bind_eq_some_iff.mp h
  exact (winode_freeinode h).trans (appendLoop_freeinode _ hloop)

theorem ialloc_freeinode {type : Nat} {r : State × Nat} (h : ialloc st type = some r) :
    r.1.freeinode = st.freeinode + 1 := by
  obtain ⟨st1, hw, rfl⟩ := Option.map_eq_some_iff.mp h
  exact winode_freeinode hw

theorem iappends_freeinode (reads : List Chunk) : ∀ {st : State},
    reads.foldlM (fun st p => iappend st i p.val) st = some st' → st'.freeinode = st.freeinode := by
  induction reads with
  | nil =>
    intro st h
    cases h
    rfl
  | cons p reads ih =>
    intro st h
    rw [List.foldlM_cons] at h
    obtain ⟨st1, happ, h⟩ := Option.bind_eq_some_iff.mp h
    exact (ih h).trans (iappend_freeinode happ)

theorem addFiles_freeinode (inputs : List Input) : ∀ {st : State},
    inputs.foldlM addFile st = some st' → st'.freeinode = st.freeinode + inputs.length := by
  induction inputs with
  | nil =>
    intro st h
    cases h
    rfl
  | cons input inputs ih =>
    intro st h
    rw [List.foldlM_cons] at h
    obtain ⟨st1, hadd, h⟩ := Option.bind_eq_some_iff.mp h
    rw [ih h, List.length_cons]
    unfold addFile at hadd
    split at hadd
    · cases hadd
    obtain ⟨reads, -, hadd⟩ := Option.bind_eq_some_iff.mp hadd
    dsimp only at hadd
    split at hadd
    case isFalse => cases hadd
    obtain ⟨⟨st2, inum⟩, halloc, hadd⟩ := Option.bind_eq_some_iff.mp hadd
    obtain ⟨st3, hroot, hadd⟩ := Option.bind_eq_some_iff.mp hadd
    rw [iappends_freeinode reads hadd, iappend_freeinode hroot, ialloc_freeinode halloc]
    omega

theorem fill_zeroes (a n : Nat) : zeroes.fill a n zeroes = zeroes := by
  funext x
  unfold fill zeroes
  split <;> rfl

theorem zeroed_eq : zeroed = ⟨zeroes, FSSIZE * BSIZE, 1, nmeta⟩ := by
  have hloop : ∀ n, n ≤ FSSIZE → (List.range n).foldl (fun st i => wsect st i zeroes)
      ⟨zeroes, 0, 1, nmeta⟩ = ⟨zeroes, n * BSIZE, 1, nmeta⟩ := by
    intro n hn
    induction n with
    | zero => rw [Nat.zero_mul]; rfl
    | succ n ih =>
      rw [List.range_succ, List.foldl_append, ih (Nat.le_of_succ_le hn), List.foldl_cons,
        List.foldl_nil, wsect, secOff_of_lt hn, fill_zeroes]
      congr 1
      rw [Nat.succ_mul]
      exact max_eq_right (Nat.le_add_right _ _)
  exact hloop FSSIZE (Nat.le_refl _)

def emptyView : View := ⟨fun _ => 0, fun _ _ => 0, fun _ _ => 0⟩

theorem emptyView_layout : Layout emptyView 1 nmeta where
  bij := by
    have hslots : emptyView.slots 1 = ∅ := by
      ext x
      simp only [View.slots, Set.mem_ofPred_eq, Set.mem_empty_iff_false, iff_false]
      omega
    rw [hslots, Set.Ico_self]
    exact Set.bijOn_empty _
  zero i h1 hi := by omega
  indirect i h1 hi := by omega
  fresh _ _ _ _ := rfl
  nb_ge := Nat.le_refl _

theorem good_start : Good (wsect zeroed 1 sb.bytes) emptyView := by
  have hw : wsect zeroed 1 sb.bytes =
      ⟨zeroes.fill (1 * BSIZE) BSIZE sb.bytes, FSSIZE * BSIZE, 1, nmeta⟩ := by
    rw [zeroed_eq]
    exact wsect_of_lt rfl (by decide)
  have hinode : ∀ i, SameOn zeroes (zeroes.fill (1 * BSIZE) BSIZE sb.bytes) (inodeOff i) DINODE :=
    fun i => SameOn.fill_of_disjoint (.inr (by
      unfold inodeOff
      rw [show BSIZE = 1024 from rfl, show sb.inodestart = 32 from rfl]
      omega))
  rw [hw]
  constructor <;> dsimp only
  · refine ⟨fun i hi _ => ?_, fun i hi _ k hk => ?_, fun b hlo hhi k hk => ?_⟩
    · rw [viewOf_size_congr (hinode i)]
      exact loadLE_zero fun _ _ => rfl
    · rw [viewOf_addr_congr (hinode i) hk]
      exact loadLE_zero fun _ _ => rfl
    · rw [viewOf_ind_congr (sameOn_block (Nat.ne_of_gt (Nat.lt_of_lt_of_le (by decide) hlo))) hk]
      exact loadLE_zero fun _ _ => rfl
  · exact emptyView_layout
  · decide
  · decide
  · intro j h1 hj
    omega

theorem good_withRoot (h : withRoot = some st) :
    ∃ v, Good st v ∧ st.freeinode = 2 ∧ v.size ROOTINO = 32 := by
  obtain ⟨⟨st1, rootino⟩, halloc, h⟩ := Option.bind_eq_some_iff.mp h
  have hfi0 : (wsect zeroed 1 sb.bytes).freeinode = 1 := by rw [zeroed_eq]; rfl
  obtain ⟨hino, hfi1, h1⟩ := good_start.ialloc (by rw [hfi0]; decide) halloc
  dsimp only at h hino hfi1 h1
  rw [hfi0] at hino hfi1 h1
  split at h
  case isFalse => cases h
  obtain ⟨st2, hdot, hdots⟩ := Option.bind_eq_some_iff.mp h
  subst hino
  obtain ⟨v2, h2, hfi2, hv2⟩ := h1.iappend (Nat.le_refl _) (by rw [hfi1]; decide) hdot
  obtain ⟨v3, h3, hfi3, hv3⟩ := h2.iappend (Nat.le_refl _) (by rw [hfi2, hfi1]; decide) hdots
  refine ⟨v3, h3, by rw [hfi3, hfi2, hfi1], ?_⟩
  rw [hv3, show ROOTINO = 1 from rfl, update_self, hv2, update_self, length_dirent,
    length_dirent]
  simp [View.withInode]

theorem Good.fixRoot (h : Good st v) (hr : fixRoot st = some st')
    (hsize : (v.size ROOTINO / BSIZE + 1) * BSIZE < 2 ^ 32) :
    OnDisk st'.image (v.withInode ROOTINO ((v.size ROOTINO / BSIZE + 1) * BSIZE) (v.addr ROOTINO)) ∧
      st'.freeinode = st.freeinode ∧ st'.freeblock = st.freeblock ∧ st'.fsize = st.fsize := by
  have hlt : ROOTINO < NINODES := by decide
  obtain ⟨din, hdin, hr⟩ := Option.bind_eq_some_iff.mp hr
  rw [rinode_eq h.fsize hlt] at hdin
  obtain rfl := Option.some.inj hdin
  rw [winode_eq h.fsize hlt] at hr
  obtain rfl := Option.some.inj hr
  have hs := h.shown.shows hlt
  have hdisk := (hs.withInode hs.din_eq).winode hlt hsize
  rw [hs.off_eq]
  dsimp only
  exact ⟨hdisk, rfl, rfl, rfl⟩

theorem bitmap_testBit (used b : Nat) :
    (bitmap used (b / 8)).toNat.testBit (b % 8) = decide (b < used) := by
  have hbit : ∀ k < 8, ∀ j < 8, (1 <<< UInt8.ofNat k : UInt8).toNat.testBit j = decide (j = k) := by
    decide
  induction used with
  | zero => simp [bitmap, zeroes]
  | succ used ih =>
    have hstep : bitmap (used + 1) =
        update (bitmap used) (used / 8) (bitmap used (used / 8) ||| 1 <<< UInt8.ofNat (used % 8)) := by
      rw [bitmap, List.range_succ, List.foldl_append]
      rfl
    rw [hstep]
    by_cases hb : b / 8 = used / 8
    · rw [hb, update_self, UInt8.toNat_or, Nat.testBit_or, ← hb, ih,
        hbit _ (Nat.mod_lt _ (by decide)) _ (Nat.mod_lt _ (by decide)), ← Bool.decide_or]
      exact decide_eq_decide.mpr (by omega)
    · rw [update_of_ne hb, ih]
      exact decide_eq_decide.mpr (by omega)

theorem balloc_spec (hfs : st.fsize = FSSIZE * BSIZE) (h : OnDisk st.image v)
    (hr : balloc st n = some st') :
    OnDisk st'.image v ∧ st'.freeinode = st.freeinode ∧
      ∀ b, b < sb.size → marked st'.image b = decide (b < n) := by
  unfold balloc at hr
  split at hr
  case isFalse => cases hr
  obtain rfl := Option.some.inj hr
  rw [wsect_of_lt hfs (by decide)]
  dsimp only
  refine ⟨⟨fun i hi hne => ?_, fun i hi hne k hk => ?_, fun b hlo hhi k hk => ?_⟩, rfl, fun b hb => ?_⟩
  · rw [viewOf_size_congr (sameOn_inode hi (Nat.le_refl _))]
    exact h.size i hi hne
  · rw [viewOf_addr_congr (sameOn_inode hi (Nat.le_refl _)) hk]
    exact h.addr i hi hne k hk
  · have hne : b ≠ sb.bmapstart := Nat.ne_of_gt hlo
    rw [viewOf_ind_congr (sameOn_block hne) hk]
    exact h.ind b hlo hhi k hk
  · have hlt : b / 8 < BSIZE := by
      rw [show sb.size = 2000 from rfl] at hb
      rw [show BSIZE = 1024 from rfl]
      omega
    rw [marked, fill_of_lt hlt]
    exact bitmap_testBit n b

theorem OnDisk.slots_eq {ni : Nat} (h : OnDisk m v) (hni : ni ≤ NINODES) :
    (viewOf m).slots ni = v.slots ni := by
  ext ⟨i, s⟩
  simp only [View.slots, Set.mem_ofPred_eq]
  refine and_congr_right fun _ => and_congr_right fun hi => ?_
  rw [View.blocks, View.blocks, h.size i (hi.trans_le hni) id]

theorem OnDisk.entry_eq {ni nb : Nat} (h : OnDisk m v) (hni : ni ≤ NINODES) (hl : Layout v ni nb)
    (hnb : nb ≤ FSSIZE) (hbound : ∀ j, 1 ≤ j → j < ni → v.size j ≤ MAXFILE * BSIZE) {x : Slot}
    (hx : x ∈ v.slots ni) : (viewOf m).entry x = v.entry x := by
  obtain ⟨i, s⟩ := x
  obtain ⟨h1, hi, hu⟩ := id hx
  have haddr := h.addr i (hi.trans_le hni) id
  cases s with
  | none => exact haddr NDIRECT (Nat.le_refl _)
  | some f =>
    have hf : f < v.blocks i := hu
    unfold View.entry
    dsimp only
    by_cases hd : f < NDIRECT
    · rw [if_pos hd, if_pos hd, haddr f hd.le]
    · obtain ⟨hlo, hhi⟩ := hl.indirect_mem h1 hi (Nat.lt_of_le_of_lt (Nat.not_lt.mp hd) hf)
      have hmax : v.blocks i ≤ MAXFILE := by
        have := hbound i h1 hi
        unfold View.blocks
        rw [show BSIZE = 1024 from rfl] at *
        omega
      rw [if_neg hd, if_neg hd, haddr NDIRECT (Nat.le_refl _)]
      refine h.ind _ hlo (hhi.trans_le hnb) _ ?_
      unfold MAXFILE at hmax
      omega

theorem OnDisk.wellFormed (h : OnDisk st.image v) (hni : st.freeinode ≤ NINODES)
    (hl : Layout v st.freeinode n) (hn : n ≤ FSSIZE)
    (hbound : ∀ j, 1 ≤ j → j < st.freeinode → v.size j ≤ MAXFILE * BSIZE)
    (hmarked : ∀ b, b < sb.size → marked st.image b = decide (b < n)) : WellFormed st := by
  have hentry := fun x => OnDisk.entry_eq h hni hl hn hbound (x := x)
  have hslots := h.slots_eq hni
  refine ⟨fun i _ hi => hi.trans_le hni, fun x hx => ?_, fun x hx => ?_, fun x hx y hy hxy => ?_,
    fun b hb => ?_⟩
  · rw [hslots] at hx
    rw [hentry x hx]
    exact (hl.mem hx).2.trans_le hn
  · rw [hslots] at hx
    rw [hentry x hx]
    exact Nat.ne_of_gt (Nat.lt_of_lt_of_le (by decide) (hl.mem hx).1)
  · rw [hslots] at hx hy
    rw [hentry x hx, hentry y hy] at hxy
    exact hl.inj hx hy hxy
  · rw [hmarked b hb, decide_eq_true_eq, hslots]
    constructor
    · intro hlt
      by_cases hmeta : b < nmeta
      · exact .inl hmeta
      · obtain ⟨x, hx, he⟩ := hl.bij.surjOn ⟨Nat.not_lt.mp hmeta, hlt⟩
        exact .inr ⟨x, hx, (hentry x hx).trans he⟩
    · rintro (hmeta | ⟨x, hx, rfl⟩)
      · exact Nat.lt_of_lt_of_le hmeta hl.nb_ge
      · rw [hentry x hx]
        exact (hl.mem hx).2

theorem mkfs_run (h : mkfs inputs = some st) :
    st.freeinode = inputs.length + 2 ∧ (inputs.length + 2 ≤ NINODES → ∃ v nb,
      Layout v st.freeinode nb ∧ nb ≤ FSSIZE ∧
      (∀ j, 1 ≤ j → j < st.freeinode → v.size j ≤ MAXFILE * BSIZE) ∧
      v.size ROOTINO = 16 * (inputs.length + 2) ∧
      OnDisk st.image (v.withInode ROOTINO ((v.size ROOTINO / BSIZE + 1) * BSIZE) (v.addr ROOTINO)) ∧
      ∀ b, b < sb.size → marked st.image b = decide (b < nb)) := by
  obtain ⟨st0, hroot, h⟩ := Option.bind_eq_some_iff.mp h
  obtain ⟨st1, hfiles, h⟩ := Option.bind_eq_some_iff.mp h
  obtain ⟨st2, hfix, h⟩ := Option.bind_eq_some_iff.mp h
  obtain ⟨v0, h0, hfi0, hv0⟩ := good_withRoot hroot
  have hfi1 : st1.freeinode = inputs.length + 2 := by
    rw [addFiles_freeinode inputs hfiles, hfi0, Nat.add_comm]
  have hfi2 : st2.freeinode = st1.freeinode := by
    obtain ⟨din, -, hw⟩ := Option.bind_eq_some_iff.mp hfix
    exact winode_freeinode hw
  have hfi : st.freeinode = st2.freeinode := by
    unfold balloc at h
    split at h
    case isFalse => cases h
    obtain rfl := Option.some.inj h
    exact wsect_freeinode st2 _ _
  refine ⟨by rw [hfi, hfi2, hfi1], fun hle => ?_⟩
  obtain ⟨v, hgood, hv⟩ := h0.addFiles inputs (by rw [hfi0]) (by rw [hfi0]; omega) hfiles
  have hsize : v.size ROOTINO = 16 * (inputs.length + 2) := by
    rw [hv, hv0]
    omega
  have hsmall : (v.size ROOTINO / BSIZE + 1) * BSIZE < 2 ^ 32 := by
    rw [hsize, show BSIZE = 1024 from rfl]
    rw [show NINODES = 200 from rfl] at hle
    omega
  obtain ⟨hdisk, -, hfb, hfs⟩ := hgood.fixRoot hfix hsmall
  obtain ⟨hdisk', -, hmarked⟩ := balloc_spec (hfs.trans hgood.fsize) hdisk h
  refine ⟨v, st2.freeblock, ?_, ?_, ?_, hsize, hdisk', hmarked⟩
  · rw [hfi, hfi2, hfb]
    exact hgood.layout
  · rw [hfb]
    exact hgood.full
  · rw [hfi, hfi2]
    exact hgood.bound

/-- **The hole in the root directory**, when its entries fill its last block. -/
theorem root_hole (h : mkfs inputs = some st) (hlen : inputs.length + 2 ≤ NINODES)
    (hmod : (inputs.length + 2) % 64 = 0) : ¬WellFormed st := by
  intro hwf
  obtain ⟨hfi, hrun⟩ := mkfs_run h
  obtain ⟨v, nb, hl, -, -, hsize, hdisk, -⟩ := hrun hlen
  rw [show NINODES = 200 from rfl] at hlen
  have hq : v.size ROOTINO / BSIZE < NDIRECT := by
    rw [hsize, show BSIZE = 1024 from rfl, show NDIRECT = 12 from rfl]
    omega
  have hblocks : v.blocks ROOTINO = v.size ROOTINO / BSIZE := blocks_of_dvd (by
    rw [hsize, show BSIZE = 1024 from rfl]
    omega)
  have hroot : 1 ≤ ROOTINO ∧ ROOTINO < st.freeinode := ⟨Nat.le_refl _, by rw [hfi]; exact Nat.le_add_left _ _⟩
  have hlt : ROOTINO < NINODES := by decide
  have hzero : v.addr ROOTINO (v.size ROOTINO / BSIZE) = 0 := by
    have := hl.zero ROOTINO hroot.1 hroot.2 _ hblocks.le (hq.trans (by decide)) (.inl hq)
    rwa [View.entry, if_pos hq] at this
  -- the slot after the last block
  refine hwf.ne (ROOTINO, some (v.size ROOTINO / BSIZE)) ⟨hroot.1, hroot.2, ?_⟩ ?_
  · show _ < View.blocks _ _
    rw [View.blocks, hdisk.size ROOTINO hlt id]
    simp only [View.withInode, update_self]
    rw [show BSIZE = 1024 from rfl]
    omega
  · rw [View.entry, if_pos hq, hdisk.addr ROOTINO hlt id _ hq.le]
    simp only [View.withInode, update_self]
    exact hzero

/-- **When `mkfs` produces a well-formed image**: whenever it finishes, exactly if there are at most 198 files
and the entries of the root directory do not fill its last block. -/
theorem mkfs_wellFormed_iff (h : mkfs inputs = some st) :
    WellFormed st ↔ inputs.length ≤ 198 ∧ (inputs.length + 2) % 64 ≠ 0 := by
  obtain ⟨hfi, hrun⟩ := mkfs_run h
  constructor
  · intro hwf
    have hlen : inputs.length ≤ 198 := by
      have := hwf.inodes (inputs.length + 1) (Nat.le_add_left _ _) (by rw [hfi]; omega)
      rw [show sb.ninodes = 200 from rfl] at this
      omega
    exact ⟨hlen, fun hmod => root_hole h (Nat.add_le_add_right hlen 2) hmod hwf⟩
  · rintro ⟨hlen, hmod⟩
    have hni : inputs.length + 2 ≤ NINODES := Nat.add_le_add_right hlen 2
    obtain ⟨v, nb, hl, hnb, hbound, hsize, hdisk, hmarked⟩ := hrun hni
    have hblocks : v.blocks ROOTINO = v.size ROOTINO / BSIZE + 1 := blocks_of_not_dvd (by
      rw [hsize, show BSIZE = 1024 from rfl]
      omega)
    refine OnDisk.wellFormed hdisk (hfi ▸ hni) (hl.within ?_) hnb (fun j h1 hj => ?_) hmarked
    · rw [hblocks]
      exact blocks_of_dvd (Nat.mul_mod_left _ _) |>.trans (Nat.mul_div_cancel _ (by decide))
    · by_cases hroot : j = ROOTINO
      · simp only [View.withInode, hroot, update_self]
        rw [hsize, show BSIZE = 1024 from rfl, show MAXFILE = 268 from rfl]
        omega
      · simp only [View.withInode, update_of_ne hroot]
        exact hbound j h1 hj

/-- Two files, one of which is read in two pieces. -/
def twoFiles : List Input :=
  [⟨chars "README", some []⟩, ⟨chars "user/_cat", some [⟨[1, 2, 3], by decide⟩, ⟨[4], by decide⟩]⟩]

set_option maxRecDepth 100000 in
theorem mkfs_wellFormed_twoFiles : ∃ st, mkfs twoFiles = some st ∧ WellFormed st := by
  have hsome : (mkfs twoFiles).isSome = true := by
    rw [mkfs, withRoot, zeroed_eq]
    decide +kernel
  obtain ⟨st, hst⟩ := Option.isSome_iff_exists.mp hsome
  exact ⟨st, hst, (mkfs_wellFormed_iff hst).mpr ⟨by decide, by decide⟩⟩

def sixtyTwo : List Input := (List.range 62).map fun k => ⟨[97, UInt8.ofNat (48 + k)], some []⟩

set_option maxRecDepth 100000 in
/-- With sixty-two files the entries of the root directory fill its block. -/
theorem mkfs_hole_sixtyTwo : ∃ st, mkfs sixtyTwo = some st ∧ ¬WellFormed st := by
  have hsome : (mkfs sixtyTwo).isSome = true := by
    rw [mkfs, withRoot, zeroed_eq]
    decide +kernel
  obtain ⟨st, hst⟩ := Option.isSome_iff_exists.mp hsome
  exact ⟨st, hst, root_hole hst (by decide) (by decide)⟩

end Xv6Freezer.Mkfs

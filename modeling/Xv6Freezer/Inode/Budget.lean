import Xv6Freezer.Inode.Basic

/-! # The log budget of a write

How many different blocks `writei` logs. The indirect block is paid for in advance (`spentOn`); a block of the
file then costs itself and a bitmap block. **Each chunk of `filewrite` stays within `MAXOPBLOCKS`**
(`filewrite_budget`).
-/

namespace Xv6Freezer.Inode

open Function Lib
open Mkfs (DINODE IPB BPB)

variable {sb : Superblock} {ip ip' : Inode} {s s' s'' : State} {F G : Finset Nat} {b c bn off n k : Nat}

/-! ## What is logged -/

/-- Between two states of a transaction, blocks of `A` have been logged. -/
structure Logs (A : Finset Nat) (s s' : State) : Prop where
  outstanding : s'.outstanding = s.outstanding
  ended : s'.ended = s.ended
  logged : s'.logged.toFinset ⊆ A ∪ s.logged.toFinset

theorem Logs.refl (A : Finset Nat) (s : State) : Logs A s s := ⟨rfl, rfl, Finset.subset_union_right⟩

theorem wp_log_write {Q : Unit → State → Prop} (hout : 0 < s.outstanding) :
    wp (log_write b) Q s ↔ Q () { s with logged := b :: s.logged } := by
  rw [log_write, wp_bind, wp_get, if_neg (by omega), wp_modify]

theorem ballocLoop_logs {rounds : Nat} (hout : 0 < s.outstanding) :
    wp (ballocLoop sb rounds b) (fun r s' => ∃ c, Logs {c, r} s s') s := by
  induction rounds generalizing b with
  | zero => exact wp_pure.mpr ⟨0, .refl _ s⟩
  | succ rounds ih =>
    rw [ballocLoop]
    by_cases hb : b < sb.size
    · rw [if_pos hb, wp_bind, wp_get]
      dsimp only
      split
      · rename_i bi _
        rw [wp_bind, setBytes, wp_modify, wp_bind]
        refine (wp_log_write ?_).mpr ?_
        · exact hout
        rw [wp_bind, bzero, wp_bind, setBytes, wp_modify]
        refine (wp_log_write ?_).mpr (wp_pure.mpr ⟨BBLOCK sb b, rfl, rfl, ?_⟩)
        · exact hout
        dsimp only
        rw [List.toFinset_cons, List.toFinset_cons, Finset.insert_union, Finset.insert_comm,
          Finset.insert_eq (b + bi) s.logged.toFinset]
      · exact ih
    · rw [if_neg hb]
      exact wp_pure.mpr ⟨0, .refl _ s⟩

theorem balloc_logs (hout : 0 < s.outstanding) :
    wp (balloc sb) (fun r s' => ∃ c, Logs {c, r} s s') s := ballocLoop_logs hout

/-! ## The cost of a block -/

/-- What has been spent when the blocks `F` have been logged. -/
def spentOn (ip : Inode) (F : Finset Nat) : Nat :=
  if ip.addrs NDIRECT = 0 then F.card + 2 else (insert (ip.addrs NDIRECT) F).card

theorem card_le_spentOn (ip : Inode) (F : Finset Nat) : F.card ≤ spentOn ip F := by
  unfold spentOn
  split
  · omega
  · exact Finset.card_le_card (Finset.subset_insert _ _)

theorem spentOn_mono (ip : Inode) (h : F ⊆ G) : spentOn ip F ≤ spentOn ip G := by
  unfold spentOn
  split
  · exact Nat.add_le_add_right (Finset.card_le_card h) 2
  · exact Finset.card_le_card (Finset.insert_subset_insert _ h)

theorem spentOn_insert (ip : Inode) (b : Nat) (F : Finset Nat) :
    spentOn ip (insert b F) ≤ spentOn ip F + 1 := by
  unfold spentOn
  split
  · have := Finset.card_insert_le b F
    omega
  · rw [Finset.insert_comm]
    exact Finset.card_insert_le b _

theorem spentOn_pair (ip : Inode) (h : G ⊆ {c, b} ∪ F) : spentOn ip G ≤ spentOn ip F + 2 := by
  have hmono : spentOn ip G ≤ spentOn ip (insert c (insert b F)) := spentOn_mono ip (by
    rwa [Finset.insert_union, ← Finset.insert_eq] at h)
  have h1 := spentOn_insert ip c (insert b F)
  have h2 := spentOn_insert ip b F
  omega

theorem spentOn_indirect (hne : ip.addrs NDIRECT ≠ 0) :
    spentOn ip (insert (ip.addrs NDIRECT) F) = spentOn ip F := by
  rw [spentOn, spentOn, if_neg hne, if_neg hne, Finset.insert_idem]

theorem spentOn_alloc (h0 : ip.addrs NDIRECT = 0) (hb : b ≠ 0) (h : G ⊆ {c, b} ∪ F) :
    spentOn { ip with addrs := update ip.addrs NDIRECT b } G ≤ spentOn ip F := by
  simp only [spentOn, update_self, if_neg hb, if_pos h0]
  have hsub : insert b G ⊆ insert c (insert b F) := by
    rw [Finset.insert_union, ← Finset.insert_eq] at h
    exact Finset.insert_subset (Finset.mem_insert_of_mem (Finset.mem_insert_self b F)) h
  have h1 := Finset.card_le_card hsub
  have h2 := Finset.card_insert_le c (insert b F)
  have h3 := Finset.card_insert_le b F
  omega

/-- The inode has the blocks that `addrs` can show for the first `n` bytes. -/
def Solid (ip : Inode) (n : Nat) : Prop :=
  (∀ k < NDIRECT, k * BSIZE < n → ip.addrs k ≠ 0) ∧ (NDIRECT * BSIZE < n → ip.addrs NDIRECT ≠ 0)

theorem HoleFree.solid {d : Bytes} (h : HoleFree d ip) : Solid ip ip.size := by
  refine ⟨fun k hk hlt => ?_, fun hlt h0 => h.mapped NDIRECT hlt ?_⟩
  · have := h.mapped k hlt
    rwa [slotOf, if_pos hk, slot, if_pos hk.le] at this
  · rw [slotOf, if_neg (Nat.lt_irrefl _), slot, if_neg (by omega), if_pos h0]

/-- Blocks are only added. -/
structure Keeps (ip ip' : Inode) : Prop where
  inum : ip'.inum = ip.inum
  size : ip'.size = ip.size
  addrs : ∀ k, ip.addrs k ≠ 0 → ip'.addrs k ≠ 0

theorem Keeps.refl (ip : Inode) : Keeps ip ip := ⟨rfl, rfl, fun _ h => h⟩

theorem Keeps.trans {ip'' : Inode} (h : Keeps ip ip') (h' : Keeps ip' ip'') : Keeps ip ip'' :=
  ⟨h'.inum.trans h.inum, h'.size.trans h.size, fun k hk => h'.addrs k (h.addrs k hk)⟩

theorem Keeps.update (k : Nat) (hb : b ≠ 0) : Keeps ip { ip with addrs := Function.update ip.addrs k b } := by
  refine ⟨rfl, rfl, fun j hj => ?_⟩
  by_cases hjk : j = k
  · subst hjk
    show Function.update ip.addrs j b j ≠ 0
    rwa [update_self]
  · show Function.update ip.addrs k b j ≠ 0
    rwa [update_of_ne hjk]

/-- The slot of `addrs` through which block `bn` is found. -/
def door (bn : Nat) : Nat := if bn < NDIRECT then bn else NDIRECT

/-- What block `bn` costs. -/
def mapCost (ip : Inode) (bn : Nat) : Nat := if bn < NDIRECT ∧ ip.addrs bn ≠ 0 then 1 else 2

structure BmapCost (ip : Inode) (bn : Nat) (s : State) (r : Nat × Inode) (s' : State) : Prop where
  outstanding : s'.outstanding = s.outstanding
  ended : s'.ended = s.ended
  spent : spentOn r.2 (insert r.1 s'.logged.toFinset) ≤ spentOn ip s.logged.toFinset + mapCost ip bn
  keeps : Keeps ip r.2
  found : r.1 ≠ 0 → r.2.addrs (door bn) ≠ 0

theorem bmapAddr_logs (k : Nat) (hout : 0 < s.outstanding) :
    wp (bmapAddr sb ip k) (fun r s' => Keeps ip r.2 ∧ r.2.addrs k = r.1 ∧
      (∀ j ≠ k, r.2.addrs j = ip.addrs j) ∧ (ip.addrs k ≠ 0 → s' = s ∧ r.2 = ip) ∧
      (ip.addrs k = 0 → (∃ c, Logs {c, r.1} s s') ∧
        (r.1 = 0 → r.2 = ip) ∧ (r.1 ≠ 0 → r.2 = { ip with addrs := update ip.addrs k r.1 }))) s := by
  rw [bmapAddr]
  by_cases h0 : ip.addrs k = 0
  · rw [if_pos h0, wp_bind]
    refine wp_mono (balloc_logs hout) fun r s' hlogs => ?_
    by_cases hr : r = 0
    · rw [if_pos hr, wp_pure]
      rw [hr] at hlogs
      exact ⟨.refl ip, h0, fun _ _ => rfl, fun hne => absurd h0 hne,
        fun _ => ⟨hlogs, fun _ => rfl, fun hne => absurd rfl hne⟩⟩
    · rw [if_neg hr, wp_pure]
      exact ⟨.update k hr, update_self _ _ _, fun j hj => update_of_ne hj _ _,
        fun hne => absurd h0 hne, fun _ => ⟨hlogs, fun he => absurd he hr, fun _ => rfl⟩⟩
  · rw [if_neg h0, wp_pure]
    exact ⟨.refl ip, rfl, fun _ _ => rfl, fun _ => ⟨rfl, rfl⟩, fun he => absurd he h0⟩

theorem bmap_cost (hbn : bn < MAXFILE) (hout : 0 < s.outstanding) :
    wp (bmap sb ip bn) (fun r s' => BmapCost ip bn s r s') s := by
  rw [bmap]
  by_cases hd : bn < NDIRECT
  · rw [if_pos hd]
    refine wp_mono (bmapAddr_logs bn hout) ?_
    rintro ⟨addr, ip'⟩ s' ⟨hk, haddr, hother, hold, hnew⟩
    have hind : ip'.addrs NDIRECT = ip.addrs NDIRECT := hother _ (by omega)
    have hspent : ∀ F, spentOn ip' F = spentOn ip F := fun F => by rw [spentOn, spentOn, hind]
    have hfound : addr ≠ 0 → ip'.addrs (door bn) ≠ 0 := fun hne => by
      rw [door, if_pos hd]
      exact haddr.symm ▸ hne
    by_cases h0 : ip.addrs bn = 0
    · obtain ⟨⟨c, hlogs⟩, -, -⟩ := hnew h0
      refine ⟨hlogs.outstanding, hlogs.ended, ?_, hk, hfound⟩
      rw [hspent, mapCost, if_neg (fun h => h.2 h0)]
      exact spentOn_pair _ (Finset.insert_subset (by simp) hlogs.logged)
    · obtain ⟨rfl, rfl⟩ := hold h0
      refine ⟨rfl, rfl, ?_, hk, hfound⟩
      rw [mapCost, if_pos ⟨hd, h0⟩]
      exact spentOn_insert _ _ _
  · have hin : bn - NDIRECT < NINDIRECT := by
      unfold MAXFILE at hbn
      omega
    have hcost : mapCost ip bn = 2 := if_neg fun h => hd h.1
    rw [if_neg hd, if_pos hin, wp_bind]
    refine wp_mono (bmapAddr_logs NDIRECT hout) ?_
    rintro ⟨addr, ip1⟩ s1 ⟨hk, haddr, -, hold, hnew⟩
    dsimp only at haddr hold hnew ⊢
    by_cases hz : addr = 0
    · -- there is no indirect block
      subst hz
      have h0 : ip.addrs NDIRECT = 0 := by
        by_contra hne
        rw [(hold hne).2] at haddr
        exact hne haddr
      obtain ⟨⟨c, hlogs⟩, hip, -⟩ := hnew h0
      rw [if_pos rfl, wp_pure]
      refine ⟨hlogs.outstanding, hlogs.ended, ?_, hk, fun hne => absurd rfl hne⟩
      rw [hip rfl, hcost]
      exact spentOn_pair _ (Finset.insert_subset (by simp) hlogs.logged)
    · -- the indirect block is paid for
      have hpaid : s1.outstanding = s.outstanding ∧ s1.ended = s.ended ∧
          spentOn ip1 s1.logged.toFinset ≤ spentOn ip s.logged.toFinset := by
        by_cases h0 : ip.addrs NDIRECT = 0
        · obtain ⟨⟨c, hlogs⟩, -, hip⟩ := hnew h0
          refine ⟨hlogs.outstanding, hlogs.ended, ?_⟩
          rw [hip hz]
          exact spentOn_alloc h0 hz hlogs.logged
        · obtain ⟨rfl, rfl⟩ := hold h0
          exact ⟨rfl, rfl, Nat.le_refl _⟩
      obtain ⟨hout1, hended1, hspent1⟩ := hpaid
      have hfound : ip1.addrs (door bn) ≠ 0 := by
        rw [door, if_neg hd, haddr]
        exact hz
      rw [if_neg hz, wp_bind, wp_get]
      by_cases ha : s1.disk.loadLE (addr * BSIZE + 4 * (bn - NDIRECT)) 4 = 0
      · rw [if_pos ha, wp_bind]
        refine wp_mono (balloc_logs (hout1 ▸ hout)) ?_
        rintro b s2 ⟨c, hlogs⟩
        by_cases hb : b ≠ 0
        · rw [if_pos hb, wp_bind, setBytes, wp_modify, wp_bind]
          refine (wp_log_write ?_).mpr (wp_pure.mpr ?_)
          · exact (hlogs.outstanding.trans hout1).symm ▸ hout
          refine ⟨hlogs.outstanding.trans hout1, hlogs.ended.trans hended1, ?_, hk, fun _ => hfound⟩
          dsimp only
          rw [List.toFinset_cons, Finset.insert_comm, hcost, ← haddr,
            spentOn_indirect (by rw [haddr]; exact hz)]
          have := spentOn_pair ip1 (Finset.insert_subset (by simp) hlogs.logged :
            insert b s2.logged.toFinset ⊆ {c, b} ∪ s1.logged.toFinset)
          omega
        · rw [if_neg hb, wp_pure]
          obtain rfl : b = 0 := not_not.mp hb
          refine ⟨hlogs.outstanding.trans hout1, hlogs.ended.trans hended1, ?_, hk, fun _ => hfound⟩
          show spentOn ip1 (insert 0 s2.logged.toFinset) ≤ _
          rw [hcost]
          have := spentOn_pair ip1 (Finset.insert_subset (by simp) hlogs.logged :
            insert 0 s2.logged.toFinset ⊆ {c, 0} ∪ s1.logged.toFinset)
          omega
      · rw [if_neg ha, wp_pure]
        refine ⟨hout1, hended1, ?_, hk, fun _ => hfound⟩
        rw [hcost]
        exact (spentOn_insert ip1 _ s1.logged.toFinset).trans (by omega)

/-! ## The loop of `writei` -/

def blocksAt (off r : Nat) : Nat := (off % BSIZE + r + (BSIZE - 1)) / BSIZE

/-- What `r` bytes from `off` on cost. -/
def writeCost (ip : Inode) (off r : Nat) : Nat :=
  if r = 0 then 0 else mapCost ip (off / BSIZE) + 2 * (blocksAt off r - 1)

theorem mapCost_le (ip : Inode) (bn : Nat) : mapCost ip bn ≤ 2 := by
  unfold mapCost
  split <;> omega

theorem writeCost_step (ip ip' : Inode) (off : Nat) {r : Nat} (hr : 0 < r) :
    mapCost ip (off / BSIZE) + writeCost ip' (off + min r (BSIZE - off % BSIZE))
      (r - min r (BSIZE - off % BSIZE)) ≤ writeCost ip off r := by
  rw [writeCost, writeCost, if_neg hr.ne']
  refine Nat.add_le_add_left ?_ _
  split
  · exact Nat.zero_le _
  · rename_i hrest
    have hmap := mapCost_le ip' ((off + min r (BSIZE - off % BSIZE)) / BSIZE)
    unfold blocksAt
    unfold BSIZE at *
    omega

structure LoopCost (ip : Inode) (N off r : Nat) (s : State) (x : Inode × Nat × Nat) (s' : State) : Prop where
  outstanding : s'.outstanding = s.outstanding
  ended : s'.ended = s.ended
  spent : spentOn x.1 s'.logged.toFinset ≤ spentOn ip s.logged.toFinset + writeCost ip off r
  keeps : Keeps ip x.1
  solid : Solid x.1 (max N x.2.1)

theorem Solid.step {N m : Nat} (h : Solid ip (max N off)) (hk : Keeps ip ip')
    (hfound : ip'.addrs (door (off / BSIZE)) ≠ 0) (hm : m ≤ BSIZE - off % BSIZE) :
    Solid ip' (max N (off + m)) := by
  have hmod : off % BSIZE < BSIZE := Nat.mod_lt _ (by decide)
  have hdiv := Nat.div_add_mod' off BSIZE
  refine ⟨fun k hk' hlt => ?_, fun hlt => ?_⟩
  · by_cases hlt' : k * BSIZE < max N off
    · exact hk.addrs k (h.1 k hk' hlt')
    · obtain rfl : k = off / BSIZE := by
        unfold BSIZE at *
        omega
      rwa [door, if_pos hk'] at hfound
  · by_cases hlt' : NDIRECT * BSIZE < max N off
    · exact hk.addrs NDIRECT (h.2 hlt')
    · rwa [door, if_neg (by unfold BSIZE at *; omega)] at hfound

theorem writeLoop_cost {src : List UInt8} {evicted : Bool} {N rounds tot : Nat} (hout : 0 < s.outstanding)
    (hmax : off + (n - tot) ≤ MAXFILE * BSIZE) (hs : Solid ip (max N off)) :
    wp (writeLoop sb src evicted n rounds ip off tot)
      (fun x s' => LoopCost ip N off (n - tot) s x s') s := by
  induction rounds generalizing ip off tot s with
  | zero => exact wp_pure.mpr ⟨rfl, rfl, Nat.le_add_right _ _, .refl ip, hs⟩
  | succ rounds ih =>
    rw [writeLoop]
    by_cases htot : tot < n
    · have hbn : off / BSIZE < MAXFILE := (Nat.div_lt_iff_lt_mul (by decide)).mpr (by omega)
      rw [if_pos htot, wp_bind]
      refine wp_mono (bmap_cost hbn hout) ?_
      rintro ⟨addr, ip'⟩ s1 hB
      have hcost := writeCost_step ip ip' off (Nat.sub_pos_of_lt htot)
      -- leaving the loop after `bmap`
      have hstop : LoopCost ip N off (n - tot) s (ip', off, tot) s1 := by
        refine ⟨hB.outstanding, hB.ended, ?_, hB.keeps, ?_⟩
        · have h1 := spentOn_mono ip' (Finset.subset_insert addr s1.logged.toFinset)
          have h2 := hB.spent
          dsimp only at h2 ⊢
          omega
        · exact ⟨fun k hk hlt => hB.keeps.addrs k (hs.1 k hk hlt), fun hlt => hB.keeps.addrs _ (hs.2 hlt)⟩
      dsimp only
      by_cases haddr : addr = 0
      · rw [if_pos haddr, wp_pure]
        exact hstop
      rw [if_neg haddr]
      split
      · split
        · exact wp_pure.mpr hstop
        · rw [wp_bind, setBytes, wp_modify, wp_pure]
          exact ⟨hstop.outstanding, hstop.ended, hstop.spent, hstop.keeps, hstop.solid⟩
      · rw [wp_bind, setBytes, wp_modify, wp_bind]
        refine (wp_log_write ?_).mpr ?_
        · exact hB.outstanding.symm ▸ hout
        have hsub : n - (tot + min (n - tot) (BSIZE - off % BSIZE)) =
            n - tot - min (n - tot) (BSIZE - off % BSIZE) := Nat.sub_add_eq _ _ _
        refine wp_mono (ih ?_ (by omega) (hs.step hB.keeps (hB.found haddr) (Nat.min_le_right _ _)))
          fun x s2 h₂ => ⟨h₂.outstanding.trans hB.outstanding, h₂.ended.trans hB.ended, ?_,
            hB.keeps.trans h₂.keeps, h₂.solid⟩
        · exact hB.outstanding.symm ▸ hout
        · have h1 := h₂.spent
          have h2 := hB.spent
          rw [hsub] at h1
          dsimp only at h1 h2
          rw [List.toFinset_cons] at h1
          omega
    · rw [if_neg htot]
      exact wp_pure.mpr ⟨rfl, rfl, Nat.le_add_right _ _, .refl ip, hs⟩

/-! ## `writei` and `filewrite` -/

structure ChunkCost (s : State) (ip : Inode) (s' : State) : Prop where
  outstanding : s'.outstanding = s.outstanding
  ended : s'.ended = s.ended
  card : s'.logged.toFinset.card ≤ MAXOPBLOCKS
  solid : Solid ip ip.size

theorem chunk_le (hs : Solid ip ip.size) (hoff : off ≤ ip.size) (hn : n ≤ maxChunk) :
    spentOn ip ∅ + writeCost ip off n + 1 ≤ MAXOPBLOCKS := by
  have hmod : off % BSIZE < BSIZE := Nat.mod_lt _ (by decide)
  have hblocks : blocksAt off n ≤ 4 := by
    unfold blocksAt
    unfold maxChunk MAXOPBLOCKS BSIZE at *
    omega
  have hmap := mapCost_le ip (off / BSIZE)
  have hcost : writeCost ip off n ≤ mapCost ip (off / BSIZE) + 2 * (blocksAt off n - 1) := by
    unfold writeCost
    split
    · exact Nat.zero_le _
    · exact Nat.le_refl _
  unfold MAXOPBLOCKS
  by_cases h0 : ip.addrs NDIRECT = 0
  · have hspent : spentOn ip ∅ = 2 := by rw [spentOn, if_pos h0, Finset.card_empty]
    by_cases halign : off % BSIZE = 0
    · have hthree : blocksAt off n ≤ 3 := by
        unfold blocksAt
        unfold maxChunk MAXOPBLOCKS BSIZE at *
        omega
      omega
    · -- the first block is there
      have hdiv := Nat.div_add_mod' off BSIZE
      have hsmall : ip.size ≤ NDIRECT * BSIZE := Nat.le_of_not_lt fun hlt => hs.2 hlt h0
      have hdirect : off / BSIZE < NDIRECT := (Nat.div_lt_iff_lt_mul (by decide)).mpr (by
        unfold NDIRECT BSIZE at *
        omega)
      have hone : mapCost ip (off / BSIZE) = 1 := if_pos ⟨hdirect, hs.1 _ hdirect (by omega)⟩
      omega
  · have hspent : spentOn ip ∅ = 1 := by
      rw [spentOn, if_neg h0, insert_empty_eq, Finset.card_singleton]
    omega

theorem writei_cost {src : List UInt8} {evicted : Bool} (hout : 0 < s.outstanding) (hempty : s.logged = [])
    (hs : Solid ip ip.size) (hn : n ≤ maxChunk) :
    wp (writei sb ip src evicted off n) (fun r s' => ChunkCost s r.2 s') s := by
  have hnone : s.logged.toFinset = ∅ := by rw [hempty, List.toFinset_nil]
  have hbad : ChunkCost s ip s := ⟨rfl, rfl, by rw [hnone]; exact Nat.zero_le _, hs⟩
  rw [writei]
  by_cases h1 : off > ip.size ∨ u32 (off + n) < off
  · rw [if_pos h1]
    exact wp_pure.mpr hbad
  rw [if_neg h1]
  by_cases h2 : u32 (off + n) > MAXFILE * BSIZE
  · rw [if_pos h2]
    exact wp_pure.mpr hbad
  rw [if_neg h2, wp_bind]
  have hoff : off ≤ ip.size := by omega
  have hmax : off + (n - 0) ≤ MAXFILE * BSIZE := by
    have hM : MAXFILE * BSIZE = 274432 := by decide
    have hC : maxChunk = 3072 := by decide
    unfold u32 at *
    omega
  have hs' : Solid ip (max ip.size off) := by rwa [max_eq_left hoff]
  refine wp_mono (writeLoop_cost hout hmax hs') ?_
  rintro ⟨ip', off', tot⟩ s1 h₁
  have hsize := h₁.keeps.size
  have hcard := h₁.spent
  have hprice := chunk_le hs hoff hn
  rw [hnone] at hcard
  dsimp only at hsize hcard ⊢
  -- the size that is written back is that of the blocks that have been found
  have hsolid : Solid (if off' > ip'.size then { ip' with size := off' } else ip')
      (if off' > ip'.size then { ip' with size := off' } else ip').size := by
    have h := h₁.solid
    split
    · rename_i hgt
      rw [hsize] at hgt
      rwa [max_eq_right hgt.le] at h
    · rename_i hle
      rw [← hsize] at h
      rwa [max_eq_left (Nat.le_of_not_lt hle)] at h
  rw [wp_bind, iupdate, wp_bind, setBytes, wp_modify]
  refine (wp_log_write ?_).mpr (wp_pure.mpr ⟨h₁.outstanding, h₁.ended, ?_, hsolid⟩)
  · exact h₁.outstanding.symm ▸ hout
  · dsimp only
    rw [List.toFinset_cons]
    have hle := card_le_spentOn ip' s1.logged.toFinset
    have hins := Finset.card_insert_le (IBLOCK sb (if off' > ip'.size then { ip' with size := off' }
      else ip').inum) s1.logged.toFinset
    rw [Nat.sub_zero] at hcard
    omega

theorem filewriteLoop_cost {src : List UInt8} {evicted : Bool} {n : Int} {rounds i : Nat}
    (hs : Solid ip ip.size) :
    wp (filewriteLoop sb src evicted n rounds ip off i) (fun _ s' => ∃ ts, s'.ended = ts ++ s.ended ∧
      ∀ t ∈ ts, t.toFinset.card ≤ MAXOPBLOCKS) s := by
  induction rounds generalizing ip off i s with
  | zero => exact wp_pure.mpr ⟨[], rfl, nofun⟩
  | succ rounds ih =>
    rw [filewriteLoop]
    by_cases hi : (i : Int) < n
    · rw [if_pos hi, wp_bind, begin_op, wp_modify, wp_bind]
      refine wp_mono (writei_cost (Nat.succ_pos _) rfl hs (Nat.min_le_right _ _)) ?_
      rintro ⟨r, ip'⟩ s1 h1
      dsimp only
      rw [wp_bind, end_op, wp_modify]
      have hended : s1.ended = s.ended := h1.ended
      have hcons : s1.logged :: s1.ended = [s1.logged] ++ s.ended := by rw [hended, List.singleton_append]
      split
      · refine wp_pure.mpr ⟨[s1.logged], hcons, fun t ht => ?_⟩
        rw [List.mem_singleton.mp ht]
        exact h1.card
      · refine wp_mono (ih h1.solid) ?_
        rintro _ s2 ⟨ts, hts, hall⟩
        refine ⟨ts ++ [s1.logged], ?_, fun t ht => ?_⟩
        · rw [hts, List.append_assoc]
          exact congrArg (ts ++ ·) hcons
        · rcases List.mem_append.mp ht with ht | ht
          · exact hall t ht
          · rw [List.mem_singleton.mp ht]
            exact h1.card
    · rw [if_neg hi]
      exact wp_pure.mpr ⟨[], rfl, nofun⟩

/-- **`filewrite` stays within its log budget**: for every inode without holes it returns, and none of its
transactions has logged more than `MAXOPBLOCKS` different blocks. -/
theorem filewrite_budget {src : List UInt8} {evicted : Bool} {n : Int} (h : HoleFree s.disk ip) :
    ∃ r s' ts, filewrite sb ip off src evicted n s = .ok (r, s') ∧ s'.ended = ts ++ s.ended ∧
      ∀ t ∈ ts, t.toFinset.card ≤ MAXOPBLOCKS := by
  have hspec : wp (filewrite sb ip off src evicted n) (fun _ s' => ∃ ts, s'.ended = ts ++ s.ended ∧
      ∀ t ∈ ts, t.toFinset.card ≤ MAXOPBLOCKS) s := by
    rw [filewrite, wp_bind]
    exact wp_mono (filewriteLoop_cost h.solid) fun _ s' hs' => wp_pure.mpr hs'
  obtain ⟨r, s', hrun, ts, hts⟩ := wp_iff.mp hspec
  exact ⟨r, s', ts, hrun, hts⟩

def mkfsSb : Superblock :=
  { Mkfs.sb with
    size_lt := by decide
    start_pos := by decide
    inodes_le := by decide
    bitmap_le := by decide }

def zeroState : State := ⟨Mkfs.zeroes, 0, [], []⟩

def emptyInode : Inode := ⟨1, 2, 0, 0, 1, 0, fun _ => 0⟩

theorem filewrite_budget_empty : HoleFree zeroState.disk emptyInode ∧
    ∃ r s' ts, filewrite mkfsSb emptyInode 0 (List.replicate 5000 7) false 5000 zeroState = .ok (r, s') ∧
      s'.ended = ts ++ zeroState.ended ∧ ∀ t ∈ ts, t.toFinset.card ≤ MAXOPBLOCKS := by
  have h : HoleFree zeroState.disk emptyInode := ⟨Nat.zero_le _, fun bn hbn => absurd hbn (Nat.not_lt_zero _)⟩
  exact ⟨h, filewrite_budget h⟩

end Xv6Freezer.Inode

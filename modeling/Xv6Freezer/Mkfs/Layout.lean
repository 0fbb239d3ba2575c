import Xv6Freezer.Mkfs.Basic

/-! # What a laid-out image is

The inodes of an image and what they refer to, without the bytes (`View`). In a `Layout` the *slots* of the
inodes, one for each block and one for the indirect block, are numbered by the blocks handed out
(`Layout.bij`).
-/

namespace Xv6Freezer.Mkfs

open Function
open Set (BijOn EqOn Ico)

structure View where
  size : Nat → Nat
  addr : Nat → Nat → Nat
  ind : Nat → Nat → Nat

abbrev Slot := Nat × Option Nat

namespace View

def blocks (v : View) (i : Nat) : Nat := (v.size i + (BSIZE - 1)) / BSIZE

def entry (v : View) : Slot → Nat
  | (i, some f) => if f < NDIRECT then v.addr i f else v.ind (v.addr i NDIRECT) (f - NDIRECT)
  | (i, none) => v.addr i NDIRECT

/-- A file of `n` blocks uses the slot. -/
def Uses (n : Nat) : Option Nat → Prop
  | some f => f < n
  | none => NDIRECT < n

def slots (v : View) (ni : Nat) : Set Slot :=
  { x | 1 ≤ x.1 ∧ x.1 < ni ∧ Uses (v.blocks x.1) x.2 }

def withInode (v : View) (i n : Nat) (a : Nat → Nat) : View :=
  { v with size := update v.size i n, addr := update v.addr i a }

def withBlock (v : View) (b : Nat) (g : Nat → Nat) : View := { v with ind := update v.ind b g }

end View

open View (Uses)

/-- **The layout** of an image with the inodes below `ni` and the blocks below `nb` in use. -/
structure Layout (v : View) (ni nb : Nat) : Prop where
  /-- Each slot has a block of its own, and each block is in a slot. -/
  bij : BijOn v.entry (v.slots ni) (Ico nmeta nb)
  /-- Slots that are not in use are zero. -/
  zero : ∀ i, 1 ≤ i → i < ni → ∀ f, v.blocks i ≤ f → f < MAXFILE → f < NDIRECT ∨ NDIRECT < v.blocks i →
    v.entry (i, some f) = 0
  /-- So is the slot of an indirect block. -/
  indirect : ∀ i, 1 ≤ i → i < ni → v.blocks i ≤ NDIRECT → v.entry (i, none) = 0
  /-- Blocks that have not been handed out are zero. -/
  fresh : ∀ b, nb ≤ b → ∀ k, k < NINDIRECT → v.ind b k = 0
  nb_ge : nmeta ≤ nb

variable {v : View} {ni nb i j n f b : Nat} {a g : Nat → Nat}

theorem bijOn_insert {α : Type} {e e' : α → Nat} {s : Set α} {lo hi : Nat} {x : α}
    (h : BijOn e s (Ico lo hi)) (hlo : lo ≤ hi) (heq : EqOn e e' s) (hx : e' x = hi) :
    BijOn e' (insert x s) (Ico lo (hi + 1)) := by
  have hins := (h.congr heq).insert (a := x) (by rw [hx]; exact fun hm => Nat.lt_irrefl _ hm.2)
  have hset : insert (e' x) (Ico lo hi) = Ico lo (hi + 1) := by
    ext b
    simp only [hx, Set.mem_insert_iff, Set.mem_Ico]
    omega
  rwa [hset] at hins

namespace View

theorem blocks_withInode_self : (v.withInode i n a).blocks i = (n + (BSIZE - 1)) / BSIZE := by
  simp [blocks, withInode]

theorem blocks_withInode_of_ne (hj : j ≠ i) : (v.withInode i n a).blocks j = v.blocks j := by
  simp [blocks, withInode, hj]

theorem entry_withInode_of_ne {x : Slot} (hx : x.1 ≠ i) : (v.withInode i n a).entry x = v.entry x := by
  obtain ⟨j, _ | f⟩ := x <;> simp only [entry, withInode, update_of_ne hx]

theorem entry_withInode_none : (v.withInode i n a).entry (i, none) = a NDIRECT := by
  simp [entry, withInode]

theorem entry_withInode_some : (v.withInode i n a).entry (i, some f) =
    if f < NDIRECT then a f else v.ind (a NDIRECT) (f - NDIRECT) := by
  simp [entry, withInode]

theorem entry_withInode_addr : (v.withInode i n (v.addr i)).entry = v.entry := by
  funext x
  obtain ⟨j, _ | f⟩ := x <;> simp only [entry, withInode, update_eq_self]

theorem blocks_withBlock : (v.withBlock b g).blocks = v.blocks := rfl

theorem slots_withBlock : (v.withBlock b g).slots ni = v.slots ni := rfl

theorem entry_withBlock {x : Slot} (hx : ∀ f, x.2 = some f → NDIRECT ≤ f → v.addr x.1 NDIRECT ≠ b) :
    (v.withBlock b g).entry x = v.entry x := by
  obtain ⟨j, _ | f⟩ := x
  · rfl
  · by_cases hf : f < NDIRECT
    · simp only [entry, withBlock, if_pos hf]
    · simp only [entry, withBlock, if_neg hf,
        update_of_ne (hx f rfl (Nat.not_lt.mp hf))]

theorem entry_other {s : Option Nat} (hji : j ≠ i)
    (hb : ∀ f, s = some f → NDIRECT ≤ f → v.addr j NDIRECT ≠ b) :
    ((v.withInode i n a).withBlock b g).entry (j, s) = v.entry (j, s) := by
  rw [entry_withBlock, entry_withInode_of_ne hji]
  intro f hf hle
  rw [show ((v.withInode i n a).addr (j, s).1) = v.addr j from update_of_ne hji _ _]
  exact hb f hf hle

theorem slots_grow (h1 : 1 ≤ i) (hi : i < ni) (hn : (n + (BSIZE - 1)) / BSIZE = v.blocks i + 1) :
    (v.withInode i n a).slots ni =
      if v.blocks i = NDIRECT then insert (i, some NDIRECT) (insert (i, none) (v.slots ni))
      else insert (i, some (v.blocks i)) (v.slots ni) := by
  ext ⟨j, s⟩
  by_cases hj : j = i
  · subst hj
    split <;> rename_i hb <;> cases s with
    | none =>
      simp only [slots, Set.mem_insert_iff, Set.mem_ofPred_eq, blocks_withInode_self, hn, Uses,
        Prod.mk.injEq, true_and, reduceCtorEq, false_or, true_or, iff_true]
      omega
    | some f =>
      simp only [slots, Set.mem_insert_iff, Set.mem_ofPred_eq, blocks_withInode_self, hn, Uses,
        Prod.mk.injEq, true_and, Option.some.injEq, reduceCtorEq, false_or]
      omega
  · have hmem : (j, s) ∈ (v.withInode i n a).slots ni ↔ (j, s) ∈ v.slots ni := by
      simp only [slots, Set.mem_ofPred_eq, blocks_withInode_of_ne hj]
    rw [hmem]
    split <;> simp [hj]

end View

open View

namespace Layout

section

variable (h : Layout v ni nb)

include h

theorem mem {x : Slot} (hx : x ∈ v.slots ni) : nmeta ≤ v.entry x ∧ v.entry x < nb := h.bij.mapsTo hx

theorem indirect_mem (h1 : 1 ≤ i) (hi : i < ni) (hb : NDIRECT < v.blocks i) :
    nmeta ≤ v.addr i NDIRECT ∧ v.addr i NDIRECT < nb := h.mem (x := (i, none)) ⟨h1, hi, hb⟩

theorem inj {x y : Slot} (hx : x ∈ v.slots ni) (hy : y ∈ v.slots ni)
    (he : v.entry x = v.entry y) : x = y := h.bij.injOn hx hy he

theorem within (hn : (n + (BSIZE - 1)) / BSIZE = v.blocks i) : Layout (v.withInode i n (v.addr i)) ni nb := by
  have hb : ∀ j, (v.withInode i n (v.addr i)).blocks j = v.blocks j := fun j => by
    by_cases hj : j = i
    · rw [hj, blocks_withInode_self, hn]
    · exact blocks_withInode_of_ne hj
  have hslots : (v.withInode i n (v.addr i)).slots ni = v.slots ni := by
    ext x
    simp only [slots, Set.mem_ofPred_eq, hb]
  refine ⟨?_, fun j h1 hj f hf hmax hor => ?_, fun j h1 hj hle => ?_, h.fresh, h.nb_ge⟩
  · rw [hslots, entry_withInode_addr]
    exact h.bij
  · rw [entry_withInode_addr]
    exact h.zero j h1 hj f (hb j ▸ hf) hmax (hb j ▸ hor)
  · rw [entry_withInode_addr]
    exact h.indirect j h1 hj (hb j ▸ hle)

theorem newInode : Layout (v.withInode ni 0 fun _ => 0) (ni + 1) nb := by
  have hb0 : (v.withInode ni 0 fun _ => 0).blocks ni = 0 := blocks_withInode_self
  have hslots : (v.withInode ni 0 fun _ => 0).slots (ni + 1) = v.slots ni := by
    ext ⟨j, s⟩
    simp only [slots, Set.mem_ofPred_eq]
    by_cases hj : j = ni
    · subst hj
      rw [hb0]
      constructor
      · rintro ⟨-, -, hu⟩
        cases s <;> exact absurd hu (Nat.not_lt_zero _)
      · rintro ⟨-, hlt, -⟩
        exact absurd hlt (Nat.lt_irrefl _)
    · rw [blocks_withInode_of_ne hj]
      exact and_congr_right fun _ => and_congr_left fun _ => by omega
  refine ⟨?_, fun j h1 hj f hf hmax hor => ?_, fun j h1 hj hle => ?_, h.fresh, h.nb_ge⟩
  · rw [hslots]
    exact h.bij.congr fun x hx => (entry_withInode_of_ne (Nat.ne_of_lt hx.2.1)).symm
  · by_cases hjn : j = ni
    · subst hjn
      rw [hb0] at hor
      rw [entry_withInode_some, if_pos (hor.resolve_right (Nat.not_lt_zero _))]
    · rw [blocks_withInode_of_ne hjn] at hf hor
      rw [entry_withInode_of_ne hjn]
      exact h.zero j h1 (by omega) f hf hmax hor
  · by_cases hjn : j = ni
    · subst hjn
      exact entry_withInode_none
    · rw [blocks_withInode_of_ne hjn] at hle
      rw [entry_withInode_of_ne hjn]
      exact h.indirect j h1 (by omega) hle

theorem direct (h1 : 1 ≤ i) (hi : i < ni) (hlt : v.blocks i < NDIRECT)
    (hn : (n + (BSIZE - 1)) / BSIZE = v.blocks i + 1) :
    Layout (v.withInode i n (update (v.addr i) (v.blocks i) nb)) ni (nb + 1) := by
  have hne : NDIRECT ≠ v.blocks i := Nat.ne_of_gt hlt
  refine ⟨?_, fun j h1 hj f hf hmax hor => ?_, fun j h1 hj hle => ?_,
    fun b hb => h.fresh b (by omega), h.nb_ge.trans (Nat.le_succ _)⟩
  · rw [slots_grow h1 hi hn, if_neg hne.symm]
    refine bijOn_insert h.bij h.nb_ge (fun x hx => ?_) ?_
    · obtain ⟨j, s⟩ := x
      by_cases hj : j = i
      · subst hj
        cases s with
        | none => exact absurd hx.2.2 (Nat.lt_asymm hlt)
        | some f =>
          have hf : f < v.blocks j := hx.2.2
          rw [entry_withInode_some, if_pos (hf.trans hlt), update_of_ne (Nat.ne_of_lt hf)]
          exact if_pos (hf.trans hlt)
      · exact (entry_withInode_of_ne hj).symm
    · rw [entry_withInode_some, if_pos hlt, update_self]
  · by_cases hji : j = i
    · subst hji
      rw [blocks_withInode_self, hn] at hf hor
      have hfn : f < NDIRECT := hor.resolve_right (by omega)
      have hz := h.zero j h1 hj f (by omega) hmax (.inl hfn)
      rw [entry_withInode_some, if_pos hfn, update_of_ne (by omega)]
      rwa [entry, if_pos hfn] at hz
    · rw [blocks_withInode_of_ne hji] at hf hor
      rw [entry_withInode_of_ne hji]
      exact h.zero j h1 hj f hf hmax hor
  · by_cases hji : j = i
    · subst hji
      rw [entry_withInode_none, update_of_ne hne]
      exact h.indirect j h1 hj hlt.le
    · rw [blocks_withInode_of_ne hji] at hle
      rw [entry_withInode_of_ne hji]
      exact h.indirect j h1 hj hle

theorem indirect_ne (h1 : 1 ≤ i) (hi : i < ni) (hb : NDIRECT < v.blocks i)
    (h1' : 1 ≤ j) (hj : j < ni) (hb' : NDIRECT < v.blocks j) (hji : j ≠ i) :
    v.addr j NDIRECT ≠ v.addr i NDIRECT := fun he =>
  hji (congrArg Prod.fst (h.inj (x := (j, none)) (y := (i, none)) ⟨h1', hj, hb'⟩ ⟨h1, hi, hb⟩ he))

theorem firstIndirect (h1 : 1 ≤ i) (hi : i < ni) (hb : v.blocks i = NDIRECT)
    (hn : (n + (BSIZE - 1)) / BSIZE = NDIRECT + 1) :
    Layout ((v.withInode i n (update (v.addr i) NDIRECT nb)).withBlock nb
      (update (v.ind nb) 0 (nb + 1))) ni (nb + 2) := by
  have hold : ∀ j s, 1 ≤ j → j < ni → j ≠ i → (∀ f, s = some f → NDIRECT ≤ f → NDIRECT < v.blocks j) →
      ((v.withInode i n (update (v.addr i) NDIRECT nb)).withBlock nb
        (update (v.ind nb) 0 (nb + 1))).entry (j, s) = v.entry (j, s) := by
    intro j s h1 hj hji hs
    exact entry_other hji fun f hf hle => Nat.ne_of_lt (h.indirect_mem h1 hj (hs f hf hle)).2
  refine ⟨?_, fun j h1 hj f hf hmax hor => ?_, fun j h1 hj hle => ?_, fun b hb k hk => ?_,
    h.nb_ge.trans (Nat.le_add_right _ _)⟩
  · rw [slots_withBlock, slots_grow h1 hi (by rw [hb, hn]), if_pos hb]
    refine bijOn_insert (bijOn_insert h.bij h.nb_ge (fun x hx => ?_) ?_)
      (h.nb_ge.trans (Nat.le_succ _)) (fun _ _ => rfl) ?_
    · obtain ⟨j, s⟩ := x
      by_cases hj : j = i
      · subst hj
        have hu := hx.2.2
        rw [show (j, s).1 = j from rfl, hb] at hu
        cases s with
        | none => exact absurd hu (Nat.lt_irrefl _)
        | some f =>
          have hf : f < NDIRECT := hu
          rw [entry_withBlock fun _ hf' hle => absurd hf (by cases hf'; exact Nat.not_lt.mpr hle),
            entry_withInode_some, if_pos hf, update_of_ne (Nat.ne_of_lt hf)]
          exact if_pos hf
      · refine (hold j s hx.1 hx.2.1 hj fun f hf hle => ?_).symm
        cases hf
        exact Nat.lt_of_le_of_lt hle hx.2.2
    · simp [entry, withBlock, withInode]
    · simp [entry, withBlock, withInode]
  · by_cases hji : j = i
    · subst hji
      rw [blocks_withBlock, blocks_withInode_self, hn] at hf
      have hk : f - NDIRECT ≠ 0 := by omega
      have hlt : f - NDIRECT < NINDIRECT := by
        unfold MAXFILE at hmax
        omega
      simp only [entry, withBlock, withInode, update_self, if_neg (show ¬f < NDIRECT by omega),
        update_of_ne hk]
      exact h.fresh nb (Nat.le_refl _) _ hlt
    · rw [blocks_withBlock, blocks_withInode_of_ne hji] at hf hor
      rw [hold j (some f) h1 hj hji fun f' hf' hle => hor.resolve_left (by cases hf'; omega)]
      exact h.zero j h1 hj f hf hmax hor
  · by_cases hji : j = i
    · subst hji
      rw [blocks_withBlock, blocks_withInode_self, hn] at hle
      omega
    · rw [blocks_withBlock, blocks_withInode_of_ne hji] at hle
      rw [hold j none h1 hj hji nofun]
      exact h.indirect j h1 hj hle
  · show update v.ind nb _ b k = 0
    rw [update_of_ne (by omega)]
    exact h.fresh b (by omega) k hk

theorem nextIndirect (h1 : 1 ≤ i) (hi : i < ni) (hb : NDIRECT < v.blocks i)
    (hn : (n + (BSIZE - 1)) / BSIZE = v.blocks i + 1) :
    Layout ((v.withInode i n (v.addr i)).withBlock (v.addr i NDIRECT)
      (update (v.ind (v.addr i NDIRECT)) (v.blocks i - NDIRECT) nb)) ni (nb + 1) := by
  have hold : ∀ j s, 1 ≤ j → j < ni → j ≠ i → (∀ f, s = some f → NDIRECT ≤ f → NDIRECT < v.blocks j) →
      ((v.withInode i n (v.addr i)).withBlock (v.addr i NDIRECT)
        (update (v.ind (v.addr i NDIRECT)) (v.blocks i - NDIRECT) nb)).entry (j, s) =
        v.entry (j, s) := by
    intro j s h1' hj hji hs
    exact entry_other hji fun f hf hle => h.indirect_ne h1 hi hb h1' hj (hs f hf hle) hji
  have hself : ∀ f, f ≠ v.blocks i → ((v.withInode i n (v.addr i)).withBlock (v.addr i NDIRECT)
      (update (v.ind (v.addr i NDIRECT)) (v.blocks i - NDIRECT) nb)).entry (i, some f) =
        v.entry (i, some f) := by
    intro f hf
    by_cases hlt : f < NDIRECT
    · simp [entry, withBlock, withInode, hlt]
    · have hk : f - NDIRECT ≠ v.blocks i - NDIRECT := by omega
      simp [entry, withBlock, withInode, hlt, update_of_ne hk]
  refine ⟨?_, fun j h1' hj f hf hmax hor => ?_, fun j h1' hj hle => ?_, fun b hb' k hk => ?_,
    h.nb_ge.trans (Nat.le_succ _)⟩
  · rw [slots_withBlock, slots_grow h1 hi hn, if_neg (Nat.ne_of_gt hb)]
    refine bijOn_insert h.bij h.nb_ge (fun x hx => ?_) ?_
    · obtain ⟨j, s⟩ := x
      by_cases hj : j = i
      · subst hj
        cases s with
        | none => simp [entry, withBlock, withInode]
        | some f => exact (hself f (Nat.ne_of_lt hx.2.2)).symm
      · refine (hold j s hx.1 hx.2.1 hj fun f hf hle => ?_).symm
        cases hf
        exact Nat.lt_of_le_of_lt hle hx.2.2
    · simp [entry, withBlock, withInode, Nat.not_lt.mpr hb.le]
  · by_cases hji : j = i
    · subst hji
      rw [blocks_withBlock, blocks_withInode_self, hn] at hf
      rw [hself f (by omega)]
      exact h.zero j h1' hj f (by omega) hmax (.inr hb)
    · rw [blocks_withBlock, blocks_withInode_of_ne hji] at hf hor
      rw [hold j (some f) h1' hj hji fun f' hf' hle => hor.resolve_left (by cases hf'; omega)]
      exact h.zero j h1' hj f hf hmax hor
  · by_cases hji : j = i
    · subst hji
      rw [blocks_withBlock, blocks_withInode_self, hn] at hle
      omega
    · rw [blocks_withBlock, blocks_withInode_of_ne hji] at hle
      rw [hold j none h1' hj hji nofun]
      exact h.indirect j h1' hj hle
  · have hlt := (h.indirect_mem h1 hi hb).2
    show update v.ind _ _ b k = 0
    rw [update_of_ne (by omega)]
    exact h.fresh b (by omega) k hk

theorem write (hx : (i, some f) ∈ v.slots ni) : Layout (v.withBlock (v.entry (i, some f)) g) ni nb := by
  have hold : ∀ j s, 1 ≤ j → j < ni → (∀ f, s = some f → NDIRECT ≤ f → NDIRECT < v.blocks j) →
      (v.withBlock (v.entry (i, some f)) g).entry (j, s) = v.entry (j, s) := by
    intro j s h1 hj hs
    refine entry_withBlock fun f' hf' hle he => ?_
    have := h.inj (x := (j, none)) (y := (i, some f)) ⟨h1, hj, hs f' hf' hle⟩ hx he
    cases this
  refine ⟨?_, fun j h1 hj f hf hmax hor => ?_, fun j h1 hj hle => ?_, fun b hb k hk => ?_, h.nb_ge⟩
  · refine h.bij.congr fun x hx => (hold x.1 x.2 hx.1 hx.2.1 fun f hf hle => ?_).symm
    have hu := hx.2.2
    rw [hf] at hu
    exact Nat.lt_of_le_of_lt hle hu
  · rw [hold j (some f) h1 hj fun f' hf' hle => hor.resolve_left (by cases hf'; omega)]
    exact h.zero j h1 hj f hf hmax hor
  · rw [hold j none h1 hj nofun]
    exact h.indirect j h1 hj hle
  · have hlt := (h.mem hx).2
    show update v.ind _ _ b k = 0
    rw [update_of_ne (by omega)]
    exact h.fresh b hb k hk

end

end Layout

end Xv6Freezer.Mkfs

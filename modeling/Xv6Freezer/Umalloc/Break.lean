import Xv6Freezer.Umalloc.Basic

/-! # `malloc` and the break

The bytes of a block are passed to `sbrk`, whose parameter is an `int`; from `2 ^ 31` bytes on the break is
lowered or hardly moves. `malloc` gives memory below the break and does not lower it **exactly if the block,
with its header, has less than `2 ^ 31` bytes** (`malloc_sound_iff`).
-/

namespace Xv6Freezer.Umalloc

open Function

variable {S : Set Nat} {h h' : Heap} {a p q bp n nu fuel nbytes : Nat} {α β : Type}

/-! ## Runs -/

/-- The run ends with `Q`, or stops, and does not lower the break. -/
def Ends (m : M α) (Q : α → Heap → Prop) (h : Heap) : Prop :=
  match m h with
  | .ok a h' => h.brk ≤ h'.brk ∧ Q a h'
  | .error _ h' => h.brk ≤ h'.brk

theorem Ends.pure {Q : α → Heap → Prop} {a : α} (hq : Q a h) : Ends (pure a) Q h := ⟨Nat.le_refl _, hq⟩

theorem Ends.bind {m : M α} {f : α → M β} {Q : β → Heap → Prop}
    (hm : Ends m (fun a h' => Ends (f a) Q h') h) : Ends (m >>= f) Q h := by
  unfold Ends at hm ⊢
  rw [bind_run]
  cases e : m h with
  | error _ h' => rw [e] at hm; exact hm
  | ok a h' =>
    rw [e] at hm
    obtain ⟨hle, hf⟩ := hm
    dsimp only at hf ⊢
    cases e' : f a h' <;> rw [e'] at hf
    · exact ⟨hle.trans hf.1, hf.2⟩
    · exact hle.trans hf

theorem Ends.mono {m : M α} {P Q : α → Heap → Prop} (hm : Ends m P h)
    (hpq : ∀ a h', h.brk ≤ h'.brk → P a h' → Q a h') : Ends m Q h := by
  unfold Ends at hm ⊢
  cases e : m h with
  | error _ h' => rw [e] at hm; exact hm
  | ok a h' => rw [e] at hm; exact ⟨hm.1, hpq a h' hm.1 hm.2⟩

theorem ends_get {Q : Heap → Heap → Prop} (hq : Q h h) : Ends get Q h := ⟨Nat.le_refl _, hq⟩

theorem ends_setFreep {Q : Unit → Heap → Prop} (hq : Q () { h with freep := p }) :
    Ends (setFreep p) Q h := ⟨Nat.le_refl _, hq⟩

theorem mapped_of_le (ha : a + 16 ≤ h.brk) : h.Mapped a :=
  ((Nat.div_mul_le_self _ _).trans_lt (by omega : a + 15 < a + 16)).trans_le ha

theorem ends_load {Q : Header → Heap → Prop} (ha : a + 16 ≤ h.brk) (hq : Q (h.hdr a) h) :
    Ends (load a) Q h := by
  rw [Ends, load_run, if_pos (mapped_of_le ha)]
  exact ⟨Nat.le_refl _, hq⟩

theorem ends_storePtr {Q : Unit → Heap → Prop} (ha : a + 16 ≤ h.brk) (hq : Q () (h.setPtr a q)) :
    Ends (storePtr a q) Q h := by
  rw [Ends, storePtr_run, if_pos (mapped_of_le ha)]
  exact ⟨Nat.le_refl _, hq⟩

theorem ends_storeSize {Q : Unit → Heap → Prop} (ha : a + 16 ≤ h.brk) (hq : Q () (h.setSize a n)) :
    Ends (storeSize a n) Q h := by
  rw [Ends, storeSize_run, if_pos (mapped_of_le ha)]
  exact ⟨Nat.le_refl _, hq⟩

/-! ## Heaps whose blocks are below the break -/

/-- The block at `a`, or at least its header, is below the break. -/
def Heap.Below (h : Heap) (a : Nat) : Prop := a ≠ 0 ∧ a + 16 * max 1 (h.hdr a).size ≤ h.brk

/-- The list of free blocks stays in `S`, and these blocks are below the break. -/
def Heap.Closed (h : Heap) (S : Set Nat) : Prop := ∀ a ∈ S, h.Below a ∧ (h.hdr a).ptr ∈ S

/-- **The heaps of programs**: `base` and the blocks reached from `freep` are below the break. -/
def Heap.Valid (h : Heap) : Prop :=
  h.base ≠ 0 ∧ h.base + 16 ≤ h.brk ∧ (h.freep = 0 ∨ ∃ S, h.freep ∈ S ∧ h.Closed S)

theorem Heap.Below.le (hb : h.Below a) : a + 16 ≤ h.brk := by have := hb.2; omega

@[simp] theorem setPtr_size (h : Heap) (a q b : Nat) : ((h.setPtr a q).hdr b).size = (h.hdr b).size := by
  simp only [Heap.setPtr, Function.update_apply]
  split <;> simp_all

@[simp] theorem setSize_ptr (h : Heap) (a n b : Nat) : ((h.setSize a n).hdr b).ptr = (h.hdr b).ptr := by
  simp only [Heap.setSize, Function.update_apply]
  split <;> simp_all

theorem Heap.Below.setPtr {b : Nat} (hb : h.Below b) : (h.setPtr a q).Below b := by
  rw [Heap.Below, setPtr_size]; exact hb

theorem Heap.Below.setSize {b : Nat} (hb : h.Below b) (ha : a + 16 * n ≤ h.brk) :
    (h.setSize a n).Below b := by
  refine ⟨hb.1, ?_⟩
  have := hb.2
  by_cases e : b = a
  · subst e
    have hn := Nat.mod_le n (2 ^ 32)
    simp only [Heap.setSize, Function.update_self]
    omega
  · simpa [Heap.setSize, Function.update_of_ne e] using this

theorem Heap.Closed.setPtr {T : Set Nat} (hc : h.Closed S) (hq : q ∈ T) (hST : S ⊆ T)
    (hT : ∀ b ∈ T, b ∈ S ∨ b = a ∧ h.Below a) : (h.setPtr a q).Closed T := by
  intro b hb
  by_cases e : b = a
  · subst e
    refine ⟨.setPtr ?_, by simpa [Heap.setPtr] using hq⟩
    exact (hT b hb).elim (fun hs => (hc b hs).1) And.right
  · have hs := (hT b hb).resolve_right fun h => e h.1
    refine ⟨(hc b hs).1.setPtr, ?_⟩
    simpa [Heap.setPtr, Function.update_of_ne e] using hST (hc b hs).2

theorem Heap.Closed.setSize (hc : h.Closed S) (ha : a + 16 * n ≤ h.brk) : (h.setSize a n).Closed S :=
  fun b hb => ⟨(hc b hb).1.setSize ha, by rw [setSize_ptr]; exact (hc b hb).2⟩

/-! ## `free` -/

theorem findLoop_ends (hc : h.Closed S) : ∀ {p}, p ∈ S →
    Ends (findLoop bp fuel p) (fun q h' => q ∈ S ∧ h' = h) h := by
  induction fuel with
  | zero => exact fun _ => Nat.le_refl _
  | succ fuel ih =>
    intro p hp
    refine .bind (ends_load (hc p hp).1.le ?_)
    dsimp only
    split
    · exact .pure ⟨hp, rfl⟩
    · exact ih (hc p hp).2

theorem joinNext_ends (hc : h.Closed S) (hp : p ∈ S) (hb : h.Below bp) :
    Ends (joinNext bp p) (fun _ h' => h'.Closed (insert bp S) ∧ h'.brk = h.brk) h := by
  have hT : ∀ b ∈ insert bp S, b ∈ S ∨ b = bp := fun b hb => hb.symm
  obtain ⟨hnext, hptr⟩ := hc _ (hc p hp).2
  refine .bind (ends_load (hc p hp).1.le (.bind (ends_load hb.le ?_)))
  split
  · rename_i e
    have hend : bp + 16 * ((h.hdr bp).size + (h.hdr (h.hdr p).ptr).size) ≤ h.brk := by
      have := hnext.2
      omega
    refine .bind (ends_load hb.le (.bind (ends_load hnext.le (.bind (ends_storeSize hb.le ?_)))))
    refine .bind (ends_load hnext.le (ends_storePtr hb.le ⟨?_, rfl⟩))
    refine (hc.setSize hend).setPtr ?_ (Set.subset_insert _ _) fun b hbT => ?_
    · rw [setSize_ptr]; exact .inr hptr
    · exact (hT b hbT).imp_right fun e => ⟨e, hb.setSize hend⟩
  · exact ends_storePtr hb.le ⟨hc.setPtr (.inr (hc p hp).2) (Set.subset_insert _ _) fun b hbT =>
      (hT b hbT).imp_right fun e => ⟨e, hb⟩, rfl⟩

theorem joinPrev_ends (hc : h.Closed S) (hp : p ∈ S) (hb : bp ∈ S) :
    Ends (joinPrev bp p) (fun _ h' => h'.Closed S ∧ h'.brk = h.brk) h := by
  obtain ⟨hbp, hptr⟩ := hc bp hb
  have hpb := (hc p hp).1
  refine .bind (ends_load hpb.le ?_)
  split
  · have hend : p + 16 * ((h.hdr p).size + (h.hdr bp).size) ≤ h.brk := by
      have := hbp.2
      omega
    refine .bind (ends_load hpb.le (.bind (ends_load hbp.le (.bind (ends_storeSize hpb.le ?_)))))
    refine .bind (ends_load hbp.le (ends_storePtr hpb.le ⟨?_, rfl⟩))
    refine (hc.setSize hend).setPtr ?_ subset_rfl fun b hb => .inl hb
    rw [setSize_ptr]; exact hptr
  · exact ends_storePtr hpb.le ⟨hc.setPtr hb subset_rfl fun b hb => .inl hb, rfl⟩

theorem free_ends (hc : h.Closed S) (hf : h.freep ∈ S) (hb : h.Below bp) :
    Ends (free fuel (bp + 16)) (fun _ h' => (∃ T, h'.freep ∈ T ∧ h'.Closed T) ∧ h'.brk = h.brk) h := by
  rw [free, Nat.add_sub_cancel]
  refine .bind (ends_get (.bind ((findLoop_ends hc hf).mono ?_)))
  rintro p _ - ⟨hp, rfl⟩
  refine .bind ((joinNext_ends hc hp hb).mono fun _ h1 _ ⟨hc1, e1⟩ => .bind ?_)
  refine (joinPrev_ends hc1 (.inr hp) (.inl rfl)).mono fun _ h2 _ ⟨hc2, e2⟩ => ?_
  exact ends_setFreep ⟨⟨_, .inr hp, hc2⟩, e2.trans e1⟩

/-! ## `malloc` -/

theorem toInt_of_lt (hn : n < 2 ^ 31) : toInt n = n := by
  rw [toInt, BitVec.toInt_eq_toNat_of_lt (by rw [BitVec.toNat_ofNat]; omega), BitVec.toNat_ofNat]
  omega

theorem sbrk_ends (hpos : 0 < n) (hn : n < 2 ^ 31) :
    Ends (sbrk n) (fun r h' => h'.hdr = h.hdr ∧ h'.freep = h.freep ∧
      ∀ hp, r = some hp → hp = h.brk ∧ h'.brk = h.brk + n) h := by
  rw [Ends, sbrk_run, toInt_of_lt hn, grow, if_pos (by omega), Int.toNat_natCast]
  cases h.answers.headD false
  · exact ⟨Nat.le_refl _, rfl, rfl, by simp⟩
  · refine ⟨Nat.le_add_right _ _, rfl, rfl, ?_⟩
    rintro hp ⟨⟩
    exact ⟨rfl, rfl⟩

theorem Heap.Closed.grown (hc : h.Closed S) (hhdr : h'.hdr = h.hdr) (hle : h.brk ≤ h'.brk) :
    h'.Closed S := by
  intro a ha
  obtain ⟨⟨h0, hb⟩, hptr⟩ := hc a ha
  rw [Heap.Below, hhdr]
  exact ⟨⟨h0, hb.trans hle⟩, hptr⟩

theorem morecore_ends (hc : h.Closed S) (hf : h.freep ∈ S) (hn : 16 * nu < 2 ^ 31) :
    Ends (morecore fuel nu) (fun p h' => p = 0 ∨ ∃ T, p ∈ T ∧ h'.freep ∈ T ∧ h'.Closed T) h := by
  rw [morecore]
  generalize hnu : (if nu < 4096 then 4096 else nu) = n
  have hn : 0 < n ∧ n * 16 < 2 ^ 31 := by split at hnu <;> omega
  refine .bind ((sbrk_ends (by omega) hn.2).mono ?_)
  rintro (_ | hp) h1 hle ⟨hhdr, hfreep, hr⟩
  · exact .pure (.inl rfl)
  obtain ⟨rfl, hbrk⟩ := hr hp rfl
  have hc1 := hc.grown hhdr hle
  have hend : h.brk + 16 * n ≤ h1.brk := by omega
  have h0 : h.brk ≠ 0 := by have := (hc _ hf).1.2; omega
  refine .bind (ends_storeSize (by omega) (.bind ?_))
  have hb : (h1.setSize h.brk n).Below h.brk := by
    refine ⟨h0, ?_⟩
    have := Nat.mod_le n (2 ^ 32)
    simp only [Heap.setSize, Function.update_self]
    omega
  refine (free_ends (hc1.setSize hend) (hfreep ▸ hf) hb).mono fun _ h2 _ ⟨⟨T, hfT, hT⟩, _⟩ => ?_
  exact .bind (ends_get (.pure (.inr ⟨T, hfT, hfT, hT⟩)))

theorem mallocLoop_ends {k : Nat} (h0 : 0 < k) (hk : 16 * k < 2 ^ 31) : ∀ {h S prevp p},
    h.Closed S → h.freep ∈ S → prevp ∈ S → p ∈ S →
    Ends (mallocLoop k fuel prevp p) (fun r h' => r ≠ 0 → r + 16 * k ≤ h'.brk + 16) h := by
  induction fuel with
  | zero => exact fun _ _ _ _ => Nat.le_refl _
  | succ fuel ih =>
    intro h S prevp p hc hf hprev hp
    have hpb := (hc p hp).1
    rw [mallocLoop]
    refine .bind (ends_load hpb.le ?_)
    dsimp only
    split
    · split
      · refine .bind (ends_load hpb.le (.bind (ends_storePtr (hc _ hprev).1.le (.bind ?_))))
        refine ends_setFreep (.pure fun _ => ?_)
        have := hpb.2
        simp only [Heap.setPtr]
        omega
      · -- the tail of the block
        have hend := hpb.2
        refine .bind (ends_storeSize hpb.le (.bind (ends_load hpb.le ?_)))
        simp only [Heap.setSize, Function.update_self]
        have hmod := Nat.mod_le ((h.hdr p).size - k) (2 ^ 32)
        refine .bind (ends_storeSize ?_ (.bind (ends_setFreep (.pure fun _ => ?_))))
        · dsimp only; omega
        · simp only [Heap.setSize]; omega
    · refine .bind (ends_get ?_)
      split
      · refine .bind ((morecore_ends hc hf hk).mono fun p1 h1 _ hm => ?_)
        split
        · exact .pure fun h0 => absurd rfl h0
        · rename_i hp0
          obtain ⟨T, hpT, hfT, hT⟩ := hm.resolve_left hp0
          exact .bind (ends_load (hT _ hpT).1.le (ih hT hfT hpT (hT _ hpT).2))
      · exact .bind (ends_load hpb.le (ih hc hf hp (hc p hp).2))

theorem le_nunits (nbytes : Nat) : nbytes + 16 ≤ 16 * nunits nbytes := by unfold nunits; omega

/-- The call does not lower the break, and the bytes that it gives are below it. -/
def Promise (nbytes : Nat) : EStateM.Result Stop Heap Nat → Heap → Prop
  | .ok p h', h => h.brk ≤ h'.brk ∧ (p ≠ 0 → p + nbytes ≤ h'.brk)
  | .error _ h', h => h.brk ≤ h'.brk

theorem initBase_ends (hv : h.Valid) :
    Ends initBase (fun _ h' => ∃ S, h'.freep ∈ S ∧ h'.Closed S) h := by
  obtain ⟨h0, hbase, hlist⟩ := hv
  refine .bind (ends_get ?_)
  by_cases hfreep : h.freep = 0
  · rw [if_pos hfreep]
    refine .bind (ends_storePtr hbase (.bind (ends_setFreep (ends_storeSize hbase ?_))))
    refine ⟨{h.base}, rfl, ?_⟩
    rintro _ rfl
    simp only [Heap.Below, Heap.setSize, Heap.setPtr, Function.update_self]
    exact ⟨⟨h0, hbase⟩, rfl⟩
  · rw [if_neg hfreep]
    exact .pure (hlist.resolve_left hfreep)

theorem malloc_promise (hv : h.Valid) (hn : 16 * nunits nbytes < 2 ^ 31) :
    Promise nbytes (malloc fuel nbytes h) h := by
  have hle := le_nunits nbytes
  have hm : Ends (malloc fuel nbytes) (fun r h' => r ≠ 0 → r + nbytes ≤ h'.brk) h := by
    refine .bind ((initBase_ends hv).mono fun _ h1 _ ⟨S, hf, hc⟩ => .bind (ends_get ?_))
    refine .bind (ends_load (hc _ hf).1.le ?_)
    refine (mallocLoop_ends (Nat.succ_pos _) hn hc hf hf (hc _ hf).2).mono fun r h' _ hr hr0 => ?_
    have := hr hr0
    omega
  unfold Ends at hm
  cases e : malloc fuel nbytes h <;> rw [e] at hm <;> exact hm

/-! ## Large blocks -/

/-- The heap of a program of four pages that has not called `malloc`. -/
def smallHeap : Heap := ⟨fun _ => ⟨0, 0⟩, 4096, 0, 16400, [true]⟩

theorem smallHeap_valid : smallHeap.Valid := ⟨by decide, by decide, .inl rfl⟩

theorem grow_small (hlo : 2 ^ 31 ≤ nu * 16) (hhi : nu * 16 ≤ 2 ^ 32 + 16) :
    ∃ brk, grow true 16400 (toInt (nu * 16)) = some brk ∧
      (brk ≤ 16384 ∨ 16400 ≤ brk ∧ brk ≤ 16416) := by
  have hn : toInt (nu * 16) = nu * 16 - 2 ^ 32 := by
    rw [toInt, BitVec.toInt_eq_toNat_cond, BitVec.toNat_ofNat]
    split <;> omega
  rw [hn, grow, Vm.u64, Vm.ofInt]
  split
  · exact ⟨_, rfl, .inr (by omega)⟩
  · split
    · exact ⟨_, rfl, by omega⟩
    · exact ⟨_, rfl, by omega⟩

/-- The break is lowered, and the header of the new block is not mapped. -/
theorem malloc_lowers {brk : Nat} (hlo : 2 ^ 31 ≤ 16 * nunits nbytes)
    (hgrow : grow true 16400 (toInt (nunits nbytes * 16)) = some brk) (hbrk : brk ≤ 16384) :
    ∃ h', malloc 3 nbytes smallHeap = .error .fault h' ∧ h'.brk = brk := by
  rw [malloc]
  generalize nunits nbytes = nu at *
  have h1 : ¬ nu < 4096 := by omega
  have h2 : ¬ nu = 0 := by omega
  have hf : ¬ 16384 < brk := by omega
  simp [initBase, mallocLoop, morecore, Heap.Mapped, PGSIZE, Heap.setPtr, Heap.setSize, smallHeap, hgrow,
    h1, h2, hf]

/-- The break stays or moves by 16 bytes, and the block is above the old one. -/
theorem malloc_above {brk : Nat} (hlo : 2 ^ 31 ≤ 16 * nunits nbytes) (hhi : nunits nbytes ≤ 2 ^ 28 + 1)
    (hgrow : grow true 16400 (toInt (nunits nbytes * 16)) = some brk) (hbrk : 16400 ≤ brk) :
    ∃ h', malloc 3 nbytes smallHeap = .ok 16416 h' ∧ h'.brk = brk := by
  rw [malloc]
  generalize nunits nbytes = nu at *
  have h1 : ¬ nu < 4096 := by omega
  have h2 : ¬ nu = 0 := by omega
  have h3 : nu % 4294967296 = nu := by omega
  have hf : 16384 < brk := by omega
  have hf1 : 4096 < brk := by omega
  have hne : ¬ 16400 + 16 * nu = 4096 := by omega
  simp [initBase, mallocLoop, morecore, free, findLoop, joinNext, joinPrev, Heap.Mapped, PGSIZE, Heap.setPtr,
    Heap.setSize, smallHeap, hgrow, h1, h2, h3, hf, hf1, hne, -bind_pure_comp]

/-- **`malloc` never over-promises exactly if the block, with its header, has less than `2 ^ 31` bytes**: on
every heap and up to every moment of the run the break is not lowered, and a block returned is below it. -/
theorem malloc_sound_iff (nbytes : BitVec 32) :
    (∀ h : Heap, h.Valid → ∀ fuel, Promise nbytes.toNat (malloc fuel nbytes.toNat h) h) ↔
      16 * nunits nbytes.toNat < 2 ^ 31 := by
  refine ⟨fun hall => ?_, fun hn h hv fuel => malloc_promise hv hn⟩
  by_contra hlt
  have hlo := Nat.le_of_not_lt hlt
  have hhi : nunits nbytes.toNat ≤ 2 ^ 28 + 1 ∧ 16 * nunits nbytes.toNat ≤ nbytes.toNat + 31 := by
    have := nbytes.isLt
    unfold nunits
    omega
  obtain ⟨brk, hgrow, hbrk⟩ := grow_small (by omega : 2 ^ 31 ≤ nunits nbytes.toNat * 16) (by omega)
  have hp := hall _ smallHeap_valid 3
  rcases hbrk with hbrk | ⟨hbrk, hle⟩
  · obtain ⟨h', hrun, rfl⟩ := malloc_lowers hlo hgrow hbrk
    rw [hrun] at hp
    exact absurd (Nat.le_trans hp hbrk) (by decide)
  · obtain ⟨h', hrun, rfl⟩ := malloc_above hlo hhi.1 hgrow hbrk
    rw [hrun] at hp
    have := hp.2 (by decide)
    omega

/-- `malloc(2^32 - 16)` asks for zero bytes and succeeds: the block begins at the break. -/
theorem malloc_overpromises :
    smallHeap.Valid ∧ ∃ h', malloc 3 (2 ^ 32 - 16) smallHeap = .ok 16416 h' ∧ h'.brk = 16400 := by
  exact ⟨smallHeap_valid, malloc_above (by decide) (by decide) (by decide) (Nat.le_refl _)⟩

end Xv6Freezer.Umalloc

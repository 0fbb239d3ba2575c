import Xv6Freezer.Lib.Wp
import Xv6Freezer.Mkfs.Basic

/-! # Directories

`strncmp` and `strncpy` of `kernel/string.c`, `namecmp`, `dirlookup` and `dirlink` of `kernel/fs.c`, and the
removal of an entry by `sys_unlink`. An entry is in one block. **A directory is a finite map** from the first
`DIRSIZ` bytes of a name to inode numbers (`directory_is_map`).
-/

namespace Xv6Freezer.Directory

open Function
open Lib

/-! ## The code -/

def strncmp : List UInt8 → List UInt8 → Nat → Int
  | _, _, 0 => 0
  | p, q, n + 1 =>
    if p.headD 0 ≠ 0 ∧ p.headD 0 = q.headD 0 then strncmp p.tail q.tail n
    else (p.headD 0).toNat - (q.headD 0).toNat

/-- The `n` bytes that `strncpy` stores. -/
def strncpy : List UInt8 → Nat → List UInt8
  | _, 0 => []
  | t, n + 1 => if t.headD 0 ≠ 0 then t.headD 0 :: strncpy t.tail n else List.replicate (n + 1) 0

def namecmp (s t : List UInt8) : Int := strncmp s t DIRSIZ

structure Dirent where
  inum : BitVec 16
  name : List UInt8

/-- An entry of a cleared block, and the one that `sys_unlink` stores. -/
def zeroDirent : Dirent := ⟨0, List.replicate DIRSIZ 0⟩

/-- The directory: size, data blocks, whether the indirect block is allocated, and free blocks left. -/
structure Dir where
  size : Nat
  block : Nat → Option (Nat → Dirent)
  indirect : Bool
  nfree : Nat

/-- Code that works on the directory and may panic. -/
abbrev D := StateT Dir (Except String)

def balloc : D Bool := do
  let d ← get
  if d.nfree = 0 then return false
  else
    set { d with nfree := d.nfree - 1 }
    return true

/-- A cleared block becomes data block `bn`. -/
def allocData (bn : Nat) : D Bool := do
  if ← balloc then
    modify fun d => { d with block := update d.block bn (some fun _ => zeroDirent) }
    return true
  else return false

/-- `bmap(dp, bn)`, whether there is a block. -/
def bmap (bn : Nat) : D Bool := do
  let d ← get
  if (d.block bn).isSome then return true
  else if bn < NDIRECT then allocData bn
  else if bn < MAXFILE then
    if d.indirect then allocData bn
    else if ← balloc then
      modify fun d => { d with indirect := true }
      allocData bn
    else return false
  else throw "bmap: out of range"

/-- The entry at offset `16 * i`. -/
def Dir.entry (d : Dir) (i : Nat) : Dirent := ((d.block (i / 64)).getD fun _ => zeroDirent) (i % 64)

/-- `readi(dp, 0, &de, off, sizeof(de))`, `none` if fewer bytes were read. -/
def readDirent (off : Nat) : D (Option Dirent) := do
  let d ← get
  if d.size < off + 16 then return none
  else if ← bmap (off / BSIZE) then return some ((← get).entry (off / 16))
  else return none

/-- `writei(dp, 0, &de, off, sizeof(de))`, whether all bytes were written. -/
def writeDirent (off : Nat) (de : Dirent) : D Bool := do
  let d ← get
  if d.size < off ∨ MAXFILE * BSIZE < off + 16 then return false
  else if ← bmap (off / BSIZE) then
    modify fun d =>
      { d with
        block := update d.block (off / BSIZE) ((d.block (off / BSIZE)).map fun b =>
          update b (off % BSIZE / 16) de)
        size := max d.size (off + 16) }
    return true
  else return false

def dirlookupLoop (name : List UInt8) : Nat → Nat → D (Option (BitVec 16 × Nat))
  | 0, _ => return none
  | rounds + 1, off => do
    if off < (← get).size then
      match ← readDirent off with
      | none => throw "dirlookup read"
      | some de =>
        if de.inum = 0 then dirlookupLoop name rounds (off + 16)
        else if namecmp name de.name = 0 then return some (de.inum, off)
        else dirlookupLoop name rounds (off + 16)
    else return none

/-- `dirlookup(dp, name, &off)`: the inode number and the offset of the entry. -/
def dirlookup (name : List UInt8) : D (Option (BitVec 16 × Nat)) := do
  dirlookupLoop name ((← get).size / 16 + 1) 0

def emptyLoop : Nat → Nat → D Nat
  | 0, off => return off
  | rounds + 1, off => do
    if off < (← get).size then
      match ← readDirent off with
      | none => throw "dirlink read"
      | some de => if de.inum = 0 then return off else emptyLoop rounds (off + 16)
    else return off

def dirlink (name : List UInt8) (inum : BitVec 16) : D Int := do
  match ← dirlookup name with
  | some _ => return -1
  | none =>
    let off ← emptyLoop ((← get).size / 16 + 1) 0
    if ← writeDirent off ⟨inum, strncpy name DIRSIZ⟩ then return 0 else return -1

/-- What `sys_unlink` does to the directory, if it does not refuse. -/
def removeEntry (name : List UInt8) : D Unit := do
  match ← dirlookup name with
  | none => return ()
  | some (_, off) => if ← writeDirent off zeroDirent then return () else throw "unlink: writei"

/-- The calls on a directory, each with the number of free blocks that it finds. -/
inductive Call where
  | link (name : List UInt8) (inum : BitVec 16) (nfree : Nat)
  | unlink (name : List UInt8) (nfree : Nat)

def Call.run : Call → D Unit
  | link name inum nfree => do
    modify fun d => { d with nfree := nfree }
    let _ ← dirlink name inum
  | unlink name nfree => do
    modify fun d => { d with nfree := nfree }
    removeEntry name

def runAll : List Call → D Unit
  | [] => return ()
  | c :: cs => do
    c.run
    runAll cs

/-! ## Names -/

/-- The string in a field of `n` bytes, or the part of a string that goes into it. -/
def field : List UInt8 → Nat → List UInt8
  | _, 0 => []
  | s, n + 1 => if s.headD 0 ≠ 0 then s.headD 0 :: field s.tail n else []

variable {s t name : List UInt8} {n i j k bn off : Nat} {d d' : Dir} {de : Dirent} {inum : BitVec 16}

theorem field_of_not_mem : ∀ n s, 0 ∉ s → field s n = s.take n
  | 0, _, _ => by rw [field, List.take_zero]
  | _ + 1, [], _ => rfl
  | n + 1, b :: s, hs => by
    have hb : b ≠ 0 := fun e => hs (by simp [e])
    rw [field, List.take_succ_cons, ← field_of_not_mem n s fun h => hs (by simp [h])]
    exact if_pos hb

theorem strncmp_eq_zero : ∀ n s t, strncmp s t n = 0 ↔ field s n = field t n := by
  intro n
  induction n with
  | zero => intro s t; simp [strncmp, field]
  | succ n ih =>
    intro s t
    have htail := ih s.tail t.tail
    rw [strncmp, field, field]
    generalize s.headD 0 = a, t.headD 0 = b at *
    have hsub : (a.toNat : Int) - b.toNat = 0 ↔ a = b := by
      rw [Int.sub_eq_zero, Int.natCast_inj, UInt8.toNat_inj]
    by_cases ha : a = 0
    · rw [if_neg fun h => h.1 ha, if_neg (not_not.mpr ha), hsub, ha]
      by_cases hb : b = 0 <;> simp [hb, Ne.symm]
    · by_cases e : a = b
      · subst e
        rw [if_pos ⟨ha, rfl⟩, if_pos ha, htail, if_pos ha, List.cons_inj_right]
      · rw [if_neg fun h => e h.2, if_pos ha, hsub]
        by_cases hb : b = 0 <;> simp [hb, e, ha]

theorem field_strncpy : ∀ n t, field (strncpy t n) n = field t n := by
  intro n
  induction n with
  | zero => intro t; rfl
  | succ n ih =>
    intro t
    rw [strncpy]
    by_cases ht : t.headD 0 = 0
    · rw [if_neg (not_not.mpr ht), field, field, if_neg (not_not.mpr ht)]
      exact if_neg (not_not.mpr rfl)
    · rw [if_pos ht, field, field, if_pos ht, List.headD_cons, if_pos ht, List.tail_cons, ih]

/-! ## Slots -/

def Dir.slots (d : Dir) : Nat := d.size / 16

/-- The slot is used by the name. -/
def Dir.Names (d : Dir) (s : List UInt8) (i : Nat) : Prop :=
  (d.entry i).inum ≠ 0 ∧ namecmp s (d.entry i).name = 0

instance (d : Dir) (s : List UInt8) (i : Nat) : Decidable (d.Names s i) := inferInstanceAs (Decidable (_ ∧ _))

/-- Whole slots, all of them in blocks that are allocated. -/
structure Dir.Filled (d : Dir) : Prop where
  size : d.size = 16 * d.slots
  le : d.size ≤ MAXFILE * BSIZE
  mapped : ∀ bn, bn * BSIZE < d.size → (d.block bn).isSome

def Dir.Distinct (d : Dir) : Prop := ∀ i < d.slots, ∀ j < d.slots, (d.entry i).inum ≠ 0 →
  (d.entry j).inum ≠ 0 → namecmp (d.entry i).name (d.entry j).name = 0 → i = j

theorem names_iff : d.Names s i ↔ (d.entry i).inum ≠ 0 ∧ field s DIRSIZ = field (d.entry i).name DIRSIZ :=
  and_congr_right fun _ => strncmp_eq_zero _ _ _

theorem wp_bmap_of_isSome {Q : Bool → Dir → Prop} (hb : (d.block bn).isSome) (hq : Q true d) :
    wp (bmap bn) Q d := by
  rw [bmap, wp_bind, wp_get, if_pos hb]
  exact wp_pure.mpr hq

theorem wp_readDirent {Q : Option Dirent → Dir → Prop} (h : d.Filled) (hi : i < d.slots)
    (hq : Q (some (d.entry i)) d) : wp (readDirent (16 * i)) Q d := by
  have hsize := h.size
  have hbn : 16 * i / BSIZE = i / 64 := by unfold BSIZE; omega
  have hm : (d.block (i / 64)).isSome := h.mapped _ (by unfold BSIZE; omega)
  rw [readDirent, wp_bind, wp_get, if_neg (by omega), wp_bind, hbn]
  refine wp_bmap_of_isSome hm ?_
  rw [if_pos rfl, wp_bind, wp_get, Nat.mul_div_cancel_left _ (by decide)]
  exact wp_pure.mpr hq

theorem wp_dirlookupLoop {Q : Option (BitVec 16 × Nat) → Dir → Prop} (h : d.Filled) (rounds : Nat) :
    ∀ {i k}, i + k = d.slots → k < rounds →
    Q (((List.range' i k).find? (d.Names s ·)).map fun j => ((d.entry j).inum, 16 * j)) d →
    wp (dirlookupLoop s rounds (16 * i)) Q d := by
  have hsize := h.size
  induction rounds with
  | zero => intro i k _ hk; omega
  | succ rounds ih =>
    intro i k hik hk hq
    rw [dirlookupLoop, wp_bind, wp_get]
    cases k with
    | zero => rw [if_neg (by omega)]; exact wp_pure.mpr hq
    | succ k =>
      rw [if_pos (by omega), wp_bind]
      refine wp_readDirent h (by omega) ?_
      rw [List.range'_succ, List.find?_cons] at hq
      have hnext : ¬ d.Names s i → wp (dirlookupLoop s rounds (16 * i + 16)) Q d := by
        intro hn
        rw [decide_eq_false hn] at hq
        exact ih (i := i + 1) (k := k) (by omega) (by omega) hq
      dsimp only
      split
      · rename_i h0
        exact hnext fun hn => hn.1 h0
      · rename_i h0
        split
        · rename_i hcmp
          have hn : d.Names s i := ⟨h0, hcmp⟩
          rw [decide_eq_true hn] at hq
          exact wp_pure.mpr hq
        · rename_i hcmp
          exact hnext fun hn => hcmp hn.2

/-- The slot that the name uses. -/
def Dir.slot? (d : Dir) (s : List UInt8) : Option Nat := (List.range' 0 d.slots).find? (d.Names s ·)

theorem wp_dirlookup {Q : Option (BitVec 16 × Nat) → Dir → Prop} (h : d.Filled)
    (hq : Q ((d.slot? s).map fun j => ((d.entry j).inum, 16 * j)) d) : wp (dirlookup s) Q d := by
  rw [dirlookup, wp_bind, wp_get]
  exact wp_dirlookupLoop h _ (Nat.zero_add _) (Nat.lt_succ_self _) hq

theorem wp_emptyLoop {Q : Nat → Dir → Prop} (h : d.Filled) (rounds : Nat) :
    ∀ {i k}, i + k = d.slots → k < rounds →
    (∀ j, j ≤ d.slots → (j < d.slots → (d.entry j).inum = 0) →
      (j = d.slots → ∀ m, i ≤ m → m < d.slots → (d.entry m).inum ≠ 0) → Q (16 * j) d) →
    wp (emptyLoop rounds (16 * i)) Q d := by
  have hsize := h.size
  induction rounds with
  | zero => intro i k _ hk; omega
  | succ rounds ih =>
    intro i k hik hk hq
    rw [emptyLoop, wp_bind, wp_get]
    by_cases hi : i = d.slots
    · rw [if_neg (by omega)]
      exact wp_pure.mpr (hq i (by omega) (by omega) fun _ m h1 h2 => absurd h2 (by omega))
    · rw [if_pos (by omega), wp_bind]
      refine wp_readDirent h (by omega) ?_
      dsimp only
      split
      · rename_i h0
        exact wp_pure.mpr (hq i (by omega) (fun _ => h0) fun e => absurd e hi)
      · rename_i h0
        refine ih (i := i + 1) (k := k - 1) (by omega) (by omega) fun j hj he hall => ?_
        refine hq j hj he fun e m h1 h2 => ?_
        rcases h1.lt_or_eq with hlt | rfl
        · exact hall e m hlt h2
        · exact h0

/-! ## Stores -/

/-- There is a data block `bn`, or there are free blocks for it. -/
def Dir.Room (d : Dir) (bn : Nat) : Prop :=
  (d.block bn).isSome ∨ (if bn < NDIRECT ∨ d.indirect then 1 else 2) ≤ d.nfree

/-- Only blocks have been added. -/
structure Dir.Extends (d d' : Dir) : Prop where
  size : d'.size = d.size
  block : ∀ bn b, d.block bn = some b → d'.block bn = some b

theorem wp_allocData {Q : Bool → Dir → Prop} (hb : d.block bn = none)
    (hq : ∀ r d', d.Extends d' → (r = true ↔ 1 ≤ d.nfree) → (r = true → (d'.block bn).isSome) → Q r d') :
    wp (allocData bn) Q d := by
  rw [allocData, wp_bind, balloc, wp_bind, wp_get]
  by_cases h0 : d.nfree = 0
  · rw [if_pos h0, wp_pure]
    exact wp_pure.mpr (hq _ _ ⟨rfl, fun _ _ h => h⟩ (by simp [h0]) nofun)
  · rw [if_neg h0, wp_bind, wp_set, wp_pure, if_pos rfl, wp_bind, wp_modify]
    refine wp_pure.mpr (hq _ _ ⟨rfl, fun bn' b h => ?_⟩ (by simp; omega) fun _ => by simp)
    rw [← h]
    refine Function.update_of_ne ?_ _ _
    rintro rfl
    rw [hb] at h
    cases h

theorem wp_bmap {Q : Bool → Dir → Prop} (hbn : bn < MAXFILE)
    (hq : ∀ r d', d.Extends d' → (r = true ↔ d.Room bn) → (r = true → (d'.block bn).isSome) → Q r d') :
    wp (bmap bn) Q d := by
  cases hb : d.block bn with
  | some b =>
    have hs : (d.block bn).isSome := by rw [hb]; rfl
    exact wp_bmap_of_isSome hs (hq _ _ ⟨rfl, fun _ _ h => h⟩ (by simp [Dir.Room, hs]) fun _ => hs)
  | none =>
    have hroom : d.Room bn ↔ (if bn < NDIRECT ∨ d.indirect then 1 else 2) ≤ d.nfree := by
      simp [Dir.Room, hb]
    rw [bmap, wp_bind, wp_get, if_neg (by simp [hb])]
    split
    · rename_i hlt
      rw [if_pos (.inl hlt)] at hroom
      exact wp_allocData hb fun r d' he hr => hq r d' he (hr.trans hroom.symm)
    · rename_i hlt
      split
      · rename_i hind
        rw [if_pos (.inr hind)] at hroom
        exact wp_allocData hb fun r d' he hr => hq r d' he (hr.trans hroom.symm)
      · rename_i hind
        rw [if_neg (not_or.mpr ⟨hlt, hind⟩)] at hroom
        rw [wp_bind, balloc, wp_bind, wp_get]
        by_cases h0 : d.nfree = 0
        · rw [if_pos h0, wp_pure]
          exact wp_pure.mpr (hq _ _ ⟨rfl, fun _ _ h => h⟩ (by simp [hroom, h0]) nofun)
        · rw [if_neg h0, wp_bind, wp_set, wp_pure, if_pos rfl, wp_bind, wp_modify]
          refine wp_allocData hb fun r d' he hr => hq r d' ⟨he.size, he.block⟩ (hr.trans ?_)
          rw [hroom]
          dsimp only
          omega

theorem Dir.Extends.entry (he : d.Extends d') (h : d.Filled) (hi : i < d.slots) : d'.entry i = d.entry i := by
  have hsize := h.size
  obtain ⟨b, hb⟩ := Option.isSome_iff_exists.mp (h.mapped (i / 64) (by unfold BSIZE; omega))
  rw [Dir.entry, Dir.entry, he.block _ _ hb, hb]

theorem Dir.Extends.slots (he : d.Extends d') : d'.slots = d.slots := by rw [Dir.slots, he.size]; rfl

theorem Dir.Extends.filled (he : d.Extends d') (h : d.Filled) : d'.Filled where
  size := by rw [he.slots, he.size]; exact h.size
  le := by rw [he.size]; exact h.le
  mapped bn hbn := by
    obtain ⟨b, hb⟩ := Option.isSome_iff_exists.mp (h.mapped bn (he.size ▸ hbn))
    rw [he.block _ _ hb]
    rfl

/-- The directory can have one more slot. -/
def Dir.Grows (d : Dir) : Prop := d.size < MAXFILE * BSIZE ∧ d.Room (d.size / BSIZE)

/-- Slot `i`, or the new last one, has become `de`. -/
structure Dir.Stored (d : Dir) (i : Nat) (de : Dirent) (d' : Dir) : Prop where
  le : i ≤ d.slots
  filled : d'.Filled
  slots : d'.slots = max d.slots (i + 1)
  entry : ∀ j < d'.slots, d'.entry j = if j = i then de else d.entry j

theorem Dir.Extends.stored (he : d.Extends d') (h : d.Filled) (hi : i ≤ d.slots)
    (hmax : 16 * i + 16 ≤ MAXFILE * BSIZE) (hb : (d'.block (i / 64)).isSome) :
    d.Stored i de
      { d' with
        block := update d'.block (i / 64) ((d'.block (i / 64)).map fun b => update b (i % 64) de)
        size := max d'.size (16 * i + 16) } := by
  obtain ⟨b, hb⟩ := Option.isSome_iff_exists.mp hb
  have hsize := h.size
  have hsize' := he.size
  have hslots : max d'.size (16 * i + 16) / 16 = max d.slots (i + 1) := by omega
  have h' := he.filled h
  refine ⟨hi, ⟨?_, ?_, fun bn hbn => ?_⟩, hslots, fun j hj => ?_⟩
  · simp only [Dir.slots] at hslots ⊢
    rw [hslots]
    omega
  · exact max_le h'.le hmax
  · by_cases e : bn = i / 64
    · simp [e, hb]
    · dsimp only at hbn ⊢
      rw [Function.update_of_ne e]
      refine h'.mapped bn ?_
      unfold BSIZE at *
      omega
  · replace hj : j < max d.slots (i + 1) := hslots ▸ hj
    by_cases e : j = i
    · subst e
      simp [Dir.entry, hb]
    · have hold := he.entry h (i := j) (by omega)
      rw [if_neg e, ← hold]
      by_cases e' : j / 64 = i / 64
      · have hne : j % 64 ≠ i % 64 := by omega
        simp [Dir.entry, e', hb, hne]
      · simp [Dir.entry, Function.update_of_ne e']

theorem wp_writeDirent {Q : Bool → Dir → Prop} (h : d.Filled) (hi : i ≤ d.slots)
    (hfail : ∀ d', d.Extends d' → i = d.slots → ¬ d.Grows → Q false d')
    (hok : ∀ d', d.Stored i de d' → (i = d.slots → d.Grows) → Q true d') :
    wp (writeDirent (16 * i) de) Q d := by
  have hsize := h.size
  have hbn : 16 * i / BSIZE = i / 64 := by unfold BSIZE; omega
  have hidx : 16 * i % BSIZE / 16 = i % 64 := by unfold BSIZE; omega
  rw [writeDirent, wp_bind, wp_get]
  by_cases hmax : MAXFILE * BSIZE < 16 * i + 16
  · rw [if_pos (.inr hmax)]
    have := h.le
    have hK : MAXFILE * BSIZE = 16 * 17152 := by decide
    exact wp_pure.mpr (hfail d ⟨rfl, fun _ _ h => h⟩ (by omega) fun hg => absurd hg.1 (by omega))
  rw [if_neg (by omega), wp_bind, hbn]
  have hlt : i / 64 < MAXFILE := by
    rw [show MAXFILE = 268 from rfl, show BSIZE = 1024 from rfl] at hmax
    rw [show MAXFILE = 268 from rfl]
    omega
  refine wp_bmap hlt fun r d' he hr hb => ?_
  cases r with
  | true =>
    rw [if_pos rfl, wp_bind, wp_modify, hidx]
    refine wp_pure.mpr (hok _ (he.stored h hi (by omega) (hb rfl)) fun e => ⟨by omega, ?_⟩)
    rw [hsize, ← e, hbn]
    exact hr.mp rfl
  | false =>
    have hroom : ¬ d.Room (i / 64) := fun hg => absurd (hr.mpr hg) (by decide)
    have hend : i = d.slots := by
      by_contra hne
      exact hroom (.inl (h.mapped _ (by unfold BSIZE; omega)))
    refine wp_pure.mpr (hfail d' he hend fun hg => hroom ?_)
    have := hg.2
    rwa [hsize, ← hend, hbn] at this

structure Dir.WellFormed (d : Dir) : Prop extends d.Filled where
  distinct : d.Distinct

def Dir.lookup (d : Dir) (s : List UInt8) : Option (BitVec 16) :=
  match dirlookup s d with
  | .ok (r, _) => r.map Prod.fst
  | .error _ => none

theorem dirlookup_run (h : d.Filled) :
    dirlookup s d = .ok ((d.slot? s).map fun j => ((d.entry j).inum, 16 * j), d) := by
  obtain ⟨r, d', hrun, rfl, rfl⟩ := wp_iff.mp (wp_dirlookup (s := s)
    (Q := fun r d' => r = _ ∧ d' = d) h ⟨rfl, rfl⟩)
  exact hrun

theorem slot?_eq_some (h : d.Distinct) : d.slot? s = some j ↔ j < d.slots ∧ d.Names s j := by
  have hfound : ∀ {j}, d.slot? s = some j → j < d.slots ∧ d.Names s j := fun {j} hj =>
    ⟨by simpa using List.mem_of_find?_eq_some hj, by simpa using List.find?_some hj⟩
  refine ⟨hfound, fun ⟨hj, hn⟩ => ?_⟩
  cases e : d.slot? s with
  | none => exact absurd hn (by simpa using List.find?_eq_none.mp e j (by simpa using hj))
  | some i =>
    obtain ⟨hi, hni⟩ := hfound e
    rw [names_iff] at hn hni
    rw [h i hi j hj hni.1 hn.1 ((strncmp_eq_zero _ _ _).mpr (hni.2.symm.trans hn.2))]

theorem slot?_congr (e : field s DIRSIZ = field t DIRSIZ) : d.slot? s = d.slot? t := by
  unfold Dir.slot?
  congr 1
  funext j
  rw [decide_eq_decide, names_iff, names_iff, e]

theorem lookup_eq_some (h : d.WellFormed) {x : BitVec 16} :
    d.lookup s = some x ↔ ∃ j < d.slots, d.Names s j ∧ (d.entry j).inum = x := by
  rw [Dir.lookup, dirlookup_run h.toFilled]
  simp [slot?_eq_some h.distinct, and_assoc]

theorem lookup_eq_none (h : d.WellFormed) : d.lookup s = none ↔ ∀ j < d.slots, ¬ d.Names s j := by
  rw [Option.eq_none_iff_forall_ne_some]
  simp only [ne_eq, lookup_eq_some h, not_exists, not_and]
  exact ⟨fun hx j hj hn => hx _ j hj hn rfl, fun hx _ j hj hn => absurd hn (hx j hj)⟩

theorem Dir.Stored.wellFormed (hst : d.Stored i de d') (h : d.WellFormed)
    (hnew : ∀ j < d.slots, de.inum ≠ 0 → ¬ d.Names de.name j) : d'.WellFormed := by
  refine ⟨hst.filled, fun a ha b hb hla hlb hcmp => ?_⟩
  have hcmp := (strncmp_eq_zero _ _ _).mp hcmp
  have hs := hst.slots
  have hle := hst.le
  rw [hst.entry a ha] at hla hcmp
  rw [hst.entry b hb] at hlb hcmp
  by_cases ea : a = i <;> by_cases eb : b = i
  · rw [ea, eb]
  · rw [if_pos ea] at hla hcmp
    rw [if_neg eb] at hlb hcmp
    exact absurd (names_iff.mpr ⟨hlb, hcmp⟩) (hnew b (by omega) hla)
  · rw [if_neg ea] at hla hcmp
    rw [if_pos eb] at hlb hcmp
    exact absurd (names_iff.mpr ⟨hla, hcmp.symm⟩) (hnew a (by omega) hlb)
  · rw [if_neg ea] at hla hcmp
    rw [if_neg eb] at hlb hcmp
    exact h.distinct a (by omega) b (by omega) hla hlb ((strncmp_eq_zero _ _ _).mpr hcmp)

theorem Dir.Stored.lookup (hst : d.Stored i ⟨inum, strncpy name DIRSIZ⟩ d') (h : d.WellFormed)
    (h' : d'.WellFormed) (h0 : inum ≠ 0) (hfree : i < d.slots → (d.entry i).inum = 0) :
    d'.lookup s = if field s DIRSIZ = field name DIRSIZ then some inum else d.lookup s := by
  have hs := hst.slots
  have hle := hst.le
  have hei := hst.entry i (by omega)
  rw [if_pos rfl] at hei
  split
  · rename_i e
    refine (lookup_eq_some h').mpr ⟨i, by omega, names_iff.mpr ?_, by rw [hei]⟩
    rw [hei]
    exact ⟨h0, e.trans (field_strncpy _ _).symm⟩
  · rename_i e
    refine Option.ext fun x => ?_
    rw [lookup_eq_some h', lookup_eq_some h]
    -- the slots other than the new one
    have hslot : ∀ j, j ≠ i → j < d'.slots → (d'.Names s j ∧ (d'.entry j).inum = x ↔
        d.Names s j ∧ (d.entry j).inum = x) := fun j hj hlt => by
      rw [Dir.Names, Dir.Names, hst.entry j hlt, if_neg hj]
    constructor
    · rintro ⟨j, hj, hn⟩
      have hne : j ≠ i := by
        rintro rfl
        have := (names_iff.mp hn.1).2
        rw [hei, field_strncpy] at this
        exact e this
      exact ⟨j, by omega, (hslot j hne hj).mp hn⟩
    · rintro ⟨j, hj, hn⟩
      have hne : j ≠ i := by
        rintro rfl
        exact hn.1.1 (hfree hj)
      exact ⟨j, by omega, (hslot j hne (by omega)).mpr hn⟩

theorem Dir.Extends.wellFormed (he : d.Extends d') (h : d.WellFormed) : d'.WellFormed := by
  refine ⟨he.filled h.toFilled, fun a ha b hb => ?_⟩
  rw [he.slots] at ha hb
  rw [he.entry h.toFilled ha, he.entry h.toFilled hb]
  exact h.distinct a ha b hb

theorem Dir.Extends.lookup (he : d.Extends d') (h : d.WellFormed) : d'.lookup s = d.lookup s := by
  refine Option.ext fun x => ?_
  rw [lookup_eq_some (he.wellFormed h), lookup_eq_some h, he.slots]
  refine exists_congr fun j => and_congr_right fun hj => ?_
  rw [Dir.Names, Dir.Names, he.entry h.toFilled hj]

def Dir.HasEmpty (d : Dir) : Prop := ∃ i < d.slots, (d.entry i).inum = 0

/-- **What `dirlink` does to the map.** -/
structure Linked (d : Dir) (name : List UInt8) (inum : BitVec 16) (r : Int) (d' : Dir) : Prop where
  success : r = 0 ↔ d.lookup name = none ∧ (d.HasEmpty ∨ d.Grows)
  bound : r = 0 → ∀ s, d'.lookup s = if field s DIRSIZ = field name DIRSIZ then some inum else d.lookup s
  failed : r ≠ 0 → r = -1 ∧ ∀ s, d'.lookup s = d.lookup s

theorem dirlink_spec (name : List UInt8) (inum : BitVec 16) (h : d.WellFormed) :
    wp (dirlink name inum) (fun r d' => d'.WellFormed ∧ (inum ≠ 0 → Linked d name inum r d')) d := by
  rw [dirlink, wp_bind]
  refine wp_dirlookup h.toFilled ?_
  cases e : d.slot? name with
  | some j =>
    have hj := (slot?_eq_some h.distinct).mp e
    have hl : d.lookup name ≠ none := fun hl => (lookup_eq_none h).mp hl j hj.1 hj.2
    exact wp_pure.mpr ⟨h, fun _ => ⟨by simp [hl], nofun, fun _ => ⟨rfl, fun _ => rfl⟩⟩⟩
  | none =>
    have hnone : ∀ j < d.slots, ¬ d.Names name j := fun j hj hn => by
      rw [(slot?_eq_some h.distinct).mpr ⟨hj, hn⟩] at e
      cases e
    have hl := (lookup_eq_none h).mpr hnone
    dsimp only [Option.map_none]
    rw [wp_bind, wp_get, wp_bind]
    refine wp_emptyLoop h.toFilled _ (Nat.zero_add _) (Nat.lt_succ_self _) fun i hi hempty hfull => ?_
    have hhas : i < d.slots → d.HasEmpty := fun hlt => ⟨i, hlt, hempty hlt⟩
    rw [wp_bind]
    refine wp_writeDirent h.toFilled hi (fun d' he hend hg => ?_) fun d' hst hg => ?_
    · refine wp_pure.mpr ⟨he.wellFormed h, fun _ => ⟨?_, nofun, fun _ => ⟨rfl, fun _ => he.lookup h⟩⟩⟩
      refine ⟨nofun, fun hs => hs.2.elim (fun ⟨j, hj, h0⟩ => ?_) fun hs => absurd hs hg⟩
      exact absurd h0 (hfull hend j (Nat.zero_le _) hj)
    · have hnew : ∀ j < d.slots, inum ≠ 0 → ¬ d.Names (strncpy name DIRSIZ) j := fun j hj _ hn =>
        hnone j hj (names_iff.mpr (field_strncpy DIRSIZ name ▸ names_iff.mp hn))
      have h' := hst.wellFormed h hnew
      refine wp_pure.mpr ⟨h', fun h0 => ⟨?_, fun _ s => hst.lookup h h' h0 hempty, fun hr => absurd rfl hr⟩⟩
      refine ⟨fun _ => ⟨hl, ?_⟩, fun _ => rfl⟩
      rcases hi.lt_or_eq with hlt | heq
      · exact .inl (hhas hlt)
      · exact .inr (hg heq)

theorem removeEntry_spec (h : d.WellFormed) : wp (removeEntry name) (fun _ d' => d'.WellFormed) d := by
  rw [removeEntry, wp_bind]
  refine wp_dirlookup h.toFilled ?_
  cases e : d.slot? name with
  | none => exact wp_pure.mpr h
  | some j =>
    have hj := ((slot?_eq_some h.distinct).mp e).1
    dsimp only [Option.map_some]
    rw [wp_bind]
    refine wp_writeDirent h.toFilled hj.le (fun d' _ hend _ => absurd hend hj.ne) fun d' hst _ => ?_
    exact wp_pure.mpr (hst.wellFormed h fun _ _ h0 => absurd rfl h0)

/-- The free blocks are of no account to the contents. -/
theorem Dir.WellFormed.withFree (h : d.WellFormed) (nfree : Nat) :
    { d with nfree := nfree }.WellFormed ∧ ∀ s, { d with nfree := nfree }.lookup s = d.lookup s := by
  have h' : { d with nfree := nfree }.WellFormed := ⟨⟨h.size, h.le, h.mapped⟩, h.distinct⟩
  refine ⟨h', fun s => Option.ext fun x => ?_⟩
  rw [lookup_eq_some h', lookup_eq_some h]
  exact Iff.rfl

theorem Call.run_spec (c : Call) (h : d.WellFormed) : wp c.run (fun _ d' => d'.WellFormed) d := by
  cases c with
  | link name inum nfree =>
    rw [Call.run, wp_bind, wp_modify, wp_bind]
    exact wp_mono (dirlink_spec name inum (h.withFree nfree).1) fun _ _ hl => wp_pure.mpr hl.1
  | unlink name nfree =>
    rw [Call.run, wp_bind, wp_modify]
    exact removeEntry_spec (h.withFree nfree).1

theorem runAll_spec (calls : List Call) (h : d.WellFormed) : wp (runAll calls) (fun _ d' => d'.WellFormed) d := by
  induction calls generalizing d with
  | nil => exact wp_pure.mpr h
  | cons c cs ih =>
    rw [runAll, wp_bind]
    exact wp_mono (c.run_spec h) fun _ _ h' => ih h'

/-- **A directory is a finite map.** After any calls, no two entries have equal names; `dirlink` succeeds
exactly if the name is absent and there is a slot, and binds it, or changes nothing; names agree exactly if
their first `DIRSIZ` bytes do. -/
theorem directory_is_map (h : d.WellFormed) (calls : List Call) :
    ∃ d', runAll calls d = .ok ((), d') ∧ d'.Distinct ∧
      (∀ name inum nfree, inum ≠ 0 → ∃ r d'', dirlink name inum { d' with nfree := nfree } = .ok (r, d'') ∧
        Linked { d' with nfree := nfree } name inum r d'') ∧
      ∀ s t, 0 ∉ s → 0 ∉ t → (s.take DIRSIZ = t.take DIRSIZ → dirlookup s d' = dirlookup t d') ∧
        ∀ r, dirlookup s d' = .ok (some r, d') → dirlookup t d' = .ok (some r, d') →
          s.take DIRSIZ = t.take DIRSIZ := by
  obtain ⟨⟨⟩, d', hrun, h'⟩ := wp_iff.mp (runAll_spec calls h)
  refine ⟨d', hrun, h'.distinct, fun name inum nfree h0 => ?_, fun s t hs ht => ⟨fun e => ?_, fun r h1 h2 => ?_⟩⟩
  · obtain ⟨r, d'', hlink, -, hl⟩ := wp_iff.mp (dirlink_spec name inum (h'.withFree nfree).1)
    exact ⟨r, d'', hlink, hl h0⟩
  · have hfield : field s DIRSIZ = field t DIRSIZ := by
      rw [field_of_not_mem _ _ hs, field_of_not_mem _ _ ht, e]
    rw [dirlookup_run h'.toFilled, dirlookup_run h'.toFilled, slot?_congr hfield]
  · rw [dirlookup_run h'.toFilled] at h1 h2
    obtain ⟨i, hi, rfl⟩ := Option.map_eq_some_iff.mp (Prod.mk.inj (Except.ok.inj h1)).1
    obtain ⟨j, hj, e⟩ := Option.map_eq_some_iff.mp (Prod.mk.inj (Except.ok.inj h2)).1
    obtain rfl : j = i := Nat.eq_of_mul_eq_mul_left (by decide) (Prod.mk.inj e).2
    have hns := (names_iff.mp ((slot?_eq_some h'.distinct).mp hi).2).2
    have hnt := (names_iff.mp ((slot?_eq_some h'.distinct).mp hj).2).2
    rw [← field_of_not_mem _ _ hs, ← field_of_not_mem _ _ ht, hns, hnt]

def dotDir : Dir := ⟨16, fun _ => some fun _ => ⟨1, strncpy [46] DIRSIZ⟩, false, 0⟩

theorem directory_is_map_dot : dotDir.WellFormed ∧ ∃ d',
    runAll [.link [97] 2 0, .unlink [46] 0, .link [97] 3 0] dotDir = .ok ((), d') ∧ d'.Distinct := by
  have h : dotDir.WellFormed := by
    refine ⟨⟨rfl, by decide, fun _ _ => rfl⟩, fun i hi j hj _ _ _ => ?_⟩
    rw [show dotDir.slots = 1 from rfl] at hi hj
    omega
  obtain ⟨d', hrun, hd, -⟩ := directory_is_map h [.link [97] 2 0, .unlink [46] 0, .link [97] 3 0]
  exact ⟨h, d', hrun, hd⟩

end Xv6Freezer.Directory

import Xv6Freezer.Files.Code

/-! # What a process owns inside the kernel

The records for the rule `Machine.invariant`: the references that a process owns, the pipe ends that no file
has yet, and the contents of the inodes it has locked. `needs` says what an operation needs of the record,
`gives` what becomes of it.
-/

namespace Xv6Freezer.Files

open Lib Function

/-! ## Blocks -/

namespace Blocks

/-- The number of block `bn` of an inode, 0 if there is none. -/
def addr (b : Blocks) (bn : Nat) : Nat :=
  if bn < NDIRECT then b.addrs bn else if b.addrs NDIRECT = 0 then 0 else b.ind (bn - NDIRECT)

/-- An inode of that size has no holes. -/
structure Full (b : Blocks) (size : Nat) : Prop where
  size_le : size ≤ MAXFILE * BSIZE
  addr_ne : ∀ bn, bn * BSIZE < size → b.addr bn ≠ 0

def Grows (b b' : Blocks) : Prop := ∀ bn, b.addr bn ≠ 0 → b'.addr bn ≠ 0

variable {b b' : Blocks} {bn x y a size : Nat}

theorem Grows.full (h : b.Grows b') (hf : b.Full size) : b'.Full size :=
  ⟨hf.size_le, fun bn hbn => h bn (hf.addr_ne bn hbn)⟩

theorem Full.congr (hf : b.Full size) (ha : b'.addrs = b.addrs) (hi : b'.ind = b.ind) :
    b'.Full size := by
  refine ⟨hf.size_le, fun bn hbn => ?_⟩
  have h := hf.addr_ne bn hbn
  simpa only [addr, ha, hi] using h

theorem balloc_addrs : (b.balloc x).2.addrs = b.addrs := by
  unfold balloc
  split <;> rfl

theorem balloc_ind : (b.balloc x).2.ind = b.ind := by
  unfold balloc
  split <;> rfl

theorem balloc_full (h : b.balloc x = (a, b')) (ha : (b.balloc x).1 = 0) :
    a = 0 ∧ b' = (b.balloc x).2 ∧ b.Grows (b.balloc x).2 :=
  ⟨by rw [← ha, h], by rw [h], fun _ hk => by simpa only [addr, balloc_addrs, balloc_ind] using hk⟩

theorem bmap_of_addr (h : b.addr bn ≠ 0) (hbn : bn < MAXFILE) :
    b.bmap bn x y = some (b.addr bn, b) := by
  unfold addr at h ⊢
  unfold bmap
  by_cases hd : bn < NDIRECT
  · simp only [hd, if_true] at h ⊢
    rw [bmapDirect, if_pos h]
  · have hj : bn - NDIRECT < NINDIRECT := by
      unfold MAXFILE at hbn
      omega
    by_cases h0 : b.addrs NDIRECT = 0
    · simp [hd, h0] at h
    · simp only [hd, h0, if_false] at h
      simp only [hd, hj, h0, bmapInd, ne_eq, not_false_eq_true, if_true, if_false]
      rw [bmapSlot, if_pos h]

theorem bmapDirect_spec (hd : bn < NDIRECT) (h : b.bmapDirect bn x = (a, b')) :
    b'.addr bn = a ∧ b.Grows b' := by
  unfold bmapDirect at h
  split at h
  · cases h
    exact ⟨by simp [addr, hd], fun _ hk => hk⟩
  · rename_i h0
    simp only at h
    split at h
    · rename_i ha
      obtain ⟨rfl, rfl, hgrows⟩ := balloc_full h ha
      exact ⟨by simpa [addr, hd, balloc_addrs] using h0, hgrows⟩
    · rename_i ha
      cases h
      refine ⟨by simp [addr, hd], fun k hk => ?_⟩
      have hbn : NDIRECT ≠ bn := by omega
      by_cases hkb : k = bn
      · subst hkb
        simpa [addr, hd] using ha
      · simpa [addr, update, hkb, hbn, balloc_ind] using hk

theorem bmapInd_spec (h : b.bmapInd x = (a, b')) :
    b'.addrs NDIRECT = a ∧ b.Grows b' := by
  unfold bmapInd at h
  split at h
  · cases h
    exact ⟨rfl, fun _ hk => hk⟩
  · rename_i h0
    simp only at h
    split at h
    · rename_i ha
      obtain ⟨rfl, rfl, hgrows⟩ := balloc_full h ha
      exact ⟨by simpa [balloc_addrs] using h0, hgrows⟩
    · cases h
      refine ⟨by simp, fun k hk => ?_⟩
      -- without an indirect block only the direct blocks are there
      by_cases hd : k < NDIRECT
      · have hne : k ≠ NDIRECT := by omega
        simpa [addr, hd, update, hne] using hk
      · simp only [ne_eq, Decidable.not_not] at h0
        simp [addr, hd, h0] at hk

theorem bmapSlot_spec {j : Nat} (hn : b.addrs NDIRECT ≠ 0) (h : b.bmapSlot j x = (a, b')) :
    b'.addr (NDIRECT + j) = a ∧ b.Grows b' := by
  have hlt : ¬ NDIRECT + j < NDIRECT := by omega
  unfold bmapSlot at h
  split at h
  · cases h
    exact ⟨by simp [addr, hn], fun _ hk => hk⟩
  · rename_i h0
    simp only at h
    split at h
    · rename_i ha
      obtain ⟨rfl, rfl, hgrows⟩ := balloc_full h ha
      exact ⟨by simpa [addr, hlt, hn, balloc_addrs, balloc_ind] using h0, hgrows⟩
    · rename_i ha
      cases h
      refine ⟨by simp [addr, balloc_addrs, hn], fun k hk => ?_⟩
      by_cases hd : k < NDIRECT
      · simpa [addr, hd, balloc_addrs] using hk
      · by_cases hkj : k - NDIRECT = j
        · simpa [addr, hd, balloc_addrs, hn, hkj] using ha
        · simpa [addr, hd, balloc_addrs, hn, update, hkj] using hk

/-- **`bmap`**: the result is the block that is there afterwards, and no block is lost. -/
theorem bmap_spec (h : b.bmap bn x y = some (a, b')) : b'.addr bn = a ∧ b.Grows b' := by
  unfold bmap at h
  split at h
  · exact bmapDirect_spec ‹_› (Option.some.inj h)
  · rename_i hd
    split at h
    · simp only at h
      have hi : (b.bmapInd x).2.addrs NDIRECT = (b.bmapInd x).1 ∧ b.Grows (b.bmapInd x).2 :=
        bmapInd_spec rfl
      split at h
      · rename_i h0
        have hr := Option.some.inj h
        rw [hr] at hi h0
        simp only at hi h0
        subst h0
        exact ⟨by simp [addr, hd, hi.1], hi.2⟩
      · rename_i h0
        have hs := bmapSlot_spec (hi.1 ▸ h0) (Option.some.inj h)
        rw [show NDIRECT + (bn - NDIRECT) = bn by omega] at hs
        exact ⟨hs.1, fun k hk => hs.2 k (hi.2 k hk)⟩
    · cases h

end Blocks

theorem blockStart_le (off : Nat) : off / BSIZE * BSIZE ≤ off := Nat.div_mul_le_self off BSIZE

theorem block_lt_maxfile {off : Nat} (h : off < MAXFILE * BSIZE) : off / BSIZE < MAXFILE :=
  Nat.div_lt_of_lt_mul (by rwa [Nat.mul_comm])

theorem readLoop_full {x : Nat → Nat} {n k off tot size : Nat} {b : Blocks} (hf : b.Full size)
    (hoff : off + (n - tot) ≤ size) : ∃ r, readLoop x n k b off tot = some (r, b) := by
  induction k generalizing off tot with
  | zero => exact ⟨tot, rfl⟩
  | succ k ih =>
    unfold readLoop
    by_cases hn : n ≤ tot
    · exact ⟨tot, by rw [if_pos hn]⟩
    · rw [if_neg hn]
      have hlt : off < size := by omega
      have haddr : b.addr (off / BSIZE) ≠ 0 :=
        hf.addr_ne _ (Nat.lt_of_le_of_lt (blockStart_le off) hlt)
      rw [Blocks.bmap_of_addr haddr (block_lt_maxfile (Nat.lt_of_lt_of_le hlt hf.size_le))]
      simp only [haddr, if_false]
      split
      · exact ⟨-1, rfl⟩
      · have hm : min (n - tot) (BSIZE - off % BSIZE) ≤ n - tot := Nat.min_le_left _ _
        exact ih (by omega)

theorem Blocks.Full.extend {b b' : Blocks} {off size m : Nat} (hf : b.Full size) (hg : b.Grows b')
    (ha : b'.addr (off / BSIZE) ≠ 0) (hoff : off ≤ size) (hm : m ≤ BSIZE - off % BSIZE)
    (hmax : off + m ≤ MAXFILE * BSIZE) : b'.Full (max size (off + m)) := by
  refine ⟨by have := hf.size_le; omega, fun bn hbn => ?_⟩
  by_cases hlt : bn * BSIZE < size
  · exact hg bn (hf.addr_ne bn hlt)
  · -- the block of the piece is the last one
    have hdm := Nat.div_add_mod off BSIZE
    have hpos : 0 < BSIZE := by decide
    have hmod := Nat.mod_lt off hpos
    have hle : bn ≤ off / BSIZE := by
      by_contra hc
      have : (off / BSIZE + 1) * BSIZE ≤ bn * BSIZE := Nat.mul_le_mul_right _ (by omega)
      rw [Nat.add_mul, Nat.mul_comm (off / BSIZE)] at this
      omega
    have hge : off / BSIZE ≤ bn := by
      have h1 : off ≤ bn * BSIZE := by omega
      calc off / BSIZE ≤ bn * BSIZE / BSIZE := Nat.div_le_div_right h1
        _ = bn := Nat.mul_div_cancel _ hpos
    rwa [Nat.le_antisymm hle hge]

theorem writeLoop_full {x : Nat → Nat} {n k off tot size tot' off' : Nat} {b b' : Blocks}
    (hf : b.Full (max size off)) (hoff : off + (n - tot) ≤ MAXFILE * BSIZE)
    (h : writeLoop x n k b off tot = some (tot', off', b')) : b'.Full (max size off') := by
  induction k generalizing off tot b with
  | zero =>
    cases h
    exact hf
  | succ k ih =>
    unfold writeLoop at h
    split at h
    · cases h
      exact hf
    · split at h
      · cases h
      · rename_i hn _ a b1 hb
        obtain ⟨ha, hg⟩ := Blocks.bmap_spec hb
        split at h
        · cases h
          exact hg.full hf
        · split at h
          · cases h
            exact hg.full hf
          · rename_i ha0 _
            have hm : min (n - tot) (BSIZE - off % BSIZE) ≤ n - tot := Nat.min_le_left _ _
            refine ih ?_ (by omega) h
            have hext := hf.extend hg (by rwa [ha]) (Nat.le_max_right size off)
              (Nat.min_le_right (n - tot) _) (by omega)
            rwa [Nat.max_assoc, Nat.max_eq_right (Nat.le_add_right off _)] at hext

/-! ## Records -/

/-- Why a process may use an inode that it has locked. -/
inductive Via where
  | own
  /-- It owns a reference to a file that refers to the inode. -/
  | file (f : Nat)
  deriving DecidableEq

/-- What the sleep-lock of an inode protects. -/
structure Held where
  via : Via
  valid : Bool
  d : Dinode
  disk : Dinode
  ind : Nat → Nat
  slot : Nat → Dirent

def Dinode.Full (d : Dinode) (ind : Nat → Nat) : Prop :=
  (Blocks.mk d.addrs ind 0).Full d.size

theorem Dinode.full_of_size {d : Dinode} (h : d.size = 0) (ind : Nat → Nat) : d.Full ind := by
  unfold Dinode.Full
  rw [h]
  exact ⟨Nat.zero_le _, fun bn hbn => absurd hbn (Nat.not_lt_zero _)⟩

/-- The inode is loaded, allocated, and as on the disk. -/
structure Held.Clean (h : Held) : Prop where
  valid : h.valid = true
  disk : h.d = h.disk
  type : h.d.type ≠ .none
  full : h.d.Full h.ind

/-- The child that `fork` is making: descriptors from `fds` on are still empty. -/
structure Child (P : Type) where
  slot : P
  fds : Nat
  cwd : Bool

structure Own (P : Type) where
  proc : Proc
  irefs : Multiset Nat
  frefs : Multiset Nat
  ends : Multiset (Nat × Bool)
  /-- Files that nobody else refers to and that have no contents yet. -/
  new : Finset Nat
  /-- The contents of files, as the process has seen them. -/
  seen : Nat → Option File
  held : Nat → Option Held
  child : Option (Child P)

def File.On (f : File) (ip : Nat) : Prop := (f.type = .inode ∨ f.type = .device) ∧ f.ip = ip

/-- The end of a pipe that a file is. -/
def File.End (f : File) (pi : Nat) (writable : Bool) : Prop :=
  f.type = .pipe ∧ f.pipe = pi ∧ f.writable = writable

instance (f : File) (ip : Nat) : Decidable (f.On ip) := by
  unfold File.On
  infer_instance

instance (f : File) (pi : Nat) (w : Bool) : Decidable (f.End pi w) := by
  unfold File.End
  infer_instance

/-- The reference that a pointer is. -/
def refsOf : Option Nat → Multiset Nat
  | some x => {x}
  | none => 0

def Proc.cwdRefs (p : Proc) : Multiset Nat := refsOf p.cwd

def Proc.fileRefs (p : Proc) : Multiset Nat := (Multiset.range NOFILE).filterMap p.ofile

theorem filterMap_congr {α β : Type} {f g : α → Option β} {m : Multiset α}
    (h : ∀ x ∈ m, f x = g x) : m.filterMap f = m.filterMap g := by
  induction m using Multiset.induction_on with
  | empty => rfl
  | cons a m ih =>
    rw [Multiset.filterMap_cons, Multiset.filterMap_cons, h a (Multiset.mem_cons_self a m),
      ih fun x hx => h x (Multiset.mem_cons_of_mem hx)]

theorem fileRefs_update {o : Nat → Option Nat} {fd : Nat} (v : Option Nat) (hfd : fd < NOFILE) :
    refsOf (o fd) + (Multiset.range NOFILE).filterMap (update o fd v) =
      refsOf v + (Multiset.range NOFILE).filterMap o := by
  have hr := Multiset.cons_erase (Multiset.mem_range.mpr hfd)
  have hrest : ((Multiset.range NOFILE).erase fd).filterMap (update o fd v) =
      ((Multiset.range NOFILE).erase fd).filterMap o := by
    refine filterMap_congr fun x hx => Function.update_of_ne ?_ _ _
    exact ((Multiset.nodup_range NOFILE).mem_erase_iff.mp hx).1
  have hcons : ∀ o : Nat → Option Nat, (Multiset.range NOFILE).filterMap o =
      refsOf (o fd) + ((Multiset.range NOFILE).erase fd).filterMap o := fun o => by
    rw [← hr]
    cases ho : o fd with
    | none => rw [Multiset.filterMap_cons_none _ _ ho, hr, refsOf, Multiset.zero_add]
    | some x => rw [Multiset.filterMap_cons_some _ _ _ ho, hr, refsOf, Multiset.singleton_add]
  rw [hcons (update o fd v), hcons o, hrest, Function.update_self]
  exact add_left_comm _ _ _

def refPanics : List String := ["filedup", "fileclose", "ilock", "iunlock", "sched locks"]

namespace Own

variable {P : Type}

/-- A process in user space: it owns what its slot says. -/
structure Idle (g : Own P) : Prop where
  irefs : g.irefs = g.proc.cwdRefs
  frefs : g.frefs = g.proc.fileRefs
  ends : g.ends = 0
  held : ∀ e, g.held e = none
  child : g.child = none
  fds : ∀ fd, NOFILE ≤ fd → g.proc.ofile fd = none
  cwd : g.proc.stage = .alive → g.proc.cwd ≠ none

/-- The process may use the inode: by a reference, or one to a file that refers to it. -/
def Refd (g : Own P) (e : Nat) : Prop :=
  e ∈ g.irefs ∨ ∃ f F, f ∈ g.frefs ∧ g.seen f = some F ∧ F.On e

def hold (g : Own P) (e : Nat) (h : Held) : Own P := { g with held := update g.held e (some h) }

def release (g : Own P) (e : Nat) : Own P := { g with held := update g.held e none }

def drop (g : Own P) (e : Nat) : Own P := { g with irefs := g.irefs.erase e }

def ref (g : Own P) (e : Nat) : Own P := { g with irefs := e ::ₘ g.irefs }

/-- What the last reference to a file leaves behind. -/
def take (g : Own P) : Option File → Own P
  | none => g
  | some F =>
    if F.type = .pipe then { g with ends := (F.pipe, F.writable) ::ₘ g.ends }
    else if F.type = .inode ∨ F.type = .device then g.ref F.ip
    else g

def close (g : Own P) (f : Nat) : Own P :=
  { g with frefs := g.frefs.erase f, new := g.new.erase f }

def alloc (g : Own P) (f : Nat) : Own P :=
  { g with frefs := f ::ₘ g.frefs, new := insert f g.new, seen := update g.seen f none }

def dup (g : Own P) (f : Nat) : Own P :=
  { g with frefs := f ::ₘ g.frefs, new := g.new.erase f }

def look (g : Own P) (f : Nat) (F : File) : Own P := { g with seen := update g.seen f (some F) }

def fill (g : Own P) (f : Nat) : Own P :=
  { g with new := g.new.erase f, seen := update g.seen f none }

def fillInode (g : Own P) (f ip : Nat) : Own P :=
  { (g.fill f).drop ip with
    held := update g.held ip ((g.held ip).map fun h => { h with via := .file f }) }

def dropEnd (g : Own P) (pi : Nat) (w : Bool) : Own P := { g with ends := g.ends.erase (pi, w) }

def setProc (g : Own P) (f : Proc → Proc) : Own P := { g with proc := f g.proc }

def giveFile (g : Own P) (fd f : Nat) : Own P :=
  { g.close f with child := g.child.map fun c => { c with fds := fd + 1 } }

def giveCwd (g : Own P) (ip : Nat) : Own P :=
  { g.drop ip with child := g.child.map fun c => { c with cwd := true } }

end Own

/-- What `writei` may do to an inode before `iupdate`. -/
def Held.Written (h h' : Held) : Prop :=
  ∃ addrs ind size slot, h' = { h with
    d := { h.d with addrs := addrs, size := size }, ind := ind, slot := slot } ∧ h'.d.Full ind

variable {P : Type}

def needs : Op P → Own P → Prop
  | .panic msg, _ => msg ∉ refPanics
  | .setOfile fd _, _ => fd < NOFILE
  | .iget dev _, _ => dev = ROOTDEV
  | .idup ip, g => ip ∈ g.irefs
  | .ilockCheck ip, g | .acquiresleep ip, g => g.Refd ip
  | .loadInode ip, g => ∃ h, g.held ip = some h ∧ h.valid = false
  | .iunlock ip, g | .releasesleep ip, g => ∃ h, g.held ip = some h ∧ (h.valid = true → h.Clean)
  | .setInode ip _, g => ∃ h, g.held ip = some h ∧ h.valid = true
  | .iupdate ip, g => ∃ h, g.held ip = some h ∧ h.valid = true ∧ h.disk.type ≠ .none
  | .clearValid ip, g => ∃ h, g.held ip = some h ∧ h.valid = true ∧ h.disk.type = .none
  | .iputTest ip, g => ip ∈ g.irefs ∧ ∀ h, g.held ip = some h → h.via = .own → ip ∈ g.irefs.erase ip
  | .iputDrop ip, g => ip ∈ g.irefs ∧ g.held ip = none
  | .readDirent ip _, g | .readi ip _ _, g | .writei ip _ _, g => ∃ h, g.held ip = some h ∧ h.Clean
  | .writeDirent ip off _ _, g => DIRENT ∣ off ∧ ∃ h, g.held ip = some h ∧ h.Clean
  | .iallocTry _ type, _ => type ≠ .none
  | .filedup f, g | .getFile f, g | .setOff f _, g => f ∈ g.frefs
  | .fileclose f, g => f ∈ g.frefs ∧ ∀ e h, g.held e = some h → h.via ≠ .file f
  | .openInode f ip type _ _ _, g => f ∈ g.new ∧ ip ∈ g.irefs ∧ (type = .inode ∨ type = .device)
  | .openPipe f pi w, g => f ∈ g.new ∧ (pi, w) ∈ g.ends
  | .pipeclose pi w, g => (pi, w) ∈ g.ends
  | .allocproc, g => g.child = none
  | .childOfile np fd f, g =>
    f ∈ g.frefs ∧ (∀ e, g.held e = none) ∧ fd < NOFILE ∧
      ∃ c, g.child = some c ∧ c.slot = np ∧ c.fds ≤ fd
  | .childCwd np ip, g =>
    ip ∈ g.irefs ∧ (∀ e, g.held e = none) ∧ ∃ c, g.child = some c ∧ c.slot = np ∧ c.cwd = false
  | .childRun np, g => ∃ c, g.child = some c ∧ c.slot = np ∧ c.cwd = true
  | .zombie, g => (g.setProc fun q => { q with stage := .zombie }).Idle ∧
      (∀ fd, g.proc.ofile fd = none) ∧ g.proc.cwd = none
  | _, _ => True

def gives : (o : Op P) → Own P → Res o → Own P → Prop
  | .myproc, g, r, g' => r = g.proc ∧ g' = g
  | .setOfile fd f, g, _, g' =>
    g' = g.setProc fun q => { q with ofile := update q.ofile fd f }
  | .setCwd ip, g, _, g' => g' = g.setProc fun q => { q with cwd := ip }
  | .iget _ _, g, r, g' => g' = g.ref r
  | .idup ip, g, _, g' => g' = g.ref ip
  | .acquiresleep ip, g, _, g' =>
    g.held ip = none ∧ ∃ h, g' = g.hold ip h ∧ (h.valid = true → h.Clean) ∧
      (ip ∈ g.irefs → h.via = .own) ∧ (h.via = .own → ip ∈ g.irefs)
  | .getInode ip, g, r, g' =>
    g' = g ∧ (ip ∈ g.irefs → r.dev = ROOTDEV) ∧
      ∀ h, g.held ip = some h → r.valid = h.valid ∧ (h.valid = true → r.d = h.d)
  | .loadInode ip, g, _, g' =>
    ∃ h h', g.held ip = some h ∧ g' = g.hold ip h' ∧ h'.via = h.via ∧ h'.valid = true ∧
      h'.d = h'.disk ∧ (h'.d.type ≠ .none → h'.Clean)
  | .iunlock ip, g, _, g' | .releasesleep ip, g, _, g' => g' = g.release ip
  | .setInode ip f, g, _, g' =>
    ∃ h, g.held ip = some h ∧ g' = g.hold ip { h with d := f h.d }
  | .iupdate ip, g, _, g' => ∃ h, g.held ip = some h ∧ g' = g.hold ip { h with disk := h.d }
  | .clearValid ip, g, _, g' => ∃ h, g.held ip = some h ∧ g' = g.hold ip { h with valid := false }
  | .iputTest ip, g, r, g' =>
    (r = true → g.held ip = none ∧ ∃ h, g' = g.hold ip h ∧ h.Clean ∧ h.via = .own) ∧
      (r = false → g' = g.drop ip)
  | .iputDrop ip, g, _, g' => g' = g.drop ip
  | .readDirent ip off, g, r, g' =>
    g' = g ∧ ∀ h, g.held ip = some h →
      r = if h.d.size < off + DIRENT then none else some (h.slot (off / DIRENT))
  | .writeDirent ip _ _ _, g, r, g' | .writei ip _ _, g, r, g' =>
    (r = (-1 : Int) → g' = g) ∧
      (r ≠ (-1 : Int) → ∃ h h', g.held ip = some h ∧ g' = g.hold ip h' ∧ h.Written h')
  | .filealloc, g, r, g' =>
    match r with
    | none => g' = g
    | some f => f ∉ g.frefs ∧ g' = g.alloc f
  | .filedup f, g, _, g' => g' = g.dup f
  | .fileclose f, g, r, g' => g' = (g.close f).take r
  | .getFile f, g, r, g' =>
    (f ∈ g.frefs → ∀ F, g.seen f = some F → r.type = F.type ∧ r.ip = F.ip) ∧ g' = g.look f r
  | .openInode f ip _ _ _ _, g, _, g' => g' = g.fillInode f ip
  | .openPipe f pi w, g, _, g' => g' = (g.fill f).dropEnd pi w
  | .newPipe, g, r, g' =>
    match r with
    | none => g' = g
    | some pi => g' = { g with ends := (pi, false) ::ₘ (pi, true) ::ₘ g.ends }
  | .pipeclose pi w, g, _, g' => g' = g.dropEnd pi w
  | .allocproc, g, r, g' =>
    match r with
    | none => g' = g
    | some np => g' = { g with child := some ⟨np, 0, false⟩ }
  | .childOfile _ fd f, g, _, g' => g' = g.giveFile fd f
  | .childCwd _ ip, g, _, g' => g' = g.giveCwd ip
  | .childRun _, g, _, g' => g' = { g with child := none }
  | .zombie, g, _, g' => g' = g.setProc fun q => { q with stage := .zombie }
  | _, g, _, g' => g' = g

/-- The rules for reference counts and locked inodes: only processes that are alive execute
anything. -/
def rules : Rules (Op P) Res (Own P) where
  pre o g := g.proc.stage = .alive ∧ needs o g
  post := gives

end Xv6Freezer.Files

import Xv6Freezer.Exec.Args

/-! # What `exec` does

For every file, every list of arguments and every pattern of allocation failures, either **everything is as it
was** (`ExecFailed`), or the process has **a new address space with the program and the arguments**
(`ExecDone`).
-/

namespace Xv6Freezer.Exec

open Lib Vm Fork Function

variable {L : Layout} {fs : Files} {C : Multiset Nat} {p : Slot} {path : List UInt8} {argv : List Nat}
  {s s' s1 : ExecState} {m m' : Mem} {root tf sz v : Nat} {img : Nat → UInt8}

/-! ## States -/

/-- The inode `ip` is referenced and locked, in a transaction. -/
def ExecState.opened (s : ExecState) (ip : Nat) (m : Mem) : ExecState :=
  { s with
    mem := m
    begun := s.begun + 1
    inodeRef := update s.inodeRef ip (s.inodeRef ip + 1)
    locked := update s.locked ip true }

/-- The transaction is over. -/
def ExecState.closed (s : ExecState) (m : Mem) : ExecState :=
  { s with mem := m, begun := s.begun + 1, ended := s.ended + 1 }

def ExecState.close (s : ExecState) (ip : Nat) : ExecState :=
  { s with
    inodeRef := update s.inodeRef ip (s.inodeRef ip - 1)
    locked := update s.locked ip false
    ended := s.ended + 1 }

theorem close_opened {ip : Nat} (hlocked : s.locked ip = false) (m : Mem) :
    (s.opened ip m).close ip = s.closed m := by
  have href : update (update s.inodeRef ip (s.inodeRef ip + 1)) ip (s.inodeRef ip + 1 - 1) =
      s.inodeRef := by
    rw [update_idem, Int.add_sub_cancel, update_eq_self]
  have hlock : update (update s.locked ip true) ip false = s.locked := by
    rw [update_idem, ← hlocked, update_eq_self]
  unfold ExecState.close ExecState.opened ExecState.closed
  simp only [update_self, href, hlock]

theorem wp_onMem {α : Type} {x : Vm.M α} {Q : α → ExecState → Prop} :
    wp (onMem x) Q s ↔ wp x (fun a m' => Q a { s with mem := m' }) s.mem := wp_zoom

/-- **Everything is as it was**, after as many calls of `begin_op` as of `end_op`. -/
structure ExecFailed (s s' : ExecState) : Prop where
  /-- What has been allocated is free again, and nothing else has been written. -/
  moves : heap.Moves 0 0 s.mem s'.mem
  state : s' = s.closed s'.mem

/-! ## `bad` -/

/-- What has been built when `bad` is called: nothing, or a table of size `sz`. -/
inductive Built (L : Layout) (C : Multiset Nat) (tf : Nat) (m0 : Mem) (pagetable sz : Nat) (m : Mem) :
    Prop where
  | nothing (hpt : pagetable = 0) (moves : heap.Moves 0 0 m0 m)
  | table (hpt : pagetable ≠ 0) (table : UserTable L C pagetable tf (PGROUNDUP sz / PGSIZE) m)
      (moves : heap.Moves 0 (m.space pagetable (PGROUNDUP sz / PGSIZE)) m0 m)

theorem free_built {m0 : Mem} {Q : Unit → ExecState → Prop} (h : Built L C tf m0 root sz s1.mem)
    (hQ : ∀ m', heap.Moves 0 0 m0 m' → Q () { s1 with mem := m' }) :
    wp (if root ≠ 0 then onMem (procFreepagetable L root sz) else pure ()) Q s1 := by
  cases h with
  | nothing hpt hmv =>
    rw [if_neg (not_not.mpr hpt), wp_pure]
    exact hQ s1.mem hmv
  | table hpt ht hmv =>
    rw [if_pos hpt, wp_onMem]
    exact wp_mono (procFreepagetable_spec ht rfl) fun _ m' hmv' => hQ m' (hmv.trans hmv')

theorem bad_opened {ip : Nat} (hlocked : s.locked ip = false) (h : Built L C tf s.mem root sz m) :
    wp (bad L root sz (some ip)) (fun r s' => r = none ∧ ExecFailed s s') (s.opened ip m) := by
  rw [bad, wp_ite_bind]
  refine free_built h fun m' hmv => ?_
  dsimp only
  rw [wp_bind, iunlockput, wp_modify, wp_bind, end_op, wp_modify, wp_pure]
  have hclose := close_opened hlocked m'
  exact ⟨rfl, by rw [← hclose] at *; exact hmv, hclose⟩

theorem bad_closed (h : Built L C tf s.mem root sz m) :
    wp (bad L root sz none) (fun r s' => r = none ∧ ExecFailed s s') (s.closed m) := by
  rw [bad, wp_ite_bind]
  refine free_built h fun m' hmv => ?_
  dsimp only
  rw [wp_pure]
  exact ⟨rfl, hmv, rfl⟩

/-! ## The new image takes over -/

/-- What is allocated when `exec` starts. -/
def ExecState.rest (s : ExecState) (p : Slot) (C : Multiset Nat) : Multiset Nat :=
  s.mem.space (s.proc p).pagetable (s.proc p).npages + ({(s.proc p).trapframe} + C)

theorem moves_trapframe {i x : Nat} (htf : IsPage tf) (hi : i < trapframeWords) :
    heap.Moves {tf} {tf} m { m with bytes := m.bytes.store64 (tf + 8 * i) x } := by
  have hal := htf.aligned
  refine moves_bytes fun y hy hne => ?_
  have hne : y ≠ tf := fun e => hne (by simp [e])
  refine Bytes.SameOn.fill_of_disjoint ?_
  unfold trapframeWords at hi
  unfold PGSIZE at *
  omega

def setRegisters (m : Mem) (tf entry sp : Nat) : Mem :=
  { m with
    bytes := Bytes.store64 (Bytes.store64 (m.bytes.store64 (tf + 8 * regA1) sp) (tf + 8 * regEpc) entry)
      (tf + 8 * regSp) sp }

theorem setRegisters_moves (entry sp : Nat) (htf : IsPage tf) :
    heap.Moves {tf} {tf} m (setRegisters m tf entry sp) :=
  ((moves_trapframe htf (by decide)).trans (moves_trapframe htf (by decide))).trans
    (moves_trapframe htf (by decide))

theorem setRegisters_load (m : Mem) (tf : Nat) {entry sp : Nat} (hentry : entry < 2 ^ 64) (hsp : sp < 2 ^ 64) :
    (setRegisters m tf entry sp).bytes.load64 (tf + 8 * regA1) = sp ∧
    (setRegisters m tf entry sp).bytes.load64 (tf + 8 * regSp) = sp ∧
    (setRegisters m tf entry sp).bytes.load64 (tf + 8 * regEpc) = entry := by
  have hdisj : ∀ {b : Bytes} {i j x : Nat}, i ≠ j →
      (b.store64 (tf + 8 * i) x).load64 (tf + 8 * j) = b.load64 (tf + 8 * j) := fun hne =>
    Bytes.load64_congr (Bytes.SameOn.fill_of_disjoint (by omega))
  unfold setRegisters
  dsimp only
  refine ⟨?_, ?_, ?_⟩
  · rw [hdisj (by decide), hdisj (by decide), Bytes.load64_store64 hsp]
  · rw [Bytes.load64_store64 hsp]
  · rw [hdisj (by decide), Bytes.load64_store64 hentry]

/-- **The new image has taken the place of the old one.** -/
structure Committed (L : Layout) (C : Multiset Nat) (p : Slot) (path : List UInt8) (entry root n sp : Nat)
    (m : Mem) (img : Nat → UInt8) (s s' : ExecState) : Prop where
  state : s' = { s.closed s'.mem with
    proc := update s.proc p { s.proc p with
      name := safestrcpy (lastElement path) 16, pagetable := root, sz := n * PGSIZE } }
  image : Image L ({(s.proc p).trapframe} + C) root (s.proc p).trapframe n s'.mem img
  pte : ∀ v, s'.mem.pte root v = m.pte root v
  a1 : s'.mem.bytes.load64 ((s.proc p).trapframe + 8 * regA1) = sp
  sp : s'.mem.bytes.load64 ((s.proc p).trapframe + 8 * regSp) = sp
  epc : s'.mem.bytes.load64 ((s.proc p).trapframe + 8 * regEpc) = entry
  kept : ∀ x ∈ C, SamePage s.mem.bytes s'.mem.bytes x
  /-- The pages of the old address space are free. -/
  moves : heap.Moves (s.mem.space (s.proc p).pagetable (s.proc p).npages + {(s.proc p).trapframe})
    (s'.mem.space root n + {(s.proc p).trapframe}) s.mem s'.mem

theorem commit_spec {n entry sp argc : Nat} (h : AddressSpace L C (s.proc p) s.mem)
    (hI : Image L (s.rest p C) root (s.proc p).trapframe n m img)
    (hmv : heap.Moves 0 (m.space root n) s.mem m) (hentry : entry < 2 ^ 64) (hsp : sp < 2 ^ 64) :
    wp (commit L p path ⟨entry, root, n * PGSIZE, sp, argc⟩)
      (fun r s' => r = argc ∧ Committed L C p path entry root n sp m img s s') (s.closed m) := by
  have htf := h.table.isPage
  rw [commit, wp_bind, wp_get, wp_bind, wp_onMem, wp_store, wp_bind, setProc, wp_modify, wp_bind, wp_onMem,
    wp_store, wp_bind, wp_onMem, wp_store, wp_bind, wp_onMem]
  -- the memory after the three stores
  have hset := setRegisters_moves (m := m) entry sp htf
  show wp (procFreepagetable L (s.proc p).pagetable (s.proc p).sz) _
    (setRegisters m (s.proc p).trapframe entry sp)
  obtain ⟨ha1, hsp', hepc⟩ := setRegisters_load m (s.proc p).trapframe hentry hsp
  generalize setRegisters m (s.proc p).trapframe entry sp = m1 at hset ha1 hsp' hepc
  have hpool : s.rest p C = {(s.proc p).trapframe} +
      (s.mem.space (s.proc p).pagetable (s.proc p).npages + C) := by
    rw [ExecState.rest, add_left_comm]
  have hset1 : heap.Moves (s.rest p C) (s.rest p C) m m1 := by
    rw [hpool]
    exact hset.frame _
  obtain ⟨hI1, hpte1, hspace1⟩ := hI.other hset1
  have hmv1 : heap.Moves {(s.proc p).trapframe} (m1.space root n + {(s.proc p).trapframe}) s.mem m1 := by
    rw [hspace1]
    have h1 := (hmv.frame {(s.proc p).trapframe}).congr (zero_add _) rfl
    exact h1.trans ((hset.frame (m.space root n)).congr (add_comm _ _) (add_comm _ _))
  -- the old table is an additional one now
  have hold := h.table.other ((hmv1.frame C).congr rfl (add_assoc _ _ _))
  have hspace : m1.space (s.proc p).pagetable (s.proc p).npages =
      s.mem.space (s.proc p).pagetable (s.proc p).npages :=
    h.table.space_other ((hmv1.frame C).congr rfl (add_assoc _ _ _))
  refine wp_mono (procFreepagetable_spec hold.1 rfl) fun _ m2 hmv2 => ?_
  have hkept2 := hold.1.owns.same hmv2
  rw [hspace] at hmv2
  have htf2 : SamePage m1.bytes m2.bytes (s.proc p).trapframe := hkept2 _ (by simp)
  have hreg : ∀ i < trapframeWords, m2.bytes.load64 ((s.proc p).trapframe + 8 * i) =
      m1.bytes.load64 ((s.proc p).trapframe + 8 * i) := by
    intro i hi
    refine Bytes.load64_congr (htf2.mono ?_)
    unfold trapframeWords at hi
    unfold PGSIZE
    omega
  obtain ⟨hI2, hpte2, hspace2⟩ := hI1.other ((hmv2.frame _).congr rfl (zero_add _))
  rw [wp_pure]
  refine ⟨rfl, rfl, hI2, fun v => (hpte2 v).trans (hpte1 v), ?_, ?_, ?_, fun x hx => ?_, ?_⟩
  · exact (hreg _ (by decide)).trans ha1
  · exact (hreg _ (by decide)).trans hsp'
  · exact (hreg _ (by decide)).trans hepc
  · have ho : Owns L ({(s.proc p).trapframe} +
        (s.mem.space (s.proc p).pagetable (s.proc p).npages + C)) s.mem := by
      rw [← hpool]
      exact h.table.owns
    exact (ho.same hmv1 x (by simp [hx])).trans (hkept2 x (by simp [hx]))
  · show heap.Moves _ (m2.space root n + {(s.proc p).trapframe}) s.mem m2
    rw [hspace2]
    have h1 := (hmv1.frame (s.mem.space (s.proc p).pagetable (s.proc p).npages)).congr (add_comm _ _)
      (add_comm _ _)
    exact h1.trans ((hmv2.frame _).congr rfl (zero_add _))

/-! ## The stack -/

theorem Loading.built {m0 : Mem} (h : Loading L C root tf m0 sz m img) : Built L C tf m0 root sz m :=
  .table h.image.table.table.shape.isPage.pos.ne' h.image.table h.moves

theorem Stored.built {m0 m1 : Mem} {img1 : Nat → UInt8} (h : Stored L C root tf v m img m1 img1)
    (hmv : heap.Moves 0 (m.space root (v + USERSTACK)) m0 m) :
    Built L C tf m0 root ((v + USERSTACK) * PGSIZE) m1 := by
  have hmax := h.stack.image.table.mul_le (Nat.le_refl (v + USERSTACK))
  have hpages : PGROUNDUP ((v + USERSTACK) * PGSIZE) / PGSIZE = v + USERSTACK :=
    roundUp_mul_div ((Nat.le_add_right _ _).trans hmax)
  refine .table h.stack.image.table.table.shape.isPage.pos.ne' ?_ ?_
  · rw [hpages]
    exact h.stack.image.table
  · rw [hpages]
    exact hmv.trans h.moves

structure NewStack (L : Layout) (C : Multiset Nat) (root tf n : Nat) (m0 m : Mem) (img : Nat → UInt8) :
    Prop where
  stack : Stack L C root tf (n + 1) m img
  guard : m.pte root n &&& PTE_U = 0
  moves : heap.Moves 0 (m.space root (n + 1 + USERSTACK)) m0 m

theorem clearUser_user (w : Nat) : clearUser w &&& PTE_U = 0 := by
  have hmask : (2 ^ 64 - 1 - PTE_U) &&& PTE_U = 0 := by decide
  rw [clearUser, Nat.and_assoc, hmask, Nat.and_zero]

theorem newStack_spec {n : Nat} {m0 m1 : Mem} (h : Loading L C root tf m0 sz m img)
    (hn : PGROUNDUP sz / PGSIZE = n)
    (hE : Extended L C root tf (PTE_R ||| PTE_U ||| PTE_W) n m (n + 1 + USERSTACK) m1) :
    wp (uvmclear root (n * PGSIZE)) (fun _ m' => NewStack L C root tf n m0 m' img) m1 := by
  have hI := h.image
  rw [hn] at hI
  have hzero : ∀ a, n * PGSIZE ≤ a → img a = 0 := fun a ha => h.above a (by
    rwa [← roundUp_mul sz, hn])
  obtain ⟨hG, hmv⟩ := hI.grow hE hzero
  have hmv0 := h.moves
  rw [hn] at hmv0
  refine wp_mono (hG.clear (by omega : n < n + 1 + USERSTACK)) fun _ m' ⟨hC, hmv', hpte⟩ => ?_
  refine ⟨⟨hC, fun w hlo hhi => ?_, Nat.succ_pos n⟩, ?_, (hmv0.trans hmv).trans hmv'⟩
  · have hflags : PTE_FLAGS (m1.pte root w) = PTE_R ||| PTE_U ||| PTE_W ||| PTE_V :=
      hE.flags w (by omega) hhi
    rw [hpte w hhi, if_neg (by omega)]
    refine ⟨?_, ?_⟩ <;>
      rw [and_flags (by decide), hflags] <;>
      decide
  · rw [hpte n (by omega), if_pos rfl]
    exact clearUser_user _

/-- **The stack has been set up** above the program, or everything is as it was. -/
inductive Stacking (L : Layout) (C : Multiset Nat) (p : Slot) (argv : List Nat) (entry root n : Nat)
    (img : Nat → UInt8) (s : ExecState) (r : Option NewImage) (s' : ExecState) : Prop where
  | failed (hr : r = none) (failed : ExecFailed s s')
  | done {m : Mem} {img' : Nat → UInt8} {addrs : List Nat} {low sp : Nat}
      (hr : r = some ⟨entry, root, (n + 1 + USERSTACK) * PGSIZE, sp, argv.length⟩) (state : s' = s.closed m)
      (image : Image L (s.rest p C) root (s.proc p).trapframe (n + 1 + USERSTACK) m img')
      (moves : heap.Moves 0 (m.space root (n + 1 + USERSTACK)) s.mem m)
      (below : ∀ a < (n + 1) * PGSIZE, img' a = img a) (guard : m.pte root n &&& PTE_U = 0)
      (user : ∀ w, n + 1 ≤ w → w < n + 1 + USERSTACK → m.pte root w &&& PTE_U ≠ 0)
      (stacked : Stacked img' ((n + 1) * PGSIZE) ((n + 1 + USERSTACK) * PGSIZE) (argv.map (kstr s.mem)) addrs
        low)
      (vector : Vector img' ((n + 1) * PGSIZE) addrs low sp)

theorem execStack_spec {elf : Elfhdr} (h : AddressSpace L C (s.proc p) s.mem)
    (hargs : ∀ a ∈ argv, a ∈ C ∧ (kstr s.mem a).length < PGSIZE) (hargc : argv.length < MAXARG)
    (hL : Loading L (s.rest p C) root (s.proc p).trapframe s.mem sz m img) :
    wp (execStack L argv elf root sz) (fun r s' =>
      Stacking L C p argv elf.entry root (PGROUNDUP sz / PGSIZE) img s r s') (s.closed m) := by
  obtain ⟨n, hn⟩ : ∃ n, PGROUNDUP sz / PGSIZE = n := ⟨_, rfl⟩
  have hsz : PGROUNDUP sz = n * PGSIZE := by rw [← hn, roundUp_mul]
  have hsmall := hL.lt
  have hphys : PHYSTOP + (USERSTACK + 1) * PGSIZE ≤ MAXVA := by decide
  have hM : MAXVA < 2 ^ 64 := by decide
  have hmaxn : n * PGSIZE ≤ MAXVA := by omega
  have hnew : u64 (n * PGSIZE + (USERSTACK + 1) * PGSIZE) = (n + 1 + USERSTACK) * PGSIZE := by
    have hadd : n * PGSIZE + (USERSTACK + 1) * PGSIZE = (n + 1 + USERSTACK) * PGSIZE := by
      rw [← Nat.add_mul]
      rfl
    rw [hadd]
    refine u64_of_lt ?_
    rw [← hadd]
    omega
  have hpages : PGROUNDUP (n * PGSIZE) / PGSIZE = n := roundUp_mul_div hmaxn
  rw [hn, execStack, hsz]
  dsimp only
  rw [hnew, wp_bind, wp_onMem]
  have ht : UserTable L (s.rest p C) root (s.proc p).trapframe (PGROUNDUP (n * PGSIZE) / PGSIZE) m := by
    rw [hpages, ← hn]
    exact hL.image.table
  refine wp_mono (uvmalloc_spec ht hmaxn (Nat.mul_le_mul_right _ (by omega)) (by decide))
    fun x m1 hx => ?_
  rw [hpages] at hx
  cases hx with
  | failed hx hP =>
    rw [if_pos hx]
    have hL1 := (hL.popped (by rwa [hn])).built
    have hB : Built L (s.rest p C) (s.proc p).trapframe s.mem root (n * PGSIZE) m1 := by
      cases hL1 with
      | nothing hpt hmv => exact .nothing hpt hmv
      | table hpt ht hmv =>
        rw [hn] at ht hmv
        exact .table hpt (by rwa [hpages]) (by rwa [hpages])
    exact wp_mono (bad_closed hB) fun r s' ⟨hr, hf⟩ => .failed hr hf
  | grown hx hmax hE =>
    subst hx
    have hpages2 : PGROUNDUP ((n + 1 + USERSTACK) * PGSIZE) / PGSIZE = n + 1 + USERSTACK := roundUp_mul_div hmax
    rw [hpages2] at hE
    have hne : (n + 1 + USERSTACK) * PGSIZE ≠ 0 := Nat.mul_ne_zero (Nat.succ_ne_zero _) (by decide)
    have hguard : sub64 ((n + 1 + USERSTACK) * PGSIZE) ((USERSTACK + 1) * PGSIZE) = n * PGSIZE := by
      rw [sub64_of_le (by omega) (Nat.mul_le_mul_right _ (by unfold USERSTACK; omega)), ← Nat.sub_mul]
      rfl
    have hbase : sub64 ((n + 1 + USERSTACK) * PGSIZE) (USERSTACK * PGSIZE) = (n + 1) * PGSIZE := by
      rw [sub64_of_le (by omega) (Nat.mul_le_mul_right _ (by unfold USERSTACK; omega)), ← Nat.sub_mul]
      rfl
    rw [if_neg hne, wp_bind, wp_onMem, hguard, hbase]
    refine wp_mono (newStack_spec hL hn hE) fun _ m2 hN => ?_
    rw [wp_bind, wp_onMem]
    -- the argument strings are not touched
    have hown : Owns L (0 + s.rest p C) s.mem := by
      rw [zero_add]
      exact h.table.owns
    have hkept := hown.same hN.moves
    have hstr : ∀ a ∈ argv, kstr m2 a = kstr s.mem a := fun a ha =>
      kstr_congr (hkept a (by simp [ExecState.rest, (hargs a ha).1]))
    have hargs2 : ∀ a ∈ argv, a ∈ s.rest p C ∧ (kstr m2 a).length < PGSIZE := fun a ha =>
      ⟨by simp [ExecState.rest, (hargs a ha).1], by rw [hstr a ha]; exact (hargs a ha).2⟩
    have hmap : argv.map (kstr m2) = argv.map (kstr s.mem) := List.map_congr_left hstr
    refine wp_mono (pushArgs_spec hN.stack argv hN.stack.stored_self
      (Nat.mul_le_mul_right _ (Nat.le_add_right _ _)) .nil hargs2) fun r m3 hR => ?_
    rw [List.nil_append, hmap] at hR
    cases hR with
    | failed hS =>
      exact wp_mono (bad_closed (hS.built hN.moves)) fun r s' ⟨hr, hf⟩ => .failed hr hf
    | @ok _ img3 low addrs hS hlow hstacked =>
      have hlen : addrs.length = argv.length := by rw [hstacked.length, List.length_map]
      have hfew : (addrs.length + 1) * 8 ≤ PGSIZE := by
        unfold MAXARG at hargc
        unfold PGSIZE
        omega
      obtain ⟨sp, hsp, hvec⟩ := pushVector_spec hS hlow hstacked hfew
      dsimp only
      rw [hsp]
      by_cases hfit : sp < (n + 1) * PGSIZE
      · rw [if_pos hfit]
        exact wp_mono (bad_closed (hS.built hN.moves)) fun r s' ⟨hr, hf⟩ => .failed hr hf
      rw [if_neg hfit, wp_bind, wp_onMem]
      refine wp_mono (hvec (Nat.le_of_not_lt hfit)) fun r m4 ⟨hr, img4, hS4, hst4, hvec4⟩ => ?_
      rw [if_neg (by omega), wp_pure]
      exact .done (by rw [hlen]) rfl hS4.stack.image (hN.moves.trans hS4.moves) hS4.below ((hS4.pte n).symm ▸ hN.guard) (fun w h1 h2 => (hS4.stack.user w h1 h2).1) hst4 hvec4

def elfOf (f : File) : Elfhdr := Elfhdr.ofBytes (readi f 0 elfhdrSize)

def segments (f : File) : List Proghdr := headers f (elfOf f).phnum (int32 (elfOf f).phoff)

/-- **The process runs the file** `fs.content ip`: the program, a guard page and the stack from page `v` on. -/
structure ExecDone (L : Layout) (fs : Files) (C : Multiset Nat) (p : Slot) (path : List UInt8)
    (argv : List Nat) (s : ExecState) (r : Int) (s' : ExecState) (ip root v sp low : Nat)
    (addrs : List Nat) (m : Mem) (img : Nat → UInt8) : Prop where
  file : fs.namei path = some ip
  result : r = argv.length
  committed : Committed L C p path (elfOf (fs.content ip)).entry root (v + USERSTACK) sp m img s s'
  pos : 0 < v
  /-- Below the stack is the program. -/
  program : ∀ a < v * PGSIZE, img a = image (fs.content ip) (segments (fs.content ip)) a
  /-- The program ends below the guard page. -/
  inside : ∀ ph ∈ segments (fs.content ip), Inside (fs.content ip) ((v - 1) * PGSIZE) ph
  guard : m.pte root (v - 1) &&& PTE_U = 0
  user : ∀ w, v ≤ w → w < v + USERSTACK → m.pte root w &&& PTE_U ≠ 0
  stacked : Stacked img (v * PGSIZE) ((v + USERSTACK) * PGSIZE) (argv.map (kstr s.mem)) addrs low
  vector : Vector img (v * PGSIZE) addrs low sp

theorem execImage_spec (fs : Files) (path : List UInt8) (h : AddressSpace L C (s.proc p) s.mem)
    (hargs : ∀ a ∈ argv, a ∈ C ∧ (kstr s.mem a).length < PGSIZE) (hargc : argv.length < MAXARG)
    (hlocked : ∀ ip, s.locked ip = false) :
    wp (execImage L fs p path argv) (fun r s' => r = none ∧ ExecFailed s s' ∨
      ∃ ip root n img, fs.namei path = some ip ∧
        (∀ a, img a = image (fs.content ip) (segments (fs.content ip)) a) ∧
        (∀ ph ∈ segments (fs.content ip), Inside (fs.content ip) (n * PGSIZE) ph) ∧
        Stacking L C p argv (elfOf (fs.content ip)).entry root n img s r s') s := by
  have htf : (s.proc p).trapframe ∈ s.rest p C := by simp [ExecState.rest]
  rw [execImage, wp_bind, begin_op, wp_modify]
  cases hip : fs.namei path with
  | none =>
    dsimp only
    rw [wp_bind, end_op, wp_modify, wp_pure]
    exact .inl ⟨rfl, .refl _ _ _, rfl⟩
  | some ip =>
    have hbad : ∀ {Q : Option NewImage → ExecState → Prop} {root sz m},
        Built L (s.rest p C) (s.proc p).trapframe s.mem root sz m → wp (bad L root sz (some ip))
          (fun r s' => r = none ∧ ExecFailed s s' ∨ Q r s') (s.opened ip m) := fun hB =>
      wp_mono (bad_opened (hlocked ip) hB) fun r s' hr => .inl hr
    dsimp only
    rw [wp_bind, ilock, wp_modify]
    by_cases hlen : (readi (fs.content ip) 0 elfhdrSize).length ≠ elfhdrSize
    · rw [if_pos hlen]
      exact hbad (.nothing rfl (.refl _ _ _))
    rw [if_neg hlen]
    by_cases hmagic : (Elfhdr.ofBytes (readi (fs.content ip) 0 elfhdrSize)).magic ≠ ELF_MAGIC
    · rw [if_pos hmagic]
      exact hbad (.nothing rfl (.refl _ _ _))
    rw [if_neg hmagic, wp_bind, wp_get, wp_bind, wp_onMem]
    refine wp_mono (procPagetable_total h.table.owns htf) fun root m1 h1 => ?_
    cases h1 with
    | none hpt hmv =>
      rw [if_pos hpt]
      exact hbad (.nothing rfl hmv)
    | table hpt ht hmv =>
      rw [if_neg hpt, wp_bind, wp_onMem]
      refine wp_mono (loadLoop_spec _ _ (Loading.start_image (fs.content ip) ht hmv) nofun)
        fun r m2 h2 => ?_
      cases h2 with
      | failed img hL => exact hbad hL.built
      | @ok sz _ hL hin =>
        rw [List.nil_append] at hL hin
        have hclose := close_opened (hlocked ip) m2
        dsimp only
        rw [wp_bind, iunlockput, wp_modify, wp_bind, end_op, wp_modify]
        show wp _ _ ((s.opened ip m2).close ip)
        rw [hclose]
        refine wp_mono (execStack_spec h hargs hargc hL) fun r s' hS => ?_
        refine .inr ⟨ip, root, _, _, rfl, fun _ => rfl, fun ph hph => ?_, hS⟩
        have hph' := hin ph hph
        refine ⟨hph'.file, hph'.below.trans ?_⟩
        rw [roundUp_mul]
        exact (roundUp_bounds hL.size).1

theorem exec_spec (fs : Files) (path : List UInt8) (h : AddressSpace L C (s.proc p) s.mem)
    (hargs : ∀ a ∈ argv, a ∈ C ∧ (kstr s.mem a).length < PGSIZE) (hargc : argv.length < MAXARG)
    (hlocked : ∀ ip, s.locked ip = false) :
    wp (exec L fs p path argv) (fun r s' => r = -1 ∧ ExecFailed s s' ∨
      ∃ ip root v sp low addrs m img,
        ExecDone L fs C p path argv s r s' ip root v sp low addrs m img) s := by
  rw [exec, wp_bind]
  refine wp_mono (execImage_spec fs path h hargs hargc hlocked) fun r s1 h1 => ?_
  rcases h1 with ⟨rfl, hf⟩ | ⟨ip, root, n, img0, hip, himg, hin, hS⟩
  · exact wp_pure.mpr (.inl ⟨rfl, hf⟩)
  cases hS with
  | failed hr hf =>
    subst hr
    exact wp_pure.mpr (.inl ⟨rfl, hf⟩)
  | @done m img addrs low sp hr hs1 hI hmv hbelow hguard huser hst hvec =>
    subst hr hs1
    have hentry : (elfOf (fs.content ip)).entry < 2 ^ 64 := (Bytes.loadLE_lt _ _ _).trans_eq (by norm_num)
    have hsp : sp < 2 ^ 64 := by
      have hmax := hI.table.mul_le (Nat.le_refl _)
      have hM : MAXVA < 2 ^ 64 := by decide
      have hle := hvec.le
      have htop := hst.le
      omega
    refine wp_mono (commit_spec h hI hmv hentry hsp) fun r s' ⟨hr, hcom⟩ => ?_
    exact .inr ⟨ip, root, n + 1, sp, low, addrs, m, img, hip, hr, hcom, Nat.succ_pos _,
      fun a ha => (hbelow a ha).trans (himg a), hin, hguard, huser, hst, hvec⟩

end Xv6Freezer.Exec

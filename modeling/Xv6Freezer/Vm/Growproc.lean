import Xv6Freezer.Vm.Fork
import Xv6Freezer.Vm.Uvmalloc

/-! # `growproc`

`growproc(n)` is all of `sbrk`. The sum wraps around if `n` is less than minus the size; `uvmdealloc` then
does nothing, and `growproc` reports success: the call is correct **exactly if the new size is not negative**
(`growproc_correct_iff`).
-/

namespace Xv6Freezer.Fork

open Lib Vm Function

def growproc (L : Layout) (p : Slot) (n : Int) : K Int := do
  let s ← get
  let sz := (s.proc p).sz
  if n > 0 then
    let sz ← onMem (uvmalloc L (s.proc p).pagetable sz (u64 (sz + ofInt n)) PTE_W)
    if sz = 0 then return -1
    else
      setProc p fun q => { q with sz := sz }
      return 0
  else if n < 0 then
    let sz ← onMem (uvmdealloc L (s.proc p).pagetable sz (u64 (sz + ofInt n)))
    setProc p fun q => { q with sz := sz }
    return 0
  else
    setProc p fun q => { q with sz := sz }
    return 0

variable {L : Layout} {C : Multiset Nat} {m m' : Mem} {s s' : State} {p : Slot} {q : Proc} {n : Int}

/-! ## Address spaces -/

/-- **A process has an address space**: its table maps the pages below its size, the trapframe, the trampoline
and nothing else. The pages `C` are others'. -/
structure AddressSpace (L : Layout) (C : Multiset Nat) (q : Proc) (m : Mem) : Prop where
  table : UserTable L ({q.trapframe} + C) q.pagetable q.trapframe q.npages m
  size : q.sz ≤ TRAPFRAME

section

variable (h : AddressSpace L C q m)

include h

theorem AddressSpace.le_maxva : q.sz ≤ MAXVA := h.size.trans (by decide)

theorem AddressSpace.space : Space L C q m where
  shape := h.table.table.shape
  owns := by
    rw [Proc.pages, ← add_assoc, add_assoc]
    exact h.table.owns
  valid v hv := (h.table.leaf v hv).valid
  size := h.size

theorem AddressSpace.other {C' : Multiset Nat} (hmv : heap.Moves C C' m m') : AddressSpace L C' q m' :=
  ⟨(h.table.other ((hmv.frame {q.trapframe}).congr (add_comm _ _) (add_comm _ _))).1, h.size⟩

theorem AddressSpace.lookup_user {va : Nat} (hva : va < PGROUNDUP q.sz) :
    lookup q.pagetable va m = .ok (some (PTE2PA (m.pte q.pagetable (va / PGSIZE)),
      PTE_FLAGS (m.pte q.pagetable (va / PGSIZE))), m) := by
  obtain ⟨hpage, hmax⟩ := h.space.addr hva
  rw [lookup_eq h.table.table.shape hmax, decode, if_neg (h.table.leaf _ hpage).valid]

theorem AddressSpace.lookup_above {va : Nat} (hva : va < TRAPFRAME)
    (hsz : PGROUNDUP q.sz ≤ va) : lookup q.pagetable va m = .ok (none, m) := by
  have hmax : va < MAXVA := hva.trans_le (by decide)
  have hpage : q.npages ≤ va / PGSIZE := by
    unfold Proc.npages
    exact Nat.div_le_div_right hsz
  have htf : va / PGSIZE < trapframePage := by
    unfold trapframePage TRAPFRAME TRAMPOLINE MAXVA PGSIZE at *
    omega
  rw [lookup_eq h.table.table.shape hmax, h.table.rest _ (page_lt hmax) hpage htf.ne
    (htf.trans trapframePage_lt).ne]
  rfl

end

/-- The byte of user memory at `va` is what it was, on the same page. -/
def SameUserByte (q : Proc) (m m' : Mem) (va : Nat) : Prop :=
  ∃ pa flags, lookup q.pagetable va m = .ok (some (pa, flags), m) ∧
    lookup q.pagetable va m' = .ok (some (pa, flags), m') ∧
    m'.bytes (pa + va % PGSIZE) = m.bytes (pa + va % PGSIZE)

/-- The size has changed by `n`. -/
structure Resized (p : Slot) (n : Int) (s s' : State) : Prop where
  sz : ((s'.proc p).sz : Int) = (s.proc p).sz + n
  /-- What is below both sizes is unchanged. -/
  same : ∀ va < min (s.proc p).sz (s'.proc p).sz, SameUserByte (s.proc p) s.mem s'.mem va
  /-- The pages that are mapped now and were not mapped are full of zeros. -/
  zero : ∀ va, PGROUNDUP (s.proc p).sz ≤ va → va < PGROUNDUP (s'.proc p).sz →
    lookup (s.proc p).pagetable va s.mem = .ok (none, s.mem) ∧
    ∃ pa flags, lookup (s.proc p).pagetable va s'.mem = .ok (some (pa, flags), s'.mem) ∧
      s'.mem.bytes (pa + va % PGSIZE) = 0
  /-- No page is mapped above the new size. -/
  above : ∀ va < TRAPFRAME, PGROUNDUP (s'.proc p).sz ≤ va →
    lookup (s.proc p).pagetable va s'.mem = .ok (none, s'.mem)

structure Unresized (p : Slot) (s s' : State) : Prop where
  proc : s'.proc p = s.proc p
  same : ∀ va < PGROUNDUP (s.proc p).sz, SameUserByte (s.proc p) s.mem s'.mem va
  above : ∀ va < TRAPFRAME, PGROUNDUP (s.proc p).sz ≤ va →
    lookup (s.proc p).pagetable va s'.mem = .ok (none, s'.mem)

/-- What a call of `growproc(n)` that returns `r` is supposed to have done. -/
def GrowprocCorrect (p : Slot) (n : Int) (s : State) (r : Int) (s' : State) : Prop :=
  r = 0 ∧ Resized p n s s' ∨ r = -1 ∧ Unresized p s s'

theorem wp_onMem {α : Type} {x : Vm.M α} {Q : α → State → Prop} :
    wp (onMem x) Q s ↔ wp x (fun a m' => Q a { s with mem := m' }) s.mem := wp_zoom

theorem wp_setProc {f : Proc → Proc} {Q : Unit → State → Prop} :
    wp (setProc p f) Q s ↔ Q () (s.setProc p f) := wp_modify

def State.resize (s : State) (p : Slot) (m : Mem) (sz : Nat) : State :=
  { s with mem := m }.setProc p fun q => { q with sz := sz }

@[simp] theorem resize_proc (s : State) (p : Slot) (m : Mem) (sz : Nat) :
    (s.resize p m sz).proc p = { s.proc p with sz := sz } := setProc_self _

theorem AddressSpace.sameUserByte {q' : Proc} {va : Nat} (h : AddressSpace L C q m)
    (h' : AddressSpace L C q' m') (hroot : q'.pagetable = q.pagetable) (hva : va < PGROUNDUP q.sz)
    (hva' : va < PGROUNDUP q'.sz)
    (hpte : m'.pte q.pagetable (va / PGSIZE) = m.pte q.pagetable (va / PGSIZE))
    (hsame : SamePage m.bytes m'.bytes (PTE2PA (m.pte q.pagetable (va / PGSIZE)))) :
    SameUserByte q m m' va := by
  refine ⟨_, _, h.lookup_user hva, ?_, hsame _ (Nat.mod_lt _ (by decide))⟩
  have hlook := h'.lookup_user hva'
  rwa [hroot, hpte] at hlook

theorem AddressSpace.extended {newsz perm : Nat} (h : AddressSpace L C (s.proc p) s.mem)
    (hle : (s.proc p).sz ≤ newsz) (hmax : newsz ≤ MAXVA) (hn : (newsz : Int) = (s.proc p).sz + n)
    (hE : Extended L ({(s.proc p).trapframe} + C) (s.proc p).pagetable (s.proc p).trapframe perm
      (s.proc p).npages s.mem (PGROUNDUP newsz / PGSIZE) m') :
    AddressSpace L C ((s.resize p m' newsz).proc p) m' ∧ Resized p n s (s.resize p m' newsz) := by
  have hA : AddressSpace L C ((s.resize p m' newsz).proc p) m' := by
    rw [resize_proc]
    exact ⟨hE.table, (roundUp_bounds hmax).1.trans hE.table.roundUp_lt.le⟩
  have hround := roundUp_mono hle hmax
  refine ⟨hA, ?_, fun va hva => ?_, fun va hlo hhi => ⟨?_, ?_⟩, fun va hva hlo => ?_⟩
  · rw [resize_proc]
    exact hn
  · have hva1 : va < PGROUNDUP (s.proc p).sz :=
      (lt_min_iff.mp hva).1.trans_le (roundUp_bounds h.le_maxva).1
    have hpage := (h.space.addr hva1).1
    refine h.sameUserByte hA (by rw [resize_proc]) hva1 ?_ (hE.pte _ hpage) ?_
    · rw [resize_proc]
      exact hva1.trans_le hround
    · exact hE.toAppended.same h.table _ (user_mem _ _ _ hpage)
  · rw [resize_proc] at hhi
    exact h.lookup_above (hhi.trans hE.table.roundUp_lt) hlo
  · have hlook := hA.lookup_user hhi
    have hpage := (hA.space.addr hhi).1
    rw [resize_proc] at hlook hpage
    refine ⟨_, _, hlook, hE.zero _ ?_ hpage _ (Nat.mod_lt _ (by decide))⟩
    unfold Proc.npages
    exact Nat.div_le_div_right hlo
  · have hlook := hA.lookup_above hva hlo
    rwa [resize_proc] at hlook

theorem AddressSpace.popped {newsz : Nat} (h : AddressSpace L C (s.proc p) s.mem)
    (hle : newsz ≤ (s.proc p).sz)
    (hP : Popped L ({(s.proc p).trapframe} + C) (s.proc p).pagetable (s.proc p).trapframe
      (s.proc p).npages (PGROUNDUP newsz / PGSIZE) s.mem m') :
    AddressSpace L C ((s.resize p m' newsz).proc p) m' ∧
      (∀ va < PGROUNDUP newsz, SameUserByte (s.proc p) s.mem m' va) := by
  have hA : AddressSpace L C ((s.resize p m' newsz).proc p) m' := by
    rw [resize_proc]
    exact ⟨hP.table, hle.trans h.size⟩
  refine ⟨hA, fun va hva => ?_⟩
  have hround := roundUp_mono hle h.le_maxva
  have hpage : va / PGSIZE < PGROUNDUP newsz / PGSIZE := by
    have hva' : va < PGROUNDUP ((s.resize p m' newsz).proc p).sz := by rwa [resize_proc]
    have haddr := (hA.space.addr hva').1
    rwa [resize_proc] at haddr
  refine h.sameUserByte hA (by rw [resize_proc]) (hva.trans_le hround) (by rw [resize_proc]; exact hva)
    (hP.pte _ hpage) ?_
  refine hP.same h.table (Nat.div_le_div_right hround) _ (Multiset.mem_add.mpr (.inl ?_))
  have := mem_mappedPages (f := s.mem.pte (s.proc p).pagetable) (v := 0) hpage
  rwa [Nat.zero_add] at this

theorem u64_add_ofInt {sz : Nat} (hsz : sz ≤ MAXVA) (hlo : -2 ^ 31 ≤ n) (hhi : n < 2 ^ 31) :
    (0 ≤ sz + n → (u64 (sz + ofInt n) : Int) = sz + n) ∧
      (sz + n < 0 → sz ≤ u64 (sz + ofInt n)) := by
  unfold MAXVA at hsz
  unfold u64 ofInt
  omega

theorem AddressSpace.shrunk {newsz : Nat} (h : AddressSpace L C (s.proc p) s.mem)
    (hn : (newsz : Int) = (s.proc p).sz + n) (hle : newsz ≤ (s.proc p).sz)
    (hP : Popped L ({(s.proc p).trapframe} + C) (s.proc p).pagetable (s.proc p).trapframe
      (s.proc p).npages (PGROUNDUP newsz / PGSIZE) s.mem m') :
    AddressSpace L C ((s.resize p m' newsz).proc p) m' ∧ Resized p n s (s.resize p m' newsz) := by
  obtain ⟨hA, hsame⟩ := h.popped hle hP
  have hround := roundUp_mono hle h.le_maxva
  refine ⟨hA, ?_, fun va hva => hsame va ?_, fun va hlo hhi => ?_, fun va hva hlo => ?_⟩
  · rw [resize_proc]
    exact hn
  · rw [resize_proc] at hva
    exact (lt_min_iff.mp hva).2.trans_le (roundUp_bounds (hle.trans h.le_maxva)).1
  · rw [resize_proc] at hhi
    exact absurd (hhi.trans_le (hround.trans hlo)) (lt_irrefl va)
  · have hlook := hA.lookup_above hva hlo
    rwa [resize_proc] at hlook

/-- What `growproc(n)` does to memory and size. -/
inductive Growproced (L : Layout) (C : Multiset Nat) (p : Slot) (n : Int) (s : State) (r : Int) (s' : State) :
    Prop where
  | grown {m' : Mem} {newsz : Nat} (hpos : 0 < n) (hr : r = 0) (hs : s' = s.resize p m' newsz)
      (hn : (newsz : Int) = (s.proc p).sz + n) (hmax : newsz ≤ MAXVA)
      (hE : Extended L ({(s.proc p).trapframe} + C) (s.proc p).pagetable (s.proc p).trapframe
        (PTE_R ||| PTE_U ||| PTE_W) (s.proc p).npages s.mem (PGROUNDUP newsz / PGSIZE) m')
  | failed {m' : Mem} (hpos : 0 < n) (hr : r = -1) (hs : s' = { s with mem := m' })
      (hP : Popped L ({(s.proc p).trapframe} + C) (s.proc p).pagetable (s.proc p).trapframe
        (s.proc p).npages (s.proc p).npages s.mem m')
  | shrunk {m' : Mem} {newsz : Nat} (hneg : n ≤ 0) (hr : r = 0) (hs : s' = s.resize p m' newsz)
      (hn : newsz = min (u64 ((s.proc p).sz + ofInt n)) (s.proc p).sz)
      (hP : Popped L ({(s.proc p).trapframe} + C) (s.proc p).pagetable (s.proc p).trapframe
        (s.proc p).npages (PGROUNDUP newsz / PGSIZE) s.mem m')

theorem growproc_total (h : AddressSpace L C (s.proc p) s.mem) (hlo : -2 ^ 31 ≤ n) (hhi : n < 2 ^ 31) :
    wp (growproc L p n) (fun r s' => Growproced L C p n s r s') s := by
  have hsum := (u64_add_ofInt h.le_maxva hlo hhi).1
  rw [growproc, wp_bind, wp_get]
  dsimp only
  by_cases hpos : n > 0
  · have hnew := hsum (by omega)
    generalize u64 ((s.proc p).sz + ofInt n) = newsz at hnew
    have hle : (s.proc p).sz ≤ newsz := by omega
    rw [if_pos hpos, wp_bind, wp_onMem]
    refine wp_mono (uvmalloc_spec h.table h.le_maxva hle (by decide)) fun x m' hx => ?_
    cases hx with
    | grown hx hmax hE =>
      rw [if_neg (by omega), wp_bind, wp_setProc, wp_pure, hx]
      exact .grown hpos rfl rfl hnew hmax hE
    | failed hx hP =>
      rw [if_pos hx, wp_pure]
      exact .failed hpos rfl rfl hP
  rw [if_neg hpos]
  by_cases hneg : n < 0
  · rw [if_pos hneg, wp_bind, wp_onMem]
    refine wp_mono (uvmdealloc_spec _ h.table h.le_maxva) fun x m' hx => ?_
    rw [wp_bind, wp_setProc, wp_pure, hx.1]
    exact .shrunk hneg.le rfl rfl rfl hx.2
  · have hnew := hsum (by omega)
    rw [if_neg hneg, wp_bind, wp_setProc, wp_pure]
    exact .shrunk (by omega) rfl rfl (by omega) h.table.popped_self

/-- **`growproc` keeps the address space, and is correct if the new size is not negative.** -/
theorem growproc_spec (h : AddressSpace L C (s.proc p) s.mem) (hlo : -2 ^ 31 ≤ n) (hhi : n < 2 ^ 31) :
    wp (growproc L p n) (fun r s' => AddressSpace L C (s'.proc p) s'.mem ∧
      (0 ≤ (s.proc p).sz + n → GrowprocCorrect p n s r s') ∧
      ((s.proc p).sz + n < 0 → r = 0)) s := by
  refine wp_mono (growproc_total h hlo hhi) fun r s' hr => ?_
  cases hr with
  | grown hpos hr hs hn hmax hE =>
    obtain ⟨hA, hR⟩ := h.extended (by omega) hmax hn hE
    rw [hs]
    exact ⟨hA, fun _ => .inl ⟨hr, hR⟩, fun _ => hr⟩
  | failed hpos hr hs hP =>
    obtain ⟨hA, hsame⟩ := h.popped (Nat.le_refl _) hP
    rw [resize_proc] at hA
    rw [hs]
    exact ⟨hA, fun _ => .inr ⟨hr, rfl, hsame, fun va hva hsz => hA.lookup_above hva hsz⟩, by omega⟩
  | shrunk hneg hr hs hn hP =>
    have hsum := (u64_add_ofInt h.le_maxva hlo hhi).1
    rw [hs]
    refine ⟨(h.popped (by omega) hP).1, fun h0 => .inl ⟨hr, ?_⟩, fun _ => hr⟩
    have hnew := hsum h0
    exact (h.shrunk (by omega) (by omega) hP).2

/-- **`growproc` is correct exactly if the new size is not negative**: whatever allocations fail the call
returns, and does what `sbrk` promises if and only if the sum of the size and `n` is not negative. -/
theorem growproc_correct_iff (h : AddressSpace L C (s.proc p) s.mem) (hlo : -2 ^ 31 ≤ n)
    (hhi : n < 2 ^ 31) :
    (∃ r s', growproc L p n s = .ok (r, s') ∧ GrowprocCorrect p n s r s') ↔
      0 ≤ (s.proc p).sz + n := by
  obtain ⟨r, s', hrun, -, hcorrect, hzero⟩ := wp_iff.mp (growproc_spec h hlo hhi)
  refine ⟨fun ⟨r₁, s₁, hrun₁, hc⟩ => ?_, fun hn => ⟨r, s', hrun, hcorrect hn⟩⟩
  by_contra hneg
  cases hrun.symm.trans hrun₁
  have hr := hzero (by omega)
  rcases hc with ⟨-, hR⟩ | ⟨hr', -⟩
  · have := hR.sz
    omega
  · omega

theorem owns_of_freelist {m m' : Mem} {A : Multiset Nat} (h : Owns L A m)
    (hfree : m'.freelist = m.freelist) : Owns L A m' := by
  have hfree : heap.free m' = heap.free m := congrArg Multiset.ofList hfree
  exact ⟨hfree ▸ h.nodup, hfree ▸ h.isPage, hfree ▸ h.end_le⟩

/-- A process with two pages of user memory. -/
def pageProc : Proc :=
  { unusedSlot with state := .running, pid := 1, sz := 2 * PGSIZE, pagetable := ramPage 4, trapframe := ramPage 2 }

/-- Build its page table. -/
def setup : M (Nat × Nat) := do
  let pagetable ← procPagetable smallLayout (ramPage 2)
  if pagetable = 0 then return (0, 0)
  else return (pagetable, ← uvmalloc smallLayout pagetable 0 (2 * PGSIZE) PTE_W)

theorem exists_page (m₀ : Mem) (C : Multiset Nat) (ho : Owns smallLayout ({ramPage 2} + C) m₀)
    (hok : (setup m₀).toOption.map Prod.fst = some (ramPage 4, 2 * PGSIZE)) :
    ∃ m, (∀ {α : Type} (f : Mem → Option α), ((setup m₀).toOption.bind fun x => f x.2) = f m) ∧
      AddressSpace smallLayout C pageProc m ∧ ∀ x ∈ C, SamePage m₀.bytes m.bytes x := by
  have hmem : ramPage 2 ∈ {ramPage 2} + C := Multiset.mem_add.mpr (.inl (Multiset.mem_singleton_self _))
  have hspec : wp setup (fun r m => r = (ramPage 4, 2 * PGSIZE) → AddressSpace smallLayout C pageProc m ∧
      ∀ x ∈ C, SamePage m₀.bytes m.bytes x) m₀ := by
    rw [setup, wp_bind]
    refine wp_mono (procPagetable_total ho hmem) fun pt m₁ h₁ => ?_
    cases h₁ with
    | none hpt =>
      rw [if_pos hpt, wp_pure]
      intro e
      cases e
    | table hpt ht hmv =>
      rw [if_neg hpt, wp_bind]
      refine wp_mono (uvmalloc_spec ht (Nat.zero_le _) (Nat.zero_le _) (by decide)) fun x m₂ h₂ => wp_pure.mpr fun e => ?_
      obtain ⟨rfl, rfl⟩ := Prod.mk.inj e
      cases h₂ with
      | failed hx => cases hx
      | grown _ _ hE =>
        have ho' : Owns smallLayout (0 + ({ramPage 2} + C)) m₀ := by rwa [zero_add]
        have hmv₂ := hmv.trans ((hE.toAppended.space_moves).congr (add_zero _) rfl)
        exact ⟨⟨hE.table, by decide⟩, fun x hx => ho'.same hmv₂ x (by simp [hx])⟩
  obtain ⟨r, m, hrun, h⟩ := wp_iff.mp hspec
  rw [hrun] at hok
  obtain rfl : r = (ramPage 4, 2 * PGSIZE) := Option.some.inj hok
  exact ⟨m, fun f => by rw [hrun]; rfl, h rfl⟩

/-- The only process is in slot 0. -/
def stateOf (q : Proc) (m : Mem) : State where
  mem := m
  proc := update (fun _ => unusedSlot) 0 q
  nextpid := 2
  fileRef _ := 0
  inodeRef _ := 1

theorem exists_addressSpace : ∃ m, AddressSpace smallLayout 0 pageProc m ∧ ∀ {α : Type} (f : Mem → Option α),
    ((setup emptyMem).toOption.bind fun x => f x.2) = f m := by
  obtain ⟨m, hrun, h, -⟩ := exists_page emptyMem 0 (emptyMem_isTable.owns.right.mono (by simp))
    (by decide +kernel)
  exact ⟨m, h, hrun⟩

theorem growproc_correct_one : ∃ m, AddressSpace smallLayout 0 pageProc m ∧
    ((∃ r s', growproc smallLayout 0 1 (stateOf pageProc m) = .ok (r, s') ∧
      GrowprocCorrect 0 1 (stateOf pageProc m) r s') ↔ (0 : Int) ≤ (8192 : Nat) + 1) := by
  obtain ⟨m, h, -⟩ := exists_addressSpace
  have hs : AddressSpace smallLayout 0 ((stateOf pageProc m).proc 0) (stateOf pageProc m).mem := h
  exact ⟨m, h, growproc_correct_iff hs (by decide) (by decide)⟩

/-- `sbrk(-8193)` of a process with 8192 bytes of user memory succeeds. -/
theorem growproc_below_zero : ∃ m s', AddressSpace smallLayout 0 pageProc m ∧
    growproc smallLayout 0 (-8193) (stateOf pageProc m) = .ok (0, s') ∧
    ((s'.proc 0).sz : Int) ≠ pageProc.sz + (-8193) := by
  obtain ⟨m, h, -⟩ := exists_addressSpace
  have hs : AddressSpace smallLayout 0 ((stateOf pageProc m).proc 0) (stateOf pageProc m).mem := h
  have hsz : pageProc.sz = 8192 := rfl
  obtain ⟨r, s', hrun, -, -, hzero⟩ := wp_iff.mp (growproc_spec (n := -8193) hs (by decide) (by decide))
  have hneg : (((8192 : Nat) : Int) + (-8193) < 0) := by decide
  obtain rfl : r = 0 := hzero hneg
  exact ⟨m, s', h, hrun, by omega⟩

end Xv6Freezer.Fork

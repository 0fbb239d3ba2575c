import Xv6Freezer.Kernel.Code
import Xv6Freezer.Vm.UserTable
import Xv6Freezer.Vm.FiniteMap

/-! # `fork`

`fork` of `kernel/proc.c` as one call, over the bytes of `Vm.Mem`; what other CPUs do meanwhile is the subject
of `Kernel`. An **address space** (`Space`) is a page table that maps the pages below its size, where all
pages and the trapframe are allocated, each once. A child is a copy on other pages (`fork_spec`).
-/

namespace Xv6Freezer.Fork

open Lib Vm Function

/-! ## State -/

/-- `struct proc`, without its lock. Null pointers are 0, or `none` for an open file. -/
structure Proc where
  state : ProcState
  chan : Nat
  killed : Int
  xstate : Int
  pid : Int
  frozen : Int
  parent : Option Slot
  kstack : Nat
  sz : Nat
  pagetable : Nat
  trapframe : Nat
  /-- The words of `struct context`. -/
  context : Nat → Nat
  ofile : Nat → Option Nat
  cwd : Nat
  /-- The text of the name, up to the NUL. -/
  name : List UInt8

structure State where
  mem : Mem
  proc : Slot → Proc
  nextpid : Int
  fileRef : Nat → Int
  inodeRef : Nat → Int

abbrev K := StateT State (Except String)

def onMem {α : Type} (x : Vm.M α) : K α := zoom State.mem (fun m s => { s with mem := m }) x

def State.setProc (s : State) (p : Slot) (f : Proc → Proc) : State :=
  { s with proc := update s.proc p (f (s.proc p)) }

def setProc (p : Slot) (f : Proc → Proc) : K Unit := modify fun s => s.setProc p f

/-! ## Code -/

section Code

variable (L : Layout) (forkret : Nat)

def allocpid : K Int := do
  let s ← get
  modify fun s => { s with nextpid := int32 (s.nextpid + 1) }
  return s.nextpid

def freeproc (p : Slot) : K Unit := do
  let s ← get
  if (s.proc p).trapframe ≠ 0 then onMem (kfree L (s.proc p).trapframe) else pure ()
  if (s.proc p).pagetable ≠ 0 then onMem (procFreepagetable L (s.proc p).pagetable (s.proc p).sz)
  else pure ()
  setProc p fun q => { q with
    trapframe := 0, pagetable := 0, sz := 0, pid := 0, parent := none, name := [], chan := 0,
    killed := 0, xstate := 0, state := .unused }

def allocproc : K (Option Slot) := do
  let s ← get
  match (List.range NPROC).find? fun p => (s.proc p).state = .unused with
  | none => return none
  | some p =>
    let pid ← allocpid
    setProc p fun q => { q with pid := pid, state := .used }
    let trapframe ← onMem kalloc
    setProc p fun q => { q with trapframe := trapframe }
    if trapframe = 0 then
      freeproc L p
      return none
    else
      let pagetable ← onMem (procPagetable L trapframe)
      setProc p fun q => { q with pagetable := pagetable }
      if pagetable = 0 then
        freeproc L p
        return none
      else
        setProc p fun q => { q with
          context := update (update (fun _ => 0) 0 forkret) 1 (q.kstack + PGSIZE) }
        return some p

def filedup (f : Nat) : K Unit := do
  let s ← get
  if s.fileRef f < 1 then throw "filedup"
  else modify fun s => { s with fileRef := update s.fileRef f (s.fileRef f + 1) }

def idup (ip : Nat) : K Unit :=
  modify fun s => { s with inodeRef := update s.inodeRef ip (s.inodeRef ip + 1) }

def forkOfile (p np : Slot) (fd : Nat) : K Unit := do
  let s ← get
  match (s.proc p).ofile fd with
  | none => pure ()
  | some f =>
    filedup f
    setProc np fun q => { q with ofile := update q.ofile fd (some f) }

def trapframeWords : Nat := 36

/-- `safestrcpy(s, t, n)`, the text that is copied. -/
def safestrcpy (t : List UInt8) (n : Nat) : List UInt8 := t.take (n - 1)

def fork (p : Slot) : K Int := do
  match ← allocproc L forkret with
  | none => return -1
  | some np =>
    let s ← get
    let r ← onMem (uvmcopy L (s.proc p).pagetable (s.proc np).pagetable (s.proc p).sz)
    if r < 0 then
      freeproc L np
      return -1
    else
      setProc np fun q => { q with sz := (s.proc p).sz }
      onMem (memmove (s.proc np).trapframe (s.proc p).trapframe (8 * trapframeWords))
      onMem (store ((s.proc np).trapframe + 8 * regA0) 0)
      (List.range NOFILE).forM (forkOfile p np)
      idup (s.proc p).cwd
      setProc np fun q => { q with
        cwd := (s.proc p).cwd, name := safestrcpy (s.proc p).name 16, parent := some p,
        state := .runnable }
      return (s.proc np).pid

end Code

/-! ## Address spaces -/

def Proc.npages (q : Proc) : Nat := PGROUNDUP q.sz / PGSIZE

/-- All pages of a process: its page table, its user memory and its trapframe. -/
def Proc.pages (q : Proc) (m : Mem) : Multiset Nat :=
  tables m.bytes 2 q.pagetable + (mappedPages (m.pte q.pagetable) 0 q.npages + {q.trapframe})

/-- A process has an address space, next to allocated pages `C` of others. -/
structure Space (L : Layout) (C : Multiset Nat) (q : Proc) (m : Mem) : Prop where
  shape : Shape m.bytes 2 q.pagetable
  owns : Owns L (q.pages m + C) m
  valid : ∀ v < q.npages, m.pte q.pagetable v &&& PTE_V ≠ 0
  size : q.sz ≤ TRAPFRAME

variable {L : Layout} {forkret : Nat} {C : Multiset Nat} {m m' : Mem} {s s' : State} {p np : Slot}

/-! ## `allocproc` -/

@[simp] theorem setProc_self (f : Proc → Proc) : (s.setProc p f).proc p = f (s.proc p) :=
  update_self _ _ _

theorem setProc_of_ne {q : Slot} (h : q ≠ p) (f : Proc → Proc) : (s.setProc p f).proc q = s.proc q :=
  update_of_ne h _ _

theorem wlp_setProc {f : Proc → Proc} {Q : Unit → State → Prop} :
    wlp (setProc p f) Q s ↔ Q () (s.setProc p f) := wlp_modify

theorem wlp_onMem {α : Type} {x : Vm.M α} {Q : α → State → Prop} :
    wlp (onMem x) Q s ↔ wlp x (fun a m' => Q a { s with mem := m' }) s.mem := wlp_zoom

structure Allocated (L : Layout) (C : Multiset Nat) (s : State) (np : Slot) (s' : State) : Prop where
  unused : (s.proc np).state = .unused
  /-- Some fields of the slot are set. -/
  child : ∃ trapframe pagetable context, s'.proc np = { s.proc np with
    pid := s.nextpid, state := .used, trapframe := trapframe, pagetable := pagetable, context := context }
  others : ∀ q ≠ np, s'.proc q = s.proc q
  fileRef : s'.fileRef = s.fileRef
  inodeRef : s'.inodeRef = s.inodeRef
  /-- The page of the trapframe and the pages of the page table were free. -/
  moves : heap.Moves 0 (tables s'.mem.bytes 2 (s'.proc np).pagetable + {(s'.proc np).trapframe})
    s.mem s'.mem
  table : IsTable L ({(s'.proc np).trapframe} + C) (s'.proc np).pagetable s'.mem
  empty : ∀ v < TRAPFRAME / PGSIZE, s'.mem.pte (s'.proc np).pagetable v = 0

theorem allocproc_spec (ho : Owns L C s.mem) :
    wlp (allocproc L forkret) (fun r s' => ∀ np, r = some np → Allocated L C s np s') s := by
  rw [allocproc, wlp_bind, wlp_get]
  cases hfind : (List.range NPROC).find? fun p => (s.proc p).state = .unused with
  | none => exact wlp_pure.mpr nofun
  | some p =>
    have hunused : (s.proc p).state = .unused := by
      simpa using List.find?_some hfind
    dsimp only
    rw [wlp_bind, allocpid, wlp_bind, wlp_get, wlp_bind, wlp_modify, wlp_pure, wlp_bind, wlp_setProc,
      wlp_bind, wlp_onMem]
    refine wlp_mono (wlp_of_wp (kalloc_spec ho.isPage_free)) fun trapframe m1 h1 => ?_
    rw [wlp_bind, wlp_setProc]
    cases h1 with
    | none hr =>
      rw [if_pos hr, wlp_bind]
      exact wlp_of_forall fun _ _ => wlp_pure.mpr nofun
    | page hr _ hmv =>
      have ho1 : Owns L ({trapframe} + C) m1 := ho.moves ((hmv.frame C).congr (zero_add C) rfl)
      rw [if_neg hr.pos.ne', wlp_bind, wlp_onMem]
      refine wlp_mono (wlp_of_wp (procPagetable_total ho1 (by simp))) fun pagetable m2 h2 => ?_
      rw [wlp_bind, wlp_setProc]
      cases h2 with
      | none hpt =>
        rw [if_pos hpt, wlp_bind]
        exact wlp_of_forall fun _ _ => wlp_pure.mpr nofun
      | table hpt ht hmv2 =>
        rw [if_neg hpt, wlp_bind, wlp_setProc, wlp_pure]
        rintro _ ⟨rfl⟩
        have htable : IsTable L (0 + ({trapframe} + C)) pagetable m2 := ht.table
        rw [zero_add] at htable
        have hmoves : heap.Moves 0 (tables m2.bytes 2 pagetable + {trapframe}) s.mem m2 :=
          hmv.trans ((hmv2.frame {trapframe}).congr (zero_add _) rfl)
        refine ⟨hunused, ⟨trapframe, pagetable,
          update (update (fun _ => 0) 0 forkret) 1 ((s.proc p).kstack + PGSIZE), ?_⟩,
          fun q hq => ?_, rfl, rfl, ?_, ?_, ?_⟩
        · simp only [setProc_self]
        · simp only [setProc_of_ne hq]
        all_goals simp only [setProc_self]
        · exact hmoves
        · exact htable
        · exact fun v hv => ht.rest v (hv.trans (by decide)) (Nat.zero_le v) hv.ne
            (hv.trans trapframePage_lt).ne

/-! ## Memory -/

/-- The memory after the saved registers have been copied and `a0` is 0. -/
def copyTrapframe (m : Mem) (dst src : Nat) : Mem :=
  { m with
    bytes := Bytes.store64 (m.bytes.fill dst (8 * trapframeWords) fun i => m.bytes (src + i))
      (dst + 8 * regA0) 0 }

theorem copyTrapframe_words {dst src i : Nat} (hi : i < trapframeWords) :
    (copyTrapframe m dst src).bytes.load64 (dst + 8 * i) =
      if i = regA0 then 0 else m.bytes.load64 (src + 8 * i) := by
  unfold copyTrapframe
  dsimp only
  split
  · rename_i h
    rw [h, Bytes.load64_store64 (by decide)]
  · rename_i h
    rw [Bytes.store64, Bytes.load64_congr (Bytes.SameOn.fill_of_disjoint (by omega)), Bytes.load64,
      Bytes.loadLE_fill _ (by omega)]
    exact Bytes.loadLE_sub m.bytes src (8 * i) 8

theorem copyTrapframe_moves {dst : Nat} (src : Nat) (h : IsPage dst) :
    heap.Moves {dst} {dst} m (copyTrapframe m dst src) := by
  have hal := h.aligned
  refine moves_bytes fun y hy hne => ?_
  have hne : y ≠ dst := fun e => hne (by simp [e])
  unfold PGSIZE at hal hy
  refine Bytes.SameOn.trans (Bytes.SameOn.fill_of_disjoint ?_) (Bytes.SameOn.fill_of_disjoint ?_)
  · unfold trapframeWords PGSIZE
    omega
  · unfold regA0 PGSIZE
    omega

/-- The address space of `q` has been copied to that of `q'`, on pages that were free. -/
structure SpaceCopied (q q' : Proc) (m m' : Mem) : Prop where
  moves : heap.Moves 0 (q'.pages m') m m'
  shape : Shape m'.bytes 2 q'.pagetable
  valid : ∀ v < q.npages, m'.pte q'.pagetable v &&& PTE_V ≠ 0
  flags : ∀ v < q.npages, PTE_FLAGS (m'.pte q'.pagetable v) = PTE_FLAGS (m.pte q.pagetable v)
  content : ∀ v < q.npages, ∀ j < PGSIZE, m'.bytes (PTE2PA (m'.pte q'.pagetable v) + j) =
    m.bytes (PTE2PA (m.pte q.pagetable v) + j)
  registers : ∀ i < trapframeWords, m'.bytes.load64 (q'.trapframe + 8 * i) =
    if i = regA0 then 0 else m.bytes.load64 (q.trapframe + 8 * i)

theorem Space.table_mem {q : Proc} {x : Nat} (hx : x ∈ tables m.bytes 2 q.pagetable) :
    x ∈ q.pages m + C := by
  simp [Proc.pages, hx]

theorem Space.user_mem {q : Proc} {v : Nat} (hv : v < q.npages) :
    PTE2PA (m.pte q.pagetable v) ∈ q.pages m + C := by
  have := mem_mappedPages (f := m.pte q.pagetable) (v := 0) hv
  rw [Nat.zero_add] at this
  simp [Proc.pages, this]

theorem Space.trapframe_mem {q : Proc} : q.trapframe ∈ q.pages m + C := by
  simp [Proc.pages]

theorem Space.copied {m1 m2 : Mem} {q q' : Proc} (hspace : Space L C q m) (hsz : q'.sz = q.sz)
    (hmv1 : heap.Moves 0 (tables m1.bytes 2 q'.pagetable + {q'.trapframe}) m m1)
    (h1 : IsTable L ({q'.trapframe} + (q.pages m + C)) q'.pagetable m1)
    (h2 : Copied L ({q'.trapframe} + (q.pages m + C)) q.pagetable q'.pagetable m1 q.npages m2) :
    SpaceCopied q q' m (copyTrapframe m2 q'.trapframe q.trapframe) := by
  have hkept1 := hspace.owns.kept hmv1
  have hold : ∀ v, m1.pte q.pagetable v = m.pte q.pagetable v := fun v =>
    entry_congr fun x hx => hkept1 x (Space.table_mem hx)
  have hkept2 := h2.same h1
  have htf : IsPage q'.trapframe := h1.owns.isPage_mem (by simp)
  -- the last step writes the page of the trapframe only
  have hmv3 := copyTrapframe_moves (m := m2) q.trapframe htf
  have ho2 : Owns L ({q'.trapframe} + (tables m2.bytes 2 q'.pagetable +
      mappedPages (m2.pte q'.pagetable) 0 q.npages + (q.pages m + C))) m2 := by
    have hpool : tables m2.bytes 2 q'.pagetable + (mappedPages (m2.pte q'.pagetable) 0 q.npages +
        ({q'.trapframe} + (q.pages m + C))) = {q'.trapframe} + (tables m2.bytes 2 q'.pagetable +
        mappedPages (m2.pte q'.pagetable) 0 q.npages + (q.pages m + C)) := by abel
    rw [← hpool]
    exact h2.table.owns
  have hsame3 := ho2.same hmv3
  have htabs : ∀ x ∈ tables m2.bytes 2 q'.pagetable,
      SamePage m2.bytes (copyTrapframe m2 q'.trapframe q.trapframe).bytes x :=
    fun x hx => hsame3 x (by simp [hx])
  have hpte : ∀ v, (copyTrapframe m2 q'.trapframe q.trapframe).pte q'.pagetable v =
      m2.pte q'.pagetable v := fun v => entry_congr htabs
  have hpages : q'.pages (copyTrapframe m2 q'.trapframe q.trapframe) =
      tables m2.bytes 2 q'.pagetable + mappedPages (m2.pte q'.pagetable) 0 q.npages +
        {q'.trapframe} := by
    have hn : q'.npages = q.npages := by rw [Proc.npages, Proc.npages, hsz]
    have hmapped : mappedPages ((copyTrapframe m2 q'.trapframe q.trapframe).pte q'.pagetable) 0
        q.npages = mappedPages (m2.pte q'.pagetable) 0 q.npages :=
      mappedPages_congr fun i _ => hpte _
    rw [Proc.pages, tables_congr htabs, hn, hmapped, add_assoc]
  refine ⟨?_, h2.table.shape.congr htabs, fun v hv => ?_, fun v hv => ?_, fun v hv j hj => ?_,
    fun i hi => ?_⟩
  · rw [hpages]
    refine hmv1.trans ((h2.moves.frame {q'.trapframe}).trans ?_)
    exact (hmv3.frame _).congr (add_comm _ _) (add_comm _ _)
  · rw [hpte]
    exact (h2.flags v hv).1
  · rw [hpte, (h2.flags v hv).2, hold]
  · have hmem := mem_mappedPages (f := m2.pte q'.pagetable) (v := 0) hv
    rw [Nat.zero_add] at hmem
    rw [hpte, hsame3 _ (by simp [hmem]) j hj, h2.content v hv j hj, hold,
      hkept1 _ (Space.user_mem hv) j hj]
  · have hword : 8 * i + 8 ≤ PGSIZE := by
      unfold trapframeWords at hi
      unfold PGSIZE
      omega
    have hsrc : SamePage m.bytes m2.bytes q.trapframe :=
      (hkept1 _ Space.trapframe_mem).trans
        (hkept2 _ (Multiset.mem_add.mpr (.inr Space.trapframe_mem)))
    rw [copyTrapframe_words hi, Bytes.load64_congr (hsrc.mono hword)]

/-! ## Descriptors -/

/-- The descriptors of a child after `fds` have been copied. -/
def dupOfile (parent child : Nat → Option Nat) (fds : List Nat) : Nat → Option Nat := fun fd =>
  if fd ∈ fds then (parent fd).or (child fd) else child fd

theorem dupOfile_cons (parent child : Nat → Option Nat) (fd : Nat) (fds : List Nat) :
    dupOfile parent (dupOfile parent child [fd]) fds = dupOfile parent child (fd :: fds) := by
  funext fd'
  unfold dupOfile
  by_cases h1 : fd' = fd <;> by_cases h2 : fd' ∈ fds <;> cases parent fd' <;> simp [h1, h2]

theorem dupOfile_none {parent child : Nat → Option Nat} {fd : Nat} (h : parent fd = none) :
    dupOfile parent child [fd] = child := by
  funext fd'
  unfold dupOfile
  split
  · obtain rfl : fd' = fd := by simpa using ‹fd' ∈ [fd]›
    rw [h, Option.none_or]
  · rfl

theorem dupOfile_some {parent child : Nat → Option Nat} {fd f : Nat} (h : parent fd = some f) :
    dupOfile parent child [fd] = update child fd (some f) := by
  funext fd'
  unfold dupOfile
  by_cases hfd : fd' = fd
  · rw [hfd, if_pos (List.mem_singleton_self fd), h, Option.some_or, update_self]
  · rw [if_neg (by simpa using hfd), update_of_ne hfd]

/-- The descriptors `fds` have been copied from `p` to `np`. -/
structure Duped (p np : Slot) (fds : List Nat) (s s' : State) : Prop where
  mem : s'.mem = s.mem
  others : ∀ q ≠ np, s'.proc q = s.proc q
  child : s'.proc np = { s.proc np with ofile := dupOfile (s.proc p).ofile (s.proc np).ofile fds }
  fileRef : ∀ f, s'.fileRef f = s.fileRef f + fds.countP fun fd => (s.proc p).ofile fd = some f
  inodeRef : s'.inodeRef = s.inodeRef

theorem forkOfile_spec (fd : Nat) : wlp (forkOfile p np fd) (fun _ s' => Duped p np [fd] s s') s := by
  rw [forkOfile, wlp_bind, wlp_get]
  cases hfd : (s.proc p).ofile fd with
  | none =>
    refine wlp_pure.mpr ⟨rfl, fun _ _ => rfl, ?_, fun f => ?_, rfl⟩
    · rw [dupOfile_none hfd]
    · simp [hfd]
  | some f =>
    dsimp only
    rw [wlp_bind, filedup, wlp_bind, wlp_get]
    by_cases href : s.fileRef f < 1
    · rw [if_pos href]
      exact wlp_throw
    rw [if_neg href, wlp_modify, wlp_setProc]
    refine ⟨rfl, fun q hq => setProc_of_ne hq _, ?_, fun f' => ?_, rfl⟩
    · rw [dupOfile_some hfd, setProc_self]
    · show update s.fileRef f (s.fileRef f + 1) f' = _
      by_cases h : f' = f
      · subst h
        simp [hfd]
      · have hne : ¬f = f' := fun e => h e.symm
        simp [hfd, h, hne]

theorem forkOfiles_spec (hne : p ≠ np) (fds : List Nat) :
    wlp (fds.forM (forkOfile p np)) (fun _ s' => Duped p np fds s s') s := by
  induction fds generalizing s with
  | nil =>
    refine wlp_pure.mpr ⟨rfl, fun _ _ => rfl, ?_, by simp, rfl⟩
    have hnil : dupOfile (s.proc p).ofile (s.proc np).ofile [] = (s.proc np).ofile :=
      funext fun _ => if_neg List.not_mem_nil
    rw [hnil]
  | cons fd fds ih =>
    show wlp (forkOfile p np fd >>= fun _ => fds.forM (forkOfile p np)) _ s
    rw [wlp_bind]
    refine wlp_mono (forkOfile_spec fd) fun _ s1 h1 => ?_
    refine wlp_mono ih fun _ s2 h2 => ?_
    have hp : s1.proc p = s.proc p := h1.others p hne
    refine ⟨h2.mem.trans h1.mem, fun q hq => (h2.others q hq).trans (h1.others q hq), ?_, fun f => ?_,
      h2.inodeRef.trans h1.inodeRef⟩
    · rw [h2.child, h1.child, hp, dupOfile_cons]
    · rw [h2.fileRef, h1.fileRef, hp, List.countP_cons, List.countP_cons, List.countP_nil]
      push_cast
      ring

theorem Space.page_lt {q : Proc} {v : Nat} (h : Space L C q m) (hv : v < q.npages) :
    v < TRAPFRAME / PGSIZE := by
  have hsz := (mul_lt_iff_of_roundUp (h.size.trans (by decide))).mpr hv
  have hlt := hsz.trans_le h.size
  unfold TRAPFRAME TRAMPOLINE MAXVA PGSIZE at *
  omega

theorem Space.addr {q : Proc} {va : Nat} (h : Space L C q m) (hva : va < PGROUNDUP q.sz) :
    va / PGSIZE < q.npages ∧ va < MAXVA := by
  have hpage : va / PGSIZE < q.npages := by
    unfold Proc.npages PGROUNDUP at *
    unfold PGSIZE at *
    omega
  have hlt := h.page_lt hpage
  refine ⟨hpage, ?_⟩
  unfold TRAPFRAME TRAMPOLINE MAXVA PGSIZE at *
  omega

/-- What `fork` has done when it returns a pid: process `p` has a child in slot `np`. -/
structure Forked (L : Layout) (C : Multiset Nat) (p np : Slot) (pid : Int) (s s' : State) : Prop where
  unused : (s.proc np).state = .unused
  pid_eq : (s'.proc np).pid = pid
  state : (s'.proc np).state = .runnable
  parent : (s'.proc np).parent = some p
  sz : (s'.proc np).sz = (s.proc p).sz
  /-- Every address of user memory is mapped with the same flags, to the same byte. -/
  user : ∀ va < PGROUNDUP (s.proc p).sz, ∃ pa pa' flags,
    lookup (s.proc p).pagetable va s.mem = .ok (some (pa, flags), s.mem) ∧
    lookup (s'.proc np).pagetable va s'.mem = .ok (some (pa', flags), s'.mem) ∧
    s'.mem.bytes (pa' + va % PGSIZE) = s.mem.bytes (pa + va % PGSIZE)
  /-- The pages of the child were free, and are none of the parent's. -/
  fresh : ∀ x ∈ (s'.proc np).pages s'.mem, x ∈ s.mem.freelist ∧ x ∉ (s.proc p).pages s.mem
  /-- The saved registers are the parent's, except `a0`. -/
  registers : ∀ i < trapframeWords, s'.mem.bytes.load64 ((s'.proc np).trapframe + 8 * i) =
    if i = regA0 then 0 else s.mem.bytes.load64 ((s.proc p).trapframe + 8 * i)
  ofile : ∀ fd < NOFILE, (s'.proc np).ofile fd = (s.proc p).ofile fd
  cwd : (s'.proc np).cwd = (s.proc p).cwd
  /-- A file has one reference more for each of the descriptors. -/
  fileRef : ∀ f, s'.fileRef f = s.fileRef f +
    (List.range NOFILE).countP fun fd => (s.proc p).ofile fd = some f
  inodeRef : ∀ i, s'.inodeRef i = s.inodeRef i + if i = (s.proc p).cwd then 1 else 0
  /-- The memory of the parent and all other allocated pages are as they were. -/
  kept : ∀ x ∈ (s.proc p).pages s.mem + C, SamePage s.mem.bytes s'.mem.bytes x
  mapping : ∀ va < MAXVA, ∃ x, lookup (s.proc p).pagetable va s.mem = .ok (x, s.mem) ∧
    lookup (s.proc p).pagetable va s'.mem = .ok (x, s'.mem)
  parent_eq : s'.proc p = s.proc p
  others : ∀ q ≠ np, s'.proc q = s.proc q
  child_space : Space L ((s.proc p).pages s.mem + C) (s'.proc np) s'.mem
  parent_space : Space L ((s'.proc np).pages s'.mem + C) (s'.proc p) s'.mem

theorem Space.kept {q : Proc} {D : Multiset Nat} (h : Space L C q m)
    (hmv : heap.Moves 0 D m m') (hkept : ∀ x ∈ q.pages m + C, SamePage m.bytes m'.bytes x) :
    Space L (D + C) q m' := by
  have htabs : ∀ x ∈ tables m.bytes 2 q.pagetable, SamePage m.bytes m'.bytes x := fun x hx =>
    hkept x (Space.table_mem hx)
  have hpte : ∀ v, m'.pte q.pagetable v = m.pte q.pagetable v := fun v => entry_congr htabs
  have hpages : q.pages m' = q.pages m := by
    have hmapped : mappedPages (m'.pte q.pagetable) 0 q.npages =
        mappedPages (m.pte q.pagetable) 0 q.npages := mappedPages_congr fun i _ => hpte _
    rw [Proc.pages, Proc.pages, tables_congr htabs, hmapped]
  refine ⟨h.shape.congr htabs, ?_, fun v hv => ?_, h.size⟩
  · rw [hpages, add_left_comm]
    exact h.owns.moves ((hmv.frame _).congr (zero_add _) rfl)
  · rw [hpte]
    exact h.valid v hv

theorem Space.lookup_kept {q : Proc} {va : Nat} (h : Space L C q m)
    (hkept : ∀ x ∈ q.pages m + C, SamePage m.bytes m'.bytes x) (hva : va < MAXVA) :
    ∃ x, lookup q.pagetable va m = .ok (x, m) ∧ lookup q.pagetable va m' = .ok (x, m') := by
  have htabs : ∀ x ∈ tables m.bytes 2 q.pagetable, SamePage m.bytes m'.bytes x := fun x hx =>
    hkept x (Space.table_mem hx)
  have hpte : m'.pte q.pagetable (va / PGSIZE) = m.pte q.pagetable (va / PGSIZE) := entry_congr htabs
  refine ⟨_, lookup_eq h.shape hva, ?_⟩
  rw [lookup_eq (h.shape.congr htabs) hva, hpte]

/-- The child that `fork` makes out of the slot `q`, for the parent `q0` in slot `p`. -/
def childOf (p : Slot) (q0 q : Proc) : Proc :=
  { q with
    sz := q0.sz
    ofile := dupOfile q0.ofile q.ofile (List.range NOFILE)
    cwd := q0.cwd
    name := safestrcpy q0.name 16
    parent := some p
    state := .runnable }

theorem Space.forked {s1 : State} {m2 : Mem} (hspace : Space L C (s.proc p) s.mem) (hne : p ≠ np)
    (hunused : ∀ q, (s.proc q).state = .unused → ∀ fd < NOFILE, (s.proc q).ofile fd = none)
    (hA : Allocated L ((s.proc p).pages s.mem + C) s np s1)
    (h2 : Copied L ({(s1.proc np).trapframe} + ((s.proc p).pages s.mem + C)) (s.proc p).pagetable
      (s1.proc np).pagetable s1.mem (s.proc p).npages m2)
    (hmem : s'.mem = copyTrapframe m2 (s1.proc np).trapframe (s.proc p).trapframe)
    (hchild : s'.proc np = childOf p (s.proc p) (s1.proc np))
    (hothers : ∀ q ≠ np, s'.proc q = s.proc q)
    (hfile : ∀ f, s'.fileRef f = s.fileRef f +
      (List.range NOFILE).countP fun fd => (s.proc p).ofile fd = some f)
    (hinode : ∀ i, s'.inodeRef i = s.inodeRef i + if i = (s.proc p).cwd then 1 else 0) :
    Forked L C p np (s1.proc np).pid s s' := by
  have hcopied : SpaceCopied (s.proc p) (s'.proc np) s.mem s'.mem := by
    rw [hchild, hmem]
    exact hspace.copied rfl hA.moves hA.table h2
  have hkept := hspace.owns.kept hcopied.moves
  have hsz : (s'.proc np).sz = (s.proc p).sz := by rw [hchild]; rfl
  have hnpages : (s'.proc np).npages = (s.proc p).npages := by rw [Proc.npages, Proc.npages, hsz]
  refine ⟨hA.unused, by rw [hchild]; rfl, by rw [hchild]; rfl, by rw [hchild]; rfl, hsz, fun va hva => ?_,
    fun x hx => ?_, hcopied.registers, fun fd hfd => ?_, by rw [hchild]; rfl, hfile, hinode, hkept,
    fun va hva => hspace.lookup_kept hkept hva, hothers p hne, hothers, ?_, ?_⟩
  · obtain ⟨hv, hmax⟩ := hspace.addr hva
    refine ⟨PTE2PA (s.mem.pte (s.proc p).pagetable (va / PGSIZE)),
      PTE2PA (s'.mem.pte (s'.proc np).pagetable (va / PGSIZE)),
      PTE_FLAGS (s.mem.pte (s.proc p).pagetable (va / PGSIZE)), ?_, ?_,
      hcopied.content _ hv _ (Nat.mod_lt _ (by decide))⟩
    · rw [lookup_eq hspace.shape hmax, decode, if_neg (hspace.valid _ hv)]
    · rw [lookup_eq hcopied.shape hmax, decode, if_neg (hcopied.valid _ hv), hcopied.flags _ hv]
  · have hfree : x ∈ heap.free s.mem + 0 := by
      rw [← hcopied.moves.cells]
      exact Multiset.mem_add.mpr (.inr hx)
    rw [add_zero] at hfree
    exact ⟨hfree, fun hmem => hspace.owns.notMem_of_free hfree (Multiset.mem_add.mpr (.inl hmem))⟩
  · obtain ⟨_, _, _, hslot⟩ := hA.child
    have hnone : (s1.proc np).ofile fd = none := by
      rw [hslot]
      exact hunused np hA.unused fd hfd
    rw [hchild]
    show dupOfile (s.proc p).ofile (s1.proc np).ofile (List.range NOFILE) fd = _
    rw [dupOfile, if_pos (List.mem_range.mpr hfd), hnone, Option.or_none]
  · refine ⟨hcopied.shape, hspace.owns.moves ((hcopied.moves.frame _).congr (zero_add _) rfl),
      fun v hv => ?_, hsz ▸ hspace.size⟩
    rw [hnpages] at hv
    exact hcopied.valid v hv
  · rw [hothers p hne]
    exact hspace.kept hcopied.moves hkept

theorem fork_spec (hspace : Space L C (s.proc p) s.mem) (hp : (s.proc p).state ≠ .unused)
    (hunused : ∀ q, (s.proc q).state = .unused → ∀ fd < NOFILE, (s.proc q).ofile fd = none) :
    wlp (fork L forkret p) (fun r s' => r ≠ -1 → ∃ np, Forked L C p np r s s') s := by
  rw [fork, wlp_bind]
  refine wlp_mono (allocproc_spec hspace.owns) fun r s1 h1 => ?_
  cases r with
  | none => exact wlp_pure.mpr fun h => absurd rfl h
  | some np =>
    have hA := h1 np rfl
    have hne : p ≠ np := by
      rintro rfl
      exact hp hA.unused
    have hparent : s1.proc p = s.proc p := hA.others p hne
    have hkept1 := hspace.owns.kept hA.moves
    have htabs : ∀ x ∈ tables s.mem.bytes 2 (s.proc p).pagetable,
        SamePage s.mem.bytes s1.mem.bytes x := fun x hx => hkept1 x (Space.table_mem hx)
    have hpte : ∀ v, s1.mem.pte (s.proc p).pagetable v = s.mem.pte (s.proc p).pagetable v :=
      fun v => entry_congr htabs
    dsimp only
    rw [wlp_bind, wlp_get, wlp_bind, wlp_onMem, hparent]
    refine wlp_mono (uvmcopy_spec hA.table (hspace.shape.congr htabs) (fun x hx => ?_)
      (fun v hv => ?_) (fun v hv => ?_) (hspace.size.trans (by decide))) fun r m2 h2 => ?_
    · rw [tables_congr htabs] at hx
      exact Multiset.mem_add.mpr (.inr (Space.table_mem hx))
    · rw [hpte]
      exact Multiset.mem_add.mpr (.inr (Space.user_mem hv))
    · rw [hA.empty v (hspace.page_lt hv), zero_and]
    by_cases hr : r < 0
    · rw [if_pos hr, wlp_bind]
      exact wlp_of_forall fun _ _ => wlp_pure.mpr fun h => absurd rfl h
    rw [if_neg hr, wlp_bind, wlp_setProc, wlp_bind, wlp_onMem]
    refine wlp_of_wp (wp_memmove.mpr ?_)
    rw [wlp_bind, wlp_onMem]
    refine wlp_of_wp (wp_store.mpr ?_)
    rw [wlp_bind]
    refine wlp_mono (forkOfiles_spec hne _) fun _ s4 h4 => ?_
    rw [wlp_bind, idup, wlp_modify, wlp_bind, wlp_setProc, wlp_pure]
    intro _
    refine ⟨np, hspace.forked hne hunused hA (h2 (by omega)) h4.mem ?_ (fun q hq => ?_) (fun f => ?_)
      fun i => ?_⟩
    · have hslot := h4.child
      simp only [setProc_self, setProc_of_ne hne, hparent] at hslot
      rw [setProc_self, hslot]
      rfl
    · have hslot := h4.others q hq
      simp only [setProc_of_ne hq] at hslot
      rw [setProc_of_ne hq]
      exact hslot.trans (hA.others q hq)
    · have href := h4.fileRef f
      simp only [setProc_of_ne hne, hparent] at href
      refine href.trans ?_
      rw [← hA.fileRef]
      rfl
    · have href : s4.inodeRef = s.inodeRef := h4.inodeRef.trans hA.inodeRef
      show update s4.inodeRef (s.proc p).cwd (s4.inodeRef (s.proc p).cwd + 1) i = _
      rw [href]
      by_cases hi : i = (s.proc p).cwd
      · rw [if_pos hi, hi, update_self]
      · rw [if_neg hi, update_of_ne hi, add_zero]

def ramPage (i : Nat) : Nat := KERNBASE + i * PGSIZE

/-- Memory in which the pages 1 to 3 are allocated; `fails` tells which calls of `kalloc` fail. -/
def failingMem (fails : List Bool) : Mem where
  bytes _ := 0
  freelist := (List.range 18).map fun i => ramPage (i + 4)
  fails := fails
  doubleFree := false

def emptyMem : Mem := failingMem []

def unusedSlot : Proc where
  state := .unused
  chan := 0
  killed := 0
  xstate := 0
  pid := 0
  frozen := 0
  parent := none
  kstack := 0
  sz := 0
  pagetable := 0
  trapframe := 0
  context _ := 0
  ofile _ := none
  cwd := 0
  name := []

theorem emptyMem_zeroPage : ZeroPage emptyMem.bytes (ramPage 1) := fun _ _ =>
  Bytes.load64_zero fun _ _ => rfl

set_option maxRecDepth 10000 in
theorem emptyMem_isTable : IsTable smallLayout ({ramPage 3} + {ramPage 2}) (ramPage 1) emptyMem := by
  have hall : ∀ x ∈ (emptyMem.freelist : Multiset Nat) + ({ramPage 1} + ({ramPage 3} + {ramPage 2})),
      x % PGSIZE = 0 ∧ 0 < x ∧ x < PHYSTOP ∧ smallLayout.kernelEnd ≤ x := by decide
  have hnodup : ((emptyMem.freelist : Multiset Nat) +
      ({ramPage 1} + ({ramPage 3} + {ramPage 2}))).Nodup := by decide
  refine ⟨emptyMem_zeroPage.shape ⟨by decide, by decide, by decide⟩, ?_⟩
  rw [emptyMem_zeroPage.tables]
  exact ⟨hnodup, fun x hx => ⟨(hall x hx).1, (hall x hx).2.1, (hall x hx).2.2.1⟩,
    fun x hx => (hall x hx).2.2.2⟩

end Xv6Freezer.Fork

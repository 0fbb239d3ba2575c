import Xv6Freezer.Vm.Growproc

/-! # The allocator of user programs

`malloc`, `free` and `morecore` of `user/umalloc.c`. Memory is a map from the addresses of headers to headers.
An access to a page above the break kills the process. A run out of fuel stops where the program would go on,
so that a statement about all fuels is one about every moment of the run.
-/

namespace Xv6Freezer.Umalloc

open Lib
open Vm (u64 ofInt)
open Function

/-- `union header`: the next free block, and the number of headers of this one. -/
structure Header where
  ptr : Nat
  size : Nat

/-- The memory of a process, `freep`, the address of `base`, the break, and the kernel's answers to come. -/
structure Heap where
  hdr : Nat → Header
  base : Nat
  freep : Nat
  brk : Nat
  answers : List Bool

/-- Why a run stops without a result. -/
inductive Stop where
  | fault
  | fuel

/-- Programs on the heap. One that stops leaves the heap as it is then. -/
abbrev M := EStateM Stop Heap

/-- The last byte of a header is on a mapped page. -/
def Heap.Mapped (h : Heap) (a : Nat) : Prop := (a + 15) / PGSIZE * PGSIZE < h.brk

instance (h : Heap) (a : Nat) : Decidable (h.Mapped a) := inferInstanceAs (Decidable (_ < _))

def Heap.setPtr (h : Heap) (a q : Nat) : Heap :=
  { h with hdr := update h.hdr a { h.hdr a with ptr := q } }

/-- The field is a `uint`. -/
def Heap.setSize (h : Heap) (a n : Nat) : Heap :=
  { h with hdr := update h.hdr a { h.hdr a with size := n % 2 ^ 32 } }

def load (a : Nat) : M Header := do
  let h ← get
  if h.Mapped a then return h.hdr a else throw .fault

def storePtr (a q : Nat) : M Unit := do
  let h ← get
  if h.Mapped a then set (h.setPtr a q) else throw .fault

def storeSize (a n : Nat) : M Unit := do
  let h ← get
  if h.Mapped a then set (h.setSize a n) else throw .fault

def setFreep (p : Nat) : M Unit := modify fun h => { h with freep := p }

section

variable {α β : Type} (h : Heap) (a : Nat)

@[simp] theorem bind_run (m : M α) (f : α → M β) : (m >>= f) h = match m h with
    | .ok x h' => f x h'
    | .error e h' => .error e h' := by
  change EStateM.bind m f h = _
  unfold EStateM.bind
  cases m h <;> rfl

@[simp] theorem pure_run (x : α) : (pure x : M α) h = .ok x h := rfl

@[simp] theorem get_run : (get : M Heap) h = .ok h h := rfl

@[simp] theorem load_run : load a h = if h.Mapped a then .ok (h.hdr a) h else .error .fault h := by
  rw [load, bind_run, get_run]
  dsimp only
  split <;> rfl

@[simp] theorem storePtr_run (q : Nat) :
    storePtr a q h = if h.Mapped a then .ok () (h.setPtr a q) else .error .fault h := by
  rw [storePtr, bind_run, get_run]
  dsimp only
  split <;> rfl

@[simp] theorem storeSize_run (n : Nat) :
    storeSize a n h = if h.Mapped a then .ok () (h.setSize a n) else .error .fault h := by
  rw [storeSize, bind_run, get_run]
  dsimp only
  split <;> rfl

@[simp] theorem setFreep_run : setFreep a h = .ok () { h with freep := a } := rfl

end

def findLoop (bp : Nat) : Nat → Nat → M Nat
  | 0, _ => throw .fuel
  | fuel + 1, p => do
    let next := (← load p).ptr
    if p < bp ∧ bp < next ∨ next ≤ p ∧ (p < bp ∨ bp < next) then return p
    else findLoop bp fuel next

/-- Joins `bp` with the next block, if that is adjacent, and links it. -/
def joinNext (bp p : Nat) : M Unit := do
  let next := (← load p).ptr
  if bp + 16 * (← load bp).size = next then
    storeSize bp ((← load bp).size + (← load next).size)
    storePtr bp (← load next).ptr
  else storePtr bp next

/-- Joins `p` with the block `bp`, if that is adjacent, and links it. -/
def joinPrev (bp p : Nat) : M Unit := do
  if p + 16 * (← load p).size = bp then
    storeSize p ((← load p).size + (← load bp).size)
    storePtr p (← load bp).ptr
  else storePtr p bp

def free (fuel ap : Nat) : M Unit := do
  let bp := ap - 16
  let p ← findLoop bp fuel (← get).freep
  joinNext bp p
  joinPrev bp p
  setFreep p

/-- The break after `growproc(n)`, `none` if the call fails. -/
def grow (room : Bool) (brk : Nat) (n : Int) : Option Nat :=
  if n > 0 then if room then some (brk + n.toNat) else none
  else if n < 0 then some (min (u64 (brk + ofInt n)) brk)
  else some brk

/-- `growproc` of the kernel does that to the size of the process. -/
theorem growproc_grow {L : Vm.Layout} {C : Multiset Nat} {s : Fork.State} {p : Slot} {n : Int}
    (h : Fork.AddressSpace L C (s.proc p) s.mem) (hlo : -2 ^ 31 ≤ n) (hhi : n < 2 ^ 31) :
    wp (Fork.growproc L p n) (fun r s' => ∃ room, match grow room (s.proc p).sz n with
      | some brk => r = 0 ∧ (s'.proc p).sz = brk
      | none => r = -1 ∧ (s'.proc p).sz = (s.proc p).sz) s := by
  refine wp_mono (Fork.growproc_total h hlo hhi) fun r s' hr => ?_
  cases hr with
  | @grown _ newsz hpos hr hs hn =>
    have hsz : newsz = (s.proc p).sz + n.toNat := by omega
    refine ⟨true, ?_⟩
    rw [grow, if_pos hpos, hs, Fork.resize_proc]
    exact ⟨hr, hsz⟩
  | failed hpos hr hs =>
    refine ⟨false, ?_⟩
    rw [grow, if_pos hpos, hs]
    exact ⟨hr, rfl⟩
  | shrunk hneg hr hs hn =>
    refine ⟨true, ?_⟩
    have hsum := (Fork.u64_add_ofInt h.le_maxva hlo hhi).1
    rw [grow, if_neg (by omega), hs, Fork.resize_proc]
    by_cases hlt : n < 0
    · rw [if_pos hlt]
      exact ⟨hr, hn⟩
    · have hnew := hsum (by omega)
      rw [if_neg hlt]
      exact ⟨hr, hn.trans (by omega)⟩

/-- The argument of `sbrk` is an `int`. -/
def toInt (n : Nat) : Int := (BitVec.ofNat 32 n).toInt

/-- `sbrk(n)`: the old break, or `none` for -1. -/
def sbrk (n : Nat) : M (Option Nat) := do
  let h ← get
  match grow (h.answers.headD false) h.brk (toInt n) with
  | none =>
    set { h with answers := h.answers.tail }
    return none
  | some brk =>
    set { h with brk := brk, answers := h.answers.tail }
    return some h.brk

@[simp] theorem sbrk_run (n : Nat) (h : Heap) :
    sbrk n h = match grow (h.answers.headD false) h.brk (toInt n) with
      | none => .ok none { h with answers := h.answers.tail }
      | some brk => .ok (some h.brk) { h with brk := brk, answers := h.answers.tail } := by
  rw [sbrk, bind_run, get_run]
  dsimp only
  cases grow (h.answers.headD false) h.brk (toInt n) <;> rfl

def morecore (fuel nu : Nat) : M Nat := do
  let nu := if nu < 4096 then 4096 else nu
  match ← sbrk (nu * 16) with
  | none => return 0
  | some hp =>
    storeSize hp nu
    free fuel (hp + 16)
    return (← get).freep

def mallocLoop (nunits : Nat) : Nat → Nat → Nat → M Nat
  | 0, _, _ => throw .fuel
  | fuel + 1, prevp, p => do
    let size := (← load p).size
    if nunits ≤ size then
      if size = nunits then
        storePtr prevp (← load p).ptr
        setFreep prevp
        return p + 16
      else
        storeSize p (size - nunits)
        let q := p + 16 * (← load p).size
        storeSize q nunits
        setFreep prevp
        return q + 16
    else if p = (← get).freep then
      let p ← morecore fuel nunits
      if p = 0 then return 0
      else mallocLoop nunits fuel p (← load p).ptr
    else mallocLoop nunits fuel p (← load p).ptr

/-- The headers of a block for `nbytes` bytes. -/
def nunits (nbytes : Nat) : Nat := (nbytes + 16 - 1) / 16 + 1

/-- The first call makes `base` the only block. -/
def initBase : M Unit := do
  let h ← get
  if h.freep = 0 then
    storePtr h.base h.base
    setFreep h.base
    storeSize h.base 0
  else return ()

def malloc (fuel nbytes : Nat) : M Nat := do
  initBase
  let prevp := (← get).freep
  mallocLoop (nunits nbytes) fuel prevp (← load prevp).ptr

end Xv6Freezer.Umalloc

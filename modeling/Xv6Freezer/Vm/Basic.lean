import Xv6Freezer.Kernel.Basic
import Xv6Freezer.Lib.Bytes
import Xv6Freezer.Lib.Wp

/-! # Physical memory and page tables

`kernel/kalloc.c` and `kernel/vm.c`, function by function, over byte-addressed physical memory: page tables
are pages of 512 words. A panic is an error that carries its text. `Mem.fails` decides which calls of `kalloc`
find no page although there is one.
-/

namespace Xv6Freezer.Vm

open Lib

/-! ## The layout of memory (`kernel/memlayout.h`, `kernel/riscv.h`, `kernel/param.h`) -/

def u64 (x : Nat) : Nat := x % 2 ^ 64

def u32 (x : Nat) : Nat := x % 2 ^ 32

def sub64 (x y : Nat) : Nat := u64 (x + 2 ^ 64 - u64 y)

/-- An `int` converted to `uint64`. -/
def ofInt (x : Int) : Nat := (x % 2 ^ 64).toNat

def KERNBASE : Nat := 0x80000000

def PHYSTOP : Nat := KERNBASE + 128 * 1024 * 1024

def MAXVA : Nat := 2 ^ 38

def TRAMPOLINE : Nat := MAXVA - PGSIZE

/-- The page of `p->trapframe`, in user space. -/
def TRAPFRAME : Nat := TRAMPOLINE - PGSIZE

/-- Addresses that the linker decides: the symbols `end` and `trampoline`. -/
structure Layout where
  /-- The first address after the kernel. -/
  kernelEnd : Nat
  trampoline : Nat
  /-- The kernel is loaded at the start of RAM. -/
  base_le : KERNBASE ≤ trampoline
  /-- `kernel.ld` aligns the trampoline. -/
  trampoline_aligned : trampoline % PGSIZE = 0
  trampoline_lt : trampoline + PGSIZE ≤ kernelEnd

def PGROUNDUP (sz : Nat) : Nat := u64 (sz + PGSIZE - 1) / PGSIZE * PGSIZE

def PGROUNDDOWN (a : Nat) : Nat := a / PGSIZE * PGSIZE

def PTE_V : Nat := 1 <<< 0

def PTE_R : Nat := 1 <<< 1

def PTE_W : Nat := 1 <<< 2

def PTE_X : Nat := 1 <<< 3

def PTE_U : Nat := 1 <<< 4

def PA2PTE (pa : Nat) : Nat := u64 ((pa >>> 12) <<< 10)

def PTE2PA (pte : Nat) : Nat := u64 ((pte >>> 10) <<< 12)

def PTE_FLAGS (pte : Nat) : Nat := pte &&& 0x3FF

def PX (level va : Nat) : Nat := (va >>> (12 + 9 * level)) &&& 0x1FF

/-! ## Memory -/

structure Mem where
  bytes : Bytes
  freelist : List Nat
  /-- For the next calls of `kalloc`: whether the call fails although there may be a page. -/
  fails : List Bool
  /-- History: some call of `kfree` got a page that was free. -/
  doubleFree : Bool

abbrev M := StateT Mem (Except String)

def panic {α : Type} (s : String) : M α := throw s

/-- `*(uint64 *)a`. -/
def load (a : Nat) : M Nat := do return (← get).bytes.load64 a

/-- `*(uint64 *)a = v`. -/
def store (a v : Nat) : M Unit := modify fun m => { m with bytes := m.bytes.store64 a v }

def memset (dst : Nat) (c : UInt8) (n : Nat) : M Unit :=
  modify fun m => { m with bytes := m.bytes.fill dst n fun _ => c }

def memmove (dst src n : Nat) : M Unit :=
  modify fun m => { m with bytes := m.bytes.fill dst n fun i => m.bytes (src + i) }

/-- `memmove(dst, src, n)` from a buffer of the kernel that holds the bytes `src`. -/
def copyBytes (dst : Nat) (src : List UInt8) : M Unit :=
  modify fun m => { m with bytes := m.bytes.fill dst src.length fun i => src.getD i 0 }

def readBytes (a n : Nat) : M (List UInt8) := do
  let m ← get
  return (List.range n).map fun i => m.bytes (a + i)

variable (L : Layout)

/-! ## `kernel/kalloc.c` -/

def kfree (pa : Nat) : M Unit :=
  if pa % PGSIZE ≠ 0 ∨ pa < L.kernelEnd ∨ pa ≥ PHYSTOP then panic "kfree"
  else do
    memset pa 1 PGSIZE
    modify fun m => { m with
      freelist := pa :: m.freelist
      doubleFree := m.doubleFree || decide (pa ∈ m.freelist) }

/-- `kalloc()`. Returns 0 if the memory cannot be allocated. -/
def kalloc : M Nat := do
  let m ← get
  let m' := { m with fails := m.fails.tail }
  match m.freelist with
  | [] =>
    set m'
    return 0
  | r :: next =>
    if m.fails.headD false then
      set m'
      return 0
    else
      set { m' with freelist := next }
      memset r 5 PGSIZE
      return r

/-! ## `kernel/vm.c`: page tables -/

/-- The loop of `walk`, at `level`. -/
def walkFrom (va : Nat) (alloc : Bool) : Nat → Nat → M Nat
  | 0, pagetable => return pagetable + 8 * PX 0 va
  | level + 1, pagetable => do
    let pte := pagetable + 8 * PX (level + 1) va
    let w ← load pte
    if w &&& PTE_V ≠ 0 then walkFrom va alloc level (PTE2PA w)
    else if alloc = false then return 0
    else
      let pg ← kalloc
      if pg = 0 then return 0
      else
        memset pg 0 PGSIZE
        store pte (PA2PTE pg ||| PTE_V)
        walkFrom va alloc level pg

/-- `walk(pagetable, va, alloc)`: the address of the entry, or 0. -/
def walk (pagetable va : Nat) (alloc : Bool) : M Nat :=
  if va ≥ MAXVA then panic "walk" else walkFrom va alloc 2 pagetable

def walkaddr (pagetable va : Nat) : M Nat :=
  if va ≥ MAXVA then return 0
  else do
    let pte ← walk pagetable va false
    if pte = 0 then return 0
    else
      let w ← load pte
      if w &&& PTE_V = 0 then return 0
      else if w &&& PTE_U = 0 then return 0
      else return PTE2PA w

/-- The loop of `mappages`, of `size / PGSIZE` rounds at most. -/
def mappagesLoop (pagetable last perm : Nat) : Nat → Nat → Nat → M Int
  | 0, _, _ => panic "mappages: too many rounds"
  | n + 1, a, pa => do
    let pte ← walk pagetable a true
    if pte = 0 then return -1
    else
      let w ← load pte
      if w &&& PTE_V ≠ 0 then panic "mappages: remap"
      else
        store pte (PA2PTE pa ||| perm ||| PTE_V)
        if a = last then return 0
        else mappagesLoop pagetable last perm n (u64 (a + PGSIZE)) (u64 (pa + PGSIZE))

def mappages (pagetable va size pa perm : Nat) : M Int :=
  if va % PGSIZE ≠ 0 then panic "mappages: va not aligned"
  else if size % PGSIZE ≠ 0 then panic "mappages: size not aligned"
  else if size = 0 then panic "mappages: size"
  else mappagesLoop pagetable (sub64 (u64 (va + size)) PGSIZE) perm (size / PGSIZE) va pa

def uvmunmapLoop (pagetable stop : Nat) (doFree : Bool) : Nat → Nat → M Unit
  | 0, _ => return ()
  | n + 1, a =>
    if a < stop then do
      let pte ← walk pagetable a false
      if pte = 0 then panic "uvmunmap: walk"
      else
        let w ← load pte
        if w &&& PTE_V = 0 then panic "uvmunmap: not mapped"
        else if PTE_FLAGS w = PTE_V then panic "uvmunmap: not a leaf"
        else
          if doFree then kfree L (PTE2PA w) else pure ()
          store pte 0
          uvmunmapLoop pagetable stop doFree n (u64 (a + PGSIZE))
    else return ()

def uvmunmap (pagetable va npages : Nat) (doFree : Bool) : M Unit :=
  if va % PGSIZE ≠ 0 then panic "uvmunmap: not aligned"
  else uvmunmapLoop L pagetable (u64 (va + npages * PGSIZE)) doFree npages va

def uvmcreate : M Nat := do
  let pagetable ← kalloc
  if pagetable = 0 then return 0
  else
    memset pagetable 0 PGSIZE
    return pagetable

def uvmdealloc (pagetable oldsz newsz : Nat) : M Nat :=
  if newsz ≥ oldsz then return oldsz
  else do
    if PGROUNDUP newsz < PGROUNDUP oldsz then
      let npages : Int := int32 (((PGROUNDUP oldsz - PGROUNDUP newsz) / PGSIZE : Nat) : Int)
      uvmunmap L pagetable (PGROUNDUP newsz) (ofInt npages) true
    else pure ()
    return newsz

/-- The loop of `uvmalloc`, of which every round takes a free page. -/
def uvmallocLoop (pagetable oldsz newsz xperm : Nat) : Nat → Nat → M Nat
  | 0, _ => panic "uvmalloc: too many rounds"
  | n + 1, a =>
    if a < newsz then do
      let mem ← kalloc
      if mem = 0 then
        let _ ← uvmdealloc L pagetable a oldsz
        return 0
      else
        memset mem 0 PGSIZE
        let r ← mappages pagetable a PGSIZE mem (PTE_R ||| PTE_U ||| xperm)
        if r ≠ 0 then
          kfree L mem
          let _ ← uvmdealloc L pagetable a oldsz
          return 0
        else uvmallocLoop pagetable oldsz newsz xperm n (u64 (a + PGSIZE))
    else return newsz

def uvmalloc (pagetable oldsz newsz xperm : Nat) : M Nat :=
  if newsz < oldsz then return oldsz
  else do
    let m ← get
    uvmallocLoop L pagetable (PGROUNDUP oldsz) newsz xperm (m.freelist.length + 1) (PGROUNDUP oldsz)

/-- `freewalk(pagetable)`, for a tree of at most the given depth. -/
def freewalk : Nat → Nat → M Unit
  | 0, _ => panic "freewalk: too deep"
  | depth + 1, pagetable => do
    (List.range 512).forM fun i => do
      let pte ← load (pagetable + 8 * i)
      if pte &&& PTE_V ≠ 0 ∧ pte &&& (PTE_R ||| PTE_W ||| PTE_X) = 0 then
        freewalk depth (PTE2PA pte)
        store (pagetable + 8 * i) 0
      else if pte &&& PTE_V ≠ 0 then panic "freewalk: leaf"
      else pure ()
    kfree L pagetable

/-- `uvmfree(pagetable, sz)`. A page table has three levels. -/
def uvmfree (pagetable sz : Nat) : M Unit := do
  if sz > 0 then uvmunmap L pagetable 0 (PGROUNDUP sz / PGSIZE) true else pure ()
  freewalk L 3 pagetable

/-- The loop of `uvmcopy`, with the code at `err`. -/
def uvmcopyLoop (old new sz : Nat) : Nat → Nat → M Int
  | 0, _ => panic "uvmcopy: too many rounds"
  | n + 1, i =>
    if i < sz then do
      let pte ← walk old i false
      if pte = 0 then panic "uvmcopy: pte should exist"
      else
        let w ← load pte
        if w &&& PTE_V = 0 then panic "uvmcopy: page not present"
        else
          let mem ← kalloc
          if mem = 0 then
            uvmunmap L new 0 (i / PGSIZE) true
            return -1
          else
            memmove mem (PTE2PA w) PGSIZE
            let r ← mappages new i PGSIZE mem (PTE_FLAGS w)
            if r ≠ 0 then
              kfree L mem
              uvmunmap L new 0 (i / PGSIZE) true
              return -1
            else uvmcopyLoop old new sz n (u64 (i + PGSIZE))
    else return 0

def uvmcopy (old new sz : Nat) : M Int := uvmcopyLoop L old new sz (sz / PGSIZE + 2) 0

def uvmclear (pagetable va : Nat) : M Unit := do
  let pte ← walk pagetable va false
  if pte = 0 then panic "uvmclear"
  else
    let w ← load pte
    store pte (w &&& (2 ^ 64 - 1 - PTE_U))

/-! ## `kernel/vm.c`: copying between user and kernel -/

/-- The loop of `copyout`: every round copies at least one byte. -/
def copyoutLoop (pagetable : Nat) : Nat → Nat → List UInt8 → M Int
  | 0, _, _ => return 0
  | fuel + 1, dstva, src =>
    if src.length > 0 then do
      let va0 := PGROUNDDOWN dstva
      if va0 ≥ MAXVA then return -1
      else
        let pte ← walk pagetable va0 false
        if pte = 0 then return -1
        else
          let w ← load pte
          if w &&& PTE_V = 0 ∨ w &&& PTE_U = 0 ∨ w &&& PTE_W = 0 then return -1
          else
            let n := min (PGSIZE - (dstva - va0)) src.length
            copyBytes (PTE2PA w + (dstva - va0)) (src.take n)
            copyoutLoop pagetable fuel (u64 (va0 + PGSIZE)) (src.drop n)
    else return 0

/-- `copyout(pagetable, dstva, src, len)`, where `src` are the `len` bytes. -/
def copyout (pagetable dstva : Nat) (src : List UInt8) : M Int :=
  copyoutLoop pagetable src.length dstva src

/-- The loop of `copyin`: every round copies at least one byte. -/
def copyinLoop (pagetable : Nat) : Nat → Nat → Nat → List UInt8 → M (Int × List UInt8)
  | 0, _, _, dst => return (0, dst)
  | fuel + 1, srcva, len, dst =>
    if len > 0 then do
      let va0 := PGROUNDDOWN srcva
      let pa0 ← walkaddr pagetable va0
      if pa0 = 0 then return (-1, dst)
      else
        let n := min (PGSIZE - (srcva - va0)) len
        let bs ← readBytes (pa0 + (srcva - va0)) n
        copyinLoop pagetable fuel (u64 (va0 + PGSIZE)) (len - n) (dst ++ bs)
    else return (0, dst)

/-- `copyin(pagetable, dst, srcva, len)`: its result, and the bytes written to `dst`. -/
def copyin (pagetable srcva len : Nat) : M (Int × List UInt8) :=
  copyinLoop pagetable len srcva len []

/-- The loop of `copyinstr`; the inner loop copies the bytes `bs` of one page up to the NUL. -/
def copyinstrLoop (pagetable : Nat) : Nat → Nat → Nat → List UInt8 → M (Int × List UInt8)
  | 0, _, _, dst => return (-1, dst)
  | fuel + 1, srcva, max, dst =>
    if max > 0 then do
      let va0 := PGROUNDDOWN srcva
      let pa0 ← walkaddr pagetable va0
      if pa0 = 0 then return (-1, dst)
      else
        let n := min (PGSIZE - (srcva - va0)) max
        let bs ← readBytes (pa0 + (srcva - va0)) n
        let s := bs.takeWhile (· ≠ 0)
        if s.length < n then return (0, dst ++ s ++ [0])
        else copyinstrLoop pagetable fuel (u64 (va0 + PGSIZE)) (max - n) (dst ++ s)
    else return (-1, dst)

/-- `copyinstr(pagetable, dst, srcva, max)`: its result, and the bytes written to `dst`. -/
def copyinstr (pagetable srcva max : Nat) : M (Int × List UInt8) :=
  copyinstrLoop pagetable max srcva max []

/-! ## `kernel/proc.c`: the page table of a process -/

/-- `proc_pagetable(p)`, for a process with the given `p->trapframe`. -/
def procPagetable (trapframe : Nat) : M Nat := do
  let pagetable ← uvmcreate
  if pagetable = 0 then return 0
  else
    let r ← mappages pagetable TRAMPOLINE PGSIZE L.trampoline (PTE_R ||| PTE_X)
    if r < 0 then
      uvmfree L pagetable 0
      return 0
    else
      let r ← mappages pagetable TRAPFRAME PGSIZE trapframe (PTE_R ||| PTE_W)
      if r < 0 then
        uvmunmap L pagetable TRAMPOLINE 1 false
        uvmfree L pagetable 0
        return 0
      else return pagetable

def procFreepagetable (pagetable sz : Nat) : M Unit := do
  uvmunmap L pagetable TRAMPOLINE 1 false
  uvmunmap L pagetable TRAPFRAME 1 false
  uvmfree L pagetable sz

end Xv6Freezer.Vm

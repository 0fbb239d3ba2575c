import Xv6Freezer.Lib.RingBuffer
import Xv6Freezer.Lib.Transition
import Xv6Freezer.Params

/-! # The virtio disk driver

`kernel/virtio_disk.c`: any number of threads in `virtio_disk_rw` and `virtio_disk_intr`, one statement at a
time, and the device, which completes requests in any order. `sleep` releases `vdisk_lock` and takes it again
at any later time, which covers every `wakeup`.
-/

namespace Xv6Freezer.Virtio

open Function

/-! ## Data -/

def NUM : Nat := 8

/-- The indices of the rings are of type `uint16`. -/
def IDX : Nat := 65536

def VRING_DESC_F_NEXT : Nat := 1

def VRING_DESC_F_WRITE : Nat := 2

def VIRTIO_BLK_T_IN : Nat := 0

def VIRTIO_BLK_T_OUT : Nat := 1

/-- What a descriptor points to. -/
inductive Addr where
  | null
  | ops (i : Nat)
  | data (b : Nat)
  | status (i : Nat)
  deriving DecidableEq

structure Desc where
  addr : Addr
  len : Nat
  flags : Nat
  next : Nat
  deriving DecidableEq

structure BlkReq where
  type : Nat
  reserved : Nat
  sector : Nat
  deriving DecidableEq

structure Info where
  b : Option Nat
  status : Nat
  deriving DecidableEq

/-- The arguments of a call of `virtio_disk_rw`: the buffer, its block number, and `write`. -/
structure Job where
  b : Nat
  blockno : Nat
  write : Bool
  deriving DecidableEq

/-- The array `idx` of `virtio_disk_rw`. -/
structure Chain where
  head : Nat
  mid : Nat
  tail : Nat
  deriving DecidableEq

def Chain.list (c : Chain) : List Nat := [c.head, c.mid, c.tail]

inductive Pc where
  | idle
  | acquire (j : Job)
  /-- `alloc3_desc`: the next `alloc_desc`, after those in `idx`. -/
  | alloc (j : Job) (idx : List Nat)
  /-- `alloc3_desc`: `free_desc` of what is left in `idx`; then `sleep(&disk.free[0], ...)`. -/
  | undo (j : Job) (idx : List Nat)
  /-- `sleep(&disk.free[0], &disk.vdisk_lock)`, without the lock. -/
  | sleepFree (j : Job)
  /-- The stores to `disk.ops[idx[0]]` and `disk.desc[idx[0]]`. -/
  | desc0 (j : Job) (c : Chain)
  /-- The stores to `disk.desc[idx[1]]`. -/
  | desc1 (j : Job) (c : Chain)
  /-- `disk.info[idx[0]].status = 0xff` and the stores to `disk.desc[idx[2]]`. -/
  | desc2 (j : Job) (c : Chain)
  /-- `b->disk = 1; disk.info[idx[0]].b = b` -/
  | mark (j : Job) (c : Chain)
  /-- `disk.avail->ring[disk.avail->idx % NUM] = idx[0]` -/
  | ring (j : Job) (c : Chain)
  /-- `disk.avail->idx += 1` -/
  | post (j : Job) (c : Chain)
  /-- `while(b->disk == 1)` -/
  | wait (j : Job) (c : Chain)
  /-- `sleep(b, &disk.vdisk_lock)`, without the lock. -/
  | sleepBuf (j : Job) (c : Chain)
  /-- `disk.info[idx[0]].b = 0` -/
  | clear (j : Job) (c : Chain)
  /-- `free_chain`, at descriptor `i`. -/
  | chain (j : Job) (c : Chain) (i : Nat)
  /-- `release(&disk.vdisk_lock)`, and return. -/
  | release (j : Job) (c : Chain)
  | intrAcquire
  /-- One round of `while(disk.used_idx != disk.used->idx)`. -/
  | intrLoop
  | intrRelease
  | panicked (msg : String)
  deriving DecidableEq

structure Sys where
  desc : Nat → Desc
  /-- `disk.avail`: `w` is its `idx`, `r` how far the device has looked. -/
  avail : Lib.RingBuffer Nat
  /-- `disk.used`: `w` is `disk.used->idx`, `r` is `disk.used_idx`. -/
  used : Lib.RingBuffer Nat
  free : Nat → Bool
  info : Nat → Info
  ops : Nat → BlkReq
  lock : Option Nat
  disk : Nat → Bool
  /-- Who holds `b->lock`, the buffer's sleep-lock. -/
  held : Nat → Option Nat
  /-- The chains the device has taken from `avail` and not completed. -/
  pending : List Nat
  pc : Nat → Pc

namespace Sys

def goto (s : Sys) (t : Nat) (pc : Pc) : Sys := { s with pc := update s.pc t pc }

/-! ## Descriptors -/

def allocDesc (s : Sys) : Option Nat := (List.range NUM).find? s.free

def freeDesc (s : Sys) (i : Nat) : Except String Sys :=
  if i ≥ NUM then .error "free_desc 1"
  else if s.free i then .error "free_desc 2"
  else .ok { s with desc := update s.desc i { addr := .null, len := 0, flags := 0, next := 0 }
                    free := update s.free i true }

end Sys

def Chain.desc0 (c : Chain) : Desc :=
  { addr := .ops c.head, len := 16, flags := VRING_DESC_F_NEXT, next := c.mid }

def Chain.desc1 (c : Chain) (j : Job) : Desc :=
  { addr := .data j.b, len := BSIZE,
    flags := (if j.write then 0 else VRING_DESC_F_WRITE) ||| VRING_DESC_F_NEXT, next := c.tail }

def Chain.desc2 (c : Chain) : Desc :=
  { addr := .status c.head, len := 1, flags := VRING_DESC_F_WRITE, next := 0 }

def Job.req (j : Job) : BlkReq :=
  { type := if j.write then VIRTIO_BLK_T_OUT else VIRTIO_BLK_T_IN, reserved := 0,
    sector := j.blockno * (BSIZE / 512) % 2 ^ 32 }

/-! ## Steps -/

def Sys.acquire (s : Sys) (t : Nat) (pc : Pc) : Option Sys :=
  if s.lock = none then some ({ s with lock := some t }.goto t pc) else none

def Sys.intr (s : Sys) (t : Nat) : Sys :=
  if s.used.r = s.used.w then s.goto t .intrRelease
  else
    let id := s.used.data (s.used.r % NUM)
    if (s.info id).status ≠ 0 then s.goto t (.panicked "virtio_disk_intr status")
    else
      match (s.info id).b with
      | none => s.goto t (.panicked "kerneltrap")
      | some b => { s with disk := update s.disk b false, used := s.used.take IDX }

def Sys.go (s : Sys) (t : Nat) : Option Sys :=
  match s.pc t with
  | .idle | .panicked _ => none
  | .acquire j | .sleepFree j => s.acquire t (.alloc j [])
  | .alloc j idx =>
    match s.allocDesc with
    | none => some (s.goto t (.undo j idx))
    | some i =>
      let s' := { s with free := update s.free i false }
      match idx with
      | [i0, i1] => some (s'.goto t (.desc0 j ⟨i0, i1, i⟩))
      | _ => some (s'.goto t (.alloc j (idx ++ [i])))
  | .undo j [] => some ({ s with lock := none }.goto t (.sleepFree j))
  | .undo j (i :: idx) =>
    match s.freeDesc i with
    | .error msg => some (s.goto t (.panicked msg))
    | .ok s' => some (s'.goto t (.undo j idx))
  | .desc0 j c =>
    some ({ s with ops := update s.ops c.head j.req
                   desc := update s.desc c.head c.desc0 }.goto t (.desc1 j c))
  | .desc1 j c =>
    some ({ s with desc := update s.desc c.mid (c.desc1 j) }.goto t (.desc2 j c))
  | .desc2 j c =>
    some ({ s with info := update s.info c.head { s.info c.head with status := 0xff }
                   desc := update s.desc c.tail c.desc2 }.goto t (.mark j c))
  | .mark j c =>
    some ({ s with disk := update s.disk j.b true
                   info := update s.info c.head { s.info c.head with b := some j.b } }.goto t (.ring j c))
  | .ring j c =>
    some ({ s with avail := s.avail.store NUM c.head }.goto t (.post j c))
  | .post j c => some ({ s with avail := s.avail.bump IDX }.goto t (.wait j c))
  | .wait j c =>
    if s.disk j.b then some ({ s with lock := none }.goto t (.sleepBuf j c))
    else some (s.goto t (.clear j c))
  | .sleepBuf j c => s.acquire t (.wait j c)
  | .clear j c =>
    some ({ s with info := update s.info c.head { s.info c.head with b := none } }.goto t
      (.chain j c c.head))
  | .chain j c i =>
    match s.freeDesc i with
    | .error msg => some (s.goto t (.panicked msg))
    | .ok s' =>
      if (s.desc i).flags &&& VRING_DESC_F_NEXT ≠ 0 then some (s'.goto t (.chain j c (s.desc i).next))
      else some (s'.goto t (.release j c))
  | .release j _ => some ({ s with lock := none, held := update s.held j.b none }.goto t .idle)
  | .intrAcquire => s.acquire t .intrLoop
  | .intrLoop => some (s.intr t)
  | .intrRelease => some ({ s with lock := none }.goto t .idle)

/-- The device completes the chain that starts at `h`: it writes status 0 to its last descriptor and puts the
chain on the `used` ring. -/
def Sys.complete (s : Sys) (h : Nat) : Sys :=
  { s with
    info := match (s.desc (s.desc (s.desc h).next).next).addr with
      | .status i => update s.info i { s.info i with status := 0 }
      | _ => s.info
    used := s.used.put NUM IDX h
    pending := s.pending.erase h }

inductive Act where
  /-- A thread that holds the buffer's sleep-lock calls `virtio_disk_rw`. -/
  | rw (t : Nat) (j : Job)
  /-- An interrupt: `virtio_disk_intr`. -/
  | intr (t : Nat)
  /-- A thread executes its next statement. -/
  | go (t : Nat)
  /-- The device takes the next chain from the `avail` ring. -/
  | fetch
  | complete (h : Nat)

def Sys.step (s : Sys) : Act → Option Sys
  | .rw t j =>
    if s.pc t = .idle ∧ s.held j.b = none then
      some ({ s with held := update s.held j.b (some t) }.goto t (.acquire j))
    else none
  | .intr t => if s.pc t = .idle then some (s.goto t .intrAcquire) else none
  | .go t => s.go t
  | .fetch =>
    if s.avail.r = s.avail.w then none
    else some { s with pending := s.pending ++ [s.avail.data (s.avail.r % NUM)]
                       avail := s.avail.take IDX }
  | .complete h => if h ∈ s.pending then some (s.complete h) else none

def boot : Sys where
  desc _ := { addr := .null, len := 0, flags := 0, next := 0 }
  avail := { data := fun _ => 0, r := 0, w := 0 }
  used := { data := fun _ => 0, r := 0, w := 0 }
  free _ := true
  info _ := { b := none, status := 0 }
  ops _ := { type := 0, reserved := 0, sector := 0 }
  lock := none
  disk _ := false
  held _ := none
  pending := []
  pc _ := .idle

def sys : Lib.Lts Sys Act where
  init s := s = boot
  step s a := s.step a

/-! ## What happens in a run -/

inductive Event where
  | post (t : Nat) (j : Job) (c : Chain)
  | fetch (h : Nat)
  /-- The device completes a chain. -/
  | complete (h : Nat)
  | free (t i : Nat)
  deriving DecidableEq

def event (s : Sys) : Act → Option Event
  | .go t =>
    match s.pc t with
    | .post j c => some (.post t j c)
    | .undo _ (i :: _) | .chain _ _ i => some (.free t i)
    | _ => none
  | .fetch => some (.fetch (s.avail.data (s.avail.r % NUM)))
  | .complete h => some (.complete h)
  | _ => none

/-- The chains posted in a history, by their heads, the latest first. -/
def posts (es : List Event) : List Nat :=
  es.filterMap fun | .post _ _ c => some c.head | _ => none

/-- The chains the device has taken, the latest first. -/
def fetches (es : List Event) : List Nat :=
  es.filterMap fun | .fetch h => some h | _ => none

def completions (es : List Event) : List Nat :=
  es.filterMap fun | .complete h => some h | _ => none

def frees (t : Nat) (es : List Event) : List Nat :=
  es.filterMap fun | .free t' i => if t' = t then some i else none | _ => none

end Xv6Freezer.Virtio

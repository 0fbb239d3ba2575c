import Mathlib

/-! # The log on disk

The disk with its buffer cache, and the functions of `kernel/log.c` that move blocks between the log area and
their home locations. **`Recoverable`** says what of an unfinished installation is on the disk;
`recover_from_log` finishes it.
-/

namespace Xv6Freezer

open Function

/-! ## Disk and buffer cache -/

/-- A disk block, as its `int` words. -/
def Block : Type := Nat → Nat

/-- The disk, and the buffers of the cache that hold a valid copy. -/
structure Dev where
  disk : Nat → Block
  cache : Nat → Option Block

namespace Dev

/-- The contents that `bread(dev, b)` finds: the cached copy, or the block on disk. -/
def read (d : Dev) (b : Nat) : Block := (d.cache b).getD (d.disk b)

def bread (d : Dev) (b : Nat) : Block × Dev :=
  (d.read b, { d with cache := update d.cache b (some (d.read b)) })

/-- The holder of the buffer of block `b` sets its data. -/
def modify (d : Dev) (b : Nat) (v : Block) : Dev := { d with cache := update d.cache b (some v) }

def bwrite (d : Dev) (b : Nat) (v : Block) : Dev :=
  { disk := update d.disk b v, cache := update d.cache b (some v) }

/-- `bget` recycles the buffer of block `b` for another block. -/
def evict (d : Dev) (b : Nat) : Dev := { d with cache := update d.cache b none }

def reboot (d : Dev) : Dev := { d with cache := fun _ => none }

def Clean (d : Dev) (b : Nat) : Prop := ∀ v, d.cache b = some v → v = d.disk b

variable {d : Dev} {b b' : Nat} {v : Block}

theorem Clean.read_eq (h : d.Clean b) : d.read b = d.disk b := by
  unfold read
  cases hc : d.cache b with
  | none => rfl
  | some v => exact h v hc

theorem read_of_cache (h : d.cache b = some v) : d.read b = v := by simp [read, h]

@[simp] theorem read_bread : (d.bread b).2.read b' = d.read b' := by
  by_cases h : b' = b
  · subst h; simp [bread, read]
  · simp [bread, read, h]

@[simp] theorem disk_bread : (d.bread b).2.disk = d.disk := rfl

theorem Clean.bread (h : d.Clean b') : (d.bread b).2.Clean b' := by
  intro v hv
  by_cases he : b' = b
  · subst he
    have hv' : d.read b' = v := by simpa [Dev.bread] using hv
    rw [← hv', h.read_eq]
    rfl
  · exact h v (by simpa [Dev.bread, he] using hv)

theorem cache_bread (h : d.cache b' = some v) : (d.bread b).2.cache b' = some v := by
  by_cases he : b' = b
  · subst he; simp [bread, read, h]
  · simpa [bread, he] using h

theorem cache_bwrite_of_ne (hne : b' ≠ b) : (d.bwrite b v).cache b' = d.cache b' := by
  simp [bwrite, hne]

theorem clean_bwrite_self : (d.bwrite b v).Clean b := by
  intro w hw
  have hw' : v = w := by simpa [bwrite] using hw
  rw [← hw']
  simp [bwrite]

theorem Clean.bwrite (h : d.Clean b') : (d.bwrite b v).Clean b' := by
  by_cases he : b' = b
  · subst he; exact clean_bwrite_self
  · intro w hw
    have := h w (by simpa [Dev.bwrite, he] using hw)
    simpa [Dev.bwrite, he] using this

theorem Clean.evict (h : d.Clean b') : (d.evict b).Clean b' := by
  intro v hv
  by_cases he : b' = b
  · subst he; simp [Dev.evict] at hv
  · exact h v (by simpa [Dev.evict, he] using hv)

theorem clean_reboot : d.reboot.Clean b := fun v hv => by cases hv

end Dev

/-! ## The header block -/

/-- The header block that `write_head` makes; the words after `block[0..n)` stay. -/
def encodeHead (lh : List Nat) (buf : Block) : Block := fun i =>
  if i = 0 then lh.length else (lh[i - 1]?).getD (buf i)

def decodeHead (buf : Block) : List Nat := (List.range (buf 0)).map fun i => buf (i + 1)

@[simp] theorem decodeHead_encodeHead (lh : List Nat) (buf : Block) :
    decodeHead (encodeHead lh buf) = lh := by
  refine List.ext_getElem (by simp [decodeHead, encodeHead]) fun i h1 h2 => ?_
  simp [decodeHead, encodeHead, List.getElem?_eq_getElem h2]

/-! ## Functions of the log -/

def readHead (start : Nat) (d : Dev) : List Nat × Dev :=
  let (buf, d) := d.bread start
  (decodeHead buf, d)

def writeHead (start : Nat) (lh : List Nat) (d : Dev) : Dev :=
  let (buf, d) := d.bread start
  d.bwrite start (encodeHead lh buf)

/-- One iteration of `write_log`, with `log.lh.block[tail] = b`. -/
def writeLogBlock (start tail b : Nat) (d : Dev) : Dev :=
  let (_, d) := d.bread (start + tail + 1)
  let (src, d) := d.bread b
  d.bwrite (start + tail + 1) src

/-- One iteration of `install_trans`, with `log.lh.block[tail] = b`. -/
def installBlock (start tail b : Nat) (d : Dev) : Dev :=
  let (lbuf, d) := d.bread (start + tail + 1)
  let (_, d) := d.bread b
  d.bwrite b lbuf

/-- `install_trans` from `tail` on; the list is `log.lh.block[tail..n)`. -/
def installTrans (start : Nat) : Nat → List Nat → Dev → Dev
  | _, [], d => d
  | tail, b :: bs, d => installTrans start (tail + 1) bs (installBlock start tail b d)

def recoverFromLog (start : Nat) (d : Dev) : Dev :=
  let (lh, d) := readHead start d
  let d := installTrans start 0 lh d
  writeHead start [] d

theorem disk_writeHead {start : Nat} {lh : List Nat} {d : Dev} :
    (writeHead start lh d).disk = update d.disk start (encodeHead lh (d.read start)) := rfl

theorem disk_writeLogBlock {start tail b : Nat} {d : Dev} :
    (writeLogBlock start tail b d).disk = update d.disk (start + tail + 1) (d.read b) := by
  unfold writeLogBlock
  show update d.disk _ ((d.bread _).2.read b) = _
  rw [Dev.read_bread]

theorem disk_installBlock {start tail b : Nat} {d : Dev} :
    (installBlock start tail b d).disk = update d.disk b (d.read (start + tail + 1)) := rfl

section

variable {d : Dev} {start tail b x : Nat} {lh : List Nat} {v : Block}

theorem Dev.Clean.writeHead (h : d.Clean x) : (Xv6Freezer.writeHead start lh d).Clean x :=
  h.bread.bwrite

theorem Dev.Clean.writeLogBlock (h : d.Clean x) :
    (Xv6Freezer.writeLogBlock start tail b d).Clean x :=
  h.bread.bread.bwrite

theorem Dev.Clean.installBlock (h : d.Clean x) :
    (Xv6Freezer.installBlock start tail b d).Clean x :=
  h.bread.bread.bwrite

theorem clean_installBlock_self : (installBlock start tail b d).Clean b := Dev.clean_bwrite_self

theorem cache_writeHead (h : d.cache x = some v) (hne : x ≠ start) :
    (writeHead start lh d).cache x = some v :=
  (Dev.cache_bwrite_of_ne hne).trans (Dev.cache_bread h)

theorem cache_writeLogBlock (h : d.cache x = some v) (hne : x ≠ start + tail + 1) :
    (writeLogBlock start tail b d).cache x = some v :=
  (Dev.cache_bwrite_of_ne hne).trans (Dev.cache_bread (Dev.cache_bread h))

theorem cache_installBlock (h : d.cache x = some v) (hne : x ≠ b) :
    (installBlock start tail b d).cache x = some v :=
  (Dev.cache_bwrite_of_ne hne).trans (Dev.cache_bread (Dev.cache_bread h))

end

/-! ## Recoverable disks -/

def InLog (start size b : Nat) : Prop := start ≤ b ∧ b < start + size

/-- The disk holds `home` up to an unfinished installation: its header has the blocks `lst`, the log has their
contents, and all blocks but `lst[t..]` are at home. -/
structure Recoverable (start size : Nat) (home disk : Nat → Block) (lst : List Nat) (t : Nat) :
    Prop where
  head : decodeHead (disk start) = lst
  room : lst.length < size
  outside : ∀ b ∈ lst, ¬ InLog start size b
  copy : ∀ i b, lst[i]? = some b → disk (start + i + 1) = home b
  rest : ∀ b, ¬ InLog start size b → b ∉ lst.drop t → disk b = home b

namespace Recoverable

variable {start size t b : Nat} {home home' disk : Nat → Block} {lst : List Nat} {d : Dev}

section

variable (h : Recoverable start size home disk lst t)

include h

theorem start_inLog : InLog start size start :=
  ⟨le_refl _, by have := h.room; omega⟩

theorem copy_inLog {i : Nat} (hi : i < lst.length) : InLog start size (start + i + 1) :=
  ⟨by omega, by have := h.room; omega⟩

theorem restart : Recoverable start size home disk lst 0 :=
  { h with rest := fun b hb hm => h.rest b hb fun hm' => hm (List.mem_of_mem_drop hm') }

theorem install (hb : lst[t]? = some b) :
    Recoverable start size home (update disk b (home b)) lst (t + 1) := by
  have hbl : ¬ InLog start size b := h.outside b (List.mem_of_getElem? hb)
  refine
    { head := ?_
      room := h.room
      outside := h.outside
      copy := fun i x hx => ?_
      rest := fun x hx hm => ?_ }
  · have hne : start ≠ b := fun e => hbl (e ▸ h.start_inLog)
    rw [update_of_ne hne]
    exact h.head
  · have hi : i < lst.length := (List.getElem?_eq_some_iff.mp hx).1
    have hne : start + i + 1 ≠ b := fun e => hbl (e ▸ h.copy_inLog hi)
    rw [update_of_ne hne]
    exact h.copy i x hx
  · by_cases hxb : x = b
    · subst hxb; exact update_self ..
    · rw [update_of_ne hxb]
      refine h.rest x hx fun hm' => ?_
      -- `lst.drop t` is `b` followed by `lst.drop (t + 1)`
      obtain ⟨hlt, rfl⟩ := List.getElem?_eq_some_iff.mp hb
      rw [List.drop_eq_getElem_cons hlt] at hm'
      exact (List.mem_cons.mp hm').elim hxb hm

end

theorem erase (h : Recoverable start size home disk lst lst.length) (buf : Block) :
    Recoverable start size home (update disk start (encodeHead [] buf)) [] 0 where
  head := by rw [update_self, decodeHead_encodeHead]
  room := by have := h.room; simp only [List.length_nil]; omega
  outside := by simp
  copy := by simp
  rest b hb _ := by
    have hne : b ≠ start := fun e => hb (e ▸ h.start_inLog)
    rw [update_of_ne hne]
    exact h.rest b hb (by simp)

theorem writeLog (h : Recoverable start size home disk [] 0) (hi : t + 1 < size) (v : Block) :
    Recoverable start size home (update disk (start + t + 1) v) [] 0 where
  head := by
    rw [update_of_ne (by omega)]
    exact h.head
  room := h.room
  outside := h.outside
  copy := by simp
  rest b hb _ := by
    have hne : b ≠ start + t + 1 := fun e => hb ⟨by omega, by omega⟩
    rw [update_of_ne hne]
    exact h.rest b hb (by simp)

/-- **The commit point**: writing the header makes the copies in the log the recoverable contents. -/
theorem commit (h : Recoverable start size home disk [] 0) (hroom : lst.length < size)
    (hout : ∀ b ∈ lst, ¬ InLog start size b)
    (hcopy : ∀ i b, lst[i]? = some b → disk (start + i + 1) = home' b)
    (hhome : ∀ b, b ∉ lst → home' b = home b) (buf : Block) :
    Recoverable start size home' (update disk start (encodeHead lst buf)) lst 0 where
  head := by rw [update_self, decodeHead_encodeHead]
  room := hroom
  outside := hout
  copy i b hb := by
    rw [update_of_ne (by omega)]
    exact hcopy i b hb
  rest b hb hm := by
    have hne : b ≠ start := fun e => hb (e ▸ h.start_inLog)
    rw [update_of_ne hne, hhome b hm]
    exact h.rest b hb (by simp)

/-! ## Recovery -/

theorem installBlock (h : Recoverable start size home d.disk lst t) (hb : lst[t]? = some b)
    (hclean : d.Clean (start + t + 1)) :
    Recoverable start size home (Xv6Freezer.installBlock start t b d).disk lst (t + 1) := by
  rw [disk_installBlock, hclean.read_eq, h.copy t b hb]
  exact h.install hb

theorem installTrans {bs : List Nat} (h : Recoverable start size home d.disk lst t)
    (hclean : ∀ x, d.Clean x) (hbs : lst.drop t = bs) :
    Recoverable start size home (Xv6Freezer.installTrans start t bs d).disk lst lst.length := by
  induction bs generalizing t d with
  | nil => exact { h with rest := fun b hb _ => h.rest b hb (by simp [hbs]) }
  | cons b bs ih =>
    have hb : lst[t]? = some b := by
      rw [← List.head?_drop, hbs]
      rfl
    refine ih (h.installBlock hb (hclean _)) (fun x => (hclean x).installBlock) ?_
    rw [← List.tail_drop, hbs]
    rfl

theorem recoverFromLog (h : Recoverable start size home d.disk lst t) (hclean : ∀ x, d.Clean x) :
    Recoverable start size home (Xv6Freezer.recoverFromLog start d).disk [] 0 := by
  have hread : (readHead start d).1 = lst := by
    show decodeHead (d.read start) = lst
    rw [(hclean start).read_eq, h.head]
  have hinst : Recoverable start size home
      (Xv6Freezer.installTrans start 0 lst (readHead start d).2).disk lst lst.length :=
    installTrans h.restart (fun x => (hclean x).bread) (by simp)
  unfold Xv6Freezer.recoverFromLog
  simp only [hread]
  exact hinst.erase _

end Recoverable

end Xv6Freezer

import Xv6Freezer.Kernel.Clients
import Xv6Freezer.Lib.RingBuffer

/-! # The line discipline of the console

`consoleread` and `consoleintr` (`kernel/console.c`) as code that runs on the kernel of `proc.c`, and the
plain specification: a `Line` has the bytes read, those committed and those being edited. In every run the
ring represents it (`console_line_discipline`).
-/

namespace Xv6Freezer

namespace Console

open Function Lib

/-! ## The plain specification -/

def INPUT_BUF_SIZE : Nat := 128

/-- `C(x)`, Control-x. -/
def ctrl (x : Char) : UInt8 := (x.toNat - '@'.toNat).toUInt8

def newline : UInt8 := '\n'.toNat.toUInt8

/-- What has been typed. -/
structure Line where
  /-- The bytes that have been read, each with the number of the call that took it. -/
  gone : List (Nat × UInt8)
  committed : List UInt8
  edit : List UInt8
  /-- The number of calls so far. -/
  calls : Nat

def Line.pending (l : Line) : Nat := l.committed.length + l.edit.length

def Line.stream (l : Line) : List UInt8 := l.gone.map Prod.snd ++ l.committed

/-- The bytes that a call has taken. -/
def Line.taken (l : Line) (call : Nat) : List UInt8 := (l.gone.filter (·.1 = call)).map Prod.snd

/-- The character `c`, with CR replaced by LF. -/
def crlf (c : UInt8) : UInt8 := if c = '\r'.toNat.toUInt8 then newline else c

/-- An input character. `^U` drops the uncommitted line, backspace and DEL its last character; NUL and what
has no room are discarded, all others but `^P` join the line; LF, `^D` and the character that fills the buffer
commit it. -/
def Line.input (c : UInt8) (l : Line) : Line :=
  if c = ctrl 'P' then l
  else if c = ctrl 'U' then { l with edit := [] }
  else if c = ctrl 'H' ∨ c = 0x7f then { l with edit := l.edit.dropLast }
  else if c = 0 ∨ l.pending = INPUT_BUF_SIZE then l
  else if crlf c = newline ∨ crlf c = ctrl 'D' ∨ l.pending + 1 = INPUT_BUF_SIZE then
    { l with committed := l.committed ++ (l.edit ++ [crlf c]), edit := [] }
  else { l with edit := l.edit ++ [crlf c] }

/-- A call reads the first committed byte. A `^D` is left there unless it is the first. -/
def Line.read (call : Nat) (first : Bool) (l : Line) : Line :=
  match l.committed with
  | [] => l
  | c :: rest =>
    if c = ctrl 'D' ∧ first = false then l
    else { l with gone := l.gone ++ [(call, c)], committed := rest }

/-! ## The code -/

structure Data where
  buf : Nat → UInt8
  r : Nat
  w : Nat
  e : Nat
  /-- History: what the plain specification makes of the inputs and reads. -/
  line : Line

/-- The index `i`, counted down. -/
def pred (i : Nat) : Nat := (i + 2 ^ 32 - 1) % 2 ^ 32

/-- The loop of `^U`, with at most as many rounds as the line has characters. -/
def killLine : Nat → Data → Data
  | 0, d => d
  | fuel + 1, d =>
    if d.e ≠ d.w ∧ d.buf (pred d.e % INPUT_BUF_SIZE) ≠ newline then
      killLine fuel { d with e := pred d.e }
    else d

/-- The body of `consoleintr`, between `acquire` and `release`, and whether it calls `wakeup`. -/
def consoleintr (c : UInt8) (d : Data) : Data × Bool :=
  if c = ctrl 'P' then (d, false)
  else if c = ctrl 'U' then (killLine ((d.e + 2 ^ 32 - d.w) % 2 ^ 32) d, false)
  else if c = ctrl 'H' ∨ c = 0x7f then
    (if d.e ≠ d.w then { d with e := pred d.e } else d, false)
  else if c ≠ 0 ∧ (d.e + 2 ^ 32 - d.r) % 2 ^ 32 < INPUT_BUF_SIZE then
    let c := crlf c
    let d := { d with buf := update d.buf (d.e % INPUT_BUF_SIZE) c, e := (d.e + 1) % 2 ^ 32 }
    if c = newline ∨ c = ctrl 'D' ∨ (d.e + 2 ^ 32 - d.r) % 2 ^ 32 = INPUT_BUF_SIZE then
      ({ d with w := d.e }, true)
    else (d, false)
  else (d, false)

inductive Why where
  | full
  | line
  | eof
  /-- The byte `c` could not be copied. -/
  | fault (c : UInt8)
  | killed
  deriving DecidableEq

inductive Lk where
  | cons
  deriving DecidableEq

/-- `&cons.r`, as a channel. Other channels have other numbers. -/
def chanR : Nat := 0

/-- The bytes that a call has taken and does not return: a `^D` at the start, and one that could not be copied. -/
def Why.dropped (got : List UInt8) : Why → List UInt8
  | .eof => if got = [] then [ctrl 'D'] else []
  | .fault c => [c]
  | _ => []

/-- The local variables of `consoleread`: `n₀` is the argument, `call` the number of the call, `since` the
number of bytes read before its entry, `got` what has been copied to `dst`. -/
structure Locals where
  n₀ : Int
  call : Nat
  since : Nat
  n : Int
  got : List UInt8
  deriving DecidableEq

/-- `target - n`, a `uint` that is returned as an `int`. -/
def Locals.ret (v : Locals) : Int := (BitVec.ofInt 32 v.n₀ - BitVec.ofInt 32 v.n).toInt

/-- `n < target`, a comparison of `uint`s. -/
def Locals.some (v : Locals) : Bool := decide ((BitVec.ofInt 32 v.n).toNat < (BitVec.ofInt 32 v.n₀).toNat)

inductive Pc where
  /-- `consoleread`: `target = n`. -/
  | start (n : Int)
  | acq (v : Locals)
  /-- The tests of the two loops, and the read of a byte. -/
  | test (v : Locals)
  /-- `if(killed(myproc()))`. -/
  | check (v : Locals)
  /-- `sleep(&cons.r, &cons.lock)`. -/
  | sleep (v : Locals)
  /-- `either_copyout` of the byte `c`. -/
  | copy (v : Locals) (c : UInt8)
  | rel (v : Locals) (r : Int) (why : Why)
  | ret (v : Locals) (r : Int) (why : Why)
  /-- `consoleintr(c)`: `acquire(&cons.lock)`. -/
  | intrAcq (c : UInt8)
  /-- The `switch`. -/
  | intrSwitch (c : UInt8)
  /-- `wakeup(&cons.r)`. -/
  | intrWake
  | intrRel
  /-- `wakeup` on any channel. -/
  | wakeup (chan : Nat)
  | done

/-- One round of `consoleread` up to `either_copyout`. The round is made with `cons.lock` held. -/
def round (v : Locals) (d : Data) : Data × Pc :=
  if v.n ≤ 0 then (d, .rel v v.ret .full)
  else if d.r = d.w then (d, .check v)
  else
    let c := d.buf (d.r % INPUT_BUF_SIZE)
    let d := { d with r := (d.r + 1) % 2 ^ 32, line := d.line.read v.call (!v.some) }
    if c = ctrl 'D' then
      -- save `^D` for next time
      (if v.some then { d with r := pred d.r } else d, .rel v v.ret .eof)
    else (d, .copy v c)

/-- The rest of the round. -/
def copied (v : Locals) (c : UInt8) (ok : Bool) : Pc :=
  if ok then
    let v := { v with n := v.n - 1, got := v.got ++ [c] }
    if c = newline then .rel v v.ret .line else .test v
  else .rel v v.ret (.fault c)

/-- The statement at a program point. The choice `x` tells whether `either_copyout` succeeds. -/
def code (f : Pc) (d : Data) (x : Nat) : Stmt Pc Data Lk :=
  match f with
  | .start n => .update { d with line := { d.line with calls := d.line.calls + 1 } }
      (.acq ⟨n, d.line.calls, d.line.gone.length, n, []⟩)
  | .acq v => .acquire .cons (.test v)
  | .test v => .update (round v d).1 (round v d).2
  | .check v => .killed fun b => if b then .rel v (-1) .killed else .sleep v
  | .sleep v => .sleep chanR .cons (.test v)
  | .copy v c => .update d (copied v c (decide (x ≠ 0)))
  | .rel v r why => .release .cons (.ret v r why)
  | .ret _ _ _ => .ret
  | .intrAcq c => .acquire .cons (.intrSwitch c)
  | .intrSwitch c =>
    .update { (consoleintr c d).1 with line := d.line.input c }
      (if (consoleintr c d).2 then .intrWake else .intrRel)
  | .intrWake => .wakeup chanR .intrRel
  | .intrRel => .release .cons .done
  | .wakeup n => .wakeup n .done
  | .done => .ret

def held : Pc → List Lk
  | .test _ | .check _ | .sleep _ | .copy _ _ | .rel _ _ _ | .intrSwitch _ | .intrWake | .intrRel =>
    [.cons]
  | _ => []

theorem round_held (v : Locals) (d : Data) : held (round v d).2 = [.cons] := by
  unfold round
  split
  · rfl
  · split
    · rfl
    · dsimp only
      split <;> rfl

theorem copied_held (v : Locals) (c : UInt8) (ok : Bool) : held (copied v c ok) = [.cons] := by
  unfold copied
  split
  · dsimp only
    split <;> rfl
  · rfl

/-- A kernel with calls of `consoleread` and in which any character arrives at any time. -/
abbrev client : Client where
  Frame := Pc
  Data := Data
  Lk := Lk
  code f _ _ d x := code f d x
  held := held
  entry
    | .start n => decide (-2 ^ 31 ≤ n ∧ n < 2 ^ 31)
    | .wakeup _ => true
    | _ => false
  handler
    | .intrAcq _ | .wakeup _ => true
    | _ => false
  fileclose _ := .done
  iput _ := .done
  fsinit := .done
  code_locked f _ _ d _ := by
    cases f with
    | test v => exact round_held v d
    | copy v c => exact copied_held v c _
    | check v => intro b; cases b <;> rfl
    | intrSwitch c => simp only [code]; split <;> simp [Stmt.Locked, held]
    | _ => simp [code, Stmt.Locked, held]
  held_entry f h := by cases f <;> first | rfl | cases h
  held_handler f h := by cases f <;> first | rfl | cases h
  held_fileclose _ := rfl
  held_iput _ := rfl
  held_fsinit := rfl

def sys : Lib.Lts (State client) (CpuId × Act client) :=
  kernel client fun d => d.r = 0 ∧ d.w = 0 ∧ d.e = 0 ∧ d.line = ⟨[], [], [], 0⟩

variable {s s' : State client} {c : CpuId} {p q : Slot} {d d' : Data} {l l' : Line} {v : Locals}
  {b : UInt8}

/-! ## The ring represents the line -/

/-- **The ring represents a line**: committed bytes from `r` to `w`, the line being edited from `w` to `e`. -/
structure Line.Rep (l : Line) (d : Data) : Prop where
  ring : RingBuffer.Rep INPUT_BUF_SIZE (2 ^ 32) ⟨d.buf, d.r, d.e⟩ l.gone.length (l.committed ++ l.edit)
  w_eq : d.w = (l.gone.length + l.committed.length) % 2 ^ 32
  newline : newline ∉ l.edit

namespace Line.Rep

theorem e_eq (h : l.Rep d) : d.e = (l.gone.length + l.pending) % 2 ^ 32 := by
  have := h.ring.w_eq
  rwa [List.length_append] at this

theorem r_eq (h : l.Rep d) : d.r = l.gone.length % 2 ^ 32 := h.ring.r_eq

theorem pending_le (h : l.Rep d) : l.pending ≤ 128 := by
  have := h.ring.length_le
  rwa [List.length_append] at this

theorem sub_eq (h : l.Rep d) : (d.w + 2 ^ 32 - d.r) % 2 ^ 32 = l.committed.length ∧
    (d.e + 2 ^ 32 - d.w) % 2 ^ 32 = l.edit.length ∧ (d.e + 2 ^ 32 - d.r) % 2 ^ 32 = l.pending := by
  have hle := h.pending_le
  rw [h.r_eq, h.w_eq, h.e_eq]
  unfold pending at hle ⊢
  omega

theorem e_eq_w (h : l.Rep d) : d.e = d.w ↔ l.edit = [] := by
  have hle := h.pending_le
  rw [h.w_eq, h.e_eq, ← List.length_eq_zero_iff]
  unfold pending at hle ⊢
  omega

theorem r_eq_w (h : l.Rep d) : d.r = d.w ↔ l.committed = [] := by
  have hle := h.pending_le
  rw [h.w_eq, h.r_eq, ← List.length_eq_zero_iff]
  unfold pending at hle
  omega

theorem congr (h : l.Rep d) (hb : d'.buf = d.buf) (hr : d'.r = d.r) (hw : d'.w = d.w)
    (he : d'.e = d.e) : l.Rep d' :=
  ⟨by rw [hb, hr, he]; exact h.ring, hw.trans h.w_eq, h.newline⟩

theorem back (h : l.Rep d) (hne : l.edit ≠ []) :
    d.buf (pred d.e % INPUT_BUF_SIZE) ≠ Console.newline ∧
      ({ l with edit := l.edit.dropLast } : Line).Rep { d with e := pred d.e } := by
  have hring := h.ring
  rw [← List.dropLast_concat_getLast hne, ← List.append_assoc] at hring
  refine ⟨?_, hring.unput (by decide), h.w_eq, fun hm => h.newline (List.mem_of_mem_dropLast hm)⟩
  rw [show d.buf (pred d.e % INPUT_BUF_SIZE) = _ from hring.last (by decide) (by decide)]
  exact fun e => h.newline (e ▸ List.getLast_mem hne)

theorem killLine (fuel : Nat) : ∀ {d : Data} {l : Line}, l.Rep d → l.edit.length ≤ fuel →
    ({ l with edit := [] } : Line).Rep (killLine fuel d) := by
  induction fuel with
  | zero =>
    intro d l h hle
    have hnil : l.edit = [] := List.length_eq_zero_iff.mp (Nat.le_zero.mp hle)
    rw [← hnil]
    exact h
  | succ fuel ih =>
    intro d l h hle
    unfold Console.killLine
    by_cases hnil : l.edit = []
    · rw [if_neg (fun hc => hc.1 (h.e_eq_w.mpr hnil)), ← hnil]
      exact h
    · obtain ⟨hlast, hback⟩ := h.back hnil
      rw [if_pos ⟨fun he => hnil (h.e_eq_w.mp he), hlast⟩]
      refine ih (l := { l with edit := l.edit.dropLast }) hback ?_
      rw [List.length_dropLast]
      omega

theorem input (h : l.Rep d) (c : UInt8) : (l.input c).Rep (consoleintr c d).1 := by
  have hle := h.pending_le
  obtain ⟨-, hew, her⟩ := h.sub_eq
  unfold Line.input consoleintr
  split
  · exact h
  split
  · exact h.killLine _ hew.ge
  split
  · by_cases hnil : l.edit = []
    · rw [if_neg (fun hc => hc (h.e_eq_w.mpr hnil)), hnil, List.dropLast_nil, ← hnil]
      exact h
    · rw [if_pos fun he => hnil (h.e_eq_w.mp he)]
      exact (h.back hnil).2
  by_cases hroom : c = 0 ∨ l.pending = INPUT_BUF_SIZE
  · rw [if_pos hroom, if_neg]
    · exact h
    · rintro ⟨hc, hlt⟩
      rw [her] at hlt
      exact hroom.elim hc (Nat.ne_of_lt hlt)
  · obtain ⟨hc, hne⟩ := not_or.mp hroom
    have hlt : l.pending < INPUT_BUF_SIZE := Nat.lt_of_le_of_ne hle hne
    have hin : c ≠ 0 ∧ (d.e + 2 ^ 32 - d.r) % 2 ^ 32 < INPUT_BUF_SIZE := ⟨hc, her ▸ hlt⟩
    rw [if_neg hroom, if_pos hin]
    have hput := h.ring.put (x := crlf c) (by decide) (by rw [List.length_append]; exact hlt)
    have hfull : ((d.e + 1) % 2 ^ 32 + 2 ^ 32 - d.r) % 2 ^ 32 = l.pending + 1 := by
      rw [h.e_eq, h.r_eq]
      omega
    dsimp only
    rw [hfull]
    by_cases hcommit : crlf c = Console.newline ∨ crlf c = ctrl 'D' ∨ l.pending + 1 = INPUT_BUF_SIZE
    · rw [if_pos hcommit, if_pos hcommit]
      refine ⟨?_, ?_, List.not_mem_nil⟩
      · rw [List.append_nil, ← List.append_assoc]
        exact hput
      · show (d.e + 1) % 2 ^ 32 = _
        rw [h.e_eq]
        simp only [List.length_append, List.length_singleton, pending]
        omega
    · rw [if_neg hcommit, if_neg hcommit]
      refine ⟨?_, h.w_eq, ?_⟩
      · rw [← List.append_assoc]
        exact hput
      · rw [List.mem_append, List.mem_singleton]
        rintro (hm | hm)
        · exact h.newline hm
        · exact hcommit (.inl hm.symm)

theorem take {rest : List UInt8} (call : Nat) (h : l.Rep d) (hc : l.committed = b :: rest) :
    (⟨l.gone ++ [(call, b)], rest, l.edit, l.calls⟩ : Line).Rep { d with r := (d.r + 1) % 2 ^ 32 } := by
  have hring := h.ring
  rw [hc, List.cons_append] at hring
  refine ⟨?_, ?_, h.newline⟩
  · rw [List.length_append, List.length_singleton]
    exact hring.take
  · show d.w = ((l.gone ++ [(call, b)]).length + rest.length) % 2 ^ 32
    rw [h.w_eq, hc, List.length_append, List.length_singleton, List.length_cons]
    congr 1
    omega

theorem read (h : l.Rep d) (hn : 0 < v.n) (hne : d.r ≠ d.w) :
    l.committed.head? = some (d.buf (d.r % INPUT_BUF_SIZE)) ∧
      (l.read v.call (!v.some)).Rep (round v d).1 := by
  obtain ⟨b, rest, hc⟩ := List.exists_cons_of_ne_nil fun e => hne (h.r_eq_w.mpr e)
  have hring := h.ring
  rw [hc, List.cons_append] at hring
  have hb : d.buf (d.r % INPUT_BUF_SIZE) = b := hring.head (by decide)
  refine ⟨by rw [hc, hb]; rfl, ?_⟩
  unfold round Line.read
  rw [if_neg hn.not_ge, if_neg hne, hb, hc]
  dsimp only
  by_cases hD : b = ctrl 'D'
  · rw [if_pos hD]
    cases hsome : v.some with
    | true =>
      rw [if_pos ⟨hD, rfl⟩, if_pos rfl]
      have hr : pred ((d.r + 1) % 2 ^ 32) = d.r := by
        have hr := h.r_eq
        unfold pred
        omega
      rw [hr]
      exact h.congr rfl rfl rfl rfl
    | false =>
      rw [if_neg nofun, if_neg Bool.false_ne_true]
      exact (h.take v.call hc).congr rfl rfl rfl rfl
  · rw [if_neg hD, if_neg fun hc => hD hc.1]
    exact (h.take v.call hc).congr rfl rfl rfl rfl

end Line.Rep

/-! ## What a call returns -/

/-- The line later on: more bytes have been read, more have been committed. -/
structure Line.Later (l l' : Line) : Prop where
  gone : l.gone <+: l'.gone
  stream : l.stream <+: l'.stream
  calls : l.calls ≤ l'.calls

@[refl]
theorem Line.Later.refl (l : Line) : l.Later l := ⟨List.prefix_rfl, List.prefix_rfl, le_rfl⟩

theorem Line.read_stream (call : Nat) (first : Bool) (l : Line) : (l.read call first).stream = l.stream := by
  unfold Line.read
  split
  · rfl
  · rename_i b rest hc
    split
    · rfl
    · simp [stream, hc]

theorem Line.read_later (call : Nat) (first : Bool) (l : Line) : l.Later (l.read call first) := by
  refine ⟨?_, by rw [Line.read_stream], ?_⟩ <;> unfold Line.read <;> (repeat' split) <;>
    first | exact List.prefix_rfl | exact List.prefix_append .. | exact le_rfl

theorem Line.input_gone (c : UInt8) (l : Line) : (l.input c).gone = l.gone ∧ (l.input c).calls = l.calls := by
  unfold Line.input
  (repeat' split) <;> exact ⟨rfl, rfl⟩

theorem Line.input_later (c : UInt8) (l : Line) : l.Later (l.input c) := by
  refine ⟨by rw [(l.input_gone c).1], ?_, (l.input_gone c).2.ge⟩
  unfold Line.input
  (repeat' split) <;> first | exact List.prefix_rfl | skip
  show _ <+: l.gone.map Prod.snd ++ (l.committed ++ _)
  rw [← List.append_assoc]
  exact List.prefix_append ..

theorem Line.read_taken {call call' : Nat} (first : Bool) (l : Line) (hne : call ≠ call') :
    (l.read call first).taken call' = l.taken call' := by
  unfold Line.read Line.taken
  split
  · rfl
  · split
    · rfl
    · rw [List.filter_append, List.filter_cons_of_neg (by simpa using hne), List.filter_nil, List.append_nil]

theorem Line.taken_concat (l : Line) (call : Nat) (b : UInt8) (rest : List UInt8) :
    (⟨l.gone ++ [(call, b)], rest, l.edit, l.calls⟩ : Line).taken call = l.taken call ++ [b] := by
  unfold Line.taken
  rw [List.filter_append, List.map_append, List.filter_cons_of_pos (by simp)]
  rfl

/-- The numbers in the line are those of calls that have begun. -/
def Line.Numbered (l : Line) : Prop := ∀ e ∈ l.gone, e.1 < l.calls

theorem Line.Numbered.read {call : Nat} (h : l.Numbered) (hcall : call < l.calls) (first : Bool) :
    (l.read call first).Numbered := by
  unfold Line.read
  split
  · exact h
  split
  · exact h
  intro e he
  rcases List.mem_append.mp he with he | he
  · exact h e he
  · rw [List.mem_singleton.mp he]
    exact hcall

theorem Line.Numbered.taken_calls (h : l.Numbered) : l.taken l.calls = [] := by
  unfold Line.taken
  rw [List.filter_eq_nil_iff.mpr fun e he => by simpa using (h e he).ne, List.map_nil]

/-- A call of `consoleread` that has not ended. -/
structure Reading (l : Line) (v : Locals) : Prop where
  int : -2 ^ 31 ≤ v.n₀ ∧ v.n₀ < 2 ^ 31
  call_lt : v.call < l.calls
  /-- The bytes copied are counted. -/
  sum : (v.got.length : Int) + v.n = v.n₀
  nonneg : 0 ≤ v.n ∨ v.got = []
  since_le : v.since ≤ l.gone.length
  /-- They have been read since the entry, in this order. -/
  order : v.got.Sublist ((l.gone.drop v.since).map Prod.snd)
  /-- None of them ends the call. -/
  text : ∀ b ∈ v.got, b ≠ newline ∧ b ≠ ctrl 'D'

/-- **What `consoleread` returns**: the number of bytes copied. These are all that the call has taken (but
`Why.dropped`), committed and not read before its entry, in order, with no `^D` and no newline but the last.
Unless a copy fails, it ends when all have arrived, after a newline, or at a `^D`. -/
structure Returned (l : Line) (v : Locals) (r : Int) (why : Why) : Prop where
  value : r = v.got.length
  taken : l.taken v.call = v.got ++ why.dropped v.got
  length_le : (v.got.length : Int) ≤ max v.n₀ 0
  order : v.got.Sublist (l.stream.drop v.since)
  ctrlD : ctrl 'D' ∉ v.got
  newline : newline ∉ v.got.dropLast
  full : why = .full → (v.got.length : Int) = max v.n₀ 0
  line : why = .line → v.got.getLast? = some Console.newline
  eof : why = .eof → (v.got ++ [Console.ctrl 'D']).Sublist (l.stream.drop v.since)

theorem Locals.ret_eq (hsum : (v.got.length : Int) + v.n = v.n₀) (hle : (v.got.length : Int) ≤ max v.n₀ 0)
    (hint : v.n₀ < 2 ^ 31) : v.ret = v.got.length := by
  unfold Locals.ret
  rw [BitVec.toInt_sub, BitVec.toInt_ofInt, BitVec.toInt_ofInt, Int.sub_bmod_bmod, Int.bmod_sub_bmod,
    show v.n₀ - v.n = v.got.length by omega]
  exact Int.bmod_eq_of_le (by omega) (by omega)

/-- What a call of `consoleread` knows at a program point. -/
def Knows (l : Line) : Pc → Prop
  | .start n => -2 ^ 31 ≤ n ∧ n < 2 ^ 31
  | .acq v | .test v | .check v | .sleep v => Reading l v ∧ l.taken v.call = v.got
  | .copy v c =>
    Reading l v ∧ 0 < v.n ∧ c ≠ ctrl 'D' ∧ (v.got ++ [c]).Sublist ((l.gone.drop v.since).map Prod.snd) ∧
      l.taken v.call = v.got ++ [c]
  | .rel v r why | .ret v r why =>
    why = .killed ∧ r = -1 ∧ l.taken v.call = v.got ∨ why ≠ .killed ∧ Returned l v r why
  | _ => True

/-- The number of the call at a program point. -/
def Pc.call : Pc → Option Nat
  | .acq v | .test v | .check v | .sleep v | .copy v _ | .rel v _ _ | .ret v _ _ => some v.call
  | _ => none

theorem Reading.mono (h : Reading l v) (hl : l.Later l') : Reading l' v :=
  { h with
    call_lt := h.call_lt.trans_le hl.calls
    since_le := h.since_le.trans hl.gone.length_le
    order := h.order.trans ((hl.gone.drop _).map _).sublist }

theorem Returned.mono {r : Int} {why : Why} (h : Returned l v r why) (hl : l.Later l')
    (ht : l'.taken v.call = l.taken v.call) : Returned l' v r why :=
  { h with
    taken := ht.trans h.taken
    order := h.order.trans (hl.stream.drop _).sublist
    eof := fun e => (h.eof e).trans (hl.stream.drop _).sublist }

theorem Knows.mono {k : Pc} (h : Knows l k) (hl : l.Later l')
    (ht : ∀ i, k.call = some i → l'.taken i = l.taken i) : Knows l' k := by
  cases k with
  | acq v | test v | check v | sleep v => exact ⟨h.1.mono hl, (ht _ rfl).trans h.2⟩
  | copy v c =>
    obtain ⟨h1, h2, h3, h4, h5⟩ := h
    exact ⟨h1.mono hl, h2, h3, h4.trans ((hl.gone.drop _).map _).sublist, (ht _ rfl).trans h5⟩
  | rel v r why | ret v r why =>
    exact h.imp (fun h => ⟨h.1, h.2.1, (ht _ rfl).trans h.2.2⟩) fun h => ⟨h.1, h.2.mono hl (ht _ rfl)⟩
  | _ => exact h

namespace Reading

theorem stream_drop (h : Reading l v) :
    l.stream.drop v.since = (l.gone.drop v.since).map Prod.snd ++ l.committed := by
  rw [Line.stream, List.drop_append_of_le_length (by rw [List.length_map]; exact h.since_le), List.map_drop]

theorem length_le (h : Reading l v) : (v.got.length : Int) ≤ max v.n₀ 0 := by
  have := h.sum
  rcases h.nonneg with hn | hnil
  · omega
  · rw [hnil]
    exact le_max_right ..

/-- **The end of a call** before another byte is copied. -/
theorem returned (h : Reading l v) {why : Why} (hline : why ≠ .line) (hfull : why = .full → v.n ≤ 0)
    (heof : why = .eof → (v.got ++ [ctrl 'D']).Sublist (l.stream.drop v.since))
    (ht : l.taken v.call = v.got ++ why.dropped v.got) : Returned l v v.ret why where
  taken := ht
  value := Locals.ret_eq h.sum h.length_le h.int.2
  length_le := h.length_le
  order := by
    rw [h.stream_drop]
    exact h.order.trans (List.sublist_append_left ..)
  ctrlD hm := (h.text _ hm).2 rfl
  newline hm := (h.text _ (List.mem_of_mem_dropLast hm)).1 rfl
  full e := by
    have hsum := h.sum
    have hle := hfull e
    rcases h.nonneg with hn | hnil
    · omega
    · rw [hnil] at hsum ⊢
      simp only [List.length_nil] at hsum ⊢
      omega
  line e := (hline e).elim
  eof := heof

/-- Bytes have been copied exactly if `n` is below its first value. -/
theorem some_iff (h : Reading l v) (hn : 0 < v.n) : v.some = true ↔ v.got ≠ [] := by
  have hsum := h.sum
  have hint := h.int
  have hto : ∀ n : Int, 0 ≤ n → n < 2 ^ 31 → ((BitVec.ofInt 32 n).toNat : Int) = n := by
    intro n h0 hlt
    rw [BitVec.toNat_ofInt]
    omega
  have h1 := hto v.n hn.le (by omega)
  have h2 := hto v.n₀ (by omega) hint.2
  rw [Locals.some, decide_eq_true_iff, ← List.length_pos_iff]
  omega

theorem round (h : Reading d.line v) (ht : d.line.taken v.call = v.got) (hrep : d.line.Rep d) :
    Knows (round v d).1.line (round v d).2 := by
  unfold Console.round
  split
  · rename_i hn
    exact .inr ⟨nofun, h.returned nofun (fun _ => hn) nofun (by simpa [Why.dropped] using ht)⟩
  split
  · exact ⟨h, ht⟩
  rename_i hn hne
  obtain ⟨hhead, -⟩ := hrep.read (v := v) (not_le.mp hn) hne
  obtain ⟨rest, hc⟩ := List.head?_eq_some_iff.mp hhead
  have hsome := h.some_iff (not_le.mp hn)
  have hlater := d.line.read_later v.call !v.some
  dsimp only
  split
  · rename_i hD
    -- a `^D` is taken only if it is the first byte
    have htaken : (d.line.read v.call !v.some).taken v.call = v.got ++ Why.eof.dropped v.got := by
      unfold Line.read
      rw [hc, hD, Why.dropped]
      dsimp only
      cases hs : v.some with
      | true => rw [if_pos ⟨rfl, rfl⟩, if_neg (hsome.mp hs), List.append_nil, ht]
      | false =>
        have hnil : v.got = [] := by
          by_contra hgot
          rw [hsome.mpr hgot] at hs
          cases hs
        rw [if_neg (fun hb => by cases hb.2), if_pos hnil, Line.taken_concat, ht]
    have hret : Returned (d.line.read v.call !v.some) v v.ret .eof := by
      refine (h.mono hlater).returned nofun nofun (fun _ => ?_) htaken
      rw [Line.read_stream, h.stream_drop, hc, hD]
      exact h.order.append (List.singleton_sublist.mpr (.head _))
    have hline : ∀ d' : Data, d'.line = d.line.read v.call !v.some →
        Knows d'.line (.rel v v.ret .eof) := fun d' e => .inr ⟨nofun, e ▸ hret⟩
    split <;> exact hline _ rfl
  · rename_i hD
    have hread : d.line.read v.call (!v.some) =
        ⟨d.line.gone ++ [(v.call, d.buf (d.r % INPUT_BUF_SIZE))], rest, d.line.edit, d.line.calls⟩ := by
      unfold Line.read
      rw [hc]
      exact if_neg fun hb => hD hb.1
    refine ⟨h.mono hlater, not_le.mp hn, hD, ?_, ?_⟩
    · show List.Sublist _ ((List.drop _ (d.line.read v.call !v.some).gone).map _)
      rw [hread, List.drop_append_of_le_length h.since_le, List.map_append]
      exact h.order.append (List.Sublist.refl _)
    · show (d.line.read v.call !v.some).taken v.call = _
      rw [hread, Line.taken_concat, ht]

theorem copied (h : Reading l v) (hn : 0 < v.n) (hD : b ≠ ctrl 'D')
    (hord : (v.got ++ [b]).Sublist ((l.gone.drop v.since).map Prod.snd))
    (ht : l.taken v.call = v.got ++ [b]) (ok : Bool) : Knows l (copied v b ok) := by
  unfold Console.copied
  cases ok with
  | false => exact .inr ⟨nofun, h.returned nofun nofun nofun ht⟩
  | true =>
    have hsum : ((v.got ++ [b]).length : Int) + (v.n - 1) = v.n₀ := by
      rw [List.length_append, List.length_singleton]
      have := h.sum
      omega
    have hle : ((v.got ++ [b]).length : Int) ≤ max v.n₀ 0 := by omega
    rw [if_pos rfl]
    dsimp only
    split
    · rename_i hb
      refine .inr ⟨nofun, Locals.ret_eq hsum hle h.int.2, ht.trans (List.append_nil _).symm, hle, ?_, ?_, ?_,
        nofun, fun _ => ?_, nofun⟩
      · rw [h.stream_drop]
        exact hord.trans (List.sublist_append_left ..)
      · rw [List.mem_append, List.mem_singleton]
        rintro (hm | hm)
        · exact (h.text _ hm).2 rfl
        · exact hD hm.symm
      · rw [List.dropLast_concat]
        exact fun hm => (h.text _ hm).1 rfl
      · rw [List.getLast?_concat, hb]
    · rename_i hb
      refine ⟨⟨h.int, h.call_lt, hsum, .inl (Int.le_sub_one_of_lt hn), h.since_le, hord, ?_⟩, ht⟩
      · intro b' hb'
        rcases List.mem_append.mp hb' with hb' | hb'
        · exact h.text b' hb'
        · rw [List.mem_singleton.mp hb']
          exact ⟨hb, hD⟩

end Reading

/-! ## Every run -/

theorem round_line (v : Locals) (d : Data) :
    (round v d).1.line = d.line ∨ (round v d).1.line = d.line.read v.call !v.some := by
  unfold round
  split
  · exact .inl rfl
  split
  · exact .inl rfl
  dsimp only
  split
  · split <;> exact .inr rfl
  · exact .inr rfl

/-- A statement adds to the line, and takes bytes only for its own call. -/
theorem code_later (k : Pc) (d : Data) (x : Nat) : d.line.Later ((code k d x).data d).line ∧
    ∀ i, k.call ≠ some i → ((code k d x).data d).line.taken i = d.line.taken i := by
  cases k with
  | start n => exact ⟨⟨List.prefix_rfl, List.prefix_rfl, Nat.le_succ _⟩, fun _ _ => rfl⟩
  | test v =>
    show d.line.Later (round v d).1.line ∧ ∀ i, _ → (round v d).1.line.taken i = _
    rcases round_line v d with e | e <;> rw [e]
    · exact ⟨.refl _, fun _ _ => rfl⟩
    · exact ⟨d.line.read_later _ _, fun i hi => d.line.read_taken _ fun e => hi (congrArg some e)⟩
  | intrSwitch c =>
    refine ⟨d.line.input_later c, fun i _ => ?_⟩
    show (d.line.input c).taken i = _
    rw [Line.taken, (d.line.input_gone c).1, Line.taken]
  | _ => exact ⟨.refl _, fun _ _ => rfl⟩

theorem round_rep (h : d.line.Rep d) : (round v d).1.line.Rep (round v d).1 := by
  by_cases hn : v.n ≤ 0
  · rw [round, if_pos hn]
    exact h
  by_cases hne : d.r = d.w
  · rw [round, if_neg hn, if_pos hne]
    exact h
  · have hline : (round v d).1.line = d.line.read v.call !v.some := by
      rw [round, if_neg hn, if_neg hne]
      dsimp only
      split
      · split <;> rfl
      · rfl
    rw [hline]
    exact (h.read (not_le.mp hn) hne).2

/-- The calls of `consoleread` are numbered. -/
def ticket : Ticket client fun d => d.r = 0 ∧ d.w = 0 ∧ d.e = 0 ∧ d.line = ⟨[], [], [], 0⟩ where
  ident := Pc.call
  next d := d.line.calls
  starts k hk := by
    rcases hk with hk | hk | ⟨_, rfl⟩ | ⟨_, rfl⟩ | rfl
    · cases k <;> first | rfl | cases hk
    · cases k <;> first | rfl | cases hk
    all_goals rfl
  code g self pid d x := by
    refine ⟨(code_later g d x).1.calls, fun k hk => ?_⟩
    change (code g d x).Next (some k) at hk
    cases g with
    | start n => cases hk; exact .inr (.inr ⟨rfl, Nat.lt_succ_self _⟩)
    | test v =>
      cases hk
      refine .inr (.inl ?_)
      unfold round
      (repeat' split) <;> first | rfl | (dsimp only; split <;> rfl)
    | check v =>
      obtain ⟨b, hb⟩ := hk
      cases hb
      cases b <;> exact .inr (.inl rfl)
    | copy v c =>
      cases hk
      refine .inr (.inl ?_)
      unfold copied
      (repeat' split) <;> rfl
    | acq | sleep | rel => cases hk; exact .inr (.inl rfl)
    | intrSwitch c => cases hk; left; split <;> rfl
    | _ => cases hk <;> exact .inl rfl
  handlers s c k h hon hm := by
    have hR : ∀ k : Pc, k.call = none ∧ (∀ n, k ≠ .start n) → k.call = none := fun _ h => h.1
    refine hR k (handler_invariant (R := fun k : Pc => k.call = none ∧ ∀ n, k ≠ .start n) (fun k hk => ?_)
      (fun g self pid d x k hg hk => ?_) h hon hm)
    · cases k with
      | intrAcq | wakeup => exact ⟨rfl, nofun⟩
      | _ => cases hk
    · change (code g d x).Next (some k) at hk
      cases g with
      | start n => exact absurd rfl (hg.2 n)
      | intrSwitch c => cases hk; split <;> exact ⟨rfl, nofun⟩
      | intrAcq | intrWake | intrRel | wakeup => cases hk; exact ⟨rfl, nofun⟩
      | done | ret => cases hk
      | _ => cases hg.1

theorem reachable_knows (h : sys.Reachable s) :
    TableInv s ∧ (s.data.line.Rep s.data ∧ s.data.line.Numbered) ∧ AllAt (Knows s.data.line) s := by
  refine allAt_invariant (I := fun d : Data => d.line.Rep d ∧ d.line.Numbered)
    (J := fun d : Data => Knows d.line) (fun d hd => ?_)
    (fun d k _ hk => ?_) (fun g self pid d x hd hg => ⟨?_, fun k hk => ?_⟩)
    (fun t c g rest x k hr hf helse _ _ hk => ?_) h
  · obtain ⟨hr, hw, he, hl⟩ := hd
    rw [hl]
    refine ⟨⟨⟨hr, he, Nat.zero_le _, fun j hj => (Nat.not_lt_zero j hj).elim⟩, hw, List.not_mem_nil⟩, nofun⟩
  · rcases hk with hk | hk | ⟨_, rfl⟩ | ⟨_, rfl⟩ | rfl
    · cases k with
      | start n =>
        have hn : -2 ^ 31 ≤ n ∧ n < 2 ^ 31 := of_decide_eq_true hk
        exact hn
      | _ => trivial
    · cases k <;> trivial
    all_goals trivial
  · show ((code g d x).data d).line.Rep ((code g d x).data d) ∧ ((code g d x).data d).line.Numbered
    cases g with
    | start n => exact ⟨⟨hd.1.ring, hd.1.w_eq, hd.1.newline⟩, fun e he => Nat.lt_succ_of_lt (hd.2 e he)⟩
    | test v =>
      refine ⟨round_rep hd.1, ?_⟩
      show (round v d).1.line.Numbered
      rcases round_line v d with e | e <;> rw [e]
      · exact hd.2
      · exact hd.2.read hg.1.call_lt _
    | intrSwitch c =>
      refine ⟨(hd.1.input c).congr rfl rfl rfl rfl, fun e he => ?_⟩
      rw [show ((code (.intrSwitch c) d x).data d).line = d.line.input c from rfl] at he ⊢
      rw [(d.line.input_gone c).1] at he
      rw [(d.line.input_gone c).2]
      exact hd.2 e he
    | _ => exact hd
  · change (code g d x).Next (some k) at hk
    show Knows ((code g d x).data d).line k
    cases g with
    | start n =>
      cases hk
      exact ⟨⟨hg, Nat.lt_succ_self _, by simp, .inr rfl, le_rfl, List.nil_sublist _, nofun⟩, hd.2.taken_calls⟩
    | acq v => cases hk; exact hg
    | test v =>
      cases hk
      exact hg.1.round hg.2 hd.1
    | check v =>
      obtain ⟨br, hbr⟩ := hk
      cases hbr
      cases br with
      | true => exact .inl ⟨rfl, rfl, hg.2⟩
      | false => exact hg
    | sleep v => cases hk; exact hg
    | copy v c =>
      cases hk
      exact hg.1.copied hg.2.1 hg.2.2.1 hg.2.2.2.1 hg.2.2.2.2 _
    | rel v r why => cases hk; exact hg
    | intrSwitch c =>
      cases hk
      split <;> trivial
    | _ => cases hk <;> trivial
  · obtain ⟨hlater, htaken⟩ := code_later g t.data x
    refine hk.mono hlater fun i hi => htaken i fun hg => ?_
    exact ticket.ne_of_elsewhere hr hf helse hg hi

/-- The program points at which a call has found its process killed. -/
def Pc.killed : Pc → Bool
  | .rel _ _ why | .ret _ _ why => why = .killed
  | _ => false

theorem round_killed (v : Locals) (d : Data) : (round v d).2.killed = false := by
  unfold round
  split
  · rfl
  · split
    · rfl
    · dsimp only
      split <;> rfl

theorem copied_killed (v : Locals) (c : UInt8) (ok : Bool) : (copied v c ok).killed = false := by
  unfold copied
  split
  · dsimp only
    split <;> rfl
  · rfl

theorem killed_of_why (h : sys.Reachable s) {k : Pc} (hk : k ∈ clients (s.kst q))
    (hwhy : Pc.killed k = true) : (s.procs q).killed ≠ 0 := by
  refine killedAt_invariant (F := fun k => Pc.killed k = true) (fun k hk hF => ?_)
    (fun g self pid d x k hk hF => ?_) h hk hwhy
  · rcases hk with hk | hk | ⟨_, rfl⟩ | ⟨_, rfl⟩ | rfl
    · cases k <;> first | cases hF | cases hk
    · cases k <;> first | cases hF | cases hk
    all_goals cases hF
  · change (code g d x).Next (some k) at hk
    cases g with
    | check v => exact .inr ⟨_, rfl, nofun⟩
    | rel v r why =>
      cases hk
      exact .inl hF
    | test v =>
      cases hk
      rw [round_killed] at hF
      cases hF
    | copy v c =>
      cases hk
      rw [copied_killed] at hF
      cases hF
    | intrSwitch c =>
      cases hk
      split at hF <;> cases hF
    | _ => cases hk <;> cases hF

/-- **The line discipline of the console**, in any interleaving: the ring represents the line of the plain
specification, `r ≤ w ≤ e ≤ r + INPUT_BUF_SIZE` modulo 2³², and `consoleread` returns the bytes that it has
taken, committed and in order, or -1 to a process that has been killed. -/
theorem console_line_discipline (h : sys.Reachable s) :
    s.data.line.Rep s.data ∧
    (s.data.w + 2 ^ 32 - s.data.r) % 2 ^ 32 = s.data.line.committed.length ∧
    (s.data.e + 2 ^ 32 - s.data.w) % 2 ^ 32 = s.data.line.edit.length ∧
    s.data.line.committed.length + s.data.line.edit.length ≤ INPUT_BUF_SIZE ∧
    (∀ p v r why, Pc.ret v r why ∈ clients (s.kst p) → 0 < v.n₀ →
      (why = .killed ∧ r = -1 ∧ (s.procs p).killed ≠ 0 ∧ s.data.line.taken v.call = v.got) ∨
        (why ≠ .killed ∧ Returned s.data.line v r why)) ∧
    ∀ p p' k k' i, p ≠ p' → k ∈ clients (s.kst p) → k' ∈ clients (s.kst p') → Pc.call k = some i →
      Pc.call k' ≠ some i := by
  obtain ⟨-, ⟨hrep, -⟩, hJ⟩ := reachable_knows h
  obtain ⟨hrw, hwe, -⟩ := hrep.sub_eq
  refine ⟨hrep, hrw, hwe, hrep.pending_le, fun p v r why hm _ => ?_, fun p p' k k' i hne hk hk' hi hi' => ?_⟩
  · rcases hJ.procs p _ hm with ⟨hwhy, hr, ht⟩ | hret
    · exact .inl ⟨hwhy, hr, killed_of_why h hm (decide_eq_true hwhy), ht⟩
    · exact .inr hret
  · exact (ticket.distinct h).apart p p' i hne (List.mem_filterMap.mpr ⟨k, hk, hi⟩)
      (List.mem_filterMap.mpr ⟨k', hk', hi'⟩)

def start : Data := ⟨fun _ => 0, 0, 0, 0, ⟨[], [], [], 0⟩⟩

theorem sys_init : sys.init (boot 1 1 1 start) := ⟨1, 1, 1, start, ⟨rfl, rfl, rfl, rfl⟩, rfl⟩

/-- An `a` and a `^D` are typed, and the first process reads with `n = 5`. -/
def readTrace : List (CpuId × Act client) :=
  goes 0 9 ++ [(0, .intr (Pc.intrAcq 97))] ++ goes 0 4 ++ [(0, .intr (Pc.intrAcq (ctrl 'D')))] ++
    goes 0 196 ++ [(0, .call (.op (Pc.start 5)))] ++ goes 0 6

/-- The thread is about to return from a call. -/
def returns (v : Locals) (r : Int) (why : Why) : List Pc → Bool
  | [.ret v' r' why'] => decide (v' = v ∧ r' = r ∧ why' = why)
  | _ => false

theorem mem_of_returns {v : Locals} {r : Int} {why : Why} {pcs : List Pc} (h : returns v r why pcs = true) :
    Pc.ret v r why ∈ pcs := by
  unfold returns at h
  split at h
  · obtain ⟨rfl, rfl, rfl⟩ := of_decide_eq_true h
    exact .head _
  · cases h

set_option maxRecDepth 100000 in
/-- The call returns the `a`, and the `^D` is kept. -/
theorem console_line_discipline_kept : ∃ s v, sys.Reachable s ∧ Pc.ret v 1 .eof ∈ clients (s.kst 0) ∧
    v.got = [97] ∧ s.data.line.committed = [ctrl 'D'] ∧ Returned s.data.line v 1 .eof := by
  obtain ⟨s, hs, hp⟩ := Lib.Lts.reachable_of_execs readTrace
    (fun s : State client => returns ⟨5, 0, 0, 4, [97]⟩ 1 .eof (clients (s.kst 0)) &&
      decide (s.data.line.committed = [ctrl 'D'])) sys_init (by decide)
  rw [Bool.and_eq_true] at hp
  have hm := mem_of_returns hp.1
  refine ⟨s, _, hs, hm, rfl, of_decide_eq_true hp.2, ?_⟩
  rcases (console_line_discipline hs).2.2.2.2.1 0 _ _ _ hm (by decide) with ⟨hw, -⟩ | ⟨-, hret⟩
  · cases hw
  · exact hret

end Console

end Xv6Freezer

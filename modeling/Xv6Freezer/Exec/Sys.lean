import Xv6Freezer.Exec.Program
import Xv6Freezer.Vm.ForkFails

/-! # The system call

`sys_exec` fetches the path and the argument strings, each into a page of its own, calls `exec` and frees the
pages. **A call that returns -1 has no effect** (`sysExec_fails_clean`).
-/

namespace Xv6Freezer.Exec

open Lib Vm Fork Function

/-! ## Arguments of system calls (`kernel/syscall.c`) -/

def MAXPATH : Nat := 128

section Sys

variable (L : Layout) (fs : Files) (p : Slot)

def argraw (n : Nat) : X Nat :=
  if n > 5 then throw "argraw"
  else do
    let s ← get
    return s.mem.bytes.load64 ((s.proc p).trapframe + 8 * (regA0 + n))

/-- `fetchaddr(addr, ip)`: `*ip`, unless it fails. -/
def fetchaddr (addr : Nat) : X (Option Nat) := do
  let s ← get
  if addr ≥ (s.proc p).sz ∨ u64 (addr + 8) > (s.proc p).sz then return none
  else
    let (r, bs) ← onMem (copyin (s.proc p).pagetable addr 8)
    if r ≠ 0 then return none else return some (field bs 0 8)

/-- `fetchstr(addr, buf, max)`: its result, and the bytes written to `buf`. -/
def fetchstr (addr max : Nat) : X (Int × List UInt8) := do
  let s ← get
  let (r, buf) ← onMem (copyinstr (s.proc p).pagetable addr max)
  if r < 0 then return (-1, buf) else return ((buf.takeWhile (· ≠ 0)).length, buf)

def argstr (n max : Nat) : X (Int × List UInt8) := do
  let addr ← argraw p n
  fetchstr p addr max

/-! ## `sys_exec` (`kernel/sysfile.c`) -/

/-- The loop over the arguments from `i = argv.length` on: whether to call `exec`, and `argv`. -/
def fetchArgs (uargv : Nat) : Nat → List Nat → X (Bool × List Nat)
  -- `i >= NELEM(argv)`
  | 0, argv => return (false, argv)
  | rounds + 1, argv => do
    match ← fetchaddr p (u64 (uargv + 8 * argv.length)) with
    | none => return (false, argv)
    | some uarg =>
      if uarg = 0 then return (true, argv)
      else
        let page ← onMem kalloc
        if page = 0 then return (false, argv)
        else
          let (r, buf) ← fetchstr p uarg PGSIZE
          onMem (copyBytes page buf)
          if r < 0 then return (false, argv ++ [page]) else fetchArgs uargv rounds (argv ++ [page])

def sysExec : X Int := do
  let uargv ← argraw p 1
  let (r, path) ← argstr p 0 MAXPATH
  if r < 0 then return -1
  else
    match ← fetchArgs p uargv MAXARG [] with
    | (false, argv) =>
      onMem (argv.forM (kfree L))
      return -1
    | (true, argv) =>
      let ret ← exec L fs p (path.takeWhile (· ≠ 0)) argv
      onMem (argv.forM (kfree L))
      return ret

end Sys

variable {L : Layout} {fs : Files} {C : Multiset Nat} {p : Slot} {argv : List Nat}
  {s s' s₁ : ExecState} {m m' : Mem}

/-! ## What is fetched -/

theorem wp_fetchaddr {addr : Nat} {Q : Option Nat → ExecState → Prop}
    (h : IsUserTable (s.proc p).pagetable s.mem) (hQ : ∀ r, Q r s) : wp (fetchaddr p addr) Q s := by
  rw [fetchaddr, wp_bind, wp_get]
  split
  · exact wp_pure.mpr (hQ none)
  · rw [wp_bind, wp_onMem]
    refine wp_iff.mpr ⟨_, _, copyin_eq h addr 8, ?_⟩
    dsimp only
    split
    · exact wp_pure.mpr (hQ none)
    · exact wp_pure.mpr (hQ (some _))

theorem takeWhile_string {str t : List UInt8} (h : ∀ b ∈ str, b ≠ 0) :
    (str ++ 0 :: t).takeWhile (· ≠ 0) = str := by
  rw [List.takeWhile_append_of_pos fun b hb => decide_eq_true (h b hb),
    List.takeWhile_cons_of_neg (by decide), List.append_nil]

theorem wp_fetchstr {addr max : Nat} {Q : Int × List UInt8 → ExecState → Prop}
    (h : IsUserTable (s.proc p).pagetable s.mem)
    (hfail : ∀ buf, buf.length ≤ max → Q (-1, buf) s)
    (hok : ∀ str : List UInt8, str.length < max → (∀ b ∈ str, b ≠ 0) → Q (str.length, str ++ [0]) s) :
    wp (fetchstr p addr max) Q s := by
  rw [fetchstr, wp_bind, wp_get, wp_bind, wp_onMem]
  refine wp_iff.mpr ⟨_, _, copyinstr_eq h addr max, ?_⟩
  dsimp only
  have hle := Lib.length_upTo_le (userByte s.mem (s.proc p).pagetable) addr max
  generalize upTo (userByte s.mem (s.proc p).pagetable) addr max = bs at hle
  unfold strResult
  by_cases hnul : (bs.takeWhile (· ≠ 0)).length < bs.length
  · have hne : ∀ b ∈ bs.takeWhile (· ≠ 0), b ≠ 0 := fun b hb =>
      of_decide_eq_true (List.all_eq_true.mp List.all_takeWhile b hb)
    rw [if_pos hnul, if_neg (Int.lt_irrefl 0), wp_pure, takeWhile_string hne]
    exact hok _ (hnul.trans_le hle) hne
  · rw [if_neg hnul, if_pos (show (-1 : Int) < 0 by decide), wp_pure]
    exact hfail bs hle

/-- The pages `argv` have been taken, and nothing else has happened. -/
structure Fetched (L : Layout) (C : Multiset Nat) (p : Slot) (s : ExecState) (argv : List Nat)
    (s' : ExecState) : Prop where
  state : s' = { s with mem := s'.mem }
  moves : heap.Moves 0 argv s.mem s'.mem
  space : AddressSpace L (argv + C) (s.proc p) s'.mem

theorem Fetched.proc (h : Fetched L C p s argv s') : s'.proc = s.proc := by rw [h.state]

theorem Fetched.isUserTable (h : Fetched L C p s argv s') :
    IsUserTable (s'.proc p).pagetable s'.mem := by
  rw [h.proc]
  exact h.space.table.isWritable.toIsUserTable

theorem coe_snoc (argv : List Nat) (page : Nat) :
    ((argv ++ [page] : List Nat) : Multiset Nat) = {page} + argv := by
  rw [← Multiset.coe_add, Multiset.coe_singleton, add_comm]

theorem Fetched.step {argv' : List Nat} (h : Fetched L C p s argv s₁)
    (hmv : heap.Moves argv argv' s₁.mem m') : Fetched L C p s argv' { s₁ with mem := m' } where
  state := by rw [h.state]
  moves := h.moves.trans hmv
  space := h.space.other (hmv.frame C)

theorem length_string_le {l : List UInt8} {k : Nat} (h : l[k]? = some 0) :
    (l.takeWhile (· ≠ 0)).length ≤ k := by
  by_contra hc
  have hlt : k < (l.takeWhile (· ≠ 0)).length := Nat.lt_of_not_le hc
  have hget : (l.takeWhile (· ≠ 0))[k] = 0 := by
    rw [(List.takeWhile_prefix _).getElem hlt]
    exact (List.getElem?_eq_some_iff.mp h).2
  have hne := List.all_eq_true.mp List.all_takeWhile _ (List.getElem_mem hlt)
  exact of_decide_eq_true hne hget

theorem length_kstr_le {a k : Nat} (hk : k < PGSIZE) (h0 : m.bytes (a + k) = 0) :
    (kstr m a).length ≤ k :=
  length_string_le (by rw [List.getElem?_map, List.getElem?_range hk, Option.map_some, h0])

theorem Fetched.write {page : Nat} {buf : List UInt8} (h : Fetched L C p s (argv ++ [page]) s₁)
    (hbuf : buf.length ≤ PGSIZE) (hm : m' = { s₁.mem with
      bytes := s₁.mem.bytes.fill page buf.length fun i => buf.getD i 0 }) :
    Fetched L C p s (argv ++ [page]) { s₁ with mem := m' } ∧
      ∀ a ∈ argv, SamePage s₁.mem.bytes m'.bytes a := by
  have ho : Owns L ({page} + argv) s₁.mem := by
    rw [← coe_snoc]
    exact h.space.table.owns.right.right.left
  have hp : IsPage page := ho.isPage_mem (by simp)
  have hmv : heap.Moves {page} {page} s₁.mem m' := by
    rw [hm]
    refine moves_bytes fun x hx hne => ?_
    have hne : x ≠ page := fun e => hne (by simp [e])
    exact samePage_copyBytes (o := 0) hp.aligned hx hne (by omega)
  refine ⟨h.step ((hmv.frame argv).congr ?_ ?_), fun a ha => ho.same hmv a (by simpa using ha)⟩
  · rw [coe_snoc]
  · rw [coe_snoc]

theorem nul_copied (b : Bytes) (a : Nat) (str : List UInt8) :
    b.fill a (str ++ [0]).length (fun i => (str ++ [0]).getD i 0) (a + str.length) = 0 := by
  rw [Bytes.fill_of_lt (by rw [List.length_append, List.length_singleton]; omega),
    List.getD_append_right _ _ _ _ (Nat.le_refl _), Nat.sub_self]
  rfl

/-- **The loop over the arguments** takes pages, each with a string if all is well. -/
theorem fetchArgs_spec {uargv rounds : Nat} (h : Fetched L C p s argv s₁)
    (hstr : ∀ a ∈ argv, (kstr s₁.mem a).length < PGSIZE) (hlen : argv.length + rounds = MAXARG) :
    wp (fetchArgs p uargv rounds argv) (fun r s' => Fetched L C p s r.2 s' ∧ (r.1 = true →
      r.2.length < MAXARG ∧ ∀ a ∈ r.2, (kstr s'.mem a).length < PGSIZE)) s₁ := by
  induction rounds generalizing argv s₁ with
  | zero =>
    rw [fetchArgs, wp_pure]
    exact ⟨h, nofun⟩
  | succ rounds ih =>
    rw [fetchArgs, wp_bind]
    refine wp_fetchaddr h.isUserTable fun r => ?_
    cases r with
    | none => exact wp_pure.mpr ⟨h, nofun⟩
    | some uarg =>
      dsimp only
      by_cases huarg : uarg = 0
      · rw [if_pos huarg, wp_pure]
        exact ⟨h, fun _ => ⟨show argv.length < MAXARG by omega, hstr⟩⟩
      rw [if_neg huarg, wp_bind, wp_onMem]
      refine wp_mono (kalloc_spec h.space.table.owns.isPage_free) fun page m1 hA => ?_
      cases hA with
      | none hr _ hmv =>
        rw [if_pos hr, wp_pure]
        exact ⟨h.step ((hmv.frame argv).congr (zero_add _) (zero_add _)), nofun⟩
      | page hr _ hmv =>
        have h1 : Fetched L C p s (argv ++ [page]) { s₁ with mem := m1 } :=
          h.step ((hmv.frame argv).congr (zero_add _) (coe_snoc argv page).symm)
        -- the strings that have been fetched stay
        have hsame : ∀ a ∈ argv, SamePage s₁.mem.bytes m1.bytes a := fun a ha =>
          h.space.table.owns.right.right.left.kept hmv a (by simpa using ha)
        rw [if_neg hr.pos.ne', wp_bind]
        refine wp_fetchstr h1.isUserTable (fun buf hbuf => ?_) fun str hlt hne => ?_
        · dsimp only
          rw [wp_bind, wp_onMem, wp_copyBytes, if_pos (by decide), wp_pure]
          exact ⟨(h1.write hbuf rfl).1, nofun⟩
        · have hbuf : (str ++ [0]).length ≤ PGSIZE := by
            rw [List.length_append, List.length_singleton]
            exact hlt
          obtain ⟨h2, hsame2⟩ := h1.write hbuf rfl
          dsimp only
          rw [wp_bind, wp_onMem, wp_copyBytes, if_neg (by omega)]
          refine ih h2 (fun a ha => ?_) (by
            rw [List.length_append, List.length_singleton]
            omega)
          rcases List.mem_append.mp ha with ha | ha
          · rw [kstr_congr (hsame2 a ha), kstr_congr (hsame a ha)]
            exact hstr a ha
          · obtain rfl := List.mem_singleton.mp ha
            exact Nat.lt_of_le_of_lt (length_kstr_le hlt (nul_copied m1.bytes a str)) hlt

theorem freeArgs_spec (ho : Owns L (argv + C) m) :
    wp (argv.forM (kfree L)) (fun _ m' => heap.Moves argv 0 m m') m := by
  induction argv generalizing m with
  | nil => exact wp_pure.mpr (.refl _ _ _)
  | cons a argv ih =>
    have hcons : ((a :: argv : List Nat) : Multiset Nat) = {a} + argv := by
      rw [Multiset.singleton_add, Multiset.cons_coe]
    rw [hcons, add_assoc] at ho
    show wp (kfree L a >>= fun _ => argv.forM (kfree L)) _ m
    rw [wp_bind, hcons]
    refine wp_mono (kfree_trapframe ho) fun _ m1 hmv => ?_
    have ho1 : Owns L (argv + C) m1 := by
      have := ho.moves (hmv.frame ((argv : Multiset Nat) + C))
      rwa [zero_add] at this
    refine wp_mono (ih ho1) fun _ m2 hmv2 => ?_
    exact ((hmv.frame argv).congr rfl (zero_add _)).trans hmv2

/-- **What a call does**: it fails before it calls `exec`, or it fetches the arguments, calls `exec` and frees
them. -/
inductive SysExeced (L : Layout) (fs : Files) (C : Multiset Nat) (p : Slot) (s : ExecState) (r : Int)
    (s' : ExecState) : Prop where
  | fetch (hr : r = -1) (state : s' = { s with mem := s'.mem }) (moves : heap.Moves 0 0 s.mem s'.mem)
  | exec {path : List UInt8} {argv : List Nat} {s₁ s₂ : ExecState} (fetched : Fetched L C p s argv s₁)
      (called : r = -1 ∧ ExecFailed s₁ s₂ ∨ ∃ ip root v sp low addrs m img,
        ExecDone L fs (argv + C) p path argv s₁ r s₂ ip root v sp low addrs m img)
      (state : s' = { s₂ with mem := s'.mem }) (freed : heap.Moves argv 0 s₂.mem s'.mem)

theorem sysExec_spec (fs : Files) (h : AddressSpace L C (s.proc p) s.mem)
    (hlocked : ∀ ip, s.locked ip = false) :
    wp (sysExec L fs p) (fun r s' => SysExeced L fs C p s r s') s := by
  have harg : ∀ {n : Nat} {Q : Nat → ExecState → Prop}, n ≤ 5 → (∀ x, Q x s) → wp (argraw p n) Q s := by
    intro n Q hn hQ
    rw [argraw, if_neg (by omega), wp_bind, wp_get, wp_pure]
    exact hQ _
  rw [sysExec, wp_bind]
  refine harg (by decide) fun uargv => ?_
  rw [wp_bind, argstr, wp_bind]
  refine harg (by decide) fun addr => ?_
  refine wp_fetchstr h.table.isWritable.toIsUserTable (fun buf _ => ?_) fun path _ _ => ?_
  · dsimp only
    rw [if_pos (by decide), wp_pure]
    exact .fetch rfl rfl (.refl _ _ _)
  dsimp only
  rw [if_neg (by omega), wp_bind]
  have hstart : Fetched L C p s [] s := ⟨rfl, .refl _ _ _, by rwa [Multiset.coe_nil, zero_add]⟩
  refine wp_mono (fetchArgs_spec hstart (fun a ha => by cases ha) rfl) fun r s₁ hr => ?_
  obtain ⟨ok, argv⟩ := r
  obtain ⟨hF, hok⟩ := hr
  have ho : Owns L (argv + C) s₁.mem := hF.space.table.owns.right.right
  cases ok with
  | false =>
    dsimp only
    rw [wp_bind, wp_onMem]
    refine wp_mono (freeArgs_spec ho) fun _ m₂ hmv => wp_pure.mpr (.fetch rfl ?_ (hF.moves.trans hmv))
    rw [hF.state]
  | true =>
    obtain ⟨hargc, hstr⟩ := hok rfl
    have hspace : AddressSpace L (argv + C) (s₁.proc p) s₁.mem := by
      rw [hF.proc]
      exact hF.space
    dsimp only
    rw [wp_bind]
    refine wp_mono (exec_spec fs _ hspace (fun a ha => ⟨Multiset.mem_add.mpr (.inl (by simpa using ha)),
      hstr a ha⟩) hargc (by rw [hF.state]; exact hlocked)) fun r s₂ hE => ?_
    -- whether `exec` fails or not, the pages of the arguments are still there
    have ho₂ : Owns L (argv + C) s₂.mem := by
      rcases hE with ⟨-, hfail⟩ | ⟨ip, root, v, sp, low, addrs, m, img, hdone⟩
      · exact ho.moves ((hfail.moves.frame _).congr (zero_add _) (zero_add _))
      · exact hdone.committed.image.table.owns.right.right
    rw [wp_bind, wp_onMem]
    exact wp_mono (freeArgs_spec ho₂) fun _ m₃ hmv => wp_pure.mpr (.exec hF hE rfl hmv)

/-- **Nothing is left of a call**, but the calls of `begin_op` and `end_op`. -/
structure ExecUndone (C : Multiset Nat) (p : Slot) (s s' : ExecState) : Prop where
  proc : s'.proc = s.proc
  free : (s'.mem.freelist : Multiset Nat) = s.mem.freelist
  /-- The memory, the registers and all other allocated pages are as they were. -/
  kept : ∀ x ∈ (s.proc p).pages s.mem + C, SamePage s.mem.bytes s'.mem.bytes x
  mapping : ∀ va < MAXVA, ∃ x, lookup (s.proc p).pagetable va s.mem = .ok (x, s.mem) ∧
    lookup (s.proc p).pagetable va s'.mem = .ok (x, s'.mem)
  /-- No reference and no lock is left. -/
  inodeRef : s'.inodeRef = s.inodeRef
  locked : s'.locked = s.locked
  /-- `begin_op` and `end_op` have been called equally often. -/
  ops : ∃ n, s'.begun = s.begun + n ∧ s'.ended = s.ended + n

theorem execUndone {n : Nat} (h : AddressSpace L C (s.proc p) s.mem) (hmv : heap.Moves 0 0 s.mem s'.mem)
    (hs : s' = { s with mem := s'.mem, begun := s.begun + n, ended := s.ended + n }) :
    ExecUndone C p s s' := by
  have hkept := h.space.owns.kept hmv
  have hcells := hmv.cells
  rw [add_zero, add_zero] at hcells
  refine ⟨?_, hcells, hkept, fun va hva => h.space.lookup_kept hkept hva, ?_, ?_, n, ?_, ?_⟩ <;> rw [hs]

/-- **A failing `exec` has no effect**, whatever its arguments are and wherever memory runs out. -/
theorem sysExec_fails_clean (h : AddressSpace L C (s.proc p) s.mem)
    (hlocked : ∀ ip, s.locked ip = false) :
    ∃ r s', sysExec L fs p s = .ok (r, s') ∧ (r = -1 → ExecUndone C p s s') := by
  obtain ⟨r, s', hrun, hspec⟩ := wp_iff.mp (sysExec_spec fs h hlocked)
  refine ⟨r, s', hrun, fun hr => ?_⟩
  cases hspec with
  | fetch _ hs hmv => exact execUndone (n := 0) h hmv hs
  | @exec path argv s₁ s₂ hF hcall hs hfree =>
    rcases hcall with ⟨-, hfail⟩ | ⟨ip, root, v, sp, low, addrs, m, img, hdone⟩
    · have hmv : heap.Moves argv argv s₁.mem s₂.mem :=
        (hfail.moves.frame argv).congr (zero_add _) (zero_add _)
      refine execUndone (n := 1) h ((hF.moves.trans hmv).trans hfree) ?_
      rw [hs, hfail.state, hF.state]
      rfl
    · -- a call that succeeds does not return -1
      have hres := hdone.result
      omega

/-- A process has `a1 = 8`; the eighth call of `kalloc` from the set-up of its memory on fails. -/
def callMem : Mem :=
  { failingMem (List.replicate 8 false ++ [true]) with
    bytes := emptyMem.bytes.fill (ramPage 2 + 8 * regA1) 1 fun _ => 8 }

/-- Its memory: the path `a` at address 0, and at address 8 the array of one argument `b`. -/
def callPage : List UInt8 := [97, 0, 0, 0, 0, 0, 0, 0, 24] ++ List.replicate 15 0 ++ [98]

def writeCall (m : Mem) : Mem :=
  { m with bytes := m.bytes.fill (ramPage 7) callPage.length fun i => callPage.getD i 0 }

/-- The result of `sys_exec`, and the number of calls of `begin_op`. -/
def callResult (m : Mem) : Option (Int × Nat) :=
  (sysExec smallLayout helloFiles 0 (execStateOf pageProc (writeCall m))).toOption.map fun x =>
    (x.1, x.2.begun)

/-- The argument has been fetched and `exec` has been called when there is no page for the page table. -/
theorem sysExec_fails_clean_midway : ∃ m s', AddressSpace smallLayout 0 pageProc m ∧
    sysExec smallLayout helloFiles 0 (execStateOf pageProc m) = .ok (-1, s') ∧ s'.begun = 1 ∧
    ExecUndone 0 0 (execStateOf pageProc m) s' := by
  have ho : Owns smallLayout ({ramPage 2} + 0) emptyMem := emptyMem_isTable.owns.right.mono (by simp)
  obtain ⟨m, hrun, h, -⟩ := exists_page callMem 0 (owns_of_freelist ho rfl) (by decide +kernel)
  have hpage : some (PTE2PA (m.pte (ramPage 4) 0)) = some (ramPage 7) :=
    (hrun fun m => some (PTE2PA (m.pte (ramPage 4) 0))).symm.trans (by decide +kernel)
  -- the page of the process is the only one that is written
  have hmv : heap.Moves (mappedPages (m.pte pageProc.pagetable) 0 pageProc.npages)
      (mappedPages (m.pte pageProc.pagetable) 0 pageProc.npages) m (writeCall m) := by
    have hin := mem_mappedPages (f := m.pte (ramPage 4)) (v := 0) (show 0 < 2 by decide)
    rw [Nat.zero_add, Option.some.inj hpage] at hin
    refine moves_bytes fun x hx hne => samePage_copyBytes (o := 0) (by decide) hx (fun e => hne ?_) (by decide)
    rw [e]
    exact hin
  have hspace : AddressSpace smallLayout 0 pageProc (writeCall m) := ⟨(h.table.stored hmv).1, h.size⟩
  obtain ⟨r, s', hcall, hclean⟩ : ∃ r s', sysExec smallLayout helloFiles 0
      (execStateOf pageProc (writeCall m)) = .ok (r, s') ∧ _ := sysExec_fails_clean hspace fun _ => rfl
  have hr : callResult m = some (-1, 1) := (hrun callResult).symm.trans (by decide +kernel)
  rw [callResult, hcall] at hr
  obtain ⟨rfl, hbegun⟩ := Prod.mk.inj (Option.some.inj hr)
  exact ⟨writeCall m, s', hspace, hcall, hbegun, hclean rfl⟩

end Xv6Freezer.Exec

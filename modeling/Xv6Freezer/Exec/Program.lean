import Xv6Freezer.Exec.Spec

/-! # What a program finds

A successful `exec` as the new program sees it: **the file is loaded correctly** (`exec_loads_program`), and
**the arguments are passed correctly** (`exec_passes_arguments`).
-/

namespace Xv6Freezer.Exec

open Lib Vm Fork Function

variable {L : Layout} {fs : Files} {C : Multiset Nat} {p : Slot} {path : List UInt8} {argv : List Nat}
  {s s' : ExecState} {m : Mem} {root tf n a : Nat} {img : Nat → UInt8} {f : File}

/-! ## Segments -/

/-- The address `a` is in the part of a segment that comes from the file. -/
def Proghdr.Covers (ph : Proghdr) (a : Nat) : Prop := ph.vaddr ≤ a ∧ a < ph.vaddr + ph.filesz

theorem foldl_load_of_not_covers (phs : List Proghdr) (img : Nat → UInt8)
    (h : ∀ ph ∈ phs, ¬ph.Covers a) : phs.foldl (Proghdr.load f) img a = img a := by
  induction phs generalizing img with
  | nil => rfl
  | cons ph phs ih =>
    rw [List.foldl_cons, ih _ fun ph' hmem => h ph' (.tail _ hmem)]
    exact if_neg (h ph (.head _))

theorem image_of_not_covers {phs : List Proghdr} (h : ∀ ph ∈ phs, ¬ph.Covers a) : image f phs a = 0 :=
  foldl_load_of_not_covers phs _ h

theorem image_of_covers {before after : List Proghdr} {ph : Proghdr} (hph : ph.Covers a)
    (h : ∀ ph' ∈ after, ¬ph'.Covers a) :
    image f (before ++ ph :: after) a = f.bytes.getD (u32 ph.off + (a - ph.vaddr)) 0 := by
  rw [image, List.foldl_append, List.foldl_cons, foldl_load_of_not_covers after _ h]
  exact if_pos hph

/-! ## Bytes of user memory -/

theorem lookup_image (h : Image L C root tf n m img) (ha : a < n * PGSIZE) :
    ∃ pa flags, lookup root a m = .ok (some (pa, flags), m) ∧ m.bytes (pa + a % PGSIZE) = img a := by
  have hv : a / PGSIZE < n := (Nat.div_lt_iff_lt_mul (by decide)).mpr ha
  have hmax : a < MAXVA := by
    have := h.table.mul_le (Nat.le_refl n)
    omega
  refine ⟨PTE2PA (m.pte root (a / PGSIZE)), PTE_FLAGS (m.pte root (a / PGSIZE)), ?_, ?_⟩
  · rw [lookup_eq h.table.table.shape hmax, decode, if_neg (h.table.leaf _ hv).valid]
  · rw [h.bytes _ hv _ (Nat.mod_lt _ (by decide)), Nat.div_add_mod']

theorem userByte_image (h : Image L C root tf n m img) (ha : a < n * PGSIZE)
    (hu : m.pte root (a / PGSIZE) &&& PTE_U ≠ 0) : userByte m root a = some (img a) := by
  have hv : a / PGSIZE < n := (Nat.div_lt_iff_lt_mul (by decide)).mpr ha
  have haddr : userAddr m root false (a / PGSIZE * PGSIZE + a % PGSIZE) = some _ :=
    h.table.userAddr_eq hv (Nat.mod_lt a (by decide)) hu nofun
  rw [Nat.div_add_mod'] at haddr
  rw [userByte, haddr, Option.map_some, h.bytes _ hv _ (Nat.mod_lt _ (by decide)), Nat.div_add_mod']

/-! ## The program -/

/-- **The file has been loaded** into the memory of a process. -/
structure ProgramLoaded (f : File) (q : Fork.Proc) (m : Mem) (stackbase : Nat) : Prop where
  size : q.sz = stackbase + USERSTACK * PGSIZE
  below : ∀ ph ∈ segments f, ph.vaddr + ph.filesz ≤ stackbase
  /-- Each byte below the stack is that of the last segment over it, or zero. -/
  bytes : ∀ a < stackbase, ∃ pa flags b, lookup q.pagetable a m = .ok (some (pa, flags), m) ∧
    m.bytes (pa + a % PGSIZE) = b ∧
    (∀ before ph after, segments f = before ++ ph :: after → ph.Covers a →
      (∀ ph' ∈ after, ¬ph'.Covers a) → f.bytes[u32 ph.off + (a - ph.vaddr)]? = some b) ∧
    ((∀ ph ∈ segments f, ¬ph.Covers a) → b = 0)

section

variable {r : Int} {ip v sp low : Nat} {addrs : List Nat}
  (h : ExecDone L fs C p path argv s r s' ip root v sp low addrs m img)

include h

theorem ExecDone.proc_eq : s'.proc p = { s.proc p with
    name := safestrcpy (lastElement path) 16, pagetable := root, sz := (v + USERSTACK) * PGSIZE } := by
  rw [h.committed.state]
  exact Function.update_self _ _ _

theorem ExecDone.programLoaded :
    ProgramLoaded (fs.content ip) (s'.proc p) s'.mem (v * PGSIZE) := by
  have hproc := h.proc_eq
  have hpos := h.pos
  refine ⟨?_, fun ph hph => ?_, fun a ha => ?_⟩
  · rw [hproc]
    exact Nat.add_mul _ _ _
  · exact (h.inside ph hph).below.trans (Nat.mul_le_mul_right _ (Nat.sub_le v 1))
  · obtain ⟨pa, flags, hlook, hbyte⟩ := lookup_image h.committed.image (a := a) (by
      rw [Nat.add_mul]
      omega)
    rw [h.program a ha] at hbyte
    rw [hproc]
    refine ⟨pa, flags, _, hlook, hbyte, fun before ph after hsplit hcov hlast => ?_, fun hnone =>
      image_of_not_covers hnone⟩
    have hin := (h.inside ph (by rw [hsplit]; simp)).file
    obtain ⟨hlo, hhi⟩ := hcov
    have hidx : u32 ph.off + (a - ph.vaddr) < (fs.content ip).bytes.length := by omega
    rw [hsplit, image_of_covers ⟨hlo, hhi⟩ hlast, List.getD_eq_getElem?_getD,
      List.getElem?_eq_getElem hidx]
    rfl

end

/-- **`exec` copes with every file** and every allocation failure: it does not panic, and unless it returns
-1, the bytes below the stack are those of the segments. -/
theorem exec_loads_program (h : AddressSpace L C (s.proc p) s.mem)
    (hargs : ∀ a ∈ argv, a ∈ C ∧ (kstr s.mem a).length < PGSIZE) (hargc : argv.length < MAXARG)
    (hlocked : ∀ ip, s.locked ip = false) :
    ∃ r s', exec L fs p path argv s = .ok (r, s') ∧ (r = -1 ∨ ∃ ip stackbase,
      fs.namei path = some ip ∧ ProgramLoaded (fs.content ip) (s'.proc p) s'.mem stackbase) := by
  obtain ⟨r, s', hrun, hspec⟩ := wp_iff.mp (exec_spec fs path h hargs hargc hlocked)
  refine ⟨r, s', hrun, ?_⟩
  rcases hspec with ⟨hr, -⟩ | ⟨ip, root, v, sp, low, addrs, m, img, hdone⟩
  · exact .inl hr
  · exact .inr ⟨ip, v * PGSIZE, hdone.file, hdone.programLoaded⟩

theorem exec_result {argc : Nat} {r : Int} (hnew : ((execImage L fs p path argv s).toOption.map fun y =>
      y.1.map NewImage.argc) = some (some argc))
    (h : exec L fs p path argv s = .ok (r, s')) : r = argc := by
  have hspec : wlp (exec L fs p path argv) (fun r _ => r = argc) s := by
    rw [exec, wlp_bind, wlp_iff]
    intro o s₁ hrun
    rw [hrun] at hnew
    obtain ⟨new, rfl, rfl⟩ := Option.map_eq_some_iff.mp (Option.some.inj hnew)
    dsimp only
    rw [commit]
    iterate 6 rw [wlp_bind]; refine wlp_of_forall fun _ _ => ?_
    exact wlp_pure.mpr rfl
  exact wlp_iff.mp hspec r s' h

/-- A file with one segment of four bytes. -/
def helloFiles : Files where
  namei _ := some 0
  content _ := ⟨[0x7f, 0x45, 0x4c, 0x46] ++ List.replicate 28 0 ++ [64] ++ List.replicate 23 0 ++ [1] ++
    List.replicate 7 0 ++ [1, 0, 0, 0, 5, 0, 0, 0, 120] ++ List.replicate 23 0 ++ [4] ++
    List.replicate 7 0 ++ [8] ++ List.replicate 15 0 ++ [1, 2, 3, 4], by simp [maxFileSize]⟩

def execStateOf (q : Fork.Proc) (m : Mem) : ExecState :=
  { stateOf q m with begun := 0, ended := 0, locked := fun _ => false }

/-- Memory with the argument `hi` in page 3. -/
def argMem : Mem := { emptyMem with bytes := emptyMem.bytes.fill (ramPage 3) 2 fun i => [104, 105].getD i 0 }

/-- `argc`, where `exec` commits to the new image. -/
def helloArgc (m : Mem) : Option (Option Nat) :=
  (execImage smallLayout helloFiles 0 [97] [ramPage 3] (execStateOf pageProc m)).toOption.map fun x =>
    x.1.map NewImage.argc

theorem exists_argument : ∃ m, AddressSpace smallLayout {ramPage 3} pageProc m ∧
    kstr m (ramPage 3) = [104, 105] ∧ (∀ a ∈ [ramPage 3], a ∈ ({ramPage 3} : Multiset Nat) ∧
      (kstr m a).length < PGSIZE) ∧ ∀ {r s'}, exec smallLayout helloFiles 0 [97] [ramPage 3]
      (execStateOf pageProc m) = .ok (r, s') → r = 1 := by
  have ho : Owns smallLayout ({ramPage 2} + {ramPage 3}) emptyMem := by
    rw [add_comm]
    exact emptyMem_isTable.owns.right
  obtain ⟨m, hrun, h, hsame⟩ := exists_page argMem {ramPage 3} (owns_of_freelist ho rfl)
    (by decide +kernel)
  have hstr : kstr argMem (ramPage 3) = [104, 105] := by decide +kernel
  replace hstr := (kstr_congr (hsame _ (Multiset.mem_singleton_self _))).trans hstr
  refine ⟨m, h, hstr, fun a ha => ?_, fun {r s'} hexec => ?_⟩
  · obtain rfl := List.mem_singleton.mp ha
    exact ⟨by simp, by rw [hstr]; decide⟩
  exact exec_result (show helloArgc m = some (some 1) from (hrun helloArgc).symm.trans (by decide +kernel)) hexec

theorem exec_loads_program_hello : ∃ m s' ip stackbase, AddressSpace smallLayout {ramPage 3} pageProc m ∧
    exec smallLayout helloFiles 0 [97] [ramPage 3] (execStateOf pageProc m) = .ok (1, s') ∧
    helloFiles.namei [97] = some ip ∧
    ProgramLoaded (helloFiles.content ip) (s'.proc 0) s'.mem stackbase := by
  obtain ⟨m, h, -, hargs, hone⟩ := exists_argument
  obtain ⟨r, s', hrun, hspec⟩ : ∃ r s', exec smallLayout helloFiles 0 [97] [ramPage 3]
      (execStateOf pageProc m) = .ok (r, s') ∧ _ := exec_loads_program h hargs (by decide) fun _ => rfl
  obtain rfl := hone hrun
  rcases hspec with hr | ⟨ip, stackbase, hip, hload⟩
  · cases hr
  · exact ⟨m, s', ip, stackbase, h, hrun, hip, hload⟩

/-- **The arguments are on the stack**: the array of addresses at `sp`, and the strings. -/
structure ArgumentsPassed (strs : List (List UInt8)) (q : Fork.Proc) (m : Mem) (stackbase sp : Nat)
    (addrs : List Nat) : Prop where
  size : q.sz = stackbase + USERSTACK * PGSIZE
  reg_a1 : m.bytes.load64 (q.trapframe + 8 * regA1) = sp
  reg_sp : m.bytes.load64 (q.trapframe + 8 * regSp) = sp
  aligned : sp % 16 = 0
  length : addrs.length = strs.length
  /-- The words at `sp` are the addresses, followed by 0. -/
  words : ∀ (i : Nat) a, (addrs ++ [0])[i]? = some a → a < 2 ^ 64 ∧
    ∀ j < 8, userByte m q.pagetable (sp + 8 * i + j) = some (UInt8.ofNat (a / 256 ^ j))
  /-- At each address is a string with its NUL. -/
  strings : ∀ (i : Nat) str a, strs[i]? = some str → addrs[i]? = some a → a % 16 = 0 ∧
    ∀ j < str.length + 1, userByte m q.pagetable (a + j) = (str ++ [0])[j]?
  /-- The array starts on the stack and ends below the strings, which are on it. -/
  inside : stackbase ≤ sp ∧ sp + (addrs.length + 1) * 8 ≤ q.sz ∧ ∀ (i : Nat) str a, strs[i]? = some str →
    addrs[i]? = some a → sp + (addrs.length + 1) * 8 ≤ a ∧ a + (str.length + 1) ≤ q.sz
  disjoint : ∀ (i j : Nat) str a b, i < j → strs[j]? = some str → addrs[j]? = some b → addrs[i]? = some a →
    b + (str.length + 1) ≤ a
  /-- The page below the stack is not for the user. -/
  guard : ∀ va < stackbase, stackbase ≤ va + PGSIZE → userByte m q.pagetable va = none

theorem ExecDone.argumentsPassed {r : Int} {ip v sp low : Nat} {addrs : List Nat}
    (h : ExecDone L fs C p path argv s r s' ip root v sp low addrs m img) :
    ArgumentsPassed (argv.map (kstr s.mem)) (s'.proc p) s'.mem (v * PGSIZE) sp addrs := by
  have hproc := h.proc_eq
  have hpos := h.pos
  -- the bytes of the stack
  have hbyte : ∀ a, v * PGSIZE ≤ a → a < (v + USERSTACK) * PGSIZE → userByte s'.mem root a = some (img a) := by
    intro a hlo hhi
    refine userByte_image h.committed.image hhi ?_
    rw [h.committed.pte]
    exact h.user _ ((Nat.le_div_iff_mul_le (by decide)).mpr hlo)
      ((Nat.div_lt_iff_lt_mul (by decide)).mpr hhi)
  have hlow := h.stacked.le
  have hvle := h.vector.le
  have hvbase := h.vector.base_le
  refine ⟨?_, ?_, ?_, h.vector.aligned, h.stacked.length, fun i a ha => ⟨(h.vector.words i a ha).1,
    fun j hj => ?_⟩, fun i str a hstr ha => ?_, ⟨h.vector.base_le, ?_, fun i str a hstr ha => ?_⟩,
    fun i j str a b hij hs hb ha => h.stacked.disjoint hij hs hb ha, fun va hva hg => ?_⟩
  · rw [hproc]
    exact Nat.add_mul _ _ _
  · rw [hproc]
    exact h.committed.a1
  · rw [hproc]
    exact h.committed.sp
  · have hi : i < addrs.length + 1 := by
      by_contra hc
      rw [List.getElem?_eq_none (by rw [List.length_append, List.length_singleton]; omega)] at ha
      cases ha
    rw [hproc, ← (h.vector.words i a ha).2 j hj]
    exact hbyte _ (by omega) (by omega)
  · obtain ⟨h1, h2, h3, h4, h5⟩ := h.stacked.get hstr ha
    refine ⟨h4, fun j hj => ?_⟩
    have hlen : j < (str ++ [0]).length := by
      rw [List.length_append, List.length_singleton]
      exact hj
    have hget : (str ++ [0]).getD j 0 = (str ++ [0])[j] := by
      rw [List.getD_eq_getElem?_getD, List.getElem?_eq_getElem hlen]
      rfl
    rw [hproc, List.getElem?_eq_getElem hlen, ← hget, ← h5 j hj]
    exact hbyte _ (by omega) (by omega)
  · rw [hproc]
    exact hvle.trans hlow
  · obtain ⟨h1, h2, h3, -, -⟩ := h.stacked.get hstr ha
    rw [hproc]
    exact ⟨hvle.trans h1, h3⟩
  · rw [hproc]
    have hdiv : va / PGSIZE = v - 1 := by
      unfold PGSIZE at *
      omega
    have hnone : userAddr s'.mem root false va = none := by
      rw [userAddr, if_neg]
      rintro ⟨-, -, hu, -⟩
      rw [hdiv, h.committed.pte] at hu
      exact hu h.guard
    rw [userByte, hnone]
    rfl

/-- **`exec` passes the arguments**: unless it returns -1, it returns their number, and the strings and their
addresses are on the stack. -/
theorem exec_passes_arguments (h : AddressSpace L C (s.proc p) s.mem)
    (hargs : ∀ a ∈ argv, a ∈ C ∧ (kstr s.mem a).length < PGSIZE) (hargc : argv.length < MAXARG)
    (hlocked : ∀ ip, s.locked ip = false) :
    ∃ r s', exec L fs p path argv s = .ok (r, s') ∧ (r = -1 ∨ r = argv.length ∧ ∃ stackbase sp addrs,
      ArgumentsPassed (argv.map (kstr s.mem)) (s'.proc p) s'.mem stackbase sp addrs) := by
  obtain ⟨r, s', hrun, hspec⟩ := wp_iff.mp (exec_spec fs path h hargs hargc hlocked)
  refine ⟨r, s', hrun, ?_⟩
  rcases hspec with ⟨hr, -⟩ | ⟨ip, root, v, sp, low, addrs, m, img, hdone⟩
  · exact .inl hr
  · exact .inr ⟨hdone.result, v * PGSIZE, sp, addrs, hdone.argumentsPassed⟩

theorem exec_passes_arguments_one : ∃ m s' stackbase sp addrs,
    AddressSpace smallLayout {ramPage 3} pageProc m ∧
    exec smallLayout helloFiles 0 [97] [ramPage 3] (execStateOf pageProc m) = .ok (1, s') ∧
    ArgumentsPassed [[104, 105]] (s'.proc 0) s'.mem stackbase sp addrs := by
  obtain ⟨m, h, hstr, hargs, hone⟩ := exists_argument
  obtain ⟨r, s', hrun, hspec⟩ : ∃ r s', exec smallLayout helloFiles 0 [97] [ramPage 3]
      (execStateOf pageProc m) = .ok (r, s') ∧ _ := exec_passes_arguments h hargs (by decide) fun _ => rfl
  obtain rfl := hone hrun
  rcases hspec with hr | ⟨-, stackbase, sp, addrs, hpass⟩
  · cases hr
  · have hpass : ArgumentsPassed [kstr m (ramPage 3)] _ _ _ _ _ := hpass
    rw [hstr] at hpass
    exact ⟨m, s', stackbase, sp, addrs, h, hrun, hpass⟩

end Xv6Freezer.Exec

import Xv6Freezer.Exec.Basic

/-! # Loading a program

The loop over the program headers, whatever the file contains: a byte is the byte of the file that the last
segment over its address has there (`image`), and after a failure `proc_freepagetable` can free the table
(`loadLoop_spec`).
-/

namespace Xv6Freezer.Exec

open Lib Vm

variable {L : Layout} {C : Multiset Nat} {f : File} {m0 m m' : Mem} {root tf sz n v : Nat}
  {img : Nat → UInt8}

/-! ## Segments -/

/-- The loadable headers among `n` headers, the first of which is at `off`. -/
def headers (f : File) : Nat → Int → List Proghdr
  | 0, _ => []
  | n + 1, off =>
    let ph := Proghdr.ofBytes (readi f (u32 (ofInt off)) proghdrSize)
    if ph.type ≠ ELF_PROG_LOAD then headers f n (int32 (off + proghdrSize))
    else ph :: headers f n (int32 (off + proghdrSize))

/-- The bytes of a segment, over an image. -/
def Proghdr.load (f : File) (img : Nat → UInt8) (ph : Proghdr) : Nat → UInt8 :=
  overlay img ph.vaddr ph.filesz fun i => f.bytes.getD (u32 ph.off + i) 0

def image (f : File) (phs : List Proghdr) : Nat → UInt8 := phs.foldl (Proghdr.load f) fun _ => 0

/-! ## The table during the loop -/

/-- **A program is being loaded**: `root` has user memory of size `sz` with the bytes `img`, accessible for
the user, on pages that were free in `m0`. -/
structure Loading (L : Layout) (C : Multiset Nat) (root tf : Nat) (m0 : Mem) (sz : Nat) (m : Mem)
    (img : Nat → UInt8) : Prop where
  image : Image L C root tf (PGROUNDUP sz / PGSIZE) m img
  user : ∀ v < PGROUNDUP sz / PGSIZE, m.pte root v &&& PTE_U ≠ 0
  moves : heap.Moves 0 (m.space root (PGROUNDUP sz / PGSIZE)) m0 m
  size : sz ≤ MAXVA
  above : ∀ a, PGROUNDUP sz ≤ a → img a = 0

theorem Loading.start (ht : UserTable L C root tf 0 m)
    (hmv : heap.Moves 0 (tables m.bytes 2 root) m0 m) :
    Loading L C root tf m0 0 m fun _ => 0 := by
  have h0 : PGROUNDUP 0 / PGSIZE = 0 := by decide
  refine ⟨⟨by rwa [h0], fun v hv => ?_⟩, fun v hv => ?_, ?_, Nat.zero_le _, fun _ _ => rfl⟩
  · rw [h0] at hv
    exact absurd hv (Nat.not_lt_zero v)
  · rw [h0] at hv
    exact absurd hv (Nat.not_lt_zero v)
  · rw [h0]
    exact hmv.congr rfl (add_zero _).symm

theorem Loading.start_image (f : File) (ht : UserTable L C root tf 0 m)
    (hmv : heap.Moves 0 (tables m.bytes 2 root) m0 m) :
    Loading L C root tf m0 0 m (Exec.image f []) := Loading.start ht hmv

theorem Loading.lt (h : Loading L C root tf m0 sz m img) : PGROUNDUP sz ≤ PHYSTOP := by
  have hle := h.image.table.le_phystop
  rw [← roundUp_mul sz]
  unfold PHYSTOP KERNBASE PGSIZE at *
  omega

theorem Loading.congr {img' : Nat → UInt8} (h : Loading L C root tf m0 sz m img)
    (heq : ∀ a, img' a = img a) : Loading L C root tf m0 sz m img' := by
  rwa [show img' = img from funext heq]

/-- **A store of at most a page** at the start of a page. -/
theorem Loading.write {bs : List UInt8} (h : Loading L C root tf m0 sz m img)
    (hv : v < PGROUNDUP sz / PGSIZE) (hlen : bs.length ≤ PGSIZE)
    (hm' : m' = { m with
      bytes := m.bytes.fill (PTE2PA (m.pte root v)) bs.length fun i => bs.getD i 0 }) :
    Loading L C root tf m0 sz m' (overlay img (v * PGSIZE) bs.length fun i => bs.getD i 0) := by
  have hm'' : m' = { m with
      bytes := m.bytes.fill (PTE2PA (m.pte root v) + 0) bs.length fun i => bs.getD i 0 } := by
    rwa [Nat.add_zero]
  obtain ⟨hI, hmv, hpte⟩ := h.image.write hv (by rwa [Nat.zero_add]) hm''
  rw [Nat.add_zero] at hI
  refine ⟨hI, fun w hw => ?_, h.moves.trans hmv, h.size, fun a ha => ?_⟩
  · rw [hpte]
    exact h.user w hw
  · have hmul := roundUp_mul sz
    rw [overlay, if_neg, h.above a ha]
    unfold PGSIZE at *
    omega

/-! ## `loadseg` -/

theorem length_readi_le (off n : Nat) : (readi f off n).length ≤ n := by
  unfold readi
  split
  · exact Nat.zero_le _
  · exact List.length_take_le _ _

theorem readi_complete {off : Nat} (hn : 0 < n) (h : (readi f off n).length = n) :
    off + n ≤ f.bytes.length ∧ ∀ i < n, (readi f off n).getD i 0 = f.bytes.getD (off + i) 0 := by
  unfold readi at h ⊢
  split at h
  · exact absurd h hn.ne
  · rename_i hc
    rw [List.length_take, List.length_drop] at h
    refine ⟨by omega, fun i hi => ?_⟩
    rw [if_neg hc, List.getD_eq_getElem?_getD, List.getD_eq_getElem?_getD, List.getElem?_take_of_lt hi,
      List.getElem?_drop]

theorem overlay_next (img g : Nat → UInt8) {va fsz j k : Nat} {h : Nat → UInt8}
    (hj : j * PGSIZE < fsz) (hk : k = if fsz - j * PGSIZE < PGSIZE then fsz - j * PGSIZE else PGSIZE)
    (hh : ∀ i < k, h i = g (j * PGSIZE + i)) (a : Nat) :
    overlay img va (min ((j + 1) * PGSIZE) fsz) g a =
      overlay (overlay img va (min (j * PGSIZE) fsz) g) (va + j * PGSIZE) k h a := by
  have hk' : min ((j + 1) * PGSIZE) fsz = j * PGSIZE + k := by
    rw [hk, Nat.succ_mul]
    split <;> omega
  rw [Nat.min_eq_left hj.le, hk']
  unfold overlay
  by_cases h1 : va + j * PGSIZE ≤ a ∧ a < va + j * PGSIZE + k
  · rw [if_pos h1, if_pos (by omega), hh _ (by omega)]
    congr 1
    omega
  · rw [if_neg h1]
    by_cases h2 : va ≤ a ∧ a < va + j * PGSIZE
    · rw [if_pos h2, if_pos (by omega)]
    · rw [if_neg h2, if_neg (by omega)]

inductive Loadseged (L : Layout) (C : Multiset Nat) (f : File) (root tf : Nat) (m0 : Mem) (sz : Nat)
    (img : Nat → UInt8) (va offset fsz : Nat) (x : Int) (m : Mem) : Prop where
  | loaded (hx : x = 0) (inside : fsz = 0 ∨ offset + fsz ≤ f.bytes.length)
      (loading : Loading L C root tf m0 sz m
        (overlay img va fsz fun i => f.bytes.getD (offset + i) 0))
  | failed (hx : x = -1) (img' : Nat → UInt8) (loading : Loading L C root tf m0 sz m img')

theorem loadsegLoop_spec {w offset fsz : Nat} (hoff : offset < 2 ^ 32) (hfsz : fsz < 2 ^ 32)
    (hin : w * PGSIZE + fsz ≤ sz) (fuel : Nat) :
    ∀ {j m}, fuel + j = f.bytes.length / PGSIZE + 2 →
      (j = 0 ∨ (j - 1) * PGSIZE < fsz ∧ offset + min (j * PGSIZE) fsz ≤ f.bytes.length) →
      Loading L C root tf m0 sz m
        (overlay img (w * PGSIZE) (min (j * PGSIZE) fsz) fun i => f.bytes.getD (offset + i) 0) →
      wp (loadsegLoop f root (w * PGSIZE) offset fsz fuel (j * PGSIZE))
        (fun x m' => Loadseged L C f root tf m0 sz img (w * PGSIZE) offset fsz x m') m := by
  have hmax := f.le
  unfold maxFileSize at hmax
  induction fuel with
  | zero =>
    intro j m hfuel hj _
    exfalso
    unfold PGSIZE at *
    rcases hj with rfl | ⟨hlt, hle⟩
    · omega
    · omega
  | succ fuel ih =>
    intro j m hfuel hj h
    rw [loadsegLoop]
    by_cases hlt : j * PGSIZE < fsz
    · have hsz := h.size
      have hround := roundUp_bounds hsz
      have hmul := roundUp_mul sz
      have hv : w + j < PGROUNDUP sz / PGSIZE := by
        unfold PGSIZE at *
        omega
      have hva : u64 (w * PGSIZE + j * PGSIZE) = (w + j) * PGSIZE := by
        rw [Nat.add_mul, u64_of_lt]
        unfold MAXVA at hsz
        omega
      -- what has been read is inside the file, so that no sum wraps around
      have hjle : j * PGSIZE ≤ f.bytes.length ∧ offset + j * PGSIZE < 2 ^ 32 := by
        rcases hj with rfl | ⟨-, hle⟩
        · omega
        · omega
      have hi : u32 (offset + j * PGSIZE) = offset + j * PGSIZE := Nat.mod_eq_of_lt hjle.2
      rw [if_pos hlt, wp_bind, hva]
      refine h.image.table.walkaddr hv (h.user _ hv) fun hpa => ?_
      rw [if_neg hpa, wp_bind, wp_copyBytes, hi]
      obtain ⟨k, hk⟩ : ∃ k, k = if fsz - j * PGSIZE < PGSIZE then fsz - j * PGSIZE else PGSIZE :=
        ⟨_, rfl⟩
      rw [← hk]
      have hkpos : 0 < k := by
        rw [hk]
        split
        · omega
        · decide
      have hkle : k ≤ PGSIZE := by
        rw [hk]
        split <;> omega
      have hlen := length_readi_le (f := f) (offset + j * PGSIZE) k
      have hnext := h.write hv (hlen.trans hkle) rfl
      by_cases hfull : (readi f (offset + j * PGSIZE) k).length = k
      · obtain ⟨hin', hbytes⟩ := readi_complete hkpos hfull
        have hadd : u32 (j * PGSIZE + PGSIZE) = (j + 1) * PGSIZE := by
          have hPG : PGSIZE < 2 ^ 13 := by decide
          rw [Nat.succ_mul]
          exact Nat.mod_eq_of_lt (by omega)
        have hdone : j * PGSIZE + k = min ((j + 1) * PGSIZE) fsz := by
          rw [hk, Nat.succ_mul]
          split <;> omega
        rw [if_neg (not_not.mpr hfull), hadd]
        refine ih (j := j + 1) (by omega) (.inr ⟨by rwa [Nat.add_sub_cancel], by omega⟩) ?_
        refine hnext.congr fun a => ?_
        rw [hfull, Nat.add_mul w j PGSIZE]
        exact overlay_next img (fun i => f.bytes.getD (offset + i) 0)
          (h := fun i => (readi f (offset + j * PGSIZE) k).getD i 0) hlt hk
          (fun i hi => by rw [hbytes i hi, Nat.add_assoc]) a
      · rw [if_pos hfull, wp_pure]
        exact .failed rfl _ hnext
    · rw [if_neg hlt, wp_pure]
      rw [Nat.min_eq_right (Nat.le_of_not_lt hlt)] at h
      refine .loaded rfl ?_ h
      rcases hj with rfl | ⟨-, hle⟩
      · exact .inl (by omega)
      · rw [Nat.min_eq_right (Nat.le_of_not_lt hlt)] at hle
        exact .inr hle

theorem loadseg_spec {va offset fsz : Nat} (h : Loading L C root tf m0 sz m img)
    (hva : va % PGSIZE = 0) (hoff : offset < 2 ^ 32) (hfsz : fsz < 2 ^ 32) (hin : va + fsz ≤ sz) :
    wp (loadseg f root va offset fsz)
      (fun x m' => Loadseged L C f root tf m0 sz img va offset fsz x m') m := by
  obtain ⟨w, rfl⟩ : ∃ w, va = w * PGSIZE := ⟨va / PGSIZE, (Nat.div_mul_cancel
    (Nat.dvd_of_mod_eq_zero hva)).symm⟩
  have hloop := loadsegLoop_spec (f := f) (j := 0) (m := m) hoff hfsz hin (f.bytes.length / PGSIZE + 2)
    rfl (.inl rfl) (h.congr fun a => by
      rw [overlay, if_neg]
      omega)
  rwa [Nat.zero_mul] at hloop

/-! ## The loop over the headers -/

theorem Loading.popped (h : Loading L C root tf m0 sz m img)
    (hP : Popped L C root tf (PGROUNDUP sz / PGSIZE) (PGROUNDUP sz / PGSIZE) m m') :
    Loading L C root tf m0 sz m' img := by
  have hmapped : mappedPages (m'.pte root) 0 (PGROUNDUP sz / PGSIZE) =
      mappedPages (m.pte root) 0 (PGROUNDUP sz / PGSIZE) :=
    mappedPages_congr fun i hi => by rw [Nat.zero_add, hP.pte i hi]
  have hmv := hP.moves
  rw [Nat.sub_self, show mappedPages (m.pte root) (PGROUNDUP sz / PGSIZE) 0 = 0 from rfl,
    add_zero] at hmv
  refine ⟨⟨hP.table, fun v hv j hj => ?_⟩, fun v hv => ?_, h.moves.trans ?_, h.size, h.above⟩
  · rw [hP.pte v hv, hP.same h.image.table (Nat.le_refl _) _ (user_mem _ _ _ hv) j hj]
    exact h.image.bytes v hv j hj
  · rw [hP.pte v hv]
    exact h.user v hv
  · rw [Mem.space, Mem.space, hmapped]
    exact hmv.frame _

theorem Loading.grown {newsz perm : Nat} (h : Loading L C root tf m0 sz m img) (hle : sz ≤ newsz)
    (hmax : newsz ≤ MAXVA) (hperm : (perm ||| PTE_V) &&& PTE_U ≠ 0)
    (hE : Extended L C root tf perm (PGROUNDUP sz / PGSIZE) m (PGROUNDUP newsz / PGSIZE) m') :
    Loading L C root tf m0 newsz m' img := by
  obtain ⟨hI, hmv⟩ := h.image.grow hE fun a ha => h.above a (by rwa [roundUp_mul] at ha)
  refine ⟨hI, fun v hv => ?_, h.moves.trans hmv, hmax, fun a ha =>
    h.above a ((roundUp_mono hle hmax).trans ha)⟩
  rcases Nat.lt_or_ge v (PGROUNDUP sz / PGSIZE) with hv' | hv'
  · rw [hE.pte v hv']
    exact h.user v hv'
  · rw [and_flags (by decide), hE.flags v hv' hv]
    exact hperm

theorem flags2perm_spec (flags : Nat) : PTE_R ||| PTE_U ||| flags2perm flags < 1024 ∧
    (PTE_R ||| PTE_U ||| flags2perm flags ||| PTE_V) &&& PTE_U ≠ 0 := by
  unfold flags2perm
  split <;> split <;> decide

/-- A segment that has been loaded comes from the file, and is in user memory. -/
structure Inside (f : File) (sz : Nat) (ph : Proghdr) : Prop where
  file : ph.filesz = 0 ∨ u32 ph.off + ph.filesz ≤ f.bytes.length
  below : ph.vaddr + ph.filesz ≤ sz

inductive Loaded (L : Layout) (C : Multiset Nat) (f : File) (root tf : Nat) (m0 : Mem)
    (phs : List Proghdr) : Bool × Nat → Mem → Prop where
  | ok {sz : Nat} {m : Mem} (loading : Loading L C root tf m0 sz m (image f phs))
      (inside : ∀ ph ∈ phs, Inside f sz ph) : Loaded L C f root tf m0 phs (true, sz) m
  | failed {sz : Nat} {m : Mem} (img : Nat → UInt8) (loading : Loading L C root tf m0 sz m img) :
      Loaded L C f root tf m0 phs (false, sz) m

theorem Proghdr.lt (bs : List UInt8) :
    (Proghdr.ofBytes bs).vaddr < 2 ^ 64 ∧ (Proghdr.ofBytes bs).memsz < 2 ^ 64 :=
  ⟨(Bytes.loadLE_lt _ _ _).trans_eq (by norm_num), (Bytes.loadLE_lt _ _ _).trans_eq (by norm_num)⟩

theorem uvmalloc_segment {newsz flags : Nat} (h : Loading L C root tf m0 sz m img) :
    wp (uvmalloc L root sz newsz (flags2perm flags)) (fun x m' =>
      x ≠ 0 ∧ x = max sz newsz ∧ Loading L C root tf m0 x m' img ∨
        x = 0 ∧ Loading L C root tf m0 sz m' img) m := by
  obtain ⟨hperm, huser⟩ := flags2perm_spec flags
  rcases Nat.lt_or_ge newsz sz with hlt | hle
  · rw [uvmalloc, if_pos hlt, wp_pure]
    exact .inl ⟨by omega, by omega, h⟩
  · refine wp_mono (uvmalloc_spec h.image.table h.size hle hperm) fun x m' hx => ?_
    cases hx with
    | grown hx hmax hE =>
      have hG := h.grown hle hmax huser hE
      rw [← hx] at hG
      by_cases h0 : x = 0
      · -- a segment without memory at address 0 looks like a failure
        obtain rfl : sz = x := by omega
        exact .inr ⟨h0, hG⟩
      · exact .inl ⟨h0, by omega, hG⟩
    | failed hx hP => exact .inr ⟨hx, h.popped hP⟩

theorem loadLoop_spec (n : Nat) : ∀ (off : Int) {sz : Nat} {m : Mem} {phs : List Proghdr},
    Loading L C root tf m0 sz m (image f phs) → (∀ ph ∈ phs, Inside f sz ph) →
    wp (loadLoop L f root n off sz)
      (fun r m' => Loaded L C f root tf m0 (phs ++ headers f n off) r m') m := by
  induction n with
  | zero =>
    intro off sz m phs h hin
    rw [loadLoop, wp_pure, headers, List.append_nil]
    exact .ok h hin
  | succ n ih =>
    intro off sz m phs h hin
    rw [loadLoop, headers]
    obtain ⟨bs, hbs⟩ : ∃ bs, readi f (u32 (ofInt off)) proghdrSize = bs := ⟨_, rfl⟩
    rw [hbs]
    obtain ⟨hvaddr, hmemsz⟩ := Proghdr.lt bs
    generalize Proghdr.ofBytes bs = ph at hvaddr hmemsz
    by_cases hlen : bs.length ≠ proghdrSize
    · rw [if_pos hlen, wp_pure]
      exact .failed _ h
    rw [if_neg hlen]
    by_cases htype : ph.type ≠ ELF_PROG_LOAD
    · rw [if_pos htype, if_pos htype]
      exact ih _ h hin
    rw [if_neg htype, if_neg htype]
    by_cases hmem : ph.memsz < ph.filesz
    · rw [if_pos hmem, wp_pure]
      exact .failed _ h
    rw [if_neg hmem]
    by_cases hwrap : u64 (ph.vaddr + ph.memsz) < ph.vaddr
    · rw [if_pos hwrap, wp_pure]
      exact .failed _ h
    rw [if_neg hwrap]
    by_cases hal : ph.vaddr % PGSIZE ≠ 0
    · rw [if_pos hal, wp_pure]
      exact .failed _ h
    have hsum : u64 (ph.vaddr + ph.memsz) = ph.vaddr + ph.memsz := by
      unfold u64 at *
      omega
    rw [if_neg hal, wp_bind, hsum]
    refine wp_mono (uvmalloc_segment h) fun sz1 m1 h₁ => ?_
    rcases h₁ with ⟨hne, hsz1, h₁⟩ | ⟨h0, h₁⟩
    · -- the segment fits, and its size is less than `2 ^ 32`
      have hfit : ph.vaddr + ph.filesz ≤ sz1 := by omega
      have hsmall : sz1 < 2 ^ 32 := by
        have h1 := (roundUp_bounds h₁.size).1
        have h2 := h₁.lt
        unfold PHYSTOP KERNBASE at h2
        omega
      have hfsz : u32 ph.filesz = ph.filesz := Nat.mod_eq_of_lt (by omega)
      have hoff : u32 ph.off < 2 ^ 32 := Nat.mod_lt _ (by decide)
      rw [if_neg hne, wp_bind, hfsz]
      refine wp_mono (loadseg_spec h₁ (not_not.mp hal) hoff (by omega) hfit)
        fun x m2 h₂ => ?_
      cases h₂ with
      | loaded hx hinside h₂ =>
        rw [if_neg (by omega)]
        have himg : image f (phs ++ [ph]) = overlay (image f phs) ph.vaddr ph.filesz
            fun i => f.bytes.getD (u32 ph.off + i) 0 := by
          rw [image, List.foldl_append]
          rfl
        rw [← himg] at h₂
        have hin' : ∀ ph' ∈ phs ++ [ph], Inside f sz1 ph' := by
          intro ph' hmem'
          rcases List.mem_append.mp hmem' with hmem' | hmem'
          · exact ⟨(hin ph' hmem').file, (hin ph' hmem').below.trans (by omega)⟩
          · obtain rfl := List.mem_singleton.mp hmem'
            exact ⟨hinside, hfit⟩
        have hrest := ih (int32 (off + proghdrSize)) h₂ hin'
        rwa [List.append_assoc, List.singleton_append] at hrest
      | failed hx img' h₂ =>
        rw [if_pos (by omega), wp_pure]
        exact .failed _ h₂
    · rw [if_pos h0, wp_pure]
      exact .failed _ h₁

end Xv6Freezer.Exec

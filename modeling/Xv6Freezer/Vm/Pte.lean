import Xv6Freezer.Vm.Basic

/-! # Page-table entries

The arithmetic of `PA2PTE`, `PTE2PA`, `PTE_FLAGS` and `PX`: an entry gives back the address of a page and the
flag bits that it is made of, and the index of a virtual address at a level is a digit of its page number in
base 512.
-/

namespace Xv6Freezer.Vm

variable {pa f w b x y level va : Nat}

/-! ## Machine words -/

theorem u64_of_lt (h : x < 2 ^ 64) : u64 x = x := Nat.mod_eq_of_lt h

theorem u64_roundUp (hx : x ≤ MAXVA) : u64 (x + PGSIZE - 1) = x + PGSIZE - 1 := by
  refine u64_of_lt ?_
  unfold MAXVA at hx
  unfold PGSIZE
  omega

theorem sub64_of_le (hx : x < 2 ^ 64) (h : y ≤ x) : sub64 x y = x - y := by
  unfold sub64 u64
  omega

theorem ofInt_int32 (h : x < 2 ^ 31) : ofInt (int32 (x : Int)) = x := by
  unfold ofInt int32
  rw [Int.bmod_eq_of_le (by omega) (by omega)]
  omega

/-! ## Entries -/

/-- Addresses of pages that the kernel can hand out: aligned, not 0, below the end of RAM. -/
structure IsPage (pa : Nat) : Prop where
  aligned : pa % PGSIZE = 0
  pos : 0 < pa
  lt : pa < PHYSTOP

theorem Layout.trampoline_isPage (L : Layout) (h : L.kernelEnd ≤ PHYSTOP) :
    IsPage L.trampoline where
  aligned := L.trampoline_aligned
  pos := lt_of_lt_of_le (by decide) L.base_le
  lt := by have := L.trampoline_lt; unfold PGSIZE at this; omega

/-- The entry for the page `pa` with the flags `f`. -/
def mkPte (pa f : Nat) : Nat := PA2PTE pa ||| f

/-- Addresses that fit into an entry: page-aligned, of 56 bits. -/
structure FitsPte (pa : Nat) : Prop where
  aligned : pa % PGSIZE = 0
  lt : pa < 2 ^ 56

theorem IsPage.fits (h : IsPage pa) : FitsPte pa :=
  ⟨h.aligned, h.lt.trans (by unfold PHYSTOP KERNBASE; omega)⟩

theorem FitsPte.mkPte_eq (h : FitsPte pa) (hf : f < 1024) :
    mkPte pa f = 1024 * (pa / 4096) + f := by
  have hlt := h.lt
  have hq : PA2PTE pa = 2 ^ 10 * (pa / 4096) := by
    unfold PA2PTE
    rw [Nat.shiftLeft_eq, Nat.shiftRight_eq_div_pow, u64_of_lt]
    · rw [Nat.mul_comm]
    · omega
  rw [mkPte, hq, ← Nat.two_pow_add_eq_or_of_lt (by simpa using hf)]

theorem FitsPte.mkPte_lt (h : FitsPte pa) (hf : f < 1024) : mkPte pa f < 2 ^ 64 := by
  have hlt := h.lt
  rw [h.mkPte_eq hf]
  omega

theorem mkPte_lt (h : IsPage pa) (hf : f < 1024) : mkPte pa f < 2 ^ 64 := h.fits.mkPte_lt hf

theorem PTE_FLAGS_eq (w : Nat) : PTE_FLAGS w = w % 1024 := Nat.and_two_pow_sub_one_eq_mod w 10

theorem PTE_FLAGS_lt (w : Nat) : PTE_FLAGS w < 1024 := by
  rw [PTE_FLAGS_eq]
  exact Nat.mod_lt w (by decide)

theorem FitsPte.PTE2PA_mkPte (h : FitsPte pa) (hf : f < 1024) : PTE2PA (mkPte pa f) = pa := by
  have hlt := h.lt
  have hal := h.aligned
  unfold PTE2PA
  rw [Nat.shiftLeft_eq, Nat.shiftRight_eq_div_pow, h.mkPte_eq hf, u64_of_lt]
  · unfold PGSIZE at hal; omega
  · omega

theorem FitsPte.PTE_FLAGS_mkPte (h : FitsPte pa) (hf : f < 1024) : PTE_FLAGS (mkPte pa f) = f := by
  rw [PTE_FLAGS_eq, h.mkPte_eq hf]
  omega

@[simp] theorem PTE2PA_mkPte (h : IsPage pa) (hf : f < 1024) : PTE2PA (mkPte pa f) = pa :=
  h.fits.PTE2PA_mkPte hf

theorem and_flags (hb : b < 1024) (w : Nat) : w &&& b = PTE_FLAGS w &&& b := by
  have hle : w &&& b < 1024 := lt_of_le_of_lt Nat.and_le_right hb
  have hmod := Nat.and_mod_two_pow (a := w) (b := b) (n := 10)
  rw [PTE_FLAGS_eq]
  rwa [Nat.mod_eq_of_lt hle, Nat.mod_eq_of_lt hb] at hmod

theorem FitsPte.mkPte_and (h : FitsPte pa) (hf : f < 1024) (hb : b < 1024) :
    mkPte pa f &&& b = f &&& b := by
  rw [and_flags hb, h.PTE_FLAGS_mkPte hf]

theorem mkPte_and (h : IsPage pa) (hf : f < 1024) (hb : b < 1024) : mkPte pa f &&& b = f &&& b :=
  h.fits.mkPte_and hf hb

/-- A word that maps a page: valid, and readable, writable or executable. -/
structure Leaf (w : Nat) : Prop where
  valid : w &&& PTE_V ≠ 0
  /-- It is not a pointer to the next level. -/
  perm : w &&& (PTE_R ||| PTE_W ||| PTE_X) ≠ 0
  lt : w < 2 ^ 64

theorem Leaf.flags_ne (h : Leaf w) : PTE_FLAGS w ≠ PTE_V := by
  intro hf
  have := h.perm
  rw [and_flags (by decide), hf] at this
  exact this (by decide)

theorem Leaf.ne_zero (h : Leaf w) : w ≠ 0 := by
  rintro rfl
  exact h.valid (by decide)

theorem leaf_mkPte (h : IsPage pa) (hf : f < 1024) (hv : f &&& PTE_V ≠ 0)
    (hp : f &&& (PTE_R ||| PTE_W ||| PTE_X) ≠ 0) : Leaf (mkPte pa f) where
  valid := by rwa [mkPte_and h hf (by decide)]
  perm := by rwa [mkPte_and h hf (by decide)]
  lt := mkPte_lt h hf

/-! ## Indices -/

theorem PX_eq (level va : Nat) : PX level va = va / PGSIZE / 512 ^ level % 512 := by
  unfold PX PGSIZE
  rw [Nat.shiftRight_eq_div_pow, show (0x1FF : Nat) = 2 ^ 9 - 1 from rfl,
    Nat.and_two_pow_sub_one_eq_mod, pow_add, ← Nat.div_div_eq_div_mul, pow_mul]
  rfl

end Xv6Freezer.Vm

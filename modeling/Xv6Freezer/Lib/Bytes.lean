import Mathlib

/-! # Words in byte-addressed memory

A memory is a function from addresses to bytes. The file has 64-bit little-endian words in it, ranges
of bytes set at once, and the frame rules: what a write leaves alone. -/

namespace Xv6Freezer.Lib

abbrev Bytes := Nat → UInt8

namespace Bytes

variable {m m' : Bytes} {a b n i v : Nat}

/-- The value of the `n` bytes at `a`, the least significant first. -/
def loadLE (m : Bytes) (a : Nat) : Nat → Nat
  | 0 => 0
  | n + 1 => (m a).toNat + 256 * loadLE m (a + 1) n

def load64 (m : Bytes) (a : Nat) : Nat := m.loadLE a 8

/-- Set the bytes of `[a, a + n)`: the byte at offset `i` becomes `f i`. -/
def fill (m : Bytes) (a n : Nat) (f : Nat → UInt8) : Bytes := fun x =>
  if a ≤ x ∧ x < a + n then f (x - a) else m x

def store64 (m : Bytes) (a v : Nat) : Bytes := m.fill a 8 fun i => UInt8.ofNat (v / 256 ^ i)

/-- Store the `n` low bytes of `v` at `a`, the least significant first. -/
def storeLE (m : Bytes) (a n v : Nat) : Bytes := m.fill a n fun i => UInt8.ofNat (v / 256 ^ i)

/-- The memory from `a` on. -/
def sub (m : Bytes) (a : Nat) : Bytes := fun i => m (a + i)

def SameOn (m m' : Bytes) (a n : Nat) : Prop := ∀ i < n, m' (a + i) = m (a + i)

theorem SameOn.refl (m : Bytes) (a n : Nat) : SameOn m m a n := fun _ _ => rfl

theorem SameOn.trans {m'' : Bytes} (h : SameOn m m' a n) (h' : SameOn m' m'' a n) :
    SameOn m m'' a n := fun i hi => (h' i hi).trans (h i hi)

theorem SameOn.mono {k : Nat} (h : SameOn m m' a n) (hk : i + k ≤ n) : SameOn m m' (a + i) k := by
  intro j hj
  have := h (i + j) (by omega)
  rwa [← Nat.add_assoc] at this

theorem loadLE_lt (m : Bytes) (a n : Nat) : m.loadLE a n < 256 ^ n := by
  induction n generalizing a with
  | zero => exact Nat.one_pos
  | succ n ih =>
    have hbyte := (m a).toNat_lt
    have hrest := ih (a + 1)
    rw [loadLE, Nat.pow_succ']
    omega

theorem fill_of_lt {f : Nat → UInt8} (hi : i < n) : m.fill a n f (a + i) = f i := by
  simp [fill, hi]

theorem SameOn.fill_of_disjoint {k : Nat} {f : Nat → UInt8} (h : b + k ≤ a ∨ a + n ≤ b) :
    SameOn m (m.fill a n f) b k := by
  intro i hi
  unfold fill
  rw [if_neg (by omega)]

theorem loadLE_congr (h : SameOn m m' a n) : m'.loadLE a n = m.loadLE a n := by
  induction n generalizing a with
  | zero => rfl
  | succ n ih =>
    have h0 := h 0 (Nat.succ_pos n)
    have htail : SameOn m m' (a + 1) n := h.mono (by omega)
    simp only [loadLE, ih htail]
    rw [show m' a = m a from h0]

theorem load64_congr (h : SameOn m m' a 8) : m'.load64 a = m.load64 a := loadLE_congr h

theorem loadLE_digits (h : ∀ i < n, m (a + i) = UInt8.ofNat (v / 256 ^ i)) :
    m.loadLE a n = v % 256 ^ n := by
  induction n generalizing a v with
  | zero => simp [loadLE, Nat.mod_one]
  | succ n ih =>
    have h0 : (m a).toNat = v % 256 := by
      have := h 0 (Nat.succ_pos n)
      rw [Nat.add_zero, pow_zero, Nat.div_one] at this
      rw [this, UInt8.toNat_ofNat']
    have htail : m.loadLE (a + 1) n = v / 256 % 256 ^ n := by
      refine ih fun i hi => ?_
      have := h (i + 1) (by omega)
      rw [pow_succ', ← Nat.div_div_eq_div_mul] at this
      rw [Nat.add_assoc, Nat.add_comm 1 i, this]
    rw [loadLE, h0, htail, pow_succ', Nat.mod_mul]

theorem load64_store64 (hv : v < 2 ^ 64) : (m.store64 a v).load64 a = v := by
  rw [load64, store64, loadLE_digits (v := v) fun i hi => fill_of_lt hi]
  exact Nat.mod_eq_of_lt (by norm_num at hv ⊢; exact hv)

theorem load64_store64_of_ne (hne : a ≠ b) (ha : a % 8 = 0) (hb : b % 8 = 0) :
    (m.store64 a v).load64 b = m.load64 b :=
  load64_congr (SameOn.fill_of_disjoint (by omega))

/-- **Reading back what was stored**, in any width. -/
theorem loadLE_storeLE (hv : v < 256 ^ n) : (m.storeLE a n v).loadLE a n = v := by
  rw [storeLE, loadLE_digits (v := v) fun i hi => fill_of_lt hi]
  exact Nat.mod_eq_of_lt hv

theorem loadLE_storeLE_of_disjoint {k : Nat} (h : b + k ≤ a ∨ a + n ≤ b) :
    (m.storeLE a n v).loadLE b k = m.loadLE b k :=
  loadLE_congr (SameOn.fill_of_disjoint h)

theorem loadLE_sub (m : Bytes) (a b n : Nat) : (m.sub a).loadLE b n = m.loadLE (a + b) n := by
  induction n generalizing b with
  | zero => rfl
  | succ n ih => rw [loadLE, loadLE, ih, Nat.add_assoc]; rfl

theorem loadLE_zero (h : ∀ i < n, m (a + i) = 0) : m.loadLE a n = 0 := by
  have := loadLE_digits (m := m) (a := a) (n := n) (v := 0) fun i hi => by
    rw [h i hi, Nat.zero_div]; rfl
  rwa [Nat.zero_mod] at this

theorem loadLE_fill {k : Nat} (f : Bytes) (h : b + k ≤ n) :
    (m.fill a n f).loadLE (a + b) k = f.loadLE b k := by
  rw [← loadLE_sub]
  refine loadLE_congr fun i hi => ?_
  show m.fill a n f (a + (b + i)) = _
  exact fill_of_lt (by omega)

theorem load64_zero (h : ∀ i < 8, m (a + i) = 0) : m.load64 a = 0 := loadLE_zero h

end Bytes

end Xv6Freezer.Lib

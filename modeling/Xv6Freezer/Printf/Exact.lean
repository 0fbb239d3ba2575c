import Xv6Freezer.Printf.Basic

/-! # Which integers `printf` prints

The kernel's `printint` has a buffer of 16 characters, and `%u` and `%x` hand it an `int` whose sign is
extended (`printf_exact_iff`). The user library's `printint` works on 32 bits (`vprintf_exact_iff`).
-/

namespace Xv6Freezer.Printf

/-! ## Conversions and numerals -/

inductive Length where
  | int
  | l
  | ll
deriving DecidableEq

inductive Kind where
  | d
  | u
  | x
deriving DecidableEq

structure Conv where
  length : Length
  kind : Kind
deriving DecidableEq

/-- The characters of a conversion after the `%`. -/
def Conv.chars (c : Conv) : List Char :=
  (match c.length with
    | .int => []
    | .l => ['l']
    | .ll => ['l', 'l']) ++
  match c.kind with
    | .d => ['d']
    | .u => ['u']
    | .x => ['x']

def Conv.base (c : Conv) : Nat := if c.kind = .x then 16 else 10

def Conv.signed (c : Conv) : Bool := c.kind = .d

/-- The number that an argument is, taken as the type of the conversion. -/
def Conv.value (c : Conv) (v : BitVec 64) : Int :=
  match c.length, c.kind with
  | .int, .d => (v.setWidth 32).toInt
  | .int, _ => (v.setWidth 32).toNat
  | _, .d => v.toInt
  | _, _ => v.toNat

def numeral (base : Nat) (n : Int) : List Char :=
  (if n < 0 then ['-'] else []) ++ Nat.toDigits base n.natAbs

/-! ## `printint` -/

section Printint

variable {D : List Char} {up : Char → Char} {base : Nat} {w : Nat}

theorem digitLoop_eq (hD : ∀ i < 16, D.getD i '\x00' = up (Nat.digitChar i)) (hb : 1 < base)
    (hb' : base ≤ 16) (room x : Nat) (buf : List Char) :
    digitLoop D base room x buf =
      if (Nat.toDigits base x).length ≤ room then some (buf ++ ((Nat.toDigits base x).map up).reverse)
      else none := by
  induction room generalizing x buf with
  | zero => rw [digitLoop, if_neg (Nat.not_le.mpr Nat.length_toDigits_pos)]
  | succ room ih =>
    have hdigit : D.getD (x % base) '\x00' = up (Nat.digitChar (x % base)) :=
      hD _ (Nat.lt_of_lt_of_le (Nat.mod_lt _ (by omega)) hb')
    simp only [digitLoop, hdigit]
    by_cases hx : x < base
    · rw [Nat.div_eq_of_lt hx, if_neg (by simp), Nat.toDigits_of_lt_base hx, Nat.mod_eq_of_lt hx]
      simp
    · have hne : x / base ≠ 0 := Nat.ne_of_gt (Nat.div_pos (Nat.not_lt.mp hx) (by omega))
      rw [if_pos hne, ih, Nat.toDigits_of_base_le hb (Nat.not_lt.mp hx)]
      simp

theorem toNat_neg_of_toInt_neg {x : BitVec w} (h : x.toInt < 0) : (-x).toNat = x.toInt.natAbs := by
  have hlt := x.isLt
  rw [BitVec.toInt_eq_toNat_cond] at h ⊢
  rw [BitVec.toNat_neg]
  split at h
  · omega
  · rename_i hge
    rw [if_neg hge, Nat.mod_eq_of_lt (by omega)]
    omega

theorem printintOf_eq (hD : ∀ i < 16, D.getD i '\x00' = up (Nat.digitChar i)) (hup : up '-' = '-')
    (hb : 1 < base) (hb' : base ≤ 16) (xx : BitVec w) (sign : Bool) :
    printintOf D w xx base sign =
      if (numeral base (if sign then xx.toInt else xx.toNat)).length ≤ bufSize then
        some ((numeral base (if sign then xx.toInt else xx.toNat)).map up)
      else none := by
  unfold printintOf
  by_cases hneg : sign = true ∧ xx.toInt < 0
  · obtain ⟨rfl, hlt⟩ := hneg
    have hcard : (numeral base xx.toInt).length = (Nat.toDigits base xx.toInt.natAbs).length + 1 := by
      rw [numeral, if_pos hlt, List.length_append]
      exact Nat.add_comm _ _
    simp only [Bool.true_and, decide_eq_true hlt, if_true, toNat_neg_of_toInt_neg hlt,
      digitLoop_eq hD hb hb', hcard]
    by_cases hfit : (Nat.toDigits base xx.toInt.natAbs).length + 1 ≤ bufSize
    · have hfit' : (Nat.toDigits base xx.toInt.natAbs).length ≤ bufSize := by omega
      simp [if_pos hfit', Nat.lt_of_succ_le hfit, numeral, hlt, hup]
    · rw [if_neg hfit]
      by_cases hfit' : (Nat.toDigits base xx.toInt.natAbs).length ≤ bufSize
      · simp [if_pos hfit', Nat.not_lt.mpr (Nat.le_of_not_lt (fun h => hfit h))]
      · simp [if_neg hfit']
  · have hval : (if sign then xx.toInt else (xx.toNat : Int)) = (xx.toNat : Int) := by
      cases sign with
      | false => rfl
      | true =>
        have hge : ¬ xx.toInt < 0 := fun h => hneg ⟨rfl, h⟩
        have hlt := xx.isLt
        rw [BitVec.toInt_eq_toNat_cond] at hge ⊢
        split at hge
        · rename_i h
          simp [h]
        · omega
    have hsign : (sign && decide (xx.toInt < 0)) = false := by
      rw [Bool.and_eq_false_iff, decide_eq_false_iff_not]
      cases sign with
      | false => exact .inl rfl
      | true => exact .inr fun h => hneg ⟨rfl, h⟩
    have hnum : numeral base (xx.toNat : Int) = Nat.toDigits base xx.toNat := by
      rw [numeral, if_neg (by omega), Int.natAbs_natCast]
      rfl
    simp only [hsign, hval, hnum, digitLoop_eq hD hb hb']
    by_cases hfit : (Nat.toDigits base xx.toNat).length ≤ bufSize
    · simp [if_pos hfit]
    · simp [if_neg hfit]

end Printint

theorem length_numeral_le_iff {base : Nat} (hb : 1 < base) (n : Int) :
    (numeral base n).length ≤ bufSize ↔ n.natAbs < base ^ (if n < 0 then 15 else 16) := by
  rw [numeral, List.length_append]
  split
  · rw [← Nat.length_toDigits_le_iff hb (by decide)]
    simp only [bufSize, List.length_singleton]
    omega
  · rw [← Nat.length_toDigits_le_iff hb (by decide)]
    simp only [bufSize, List.length_nil]
    omega

variable (str : BitVec 64 → List Char) (c : Conv)

theorem Conv.one_lt_base : 1 < c.base := by
  unfold Conv.base
  split <;> decide

theorem Conv.base_le : c.base ≤ 16 := by
  unfold Conv.base
  split <;> decide

def Conv.read {w : Nat} (xx : BitVec w) : Int := if c.signed then xx.toInt else xx.toNat

/-! ## The kernel -/

/-- What the kernel's `printf` hands to `printint`. -/
def Conv.kernelArg (v : BitVec 64) : BitVec 64 :=
  if c.length = .int then (vaInt v).signExtend 64 else v

theorem printf_conv (fmt : List Char) (ap : Nat → BitVec 64) :
    printf str ('%' :: (c.chars ++ fmt)) ap =
      emit (printint (c.kernelArg (ap 0)) c.base c.signed) (printf str fmt fun n => ap (n + 1)) := by
  obtain ⟨length, kind⟩ := c
  cases length <;> cases kind <;> rfl

theorem printf_eq (ap : Nat → BitVec 64) :
    printf str ('%' :: c.chars) ap =
      if (numeral c.base (c.read (c.kernelArg (ap 0)))).length ≤ bufSize then
        some (numeral c.base (c.read (c.kernelArg (ap 0))))
      else none := by
  have hconv := printf_conv str c [] ap
  rw [List.append_nil] at hconv
  have htable : ∀ i < 16, digits.getD i '\x00' = id (Nat.digitChar i) := by decide
  rw [hconv, printint, printintOf_eq htable rfl c.one_lt_base c.base_le]
  simp only [Conv.read, List.map_id]
  split <;> simp [emit, printf]

/-- The arguments that the kernel prints exactly. -/
def Conv.Exact (v : BitVec 64) : Prop :=
  match c.length, c.kind with
  | .int, .d => True
  | .int, _ => (v.setWidth 32).toNat < 2 ^ 31
  | _, .d => -10 ^ 15 < v.toInt ∧ v.toInt < 10 ^ 16
  | _, .u => v.toNat < 10 ^ 16
  | _, .x => True

theorem toNat_signExtend (x : BitVec 32) :
    (x.signExtend 64).toNat = if x.toNat < 2 ^ 31 then x.toNat else 2 ^ 64 - 2 ^ 32 + x.toNat := by
  have hlt := x.isLt
  have hmsb : x.msb = decide (2 ^ 31 ≤ x.toNat) := BitVec.msb_eq_decide x
  rw [BitVec.toNat_signExtend, hmsb, BitVec.toNat_setWidth, Nat.mod_eq_of_lt (by omega)]
  by_cases h : 2 ^ 31 ≤ x.toNat
  · rw [decide_eq_true h, if_pos rfl, if_neg (by omega)]
    omega
  · rw [decide_eq_false h, if_neg (by decide), if_pos (by omega)]
    omega

theorem numeral_natCast (base n : Nat) : numeral base n = Nat.toDigits base n := by
  rw [numeral, if_neg (by omega), Int.natAbs_natCast]
  rfl

theorem ite_eq_numeral_iff {base : Nat} (hb : 1 < base) (n : Int) :
    (if (numeral base n).length ≤ bufSize then some (numeral base n) else none) = some (numeral base n) ↔
      n.natAbs < base ^ (if n < 0 then 15 else 16) := by
  rw [← length_numeral_le_iff hb]
  constructor
  · intro h
    by_contra hlen
    rw [if_neg hlen] at h
    cases h
  · intro hlen
    exact if_pos hlen

theorem Conv.exact_iff_of_long {c : Conv} (hl : c.length ≠ .int) (v : BitVec 64) :
    (c.value v).natAbs < c.base ^ (if c.value v < 0 then 15 else 16) ↔ c.Exact v := by
  have hv := v.isLt
  obtain ⟨length, kind⟩ := c
  -- `l` and `ll` are alike
  obtain ⟨hvalue, hexact⟩ : Conv.value ⟨length, kind⟩ v = Conv.value ⟨.l, kind⟩ v ∧
      Conv.Exact ⟨length, kind⟩ v = Conv.Exact ⟨.l, kind⟩ v := by
    cases length with
    | int => exact absurd rfl hl
    | l => exact ⟨rfl, rfl⟩
    | ll => cases kind <;> exact ⟨rfl, rfl⟩
  rw [hvalue, hexact]
  cases kind with
  | d =>
    show v.toInt.natAbs < 10 ^ (if v.toInt < 0 then 15 else 16) ↔ -10 ^ 15 < v.toInt ∧ v.toInt < 10 ^ 16
    split <;> omega
  | u =>
    show (v.toNat : Int).natAbs < 10 ^ (if (v.toNat : Int) < 0 then 15 else 16) ↔ v.toNat < 10 ^ 16
    rw [if_neg (by omega), Int.natAbs_natCast]
  | x =>
    show (v.toNat : Int).natAbs < 16 ^ (if (v.toNat : Int) < 0 then 15 else 16) ↔ True
    rw [if_neg (by omega), Int.natAbs_natCast]
    exact iff_true_intro (by omega)

theorem printf_eq_numeral_iff_of_long (hl : c.length ≠ .int) (ap : Nat → BitVec 64) :
    printf str ('%' :: c.chars) ap = some (numeral c.base (c.value (ap 0))) ↔ c.Exact (ap 0) := by
  have hread : c.read (c.kernelArg (ap 0)) = c.value (ap 0) := by
    obtain ⟨length, kind⟩ := c
    cases length <;> cases kind <;> first | rfl | exact absurd rfl hl
  rw [printf_eq, hread, ite_eq_numeral_iff c.one_lt_base, Conv.exact_iff_of_long hl]

/-- **The integers that the kernel's `printf` prints**: `printint` stays within its buffer and writes the
numeral of the argument if and only if `Conv.Exact`. -/
theorem printf_exact_iff (ap : Nat → BitVec 64) :
    printf str ('%' :: c.chars) ap = some (numeral c.base (c.value (ap 0))) ↔ c.Exact (ap 0) := by
  by_cases hl : c.length = .int
  case neg => exact printf_eq_numeral_iff_of_long str c hl ap
  rw [printf_eq]
  generalize ap 0 = v
  obtain ⟨length, kind⟩ := c
  obtain rfl : length = .int := hl
  have hx := (v.setWidth 32).isLt
  cases kind with
  | d =>
    -- an `int` has ten digits and a sign
    have hread : Conv.read ⟨.int, .d⟩ (Conv.kernelArg ⟨.int, .d⟩ v) = (v.setWidth 32).toInt :=
      BitVec.toInt_signExtend_of_le (by decide)
    have hge := BitVec.le_toInt (v.setWidth 32)
    have hlt := (v.setWidth 32).toInt_lt
    rw [hread]
    refine (ite_eq_numeral_iff (by decide) _).trans (iff_true_intro ?_)
    show (v.setWidth 32).toInt.natAbs < 10 ^ (if (v.setWidth 32).toInt < 0 then 15 else 16)
    split <;> omega
  | u =>
    show (if (numeral 10 ((vaInt v).signExtend 64).toNat).length ≤ bufSize then
      some (numeral 10 ((vaInt v).signExtend 64).toNat) else _) = some (numeral 10 (v.setWidth 32).toNat) ↔
      (v.setWidth 32).toNat < 2 ^ 31
    rw [toNat_signExtend, vaInt]
    by_cases h : (v.setWidth 32).toNat < 2 ^ 31
    · rw [if_pos h]
      refine (ite_eq_numeral_iff (show 1 < 10 by decide) _).trans (iff_of_true ?_ h)
      rw [if_neg (by omega), Int.natAbs_natCast]
      omega
    · -- twenty digits
      rw [if_neg h, if_neg]
      · exact iff_of_false nofun h
      · rw [length_numeral_le_iff (show 1 < 10 by decide), if_neg (by omega), Int.natAbs_natCast]
        omega
  | x =>
    show (if (numeral 16 ((vaInt v).signExtend 64).toNat).length ≤ bufSize then
      some (numeral 16 ((vaInt v).signExtend 64).toNat) else _) = some (numeral 16 (v.setWidth 32).toNat) ↔
      (v.setWidth 32).toNat < 2 ^ 31
    rw [toNat_signExtend, vaInt]
    by_cases h : (v.setWidth 32).toNat < 2 ^ 31
    · rw [if_pos h]
      refine (ite_eq_numeral_iff (by decide) _).trans (iff_of_true ?_ h)
      rw [if_neg (by omega), Int.natAbs_natCast]
      omega
    · -- sixteen digits where there should be eight
      rw [if_neg h, if_pos]
      · refine iff_of_false (fun heq => ?_) h
        have hlen := congrArg List.length (Option.some.inj heq)
        rw [numeral_natCast, numeral_natCast] at hlen
        have hshort : (Nat.toDigits 16 (v.setWidth 32).toNat).length ≤ 8 :=
          (Nat.length_toDigits_le_iff (by decide) (by decide)).mpr (by omega)
        rw [← hlen, Nat.length_toDigits_le_iff (by decide) (by decide)] at hshort
        omega
      · rw [length_numeral_le_iff (show 1 < 16 by decide), if_neg (by omega), Int.natAbs_natCast]
        omega

/-- An unsigned argument with the top bit set, and one of seventeen digits. -/
theorem printf_overruns :
    printf (fun _ => []) "%u".toList (fun _ => 0x80000000#64) = none ∧
      printf (fun _ => []) "%x".toList (fun _ => 0x80000000#64) = some "ffffffff80000000".toList ∧
      printf (fun _ => []) "%lu".toList (fun _ => 10000000000000000#64) = none ∧
      printf (fun _ => []) "%ld".toList (fun _ => 0x8000000000000000#64) = none := by
  decide

/-! ## The user library -/

theorem vprintf_conv (fmt : List Char) (ap : Nat → BitVec 64) :
    vprintf str false ('%' :: (c.chars ++ fmt)) ap =
      emit (userPrintint ((ap 0).setWidth 32) c.base c.signed)
        (vprintf str false fmt fun n => ap (n + 1)) := by
  obtain ⟨length, kind⟩ := c
  cases length <;> cases kind <;> rfl

theorem Conv.natAbs_read_lt (x : BitVec 32) : (c.read x).natAbs < 2 ^ 32 := by
  have hlt := x.isLt
  have hge := BitVec.le_toInt x
  have hint := x.toInt_lt
  unfold Conv.read
  split <;> omega

theorem vprintf_eq (ap : Nat → BitVec 64) :
    vprintf str false ('%' :: c.chars) ap =
      some ((numeral c.base (c.read ((ap 0).setWidth 32))).map Char.toUpper) := by
  have hconv := vprintf_conv str c [] ap
  rw [List.append_nil] at hconv
  have htable : ∀ i < 16, userDigits.getD i '\x00' = Char.toUpper (Nat.digitChar i) := by decide
  have hlen : (numeral c.base (c.read ((ap 0).setWidth 32))).length ≤ bufSize := by
    rw [length_numeral_le_iff c.one_lt_base]
    have hlt := c.natAbs_read_lt ((ap 0).setWidth 32)
    have hbase : 10 ^ 15 ≤ c.base ^ 15 := Nat.pow_le_pow_left (by unfold Conv.base; split <;> decide) 15
    have hmono : c.base ^ 15 ≤ c.base ^ (if c.read ((ap 0).setWidth 32) < 0 then 15 else 16) :=
      Nat.pow_le_pow_right (Nat.zero_lt_of_lt c.one_lt_base) (by split <;> decide)
    omega
  rw [hconv, userPrintint, printintOf_eq htable (by decide) c.one_lt_base c.base_le]
  simp only [Conv.read] at hlen ⊢
  rw [if_pos hlen]
  simp [emit, vprintf]

theorem mem_toDigits {base : Nat} (hb : 1 < base) (n : Nat) {a : Char} (ha : a ∈ Nat.toDigits base n) :
    ∃ i < base, a = Nat.digitChar i := by
  induction n using Nat.strongRecOn with
  | ind n ih =>
    by_cases hn : n < base
    · rw [Nat.toDigits_of_lt_base hn, List.mem_singleton] at ha
      exact ⟨n, hn, ha⟩
    · rw [Nat.toDigits_of_base_le hb (Nat.not_lt.mp hn), List.mem_append, List.mem_singleton] at ha
      rcases ha with ha | ha
      · exact ih _ (Nat.div_lt_self (by omega) hb) ha
      · exact ⟨n % base, Nat.mod_lt _ (by omega), ha⟩

theorem toDigits_toUpper_inj {base : Nat} (hb : 1 < base) (hb' : base ≤ 16) (m n : Nat)
    (h : (Nat.toDigits base m).map Char.toUpper = (Nat.toDigits base n).map Char.toUpper) : m = n := by
  have hinj : ∀ i < 16, ∀ j < 16, (Nat.digitChar i).toUpper = (Nat.digitChar j).toUpper → i = j := by decide
  induction m using Nat.strongRecOn generalizing n with
  | ind m ih =>
    by_cases hm : m < base
    · by_cases hn : n < base
      · rw [Nat.toDigits_of_lt_base hm, Nat.toDigits_of_lt_base hn] at h
        exact hinj m (by omega) n (by omega) (List.cons.inj h).1
      · have hlen := congrArg List.length h
        have hpos := Nat.length_toDigits_pos (b := base) (n := n / base)
        rw [Nat.toDigits_of_lt_base hm, Nat.toDigits_of_base_le hb (Nat.not_lt.mp hn)] at hlen
        simp only [List.length_map, List.length_append, List.length_singleton] at hlen
        omega
    · by_cases hn : n < base
      · have hlen := congrArg List.length h
        have hpos := Nat.length_toDigits_pos (b := base) (n := m / base)
        rw [Nat.toDigits_of_lt_base hn, Nat.toDigits_of_base_le hb (Nat.not_lt.mp hm)] at hlen
        simp only [List.length_map, List.length_append, List.length_singleton] at hlen
        omega
      · rw [Nat.toDigits_of_base_le hb (Nat.not_lt.mp hm), Nat.toDigits_of_base_le hb (Nat.not_lt.mp hn),
          List.map_append, List.map_append] at h
        obtain ⟨hdiv, hmod⟩ := List.append_inj' h rfl
        have hquot : m / base = n / base := ih _ (Nat.div_lt_self (by omega) hb) _ hdiv
        have hrem : m % base = n % base :=
          hinj _ (Nat.lt_of_lt_of_le (Nat.mod_lt _ (by omega)) hb') _
            (Nat.lt_of_lt_of_le (Nat.mod_lt _ (by omega)) hb') (List.cons.inj hmod).1
        rw [← Nat.div_add_mod m base, ← Nat.div_add_mod n base, hquot, hrem]

theorem numeral_toUpper_ne {base : Nat} (hb : 1 < base) (hb' : base ≤ 16) {m n : Int} (hm : m < 0)
    (hn : ¬ n < 0) : (numeral base m).map Char.toUpper ≠ (numeral base n).map Char.toUpper := by
  intro h
  rw [numeral, numeral, if_pos hm, if_neg hn] at h
  have hmem : '-' ∈ (Nat.toDigits base n.natAbs).map Char.toUpper := by
    have hdash : '-' ∈ (['-'] ++ Nat.toDigits base m.natAbs).map Char.toUpper := List.mem_cons_self
    rwa [h] at hdash
  obtain ⟨a, ha, hup⟩ := List.mem_map.mp hmem
  obtain ⟨i, hi, rfl⟩ := mem_toDigits hb _ ha
  have hno : ∀ i < 16, (Nat.digitChar i).toUpper ≠ '-' := by decide
  exact hno i (by omega) hup

theorem numeral_toUpper_inj {base : Nat} (hb : 1 < base) (hb' : base ≤ 16) {m n : Int}
    (h : (numeral base m).map Char.toUpper = (numeral base n).map Char.toUpper) : m = n := by
  by_cases hm : m < 0
  · by_cases hn : n < 0
    · rw [numeral, numeral, if_pos hm, if_pos hn] at h
      have := toDigits_toUpper_inj hb hb' _ _ (List.cons.inj h).2
      omega
    · exact absurd h (numeral_toUpper_ne hb hb' hm hn)
  · by_cases hn : n < 0
    · exact absurd h.symm (numeral_toUpper_ne hb hb' hn hm)
    · rw [numeral, numeral, if_neg hm, if_neg hn] at h
      have := toDigits_toUpper_inj hb hb' _ _ h
      omega

/-- The arguments that the user library prints exactly. -/
def Conv.Fits (v : BitVec 64) : Prop :=
  match c.length, c.kind with
  | .int, _ => True
  | _, .d => -2 ^ 31 ≤ v.toInt ∧ v.toInt < 2 ^ 31
  | _, _ => v.toNat < 2 ^ 32

theorem Conv.read_eq_iff (v : BitVec 64) : c.read (v.setWidth 32) = c.value v ↔ c.Fits v := by
  have hv := v.isLt
  have hlow := (v.setWidth 32).isLt
  have hnat : (v.setWidth 32).toNat = v.toNat % 2 ^ 32 := BitVec.toNat_setWidth ..
  have hsigned : (v.setWidth 32).toInt = v.toInt ↔ -2 ^ 31 ≤ v.toInt ∧ v.toInt < 2 ^ 31 := by
    rw [BitVec.toInt_eq_toNat_cond, BitVec.toInt_eq_toNat_cond, hnat]
    split <;> split <;> omega
  have hunsigned : ((v.setWidth 32).toNat : Int) = v.toNat ↔ v.toNat < 2 ^ 32 := by
    rw [hnat]
    omega
  obtain ⟨length, kind⟩ := c
  cases length with
  | int => cases kind <;> exact iff_of_true rfl trivial
  | l | ll =>
    cases kind with
    | d => exact hsigned
    | u => exact hunsigned
    | x => exact hunsigned

theorem Conv.Fits.exact {c : Conv} {v : BitVec 64} (h : c.Fits v) (hl : c.length ≠ .int) : c.Exact v := by
  obtain ⟨length, kind⟩ := c
  cases length with
  | int => exact absurd rfl hl
  | l | ll =>
    cases kind with
    | d => exact ⟨by have := h.1; omega, by have := h.2; omega⟩
    | u => exact Nat.lt_trans h (by decide)
    | x => trivial

/-- **The integers that the user library's `printf` prints**: it writes the numeral, and for `l` and `ll` the
one that the kernel prints, if and only if `Conv.Fits`. -/
theorem vprintf_exact_iff (ap : Nat → BitVec 64) :
    (vprintf str false ('%' :: c.chars) ap = some ((numeral c.base (c.value (ap 0))).map Char.toUpper) ∧
      (c.length ≠ .int → printf str ('%' :: c.chars) ap = some (numeral c.base (c.value (ap 0))))) ↔
      c.Fits (ap 0) := by
  rw [vprintf_eq]
  constructor
  · rintro ⟨huser, -⟩
    rw [← Conv.read_eq_iff]
    exact numeral_toUpper_inj c.one_lt_base c.base_le (Option.some.inj huser)
  · intro hfits
    refine ⟨by rw [(c.read_eq_iff (ap 0)).mpr hfits], fun hl => ?_⟩
    exact (printf_eq_numeral_iff_of_long str c hl ap).mpr (hfits.exact hl)

/-- The number `2 ^ 32` is printed as 0. -/
theorem vprintf_truncates :
    vprintf (fun _ => []) false "%lu".toList (fun _ => 0x100000000#64) = some "0".toList ∧
      printf (fun _ => []) "%lu".toList (fun _ => 0x100000000#64) = some "4294967296".toList := by
  decide

end Xv6Freezer.Printf

import Xv6Freezer.Exec.Load

/-! # The arguments on the stack

`exec` pushes the argument strings and then the array of their addresses on the last `USERSTACK` pages of the
new user memory. `Stacked` describes what has been pushed so far.
-/

namespace Xv6Freezer.Exec

open Lib Vm

variable {L : Layout} {C : Multiset Nat} {m m' : Mem} {root tf v sp base top : Nat}
  {img img' : Nat → UInt8} {strs : List (List UInt8)} {addrs : List Nat}

/-! ## Strings on a stack -/

/-- **Strings have been pushed** between `base` and `top`, at the addresses `addrs`. -/
inductive Stacked (img : Nat → UInt8) (base top : Nat) : List (List UInt8) → List Nat → Nat → Prop where
  | nil : Stacked img base top [] [] top
  | push {strs : List (List UInt8)} {addrs : List Nat} {sp : Nat} (rest : Stacked img base top strs addrs sp)
      (s : List UInt8) (a : Nat) (le : a + (s.length + 1) ≤ sp) (base_le : base ≤ a) (aligned : a % 16 = 0)
      (bytes : ∀ i < s.length + 1, img (a + i) = (s ++ [0]).getD i 0) :
      Stacked img base top (strs ++ [s]) (addrs ++ [a]) a

section

variable (h : Stacked img base top strs addrs sp)

include h

theorem Stacked.le : sp ≤ top := by
  induction h with
  | nil => exact Nat.le_refl _
  | push _ _ _ le _ _ _ ih => omega

theorem Stacked.length : addrs.length = strs.length := by
  induction h with
  | nil => rfl
  | push _ _ _ _ _ _ _ ih => rw [List.length_append, List.length_append, ih]; rfl

theorem Stacked.congr
    (heq : ∀ a, sp ≤ a → a < top → img' a = img a) : Stacked img' base top strs addrs sp := by
  induction h with
  | nil => exact .nil
  | push rest s a le base_le aligned bytes ih =>
    refine .push (ih fun b hb => heq b (by omega)) s a le base_le aligned fun i hi => ?_
    have htop := rest.le
    rw [heq (a + i) (by omega) (by omega)]
    exact bytes i hi

theorem Stacked.get : ∀ {i : Nat} {s : List UInt8} {a : Nat},
    strs[i]? = some s → addrs[i]? = some a → sp ≤ a ∧ base ≤ a ∧ a + (s.length + 1) ≤ top ∧ a % 16 = 0 ∧
      ∀ j < s.length + 1, img (a + j) = (s ++ [0]).getD j 0 := by
  induction h with
  | nil => exact fun h => absurd h nofun
  | @push strs addrs sp rest s' a' le base_le aligned bytes ih =>
    intro i s a hs ha
    have hlen := rest.length
    have htop := rest.le
    rcases Nat.lt_trichotomy i strs.length with hi | rfl | hi
    · rw [List.getElem?_append_left hi] at hs
      rw [List.getElem?_append_left (by omega)] at ha
      obtain ⟨h1, h2, h3, h4, h5⟩ := ih hs ha
      exact ⟨by omega, h2, h3, h4, h5⟩
    · rw [List.getElem?_concat_length] at hs
      rw [← hlen, List.getElem?_concat_length] at ha
      cases hs
      cases ha
      exact ⟨Nat.le_refl _, base_le, by omega, aligned, bytes⟩
    · rw [List.getElem?_eq_none (by rw [List.length_append, List.length_singleton]; omega)] at hs
      cases hs

theorem Stacked.disjoint :
    ∀ {i j : Nat} {s : List UInt8} {a b : Nat}, i < j → strs[j]? = some s → addrs[j]? = some b →
      addrs[i]? = some a → b + (s.length + 1) ≤ a := by
  induction h with
  | nil => exact fun _ h => absurd h nofun
  | @push strs addrs sp rest s' a' le base_le aligned bytes ih =>
    intro i j s a b hij hs hb ha
    have hlen := rest.length
    rcases Nat.lt_trichotomy j strs.length with hj | rfl | hj
    · rw [List.getElem?_append_left hj] at hs
      rw [List.getElem?_append_left (by omega)] at hb ha
      exact ih hij hs hb ha
    · rw [List.getElem?_concat_length] at hs
      rw [← hlen, List.getElem?_concat_length] at hb
      rw [List.getElem?_append_left (by omega)] at ha
      cases hs
      cases hb
      have hi : i < strs.length := hij
      exact le.trans (rest.get (List.getElem?_eq_getElem hi) ha).1
    · rw [List.getElem?_eq_none (by rw [List.length_append, List.length_singleton]; omega)] at hs
      cases hs

end

/-! ## Pushing -/

/-- **The stack**: user memory ends with `USERSTACK` pages from page `v` on, which the user may write. -/
structure Stack (L : Layout) (C : Multiset Nat) (root tf v : Nat) (m : Mem) (img : Nat → UInt8) : Prop where
  image : Image L C root tf (v + USERSTACK) m img
  user : ∀ w, v ≤ w → w < v + USERSTACK → m.pte root w &&& PTE_U ≠ 0 ∧ m.pte root w &&& PTE_W ≠ 0
  pos : 0 < v

/-- The stack after something has been stored. -/
structure Stored (L : Layout) (C : Multiset Nat) (root tf v : Nat) (m : Mem) (img : Nat → UInt8) (m' : Mem)
    (img' : Nat → UInt8) : Prop where
  stack : Stack L C root tf v m' img'
  below : ∀ a < v * PGSIZE, img' a = img a
  pte : ∀ w, m'.pte root w = m.pte root w
  moves : heap.Moves (m.space root (v + USERSTACK)) (m'.space root (v + USERSTACK)) m m'

theorem Stored.trans {m1 m2 : Mem} {img1 img2 : Nat → UInt8} (h1 : Stored L C root tf v m img m1 img1)
    (h2 : Stored L C root tf v m1 img1 m2 img2) : Stored L C root tf v m img m2 img2 where
  stack := h2.stack
  below a ha := (h2.below a ha).trans (h1.below a ha)
  pte w := (h2.pte w).trans (h1.pte w)
  moves := h1.moves.trans h2.moves

theorem Stack.stored_self (h : Stack L C root tf v m img) : Stored L C root tf v m img m img where
  stack := h
  below _ _ := rfl
  pte _ := rfl
  moves := .refl _ _ _

theorem Stored.same (h : Stored L C root tf v m img m' img') (h0 : Stack L C root tf v m img) :
    ∀ x ∈ C, SamePage m.bytes m'.bytes x := h0.image.table.owns.same h.moves

theorem Stack.copyout {src : List UInt8} (h : Stack L C root tf v m img) (hlo : v * PGSIZE ≤ sp)
    (hhi : sp + src.length ≤ (v + USERSTACK) * PGSIZE) :
    wp (Vm.copyout root sp src) (fun r m' => r = 0 ∧
      Stored L C root tf v m img m' (overlay img sp src.length fun i => src.getD i 0)) m := by
  have hok := fun a (hlow : sp ≤ a) (hhigh : a < sp + src.length) =>
    h.user (a / PGSIZE) ((Nat.le_div_iff_mul_le (by decide)).mpr (hlo.trans hlow))
      ((Nat.div_lt_iff_lt_mul (by decide)).mpr (hhigh.trans_le hhi))
  refine wp_mono (h.image.copyout hhi hok) fun r m' ⟨hr, hI, hmv, hpte⟩ => ⟨hr, ⟨hI, ?_, h.pos⟩, ?_, hpte, hmv⟩
  · simp only [hpte]
    exact h.user
  · intro a ha
    rw [overlay, if_neg (by omega)]

theorem sub64_align {sp : Nat} (n : Nat) (hn : n ≤ sp) (hsp : sp < 2 ^ 64) :
    ∃ sp', sub64 (sub64 sp n) (sub64 sp n % 16) = sp' ∧ sp' + n ≤ sp ∧ sp' % 16 = 0 := by
  refine ⟨_, rfl, ?_⟩
  rw [sub64_of_le hsp hn, sub64_of_le (by omega) (Nat.mod_le _ _)]
  omega

theorem kstr_congr {a : Nat} (h : SamePage m.bytes m'.bytes a) : kstr m' a = kstr m a := by
  have hlist : ((List.range PGSIZE).map fun i => m'.bytes (a + i)) =
      (List.range PGSIZE).map fun i => m.bytes (a + i) :=
    List.map_congr_left fun i hi => h i (List.mem_range.mp hi)
  rw [kstr, kstr, hlist]

inductive PushedArgs (L : Layout) (C : Multiset Nat) (root tf v : Nat) (m : Mem) (img : Nat → UInt8)
    (strs : List (List UInt8)) : Option (Nat × List Nat) → Mem → Prop where
  | ok {m' : Mem} {img' : Nat → UInt8} {sp : Nat} {addrs : List Nat}
      (stored : Stored L C root tf v m img m' img') (base_le : v * PGSIZE ≤ sp)
      (stacked : Stacked img' (v * PGSIZE) ((v + USERSTACK) * PGSIZE) strs addrs sp) :
      PushedArgs L C root tf v m img strs (some (sp, addrs)) m'
  | failed {m' : Mem} {img' : Nat → UInt8} (stored : Stored L C root tf v m img m' img') :
      PushedArgs L C root tf v m img strs none m'

theorem pushArgs_spec {m0 : Mem} {img0 : Nat → UInt8} (h0 : Stack L C root tf v m0 img0)
    (argv : List Nat) : ∀ {sp : Nat} {strs : List (List UInt8)} {addrs : List Nat} {m : Mem}
      {img : Nat → UInt8}, Stored L C root tf v m0 img0 m img → v * PGSIZE ≤ sp →
    Stacked img (v * PGSIZE) ((v + USERSTACK) * PGSIZE) strs addrs sp →
    (∀ a ∈ argv, a ∈ C ∧ (kstr m0 a).length < PGSIZE) →
    wp (pushArgs root (v * PGSIZE) argv sp addrs)
      (fun r m' => PushedArgs L C root tf v m0 img0 (strs ++ argv.map (kstr m0)) r m') m := by
  induction argv with
  | nil =>
    intro sp strs addrs m img h hbase hS _
    rw [pushArgs, wp_pure, List.map_nil, List.append_nil]
    exact .ok h hbase hS
  | cons a argv ih =>
    intro sp strs addrs m img h hbase hS hargs
    obtain ⟨hmem, hlen⟩ := hargs a (.head _)
    have hstr : kstr m a = kstr m0 a := kstr_congr (h.same h0 a hmem)
    have htop := hS.le
    have hmax := h.stack.image.table.mul_le (Nat.le_refl (v + USERSTACK))
    have hpage : PGSIZE ≤ v * PGSIZE := Nat.le_mul_of_pos_left _ h.stack.pos
    have hM : MAXVA < 2 ^ 64 := by decide
    rw [pushArgs]
    by_cases hmany : addrs.length ≥ MAXARG
    · rw [if_pos hmany, wp_pure]
      exact .failed h
    rw [if_neg hmany, wp_bind, wp_get, hstr]
    generalize hs : kstr m0 a = s at hlen
    obtain ⟨sp', hsp', hle, hal⟩ := sub64_align (s.length + 1) (show _ ≤ sp by omega) (by omega)
    dsimp only
    rw [hsp']
    by_cases hlow : sp' < v * PGSIZE
    · rw [if_pos hlow, wp_pure]
      exact .failed h
    rw [if_neg hlow, wp_bind]
    have hsrc : (s ++ [0]).length = s.length + 1 := by rw [List.length_append, List.length_singleton]
    refine wp_mono (h.stack.copyout (Nat.le_of_not_lt hlow) (by rw [hsrc]; omega))
      fun r m1 ⟨hr, h1⟩ => ?_
    rw [if_neg (by omega)]
    -- the new string is below the others
    have hkeep : ∀ b, sp ≤ b → b < (v + USERSTACK) * PGSIZE →
        overlay img sp' (s ++ [0]).length (fun i => (s ++ [0]).getD i 0) b = img b := fun b hb _ => by
      rw [overlay, hsrc, if_neg (by omega)]
    have hS1 := hS.congr hkeep
    have hpush := hS1.push s sp' hle (Nat.le_of_not_lt hlow) hal fun i hi => by
      rw [overlay, hsrc, if_pos (by omega), Nat.add_sub_cancel_left]
    have hrest := ih (h.trans h1) (Nat.le_of_not_lt hlow) hpush fun b hb =>
      hargs b (.tail _ hb)
    have hlist : strs ++ (a :: argv).map (kstr m0) = strs ++ [s] ++ argv.map (kstr m0) := by
      rw [List.map_cons, hs, List.append_assoc, List.singleton_append]
    rw [hlist]
    exact hrest

/-! ## The array of addresses -/

theorem length_wordBytes (ws : List Nat) : (wordBytes ws).length = ws.length * 8 := by
  induction ws with
  | nil => rfl
  | cons w ws ih =>
    rw [wordBytes, List.flatMap_cons, List.length_append, List.length_map, List.length_range,
      List.length_cons, Nat.succ_mul, Nat.add_comm]
    exact congrArg (· + 8) ih

theorem getD_wordBytes (ws : List Nat) {i j w : Nat} (hw : ws[i]? = some w) (hj : j < 8) :
    (wordBytes ws).getD (8 * i + j) 0 = UInt8.ofNat (w / 256 ^ j) := by
  induction ws generalizing i with
  | nil => cases hw
  | cons w' ws ih =>
    have hcons : wordBytes (w' :: ws) =
        ((List.range 8).map fun i => UInt8.ofNat (w' / 256 ^ i)) ++ wordBytes ws := rfl
    rw [hcons, List.getD_eq_getElem?_getD]
    cases i with
    | zero =>
      cases hw
      rw [Nat.mul_zero, Nat.zero_add, List.getElem?_append_left (by simpa using hj), List.getElem?_map,
        List.getElem?_range hj]
      rfl
    | succ i =>
      rw [List.getElem?_append_right (by simp; omega), List.length_map, List.length_range,
        show 8 * (i + 1) + j - 8 = 8 * i + j by omega, ← List.getD_eq_getElem?_getD]
      exact ih hw

/-- **The array is on the stack**, below the strings. -/
structure Vector (img : Nat → UInt8) (base : Nat) (addrs : List Nat) (low sp : Nat) : Prop where
  base_le : base ≤ sp
  le : sp + (addrs.length + 1) * 8 ≤ low
  aligned : sp % 16 = 0
  /-- The bytes of each address, and of the final 0. -/
  words : ∀ i a, (addrs ++ [0])[i]? = some a → a < 2 ^ 64 ∧
    ∀ j < 8, img (sp + 8 * i + j) = UInt8.ofNat (a / 256 ^ j)

theorem pushVector_spec {m0 : Mem} {img0 : Nat → UInt8} (h : Stored L C root tf v m0 img0 m img)
    (hbase : v * PGSIZE ≤ sp) (hS : Stacked img (v * PGSIZE) ((v + USERSTACK) * PGSIZE) strs addrs sp)
    (hfew : (addrs.length + 1) * 8 ≤ PGSIZE) :
    ∃ sp', sub64 (sub64 sp ((addrs.length + 1) * 8)) (sub64 sp ((addrs.length + 1) * 8) % 16) = sp' ∧
      (v * PGSIZE ≤ sp' → wp (Vm.copyout root sp' (wordBytes (addrs ++ [0]))) (fun r m' => r = 0 ∧
        ∃ img', Stored L C root tf v m0 img0 m' img' ∧
          Stacked img' (v * PGSIZE) ((v + USERSTACK) * PGSIZE) strs addrs sp ∧
          Vector img' (v * PGSIZE) addrs sp sp') m) := by
  have htop := hS.le
  have hmax := h.stack.image.table.mul_le (Nat.le_refl (v + USERSTACK))
  have hpage : PGSIZE ≤ v * PGSIZE := Nat.le_mul_of_pos_left _ h.stack.pos
  have hM : MAXVA < 2 ^ 64 := by decide
  obtain ⟨sp', hsp', hle, hal⟩ := sub64_align ((addrs.length + 1) * 8)
    (show _ ≤ sp by omega) (by omega)
  refine ⟨sp', hsp', fun hlow => ?_⟩
  have hsrc : (wordBytes (addrs ++ [0])).length = (addrs.length + 1) * 8 := by
    rw [length_wordBytes, List.length_append, List.length_singleton]
  refine wp_mono (h.stack.copyout hlow (by omega)) fun r m1 ⟨hr, h1⟩ => ⟨hr, _, h.trans h1, ?_, ?_⟩
  · exact hS.congr fun b hb _ => by rw [overlay, if_neg (by omega)]
  refine ⟨hlow, hle, hal, fun i a ha => ?_⟩
  have hi : i < addrs.length + 1 := by
    by_contra hc
    rw [List.getElem?_eq_none (by rw [List.length_append, List.length_singleton]; omega)] at ha
    cases ha
  refine ⟨?_, fun j hj => ?_⟩
  · rcases Nat.lt_or_ge i addrs.length with hi' | hi'
    · have hi'' : i < strs.length := hS.length ▸ hi'
      have hs : strs[i]? = some strs[i] := List.getElem?_eq_getElem hi''
      rw [List.getElem?_append_left hi'] at ha
      obtain ⟨-, -, h3, -, -⟩ := hS.get hs ha
      omega
    · obtain rfl : i = addrs.length := by omega
      rw [List.getElem?_concat_length] at ha
      cases ha
      exact Nat.two_pow_pos 64
  · rw [overlay, if_pos (by omega), show sp' + 8 * i + j - sp' = 8 * i + j by omega]
    exact getD_wordBytes _ ha hj

end Xv6Freezer.Exec

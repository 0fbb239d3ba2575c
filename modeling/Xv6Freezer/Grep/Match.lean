import Mathlib

/-! # The matcher of `grep`

`match`, `matchhere` and `matchstar` of `user/grep.c`. A pattern is a list of items, each with a language;
**`match` finds exactly the texts that contain a string of the language of the pattern** (`grepMatch_iff`).
-/

namespace Xv6Freezer.Grep

/-! ## The code -/

/-- The loop of `matchstar`: `here` is `matchhere(re, ·)`. -/
def starLoop (here : List Char → Bool) (c : Char) : List Char → Bool
  | [] => here []
  | a :: text => here (a :: text) || (a == c || c == '.') && starLoop here c text

def matchhere : List Char → List Char → Bool
  | [], _ => true
  | c :: '*' :: re, text => starLoop (matchhere re) c text
  | ['$'], text => text.isEmpty
  | c :: re, a :: text => (c == '.' || c == a) && matchhere re text
  | _ :: _, [] => false

def matchstar (c : Char) (re text : List Char) : Bool := starLoop (matchhere re) c text

def matchLoop (re : List Char) : List Char → Bool
  | [] => matchhere re []
  | a :: text => matchhere re (a :: text) || matchLoop re text

def grepMatch : List Char → List Char → Bool
  | '^' :: re, text => matchhere re text
  | re, text => matchLoop re text

/-! ## The language of a pattern -/

inductive Item where
  /-- `c*`. -/
  | star (c : Char)
  /-- A `$` at the end. -/
  | eot
  | any
  | lit (c : Char)

def items : List Char → List Item
  | [] => []
  | c :: '*' :: re => .star c :: items re
  | ['$'] => [.eot]
  | '.' :: re => .any :: items re
  | c :: re => .lit c :: items re

/-- The characters that `c` stands for under a `*`. -/
def Fits (c a : Char) : Prop := c = '.' ∨ a = c

/-- The strings of one character that has the property `P`. -/
def one (P : Char → Prop) : Language Char := {w : List Char | ∃ a, P a ∧ w = [a]}

def Item.lang : Item → Language Char
  | .star c => KStar.kstar (one (Fits c))
  | .eot => 1
  | .any => one fun _ => True
  | .lit c => one fun a => a = c

def lang (re : List Char) : Language Char := ((items re).map Item.lang).prod

def Anchored (re : List Char) : Prop := Item.eot ∈ items re

/-- The text begins with a string of the language of `re`, and ends there if `re` says so. -/
def Begins (re text : List Char) : Prop :=
  ∃ w post, text = w ++ post ∧ w ∈ lang re ∧ (Anchored re → post = [])

def Contains (re text : List Char) : Prop := ∃ pre rest, text = pre ++ rest ∧ Begins re rest

/-! ## `matchstar` -/

theorem mem_lang_star (c : Char) (w : List Char) : w ∈ (Item.star c).lang ↔ ∀ a ∈ w, Fits c a := by
  rw [Item.lang, Language.mem_kstar]
  constructor
  · rintro ⟨ws, rfl, hws⟩ a ha
    obtain ⟨v, hv, hav⟩ := List.mem_flatten.mp ha
    obtain ⟨b, hb, rfl⟩ := hws v hv
    rw [List.mem_singleton.mp hav]
    exact hb
  · intro h
    refine ⟨w.map fun a => [a], ?_, ?_⟩
    · induction w with
      | nil => rfl
      | cons a w ih =>
        rw [List.map_cons, List.flatten_cons, ← ih fun b hb => h b (.tail _ hb)]
        rfl
    · intro v hv
      obtain ⟨a, ha, rfl⟩ := List.mem_map.mp hv
      exact ⟨a, h a ha, rfl⟩

theorem starLoop_iff (here : List Char → Bool) (c : Char) (text : List Char) :
    starLoop here c text = true ↔
      ∃ w rest, text = w ++ rest ∧ (∀ a ∈ w, Fits c a) ∧ here rest = true := by
  induction text with
  | nil =>
    rw [starLoop]
    constructor
    · intro h
      exact ⟨[], [], rfl, nofun, h⟩
    · rintro ⟨w, rest, htext, -, h⟩
      obtain ⟨-, rfl⟩ := List.append_eq_nil_iff.mp htext.symm
      exact h
  | cons a text ih =>
    rw [starLoop, Bool.or_eq_true, Bool.and_eq_true, ih, Bool.or_eq_true, beq_iff_eq, beq_iff_eq]
    constructor
    · rintro (h | ⟨ha, w, rest, rfl, hw, h⟩)
      · exact ⟨[], a :: text, rfl, nofun, h⟩
      · refine ⟨a :: w, rest, rfl, ?_, h⟩
        intro b hb
        rcases List.mem_cons.mp hb with rfl | hb
        · exact ha.symm
        · exact hw b hb
    · rintro ⟨w, rest, htext, hw, h⟩
      cases w with
      | nil =>
        obtain rfl : rest = a :: text := htext.symm
        exact .inl h
      | cons b w =>
        obtain ⟨rfl, rfl⟩ := List.cons.inj htext
        exact .inr ⟨(hw a (.head _)).symm, w, rest, rfl,
          fun b hb => hw b (.tail _ hb), h⟩

/-! ## `matchhere` -/

theorem begins_cons {re re' : List Char} {x : Item} (hre : items re = x :: items re') (hx : x ≠ .eot)
    (text : List Char) :
    Begins re text ↔ ∃ w rest, text = w ++ rest ∧ w ∈ x.lang ∧ Begins re' rest := by
  have hlang : lang re = x.lang * lang re' := by rw [lang, hre, List.map_cons, List.prod_cons, lang]
  have hanch : Anchored re ↔ Anchored re' := by
    rw [Anchored, hre, List.mem_cons, Anchored]
    exact or_iff_right hx.symm
  constructor
  · rintro ⟨w, post, rfl, hw, hpost⟩
    rw [hlang, Language.mem_mul] at hw
    obtain ⟨u, hu, v, hv, rfl⟩ := hw
    exact ⟨u, v ++ post, List.append_assoc u v post, hu, v, post, rfl, hv, fun h => hpost (hanch.mpr h)⟩
  · rintro ⟨u, rest, rfl, hu, v, post, rfl, hv, hpost⟩
    refine ⟨u ++ v, post, (List.append_assoc u v post).symm, ?_, fun h => hpost (hanch.mp h)⟩
    rw [hlang, Language.mem_mul]
    exact ⟨u, hu, v, hv, rfl⟩

theorem begins_char {c : Char} {re : List Char} (hstar : ∀ re', re ≠ '*' :: re')
    (heot : c = '$' → re ≠ []) (text : List Char) :
    Begins (c :: re) text ↔ ∃ a rest, text = a :: rest ∧ (c = '.' ∨ c = a) ∧ Begins re rest := by
  obtain ⟨x, hre, hx, hlang⟩ : ∃ x : Item, items (c :: re) = x :: items re ∧ x ≠ .eot ∧
      x.lang = one fun a => c = '.' ∨ c = a := by
    by_cases hc : c = '.'
    · subst hc
      refine ⟨.any, ?_, nofun, ?_⟩
      · rw [items.eq_4 _ hstar]
      · simp [Item.lang]
    · refine ⟨.lit c, items.eq_5 _ _ hstar heot hc, nofun, ?_⟩
      simp [Item.lang, hc, eq_comm]
  rw [begins_cons hre hx, hlang]
  constructor
  · rintro ⟨w, rest, rfl, ⟨a, ha, rfl⟩, h⟩
    exact ⟨a, rest, rfl, ha, h⟩
  · rintro ⟨a, rest, rfl, ha, h⟩
    exact ⟨[a], rest, rfl, ⟨a, ha, rfl⟩, h⟩

theorem begins_eot (text : List Char) : Begins ['$'] text ↔ text = [] := by
  have hlang : lang ['$'] = 1 := by simp [lang, items, Item.lang]
  constructor
  · rintro ⟨w, post, rfl, hw, hpost⟩
    rw [hlang, Language.mem_one] at hw
    rw [hw, hpost (.head _)]
    rfl
  · rintro rfl
    exact ⟨[], [], rfl, hlang ▸ Language.mem_one [] |>.mpr rfl, fun _ => rfl⟩

theorem matchhere_iff (re text : List Char) : matchhere re text = true ↔ Begins re text := by
  -- by the length of the pattern: the code of `*` calls `matchhere` for many texts
  induction hn : re.length using Nat.strongRecOn generalizing re text with
  | ind n ih =>
    subst hn
    fun_cases matchhere re text with
    | case1 => exact iff_of_true rfl ⟨[], text, rfl, rfl, nofun⟩
    | case2 c re =>
      rw [starLoop_iff, begins_cons (x := .star c) rfl nofun]
      have hre : ∀ rest, matchhere re rest = true ↔ Begins re rest := fun rest =>
        ih re.length (by simp only [List.length_cons]; omega) re rest rfl
      simp only [mem_lang_star, hre]
    | case3 => rw [List.isEmpty_iff, begins_eot]
    | case4 c re a text hstar heot =>
      rw [begins_char hstar heot, Bool.and_eq_true, Bool.or_eq_true, beq_iff_eq, beq_iff_eq,
        ih re.length (Nat.lt_succ_self _) re text rfl]
      constructor
      · rintro ⟨hc, h⟩
        exact ⟨a, text, rfl, hc, h⟩
      · rintro ⟨b, rest, htext, hc, h⟩
        obtain ⟨rfl, rfl⟩ := List.cons.inj htext
        exact ⟨hc, h⟩
    | case5 c re hstar heot =>
      rw [begins_char hstar heot]
      exact iff_of_false nofun fun ⟨a, rest, h, _⟩ => List.cons_ne_nil a rest h.symm

theorem matchLoop_iff (re text : List Char) : matchLoop re text = true ↔ Contains re text := by
  induction text with
  | nil =>
    rw [matchLoop, matchhere_iff]
    constructor
    · intro h
      exact ⟨[], [], rfl, h⟩
    · rintro ⟨pre, rest, htext, h⟩
      obtain ⟨-, rfl⟩ := List.append_eq_nil_iff.mp htext.symm
      exact h
  | cons a text ih =>
    rw [matchLoop, Bool.or_eq_true, matchhere_iff, ih]
    constructor
    · rintro (h | ⟨pre, rest, rfl, h⟩)
      · exact ⟨[], a :: text, rfl, h⟩
      · exact ⟨a :: pre, rest, rfl, h⟩
    · rintro ⟨pre, rest, htext, h⟩
      cases pre with
      | nil =>
        obtain rfl : rest = a :: text := htext.symm
        exact .inl h
      | cons b pre =>
        obtain ⟨rfl, rfl⟩ := List.cons.inj htext
        exact .inr ⟨pre, rest, rfl, h⟩

/-- **The matcher of `grep` is right**: `match` returns 1 if and only if the text contains a string of the
language of the pattern or, with a `^` in front, begins with one. -/
theorem grepMatch_iff (re text : List Char) :
    grepMatch re text = true ↔
      if re.head? = some '^' then Begins re.tail text else Contains re text := by
  fun_cases grepMatch re text with
  | case1 re => exact matchhere_iff re text
  | case2 =>
    rename_i hre
    have hhead : re.head? ≠ some '^' := by
      cases re with
      | nil => nofun
      | cons c re =>
        intro h
        exact hre re (by rw [Option.some.inj h])
    rw [if_neg hhead]
    exact matchLoop_iff re text

example : grepMatch "^a.*b$".toList "axyb".toList = true := by decide

example : grepMatch "$*x".toList "a$$x".toList = true := by decide

end Xv6Freezer.Grep

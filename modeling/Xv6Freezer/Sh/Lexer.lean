import Xv6Freezer.Sh.Basic

/-! # The tokens of a line

`tokens` lists what repeated calls of `gettoken` return. `Lex l s ts` says that `ts` are the tokens from
position `s` on: `peek` looks at the kind of the first token, `gettoken` takes it.
-/

namespace Xv6Freezer.Sh

variable {l : List UInt8} {s i : Nat} {p : UInt8 → Bool}

/-! ## Scanning -/

theorem scan_spec (p : UInt8 → Bool) (cs : List UInt8) (s : Nat) :
    s ≤ scan p cs s ∧ scan p cs s ≤ s + cs.length ∧
      (∀ i, s ≤ i → i < scan p cs s → p (cs.getD (i - s) 0) = true) ∧
      (scan p cs s < s + cs.length → p (cs.getD (scan p cs s - s) 0) = false) := by
  induction cs generalizing s with
  | nil =>
    refine ⟨Nat.le_refl _, Nat.le_refl _, fun i h1 h2 => ?_, fun h => ?_⟩
    · exact absurd h2 (Nat.not_lt.mpr h1)
    · exact absurd h (Nat.lt_irrefl _)
  | cons c cs ih =>
    unfold scan
    split
    · rename_i hc
      obtain ⟨h1, h2, h3, h4⟩ := ih (s + 1)
      refine ⟨by omega, by rw [List.length_cons]; omega, fun i hs hi => ?_, fun hlt => ?_⟩
      · by_cases his : i = s
        · rw [his, Nat.sub_self]
          exact hc
        · have := h3 i (by omega) hi
          rwa [show i - s = i - (s + 1) + 1 by omega, List.getD_cons_succ]
      · rw [List.length_cons] at hlt
        have := h4 (by omega)
        rwa [show scan p cs (s + 1) - s = scan p cs (s + 1) - (s + 1) + 1 by omega,
          List.getD_cons_succ]
    · rename_i hc
      refine ⟨Nat.le_refl _, Nat.le_add_right _ _, fun i h1 h2 => ?_, fun _ => ?_⟩
      · exact absurd h2 (Nat.not_lt.mpr h1)
      · rw [Nat.sub_self]
        exact Bool.eq_false_iff.mpr hc

theorem charAt_drop (hs : s ≤ i) : (l.drop s).getD (i - s) 0 = charAt l i := by
  rw [charAt, List.getD_eq_getElem?_getD, List.getD_eq_getElem?_getD, List.getElem?_drop,
    Nat.add_sub_cancel' hs]

theorem scan_drop (p : UInt8 → Bool) (hs : s ≤ l.length) :
    s ≤ scan p (l.drop s) s ∧ scan p (l.drop s) s ≤ l.length ∧
      (∀ i, s ≤ i → i < scan p (l.drop s) s → p (charAt l i) = true) ∧
      (scan p (l.drop s) s < l.length → p (charAt l (scan p (l.drop s) s)) = false) := by
  obtain ⟨h1, h2, h3, h4⟩ := scan_spec p (l.drop s) s
  rw [List.length_drop, Nat.add_sub_cancel' hs] at h2 h4
  refine ⟨h1, h2, fun i hsi hi => ?_, fun hlt => ?_⟩
  · rw [← charAt_drop hsi]
    exact h3 i hsi hi
  · rw [← charAt_drop h1]
    exact h4 hlt

theorem charAt_of_le (h : l.length ≤ i) : charAt l i = 0 := by
  rw [charAt, List.getD_eq_default _ _ h]

theorem lt_of_charAt (h : charAt l i ≠ 0) : i < l.length := by
  by_contra hle
  exact h (charAt_of_le (Nat.not_lt.mp hle))

theorem charAt_ne_zero (h0 : 0 ∉ l) (hi : i < l.length) : charAt l i ≠ 0 := by
  rw [charAt, List.getD_eq_getElem _ _ hi]
  exact fun h => h0 (h ▸ List.getElem_mem hi)

theorem scan_of_false (hs : s < l.length → p (charAt l s) = false) : scan p (l.drop s) s = s := by
  by_cases hlt : s < l.length
  · rw [List.drop_eq_getElem_cons hlt, scan, if_neg]
    have := hs hlt
    rw [charAt, List.getD_eq_getElem _ _ hlt] at this
    exact Bool.eq_false_iff.mp this
  · rw [List.drop_eq_nil_of_le (Nat.not_lt.mp hlt), scan]

theorem lt_scan (hlt : s < l.length) (hp : p (charAt l s) = true) : s < scan p (l.drop s) s := by
  rw [charAt, List.getD_eq_getElem _ _ hlt] at hp
  rw [List.drop_eq_getElem_cons hlt, scan, if_pos hp]
  exact (scan_spec p _ (s + 1)).1

theorem skip_le (hs : s ≤ l.length) : s ≤ skip l s ∧ skip l s ≤ l.length :=
  ⟨(scan_drop _ hs).1, (scan_drop _ hs).2.1⟩

theorem skip_not_space (hs : s ≤ l.length) :
    skip l s < l.length → whitespace.contains (charAt l (skip l s)) = false :=
  (scan_drop (whitespace.contains ·) hs).2.2.2

theorem skip_skip (hs : s ≤ l.length) : skip l (skip l s) = skip l s :=
  scan_of_false (skip_not_space hs)

/-! ## One token -/

/-- The kinds of tokens that start with a byte. -/
def Tok.first : Tok → UInt8
  | .eof => 0
  | .bar => '|'.toNat.toUInt8
  | .lparen => '('.toNat.toUInt8
  | .rparen => ')'.toNat.toUInt8
  | .semi => ';'.toNat.toUInt8
  | .amp => '&'.toNat.toUInt8
  | .lt => '<'.toNat.toUInt8
  | .gt | .gtgt => '>'.toNat.toUInt8
  | .word => 'a'.toNat.toUInt8

structure TokenAt (l : List UInt8) (s : Nat) (t : Tok) (e : Nat) : Prop where
  /-- Its first byte tells the kind. -/
  first : t ≠ .word → charAt l s = t.first
  /-- A word ends at the next byte that is not of a word. -/
  word : t = .word → charAt l s ≠ 0 ∧ charAt l s ∉ symbols ∧ e = scan isWord (l.drop s) s
  eof : t = .eof → e = s
  symbol : t ≠ .eof → t ≠ .word → s < e ∧ e ≤ l.length

theorem Tok.first_ne_zero {t : Tok} (he : t ≠ .eof) : t.first ≠ 0 := by
  cases t <;> first | exact absurd rfl he | decide

theorem TokenAt.of_first {t : Tok} (hw : t ≠ .word) (he : t ≠ .eof)
    (hc : charAt l s = t.first) : TokenAt l s t (s + 1) where
  first _ := hc
  word e := absurd e hw
  eof e := absurd e he
  symbol _ _ := ⟨Nat.lt_succ_self s, lt_of_charAt (hc ▸ Tok.first_ne_zero he)⟩

theorem tokenAt_spec (l : List UInt8) (s : Nat) : TokenAt l s (tokenAt l s).1 (tokenAt l s).2 := by
  unfold tokenAt
  dsimp only
  split
  · rename_i h0
    exact ⟨fun _ => h0, nofun, fun _ => rfl, fun h => absurd rfl h⟩
  split
  · exact .of_first nofun nofun ‹_›
  split
  · exact .of_first nofun nofun ‹_›
  split
  · exact .of_first nofun nofun ‹_›
  split
  · exact .of_first nofun nofun ‹_›
  split
  · exact .of_first nofun nofun ‹_›
  split
  · exact .of_first nofun nofun ‹_›
  split
  · split
    · rename_i hgt hgt'
      exact ⟨fun _ => hgt, nofun, nofun, fun _ _ => ⟨Nat.lt_add_of_pos_right (by decide),
        lt_of_charAt (by rw [hgt']; decide)⟩⟩
    · exact .of_first nofun nofun ‹_›
  · rename_i h0 h1 h2 h3 h4 h5 h6 h7
    refine ⟨fun h => absurd rfl h, fun _ => ⟨h0, ?_, rfl⟩, nofun, fun _ h => absurd rfl h⟩
    simp only [symbols, chars]
    simp only [Nat.toUInt8] at *
    intro hm
    simp_all

theorem gettoken_spec (hs : s ≤ l.length) :
    (gettoken l s).q = skip l s ∧ TokenAt l (skip l s) (gettoken l s).ret (gettoken l s).eq ∧
      (gettoken l s).eq ≤ l.length ∧ (gettoken l s).ps = skip l (gettoken l s).eq ∧
      (gettoken l s).ps ≤ l.length ∧ ((gettoken l s).ret ≠ .eof → s < (gettoken l s).ps) := by
  have ht := tokenAt_spec l (skip l s)
  obtain ⟨hle, hlen⟩ := skip_le hs
  have hend : (tokenAt l (skip l s)).2 ≤ l.length ∧
      ((tokenAt l (skip l s)).1 ≠ .eof → skip l s < (tokenAt l (skip l s)).2) := by
    by_cases he : (tokenAt l (skip l s)).1 = .eof
    · exact ⟨by rw [ht.eof he]; exact hlen, fun h => absurd he h⟩
    by_cases hw : (tokenAt l (skip l s)).1 = .word
    · obtain ⟨h0, hsym, hscan⟩ := ht.word hw
      have hlt := lt_of_charAt h0
      have hword : isWord (charAt l (skip l s)) = true := by
        rw [isWord, skip_not_space hs hlt, Bool.not_false, Bool.true_and, Bool.not_eq_true',
          Bool.eq_false_iff]
        exact fun h => hsym (List.contains_iff_mem.mp h)
      rw [hscan]
      exact ⟨(scan_drop isWord hlen).2.1, fun _ => lt_scan hlt hword⟩
    · exact ⟨(ht.symbol he hw).2, fun _ => (ht.symbol he hw).1⟩
  exact ⟨rfl, ht, hend.1, rfl, (skip_le hend.1).2, fun h =>
    Nat.lt_of_le_of_lt hle (Nat.lt_of_lt_of_le (hend.2 h) (skip_le hend.1).1)⟩

theorem gettoken_skip (hs : s ≤ l.length) : gettoken l (skip l s) = gettoken l s := by
  unfold gettoken
  rw [skip_skip hs]

theorem peek_spec (hs : s ≤ l.length) {toks : String} (ht : chars toks ⊆ symbols) :
    (peek l s toks).1 = skip l s ∧
      ((peek l s toks).2 = true ↔ (gettoken l s).ret.first ∈ chars toks) := by
  have hsym0 : (0 : UInt8) ∉ symbols := by decide
  have hsyma : Tok.word.first ∉ symbols := by decide
  obtain ⟨-, htok, -⟩ := gettoken_spec hs
  refine ⟨rfl, ?_⟩
  show (decide (charAt l (skip l s) ≠ 0) && (chars toks).contains (charAt l (skip l s))) = true ↔ _
  rw [Bool.and_eq_true, decide_eq_true_eq, List.contains_iff_mem]
  by_cases hw : (gettoken l s).ret = .word
  · obtain ⟨-, hsym, -⟩ := htok.word hw
    rw [hw]
    exact ⟨fun h => absurd (ht h.2) hsym, fun h => absurd (ht h) hsyma⟩
  · rw [htok.first hw]
    exact ⟨And.right, fun h => ⟨fun h0 => hsym0 (h0 ▸ ht h), h⟩⟩

/-! ## All tokens -/

structure Token where
  kind : Tok
  at_ : Word
  deriving DecidableEq, Repr

/-- The first `n` tokens from position `s` on. -/
def tokensFrom (l : List UInt8) : Nat → Nat → List Token
  | 0, _ => []
  | n + 1, s =>
    let t := gettoken l s
    if t.ret = .eof then [] else ⟨t.ret, ⟨t.q, t.eq⟩⟩ :: tokensFrom l n t.ps

/-- **The tokens of a line.** Each takes at least one byte. -/
def tokens (l : List UInt8) : List Token := tokensFrom l l.length 0

/-- **The tokens from position `s` on** are `ts`. -/
inductive Lex (l : List UInt8) : Nat → List Token → Prop
  | eof {s : Nat} : s ≤ l.length → (gettoken l s).ret = .eof → Lex l s []
  | token {s : Nat} {ts : List Token} : s ≤ l.length → (gettoken l s).ret ≠ .eof →
      Lex l (gettoken l s).ps ts →
      Lex l s (⟨(gettoken l s).ret, ⟨(gettoken l s).q, (gettoken l s).eq⟩⟩ :: ts)

def kindOf : List Token → Tok
  | [] => .eof
  | t :: _ => t.kind

namespace Lex

variable {ts ts' : List Token}

theorem le (h : Lex l s ts) : s ≤ l.length := by
  cases h <;> assumption

theorem of_tokensFrom (n : Nat) : ∀ s, s ≤ l.length → l.length ≤ s + n → Lex l s (tokensFrom l n s) := by
  induction n with
  | zero =>
    intro s hs hn
    refine .eof hs ?_
    by_contra he
    obtain ⟨-, -, -, -, hps, hlt⟩ := gettoken_spec hs
    have := hlt he
    omega
  | succ n ih =>
    intro s hs hn
    obtain ⟨-, -, -, -, hps, hlt⟩ := gettoken_spec hs
    unfold tokensFrom
    dsimp only
    split
    · exact .eof hs ‹_›
    · rename_i he
      have := hlt he
      exact .token hs he (ih _ hps (by omega))

theorem tokens (l : List UInt8) : Lex l 0 (tokens l) :=
  of_tokensFrom l.length 0 (Nat.zero_le _) (Nat.le_add_left _ _)

theorem skip (h : Lex l s ts) : Lex l (skip l s) ts := by
  have hg := gettoken_skip h.le
  have hle := (skip_le h.le).2
  cases h with
  | eof _ he => exact .eof hle (hg ▸ he)
  | token _ hne h =>
    have := Lex.token (s := Sh.skip l s) hle (hg ▸ hne) (hg.symm ▸ h)
    rwa [hg] at this

theorem ret_eq (h : Lex l s ts) : (gettoken l s).ret = kindOf ts := by
  cases h with
  | eof _ he => exact he
  | token => rfl

theorem peek (h : Lex l s ts) (toks : String) (ht : chars toks ⊆ symbols) :
    Lex l (peek l s toks).1 ts ∧
      ((Sh.peek l s toks).2 = true ↔ (kindOf ts).first ∈ chars toks) := by
  obtain ⟨hp, hiff⟩ := peek_spec h.le ht
  rw [hp, ← h.ret_eq]
  exact ⟨h.skip, hiff⟩

theorem gettoken {t : Token} (h : Lex l s (t :: ts)) : (gettoken l s).ret = t.kind ∧
    (Sh.gettoken l s).q = t.at_.q ∧ (Sh.gettoken l s).eq = t.at_.eq ∧ t.kind ≠ .eof ∧
      Lex l (Sh.gettoken l s).ps ts := by
  cases h with
  | token _ hne h => exact ⟨rfl, rfl, rfl, hne, h⟩

theorem gettoken_nil (h : Lex l s []) : Lex l (Sh.gettoken l s).ps [] := by
  obtain ⟨-, htok, -, hps, -⟩ := gettoken_spec h.le
  rw [hps, htok.eof h.ret_eq, skip_skip h.le]
  exact h.skip

theorem eq_nil_iff (h : Lex l s ts) (h0 : 0 ∉ l) : ts = [] ↔ Sh.skip l s = l.length := by
  obtain ⟨-, htok, -⟩ := gettoken_spec h.le
  constructor
  · rintro rfl
    have hret := h.ret_eq
    have hc := htok.first (by rw [hret]; exact nofun)
    rw [hret] at hc
    by_contra hne
    exact charAt_ne_zero h0 (Nat.lt_of_le_of_ne (skip_le h.le).2 hne) hc
  · intro hend
    cases h with
    | eof => rfl
    | token _ hne _ =>
      -- a token has a first byte
      by_cases hw : (Sh.gettoken l s).ret = .word
      · obtain ⟨hc, -⟩ := htok.word hw
        rw [hend] at hc
        exact absurd (charAt_of_le (Nat.le_refl _)) hc
      · have hc := htok.first hw
        rw [hend, charAt_of_le (Nat.le_refl _)] at hc
        exact absurd hc.symm (Tok.first_ne_zero hne)

/-- **The text of a word**: bytes of words, up to one that is not or the end of the line. -/
theorem word {t : Token} (h : Lex l s ts) (ht : t ∈ ts) (hw : t.kind = .word) :
    t.at_.q ≤ t.at_.eq ∧ t.at_.eq ≤ l.length ∧
      (∀ i, t.at_.q ≤ i → i < t.at_.eq → isWord (charAt l i) = true) ∧
      (t.at_.eq < l.length → isWord (charAt l t.at_.eq) = false) := by
  induction h with
  | eof => cases ht
  | @token s ts hs hne h ih =>
    rcases List.mem_cons.mp ht with rfl | ht
    · obtain ⟨hq, htok, -⟩ := gettoken_spec hs
      obtain ⟨-, -, hscan⟩ := htok.word hw
      dsimp only
      rw [hq, hscan]
      exact scan_drop isWord (skip_le hs).2
    · exact ih ht

end Lex

end Xv6Freezer.Sh

import Xv6Freezer.Sh.Lexer

/-! # The grammar of the shell

The grammar of command lines over tokens, with the tree it assigns. A function of the parser `Parses` a phrase
if it does not run out of fuel, what it accepts is a phrase, and a phrase that is followed by a token of the
right kind is accepted.
-/

namespace Xv6Freezer.Sh

/-! ## The grammar -/

def Tok.IsRedir (k : Tok) : Prop := k = .lt ∨ k = .gt ∨ k = .gtgt

/-- `{redir}`, with `redir ::= ('<' | '>' | '>>') word`. -/
inductive Redirs : List Token → List Redir → Prop
  | nil : Redirs [] []
  | cons {o w : Token} {ts : List Token} {rs : List Redir} : o.kind.IsRedir → w.kind = .word →
      Redirs ts rs → Redirs (o :: w :: ts) (redirOf o.kind w.at_ :: rs)

/-- `{word {redir}}`. -/
inductive Args : List Token → List Word → List Redir → Prop
  | nil : Args [] [] []
  | cons {w : Token} {ts ts' : List Token} {rs rs' : List Redir} {ws : List Word} : w.kind = .word →
      Redirs ts rs → Args ts' ws rs' → Args (w :: (ts ++ ts')) (w.at_ :: ws) (rs ++ rs')

mutual

/-- `line ::= pipe {'&'} [';' line]`. -/
inductive Line : List Token → Cmd → Prop
  | one {ts amps : List Token} {c : Cmd} : Pipe ts c → (∀ t ∈ amps, t.kind = .amp) →
      Line (ts ++ amps) (Cmd.back^[amps.length] c)
  | more {ts amps ts' : List Token} {t : Token} {c c' : Cmd} : Pipe ts c →
      (∀ t ∈ amps, t.kind = .amp) → t.kind = .semi → Line ts' c' →
      Line (ts ++ (amps ++ t :: ts')) (.list (Cmd.back^[amps.length] c) c')

/-- `pipe ::= exec ['|' pipe]`. -/
inductive Pipe : List Token → Cmd → Prop
  | one {ts : List Token} {c : Cmd} : Exec ts c → Pipe ts c
  | more {ts ts' : List Token} {t : Token} {c c' : Cmd} : Exec ts c → t.kind = .bar → Pipe ts' c' →
      Pipe (ts ++ t :: ts') (.pipe c c')

/-- `exec ::= '(' line ')' {redir} | {redir} {word {redir}}`, with at most `MAXARGS - 1` words. -/
inductive Exec : List Token → Cmd → Prop
  | block {ts ts' : List Token} {t t' : Token} {c : Cmd} {rs : List Redir} : t.kind = .lparen →
      Line ts c → t'.kind = .rparen → Redirs ts' rs → Exec (t :: (ts ++ t' :: ts')) (wrap c rs)
  | simple {ts ts' : List Token} {ws : List Word} {rs rs' : List Redir} : Redirs ts rs →
      Args ts' ws rs' → ws.length ≤ MAXARGS - 1 →
      Exec (ts ++ ts') (wrap (.exec ws) (rs ++ rs'))

end

/-! ## What it means to parse -/

variable {α β : Type} {l : List UInt8} {s : Nat} {ts : List Token} {F F1 : Tok → Prop}
  {N N' N1 : List Token → α → Prop}

/-- **`r` is what a function of the parser returns** for the phrase `N` at the tokens `ts`, if a token of a
kind in `F` follows. -/
structure Parses (l : List UInt8) (N : List Token → α → Prop) (F : Tok → Prop) (ts : List Token)
    (r : Res (α × Nat)) : Prop where
  fuel : r ≠ .noFuel
  sound : ∀ a s, r = .ok (a, s) → ∃ ts1 ts2, ts = ts1 ++ ts2 ∧ N ts1 a ∧ Lex l s ts2
  complete : ∀ ts1 ts2 a, ts = ts1 ++ ts2 → N ts1 a → F (kindOf ts2) → ∃ s, r = .ok (a, s) ∧ Lex l s ts2

namespace Parses

theorem congr {r : Res (α × Nat)} (h : Parses l N F ts r) (hN : ∀ ts a, N ts a ↔ N' ts a) :
    Parses l N' F ts r where
  fuel := h.fuel
  sound a s e := by
    obtain ⟨ts1, ts2, e, hn, hl⟩ := h.sound a s e
    exact ⟨ts1, ts2, e, (hN _ _).mp hn, hl⟩
  complete ts1 ts2 a e hn hf := h.complete ts1 ts2 a e ((hN _ _).mpr hn) hf

theorem mono {r : Res (α × Nat)} (h : Parses l N F1 ts r) (hF : ∀ k, F k → F1 k) :
    Parses l N F ts r :=
  ⟨h.fuel, h.sound, fun ts1 ts2 a e hn hf => h.complete ts1 ts2 a e hn (hF _ hf)⟩

theorem pure {a : α} (h : Lex l s ts) : Parses l (fun ts b => ts = [] ∧ b = a) F ts (.ok (a, s)) where
  fuel := nofun
  sound b s' e := by
    cases e
    exact ⟨[], ts, rfl, ⟨rfl, rfl⟩, h⟩
  complete ts1 ts2 b e hn _ := by
    obtain ⟨rfl, rfl⟩ := hn
    obtain rfl : ts = ts2 := e
    exact ⟨s, rfl, h⟩

theorem bind {M : α → List Token → β → Prop} {N : List Token → β → Prop} {r : Res (α × Nat)}
    {k : α × Nat → Res (β × Nat)} (h1 : Parses l N1 F1 ts r)
    (h2 : ∀ a s ts1 ts2, ts = ts1 ++ ts2 → N1 ts1 a → Lex l s ts2 → Parses l (M a) F ts2 (k (a, s)))
    (hsound : ∀ ts1 a ts2 b, N1 ts1 a → M a ts2 b → N (ts1 ++ ts2) b)
    (hcomplete : ∀ ts b rest, N ts b → F (kindOf rest) →
      ∃ ts1 ts2 a, ts = ts1 ++ ts2 ∧ N1 ts1 a ∧ M a ts2 b ∧ F1 (kindOf (ts2 ++ rest))) :
    Parses l N F ts (r.bind k) where
  fuel := by
    cases r with
    | ok a =>
      obtain ⟨ts1, ts2, e, hn, hl⟩ := h1.sound a.1 a.2 rfl
      exact (h2 a.1 a.2 ts1 ts2 e hn hl).fuel
    | panic msg => exact nofun
    | noFuel => exact absurd rfl h1.fuel
  sound b s e := by
    cases r with
    | ok a =>
      obtain ⟨ts1, ts2, e1, hn, hl⟩ := h1.sound a.1 a.2 rfl
      obtain ⟨ts3, ts4, e2, hn', hl'⟩ := (h2 a.1 a.2 ts1 ts2 e1 hn hl).sound b s e
      exact ⟨ts1 ++ ts3, ts4, by rw [e1, e2, List.append_assoc], hsound _ _ _ _ hn hn', hl'⟩
    | panic | noFuel => cases e
  complete tsN rest b e hn hf := by
    obtain ⟨ts1, ts2, a, rfl, hn1, hn2, hf1⟩ := hcomplete tsN b rest hn hf
    rw [List.append_assoc] at e
    obtain ⟨s, rfl, hl⟩ := h1.complete ts1 (ts2 ++ rest) a e hn1 hf1
    exact (h2 a s ts1 (ts2 ++ rest) e hn1 hl).complete ts2 rest b rfl hn2 hf

theorem map {r : Res (α × Nat)} (f : α → β) (h : Parses l N F ts r) :
    Parses l (fun ts b => ∃ a, N ts a ∧ b = f a) F ts (r.bind fun x => .ok (f x.1, x.2)) := by
  refine h.bind (M := fun a ts b => ts = [] ∧ b = f a) (fun a s ts1 ts2 _ _ hl => pure hl) ?_ ?_
  · rintro ts1 a ts2 b hn ⟨rfl, rfl⟩
    rw [List.append_nil]
    exact ⟨a, hn, rfl⟩
  · rintro ts b rest ⟨a, hn, rfl⟩ hf
    exact ⟨ts, [], a, (List.append_nil ts).symm, hn, ⟨rfl, rfl⟩, hf⟩

/-- **A phrase that starts with a token** of a kind in `K`. -/
theorem expect {K : Tok → Prop} {N : Token → List Token → α → Prop} {P : Prop} [Decidable P]
    {r : Res (α × Nat)} {msg : String} (hb : P ↔ K (kindOf ts)) (heof : ¬K .eof)
    (hgo : ∀ t ts', ts = t :: ts' → K t.kind → Parses l (N t) F ts' r) :
    Parses l (fun ts c => ∃ t ts', ts = t :: ts' ∧ K t.kind ∧ N t ts' c) F ts
      (if P then r else .panic msg) := by
  by_cases hP : P
  · rw [if_pos hP]
    cases ts with
    | nil => exact absurd (hb.mp hP) heof
    | cons t ts' =>
      have hgo := hgo t ts' rfl (hb.mp hP)
      refine ⟨hgo.fuel, fun c s' e => ?_, fun ts1 ts2 c e hn hf => ?_⟩
      · obtain ⟨ts1, ts2, rfl, hn, hl'⟩ := hgo.sound c s' e
        exact ⟨t :: ts1, ts2, rfl, ⟨t, ts1, rfl, hb.mp hP, hn⟩, hl'⟩
      · obtain ⟨t', ts'', rfl, -, hn⟩ := hn
        obtain ⟨rfl, e'⟩ := List.cons.inj e
        exact hgo.complete ts'' ts2 c e' hn hf
  · rw [if_neg hP]
    refine ⟨nofun, nofun, fun ts1 ts2 c e hn _ => ?_⟩
    obtain ⟨t, ts', rfl, hK, -⟩ := hn
    subst e
    exact absurd (hb.mpr hK) hP

theorem orEmpty {a : α} {r : Res (α × Nat)} (h : Parses l N F ts r) (hF : ¬F (kindOf ts)) :
    Parses l (fun ts c => (ts = [] ∧ c = a) ∨ N ts c) F ts r := by
  refine ⟨h.fuel, fun c s' e => ?_, fun ts1 ts2 c e hn hf => ?_⟩
  · obtain ⟨ts1, ts2, e, hn, hl'⟩ := h.sound c s' e
    exact ⟨ts1, ts2, e, .inr hn, hl'⟩
  · rcases hn with ⟨rfl, -⟩ | hn
    · obtain rfl : ts = ts2 := e
      exact absurd hf hF
    · exact h.complete ts1 ts2 c e hn hf

/-- **An optional phrase**, announced by a token of a kind in `K`. -/
theorem opt {K : Tok → Prop} {N : Token → List Token → α → Prop} {a : α} {b : Prop} [Decidable b]
    {r : Res (α × Nat)} (hl : Lex l s ts) (hb : b ↔ K (kindOf ts)) (heof : ¬K .eof) (hF : ∀ k, F k → ¬K k)
    (hgo : ∀ t ts', ts = t :: ts' → K t.kind → Parses l (N t) F ts' r) :
    Parses l (fun ts c => (ts = [] ∧ c = a) ∨ ∃ t ts', ts = t :: ts' ∧ K t.kind ∧ N t ts' c) F ts
      (if b then r else .ok (a, s)) := by
  by_cases hb' : b
  · have h : Parses l _ F ts (if b then r else .panic "") := expect hb heof hgo
    rw [if_pos hb'] at h ⊢
    exact h.orEmpty fun hf => hF _ hf (hb.mp hb')
  · rw [if_neg hb']
    refine ⟨nofun, fun c s' e => ?_, fun ts1 ts2 c e hn hf => ?_⟩
    · cases e
      exact ⟨[], ts, rfl, .inl ⟨rfl, rfl⟩, hl⟩
    · rcases hn with ⟨rfl, rfl⟩ | ⟨t, ts', rfl, hK, -⟩
      · obtain rfl : ts = ts2 := e
        exact ⟨s, rfl, hl⟩
      · subst e
        exact absurd (hb.mpr hK) hb'

end Parses

end Xv6Freezer.Sh

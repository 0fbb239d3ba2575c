import Xv6Freezer.Sh.Grammar

/-! # The parser is right

Each function of the parser parses its phrase, given enough fuel for the tokens that are left. The
functions call each other, so that the induction is on the fuel for all of them at once
(`parse_all`). -/

namespace Xv6Freezer.Sh

open Function

variable {l : List UInt8} {s n : Nat} {ts : List Token}

/-! ## The kinds that `peek` looks for -/

theorem first_redir (k : Tok) : k.first ∈ chars "<>" ↔ k.IsRedir := by
  unfold Tok.IsRedir
  cases k <;> decide

theorem first_amp (k : Tok) : k.first ∈ chars "&" ↔ k = .amp := by cases k <;> decide

theorem first_semi (k : Tok) : k.first ∈ chars ";" ↔ k = .semi := by cases k <;> decide

theorem first_bar (k : Tok) : k.first ∈ chars "|" ↔ k = .bar := by cases k <;> decide

theorem first_lparen (k : Tok) : k.first ∈ chars "(" ↔ k = .lparen := by cases k <;> decide

theorem first_rparen (k : Tok) : k.first ∈ chars ")" ↔ k = .rparen := by cases k <;> decide

def Tok.EndsExec (k : Tok) : Prop := k = .bar ∨ k = .rparen ∨ k = .amp ∨ k = .semi

theorem first_endsExec (k : Tok) : k.first ∈ chars "|)&;" ↔ k.EndsExec := by
  unfold Tok.EndsExec
  cases k <;> decide

/-! ## What may follow a phrase -/

def AfterLine (k : Tok) : Prop := k = .rparen ∨ k = .eof

def AfterPipe (k : Tok) : Prop := k = .amp ∨ k = .semi ∨ AfterLine k

def AfterExec (k : Tok) : Prop := k = .bar ∨ AfterPipe k

theorem AfterExec.iff (k : Tok) : AfterExec k ↔ k.EndsExec ∨ k = .eof := by
  unfold AfterExec AfterPipe AfterLine Tok.EndsExec
  tauto

theorem AfterExec.not_redir {k : Tok} (h : AfterExec k) : ¬k.IsRedir := by
  unfold AfterExec AfterPipe AfterLine at h
  unfold Tok.IsRedir
  rcases h with rfl | rfl | rfl | rfl | rfl <;> decide

/-! ## The loops -/

theorem parseredirs_parses (n : Nat) : ∀ {s : Nat} {ts : List Token} (rs : List Redir), Lex l s ts →
    ts.length < n →
    Parses l (fun ts a => ∃ rs', a = rs ++ rs' ∧ Redirs ts rs') (fun k => ¬k.IsRedir) ts
      (parseredirs l n s rs) := by
  induction n with
  | zero => exact fun _ _ h => absurd h (Nat.not_lt_zero _)
  | succ n ih =>
    intro s ts rs hl hn
    obtain ⟨hp, hb⟩ := hl.peek "<>" (by decide)
    rw [first_redir] at hb
    unfold parseredirs
    dsimp only
    refine (Parses.opt (N := fun t ts a => ∃ w ts', ts = w :: ts' ∧ w.kind = .word ∧
      ∃ rs', a = rs ++ redirOf t.kind w.at_ :: rs' ∧ Redirs ts' rs')
      hp hb (by unfold Tok.IsRedir; decide) (fun _ h => h) ?_).congr ?_
    · rintro t ts' rfl -
      obtain ⟨hret, -, -, -, hl1⟩ := hp.gettoken
      rw [hret, hl1.ret_eq, ite_not]
      refine Parses.expect (K := (· = .word)) Iff.rfl nofun ?_
      rintro w ts'' rfl -
      obtain ⟨-, hq, heq, -, hl2⟩ := hl1.gettoken
      rw [hq, heq]
      have hrec := ih (rs ++ [redirOf t.kind w.at_]) hl2 (by
        simp only [List.length_cons] at hn
        omega)
      refine hrec.congr fun ts a => ?_
      simp only [List.append_assoc, List.singleton_append]
    · intro ts a
      constructor
      · rintro (⟨rfl, rfl⟩ | ⟨t, ts', rfl, hK, w, ts'', rfl, hw, rs', rfl, hr⟩)
        · exact ⟨[], (List.append_nil _).symm, .nil⟩
        · exact ⟨_, rfl, .cons hK hw hr⟩
      · rintro ⟨rs', rfl, hr⟩
        cases hr with
        | nil => exact .inl ⟨rfl, List.append_nil _⟩
        | cons ho hw hr => exact .inr ⟨_, _, rfl, ho, _, _, rfl, hw, _, rfl, hr⟩

theorem backs_parses (n : Nat) : ∀ {s : Nat} {ts : List Token} (c : Cmd), Lex l s ts → ts.length < n →
    Parses l (fun ts a => (∀ t ∈ ts, t.kind = .amp) ∧ a = Cmd.back^[ts.length] c) (· ≠ .amp) ts
      (backs l n s c) := by
  induction n with
  | zero => exact fun _ _ h => absurd h (Nat.not_lt_zero _)
  | succ n ih =>
    intro s ts c hl hn
    obtain ⟨hp, hb⟩ := hl.peek "&" (by decide)
    rw [first_amp] at hb
    unfold backs
    dsimp only
    refine (Parses.opt (N := fun _ ts a => (∀ t ∈ ts, t.kind = .amp) ∧
      a = Cmd.back^[ts.length] (.back c)) hp hb nofun (fun _ h => h) ?_).congr ?_
    · rintro t ts' rfl -
      obtain ⟨-, -, -, -, hl1⟩ := hp.gettoken
      exact ih (.back c) hl1 (Nat.lt_of_succ_lt_succ hn)
    · intro ts a
      cases ts with
      | nil => simp
      | cons t ts => simp [and_assoc]

theorem Args.not_redir {rest : List Token} {ws : List Word} {rs : List Redir} (h : Args ts ws rs)
    (hf : AfterExec (kindOf rest)) : ¬(kindOf (ts ++ rest)).IsRedir := by
  cases h with
  | nil => exact hf.not_redir
  | cons hw _ _ =>
    show ¬Tok.IsRedir _
    simp only [List.cons_append, kindOf, hw]
    unfold Tok.IsRedir
    decide

theorem Redirs.not_lparen {ts' rest : List Token} {ws : List Word} {rs rs' : List Redir}
    (h : Redirs ts rs) (h' : Args ts' ws rs') (hf : AfterExec (kindOf rest)) :
    kindOf (ts ++ ts' ++ rest) ≠ .lparen := by
  cases h with
  | nil =>
    cases h' with
    | nil =>
      intro hk
      rw [show ([] ++ [] ++ rest : List Token) = rest from rfl] at hk
      rw [hk] at hf
      rcases hf with h | h | h | h | h <;> cases h
    | cons hw =>
      simp only [List.nil_append, List.cons_append, kindOf, hw]
      exact nofun
  | cons ho =>
    simp only [List.cons_append, kindOf]
    rcases ho with h | h | h <;> rw [h] <;> exact nofun

/-- The phrase of the loop of `parseexec`, after `argv` and the redirections `rs`. -/
def ArgsAfter (argv : List Word) (rs : List Redir) (ts : List Token) (c : Cmd) : Prop :=
  ∃ ws rs', Args ts ws rs' ∧ argv.length + ws.length ≤ MAXARGS - 1 ∧
    c = wrap (.exec (argv ++ ws)) (rs ++ rs')

theorem ArgsAfter.of_not_word {argv : List Word} {rs : List Redir} {c : Cmd} {ts2 : List Token}
    (h : ArgsAfter argv rs ts c) (hk : kindOf (ts ++ ts2) ≠ .word) :
    ts = [] ∧ c = wrap (.exec argv) rs := by
  obtain ⟨ws, rs', hargs, -, rfl⟩ := h
  cases hargs with
  | nil => exact ⟨rfl, by rw [List.append_nil, List.append_nil]⟩
  | cons hw => exact absurd hw hk

theorem args_parses (n : Nat) : ∀ {s : Nat} {ts : List Token} (argv : List Word) (rs : List Redir),
    Lex l s ts → ts.length < n → argv.length ≤ MAXARGS - 1 →
    Parses l (ArgsAfter argv rs) AfterExec ts (args l n s argv rs) := by
  induction n with
  | zero => exact fun _ _ _ h => absurd h (Nat.not_lt_zero _)
  | succ n ih =>
    intro s ts argv rs hl hn hargv
    obtain ⟨hp, hb⟩ := hl.peek "|)&;" (by decide)
    rw [first_endsExec] at hb
    -- when the loop ends, nothing is left of the phrase
    have hend : ∀ s', Lex l s' ts → kindOf ts ≠ .word →
        Parses l (ArgsAfter argv rs) AfterExec ts (.ok (wrap (.exec argv) rs, s')) := by
      intro s' hl' hk
      refine ⟨nofun, fun c s'' e => ?_, fun ts1 ts2 c e hN hf => ?_⟩
      · cases e
        exact ⟨[], ts, rfl, ⟨[], [], .nil, hargv, by rw [List.append_nil, List.append_nil]⟩, hl'⟩
      · obtain ⟨rfl, rfl⟩ := hN.of_not_word (e ▸ hk)
        exact ⟨s', rfl, by obtain rfl : ts = ts2 := e; exact hl'⟩
    unfold args
    dsimp only
    by_cases hK : (kindOf ts).EndsExec
    · rw [if_pos (hb.mpr hK)]
      refine hend _ hp fun hw => ?_
      rw [hw] at hK
      unfold Tok.EndsExec at hK
      revert hK
      decide
    rw [if_neg fun h => hK (hb.mp h), hp.ret_eq]
    by_cases heof : kindOf ts = .eof
    · rw [if_pos heof]
      cases ts with
      | nil => exact hend _ hp.gettoken_nil nofun
      | cons t ts => exact absurd heof hp.gettoken.2.2.2.1
    rw [if_neg heof, ite_not]
    -- a word, or the parser panics
    refine (Parses.orEmpty (a := wrap (.exec argv) rs) (Parses.expect (K := (· = .word))
      (N := fun w ts c => argv.length + 1 ≤ MAXARGS - 1 ∧ ∃ ts1 ts2 rs1, ts = ts1 ++ ts2 ∧
        Redirs ts1 rs1 ∧ ArgsAfter (argv ++ [w.at_]) (rs ++ rs1) ts2 c) Iff.rfl nofun ?_) ?_).congr ?_
    · rintro w ts' rfl -
      obtain ⟨-, hq, heq, -, hl1⟩ := hp.gettoken
      rw [hq, heq]
      by_cases hmax : argv.length + 1 ≥ MAXARGS
      · rw [if_pos hmax]
        refine ⟨nofun, nofun, fun ts1 ts2 c e hN _ => ?_⟩
        have := hN.1
        omega
      · rw [if_neg hmax]
        have hlen : argv.length + 1 ≤ MAXARGS - 1 := by omega
        have hn' : ts'.length < n := Nat.lt_of_succ_lt_succ hn
        refine (parseredirs_parses n rs hl1 hn').bind
          (M := fun rs' ts c => ArgsAfter (argv ++ [w.at_]) rs' ts c)
          (fun rs' s' ts1 ts2 e _ hl2 => ?_) ?_ ?_
        · refine ih _ _ hl2 ?_ (by rw [List.length_append]; exact hlen)
          rw [e, List.length_append] at hn'
          omega
        · rintro ts1 a ts2 c ⟨rs', rfl, hr⟩ hN
          exact ⟨hlen, ts1, ts2, rs', rfl, hr, hN⟩
        · rintro ts c rest ⟨-, ts1, ts2, rs1, rfl, hr, hN⟩ hf
          obtain ⟨ws, rs', hargs, -⟩ := id hN
          exact ⟨ts1, ts2, rs ++ rs1, rfl, ⟨rs1, rfl, hr⟩, hN, hargs.not_redir hf⟩
    · rw [AfterExec.iff]
      exact fun h => h.elim hK heof
    · intro ts c
      constructor
      · rintro (⟨rfl, rfl⟩ | ⟨w, ts', rfl, hw, -, ts1, ts2, rs1, rfl, hr, ws, rs', hargs, hlen, rfl⟩)
        · exact ⟨[], [], .nil, hargv, by rw [List.append_nil, List.append_nil]⟩
        · refine ⟨w.at_ :: ws, rs1 ++ rs', .cons hw hr hargs, ?_, ?_⟩
          · rw [List.length_append, List.length_singleton] at hlen
            rw [List.length_cons]
            omega
          · simp only [List.append_assoc, List.singleton_append]
      · rintro ⟨ws, rs', hargs, hlen, rfl⟩
        cases hargs with
        | nil => exact .inl ⟨rfl, by rw [List.append_nil, List.append_nil]⟩
        | cons hw hr hargs =>
          rw [List.length_cons] at hlen
          refine .inr ⟨_, _, rfl, hw, by omega, _, _, _, rfl, hr, _, _, hargs, ?_, ?_⟩
          · rw [List.length_append, List.length_singleton]
            omega
          · simp only [List.append_assoc, List.singleton_append]

/-! ## The functions that call each other -/

section Step

variable
  (hline : ∀ {s ts}, Lex l s ts → 6 * ts.length + 6 ≤ n → Parses l Line AfterLine ts (parseline l n s))
  (hpipe : ∀ {s ts}, Lex l s ts → 6 * ts.length + 5 ≤ n → Parses l Pipe AfterPipe ts (parsepipe l n s))
  (hexec : ∀ {s ts}, Lex l s ts → 6 * ts.length + 4 ≤ n → Parses l Exec AfterExec ts (parseexec l n s))
  (hblock : ∀ {s ts}, Lex l s ts → kindOf ts = .lparen → 6 * ts.length + 3 ≤ n →
    Parses l Exec AfterExec ts (parseblock l n s))

include hexec hpipe in
theorem parsepipe_step (hl : Lex l s ts) (hn : 6 * ts.length + 5 ≤ n + 1) :
    Parses l Pipe AfterPipe ts (parsepipe l (n + 1) s) := by
  unfold parsepipe
  refine (hexec hl (by omega)).bind (M := fun c ts b => (ts = [] ∧ b = c) ∨
    ∃ t ts', ts = t :: ts' ∧ t.kind = .bar ∧ ∃ c', Pipe ts' c' ∧ b = .pipe c c')
    (fun c s' ts1 ts2 e _ hl' => ?_) ?_ ?_
  · obtain ⟨hp, hb⟩ := hl'.peek "|" (by decide)
    rw [first_bar] at hb
    refine Parses.opt (K := (· = .bar)) hp hb nofun (fun k hk => ?_) ?_
    · rcases hk with rfl | rfl | rfl | rfl <;> exact nofun
    · rintro t ts' rfl -
      refine (hpipe hp.gettoken.2.2.2.2 ?_).map (Cmd.pipe c)
      rw [e] at hn
      simp only [List.length_append, List.length_cons] at hn
      omega
  · rintro ts1 c ts2 b he (⟨rfl, rfl⟩ | ⟨t, ts', rfl, ht, c', hp, rfl⟩)
    · rw [List.append_nil]
      exact .one he
    · exact .more he ht hp
  · intro ts b rest hN hf
    cases hN with
    | one he => exact ⟨ts, [], b, (List.append_nil ts).symm, he, .inl ⟨rfl, rfl⟩, .inr hf⟩
    | more he ht hp => exact ⟨_, _, _, rfl, he, .inr ⟨_, _, rfl, ht, _, hp, rfl⟩, .inl ht⟩

include hpipe hline in
theorem parseline_step (hl : Lex l s ts) (hn : 6 * ts.length + 6 ≤ n + 1) :
    Parses l Line AfterLine ts (parseline l (n + 1) s) := by
  unfold parseline
  refine (hpipe hl (by omega)).bind (M := fun c ts b => ∃ amps ts2, ts = amps ++ ts2 ∧
    (∀ t ∈ amps, t.kind = .amp) ∧ ((ts2 = [] ∧ b = Cmd.back^[amps.length] c) ∨
      ∃ t ts', ts2 = t :: ts' ∧ t.kind = .semi ∧
        ∃ c', Line ts' c' ∧ b = .list (Cmd.back^[amps.length] c) c'))
    (fun c s' ts1 ts2 e _ hl' => ?_) ?_ ?_
  · have hlen : ts.length = ts1.length + ts2.length := by rw [e, List.length_append]
    refine (backs_parses n c hl' (by omega)).bind (M := fun c ts b => (ts = [] ∧ b = c) ∨
      ∃ t ts', ts = t :: ts' ∧ t.kind = .semi ∧ ∃ c', Line ts' c' ∧ b = .list c c')
      (fun c s' ts3 ts4 e' _ hl'' => ?_) ?_ ?_
    · obtain ⟨hp, hb⟩ := hl''.peek ";" (by decide)
      rw [first_semi] at hb
      refine Parses.opt (K := (· = .semi)) hp hb nofun (fun k hk => ?_) ?_
      · rcases hk with rfl | rfl <;> exact nofun
      · rintro t ts' rfl -
        refine (hline hp.gettoken.2.2.2.2 ?_).map (Cmd.list c)
        rw [e', List.length_append, List.length_cons] at hlen
        omega
    · rintro ts1 c' ts2 b ⟨hamps, rfl⟩ hN
      exact ⟨ts1, ts2, rfl, hamps, hN⟩
    · rintro ts b rest ⟨amps, ts2, rfl, hamps, hN⟩ hf
      refine ⟨amps, ts2, _, rfl, ⟨hamps, rfl⟩, hN, ?_⟩
      rcases hN with ⟨rfl, -⟩ | ⟨t, ts', rfl, ht, -⟩
      · rw [List.nil_append]
        rcases hf with h | h <;> rw [h] <;> exact nofun
      · simp only [List.cons_append, kindOf, ht]
        exact nofun
  · rintro ts1 c ts2 b hp ⟨amps, ts3, rfl, hamps, ⟨rfl, rfl⟩ | ⟨t, ts', rfl, ht, c', hN, rfl⟩⟩
    · rw [List.append_nil]
      exact .one hp hamps
    · exact .more hp hamps ht hN
  · intro ts b rest hN hf
    cases hN with
    | @one ts amps c hp hamps =>
      refine ⟨ts, amps, c, rfl, hp, ⟨amps, [], (List.append_nil _).symm, hamps, .inl ⟨rfl, rfl⟩⟩, ?_⟩
      cases amps with
      | nil => exact .inr (.inr hf)
      | cons t amps => exact .inl (hamps t (.head _))
    | @more ts amps ts' t c c' hp hamps ht hN =>
      refine ⟨ts, _, c, rfl, hp, ⟨amps, _, rfl, hamps, .inr ⟨t, ts', rfl, ht, c', hN, rfl⟩⟩, ?_⟩
      cases amps with
      | nil => exact .inr (.inl ht)
      | cons t amps => exact .inl (hamps t (.head _))

include hline in
theorem parseblock_step (hl : Lex l s ts) (hk : kindOf ts = .lparen) (hn : 6 * ts.length + 3 ≤ n + 1) :
    Parses l Exec AfterExec ts (parseblock l (n + 1) s) := by
  obtain ⟨hp, hb⟩ := hl.peek "(" (by decide)
  rw [first_lparen] at hb
  unfold parseblock
  dsimp only
  have hphrase : Parses l (fun ts b => ∃ t ts', ts = t :: ts' ∧ t.kind = .lparen ∧
      ∃ ts1 c t' ts2 rs, ts' = ts1 ++ t' :: ts2 ∧ Line ts1 c ∧ t'.kind = .rparen ∧ Redirs ts2 rs ∧
        b = wrap c rs) AfterExec ts
      (if (peek l s "(").2 = true then
        (parseline l n (gettoken l (peek l s "(").1).ps).bind fun r =>
          if (peek l r.2 ")").2 = true then
            (parseredirs l n (gettoken l (peek l r.2 ")").1).ps []).bind fun r' =>
              .ok (wrap r.1 r'.1, r'.2)
          else .panic "syntax - missing )"
      else .panic "parseblock") := by
    refine Parses.expect (K := (· = .lparen)) hb nofun ?_
    rintro t ts' rfl -
    rw [List.length_cons] at hn
    refine (hline hp.gettoken.2.2.2.2 (by omega)).bind
      (M := fun c ts b => ∃ t' ts2, ts = t' :: ts2 ∧ t'.kind = .rparen ∧
        ∃ rs, Redirs ts2 rs ∧ b = wrap c rs) (fun c s' ts1 ts2 e _ hl' => ?_) ?_ ?_
    · obtain ⟨hp', hb'⟩ := hl'.peek ")" (by decide)
      rw [first_rparen] at hb'
      refine Parses.expect (K := (· = .rparen)) hb' nofun ?_
      rintro t' ts3 rfl -
      rw [e, List.length_append, List.length_cons] at hn
      have hred := parseredirs_parses n [] hp'.gettoken.2.2.2.2 (by omega)
      exact ((hred.mono fun k hk => hk.not_redir).map (wrap c)).congr fun ts b => by
        simp only [List.nil_append, exists_eq_left']
    · rintro ts1 c ts2 b hN ⟨t', ts3, rfl, ht', rs, hr, rfl⟩
      exact ⟨ts1, c, t', ts3, rs, rfl, hN, ht', hr, rfl⟩
    · rintro ts b rest ⟨ts1, c, t', ts2, rs, rfl, hN, ht', hr, rfl⟩ _
      exact ⟨ts1, _, c, rfl, hN, ⟨t', ts2, rfl, ht', rs, hr, rfl⟩, .inl ht'⟩
  refine ⟨hphrase.fuel, fun b s' e => ?_, fun ts1 ts2 b e hN hf => ?_⟩
  · obtain ⟨tsN, ts3, e', ⟨t, ts', rfl, ht, ts1, c, t', ts2, rs, rfl, hN, ht', hr, rfl⟩, hl'⟩ :=
      hphrase.sound b s' e
    exact ⟨_, ts3, e', .block ht hN ht' hr, hl'⟩
  · cases hN with
    | block ht hN ht' hr =>
      exact hphrase.complete _ ts2 _ e ⟨_, _, rfl, ht, _, _, _, _, _, rfl, hN, ht', hr, rfl⟩ hf
    | simple hr hargs =>
      rw [e] at hk
      exact absurd hk (hr.not_lparen hargs hf)

include hblock in
theorem parseexec_step (hl : Lex l s ts) (hn : 6 * ts.length + 4 ≤ n + 1) :
    Parses l Exec AfterExec ts (parseexec l (n + 1) s) := by
  obtain ⟨hp, hb⟩ := hl.peek "(" (by decide)
  rw [first_lparen] at hb
  unfold parseexec
  dsimp only
  by_cases hk : kindOf ts = .lparen
  · rw [if_pos (hb.mpr hk)]
    exact hblock hp hk (by omega)
  rw [if_neg fun h => hk (hb.mp h)]
  -- a simple command
  have hsimple : Parses l (fun ts c => ∃ ts1 ts2 rs, ts = ts1 ++ ts2 ∧ Redirs ts1 rs ∧
      ArgsAfter [] rs ts2 c) AfterExec ts
      ((parseredirs l n (peek l s "(").1 []).bind fun r => args l n r.2 [] r.1) := by
    refine (parseredirs_parses n [] hp (by omega)).bind (M := fun rs ts c => ArgsAfter [] rs ts c)
      (fun rs s' ts1 ts2 e _ hl' => ?_) ?_ ?_
    · refine args_parses n [] rs hl' ?_ (Nat.zero_le _)
      rw [e, List.length_append] at hn
      omega
    · rintro ts1 a ts2 c ⟨_, rfl, hr⟩ hN
      exact ⟨ts1, ts2, _, rfl, hr, hN⟩
    · rintro ts c rest ⟨ts1, ts2, rs, rfl, hr, hN⟩ hf
      obtain ⟨ws, rs', hargs, -⟩ := id hN
      exact ⟨ts1, ts2, rs, rfl, ⟨rs, rfl, hr⟩, hN, hargs.not_redir hf⟩
  refine ⟨hsimple.fuel, fun c s' e => ?_, fun ts1 ts2 c e hN hf => ?_⟩
  · obtain ⟨tsN, ts3, e', ⟨ts1, ts2, rs, rfl, hr, ws, rs', hargs, hlen, rfl⟩, hl'⟩ :=
      hsimple.sound c s' e
    refine ⟨_, ts3, e', .simple hr hargs ?_, hl'⟩
    rwa [List.length_nil, Nat.zero_add] at hlen
  · cases hN with
    | block ht =>
      subst e
      exact absurd ht hk
    | simple hr hargs hlen =>
      refine hsimple.complete _ ts2 _ e ⟨_, _, _, rfl, hr, _, _, hargs, ?_, rfl⟩ hf
      rwa [List.length_nil, Nat.zero_add]

end Step

theorem parse_all (l : List UInt8) (n : Nat) :
    (∀ {s ts}, Lex l s ts → 6 * ts.length + 6 ≤ n → Parses l Line AfterLine ts (parseline l n s)) ∧
    (∀ {s ts}, Lex l s ts → 6 * ts.length + 5 ≤ n → Parses l Pipe AfterPipe ts (parsepipe l n s)) ∧
    (∀ {s ts}, Lex l s ts → 6 * ts.length + 4 ≤ n → Parses l Exec AfterExec ts (parseexec l n s)) ∧
    ∀ {s ts}, Lex l s ts → kindOf ts = .lparen → 6 * ts.length + 3 ≤ n →
      Parses l Exec AfterExec ts (parseblock l n s) := by
  induction n with
  | zero => exact ⟨fun _ h => by omega, fun _ h => by omega, fun _ h => by omega, fun _ _ h => by omega⟩
  | succ n ih =>
    obtain ⟨hline, hpipe, hexec, hblock⟩ := ih
    exact ⟨parseline_step hline hpipe, parsepipe_step hpipe hexec, parseexec_step hblock,
      parseblock_step hline⟩

/-! ## The strings -/

def Cmd.words : Cmd → List Word
  | .exec argv => argv
  | .redir cmd r => cmd.words ++ [r.file]
  | .pipe left right => left.words ++ right.words
  | .list left right => left.words ++ right.words
  | .back cmd => cmd.words

/-- A NUL at the end of each of the words. -/
def terminate (ws : List Word) (buf : Nat → UInt8) : Nat → UInt8 :=
  ws.foldl (fun buf w => update buf w.eq 0) buf

theorem nulterminate_eq (c : Cmd) (buf : Nat → UInt8) :
    nulterminate c buf = terminate c.words buf := by
  induction c generalizing buf with
  | exec argv => rfl
  | redir cmd r ih => simp only [nulterminate, terminate, Cmd.words, List.foldl_append, ih]; rfl
  | pipe left right ihl ihr | list left right ihl ihr =>
    simp only [nulterminate, terminate, Cmd.words, List.foldl_append, ihl, ihr]
  | back cmd ih => exact ih buf

theorem terminate_of_ne {ws : List Word} {i : Nat} (h : ∀ w ∈ ws, w.eq ≠ i) (buf : Nat → UInt8) :
    terminate ws buf i = buf i := by
  induction ws generalizing buf with
  | nil => rfl
  | cons w ws ih =>
    rw [terminate, List.foldl_cons]
    refine (ih (fun w hw => h w (.tail _ hw)) _).trans ?_
    exact Function.update_of_ne (Ne.symm (h w (.head _))) _ _

theorem terminate_of_mem {ws : List Word} {i : Nat} (h : ∃ w ∈ ws, w.eq = i) (buf : Nat → UInt8) :
    terminate ws buf i = 0 := by
  induction ws generalizing buf with
  | nil =>
    obtain ⟨w, hw, -⟩ := h
    cases hw
  | cons w ws ih =>
    by_cases hmem : ∃ w ∈ ws, w.eq = i
    · exact ih hmem _
    obtain ⟨w', hw', rfl⟩ := h
    obtain rfl : w' = w := (List.mem_cons.mp hw').resolve_right fun h => hmem ⟨w', h, rfl⟩
    refine (terminate_of_ne (fun w hw e => hmem ⟨w, hw, e⟩) _).trans ?_
    exact Function.update_self ..

def text (l : List UInt8) (w : Word) : List UInt8 := (l.drop w.q).take (w.eq - w.q)

/-- The C string at `q` in the buffer is `str`. -/
def IsString (buf : Nat → UInt8) (q : Nat) (str : List UInt8) : Prop :=
  (∀ i (hi : i < str.length), buf (q + i) = str[i] ∧ str[i] ≠ 0) ∧ buf (q + str.length) = 0

theorem Redirs.words {rs : List Redir} (h : Redirs ts rs) : ∀ r ∈ rs, ⟨.word, r.file⟩ ∈ ts := by
  induction h with
  | nil => exact nofun
  | @cons o w ts rs ho hw hr ih =>
    intro r hr'
    rcases List.mem_cons.mp hr' with rfl | hr'
    · have hfile : (redirOf o.kind w.at_).file = w.at_ := by
        unfold redirOf
        split
        · rfl
        · split <;> rfl
      rw [hfile, ← hw]
      exact .tail _ (.head _)
    · exact .tail _ (.tail _ (ih r hr'))

theorem Args.words {ws : List Word} {rs : List Redir} (h : Args ts ws rs) :
    (∀ w ∈ ws, ⟨.word, w⟩ ∈ ts) ∧ ∀ r ∈ rs, ⟨.word, r.file⟩ ∈ ts := by
  induction h with
  | nil => exact ⟨nofun, nofun⟩
  | @cons w ts ts' rs rs' ws hw hr _ ih =>
    refine ⟨fun w' hw' => ?_, fun r hr' => ?_⟩
    · rcases List.mem_cons.mp hw' with rfl | hw'
      · rw [← hw]
        exact .head _
      · exact .tail _ (List.mem_append_right _ (ih.1 w' hw'))
    · rcases List.mem_append.mp hr' with hr' | hr'
      · exact .tail _ (List.mem_append_left _ (hr.words r hr'))
      · exact .tail _ (List.mem_append_right _ (ih.2 r hr'))

theorem mem_words_wrap {c : Cmd} {rs : List Redir} {w : Word} :
    w ∈ (wrap c rs).words ↔ w ∈ c.words ∨ ∃ r ∈ rs, r.file = w := by
  induction rs generalizing c with
  | nil => simp [wrap]
  | cons r rs ih =>
    rw [wrap, List.foldl_cons]
    refine ih.trans ?_
    simp only [Cmd.words, List.mem_append, List.mem_cons, exists_eq_or_imp,
      List.not_mem_nil, or_false, or_assoc, @eq_comm _ w r.file]

theorem words_back (n : Nat) (c : Cmd) : (Cmd.back^[n] c).words = c.words := by
  induction n generalizing c with
  | zero => rfl
  | succ n ih => rw [Function.iterate_succ_apply, ih]; rfl

def WordsIn (ts : List Token) (c : Cmd) : Prop := ∀ w ∈ c.words, ⟨.word, w⟩ ∈ ts

theorem line_words {ts : List Token} {c : Cmd} (h : Line ts c) : WordsIn ts c := by
  refine @Line.rec (fun ts c _ => WordsIn ts c) (fun ts c _ => WordsIn ts c)
    (fun ts c _ => WordsIn ts c) ?one ?more ?pipeOne ?pipeMore ?block ?simple ts c h
  case one =>
    intro ts amps c _ _ ih w hw
    rw [words_back] at hw
    exact List.mem_append_left _ (ih w hw)
  case more =>
    intro ts amps ts' t c c' _ _ _ _ ihp ihl w hw
    rcases List.mem_append.mp hw with hw | hw
    · rw [words_back] at hw
      exact List.mem_append_left _ (ihp w hw)
    · exact List.mem_append_right _ (List.mem_append_right _ (.tail _ (ihl w hw)))
  case pipeOne => exact fun _ ih => ih
  case pipeMore =>
    intro ts ts' t c c' _ _ _ ihe ihp w hw
    rcases List.mem_append.mp hw with hw | hw
    · exact List.mem_append_left _ (ihe w hw)
    · exact List.mem_append_right _ (.tail _ (ihp w hw))
  case block =>
    intro ts ts' t t' c rs _ _ _ hr ih w hw
    rcases mem_words_wrap.mp hw with hw | ⟨r, hr', rfl⟩
    · exact .tail _ (List.mem_append_left _ (ih w hw))
    · exact .tail _ (List.mem_append_right _ (.tail _ (hr.words r hr')))
  case simple =>
    intro ts ts' ws rs rs' hr hargs _ w hw
    rcases mem_words_wrap.mp hw with hw | ⟨r, hr', rfl⟩
    · exact List.mem_append_right _ (hargs.words.1 w hw)
    · rcases List.mem_append.mp hr' with hr' | hr'
      · exact List.mem_append_left _ (hr.words r hr')
      · exact List.mem_append_right _ (hargs.words.2 r hr')

theorem getElem_text {w : Word} (hq : w.q ≤ w.eq) (heq : w.eq ≤ l.length) :
    (text l w).length = w.eq - w.q ∧
      ∀ i (hi : i < (text l w).length), (text l w)[i] = charAt l (w.q + i) := by
  have hlen : (text l w).length = w.eq - w.q := by
    rw [text, List.length_take, List.length_drop]
    omega
  refine ⟨hlen, fun i hi => ?_⟩
  have hlt : w.q + i < l.length := by omega
  rw [charAt, List.getD_eq_getElem _ _ hlt]
  simp only [text, List.getElem_take, List.getElem_drop]

/-- **The strings of a command** after `nulterminate`: no NUL is written inside a word. -/
theorem isString_of_line {c : Cmd} (h0 : 0 ∉ l) (h : Line (tokens l) c) {w : Word} (hw : w ∈ c.words) :
    IsString (nulterminate c (buffer l)) w.q (text l w) := by
  have hlex := Lex.tokens l
  obtain ⟨hq, heq, hin, -⟩ := hlex.word (line_words h w hw) rfl
  dsimp only at hq heq hin
  obtain ⟨hlen, htext⟩ := getElem_text hq heq
  rw [nulterminate_eq]
  refine ⟨fun i hi => ?_, ?_⟩
  · rw [htext i hi]
    rw [hlen] at hi
    refine ⟨terminate_of_ne (fun w' hw' e => ?_) _, charAt_ne_zero h0 (by omega)⟩
    obtain ⟨-, -, -, hout⟩ := hlex.word (line_words h w' hw') rfl
    have hbyte := hin (w.q + i) (Nat.le_add_right _ _) (by omega)
    dsimp only at hout
    rw [e, hbyte] at hout
    exact Bool.noConfusion (hout (by omega))
  · rw [hlen, Nat.add_sub_cancel' hq]
    exact terminate_of_mem ⟨w, hw, rfl⟩ _

theorem length_tokensFrom (n s : Nat) : (tokensFrom l n s).length ≤ n := by
  induction n generalizing s with
  | zero => exact Nat.le_refl _
  | succ n ih =>
    unfold tokensFrom
    dsimp only
    split
    · exact Nat.zero_le _
    · exact Nat.succ_le_succ (ih _)

/-- **The parser of the shell is right.** With enough fuel `parsecmd` ends, and succeeds exactly when the
tokens of the line are in the grammar, with its one tree; then every argument and file name, as a C string in
the buffer, is the text of its token. -/
theorem parsecmd_correct (h0 : 0 ∉ l) (hn : 6 * l.length + 6 ≤ n) :
    parsecmd n l ≠ .noFuel ∧
    ((∃ r, parsecmd n l = .ok r) ↔ ∃ c, Line (tokens l) c) ∧
    ∀ c buf, parsecmd n l = .ok (c, buf) → (∀ c', Line (tokens l) c' ↔ c' = c) ∧
      ∀ w ∈ c.words, ⟨.word, w⟩ ∈ tokens l ∧ IsString buf w.q (text l w) := by
  have hlen : (tokens l).length ≤ l.length := length_tokensFrom _ _
  have hparse := (parse_all l n).1 (Lex.tokens l) (by omega)
  -- what is accepted is a line
  have hsound : ∀ c buf, parsecmd n l = .ok (c, buf) →
      Line (tokens l) c ∧ buf = nulterminate c (buffer l) := by
    intro c buf h
    unfold parsecmd at h
    cases hr : parseline l n 0 with
    | panic msg => rw [hr] at h; cases h
    | noFuel => rw [hr] at h; cases h
    | ok r =>
      rw [hr] at h
      simp only [Res.bind] at h
      split at h
      · cases h
      · rename_i hend
        cases h
        obtain ⟨ts₁, ts₂, e, hN, hl⟩ := hparse.sound r.1 r.2 hr
        have hnil : ts₂ = [] := (hl.eq_nil_iff h0).mpr (not_not.mp hend)
        rw [hnil, List.append_nil] at e
        exact ⟨e ▸ hN, rfl⟩
  -- a line is accepted
  have hcomplete : ∀ c, Line (tokens l) c → parsecmd n l = .ok (c, nulterminate c (buffer l)) := by
    intro c h
    obtain ⟨s, hr, hl⟩ := hparse.complete (tokens l) [] c (List.append_nil _).symm h (.inr rfl)
    have hend : (peek l s "").1 = l.length := (hl.eq_nil_iff h0).mp rfl
    rw [parsecmd, hr]
    simp only [Res.bind, hend, ne_eq, not_true_eq_false, if_false]
  refine ⟨fun h => ?_, ⟨fun ⟨r, hr⟩ => ⟨r.1, (hsound r.1 r.2 hr).1⟩, fun ⟨c, hc⟩ => ⟨_, hcomplete c hc⟩⟩,
    fun c buf h => ?_⟩
  · unfold parsecmd at h
    cases hr : parseline l n 0 with
    | panic msg => rw [hr] at h; cases h
    | noFuel => exact hparse.fuel hr
    | ok r =>
      rw [hr] at h
      simp only [Res.bind] at h
      split at h <;> cases h
  · obtain ⟨hline, rfl⟩ := hsound c buf h
    refine ⟨fun c' => ⟨fun hc' => ?_, fun e => e ▸ hline⟩, fun w hw =>
      ⟨line_words hline w hw, isString_of_line h0 hline hw⟩⟩
    have := (hcomplete c' hc').symm.trans h
    cases this
    rfl

set_option maxRecDepth 10000 in
/-- In `a>b` the terminator of the argument overwrites the symbol. -/
theorem parsecmd_correct_redir : ∃ buf, parsecmd 24 (chars "a>b") =
      .ok (.redir (.exec [⟨0, 1⟩]) ⟨⟨2, 3⟩, O_WRONLY ||| O_CREATE ||| O_TRUNC, 1⟩, buf) ∧
    IsString buf 0 (chars "a") ∧ IsString buf 2 (chars "b") := by
  have hok : (match parsecmd 24 (chars "a>b") with
      | .ok r => decide (r.1 =
          .redir (.exec [⟨0, 1⟩]) ⟨⟨2, 3⟩, O_WRONLY ||| O_CREATE ||| O_TRUNC, 1⟩)
      | _ => false) = true := by decide
  have hright := (parsecmd_correct (l := chars "a>b") (n := 24) (by decide) (by decide)).2.2
  split at hok
  · rename_i r hr
    obtain ⟨c, buf⟩ := r
    obtain rfl := of_decide_eq_true hok
    have hwords := (hright _ _ hr).2
    exact ⟨buf, hr, (hwords ⟨0, 1⟩ (by decide)).2, (hwords ⟨2, 3⟩ (by decide)).2⟩
  · cases hok

end Xv6Freezer.Sh

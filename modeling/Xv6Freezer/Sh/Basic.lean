import Xv6Freezer.Params

/-! # The parser of the shell

The lexer and the recursive-descent parser of `user/sh.c`, from `gettoken` to `nulterminate`. A line is the
list of its bytes without the final NUL, a pointer into it a position. Recursive calls and rounds of loops
take one unit of fuel each. `Res.panic` is the call of `panic`.
-/

namespace Xv6Freezer.Sh

open Function

/-! ## The lexer -/

/-- `whitespace`. The last one is the vertical tab. -/
def whitespace : List UInt8 := [32, 9, 13, 10, 11]

def symbols : List UInt8 := chars "<|>&;()"

/-- `*s`. -/
def charAt (l : List UInt8) (s : Nat) : UInt8 := l.getD s 0

/-- `while(s < es && p(*s)) s++`, over what is left of the line. -/
def scan (p : UInt8 → Bool) : List UInt8 → Nat → Nat
  | [], s => s
  | c :: cs, s => if p c then scan p cs (s + 1) else s

/-- `while(s < es && strchr(whitespace, *s)) s++`. -/
def skip (l : List UInt8) (s : Nat) : Nat := scan (whitespace.contains ·) (l.drop s) s

def isWord (c : UInt8) : Bool := !whitespace.contains c && !symbols.contains c

inductive Tok where
  | eof
  | bar | lparen | rparen | semi | amp | lt | gt
  /-- `'+'`, for `>>`. -/
  | gtgt
  /-- `'a'`. -/
  | word
  deriving DecidableEq, Repr

/-- The result of `gettoken`: the kind, the bounds of the token, and the new `*ps`. -/
structure GetToken where
  ret : Tok
  q : Nat
  eq : Nat
  ps : Nat

/-- The `switch` of `gettoken`: the kind of the token at `s`, and where it ends. -/
def tokenAt (l : List UInt8) (s : Nat) : Tok × Nat :=
  let c := charAt l s
  if c = 0 then (.eof, s)
  else if c = '|'.toNat.toUInt8 then (.bar, s + 1)
  else if c = '('.toNat.toUInt8 then (.lparen, s + 1)
  else if c = ')'.toNat.toUInt8 then (.rparen, s + 1)
  else if c = ';'.toNat.toUInt8 then (.semi, s + 1)
  else if c = '&'.toNat.toUInt8 then (.amp, s + 1)
  else if c = '<'.toNat.toUInt8 then (.lt, s + 1)
  else if c = '>'.toNat.toUInt8 then
    if charAt l (s + 1) = '>'.toNat.toUInt8 then (.gtgt, s + 2) else (.gt, s + 1)
  else (.word, scan isWord (l.drop s) s)

def gettoken (l : List UInt8) (s : Nat) : GetToken :=
  let q := skip l s
  let t := tokenAt l q
  ⟨t.1, q, t.2, skip l t.2⟩

/-- `peek`: the new `*ps`, and whether the next byte is one of `toks`. -/
def peek (l : List UInt8) (s : Nat) (toks : String) : Nat × Bool :=
  let s := skip l s
  (s, charAt l s ≠ 0 && (chars toks).contains (charAt l s))

/-! ## Commands -/

/-- Pointers to the first byte of a word and to the byte after it. -/
structure Word where
  q : Nat
  eq : Nat
  deriving DecidableEq, Repr

structure Redir where
  file : Word
  mode : Nat
  fd : Nat
  deriving DecidableEq, Repr

inductive Cmd where
  | exec (argv : List Word)
  | redir (cmd : Cmd) (r : Redir)
  | pipe (left right : Cmd)
  | list (left right : Cmd)
  | back (cmd : Cmd)
  deriving DecidableEq, Repr

def MAXARGS : Nat := 10

def O_RDONLY : Nat := 0x000
def O_WRONLY : Nat := 0x001
def O_CREATE : Nat := 0x200
def O_TRUNC : Nat := 0x400

/-- The `switch` of `parseredirs`. -/
def redirOf (tok : Tok) (file : Word) : Redir :=
  if tok = .lt then ⟨file, O_RDONLY, 0⟩
  else if tok = .gt then ⟨file, O_WRONLY ||| O_CREATE ||| O_TRUNC, 1⟩
  else ⟨file, O_WRONLY ||| O_CREATE, 1⟩

def wrap (cmd : Cmd) (rs : List Redir) : Cmd := rs.foldl .redir cmd

/-! ## The parser -/

inductive Res (α : Type) where
  | ok (a : α)
  | panic (msg : String)
  | noFuel

def Res.bind {α β : Type} (r : Res α) (f : α → Res β) : Res β :=
  match r with
  | .ok a => f a
  | .panic msg => .panic msg
  | .noFuel => .noFuel

/-- `parseredirs`: the redirections to wrap around the command, and `*ps`. -/
def parseredirs (l : List UInt8) : Nat → Nat → List Redir → Res (List Redir × Nat)
  | 0, _, _ => .noFuel
  | n + 1, s, rs =>
    let p := peek l s "<>"
    if p.2 then
      let tok := gettoken l p.1
      let file := gettoken l tok.ps
      if file.ret ≠ .word then .panic "missing file for redirection"
      else parseredirs l n file.ps (rs ++ [redirOf tok.ret ⟨file.q, file.eq⟩])
    else .ok (rs, p.1)

/-- The loop of `parseexec`. -/
def args (l : List UInt8) : Nat → Nat → List Word → List Redir → Res (Cmd × Nat)
  | 0, _, _, _ => .noFuel
  | n + 1, s, argv, rs =>
    let p := peek l s "|)&;"
    if p.2 then .ok (wrap (.exec argv) rs, p.1)
    else
      let tok := gettoken l p.1
      if tok.ret = .eof then .ok (wrap (.exec argv) rs, tok.ps)
      else if tok.ret ≠ .word then .panic "syntax"
      else if argv.length + 1 ≥ MAXARGS then .panic "too many args"
      else (parseredirs l n tok.ps rs).bind fun r => args l n r.2 (argv ++ [⟨tok.q, tok.eq⟩]) r.1

/-- The loop of `parseline`. -/
def backs (l : List UInt8) : Nat → Nat → Cmd → Res (Cmd × Nat)
  | 0, _, _ => .noFuel
  | n + 1, s, cmd =>
    let p := peek l s "&"
    if p.2 then backs l n (gettoken l p.1).ps (.back cmd) else .ok (cmd, p.1)

mutual

def parseline (l : List UInt8) : Nat → Nat → Res (Cmd × Nat)
  | 0, _ => .noFuel
  | n + 1, s =>
    (parsepipe l n s).bind fun r =>
      (backs l n r.2 r.1).bind fun r =>
        let p := peek l r.2 ";"
        if p.2 then
          (parseline l n (gettoken l p.1).ps).bind fun r' => .ok (.list r.1 r'.1, r'.2)
        else .ok (r.1, p.1)
termination_by structural n => n

def parsepipe (l : List UInt8) : Nat → Nat → Res (Cmd × Nat)
  | 0, _ => .noFuel
  | n + 1, s =>
    (parseexec l n s).bind fun r =>
      let p := peek l r.2 "|"
      if p.2 then
        (parsepipe l n (gettoken l p.1).ps).bind fun r' => .ok (.pipe r.1 r'.1, r'.2)
      else .ok (r.1, p.1)
termination_by structural n => n

def parseexec (l : List UInt8) : Nat → Nat → Res (Cmd × Nat)
  | 0, _ => .noFuel
  | n + 1, s =>
    let p := peek l s "("
    if p.2 then parseblock l n p.1
    else (parseredirs l n p.1 []).bind fun r => args l n r.2 [] r.1
termination_by structural n => n

def parseblock (l : List UInt8) : Nat → Nat → Res (Cmd × Nat)
  | 0, _ => .noFuel
  | n + 1, s =>
    let p := peek l s "("
    if p.2 then
      (parseline l n (gettoken l p.1).ps).bind fun r =>
        let p := peek l r.2 ")"
        if p.2 then
          (parseredirs l n (gettoken l p.1).ps []).bind fun r' => .ok (wrap r.1 r'.1, r'.2)
        else .panic "syntax - missing )"
    else .panic "parseblock"
termination_by structural n => n

end

/-! ## NUL-termination -/

def buffer (l : List UInt8) : Nat → UInt8 := charAt l

def nulterminate : Cmd → (Nat → UInt8) → Nat → UInt8
  | .exec argv, buf => argv.foldl (fun buf w => update buf w.eq 0) buf
  | .redir cmd r, buf => update (nulterminate cmd buf) r.file.eq 0
  | .pipe left right, buf => nulterminate right (nulterminate left buf)
  | .list left right, buf => nulterminate right (nulterminate left buf)
  | .back cmd, buf => nulterminate cmd buf

/-- `parsecmd`: the command, and the buffer. -/
def parsecmd (n : Nat) (l : List UInt8) : Res (Cmd × (Nat → UInt8)) :=
  (parseline l n 0).bind fun r =>
    if (peek l r.2 "").1 ≠ l.length then .panic "syntax"
    else .ok (r.1, nulterminate r.1 (buffer l))

end Xv6Freezer.Sh

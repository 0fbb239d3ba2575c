import Xv6Freezer.Grep.Match

/-! # The line loop of `grep`

`grep` of `user/grep.c`, with `strchr` and `memmove` of `user/ulib.c`. A line that fills `buf` ends the loop
like the end of the file: **what is printed are the matching lines before the first line that does not fit**
(`grep_eq`).
-/

namespace Xv6Freezer.Grep

/-! ## The code -/

def NUL : Char := '\x00'

def bufSize : Nat := 1024

/-- `strchr(s, c)`, as the distance from `s`. -/
def strchr : List Char → Char → Option Nat
  | [], _ => none
  | a :: s, c => if a = NUL then none else if a = c then some 0 else (strchr s c).map (· + 1)

/-- `while(n-- > 0) *dst++ = *src++`. -/
def copyUp : List Char → Nat → Nat → Nat → List Char
  | buf, _, _, 0 => buf
  | buf, dst, src, n + 1 => copyUp (buf.set dst (buf.getD src NUL)) (dst + 1) (src + 1) n

/-- `while(n-- > 0) *--dst = *--src`, after `dst += n; src += n`. -/
def copyDown : List Char → Nat → Nat → Nat → List Char
  | buf, _, _, 0 => buf
  | buf, dst, src, n + 1 => copyDown (buf.set (dst + n) (buf.getD (src + n) NUL)) dst src n

/-- `memmove(dst, src, n)` inside `buf`. -/
def memmove (buf : List Char) (dst src n : Nat) : List Char :=
  if src > dst then copyUp buf dst src n else copyDown buf dst src n

/-- The string that starts at `p`. -/
def cstr (buf : List Char) (p : Nat) : List Char := (buf.drop p).takeWhile (· ≠ NUL)

theorem strchr_lt {s : List Char} {c : Char} {k : Nat} (h : strchr s c = some k) : k < s.length := by
  induction s generalizing k with
  | nil => cases h
  | cons a s ih =>
    rw [strchr] at h
    split_ifs at h with h0 hc
    · cases h
      exact Nat.succ_pos _
    · obtain ⟨j, hj, rfl⟩ := Option.map_eq_some_iff.mp h
      exact Nat.succ_lt_succ (ih hj)

/-- The inner loop of `grep`: `buf`, the start of the incomplete line, and what has been written, when no
newline is left. -/
def grepLines (pattern buf : List Char) (p : Nat) (out : List Char) : List Char × Nat × List Char :=
  match h : strchr (buf.drop p) '\n' with
  | none => (buf, p, out)
  | some k =>
    let q := p + k
    let ended := buf.set q NUL
    if grepMatch pattern (cstr ended p) then
      let back := ended.set q '\n'
      grepLines pattern back (q + 1) (out ++ (back.drop p).take (q + 1 - p))
    else grepLines pattern ended (q + 1) out
termination_by buf.length - p
decreasing_by
  all_goals
    have hk := strchr_lt h
    simp only [List.length_drop, List.length_set] at hk ⊢
    omega

/-- The bytes that `read(fd, _, n)` returns: at least one, unless `n = 0` or nothing is left. -/
def readSize (k n left : Nat) : Nat := min (max 1 k) (min n left)

/-- The loop of `grep`; `sizes i` is what the `i`-th `read` would give. -/
def grepLoop (pattern : List Char) (sizes : Nat → Nat) (i : Nat) (buf : List Char) (m : Nat)
    (data out : List Char) : List Char :=
  let n := readSize (sizes i) (bufSize - m - 1) data.length
  if h : n > 0 then
    match grepLines pattern ((buf.take m ++ data.take n ++ buf.drop (m + n)).set (m + n) NUL) 0 out with
    | (buf, p, out) =>
      if m + n > 0 then
        grepLoop pattern sizes (i + 1) (memmove buf 0 p (m + n - p)) (m + n - p) (data.drop n) out
      else grepLoop pattern sizes (i + 1) buf (m + n) (data.drop n) out
  else out
termination_by data.length
decreasing_by
  all_goals
    simp only [n, readSize, List.length_drop] at h ⊢
    omega

/-- `grep(pattern, fd)` for a file with the contents `data`; `buf` is what an earlier call has left. -/
def grep (pattern buf : List Char) (sizes : Nat → Nat) (data : List Char) : List Char :=
  grepLoop pattern sizes 0 buf 0 data []

/-! ## What is to be printed -/

/-- The lines of a stream that end with a newline, without it. -/
def lines (s : List Char) : List (List Char) := (s.splitOn '\n').dropLast

/-- A line that fits `buf` with its newline and the NUL behind it. -/
def Short (l : List Char) : Bool := l.length + 2 ≤ bufSize

def shortLines (s : List Char) : List (List Char) := (lines s).takeWhile Short

/-- The lines that match, one after the other. -/
def printed (pattern : List Char) (ls : List (List Char)) : List Char :=
  (ls.filter (grepMatch pattern)).flatMap (· ++ ['\n'])

variable {pattern : List Char} {l r : List Char}

theorem lines_append (hl : '\n' ∉ l) (r : List Char) : lines (l ++ '\n' :: r) = l :: lines r := by
  rw [lines, List.splitOn_append_cons_self_of_not_mem hl,
    List.dropLast_cons_of_ne_nil (List.splitOn_ne_nil _ r), lines]

theorem lines_of_not_mem (hl : '\n' ∉ l) : lines l = [] := by
  rw [lines, List.splitOn_eq_singleton hl]
  rfl

theorem shortLines_append (hl : '\n' ∉ l) (hs : Short l = true) (r : List Char) :
    shortLines (l ++ '\n' :: r) = l :: shortLines r := by
  rw [shortLines, lines_append hl, List.takeWhile_cons_of_pos hs, shortLines]

/-- Nothing is printed from a line on that does not fit. -/
theorem shortLines_of_long (hl : '\n' ∉ l) (hlong : bufSize ≤ l.length + 1) (r : List Char) :
    shortLines (l ++ r) = [] := by
  by_cases hr : '\n' ∈ r
  · obtain ⟨l', r', rfl, hl'⟩ := List.eq_append_cons_of_mem hr
    rw [shortLines, ← List.append_assoc, lines_append (List.not_mem_append hl hl')]
    refine List.takeWhile_cons_of_neg ?_
    simp only [Short, List.length_append, decide_eq_true_eq]
    omega
  · rw [shortLines, lines_of_not_mem (List.not_mem_append hl hr)]
    rfl

theorem printed_cons (l : List Char) (ls : List (List Char)) :
    printed pattern (l :: ls) =
      (if grepMatch pattern l then l ++ ['\n'] else []) ++ printed pattern ls := by
  rw [printed, List.filter_cons]
  split
  · rw [List.flatMap_cons, printed]
  · rw [List.nil_append, printed]

theorem printed_eq_nil (ls : List (List Char)) :
    printed pattern ls = [] ↔ ∀ l ∈ ls, grepMatch pattern l = false := by
  induction ls with
  | nil => exact iff_of_true rfl nofun
  | cons l ls ih =>
    rw [printed_cons, List.append_eq_nil_iff, ih, List.forall_mem_cons]
    cases grepMatch pattern l <;> simp

/-! ## `strchr` and `memmove` -/

theorem strchr_of_not_mem {c : Char} (hl : NUL ∉ l) (hc : c ∉ l) (r : List Char) :
    strchr (l ++ NUL :: r) c = none := by
  induction l with
  | nil => rfl
  | cons a l ih =>
    rw [List.mem_cons, not_or] at hl hc
    rw [List.cons_append, strchr, if_neg (Ne.symm hl.1), if_neg (Ne.symm hc.1), ih hl.2 hc.2]
    rfl

theorem strchr_of_first {c : Char} (hl : NUL ∉ l) (hc : c ∉ l) (hne : c ≠ NUL) (r : List Char) :
    strchr (l ++ c :: r) c = some l.length := by
  induction l with
  | nil => rw [List.nil_append, strchr, if_neg hne, if_pos rfl]; rfl
  | cons a l ih =>
    rw [List.mem_cons, not_or] at hl hc
    rw [List.cons_append, strchr, if_neg (Ne.symm hl.1), if_neg (Ne.symm hc.1), ih hl.2 hc.2]
    rfl

/-- Copying upwards, over a source that lies `x :: mid` above the destination. -/
theorem copyUp_append (a mid rem junk : List Char) (x : Char) :
    ∃ junk', junk'.length = mid.length + 1 + junk.length ∧
      copyUp (a ++ x :: mid ++ rem ++ junk) a.length (a.length + (mid.length + 1)) rem.length =
        a ++ rem ++ junk' := by
  induction rem generalizing a mid x with
  | nil =>
    refine ⟨x :: mid ++ junk, ?_, ?_⟩
    · simp only [List.length_append, List.length_cons]
    · simp [copyUp]
  | cons y rem ih =>
    -- the byte just copied joins what is below the destination, and its old place the gap
    have hset : (a ++ x :: mid ++ y :: rem ++ junk).set a.length
        ((a ++ x :: mid ++ y :: rem ++ junk).getD (a.length + (mid.length + 1)) NUL) =
          (a ++ [y]) ++ (mid ++ [y]) ++ rem ++ junk := by
      have hget : (a ++ x :: mid ++ y :: rem ++ junk).getD (a.length + (mid.length + 1)) NUL = y := by
        rw [List.getD_eq_getElem?_getD, List.append_assoc, List.getElem?_append_right (by simp)]
        simp
      rw [hget]
      simp
    obtain ⟨z, gap, hgap⟩ : ∃ z gap, mid ++ [y] = z :: gap := List.exists_cons_of_ne_nil (by simp)
    have hlen : gap.length = mid.length := by
      have := congrArg List.length hgap
      simpa using this.symm
    obtain ⟨junk', hjunk, hcopy⟩ := ih (a ++ [y]) gap z
    refine ⟨junk', by rw [hjunk, hlen], ?_⟩
    rw [List.length_cons, copyUp, hset, hgap, ← hlen]
    rw [List.length_append, List.length_singleton] at hcopy
    rw [show a.length + (gap.length + 1) + 1 = a.length + 1 + (gap.length + 1) by omega, hcopy]
    simp

theorem copyDown_self (buf : List Char) (p n : Nat) : copyDown buf p p n = buf := by
  induction n with
  | zero => rfl
  | succ n ih =>
    have hset : buf.set (p + n) (buf.getD (p + n) NUL) = buf := by
      by_cases hlt : p + n < buf.length
      · rw [List.getD_eq_getElem _ _ hlt, List.set_getElem_self]
      · exact List.set_eq_of_length_le (Nat.le_of_not_lt hlt)
    rw [copyDown, hset, ih]

theorem memmove_front {buf rem junk : List Char} {p : Nat} (hbuf : buf.drop p = rem ++ junk)
    (hp : p ≤ buf.length) :
    ∃ junk', rem.length + junk'.length = buf.length ∧ memmove buf 0 p rem.length = rem ++ junk' := by
  have hlen : buf.length = p + (rem.length + junk.length) := by
    rw [← List.length_append, ← hbuf, List.length_drop]
    omega
  cases p with
  | zero => exact ⟨junk, by omega, (copyDown_self buf 0 _).trans hbuf⟩
  | succ p =>
    cases buf with
    | nil => cases hp
    | cons x buf =>
      obtain ⟨junk', hjunk, hcopy⟩ := copyUp_append [] (buf.take p) rem junk x
      have hmid : (buf.take p).length = p := List.length_take_of_le (Nat.le_of_succ_le_succ hp)
      have hall : [] ++ x :: buf.take p ++ rem ++ junk = x :: buf := by
        rw [List.append_assoc, ← hbuf, List.drop_succ_cons, List.nil_append, List.cons_append,
          List.take_append_drop]
      rw [hmid, hall, List.length_nil, Nat.zero_add] at hcopy
      exact ⟨junk', by omega, hcopy⟩

theorem grepLines_spec (pattern : List Char) {buf text junk : List Char} {p : Nat} (out : List Char)
    (hbuf : buf.drop p = text ++ NUL :: junk) (hnul : NUL ∉ text) (hfit : text.length < bufSize) :
    ∃ buf' p' rem out', grepLines pattern buf p out = (buf', p', out') ∧
      buf'.length = buf.length ∧ buf'.drop p' = rem ++ NUL :: junk ∧ '\n' ∉ rem ∧ NUL ∉ rem ∧
      ∀ rest, out' ++ printed pattern (shortLines (rem ++ rest)) =
        out ++ printed pattern (shortLines (text ++ rest)) := by
  induction hn : text.length using Nat.strongRecOn generalizing buf p text out with
  | ind n ih =>
    subst hn
    rw [grepLines]
    by_cases hmem : '\n' ∈ text
    · obtain ⟨l, r, rfl, hl⟩ := List.eq_append_cons_of_mem hmem
      rw [List.append_assoc, List.cons_append] at hbuf
      rw [List.length_append, List.length_cons] at hfit ih
      obtain ⟨hnl, hnr⟩ : NUL ∉ l ∧ NUL ∉ r := by
        simp only [List.mem_append, List.mem_cons, not_or] at hnul
        exact ⟨hnul.1, hnul.2.2⟩
      have hshort : Short l = true := by
        rw [Short, decide_eq_true_eq]
        omega
      have hset : ∀ c, (buf.set (p + l.length) c).drop p = l ++ c :: (r ++ NUL :: junk) := by
        intro c
        rw [List.drop_set, if_neg (by omega), Nat.add_sub_cancel_left, hbuf]
        simp
      -- the loop goes on behind the newline, whatever stands in its place
      have hnext : ∀ c, (buf.set (p + l.length) c).drop (p + l.length + 1) = r ++ NUL :: junk := by
        intro c
        rw [List.drop_set, if_pos (Nat.lt_succ_self _), Nat.add_assoc, ← List.drop_drop, hbuf]
        simp
      have hstr : cstr (buf.set (p + l.length) NUL) p = l := by
        rw [cstr, hset, List.takeWhile_append_of_pos, List.takeWhile_cons_of_neg (by simp),
          List.append_nil]
        intro a ha
        rw [decide_eq_true_eq]
        rintro rfl
        exact hnl ha
      have hslice : ((buf.set (p + l.length) '\n').drop p).take (p + l.length + 1 - p) =
          l ++ ['\n'] := by
        rw [hset, List.append_cons, List.take_append_of_le_length, List.take_of_length_le] <;>
          simp <;> omega
      have hchr : strchr (buf.drop p) '\n' = some l.length := by
        rw [hbuf]
        exact strchr_of_first hnl hl (by decide) _
      split
      · rename_i h
        rw [hchr] at h
        cases h
      · rename_i k h
        obtain rfl : l.length = k := Option.some.inj (hchr.symm.trans h)
        simp only [List.set_set, hstr, hslice, List.append_assoc, List.cons_append,
          shortLines_append hl hshort, printed_cons]
        split
        · obtain ⟨buf', p', rem, out', hrun, hlen, hdrop, hnlrem, hnulrem, hout⟩ :=
            ih r.length (by omega) (out ++ (l ++ ['\n'])) (hnext '\n') hnr (by omega) rfl
          refine ⟨buf', p', rem, out', hrun, hlen.trans List.length_set, hdrop, hnlrem, hnulrem, ?_⟩
          intro rest
          rw [hout rest]
          simp
        · obtain ⟨buf', p', rem, out', hrun, hlen, hrem⟩ :=
            ih r.length (by omega) out (hnext NUL) hnr (by omega) rfl
          exact ⟨buf', p', rem, out', hrun, hlen.trans List.length_set, hrem⟩
    · have hchr : strchr (buf.drop p) '\n' = none := by
        rw [hbuf]
        exact strchr_of_not_mem hnul hmem junk
      refine ⟨buf, p, text, out, ?_, rfl, hbuf, hmem, hnul, fun _ => rfl⟩
      split
      · rfl
      · rename_i h
        rw [hchr] at h
        cases h

/-- **The loop of `grep`** prints the lines that fit, whatever pieces `read` gives. -/
theorem grepLoop_spec (sizes : Nat → Nat) (i : Nat) (held junk data out : List Char)
    (hsize : held.length + junk.length = bufSize) (hroom : junk ≠ []) (hnl : '\n' ∉ held)
    (hheld : NUL ∉ held) (hnul : NUL ∉ data) :
    grepLoop pattern sizes i (held ++ junk) held.length data out =
      out ++ printed pattern (shortLines (held ++ data)) := by
  induction hn : data.length using Nat.strongRecOn generalizing i held junk data out with
  | ind len ih =>
    subst hn
    have hpos := List.length_pos_of_ne_nil hroom
    rw [grepLoop]
    generalize hread : readSize (sizes i) (bufSize - held.length - 1) data.length = n
    unfold readSize at hread
    split
    · rename_i hn
      obtain ⟨x, junk2, hjunk⟩ : ∃ x junk2, junk.drop n = x :: junk2 := by
        refine List.exists_cons_of_ne_nil fun h => ?_
        have := List.drop_eq_nil_iff.mp h
        omega
      have hlen := congrArg List.length hjunk
      rw [List.length_drop, List.length_cons] at hlen
      have htake : (data.take n).length = n := List.length_take_of_le (by omega)
      -- the piece read stands behind the line kept, with a NUL behind it
      have hbuf : ((held ++ junk).take held.length ++ data.take n ++
          (held ++ junk).drop (held.length + n)).set (held.length + n) NUL =
            held ++ data.take n ++ NUL :: junk2 := by
        rw [List.take_left, ← List.drop_drop, List.drop_left, hjunk]
        simp [htake]
      have hnul' : NUL ∉ held ++ data.take n :=
        List.not_mem_append hheld fun h => hnul (List.mem_of_mem_take h)
      have hfit : (held ++ data.take n).length < bufSize := by
        rw [List.length_append, htake]
        omega
      obtain ⟨buf', p', rem, out', hrun, hlen', hdrop, hrem, hnrem, hout⟩ :=
        grepLines_spec pattern (p := 0) out List.drop_zero hnul' hfit
      have hlast := congrArg List.length hdrop
      simp only [List.length_drop, List.length_append, List.length_cons, htake] at hlast hlen'
      obtain ⟨junk3, hjunk3, hmove⟩ := memmove_front hdrop (by omega)
      rw [hbuf, hrun]
      simp only [show held.length + n - p' = rem.length by omega, hmove]
      rw [if_pos (by omega), ih (data.drop n).length (by rw [List.length_drop]; omega) (i + 1) rem
        junk3 _ out' (by omega) ?_ hrem hnrem (fun h => hnul (List.mem_of_mem_drop h)) rfl, hout,
        List.append_assoc, List.take_append_drop]
      rintro rfl
      rw [List.length_nil] at hjunk3
      omega
    · -- nothing is left, or the line kept fills `buf`
      have hnone : shortLines (held ++ data) = [] := by
        by_cases hfull : bufSize ≤ held.length + 1
        · exact shortLines_of_long hnl hfull data
        · obtain rfl : data = [] := List.eq_nil_of_length_eq_zero (by omega)
          rw [List.append_nil, shortLines, lines_of_not_mem hnl]
          rfl
      rw [hnone]
      exact (List.append_nil out).symm

/-- **What `grep` prints**: the matching lines before the first line that does not fit. -/
theorem grep_eq (pattern : List Char) (sizes : Nat → Nat) {buf stream : List Char}
    (hbuf : buf.length = bufSize) (hnul : NUL ∉ stream) :
    grep pattern buf sizes stream = printed pattern (shortLines stream) := by
  refine grepLoop_spec sizes 0 [] buf stream [] ?_ ?_ nofun nofun hnul
  · rw [List.length_nil, Nat.zero_add, hbuf]
  · rintro rfl
    cases hbuf

/-- **The line loop of `grep`.** However `read` splits a stream without a NUL, the output is the matching
lines before the first one that does not fit `buf`: all matching lines iff none matches from there on. -/
theorem grep_lines_iff (pattern : List Char) (sizes : Nat → Nat) {buf stream : List Char}
    (hbuf : buf.length = bufSize) (hnul : NUL ∉ stream) :
    grep pattern buf sizes stream = printed pattern (shortLines stream) ∧
      (grep pattern buf sizes stream = printed pattern (lines stream) ↔
        ∀ l ∈ (lines stream).dropWhile Short, grepMatch pattern l = false) := by
  have hsplit : printed pattern (lines stream) =
      printed pattern (shortLines stream) ++ printed pattern ((lines stream).dropWhile Short) := by
    rw [printed, printed, printed, ← List.flatMap_append, ← List.filter_append, shortLines,
      List.takeWhile_append_dropWhile]
  rw [grep_eq pattern sizes hbuf hnul, hsplit, List.self_eq_append_right, printed_eq_nil]
  exact ⟨rfl, Iff.rfl⟩

/-- Two short lines, read two bytes at a time. -/
theorem grep_lines_two :
    grep ['a'] (List.replicate bufSize NUL) (fun _ => 2) "ab\nc\n".toList =
      printed ['a'] (lines "ab\nc\n".toList) := by
  refine (grep_lines_iff ['a'] (fun _ => 2) List.length_replicate (by decide)).2.mpr ?_
  decide

/-- A line of 1023 characters that matches fills `buf`: nothing is printed. -/
theorem grep_misses_long_line :
    NUL ∉ List.replicate 1023 'a' ++ ['\n'] ∧
    printed ['a'] (lines (List.replicate 1023 'a' ++ ['\n'])) = List.replicate 1023 'a' ++ ['\n'] ∧
    ∀ sizes, grep ['a'] (List.replicate bufSize NUL) sizes (List.replicate 1023 'a' ++ ['\n']) = [] := by
  have hmem : ∀ c, c ≠ 'a' → c ∉ List.replicate 1023 'a' := fun c hc h =>
    hc (List.eq_of_mem_replicate h)
  have hnul : NUL ∉ List.replicate 1023 'a' ++ ['\n'] :=
    List.not_mem_append (hmem _ (by decide)) (by decide)
  have hmatch : grepMatch ['a'] (List.replicate 1023 'a') = true := by
    rw [List.replicate_succ]
    rfl
  refine ⟨hnul, ?_, fun sizes => ?_⟩
  · rw [lines_append (hmem _ (by decide)) [], printed_cons, if_pos hmatch]
    exact List.append_nil _
  · rw [grep_eq ['a'] sizes List.length_replicate hnul,
      shortLines_of_long (hmem _ (by decide)) (by rw [List.length_replicate]; decide)]
    rfl

end Xv6Freezer.Grep

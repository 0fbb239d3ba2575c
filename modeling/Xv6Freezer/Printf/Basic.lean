import Mathlib

/-! # The two copies of `printf`

`printf` of the kernel and `vprintf` of the user library. The variable arguments are 64-bit words, and `str`
says which string is at an address. The result is what is written, or `none` if `printint` writes outside its
buffer `buf`.
-/

namespace Xv6Freezer.Printf

def bufSize : Nat := 16

def digits : List Char := "0123456789abcdef".toList

def userDigits : List Char := "0123456789ABCDEF".toList

section Printint

variable (digits : List Char)

/-- The loop of `printint` that stores the digits, the last one first; `buf` has that much `room`. -/
def digitLoop (base : Nat) : Nat → Nat → List Char → Option (List Char)
  | 0, _, _ => none
  | room + 1, x, buf =>
    let buf := buf ++ [digits.getD (x % base) '\x00']
    if x / base ≠ 0 then digitLoop base room (x / base) buf else some buf

/-- `printint(xx, base, sign)`, for an `xx` of `w` bits: the characters that are written. -/
def printintOf (w : Nat) (xx : BitVec w) (base : Nat) (sign : Bool) : Option (List Char) := do
  let neg := sign && decide (xx.toInt < 0)
  let x := if neg then (-xx).toNat else xx.toNat
  let buf ← digitLoop digits base bufSize x []
  if neg then
    -- `buf[i++] = '-'`
    if buf.length < bufSize then some (buf ++ ['-']).reverse else none
  else some buf.reverse

def printptr (x : BitVec 64) : List Char :=
  ['0', 'x'] ++ (List.range 16).map fun i => digits.getD ((x <<< (4 * i)) >>> 60).toNat '\x00'

end Printint

/-- `printint` of the kernel: `xx` is a `long long`. -/
def printint (xx : BitVec 64) (base : Nat) (sign : Bool) : Option (List Char) :=
  printintOf digits 64 xx base sign

/-- `printint` of the user library: `xx` is an `int`. -/
def userPrintint (xx : BitVec 32) (base : Nat) (sign : Bool) : Option (List Char) :=
  printintOf userDigits 32 xx base sign

/-- `va_arg(ap, int)`. -/
def vaInt (v : BitVec 64) : BitVec 32 := v.setWidth 32

def puts (str : BitVec 64 → List Char) (s : BitVec 64) : List Char :=
  if s = 0 then "(null)".toList else str s

/-- Write the characters `out`, and then go on. -/
def emit (out rest : Option (List Char)) : Option (List Char) := do
  let out ← out
  let rest ← rest
  return out ++ rest

variable (str : BitVec 64 → List Char)

/-- `printf(fmt, ...)` of the kernel. An `int` is extended to a `long long`. -/
def printf : List Char → (Nat → BitVec 64) → Option (List Char)
  | [], _ => some []
  -- a `%` at the end
  | ['%'], _ => some []
  | '%' :: 'd' :: fmt, ap =>
    emit (printint ((vaInt (ap 0)).signExtend 64) 10 true) (printf fmt fun n => ap (n + 1))
  | '%' :: 'l' :: 'd' :: fmt, ap => emit (printint (ap 0) 10 true) (printf fmt fun n => ap (n + 1))
  | '%' :: 'l' :: 'l' :: 'd' :: fmt, ap => emit (printint (ap 0) 10 true) (printf fmt fun n => ap (n + 1))
  | '%' :: 'u' :: fmt, ap =>
    emit (printint ((vaInt (ap 0)).signExtend 64) 10 false) (printf fmt fun n => ap (n + 1))
  | '%' :: 'l' :: 'u' :: fmt, ap => emit (printint (ap 0) 10 false) (printf fmt fun n => ap (n + 1))
  | '%' :: 'l' :: 'l' :: 'u' :: fmt, ap => emit (printint (ap 0) 10 false) (printf fmt fun n => ap (n + 1))
  | '%' :: 'x' :: fmt, ap =>
    emit (printint ((vaInt (ap 0)).signExtend 64) 16 false) (printf fmt fun n => ap (n + 1))
  | '%' :: 'l' :: 'x' :: fmt, ap => emit (printint (ap 0) 16 false) (printf fmt fun n => ap (n + 1))
  | '%' :: 'l' :: 'l' :: 'x' :: fmt, ap => emit (printint (ap 0) 16 false) (printf fmt fun n => ap (n + 1))
  | '%' :: 'p' :: fmt, ap => emit (some (printptr digits (ap 0))) (printf fmt fun n => ap (n + 1))
  | '%' :: 's' :: fmt, ap => emit (some (puts str (ap 0))) (printf fmt fun n => ap (n + 1))
  | '%' :: '%' :: fmt, ap => emit (some ['%']) (printf fmt ap)
  | '%' :: c0 :: fmt, ap => emit (some ['%', c0]) (printf fmt ap)
  | cx :: fmt, ap => emit (some [cx]) (printf fmt ap)

/-- `vprintf(fd, fmt, ap)` of the user library; the flag is `state == '%'`. -/
def vprintf : Bool → List Char → (Nat → BitVec 64) → Option (List Char)
  | _, [], _ => some []
  | false, '%' :: fmt, ap => vprintf true fmt ap
  | false, c0 :: fmt, ap => emit (some [c0]) (vprintf false fmt ap)
  | true, 'd' :: fmt, ap => emit (userPrintint (vaInt (ap 0)) 10 true) (vprintf false fmt fun n => ap (n + 1))
  | true, 'l' :: 'd' :: fmt, ap =>
    emit (userPrintint ((ap 0).setWidth 32) 10 true) (vprintf false fmt fun n => ap (n + 1))
  | true, 'l' :: 'l' :: 'd' :: fmt, ap =>
    emit (userPrintint ((ap 0).setWidth 32) 10 true) (vprintf false fmt fun n => ap (n + 1))
  | true, 'u' :: fmt, ap => emit (userPrintint (vaInt (ap 0)) 10 false) (vprintf false fmt fun n => ap (n + 1))
  | true, 'l' :: 'u' :: fmt, ap =>
    emit (userPrintint ((ap 0).setWidth 32) 10 false) (vprintf false fmt fun n => ap (n + 1))
  | true, 'l' :: 'l' :: 'u' :: fmt, ap =>
    emit (userPrintint ((ap 0).setWidth 32) 10 false) (vprintf false fmt fun n => ap (n + 1))
  | true, 'x' :: fmt, ap => emit (userPrintint (vaInt (ap 0)) 16 false) (vprintf false fmt fun n => ap (n + 1))
  | true, 'l' :: 'x' :: fmt, ap =>
    emit (userPrintint ((ap 0).setWidth 32) 16 false) (vprintf false fmt fun n => ap (n + 1))
  | true, 'l' :: 'l' :: 'x' :: fmt, ap =>
    emit (userPrintint ((ap 0).setWidth 32) 16 false) (vprintf false fmt fun n => ap (n + 1))
  | true, 'p' :: fmt, ap => emit (some (printptr userDigits (ap 0))) (vprintf false fmt fun n => ap (n + 1))
  | true, 's' :: fmt, ap => emit (some (puts str (ap 0))) (vprintf false fmt fun n => ap (n + 1))
  | true, '%' :: fmt, ap => emit (some ['%']) (vprintf false fmt ap)
  | true, c0 :: fmt, ap => emit (some ['%', c0]) (vprintf false fmt ap)

end Xv6Freezer.Printf

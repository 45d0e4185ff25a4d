import GokuStudio.Nginx.Core

/-!
# The ranges of a request (`ngx_http_range_parse`)

The text is what stands behind `bytes=` in the header line. It ends at a NUL byte;
a pointer to its end reads NUL. Numbers are read into an `off_t`, whose arithmetic
wraps around.
-/

namespace GokuStudio.Nginx

open Lib

/-- `ngx_http_range_t`: the bytes from `start` up to, but not including, `stop`. -/
structure HttpRange where
  start : Int
  stop : Int
deriving DecidableEq, Repr

namespace Range

def skipSpaces (p : Bytes) : Bytes := p.dropWhile (· = (' ' : UInt8))

/-- `while (*p >= '0' && *p <= '9')` -/
def readDigits : Int → Bytes → Int × Bytes
  | n, [] => (n, [])
  | n, ch :: p =>
    if isDigit ch then readDigits (offT (n * 10 + ch.toNat - ('0' : UInt8).toNat)) p
    else (n, ch :: p)

/-- A range has been found: `start`, `end`, and what is left of the text. -/
structure Found where
  start : Int
  stop : Int
  p : Bytes
deriving DecidableEq, Repr

/-- From the digits of `end` on. -/
def readEnd (contentLength start : Int) (suffix : Bool) (p : Bytes) : Option Found :=
  if ¬ isDigit (peek p) then none
  else
    let read := readDigits 0 p
    let p := skipSpaces read.2
    if peek p ≠ ',' ∧ peek p ≠ NUL then none
    else
      let start := if suffix then offT (contentLength - read.1) else start
      let stop := if suffix then contentLength - 1 else read.1
      some ⟨start, if stop ≥ contentLength then contentLength else stop + 1, p⟩

/-- The turn of the loop up to `found:`. -/
def readRange (contentLength : Int) (p : Bytes) : Option Found :=
  let p := skipSpaces p
  if peek p ≠ '-' then
    if ¬ isDigit (peek p) then none
    else
      let read := readDigits 0 p
      let p := skipSpaces read.2
      if peek p ≠ '-' then none
      else
        let p := skipSpaces (p.drop 1)
        if peek p = ',' ∨ peek p = NUL then some ⟨read.1, contentLength, p⟩
        else readEnd contentLength read.1 false p
  else readEnd contentLength 0 true (p.drop 1)

/-- What the loop carries: how many ranges may still be collected, the sum of their
sizes, and the array. -/
structure Ctx where
  ranges : Nat
  size : Int := 0
  elts : List HttpRange := []
deriving DecidableEq, Repr

/-- `found:`. No context means that there are too many ranges. -/
def push (c : Ctx) (start stop : Int) : Option Ctx :=
  if start < stop then
    if c.ranges = 0 then none
    else some ⟨c.ranges - 1, offT (c.size + offT (stop - start)), c.elts ++ [⟨start, stop⟩]⟩
  else some c

/-- It is never `stuck`; that would be a loop with more turns than the text has
bytes. -/
inductive Parsed where
  | ok (c : Ctx)
  | declined
  | notSatisfiable
  | stuck
deriving DecidableEq, Repr

/-- Behind the loop. -/
def finish (contentLength : Int) (c : Ctx) : Parsed :=
  if c.elts = [] then .notSatisfiable
  else if c.size > contentLength then .declined
  else .ok c

/-- `for ( ;; )` -/
def loop (contentLength : Int) : Nat → Ctx → Bytes → Parsed
  | 0, _, _ => .stuck
  | fuel + 1, c, p =>
    match readRange contentLength p with
    | none => .notSatisfiable
    | some found =>
      match push c found.start found.stop with
      | none => .declined
      | some c =>
        if peek found.p ≠ ',' then finish contentLength c
        else loop contentLength fuel c (found.p.drop 1)

end Range

def rangeParse (p : Bytes) (contentLength : Int) (ranges : Nat) : Range.Parsed :=
  Range.loop contentLength (p.length + 1) { ranges := ranges } p

end GokuStudio.Nginx

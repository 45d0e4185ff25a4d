import GokuStudio.Lib.Files
import Mathlib.Algebra.Ring.Int.Defs

/-!
# nginx: bytes and return codes

A character constant of the source stands for its byte. Pointers into a buffer
are positions in it, and a pointer that may be `NULL` is an `Option Nat`.
-/

namespace GokuStudio.Nginx

open Lib

instance coeCharByte : Coe Char UInt8 := ⟨Char.toUInt8⟩

def CR : UInt8 := 13
def LF : UInt8 := 10
def NUL : UInt8 := 0

/-- The bytes of a string constant. -/
def text (cs : List Char) : Bytes := cs.map Char.toUInt8

/-- `*p`, where a text ends with a NUL byte. -/
def peek : Bytes → UInt8
  | [] => NUL
  | ch :: _ => ch

/-- The bytes from position `i` up to, but not including, position `j`. -/
def slice (buf : Bytes) (i j : Nat) : Bytes := (buf.take j).drop i

theorem slice_append {buf : Bytes} {i j : Nat} (more : Bytes) (h : j ≤ buf.length) :
    slice (buf ++ more) i j = slice buf i j := by
  rw [slice, slice, List.take_append_of_le_length h]

theorem length_slice {buf : Bytes} {i j : Nat} (h : j ≤ buf.length) : (slice buf i j).length = j - i := by
  rw [slice, List.length_drop, List.length_take, Nat.min_eq_left h]

/-- Only those codes that the modelled functions return. -/
inductive Rc where
  | ok
  | error
  | again
  | done
  | declined
  | headerDone
  | invalidMethod
  | invalidRequest
  | invalid09Method
  | invalidHeader
deriving DecidableEq, Repr

section
variable (ch : UInt8)

def isLower : Bool := 'a' ≤ ch ∧ ch ≤ 'z'
def isUpper : Bool := 'A' ≤ ch ∧ ch ≤ 'Z'
def isDigit : Bool := '0' ≤ ch ∧ ch ≤ '9'

/-- `c = (u_char) (ch | 0x20); c >= 'a' && c <= 'z'` -/
def isLetter : Bool := isLower (ch ||| 0x20)

/-- `ngx_tolower` -/
def tolower (c : UInt8) : UInt8 := if 'A' ≤ c ∧ c ≤ 'Z' then c ||| 0x20 else c

/-- What `ngx_strlow` writes. -/
def strlow (s : Bytes) : Bytes := s.map tolower

/-- To decide a property of bytes by trying all of them. -/
theorem forall_byte {P : UInt8 → Prop} (h : ∀ n : Fin 256, P (UInt8.ofFin n)) (ch : UInt8) : P ch := h ch.toFin

/-! ## Hexadecimal digits -/

/-- `c = (u_char) (ch | 0x20); c >= 'a' && c <= 'f'` -/
def isHexLetter : Bool := 'a' ≤ ch ||| 0x20 ∧ ch ||| 0x20 ≤ 'f'

def letterValue : UInt8 := (ch ||| 0x20) - 'a' + 10

/-- The value of a digit, in the usual reading. -/
def hexValue : Option UInt8 :=
  if '0' ≤ ch ∧ ch ≤ '9' then some (ch - '0')
  else if 'a' ≤ ch ∧ ch ≤ 'f' then some (ch - 'a' + 10)
  else if 'A' ≤ ch ∧ ch ≤ 'F' then some (ch - 'A' + 10)
  else none

end

theorem hexValue_eq : ∀ ch : UInt8, hexValue ch =
    if isDigit ch then some (ch - '0') else if isHexLetter ch then some (letterValue ch) else none := by
  apply forall_byte
  decide +kernel

theorem digit_lt : ∀ ch : UInt8, isDigit ch → (ch - '0').toNat < 10 := by
  apply forall_byte
  decide +kernel

theorem letter_bounds : ∀ ch : UInt8, isHexLetter ch → 10 ≤ (letterValue ch).toNat ∧ (letterValue ch).toNat < 16 := by
  apply forall_byte
  decide +kernel

theorem hexValue_lt {a x : UInt8} (h : hexValue a = some x) : x.toNat < 16 := by
  rw [hexValue_eq] at h
  split_ifs at h with hd hl
  · cases h
    exact Nat.lt_trans (digit_lt a hd) (by decide)
  · cases h
    exact (letter_bounds a hl).2

/-- The value that an `off_t`, a 64-bit number with a sign, holds. -/
def offT (x : Int) : Int := x.bmod (2 ^ 64)

theorem offT_of_lt {x : Int} (h0 : -2 ^ 63 ≤ x) (h : x < 2 ^ 63) : offT x = x := by
  rw [offT]
  exact Int.bmod_eq_of_le (by omega) (by omega)

end GokuStudio.Nginx

import GokuStudio.Nginx.Core

/-!
# Numbers in texts (`ngx_string.c`, `ngx_parse.c`)

Five functions of one shape read a number, digit by digit, into a 64-bit variable with a
sign. What is too large wraps around, and only the sign of the last value is looked at; the
two functions that read a number with a unit do not look at their product at all.

`denoted` is the number that a text stands for. A result is wrong exactly if the number, or
its product with the unit, does not fit and the sign did not give it away (`Wraps`).
-/

namespace GokuStudio.Nginx.Numbers

open Lib

/-! ## §1 The functions -/

def ngxError : Int := -1

/-- `value = value * base + digit` along the text, up to a character that is no digit. -/
def accumulate (base : Nat) (digit : UInt8 → Option Nat) : Int → Bytes → Option Int
  | value, [] => some value
  | value, c :: line =>
    match digit c with
    | none => none
    | some d => accumulate base digit (offT (value * base + d)) line

def readNumber (base : Nat) (digit : UInt8 → Option Nat) (line : Bytes) : Int :=
  if line = [] then ngxError
  else
    match accumulate base digit 0 line with
    | none => ngxError
    | some value => if value < 0 then ngxError else value

def decDigit (c : UInt8) : Option Nat := if c < '0' ∨ c > '9' then none else some (c - '0').toNat

def hexDigit (ch : UInt8) : Option Nat :=
  if isDigit ch then some (ch - '0').toNat
  else if isHexLetter ch then some (letterValue ch).toNat
  else none

def ngxAtoi : Bytes → Int := readNumber 10 decDigit
def ngxAtosz : Bytes → Int := readNumber 10 decDigit
def ngxAtoof : Bytes → Int := readNumber 10 decDigit
def ngxAtotm : Bytes → Int := readNumber 10 decDigit
def ngxHextoi : Bytes → Int := readNumber 16 hexDigit

/-- The scale of the unit at the end of the text, and the text without it. -/
def unitOf (scale : UInt8 → Nat) (line : Bytes) : Nat × Bytes :=
  match line.getLast? with
  | none => (1, line)
  | some unit => if scale unit = 1 then (1, line) else (scale unit, line.dropLast)

def times (scale : Nat) (size : Int) : Int := if size = ngxError then ngxError else offT (size * scale)

/-- `line->data[len - 1]` of an empty text is the byte in front of it: `none`. -/
def parseUnit (scale : UInt8 → Nat) (number : Bytes → Int) (line : Bytes) : Option Int :=
  if line = [] then none else some (times (unitOf scale line).1 (number (unitOf scale line).2))

def sizeScale (unit : UInt8) : Nat :=
  if unit = 'K' ∨ unit = 'k' then 1024
  else if unit = 'M' ∨ unit = 'm' then 1024 * 1024
  else 1

def offsetScale (unit : UInt8) : Nat :=
  if unit = 'K' ∨ unit = 'k' then 1024
  else if unit = 'M' ∨ unit = 'm' then 1024 * 1024
  else if unit = 'G' ∨ unit = 'g' then 1024 * 1024 * 1024
  else 1

def ngxParseSize : Bytes → Option Int := parseUnit sizeScale ngxAtosz
def ngxParseOffset : Bytes → Option Int := parseUnit offsetScale ngxAtoof

/-! ## §2 What a text denotes -/

def digitOf (base : Nat) (c : UInt8) : Option Nat := ((hexValue c).map UInt8.toNat).filter (· < base)

/-- A text that is not empty and has only digits denotes a number. -/
def denoted (base : Nat) (line : Bytes) : Option Nat :=
  if line = [] then none else (line.mapM (digitOf base)).map (List.foldl (fun n d => n * base + d) 0)

/-- The number times the scale, where that fits into 63 bits. -/
def exact (scale base : Nat) (line : Bytes) : Int :=
  match denoted base line with
  | none => ngxError
  | some n => if n * scale < 2 ^ 63 then n * scale else ngxError

/-- The product does not fit, and the number itself has wrapped to one without a sign, if it has wrapped at all. -/
def Wraps (scale base : Nat) (line : Bytes) : Prop :=
  ∃ n, denoted base line = some n ∧ 2 ^ 63 ≤ n * scale ∧ n % 2 ^ 64 < 2 ^ 63

/-- The same of a text with a unit. -/
def exactUnit (scale : UInt8 → Nat) (line : Bytes) : Int := exact (unitOf scale line).1 10 (unitOf scale line).2

def UnitWraps (scale : UInt8 → Nat) (line : Bytes) : Prop := Wraps (unitOf scale line).1 10 (unitOf scale line).2

/-! ## §3 Where the functions are right -/

theorem decDigit_eq : ∀ c : UInt8, decDigit c = digitOf 10 c := by
  apply forall_byte
  decide +kernel

theorem hexDigit_eq : ∀ c : UInt8, hexDigit c = digitOf 16 c := by
  apply forall_byte
  decide +kernel

section Number
variable {base : Nat} {digit : UInt8 → Option Nat} {line : Bytes}

theorem offT_step (x b d : Int) : offT (offT x * b + d) = offT (x * b + d) := by
  simp only [offT]
  rw [← Int.bmod_add_bmod, Int.bmod_mul_bmod, Int.bmod_add_bmod]

theorem offT_natCast (n : Nat) : offT n = if n % 2 ^ 64 < 2 ^ 63 then ((n % 2 ^ 64 : Nat) : Int)
    else (n % 2 ^ 64 : Nat) - 2 ^ 64 := by
  rw [offT, Int.bmod_def]
  split <;> split <;> omega

/-- The scales are even, but for 1: a product is not taken for an error. -/
theorem offT_mul_ne {m scale : Nat} (hm : m < 2 ^ 63) (hs : scale = 1 ∨ 2 ∣ scale ∧ 0 < scale) :
    offT (m * scale : Nat) ≠ ngxError := by
  have hodd : ¬ (m * scale) % 2 ^ 64 = 2 ^ 64 - 1 := by
    rcases hs with rfl | ⟨⟨k, rfl⟩, -⟩
    · omega
    · rw [Nat.mul_left_comm]
      omega
  rw [offT_natCast, ngxError]
  split <;> omega

variable (hdigit : ∀ c, digit c = digitOf base c)
include hdigit

/-- The loop keeps the number, as far as 64 bits hold it. -/
theorem accumulate_eq (line : Bytes) (n : Nat) : accumulate base digit (offT n) line =
    (line.mapM (digitOf base)).map fun ds => offT (ds.foldl (fun n d => n * base + d) n : Nat) := by
  induction line generalizing n with
  | nil => rfl
  | cons c line ih =>
    rw [accumulate, hdigit, List.mapM_cons]
    cases digitOf base c with
    | none => rfl
    | some d =>
      have := ih (n * base + d)
      push_cast at this
      simp only [offT_step, this]
      cases line.mapM (digitOf base) <;> simp

theorem readNumber_eq : readNumber base digit line =
    match denoted base line with
    | none => ngxError
    | some n => if offT n < 0 then ngxError else offT n := by
  rw [readNumber, denoted]
  split
  · rfl
  have := accumulate_eq hdigit line 0
  rw [show offT (0 : Nat) = 0 from rfl] at this
  rw [this]
  cases line.mapM (digitOf base) <;> rfl

theorem times_readNumber_iff {scale : Nat} (hs : scale = 1 ∨ 2 ∣ scale ∧ 0 < scale) :
    times scale (readNumber base digit line) = exact scale base line ↔ ¬ Wraps scale base line := by
  rw [readNumber_eq hdigit, exact, Wraps]
  cases denoted base line with
  | none => simp [times]
  | some n =>
    simp only [Option.some.injEq, exists_eq_left', offT_natCast]
    have hle : n ≤ n * scale := Nat.le_mul_of_pos_right n (by omega)
    by_cases hbit : n % 2 ^ 64 < 2 ^ 63
    · -- no sign: the product is that of what is left of the number
      rw [if_pos hbit, if_neg (by omega), times, if_neg (by rw [ngxError]; omega), ← Int.natCast_mul]
      by_cases hfit : n * scale < 2 ^ 63
      · rw [if_pos hfit, Nat.mod_eq_of_lt (by omega), offT_of_lt (by omega) (by omega)]
        exact iff_of_true (Int.natCast_mul ..) fun h => absurd hfit (Nat.not_lt.mpr h.1)
      · rw [if_neg hfit]
        exact iff_of_false (offT_mul_ne hbit hs) fun h => h ⟨Nat.not_lt.mp hfit, hbit⟩
    · rw [if_neg hbit, if_pos (by omega), times, if_pos rfl, if_neg (by omega)]
      exact iff_of_true rfl fun h => hbit h.2

theorem readNumber_iff (line : Bytes) : readNumber base digit line = exact 1 base line ↔ ¬ Wraps 1 base line := by
  rw [← times_readNumber_iff hdigit (.inl rfl)]
  have hone : times 1 (readNumber base digit line) = readNumber base digit line := by
    rw [readNumber_eq hdigit]
    cases denoted base line with
    | none => rfl
    | some n =>
      simp only [offT_natCast]
      split
      · rw [if_neg (by omega), times, if_neg (by rw [ngxError]; omega), offT_of_lt (by omega) (by omega)]
        omega
      · rw [if_pos (by omega), times, if_pos rfl]
  rw [hone]

end Number

theorem parseUnit_iff {scale : UInt8 → Nat} (hs : ∀ c, scale c = 1 ∨ 2 ∣ scale c ∧ 0 < scale c) (line : Bytes) :
    parseUnit scale (readNumber 10 decDigit) line = some (exactUnit scale line) ↔ line ≠ [] ∧ ¬ UnitWraps scale line := by
  have hunit : (unitOf scale line).1 = 1 ∨ 2 ∣ (unitOf scale line).1 ∧ 0 < (unitOf scale line).1 := by
    rw [unitOf]
    split
    · exact .inl rfl
    split
    · exact .inl rfl
    · exact hs _
  rw [parseUnit]
  split
  · rename_i hnil
    simp [hnil]
  rename_i hne
  rw [Option.some.injEq, exactUnit, times_readNumber_iff decDigit_eq hunit]
  exact (and_iff_right hne).symm

/-- **Numbers.** On every text each function gives the number that the text denotes, or the error where there is
none or it does not fit, exactly if nothing has wrapped unseen; with a unit there also has to be a text. -/
theorem numbers_exact_iff (line : Bytes) :
    (∀ atoi ∈ [ngxAtoi, ngxAtosz, ngxAtoof, ngxAtotm], atoi line = exact 1 10 line ↔ ¬ Wraps 1 10 line) ∧
    (ngxHextoi line = exact 1 16 line ↔ ¬ Wraps 1 16 line) ∧
    (ngxParseSize line = some (exactUnit sizeScale line) ↔ line ≠ [] ∧ ¬ UnitWraps sizeScale line) ∧
    (ngxParseOffset line = some (exactUnit offsetScale line) ↔ line ≠ [] ∧ ¬ UnitWraps offsetScale line) := by
  refine ⟨fun atoi hatoi => ?_, readNumber_iff hexDigit_eq line, parseUnit_iff (fun c => ?_) line,
    parseUnit_iff (fun c => ?_) line⟩
  · have : atoi = readNumber 10 decDigit := by simpa [ngxAtoi, ngxAtosz, ngxAtoof, ngxAtotm] using hatoi
    rw [this]
    exact readNumber_iff decDigit_eq line
  · rw [sizeScale]
    split_ifs <;> decide
  · rw [offsetScale]
    split_ifs <;> decide

/-- `2 ^ 64` reads as 0, and so does `2 ^ 54` with its unit. -/
theorem wrapped_number_accepted : ngxAtoi (text "18446744073709551616".toList) = 0 ∧
    denoted 10 (text "18446744073709551616".toList) = some (2 ^ 64) ∧
    ngxParseSize (text "18014398509481984k".toList) = some 0 := by
  decide +kernel

end GokuStudio.Nginx.Numbers

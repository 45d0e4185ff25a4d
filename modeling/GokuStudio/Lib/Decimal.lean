import Mathlib.Data.List.TakeWhile
import Mathlib.Tactic.Common
import Mathlib.Tactic.Ring
import GokuStudio.Lib.Files

/-!
# Numbers as ASCII text

The decimal text that `printf` writes for a number (`dec`, `decInt`, and
`padLeft` for a field width) and the reading that `atol` does: skip white
space, take one sign, take digits up to the first other character. Reading
back what was written gives the number, blanks in front included
(`atol_padLeft_dec`).
-/

namespace GokuStudio.Lib

open List

def digitChar (d : Nat) : UInt8 := UInt8.ofNat (48 + d)
def isDigit (c : UInt8) : Bool := 48 ≤ c.toNat && c.toNat ≤ 57

/-- `isspace` in the C locale: blank, and `\t` to `\r`. -/
def isSpace (c : UInt8) : Bool := c.toNat == 32 || (9 ≤ c.toNat && c.toNat ≤ 13)

def decFuel : Nat → Nat → Bytes
  | 0, _ => []
  | f + 1, n =>
    if n < 10 then [digitChar n] else decFuel f (n / 10) ++ [digitChar (n % 10)]

/-- `%d` of a natural number. -/
def dec (n : Nat) : Bytes := decFuel (n + 1) n

def decInt (n : Int) : Bytes := if n < 0 then 45 :: dec n.natAbs else dec n.toNat

/-- A field width: blanks in front. -/
def padLeft (w : Nat) (s : Bytes) : Bytes := List.replicate (w - s.length) 32 ++ s

def digitsVal (s : Bytes) : Nat := (s.takeWhile isDigit).foldl (fun a c => 10 * a + (c.toNat - 48)) 0

def atol (s : Bytes) : Int :=
  match s.dropWhile isSpace with
  | [] => 0
  | c :: t =>
    if c = 45 then - (digitsVal t : Int)
    else if c = 43 then digitsVal t
    else digitsVal (c :: t)

/-! ## Writing -/

theorem decFuel_eq : ∀ {f g n : Nat}, n < f → n < g → decFuel f n = decFuel g n
  | 0, _, n, hf, _ => absurd hf (Nat.not_lt_zero n)
  | _, 0, n, _, hg => absurd hg (Nat.not_lt_zero n)
  | f + 1, g + 1, n, hf, hg => by
    by_cases hn : n < 10
    · simp [decFuel, hn]
    · rw [decFuel, decFuel, if_neg hn, if_neg hn, decFuel_eq (g := g) (by omega) (by omega)]

variable {n d : Nat}

theorem dec_of_lt (h : n < 10) : dec n = [digitChar n] := by
  simp [dec, decFuel, h]

theorem dec_of_ge (h : 10 ≤ n) : dec n = dec (n / 10) ++ [digitChar (n % 10)] := by
  rw [dec, decFuel, if_neg (by omega), dec, decFuel_eq (g := n / 10 + 1) (by omega) (by omega)]

theorem toNat_digitChar (h : d < 10) : (digitChar d).toNat = 48 + d := by
  rw [digitChar, UInt8.toNat_ofNat']
  omega

theorem isDigit_digitChar (h : d < 10) : isDigit (digitChar d) = true := by
  simp only [isDigit, toNat_digitChar h, Bool.and_eq_true, decide_eq_true_eq]
  omega

variable {c : UInt8}

theorem isDigit_of_mem_dec (hc : c ∈ dec n) : isDigit c = true := by
  induction n using Nat.strongRecOn with
  | ind n ih =>
    by_cases hn : n < 10
    · rw [dec_of_lt hn, mem_singleton] at hc
      exact hc ▸ isDigit_digitChar hn
    rw [dec_of_ge (by omega), mem_append, mem_singleton] at hc
    rcases hc with hc | rfl
    · exact ih (n / 10) (by omega) hc
    · exact isDigit_digitChar (Nat.mod_lt n (by omega))

theorem dec_ne_nil (n : Nat) : dec n ≠ [] := by
  by_cases hn : n < 10
  · simp [dec_of_lt hn]
  · simp [dec_of_ge (Nat.not_lt.mp hn)]

theorem length_dec_pos (n : Nat) : 0 < (dec n).length := length_pos_of_ne_nil (dec_ne_nil n)

/-- A character that is not a digit does not occur in a number's text. -/
theorem notMem_dec (h : isDigit c = false) : c ∉ dec n := by
  intro hc
  rw [isDigit_of_mem_dec hc] at h
  exact Bool.noConfusion h

theorem length_dec_le {k : Nat} (hk : 0 < k) (h : n < 10 ^ k) : (dec n).length ≤ k := by
  induction k generalizing n with
  | zero => omega
  | succ k ih =>
    by_cases hn : n < 10
    · simp [dec_of_lt hn]
    rw [dec_of_ge (by omega), length_append, length_singleton]
    have hk0 : 0 < k := by
      rcases Nat.eq_zero_or_pos k with rfl | hk0
      · exact absurd h (by simpa using hn)
      · exact hk0
    have : n / 10 < 10 ^ k := Nat.div_lt_of_lt_mul (by rwa [Nat.pow_succ, Nat.mul_comm] at h)
    have := ih hk0 this
    omega

theorem length_padLeft {w : Nat} {s : Bytes} (h : s.length ≤ w) : (padLeft w s).length = w := by
  simp only [padLeft, length_append, length_replicate]
  omega

/-! ## Reading back -/

theorem foldl_dec (n a : Nat) : (dec n).foldl (fun a c => 10 * a + (c.toNat - 48)) a = 10 ^ (dec n).length * a + n := by
  induction n using Nat.strongRecOn generalizing a with
  | ind n ih =>
    by_cases hn : n < 10
    · rw [dec_of_lt hn]
      simp only [foldl_cons, foldl_nil, toNat_digitChar hn, length_singleton]
      omega
    rw [dec_of_ge (by omega), foldl_append, ih (n / 10) (by omega), foldl_cons,
      foldl_nil, toNat_digitChar (Nat.mod_lt n (by omega)), length_append,
      length_singleton, Nat.pow_succ]
    have hdiv := Nat.div_add_mod n 10
    generalize 10 ^ (dec (n / 10)).length = p
    rw [Nat.mul_add, ← Nat.mul_assoc, Nat.mul_comm 10 p, Nat.add_assoc]
    omega

theorem digitsVal_dec (n : Nat) : digitsVal (dec n) = n := by
  rw [digitsVal, takeWhile_eq_self_iff.mpr fun _ => isDigit_of_mem_dec, foldl_dec]
  simp

theorem not_isSpace_of_isDigit (h : isDigit c = true) : isSpace c = false := by
  simp only [isDigit, Bool.and_eq_true, decide_eq_true_eq] at h
  simp only [isSpace, Bool.or_eq_false_iff, beq_eq_false_iff_ne, Bool.and_eq_false_iff, decide_eq_false_iff_not]
  omega

theorem atol_of_digit_head {t : Bytes} (h : isDigit c = true) : atol (c :: t) = digitsVal (c :: t) := by
  have hs := not_isSpace_of_isDigit h
  have h45 : c ≠ 45 := by rintro rfl; exact absurd h (by decide)
  have h43 : c ≠ 43 := by rintro rfl; exact absurd h (by decide)
  simp [atol, hs, h45, h43]

theorem atol_dec (n : Nat) : atol (dec n) = n := by
  cases hd : dec n with
  | nil => exact absurd hd (dec_ne_nil n)
  | cons c t =>
    have hc : isDigit c = true := isDigit_of_mem_dec (by rw [hd]; simp)
    rw [atol_of_digit_head hc, ← hd, digitsVal_dec]

theorem atol_replicate_blank (k : Nat) (s : Bytes) : atol (replicate k 32 ++ s) = atol s := by
  induction k with
  | zero => rfl
  | succ k ih =>
    have hs : isSpace 32 = true := by decide
    have hdrop : (replicate (k + 1) 32 ++ s).dropWhile isSpace = (replicate k 32 ++ s).dropWhile isSpace := by
      rw [replicate_succ, cons_append, dropWhile_cons, if_pos hs]
    rw [← ih, atol, hdrop, atol]

/-- A number written in a field of any width reads back. -/
theorem atol_padLeft_dec (w n : Nat) : atol (padLeft w (dec n)) = n := by
  rw [padLeft, atol_replicate_blank, atol_dec]

theorem decInt_natCast (n : Nat) : decInt (n : Int) = dec n := by
  have h : ¬ (n : Int) < 0 := by omega
  simp [decInt, h]

end GokuStudio.Lib

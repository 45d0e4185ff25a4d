import Mathlib.Algebra.GroupWithZero.Nat
import Mathlib.Tactic.Common

/-!
# Counters that wrap

The values of a counter lie on a circle. In a window of less than half the circle they have
an order: the signed difference of two of them is the difference of their distances from
the start of the window.
-/

namespace GokuStudio.Lib
variable {w : Nat} {b x y z : BitVec w}

/-- In the half circle that starts at `b`. -/
def Within (b x : BitVec w) : Prop := (x - b).toNat < 2 ^ (w - 1)

theorem Within.toInt_sub (hx : Within b x) (hy : Within b y) :
    (x - y).toInt = ((x - b).toNat : Int) - (y - b).toNat := by
  have hxy : x - y = (x - b) - (y - b) := by grind
  rw [Within] at hx hy
  cases w with
  | zero =>
    rw [BitVec.eq_nil (x - y), BitVec.eq_nil (x - b), BitVec.eq_nil (y - b)]
    rfl
  | succ w =>
    rw [Nat.add_sub_cancel] at hx hy
    have hpow := Nat.pow_succ (n := 2) (m := w)
    rw [hxy, BitVec.toInt_sub, BitVec.toInt_eq_toNat_of_lt (by omega), BitVec.toInt_eq_toNat_of_lt (by omega)]
    apply Int.bmod_eq_of_le_mul_two <;> omega

end GokuStudio.Lib

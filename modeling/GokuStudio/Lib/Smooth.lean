import Mathlib.Algebra.BigOperators.Group.Finset.Piecewise
import Mathlib.Algebra.Order.BigOperators.Group.Finset
import Mathlib.Algebra.Order.Ring.Int
import Mathlib.Tactic.Linarith
import Mathlib.Tactic.Ring

/-!
# Smooth weighted choice

Each turn adds to every member of a finite set its weight, chooses a member with the greatest
value, and takes the sum of all weights from it. The values sum to zero after every turn, so
the chosen value is positive, and no value ever falls to minus the sum of the weights. After
as many turns as that sum all values are multiples of it: they are zero again.
-/

namespace GokuStudio.Lib.Smooth

open Finset
variable {ι : Type} (s : Finset ι) (w : ι → ℤ) (best : (ι → ℤ) → ι)

/-- The sum of the weights. -/
def total : ℤ := ∑ i ∈ s, w i

/-- Every value gains its weight. -/
def gain (c : ι → ℤ) : ι → ℤ := fun i => c i + w i

theorem sum_gain (c : ι → ℤ) : ∑ i ∈ s, gain w c i = ∑ i ∈ s, c i + total s w := sum_add_distrib

variable [DecidableEq ι]

/-- One turn. -/
def turn (c : ι → ℤ) : ι → ℤ := fun i => gain w c i - if i = best (gain w c) then total s w else 0

/-- The values after some turns from zero. -/
def after : ℕ → ι → ℤ
  | 0 => fun _ => 0
  | k + 1 => turn s w best (after k)

/-- The choice that turn `k` makes, from 0. -/
def pick (k : ℕ) : ι := best (gain w (after s w best k))

/-- A member of the set where the value is greatest. -/
def Chooses : Prop := ∀ v, best v ∈ s ∧ ∀ i ∈ s, v i ≤ v (best v)

section
variable {s w best}

theorem after_eq (k : ℕ) (i : ι) : after s w best k i =
    k * w i - total s w * ((List.range k).map (pick s w best)).count i := by
  induction k with
  | zero => simp [after]
  | succ k ih =>
    rw [List.range_succ, List.map_append, List.count_append, List.map_singleton, List.count_singleton']
    show gain w (after s w best k) i - (if i = pick s w best k then total s w else 0) = _
    rw [gain, ih]
    by_cases heq : i = pick s w best k
    · rw [if_pos heq, if_pos heq.symm]
      push_cast
      ring
    · rw [if_neg heq, if_neg (Ne.symm heq)]
      push_cast
      ring

variable (hbest : Chooses s best)
include hbest

theorem sum_after (k : ℕ) : ∑ i ∈ s, after s w best k i = 0 := by
  induction k with
  | zero => exact sum_const_zero
  | succ k ih =>
    show ∑ i ∈ s, (gain w (after s w best k) i - if i = pick s w best k then total s w else 0) = 0
    have hmem : pick s w best k ∈ s := (hbest _).1
    rw [sum_sub_distrib, sum_gain, ih, sum_ite_eq_of_mem' s _ (fun _ => total s w) hmem]
    ring

/-- The greatest value before the sum of the weights is taken from it. -/
theorem gain_pick_pos (htotal : 0 < total s w) (k : ℕ) : 0 < gain w (after s w best k) (pick s w best k) := by
  by_contra hle
  have hall : ∀ i ∈ s, gain w (after s w best k) i ≤ 0 := by
    intro i hi
    exact ((hbest _).2 i hi).trans (not_lt.mp hle)
  have hsum := sum_nonpos hall
  rw [sum_gain, sum_after hbest] at hsum
  omega

variable {i : ι}

theorem neg_total_lt_after (htotal : 0 < total s w) (hw : ∀ i ∈ s, 0 ≤ w i) (k : ℕ)
    (hi : i ∈ s) : -total s w < after s w best k i := by
  induction k with
  | zero => exact neg_neg_of_pos htotal
  | succ k ih =>
    show -total s w < gain w (after s w best k) i - if i = pick s w best k then total s w else 0
    by_cases heq : i = pick s w best k
    · have hpos := gain_pick_pos hbest htotal k
      rw [← heq] at hpos
      rw [if_pos heq]
      omega
    · have hwi := hw i hi
      rw [if_neg heq, gain]
      omega

/-- Each value is less than the sum of the weights for each member. -/
theorem gain_after_lt (htotal : 0 < total s w) (hw : ∀ i ∈ s, 0 ≤ w i) (k : ℕ)
    (hi : i ∈ s) : gain w (after s w best k) i ≤ s.card * total s w := by
  have hsum := sum_gain s w (after s w best k)
  rw [sum_after hbest, zero_add, ← add_sum_erase s _ hi] at hsum
  have hothers : ∑ j ∈ s.erase i, gain w (after s w best k) j ≥ ∑ _j ∈ s.erase i, -total s w := by
    refine sum_le_sum fun j hj => ?_
    have hjs := mem_of_mem_erase hj
    have hlow := neg_total_lt_after hbest htotal hw k hjs
    have hwj := hw j hjs
    rw [gain]
    omega
  rw [sum_const, card_erase_of_mem hi, nsmul_eq_mul, Nat.cast_sub (card_pos.mpr ⟨i, hi⟩)] at hothers
  push_cast at hothers
  linarith

/-- After as many turns as the sum of the weights all values are zero. -/
theorem after_period (hw : ∀ i ∈ s, 0 ≤ w i) {W : ℕ} (hW : total s w = W) (hpos : 0 < W)
    (hi : i ∈ s) : after s w best W i = 0 := by
  have htotal : 0 < total s w := by omega
  -- each is a multiple of the sum, and above its negative
  have hnonneg : ∀ j ∈ s, 0 ≤ after s w best W j := by
    intro j hj
    have hlow := neg_total_lt_after hbest htotal hw W hj
    rw [after_eq, hW, ← mul_sub] at hlow ⊢
    refine mul_nonneg (Int.natCast_nonneg W) ?_
    by_contra hneg
    have hle := mul_le_mul_of_nonneg_left (Int.le_of_lt_add_one (not_le.mp hneg) : _ ≤ -1) (Int.natCast_nonneg W)
    omega
  exact (sum_eq_zero_iff_of_nonneg hnonneg).mp (sum_after hbest W) i hi

theorem after_outside (hi : i ∉ s) (hw : w i = 0) (k : ℕ) : after s w best k i = 0 := by
  induction k with
  | zero => rfl
  | succ k ih =>
    show gain w (after s w best k) i - (if i = pick s w best k then total s w else 0) = 0
    have hne : i ≠ pick s w best k := fun heq => hi (heq ▸ (hbest _).1)
    rw [if_neg hne, gain, ih, hw]
    rfl

omit hbest

variable (hbest : Chooses s best) (hw : ∀ i ∈ s, 0 ≤ w i) (hout : ∀ i ∉ s, w i = 0) {W : ℕ} (hW : total s w = W)
  (hpos : 0 < W)

include hbest hw hout hW hpos

theorem after_add (k : ℕ) : after s w best (k + W) = after s w best k := by
  induction k with
  | zero =>
    rw [Nat.zero_add]
    funext i
    by_cases hi : i ∈ s
    · exact after_period hbest hw hW hpos hi
    · exact after_outside hbest hi (hout i hi) W
  | succ k ih =>
    rw [Nat.succ_add]
    show turn s w best (after s w best (k + W)) = turn s w best (after s w best k)
    rw [ih]

theorem after_mul (m : ℕ) (i : ι) : after s w best (m * W) i = 0 := by
  induction m with
  | zero =>
    rw [Nat.zero_mul]
    rfl
  | succ m ih => rw [Nat.succ_mul, after_add hbest hw hout hW hpos, ih]

/-- Every block of as many turns as the sum of the weights chooses each member as often as its
weight says. -/
theorem count_block (hi : i ∈ s) (k : ℕ) : (((List.range' k W).map (pick s w best)).count i : ℤ) = w i := by
  induction k with
  | zero =>
    have hzero := after_period hbest hw hW hpos hi
    rw [after_eq, hW, ← mul_sub, mul_eq_zero] at hzero
    rw [← List.range_eq_range']
    omega
  | succ k ih =>
    have hpick : pick s w best (k + W) = pick s w best k := by
      rw [pick, after_add hbest hw hout hW hpos, pick]
    -- the block loses its first choice and gains the one after its last, which is the same
    have hlast : (List.range' k (W + 1)).map (pick s w best) =
        (List.range' k W).map (pick s w best) ++ [pick s w best k] := by
      rw [List.range'_1_concat, List.map_append, List.map_singleton, hpick]
    rw [List.range'_succ, List.map_cons] at hlast
    have hcount := congrArg (List.count i) hlast
    rw [List.count_cons, List.count_append, List.count_singleton] at hcount
    omega

end

/-! ## The first of the greatest -/

/-- The first of the numbers below `n` where `v` is greatest. -/
def firstMax (v : ℕ → ℤ) : ℕ → ℕ
  | 0 => 0
  | n + 1 => if v (firstMax v n) < v n then n else firstMax v n

theorem firstMax_spec (v : ℕ → ℤ) (n : ℕ) :
    firstMax v (n + 1) ∈ range (n + 1) ∧ ∀ i ∈ range (n + 1), v i ≤ v (firstMax v (n + 1)) := by
  induction n with
  | zero => simp [firstMax]
  | succ n ih =>
    obtain ⟨hmem, hmax⟩ := ih
    rw [firstMax]
    refine ⟨?_, fun i hi => ?_⟩
    · split
      · exact self_mem_range_succ _
      · exact range_subset_range.mpr (Nat.le_succ _) hmem
    · rw [range_add_one, mem_insert] at hi
      split
      case isTrue hlt =>
        rcases hi with rfl | hi
        · exact le_rfl
        · exact (hmax i hi).trans hlt.le
      case isFalse hge =>
        rcases hi with rfl | hi
        · exact not_lt.mp hge
        · exact hmax i hi

theorem chooses_firstMax {n : ℕ} (hn : 0 < n) : Chooses (range n) (firstMax · n) := by
  obtain ⟨n, rfl⟩ := Nat.exists_eq_succ_of_ne_zero hn.ne'
  exact fun v => firstMax_spec v n

end GokuStudio.Lib.Smooth

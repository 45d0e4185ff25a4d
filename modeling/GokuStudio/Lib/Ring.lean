import Mathlib.Order.Defs.LinearOrder
import Mathlib.Order.Basic
import Mathlib.Order.Lattice
import Mathlib.Data.Set.Defs

/-!
# Points on a ring

A finite set of points of a linear order, closed to a ring: from every place there is a next
point. The points are kept in an array in ascending order.
-/

namespace GokuStudio.Lib.Ring
variable {α β : Type} [LinearOrder α] {a : ℕ → α} {n : ℕ}

/-! ## §1 The next point -/

/-- `p` is the first point of `S` from `x` on: the least that is not below `x`, or the least of
all if all are below. -/
def Next (S : Set α) (x p : α) : Prop := p ∈ S ∧ ((x ≤ p ∧ ∀ y ∈ S, x ≤ y → p ≤ y) ∨ ((∀ y ∈ S, y < x) ∧ ∀ y ∈ S, p ≤ y))

theorem Next.unique {S : Set α} {x p q : α} (hp : Next S x p) (hq : Next S x q) : p = q := by
  obtain ⟨hpS, ⟨hxp, hpmin⟩ | ⟨hbelow, hpmin⟩⟩ := hp
  · obtain ⟨hqS, ⟨hxq, hqmin⟩ | ⟨hbelow, -⟩⟩ := hq
    · exact le_antisymm (hpmin q hqS hxq) (hqmin p hpS hxp)
    · exact absurd (hbelow p hpS) (not_lt.mpr hxp)
  · obtain ⟨hqS, ⟨hxq, -⟩ | ⟨-, hqmin⟩⟩ := hq
    · exact absurd (hbelow q hqS) (not_lt.mpr hxq)
    · exact le_antisymm (hpmin q hqS) (hqmin p hpS)

/-- A point that is next among more points is next among fewer. -/
theorem Next.of_subset {S T : Set α} {x p : α} (h : Next T x p) (hsub : S ⊆ T) (hp : p ∈ S) : Next S x p := by
  refine ⟨hp, ?_⟩
  rcases h.2 with ⟨hxp, hmin⟩ | ⟨hbelow, hmin⟩
  · exact .inl ⟨hxp, fun y hy => hmin y (hsub hy)⟩
  · exact .inr ⟨fun y hy => hbelow y (hsub hy), fun y hy => hmin y (hsub hy)⟩

/-! ## §2 An ascending array -/

/-- The first `n` elements ascend. -/
def Ascends (a : ℕ → α) (n : ℕ) : Prop := ∀ i j, i < j → j < n → a i < a j

/-- `r` is the first place of the first `n` where the element is not below `x`, or `n`. -/
structure FirstNotBelow (a : ℕ → α) (n : ℕ) (x : α) (r : ℕ) : Prop where
  le : r ≤ n
  below : ∀ k < r, a k < x
  above : ∀ k, r ≤ k → k < n → x ≤ a k

/-- The elements of the array. -/
def elems (a : ℕ → β) (n : ℕ) : Set β := fun y => ∃ k < n, a k = y

theorem Ascends.le (h : Ascends a n) {i j : ℕ} (hij : i ≤ j) (hj : j < n) : a i ≤ a j := by
  rcases Nat.lt_or_eq_of_le hij with hlt | rfl
  · exact (h i j hlt hj).le
  · exact le_rfl

theorem Ascends.next {x : α} {r : ℕ} (h : Ascends a n) (hr : FirstNotBelow a n x r)
    (hn : 0 < n) : Next (elems a n) x (a (r % n)) := by
  refine ⟨⟨r % n, Nat.mod_lt r hn, rfl⟩, ?_⟩
  by_cases hlt : r < n
  · rw [Nat.mod_eq_of_lt hlt]
    refine .inl ⟨hr.above r (Nat.le_refl r) hlt, ?_⟩
    rintro y ⟨k, hk, rfl⟩ hxk
    refine h.le (Nat.le_of_not_lt fun hkr => ?_) hk
    exact absurd (hr.below k hkr) (not_lt.mpr hxk)
  have heq : r = n := Nat.le_antisymm hr.le (Nat.le_of_not_lt hlt)
  rw [heq, Nat.mod_self]
  refine .inr ⟨?_, ?_⟩
  · rintro y ⟨k, hk, rfl⟩
    exact hr.below k (heq ▸ hk)
  · rintro y ⟨k, hk, rfl⟩
    exact h.le (Nat.zero_le k) hk

/-- The array with the elements from `i` to `n` moved up by one and `b` in the gap. -/
def insertAt (m : ℕ → β) (i n : ℕ) (b : β) : ℕ → β := fun k =>
  if k < i then m k else if k = i then b else if k ≤ n then m (k - 1) else m k

section Insert
variable {m : ℕ → β} {i n : ℕ} {b : β}

theorem insertAt_lt {k : ℕ} (h : k < i) : insertAt m i n b k = m k := if_pos h

theorem insertAt_self : insertAt m i n b i = b := by
  rw [insertAt, if_neg (Nat.lt_irrefl i), if_pos rfl]

theorem insertAt_succ {k : ℕ} (hi : i ≤ k) (hk : k < n) : insertAt m i n b (k + 1) = m k := by
  rw [insertAt, if_neg (by omega), if_neg (by omega), if_pos (by omega), Nat.add_sub_cancel]

theorem insertAt_gt {k : ℕ} (hi : i ≤ n) (hk : n < k) : insertAt m i n b k = m k := by
  rw [insertAt, if_neg (by omega), if_neg (by omega), if_neg (by omega)]

/-- Where an element of the longer array comes from. -/
theorem insertAt_cases (hi : i ≤ n) {k : ℕ} (hk : k < n + 1) :
    (k < i ∧ insertAt m i n b k = m k) ∨ (k = i ∧ insertAt m i n b k = b) ∨
      ∃ k', k = k' + 1 ∧ i ≤ k' ∧ k' < n ∧ insertAt m i n b k = m k' := by
  rcases Nat.lt_trichotomy k i with hlt | rfl | hgt
  · exact .inl ⟨hlt, insertAt_lt hlt⟩
  · exact .inr (.inl ⟨rfl, insertAt_self⟩)
  · obtain ⟨k', rfl⟩ := Nat.exists_eq_succ_of_ne_zero (Nat.ne_zero_of_lt hgt)
    exact .inr (.inr ⟨k', rfl, by omega, by omega, insertAt_succ (by omega) (by omega)⟩)

theorem elems_insertAt (hi : i ≤ n) {y : β} : y ∈ elems (insertAt m i n b) (n + 1) ↔ y = b ∨ y ∈ elems m n := by
  constructor
  · rintro ⟨k, hk, rfl⟩
    rcases insertAt_cases hi hk with ⟨hlt, heq⟩ | ⟨-, heq⟩ | ⟨k', -, -, hk', heq⟩
    · exact .inr ⟨k, Nat.lt_of_lt_of_le hlt hi, heq.symm⟩
    · exact .inl heq
    · exact .inr ⟨k', hk', heq.symm⟩
  · rintro (rfl | ⟨k, hk, rfl⟩)
    · exact ⟨i, Nat.lt_succ_of_le hi, insertAt_self⟩
    · by_cases hlt : k < i
      · exact ⟨k, Nat.lt_succ_of_lt hk, insertAt_lt hlt⟩
      · exact ⟨k + 1, Nat.succ_lt_succ hk, insertAt_succ (Nat.le_of_not_lt hlt) hk⟩

/-- A new element in its place keeps the order. -/
theorem Ascends.insertAt {f : β → α} (h : Ascends (fun k => f (m k)) n)
    (hi : FirstNotBelow (fun k => f (m k)) n (f b) i) (hnew : ∀ k < n, f (m k) ≠ f b) :
    Ascends (fun k => f (insertAt m i n b k)) (n + 1) := by
  have habove : ∀ k, i ≤ k → k < n → f b < f (m k) := fun k hik hk =>
    lt_of_le_of_ne (hi.above k hik hk) (hnew k hk).symm
  intro j k hjk hk
  show f (Ring.insertAt m i n b j) < f (Ring.insertAt m i n b k)
  have hj : j < n + 1 := Nat.lt_trans hjk hk
  rcases @insertAt_cases _ m i n b hi.le j hj with ⟨hji, hj'⟩ | ⟨hji, hj'⟩ | ⟨j', hj', hij, hjn, hjm⟩
  · rw [hj']
    rcases @insertAt_cases _ m i n b hi.le k hk with ⟨hki, hk'⟩ | ⟨-, hk'⟩ | ⟨k', rfl, hik, hkn, hk'⟩
    · rw [hk']
      exact h j k hjk (Nat.lt_of_lt_of_le hki hi.le)
    · rw [hk']
      exact hi.below j hji
    · rw [hk']
      exact h j k' (by omega) hkn
  · rw [hj']
    rcases @insertAt_cases _ m i n b hi.le k hk with ⟨hki, -⟩ | ⟨hki, -⟩ | ⟨k', rfl, hik, hkn, hk'⟩
    · omega
    · omega
    · rw [hk']
      exact habove k' hik hkn
  · rw [hjm]
    rcases @insertAt_cases _ m i n b hi.le k hk with ⟨hki, -⟩ | ⟨hki, -⟩ | ⟨k', rfl, hik, hkn, hk'⟩
    · omega
    · omega
    · rw [hk']
      exact h j' k' (by omega) hkn

end Insert
end GokuStudio.Lib.Ring

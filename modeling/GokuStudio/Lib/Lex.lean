import Mathlib.Data.List.Lex
import Mathlib.Order.Lattice
import Mathlib.Tactic.Common

/-!
# Prefixes in the lexicographic order

A prefix comes before the words it begins, and those words stand together: what lies
between a prefix and one of its words has that prefix too.
-/

namespace GokuStudio.Lib

open List
variable {α : Type} [LinearOrder α] {a b c : List α} {x y : α}

theorem cons_le_cons_iff : x :: a ≤ y :: b ↔ x < y ∨ x = y ∧ a ≤ b := by
  rw [le_iff_lt_or_eq, cons_lt_cons_iff, cons.injEq, le_iff_lt_or_eq, and_or_left, or_assoc]

theorem prefix_le (h : a <+: b) : a ≤ b := by
  induction a generalizing b with
  | nil => exact not_lt.mp (not_lt_nil b)
  | cons x a ih =>
    obtain ⟨r, rfl⟩ := h
    exact cons_le_cons x (ih (prefix_append a r))

theorem prefix_between (h : a <+: c) (hab : a ≤ b) (hbc : b ≤ c) : a <+: b := by
  induction a generalizing b c with
  | nil => exact nil_prefix
  | cons x a ih =>
    obtain ⟨r, rfl⟩ := h
    cases b with
    | nil => exact absurd (nil_lt_cons x a) (not_lt.mpr hab)
    | cons y b =>
      rcases cons_le_cons_iff.mp hab with hxy | ⟨rfl, hab'⟩
      · rcases cons_le_cons_iff.mp hbc with hyx | ⟨rfl, -⟩
        · exact absurd hxy hyx.asymm
        · exact absurd hxy (lt_irrefl _)
      · rcases cons_le_cons_iff.mp hbc with hxx | ⟨-, hbc'⟩
        · exact absurd hxx (lt_irrefl _)
        · exact cons_prefix_cons.mpr ⟨rfl, ih (prefix_append a r) hab' hbc'⟩

end GokuStudio.Lib

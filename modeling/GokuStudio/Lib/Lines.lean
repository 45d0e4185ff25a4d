import Mathlib.Data.List.Basic
import Mathlib.Tactic.Common

/-!
# Lines

`cutLine nl b` takes the first line off the front of `b`: everything up to the
first `nl`, and `nl` itself. There is none as long as no `nl` has arrived.
-/

namespace GokuStudio.Lib

open List
variable {α : Type} [DecidableEq α] {nl : α}

def cutLine (nl : α) : List α → Option (List α × List α)
  | [] => none
  | a :: b =>
    if a = nl then some ([a], b)
    else match cutLine nl b with
      | none => none
      | some (l, r) => some (a :: l, r)

theorem cutLine_eq_none : ∀ {b : List α}, cutLine nl b = none ↔ nl ∉ b
  | [] => by simp [cutLine]
  | a :: b => by
    have ih := @cutLine_eq_none b
    rw [cutLine]
    by_cases ha : a = nl
    · simp [ha]
    rw [if_neg ha, mem_cons, not_or, ← ih]
    cases cutLine nl b with
    | none => simp [Ne.symm ha]
    | some lr => simp

theorem cutLine_append {c : List α} (hc : nl ∉ c) (r : List α) : cutLine nl (c ++ nl :: r) = some (c ++ [nl], r) := by
  induction c with
  | nil => simp [cutLine]
  | cons a c ih =>
    have ha : a ≠ nl := fun he => hc (he ▸ mem_cons_self ..)
    rw [cons_append, cutLine, if_neg ha, ih fun hm => hc (mem_cons_of_mem _ hm)]
    rfl

theorem cutLine_eq_some : ∀ {b l r : List α}, cutLine nl b = some (l, r) → ∃ c, l = c ++ [nl] ∧ nl ∉ c ∧ b = l ++ r
  | [], l, r, h => by simp [cutLine] at h
  | a :: b, l, r, h => by
    rw [cutLine] at h
    by_cases ha : a = nl
    · rw [if_pos ha] at h
      obtain ⟨rfl, rfl⟩ := Prod.mk.inj (Option.some.inj h)
      exact ⟨[], by simp [ha], by simp, rfl⟩
    rw [if_neg ha] at h
    cases hb : cutLine nl b with
    | none => simp [hb] at h
    | some lr =>
      obtain ⟨l', r'⟩ := lr
      rw [hb] at h
      obtain ⟨rfl, rfl⟩ := Prod.mk.inj (Option.some.inj h)
      obtain ⟨c, rfl, hc, rfl⟩ := cutLine_eq_some hb
      exact ⟨a :: c, rfl, by simp [hc, Ne.symm ha], rfl⟩

/-- The position of the first `nl` is the length of the first line, less one. -/
theorem findIdx?_eq_cutLine {b : List α} : b.findIdx? (· == nl) = (cutLine nl b).map fun lr => lr.1.length - 1 := by
  cases h : cutLine nl b with
  | none =>
    rw [Option.map_none, findIdx?_eq_none_iff]
    intro a ha
    exact beq_eq_false_iff_ne.mpr fun he => cutLine_eq_none.mp h (he ▸ ha)
  | some lr =>
    obtain ⟨l, r⟩ := lr
    obtain ⟨c, rfl, hc, rfl⟩ := cutLine_eq_some h
    have hno : c.findIdx? (· == nl) = none := by
      rw [findIdx?_eq_none_iff]
      intro a ha
      exact beq_eq_false_iff_ne.mpr fun he => hc (he ▸ ha)
    simp [findIdx?_append, hno, findIdx?_cons]

end GokuStudio.Lib

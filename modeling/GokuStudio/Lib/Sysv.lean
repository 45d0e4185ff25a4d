import Mathlib.Algebra.BigOperators.Group.Finset.Basic
import Mathlib.Algebra.BigOperators.Fin
import Mathlib.Algebra.Order.BigOperators.Group.Finset
import Mathlib.Tactic.Abel

/-!
# Sets of System V semaphores

A set has values, and for every process an adjustment of each value that is made
when the process exits. `semop` makes a list of operations as a whole or blocks, and
`SEM_UNDO` books the opposite of an operation as adjustment. The `balance` of a
semaphore is its value and all adjustments of it: operations with `SEM_UNDO` and
exits keep it, only `setval` changes it.
-/

namespace GokuStudio.Lib

open Finset Function Option

structure SemBuf where
  num : Nat
  op : Int
  undo : Bool
deriving DecidableEq, Repr

/-- The values of a set, and `semadj` of each of `n` processes. -/
structure SemSet (n : Nat) where
  val : Nat → Nat
  adj : Fin n → Nat → Int

namespace SemSet
variable {n : Nat} {s s' : SemSet n} {p q : Fin n} {b : SemBuf} {bs : List SemBuf} {k j : Nat}

def new (n : Nat) : SemSet n := ⟨fun _ => 0, fun _ _ => 0⟩

section
variable (s p)

/-- One operation, if it does not have to wait. -/
def one (b : SemBuf) : Option (SemSet n) :=
  if b.op = 0 then
    -- an operation 0 waits for 0 and changes nothing
    if s.val b.num = 0 then some s else none
  else if 0 ≤ (s.val b.num : Int) + b.op then
    some
      { val := update s.val b.num ((s.val b.num : Int) + b.op).toNat
        adj :=
          if b.undo then
            update s.adj p (update (s.adj p) b.num (s.adj p b.num - b.op))
          else s.adj }
  else none

/-- All operations or none of them. -/
def semop (s : SemSet n) (p : Fin n) : List SemBuf → Option (SemSet n)
  | [] => some s
  | b :: bs => (s.one p b).bind fun s' => s'.semop p bs

/-- `SETVAL`, which also clears the adjustments of the semaphore. -/
def setval (k v : Nat) : SemSet n where
  val := update s.val k v
  adj := fun p => update (s.adj p) k 0

/-- What is undone when a process exits; no value goes below 0. -/
def exit : SemSet n where
  val := fun k => ((s.val k : Int) + s.adj p k).toNat
  adj := update s.adj p fun _ => 0

def balance (k : Nat) : Int := s.val k + ∑ p, s.adj p k

end

/-- What a list of operations adds to a semaphore. -/
def amount : List SemBuf → Nat → Int
  | [], _ => 0
  | b :: bs, k => (if b.num = k then b.op else 0) + amount bs k

/-- Every operation is undone on exit or only waits. -/
def Undone (bs : List SemBuf) : Prop := ∀ b ∈ bs, b.undo = true ∨ b.op = 0

instance (bs : List SemBuf) : Decidable (Undone bs) := inferInstanceAs (Decidable (∀ b ∈ bs, b.undo = true ∨ b.op = 0))

@[simp] theorem setval_val_self (v : Nat) : (s.setval k v).val k = v := update_self ..
@[simp] theorem setval_val_ne (hj : j ≠ k) (v : Nat) : (s.setval k v).val j = s.val j := update_of_ne hj ..

@[simp] theorem setval_adj_self (v : Nat) : (s.setval k v).adj p k = 0 := by
  simp [setval]

@[simp] theorem setval_adj_ne (hj : j ≠ k) (v : Nat) : (s.setval k v).adj p j = s.adj p j := by
  simp [setval, hj]

@[simp] theorem exit_adj_self : (s.exit p).adj p k = 0 := by
  simp [exit]

@[simp] theorem exit_adj_ne (hq : q ≠ p) : (s.exit p).adj q = s.adj q := update_of_ne hq ..

theorem exit_val (h : 0 ≤ (s.val k : Int) + s.adj p k) : ((s.exit p).val k : Int) = s.val k + s.adj p k :=
  Int.toNat_of_nonneg h

/-! ## What operations do -/

theorem val_one (h : s.one p b = some s') : (s'.val k : Int) = s.val k + if b.num = k then b.op else 0 := by
  unfold one at h
  split at h
  · rename_i hop
    split at h
    · cases h
      simp [hop]
    · cases h
  split at h
  · rename_i hpos
    cases h
    dsimp only
    by_cases hk : b.num = k
    · subst hk
      rw [update_self, if_pos rfl, Int.toNat_of_nonneg hpos]
    · rw [update_of_ne (Ne.symm hk), if_neg hk, Int.add_zero]
  · cases h

theorem adj_one (h : s.one p b = some s') (hu : b.undo = true ∨ b.op = 0) :
    s'.adj p k = s.adj p k - if b.num = k then b.op else 0 := by
  unfold one at h
  split at h
  · rename_i hop
    split at h
    · cases h
      simp [hop]
    · cases h
  rename_i hop
  split at h
  · cases h
    dsimp only
    rw [if_pos (hu.resolve_right hop), update_self]
    by_cases hk : b.num = k
    · subst hk
      rw [update_self, if_pos rfl]
    · rw [update_of_ne (Ne.symm hk), if_neg hk, Int.sub_zero]
  · cases h

theorem adj_one_other (hq : q ≠ p) (h : s.one p b = some s') : s'.adj q = s.adj q := by
  unfold one at h
  split at h
  · split at h
    · cases h
      rfl
    · cases h
  split at h
  · cases h
    split
    · exact update_of_ne hq ..
    · rfl
  · cases h

theorem val_semop (h : s.semop p bs = some s') : (s'.val k : Int) = s.val k + amount bs k := by
  induction bs generalizing s with
  | nil =>
    cases h
    simp [amount]
  | cons b bs ih =>
    obtain ⟨s1, h1, h2⟩ := bind_eq_some_iff.mp h
    rw [ih h2, val_one h1, amount, Int.add_assoc]

theorem adj_semop (hu : Undone bs) (h : s.semop p bs = some s') : s'.adj p k = s.adj p k - amount bs k := by
  induction bs generalizing s with
  | nil =>
    cases h
    simp [amount]
  | cons b bs ih =>
    obtain ⟨s1, h1, h2⟩ := bind_eq_some_iff.mp h
    rw [ih (fun c hc => hu c (List.mem_cons_of_mem b hc)) h2, adj_one h1 (hu b List.mem_cons_self), amount, Int.sub_sub]

theorem adj_semop_other (hq : q ≠ p) (h : s.semop p bs = some s') : s'.adj q = s.adj q := by
  induction bs generalizing s with
  | nil =>
    cases h
    rfl
  | cons b bs ih =>
    obtain ⟨s1, h1, h2⟩ := bind_eq_some_iff.mp h
    rw [ih h2, adj_one_other hq h1]

/-- A list that begins by waiting for 0 is made only at 0. -/
theorem val_of_wait {u : Bool} (h : s.semop p (⟨k, 0, u⟩ :: bs) = some s') : s.val k = 0 := by
  obtain ⟨s1, h1, -⟩ := bind_eq_some_iff.mp h
  by_contra hne
  simp [one, hne] at h1

/-! ## The balance -/

/-- One summand of a sum over the processes is exchanged. -/
theorem sum_exchange {f g : Fin n → Int} (h : ∀ q, q ≠ p → g q = f q) : ∑ q, g q = ∑ q, f q + (g p - f p) := by
  have hrest : ∑ q ∈ univ.erase p, g q = ∑ q ∈ univ.erase p, f q := sum_congr rfl fun q hq => h q (ne_of_mem_erase hq)
  rw [← add_sum_erase univ g (mem_univ p), ← add_sum_erase univ f (mem_univ p), hrest]
  abel

theorem balance_semop (hu : Undone bs) (h : s.semop p bs = some s') : s'.balance k = s.balance k := by
  have hsum := sum_exchange fun q hq => congrFun (adj_semop_other hq h) k
  have hval := val_semop (k := k) h
  have hadj := adj_semop (k := k) hu h
  unfold balance
  rw [hsum, hval, hadj]
  abel

theorem balance_exit (h : 0 ≤ (s.val k : Int) + s.adj p k) : (s.exit p).balance k = s.balance k := by
  have hsum := sum_exchange (g := fun q => (s.exit p).adj q k) fun q hq => congrFun (exit_adj_ne hq) k
  unfold balance
  rw [hsum, exit_adj_self, exit_val h]
  abel

theorem balance_setval (v : Nat) : (s.setval k v).balance k = v := by
  simp [balance]

theorem balance_setval_ne (hj : j ≠ k) (v : Nat) : (s.setval k v).balance j = s.balance j := by
  simp [balance, hj]

end SemSet
end GokuStudio.Lib

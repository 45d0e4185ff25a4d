import Mathlib.Data.List.Basic
import Mathlib.Tactic.Common

/-!
# A leaky bucket

A bucket leaks `rate` drops a second, where a request that is let in is a thousand drops. The
excess is what is in the bucket besides the request that was let in last, at a time in
milliseconds. A request is let in unless the excess would be more than `burst`. The first one
finds no bucket.
-/

namespace GokuStudio.Lib.Bucket

open List
variable (rate burst : Nat)

/-- The excess and the time of the last request that was let in. -/
abbrev State := Option (Nat × Nat)

/-- What has leaked after `ms` milliseconds. -/
def leak (ms : Nat) : Nat := rate * ms / 1000

/-- The excess with one more request. -/
def excess : State → Nat → Nat
  | none, _ => 0
  | some (e, last), now => e + 1000 - leak rate (now - last)

/-- Whether a request is let in, and the excess with it. -/
def offer (s : State) (now : Nat) : State :=
  if excess rate s now ≤ burst then some (excess rate s now, now) else s

/-- The times and the excesses of the requests that are let in. -/
def admitted (s : State) : List Nat → List (Nat × Nat)
  | [] => []
  | now :: times =>
    if excess rate s now ≤ burst then (now, excess rate s now) :: admitted (offer rate burst s now) times
    else admitted (offer rate burst s now) times

/-! ## The bound -/

variable {rate burst}

/-- What leaks at most in between accounts for the later request. -/
def Paid (rate : Nat) (x y : Nat × Nat) : Prop := x.1 ≤ y.1 ∧ x.2 + 1000 ≤ y.2 + leak rate (y.1 - x.1)

theorem leak_add (a b : Nat) : leak rate a + leak rate b ≤ leak rate (a + b) := by
  rw [leak, leak, leak, Nat.mul_add]
  omega

theorem leak_mono {a b : Nat} (h : a ≤ b) :
    leak rate a ≤ leak rate b := Nat.div_le_div_right (Nat.mul_le_mul_left rate h)

theorem Paid.trans {x y z : Nat × Nat} (hxy : Paid rate x y) (hyz : Paid rate y z) : Paid rate x z := by
  obtain ⟨hle, hpaid⟩ := hxy
  obtain ⟨hle', hpaid'⟩ := hyz
  have hadd := @leak_add rate (y.1 - x.1) (z.1 - y.1)
  rw [show y.1 - x.1 + (z.1 - y.1) = z.1 - x.1 by omega] at hadd
  refine ⟨Nat.le_trans hle hle', ?_⟩
  omega

variable {times : List Nat}

theorem admitted_le {s : State} : ∀ x ∈ admitted rate burst s times, x.2 ≤ burst := by
  induction times generalizing s with
  | nil => exact fun x hx => absurd hx not_mem_nil
  | cons now times ih =>
    intro x hx
    rw [admitted] at hx
    split at hx
    case isTrue hle =>
      rcases mem_cons.mp hx with rfl | hx
      · exact hle
      · exact ih x hx
    case isFalse => exact ih x hx

theorem admitted_some {e last : Nat} (hlast : ∀ t ∈ times, last ≤ t) (htimes : times.Pairwise (· ≤ ·)) :
    ((last, e) :: admitted rate burst (some (e, last)) times).Pairwise (Paid rate) := by
  induction times generalizing e last with
  | nil => exact pairwise_singleton _ _
  | cons now times ih =>
    obtain ⟨hnow, htimes⟩ := pairwise_cons.mp htimes
    rw [admitted, offer]
    split
    case isTrue =>
      -- the new request is paid for, and so is what it pays for
      have hpaid : Paid rate (last, e) (now, excess rate (some (e, last)) now) := by
        refine ⟨hlast now mem_cons_self, ?_⟩
        show e + 1000 ≤ e + 1000 - leak rate (now - last) + leak rate (now - last)
        omega
      have hrest := ih (e := excess rate (some (e, last)) now) hnow htimes
      refine pairwise_cons.mpr ⟨fun x hx => ?_, hrest⟩
      rcases mem_cons.mp hx with rfl | hx
      · exact hpaid
      · exact hpaid.trans ((pairwise_cons.mp hrest).1 x hx)
    case isFalse => exact ih (forall_mem_cons.mp hlast).2 htimes

theorem admitted_none (htimes : times.Pairwise (· ≤ ·)) : (admitted rate burst none times).Pairwise (Paid rate) := by
  cases times with
  | nil => exact List.Pairwise.nil
  | cons now times =>
    obtain ⟨hnow, htimes⟩ := pairwise_cons.mp htimes
    rw [admitted, offer]
    have hle : excess rate none now ≤ burst := Nat.zero_le _
    rw [if_pos hle, if_pos hle]
    exact admitted_some hnow htimes

theorem paid_total {x : Nat × Nat} {l : List (Nat × Nat)} (h : (x :: l).Pairwise (Paid rate)) :
    ∃ z ∈ x :: l, x.1 ≤ z.1 ∧ x.2 + 1000 * l.length ≤ z.2 + leak rate (z.1 - x.1) := by
  induction l generalizing x with
  | nil => exact ⟨x, mem_cons_self, Nat.le_refl _, by simp⟩
  | cons y l ih =>
    obtain ⟨hx, hyl⟩ := pairwise_cons.mp h
    obtain ⟨hle, hpaid⟩ := hx y mem_cons_self
    obtain ⟨z, hz, hle', hpaid'⟩ := ih hyl
    have hadd := @leak_add rate (y.1 - x.1) (z.1 - y.1)
    rw [show y.1 - x.1 + (z.1 - y.1) = z.1 - x.1 by omega] at hadd
    refine ⟨z, mem_cons_of_mem _ hz, Nat.le_trans hle hle', ?_⟩
    calc x.2 + 1000 * (l.length + 1) = x.2 + 1000 + 1000 * l.length := by rw [Nat.mul_succ]; omega
      _ ≤ y.2 + leak rate (y.1 - x.1) + 1000 * l.length := Nat.add_le_add_right hpaid _
      _ ≤ z.2 + leak rate (z.1 - x.1) := by omega

/-- The number of requests let in within any `T` milliseconds. -/
theorem admitted_window (htimes : times.Pairwise (· ≤ ·)) (t0 T : Nat) :
    (((admitted rate burst none times).filter fun x => t0 ≤ x.1 ∧ x.1 ≤ t0 + T).length - 1) * 1000 ≤
      burst + leak rate T := by
  cases hl : (admitted rate burst none times).filter fun x => t0 ≤ x.1 ∧ x.1 ≤ t0 + T with
  | nil => exact Nat.zero_le _
  | cons x l =>
    have hpaid : (x :: l).Pairwise (Paid rate) := hl ▸ (admitted_none htimes).filter _
    have hmem : ∀ y ∈ x :: l, y ∈ admitted rate burst none times ∧ t0 ≤ y.1 ∧ y.1 ≤ t0 + T := by
      intro y hy
      rw [← hl, mem_filter, decide_eq_true_eq] at hy
      exact hy
    obtain ⟨z, hz, hle, htotal⟩ := paid_total hpaid
    have hburst := admitted_le z (hmem z hz).1
    have hx := (hmem x mem_cons_self).2
    have hwindow : leak rate (z.1 - x.1) ≤ leak rate T := leak_mono (by have := (hmem z hz).2; omega)
    rw [length_cons]
    omega

end GokuStudio.Lib.Bucket

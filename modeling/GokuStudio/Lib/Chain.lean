import Mathlib.Data.List.Perm.Subperm
import Mathlib.Data.List.Nodup
import Mathlib.Tactic.Common

/-!
# Chains of pointer cells

Memory, or a file, holds pointer cells; `ptr c` is the value of the cell at
address `c`, if there is one. A chain starts at a cell (a list head) and goes
from node to node, the pointer cell of a node being at the node's own address,
until a cell holds the null pointer `0`.

A chain is determined by its first cell (`Chain.unique`), so it never visits a
node twice (`Chain.nodup`): being a `Chain` at all is acyclicity and
null-termination. `lastCell c pre` is the cell that holds the pointer to
whatever follows `pre`; unlinking a node rewrites just that cell
(`Chain.unlink`).
-/

namespace GokuStudio.Lib

open List

/-- From the cell `c` the nodes `os` follow, and the last one points to null. -/
def Chain (ptr : Nat → Option Nat) : Nat → List Nat → Prop
  | c, [] => ptr c = some 0
  | c, o :: os => ptr c = some o ∧ o ≠ 0 ∧ Chain ptr o os

/-- From the cell `c` the nodes `os` follow, and nothing is said after them. -/
def Seg (ptr : Nat → Option Nat) : Nat → List Nat → Prop
  | _, [] => True
  | c, o :: os => ptr c = some o ∧ o ≠ 0 ∧ Seg ptr o os

/-- The cell that points past the nodes `os` which follow the cell `c`. -/
def lastCell : Nat → List Nat → Nat
  | c, [] => c
  | _, o :: os => lastCell o os

variable {ptr ptr' : Nat → Option Nat} {xs post pre : List Nat} {c o : Nat}

theorem lastCell_mem : ∀ (c : Nat) (os : List Nat), lastCell c os ∈ c :: os
  | c, [] => by simp [lastCell]
  | c, o :: os => mem_cons_of_mem c (lastCell_mem o os)

theorem lastCell_append : ∀ (c : Nat) (xs ys : List Nat), lastCell c (xs ++ ys) = lastCell (lastCell c xs) ys
  | _, [], _ => rfl
  | _, x :: xs, ys => lastCell_append x xs ys

theorem chain_append : ∀ {c : Nat} {xs ys : List Nat}, Chain ptr c (xs ++ ys) ↔ Seg ptr c xs ∧ Chain ptr (lastCell c xs) ys
  | c, [], ys => by simp [Seg, lastCell]
  | c, x :: xs, ys => by
    rw [cons_append, Chain, chain_append, Seg, lastCell]
    tauto

/-- A chain is determined by its first cell. -/
theorem Chain.unique : ∀ {c : Nat} {xs ys : List Nat}, Chain ptr c xs → Chain ptr c ys → xs = ys
  | _, [], [], _, _ => rfl
  | c, [], y :: ys, hx, hy => by
    rw [Chain] at hx
    rw [Chain, hx] at hy
    exact absurd (Option.some.inj hy.1).symm hy.2.1
  | c, x :: xs, [], hx, hy => by
    rw [Chain] at hy
    rw [Chain, hy] at hx
    exact absurd (Option.some.inj hx.1).symm hx.2.1
  | c, x :: xs, y :: ys, hx, hy => by
    obtain ⟨hx1, -, hx2⟩ := hx
    obtain ⟨hy1, -, hy2⟩ := hy
    rw [hx1] at hy1
    obtain rfl := Option.some.inj hy1
    rw [hx2.unique hy2]

/-- What follows a node is the same wherever the node is met, so no chain
meets a node twice. -/
theorem Chain.nodup : ∀ {c : Nat} {xs : List Nat}, Chain ptr c xs → xs.Nodup
  | _, [], _ => nodup_nil
  | c, x :: xs, h => by
    refine nodup_cons.mpr ⟨fun hmem => ?_, h.2.2.nodup⟩
    obtain ⟨pre, post, rfl⟩ := append_of_mem hmem
    have htail : Chain ptr x post := by
      have := (chain_append.mp h.2.2).2
      exact this.2.2
    have heq := congrArg length (h.2.2.unique htail)
    simp only [length_append, length_cons] at heq
    omega

theorem Chain.ne_zero (h : Chain ptr c xs) (ho : o ∈ xs) : o ≠ 0 := by
  induction xs generalizing c with
  | nil => simp at ho
  | cons x xs ih =>
    rcases mem_cons.mp ho with rfl | ho
    · exact h.2.1
    · exact ih h.2.2 ho

/-- Every node of a chain has a pointer cell. -/
theorem Chain.isSome (h : Chain ptr c xs) (ho : o ∈ c :: xs) : (ptr o).isSome = true := by
  induction xs generalizing c with
  | nil =>
    rw [mem_singleton] at ho
    subst ho
    rw [Chain] at h
    simp [h]
  | cons x xs ih =>
    rcases mem_cons.mp ho with rfl | ho
    · simp [h.1]
    · exact ih h.2.2 ho

/-- A chain only looks at its own cells. -/
theorem Chain.congr (h : Chain ptr c xs) (heq : ∀ o ∈ c :: xs, ptr' o = ptr o) : Chain ptr' c xs := by
  induction xs generalizing c with
  | nil => rw [Chain, heq c (by simp)]; exact h
  | cons x xs ih =>
    refine ⟨?_, h.2.1, ih h.2.2 fun o ho => heq o (mem_cons_of_mem c ho)⟩
    rw [heq c (by simp)]
    exact h.1

theorem Seg.congr (h : Seg ptr c xs) (heq : ∀ o ∈ (c :: xs).dropLast, ptr' o = ptr o) : Seg ptr' c xs := by
  induction xs generalizing c with
  | nil => trivial
  | cons x xs ih =>
    refine ⟨?_, h.2.1, ih h.2.2 fun o ho => heq o ?_⟩
    · rw [heq c (by simp)]
      exact h.1
    · rw [dropLast_cons_of_ne_nil (cons_ne_nil x xs)]
      exact mem_cons_of_mem c ho

/-- A new first node. -/
theorem Chain.push (h : Chain ptr c xs) (ho : ptr' o = ptr c) (hc : ptr' c = some o) (hne : o ≠ 0)
    (heq : ∀ x ∈ xs, ptr' x = ptr x) : Chain ptr' c (o :: xs) := by
  refine ⟨hc, hne, ?_⟩
  cases xs with
  | nil => rw [Chain, ho]; exact h
  | cons x xs => exact ⟨ho.trans h.1, h.2.1, h.2.2.congr heq⟩

theorem dropLast_cells_notMem {c : Nat} : ∀ {pre : List Nat}, (c :: pre).Nodup → lastCell c pre ∉ (c :: pre).dropLast
  | [], _ => by simp
  | x :: pre, h => by
    rw [dropLast_cons_of_ne_nil (cons_ne_nil x pre)]
    have hx : (x :: pre).Nodup := (nodup_cons.mp h).2
    have hc := (nodup_cons.mp h).1
    intro hmem
    rcases mem_cons.mp hmem with heq | hmem
    · exact hc (heq ▸ lastCell_mem x pre)
    · exact dropLast_cells_notMem hx hmem

/-- If only the last cell before `post` changes, the cells before that one and those of `post` stay. -/
theorem cells_congr (hnd : (c :: (pre ++ post)).Nodup)
    (heq : ∀ x ∈ c :: (pre ++ post), x ≠ lastCell c pre → ptr' x = ptr x) :
    (∀ x ∈ (c :: pre).dropLast, ptr' x = ptr x) ∧ ∀ x ∈ post, ptr' x = ptr x := by
  rw [← cons_append] at hnd heq
  obtain ⟨hndpre, -, hapart⟩ := nodup_append.mp hnd
  constructor
  · intro x hx
    exact heq x (mem_append_left _ (dropLast_subset _ hx)) fun e => dropLast_cells_notMem hndpre (e ▸ hx)
  · intro x hx
    exact heq x (mem_append_right _ hx) fun e => hapart _ (lastCell_mem c pre) x hx e.symm

/-- Unlinking: the cell before the node takes over the node's pointer. What the
node's own cell holds afterwards does not matter. -/
theorem Chain.unlink (h : Chain ptr c (pre ++ o :: post)) (hc : c ∉ pre ++ o :: post)
    (hlast : ptr' (lastCell c pre) = ptr o)
    (heq : ∀ x ∈ c :: (pre ++ post), x ≠ lastCell c pre → ptr' x = ptr x) :
    Chain ptr' c (pre ++ post) := by
  have hsub : (c :: (pre ++ post)).Sublist (c :: (pre ++ o :: post)) :=
    cons_sublist_cons.mpr ((sublist_cons_self o post).append_left pre)
  obtain ⟨hpre, hpost⟩ := cells_congr ((nodup_cons.mpr ⟨hc, h.nodup⟩).sublist hsub) heq
  obtain ⟨hseg, -, -, hrest⟩ := chain_append.mp h
  refine chain_append.mpr ⟨hseg.congr hpre, ?_⟩
  cases post with
  | nil => rw [Chain, hlast]; exact hrest
  | cons y post => exact ⟨hlast.trans hrest.1, hrest.2.1, hrest.2.2.congr hpost⟩

/-- Linking: the cell before a node's place points to the node, and the node takes
over its pointer. -/
theorem Chain.link (h : Chain ptr c (pre ++ post))
    (hc : c ∉ pre ++ post) (hne : o ≠ 0) (hlast : ptr' (lastCell c pre) = some o)
    (ho : ptr' o = ptr (lastCell c pre))
    (heq : ∀ x ∈ c :: (pre ++ post), x ≠ lastCell c pre → ptr' x = ptr x) :
    Chain ptr' c (pre ++ o :: post) := by
  obtain ⟨hpre, hpost⟩ := cells_congr (nodup_cons.mpr ⟨hc, h.nodup⟩) heq
  obtain ⟨hseg, hrest⟩ := chain_append.mp h
  exact chain_append.mpr ⟨hseg.congr hpre, hrest.push ho hlast hne hpost⟩

theorem Chain.head : ∀ {xs : List Nat}, Chain ptr c xs → ptr c = some (xs.headD 0)
  | [], h => h
  | _ :: _, h => h.1

theorem lastCell_mem_split (c : Nat) (pre : List Nat) (o : Nat) (post : List Nat) :
    lastCell c pre ∈ c :: (pre ++ o :: post) := by
  rw [← cons_append]
  exact mem_append_left _ (lastCell_mem c pre)

/-- The cell that points to a node is another cell. -/
theorem Chain.lastCell_ne (h : Chain ptr c (pre ++ o :: post))
    (hc : c ∉ pre ++ o :: post) : lastCell c pre ≠ o := by
  intro he
  have hnd := nodup_cons.mpr ⟨hc, h.nodup⟩
  rw [← cons_append] at hnd
  exact (nodup_append.mp hnd).2.2 _ (lastCell_mem c pre) o (by simp) he

theorem Chain.ptr_lastCell (h : Chain ptr c (pre ++ o :: post)) : ptr (lastCell c pre) = some o :=
  (chain_append.mp h).2.1

theorem mem_unlink_iff (h : (pre ++ o :: post).Nodup) (y : Nat) : y ∈ pre ++ post ↔ y ∈ pre ++ o :: post ∧ y ≠ o := by
  have hno : o ∉ pre ++ post := (nodup_middle.mp h).notMem
  simp only [mem_append, mem_cons] at hno ⊢
  constructor
  · intro hy
    exact ⟨by tauto, fun he => hno (he ▸ hy)⟩
  · rintro ⟨hy, hne⟩
    tauto

theorem erase_of_split (hnd : (pre ++ o :: post).Nodup) : (pre ++ o :: post).erase o = pre ++ post := by
  have hno : o ∉ pre := fun hm => (nodup_append.mp hnd).2.2 o hm o (by simp) rfl
  rw [erase_append_right _ hno, erase_cons_head]

/-- A chain of distinct nodes below a bound is shorter than the bound. -/
theorem Chain.length_le {b : Nat} (h : Chain ptr c xs) (hb : ∀ o ∈ xs, o ≤ b) : xs.length ≤ b := by
  have hsub : xs.Subperm (range (b + 1) |>.erase 0) := by
    refine subperm_of_subset h.nodup fun o ho => ?_
    have := h.ne_zero ho
    rw [mem_erase_of_ne this, mem_range]
    exact Nat.lt_succ_of_le (hb o ho)
  have hlen := hsub.length_le
  rwa [length_erase_of_mem (mem_range.mpr (Nat.succ_pos b)), length_range, Nat.succ_sub_one] at hlen

end GokuStudio.Lib

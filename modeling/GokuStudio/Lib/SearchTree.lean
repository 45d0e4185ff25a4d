import GokuStudio.Lib.ColorTree

/-!
# Search trees

The search goes left where what is sought comes before the element of the node, and right
where it comes after it. It finds what is there if the comparison falls along the elements:
from after the first ones to before the last ones, with at most one equal in between.

What a tree does to stay balanced is left open. `Ops` are an insertion and a deletion of which
only their effect on the sequence of the elements is known.
-/

namespace GokuStudio.Lib.ColorTree

open List
variable {α : Type}

/-- `cmp x` says how what is sought compares with `x`. -/
def find (cmp : α → Ordering) : ColorTree α → Option α
  | .leaf => none
  | .node _ l x r =>
    match cmp x with
    | .lt => l.find cmp
    | .gt => r.find cmp
    | .eq => some x

def Falls (cmp : α → Ordering) (xs : List α) : Prop := xs.Pairwise fun x y => cmp x = .gt ∨ cmp y = .lt

theorem find_iff {cmp : α → Ordering} {t : ColorTree α} (h : Falls cmp t.inorder) {x : α} :
    t.find cmp = some x ↔ x ∈ t.inorder ∧ cmp x = .eq := by
  induction t with
  | leaf => exact ⟨nofun, fun hx => absurd hx.1 not_mem_nil⟩
  | node c l y r ihl ihr =>
    obtain ⟨hl, hyr, hly⟩ := pairwise_append.mp h
    obtain ⟨hy, hr⟩ := pairwise_cons.mp hyr
    have hmem : x ∈ (ColorTree.node c l y r).inorder ↔ x ∈ l.inorder ∨ x = y ∨ x ∈ r.inorder := by
      rw [inorder, mem_append, mem_cons]
    rw [hmem, find]
    cases hcmp : cmp y with
    | lt =>
      show l.find cmp = some x ↔ _
      rw [ihl hl]
      refine ⟨fun hx => ⟨.inl hx.1, hx.2⟩, ?_⟩
      rintro ⟨hx | rfl | hx, heq⟩
      · exact ⟨hx, heq⟩
      · cases hcmp.symm.trans heq
      · rcases hy x hx with hgt | hlt
        · cases hcmp.symm.trans hgt
        · cases hlt.symm.trans heq
    | gt =>
      show r.find cmp = some x ↔ _
      rw [ihr hr]
      refine ⟨fun hx => ⟨.inr (.inr hx.1), hx.2⟩, ?_⟩
      rintro ⟨hx | rfl | hx, heq⟩
      · rcases hly x hx y mem_cons_self with hgt | hlt
        · cases hgt.symm.trans heq
        · cases hcmp.symm.trans hlt
      · cases hcmp.symm.trans heq
      · exact ⟨hx, heq⟩
    | eq =>
      show some y = some x ↔ _
      refine ⟨?_, ?_⟩
      · rintro ⟨⟩
        exact ⟨.inr (.inl rfl), hcmp⟩
      · rintro ⟨hx | rfl | hx, heq⟩
        · rcases hly x hx y mem_cons_self with hgt | hlt
          · cases hgt.symm.trans heq
          · cases hcmp.symm.trans hlt
        · rfl
        · rcases hy x hx with hgt | hlt
          · cases hcmp.symm.trans hgt
          · cases hlt.symm.trans heq

/-- Insertion and deletion in a balanced tree. -/
structure Ops (α : Type) where
  insert : (α → Bool) → α → ColorTree α → ColorTree α
  delete : α → ColorTree α → ColorTree α
  inorder_insert : ∀ less x t, (insert less x t).inorder = before (descend less t []) ++ x :: after (descend less t [])
  inorder_delete : ∀ x t, x ∈ t.inorder → ∃ xs ys, t.inorder = xs ++ x :: ys ∧ (delete x t).inorder = xs ++ ys

namespace Ops
variable (ops : Ops α) {less : α → Bool} {x y : α} {t : ColorTree α}

theorem perm_insert : (ops.insert less x t).inorder.Perm (x :: t.inorder) := by
  rw [ops.inorder_insert]
  exact insert_perm

theorem mem_insert : y ∈ (ops.insert less x t).inorder ↔ y = x ∨ y ∈ t.inorder := by
  rw [ops.perm_insert.mem_iff, mem_cons]

theorem perm_delete (hx : x ∈ t.inorder) : (x :: (ops.delete x t).inorder).Perm t.inorder := by
  obtain ⟨xs, ys, hold, hnew⟩ := ops.inorder_delete x t hx
  rw [hold, hnew]
  exact perm_middle.symm

theorem pairwise_delete {le : α → α → Prop} (h : t.inorder.Pairwise le) (hx : x ∈ t.inorder) :
    (ops.delete x t).inorder.Pairwise le := by
  obtain ⟨xs, ys, hold, hnew⟩ := ops.inorder_delete x t hx
  rw [hold] at h
  rw [hnew]
  refine h.sublist ?_
  exact List.Sublist.append_left (sublist_cons_self x ys) xs

/-- A tree that is a list. -/
def spine : List α → ColorTree α
  | [] => .leaf
  | x :: xs => .node .black .leaf x (spine xs)

theorem inorder_spine (xs : List α) : (spine xs).inorder = xs := by
  induction xs with
  | nil => rfl
  | cons x xs ih => exact congrArg (x :: ·) ih

/-- The operations without balance. -/
def plain [DecidableEq α] : Ops α where
  insert less x t := spine (before (descend less t []) ++ x :: after (descend less t []))
  delete x t := spine (t.inorder.erase x)
  inorder_insert _ _ _ := inorder_spine _
  inorder_delete x t hx := by
    obtain ⟨xs, ys, -, hold, hnew⟩ := List.exists_erase_eq hx
    exact ⟨xs, ys, hold, (inorder_spine _).trans hnew⟩

end Ops
end GokuStudio.Lib.ColorTree

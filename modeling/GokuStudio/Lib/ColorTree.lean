import Mathlib.Data.List.Perm.Basic
import Mathlib.Tactic.Common

/-!
# Binary trees with coloured nodes

A position in a tree is a subtree together with the crumbs on the way up to the root, the
nearest first. `plug` puts the tree together again.

The left and the right side are treated alike: `join d` builds a node from the subtree on
the side `d` and the one on the other side.
-/

namespace GokuStudio.Lib

open List

inductive Side where
  | left
  | right
deriving DecidableEq, Repr

def Side.other : Side → Side
  | .left => .right
  | .right => .left

@[simp]
theorem Side.other_other (d : Side) : d.other.other = d := by cases d <;> rfl

theorem Side.eq_other {d e : Side} (h : d ≠ e) : d = e.other := by
  cases d <;> cases e <;> first | rfl | exact absurd rfl h

inductive Color where
  | red
  | black
deriving DecidableEq, Repr

inductive ColorTree (α : Type) where
  | leaf
  | node (c : Color) (l : ColorTree α) (x : α) (r : ColorTree α)
deriving DecidableEq, Repr

namespace ColorTree
variable {α : Type}

/-! ## §1 Nodes -/

/-- Leaves are black. -/
def color : ColorTree α → Color
  | .leaf => .black
  | .node c _ _ _ => c

def inorder : ColorTree α → List α
  | .leaf => []
  | .node _ l x r => l.inorder ++ x :: r.inorder

/-- The node `x` with `t` on the side `d` and `t'` on the other one. -/
def join (d : Side) (c : Color) (t : ColorTree α) (x : α) (t' : ColorTree α) : ColorTree α :=
  match d with
  | .left => .node c t x t'
  | .right => .node c t' x t

variable {x : α} {c : Color}

theorem node_ne_leaf {l r : ColorTree α} : node c l x r ≠ leaf := by simp

variable {t t' : ColorTree α}

theorem join_ne_leaf {d : Side} : join d c t x t' ≠ leaf := by
  cases d with
  | left | right => exact node_ne_leaf

section
variable (d : Side)
include d

theorem join_other (c : Color) (t : ColorTree α) (x : α) (t' : ColorTree α) :
    join d.other c t x t' = join d c t' x t := by
  cases d <;> rfl

theorem exists_join (c : Color) (l : ColorTree α) (x : α) (r : ColorTree α) :
    ∃ t t', ColorTree.node c l x r = join d c t x t' := by
  cases d
  · exact ⟨l, r, rfl⟩
  · exact ⟨r, l, rfl⟩

@[simp]
theorem color_join (c : Color) (t : ColorTree α) (x : α) (t' : ColorTree α) : (join d c t x t').color = c := by
  cases d <;> rfl

theorem inorder_join_perm (c : Color) (t : ColorTree α) (x : α) (t' : ColorTree α) :
    (join d c t x t').inorder.Perm (x :: (t.inorder ++ t'.inorder)) := by
  cases d
  · exact perm_middle
  · exact perm_middle.trans (perm_append_comm.cons x)

/-- A rotation towards the side `d` keeps the order. -/
theorem inorder_rotate (c c' e e' : Color) (a b g : ColorTree α) (x y : α) :
    (join d c' (join d c a x b) y g).inorder = (join d e a x (join d e' b y g)).inorder := by
  cases d <;> simp [join, inorder]

def blacken : ColorTree α → ColorTree α
  | .leaf => .leaf
  | .node _ l x r => .node .black l x r

@[simp]
theorem blacken_join (c : Color) (t : ColorTree α) (x : α) (t' : ColorTree α) :
    (join d c t x t').blacken = join d .black t x t' := by
  cases d <;> rfl

end

@[simp]
theorem inorder_blacken (t : ColorTree α) : t.blacken.inorder = t.inorder := by cases t <;> rfl

@[simp]
theorem color_blacken (t : ColorTree α) : t.blacken.color = .black := by cases t <;> rfl

theorem blacken_of_black (h : t.color = .black) : t.blacken = t := by
  cases t with
  | leaf => rfl
  | node c l x r => exact congrArg (ColorTree.node · l x r) h.symm

/-! ## §2 Positions -/

/-- One step up: the parent, with the side on which the position is below it. -/
structure Crumb (α : Type) where
  side : Side
  color : Color
  item : α
  sibling : ColorTree α

def plug : List (Crumb α) → ColorTree α → ColorTree α
  | [], t => t
  | f :: k, t => plug k (join f.side f.color t f.item f.sibling)

theorem plug_append (k k' : List (Crumb α)) (t : ColorTree α) : plug (k ++ k') t = plug k' (plug k t) := by
  induction k generalizing t with
  | nil => rfl
  | cons f k ih => exact ih _

/-- The elements off the position. -/
def elems : List (Crumb α) → List α
  | [] => []
  | f :: k => f.item :: (f.sibling.inorder ++ elems k)

theorem inorder_plug_perm (k : List (Crumb α)) (t : ColorTree α) : (plug k t).inorder.Perm (t.inorder ++ elems k) := by
  induction k generalizing t with
  | nil => rw [plug, elems, append_nil]
  | cons f k ih =>
    refine (ih _).trans (((inorder_join_perm _ _ _ _ _).append_right _).trans ?_)
    rw [elems, cons_append, append_assoc]
    exact perm_middle.symm

/-- The elements before the position. -/
def before : List (Crumb α) → List α
  | [] => []
  | f :: k =>
    match f.side with
    | .left => before k
    | .right => before k ++ (f.sibling.inorder ++ [f.item])

/-- The elements behind the position. -/
def after : List (Crumb α) → List α
  | [] => []
  | f :: k =>
    match f.side with
    | .left => f.item :: (f.sibling.inorder ++ after k)
    | .right => after k

theorem inorder_plug (k : List (Crumb α)) (t : ColorTree α) :
    (plug k t).inorder = before k ++ (t.inorder ++ after k) := by
  induction k generalizing t with
  | nil => simp [plug, before, after]
  | cons f k ih =>
    obtain ⟨d, c, x, sibling⟩ := f
    rw [plug, ih]
    cases d <;> simp [join, inorder, before, after]

variable {k : List (Crumb α)}

/-- A way that only goes to the left leaves nothing behind. -/
theorem before_left (h : ∀ f ∈ k, f.side = .left) : before k = [] := by
  induction k with
  | nil => rfl
  | cons f k ih =>
    rw [before, h f mem_cons_self]
    exact ih (forall_mem_cons.mp h).2

/-- Every element is at some position. -/
theorem exists_plug (h : x ∈ t.inorder) : ∃ k c l r, t = plug k (.node c l x r) := by
  have hbelow : ∀ k : List (Crumb α), ∃ k' c l r, plug k t = plug k' (.node c l x r) := by
    induction t with
    | leaf => cases h
    | node c l y r ihl ihr =>
      intro k
      rw [inorder, mem_append, mem_cons] at h
      rcases h with h | rfl | h
      · exact ihl h (⟨.left, c, y, r⟩ :: k)
      · exact ⟨k, c, l, r, rfl⟩
      · exact ihr h (⟨.right, c, y, l⟩ :: k)
  exact hbelow []

/-- What stands at a position decides the order, and nothing else. -/
theorem inorder_plug_congr (h : t.inorder = t'.inorder) : (plug k t).inorder = (plug k t').inorder := by
  rw [inorder_plug, inorder_plug, h]

/-! ## §3 The way down -/

/-- The way to the leaf where a new element goes: to the left where `less` holds. -/
def descend (less : α → Bool) : ColorTree α → List (Crumb α) → List (Crumb α)
  | .leaf, k => k
  | .node c l x r, k =>
    if less x then descend less l (⟨.left, c, x, r⟩ :: k) else descend less r (⟨.right, c, x, l⟩ :: k)

theorem plug_descend (less : α → Bool) (t : ColorTree α) (k : List (Crumb α)) :
    plug (descend less t k) .leaf = plug k t := by
  induction t generalizing k with
  | leaf => rfl
  | node c l x r ihl ihr =>
    rw [descend]
    split_ifs
    · exact ihl _
    · exact ihr _

variable {less : α → Bool} {le : α → α → Prop}

/-- In a sorted tree the new element is behind those that are not greater and before those
that are. -/
theorem descend_sorted (hsorted : (plug k t).inorder.Pairwise le)
    (hmono : ∀ x ∈ (plug k t).inorder, ∀ y ∈ (plug k t).inorder, le x y → less x = true → less y = true)
    (hbefore : ∀ x ∈ before k, less x = false) (hafter : ∀ x ∈ after k, less x = true) :
    (∀ x ∈ before (descend less t k), less x = false) ∧ ∀ x ∈ after (descend less t k), less x = true := by
  induction t generalizing k with
  | leaf => exact ⟨hbefore, hafter⟩
  | node c l x r ihl ihr =>
    have hmem : ∀ y ∈ (ColorTree.node c l x r).inorder, y ∈ (plug k (.node c l x r)).inorder := by
      intro y hy
      rw [inorder_plug]
      simp [hy]
    have hnode : (ColorTree.node c l x r).inorder.Pairwise le := by
      rw [inorder_plug] at hsorted
      exact (pairwise_append.mp (pairwise_append.mp hsorted).2.1).1
    obtain ⟨-, hright, hleft⟩ := pairwise_append.mp hnode
    have hx : x ∈ (ColorTree.node c l x r).inorder := by simp [inorder]
    rw [descend]
    split_ifs with hless
    · refine ihl hsorted hmono hbefore ?_
      intro y hy
      rcases mem_cons.mp hy with rfl | hy
      · exact hless
      rcases mem_append.mp hy with hy | hy
      · exact hmono x (hmem x hx) y (hmem y (by simp [inorder, hy])) ((pairwise_cons.mp hright).1 y hy) hless
      · exact hafter y hy
    refine ihr hsorted hmono ?_ hafter
    intro y hy
    rcases mem_append.mp hy with hy | hy
    · exact hbefore y hy
    rcases mem_append.mp hy with hy | hy
    · by_contra hne
      exact hless (hmono y (hmem y (by simp [inorder, hy])) x (hmem x hx)
        (hleft y hy x mem_cons_self) (eq_true_of_ne_false hne))
    · rw [mem_singleton.mp hy]
      exact eq_false_of_ne_true hless

/-- A new element keeps a tree sorted if no element compares otherwise than its neighbours. -/
theorem insert_sorted (hsorted : t.inorder.Pairwise le)
    (hmono : ∀ y ∈ t.inorder, ∀ z ∈ t.inorder, le y z → less y = true → less z = true)
    (hbefore : ∀ y ∈ t.inorder, less y = false → le y x) (hafter : ∀ y ∈ t.inorder, less y = true → le x y) :
    (before (descend less t []) ++ x :: after (descend less t [])).Pairwise le := by
  obtain ⟨hb, ha⟩ := descend_sorted (k := []) hsorted hmono nofun nofun
  have hplug := inorder_plug (descend less t []) .leaf
  rw [plug_descend, inorder, nil_append] at hplug
  change t.inorder = _ at hplug
  rw [hplug] at hsorted hbefore hafter
  obtain ⟨h1, h2, h12⟩ := pairwise_append.mp hsorted
  refine pairwise_append.mpr ⟨h1, pairwise_cons.mpr ⟨?_, h2⟩, ?_⟩
  · intro y hy
    exact hafter y (mem_append_right _ hy) (ha y hy)
  · intro y hy z hz
    rcases mem_cons.mp hz with rfl | hz
    · exact hbefore y (mem_append_left _ hy) (hb y hy)
    · exact h12 y hy z hz

/-- The elements are the old ones and the new one. -/
theorem insert_perm : (before (descend less t []) ++ x :: after (descend less t [])).Perm (x :: t.inorder) := by
  have hplug := inorder_plug (descend less t []) .leaf
  rw [plug_descend, inorder, nil_append] at hplug
  change t.inorder = _ at hplug
  rw [hplug]
  exact perm_middle

end ColorTree
end GokuStudio.Lib

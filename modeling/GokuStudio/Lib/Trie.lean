import Mathlib.Data.List.Basic
import Mathlib.Tactic.Common

/-!
# Binary tries

A node stands for the path that leads to it, and a value may be blank: then the node is there
only for what is below it. `plug` puts a tree back in its place, as in a zipper.
-/

namespace GokuStudio.Lib

open Function List

inductive Trie (β : Type) where
  | null
  | node (left : Trie β) (value : β) (right : Trie β)
deriving DecidableEq

namespace Trie
variable {β : Type}

/-- A node with a child on one side, and another one on the other side. -/
def join (right : Bool) (t : Trie β) (value : β) (sibling : Trie β) : Trie β :=
  if right then .node sibling value t else .node t value sibling

/-- What is around a child. -/
structure Crumb (β : Type) where
  right : Bool
  value : β
  sibling : Trie β

def plug : List (Crumb β) → Trie β → Trie β
  | [], t => t
  | f :: k, t => plug k (join f.right t f.value f.sibling)

/-- The path to the place. -/
def path : List (Crumb β) → List Bool
  | [] => []
  | f :: k => path k ++ [f.right]

/-- The value of the node at a path. -/
def get : Trie β → List Bool → Option β
  | .null, _ => none
  | .node _ value _, [] => some value
  | .node left _ _, false :: p => get left p
  | .node _ _ right, true :: p => get right p

@[simp]
theorem get_null (p : List Bool) : (null : Trie β).get p = none := by cases p <;> rfl

@[simp]
theorem get_join_nil (d : Bool) (t : Trie β) (v : β) (s : Trie β) : (join d t v s).get [] = some v := by
  cases d <;> rfl

@[simp]
theorem get_join_self (d : Bool) (t : Trie β) (v : β) (s : Trie β) (p : List Bool) :
    (join d t v s).get (d :: p) = t.get p := by
  cases d <;> rfl

theorem get_join_of_ne {d e : Bool} (h : e ≠ d) (t : Trie β) (v : β) (s : Trie β) (p : List Bool) :
    (join d t v s).get (e :: p) = s.get p := by
  cases d <;> cases e <;> first | rfl | exact absurd rfl h

theorem get_plug (k : List (Crumb β)) (t : Trie β) (p : List Bool) : (plug k t).get (path k ++ p) = t.get p := by
  induction k generalizing t p with
  | nil => rfl
  | cons f k ih =>
    show (plug k (join f.right t f.value f.sibling)).get (path k ++ [f.right] ++ p) = _
    rw [append_assoc, ih]
    exact get_join_self _ _ _ _ _

variable {k : List (Crumb β)} {p : List Bool}

/-- Whatever is put in a place, the paths that do not lead through it keep their nodes. -/
theorem get_plug_of_not (h : ∀ q, p ≠ path k ++ q) (t t' : Trie β) : (plug k t).get p = (plug k t').get p := by
  induction k generalizing t t' with
  | nil => exact absurd rfl (h p)
  | cons f k ih =>
    by_cases hk : ∃ q, p = path k ++ q
    · obtain ⟨q, rfl⟩ := hk
      show (plug k (join f.right t f.value f.sibling)).get _ = (plug k (join f.right t' f.value f.sibling)).get _
      rw [get_plug, get_plug]
      cases q with
      | nil => rw [get_join_nil, get_join_nil]
      | cons d q =>
        have hd : d ≠ f.right := by
          rintro rfl
          refine h q ?_
          rw [path, append_assoc]
          rfl
        rw [get_join_of_ne hd, get_join_of_ne hd]
    · exact ih (fun q hq => hk ⟨q, hq⟩) _ _

/-- No path to a node is longer than `n`. -/
def Within (n : Nat) (t : Trie β) : Prop := ∀ p, t.get p ≠ none → p.length ≤ n

variable {t t' : Trie β}

theorem Within.plug {n : Nat} (h : Within n (plug k t))
    (ht : ∀ p, t'.get p ≠ none → (path k).length + p.length ≤ n) : Within n (Trie.plug k t') := by
  intro p hp
  by_cases hk : ∃ q, p = path k ++ q
  · obtain ⟨q, rfl⟩ := hk
    rw [get_plug] at hp
    rw [length_append]
    exact ht q hp
  · refine h p ?_
    rw [get_plug_of_not (fun q hq => hk ⟨q, hq⟩) t t']
    exact hp

section Entries
variable [DecidableEq β] {blank : β}

/-- The value at a path, unless it is blank. -/
def entry (blank : β) (t : Trie β) (p : List Bool) : Option β := (t.get p).filter (· ≠ blank)

theorem entry_some {v : β} (h : t.get p = some v) : entry blank t p = if v = blank then none else some v := by
  rw [entry, h, Option.filter_some]
  by_cases hv : v = blank <;> simp [hv]

theorem entry_none (h : t.get p = none) : entry blank t p = none := by
  rw [entry, h]
  rfl

theorem entry_null (p : List Bool) : entry blank (null : Trie β) p = none := entry_none (get_null p)

theorem entry_plug (k : List (Crumb β)) (t : Trie β) (p : List Bool) :
    entry blank (plug k t) (path k ++ p) = entry blank t p := by rw [entry, get_plug, entry]

/-- An entry that changes in a place changes at the path through it. -/
theorem entry_plug_update {k : List (Crumb β)} {t t' : Trie β} {q : List Bool} {x : Option β}
    (h : entry blank t' = update (entry blank t) q x) :
    entry blank (plug k t') = update (entry blank (plug k t)) (path k ++ q) x := by
  funext p
  by_cases hk : ∃ r, p = path k ++ r
  · obtain ⟨r, rfl⟩ := hk
    rw [entry_plug, h]
    by_cases hr : r = q
    · rw [hr, update_self, update_self]
    · have hne : path k ++ r ≠ path k ++ q := fun heq => hr (append_cancel_left heq)
      rw [update_of_ne hr, update_of_ne hne, entry_plug]
  · rw [update_of_ne (fun heq => hk ⟨q, heq⟩), entry, entry, get_plug_of_not (fun r hr => hk ⟨r, hr⟩) t' t]

theorem entry_plug_congr (h : entry blank t' = entry blank t) : entry blank (plug k t') = entry blank (plug k t) := by
  have hself : entry blank t' = update (entry blank t) [] (entry blank t []) := by
    rw [update_eq_self, h]
  rw [entry_plug_update hself, ← entry_plug k, update_eq_self]

/-- The longest entry along a path. -/
def Longest (blank : β) (M : List Bool → Option β) (p : List Bool) (v : β) : Prop :=
  (∃ n ≤ p.length, M (p.take n) = some v ∧ ∀ m, n < m → m ≤ p.length → M (p.take m) = none) ∨
    v = blank ∧ ∀ n ≤ p.length, M (p.take n) = none

end Entries
end Trie
end GokuStudio.Lib

import GokuStudio.Nginx.Core
import GokuStudio.Nginx.RadixTree

/-!
# The radix tree is a map of prefixes

What is in the tree is the map that the results of the calls speak of, and a search finds the
longest prefix in it. Two deletions are not so: a node without a value and without children,
as the creation makes them, is removed as if it had a value, and the root has no parent that a
childless root could be taken from.
-/

namespace GokuStudio.Nginx.RadixTree

open Lib Trie Function List Family
variable {w j : Nat} {b : Bits} {room : BitVec 32 → BitVec 32 → Nat} {c : b.Pos} {mask inc : BitVec 32} {t : Tree w}

/-! ## §1 Walks -/

/-- The bits that a walk goes through until the mask is used up. -/
inductive Spells (b : Bits) : b.Pos → List Bool → Prop
  | stop {c : b.Pos} (h : b.more c = false) : Spells b c []
  | go {c : b.Pos} {p : List Bool} (h : b.more c = true) (hrest : Spells b (b.next c) p) : Spells b c (b.side c :: p)

abbrev Place (w : Nat) := List (Crumb (BitVec w))

/-- The child on one side. -/
def child (left right : Tree w) (d : Bool) : Tree w := if d then right else left

theorem node_eq_join (left right : Tree w) (v : BitVec w) (d : Bool) :
    .node left v right = join d (child left right d) v (child left right !d) := by
  cases d <;> rfl

/-- Where the child is that a walk goes to. -/
def below (b : Bits) (left right : Tree w) (v : BitVec w) (k : Place w) (c : b.Pos) : Place w :=
  ⟨b.side c, v, child left right !(b.side c)⟩ :: k

variable {left right : Tree w} {v value : BitVec w} {k : Place w} {p : List Bool} {n : Nat}

theorem plug_below : plug (below b left right v k c) (child left right (b.side c)) = plug k (.node left v right) := by
  rw [node_eq_join left right v (b.side c)]
  rfl

theorem path_below : path (below b left right v k c) ++ p = path k ++ b.side c :: p := by
  rw [below, path, append_assoc]
  rfl

theorem descend_eq (hmore : b.more c = true) : descend b (.node left v right) k c =
      if child left right (b.side c) = .null then (⟨.node left v right, k, c⟩, false)
      else descend b (child left right (b.side c)) (below b left right v k c) (b.next c) := by
  rw [descend, if_pos hmore, below]
  cases b.side c <;> rfl

theorem reach_eq (hmore : b.more c = true) :
    reach b (.node left v right) k c = reach b (child left right (b.side c)) (below b left right v k c) (b.next c) := by
  rw [reach, if_pos hmore, below]
  cases b.side c <;> rfl

/-- An insertion ends at the node of its path, or at one above it without the child it needs. -/
theorem descend_spec (h : Spells b c p) (ht : t ≠ .null) (k : Place w) :
    ∃ left v right k' c' q r, p = q ++ r ∧ path k' = path k ++ q ∧ plug k' (.node left v right) = plug k t ∧
      Spells b c' r ∧ descend b t k c = (⟨.node left v right, k', c'⟩, r.isEmpty) ∧
      ∀ d r', r = d :: r' → child left right d = .null := by
  induction h generalizing t k with
  | @stop c hstop =>
    cases t with
    | null => exact absurd rfl ht
    | node left v right =>
      refine ⟨left, v, right, k, c, [], [], rfl, (append_nil _).symm, rfl, .stop hstop, ?_, nofun⟩
      rw [descend, hstop]
      rfl
  | @go c p hmore hrest ih =>
    cases t with
    | null => exact absurd rfl ht
    | node left v right =>
      rw [descend_eq hmore]
      by_cases hnull : child left right (b.side c) = .null
      · refine ⟨left, v, right, k, c, [], b.side c :: p, rfl, (append_nil _).symm, rfl, .go hmore hrest, ?_, ?_⟩
        · rw [if_pos hnull]
          rfl
        · rintro d r' ⟨⟩
          exact hnull
      · rw [if_neg hnull]
        obtain ⟨l, x, r, k', c', q, rest, hp, hpath, hplug, hspells, hdescend, hchild⟩ :=
          ih hnull (below b left right v k c)
        exact ⟨l, x, r, k', c', b.side c :: q, rest, by rw [hp]; rfl, hpath.trans path_below, hplug.trans plug_below,
          hspells, hdescend, hchild⟩

/-- A deletion ends at the node of its path, if there is one. -/
theorem reach_spec (h : Spells b c p) (t : Tree w) (k : Place w) : (reach b t k c).1 = .null ∧ t.get p = none ∨
      ∃ left v right k', reach b t k c = (.node left v right, k') ∧ plug k' (.node left v right) = plug k t ∧
        path k' = path k ++ p := by
  induction h generalizing t k with
  | @stop c hstop =>
    cases t with
    | null => exact .inl ⟨rfl, rfl⟩
    | node left v right =>
      refine .inr ⟨left, v, right, k, ?_, rfl, (append_nil _).symm⟩
      rw [reach, hstop]
      rfl
  | @go c p hmore hrest ih =>
    cases t with
    | null => exact .inl ⟨rfl, get_null _⟩
    | node left v right =>
      rw [reach_eq hmore]
      rcases ih (child left right (b.side c)) (below b left right v k c) with
        ⟨hnull, hget⟩ | ⟨l, x, r, k', hreach, hplug, hpath⟩
      · refine .inl ⟨hnull, ?_⟩
        rw [node_eq_join left right v (b.side c), get_join_self]
        exact hget
      · exact .inr ⟨l, x, r, k', hreach, hplug.trans plug_below, hpath.trans path_below⟩

/-! ## §2 Insertion -/

/-- What a value says about its key. -/
def mark (value : BitVec w) : Option (BitVec w) := if value = noValue then none else some value

theorem entry_set (left right : Tree w) (v value : BitVec w) :
    entry noValue (.node left value right) = update (entry noValue (.node left v right)) [] (mark value) := by
  funext p
  cases p with
  | nil =>
    rw [update_self]
    exact entry_some rfl
  | cons d p =>
    rw [update_of_ne (cons_ne_nil d p)]
    cases d <;> rfl

theorem entry_blank : entry noValue (.node .null noValue .null : Tree w) = entry noValue .null := by
  funext p
  cases p with
  | nil => exact (entry_some rfl).trans (if_pos rfl)
  | cons d p => cases d <;> exact (entry_null p).trans (entry_null _).symm

theorem plug_ne_null (k : Place w) (left : Tree w) (v : BitVec w) (right : Tree w) :
    plug k (.node left v right) ≠ .null := by
  induction k generalizing left v right with
  | nil => nofun
  | cons f k ih =>
    rw [plug, join]
    split <;> exact ih _ _ _

theorem within_set (h : Within n (plug k (.node left v right))) : Within n (plug k (.node left value right)) := by
  refine h.plug fun p hp => ?_
  have hold : (plug k (.node left v right)).get (path k ++ p) ≠ none := by
    rw [get_plug]
    cases p with
    | nil => nofun
    | cons d p => cases d <;> exact hp
  have hle := h _ hold
  rwa [length_append] at hle

/-- An empty node below another one is as good as none. -/
theorem within_blank (h : Within n (plug k .null)) (hn : (path k).length ≤ n) :
    Within n (plug k (.node .null noValue .null)) := by
  refine h.plug fun p hp => ?_
  cases p with
  | nil => exact hn
  | cons d p => cases d <;> exact absurd (get_null p) hp

theorem extend_spec (h : Spells b c p) (value : BitVec w) (room : Nat)
    (hchild : ∀ d r, p = d :: r → child left right d = .null) :
    ((extend b value room ⟨.node left v right, k, c⟩).1 = .ok ∧
        entry noValue (extend b value room ⟨.node left v right, k, c⟩).2 =
          update (entry noValue (plug k (.node left v right))) (path k ++ p) (mark value) ∨
      (extend b value room ⟨.node left v right, k, c⟩).1 = .error ∧ room < p.length ∧
        entry noValue (extend b value room ⟨.node left v right, k, c⟩).2 = entry noValue (plug k (.node left v right))) ∧
    (extend b value room ⟨.node left v right, k, c⟩).2 ≠ .null ∧
    ∀ n, Within n (plug k (.node left v right)) → (path k ++ p).length ≤ n →
      Within n (extend b value room ⟨.node left v right, k, c⟩).2 := by
  induction h generalizing room left right v k with
  | @stop c hstop =>
    have heq : extend b value room ⟨.node left v right, k, c⟩ = (.ok, plug k (.node left value right)) := by
      cases room <;> rw [extend, if_neg (by rw [hstop]; exact Bool.false_ne_true)]
    rw [heq]
    exact ⟨.inl ⟨rfl, entry_plug_update (entry_set left right v value)⟩, plug_ne_null k _ _ _, fun n hn _ => within_set hn⟩
  | @go c p hmore hrest ih =>
    cases room with
    | zero =>
      rw [extend, if_pos hmore]
      exact ⟨.inr ⟨rfl, Nat.succ_pos _, rfl⟩, plug_ne_null k _ _ _, fun n hn _ => hn⟩
    | succ room =>
      have hnull := hchild _ _ rfl
      have hsibling : (if b.side c then left else right) = child left right !(b.side c) := by
        cases b.side c <;> rfl
      rw [extend, if_pos hmore, hsibling, ← below]
      -- the tree as it is: there is no child where the new node goes
      have hold : plug k (.node left v right) = plug (below b left right v k c) .null := by rw [← plug_below, hnull]
      obtain ⟨hresult, hne, hwithin⟩ := @ih .null .null noValue (below b left right v k c) room
        (fun d _ _ => by cases d <;> rfl)
      rw [path_below, entry_plug_congr entry_blank, ← hold] at hresult
      refine ⟨?_, hne, fun n hn hle => ?_⟩
      · rcases hresult with hok | ⟨herror, hroom, hentry⟩
        · exact .inl hok
        · exact .inr ⟨herror, Nat.succ_lt_succ hroom, hentry⟩
      · rw [path_below] at hwithin
        refine hwithin n (within_blank (hold ▸ hn) ?_) hle
        rw [← @path_below _ _ _ left right v, length_append] at hle
        omega

/-- An insertion along a path. -/
theorem insert_spec (h : Spells b b.start p) {tree : Tree w} (htree : tree ≠ .null) (value : BitVec w)
    (room : Nat) :
    (entry noValue tree p ≠ none ∧ insert b tree value room = (.busy, tree) ∨
      entry noValue tree p = none ∧ ((insert b tree value room).1 = .ok ∧
          entry noValue (insert b tree value room).2 = update (entry noValue tree) p (mark value) ∨
        (insert b tree value room).1 = .error ∧ room < p.length ∧
          entry noValue (insert b tree value room).2 = entry noValue tree)) ∧
    (insert b tree value room).2 ≠ .null ∧
    ∀ n, Within n tree → p.length ≤ n → Within n (insert b tree value room).2 := by
  obtain ⟨left, v, right, k, c, q, r, rfl, hpath, hplug, hspells, hdescend, hchild⟩ := descend_spec h htree []
  have hpath : path k = q := hpath
  have hplug : plug k (.node left v right) = tree := hplug
  cases r with
  | nil =>
    have heq : insert b tree value room =
        if v ≠ noValue then (.busy, tree) else (.ok, plug k (.node left value right)) := by
      rw [insert, hdescend]
      rfl
    have hentry : entry noValue tree (q ++ []) = mark v := by
      rw [← hplug, ← hpath, entry_plug]
      exact entry_some rfl
    by_cases hv : v = noValue
    · rw [heq, if_neg (not_not.mpr hv)]
      refine ⟨.inr ⟨hentry.trans (if_pos hv), .inl ⟨rfl, ?_⟩⟩, plug_ne_null k _ _ _, fun n hn _ => ?_⟩
      · rw [← hpath, ← hplug]
        exact entry_plug_update (entry_set left right v value)
      · exact within_set (hplug ▸ hn)
    · rw [heq, if_pos hv]
      refine ⟨.inl ⟨?_, rfl⟩, htree, fun n hn _ => hn⟩
      rw [hentry, mark, if_neg hv]
      nofun
  | cons d r =>
    have heq : insert b tree value room = extend b value room ⟨.node left v right, k, c⟩ := by
      rw [insert, hdescend]
      rfl
    have hentry : entry noValue tree (q ++ d :: r) = none := by
      rw [← hplug, ← hpath, entry_plug, node_eq_join left right v d, hchild d r rfl]
      exact entry_none ((get_join_self _ _ _ _ _).trans (get_null r))
    obtain ⟨hresult, hne, hwithin⟩ := extend_spec (v := v) (k := k) hspells value room hchild
    rw [heq]
    rw [hpath, hplug] at hresult hwithin
    refine ⟨.inr ⟨hentry, ?_⟩, hne, hwithin⟩
    rcases hresult with hok | ⟨herror, hroom, hsame⟩
    · exact .inl hok
    refine .inr ⟨herror, ?_, hsame⟩
    rw [length_append]
    omega

/-! ## §3 Deletion -/

/-- The condition on a deletion: a node without children has a value, and is not the root. -/
def Safe (tree : Tree w) (p : List Bool) : Prop :=
  tree.get p ≠ none → (∀ d, tree.get (p ++ [d]) = none) → tree.get p ≠ some noValue ∧ p ≠ []

theorem prune_spec (hk : k ≠ []) :
    ∃ tree, prune k = some tree ∧ entry noValue tree = entry noValue (plug k .null) ∧ tree ≠ .null ∧
      ∀ n, Within n (plug k .null) → Within n tree := by
  induction k with
  | nil => exact absurd rfl hk
  | cons f k ih =>
    rw [prune]
    split
    case isTrue =>
      refine ⟨_, rfl, rfl, ?_, fun n hn => hn⟩
      rw [join]
      split <;> exact plug_ne_null k _ _ _
    case isFalse hgo =>
      obtain ⟨hsibling, hrest⟩ := not_or.mp hgo
      obtain ⟨hvalue, hempty⟩ := not_or.mp hrest
      have hjoin : join f.right .null f.value f.sibling = .node .null noValue .null := by
        rw [not_not.mp hsibling, not_not.mp hvalue, join, ite_self]
      have hk' : k ≠ [] := fun hnil => hempty (hnil ▸ rfl)
      obtain ⟨tree, hprune, hentry, hne, hwithin⟩ := ih hk'
      refine ⟨tree, hprune, ?_, hne, fun n hn => hwithin n ?_⟩
      · rw [plug, hjoin, hentry, entry_plug_congr entry_blank]
      · rw [plug, hjoin] at hn
        exact hn.plug fun p => absurd (get_null p)

theorem entry_drop (v : BitVec w) :
    entry noValue .null = update (entry noValue (.node .null v .null : Tree w)) [] none := by
  rw [← entry_blank, entry_set .null .null v noValue, mark, if_pos rfl]

theorem get_child (left right : Tree w) (v : BitVec w) (d : Bool) :
    (Trie.node left v right).get [d] = none ↔ child left right d = .null := by
  rw [node_eq_join left right v d, get_join_self]
  generalize child left right d = t
  cases t with
  | null => exact iff_of_true rfl rfl
  | node => exact iff_of_false nofun nofun

theorem delete_spec (h : Spells b b.start p) {tree : Tree w} (htree : tree ≠ .null)
    (hsafe : Safe tree p) :
    ∃ rc tree', delete b tree = some (rc, tree') ∧
      (entry noValue tree p ≠ none ∧ rc = .ok ∧ entry noValue tree' = update (entry noValue tree) p none ∨
        entry noValue tree p = none ∧ rc = .error ∧ tree' = tree) ∧
      tree' ≠ .null ∧ ∀ n, Within n tree → Within n tree' := by
  rcases reach_spec h tree [] with ⟨hnull, hget⟩ | ⟨left, v, right, k, hreach, hplug, hpath⟩
  · refine ⟨.error, tree, ?_, .inr ⟨entry_none hget, rfl, rfl⟩, htree, fun n hn => hn⟩
    rw [delete]
    generalize reach b tree [] b.start = r at hnull
    obtain ⟨t, k⟩ := r
    cases hnull
    rfl
  have hplug : plug k (.node left v right) = tree := hplug
  have hpath : path k = p := hpath
  have hget : ∀ q, tree.get (p ++ q) = (Trie.node left v right).get q := by
    intro q
    rw [← hplug, ← hpath, get_plug]
  have hself : tree.get p = some v := by
    rw [← append_nil p, hget]
    rfl
  have hentry : entry noValue tree p = mark v := entry_some hself
  rw [delete, hreach]
  by_cases hchildren : right ≠ .null ∨ left ≠ .null
  · simp only [if_pos hchildren]
    by_cases hv : v = noValue
    · rw [if_neg (not_not.mpr hv)]
      exact ⟨.error, tree, rfl, .inr ⟨hentry.trans (if_pos hv), rfl, rfl⟩, htree, fun n hn => hn⟩
    rw [if_pos hv]
    refine ⟨.ok, _, rfl, .inl ⟨?_, rfl, ?_⟩, plug_ne_null k _ _ _, fun n hn => within_set (hplug ▸ hn)⟩
    · rw [hentry, mark, if_neg hv]
      nofun
    · have hset := @entry_plug_update _ _ _ k _ _ _ _ (entry_set left right v noValue)
      rw [hplug, hpath, append_nil, mark, if_pos rfl] at hset
      exact hset
  · obtain ⟨hright, hleft⟩ := not_or.mp hchildren
    rw [not_not] at hright hleft
    subst hright hleft
    obtain ⟨hv, hp⟩ := hsafe (by rw [hself]; nofun) fun d => by
      rw [hget, get_child]
      cases d <;> rfl
    have hv : v ≠ noValue := fun heq => hv (heq ▸ hself)
    have hk : k ≠ [] := fun hnil => hp (by rw [← hpath, hnil]; rfl)
    obtain ⟨tree', hprune, hentry', hne, hwithin⟩ := prune_spec hk
    simp only [if_neg hchildren, hprune, Option.map_some]
    refine ⟨.ok, tree', rfl, .inl ⟨?_, rfl, ?_⟩, hne, fun n hn => hwithin n ?_⟩
    · rw [hentry, mark, if_neg hv]
      nofun
    · have hdrop := @entry_plug_update _ _ _ k _ _ _ _ (entry_drop v)
      rw [hplug, hpath, append_nil] at hdrop
      rw [hentry', hdrop]
    · rw [← hplug] at hn
      exact hn.plug fun q => absurd (get_null q)

/-! ## §4 Search -/

/-- The sides that a search takes. -/
def sides (b : Bits) : Nat → b.Pos → List Bool
  | 0, _ => []
  | n + 1, c => b.side c :: sides b n (b.next c)

theorem length_sides (n : Nat) (c : b.Pos) : (sides b n c).length = n := by
  induction n generalizing c with
  | zero => rfl
  | succ n ih => rw [sides, length_cons, ih]

theorem findFrom_eq : findFrom b (.node left v right) c value =
      findFrom b (child left right (b.side c)) (b.next c) (if v ≠ noValue then v else value) := by
  rw [findFrom]
  cases b.side c <;> rfl

theorem entry_child (left right : Tree w) (v : BitVec w) (d : Bool) (p : List Bool) :
    entry noValue (.node left v right) (d :: p) = entry noValue (child left right d) p := by
  cases d <;> rfl

theorem within_child (h : Within (n + 1) (.node left v right))
    (d : Bool) :
    Within n (child left right d) := by
  intro p hp
  refine Nat.le_of_succ_le_succ (h (d :: p) ?_)
  rw [node_eq_join left right v d, get_join_self]
  exact hp

/-- A search finds the value of the longest entry on its way, or the one it has already. -/
def Finds (b : Bits) (t : Tree w) (n : Nat) (c : b.Pos) (value : BitVec w) : Prop :=
  (∃ m ≤ n, entry noValue t ((sides b n c).take m) = some (findFrom b t c value) ∧
      ∀ j, m < j → j ≤ n → entry noValue t ((sides b n c).take j) = none) ∨
    findFrom b t c value = value ∧ ∀ m ≤ n, entry noValue t ((sides b n c).take m) = none

theorem findFrom_spec (h : Within n t) (c : b.Pos) (value : BitVec w) : Finds b t n c value := by
  induction t generalizing n c value with
  | null => exact .inr ⟨rfl, fun m _ => entry_null _⟩
  | node left v right ihleft ihright =>
    have hself : entry noValue (.node left v right) [] = mark v := entry_some rfl
    rw [Finds, findFrom_eq]
    cases n with
    | zero =>
      have hnull : child left right (b.side c) = .null := by
        rw [← get_child left right v]
        by_contra hsome
        exact absurd (h _ hsome) (Nat.not_succ_le_zero 0)
      rw [hnull]
      show (∃ m ≤ 0, entry noValue _ (take m []) = some (if v ≠ noValue then v else value) ∧ _) ∨ _
      by_cases hv : v = noValue
      · rw [if_neg (not_not.mpr hv)]
        refine .inr ⟨rfl, fun m hm => ?_⟩
        rw [sides, take_nil, hself, mark, if_pos hv]
      · rw [if_pos hv]
        refine .inl ⟨0, Nat.le_refl 0, ?_, fun j hj hle => absurd hj (Nat.not_lt.mpr hle)⟩
        rw [take_nil, hself, mark, if_neg hv]
    | succ n =>
      have hchild : ∀ d, Within n (child left right d) → ∀ c value, Finds b (child left right d) n c value := by
        intro d hd
        cases d with
        | false => exact ihleft hd
        | true => exact ihright hd
      rcases hchild _ (within_child h (b.side c)) (b.next c) (if v ≠ noValue then v else value) with
        ⟨m, hm, hentry, hrest⟩ | ⟨hfind, hnone⟩
      · refine .inl ⟨m + 1, Nat.succ_le_succ hm, ?_, fun j hj hle => ?_⟩
        · rw [sides, take_succ_cons, entry_child]
          exact hentry
        · obtain ⟨j, rfl⟩ := Nat.exists_eq_succ_of_ne_zero (Nat.ne_zero_of_lt hj)
          rw [sides, take_succ_cons, entry_child]
          exact hrest j (Nat.lt_of_succ_lt_succ hj) (Nat.le_of_succ_le_succ hle)
      have hbelow : ∀ j, j ≤ n → entry noValue (.node left v right) ((sides b (n + 1) c).take (j + 1)) = none := by
        intro j hj
        rw [sides, take_succ_cons, entry_child]
        exact hnone j hj
      rw [hfind]
      by_cases hv : v = noValue
      · rw [if_neg (not_not.mpr hv)]
        refine .inr ⟨rfl, fun m hm => ?_⟩
        cases m with
        | zero => rw [take_zero, hself, mark, if_pos hv]
        | succ m => exact hbelow m (Nat.le_of_succ_le_succ hm)
      · rw [if_pos hv]
        refine .inl ⟨0, Nat.zero_le _, ?_, fun j hj hle => ?_⟩
        · rw [take_zero, hself, mark, if_neg hv]
        · obtain ⟨j, rfl⟩ := Nat.exists_eq_succ_of_ne_zero (Nat.ne_zero_of_lt hj)
          exact hbelow j (Nat.le_of_succ_le_succ hle)

/-! ## §5 Keys and masks -/

section Positions
variable (pos : Nat → b.Pos) (hnext : ∀ j, b.next (pos j) = pos (j + 1))
include hnext

theorem spells_of (hmore : ∀ j < n, b.more (pos j) = true) (hstop : b.more (pos n) = false) :
    Spells b (pos 0) ((range n).map fun j => b.side (pos j)) := by
  have hfrom : ∀ m i, i + m = n → Spells b (pos i) ((range' i m).map fun j => b.side (pos j)) := by
    intro m
    induction m with
    | zero =>
      intro i hi
      rw [← hi] at hstop
      exact .stop hstop
    | succ m ih =>
      intro i hi
      refine .go (hmore i (by omega)) ?_
      rw [hnext]
      exact ih (i + 1) (by omega)
  rw [range_eq_range']
  exact hfrom n 0 (Nat.zero_add n)

theorem sides_of (n : Nat) : sides b n (pos 0) = (range n).map fun j => b.side (pos j) := by
  have hfrom : ∀ i, sides b n (pos i) = (range' i n).map fun j => b.side (pos j) := by
    induction n with
    | zero => exact fun _ => rfl
    | succ n ih =>
      intro i
      rw [sides, hnext, ih, range'_succ, map_cons]
  rw [range_eq_range']
  exact hfrom 0

end Positions

theorem and_bit32 {x : BitVec 32} (hj : j < 32) :
    decide (x &&& (0x80000000 : BitVec 32) >>> j ≠ 0) = x.getMsbD j := by
  have hbit : ∀ j < 32, (0x80000000 : BitVec 32) >>> j = BitVec.twoPow 32 (31 - j) := by decide
  have hne : ∀ j < 32, BitVec.twoPow 32 (31 - j) ≠ 0#32 := by decide
  rw [hbit j hj, BitVec.and_twoPow, BitVec.getMsbD_eq_getLsbD]
  cases hget : x.getLsbD (31 - j) with
  | false => simp
  | true => simp [hne j hj, hj]

/-- The bit at a place of a byte. -/
def byteBit (k : Nat) : UInt8 := 0x80 >>> UInt8.ofNat k

theorem and_byteBit {k : Nat} (hk : k < 8) (x : UInt8) : decide (x &&& byteBit k ≠ 0) = x.toBitVec.getMsbD k := by
  revert k
  revert x
  apply forall_byte
  decide +kernel

namespace Family

/-- The walk of the functions for a family. -/
def bits : (F : Family) → F.Key → F.Key → Bits
  | v4 => bits32
  | v6 => bits128

theorem insert_eq (F : Family) (tree : Tree w) (key mask : F.Key) :
    F.insert tree key mask = RadixTree.insert (F.bits key mask) tree := by cases F <;> rfl

theorem delete_eq (F : Family) (tree : Tree w) (key mask : F.Key) :
    F.delete tree key mask = RadixTree.delete (F.bits key mask) tree := by cases F <;> rfl

theorem find_eq (F : Family) (tree : Tree w) (key : F.Key) :
    ∃ mask, F.find tree key = RadixTree.find (F.bits key mask) tree := by
  cases F with
  | v4 => exact ⟨0, rfl⟩
  | v6 => exact ⟨fun _ => 0, rfl⟩

/-- Where a walk is at a digit. -/
def pos32 (key mask : BitVec 32) (j : Nat) : (bits32 key mask).Pos := (0x80000000 : BitVec 32) >>> j

def pos128 (key mask : Nat → UInt8) (j : Nat) : (bits128 key mask).Pos := (j / 8, byteBit (j % 8))

theorem next_pos128 (key mask : Nat → UInt8) (j : Nat) :
    (bits128 key mask).next (pos128 key mask j) = pos128 key mask (j + 1) := by
  have hbyte : ∀ k < 7, byteBit k >>> 1 = byteBit (k + 1) ∧ byteBit (k + 1) ≠ 0 := by decide
  have hlast : byteBit 7 >>> 1 = 0 := by decide
  show (if byteBit (j % 8) >>> 1 = 0 then (j / 8 + 1, (0x80 : UInt8)) else (j / 8, byteBit (j % 8) >>> 1)) =
    ((j + 1) / 8, byteBit ((j + 1) % 8))
  by_cases hk : j % 8 = 7
  · rw [hk, if_pos hlast, show (j + 1) / 8 = j / 8 + 1 by omega, show (j + 1) % 8 = 0 by omega]
    rfl
  · obtain ⟨hshift, hne⟩ := hbyte (j % 8) (by omega)
    rw [hshift, if_neg hne, show (j + 1) / 8 = j / 8 by omega, show (j + 1) % 8 = j % 8 + 1 by omega]

theorem side_pos32 (key mask : BitVec 32) (hj : j < 32) :
    (bits32 key mask).side (pos32 key mask j) = v4.digit key j := and_bit32 hj

theorem side_pos128 (key mask : Nat → UInt8) (j : Nat) :
    (bits128 key mask).side (pos128 key mask j) = v6.digit key j := and_byteBit (Nat.mod_lt j (by decide)) _

theorem more_pos32 (key mask : BitVec 32) (hj : j < 32) :
    (bits32 key mask).more (pos32 key mask j) = v4.digit mask j := by
  rw [← side_pos32 mask 0 hj]
  show decide ((0x80000000 : BitVec 32) >>> j &&& mask ≠ 0) = decide (mask &&& (0x80000000 : BitVec 32) >>> j ≠ 0)
  rw [BitVec.and_comm]

theorem more_pos128 (key mask : Nat → UInt8) (hj : j < 128) :
    (bits128 key mask).more (pos128 key mask j) = v6.digit mask j := by
  have hi : j / 8 ≠ 16 := by omega
  rw [← side_pos128 mask (fun _ => 0) j]
  show decide (j / 8 ≠ 16 ∧ byteBit (j % 8) &&& mask (j / 8) ≠ 0) = decide (mask (j / 8) &&& byteBit (j % 8) ≠ 0)
  rw [UInt8.and_comm]
  simp only [ne_eq, hi, not_false_eq_true, true_and]

/-- Where a walk is at a digit, for either family. -/
def pos : (F : Family) → (key mask : F.Key) → Nat → (F.bits key mask).Pos
  | v4 => pos32
  | v6 => pos128

variable {F : Family} (key mask : F.Key)

theorem start_eq : (F.bits key mask).start = F.pos key mask 0 := by cases F <;> rfl

theorem next_pos (j : Nat) : (F.bits key mask).next (F.pos key mask j) = F.pos key mask (j + 1) := by
  cases F
  · exact (BitVec.shiftRight_add _ j 1).symm
  · exact next_pos128 key mask j

theorem side_pos (hj : j < F.width) : (F.bits key mask).side (F.pos key mask j) = F.digit key j := by
  cases F
  · exact side_pos32 key mask hj
  · exact side_pos128 key mask j

theorem more_pos (hj : j < F.width) : (F.bits key mask).more (F.pos key mask j) = F.digit mask j := by
  cases F
  · exact more_pos32 key mask hj
  · exact more_pos128 key mask hj

theorem stop_pos : (F.bits key mask).more (F.pos key mask F.width) = false := by
  cases F
  · have hzero : (0x80000000 : BitVec 32) >>> 32 &&& mask = 0 := BitVec.zero_and
    exact decide_eq_false (not_not.mpr hzero)
  · rfl

variable {key mask}

/-- A walk with a contiguous mask goes through the first digits of the key. -/
theorem spells {n : Nat} (h : F.Contiguous mask n) :
    Spells (F.bits key mask) (F.bits key mask).start (F.digits key n) := by
  obtain ⟨hn, hmask⟩ := h
  have hdigits : (range n).map (fun j => (F.bits key mask).side (F.pos key mask j)) = F.digits key n :=
    map_congr_left fun j hj => side_pos key mask (Nat.lt_of_lt_of_le (mem_range.mp hj) hn)
  rw [start_eq, ← hdigits]
  refine spells_of _ (next_pos key mask) (fun j hj => ?_) ?_
  · have hj' := Nat.lt_of_lt_of_le hj hn
    rw [more_pos key mask hj', hmask j hj']
    exact decide_eq_true hj
  · rcases Nat.lt_or_eq_of_le hn with hlt | rfl
    · rw [more_pos key mask hlt, hmask n hlt]
      exact decide_eq_false (Nat.lt_irrefl n)
    · exact stop_pos key mask

theorem sides_eq (key mask : F.Key) : sides (F.bits key mask) F.width (F.bits key mask).start = F.digits key F.width := by
  rw [start_eq, sides_of _ (next_pos key mask)]
  exact map_congr_left fun j hj => side_pos key mask (mem_range.mp hj)

end Family

/-! ## §6 Creation -/

/-- A tree without entries. -/
structure Blank (tree : Tree w) : Prop where
  ne_null : tree ≠ .null
  entry : entry noValue tree = fun _ => none
  within : Within 32 tree

theorem Blank.insert {tree : Tree w} (h : Blank tree) {key : BitVec 32} {n : Nat}
    (hmask : v4.Contiguous mask n)
    (room : Nat) (hok : (radix32treeInsert tree key mask noValue room).1 = .ok) :
    Blank (radix32treeInsert tree key mask noValue room).2 := by
  obtain ⟨hresult, hne, hwithin⟩ := insert_spec (@spells .v4 key mask n hmask) h.ne_null noValue room
  have hlength : (v4.digits key n).length ≤ 32 := by
    rw [Family.digits, length_map, length_range]
    exact hmask.1
  refine ⟨hne, ?_, hwithin 32 h.within hlength⟩
  rcases hresult with ⟨hsome, -⟩ | ⟨-, ⟨-, hentry⟩ | ⟨herror, -⟩⟩
  · rw [h.entry] at hsome
    exact absurd rfl hsome
  · refine hentry.trans ?_
    rw [h.entry, mark, if_pos rfl]
    exact update_eq_self (v4.digits key n) fun _ => none
  · exact absurd (hok.symm.trans herror) nofun

/-- The keys of a level come around to 0. -/
theorem level_spec (hmask : v4.Contiguous mask n) (m j : Nat) (hj : j + m = 2 ^ 32) (hm : m ≠ 0) {tree : Tree w}
    (htree : Blank tree) :
    ∃ r, loop (preallocateTurn room mask inc) (tree, BitVec.ofNat 32 (j * inc.toNat)) = some r ∧ ∀ t ∈ r, Blank t := by
  induction m generalizing j tree with
  | zero => exact absurd rfl hm
  | succ m ih =>
    have hkey : BitVec.ofNat 32 (j * inc.toNat) + inc = BitVec.ofNat 32 ((j + 1) * inc.toNat) := by
      refine BitVec.eq_of_toNat_eq ?_
      rw [BitVec.toNat_add, BitVec.toNat_ofNat, BitVec.toNat_ofNat, Nat.mod_add_mod, Nat.add_mul, Nat.one_mul]
    have hturn := @rfl _ (preallocateTurn room mask inc (tree, BitVec.ofNat 32 (j * inc.toNat)))
    nth_rewrite 2 [preallocateTurn] at hturn
    simp only [hkey] at hturn
    by_cases hok : (radix32treeInsert tree (BitVec.ofNat 32 (j * inc.toNat)) mask noValue
        (room mask (BitVec.ofNat 32 (j * inc.toNat)))).1 = .ok
    · rw [if_neg (not_not.mpr hok)] at hturn
      have hblank := htree.insert hmask _ hok
      by_cases hzero : BitVec.ofNat 32 ((j + 1) * inc.toNat) = 0
      · rw [if_pos hzero] at hturn
        refine ⟨_, loop_done hturn, fun t ht => ?_⟩
        cases ht
        exact hblank
      rw [if_neg hzero] at hturn
      rw [loop_next hturn]
      refine ih (j + 1) (by omega) (fun hlast => hzero ?_) hblank
      -- after 2 ^ 32 turns the key would be 0 in any case
      have hj' : j + 1 = 2 ^ 32 := by omega
      refine BitVec.eq_of_toNat_eq ?_
      rw [hj', BitVec.toNat_ofNat, Nat.mul_mod_right]
      rfl
    · rw [if_pos hok] at hturn
      exact ⟨_, loop_done hturn, nofun⟩

theorem contiguous_shift (h : v4.Contiguous mask n) : v4.Contiguous (mask >>> 1 ||| 0x80000000) (min (n + 1) 32) := by
  refine ⟨Nat.min_le_right _ _, fun j hj => ?_⟩
  have hj : j < 32 := hj
  have hhigh : ∀ j < 32, (0x80000000#32).getMsbD j = decide (j = 0) := by decide
  show (mask >>> 1 ||| 0x80000000#32).getMsbD j = _
  rw [BitVec.getMsbD_or, BitVec.getMsbD_ushiftRight, hhigh j hj]
  cases j with
  | zero =>
    have hpos : 0 < min (n + 1) 32 := by omega
    simp [hpos]
  | succ j =>
    have hprev : mask.getMsbD j = decide (j < n) := h.2 j (Nat.lt_of_succ_lt hj)
    have hmin : j + 1 < min (n + 1) 32 ↔ j < n := by omega
    simp [hprev, hmin, hj]

theorem preallocate_spec {levels : Nat} (hmask : v4.Contiguous mask n) {tree : Tree w} (htree : Blank tree) :
    ∃ r, preallocate room levels mask inc tree = some r ∧ ∀ t ∈ r, Blank t := by
  induction levels generalizing mask inc n tree with
  | zero =>
    refine ⟨some tree, rfl, fun t ht => ?_⟩
    cases ht
    exact htree
  | succ levels ih =>
    have hmask' := contiguous_shift hmask
    obtain ⟨r, hloop, hblank⟩ := @level_spec w room _ inc _ hmask' (2 ^ 32) 0 (Nat.zero_add _) (by decide) tree htree
    rw [Nat.zero_mul] at hloop
    have hloop : loop (preallocateTurn room (mask >>> 1 ||| 0x80000000) inc) (tree, 0) = some r := hloop
    cases r with
    | none => exact ⟨none, by simp only [preallocate, hloop], nofun⟩
    | some tree' =>
      obtain ⟨r, hrest, hblank'⟩ := @ih _ (inc >>> 1) _ hmask' tree' (hblank tree' rfl)
      exact ⟨r, by simp only [preallocate, hloop, hrest], hblank'⟩

theorem blank_root : Blank (.node .null noValue .null : Tree w) := by
  refine ⟨nofun, ?_, fun p hp => ?_⟩
  · rw [entry_blank]
    exact funext entry_null
  · cases p with
    | nil => exact Nat.zero_le _
    | cons d p => cases d <;> exact absurd (get_null p) hp

/-- Every creation ends, and a tree that it makes has no entries. -/
theorem create_spec (nodes : Nat) (rooted : Bool) (room : BitVec 32 → BitVec 32 → Nat) (levels : BitVec w) :
    ∃ r : Option (Tree w), create nodes rooted room levels = some r ∧ ∀ t ∈ r, Blank t := by
  cases rooted with
  | false => exact ⟨none, rfl, nofun⟩
  | true =>
    have hzero : v4.Contiguous (0 : BitVec 32) 0 := by
      refine ⟨Nat.zero_le _, fun j hj => ?_⟩
      show (0#32).getMsbD j = _
      rw [BitVec.getMsbD_zero]
      rfl
    exact preallocate_spec hzero blank_root

/-! ## §7 Every run -/

/-- The entries of the tree are those of the map. -/
structure Inv (F : Family) (tree : Tree w) (M : List Bool → Option (BitVec w)) : Prop where
  ne_null : tree ≠ .null
  entry : entry noValue tree = M
  within : Within F.width tree

section Runs
variable {F : Family} {tree : Tree w} {M : List Bool → Option (BitVec w)}

theorem length_digits (key : F.Key) (n : Nat) : (F.digits key n).length = n := by
  rw [Family.digits, length_map, length_range]

theorem run_inv (h : Run F Safe tree M) : Inv F tree M := by
  induction h with
  | @create nodes rooted room levels tree hcreate =>
    obtain ⟨r, heq, hblank⟩ := create_spec nodes rooted room levels
    rw [hcreate] at heq
    have htree := hblank tree (Option.some.inj heq ▸ rfl)
    refine ⟨htree.ne_null, htree.entry, fun p hp => Nat.le_trans (htree.within p hp) ?_⟩
    cases F <;> decide
  | @insert tree M _ key mask n hmask value hvalue room ih =>
    obtain ⟨hresult, hne, hwithin⟩ := insert_spec (@spells F key mask n hmask) ih.ne_null value room
    rw [← insert_eq] at hresult hne hwithin
    refine ⟨hne, ?_, hwithin _ ih.within (Nat.le_trans (Nat.le_of_eq (length_digits key n)) hmask.1)⟩
    rw [← ih.entry]
    rcases hresult with ⟨-, heq⟩ | ⟨-, ⟨hok, hentry⟩ | ⟨herror, -, hentry⟩⟩
    · rw [heq, if_neg nofun]
    · rw [if_pos hok, hentry, mark, if_neg hvalue]
    · rw [if_neg (by rw [herror]; nofun), hentry]
  | @delete tree tree' M _ key mask n hmask hP rc hdelete ih =>
    obtain ⟨rc', tree'', heq, hresult, hne, hwithin⟩ := delete_spec (@spells F key mask n hmask) ih.ne_null hP
    rw [← delete_eq, hdelete] at heq
    cases heq
    refine ⟨hne, ?_, hwithin _ ih.within⟩
    rw [← ih.entry]
    rcases hresult with ⟨-, rfl, hentry⟩ | ⟨-, rfl, rfl⟩
    · rw [if_pos rfl, hentry]
    · rw [if_neg nofun]

end Runs

theorem contiguous_one : v4.Contiguous (0x80000000 : BitVec 32) 1 := by
  refine ⟨by decide, ?_⟩
  decide

end GokuStudio.Nginx.RadixTree

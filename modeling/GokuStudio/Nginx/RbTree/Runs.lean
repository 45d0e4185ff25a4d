import GokuStudio.Nginx.RbTree.Delete

/-!
# Runs of insertions and deletions

A caller sets up a node and inserts it, and deletes nodes that are in the tree. Whatever the
sequence, the memory holds a red-black tree of the nodes that are in, in the order of their
keys.
-/

namespace GokuStudio.Nginx.RbTree

open Lib ColorTree List
variable {w : Nat} {s : Rbtree w} {t : ColorTree (Item w)}

/-! ## §1 Steps -/

inductive Op (w : Nat) where
  /-- The node at `p` is set up with the contents `n` and inserted. -/
  | insert (p : Addr) (n : Node w)
  | delete (p : Addr)

def step (s : Rbtree w) : Op w → Option (Rbtree w)
  | .insert p n => RbTree.insert insertValue (s.write p n) p
  | .delete p => RbTree.delete s p

/-- The nodes that are in. -/
def live (xs : List (Item w)) : Op w → List (Item w)
  | .insert p n => ⟨p, n.key⟩ :: xs
  | .delete p => xs.filter (·.addr ≠ p)

/-- Nodes not in the tree are inserted, nodes in it deleted. -/
def Allowed (sentinel : Addr) (xs : List (Item w)) : Op w → Prop
  | .insert p _ => p ≠ sentinel ∧ p ∉ addrs xs
  | .delete p => p ∈ addrs xs

/-- A tree that has the nodes `xs`. -/
structure Sound (s : Rbtree w) (t : ColorTree (Item w)) (xs : List (Item w)) : Prop where
  holds : Holds s t
  sentinel : s.color s.sentinel = some .black
  redBlack : RedBlack t
  ordered : t.inorder.Pairwise fun a b => a.key.toNat ≤ b.key.toNat
  once : (addrs t.inorder).Nodup
  nodes : t.inorder.Perm xs

variable (h : Holds s t)
include h

theorem Holds.nodup : (addrs t.inorder).Nodup := by
  obtain ⟨top, hat⟩ := h
  have hdistinct := (nodup_cons.mp hat.distinct).2
  rw [elems, append_nil] at hdistinct
  exact hdistinct

theorem Holds.black : s.color s.sentinel = some .black := by
  obtain ⟨top, hat⟩ := h
  exact hat.sentinel

variable {x : Item w}

theorem Holds.key (hx : x ∈ t.inorder) : s.key x.addr = some x.key := by
  obtain ⟨top, hat⟩ := h
  obtain ⟨k, c, l, r, rfl⟩ := exists_plug hx
  rw [← at_plug] at hat
  exact Rbtree.key_eq (hat.mem_join (d := .left))

theorem Holds.root_iff : s.root = s.sentinel ↔ t.inorder = [] := by
  obtain ⟨top, hat⟩ := h
  have hroot := hat.root_nil
  cases t with
  | leaf => exact ⟨fun _ => rfl, fun _ => hroot.symm⟩
  | node c l x r =>
    have hne := hat.ptr_ne_sentinel node_ne_leaf
    refine iff_of_false (fun heq => hne (hroot.trans heq)) ?_
    simp [inorder]

variable {xs zs ys : List (Item w)} {p : Addr}

theorem Holds.root_ne (hx : t.inorder = x :: xs) : s.root ≠ s.sentinel := by
  rw [Ne, h.root_iff, hx]
  exact cons_ne_nil x xs

theorem Holds.min (hx : t.inorder = x :: xs) : min s s.root = some x.addr := by
  obtain ⟨top, hat⟩ := h
  have ht : t ≠ .leaf := by
    rintro rfl
    cases hx
  obtain ⟨km, c, y, r, rfl, hside, hmin⟩ := min_spec hat ht
  rw [inorder_plug, before_left hside, inorder, inorder] at hx
  rw [← hat.root_nil, hmin, (cons.inj hx).1]

/-- Nodes that are not in the tree may be written. -/
theorem Holds.write (hp : p ∉ addrs t.inorder) (hs : p ≠ s.sentinel) (n : Node w) : Holds (s.write p n) t := by
  obtain ⟨top, hat⟩ := h
  refine ⟨top, hat.around, hat.rep.frame rfl fun q hq => ?_, hat.distinct, ?_⟩
  · exact Rbtree.write_of_ne (ne_of_mem_of_not_mem hq hp)
  · exact (keeps_write hs).color hat.sentinel

omit h

theorem filter_of_notMem (h : p ∉ addrs zs) : zs.filter (·.addr ≠ p) = zs := by
  refine filter_eq_self.mpr fun y hy => ?_
  exact decide_eq_true fun heq => h (heq ▸ mem_addrs hy)

theorem filter_middle {xs : List (Item w)} {x : Item w} (hnodup : (addrs (xs ++ x :: ys)).Nodup) :
    (xs ++ x :: ys).filter (·.addr ≠ x.addr) = xs ++ ys := by
  rw [addrs_append, addrs_cons, nodup_middle, nodup_cons, mem_append, not_or] at hnodup
  rw [filter_append, filter_cons_of_neg (by simp), filter_of_notMem hnodup.1.1, filter_of_notMem hnodup.1.2]

theorem step_sound {op : Op w} (h : Sound s t xs) (hop : Allowed s.sentinel xs op) :
    ∃ s' t', step s op = some s' ∧ Sound s' t' (live xs op) ∧ s'.sentinel = s.sentinel := by
  cases op with
  | insert p n =>
    obtain ⟨hs, hp⟩ := hop
    have hp : p ∉ addrs t.inorder := fun hmem => hp ((h.nodes.map _).mem_iff.mp hmem)
    obtain ⟨s', t', hstep, hholds, hrb, hsent, hinorder⟩ := @insert_spec w (s.write p n) keyLess ⟨p, n.key⟩ n t
      (h.holds.write hp hs n) h.redBlack Rbtree.write_self rfl hp hs
    refine ⟨s', t', hstep, ⟨hholds, hholds.black, hrb, ?_, hholds.nodup, ?_⟩, hsent⟩
    · rw [hinorder]
      refine insert_sorted h.ordered ?_ ?_ ?_
      · intro y _ z _ hyz hless
        rw [keyLess, decide_eq_true_eq] at hless ⊢
        exact Nat.lt_of_lt_of_le hless hyz
      · intro y _ hless
        rw [keyLess, decide_eq_false_iff_not] at hless
        exact Nat.le_of_not_lt hless
      · intro y _ hless
        rw [keyLess, decide_eq_true_eq] at hless
        exact Nat.le_of_lt hless
    · rw [hinorder]
      exact insert_perm.trans (h.nodes.cons _)
  | delete p =>
    obtain ⟨x, hx, rfl⟩ := mem_map.mp hop
    have hx : x ∈ t.inorder := h.nodes.mem_iff.mpr hx
    obtain ⟨s', t', as, bs, hstep, hholds, hrb, hsent, hold, hnew⟩ := delete_spec h.holds h.redBlack hx
    have hordered := h.ordered
    have honce := h.once
    have hnodes := h.nodes
    rw [hold] at hordered honce hnodes
    refine ⟨s', t', hstep, ⟨hholds, hholds.black, hrb, ?_, hholds.nodup, ?_⟩, hsent⟩
    · rw [hnew]
      exact hordered.sublist (sublist_cons_self _ _ |>.append_left _)
    · have hfilter := hnodes.filter (·.addr ≠ x.addr)
      rw [filter_middle honce, ← hnew] at hfilter
      exact hfilter

/-! ## §2 Runs -/

def run (s : Rbtree w) : List (Op w) → Option (Rbtree w)
  | [] => some s
  | op :: ops => (step s op).bind (run · ops)

def liveAfter (xs : List (Item w)) (ops : List (Op w)) : List (Item w) := ops.foldl live xs

def AllowedRun (sentinel : Addr) : List (Item w) → List (Op w) → Prop
  | _, [] => True
  | xs, op :: ops => Allowed sentinel xs op ∧ AllowedRun sentinel (live xs op) ops

theorem run_sound {ops : List (Op w)} : ∀ {s : Rbtree w} {t : ColorTree (Item w)} {xs : List (Item w)},
    Sound s t xs → AllowedRun s.sentinel xs ops → ∃ s' t', run s ops = some s' ∧ Sound s' t' (liveAfter xs ops) := by
  induction ops with
  | nil =>
    intro s t xs h _
    exact ⟨s, t, rfl, h⟩
  | cons op ops ih =>
    intro s t xs h hops
    obtain ⟨s1, t1, hstep, h1, hsent⟩ := step_sound h hops.1
    obtain ⟨s', t', hrun, h'⟩ := ih h1 (hsent ▸ hops.2)
    refine ⟨s', t', ?_, h'⟩
    rw [run, hstep]
    exact hrun

theorem init_sound {mem : Addr → Option (Node w)} {sentinel : Addr} {n : Node w} (h : mem sentinel = some n) :
    ∃ s, init mem sentinel = some s ∧ Sound s .leaf [] ∧ s.sentinel = sentinel := by
  obtain ⟨s, hset, hw⟩ := write_color (s := ⟨mem, sentinel, sentinel⟩) h .black
  have hsent : s.sentinel = sentinel := hw.sentinel
  have hblack : s.color s.sentinel = some .black := by
    rw [hsent]
    exact Rbtree.color_eq hw.self
  refine ⟨s, hset, ⟨⟨NULL, hw.root.trans hsent.symm, trivial, nodup_singleton _, hblack⟩, hblack, ?_, .nil,
    nodup_nil, .refl _⟩, hsent⟩
  exact ⟨rfl, trivial, 0, fun way hway => by rw [mem_singleton.mp hway]; rfl⟩

/-- The tree of `ngx_rbtree_init` and `ngx_rbtree_insert_value` stays a red-black tree, ordered by the keys, of just the
nodes that are in. -/
theorem rbtree_sound {mem : Addr → Option (Node w)} {sentinel : Addr} (hsentinel : (mem sentinel).isSome)
    {ops : List (Op w)} (hops : AllowedRun sentinel [] ops) :
    ∃ s t, (init mem sentinel).bind (run · ops) = some s ∧ Sound s t (liveAfter [] ops) := by
  obtain ⟨n, hn⟩ := Option.isSome_iff_exists.mp hsentinel
  obtain ⟨s, hinit, hsound, hsent⟩ := init_sound hn
  rw [hinit]
  exact run_sound hsound (hsent ▸ hops)

/-- Three nodes, of which the first is deleted again. -/
def threeNodes : List (Op 32) :=
  [.insert 2 ⟨5, 0, 0, 0, .red⟩, .insert 3 ⟨4, 0, 0, 0, .red⟩, .insert 4 ⟨5, 0, 0, 0, .red⟩, .delete 2]

theorem rbtree_sound_threeNodes : ∃ s t, (init (fun _ => some ⟨0, 0, 0, 0, .red⟩) 1).bind (run · threeNodes) = some s ∧
      Sound s t [⟨4, 5⟩, ⟨3, 4⟩] := by
  have hops : AllowedRun 1 [] threeNodes := by simp [threeNodes, AllowedRun, Allowed, live, addrs]
  exact rbtree_sound rfl hops

end GokuStudio.Nginx.RbTree

import GokuStudio.Lib.RedBlack
import GokuStudio.Nginx.RbTree.Code

/-!
# What the memory holds

`At s top k t` says that the memory holds the tree `plug k t`, with every pointer as it has to
be, and that one looks at the subtree `t` in it. The parent pointer of the root is not
maintained by the code; it is `top`.

A step of the code changes the nodes next to the position. The rest of the tree stands in
the memory as before, by the frame lemmas.
-/

namespace GokuStudio.Nginx.RbTree

open Lib ColorTree Function List Rbtree Option
variable {w : Nat}

/-! ## §1 Nodes seen from a side -/

namespace Node

/-- A node with the pointers to its child on the side `d` and on the other side. -/
def of (d : Side) (key : BitVec w) (near far parent : Addr) (c : Color) : Node w :=
  match d with
  | .left => ⟨key, near, far, parent, c⟩
  | .right => ⟨key, far, near, parent, c⟩

variable {d : Side} {key : BitVec w} {near far parent p : Addr} {c c' : Color}

@[simp]
theorem key_of : (Node.of d key near far parent c).key = key := by cases d <;> rfl

@[simp]
theorem child_of : (Node.of d key near far parent c).child d = near := by cases d <;> rfl

@[simp]
theorem child_other_of : (Node.of d key near far parent c).child d.other = far := by cases d <;> rfl

@[simp]
theorem parent_of : (Node.of d key near far parent c).parent = parent := by cases d <;> rfl

@[simp]
theorem color_of : (Node.of d key near far parent c).color = c := by cases d <;> rfl

@[simp]
theorem setChild_of : (Node.of d key near far parent c).setChild d p = .of d key p far parent c := by
  cases d <;> rfl

@[simp]
theorem setChild_other_of : (Node.of d key near far parent c).setChild d.other p = .of d key near p parent c := by
  cases d <;> rfl

@[simp]
theorem setParent_of : { Node.of d key near far parent c with parent := p } = Node.of d key near far p c := by
  cases d <;> rfl

@[simp]
theorem setColor_of : { Node.of d key near far parent c with color := c' } = Node.of d key near far parent c' := by
  cases d <;> rfl

end Node

/-! ## §2 Reading and writing -/

variable {s' : Rbtree w} {c : Color}

namespace Rbtree
variable {s : Rbtree w} {p q : Addr} {n : Node w}

@[simp]
theorem write_sentinel : (s.write p n).sentinel = s.sentinel := rfl

@[simp]
theorem write_self : (s.write p n).mem p = some n := update_self _ _ _

theorem write_of_ne (h : q ≠ p) : (s.write p n).mem q = s.mem q := update_of_ne h _ _

section
variable (h : s.mem p = some n)
include h

theorem modify_eq (f : Node w → Node w) : s.modify p f = some (s.write p (f n)) := by
  rw [modify, h]
  rfl

theorem setChild_eq (d : Side) : s.setChild d p q = some (s.write p (n.setChild d q)) := modify_eq h _
theorem setParent_eq : s.setParent p q = some (s.write p { n with parent := q }) := modify_eq h _
theorem setColor_eq (c : Color) : s.setColor p c = some (s.write p { n with color := c }) := modify_eq h _

end

theorem setColor_others (h : s.setColor p c = some s') (hq : q ≠ p) : s'.mem q = s.mem q := by
  obtain ⟨n, -, rfl⟩ := map_eq_some_iff.mp h
  exact write_of_ne hq

variable (h : s.mem p = some n)
include h

theorem key_eq : s.key p = some n.key := by rw [key, h]; rfl
theorem child_eq (d : Side) : s.child d p = some (n.child d) := by rw [child, h]; rfl
theorem parent_eq : s.parent p = some n.parent := by rw [parent, h]; rfl
theorem color_eq : s.color p = some n.color := by rw [color, h]; rfl

end Rbtree

/-! ## §3 Trees in the memory -/

/-- A node of the tree: where it is, and its key. -/
structure Item (w : Nat) where
  addr : Addr
  key : BitVec w
deriving DecidableEq, Repr

def ptr (sentinel : Addr) : ColorTree (Item w) → Addr
  | .leaf => sentinel
  | .node _ _ x _ => x.addr

variable {a hole : Addr} {s : Rbtree w} {t t' : ColorTree (Item w)} {x : Item w} {d : Side}

@[simp]
theorem ptr_join : ptr a (join d c t x t') = x.addr := by
  cases d <;> rfl

/-- The tree `t` is in the memory, below the node at `parent`. -/
def Rep (s : Rbtree w) : ColorTree (Item w) → Addr → Prop
  | .leaf, _ => True
  | .node c l x r, parent =>
    s.mem x.addr = some ⟨x.key, ptr s.sentinel l, ptr s.sentinel r, parent, c⟩ ∧ Rep s l x.addr ∧ Rep s r x.addr

theorem rep_join {parent : Addr} :
    Rep s (join d c t x t') parent ↔ s.mem x.addr = some (.of d x.key (ptr s.sentinel t) (ptr s.sentinel t') parent c) ∧
        Rep s t x.addr ∧ Rep s t' x.addr := by
  cases d
  · exact Iff.rfl
  · exact and_congr_right fun _ => and_comm

/-- The parent of a position. -/
def up (top : Addr) : List (Crumb (Item w)) → Addr
  | [] => top
  | f :: _ => f.item.addr

/-- All around a position is in the memory, and the position is pointed to by `hole`. -/
def Around (s : Rbtree w) (top : Addr) : List (Crumb (Item w)) → Addr → Prop
  | [], hole => s.root = hole
  | f :: k, hole =>
    s.mem f.item.addr = some (.of f.side f.item.key hole (ptr s.sentinel f.sibling) (up top k) f.color) ∧
      Rep s f.sibling f.item.addr ∧ Around s top k f.item.addr

def addrs (xs : List (Item w)) : List Addr := xs.map (·.addr)

@[simp]
theorem addrs_append (xs ys : List (Item w)) : addrs (xs ++ ys) = addrs xs ++ addrs ys := map_append

@[simp]
theorem addrs_cons (x : Item w) (xs : List (Item w)) : addrs (x :: xs) = x.addr :: addrs xs := rfl

theorem mem_addrs {xs : List (Item w)} (h : x ∈ xs) : x.addr ∈ addrs xs := mem_map_of_mem h

theorem addrs_join_perm (xs : List (Item w)) : (addrs ((join d c t x t').inorder ++ xs)).Perm
    (x.addr :: (addrs t.inorder ++ (addrs t'.inorder ++ addrs xs))) := by
  rw [← append_assoc, ← addrs_append, ← addrs_append, ← addrs_cons]
  exact ((inorder_join_perm d c t x t').append_right _).map _

/-- The memory holds `plug k t`. -/
structure At (s : Rbtree w) (top : Addr) (k : List (Crumb (Item w))) (t : ColorTree (Item w)) : Prop where
  around : Around s top k (ptr s.sentinel t)
  rep : Rep s t (up top k)
  distinct : (s.sentinel :: addrs (t.inorder ++ elems k)).Nodup
  sentinel : s.color s.sentinel = some .black

variable {f : Crumb (Item w)} {k : List (Crumb (Item w))} {top p : Addr} {n : Node w}

/-- The position may be moved up and down. -/
theorem at_cons : At s top (f :: k) t ↔ At s top k (join f.side f.color t f.item f.sibling) := by
  have hperm : (addrs (t.inorder ++ elems (f :: k))).Perm
      (addrs ((join f.side f.color t f.item f.sibling).inorder ++ elems k)) := by
    refine List.Perm.map _ (.trans ?_ ((inorder_join_perm _ _ _ _ _).symm.append_right _))
    rw [elems, cons_append, append_assoc]
    exact perm_middle
  have hnodup := (hperm.cons s.sentinel).nodup_iff
  constructor
  · rintro ⟨⟨hmem, hsib, haround⟩, hrep, hdistinct, hsentinel⟩
    refine ⟨?_, rep_join.mpr ⟨hmem, hrep, hsib⟩, hnodup.mp hdistinct, hsentinel⟩
    rw [ptr_join]
    exact haround
  · rintro ⟨haround, hrep, hdistinct, hsentinel⟩
    obtain ⟨hmem, hrep, hsib⟩ := rep_join.mp hrep
    rw [ptr_join] at haround
    exact ⟨⟨hmem, hsib, haround⟩, hrep, hnodup.mpr hdistinct, hsentinel⟩

theorem at_crumb : At s top (⟨d, c, x, t'⟩ :: k) t ↔ At s top k (join d c t x t') := at_cons

theorem at_plug {k' : List (Crumb (Item w))} : At s top (k ++ k') t ↔ At s top k' (plug k t) := by
  induction k generalizing t with
  | nil => exact Iff.rfl
  | cons f k ih => exact at_cons.trans ih

/-! ## §4 Frames -/

theorem Rep.frame {parent : Addr} (h : Rep s t parent)
    (hsentinel : s'.sentinel = s.sentinel) (hmem : ∀ p ∈ addrs t.inorder, s'.mem p = s.mem p) :
    Rep s' t parent := by
  induction t generalizing parent with
  | leaf => trivial
  | node c l x r ihl ihr =>
    obtain ⟨hx, hl, hr⟩ := h
    refine ⟨?_, ihl hl fun p hp => hmem p (by simp [inorder, hp]), ihr hr fun p hp => hmem p (by simp [inorder, hp])⟩
    rw [hmem x.addr (by simp [inorder]), hsentinel]
    exact hx

theorem Around.frame (h : Around s top k hole) (hsentinel : s'.sentinel = s.sentinel) (hroot : s'.root = s.root)
    (hmem : ∀ p ∈ addrs (elems k), s'.mem p = s.mem p) : Around s' top k hole := by
  induction k generalizing hole with
  | nil => exact hroot.trans h
  | cons f k ih =>
    obtain ⟨hf, hsib, haround⟩ := h
    refine ⟨?_, hsib.frame hsentinel fun p hp => hmem p (by simp [elems, hp]),
      ih haround fun p hp => hmem p (by simp [elems, hp])⟩
    rw [hmem f.item.addr (by simp [elems]), hsentinel]
    exact hf

/-- Only the parent pointer of its root says where a tree hangs. -/
theorem Rep.reparent {parent parent' : Addr}
    (h : Rep s t parent) (hnodup : (addrs t.inorder).Nodup) (hsentinel : s'.sentinel = s.sentinel)
    (hroot : t ≠ .leaf → ∀ n, s.mem (ptr s.sentinel t) = some n →
      s'.mem (ptr s.sentinel t) = some { n with parent := parent' })
    (hmem : ∀ p ∈ addrs t.inorder, p ≠ ptr s.sentinel t → s'.mem p = s.mem p) :
    Rep s' t parent' := by
  cases t with
  | leaf => trivial
  | node c l x r =>
    obtain ⟨hx, hl, hr⟩ := h
    rw [inorder, addrs_append, addrs_cons, nodup_middle, nodup_cons, mem_append, not_or] at hnodup
    refine ⟨?_, hl.frame hsentinel fun p hp => ?_, hr.frame hsentinel fun p hp => ?_⟩
    · rw [hsentinel]
      exact hroot node_ne_leaf _ hx
    · exact hmem p (by simp [inorder, hp]) fun (heq : p = x.addr) => hnodup.1.1 (heq ▸ hp)
    · exact hmem p (by simp [inorder, hp]) fun (heq : p = x.addr) => hnodup.1.2 (heq ▸ hp)

/-! ## §5 Reading at a position -/

namespace At
variable (h : At s top k (join d c t x t'))
include h

theorem mem_join : s.mem x.addr = some (.of d x.key (ptr s.sentinel t) (ptr s.sentinel t') (up top k) c) :=
  (rep_join.mp h.rep).1

theorem near : s.child d x.addr = some (ptr s.sentinel t) := by
  rw [child_eq h.mem_join, Node.child_of]

theorem far : s.child d.other x.addr = some (ptr s.sentinel t') := by
  rw [child_eq h.mem_join, Node.child_other_of]

theorem color_at : s.color x.addr = some c := by
  rw [color_eq h.mem_join, Node.color_of]

theorem distinct_join : (s.sentinel :: x.addr :: (addrs t.inorder ++ (addrs t'.inorder ++ addrs (elems k)))).Nodup :=
  ((addrs_join_perm _).cons s.sentinel).nodup_iff.mp h.distinct

omit h

theorem ptr_ne_sentinel (h : At s top k t) (ht : t ≠ .leaf) : ptr s.sentinel t ≠ s.sentinel := by
  cases t with
  | leaf => exact absurd rfl ht
  | node c l x r =>
    have hdistinct := (h.distinct_join (d := .left))
    rw [nodup_cons, mem_cons, not_or] at hdistinct
    exact Ne.symm hdistinct.1.1

theorem parent_ptr (h : At s top (f :: k) t) (ht : t ≠ .leaf) : s.parent (ptr s.sentinel t) = some f.item.addr := by
  cases t with
  | leaf => exact absurd rfl ht
  | node c l x r => exact parent_eq (h.mem_join (d := .left))

/-- The position may be moved to the sibling. -/
theorem sibling (h : At s top (⟨d, c, x, t'⟩ :: k) t) : At s top (⟨d.other, c, x, t⟩ :: k) t' := by
  rw [at_cons] at h ⊢
  rw [join_other]
  exact h

theorem back (h : At s top (⟨d.other, c, x, t⟩ :: k) t') : At s top (⟨d, c, x, t'⟩ :: k) t := by
  rw [at_cons] at h ⊢
  rw [← join_other]
  exact h

theorem color_ptr (h : At s top k t) : s.color (ptr s.sentinel t) = some t.color := by
  cases t with
  | leaf => exact h.sentinel
  | node c l x r => exact color_eq (h.mem_join (d := .left))

/-- The root is the position, or somewhere above it. -/
theorem root_mem (h : Around s top (f :: k) hole) : s.root ∈ addrs (elems (f :: k)) := by
  induction k generalizing f hole with
  | nil =>
    have hroot : s.root = f.item.addr := h.2.2
    simp [elems, hroot]
  | cons g k ih =>
    have hroot := ih h.2.2
    rw [elems, addrs_cons, addrs_append]
    exact mem_cons_of_mem _ (mem_append_right _ hroot)

theorem root_nil (h : At s top [] t) : ptr s.sentinel t = s.root := h.around.symm

theorem ptr_cases (s : Rbtree w) (t : ColorTree (Item w)) :
    ptr s.sentinel t = s.sentinel ∨ ptr s.sentinel t ∈ addrs t.inorder := by
  cases t with
  | leaf => exact .inl rfl
  | node c l x r => exact .inr (by simp [ptr, inorder])

theorem root_cons (h : At s top (f :: k) t) : ptr s.sentinel t ≠ s.root := by
  intro heq
  have hroot := root_mem h.around
  have hdistinct := h.distinct
  rw [addrs_append, nodup_cons, mem_append, nodup_append] at hdistinct
  rcases ptr_cases s t with hptr | hptr
  · exact hdistinct.1 (.inr (hptr ▸ heq ▸ hroot))
  · exact hdistinct.2.2.2 _ hptr _ hroot heq

theorem ptr_ne (h : At s top (⟨d, c, x, t'⟩ :: k) t) (ht : t ≠ .leaf) : ptr s.sentinel t ≠ ptr s.sentinel t' := by
  intro heq
  have hdistinct := (at_crumb.mp h).distinct_join
  simp only [nodup_cons, mem_cons, mem_append, nodup_append] at hdistinct
  have hy : ptr s.sentinel t ∈ addrs t.inorder := (ptr_cases s t).resolve_left (h.ptr_ne_sentinel ht)
  rcases ptr_cases s t' with hptr | hptr
  · exact hdistinct.1 (.inr (.inl (hptr ▸ heq ▸ hy)))
  · exact hdistinct.2.2.2.2 _ hy _ (.inl hptr) heq

/-- A node is not where its sibling is. -/
theorem ptr_ne_sibling (h : At s top (f :: k) t)
    (hne : t ≠ .leaf ∨ f.sibling ≠ .leaf) : ptr s.sentinel t ≠ ptr s.sentinel f.sibling :=
  hne.elim h.ptr_ne fun hsib => (h.sibling.ptr_ne hsib).symm

/-- The side of a position can be read off the left child of its parent. -/
theorem side (h : At s top (⟨d, c, x, t'⟩ :: k) t) (hne : t ≠ .leaf ∨ t' ≠ .leaf) :
    ∃ left, s.child .left x.addr = some left ∧ (if ptr s.sentinel t = left then Side.left else .right) = d := by
  refine ⟨_, child_eq (at_crumb.mp h).mem_join .left, ?_⟩
  cases d with
  | left => exact if_pos rfl
  | right => exact if_neg (h.ptr_ne_sibling hne)

end At

/-! ## §6 Writing at a position -/

/-- The step leaves the sentinel alone. -/
structure Keeps (s s' : Rbtree w) : Prop where
  sentinel : s'.sentinel = s.sentinel
  mem : s'.mem s.sentinel = s.mem s.sentinel

theorem Keeps.refl (s : Rbtree w) : Keeps s s := ⟨rfl, rfl⟩

theorem Keeps.trans {s'' : Rbtree w} (h : Keeps s s') (h' : Keeps s' s'') : Keeps s s'' :=
  ⟨h'.sentinel.trans h.sentinel, by rw [← h.mem, ← h.sentinel, h'.mem]⟩

theorem keeps_write (h : p ≠ s.sentinel) : Keeps s (s.write p n) := ⟨rfl, write_of_ne h.symm⟩

theorem Keeps.color (h : Keeps s s') (hblack : s.color s.sentinel = some .black) :
    s'.color s'.sentinel = some .black := by
  rw [Rbtree.color, h.sentinel, h.mem]
  exact hblack

theorem Keeps.parent (h : Keeps s s') : s'.parent s'.sentinel = s.parent s.sentinel := by
  rw [Rbtree.parent, h.sentinel, h.mem]
  rfl

/-- The step writes one node. -/
structure Writes (s : Rbtree w) (p : Addr) (n : Node w) (s' : Rbtree w) : Prop where
  self : s'.mem p = some n
  others : ∀ q, q ≠ p → s'.mem q = s.mem q
  sentinel : s'.sentinel = s.sentinel
  root : s'.root = s.root

theorem writes_write (s : Rbtree w) (p : Addr) (n : Node w) : Writes s p n (s.write p n) :=
  ⟨write_self, fun _ => write_of_ne, rfl, rfl⟩

theorem Writes.trans {n' : Node w} {s'' : Rbtree w} (h : Writes s p n s') (h' : Writes s' p n' s'') :
    Writes s p n' s'' :=
  ⟨h'.self, fun q hq => (h'.others q hq).trans (h.others q hq), h'.sentinel.trans h.sentinel, h'.root.trans h.root⟩

theorem write_child (h : s.mem p = some n) (d : Side) (q : Addr) :
    ∃ s', s.setChild d p q = some s' ∧ Writes s p (n.setChild d q) s' :=
  ⟨_, setChild_eq h d, writes_write _ _ _⟩

theorem write_parent (h : s.mem p = some n) (q : Addr) :
    ∃ s', s.setParent p q = some s' ∧ Writes s p { n with parent := q } s' :=
  ⟨_, setParent_eq h, writes_write _ _ _⟩

theorem write_color (h : s.mem p = some n) (c : Color) :
    ∃ s', s.setColor p c = some s' ∧ Writes s p { n with color := c } s' :=
  ⟨_, setColor_eq h c, writes_write _ _ _⟩

theorem write_clear (h : s.mem p = some n) : ∃ n' s', clear s p = some s' ∧ Writes s p n' s' :=
  ⟨_, _, modify_eq h _, writes_write _ _ _⟩

section Write

theorem inorder_join_color (c' : Color) : (join d c' t x t').inorder = (join d c t x t').inorder := by
  cases d <;> rfl

theorem At.setColor (h : At s top k (join d c t x t')) (c' : Color) :
    ∃ s', s.setColor x.addr c' = some s' ∧ At s' top k (join d c' t x t') ∧ Keeps s s' := by
  have hdistinct := h.distinct_join
  simp only [nodup_cons, mem_cons, mem_append, nodup_append, not_or] at hdistinct
  obtain ⟨⟨hsx, -⟩, ⟨hxt, hxt', hxk⟩, -⟩ := hdistinct
  obtain ⟨hmem, ht, ht'⟩ := rep_join.mp h.rep
  have hkeeps : Keeps s (s.write x.addr (.of d x.key (ptr s.sentinel t) (ptr s.sentinel t') (up top k) c')) :=
    keeps_write (Ne.symm hsx)
  have hframe : ∀ p, p ≠ x.addr →
      (s.write x.addr (.of d x.key (ptr s.sentinel t) (ptr s.sentinel t') (up top k) c')).mem p = s.mem p :=
    fun p => write_of_ne
  refine ⟨_, (setColor_eq hmem c').trans (by rw [Node.setColor_of]), ⟨?_, ?_, ?_, ?_⟩, hkeeps⟩
  · have haround := h.around
    rw [ptr_join] at haround ⊢
    exact haround.frame rfl rfl fun p hp => hframe p (ne_of_mem_of_not_mem hp hxk)
  · exact rep_join.mpr ⟨write_self, ht.frame rfl fun p hp => hframe p (ne_of_mem_of_not_mem hp hxt),
      ht'.frame rfl fun p hp => hframe p (ne_of_mem_of_not_mem hp hxt')⟩
  · rw [inorder_join_color]
    exact h.distinct
  · exact hkeeps.color h.sentinel

/-- The colour of a subtree's root, also where it is the sentinel. -/
theorem At.blacken (h : At s top k t) :
    ∃ s', s.setColor (ptr s.sentinel t) .black = some s' ∧ At s' top k t.blacken ∧ Keeps s s' := by
  cases t with
  | node c l x r => exact h.setColor (d := .left) .black
  | leaf =>
    obtain ⟨n, hn, hblack⟩ := map_eq_some_iff.mp h.sentinel
    have hsame : s.write s.sentinel { n with color := .black } = s := by
      have hnode : { n with color := .black } = n := by rw [← hblack]
      rw [write, hnode, ← hn, Function.update_eq_self]
    refine ⟨s, ?_, h, .refl s⟩
    rw [ptr, setColor_eq hn, hsame]

end Write

/-! ## §7 Rotations -/

section Rotate

/-- Of all nodes around the position only the parent is written. -/
theorem hang_spec (d : Side) (b : Addr)
    (h : Around s top (f :: k) a) (hnodup : (addrs (elems (f :: k))).Nodup) (hn : s.mem a = some n)
    (hparent : n.parent = f.item.addr) (hsib : a ≠ ptr s.sentinel f.sibling) :
    ∃ n', hang d s a b = some (s.write f.item.addr n') ∧ Around (s.write f.item.addr n') top (f :: k) b := by
  obtain ⟨hf, hrep, haround⟩ := h
  rw [elems, addrs_cons, addrs_append, nodup_cons, mem_append, not_or] at hnodup
  refine ⟨.of f.side f.item.key b (ptr s.sentinel f.sibling) (up top k) f.color, ?_, write_self, ?_, ?_⟩
  · rw [hang, parent_eq hn, hparent]
    simp only [bind_eq_bind, bind_some]
    rw [child_eq hf, bind_some]
    by_cases hd : f.side = d
    · subst hd
      rw [Node.child_of, if_pos rfl, setChild_eq hf, Node.setChild_of]
    · obtain rfl : d = f.side.other := Side.eq_other (Ne.symm hd)
      rw [Node.child_other_of, if_neg hsib, Side.other_other, setChild_eq hf, Node.setChild_of]
  · exact hrep.frame rfl fun p hp => write_of_ne (ne_of_mem_of_not_mem hp hnodup.1.1)
  · exact haround.frame rfl rfl fun p hp => write_of_ne (ne_of_mem_of_not_mem hp hnodup.1.2)

/-- What a step next to a position may change around it. -/
structure Outside (s s' : Rbtree w) (k : List (Crumb (Item w))) : Prop where
  sentinel : s'.sentinel = s.sentinel
  mem : ∀ p, p ∉ addrs (elems k) → s'.mem p = s.mem p

theorem relink_spec (d : Side) (b : Addr) (h : Around s top k a)
    (hnodup : (addrs (elems k)).Nodup) (hn : s.mem a = some n) (hparent : n.parent = up top k)
    (ha : a ∉ addrs (elems k)) (hsentinel : a ≠ s.sentinel) :
    ∃ s', relink d s a b = some s' ∧ Around s' top k b ∧ Outside s s' k := by
  rw [relink]
  cases k with
  | nil =>
    rw [if_pos h.symm]
    exact ⟨_, rfl, rfl, rfl, fun _ _ => rfl⟩
  | cons f k =>
    rw [if_neg fun (heq : a = s.root) => ha (heq ▸ At.root_mem h)]
    have hsib : a ≠ ptr s.sentinel f.sibling := by
      intro heq
      rcases At.ptr_cases s f.sibling with hptr | hptr
      · exact hsentinel (heq.trans hptr)
      · exact ha (by simp [elems, heq, hptr])
    obtain ⟨n', heq, haround⟩ := hang_spec d b h hnodup hn hparent hsib
    refine ⟨_, heq, haround, rfl, fun p hp => write_of_ne ?_⟩
    exact (ne_of_mem_of_not_mem (by simp [elems]) hp).symm

variable {q : Addr}

/-- After `adopt` the tree hangs from `q`. -/
theorem adopt_spec {parent : Addr} (h : Rep s t parent) (hnodup : (s.sentinel :: addrs t.inorder).Nodup) :
    ∃ s', adopt s (ptr s.sentinel t) q = some s' ∧ Rep s' t q ∧ s'.sentinel = s.sentinel ∧
      s'.root = s.root ∧ ∀ p, p ∉ addrs t.inorder → s'.mem p = s.mem p := by
  rw [nodup_cons] at hnodup
  rw [adopt]
  cases t with
  | leaf => exact ⟨s, if_neg (not_not.mpr rfl), trivial, rfl, rfl, fun _ _ => rfl⟩
  | node c l x r =>
    have hx : x.addr ∈ addrs (ColorTree.node c l x r).inorder := by simp [inorder]
    have hne : ptr s.sentinel (.node c l x r) ≠ s.sentinel := ne_of_mem_of_not_mem hx hnodup.1
    rw [if_pos hne, ptr, setParent_eq h.1]
    refine ⟨_, rfl, h.reparent hnodup.2 rfl ?_ fun p _ => write_of_ne, rfl, rfl, ?_⟩
    · intro _ n hn
      rw [ptr, h.1] at hn
      cases hn
      exact write_self
    · exact fun p hp => write_of_ne (ne_of_mem_of_not_mem hx hp).symm

/-- A rotation towards the side `d` lifts the child on the other side. -/
theorem At.rotate {c' : Color} {t1 t2 t3 : ColorTree (Item w)} {y : Item w}
    (h : At s top k (join d c t1 x (join d c' t2 y t3))) :
    ∃ s', RbTree.rotate d s x.addr = some s' ∧ At s' top k (join d c' (join d c t1 x t2) y t3) ∧ Keeps s s' := by
  have hdistinct := h.distinct_join
  have hall : (s.sentinel :: x.addr :: y.addr :: (addrs t1.inorder ++ (addrs t2.inorder ++
      (addrs t3.inorder ++ addrs (elems k))))).Nodup := by
    refine (((List.Perm.trans ?_ perm_middle).cons x.addr).cons s.sentinel).nodup_iff.mp hdistinct
    rw [← addrs_append]
    exact (addrs_join_perm _).append_left _
  have haround := h.around
  obtain ⟨hx, h₁, hrep⟩ := rep_join.mp h.rep
  obtain ⟨hy, h₂, h3⟩ := rep_join.mp hrep
  simp only [ptr_join] at hx haround
  simp only [nodup_cons, mem_cons, mem_append, nodup_append, not_or] at hall
  obtain ⟨⟨hsx, hsy, hs1, hs2, hs3, hsk⟩, ⟨hxy, hx1, hx2, hx3, hxk⟩, ⟨hy1, hy2, hy3, hyk⟩, hn1,
    ⟨hn2, ⟨hn3, hnk, h3k⟩, h2⟩, h1⟩ := hall
  -- the inner child of the lower node goes to the upper one
  obtain ⟨s1, hset1, hw1⟩ := write_child hx d.other (ptr s.sentinel t2)
  rw [Node.setChild_other_of] at hw1
  have hy1' : s1.mem y.addr = _ := (hw1.others _ (Ne.symm hxy)).trans hy
  have h2' : Rep s1 t2 y.addr := h₂.frame hw1.sentinel fun p hp => hw1.others p (ne_of_mem_of_not_mem hp hx2)
  obtain ⟨s2, hset2, hrep2, hsent2, hroot2, hmem2⟩ :=
    adopt_spec (q := x.addr) h2' (nodup_cons.mpr ⟨hw1.sentinel ▸ hs2, hn2⟩)
  rw [hw1.sentinel] at hset2 hsent2
  have hx2' : s2.mem x.addr = _ := (hmem2 _ hx2).trans hw1.self
  have hy2' : s2.mem y.addr = _ := (hmem2 _ hy2).trans hy1'
  -- the lower node gets the place of the upper one
  obtain ⟨s3, hset3, hw3⟩ := write_parent hy2' (up top k)
  rw [Node.setParent_of] at hw3
  have hx3' : s3.mem x.addr = _ := (hw3.others _ hxy).trans hx2'
  have haround3 : Around s3 top k x.addr := by
    refine haround.frame (hw3.sentinel.trans hsent2) (hw3.root.trans (hroot2.trans hw1.root)) fun p hp => ?_
    rw [hw3.others p (ne_of_mem_of_not_mem hp hyk), hmem2 p fun hp2 => h2 p hp2 p (.inr hp) rfl,
      hw1.others p (ne_of_mem_of_not_mem hp hxk)]
  obtain ⟨s4, hset4, haround4, hout4⟩ := relink_spec d y.addr haround3 hnk hx3' Node.parent_of hxk
    (by rw [hw3.sentinel, hsent2]; exact Ne.symm hsx)
  have hx4' : s4.mem x.addr = _ := (hout4.mem _ hxk).trans hx3'
  have hy4' : s4.mem y.addr = _ := (hout4.mem _ hyk).trans hw3.self
  -- and takes that one for its child
  obtain ⟨s5, hset5, hw5⟩ := write_child hy4' d x.addr
  rw [Node.setChild_of] at hw5
  obtain ⟨s6, hset6, hw6⟩ := write_parent ((hw5.others _ hxy).trans hx4') y.addr
  rw [Node.setParent_of] at hw6
  have hsent6 : s6.sentinel = s2.sentinel := hw6.sentinel.trans (hw5.sentinel.trans (hout4.sentinel.trans hw3.sentinel))
  have hmem6 : ∀ p, p ≠ x.addr → p ≠ y.addr → p ∉ addrs (elems k) → s6.mem p = s2.mem p := by
    intro p hpx hpy hpk
    rw [hw6.others p hpx, hw5.others p hpy, hout4.mem p hpk, hw3.others p hpy]
  have hmem : ∀ p, p ≠ x.addr → p ≠ y.addr → p ∉ addrs (elems k) → p ∉ addrs t2.inorder → s6.mem p = s.mem p := by
    intro p hpx hpy hpk hp2
    rw [hmem6 p hpx hpy hpk, hmem2 p hp2, hw1.others p hpx]
  have hkeeps : Keeps s s6 := ⟨hsent6.trans hsent2, hmem _ hsx hsy hsk hs2⟩
  refine ⟨s6, ?_, ⟨?_, ?_, ?_, hkeeps.color h.sentinel⟩, hkeeps⟩
  · simp only [RbTree.rotate, bind_eq_bind, child_eq hx, Node.child_other_of, bind_some,
      child_eq hy, Node.child_of, hset1, child_eq hy1', hset2, parent_eq hx2',
      Node.parent_of, hset3, hset4, hset5, hset6]
  · rw [ptr_join]
    refine haround4.frame (hw6.sentinel.trans hw5.sentinel) (hw6.root.trans hw5.root) fun p hp => ?_
    rw [hw6.others p (ne_of_mem_of_not_mem hp hxk), hw5.others p (ne_of_mem_of_not_mem hp hyk)]
  · rw [rep_join, rep_join, ptr_join, hkeeps.sentinel]
    refine ⟨(hw6.others _ (Ne.symm hxy)).trans hw5.self, ⟨hw6.self, ?_, ?_⟩, ?_⟩
    · refine h₁.frame hkeeps.sentinel fun p hp => hmem p (ne_of_mem_of_not_mem hp hx1)
        (ne_of_mem_of_not_mem hp hy1) (fun hk => h1 p hp p (.inr (.inr hk)) rfl)
        fun hp2 => h1 p hp p (.inl hp2) rfl
    · exact hrep2.frame hsent6 fun p hp => hmem6 p (ne_of_mem_of_not_mem hp hx2)
        (ne_of_mem_of_not_mem hp hy2) fun hk => h2 p hp p (.inr hk) rfl
    · exact h3.frame hkeeps.sentinel fun p hp => hmem p (ne_of_mem_of_not_mem hp hx3)
        (ne_of_mem_of_not_mem hp hy3) (fun hk => h3k p hp p hk rfl)
        fun hp2 => h2 p hp2 p (.inl hp) rfl
  · rw [inorder_rotate d c c' c c', hkeeps.sentinel]
    exact h.distinct

end Rotate
end GokuStudio.Nginx.RbTree

import GokuStudio.Lib.ColorTree
import GokuStudio.Lib.Walk

/-!
# The red-black tree of nginx (`ngx_rbtree.c`)

The nodes lie in a memory and point to each other. All leaves are one and the same node,
the sentinel. Code that follows a pointer to where no node is, `NULL` for one, has no result.

The source has each rotation and each repair twice, for the left and for the right side.
They are mirror images of each other; here they are one function of the side. The two
functions for the place of a new node differ in the comparison only.
-/

namespace GokuStudio.Nginx.RbTree

open Lib

abbrev Addr := Nat
def NULL : Addr := 0

/-- `ngx_rbtree_node_t`. Its field `data` is not used here. -/
structure Node (w : Nat) where
  key : BitVec w
  left : Addr
  right : Addr
  parent : Addr
  color : Color
deriving DecidableEq, Repr

namespace Node
variable {w : Nat}

def child (n : Node w) : Side → Addr
  | .left => n.left
  | .right => n.right

def setChild (n : Node w) : Side → Addr → Node w
  | .left, p => { n with left := p }
  | .right, p => { n with right := p }

end Node

/-- `ngx_rbtree_t`, with the memory its nodes are in. -/
structure Rbtree (w : Nat) where
  mem : Addr → Option (Node w)
  root : Addr
  sentinel : Addr

variable {w : Nat}

/-! ## §1 Fields of nodes -/

namespace Rbtree

section
variable (s : Rbtree w) (d : Side) (p q : Addr)

def key : Option (BitVec w) := (s.mem p).map (·.key)
def child : Option Addr := (s.mem p).map (·.child d)
def parent : Option Addr := (s.mem p).map (·.parent)
def color : Option Color := (s.mem p).map (·.color)

def write (n : Node w) : Rbtree w :=
  { s with mem := Function.update s.mem p (some n) }

def modify (f : Node w → Node w) : Option (Rbtree w) := (s.mem p).map fun n => s.write p (f n)
def setChild : Option (Rbtree w) := s.modify p (·.setChild d q)
def setParent : Option (Rbtree w) := s.modify p fun n => { n with parent := q }

/-- `ngx_rbt_red`, `ngx_rbt_black`, `ngx_rbt_copy_color` -/
def setColor (c : Color) : Option (Rbtree w) := s.modify p fun n => { n with color := c }

end
end Rbtree

/-- `ngx_rbtree_init` -/
def init (mem : Addr → Option (Node w)) (sentinel : Addr) : Option (Rbtree w) :=
  (Rbtree.mk mem sentinel sentinel).setColor sentinel .black

/-! ## §2 Rotations -/

section
variable (d : Side) (s : Rbtree w) (node temp sibling : Addr)

/-- The parent of `node` points to `temp` from now on. -/
def hang : Option (Rbtree w) := do
  let parent ← s.parent node
  let child ← s.child d parent
  if node = child then s.setChild d parent temp else s.setChild d.other parent temp

/-- The same, or it becomes the root. -/
def relink : Option (Rbtree w) :=
  if node = s.root then some { s with root := temp } else hang d s node temp

/-- `if (p != sentinel) p->parent = q;` -/
def adopt (p q : Addr) : Option (Rbtree w) :=
  if p ≠ s.sentinel then s.setParent p q else some s

def rotate : Option (Rbtree w) := do
  let temp ← s.child d.other node
  let inner ← s.child d temp
  let s ← s.setChild d.other node inner
  let inner ← s.child d temp
  let s ← adopt s inner node
  let parent ← s.parent node
  let s ← s.setParent temp parent
  let s ← relink d s node temp
  let s ← s.setChild d temp node
  s.setParent node temp

/-- `ngx_rbtree_left_rotate` -/
def leftRotate : Rbtree w → Addr → Option (Rbtree w) := rotate .left

/-- `ngx_rbtree_right_rotate` -/
def rightRotate : Rbtree w → Addr → Option (Rbtree w) := rotate .right

/-! ## §3 Insertion -/

/-- One turn of the search for the place of a key. -/
def placeTurn (less : BitVec w → BitVec w → Bool) (s : Rbtree w) (node temp : Addr) : Option (Addr ⊕ Addr × Side) := do
  let nodeKey ← s.key node
  let tempKey ← s.key temp
  let d := if less nodeKey tempKey then Side.left else Side.right
  let p ← s.child d temp
  if p = s.sentinel then some (.inr (temp, d)) else some (.inl p)

def insertWith (less : BitVec w → BitVec w → Bool) (s : Rbtree w) (temp node : Addr) : Option (Rbtree w) := do
  let place ← loop (placeTurn less s node) temp
  let s ← s.setChild place.2 place.1 node
  s.modify node fun n =>
    { n with parent := place.1, left := s.sentinel, right := s.sentinel, color := .red }

def keyLess (a b : BitVec w) : Bool := a.toNat < b.toNat

/-- `(ngx_rbtree_key_int_t) (a - b) < 0` -/
def timerLess (a b : BitVec w) : Bool := (a - b).toInt < 0

/-- `ngx_rbtree_insert_value` -/
def insertValue : Rbtree w → Addr → Addr → Option (Rbtree w) := insertWith keyLess

/-- `ngx_rbtree_insert_timer_value` -/
def insertTimerValue : Rbtree w → Addr → Addr → Option (Rbtree w) := insertWith timerLess

/-- `if (node == node->parent->right) { node = node->parent; left_rotate(node); }` -/
def turnInner (node parent : Addr) : Option (Rbtree w × Addr) := do
  let child ← s.child d.other parent
  if node = child then (rotate d s parent).map fun s => (s, parent) else some (s, node)

/-- The rotation that ends the repair. -/
def insertFinish : Option (Rbtree w × Addr) := do
  let parent ← s.parent node
  let s ← s.setColor parent .black
  let grand ← s.parent parent
  let s ← s.setColor grand .red
  let s ← rotate d.other s grand
  some (s, node)

/-- The repair of `ngx_rbtree_insert`, for a parent on the side `d` of its own parent. -/
def insertRepair : Option (Rbtree w × Addr) := do
  let parent ← s.parent node
  let grand ← s.parent parent
  let temp ← s.child d.other grand
  match ← s.color temp with
  | .red =>
    let s ← s.setColor parent .black
    let s ← s.setColor temp .black
    let s ← s.setColor grand .red
    some (s, grand)
  | .black =>
    let moved ← turnInner d s node parent
    insertFinish d moved.1 moved.2

/-- One turn of the loop of `ngx_rbtree_insert`. -/
def insertTurn (c : Rbtree w × Addr) : Option (Rbtree w × Addr ⊕ Rbtree w) :=
  if c.2 = c.1.root then some (.inr c.1)
  else do
    let parent ← c.1.parent c.2
    match ← c.1.color parent with
    | .black => some (.inr c.1)
    | .red =>
      let grand ← c.1.parent parent
      let left ← c.1.child .left grand
      (insertRepair (if parent = left then .left else .right) c.1 c.2).map .inl

/-- `ngx_rbtree_insert`, with `tree->insert` -/
def insert (place : Rbtree w → Addr → Addr → Option (Rbtree w)) (s : Rbtree w) (node : Addr) : Option (Rbtree w) :=
  if s.root = s.sentinel then
    ({ s with root := node } : Rbtree w).modify node fun n =>
      { n with parent := NULL, left := s.sentinel, right := s.sentinel, color := .black }
  else do
    let s ← place s s.root node
    let s ← loop insertTurn (s, node)
    s.setColor s.root .black

/-! ## §4 Deletion -/

/-- `ngx_rbtree_min` -/
def min : Addr → Option Addr :=
  loop fun node => (s.child .left node).map fun left => if left = s.sentinel then .inr node else .inl left

/-- The node that leaves its place, and the one that gets there. -/
def substitute : Option (Addr × Addr) := do
  let left ← s.child .left node
  let right ← s.child .right node
  if left = s.sentinel then some (node, right)
  else if right = s.sentinel then some (node, left)
  else
    let subst ← min s right
    let left ← s.child .left subst
    if left ≠ s.sentinel then some (subst, left)
    else (s.child .right subst).map fun right => (subst, right)

/-- `subst` takes the place of `node`. -/
def takePlace (node subst : Addr) : Option (Rbtree w) := do
  let left ← s.child .left node
  let s ← s.setChild .left subst left
  let right ← s.child .right node
  let s ← s.setChild .right subst right
  let parent ← s.parent node
  let s ← s.setParent subst parent
  let color ← s.color node
  let s ← s.setColor subst color
  let s ← relink .left s node subst
  let left ← s.child .left subst
  let s ← adopt s left subst
  let right ← s.child .right subst
  adopt s right subst

/-- Before that, `temp` takes the place of `subst`. -/
def replace (node subst temp : Addr) : Option (Rbtree w) := do
  let parent ← s.parent subst
  let s ← s.setParent temp (if parent = node then subst else parent)
  takePlace s node subst

/-- `DEBUG stuff` -/
def clear : Option (Rbtree w) :=
  s.modify node fun n => { n with left := NULL, right := NULL, parent := NULL, key := 0 }

/-- A red sibling is rotated up; the result is the sibling then. -/
def raiseSibling : Option (Rbtree w × Addr) := do
  match ← s.color sibling with
  | .black => some (s, sibling)
  | .red =>
    let s ← s.setColor sibling .black
    let parent ← s.parent temp
    let s ← s.setColor parent .red
    let s ← rotate d s parent
    let parent ← s.parent temp
    let sibling ← s.child d.other parent
    some (s, sibling)

/-- So is a red child on the near side, where there is none on the far side. -/
def raiseNear : Option (Rbtree w × Addr) := do
  let far ← s.child d.other sibling
  match ← s.color far with
  | .red => some (s, sibling)
  | .black =>
    let near ← s.child d sibling
    let s ← s.setColor near .black
    let s ← s.setColor sibling .red
    let s ← rotate d.other s sibling
    let parent ← s.parent temp
    let sibling ← s.child d.other parent
    some (s, sibling)

/-- The rotation that ends the repair. -/
def deleteFinish : Option (Rbtree w × Addr) := do
  let parent ← s.parent temp
  let color ← s.color parent
  let s ← s.setColor sibling color
  let s ← s.setColor parent .black
  let far ← s.child d.other sibling
  let s ← s.setColor far .black
  let s ← rotate d s parent
  some (s, s.root)

/-- The repair with a black sibling. -/
def settle : Option (Rbtree w × Addr) := do
  let left ← s.child .left sibling
  let leftColor ← s.color left
  let right ← s.child .right sibling
  let rightColor ← s.color right
  if leftColor = .black ∧ rightColor = .black then
    let s ← s.setColor sibling .red
    let parent ← s.parent temp
    some (s, parent)
  else
    let near ← raiseNear d s temp sibling
    deleteFinish d near.1 temp near.2

/-- The repair of `ngx_rbtree_delete`, for a node on the side `d` of its parent. -/
def deleteRepair : Option (Rbtree w × Addr) := do
  let parent ← s.parent temp
  let sibling ← s.child d.other parent
  let raised ← raiseSibling d s temp sibling
  settle d raised.1 temp raised.2

/-- One turn of the loop of `ngx_rbtree_delete`. -/
def deleteTurn (c : Rbtree w × Addr) : Option (Rbtree w × Addr ⊕ Rbtree w × Addr) :=
  if c.2 = c.1.root then some (.inr c)
  else do
    match ← c.1.color c.2 with
    | .red => some (.inr c)
    | .black =>
      let parent ← c.1.parent c.2
      let left ← c.1.child .left parent
      (deleteRepair (if c.2 = left then .left else .right) c.1 c.2).map .inl

/-- `ngx_rbtree_delete` -/
def delete : Option (Rbtree w) := do
  let found ← substitute s node
  let subst := found.1
  let temp := found.2
  if subst = s.root then
    let s ← ({ s with root := temp } : Rbtree w).setColor temp .black
    clear s node
  else
    let color ← s.color subst
    let s ← hang .left s subst temp
    let s ← if subst = node then (s.parent subst).bind (s.setParent temp) else replace s node subst temp
    let s ← clear s node
    match color with
    | .red => some s
    | .black =>
      let c ← loop deleteTurn (s, temp)
      c.1.setColor c.2 .black

end
end GokuStudio.Nginx.RbTree

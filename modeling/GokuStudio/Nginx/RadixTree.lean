import GokuStudio.Lib.Trie
import GokuStudio.Lib.Walk

/-!
# The radix tree

`ngx_radix_tree.c`. A node with its parents is a tree in its place: the head of the list of
crumbs is `node->parent`, and there is none for the root. A walk reads a key and a mask bit by
bit, and the functions for 32 and for 128 bits differ only in how they do that.
-/

namespace GokuStudio.Nginx.RadixTree

open Lib Function
variable {w : Nat}

/-! ## §1 Bits -/

/-- How a walk goes through a key and a mask. -/
structure Bits where
  Pos : Type
  start : Pos
  /-- `bit & mask` -/
  more : Pos → Bool
  /-- `key & bit` -/
  side : Pos → Bool
  next : Pos → Pos

def bits32 (key mask : BitVec 32) : Bits where
  Pos := BitVec 32
  start := 0x80000000
  more bit := bit &&& mask ≠ 0
  side bit := key &&& bit ≠ 0
  next bit := bit >>> 1

/-- The loops over masks are left when `i` is 16. The one of the search is not. -/
def bits128 (key mask : Nat → UInt8) : Bits where
  Pos := Nat × UInt8
  start := (0, 0x80)
  more c := c.1 ≠ 16 ∧ c.2 &&& mask c.1 ≠ 0
  side c := key c.1 &&& c.2 ≠ 0
  next c := if c.2 >>> 1 = 0 then (c.1 + 1, 0x80) else (c.1, c.2 >>> 1)

/-! ## §2 The functions -/

abbrev Tree (w : Nat) := Trie (BitVec w)

/-- `NGX_RADIX_NO_VALUE` -/
def noValue : BitVec w := -1

inductive Rc where
  | ok
  | busy
  | error
deriving DecidableEq

/-- A node in its place, and where the walk is. -/
structure Focus (b : Bits) (w : Nat) where
  node : Tree w
  parents : List (Trie.Crumb (BitVec w))
  pos : b.Pos

/-- The first loop of an insertion. It ends at a node with `next` not `NULL` if the mask is used
up, and with `NULL` if there is no child to go to. -/
def descend (b : Bits) : Tree w → List (Trie.Crumb (BitVec w)) → b.Pos → Focus b w × Bool
  | .null, k, c => (⟨.null, k, c⟩, false)
  | .node left v right, k, c =>
    if b.more c then
      if b.side c then
        if right = .null then (⟨.node left v right, k, c⟩, false)
        else descend b right (⟨true, v, left⟩ :: k) (b.next c)
      else if left = .null then (⟨.node left v right, k, c⟩, false)
      else descend b left (⟨false, v, right⟩ :: k) (b.next c)
    else (⟨.node left v right, k, c⟩, true)

/-- The second loop, which adds nodes: `ngx_radix_alloc` returns `room` of them before it fails. -/
def extend (b : Bits) (value : BitVec w) : Nat → Focus b w → Rc × Tree w
  | _, ⟨.null, k, _⟩ => (.error, Trie.plug k .null)
  | 0, ⟨.node left v right, k, c⟩ =>
    if b.more c then (.error, Trie.plug k (.node left v right)) else (.ok, Trie.plug k (.node left value right))
  | room + 1, ⟨.node left v right, k, c⟩ =>
    if b.more c then
      extend b value room ⟨.node .null noValue .null, ⟨b.side c, v, if b.side c then left else right⟩ :: k, b.next c⟩
    else (.ok, Trie.plug k (.node left value right))

/-- `ngx_radix32tree_insert` and `ngx_radix128tree_insert` -/
def insert (b : Bits) (tree : Tree w) (value : BitVec w) (room : Nat) : Rc × Tree w :=
  match descend b tree [] b.start with
  | (⟨.node left v right, k, _⟩, true) =>
    if v ≠ noValue then (.busy, tree) else (.ok, Trie.plug k (.node left value right))
  | (f, _) => extend b value room f

/-- The first loop of a deletion, which may end at `NULL` -/
def reach (b : Bits) : Tree w → List (Trie.Crumb (BitVec w)) → b.Pos → Tree w × List (Trie.Crumb (BitVec w))
  | .null, k, _ => (.null, k)
  | .node left v right, k, c =>
    if b.more c then
      if b.side c then reach b right (⟨true, v, left⟩ :: k) (b.next c)
      else reach b left (⟨false, v, right⟩ :: k) (b.next c)
    else (.node left v right, k)

/-- The second loop, which removes nodes, from one whose parents these are. A `NULL` parent is
not checked for. -/
def prune : List (Trie.Crumb (BitVec w)) → Option (Tree w)
  | [] => none
  | f :: k =>
    let parent := Trie.join f.right .null f.value f.sibling
    if f.sibling ≠ .null ∨ f.value ≠ noValue ∨ k.isEmpty then some (Trie.plug k parent) else prune k

/-- `ngx_radix32tree_delete` and `ngx_radix128tree_delete` -/
def delete (b : Bits) (tree : Tree w) : Option (Rc × Tree w) :=
  match reach b tree [] b.start with
  | (.null, _) => some (.error, tree)
  | (.node left v right, k) =>
    if right ≠ .null ∨ left ≠ .null then
      if v ≠ noValue then some (.ok, Trie.plug k (.node left noValue right)) else some (.error, tree)
    else (prune k).map fun tree => (.ok, tree)

/-- The loop of `ngx_radix32tree_find` and `ngx_radix128tree_find` -/
def findFrom (b : Bits) : Tree w → b.Pos → BitVec w → BitVec w
  | .null, _, value => value
  | .node left v right, c, value =>
    let value := if v ≠ noValue then v else value
    if b.side c then findFrom b right (b.next c) value else findFrom b left (b.next c) value

def find (b : Bits) (tree : Tree w) : BitVec w := findFrom b tree b.start noValue

def radix32treeInsert (tree : Tree w) (key mask : BitVec 32) : BitVec w → Nat → Rc × Tree w := insert (bits32 key mask) tree
def radix32treeDelete (tree : Tree w) (key mask : BitVec 32) : Option (Rc × Tree w) := delete (bits32 key mask) tree
def radix32treeFind (tree : Tree w) (key : BitVec 32) : BitVec w := find (bits32 key 0) tree

def radix128treeInsert (tree : Tree w) (key mask : Nat → UInt8) : BitVec w → Nat → Rc × Tree w :=
  insert (bits128 key mask) tree
def radix128treeDelete (tree : Tree w) (key mask : Nat → UInt8) : Option (Rc × Tree w) := delete (bits128 key mask) tree
def radix128treeFind (tree : Tree w) (key : Nat → UInt8) : BitVec w := find (bits128 key fun _ => 0) tree

/-! ## §3 Creation -/

/-- The loop over the keys of one level. It is left with `none` when there is no memory. -/
def preallocateTurn (room : BitVec 32 → BitVec 32 → Nat) (mask inc : BitVec 32) (s : Tree w × BitVec 32) :
    Option (Tree w × BitVec 32 ⊕ Option (Tree w)) :=
  let r := radix32treeInsert s.1 s.2 mask noValue (room mask s.2)
  let key := s.2 + inc
  some (if r.1 ≠ .ok then .inr none else if key = 0 then .inr (some r.2) else .inl (r.2, key))

/-- `while (preallocate--)` -/
def preallocate (room : BitVec 32 → BitVec 32 → Nat) : Nat → BitVec 32 → BitVec 32 → Tree w → Option (Option (Tree w))
  | 0, _, _, tree => some (some tree)
  | levels + 1, mask, inc, tree =>
    let mask := mask >>> 1 ||| 0x80000000
    match loop (preallocateTurn room mask inc) (tree, 0) with
    | none => none
    | some none => some none
    | some (some tree) => preallocate room levels mask (inc >>> 1) tree

/-- `ngx_radix_tree_create`, where `nodes` is `ngx_pagesize / sizeof(ngx_radix_node_t)`, and
`rooted` says that there is memory for the root -/
def create (nodes : Nat) (rooted : Bool) (room : BitVec 32 → BitVec 32 → Nat) (levels : BitVec w) : Option (Option (Tree w)) :=
  if rooted = false then some none
  else
    let levels := if levels = -1 then (if nodes = 128 then 6 else if nodes = 256 then 7 else 8) else levels.toNat
    preallocate room levels 0 0x80000000 (.node .null noValue .null)

/-! ## §4 Runs -/

inductive Family where
  | v4
  | v6

namespace Family

/-- A key or a mask: a word, or the bytes from a pointer on. -/
abbrev Key : Family → Type
  | v4 => BitVec 32
  | v6 => Nat → UInt8

def width : Family → Nat
  | v4 => 32
  | v6 => 128

def insert : (F : Family) → Tree w → F.Key → F.Key → BitVec w → Nat → Rc × Tree w
  | v4 => radix32treeInsert
  | v6 => radix128treeInsert

def delete : (F : Family) → Tree w → F.Key → F.Key → Option (Rc × Tree w)
  | v4 => radix32treeDelete
  | v6 => radix128treeDelete

def find : (F : Family) → Tree w → F.Key → BitVec w
  | v4 => radix32treeFind
  | v6 => radix128treeFind

/-- The bits of a key or a mask, from the highest one on. -/
def digit : (F : Family) → F.Key → Nat → Bool
  | v4 => fun key j => key.getMsbD j
  | v6 => fun key j => (key (j / 8)).toBitVec.getMsbD (j % 8)

def digits (F : Family) (key : F.Key) (n : Nat) : List Bool := (List.range n).map (F.digit key)

/-- A mask of `n` ones, and zeros behind them. -/
def Contiguous (F : Family) (mask : F.Key) (n : Nat) : Prop := n ≤ F.width ∧ ∀ j < F.width, F.digit mask j = decide (j < n)

end Family

/-- A tree after some calls, and what they say is in it: an insertion that returns `NGX_OK` adds
an entry, and a deletion that does removes it. Each deletion meets a condition. -/
inductive Run (F : Family) (P : Tree w → List Bool → Prop) : Tree w → (List Bool → Option (BitVec w)) → Prop
  | create {nodes : Nat} {rooted : Bool} {room : BitVec 32 → BitVec 32 → Nat} {levels : BitVec w} {tree : Tree w}
      (h : create nodes rooted room levels = some (some tree)) : Run F P tree fun _ => none
  | insert {tree : Tree w} {M : List Bool → Option (BitVec w)} (h : Run F P tree M) (key mask : F.Key) {n : Nat}
      (hmask : F.Contiguous mask n) {value : BitVec w} (hvalue : value ≠ noValue) (room : Nat) :
      Run F P (F.insert tree key mask value room).2
        (if (F.insert tree key mask value room).1 = .ok then update M (F.digits key n) (some value) else M)
  | delete {tree tree' : Tree w} {M : List Bool → Option (BitVec w)} (h : Run F P tree M) (key mask : F.Key) {n : Nat}
      (hmask : F.Contiguous mask n) (hP : P tree (F.digits key n)) {rc : Rc}
      (hdelete : F.delete tree key mask = some (rc, tree')) :
      Run F P tree' (if rc = .ok then update M (F.digits key n) none else M)

end GokuStudio.Nginx.RadixTree

import GokuStudio.Lib.SearchTree
import GokuStudio.Nginx.Crc32
import Mathlib.Data.List.Lex
import Mathlib.Data.List.Nodup

/-!
# Trees of keys

`ngx_http_limit_req_module` and `ngx_http_limit_conn_module` keep a node for each key in a
red-black tree. A node is found by the hash of its key, and among nodes of one hash by the key
itself. Both modules search and insert in the same way.
-/

namespace GokuStudio.Nginx

open Lib List

/-! ## §1 The comparison -/

/-- `ngx_memcmp`, for texts of at least `n` bytes -/
def memcmp : Bytes → Bytes → Nat → Ordering
  | a :: s, b :: t, n + 1 => if a < b then .lt else if b < a then .gt else memcmp s t n
  | _, _, _ => .eq

/-- `ngx_memn2cmp` -/
def memn2cmp (s₁ s₂ : Bytes) : Ordering :=
  let m := memcmp s₁ s₂ (if s₁.length ≤ s₂.length then s₁.length else s₂.length)
  if m ≠ .eq ∨ s₁.length = s₂.length then m else if s₁.length ≤ s₂.length then .lt else .gt

theorem memn2cmp_cons (a b : UInt8) (s t : Bytes) : memn2cmp (a :: s) (b :: t) =
    if a < b then .lt else if b < a then .gt else memn2cmp s t := by
  have hmin : (if (a :: s).length ≤ (b :: t).length then (a :: s).length else (b :: t).length) =
      (if s.length ≤ t.length then s.length else t.length) + 1 := by
    simp only [length_cons, Nat.add_le_add_iff_right]
    split <;> rfl
  rw [memn2cmp, hmin, memcmp]
  by_cases hlt : a < b
  · simp [hlt]
  by_cases hgt : b < a
  · simp [hlt, hgt]
  · simp [hlt, hgt, memn2cmp]

/-- The order of the bytes as numbers. -/
def digits (s : Bytes) : List Nat := s.map UInt8.toNat

variable {s t data : Bytes}

theorem digits_inj : digits s = digits t ↔ s = t := (map_injective_iff.mpr fun _ _ => UInt8.toNat_inj.mp).eq_iff

/-- The comparison is that of the lexicographic order. -/
theorem memn2cmp_lt : memn2cmp s t = .lt ↔ digits s < digits t := by
  induction s generalizing t with
  | nil => cases t <;> simp [memn2cmp, memcmp, digits]
  | cons a s ih =>
    cases t with
    | nil => simp [memn2cmp, memcmp, digits]
    | cons b t =>
      show _ ↔ a.toNat :: digits s < b.toNat :: digits t
      rw [memn2cmp_cons, cons_lt_cons_iff, ← ih]
      simp only [UInt8.lt_iff_toNat_lt]
      rcases Nat.lt_trichotomy a.toNat b.toNat with hlt | heq | hgt
      · simp [hlt]
      · simp [heq]
      · simp [hgt, Nat.lt_asymm hgt, Nat.ne_of_gt hgt]

theorem memn2cmp_swap (s t : Bytes) : (memn2cmp s t).swap = memn2cmp t s := by
  induction s generalizing t with
  | nil => cases t <;> simp [memn2cmp, memcmp]
  | cons a s ih =>
    cases t with
    | nil => simp [memn2cmp, memcmp]
    | cons b t =>
      rw [memn2cmp_cons, memn2cmp_cons, ← ih]
      rcases Nat.lt_trichotomy a.toNat b.toNat with hlt | heq | hgt
      · simp [UInt8.lt_iff_toNat_lt, hlt, Nat.lt_asymm hlt]
      · simp [UInt8.lt_iff_toNat_lt, heq]
      · simp [UInt8.lt_iff_toNat_lt, hgt, Nat.lt_asymm hgt]

/-! ## §2 Nodes -/

/-- A node: its address and what is written once, when it is made. -/
structure Item where
  addr : Nat
  key : BitVec 32
  data : Bytes
deriving DecidableEq

/-- The bytes that the comparison sees: the length is kept in a `u_char`. -/
def Item.name (item : Item) : Bytes := item.data.take (item.data.length % 256)

/-- How a hash and a key compare with those of a node, in the lookup. -/
def compareKey (hash : BitVec 32) (data : Bytes) (item : Item) : Ordering :=
  if hash < item.key then .lt else if hash > item.key then .gt else memn2cmp data item.name

/-- The test of `ngx_http_limit_req_rbtree_insert_value` and
`ngx_http_limit_conn_rbtree_insert_value`. -/
def goesLeft (item temp : Item) : Bool :=
  if item.key < temp.key then true
  else if item.key > temp.key then false
  else memn2cmp item.name temp.name = .lt

/-- Hash and key as one word. -/
def rank (hash : BitVec 32) (data : Bytes) : List Nat := hash.toNat :: digits data

variable {hash : BitVec 32} {item : Item} {tree : ColorTree Item}

theorem rank_inj {hash' : BitVec 32} {data' : Bytes} :
    rank hash data = rank hash' data' ↔ hash = hash' ∧ data = data' := by
  rw [rank, rank, cons.injEq, BitVec.toNat_inj, digits_inj]

theorem compareKey_lt : compareKey hash data item = .lt ↔ rank hash data < rank item.key item.name := by
  rw [compareKey, rank, rank, cons_lt_cons_iff, ← memn2cmp_lt]
  simp only [gt_iff_lt, BitVec.lt_def]
  rcases Nat.lt_trichotomy hash.toNat item.key.toNat with hlt | heq | hgt
  · simp [hlt]
  · simp [heq]
  · simp [hgt, Nat.lt_asymm hgt, Nat.ne_of_gt hgt]

theorem compareKey_gt : compareKey hash data item = .gt ↔ rank item.key item.name < rank hash data := by
  rw [compareKey, rank, rank, cons_lt_cons_iff, ← memn2cmp_lt, ← memn2cmp_swap data, Ordering.swap_eq_lt]
  simp only [gt_iff_lt, BitVec.lt_def]
  rcases Nat.lt_trichotomy hash.toNat item.key.toNat with hlt | heq | hgt
  · simp [hlt, Nat.lt_asymm hlt, Nat.ne_of_gt hlt]
  · simp [heq]
  · simp [hgt, Nat.lt_asymm hgt]

theorem compareKey_eq_iff : compareKey hash data item = .eq ↔ hash = item.key ∧ data = item.name := by
  rw [← rank_inj]
  rcases lt_trichotomy (rank hash data) (rank item.key item.name) with hlt | heq | hgt
  · simp [compareKey_lt.mpr hlt, hlt.ne]
  · refine iff_of_true ?_ heq
    cases hcompare : compareKey hash data item with
    | lt => exact absurd (compareKey_lt.mp hcompare) (not_lt.mpr heq.ge)
    | gt => exact absurd (compareKey_gt.mp hcompare) (not_lt.mpr heq.le)
    | eq => rfl
  · simp [compareKey_gt.mpr hgt, hgt.ne']

theorem goesLeft_iff {temp : Item} :
    goesLeft item temp = true ↔ rank item.key item.name < rank temp.key temp.name := by
  rw [← compareKey_lt, compareKey, goesLeft]
  split_ifs <;> simp

/-! ## §3 The tree -/

/-- The nodes of a tree ascend: no two have one hash and one key. -/
def Ascending (xs : List Item) : Prop := xs.Pairwise fun x y => rank x.key x.name < rank y.key y.name

theorem Ascending.falls {xs : List Item} (h : Ascending xs) (hash : BitVec 32) (data : Bytes) :
    ColorTree.Falls (compareKey hash data) xs := by
  refine h.imp fun {x y} hxy => ?_
  rw [compareKey_gt, compareKey_lt]
  rcases lt_or_ge (rank x.key x.name) (rank hash data) with hlt | hge
  · exact .inl hlt
  · exact .inr (lt_of_le_of_lt hge hxy)

/-- The search of both lookup functions. -/
def lookup (hash : BitVec 32) (data : Bytes) (tree : ColorTree Item) : Option Item := tree.find (compareKey hash data)

theorem lookup_iff (h : Ascending tree.inorder) :
    lookup hash data tree = some item ↔ item ∈ tree.inorder ∧ hash = item.key ∧ data = item.name := by
  rw [lookup, ColorTree.find_iff (h.falls hash data), compareKey_eq_iff]

/-- A node with a new key keeps the order. -/
theorem Ascending.insert (ops : ColorTree.Ops Item) (h : Ascending tree.inorder)
    (hnew : ∀ x ∈ tree.inorder, ¬ (item.key = x.key ∧ item.name = x.name)) :
    Ascending (ops.insert (goesLeft item) item tree).inorder := by
  rw [ops.inorder_insert]
  refine ColorTree.insert_sorted h (fun y _ z _ hyz hy => ?_) (fun y hy hless => ?_) fun y _ hless => ?_
  · rw [goesLeft_iff] at hy ⊢
    exact hy.trans hyz
  · have hnot : ¬ rank item.key item.name < rank y.key y.name := by
      rw [← goesLeft_iff, hless]
      exact Bool.false_ne_true
    refine lt_of_le_of_ne (not_lt.mp hnot) fun heq => hnew y hy ?_
    exact rank_inj.mp heq.symm
  · exact goesLeft_iff.mp hless

/-- A tree of keys of at most 255 bytes under their hashes. -/
structure Keyed (tree : ColorTree Item) : Prop where
  ascending : Ascending tree.inorder
  addrs : (tree.inorder.map (·.addr)).Nodup
  keys : ∀ item ∈ tree.inorder, item.key = crc32Short item.data ∧ item.data.length ≤ 255

theorem name_eq (h : item.data.length ≤ 255) : item.name = item.data := by
  rw [Item.name, Nat.mod_eq_of_lt (by omega), take_length]

theorem keyed_leaf : Keyed .leaf := ⟨List.Pairwise.nil, nodup_nil, nofun⟩

namespace Keyed
variable {x y : Item} {key : Bytes} (h : Keyed tree)
include h

theorem lookup_some : lookup (crc32Short key) key tree = some item ↔ item ∈ tree.inorder ∧ item.data = key := by
  rw [lookup_iff h.ascending]
  refine ⟨fun ⟨hmem, _, hname⟩ => ⟨hmem, ?_⟩, fun ⟨hmem, hdata⟩ => ⟨hmem, ?_⟩⟩
  · rw [hname, name_eq (h.keys item hmem).2]
  · rw [name_eq (h.keys item hmem).2, (h.keys item hmem).1, hdata]
    exact ⟨rfl, rfl⟩

theorem lookup_none : lookup (crc32Short key) key tree = none ↔ ∀ item ∈ tree.inorder, item.data ≠ key := by
  rw [Option.eq_none_iff_forall_ne_some]
  refine forall_congr' fun item => ?_
  rw [ne_eq, h.lookup_some, not_and]

theorem addr_inj (hx : x ∈ tree.inorder) (hy : y ∈ tree.inorder) (heq : x.addr = y.addr) : x = y :=
  inj_on_of_nodup_map h.addrs hx hy heq

theorem data_inj (hx : x ∈ tree.inorder) (hy : y ∈ tree.inorder) (heq : x.data = y.data) : x = y := by
  have hfind := h.lookup_some.mpr ⟨hx, heq⟩
  rw [h.lookup_some.mpr ⟨hy, rfl⟩] at hfind
  exact (Option.some.inj hfind).symm

theorem insert (ops : ColorTree.Ops Item) {addr : Nat} (haddr : addr ∉ tree.inorder.map (·.addr))
    (hlength : key.length ≤ 255) (hkey : ∀ item ∈ tree.inorder, item.data ≠ key) :
    Keyed (ops.insert (goesLeft ⟨addr, crc32Short key, key⟩) ⟨addr, crc32Short key, key⟩ tree) := by
  have hperm := @ColorTree.Ops.perm_insert Item ops (goesLeft ⟨addr, crc32Short key, key⟩) ⟨addr, crc32Short key, key⟩
    tree
  have hnew : (Item.mk addr (crc32Short key) key).name = key := name_eq hlength
  refine ⟨h.ascending.insert ops fun x hx hsame => hkey x hx ?_, ?_, fun x hx => ?_⟩
  · rw [hnew, name_eq (h.keys x hx).2] at hsame
    exact hsame.2.symm
  · exact (hperm.map Item.addr).nodup_iff.mpr (nodup_cons.mpr ⟨haddr, h.addrs⟩)
  · rcases mem_cons.mp (hperm.mem_iff.mp hx) with rfl | hx
    · exact ⟨rfl, hlength⟩
    · exact h.keys x hx

theorem delete (ops : ColorTree.Ops Item) (hitem : item ∈ tree.inorder) : Keyed (ops.delete item tree) := by
  have hperm := ops.perm_delete hitem
  refine ⟨ops.pairwise_delete h.ascending hitem, ?_, fun x hx => ?_⟩
  · exact (nodup_cons.mp ((hperm.map Item.addr).nodup_iff.mpr h.addrs)).2
  · exact h.keys x (hperm.mem_iff.mp (mem_cons_of_mem _ hx))

end Keyed
end GokuStudio.Nginx

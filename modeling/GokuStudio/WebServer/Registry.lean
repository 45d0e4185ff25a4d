import GokuStudio.Lib.Runs
import GokuStudio.Lib.Walk

/-!
# The callback registry (`list_ex_manage.c`)

A registry is a linked list of nodes that give the callback of a list by the
address of the list's head, and a cache of the last callback that was asked for.
There is one for delete callbacks and one for match callbacks, with the same code.

Pointers are numbers, with 0 for `NULL`. What a registry is for is a map from
heads to callbacks; `Sound` connects the two, and each function has its rule.
`registry_refines_map`: for every sequence of calls the results are those of the
map.
-/

namespace GokuStudio.WebServer

open Lib Option
open List hiding Chain
open Function (apply_update update update_apply update_eq_self update_idem update_of_ne update_self)

/-! ## §1 The functions -/

structure CallBackManage where
  node : Nat
  listHeadAddr : Nat
  callBack : Nat
deriving DecidableEq, Repr

/-- The list variable, the nodes in memory, and `used_del_cb` or `used_match_cb`. -/
structure Registry where
  list : Nat
  mem : Nat → Option CallBackManage
  usedHead : Nat
  usedCb : Nat

/-- How a call ends the program: `abort()`, or a pointer that leads nowhere. -/
inductive Stop where
  | abort
  | undefined
deriving DecidableEq, Repr

def deref {α : Type} : Option α → Except Stop α
  | none => .error .undefined
  | some a => .ok a

namespace Registry

def empty : Registry := ⟨0, fun _ => none, 0, 0⟩

section
variable (r : Registry) (regListH a : Nat)

def next : Option Nat := (r.mem a).map (·.node)
def isFor (data a : Nat) : Bool := (r.mem a).any (·.listHeadAddr == data)

/-- `temp->node = v` -/
def setNode (a v : Nat) : Registry :=
  { r with mem := update r.mem a ((r.mem a).map fun c => { c with node := v }) }

/-- `malloc` returns `a`, and the fields are filled in. -/
def alloc (c : CallBackManage) : Registry :=
  { r with mem := update r.mem a (some c) }

/-- `free(a)` -/
def free : Registry := { r with mem := update r.mem a none }

/-- `delete_manage_call_back_match`, which the functions for match callbacks
write out. -/
def callBackMatch (data : Nat) : Except Stop Nat := deref (walk r.next (r.isFor data) r.list)

/-- `list = delete_manage_call_back_del(list, delNode)` -/
def callBackDel (delNode : Nat) : Except Stop Registry :=
  if delNode = 0 ∨ r.list = 0 then .ok r
  else if r.list = delNode then do
    let list ← deref (r.next r.list)
    return { r.free delNode with list := list }
  else do
    let tmp ← deref (seek r.next (fun q => q == 0 || q == delNode) r.list)
    let ahead ← deref (r.next tmp)
    if ahead = delNode then
      let behind ← deref (r.next delNode)
      return (r.setNode tmp behind).free delNode
    else return r.free delNode

def unregist : Except Stop (Bool × Registry) :=
  if r.list = 0 then .ok (false, r)
  else do
    let temp ← r.callBackMatch regListH
    if temp = 0 then return (false, r)
    let r ← r.callBackDel temp
    return (true, if r.usedHead = regListH then { r with usedHead := 0, usedCb := 0 } else r)

/-- `new` is what `malloc` returns. -/
def regist (regListH cb new : Nat) : Except Stop (Bool × Registry) := do
  let (_, r) ← r.unregist regListH
  if new = 0 then throw .undefined
  let r := r.alloc new ⟨0, regListH, cb⟩
  if r.list = 0 then return (true, { r with list := new })
  -- `sl_insert_tail_relative(list, new)`
  let behind ← deref (r.next r.list)
  return (true, (r.setNode new behind).setNode r.list new)

def check : Except Stop Bool :=
  if r.list = 0 then .ok false
  else if regListH = r.usedHead then .ok true
  else do
    let temp ← r.callBackMatch regListH
    return temp ≠ 0

def get : Except Stop (Nat × Registry) :=
  if r.list = 0 then .error .abort
  else if regListH = r.usedHead then .ok (r.usedCb, r)
  else do
    let temp ← r.callBackMatch regListH
    if temp = 0 then throw .abort
    let c ← deref (r.mem temp)
    return (c.callBack, { r with usedHead := c.listHeadAddr, usedCb := c.callBack })

/-! ## §2 What a registry holds -/

/-- The pointer cells of a registry; the list variable is cell 0. -/
def cells : Option Nat := if a = 0 then some r.list else r.next a

/-- What a node says. -/
def entry : Option (Nat × Nat) := (r.mem a).map fun c => (c.listHeadAddr, c.callBack)

end

/-- The nodes `ns` hang on the list, they are all there is, and they hold the map. -/
structure Nodes (r : Registry) (m : Nat → Option Nat) (ns : List Nat) : Prop where
  chain : Chain r.cells 0 ns
  mem_iff : ∀ a, r.entry a ≠ none ↔ a ∈ ns
  inj : ∀ {a b h x y}, r.entry a = some (h, x) → r.entry b = some (h, y) → a = b
  map_iff : ∀ {h cb}, m h = some cb ↔ ∃ a, r.entry a = some (h, cb)
  head_ne : ∀ {a h cb}, r.entry a = some (h, cb) → h ≠ 0

/-- The cache knows what the map knows, too. -/
structure Sound (r : Registry) (m : Nat → Option Nat) (ns : List Nat) : Prop extends Nodes r m ns where
  used : r.usedHead ≠ 0 → m r.usedHead = some r.usedCb

section Nodes
variable {r r' : Registry} {m : Nat → Option Nat} {ns ns' pre post : List Nat} {h cb new a x : Nat} {c : CallBackManage}

theorem sound_empty : empty.Sound (fun _ => none) [] where
  chain := rfl
  mem_iff a := by simp [empty, entry]
  inj ha := absurd ha (by simp [empty, entry])
  map_iff := by simp [empty, entry]
  head_ne ha := absurd ha (by simp [empty, entry])
  used hu := absurd rfl hu

theorem cells_zero : r.cells 0 = some r.list := if_pos rfl
theorem cells_of_ne (ha : a ≠ 0) : r.cells a = r.next a := if_neg ha

section
variable (hN : r.Nodes m ns)
include hN

theorem Nodes.list_eq : r.list = ns.headD 0 := by
  have := hN.chain.head
  rw [cells_zero] at this
  exact some.inj this

theorem Nodes.list_eq_zero_iff : r.list = 0 ↔ ns = [] := by
  rw [hN.list_eq]
  cases ns with
  | nil => simp
  | cons x xs => simpa using hN.chain.ne_zero mem_cons_self

theorem Nodes.zero_notMem : 0 ∉ ns := fun h => hN.chain.ne_zero h rfl
theorem Nodes.mem (ha : r.entry a = some (h, cb)) : a ∈ ns := (hN.mem_iff a).mp (by simp [ha])

theorem Nodes.entry_ne (hm : m h = none) : r.entry a ≠ some (h, cb) := fun ha =>
  some_ne_none cb ((hN.map_iff.mpr ⟨a, ha⟩).symm.trans hm)

end

theorem isFor_iff : r.isFor h a = true ↔ ∃ cb, r.entry a = some (h, cb) := by
  rw [isFor, entry]
  cases r.mem a with
  | none | some c => simp

/-- The loop finds the node of a head that is registered, and nothing else. -/
theorem Nodes.lookup (hN : r.Nodes m ns) (h : Nat) : m h = none ∧ r.callBackMatch h = .ok 0 ∨
      ∃ cb a, m h = some cb ∧ r.callBackMatch h = .ok a ∧ r.entry a = some (h, cb) ∧ a ≠ 0 ∧ r.list ≠ 0 := by
  have hwalk : walk r.next (r.isFor h) r.list = some ((ns.find? (r.isFor h)).getD 0) :=
    walk_chain (r.isFor h) hN.chain (fun x hx => (cells_of_ne (hN.chain.ne_zero hx)).symm) cells_zero
  rw [callBackMatch, hwalk]
  cases hf : ns.find? (r.isFor h) with
  | none =>
    refine .inl ⟨?_, rfl⟩
    rw [eq_none_iff_forall_ne_some]
    intro cb hm
    obtain ⟨a, ha⟩ := hN.map_iff.mp hm
    exact find?_eq_none.mp hf a (hN.mem ha) (isFor_iff.mpr ⟨cb, ha⟩)
  | some a =>
    obtain ⟨cb, ha⟩ := isFor_iff.mp (find?_some hf)
    have hmem := mem_of_find?_eq_some hf
    exact .inr ⟨cb, a, hN.map_iff.mpr ⟨a, ha⟩, rfl, ha, hN.chain.ne_zero hmem,
      mt hN.list_eq_zero_iff.mp (ne_nil_of_mem hmem)⟩

/-! ## §3 Changing the list -/

/-- A changed pointer is seen in its cell only. -/
theorem cells_setNode (ha : a ≠ 0) (hmem : r.mem a ≠ none) (v : Nat) :
    (r.setNode a v).cells = update r.cells a (some v) := by
  obtain ⟨c, hc⟩ := ne_none_iff_exists'.mp hmem
  funext x
  simp only [cells, update_apply, next, setNode]
  by_cases hx0 : x = 0
  · simp [hx0, ha.symm]
  · by_cases hxa : x = a <;> simp [hx0, hxa, ha, hc]

/-- No node says anything else. -/
theorem entry_setNode (v : Nat) : (r.setNode a v).entry = r.entry := by
  funext x
  simp only [entry, setNode, update_apply]
  split
  · rename_i hx
    rw [hx, Option.map_map]
    rfl
  · rfl

theorem entry_free : (r.free a).entry = update r.entry a none :=
  funext (apply_update (fun _ => Option.map _) r.mem a none)

theorem entry_alloc : (r.alloc a c).entry = update r.entry a (some (c.listHeadAddr, c.callBack)) :=
  funext (apply_update (fun _ => Option.map _) r.mem a (some c))

theorem next_alloc (hx : x ≠ a) : (r.alloc a c).next x = r.next x := congrArg _ (update_of_ne hx ..)

theorem cells_free (ha : a ≠ 0) : (r.free a).cells = update r.cells a none := by
  funext x
  simp only [cells, update_apply, next, free]
  by_cases hx0 : x = 0
  · simp [hx0, ha.symm]
  · rw [if_neg hx0, if_neg hx0]
    split <;> rfl

theorem mem_ne_none_iff : r.mem a ≠ none ↔ r.entry a ≠ none := by
  rw [entry]
  simp

theorem Nodes.erase (hN : r.Nodes m ns) (ha : r.entry a = some (h, cb))
    (hentry : r'.entry = update r.entry a none) (hchain : Chain r'.cells 0 (ns.erase a)) :
    r'.Nodes (update m h none) (ns.erase a) := by
  have hsub : ∀ {x e}, r'.entry x = some e ↔ x ≠ a ∧ r.entry x = some e := by
    intro x e
    rw [hentry, update_apply]
    split <;> simp [*]
  refine ⟨hchain, fun x => ?_, fun hx hy => ?_, fun {g y} => ?_, fun hx => ?_⟩
  · rw [hN.chain.nodup.mem_erase_iff, ← hN.mem_iff, hentry, update_apply]
    split <;> simp [*]
  · exact hN.inj (hsub.mp hx).2 (hsub.mp hy).2
  · by_cases hg : g = h
    · rw [hg, update_self]
      refine iff_of_false (by simp) ?_
      rintro ⟨x, hx⟩
      obtain ⟨hxa, hx⟩ := hsub.mp hx
      exact hxa (hN.inj hx ha)
    · rw [update_of_ne hg, hN.map_iff]
      refine exists_congr fun x => ⟨fun hx => hsub.mpr ⟨?_, hx⟩, fun hx => (hsub.mp hx).2⟩
      rintro rfl
      rw [ha] at hx
      exact hg (Prod.mk.inj (some.inj hx)).1.symm
  · exact hN.head_ne (hsub.mp hx).2

theorem Nodes.insert (hN : r.Nodes m ns) (hm : m h = none) (hh : h ≠ 0) (hnew : new ∉ ns)
    (hentry : r'.entry = update r.entry new (some (h, cb))) (hchain : Chain r'.cells 0 ns')
    (hns : ∀ x, x ∈ ns' ↔ x = new ∨ x ∈ ns) : r'.Nodes (update m h (some cb)) ns' := by
  have hsub : ∀ {x g y}, r'.entry x = some (g, y) ↔ x = new ∧ g = h ∧ y = cb ∨ r.entry x = some (g, y) := by
    intro x g y
    rw [hentry, update_apply]
    split
    · rename_i hx
      have : r.entry x = none := by
        by_contra hne
        exact hnew (hx ▸ (hN.mem_iff x).mp hne)
      rw [this]
      simp [hx, eq_comm]
    · rename_i hx
      simp [hx]
  have hother : ∀ {x y}, r.entry x ≠ some (h, y) := hN.entry_ne hm
  refine ⟨hchain, fun x => ?_, fun hx hy => ?_, fun {g y} => ?_, fun hx => ?_⟩
  · rw [hns, ← hN.mem_iff, hentry, update_apply]
    split <;> simp [*]
  · rcases hsub.mp hx with ⟨rfl, rfl, -⟩ | hx <;> rcases hsub.mp hy with ⟨hy', hg, -⟩ | hy
    · exact hy'.symm
    · exact absurd hy hother
    · exact absurd (hg ▸ hx) hother
    · exact hN.inj hx hy
  · by_cases hg : g = h
    · simp [hsub, hg, hother, eq_comm]
    · rw [update_of_ne hg, hN.map_iff]
      simp [hsub, hg]
  · rcases hsub.mp hx with ⟨-, rfl, -⟩ | hx
    · exact hh
    · exact hN.head_ne hx

/-- A node has been taken off the list and freed; nothing else has changed. -/
structure Removed (r : Registry) (ns : List Nat) (a : Nat) (r' : Registry) : Prop where
  chain : Chain r'.cells 0 (ns.erase a)
  entry : r'.entry = update r.entry a none
  usedHead : r'.usedHead = r.usedHead
  usedCb : r'.usedCb = r.usedCb

theorem Nodes.exists_next (hN : r.Nodes m ns) (hmem : a ∈ ns) : ∃ v, r.next a = some v := by
  have hsome := hN.chain.isSome (mem_cons_of_mem 0 hmem)
  rw [cells_of_ne (hN.chain.ne_zero hmem)] at hsome
  exact isSome_iff_exists.mp hsome

/-- The cell before the node points behind it, and only the node itself has changed
otherwise. -/
theorem Nodes.chain_erase (hN : r.Nodes m (pre ++ a :: post)) (hlast : r'.cells (lastCell 0 pre) = r.cells a)
    (heq : ∀ x, x ≠ a → x ≠ lastCell 0 pre → r'.cells x = r.cells x) :
    Chain r'.cells 0 ((pre ++ a :: post).erase a) := by
  rw [erase_of_split hN.chain.nodup]
  refine hN.chain.unlink hN.zero_notMem hlast fun x hx => heq x ?_
  rintro rfl
  rcases mem_cons.mp hx with rfl | hx
  · exact hN.zero_notMem (by simp)
  · exact (nodup_middle.mp hN.chain.nodup).notMem hx

/-- The first node: the list starts behind it. -/
theorem Nodes.callBackDel_first (hN : r.Nodes m ([] ++ a :: post)) :
    ∃ r', r.callBackDel a = .ok r' ∧ r.Removed ([] ++ a :: post) a r' := by
  have hlist : r.list = a := hN.list_eq
  have ha0 : a ≠ 0 := hN.chain.ne_zero (by simp)
  obtain ⟨v, hv⟩ := hN.exists_next (a := a) (by simp)
  refine ⟨{ r.free a with list := v }, ?_, hN.chain_erase ?_ fun x hxa hx0 => ?_, entry_free, rfl, rfl⟩
  · rw [Registry.callBackDel, hlist, if_neg (by simp [ha0]), if_pos rfl, hv]
    rfl
  · rw [cells_of_ne ha0, hv]
    exact cells_zero
  · have hx : x ≠ 0 := hx0
    rw [cells_of_ne hx]
    change (r.free a).next x = _
    rw [← cells_of_ne hx, cells_free ha0, update_of_ne hxa]

/-- A node behind others: the loop finds the one that points to it. -/
theorem Nodes.callBackDel_behind {y : Nat} (hN : r.Nodes m (y :: pre ++ a :: post)) :
    ∃ r', r.callBackDel a = .ok r' ∧ r.Removed (y :: pre ++ a :: post) a r' := by
  have hlist : r.list = y := hN.list_eq
  have ha0 : a ≠ 0 := hN.chain.ne_zero (by simp)
  have hy0 : y ≠ 0 := hN.chain.ne_zero (by simp)
  obtain ⟨v, hv⟩ := hN.exists_next (a := a) (by simp)
  obtain ⟨hya, htmp0, htmpa, hahead, hseek⟩ := hN.chain.seek_node (fun _ => cells_of_ne) null_or_iff
  have htmpmem : r.mem (lastCell y pre) ≠ none := by
    intro hnone
    simp [next, hnone] at hahead
  have hcells : ((r.setNode (lastCell y pre) v).free a).cells =
      update (update r.cells (lastCell y pre) (some v)) a none := by
    rw [cells_free ha0, cells_setNode htmp0 htmpmem]
  refine ⟨(r.setNode (lastCell y pre) v).free a, ?_, hN.chain_erase ?_ fun x hxa hxt => ?_, ?_, rfl, rfl⟩
  · rw [Registry.callBackDel, hlist, if_neg (by simp [ha0, hy0]), if_neg hya, hseek]
    simp [deref, hahead, hv, bind, Except.bind, pure, Except.pure]
  · rw [hcells, lastCell, update_of_ne htmpa, update_self, cells_of_ne ha0, hv]
  · have hxt' : x ≠ lastCell y pre := hxt
    rw [hcells, update_of_ne hxa, update_of_ne hxt']
  · rw [entry_free, entry_setNode]

/-- `delete_manage_call_back_del` takes a node off the list and frees it. -/
theorem Nodes.callBackDel (hN : r.Nodes m ns) (ha : r.entry a = some (h, cb)) :
    ∃ r', r.callBackDel a = .ok r' ∧ r'.Nodes (update m h none) (ns.erase a) ∧
      r'.entry = update r.entry a none ∧ r'.usedHead = r.usedHead ∧
      r'.usedCb = r.usedCb := by
  obtain ⟨r', hrun, hrem⟩ : ∃ r', r.callBackDel a = .ok r' ∧ r.Removed ns a r' := by
    obtain ⟨pre, post, rfl⟩ := append_of_mem (hN.mem ha)
    cases pre with
    | nil => exact hN.callBackDel_first
    | cons y pre => exact hN.callBackDel_behind
  exact ⟨r', hrun, hN.erase ha hrem.entry hrem.chain, hrem.entry, hrem.usedHead, hrem.usedCb⟩

/-! ## §4 A rule for each function -/

/-- Nothing else looks at the cache. -/
theorem Nodes.setUsed (hN : r.Nodes m ns) (h cb : Nat) : { r with usedHead := h, usedCb := cb }.Nodes m ns :=
  ⟨hN.chain, hN.mem_iff, hN.inj, hN.map_iff, hN.head_ne⟩

theorem Sound.unregist (hS : r.Sound m ns) (h : Nat) : ∃ r' ns', r.unregist h = .ok ((m h).isSome, r') ∧
      r'.Sound (update m h none) ns' ∧ ∀ x e, r'.entry x = some e → r.entry x = some e := by
  rcases hS.lookup h with ⟨hm, hfound⟩ | ⟨cb, a, hm, hfound, ha, ha0, hlist⟩
  · refine ⟨r, ns, ?_, by rwa [← hm, update_eq_self], fun _ _ he => he⟩
    rw [hm, Registry.unregist, hfound]
    split <;> rfl
  obtain ⟨r1, hdel, hN1, hentry, hhead, hcb⟩ := hS.callBackDel ha
  have hsub : ∀ x e, r1.entry x = some e → r.entry x = some e := by
    intro x e he
    rw [hentry, update_apply] at he
    split at he
    · simp at he
    · exact he
  refine ⟨if r1.usedHead = h then { r1 with usedHead := 0, usedCb := 0 } else r1, ns.erase a, by
    simp [Registry.unregist, hlist, hm, hfound, hdel, ha0, bind, Except.bind, pure, Except.pure], ?_⟩
  split
  · exact ⟨⟨hN1.setUsed 0 0, absurd rfl⟩, hsub⟩
  rename_i hne
  refine ⟨⟨hN1, fun hu => ?_⟩, hsub⟩
  rw [update_of_ne hne, hhead, hcb]
  exact hS.used (hhead ▸ hu)

/-- `sl_insert_tail_relative` puts the new node behind the first one. -/
theorem Nodes.link_second {xs : List Nat} (hN : r.Nodes m (x :: xs)) (hm : m h = none)
    (hh : h ≠ 0) (hnew : new ≠ 0) (hnotin : new ∉ x :: xs) :
    (((r.alloc new ⟨0, h, cb⟩).setNode new (xs.headD 0)).setNode x new).Nodes
      (update m h (some cb)) (x :: new :: xs) := by
  obtain ⟨hx, hx0, hxs⟩ := hN.chain
  have hxn : x ≠ new := fun he => hnotin (he ▸ mem_cons_self ..)
  have hentry := @entry_alloc r new ⟨0, h, cb⟩
  have hmemnew : (r.alloc new ⟨0, h, cb⟩).mem new ≠ none := by
    rw [mem_ne_none_iff, hentry, update_self]
    simp
  have hmemx : ((r.alloc new ⟨0, h, cb⟩).setNode new (xs.headD 0)).mem x ≠ none := by
    rw [mem_ne_none_iff, entry_setNode, hentry, update_of_ne hxn]
    exact (hN.mem_iff x).mpr mem_cons_self
  refine hN.insert hm hh hnotin (by rw [entry_setNode, entry_setNode, hentry]) ?_ fun y => ?_
  · rw [cells_setNode hx0 hmemx, cells_setNode hnew hmemnew]
    refine ⟨?_, hx0, hxs.push ?_ (update_self ..) hnew fun y hy => ?_⟩
    · rw [update_of_ne hx0.symm, update_of_ne hnew.symm, cells_zero]
      exact congrArg some hN.list_eq
    · rw [update_of_ne hxn.symm, update_self, hxs.head]
    · have hyx : y ≠ x := fun he => (nodup_cons.mp hN.chain.nodup).1 (he ▸ hy)
      have hyn : y ≠ new := fun he => hnotin (he ▸ mem_cons_of_mem _ hy)
      have hy0 : y ≠ 0 := hxs.ne_zero hy
      rw [update_of_ne hyx, update_of_ne hyn, cells_of_ne hy0, next_alloc hyn, cells_of_ne hy0]
  · simp only [mem_cons]
    tauto

variable (hS : r.Sound m ns)
include hS

/-- `malloc` may return the node that the same call has just freed. -/
theorem Sound.regist (cb : Nat) (hh : h ≠ 0) (hnew : new ≠ 0) (hfresh : ∀ g x, r.entry new = some (g, x) → g = h) :
    ∃ r' ns', r.regist h cb new = .ok (true, r') ∧ r'.Sound (update m h (some cb)) ns' := by
  obtain ⟨r1, ns1, hun, hS1, hsub⟩ := hS.unregist h
  have hm1 : update m h none h = none := update_self ..
  have hnotin1 : new ∉ ns1 := by
    intro hin
    obtain ⟨⟨g, x⟩, he⟩ := ne_none_iff_exists'.mp ((hS1.mem_iff new).mpr hin)
    rw [hfresh g x (hsub new (g, x) he)] at he
    exact hS1.entry_ne hm1 he
  have hmap : update (update m h none) h (some cb) = update m h (some cb) := update_idem ..
  -- the cache never holds the head that is registered
  have hused : r1.usedHead ≠ 0 → update m h (some cb) r1.usedHead = some r1.usedCb := by
    intro hu
    have hold := hS1.used hu
    have hne : r1.usedHead ≠ h := by
      intro he
      rw [he, hm1] at hold
      simp at hold
    rw [update_of_ne hne] at hold ⊢
    exact hold
  have hentry2 := @entry_alloc r1 new ⟨0, h, cb⟩
  have hlist2 : (r1.alloc new ⟨0, h, cb⟩).list = r1.list := rfl
  simp only [Registry.regist, hun, bind, Except.bind, pure, Except.pure, hlist2, if_neg hnew]
  by_cases hlist : r1.list = 0
  · obtain rfl := hS1.list_eq_zero_iff.mp hlist
    rw [if_pos hlist]
    refine ⟨_, [new], rfl, ?_, hused⟩
    rw [← hmap]
    refine hS1.insert hm1 hh hnotin1 hentry2 ⟨cells_zero, hnew, ?_⟩ fun x => by simp
    rw [Chain, cells_of_ne hnew, next, alloc]
    simp
  obtain ⟨x, xs, rfl⟩ := exists_cons_of_ne_nil (mt hS1.list_eq_zero_iff.mpr hlist)
  obtain ⟨hx, hx0, hxs⟩ := hS1.chain
  have hlistx : r1.list = x := hS1.list_eq
  have hxn : x ≠ new := fun he => hnotin1 (he ▸ mem_cons_self ..)
  have hbehind : (r1.alloc new ⟨0, h, cb⟩).next r1.list = some (xs.headD 0) := by
    rw [hlistx, next_alloc hxn, ← cells_of_ne hx0]
    exact hxs.head
  rw [if_neg hlist]
  simp only [hbehind, deref]
  refine ⟨_, x :: new :: xs, rfl, ?_, hused⟩
  rw [← hmap, hlistx]
  exact hS1.link_second hm1 hh hnew hnotin1

theorem Sound.used_ne (hh : h ≠ 0) (hm : m h = none) : h ≠ r.usedHead := by
  rintro rfl
  exact some_ne_none _ ((hS.used hh).symm.trans hm)

theorem Sound.check (hh : h ≠ 0) : r.check h = .ok (m h).isSome := by
  rcases hS.lookup h with ⟨hm, hfound⟩ | ⟨cb, a, hm, hfound, -, ha0, hlist⟩
  · rw [hm, Registry.check, if_neg (hS.used_ne hh hm), hfound]
    split <;> rfl
  · simp [Registry.check, hlist, hm, hfound, ha0, bind, Except.bind, pure, Except.pure]

theorem Sound.get (hh : h ≠ 0) :
    match m h with
    | none => r.get h = .error .abort
    | some cb => ∃ r', r.get h = .ok (cb, r') ∧ r'.Sound m ns ∧ ∀ x e, r'.entry x = some e → r.entry x = some e := by
  rcases hS.lookup h with ⟨hm, hfound⟩ | ⟨cb, a, hm, hfound, ha, ha0, hlist⟩
  · simp only [hm]
    rw [Registry.get, if_neg (hS.used_ne hh hm), hfound]
    split <;> rfl
  rw [hm, Registry.get, if_neg hlist]
  by_cases hu : h = r.usedHead
  · rw [if_pos hu, some.inj ((hS.used (hu ▸ hh)).symm.trans (hu ▸ hm))]
    exact ⟨r, rfl, hS, fun _ _ he => he⟩
  rw [if_neg hu]
  obtain ⟨c, hc, he⟩ := map_eq_some_iff.mp ha
  obtain ⟨hch, hcc⟩ := Prod.mk.inj he
  refine ⟨{ r with usedHead := h, usedCb := cb }, ?_, ⟨hS.setUsed h cb, fun _ => hm⟩, fun _ _ he => he⟩
  simp [hfound, ha0, hc, deref, hch, hcc, bind, Except.bind, pure, Except.pure]

end Nodes
end Registry

/-! ## §5 Both registries -/

inductive Kind where
  | delete
  | matching
deriving DecidableEq, Repr

/-- `delete_call_back_list` and `used_del_cb`, `match_call_back_list` and
`used_match_cb`. -/
abbrev CallBacks := Kind → Registry

namespace CallBacks

def empty : CallBacks := fun _ => .empty

section
variable (k : Kind) (s : CallBacks) (regListH : Nat)

def regist (regListH cb new : Nat) : Except Stop (Bool × CallBacks) := do
  let (b, r) ← (s k).regist regListH cb new
  return (b, update s k r)

def unregist : Except Stop (Bool × CallBacks) := do
  let (b, r) ← (s k).unregist regListH
  return (b, update s k r)

def checkState : Except Stop Bool := (s k).check regListH

def get : Except Stop (Nat × CallBacks) := do
  let (cb, r) ← (s k).get regListH
  return (cb, update s k r)

end
end CallBacks

def registDeleteCallBack := CallBacks.regist .delete
def unregistDeleteCallBack := CallBacks.unregist .delete
def checkDeleteRegistState := CallBacks.checkState .delete
def getDeleteCallBack := CallBacks.get .delete
def registMatchCallBack := CallBacks.regist .matching
def unregistMatchCallBack := CallBacks.unregist .matching
def checkMatchRegistState := CallBacks.checkState .matching
def getMatchCallBack := CallBacks.get .matching

/-- A call of one of the functions; `new` is what `malloc` returns in it. -/
inductive RegCall where
  | regist (k : Kind) (head cb new : Nat)
  | unregist (k : Kind) (head : Nat)
  | check (k : Kind) (head : Nat)
  | get (k : Kind) (head : Nat)

def RegCall.head : RegCall → Nat
  | .regist _ h _ _ => h
  | .unregist _ h => h
  | .check _ h => h
  | .get _ h => h

inductive Answer where
  | bool (b : Bool)
  | callBack (cb : Nat)
  | stopped (e : Stop)
deriving DecidableEq, Repr

/-- One call. -/
def CallBacks.exec (s : CallBacks) : RegCall → Except Stop (Answer × CallBacks)
  | .regist k h cb new => do
      let (b, s) ← s.regist k h cb new
      return (.bool b, s)
  | .unregist k h => do
      let (b, s) ← s.unregist k h
      return (.bool b, s)
  | .check k h => do
      let b ← s.checkState k h
      return (.bool b, s)
  | .get k h => do
      let (cb, s) ← s.get k h
      return (.callBack cb, s)

/-- The callback that was registered last and not unregistered, for each kind
and head. -/
abbrev CallBackMap := Kind → Nat → Option Nat

def CallBackMap.set (m : CallBackMap) (k : Kind) (h : Nat) (cb : Option Nat) : CallBackMap :=
  update m k (update (m k) h cb)

def CallBackMap.exec (m : CallBackMap) : RegCall → Except Stop (Answer × CallBackMap)
  | .regist k h cb _ => .ok (.bool true, m.set k h (some cb))
  | .unregist k h => .ok (.bool (m k h).isSome, m.set k h none)
  | .check k h => .ok (.bool (m k h).isSome, m)
  | .get k h => match m k h with
    | none => .error .abort
    | some cb => .ok (.callBack cb, m)

/-- Calls one after the other, until one stops the program. -/
def runCalls {σ : Type} (exec : σ → RegCall → Except Stop (Answer × σ)) : σ → List RegCall → List Answer × σ
  | s, [] => ([], s)
  | s, c :: cs => match exec s c with
    | .error e => ([.stopped e], s)
    | .ok (a, s) => (a :: (runCalls exec s cs).1, (runCalls exec s cs).2)

/-- `malloc` returns memory in which no node of the registry is, other than the
one that the same call has freed. -/
def RegCall.Allocates (s : CallBacks) : RegCall → Prop
  | .regist k h _ new => new ≠ 0 ∧ ∀ c, (s k).mem new = some c → c.listHeadAddr = h
  | _ => True

def Allocates : CallBacks → List RegCall → Prop
  | _, [] => True
  | s, c :: cs => c.Allocates s ∧ ∀ a s', s.exec c = .ok (a, s') → Allocates s' cs

def CallBacks.Sound (s : CallBacks) (m : CallBackMap) : Prop := ∀ k, ∃ ns, (s k).Sound (m k) ns

/-- Every node of `s` was there in `t`. -/
def CallBacks.Within (s t : CallBacks) : Prop := ∀ k x e, (s k).entry x = some e → (t k).entry x = some e

section Refines
variable {s : CallBacks} {m : CallBackMap} {k : Kind} {r : Registry} {h new : Nat}

theorem CallBacks.within_update (hsub : ∀ x e, r.entry x = some e → (s k).entry x = some e) :
    CallBacks.Within (update s k r) s := by
  intro j x e he
  rw [update_apply] at he
  split at he
  · rename_i hj
    rw [hj]
    exact hsub x e he
  · exact he

section
variable (hS : s.Sound m)
include hS

theorem CallBacks.Sound.update {f : Nat → Option Nat} {ns : List Nat} (hr : r.Sound f ns) :
    CallBacks.Sound (update s k r) (update m k f) := by
  intro j
  rw [update_apply, update_apply]
  split
  · exact ⟨ns, hr⟩
  · exact hS j

theorem CallBacks.Sound.regist (cb : Nat) (hh : h ≠ 0)
    (hnew : new ≠ 0) (hfresh : ∀ g x, (s k).entry new = some (g, x) → g = h) :
    ∃ s', s.regist k h cb new = .ok (true, s') ∧ s'.Sound (m.set k h (some cb)) ∧ ∀ j, j ≠ k → s' j = s j := by
  obtain ⟨ns, hk⟩ := hS k
  obtain ⟨r, ns', hrun, hr⟩ := hk.regist cb hh hnew hfresh
  refine ⟨Function.update s k r, ?_, hS.update hr, fun j hj => update_of_ne hj r s⟩
  rw [CallBacks.regist, hrun]
  rfl

theorem CallBacks.Sound.unregist (k : Kind) (h : Nat) :
    ∃ s', s.unregist k h = .ok ((m k h).isSome, s') ∧ s'.Sound (m.set k h none) ∧ s'.Within s := by
  obtain ⟨ns, hk⟩ := hS k
  obtain ⟨r, ns', hrun, hr, hsub⟩ := hk.unregist h
  refine ⟨Function.update s k r, ?_, hS.update hr, within_update hsub⟩
  rw [CallBacks.unregist, hrun]
  rfl

theorem CallBacks.Sound.checkState (k : Kind) (hh : h ≠ 0) : s.checkState k h = .ok (m k h).isSome := by
  obtain ⟨ns, hk⟩ := hS k
  exact hk.check hh

theorem CallBacks.Sound.get (k : Kind) (hh : h ≠ 0) :
    match m k h with
    | none => s.get k h = .error .abort
    | some cb => ∃ s', s.get k h = .ok (cb, s') ∧ s'.Sound m ∧ s'.Within s := by
  obtain ⟨ns, hk⟩ := hS k
  have hget := hk.get hh
  rw [CallBacks.get]
  cases hm : m k h with rw [hm] at hget
  | none =>
    rw [hget]
    rfl
  | some cb =>
    obtain ⟨r, hrun, hr, hsub⟩ := hget
    have hS' := hS.update (k := k) hr
    rw [update_eq_self] at hS'
    refine ⟨Function.update s k r, ?_, hS', within_update hsub⟩
    rw [hrun]
    rfl

end

theorem RegCall.Allocates.entry {cb : Nat} (hmalloc : (RegCall.regist k h cb new).Allocates s) {g x : Nat}
    (he : (s k).entry new = some (g, x)) : g = h := by
  obtain ⟨c, hc, hgx⟩ := map_eq_some_iff.mp he
  rw [← (Prod.mk.inj hgx).1]
  exact hmalloc.2 c hc

/-- One call does what the map does. -/
theorem CallBacks.Sound.exec (hS : s.Sound m) {c : RegCall} (hhead : c.head ≠ 0)
    (hmalloc : c.Allocates s) :
    match m.exec c with
    | .error e => s.exec c = .error e
    | .ok (a, m') => ∃ s', s.exec c = .ok (a, s') ∧ s'.Sound m' := by
  cases c with
  | regist k h cb new =>
    obtain ⟨s', hrun, hS', -⟩ := hS.regist cb hhead hmalloc.1 fun g x => hmalloc.entry
    refine ⟨s', ?_, hS'⟩
    change s.regist k h cb new = _ at hrun
    rw [CallBacks.exec, hrun]
    rfl
  | unregist k h =>
    obtain ⟨s', hrun, hS', -⟩ := hS.unregist k h
    refine ⟨s', ?_, hS'⟩
    rw [CallBacks.exec, hrun]
    rfl
  | check k h =>
    refine ⟨s, ?_, hS⟩
    have hrun : s.checkState k h = _ := hS.checkState k hhead
    rw [CallBacks.exec, hrun]
    rfl
  | get k h =>
    have hget := hS.get k (h := h) hhead
    rw [CallBackMap.exec, CallBacks.exec]
    cases hm : m k h with rw [hm] at hget
    | none =>
      rw [hget]
      rfl
    | some cb =>
      obtain ⟨s', hrun, hS', -⟩ := hget
      refine ⟨s', ?_, hS'⟩
      rw [hrun]
      rfl

theorem CallBacks.Sound.runCalls {calls : List RegCall} (hS : s.Sound m)
    (hheads : ∀ c ∈ calls, c.head ≠ 0) (hmalloc : Allocates s calls) :
    (runCalls CallBacks.exec s calls).1 = (runCalls CallBackMap.exec m calls).1 ∧
      (runCalls CallBacks.exec s calls).2.Sound (runCalls CallBackMap.exec m calls).2 := by
  induction calls generalizing s m with
  | nil => exact ⟨rfl, hS⟩
  | cons c calls ih =>
    obtain ⟨hc, hrest⟩ := hmalloc
    have hstep := hS.exec (hheads c mem_cons_self) hc
    rw [WebServer.runCalls, WebServer.runCalls]
    cases hm : m.exec c with
    | error e =>
      rw [hm] at hstep
      rw [hstep]
      exact ⟨rfl, hS⟩
    | ok am =>
      obtain ⟨a, m'⟩ := am
      rw [hm] at hstep
      obtain ⟨s', hrun, hS'⟩ := hstep
      have hnext := ih hS' (forall_mem_cons.mp hheads).2 (hrest a s' hrun)
      rw [hrun]
      exact ⟨congrArg (a :: ·) hnext.1, hnext.2⟩

theorem CallBacks.sound_empty : CallBacks.empty.Sound fun _ _ => none := fun _ => ⟨[], Registry.sound_empty⟩

/-- The calls answer what the map answers. After them there is one node for each
head the map knows and no other node, and a cached callback is the map's. -/
theorem registry_refines_map {calls : List RegCall} (hheads : ∀ c ∈ calls, c.head ≠ 0)
    (hmalloc : Allocates .empty calls) :
    let run := runCalls CallBacks.exec .empty calls
    let spec := runCalls CallBackMap.exec (fun _ _ => none) calls
    run.1 = spec.1 ∧ ∀ k, (∀ h cb, spec.2 k h = some cb ↔ ∃ a, (run.2 k).entry a = some (h, cb)) ∧
      (∀ a b h x y, (run.2 k).entry a = some (h, x) → (run.2 k).entry b = some (h, y) → a = b) ∧
      ((run.2 k).usedHead ≠ 0 → spec.2 k (run.2 k).usedHead = some (run.2 k).usedCb) := by
  obtain ⟨hanswers, hS⟩ := CallBacks.sound_empty.runCalls hheads hmalloc
  refine ⟨hanswers, fun k => ?_⟩
  obtain ⟨ns, hk⟩ := hS k
  exact ⟨fun h cb => hk.map_iff, fun a b h x y => hk.inj, hk.used⟩

/-- A callback that is cached is not found once it is unregistered. -/
theorem registry_refines_map_unregist :
    (runCalls CallBacks.exec .empty [.regist .delete 5 7 100, .get .delete 5, .check .delete 5,
      .unregist .delete 5, .check .delete 5, .get .delete 5]).1 =
      [.bool true, .callBack 7, .bool true, .bool true, .bool false, .stopped .abort] := by
  have hmalloc : Allocates .empty [.regist .delete 5 7 100, .get .delete 5, .check .delete 5,
      .unregist .delete 5, .check .delete 5, .get .delete 5] := by
    refine ⟨⟨by decide, fun c hc => absurd hc (some_ne_none c).symm⟩, ?_⟩
    simp [Allocates, RegCall.Allocates]
  exact (registry_refines_map (by decide) hmalloc).1.trans (by decide)

end Refines
end GokuStudio.WebServer

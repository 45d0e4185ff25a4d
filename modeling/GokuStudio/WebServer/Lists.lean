import Mathlib.Data.List.TakeWhile
import GokuStudio.WebServer.Registry

/-!
# The list macros (`list_ex_single.h`)

The user's lists are kept by their head variables, and the callbacks of a list
are registered under the address of its first node. So each macro that changes
the head has to move two registrations.

A `Picture` says what the lists are: for each list its nodes and its callbacks.
`Shows` connects it with the memory and the registries. This module has the macros,
and what becomes of `Shows` when the links or the registrations of one list change.
-/

namespace GokuStudio.WebServer

open Lib List Option
open Function (exists_update_iff forall_update_iff update update_apply update_eq_self update_idem update_of_ne update_self)

/-! ## §1 The macros -/

/-- The head variables of the lists, the field `node` of each node there is, the
registries, and the calls of delete callbacks, each with the node handed over. -/
structure ListMem where
  heads : Nat → Nat
  node : Nat → Option Nat
  cbs : CallBacks
  handed : List (Nat × Nat)

/-- `if(check(head)) { cb = get(head); unregist(head); }` -/
def CallBacks.take (k : Kind) (s : CallBacks) (head : Nat) : Except Stop (Nat × CallBacks) := do
  if ← s.checkState k head then
    let (cb, s) ← s.get k head
    let (_, s) ← s.unregist k head
    return (cb, s)
  return (0, s)

/-- `if(NULL != cb) regist(head, cb);` -/
def CallBacks.put (k : Kind) (s : CallBacks) (head cb new : Nat) : Except Stop CallBacks := do
  if cb ≠ 0 then
    let (_, s) ← s.regist k head cb new
    return s
  return s

namespace ListMem

section
variable (s : ListMem)

/-- The user's program has a node at `a`, with `v` in its field `node`. -/
def alloc (a v : Nat) : ListMem :=
  { s with node := update s.node a (some v) }

/-- `a->node = v` -/
def setNode (a v : Nat) : Except Stop ListMem :=
  match s.node a with
  | none => .error .undefined
  | some _ => .ok (s.alloc a v)

def setHead (i v : Nat) : ListMem :=
  { s with heads := update s.heads i v }

/-- The delete callback `cb` is called for the node `a`, which is gone then. -/
def handOver (cb a : Nat) : Except Stop ListMem :=
  if cb = 0 then .error .undefined
  else .ok { s with node := update s.node a none, handed := s.handed ++ [(cb, a)] }

/-- `mallocs` are the addresses that the `regist` functions get. -/
def slInsertHeadAbsolute (i new : Nat) (mallocs : Kind → Nat) : Except Stop ListMem := do
  let head := s.heads i
  let (usrDelete, cbs) ← s.cbs.take .delete head
  let (usrMatch, cbs) ← cbs.take .matching head
  let s ← s.setNode new head
  let s := s.setHead i new
  let cbs ← cbs.put .delete new usrDelete (mallocs .delete)
  let cbs ← cbs.put .matching new usrMatch (mallocs .matching)
  return { s with cbs := cbs }

def slInsertHeadRelative (i current new : Nat) (mallocs : Kind → Nat) : Except Stop ListMem :=
  if s.heads i = current then s.slInsertHeadAbsolute i new mallocs
  else do
    let temp ← deref (seek s.node (fun q => q == 0 || q == current) (s.heads i))
    let ahead ← deref (s.node temp)
    if ahead = current then
      let s ← s.setNode temp new
      s.setNode new current
    else return s

def slInsertTailRelative (head new : Nat) : Except Stop ListMem := do
  let behind ← deref (s.node head)
  let s ← s.setNode new behind
  s.setNode head new

def slNodeInsertTailAbsolute (i new : Nat) : Except Stop ListMem := do
  let temp ← deref (seek s.node (fun q => q == 0) (s.heads i))
  s.setNode temp new

def slDelete (i delNode : Nat) (mallocs : Kind → Nat) : Except Stop ListMem :=
  let head := s.heads i
  if head = delNode then do
    let (usrDelete, cbs) ← s.cbs.get .delete head
    let (_, cbs) ← cbs.unregist .delete head
    let (usrMatch, cbs) ← cbs.take .matching head
    let behind ← deref (s.node head)
    let s ← ({ s with cbs := cbs }.setHead i behind).handOver usrDelete head
    if behind ≠ 0 then
      let (_, cbs) ← s.cbs.regist .delete behind usrDelete (mallocs .delete)
      let cbs ← cbs.put .matching behind usrMatch (mallocs .matching)
      return { s with cbs := cbs }
    else return s
  else do
    let slHead ← deref (seek s.node (fun q => q == 0 || q == delNode) head)
    let ahead ← deref (s.node slHead)
    if ahead = delNode then
      let behind ← deref (s.node delNode)
      let s ← s.setNode slHead behind
      let (cb, cbs) ← s.cbs.get .delete head
      { s with cbs := cbs }.handOver cb delNode
    else return s

/-- One turn of the loop of `sl_destroy`. -/
def slDestroyTurn (i : Nat) (mallocs : Kind → Nat) (s : ListMem) (tmp : Nat) : Except Stop (ListMem × Nat) := do
  if tmp ≠ 0 then
    let s ← s.slDelete i tmp mallocs
    let tmp ← deref (s.node (s.heads i))
    return (s, tmp)
  else
    let s ← s.slDelete i (s.heads i) mallocs
    return (s, tmp)

/-- The loop of `sl_destroy`. -/
def slDestroyLoop (i : Nat) (mallocs : Kind → Nat) (s : ListMem) (tmp : Nat) : Option (Except Stop ListMem) := loop
    (fun c : ListMem × Nat =>
      if c.1.heads i = 0 then some (.inr (.ok c.1))
      else
        match slDestroyTurn i mallocs c.1 c.2 with
        | .ok c => some (.inl c)
        | .error e => some (.inr (.error e)))
    (s, tmp)

def slDestroy (i : Nat) (mallocs : Kind → Nat) : Except Stop ListMem := do
  let tmp ← deref (s.node (s.heads i))
  (slDestroyLoop i mallocs s tmp).getD (.error .undefined)

end
end ListMem

/-! ## §2 What the lists are -/

/-- The nodes of a list, and the callbacks that are registered for it. -/
structure Content where
  nodes : List Nat
  cb : Kind → Option Nat

abbrev Picture := Nat → Content
def Picture.setNodes (p : Picture) (i : Nat) (ns : List Nat) : Picture := update p i { p i with nodes := ns }

/-- The callbacks are registered under the first nodes of the lists, and under no
other address. -/
def Picture.Registered (p : Picture) (m : CallBackMap) : Prop :=
  ∀ k h cb, m k h = some cb ↔ ∃ i, (p i).nodes.head? = some h ∧ (p i).cb k = some cb

/-- The pointer cells of a list; the head variable is cell 0. -/
def ListMem.cells (s : ListMem) (i a : Nat) : Option Nat :=
  if a = 0 then some (s.heads i) else s.node a

/-- Memory and registries are as the picture says. -/
structure ListMem.Shows (s : ListMem) (p : Picture) : Prop where
  chain : ∀ i, Chain (s.cells i) 0 (p i).nodes
  disjoint : ∀ i j a, a ∈ (p i).nodes → a ∈ (p j).nodes → i = j
  delete : ∀ i, (p i).nodes ≠ [] → ∃ cb, (p i).cb .delete = some cb
  nonNull : ∀ i k, (p i).cb k ≠ some 0
  registered : ∃ m, s.cbs.Sound m ∧ p.Registered m

/-! ### The callbacks, when the first node changes -/

variable {a x j : Nat}

section Registered
variable {p : Picture} {m : CallBackMap} {i old new : Nat} {ns : List Nat} {k : Kind}

theorem Picture.setNodes_self : (p.setNodes i ns) i = { p i with nodes := ns } := update_self ..
theorem Picture.setNodes_of_ne (hj : j ≠ i) : (p.setNodes i ns) j = p j := update_of_ne hj ..
theorem Picture.setNodes_nodes : p.setNodes i (p i).nodes = p := update_eq_self ..

theorem Picture.setNodes_setNodes {ns' : List Nat} : (p.setNodes i ns).setNodes i ns' = p.setNodes i ns' := by
  rw [Picture.setNodes, Picture.setNodes_self, Picture.setNodes, update_idem]
  rfl

theorem Picture.exists_setNodes {h cb : Nat} :
    (∃ j, ((p.setNodes i ns) j).nodes.head? = some h ∧ ((p.setNodes i ns) j).cb k = some cb) ↔
      (ns.head? = some h ∧ (p i).cb k = some cb) ∨ ∃ j, j ≠ i ∧ (p j).nodes.head? = some h ∧ (p j).cb k = some cb :=
  exists_update_iff p fun _ c => c.nodes.head? = some h ∧ c.cb k = some cb

theorem Picture.Registered.eq_none (hR : p.Registered m) (ha : ∀ j, (p j).nodes.head? ≠ some a) : m k a = none := by
  cases hm : m k a with
  | none => rfl
  | some cb =>
    obtain ⟨j, hj, -⟩ := (hR k a cb).mp hm
    exact absurd hj (ha j)

/-- The old head is not registered any more. -/
theorem Picture.Registered.unhead (hR : p.Registered m) (hold : (p i).nodes.head? = some old)
    (hother : ∀ j, j ≠ i → (p j).nodes.head? ≠ some old) :
    (p.setNodes i []).Registered fun k => update (m k) old none := by
  intro k h cb
  dsimp only
  rw [Picture.exists_setNodes, update_apply]
  split
  · rename_i hh
    refine iff_of_false (by simp) ?_
    rintro (⟨hnil, -⟩ | ⟨j, hj, hhead, -⟩)
    · simp at hnil
    · exact hother j hj (hh ▸ hhead)
  rename_i hh
  rw [hR]
  constructor
  · rintro ⟨j, hhead, hcb⟩
    refine .inr ⟨j, ?_, hhead, hcb⟩
    rintro rfl
    exact hh (mem_unique hhead hold)
  · rintro (⟨hnil, -⟩ | ⟨j, -, hj⟩)
    · simp at hnil
    · exact ⟨j, hj⟩

/-- The callbacks are registered under the new head. -/
theorem Picture.Registered.rehead (hR : (p.setNodes i []).Registered m)
    (hns : ns.head? = some new) (hother : ∀ j, j ≠ i → (p j).nodes.head? ≠ some new) :
    (p.setNodes i ns).Registered fun k => update (m k) new ((p i).cb k) := by
  intro k h cb
  have hold := hR k h cb
  dsimp only
  rw [Picture.exists_setNodes] at hold ⊢
  rw [update_apply]
  split
  · rename_i hh
    constructor
    · exact fun hcb => .inl ⟨hns.trans (congrArg some hh.symm), hcb⟩
    · rintro (⟨-, hcb⟩ | ⟨j, hj, hhead, -⟩)
      · exact hcb
      · exact absurd (hh ▸ hhead) (hother j hj)
  rename_i hh
  rw [hold]
  constructor
  · rintro (⟨hnil, -⟩ | hj)
    · simp at hnil
    · exact .inr hj
  · rintro (⟨hhead, -⟩ | hj)
    · exact absurd (mem_unique hns hhead).symm hh
    · exact .inr hj

theorem Picture.Registered.sameHead (hR : p.Registered m)
    (hns : ns.head? = (p i).nodes.head?) : (p.setNodes i ns).Registered m := by
  intro k h cb
  have hself := @exists_setNodes p i (p i).nodes k h cb
  rw [setNodes_nodes, ← hns, ← exists_setNodes] at hself
  exact (hR k h cb).trans hself

end Registered

/-! ## §3 Moving the callbacks -/

variable {t : CallBacks}

section Move
variable {s : CallBacks} {m : CallBackMap} {k : Kind} {h old new : Nat} {cb : Option Nat}

theorem CallBacks.Within.trans {s u : CallBacks} (h : s.Within t) (h' : t.Within u) : s.Within u :=
  fun k x e he => h' k x e (h k x e he)

theorem CallBackMap.set_self : (m.set k h cb) k = update (m k) h cb := update_self ..
theorem CallBackMap.set_of_ne {j : Kind} (hj : j ≠ k) : (m.set k h cb) j = m j := update_of_ne hj ..

theorem CallBackMap.set_none (hm : m k h = none) : m.set k h none = m := by
  rw [set, ← hm, update_eq_self, update_eq_self]

theorem CallBackMap.set_both (f : Kind → Option Nat) : (m.set .delete h (f .delete)).set .matching h (f .matching) =
      fun k => update (m k) h (f k) := by
  funext k
  cases k with
  | delete => rw [set_of_ne (by simp), set_self]
  | matching => rw [set_self, set_of_ne (by simp)]

section
variable (hS : s.Sound m)
include hS

/-- `get` and then `unregist`. -/
theorem CallBacks.Sound.get_unregist (hh : h ≠ 0) {cb : Nat} (hm : m k h = some cb) :
    ∃ s1 s2, s.get k h = .ok (cb, s1) ∧ s1.unregist k h = .ok (true, s2) ∧ s2.Sound (m.set k h none) ∧ s2.Within s := by
  have hget := hS.get k hh
  rw [hm] at hget
  obtain ⟨s1, hrun1, hS1, hw1⟩ := hget
  obtain ⟨s2, hrun2, hS2, hw2⟩ := hS1.unregist k h
  rw [hm] at hrun2
  exact ⟨s1, s2, hrun1, hrun2, hS2, hw2.trans hw1⟩

theorem CallBacks.Sound.take (k : Kind) (hh : h ≠ 0) :
    ∃ s', s.take k h = .ok ((m k h).getD 0, s') ∧ s'.Sound (m.set k h none) ∧ s'.Within s := by
  rw [CallBacks.take, hS.checkState k hh]
  cases hm : m k h with
  | none =>
    refine ⟨s, rfl, ?_, fun _ _ _ he => he⟩
    rwa [CallBackMap.set_none hm]
  | some cb =>
    obtain ⟨s1, s2, hget, hun, hS2, hw⟩ := hS.get_unregist hh hm
    refine ⟨s2, ?_, hS2, hw⟩
    simp [hget, hun, bind, Except.bind, pure, Except.pure]

theorem CallBacks.Sound.put (hh : h ≠ 0) (hm : m k h = none)
    (hcb : cb ≠ some 0) (hnew : new ≠ 0) (hfresh : ∀ g x, (s k).entry new = some (g, x) → g = h) :
    ∃ s', s.put k h (cb.getD 0) new = .ok s' ∧ s'.Sound (m.set k h cb) ∧ ∀ j, j ≠ k → s' j = s j := by
  rw [CallBacks.put]
  cases cb with
  | none =>
    refine ⟨s, rfl, ?_, fun _ _ => rfl⟩
    rwa [CallBackMap.set_none hm]
  | some cb =>
    obtain ⟨s', hrun, hS', hother⟩ := hS.regist cb hh hnew hfresh
    refine ⟨s', ?_, hS', hother⟩
    have hcb0 : cb ≠ 0 := fun he => hcb (congrArg some he)
    simp [hcb0, hrun, bind, Except.bind, pure, Except.pure]

/-- No node is for a head that is not registered. -/
theorem CallBacks.Sound.entry_ne (hm : m k h = none) : (s k).entry a ≠ some (h, x) := by
  obtain ⟨ns, hk⟩ := hS k
  exact hk.entry_ne hm

/-- What `malloc` returns is free, once the nodes for the old head are. -/
theorem CallBacks.Sound.fresh (hw : s.Within t)
    (hm : m k old = none) (hfree : ∀ c, (t k).mem new = some c → c.listHeadAddr = old) {g : Nat} :
    (s k).entry new ≠ some (g, x) := by
  intro he
  obtain ⟨c, hc, hgx⟩ := map_eq_some_iff.mp (hw k new _ he)
  rw [← (Prod.mk.inj hgx).1, hfree c hc] at he
  exact hS.entry_ne hm he

end

/-- Both callbacks of a head, with the delete callback known to be there. -/
theorem CallBacks.Sound.take_matching (hS : s.Sound (m.set .delete h none))
    (hw : s.Within t) (hh : h ≠ 0) :
    ∃ s', s.take .matching h = .ok ((m .matching h).getD 0, s') ∧
      s'.Sound (fun k => Function.update (m k) h none) ∧ s'.Within t := by
  obtain ⟨s', hrun, hS', hw'⟩ := hS.take .matching hh
  rw [CallBackMap.set_of_ne (by simp)] at hrun
  rw [CallBackMap.set_both fun _ => none] at hS'
  exact ⟨s', hrun, hS', hw'.trans hw⟩

/-- Both callbacks are registered under a head that is new. -/
theorem CallBacks.Sound.put_both {mallocs : Kind → Nat} {f : Kind → Option Nat}
    (hS : s.Sound m) (hw : s.Within t) (hold : ∀ k, m k old = none) (hnew : ∀ k, m k new = none)
    (hnew0 : new ≠ 0) (hf : ∀ k, f k ≠ some 0) (hmalloc : ∀ k, mallocs k ≠ 0 ∧
      ∀ c, (t k).mem (mallocs k) = some c → c.listHeadAddr = old) :
    ∃ s1 s2, s.put .delete new ((f .delete).getD 0) (mallocs .delete) = .ok s1 ∧
      s1.put .matching new ((f .matching).getD 0) (mallocs .matching) = .ok s2 ∧
      s2.Sound (fun k => Function.update (m k) new (f k)) := by
  obtain ⟨s1, hrun1, hS1, hother⟩ := hS.put hnew0 (hnew .delete) (hf .delete) (hmalloc .delete).1
    fun _ _ he => absurd he (hS.fresh hw (hold .delete) (hmalloc .delete).2)
  have hm1 : (m.set .delete new (f .delete)) .matching new = none := by
    rw [CallBackMap.set_of_ne (by simp)]
    exact hnew .matching
  have hfresh1 : ∀ g x, (s1 .matching).entry (mallocs .matching) = some (g, x) → g = new := by
    intro g x he
    rw [hother .matching (by simp)] at he
    exact absurd he (hS.fresh hw (hold .matching) (hmalloc .matching).2)
  obtain ⟨s2, hrun2, hS2, -⟩ := hS1.put hnew0 hm1 (hf .matching) (hmalloc .matching).1 hfresh1
  rw [CallBackMap.set_both f] at hS2
  exact ⟨s1, s2, hrun1, hrun2, hS2⟩

theorem CallBacks.put_eq {cb : Nat} (hcb : cb ≠ 0) {s' : CallBacks}
    (hput : s.put k h cb new = .ok s') : ∃ b, s.regist k h cb new = .ok (b, s') := by
  rw [CallBacks.put, if_pos hcb] at hput
  cases hreg : s.regist k h cb new with
  | error e => simp [hreg, bind, Except.bind] at hput
  | ok bs =>
    obtain ⟨b, s1⟩ := bs
    simp only [hreg, bind, Except.bind, pure, Except.pure, Except.ok.injEq] at hput
    exact ⟨b, by rw [hput]⟩

end Move

/-! ## §4 Changing one list -/

namespace ListMem

section Change
variable {s s' : ListMem} {p : Picture} {i new v : Nat} {ns pre post xs : List Nat}

theorem cells_zero : s.cells i 0 = some (s.heads i) := if_pos rfl
theorem cells_of_ne (ha : a ≠ 0) : s.cells i a = s.node a := if_neg ha

theorem cells_congr (hhead : a = 0 → s'.heads i = s.heads i) (hnode : a ≠ 0 → s'.node a = s.node a) :
    s'.cells i a = s.cells i a := by
  rw [cells, cells]
  split
  case isTrue ha => rw [hhead ha]
  case isFalse ha => exact hnode ha

section
variable (h : s.Shows p)
include h

theorem Shows.heads_eq (i : Nat) : s.heads i = (p i).nodes.headD 0 := by
  have := (h.chain i).head
  rw [cells_zero] at this
  exact some.inj this

theorem Shows.chain_of (hns : (p i).nodes = ns) : Chain (s.cells i) 0 ns := hns ▸ h.chain i
theorem Shows.ne_zero (ha : a ∈ (p i).nodes) : a ≠ 0 := (h.chain i).ne_zero ha

theorem Shows.head_ne (ha : a ∈ (p i).nodes) (hj : j ≠ i) : (p j).nodes.head? ≠ some a :=
  fun he => hj (h.disjoint j i a (mem_of_mem_head? he) ha)

theorem Shows.callBack_eq {m : CallBackMap} (hR : p.Registered m)
    (ha : (p i).nodes.head? = some a) (k : Kind) : m k a = (p i).cb k := by
  refine ext fun cb => (hR k a cb).trans ⟨?_, fun hcb => ⟨i, ha, hcb⟩⟩
  rintro ⟨j, hj, hcb⟩
  rwa [← h.disjoint j i a (mem_of_mem_head? hj) (mem_of_mem_head? ha)]

/-- One list changes, in the cell `c` and at the node `d`, and the others are as before. -/
theorem Shows.change {c d : Nat} (hne : (p i).nodes ≠ []) (hchain : Chain (s'.cells i) 0 ns)
    (hns : ∀ a ∈ ns, a = d ∨ a ∈ (p i).nodes) (hd : ∀ j, j ≠ i → d ∉ (p j).nodes) (hc : c ∈ 0 :: (p i).nodes)
    (hheads : ∀ j, j ≠ i → s'.heads j = s.heads j) (hnode : ∀ a, a ≠ d → a ≠ c → s'.node a = s.node a)
    (hreg : ∃ m, s'.cbs.Sound m ∧ (p.setNodes i ns).Registered m) :
    s'.Shows (p.setNodes i ns) := by
  have hother : ∀ a ∈ ns, ∀ j, j ≠ i → a ∉ (p j).nodes := by
    intro a ha j hj haj
    rcases hns a ha with rfl | ha
    · exact hd j hj haj
    · exact hj (h.disjoint j i a haj ha)
  refine ⟨(forall_update_iff p fun j c => Chain (s'.cells j) 0 c.nodes).mpr ⟨hchain, fun j hj => ?_⟩,
    fun j k a hj hk => ?_,
    (forall_update_iff p fun _ c => c.nodes ≠ [] → ∃ cb, c.cb .delete = some cb).mpr
      ⟨fun _ => h.delete i hne, fun j _ => h.delete j⟩,
    (forall_update_iff p fun _ c => ∀ k, c.cb k ≠ some 0).mpr ⟨h.nonNull i, fun j _ => h.nonNull j⟩, hreg⟩
  · refine (h.chain j).congr fun a ha => cells_congr (fun _ => hheads j hj) fun ha0 => ?_
    have haj : a ∈ (p j).nodes := mem_of_ne_of_mem ha0 ha
    refine hnode a (fun he => hd j hj (he ▸ haj)) ?_
    rintro rfl
    exact hj (h.disjoint j i a haj (mem_of_ne_of_mem ha0 hc))
  · by_cases hji : j = i <;> by_cases hki : k = i
    · rw [hji, hki]
    · rw [hji, Picture.setNodes_self] at hj
      rw [Picture.setNodes_of_ne hki] at hk
      exact absurd hk (hother a hj k hki)
    · rw [hki, Picture.setNodes_self] at hk
      rw [Picture.setNodes_of_ne hji] at hj
      exact absurd hj (hother a hk j hji)
    · rw [Picture.setNodes_of_ne hji] at hj
      rw [Picture.setNodes_of_ne hki] at hk
      exact h.disjoint j k a hj hk

/-- The node is followed by what is behind it. -/
theorem Shows.node_eq {l : List Nat} {d : Nat} (hns : (p i).nodes = l ++ d :: post) : s.node d = some (post.headD 0) := by
  have hchain := h.chain_of hns
  rw [← cells_of_ne (hchain.ne_zero (by simp))]
  exact (chain_append.mp hchain).2.2.2.head

omit h in
theorem lastCell_mem_nodes (hns : (p i).nodes = x :: pre ++ post) : lastCell 0 (x :: pre) ∈ (p i).nodes := by
  rw [hns]
  exact mem_append_left _ (lastCell_mem x pre)

end

/-- The node is in no list. -/
def Free (p : Picture) (a : Nat) : Prop := a ≠ 0 ∧ ∀ j, a ∉ (p j).nodes

theorem Free.ne {b : Nat} (ha : Free p a) (hb : b ∈ (p i).nodes) : b ≠ a := fun he => ha.2 i (he ▸ hb)

theorem setNode_eq (ha : s.node a ≠ none) : s.setNode a v = .ok (s.alloc a v) := by
  obtain ⟨w, hw⟩ := ne_none_iff_exists'.mp ha
  rw [setNode, hw]

theorem alloc_self : (s.alloc new v).node new = some v := update_self ..
theorem alloc_ne_none : (s.alloc new v).node new ≠ none := by simp [alloc_self]
theorem alloc_of_ne (ha : a ≠ new) : (s.alloc new v).node a = s.node a := update_of_ne ha ..

variable (h : s.Shows p)
include h

/-- Linking a free node in: the cell before its place points to it. -/
theorem Shows.link (hns : (p i).nodes = pre ++ post) (hne : (p i).nodes ≠ []) (hfree : Free p new)
    (hnew : s'.node new = some (post.headD 0)) (hlast : s'.cells i (lastCell 0 pre) = some new)
    (hrest : ∀ a, a ≠ new → a ≠ lastCell 0 pre → s'.node a = s.node a)
    (hheads : ∀ j, j ≠ i ∨ lastCell 0 pre ≠ 0 → s'.heads j = s.heads j)
    (hreg : ∃ m, s'.cbs.Sound m ∧ (p.setNodes i (pre ++ new :: post)).Registered m) :
    s'.Shows (p.setNodes i (pre ++ new :: post)) := by
  have hchain := h.chain_of hns
  refine h.change hne (hchain.link (fun h0 => hchain.ne_zero h0 rfl) hfree.1 hlast ?_ fun a ha hal => ?_)
    (fun a ha => ?_) (fun j _ => hfree.2 j) ?_ (fun j hj => hheads j (.inl hj)) hrest hreg
  · rw [cells_of_ne hfree.1, hnew]
    exact ((chain_append.mp hchain).2.head).symm
  · exact cells_congr (fun ha0 => hheads i (.inr (ha0 ▸ hal.symm))) fun ha0 =>
      hrest a (hfree.ne (hns ▸ mem_of_ne_of_mem ha0 ha)) hal
  · rwa [perm_middle.mem_iff, mem_cons, ← hns] at ha
  · rw [hns, ← cons_append]
    exact mem_append_left _ (lastCell_mem 0 pre)

/-- Unlinking a node: the cell before it points behind it. -/
theorem Shows.unlink {d : Nat} (hns : (p i).nodes = pre ++ d :: post)
    (hlast : s'.cells i (lastCell 0 pre) = some (post.headD 0))
    (hrest : ∀ a, a ≠ d → a ≠ lastCell 0 pre → s'.node a = s.node a)
    (hheads : ∀ j, j ≠ i ∨ lastCell 0 pre ≠ 0 → s'.heads j = s.heads j)
    (hreg : ∃ m, s'.cbs.Sound m ∧ (p.setNodes i (pre ++ post)).Registered m) :
    s'.Shows (p.setNodes i (pre ++ post)) := by
  have hchain := h.chain_of hns
  have hsub : ∀ a ∈ pre ++ post, a ∈ (p i).nodes ∧ a ≠ d := by
    rw [hns]
    exact fun a => (mem_unlink_iff hchain.nodup a).mp
  have hd : d ∈ (p i).nodes := by
    rw [hns]
    simp
  refine h.change (ne_nil_of_mem hd) (hchain.unlink (fun h0 => hchain.ne_zero h0 rfl) ?_ fun a ha hal => ?_)
    (fun a ha => .inr (hsub a ha).1) (fun j hj hdj => hj (h.disjoint j i d hdj hd)) ?_
    (fun j hj => hheads j (.inl hj)) hrest hreg
  · rw [hlast]
    exact ((chain_append.mp hchain).2.2.2.head).symm
  · exact cells_congr (fun ha0 => hheads i (.inr (ha0 ▸ hal.symm))) fun ha0 =>
      hrest a (hsub a (mem_of_ne_of_mem ha0 ha)).2 hal
  · rw [hns]
    exact lastCell_mem_split 0 pre d post

/-- Behind the first node nothing is registered. -/
theorem Shows.link_behind (hns : (p i).nodes = pre ++ post) (hpre : pre ≠ [])
    (hfree : Free p new) (hnew : s'.node new = some (post.headD 0)) (hlast : s'.node (lastCell 0 pre) = some new)
    (hrest : ∀ a, a ≠ new → a ≠ lastCell 0 pre → s'.node a = s.node a) (hheads : s'.heads = s.heads)
    (hcbs : s'.cbs = s.cbs) : s'.Shows (p.setNodes i (pre ++ new :: post)) := by
  obtain ⟨x, xs, rfl⟩ := exists_cons_of_ne_nil hpre
  obtain ⟨m, hS, hR⟩ := h.registered
  refine h.link hns (by rw [hns]; simp) hfree hnew ?_ hrest (fun j _ => congrFun hheads j)
    ⟨m, hcbs ▸ hS, hR.sameHead (by rw [hns]; rfl)⟩
  rw [cells_of_ne (h.ne_zero (lastCell_mem_nodes hns)), hlast]

/-- A free node may be written. -/
theorem Shows.alloc (hfree : Free p new) : (s.alloc new v).Shows p := by
  refine ⟨fun i => (h.chain i).congr fun a ha => cells_congr (fun _ => rfl) fun ha0 => ?_, h.disjoint, h.delete, h.nonNull,
    h.registered⟩
  exact update_of_ne (hfree.ne (mem_of_ne_of_mem ha0 ha)) _ _

theorem Shows.head_eq (hns : (p i).nodes = x :: xs) : s.heads i = x := by
  rw [h.heads_eq, hns]
  rfl

/-- The loops that look for the node before another one. -/
theorem Shows.seek (hns : (p i).nodes = x :: xs) (stop : Nat → Bool) (hstop : stop 0 = true) :
    seek s.node stop (s.heads i) = some (lastCell 0 (x :: xs.takeWhile fun q => !stop q)) ∧
      s.node (lastCell 0 (x :: xs.takeWhile fun q => !stop q)) = some ((xs.dropWhile fun q => !stop q).headD 0) := by
  have hchain := h.chain_of hns
  refine ⟨?_, ?_⟩
  · rw [h.head_eq hns]
    refine seek_chain hchain.2.2 (fun a ha => ?_) hstop
    exact (cells_of_ne (hchain.ne_zero ha)).symm
  · rw [← takeWhile_append_dropWhile (l := xs), ← cons_append] at hchain
    have hlast0 : lastCell 0 (x :: xs.takeWhile fun q => !stop q) ≠ 0 :=
      hchain.ne_zero (mem_append_left _ (lastCell_mem x _))
    have hlast := (chain_append.mp hchain).2.head
    rwa [cells_of_ne hlast0] at hlast

end Change
end ListMem
end GokuStudio.WebServer

import GokuStudio.WebServer.Lists

/-!
# What the list macros do

Each macro of `list_ex_single.h` has its rule: on memory that shows a `Picture` it
returns, and the memory it leaves shows the picture with the list changed. `ListOp`
is one use of a macro, and `lists_keep_callbacks` puts the rules together for every
sequence of operations: no list loses its callbacks, and every node that goes is
handed to the delete callback of its own list.
-/

namespace GokuStudio.WebServer

open Lib Function List Option Picture

namespace ListMem

/-! ## §1 A rule for each macro -/

/-- Before the node `current`; `NULL` is behind the last node. -/
def insertBefore (current new : Nat) : List Nat → List Nat
  | [] => if current = 0 then [new] else []
  | x :: xs => if x = current then new :: x :: xs else x :: insertBefore current new xs

def insertAfter (a new : Nat) : List Nat → List Nat
  | [] => []
  | x :: xs => if x = a then x :: new :: xs else x :: insertAfter a new xs

section Rules
variable {s : ListMem} {p : Picture} {i new current : Nat} {mallocs : Kind → Nat}
variable {xs pre post : List Nat} {a d cb x tmp next : Nat} {s' : ListMem}

theorem insertBefore_eq (h0 : 0 ∉ xs) : insertBefore current new xs =
      if (xs.dropWhile fun q => !(q == 0 || q == current)).headD 0 = current then
        (xs.takeWhile fun q => !(q == 0 || q == current)) ++ new :: xs.dropWhile fun q => !(q == 0 || q == current)
      else xs := by
  induction xs with
  | nil => simp [insertBefore, eq_comm]
  | cons x xs ih =>
    have hx0 : x ≠ 0 := fun he => h0 (he ▸ mem_cons_self ..)
    have ih := ih fun hmem => h0 (mem_cons_of_mem _ hmem)
    rw [insertBefore]
    by_cases hx : x = current
    · simp [hx]
    rw [if_neg hx, ih]
    simp only [dropWhile_cons, takeWhile_cons, Bool.or_self, Bool.not_false, if_true,
      beq_eq_false_iff_ne.mpr hx, beq_eq_false_iff_ne.mpr hx0]
    split <;> rfl

theorem insertAfter_eq (ha : a ∉ pre) : insertAfter a new (pre ++ a :: post) = pre ++ a :: new :: post := by
  induction pre with
  | nil => simp [insertAfter]
  | cons x pre ih =>
    have hx : x ≠ a := fun he => ha (he ▸ mem_cons_self ..)
    rw [cons_append, insertAfter, if_neg hx, ih fun hm => ha (mem_cons_of_mem _ hm)]
    rfl

/-- A run that does not fail, leaves the lists `p` and hands `out` to delete callbacks. -/
abbrev Ends (s : ListMem) (run : Except Stop ListMem) (p : Picture) (out : List (Nat × Nat)) : Prop :=
  ∃ s', run = .ok s' ∧ s'.Shows p ∧ s'.handed = s.handed ++ out

variable (h : s.Shows p)
include h

theorem Shows.slNodeInsertTailAbsolute (hne : (p i).nodes ≠ []) (hfree : Free p new) (hnew : s.node new = some 0) :
    s.Ends (s.slNodeInsertTailAbsolute i new) (p.setNodes i ((p i).nodes ++ [new])) [] := by
  obtain ⟨x, xs, hns⟩ := exists_cons_of_ne_nil hne
  have hall : ∀ q ∈ xs, (!(q == 0)) = true := by
    intro q hq
    have : q ≠ 0 := h.ne_zero (by rw [hns]; exact mem_cons_of_mem _ hq)
    simp [this]
  obtain ⟨hseek, hlast⟩ := h.seek hns (fun q => q == 0) rfl
  rw [takeWhile_eq_self_iff.mpr hall] at hseek hlast
  have hsplit : (p i).nodes = (x :: xs) ++ [] := by rw [hns, append_nil]
  refine ⟨s.alloc (lastCell 0 (x :: xs)) new, ?_, ?_, (append_nil _).symm⟩
  · rw [ListMem.slNodeInsertTailAbsolute, hseek]
    exact setNode_eq (by rw [hlast]; simp)
  · rw [hns]
    refine h.link_behind hsplit (by simp) hfree ?_ alloc_self (fun a _ => alloc_of_ne) rfl rfl
    rw [alloc_of_ne (hfree.ne (lastCell_mem_nodes hsplit)).symm, hnew]
    rfl

theorem Shows.slInsertTailRelative (ha : a ∈ (p i).nodes) (hfree : Free p new) (hnew : s.node new ≠ none) :
    s.Ends (s.slInsertTailRelative a new) (p.setNodes i (insertAfter a new (p i).nodes)) [] := by
  obtain ⟨pre, post, hns⟩ := append_of_mem ha
  have hapre : a ∉ pre := by
    intro hm
    exact (nodup_append.mp (h.chain_of hns).nodup).2.2 a hm a mem_cons_self rfl
  have hane : a ≠ new := hfree.ne ha
  have hbehind := h.node_eq hns
  refine ⟨(s.alloc new (post.headD 0)).alloc a new, ?_, ?_, (append_nil _).symm⟩
  · have hset : (s.alloc new (post.headD 0)).setNode a new = _ := setNode_eq (by rw [alloc_of_ne hane, hbehind]; simp)
    rw [ListMem.slInsertTailRelative, hbehind]
    simp only [deref, bind, Except.bind, setNode_eq hnew, hset]
  · have hlast : lastCell 0 (pre ++ [a]) = a := lastCell_append 0 pre [a]
    have hsplit : insertAfter a new (p i).nodes = (pre ++ [a]) ++ new :: post := by
      rw [hns, insertAfter_eq hapre]
      simp
    rw [hsplit]
    refine h.link_behind (by rw [hns]; simp) (by simp) hfree ?_ ?_ (fun b hbn hba => ?_) rfl rfl
    · rw [alloc_of_ne hane.symm, alloc_self]
    · rw [hlast, alloc_self]
    · rw [hlast] at hba
      rw [alloc_of_ne hba, alloc_of_ne hbn]

/-- What `malloc` returns to the `regist` functions: memory that no node of the
registry is in, other than the one for the head that has just been unregistered. -/
def Mallocs (s : ListMem) (i : Nat) (mallocs : Kind → Nat) : Prop :=
  ∀ k, mallocs k ≠ 0 ∧ ∀ c, (s.cbs k).mem (mallocs k) = some c → c.listHeadAddr = s.heads i

theorem Shows.slInsertHeadAbsolute (hne : (p i).nodes ≠ []) (hfree : Free p new)
    (hnew : s.node new ≠ none) (hmalloc : s.Mallocs i mallocs) :
    s.Ends (s.slInsertHeadAbsolute i new mallocs) (p.setNodes i (new :: (p i).nodes)) [] := by
  obtain ⟨x, xs, hns⟩ := exists_cons_of_ne_nil hne
  have hx : x ∈ (p i).nodes := hns ▸ mem_cons_self ..
  have hhead := h.head_eq hns
  have hhead? : (p i).nodes.head? = some x := by rw [hns]; rfl
  obtain ⟨m, hS, hR⟩ := h.registered
  have hm := h.callBack_eq hR hhead?
  have hmnew : ∀ k, update (m k) x none new = none := by
    intro k
    rw [update_of_ne (hfree.ne hx).symm]
    exact hR.eq_none fun j he => hfree.2 j (mem_of_mem_head? he)
  -- the callbacks are taken from the old head, and put under the new one
  obtain ⟨c1, htake1, hS1, hw1⟩ := hS.take .delete (h.ne_zero hx)
  obtain ⟨c2, htake2, hS2, hw2⟩ := hS1.take_matching hw1 (h.ne_zero hx)
  rw [Mallocs, hhead] at hmalloc
  obtain ⟨c3, c4, hput1, hput2, hS4⟩ := hS2.put_both hw2 (fun k => update_self ..) hmnew hfree.1 (h.nonNull i) hmalloc
  rw [hm] at htake1 htake2
  refine ⟨{ (s.alloc new x).setHead i new with cbs := c4 }, ?_, ?_, (append_nil _).symm⟩
  · simp only [ListMem.slInsertHeadAbsolute, hhead, htake1, htake2, setNode_eq hnew, hput1, hput2,
      bind, Except.bind, pure, Except.pure]
  · have hfirst : (new :: (p i).nodes).head? = some new := rfl
    have hR' := (hR.unhead hhead? fun j => h.head_ne hx).rehead hfirst fun j _ he => hfree.2 j (mem_of_mem_head? he)
    refine h.link (nil_append _).symm hne hfree ?_ (cells_zero.trans (congrArg some (update_self ..)))
      (fun a ha _ => alloc_of_ne ha) (fun j hj => update_of_ne (hj.resolve_right (absurd rfl)) ..) ⟨_, hS4, hR'⟩
    rw [hns]
    exact alloc_self

theorem Shows.slInsertHeadRelative (hne : (p i).nodes ≠ []) (hfree : Free p new)
    (hnew : s.node new ≠ none)
    (hmalloc : (p i).nodes.head? = some current → s.Mallocs i mallocs) :
    s.Ends (s.slInsertHeadRelative i current new mallocs) (p.setNodes i (insertBefore current new (p i).nodes)) [] := by
  obtain ⟨x, xs, hns⟩ := exists_cons_of_ne_nil hne
  have hhead := h.head_eq hns
  rw [ListMem.slInsertHeadRelative, hhead]
  by_cases hx : x = current
  · rw [if_pos hx, hns, insertBefore, if_pos hx, ← hns]
    exact h.slInsertHeadAbsolute hne hfree hnew (hmalloc (by rw [hns, ← hx]; rfl))
  have h0 : 0 ∉ xs := by
    intro hmem
    exact h.ne_zero (by rw [hns]; exact mem_cons_of_mem _ hmem) rfl
  obtain ⟨hseek, hlast⟩ := h.seek hns (fun q => q == 0 || q == current) rfl
  rw [hhead] at hseek
  rw [if_neg hx, hseek, hns, insertBefore, if_neg hx, insertBefore_eq h0]
  simp only [deref, bind, Except.bind, hlast]
  split
  · rename_i hahead
    generalize hpre : (xs.takeWhile fun q => !(q == 0 || q == current)) = pre at *
    generalize hpost : (xs.dropWhile fun q => !(q == 0 || q == current)) = post at *
    have hsplit : (p i).nodes = (x :: pre) ++ post := by
      rw [hns, ← hpre, ← hpost, cons_append, takeWhile_append_dropWhile]
    have hlastmem := lastCell_mem_nodes hsplit
    have hset1 := setNode_eq (v := new) (by rw [hlast]; simp)
    have hset2 : (s.alloc (lastCell 0 (x :: pre)) new).setNode new current = _ :=
      setNode_eq (by rw [alloc_of_ne (hfree.ne hlastmem).symm]; exact hnew)
    refine ⟨(s.alloc (lastCell 0 (x :: pre)) new).alloc new current, ?_, ?_, (append_nil _).symm⟩
    · rw [hset1]
      exact hset2
    · refine h.link_behind hsplit (by simp) hfree (by rw [alloc_self, hahead]) ?_ (fun a han hal => ?_) rfl rfl
      · rw [alloc_of_ne (hfree.ne hlastmem), alloc_self]
      · rw [alloc_of_ne han, alloc_of_ne hal]
  · refine ⟨s, rfl, ?_, (append_nil _).symm⟩
    rwa [← hns, setNodes_nodes]

/-- What `sl_delete` does to the memory when the first node goes. -/
theorem Shows.dropHead (hns : (p i).nodes = d :: xs) (hheads : s'.heads = update s.heads i (xs.headD 0))
    (hnode : s'.node = update s.node d none)
    (hreg : ∃ m, s'.cbs.Sound m ∧ (p.setNodes i xs).Registered m) :
    s'.Shows (p.setNodes i xs) := by
  have hns' : (p i).nodes = [] ++ d :: xs := hns
  refine h.unlink hns' ?_ (fun a ha _ => ?_) (fun j hj => ?_) hreg
  · rw [lastCell, cells_zero, hheads, update_self]
  · rw [hnode, update_of_ne ha]
  · rw [hheads, update_of_ne (hj.resolve_right (absurd rfl))]

theorem Shows.slDelete_head (mallocs : Kind → Nat) (hns : (p i).nodes = d :: xs)
    (hcb : (p i).cb .delete = some cb)
    (hmalloc : xs ≠ [] → s.Mallocs i mallocs) :
    s.Ends (s.slDelete i d mallocs) (p.setNodes i xs) [(cb, d)] := by
  have hd : d ∈ (p i).nodes := hns ▸ mem_cons_self ..
  have hd0 := h.ne_zero hd
  have hhead := h.head_eq hns
  have hhead? : (p i).nodes.head? = some d := by rw [hns]; rfl
  have hcb0 : cb ≠ 0 := fun he => h.nonNull i .delete (he ▸ hcb)
  have hchain := h.chain_of hns
  have hbehind : s.node d = some (xs.headD 0) := h.node_eq (l := []) hns
  obtain ⟨m, hS, hR⟩ := h.registered
  have hm := h.callBack_eq hR hhead?
  obtain ⟨c1, c2, hget, hun, hS2, hw2⟩ := hS.get_unregist hd0 ((hm .delete).trans hcb)
  obtain ⟨c3, htake, hS3, hw3⟩ := hS2.take_matching hw2 hd0
  have hR3 := hR.unhead hhead? fun j => h.head_ne hd
  rw [hm] at htake
  simp only [ListMem.slDelete, hhead, if_true, hget, hun, htake, hbehind, handOver, if_neg hcb0,
    deref, bind, Except.bind, pure, Except.pure]
  cases xs with
  | nil =>
    refine ⟨_, rfl, ?_, rfl⟩
    exact h.dropHead hns rfl rfl ⟨_, hS3, hR3⟩
  | cons y ys =>
    have hy : y ∈ (p i).nodes := by rw [hns]; simp
    have hyd : y ≠ d := fun he => (nodup_cons.mp hchain.nodup).1 (he ▸ mem_cons_self ..)
    have hmy : ∀ k, update (m k) d none y = none := by
      intro k
      rw [update_of_ne hyd]
      refine hR.eq_none fun j he => ?_
      by_cases hj : j = i
      · rw [hj, hhead?] at he
        exact hyd (some.inj he).symm
      · exact h.head_ne hy hj he
    have hmal := hmalloc (by simp)
    rw [Mallocs, hhead] at hmal
    obtain ⟨c4, c5, hput1, hput2, hS5⟩ := hS3.put_both hw3 (fun k => update_self ..) hmy
      (h.ne_zero hy) (h.nonNull i) hmal
    rw [hcb] at hput1
    obtain ⟨b, hreg⟩ := CallBacks.put_eq hcb0 hput1
    have hyne : headD (y :: ys) 0 ≠ 0 := h.ne_zero hy
    have hreg' : c3.regist .delete (headD (y :: ys) 0) cb (mallocs .delete) = _ := hreg
    have hput' : c4.put .matching (headD (y :: ys) 0) _ (mallocs .matching) = _ := hput2
    simp only [setHead, if_pos hyne, hreg', hput']
    refine ⟨_, rfl, ?_, rfl⟩
    exact h.dropHead hns rfl rfl ⟨_, hS5, hR3.rehead rfl fun j => h.head_ne hy⟩

theorem Shows.slDelete_behind (mallocs : Kind → Nat)
    (hns : (p i).nodes = x :: pre ++ d :: post) (hcb : (p i).cb .delete = some cb) :
    s.Ends (s.slDelete i d mallocs) (p.setNodes i (x :: pre ++ post)) [(cb, d)] := by
  have hchain := h.chain_of hns
  have hhead := h.head_eq hns
  have hhead? : (p i).nodes.head? = some x := by rw [hns]; rfl
  have hcb0 : cb ≠ 0 := fun he => h.nonNull i .delete (he ▸ hcb)
  have hmem : ∀ {a}, a ∈ x :: pre ++ d :: post → a ∈ (p i).nodes := fun ha => hns ▸ ha
  -- the loop stops at the node before
  obtain ⟨hxd, hlast0, hlastd, hahead, hseek⟩ := hchain.seek_node (fun _ => cells_of_ne) null_or_iff
  have hbehind := h.node_eq hns
  obtain ⟨m, hS, hR⟩ := h.registered
  have hget := hS.get .delete (h := x) (h.ne_zero (hmem (by simp)))
  rw [h.callBack_eq hR hhead?, hcb] at hget
  obtain ⟨c1, hrun, hS1, -⟩ := hget
  have hset := setNode_eq (v := post.headD 0) (by rw [hahead]; simp)
  have hcbs : (s.alloc (lastCell x pre) (post.headD 0)).cbs.get .delete x = _ := hrun
  simp only [ListMem.slDelete, hhead, if_neg hxd, hseek, hahead, hbehind, hset, hcbs, handOver,
    if_neg hcb0, deref, bind, Except.bind, if_true]
  refine ⟨_, rfl, ?_, rfl⟩
  refine h.unlink hns ?_ (fun a had hal => ?_) (fun _ _ => rfl) ⟨m, hS1, hR.sameHead (by rw [hns]; rfl)⟩
  · rw [lastCell, cells_of_ne hlast0]
    exact (update_of_ne hlastd ..).trans alloc_self
  · exact (update_of_ne had ..).trans (alloc_of_ne hal)

/-- A node of the list is taken off and handed to the delete callback. -/
theorem Shows.slDelete (hd : d ∈ (p i).nodes) (hcb : (p i).cb .delete = some cb)
    (hmalloc : (p i).nodes.head? = some d → (p i).nodes ≠ [d] → s.Mallocs i mallocs) :
    s.Ends (s.slDelete i d mallocs) (p.setNodes i ((p i).nodes.erase d)) [(cb, d)] := by
  obtain ⟨pre, post, hns⟩ := append_of_mem hd
  have hnd := (h.chain i).nodup
  rw [hns] at hnd hmalloc
  rw [hns, erase_of_split hnd]
  cases pre with
  | nil => exact h.slDelete_head mallocs hns hcb fun hpost => hmalloc rfl (by simpa using hpost)
  | cons x pre => exact h.slDelete_behind mallocs hns hcb

/-- Nothing happens for a node that is not in the list. -/
theorem Shows.slDelete_absent (hne : (p i).nodes ≠ [])
    (hd : d ∉ (p i).nodes) (hd0 : d ≠ 0) : s.slDelete i d mallocs = .ok s := by
  obtain ⟨x, xs, hns⟩ := exists_cons_of_ne_nil hne
  have hhead := h.head_eq hns
  rw [hns, mem_cons, not_or] at hd
  have hall : ∀ q ∈ xs, (!(q == 0 || q == d)) = true := by
    intro q hq
    have hq0 : q ≠ 0 := h.ne_zero (by rw [hns]; exact mem_cons_of_mem _ hq)
    have hqd : q ≠ d := fun he => hd.2 (he ▸ hq)
    simp [hq0, hqd]
  obtain ⟨hseek, hlast⟩ := h.seek hns (fun q => q == 0 || q == d) rfl
  rw [takeWhile_eq_self_iff.mpr hall] at hseek hlast
  rw [dropWhile_eq_nil_iff.mpr hall] at hlast
  rw [hhead] at hseek
  simp [ListMem.slDelete, hhead, Ne.symm hd.1, hseek, hlast, Ne.symm hd0, deref, bind, Except.bind, pure, Except.pure]

omit h

theorem slDestroyLoop_next (hhead : s.heads i ≠ 0) (hturn : slDestroyTurn i mallocs s tmp = .ok (s', next)) :
    slDestroyLoop i mallocs s tmp = slDestroyLoop i mallocs s' next :=
  loop_next (by simp [hhead, hturn])

theorem slDestroyTurn_behind (htmp : tmp ≠ 0)
    (hdel : s.slDelete i tmp mallocs = .ok s') (hnext : s'.node (s'.heads i) = some next) :
    slDestroyTurn i mallocs s tmp = .ok (s', next) := by
  rw [slDestroyTurn, if_pos htmp, hdel]
  simp only [bind, Except.bind, hnext]
  rfl

theorem slDestroyTurn_head (hdel : s.slDelete i (s.heads i) mallocs = .ok s') :
    slDestroyTurn i mallocs s 0 = .ok (s', 0) := by
  rw [slDestroyTurn, if_neg (by simp), hdel]
  rfl

/-- The nodes behind the first one go first, one after the other. -/
theorem Shows.slDestroyLoop (h : s.Shows p) (mallocs : Kind → Nat)
    (hns : (p i).nodes = x :: xs) (hcb : (p i).cb .delete = some cb) :
    ∃ s', slDestroyLoop i mallocs s (xs.headD 0) = some (.ok s') ∧
      s'.Shows (p.setNodes i []) ∧ s'.handed = s.handed ++ (xs ++ [x]).map (cb, ·) := by
  induction xs generalizing s p with
  | nil =>
    have hhead := h.head_eq hns
    have hx0 : x ≠ 0 := h.ne_zero (hns ▸ mem_cons_self ..)
    obtain ⟨s1, hrun, hs1, hhand⟩ := h.slDelete_head mallocs hns hcb (absurd rfl)
    have hhead1 : s1.heads i = 0 := by
      rw [hs1.heads_eq, setNodes_self]
      rfl
    refine ⟨s1, ?_, hs1, hhand⟩
    rw [headD_nil, slDestroyLoop_next (hhead ▸ hx0) (slDestroyTurn_head (hhead ▸ hrun))]
    exact loop_done (if_pos hhead1)
  | cons y ys ih =>
    have hhead := h.head_eq hns
    have hx0 : x ≠ 0 := h.ne_zero (hns ▸ mem_cons_self ..)
    have hy0 : y ≠ 0 := h.ne_zero (by rw [hns]; simp)
    have hsplit : (p i).nodes = x :: [] ++ y :: ys := hns
    obtain ⟨s1, hrun, hs1, hhand⟩ := h.slDelete_behind mallocs hsplit hcb
    have hns1 : ((p.setNodes i (x :: ys)) i).nodes = x :: ys := by rw [setNodes_self]
    have hcb1 : ((p.setNodes i (x :: ys)) i).cb .delete = some cb := by
      rw [setNodes_self]
      exact hcb
    have hnext : s1.node (s1.heads i) = some (ys.headD 0) := by
      rw [hs1.head_eq hns1]
      exact hs1.node_eq (l := []) hns1
    obtain ⟨s2, hloop, hs2, hhand2⟩ := ih hs1 hns1 hcb1
    refine ⟨s2, ?_, ?_, ?_⟩
    · have hturn := slDestroyTurn_behind hy0 hrun hnext
      rw [headD_cons, slDestroyLoop_next (hhead ▸ hx0) hturn]
      exact hloop
    · rwa [setNodes_setNodes] at hs2
    · rw [hhand2, hhand]
      simp

theorem Shows.slDestroy (h : s.Shows p) (mallocs : Kind → Nat)
    (hns : (p i).nodes = x :: xs) (hcb : (p i).cb .delete = some cb) :
    s.Ends (s.slDestroy i mallocs) (p.setNodes i []) ((xs ++ [x]).map (cb, ·)) := by
  have hnext : s.node x = some (xs.headD 0) := h.node_eq (l := []) hns
  obtain ⟨s', hloop, hs', hhand⟩ := h.slDestroyLoop mallocs hns hcb
  refine ⟨s', ?_, hs', hhand⟩
  rw [ListMem.slDestroy, h.head_eq hns, hnext]
  simp only [deref, bind, Except.bind, hloop, getD_some]

end Rules
end ListMem

/-! ## §2 Sequences of operations -/

/-- The operations, on list `i`. The node that is inserted has `old` in its field
`node` before. -/
inductive ListOp where
  | insertHeadAbsolute (i new old : Nat) (mallocs : Kind → Nat)
  | insertHeadRelative (i current new old : Nat) (mallocs : Kind → Nat)
  | insertTailRelative (i a new old : Nat)
  | insertTailAbsolute (i new old : Nat)
  | delete (i delNode : Nat) (mallocs : Kind → Nat)
  | destroy (i : Nat) (mallocs : Kind → Nat)

namespace ListOp

def list : ListOp → Nat
  | .insertHeadAbsolute i _ _ _ => i
  | .insertHeadRelative i _ _ _ _ => i
  | .insertTailRelative i _ _ _ => i
  | .insertTailAbsolute i _ _ => i
  | .delete i _ _ => i
  | .destroy i _ => i

def exec (s : ListMem) : ListOp → Except Stop ListMem
  | .insertHeadAbsolute i new old ms => (s.alloc new old).slInsertHeadAbsolute i new ms
  | .insertHeadRelative i current new old ms =>
    (s.alloc new old).slInsertHeadRelative i current new ms
  | .insertTailRelative _ a new old => (s.alloc new old).slInsertTailRelative a new
  | .insertTailAbsolute i new old => (s.alloc new old).slNodeInsertTailAbsolute i new
  | .delete i d ms => s.slDelete i d ms
  | .destroy i ms => s.slDestroy i ms

/-- What an operation is for. -/
def nodesAfter (ns : List Nat) : ListOp → List Nat
  | .insertHeadAbsolute _ new _ _ => new :: ns
  | .insertHeadRelative _ current new _ _ => ListMem.insertBefore current new ns
  | .insertTailRelative _ a new _ => ListMem.insertAfter a new ns
  | .insertTailAbsolute _ new _ => ns ++ [new]
  | .delete _ d _ => ns.erase d
  | .destroy _ _ => []

/-- The nodes that are handed to the delete callback, in this order. -/
def deleted (ns : List Nat) : ListOp → List Nat
  | .delete _ d _ => if d ∈ ns then [d] else []
  | .destroy _ _ => ns.tail ++ ns.take 1
  | _ => []

def picture (p : Picture) (op : ListOp) : Picture := p.setNodes op.list (op.nodesAfter (p op.list).nodes)

def handed (p : Picture) (op : ListOp) : List (Nat × Nat) :=
  (op.deleted (p op.list).nodes).map ((((p op.list).cb .delete).getD 0), ·)

/-- What the macros expect: a list with registered callbacks, and nodes that are
not in a list yet. `sl_node_insert_tail_absolute` does not end the list itself. -/
def Proper (s : ListMem) (p : Picture) : ListOp → Prop
  | .insertHeadAbsolute i new _ ms => (p i).nodes ≠ [] ∧ ListMem.Free p new ∧ s.Mallocs i ms
  | .insertHeadRelative i current new _ ms => (p i).nodes ≠ [] ∧ ListMem.Free p new ∧
      ((p i).nodes.head? = some current → s.Mallocs i ms)
  | .insertTailRelative i a new _ => a ∈ (p i).nodes ∧ ListMem.Free p new
  | .insertTailAbsolute i new old => (p i).nodes ≠ [] ∧ ListMem.Free p new ∧ old = 0
  | .delete i d ms => (p i).nodes ≠ [] ∧ d ≠ 0 ∧ ((p i).nodes.head? = some d → (p i).nodes ≠ [d] → s.Mallocs i ms)
  | .destroy i _ => (p i).nodes ≠ []

end ListOp

/-- All operations are proper when their turn comes. -/
def ProperOps : ListMem → Picture → List ListOp → Prop
  | _, _, [] => True
  | s, p, op :: ops => op.Proper s p ∧ ∀ s', op.exec s = .ok s' → ProperOps s' (op.picture p) ops

/-- What the operations hand to delete callbacks. -/
def handedBy : Picture → List ListOp → List (Nat × Nat)
  | _, [] => []
  | p, op :: ops => op.handed p ++ handedBy (op.picture p) ops

section Ops
variable {s : ListMem} {p : Picture} {op : ListOp} {ops : List ListOp}

/-- One operation. -/
theorem ListMem.Shows.exec (h : s.Shows p) (hop : op.Proper s p) :
    s.Ends (op.exec s) (op.picture p) (op.handed p) := by
  cases op with
  | insertHeadAbsolute i new old ms =>
    obtain ⟨hne, hfree, hms⟩ := hop
    exact (h.alloc (v := old) hfree).slInsertHeadAbsolute hne hfree alloc_ne_none hms
  | insertHeadRelative i current new old ms =>
    obtain ⟨hne, hfree, hms⟩ := hop
    exact (h.alloc (v := old) hfree).slInsertHeadRelative hne hfree alloc_ne_none hms
  | insertTailRelative i a new old =>
    obtain ⟨ha, hfree⟩ := hop
    exact (h.alloc (v := old) hfree).slInsertTailRelative ha hfree alloc_ne_none
  | insertTailAbsolute i new old =>
    obtain ⟨hne, hfree, rfl⟩ := hop
    exact (h.alloc hfree).slNodeInsertTailAbsolute hne hfree alloc_self
  | delete i d ms =>
    obtain ⟨hne, hd0, hms⟩ := hop
    obtain ⟨cb, hcb⟩ := h.delete i hne
    by_cases hd : d ∈ (p i).nodes
    · obtain ⟨s', hrun, hs', hhand⟩ := h.slDelete hd hcb hms
      refine ⟨s', hrun, hs', ?_⟩
      simp [hhand, ListOp.handed, ListOp.deleted, ListOp.list, hd, hcb]
    refine ⟨s, h.slDelete_absent hne hd hd0, ?_, ?_⟩
    · have hsame : (ListOp.delete i d ms).picture p = p := by
        simp only [ListOp.picture, ListOp.list, ListOp.nodesAfter, erase_of_not_mem hd, setNodes_nodes]
      rw [hsame]
      exact h
    · simp [ListOp.handed, ListOp.deleted, ListOp.list, hd]
  | destroy i ms =>
    obtain ⟨cb, hcb⟩ := h.delete i hop
    obtain ⟨x, xs, hns⟩ := exists_cons_of_ne_nil hop
    obtain ⟨s', hrun, hs', hhand⟩ := h.slDestroy ms hns hcb
    refine ⟨s', hrun, hs', ?_⟩
    simp [hhand, ListOp.handed, ListOp.deleted, ListOp.list, hns, hcb]

/-- No operation stops the program. After them each list has the nodes it is meant
to have, its callbacks are registered under its first node and under no other
address, and the delete callbacks have got the deleted nodes, each once. The lists
that no operation is about are as before. -/
theorem lists_keep_callbacks (h : s.Shows p) (hops : ProperOps s p ops) :
    ∃ s', ops.foldlM ListOp.exec s = .ok s' ∧ s'.Shows (ops.foldl ListOp.picture p) ∧
      s'.handed = s.handed ++ handedBy p ops ∧
      ∀ i, (∀ op ∈ ops, op.list ≠ i) → ops.foldl ListOp.picture p i = p i := by
  induction ops generalizing s p with
  | nil => exact ⟨s, rfl, h, (append_nil _).symm, fun _ _ => rfl⟩
  | cons op ops ih =>
    obtain ⟨s₁, hrun, hs₁, hhand⟩ := h.exec hops.1
    obtain ⟨s₂, hrun₂, hs₂, hhand₂, hother⟩ := ih hs₁ (hops.2 s₁ hrun)
    refine ⟨s₂, ?_, hs₂, ?_, fun i hi => ?_⟩
    · rw [foldlM_cons, hrun]
      exact hrun₂
    · rw [hhand₂, hhand, append_assoc]
      rfl
    · rw [foldl_cons, hother i (forall_mem_cons.mp hi).2]
      exact setNodes_of_ne (Ne.symm (hi op mem_cons_self))

/-- One list with one node and a delete callback. -/
def oneNode : ListMem where
  heads i := if i = 0 then 5 else 0
  node a := if a = 5 then some 0 else none
  cbs
    | .delete => ⟨100, fun a => if a = 100 then some ⟨0, 5, 7⟩ else none, 0, 0⟩
    | .matching => .empty
  handed := []

def onePicture : Picture
  | 0 => ⟨[5], fun k => if k = .delete then some 7 else none⟩
  | _ + 1 => ⟨[], fun _ => none⟩

def oneMap : CallBackMap := fun k h => if k = .delete ∧ h = 5 then some 7 else none

theorem oneNode_sound : oneNode.cbs.Sound oneMap := by
  intro k
  cases k with
  | matching =>
    refine ⟨[], ?_⟩
    have hm : oneMap .matching = fun _ => none := by simp [funext_iff, oneMap]
    rw [hm]
    exact Registry.sound_empty
  | delete =>
    have hentry : ∀ {a e}, (oneNode.cbs .delete).entry a = some e ↔ a = 100 ∧ e = (5, 7) := by
      intro a e
      by_cases ha : a = 100
      · simp [oneNode, Registry.entry, ha, eq_comm]
      · simp [oneNode, Registry.entry, ha]
    refine ⟨[100], ⟨⟨⟨rfl, by decide, rfl⟩, fun a => ?_, fun ha hb => ?_, fun {h cb} => ?_,
      fun ha => ?_⟩, absurd rfl⟩⟩
    · simp [ne_none_iff_exists', hentry]
    · rw [(hentry.mp ha).1, (hentry.mp hb).1]
    · simp [oneMap, hentry, eq_comm]
    · rw [(Prod.mk.inj (hentry.mp ha).2).1]
      decide

theorem oneNode_shows : oneNode.Shows onePicture where
  chain i := by
    cases i with
    | zero => exact ⟨rfl, by decide, rfl⟩
    | succ i => rfl
  disjoint i j a hi hj := by
    cases i <;> cases j <;> simp_all [onePicture]
  delete i hi := by
    cases i with
    | zero => exact ⟨7, rfl⟩
    | succ i => exact absurd rfl hi
  nonNull i k := by
    cases i <;> cases k <;> simp [onePicture]
  registered := by
    refine ⟨oneMap, oneNode_sound, fun k h cb => ⟨fun hm => ⟨0, ?_⟩, ?_⟩⟩
    · simp only [oneMap, ite_none_right_eq_some] at hm
      obtain ⟨⟨rfl, rfl⟩, hcb⟩ := hm
      exact ⟨rfl, hcb⟩
    · rintro ⟨i, hhead, hcb⟩
      cases i with
      | zero =>
        simp only [onePicture, head?_cons, some.injEq] at hhead hcb
        simp only [oneMap, ← hhead, and_true]
        exact hcb
      | succ i => exact absurd hhead (by simp [onePicture])

/-- A node is put in front, which moves the callback, and the list is destroyed. -/
theorem lists_keep_callbacks_destroy : ∃ s', [ListOp.insertHeadAbsolute 0 6 9 fun _ => 101, .destroy 0 fun _ => 102].foldlM
      ListOp.exec oneNode = .ok s' ∧ s'.handed = [(7, 5), (7, 6)] := by
  have hfree : ListMem.Free onePicture 6 := by
    refine ⟨by decide, fun j => ?_⟩
    cases j <;> simp [onePicture]
  have hmalloc : oneNode.Mallocs 0 fun _ => 101 := by
    intro k
    cases k <;> simp [oneNode, Registry.empty]
  have hops : ProperOps oneNode onePicture [.insertHeadAbsolute 0 6 9 fun _ => 101, .destroy 0 fun _ => 102] :=
    ⟨⟨by decide, hfree, hmalloc⟩, fun _ _ => ⟨cons_ne_nil 6 [5], fun _ _ => trivial⟩⟩
  obtain ⟨s', hrun, -, hhand, -⟩ := lists_keep_callbacks oneNode_shows hops
  exact ⟨s', hrun, hhand⟩

end Ops
end GokuStudio.WebServer

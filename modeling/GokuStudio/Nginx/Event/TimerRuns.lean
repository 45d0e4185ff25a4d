import GokuStudio.Nginx.Event.Timer

/-!
# Timers fire in time

The signed difference orders the keys of the tree as long as all of them lie in one window.
The window moves, but a tree that is sorted in one window is so in every other that its keys
lie in: the order says nothing of the window.

The lazy test of `ngx_event_add_timer` takes the absolute value of a signed difference. The
least value has none, and a timer that is just half the circle away passes the test.
-/

namespace GokuStudio.Nginx.Timer

open Lib Nginx.RbTree ColorTree Function List Option
variable {w : Nat}

/-! ## §1 The tree -/

/-- Not later, by the signed difference. -/
def NotLater (x y : RbTree.Item w) : Prop := 0 ≤ (y.key - x.key).toInt

variable {b d : BitVec w} {x y : RbTree.Item w} {ys : List (RbTree.Item w)}

theorem notLater_iff (hx : Within b x.key) (hy : Within b y.key) :
    NotLater x y ↔ (x.key - b).toNat ≤ (y.key - b).toNat := by
  rw [NotLater, hy.toInt_sub hx]
  omega

section Arm
variable {s : Timers w} {t : ColorTree (RbTree.Item w)} {ev : Addr} {key : BitVec w}

/-- A new key that lies in one window with the others keeps the order. -/
theorem arm_sorted (hsorted : t.inorder.Pairwise NotLater)
    (hkeys : ∀ x ∈ t.inorder, Within b x.key) (hkey : Within b key) :
    (before (descend (fun y => timerLess key y.key) t []) ++
      ⟨ev, key⟩ :: after (descend (fun y => timerLess key y.key) t [])).Pairwise NotLater := by
  have hless : ∀ x ∈ t.inorder, timerLess key x.key = true ↔ (key - b).toNat < (x.key - b).toNat := by
    intro x hx
    rw [timerLess, decide_eq_true_eq, hkey.toInt_sub (hkeys x hx)]
    omega
  refine insert_sorted hsorted ?_ ?_ ?_
  · intro y hy z hz hyz hlt
    rw [notLater_iff (hkeys y hy) (hkeys z hz)] at hyz
    rw [hless y hy] at hlt
    rw [hless z hz]
    exact Nat.lt_of_lt_of_le hlt hyz
  · intro y hy hlt
    rw [notLater_iff (hkeys y hy) hkey]
    refine Nat.le_of_not_lt fun hgt => ?_
    rw [(hless y hy).mpr hgt] at hlt
    cases hlt
  · intro y hy hlt
    rw [notLater_iff hkey (hkeys y hy)]
    exact Nat.le_of_lt ((hless y hy).mp hlt)

/-- What a tree holds but for one event. -/
def without (xs : List (RbTree.Item w)) (ev : Addr) : List (RbTree.Item w) := xs.filter (·.addr ≠ ev)

variable {xs : List (RbTree.Item w)}

theorem mem_without : x ∈ without xs ev ↔ x ∈ xs ∧ x.addr ≠ ev := by
  simp [without]

theorem mem_addrs_without {e : Addr} : e ∈ addrs (without xs ev) ↔ e ∈ addrs xs ∧ e ≠ ev := by
  simp only [addrs, List.mem_map, mem_without]
  constructor
  · rintro ⟨x, ⟨hx, hne⟩, rfl⟩
    exact ⟨⟨x, hx, rfl⟩, hne⟩
  · rintro ⟨⟨x, hx, rfl⟩, hne⟩
    exact ⟨x, ⟨hx, hne⟩, rfl⟩

theorem delTimer_spec (h : Holds s.tree t) (hrb : RedBlack t) (hx : x ∈ t.inorder) :
    ∃ s' t', delTimer s x.addr = some s' ∧ Holds s'.tree t' ∧ RedBlack t' ∧
      s'.tree.sentinel = s.tree.sentinel ∧ s'.now = s.now ∧
      s'.timerSet = update s.timerSet x.addr false ∧ t'.inorder = without t.inorder x.addr := by
  obtain ⟨tree', t', xs, ys, hdelete, hholds, hrb', hsent, hold, hnew⟩ := delete_spec h hrb hx
  have hdel : delTimer s x.addr = some { s with tree := tree', timerSet := update s.timerSet x.addr false } := by
    rw [delTimer, hdelete]
    rfl
  have hnodup := h.nodup
  rw [hold] at hnodup
  refine ⟨_, t', hdel, hholds, hrb', hsent, rfl, rfl, ?_⟩
  rw [hnew, hold, without, filter_middle hnodup]

/-- The list `xs` with one more item at the place where its key leads. -/
def Placed (xs ys : List (RbTree.Item w)) (ev : Addr) (key : BitVec w) : Prop := ys.Perm (⟨ev, key⟩ :: xs) ∧
    ∀ b, xs.Pairwise NotLater → (∀ x ∈ ys, Within b x.key) → ys.Pairwise NotLater

theorem Placed.mem (h : Placed xs ys ev key) : x ∈ ys ↔ x = ⟨ev, key⟩ ∨ x ∈ xs := by
  rw [h.1.mem_iff, mem_cons]

theorem arm_placed (h : Holds s.tree t) (hrb : RedBlack t) (hev : ev ∉ addrs t.inorder)
    (hs : ev ≠ s.tree.sentinel) :
    ∃ s' t', arm s ev key = some s' ∧ Holds s'.tree t' ∧ RedBlack t' ∧ s'.tree.sentinel = s.tree.sentinel ∧
      s'.now = s.now ∧ s'.timerSet = update s.timerSet ev true ∧
      Placed t.inorder t'.inorder ev key := by
  obtain ⟨tree', t', hinsert, hholds, hrb', hsent, hinorder⟩ :=
    @insert_spec w (setKey s.tree ev key) timerLess ⟨ev, key⟩ _ t (h.write hev hs _) hrb Rbtree.write_self rfl hev hs
  have harm : arm s ev key = some { s with tree := tree', timerSet := update s.timerSet ev true } := by
    rw [arm, insertTimerValue, hinsert]
    rfl
  refine ⟨_, t', harm, hholds, hrb', hsent, rfl, rfl, ?_⟩
  have hperm : t'.inorder.Perm (⟨ev, key⟩ :: t.inorder) := hinorder ▸ insert_perm
  refine ⟨hperm, fun b hsorted hkeys => ?_⟩
  rw [hinorder]
  refine arm_sorted (b := b) hsorted (fun x hx => ?_) ?_
  · exact hkeys x (hperm.mem_iff.mpr (mem_cons_of_mem _ hx))
  · exact hkeys ⟨ev, key⟩ (hperm.mem_iff.mpr mem_cons_self)

end Arm

/-! ## §2 The lazy test -/

/-- The absolute value is not below the delay where it should not be, but for the least value
of the signed type. -/
theorem natAbs_lt_of_abs (h : (abs d).toInt < lazyDelay)
    (hd : 300 ≤ 2 ^ (w - 1) → d ≠ BitVec.intMin w) : d.toInt.natAbs < 300 := by
  rw [abs, lazyDelay] at h
  split at h
  case isTrue hnonneg => omega
  case isFalse hneg =>
    by_cases hmin : d = BitVec.intMin w
    · have hsmall : 2 ^ (w - 1) < 300 := Nat.lt_of_not_le fun hle => hd hle hmin
      have hle := BitVec.le_toInt d
      have hcast : ((2 ^ (w - 1) : Nat) : Int) = 2 ^ (w - 1) := by simp
      omega
    · rw [BitVec.toInt_neg_of_ne_intMin hmin] at h
      omega

/-! ## §3 One act -/

/-- What holds between the steps: `t` is the tree, in key order, of the armed events, and each
key is near the requested one. -/
structure Inv (s : State w) (t : ColorTree (RbTree.Item w)) : Prop where
  holds : Holds s.timers.tree t
  redBlack : RedBlack t
  sorted : t.inorder.Pairwise NotLater
  armed : ∀ ev, ev ∈ s.armed ↔ ev ∈ addrs t.inorder
  flags : ∀ ev, s.timers.timerSet ev = true ↔ ev ∈ addrs t.inorder
  near : ∀ x ∈ t.inorder, (s.requested x.addr - x.key).toInt.natAbs < 300

/-- An armed event is not asked for a time that is just half the circle from its key, where
half the circle is not itself below the delay. -/
def ActCareful (s : State w) : Act w → Prop
  | .add ev timer =>
    ∀ old, ev ∈ s.armed → s.timers.tree.key ev = some old → 300 ≤ 2 ^ (w - 1) → s.timers.now + timer - old ≠ BitVec.intMin w
  | .del _ => True

/-- What an act does to the items of the tree. -/
structure Effect (s : State w) (a : Act w) (xs ys : List (RbTree.Item w)) : Prop where
  new : ∀ x ∈ ys, x ∈ xs ∨ ∃ ev timer, a = .add ev timer ∧ x = ⟨ev, s.timers.now + timer⟩
  old : ∀ x ∈ xs, x ∈ ys ∨ x.addr ∈ moves s a

variable {timers : Timers w} {a : Act w} {t : ColorTree (RbTree.Item w)}

section Acts
variable {s : State w} {t' : ColorTree (RbTree.Item w)} {ev : Addr} {timer : BitVec w}

theorem Window.keys (h : Window s) (hholds : Holds s.timers.tree t)
    (harmed : ∀ ev, ev ∈ s.armed ↔ ev ∈ addrs t.inorder) :
    ∃ b, Within b s.timers.now ∧ ∀ x ∈ t.inorder, Within b x.key := by
  obtain ⟨b, hnow, hkeys⟩ := h
  refine ⟨b, hnow, fun x hx => hkeys x.addr ?_ x.key (hholds.key hx)⟩
  exact (harmed x.addr).mpr (mem_map_of_mem hx)

variable (h : Inv s t)
include h

theorem Inv.item (hev : ev ∈ s.armed) : ∃ x ∈ t.inorder, x.addr = ev := mem_map.mp ((h.armed ev).mp hev)

/-- The timer is kept: only the request changes. -/
theorem Inv.keep (hc : ActCareful s (.add ev timer)) (hx : x ∈ t.inorder)
    (hlazy : lazy s.timers x.addr (s.timers.now + timer) = some true) (hev : x.addr = ev) :
    Inv (note s s.timers (.add ev timer)) t := by
  subst hev
  have hmem : x.addr ∈ s.armed := (h.armed _).mpr (mem_map_of_mem hx)
  refine ⟨h.holds, h.redBlack, h.sorted, fun ev => ?_, h.flags, fun y hy => ?_⟩
  · rw [note, if_pos hmem]
    exact h.armed ev
  · show (update s.requested x.addr _ y.addr - y.key).toInt.natAbs < 300
    by_cases heq : y.addr = x.addr
    · -- the addresses are distinct, so `y` is the item that was asked for
      have hy' := h.holds.key hy
      rw [heq, h.holds.key hx] at hy'
      rw [heq, update_self, ← some.inj hy']
      rw [lazy, h.holds.key hx, map_some, some.injEq, decide_eq_true_eq] at hlazy
      exact natAbs_lt_of_abs hlazy (hc x.key hmem (h.holds.key hx))
    · rw [update_of_ne heq]
      exact h.near y hy

/-- The timer is set, for an event that the tree does not hold. -/
theorem Inv.put {t1 : ColorTree (RbTree.Item w)}
    (h1 : t1.inorder = without t.inorder ev) (hholds : Holds timers.tree t') (hrb : RedBlack t')
    (hset : timers.timerSet = update s.timers.timerSet ev true)
    (hput : Placed t1.inorder t'.inorder ev (s.timers.now + timer))
    (hw : Window (note s timers (.add ev timer))) : Inv (note s timers (.add ev timer)) t' := by
  have haddrs : ∀ e, e ∈ addrs t'.inorder ↔ e = ev ∨ e ∈ addrs t.inorder := by
    intro e
    rw [addrs, (hput.1.map _).mem_iff, map_cons, mem_cons, h1]
    change e = ev ∨ e ∈ addrs (without t.inorder ev) ↔ _
    rw [mem_addrs_without]
    by_cases heq : e = ev <;> simp [heq]
  have harmed : ∀ e, e ∈ (note s timers (.add ev timer)).armed ↔ e ∈ addrs t'.inorder := by
    intro e
    rw [haddrs e, ← h.armed e, note]
    by_cases hev : ev ∈ s.armed
    · rw [if_pos hev]
      exact ⟨.inr, fun hor => hor.elim (fun heq => heq ▸ hev) id⟩
    · rw [if_neg hev, mem_cons]
  refine ⟨hholds, hrb, ?_, harmed, fun e => ?_, fun x hx => ?_⟩
  · obtain ⟨b, -, hkeys⟩ := hw.keys hholds harmed
    refine hput.2 b ?_ hkeys
    rw [h1]
    exact h.sorted.filter _
  · rw [haddrs e, ← h.flags e, note, hset]
    by_cases heq : e = ev <;> simp [heq]
  · show (update s.requested ev _ x.addr - x.key).toInt.natAbs < 300
    rcases hput.mem.mp hx with rfl | hx
    · rw [update_self, BitVec.sub_self]
      simp
    rw [h1, mem_without] at hx
    rw [update_of_ne hx.2]
    exact h.near x hx.1

theorem Inv.drop (hholds : Holds timers.tree t') (hrb : RedBlack t')
    (hset : timers.timerSet = update s.timers.timerSet ev false)
    (hdrop : t'.inorder = without t.inorder ev) (p : Phase w) :
    Inv { s with timers := timers, armed := s.armed.filter (· ≠ ev), phase := p } t' := by
  refine ⟨hholds, hrb, ?_, fun e => ?_, fun e => ?_, fun x hx => ?_⟩
  · rw [hdrop]
    exact h.sorted.filter _
  · rw [hdrop, mem_addrs_without, ← h.armed e]
    simp
  · rw [hdrop, mem_addrs_without, ← h.flags e]
    rw [hset]
    by_cases heq : e = ev <;> simp [heq]
  · rw [hdrop, mem_without] at hx
    exact h.near x hx.1

/-- The act comes to an end, and keeps the invariant if the keys after it lie in a window. -/
def Ends (s : State w) (t : ColorTree (RbTree.Item w)) (a : Act w) : Prop :=
  ∃ timers t', act s.timers a = some timers ∧ timers.now = s.timers.now ∧
    Effect s a t.inorder t'.inorder ∧ (Window (note s timers a) → Inv (note s timers a) t')

theorem del_ends (hev : ev ∈ s.armed) : Ends s t (.del ev) := by
  obtain ⟨x, hx, rfl⟩ := h.item hev
  obtain ⟨timers, t', hdel, hholds, hrb, -, hnow, hset, hdrop⟩ := delTimer_spec h.holds h.redBlack hx
  refine ⟨timers, t', hdel, hnow, ⟨fun y hy => ?_, fun y hy => ?_⟩, fun _ => ?_⟩
  · rw [hdrop, mem_without] at hy
    exact .inl hy.1
  · rw [hdrop, mem_without]
    by_cases heq : y.addr = x.addr
    · exact .inr (heq ▸ mem_singleton_self _)
    · exact .inl ⟨hy, heq⟩
  · exact h.drop hholds hrb hset hdrop s.phase

theorem add_new_ends (hset : ¬ s.timers.timerSet ev = true) (hs : ev ≠ s.timers.tree.sentinel) :
    Ends s t (.add ev timer) := by
  have hev : ev ∉ addrs t.inorder := fun hmem => hset ((h.flags ev).mpr hmem)
  obtain ⟨timers, t', harm, hholds, hrb, -, hnow, hflags, hput⟩ :=
    @arm_placed w s.timers t ev (s.timers.now + timer) h.holds h.redBlack hev hs
  refine ⟨timers, t', ?_, hnow, ⟨fun x hx => ?_, fun x hx => ?_⟩, fun hw => ?_⟩
  · rw [act, addTimer, if_neg hset, harm]
  · exact (hput.mem.mp hx).symm.imp_right fun heq => ⟨ev, timer, rfl, heq⟩
  · exact .inl (hput.mem.mpr (.inr hx))
  · exact h.put (filter_of_notMem hev).symm hholds hrb hflags hput hw

theorem add_again_ends (hset : s.timers.timerSet x.addr = true) (hx : x ∈ t.inorder)
    (hs : x.addr ≠ s.timers.tree.sentinel)
    (hlazy : lazy s.timers x.addr (s.timers.now + timer) = some false) : Ends s t (.add x.addr timer) := by
  obtain ⟨timers1, t1, hdel, hholds1, hrb1, hsent1, hnow1, hflags1, hdrop⟩ := delTimer_spec h.holds h.redBlack hx
  have hev : x.addr ∉ addrs t1.inorder := by
    rw [hdrop, mem_addrs_without]
    exact fun hmem => hmem.2 rfl
  obtain ⟨timers, t', harm, hholds, hrb, -, hnow, hflags, hput⟩ :=
    @arm_placed w timers1 t1 x.addr (s.timers.now + timer) hholds1 hrb1 hev (hsent1 ▸ hs)
  refine ⟨timers, t', ?_, hnow.trans hnow1, ⟨fun y hy => ?_, fun y hy => ?_⟩, fun hw => ?_⟩
  · rw [act, addTimer, if_pos hset, hlazy]
    show (delTimer s.timers x.addr).bind (arm · x.addr (s.timers.now + timer)) = some timers
    rw [hdel, bind_some, harm]
  · rcases hput.mem.mp hy with heq | hy
    · exact .inr ⟨x.addr, timer, rfl, heq⟩
    · rw [hdrop, mem_without] at hy
      exact .inl hy.1
  · by_cases heq : y.addr = x.addr
    · rw [moves, if_pos ⟨hset, hlazy⟩, heq]
      exact .inr mem_cons_self
    refine .inl (hput.mem.mpr (.inr ?_))
    rw [hdrop, mem_without]
    exact ⟨hy, heq⟩
  · refine h.put hdrop hholds hrb ?_ hput hw
    rw [hflags, hflags1, update_idem]

theorem act_ends (ha : ActAllowed s a) (hc : ActCareful s a) : Ends s t a := by
  cases a with
  | del ev => exact del_ends h ha
  | add ev timer =>
    by_cases hset : s.timers.timerSet ev = true
    case neg => exact add_new_ends h hset ha
    case pos =>
      obtain ⟨x, hx, rfl⟩ := mem_map.mp ((h.flags ev).mp hset)
      cases hlazy : lazy s.timers x.addr (s.timers.now + timer) with
      | none =>
        rw [lazy, h.holds.key hx] at hlazy
        cases hlazy
      | some keep =>
        cases keep with
        | false => exact add_again_ends h hset hx ha hlazy
        | true =>
          refine ⟨s.timers, t, ?_, rfl, ⟨fun x => .inl, fun x => .inl⟩, fun _ => ?_⟩
          · rw [act, addTimer, if_pos hset, hlazy]
            rfl
          · exact h.keep hc hx hlazy rfl

end Acts

/-! ## §4 A call of `ngx_event_expire_timers` -/

/-- The key is not later than `now`. -/
def Due (now : BitVec w) (x : RbTree.Item w) : Prop := (x.key - now).toInt ≤ 0

theorem isDue_iff {s : Timers w} : isDue s x.key = true ↔ Due s.now x := decide_eq_true_iff

/-- What is so of the events that fired, during a call and after it: they were due, each
fired once, and in the order of their keys. -/
structure Fired (call : Call w) : Prop where
  due : ∀ x ∈ call.fired, x.addr ∈ call.due ∧ Due call.now x
  once : (addrs call.fired).Nodup
  order : call.fired.Pairwise NotLater

/-- A call that has ended: each event that was due fired, unless a handler moved it. -/
structure Complete (call : Call w) : Prop extends Fired call where
  all : ∀ ev ∈ call.due, ev ∈ addrs call.fired ∨ ev ∈ call.moved

/-- A call with the items `xs` left in the tree. -/
structure Progress (now : BitVec w) (xs : List (RbTree.Item w)) (call : Call w) : Prop extends Fired call where
  time : call.now = now
  pending : ∀ x ∈ xs, Due call.now x → x.addr ∈ call.due ∧ x.addr ∉ addrs call.fired ∧ ∀ y ∈ call.fired, NotLater y x
  left : ∀ ev ∈ call.due, ev ∈ addrs call.fired ∨ ev ∈ call.moved ∨ ∃ x ∈ xs, x.addr = ev ∧ Due call.now x

section Call
variable {now : BitVec w} {xs : List (RbTree.Item w)} {call : Call w} {s : State w}

theorem Progress.fire (h : Progress now (x :: xs) call) (hsorted : (x :: xs).Pairwise NotLater)
    (hnodup : (addrs (x :: xs)).Nodup) (hx : Due call.now x) :
    Progress now xs { call with fired := call.fired ++ [x] } := by
  obtain ⟨hdue, hnot, horder⟩ := h.pending x mem_cons_self hx
  have haddrs : addrs (call.fired ++ [x]) = addrs call.fired ++ [x.addr] := map_append
  refine ⟨⟨fun y hy => ?_, ?_, ?_⟩, h.time, fun y hy hy' => ?_, fun ev hev => ?_⟩
  · rcases mem_append.mp hy with hy | hy
    · exact h.due y hy
    · rw [mem_singleton.mp hy]
      exact ⟨hdue, hx⟩
  · rw [haddrs, ← concat_eq_append, nodup_concat]
    exact ⟨hnot, h.once⟩
  · refine pairwise_append.mpr ⟨h.order, pairwise_singleton _ _, fun y hy z hz => ?_⟩
    rw [mem_singleton.mp hz]
    exact horder y hy
  · obtain ⟨hydue, hynot, hyorder⟩ := h.pending y (mem_cons_of_mem _ hy) hy'
    refine ⟨hydue, ?_, fun z hz => ?_⟩
    · rw [haddrs, mem_append, mem_singleton, not_or]
      refine ⟨hynot, fun heq => (nodup_cons.mp hnodup).1 ?_⟩
      change x.addr ∈ addrs xs
      rw [← heq]
      exact mem_addrs hy
    · rcases mem_append.mp hz with hz | hz
      · exact hyorder z hz
      · rw [mem_singleton.mp hz]
        exact (pairwise_cons.mp hsorted).1 y hy
  · rw [haddrs, mem_append, mem_singleton]
    rcases h.left ev hev with hfired | hmoved | ⟨y, hy, rfl, hy'⟩
    · exact .inl (.inl hfired)
    · exact .inr (.inl hmoved)
    · rcases mem_cons.mp hy with rfl | hy
      · exact .inl (.inr rfl)
      · exact .inr (.inr ⟨y, hy, rfl, hy'⟩)

theorem Progress.stop (h : Progress now xs call) (hxs : ∀ x ∈ xs, ¬ Due now x) : Complete call := by
  refine ⟨h.toFired, fun ev hev => ?_⟩
  rcases h.left ev hev with hfired | hmoved | ⟨x, hx, -, hx'⟩
  · exact .inl hfired
  · exact .inr hmoved
  · exact absurd (h.time ▸ hx') (hxs x hx)

/-- An act of a handler sets only timers that are not due. -/
theorem Progress.act (h : Progress s.timers.now xs call) (ha : Future a) (heffect : Effect s a xs ys) :
    Progress s.timers.now ys { call with moved := moves s a ++ call.moved } := by
  refine ⟨⟨h.due, h.once, h.order⟩, h.time, fun x hx hx' => ?_, fun ev hev => ?_⟩
  · rcases heffect.new x hx with hold | ⟨ev, timer, rfl, rfl⟩
    · exact h.pending x hold hx'
    have hlate : 0 < timer.toInt := ha
    change (s.timers.now + timer - call.now).toInt ≤ 0 at hx'
    rw [h.time, BitVec.add_comm, BitVec.add_sub_cancel] at hx'
    omega
  · rcases h.left ev hev with hfired | hmoved | ⟨x, hx, rfl, hx'⟩
    · exact .inl hfired
    · exact .inr (.inl (mem_append_right _ hmoved))
    · rcases heffect.old x hx with hkept | hmoved
      · exact .inr (.inr ⟨x, hkept, rfl, hx'⟩)
      · exact .inr (.inl (mem_append_left _ hmoved))

theorem Progress.begin (h : Inv s t) : Progress s.timers.now t.inorder ⟨s.timers.now, dueEvents s, [], []⟩ := by
  have hdue : ∀ x ∈ t.inorder, x.addr ∈ dueEvents s ↔ Due s.timers.now x := by
    intro x hx
    have harmed : x.addr ∈ s.armed := (h.armed _).mpr (mem_map_of_mem hx)
    rw [dueEvents, mem_filter, h.holds.key hx]
    simp [harmed, isDue, Due]
  refine ⟨⟨nofun, nodup_nil, List.Pairwise.nil⟩, rfl, fun x hx hx' => ?_, fun ev hev => ?_⟩
  · exact ⟨(hdue x hx).mpr hx', not_mem_nil, nofun⟩
  · obtain ⟨x, hx, rfl⟩ := h.item (mem_filter.mp hev).1
    exact .inr (.inr ⟨x, hx, rfl, (hdue x hx).mp hev⟩)

end Call

section Turn
variable {s : State w} {xs : List (RbTree.Item w)}

/-- If the first key is not due, none is. -/
theorem not_due_of_first {now : BitVec w} (hnow : Within b now) (hx : Within b x.key)
    (hy : Within b y.key) (hxy : NotLater x y) (hlate : ¬ Due now x) : ¬ Due now y := by
  rw [notLater_iff hx hy] at hxy
  rw [Due, hx.toInt_sub hnow] at hlate
  rw [Due, hy.toInt_sub hnow]
  omega

theorem expireTurn_fires (h : Inv s t) (hx : t.inorder = x :: xs) (hdue : Due s.timers.now x) :
    ∃ timers t', expireTurn s.timers = some (timers, some x) ∧ timers.now = s.timers.now ∧ t'.inorder = xs ∧
      ∀ p, Inv { s with timers := timers, armed := s.armed.filter (· ≠ x.addr), phase := p } t' := by
  have hmem : x ∈ t.inorder := hx ▸ mem_cons_self
  obtain ⟨timers, t', hdel, hholds, hrb, -, hnow, hset, hdrop⟩ := delTimer_spec h.holds h.redBlack hmem
  have hturn : expireTurn s.timers = some (timers, some x) := by
    rw [expireTurn, if_neg (h.holds.root_ne hx), h.holds.min hx]
    simp only [bind_eq_bind, bind_some, h.holds.key hmem]
    rw [if_pos (isDue_iff.mpr hdue), hdel]
    rfl
  have hxs : t'.inorder = xs := by
    have hnodup := h.holds.nodup
    rw [hx] at hnodup hdrop
    rw [hdrop]
    exact @filter_middle w xs [] x hnodup
  exact ⟨timers, t', hturn, hnow, hxs, h.drop hholds hrb hset hdrop⟩

theorem expireTurn_stops (h : Inv s t) (hx : t.inorder = x :: xs)
    (hlate : ¬ Due s.timers.now x) : expireTurn s.timers = some (s.timers, none) := by
  rw [expireTurn, if_neg (h.holds.root_ne hx), h.holds.min hx]
  simp only [bind_eq_bind, bind_some, h.holds.key (hx ▸ mem_cons_self)]
  rw [if_neg fun hdue => hlate (isDue_iff.mp hdue)]

theorem expireTurn_spec (h : Inv s t) (hw : Window s) : (∃ x xs timers t', t.inorder = x :: xs ∧ Due s.timers.now x ∧
      expireTurn s.timers = some (timers, some x) ∧ timers.now = s.timers.now ∧ t'.inorder = xs ∧
      ∀ p, Inv { s with timers := timers, armed := s.armed.filter (· ≠ x.addr), phase := p } t') ∨
    (expireTurn s.timers = some (s.timers, none) ∧ ∀ x ∈ t.inorder, ¬ Due s.timers.now x) := by
  obtain ⟨b, hnow, hkeys⟩ := hw.keys h.holds h.armed
  cases hx : t.inorder with
  | nil =>
    refine .inr ⟨?_, nofun⟩
    rw [expireTurn, if_pos (h.holds.root_iff.mpr hx)]
  | cons x xs =>
    by_cases hdue : Due s.timers.now x
    · obtain ⟨timers, t', hturn, hnow', hxs, hinv⟩ := expireTurn_fires h hx hdue
      exact .inl ⟨x, xs, timers, t', rfl, hdue, hturn, hnow', hxs, hinv⟩
    refine .inr ⟨expireTurn_stops h hx hdue, fun y hy => ?_⟩
    have hsorted := h.sorted
    rw [hx] at hsorted hkeys
    rcases mem_cons.mp hy with rfl | hy
    · exact hdue
    · have hxy := (pairwise_cons.mp hsorted).1 y hy
      exact not_due_of_first hnow (hkeys x mem_cons_self) (hkeys y (mem_cons_of_mem _ hy)) hxy hdue

end Turn

/-! ## §5 Every run -/

def Careful (s : State w) : Label w → Prop
  | .act a => ActCareful s a
  | .handle => ∀ call a todo, s.phase = .expiring call (a :: todo) → ActCareful s a
  | _ => True

/-- What the timers promise in a state. -/
structure Right (s : State w) : Prop where
  /-- `ngx_event_find_timer` gives the distance to the earliest key, or 0 if it is due. -/
  find : (s.armed = [] ∧ findTimer s.timers = some infinite) ∨ ∃ ev key, ev ∈ s.armed ∧ s.timers.tree.key ev = some key ∧
      (∀ e ∈ s.armed, ∀ k, s.timers.tree.key e = some k → 0 ≤ (k - key).toInt) ∧
      findTimer s.timers = some (if isDue s.timers key then 0 else key - s.timers.now)
  /-- The key of an armed event is near the expiry last requested for it. -/
  near : ∀ ev ∈ s.armed, ∃ key, s.timers.tree.key ev = some key ∧ (s.requested ev - key).toInt.natAbs < 300
  /-- Each call that has ended fired what was due, once, and in the order of the keys. -/
  calls : ∀ call, s.last = some call → Complete call
  /-- A call fires no more events than were due at its start. -/
  bound : ∀ call todo, s.phase = .expiring call todo → Fired call ∧ call.fired.length ≤ call.due.length
  /-- Nothing that may happen next fails. -/
  progress : ∀ l, Allowed s l → Careful s l → (step s l).isSome

/-- The invariant of a run. -/
structure Good (s : State w) (t : ColorTree (RbTree.Item w)) : Prop extends Inv s t where
  window : Window s
  call : ∀ call todo, s.phase = .expiring call todo → Progress s.timers.now t.inorder call
  last : ∀ call, s.last = some call → Complete call

section Runs
variable {s : State w} {call : Call w} {todo : List (Act w)}

theorem Inv.now (h : Inv s t) (d : BitVec w) (p : Phase w) (last : Option (Call w)) :
    Inv { s with timers := { s.timers with now := d }, phase := p, last := last } t :=
  ⟨h.holds, h.redBlack, h.sorted, h.armed, h.flags, h.near⟩

theorem step_good {l : Label w} (h : Good s t) (hl : Allowed s l) (hc : Careful s l) :
    ∃ s', step s l = some s' ∧ (Window s' → ∃ t', Good s' t') := by
  cases l with
  | act a =>
    obtain ⟨hidle, ha⟩ := hl
    obtain ⟨timers, t', hact, hnow, -, hinv⟩ := act_ends h.toInv ha hc
    simp only [step, hidle, hact, map_some]
    refine ⟨_, rfl, fun hw => ⟨t', hinv hw, hw, fun call todo hphase => ?_, ?_⟩⟩
    · have hphase' : s.phase = .expiring call todo := by cases a <;> exact hphase
      rw [hidle] at hphase'
      cases hphase'
    · cases a <;> exact h.last
  | advance d =>
    have hidle : s.phase = .idle := hl
    simp only [step, hidle]
    refine ⟨_, rfl, fun hw => ⟨t, h.toInv.now _ _ _, hw, fun call todo hphase => ?_, h.last⟩⟩
    cases hphase
  | expire =>
    have hidle : s.phase = .idle := hl
    simp only [step, hidle]
    refine ⟨_, rfl, fun hw => ⟨t, h.toInv.now _ _ _, hw, ?_, h.last⟩⟩
    rintro call todo hphase
    cases hphase
    show Progress s.timers.now t.inorder _
    exact Progress.begin h.toInv
  | turn todo =>
    obtain ⟨call, hphase⟩ := hl
    have hcall := h.call call [] hphase
    rcases expireTurn_spec h.toInv h.window with
      ⟨x, xs, timers, t', hx, hdue, hturn, hnow, hxs, hinv⟩ | ⟨hturn, hlate⟩
    · simp only [step, hphase, hturn, map_some]
      refine ⟨_, rfl, fun hw => ?_⟩
      refine ⟨t', hinv _, hw, ?_, h.last⟩
      rintro call' todo' hphase'
      cases hphase'
      have hnodup := h.holds.nodup
      have hsorted := h.sorted
      rw [hx] at hcall hnodup hsorted
      show Progress timers.now t'.inorder _
      rw [hnow, hxs]
      exact hcall.fire hsorted hnodup (hcall.time ▸ hdue)
    · simp only [step, hphase, hturn, map_some]
      refine ⟨_, rfl, fun hw => ?_⟩
      refine ⟨t, h.toInv.now _ _ _, hw, nofun, ?_⟩
      rintro call' hlast
      cases hlast
      exact hcall.stop hlate
  | handle =>
    obtain ⟨call, a, todo, hphase, ha, hfuture⟩ := hl
    obtain ⟨timers, t', hact, hnow, heffect, hinv⟩ := act_ends h.toInv ha (hc call a todo hphase)
    simp only [step, hphase, hact, map_some]
    refine ⟨_, rfl, fun hw => ?_⟩
    have hcall := (h.call call _ hphase).act hfuture heffect
    refine ⟨t', (hinv hw).now _ _ _, hw, ?_, ?_⟩
    · rintro call' todo' hphase'
      cases hphase'
      cases a <;> exact hnow ▸ hcall
    · cases a <;> exact h.last

theorem start_good {mem : Addr → Option (Node w)} {sentinel : Addr} {now : BitVec w}
    (hsentinel : (mem sentinel).isSome) :
    ∃ timers, init mem sentinel now = some timers ∧ Good (start timers) .leaf := by
  obtain ⟨n, hn⟩ := isSome_iff_exists.mp hsentinel
  obtain ⟨tree, hinit, hsound, -⟩ := init_sound hn
  refine ⟨⟨tree, now, fun _ => false⟩, by rw [init, hinit]; rfl, ⟨hsound.holds, hsound.redBlack, .nil,
    fun ev => Iff.rfl, fun ev => by simp [start, inorder, addrs], nofun⟩, ⟨now, ?_, nofun⟩, nofun, nofun⟩
  show Within now now
  rw [Within, BitVec.sub_self, BitVec.toNat_zero]
  exact Nat.two_pow_pos _

theorem reached_good {s0 : State w} {t0 : ColorTree (RbTree.Item w)} (h0 : Good s0 t0) (h : Reached Careful s0 s) :
    ∃ t, Good s t := by
  induction h with
  | start => exact ⟨t0, h0⟩
  | step _ hl hc hstep hw ih =>
    obtain ⟨t, ht⟩ := ih
    obtain ⟨s', hstep', hgood⟩ := step_good ht hl hc
    cases hstep.symm.trans hstep'
    exact hgood hw

theorem Good.find (h : Good s t) : (s.armed = [] ∧ findTimer s.timers = some infinite) ∨
    ∃ ev key, ev ∈ s.armed ∧ s.timers.tree.key ev = some key ∧
      (∀ e ∈ s.armed, ∀ k, s.timers.tree.key e = some k → 0 ≤ (k - key).toInt) ∧
      findTimer s.timers = some (if isDue s.timers key then 0 else key - s.timers.now) := by
  cases hx : t.inorder with
  | nil =>
    refine .inl ⟨eq_nil_iff_forall_not_mem.mpr fun ev hev => ?_, ?_⟩
    · rw [h.armed, hx] at hev
      cases hev
    · rw [findTimer, if_pos (h.holds.root_iff.mpr hx)]
  | cons x xs =>
    have hmem : x ∈ t.inorder := hx ▸ mem_cons_self
    refine .inr ⟨x.addr, x.key, (h.armed _).mpr (mem_addrs hmem), h.holds.key hmem, fun e he k hk => ?_, ?_⟩
    · obtain ⟨y, hy, rfl⟩ := h.item he
      cases hk.symm.trans (h.holds.key hy)
      have hsorted := h.sorted
      rw [hx] at hy hsorted
      rcases mem_cons.mp hy with rfl | hy
      · rw [BitVec.sub_self]
        simp
      · exact (pairwise_cons.mp hsorted).1 y hy
    · rw [findTimer, if_neg (h.holds.root_ne hx), h.holds.min hx]
      simp only [bind_eq_bind, bind_some, h.holds.key hmem]
      by_cases hdue : (x.key - s.timers.now).toInt ≤ 0
      · rw [if_neg (by omega), isDue, decide_eq_true hdue, if_pos rfl]
      · rw [if_pos (by omega), isDue, decide_eq_false hdue]
        rfl

theorem Fired.length_le (h : Fired call) : call.fired.length ≤ call.due.length := by
  have hsub : addrs call.fired ⊆ call.due := by
    intro ev hev
    obtain ⟨x, hx, rfl⟩ := mem_map.mp hev
    exact (h.due x hx).1
  have hle := (h.once.subperm hsub).length_le
  rwa [addrs, length_map] at hle

theorem Good.right (h : Good s t) : Right s := by
  refine ⟨h.find, fun ev hev => ?_, h.last, fun call todo hphase => ?_, fun l hl hc => ?_⟩
  · obtain ⟨x, hx, rfl⟩ := h.item hev
    exact ⟨x.key, h.holds.key hx, h.near x hx⟩
  · have hfired := (h.call call todo hphase).toFired
    exact ⟨hfired, hfired.length_le⟩
  · obtain ⟨s', hstep, -⟩ := step_good h hl hc
    rw [hstep]
    rfl

end Runs

/-- Memory of nodes that are in no tree. -/
def blank : Addr → Option (Node 32) := fun _ => some ⟨0, NULL, NULL, NULL, .red⟩

/-- One event is armed for the time `now`. -/
structure One (s : State 32) (now : BitVec 32) : Prop where
  armed : s.armed = [2]
  key : s.timers.tree.key 2 = some 0
  set : s.timers.timerSet 2 = true
  sentinel : s.timers.tree.sentinel = 1
  phase : s.phase = .idle
  time : s.timers.now = now

theorem One.window {s : State 32} {now : BitVec 32} (h : One s now) (hnow : now.toNat < 2 ^ 31) : Window s := by
  refine ⟨0#32, ?_, fun ev hev key hkey => ?_⟩
  · rw [Within, h.time, BitVec.sub_zero]
    exact hnow
  · rw [h.armed, mem_singleton] at hev
    subst hev
    cases h.key.symm.trans hkey
    rw [Within]
    decide

theorem arm_one : ∃ timers s, init blank 1 0 = some timers ∧ Allowed (start timers) (.act (.add 2 0)) ∧
    step (start timers) (.act (.add 2 0)) = some s ∧ One s 0 ∧ s.requested 2 = 0 :=
  ⟨_, _, rfl, ⟨rfl, Nat.succ_ne_self 1⟩, rfl, ⟨rfl, rfl, rfl, rfl, rfl, rfl⟩, rfl⟩

end GokuStudio.Nginx.Timer

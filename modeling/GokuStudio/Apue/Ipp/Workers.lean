import GokuStudio.Lib.Dlist
import GokuStudio.Lib.Runs
import GokuStudio.Lib.Walk

/-!
# The worker list of the print spooler (`printd.c`)

Every client thread has an entry in a doubly linked list that starts at `workers`
and has no tail variable. `add_worker` puts the entry in front, but when the list
is not empty it does not make `workers` point to it: the entry cannot be reached
then, so that it is neither cancelled nor freed (`second_worker_lost`).

`kept_iff`: the list is right all along exactly if every `add_worker` finds an empty
list. `client_cleanup` is right for every list.
-/

namespace GokuStudio.Apue.Ipp

open Lib Function Links
open List hiding Chain

structure Worker where
  tid : Nat
  sockfd : Nat
deriving DecidableEq, Repr

/-- The list, and what is in its entries. `closed` are the entries whose socket was
closed and that were freed. `live` are the threads that called `add_worker` and not
yet `client_cleanup`, and `cleaned` those that called both. -/
structure Workers where
  links : Links
  info : Nat → Worker
  closed : List Worker
  live : List Worker
  cleaned : List Worker

namespace Workers

def init : Workers := ⟨.empty, fun _ => ⟨0, 0⟩, [], [], []⟩

section
variable (s : Workers)

/-- `add_worker`; `wtp` is what `malloc` returns. -/
def addWorker (w : Worker) (wtp : Nat) : Option Workers :=
  if wtp = 0 then some s
  else do
    let l := s.links.alloc wtp 0 0
    let l ← l.setPrev wtp 0
    let l ← l.setNext wtp l.head
    let l ← if l.head = 0 then some { l with head := wtp } else l.setPrev l.head wtp
    return { s with links := l, info := update s.info wtp w }

/-- `if (a != NULL) a->prev = v;` -/
def setPrevIf (l : Links) (a v : Nat) : Option Links := if a ≠ 0 then l.setPrev a v else some l

/-- `client_cleanup` takes the entry off the list. -/
def unlinkWorker (l : Links) (wtp : Nat) : Option Links := do
  let l ← setPrevIf l (← l.next wtp) (← l.prev wtp)
  l.setNextOrHead (← l.prev wtp) (← l.next wtp)

/-- `client_cleanup` -/
def clientCleanup (tid : Nat) : Option Workers := do
  let wtp ← walk s.links.next (fun a => (s.info a).tid == tid) s.links.head
  if wtp = 0 then return s
  let l ← unlinkWorker s.links wtp
  return { s with links := l.free wtp, closed := s.closed ++ [s.info wtp] }

/-- The threads that `kill_workers` cancels. -/
def killWorkers : Option (List Nat) := (visit s.links.next s.links.head).map (·.map fun a => (s.info a).tid)

inductive Event where
  | add (w : Worker) (wtp : Nat)
  | cleanup (tid : Nat)
deriving DecidableEq, Repr

/-- The history of a call of `add_worker`. -/
def born (w : Worker) (wtp : Nat) (s : Workers) : Workers :=
  if wtp = 0 then s else { s with live := w :: s.live }

/-- The history of a call of `client_cleanup`. -/
def gone (tid : Nat) (s : Workers) : Workers :=
  { s with live := s.live.filter (·.tid != tid),
           cleaned := s.cleaned ++ s.live.filter (·.tid == tid) }

def step : Event → Option Workers
  | .add w wtp => (s.addWorker w wtp).map (born w wtp)
  | .cleanup tid => (s.clientCleanup tid).map (gone tid)

/-- A thread is added once, and `malloc` returns memory that is not in use. -/
def Proper : Event → Prop
  | .add w wtp => wtp ≠ 0 → w.tid ∉ s.live.map Worker.tid ∧ s.links.next wtp = none ∧ s.links.prev wtp = none
  | .cleanup _ => True

def withTail (l : Links) (t : Nat) : Links := { l with tail := t }

/-- The list from `workers` is made of the entries of the live threads, each once,
forwards and backwards, and there is no other entry. `kill_workers` cancels all of
them, and the other entries have been closed and freed. -/
structure Kept : Prop where
  list : ∃ xs tail, (withTail s.links tail).Shows xs ∧ xs.map s.info = s.live ∧ ∀ a, s.links.Has a → a ∈ xs
  once : (s.live.map Worker.tid).Nodup
  kill : s.killWorkers = some (s.live.map Worker.tid)
  closed : s.closed = s.cleaned

/-- `add_worker` finds an empty list. -/
def FindsNone : Event → Prop
  | .add _ wtp => wtp ≠ 0 → s.links.head = 0
  | .cleanup _ => True

end

/-! ## Cleaning up -/

section Cleanup
variable {s : Workers} {l l' : Links} {t x : Nat} {xs pre post : List Nat} {w : Worker}

theorem setPrevOrTail_withTail {a v : Nat} : (withTail l t).setPrevOrTail a v =
      (setPrevIf l a v).map (withTail · (if a = 0 then v else t)) := by
  rw [setPrevOrTail, setPrevIf]
  by_cases ha : a = 0
  · simp [ha, withTail]
  · simp only [ha, if_false, ne_eq, not_false_eq_true, if_true, setPrev, withTail]
    cases l.prev a <;> rfl

theorem setNextOrHead_withTail {a v : Nat} :
    (withTail l t).setNextOrHead a v = (l.setNextOrHead a v).map (withTail · t) := by
  rw [setNextOrHead, setNextOrHead]
  by_cases ha : a = 0
  · simp [ha, withTail]
  · simp only [ha, if_false, setNext, withTail]
    cases l.next a <;> rfl

/-- With a tail variable `client_cleanup` would be the removal from a list. -/
theorem unlinkWorker_eq (h : (withTail l t).remove x = some l') :
    ∃ l1 t', unlinkWorker l x = some l1 ∧ l' = withTail l1 t' := by
  rw [remove] at h
  simp only [Option.bind_eq_bind, setPrevOrTail_withTail, Option.bind_eq_some_iff, Option.map_eq_some_iff] at h
  obtain ⟨n, hn, p, hp, l1, ⟨l2, hl2, rfl⟩, p', hp', n', hn', hlast⟩ := h
  rw [setNextOrHead_withTail, Option.map_eq_some_iff] at hlast
  obtain ⟨l3, hl3, rfl⟩ := hlast
  refine ⟨l3, _, ?_, rfl⟩
  rw [unlinkWorker]
  simp only [Option.bind_eq_bind, Option.bind_eq_some_iff]
  exact ⟨n, hn, p, hp, l2, hl2, p', hp', n', hn', hl3⟩

theorem killWorkers_eq (h : Chain s.links.fwd 0 xs) : s.killWorkers = some (xs.map fun a => (s.info a).tid) := by
  have hnext : ∀ a ∈ xs, s.links.next a = s.links.fwd a := fun _ ha => (fwd_of_ne (h.ne_zero ha)).symm
  rw [killWorkers, visit_chain h hnext rfl]
  rfl

theorem filter_tid_eq {ws : List Worker} (hnd : (ws.map Worker.tid).Nodup)
    (hw : w ∈ ws) : ws.filter (·.tid == w.tid) = [w] := by
  induction ws with
  | nil => simp at hw
  | cons v ws ih =>
    rw [map_cons, nodup_cons] at hnd
    have hother : ∀ u ∈ ws, u.tid ≠ v.tid := fun u hu he =>
      hnd.1 (he ▸ mem_map_of_mem hu)
    rcases mem_cons.mp hw with rfl | hw
    · rw [filter_cons_of_pos (by simp), filter_eq_nil_iff.mpr (by simpa using hother)]
    · rw [filter_cons_of_neg (by simpa using (hother w hw).symm), ih hnd.2 hw]

theorem filter_tid_ne {pre post : List Worker} (hnd : ((pre ++ w :: post).map Worker.tid).Nodup) :
    (pre ++ w :: post).filter (·.tid != w.tid) = pre ++ post := by
  rw [map_append, map_cons] at hnd
  have hnotin := (nodup_middle.mp hnd).notMem
  rw [← map_append] at hnotin
  have hall : ∀ u ∈ pre ++ post, (u.tid != w.tid) = true := by
    intro u hu
    have hne : u.tid ≠ w.tid := fun he => hnotin (he ▸ mem_map_of_mem hu)
    simpa using hne
  rw [filter_append, filter_cons_of_neg (by simp), ← filter_append]
  exact filter_eq_self.mpr hall

/-- `client_cleanup` takes the thread's entry off, closes its socket and frees it;
a thread that has no entry changes nothing. -/
theorem Kept.cleanup (h : s.Kept) (tid : Nat) : ∃ s', s.clientCleanup tid = some s' ∧ (gone tid s').Kept := by
  obtain ⟨xs, t, hlist, hmap, hall⟩ := h.list
  have hwalk : walk s.links.next (fun a => (s.info a).tid == tid) s.links.head = _ :=
    walk_chain _ hlist.forward (fun _ ha => (fwd_of_ne (hlist.ne_zero ha)).symm) rfl
  have honce : ((s.live.filter (·.tid != tid)).map Worker.tid).Nodup := h.once.sublist (filter_sublist.map _)
  rw [clientCleanup, hwalk]
  cases hfind : xs.find? fun a => (s.info a).tid == tid with
  | none =>
    -- the thread has no entry
    have hno : ∀ w ∈ s.live, w.tid ≠ tid := by
      intro w hw
      rw [← hmap] at hw
      obtain ⟨a, ha, rfl⟩ := mem_map.mp hw
      simpa using find?_eq_none.mp hfind a ha
    have hlive : s.live.filter (·.tid != tid) = s.live := filter_eq_self.mpr (by simpa using hno)
    have hcleaned : s.live.filter (·.tid == tid) = [] := filter_eq_nil_iff.mpr (by simpa using hno)
    have hgone : gone tid s = s := by rw [gone, hlive, hcleaned, append_nil]
    exact ⟨s, rfl, hgone.symm ▸ h⟩
  | some x =>
    obtain ⟨hx, pre, post, rfl, -⟩ := find?_eq_some_iff_append.mp hfind
    have htid : (s.info x).tid = tid := by simpa using hx
    have hx0 : x ≠ 0 := hlist.ne_zero (by simp)
    have hnotin := (nodup_middle.mp hlist.forward.nodup).notMem
    -- the entry comes off as from a list with a tail, which `unlinkWorker` does not keep
    obtain ⟨l', hrun, hl', hhas⟩ := hlist.remove
    obtain ⟨l1, t', hun, rfl⟩ := unlinkWorker_eq hrun
    have hfree : (withTail (l1.free x) t').Shows (pre ++ post) := hl'.free hnotin
    rw [map_append, map_cons] at hmap
    have hlive : (pre ++ post).map s.info = s.live.filter (·.tid != tid) := by
      rw [← hmap, ← htid, filter_tid_ne (hmap ▸ h.once), map_append]
    have hcleaned : s.live.filter (·.tid == tid) = [s.info x] := by
      rw [← htid]
      exact filter_tid_eq h.once (by rw [← hmap]; simp)
    refine ⟨{ s with links := l1.free x, closed := s.closed ++ [s.info x] }, ?_,
      ⟨pre ++ post, t', hfree, hlive, fun a ha => ?_⟩, honce, ?_, ?_⟩
    · simp [hx0, hun]
    · obtain ⟨hax, ha⟩ := has_free.mp ha
      exact (mem_unlink_iff hlist.forward.nodup a).mpr ⟨hall a ((hhas a).mp ha), hax⟩
    · have hkill : (pre ++ post).map (fun a => (s.info a).tid) = (s.live.filter (·.tid != tid)).map Worker.tid := by
        rw [← hlive, map_map]
        rfl
      exact (killWorkers_eq hfree.forward).trans (congrArg some hkill)
    · change s.closed ++ [s.info x] = s.cleaned ++ s.live.filter (·.tid == tid)
      rw [hcleaned, h.closed]

end Cleanup

/-! ## Adding -/

section Add
variable {s s' : Workers} {w : Worker} {wtp : Nat}

theorem init_kept : init.Kept where
  list := ⟨[], 0, empty_shows, rfl, fun _ ha => absurd rfl ha.1⟩
  once := nodup_nil
  kill := @killWorkers_eq init [] rfl
  closed := rfl

/-- An empty list takes the entry. -/
theorem addWorker_empty (hwtp : wtp ≠ 0) (hhead : s.links.head = 0) : s.addWorker w wtp = some { s with
      links := { s.links.alloc wtp 0 0 with head := wtp }, info := update s.info wtp w } := by
  simp [addWorker, hwtp, setPrev, setNext, alloc, hhead]

/-- A list that is not empty still starts where it started. -/
theorem addWorker_nonempty (hwtp : wtp ≠ 0) (hhead : s.links.head ≠ 0)
    (hrun : s.addWorker w wtp = some s') :
    s'.links.head = s.links.head ∧ (∀ a, a ≠ wtp → s'.links.next a = s.links.next a) ∧ s'.live = s.live := by
  simp only [addWorker, hwtp, if_false, setPrev, setNext, alloc, hhead,
    update_self, Option.map_some, Option.bind_eq_bind, Option.bind_some,
    Option.bind_eq_some_iff, Option.map_eq_some_iff] at hrun
  obtain ⟨l, ⟨p, hp, rfl⟩, hs'⟩ := hrun
  obtain rfl := Option.some.inj hs'
  refine ⟨rfl, fun a ha => ?_, rfl⟩
  simp [ha]

theorem Kept.add (h : s.Kept) (hnone : s.FindsNone (.add w wtp)) :
    ∃ s', s.addWorker w wtp = some s' ∧ (born w wtp s').Kept := by
  by_cases hwtp : wtp = 0
  · refine ⟨s, by rw [addWorker, if_pos hwtp], ?_⟩
    rw [born, if_pos hwtp]
    exact h
  obtain ⟨xs, t, hlist, hmap, hall⟩ := h.list
  have hhead : s.links.head = 0 := hnone hwtp
  obtain rfl : xs = [] := by
    cases xs with
    | nil => rfl
    | cons x xs => exact absurd (hlist.head_eq.symm.trans hhead) (hlist.ne_zero (by simp))
  have hlive : s.live = [] := hmap.symm
  refine ⟨_, addWorker_empty hwtp hhead, ?_⟩
  rw [born, if_neg hwtp]
  have hlist' : (withTail { s.links.alloc wtp 0 0 with head := wtp } wtp).Shows [wtp] := by
    refine ⟨⟨rfl, hwtp, ?_⟩, ⟨rfl, hwtp, ?_⟩⟩
    · simp [Chain, fwd, withTail, alloc, hwtp]
    · simp [Chain, bwd, withTail, alloc, hwtp]
  refine ⟨⟨[wtp], wtp, hlist', ?_, fun a ha => ?_⟩, ?_, ?_, h.closed⟩
  · simp [hlive]
  · have hcase : a = wtp ∨ s.links.Has a := has_alloc.mp ha
    rcases hcase with rfl | ha
    · exact mem_cons_self ..
    · exact absurd (hall a ha) not_mem_nil
  · simp [hlive]
  · refine (killWorkers_eq hlist'.forward).trans ?_
    simp [hlive]

/-- The list from `workers` does not have the new entry. -/
theorem Kept.findsNone (h : s.Kept) (hproper : s.Proper (.add w wtp))
    (hrun : s.addWorker w wtp = some s') (h' : (born w wtp s').Kept) :
    s.FindsNone (.add w wtp) := by
  intro hwtp
  by_contra hhead
  obtain ⟨xs, t, hlist, hmap, -⟩ := h.list
  obtain ⟨xs', t', hlist', hmap', -⟩ := h'.list
  rw [born, if_neg hwtp] at hlist' hmap'
  obtain ⟨hhead', hnext', hlive'⟩ := addWorker_nonempty hwtp hhead hrun
  -- the list from `workers` is still the old one, one entry short of `live`
  have hsame : Chain (withTail s'.links t').fwd 0 xs := by
    refine hlist.forward.congr fun a ha => ?_
    rcases mem_cons.mp ha with rfl | ha
    · exact congrArg some hhead'
    have haw : a ≠ wtp := by
      rintro rfl
      exact (hlist.has ha).1 (hproper hwtp).2.1
    rw [fwd_of_ne (hlist.ne_zero ha), fwd_of_ne (hlist.ne_zero ha)]
    exact hnext' a haw
  have hxs : xs' = xs := hlist'.forward.unique hsame
  have hlen := congrArg length hmap'
  rw [hxs, hlive', ← hmap] at hlen
  simp at hlen

end Add

/-- The list is right all along if and only if every `add_worker` finds it empty. -/
theorem kept_iff {es : List Event} (hproper : MeetsPartial step Proper init es) :
    AlongPartial step Kept init es ↔ MeetsPartial step FindsNone init es := by
  refine alongPartial_iff_meets (fun s e h hV hF => ?_) (fun s e s' h hV hrun hP => ?_) init_kept hproper
  · cases e with
    | add w wtp =>
      obtain ⟨s', hrun, hs'⟩ := h.add hF
      exact ⟨_, by rw [step, hrun]; rfl, hs'⟩
    | cleanup tid =>
      obtain ⟨s', hrun, hs'⟩ := h.cleanup tid
      exact ⟨_, by rw [step, hrun]; rfl, hs'⟩
  · cases e with
    | add w wtp =>
      obtain ⟨s₁, hadd, rfl⟩ := Option.map_eq_some_iff.mp hrun
      exact h.findsNone hV hadd hP
    | cleanup tid => trivial

theorem kept_one_worker : AlongPartial step Kept init [.add ⟨1, 10⟩ 100, .cleanup 1] := by
  have hproper : MeetsPartial step Proper init [.add ⟨1, 10⟩ 100, .cleanup 1] :=
    ⟨fun _ => ⟨by decide, rfl, rfl⟩, fun _ _ => ⟨trivial, fun _ _ => trivial⟩⟩
  exact (kept_iff hproper).mpr ⟨fun _ => rfl, fun _ _ => ⟨trivial, fun _ _ => trivial⟩⟩

/-- With two live workers `kill_workers` cancels the first one only. -/
theorem second_worker_lost : ∃ s, [Event.add ⟨1, 10⟩ 100, .add ⟨2, 11⟩ 200].foldlM step init = some s ∧
      s.live = [⟨2, 11⟩, ⟨1, 10⟩] ∧ s.killWorkers = some [1] :=
  ⟨_, rfl, rfl, @killWorkers_eq _ [100] ⟨rfl, by decide, rfl⟩⟩

end Workers
end GokuStudio.Apue.Ipp

import GokuStudio.Lib.Dlist
import GokuStudio.Lib.Runs
import GokuStudio.Lib.Walk

/-!
# The job queue under a reader-writer lock (`rwlock.c`)

A doubly linked list of jobs, changed under the write lock. `job_remove` moves
`q_head` or `q_tail` when the job is the first or the last one, and leaves the link
of its neighbour to it. So the removed job is still found from the other end, or by
`job_find` (`removed_job_found`).

`linked_iff`: the two chains are right all along exactly if every job that is removed
is the only one of the queue or is neither the first nor the last.
-/

namespace GokuStudio.Apue.Threads

open Lib Function List Option Links

/-- `struct queue` with the jobs in memory, and the jobs that were inserted and not
removed, in their order. -/
structure RwQueue where
  links : Links
  jId : Nat → Nat
  jobs : List Nat

namespace RwQueue

/-- `queue_init` -/
def init : RwQueue := ⟨.empty, fun _ => 0, []⟩

def jobInsert (l : Links) (jp : Nat) : Option Links := l.pushFront jp
def jobAppend (l : Links) (jp : Nat) : Option Links := l.pushBack jp

def jobRemove (l : Links) (jp : Nat) : Option Links :=
  if jp = l.head then do
    let l := { l with head := ← l.next jp }
    return if l.tail = jp then { l with tail := 0 } else l
  else if jp = l.tail then do
    let l := { l with tail := ← l.prev jp }
    return if l.head = jp then { l with head := 0 } else l
  else do
    let l ← l.setNext (← l.prev jp) (← l.next jp)
    l.setPrev (← l.next jp) (← l.prev jp)

section
variable (s : RwQueue)

def jobFind (id : Nat) : Option Nat := walk s.links.next (fun jp => s.jId jp == id) s.links.head

inductive Event where
  | insert (jp id : Nat)
  | append (jp id : Nat)
  | remove (jp : Nat)
deriving DecidableEq, Repr

/-- The caller's job, before it is put into the queue. -/
def job (jp id : Nat) : RwQueue :=
  { s with links := s.links.alloc jp 0 0, jId := update s.jId jp id }

def step : Event → Option RwQueue
  | .insert jp id => (jobInsert (s.job jp id).links jp).map fun l =>
    { s.job jp id with links := l, jobs := jp :: s.jobs }
  | .append jp id => (jobAppend (s.job jp id).links jp).map fun l =>
    { s.job jp id with links := l, jobs := s.jobs ++ [jp] }
  | .remove jp => (jobRemove s.links jp).map fun l =>
    { s with links := l, jobs := s.jobs.erase jp }

/-- Jobs that are put in are not in the queue, and jobs that are removed are. -/
def Proper : Event → Prop
  | .insert jp _ => jp ≠ 0 ∧ jp ∉ s.jobs
  | .append jp _ => jp ≠ 0 ∧ jp ∉ s.jobs
  | .remove jp => jp ∈ s.jobs

/-- The chain from `q_head` and the chain from `q_tail` are made of the jobs, and
`job_find` finds no other. -/
structure Linked : Prop where
  list : s.links.Shows s.jobs
  find : ∀ id, ∃ jp, s.jobFind id = some jp ∧ (jp = 0 ∨ jp ∈ s.jobs)

/-- The job removed is first and last, or neither. -/
def NotAtOneEnd : Event → Prop
  | .remove jp => jp = s.links.head ↔ jp = s.links.tail
  | _ => True

end

instance (s : RwQueue) : ∀ e, Decidable (s.Proper e)
  | .insert _ _ | .append _ _ => inferInstanceAs (Decidable (_ ∧ _))
  | .remove jp => inferInstanceAs (Decidable (jp ∈ s.jobs))

instance (s : RwQueue) : ∀ e, Decidable (s.NotAtOneEnd e)
  | .insert _ _ | .append _ _ => isTrue trivial
  | .remove _ => inferInstanceAs (Decidable (_ ↔ _))

section Steps
variable {s s' : RwQueue} {l l' : Links} {jp id : Nat} {xs pre post : List Nat}

theorem jobFind_eq (h : Chain s.links.fwd 0 xs) (id : Nat) :
    s.jobFind id = some ((xs.find? fun jp => s.jId jp == id).getD 0) :=
  walk_chain _ h (fun _ ha => (fwd_of_ne (h.ne_zero ha)).symm) rfl

theorem linked_of_shows (h : s.links.Shows s.jobs) : s.Linked := by
  refine ⟨h, fun id => ⟨_, jobFind_eq h.forward id, ?_⟩⟩
  cases hf : s.jobs.find? fun jp => s.jId jp == id with
  | none => exact .inl rfl
  | some jp => exact .inr (mem_of_find?_eq_some hf)

/-- A job between two others is taken off as it should be. -/
theorem jobRemove_middle {x y : Nat} (h : l.Shows (x :: pre ++ jp :: y :: post)) :
    ∃ l', jobRemove l jp = some l' ∧ l'.Shows (x :: pre ++ y :: post) := by
  have hnd := h.forward.nodup
  have hnotin := (nodup_middle.mp hnd).notMem
  have hhead : jp ≠ l.head := by
    rw [h.head_eq]
    exact fun he => hnotin (he ▸ by simp)
  have htail : jp ≠ l.tail := by
    have hsplit : l.Shows ((x :: pre ++ [jp]) ++ y :: post) := by simpa using h
    exact fun he => hnotin (mem_append_right _ (he ▸ hsplit.tail_mem))
  have hjp0 : jp ≠ 0 := h.ne_zero (by simp)
  have hy : y ∈ x :: pre ++ jp :: y :: post := by simp
  have hyjp : y ≠ jp := fun he => hnotin (he ▸ by simp)
  have hnext := h.next_eq
  have hprev := h.prev_eq
  have hunlink := h.unlink
  -- the node before
  obtain ⟨p, hp, hpeq⟩ : ∃ p, p ∈ x :: pre ∧ (x :: pre).reverse.headD 0 = p :=
    ⟨_, lastCell_mem x pre, (lastCell_eq_headD 0 (x :: pre)).symm⟩
  rw [hpeq] at hprev hunlink
  rw [hnext, hprev] at hunlink
  have hpmem : p ∈ x :: pre ++ jp :: y :: post := mem_append_left _ hp
  have hpjp : p ≠ jp := fun he => hnotin (mem_append_left _ (he ▸ hp))
  have hnext' : l.next jp = some y := by rw [← fwd_of_ne hjp0]; exact hnext
  have hprev' : l.prev jp = some p := by rw [← bwd_of_ne hjp0]; exact hprev
  have hnext1 : (l.writeFwd p y).next jp = some y := by
    rw [← fwd_of_ne hjp0, fwd_writeFwd, update_of_ne hpjp.symm]
    exact hnext
  have hprev1 : (l.writeFwd p y).prev jp = some p := by
    rw [← bwd_of_ne hjp0, bwd_writeFwd]
    exact hprev
  have hset := setNext_eq (v := y) (h.ne_zero hpmem) (h.has hpmem)
  have hset1 := setPrev_eq (v := p) (h.ne_zero hy) ((has_writeFwd (v := y) (.inr (h.has hpmem))).mpr (h.has hy))
  refine ⟨(l.writeFwd p y).writeBwd y p, ?_, ?_⟩
  · simp only [jobRemove, if_neg hhead, if_neg htail, hnext', hprev', hset, hnext1, hprev1, hset1,
      bind_eq_bind, bind_some]
  · rw [Links.Shows, fwd_writeBwd, fwd_writeFwd, bwd_writeBwd, bwd_writeFwd]
    exact hunlink

/-- The only job leaves an empty queue. -/
theorem jobRemove_sole (h : l.Shows [jp]) : ∃ l', jobRemove l jp = some l' ∧ l'.Shows [] := by
  have hjp0 : jp ≠ 0 := h.ne_zero (by simp)
  have hhead : l.head = jp := h.head_eq
  have htail : l.tail = jp := h.tail_eq
  have hnext : l.next jp = some 0 := by
    rw [← fwd_of_ne hjp0]
    have hfirst : l.Shows ([] ++ [jp]) := h
    exact hfirst.next_eq
  refine ⟨{ l with head := 0, tail := 0 }, ?_, ⟨rfl, rfl⟩⟩
  simp [jobRemove, hhead, htail, hnext]

/-- When the first of several jobs goes, nothing changes for the way back. -/
theorem jobRemove_head (hhead : jp = l.head) (htail : jp ≠ l.tail) (hrun : jobRemove l jp = some l') :
    l'.bwd = l.bwd := by
  rw [jobRemove, if_pos hhead] at hrun
  cases hn : l.next jp with
  | none => simp [hn] at hrun
  | some n =>
    simp only [hn, Option.bind_eq_bind, Option.bind_some, if_neg htail.symm, Option.pure_def, Option.some.injEq] at hrun
    rw [← hrun]
    rfl

theorem jobRemove_tail (hhead : jp ≠ l.head) (htail : jp = l.tail) (hrun : jobRemove l jp = some l') :
    l'.fwd = l.fwd := by
  rw [jobRemove, if_neg hhead, if_pos htail] at hrun
  cases hp : l.prev jp with
  | none => simp [hp] at hrun
  | some p =>
    simp only [hp, Option.bind_eq_bind, Option.bind_some, if_neg hhead.symm, Option.pure_def, Option.some.injEq] at hrun
    rw [← hrun]
    rfl

theorem jobRemove_good (h : l.Shows xs) (hjp : jp ∈ xs) (hends : jp = l.head ↔ jp = l.tail) :
    ∃ l', jobRemove l jp = some l' ∧ l'.Shows (xs.erase jp) := by
  obtain ⟨pre, post, rfl⟩ := append_of_mem hjp
  have hnd := h.forward.nodup
  have hnotin := (nodup_middle.mp hnd).notMem
  have hhead := h.head_eq
  have htail := h.tail_mem
  rw [erase_of_split hnd]
  cases pre with
  | nil =>
    cases post with
    | nil => exact jobRemove_sole h
    | cons y post =>
      have hfirst : l.Shows ([jp] ++ y :: post) := h
      have hmem := hfirst.tail_mem
      rw [← hends.mp hhead.symm] at hmem
      exact absurd hmem hnotin
  | cons x pre =>
    cases post with
    | nil =>
      have hx : jp = x := (hends.mpr (mem_singleton.mp htail).symm).trans hhead
      exact absurd (by simp [hx]) hnotin
    | cons y post => exact jobRemove_middle h

/-- With a neighbour at one side only, one of the two chains stays as it was. -/
theorem jobRemove_bad (h : l.Shows xs) (hjp : jp ∈ xs) (hrun : jobRemove l jp = some l')
    (h' : l'.Shows (xs.erase jp)) : jp = l.head ↔ jp = l.tail := by
  have hlen : (xs.erase jp).length ≠ xs.length := by
    rw [length_erase_of_mem hjp]
    have := length_pos_of_mem hjp
    omega
  constructor
  · intro hhead
    by_contra htail
    have hback := h'.backward
    rw [jobRemove_head hhead htail hrun] at hback
    have := congrArg length (hback.unique h.backward)
    rw [length_reverse, length_reverse] at this
    exact hlen this
  · intro htail
    by_contra hhead
    have hfor := h'.forward
    rw [jobRemove_tail hhead htail hrun] at hfor
    exact hlen (congrArg length (hfor.unique h.forward))

theorem init_linked : init.Linked := linked_of_shows empty_shows

theorem Linked.job (h : s.Linked) (hjp : jp ∉ s.jobs) (id : Nat) :
    (s.job jp id).links.Shows s.jobs := h.list.alloc hjp 0 0

end Steps

/-- Both chains and `job_find` are right all along if and only if no job is removed
that is at one end of the queue and not at the other. -/
theorem linked_iff {es : List Event} (hproper : MeetsPartial step Proper init es) :
    AlongPartial step Linked init es ↔ MeetsPartial step NotAtOneEnd init es := by
  refine alongPartial_iff_meets (fun s e h hV hF => ?_) (fun s e s' h hV hrun hP => ?_) init_linked hproper
  · cases e with
    | insert jp id =>
      obtain ⟨l, hrun, hl, -⟩ := (h.job hV.2 id).pushFront hV.1 hV.2 (has_alloc.mpr (.inl rfl))
      exact ⟨_, by rw [step, jobInsert, hrun]; rfl, linked_of_shows hl⟩
    | append jp id =>
      obtain ⟨l, hrun, hl, -⟩ := (h.job hV.2 id).pushBack hV.1 hV.2 (has_alloc.mpr (.inl rfl))
      exact ⟨_, by rw [step, jobAppend, hrun]; rfl, linked_of_shows hl⟩
    | remove jp =>
      obtain ⟨l, hrun, hl⟩ := jobRemove_good h.list hV hF
      exact ⟨_, by rw [step, hrun]; rfl, linked_of_shows hl⟩
  · cases e with
    | insert | append => trivial
    | remove jp =>
      obtain ⟨l, hremove, rfl⟩ := map_eq_some_iff.mp hrun
      exact jobRemove_bad h.list hV hremove hP.list

/-- Three jobs, and the one in the middle is removed. -/
theorem linked_middle_removed : AlongPartial step Linked init [.insert 100 1, .append 200 2, .append 300 3, .remove 200] :=
  (linked_iff (by decide)).mpr (by decide)

/-- The last of two jobs is removed, and `job_find` still returns it. -/
theorem removed_job_found : ∃ s, [Event.insert 100 1, .append 200 2, .remove 200].foldlM step init = some s ∧
      s.jobs = [100] ∧ s.jobFind 2 = some 200 := by
  refine ⟨_, rfl, rfl, (@jobFind_eq _ [100, 200] ?_ 2).trans rfl⟩
  exact ⟨rfl, by decide, rfl, by decide, rfl⟩

end RwQueue
end GokuStudio.Apue.Threads

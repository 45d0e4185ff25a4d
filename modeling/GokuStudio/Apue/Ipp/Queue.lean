import GokuStudio.Lib.Dlist

/-!
# The job queue of the print spooler (`printd.c`)

Client threads append jobs, and the printer thread takes the first job, prints or
cancels it, or puts it back in front. Each of these is one critical section under
`joblock`.

The jobs are counted as they are added. `queue_exact`: after any critical sections
in any order the list is well formed, and holds the jobs that it should hold. While
a job waits, no job that was added after it has been taken up.
-/

namespace GokuStudio.Apue.Ipp

open Lib Function List Option

/-- `jobhead`, `jobtail` and the jobs in memory, and the job that the printer thread
has. The other fields are the history: `nth` says which call of `add_job` a job
comes from. -/
structure JobQueue where
  links : Links
  printer : Option Nat
  nth : Nat → Nat
  added : Nat
  finished : List Nat
  taken : List Nat

namespace JobQueue

def init : JobQueue := ⟨.empty, none, fun _ => 0, 0, [], []⟩

/-- Where `malloc` may put a new job. -/
def Unused (l : Links) (jp : Nat) : Prop := jp ≠ 0 ∧ l.next jp = none ∧ l.prev jp = none

instance (l : Links) (jp : Nat) : Decidable (Unused l jp) := inferInstanceAs (Decidable (_ ∧ _))

section
variable (s : JobQueue) (jp : Nat)

def addJob : Option JobQueue := do
  let l ← (s.links.alloc jp 0 0).pushBack jp
  return { s with links := l, nth := update s.nth jp s.added, added := s.added + 1 }

def removeJob (target : Nat) : Option JobQueue := do
  let l ← s.links.remove target
  return { s with links := l }

def replaceJob : Option JobQueue := do
  let l ← s.links.pushFront jp
  return { s with links := l }

/-- `free(jp)`, after the job is printed or cancelled. -/
def freeJob : JobQueue :=
  { s with links := s.links.free jp, printer := none, finished := s.nth jp :: s.finished }

inductive Event where
  /-- `add_job`, with the address of the new job. -/
  | add (jp : Nat)
  /-- The printer thread takes the first job. -/
  | pickUp
  /-- It frees the job, which is printed or cancelled. -/
  | finish
  /-- It puts the job back. -/
  | defer
deriving DecidableEq, Repr

/-- An event whose turn it is not changes nothing: the printer thread waits, and
`malloc` does not return memory that is in use. -/
def step : Event → Option JobQueue
  | .add jp => if Unused s.links jp then s.addJob jp else some s
  | .pickUp =>
    if s.printer = none ∧ s.links.head ≠ 0 then do
      let jp := s.links.head
      let s ← s.removeJob jp
      return { s with printer := some jp, taken := s.taken ++ [s.nth jp] }
    else some s
  | .finish => match s.printer with
    | none => some s
    | some jp => some (s.freeJob jp)
  | .defer => match s.printer with
    | none => some s
    | some jp => do
        let s ← s.replaceJob jp
        return { s with printer := none }

/-- The job that the printer thread has and the jobs in the list, each by its place
in the order of adding. -/
def pending (xs : List Nat) : List Nat := (s.printer.toList ++ xs).map s.nth

/-- The list is `xs`, and the pending jobs are in the order of adding. -/
structure Ordered (xs : List Nat) : Prop where
  list : s.links.Shows xs
  held : ∀ jp, s.printer = some jp → jp ≠ 0 ∧ jp ∉ xs ∧ s.links.Has jp
  sorted : (s.pending xs).Pairwise (· < ·)
  mem_iff : ∀ n, n ∈ s.pending xs ↔ n < s.added ∧ n ∉ s.finished
  finished : s.finished.Nodup
  finished_lt : ∀ n ∈ s.finished, n < s.added
  taken : s.taken.Pairwise (· ≤ ·)
  taken_le : ∀ m ∈ s.taken, ∀ n ∈ s.pending xs, m ≤ n
  taken_lt : ∀ m ∈ s.taken, m < s.added

end

section Steps
variable {s : JobQueue} {xs : List Nat} {jp : Nat}

theorem init_ordered : init.Ordered [] where
  list := Links.empty_shows
  held jp hjp := absurd hjp (by simp [init])
  sorted := List.Pairwise.nil
  mem_iff n := by simp [init, pending]
  finished := nodup_nil
  finished_lt n hn := absurd hn (by simp [init])
  taken := List.Pairwise.nil
  taken_le m hm := absurd hm (by simp [init])
  taken_lt m hm := absurd hm (by simp [init])

theorem Ordered.unused_notMem (h : s.Ordered xs) (hjp : Unused s.links jp) : jp ∉ s.printer.toList ++ xs := by
  intro hmem
  rcases mem_append.mp hmem with hp | hx
  · exact (h.held jp (mem_toList.mp hp)).2.2.1 hjp.2.1
  · exact (h.list.has hx).1 hjp.2.1

theorem Ordered.add (h : s.Ordered xs) (hjp : Unused s.links jp) :
    ∃ s', s.addJob jp = some s' ∧ s'.Ordered (xs ++ [jp]) := by
  have hnew := h.unused_notMem hjp
  have hxs : jp ∉ xs := fun hx => hnew (mem_append_right _ hx)
  obtain ⟨l, hrun, hl, hhas⟩ := (h.list.alloc hxs 0 0).pushBack hjp.1 hxs (Links.has_alloc.mpr (.inl rfl))
  refine ⟨{ s with links := l, nth := update s.nth jp s.added, added := s.added + 1 }, ?_, ?_⟩
  · rw [addJob, hrun]
    rfl
  -- the new job is the last one
  have hpending : (s.printer.toList ++ (xs ++ [jp])).map (update s.nth jp s.added) = s.pending xs ++ [s.added] := by
    rw [← append_assoc, map_append, pending]
    congr 1
    · refine map_congr_left fun a ha => update_of_ne ?_ ..
      exact fun he => hnew (he ▸ ha)
    · simp
  have hlt : ∀ n ∈ s.pending xs, n < s.added := fun n hn => ((h.mem_iff n).mp hn).1
  refine ⟨hl, fun q hq => ?_, ?_, fun n => ?_, h.finished, fun n hn => ?_, h.taken, fun m hm n hn => ?_, fun m hm => ?_⟩
  · obtain ⟨hq0, hqxs, hqhas⟩ := h.held q hq
    refine ⟨hq0, fun hmem => ?_, (hhas q).mpr (Links.has_alloc.mpr (.inr hqhas))⟩
    rcases mem_append.mp hmem with hmem | hmem
    · exact hqxs hmem
    · rw [mem_singleton.mp hmem] at hq
      exact hnew (mem_append_left _ (mem_toList.mpr hq))
  · change List.Pairwise _ (map _ _)
    rw [hpending, pairwise_append]
    exact ⟨h.sorted, pairwise_singleton .., fun n hn m hm => mem_singleton.mp hm ▸ hlt n hn⟩
  · change n ∈ map _ _ ↔ n < s.added + 1 ∧ _
    rw [hpending, mem_append, mem_singleton, h.mem_iff, Nat.lt_succ_iff_lt_or_eq]
    constructor
    · rintro (⟨hlt, hfin⟩ | rfl)
      · exact ⟨.inl hlt, hfin⟩
      · exact ⟨.inr rfl, fun hfin => Nat.lt_irrefl _ (h.finished_lt _ hfin)⟩
    · rintro ⟨hlt | heq, hfin⟩
      · exact .inl ⟨hlt, hfin⟩
      · exact .inr heq
  · exact Nat.lt_succ_of_lt (h.finished_lt n hn)
  · change n ∈ map _ _ at hn
    rw [hpending, mem_append, mem_singleton] at hn
    rcases hn with hn | rfl
    · exact h.taken_le m hm n hn
    · exact Nat.le_of_lt (h.taken_lt m hm)
  · exact Nat.lt_succ_of_lt (h.taken_lt m hm)

/-- The first job goes to the printer thread. -/
theorem Ordered.pickUp (h : s.Ordered (jp :: xs)) (hidle : s.printer = none) : ∃ s', s.removeJob jp = some s' ∧
      { s' with printer := some jp, taken := s'.taken ++ [s'.nth jp] }.Ordered xs := by
  have hfirst : s.links.Shows ([] ++ jp :: xs) := h.list
  obtain ⟨l, hrun, hl, hhas⟩ := hfirst.remove
  refine ⟨{ s with links := l }, ?_, ?_⟩
  · rw [removeJob, hrun]
    rfl
  have hnd := h.list.forward.nodup
  have hsorted := h.sorted
  have hmem := h.mem_iff
  have hle := h.taken_le
  rw [pending, hidle] at hsorted
  simp only [pending, hidle] at hmem hle
  -- nothing that is pending came before the job taken
  have hfirst : ∀ n ∈ (jp :: xs).map s.nth, s.nth jp ≤ n := by
    intro n hn
    rcases mem_cons.mp hn with rfl | hn
    · exact Nat.le_refl _
    · exact Nat.le_of_lt (rel_of_pairwise_cons hsorted hn)
  refine ⟨hl, fun q hq => ?_, hsorted, hmem, h.finished, h.finished_lt, ?_, fun m hm => ?_, fun m hm => ?_⟩
  · obtain rfl := some.inj hq
    refine ⟨h.list.ne_zero mem_cons_self, (nodup_cons.mp hnd).1, ?_⟩
    exact (hhas jp).mpr (h.list.has mem_cons_self)
  · rw [pairwise_append]
    refine ⟨h.taken, pairwise_singleton .., fun m hm n hn => ?_⟩
    rw [mem_singleton.mp hn]
    exact hle m hm _ mem_cons_self
  · rcases mem_append.mp hm with hm | hm
    · exact hle m hm
    · rw [mem_singleton.mp hm]
      exact hfirst
  · rcases mem_append.mp hm with hm | hm
    · exact h.taken_lt m hm
    · rw [mem_singleton.mp hm]
      exact ((hmem _).mp mem_cons_self).1

section
variable (h : s.Ordered xs)
include h

theorem Ordered.finish (hheld : s.printer = some jp) : (s.freeJob jp).Ordered xs := by
  obtain ⟨-, hxs, -⟩ := h.held jp hheld
  have hsorted := h.sorted
  have hmem := h.mem_iff
  have hle := h.taken_le
  rw [pending, hheld] at hsorted
  simp only [pending, hheld] at hmem hle
  have hself := (hmem (s.nth jp)).mp mem_cons_self
  refine ⟨h.list.free hxs, fun q hq => absurd hq (by simp [freeJob]), (pairwise_cons.mp hsorted).2,
    fun n => ?_, nodup_cons.mpr ⟨hself.2, h.finished⟩, fun n hn => ?_, h.taken,
    fun m hm n hn => hle m hm n (mem_cons_of_mem _ hn), h.taken_lt⟩
  · change n ∈ xs.map s.nth ↔ n < s.added ∧ n ∉ s.nth jp :: s.finished
    have hn := hmem n
    change n ∈ s.nth jp :: xs.map s.nth ↔ _ at hn
    rw [mem_cons] at hn ⊢
    constructor
    · intro hin
      have hlt := rel_of_pairwise_cons hsorted hin
      obtain ⟨hadded, hfin⟩ := hn.mp (.inr hin)
      exact ⟨hadded, not_or.mpr ⟨(Nat.ne_of_lt hlt).symm, hfin⟩⟩
    · rintro ⟨hadded, hfin⟩
      rw [not_or] at hfin
      exact (hn.mpr ⟨hadded, hfin.2⟩).resolve_left hfin.1
  · rcases mem_cons.mp hn with rfl | hn
    · exact hself.1
    · exact h.finished_lt n hn

/-- The job goes back to where it was. -/
theorem Ordered.defer (hheld : s.printer = some jp) :
    ∃ s', s.replaceJob jp = some s' ∧ { s' with printer := none }.Ordered (jp :: xs) := by
  obtain ⟨hjp, hxs, hhas⟩ := h.held jp hheld
  obtain ⟨l, hrun, hl, -⟩ := h.list.pushFront hjp hxs hhas
  refine ⟨{ s with links := l }, ?_, ?_⟩
  · rw [replaceJob, hrun]
    rfl
  have hsorted := h.sorted
  have hmem := h.mem_iff
  have hle := h.taken_le
  rw [pending, hheld] at hsorted
  simp only [pending, hheld] at hmem hle
  exact ⟨hl, fun q hq => absurd hq (by simp), hsorted, hmem, h.finished, h.finished_lt, h.taken, hle, h.taken_lt⟩

theorem Ordered.step (e : Event) : ∃ s' xs', s.step e = some s' ∧ s'.Ordered xs' := by
  cases e with
  | add jp =>
    rw [JobQueue.step]
    split
    · rename_i hjp
      obtain ⟨s', hrun, hs'⟩ := h.add hjp
      exact ⟨s', _, hrun, hs'⟩
    · exact ⟨s, xs, rfl, h⟩
  | pickUp =>
    rw [JobQueue.step]
    split
    · rename_i hen
      have hhead := h.list.head_eq
      obtain ⟨jp, ys, rfl⟩ : ∃ jp ys, xs = jp :: ys := by
        cases xs with
        | nil => exact absurd hhead hen.2
        | cons jp ys => exact ⟨jp, ys, rfl⟩
      obtain ⟨s', hrun, hs'⟩ := h.pickUp hen.1
      refine ⟨_, ys, ?_, hs'⟩
      simp only [hhead, headD_cons, hrun]
      rfl
    · exact ⟨s, xs, rfl, h⟩
  | finish =>
    cases hheld : s.printer with
    | none => exact ⟨s, xs, by simp only [JobQueue.step, hheld], h⟩
    | some jp => exact ⟨_, xs, by simp only [JobQueue.step, hheld], h.finish hheld⟩
  | defer =>
    cases hheld : s.printer with
    | none => exact ⟨s, xs, by simp only [JobQueue.step, hheld], h⟩
    | some jp =>
      obtain ⟨s', hrun, hs'⟩ := h.defer hheld
      refine ⟨_, jp :: xs, ?_, hs'⟩
      simp only [JobQueue.step, hheld, hrun]
      rfl

theorem Ordered.run (es : List Event) : ∃ s' xs', es.foldlM JobQueue.step s = some s' ∧ s'.Ordered xs' := by
  induction es generalizing s xs with
  | nil => exact ⟨s, xs, rfl, h⟩
  | cons e es ih =>
    obtain ⟨s1, xs1, hrun, h1⟩ := h.step e
    obtain ⟨s2, xs2, hrun2, h2⟩ := ih h1
    refine ⟨s2, xs2, ?_, h2⟩
    rw [foldlM_cons, hrun]
    exact hrun2

end

end Steps
end JobQueue
end GokuStudio.Apue.Ipp

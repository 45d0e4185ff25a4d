import GokuStudio.Apue.Semaph.Code

/-!
# Who uses a set and who has its lock

The adjustments that the kernel keeps for `SEM_UNDO` are a record of the protocol:
the adjustment of [1] for a process is how often it has the set open, that of [2] is
whether it has the lock. With the balance of [1] at `BIGCOUNT` and that of [2] at 0
this gives the meaning of the counter and of the lock (`Good`), and what a process
under the lock has seen stays true until it gives the lock back (`Pc.Stage`).

`sem_open` is the one function that changes the counter without the lock; its rule
(`Good.open_op`) has a premise that the others do not need.
-/

namespace GokuStudio.Apue.Semaph

open Lib List Option SemSet
open Function (forall_update_iff update update_of_ne update_self)

variable {n : Nat}

/-! ## §1 What holds in every state -/

/-- The set whose lock the process has. -/
def Pc.locks : Pc → Option Nat
  | .createGetval id _ => some id
  | .createSet0 id _ => some id
  | .createSet1 id => some id
  | .createEnd id => some id
  | .closeGetval id => some id
  | .closeRm id => some id
  | .closeUnlock id => some id
  | _ => none

def Pc.inside (pc : Pc) (id : Nat) : Int := if pc.locks = some id then 1 else 0

/-- What a process under the lock knows of the set from its earlier calls. -/
def Pc.Stage (pc : Pc) (id : Nat) (e : Entry n) : Prop :=
  match pc with
  | .createSet0 i _ => i = id → e.ready = false
  | .createSet1 i => i = id → e.ready = false
  | .createEnd i => i = id → e.ready = true
  | .closeRm i => i = id → e.set.val 1 = bigCount
  | _ => True

/-- The adjustments of a set say who has it open and who has its lock. -/
structure Good (procs : Fin n → Proc) (id : Nat) (e : Entry n) : Prop where
  users : ∀ p, e.set.adj p 1 = (procs p).held.count id
  lockers : ∀ p, e.set.adj p 2 = -(procs p).pc.inside id
  counter : e.set.balance 1 = if e.ready then (bigCount : Int) else 0
  lock : e.set.balance 2 = 0
  single : e.set.val 2 ≤ 1
  stage : ∀ p, (procs p).pc.Stage id e

structure Inv (s : Sys n) : Prop where
  fresh : ∀ id, s.next ≤ id → s.sets id = none
  dead : ∀ id, s.sets id = none → ∀ p, id ∉ (s.procs p).held ∧ (s.procs p).pc.locks ≠ some id
  good : ∀ id e, s.sets id = some e → Good s.procs id e
  closing : ∀ p id, (s.procs p).pc = .closeOp id → id ∈ (s.procs p).held

variable {pc : Pc} {id : Nat} {ops : List SemBuf}

theorem stage_of_not_locks {e : Entry n} (h : pc.locks ≠ some id) : pc.Stage id e := by
  cases pc <;> simp_all [Pc.locks, Pc.Stage]

/-- The knowledge outlasts changes that keep `ready`, and the counter at its start. -/
theorem Pc.Stage.mono {e e' : Entry n} (h : pc.Stage id e)
    (hready : e'.ready = e.ready) (hval : e.set.val 1 = bigCount → e'.set.val 1 = bigCount) :
    pc.Stage id e' := by
  cases pc with
  | createSet0 | createSet1 | createEnd => exact fun hi => hready.trans (h hi)
  | closeRm => exact fun hi => hval (h hi)
  | _ => trivial

theorem inside_nonneg (pc : Pc) (id : Nat) : 0 ≤ pc.inside id := by
  unfold Pc.inside
  split <;> decide

theorem inside_eq_zero : pc.inside id = 0 ↔ pc.locks ≠ some id := by
  unfold Pc.inside
  split <;> simp_all

theorem locks_other {j : Nat} (h : pc.locks = none ∨ pc.locks = some id) (hj : j ≠ id) : pc.locks ≠ some j := by
  rcases h with h | h
  · rw [h]
    nofun
  · rw [h]
    exact fun hsome => hj (some.inj hsome).symm

theorem inside_eq_one (h : pc.locks = some id) : pc.inside id = 1 := if_pos h

namespace Good
variable {procs : Fin n → Proc} {e : Entry n} {p q : Fin n}

/-- The counter and the processes that have the set open. -/
theorem val_one (h : Good procs id e) : (e.set.val 1 : Int) + ∑ p, ((procs p).held.count id : Int) =
      if e.ready then (bigCount : Int) else 0 := by
  rw [← h.counter, balance]
  simp only [h.users]

theorem val_two (h : Good procs id e) : (e.set.val 2 : Int) = ∑ p, (procs p).pc.inside id := by
  have hlock := h.lock
  simp only [balance, h.lockers, Finset.sum_neg_distrib] at hlock
  omega

variable (h : Good procs id e) {r : Proc}
include h

/-- Nobody has a set open that is not initialised, or whose counter is at its start. -/
theorem not_held (hval : e.ready = false ∨ e.set.val 1 = bigCount) (p : Fin n) : (procs p).held.count id = 0 := by
  have hone := h.val_one
  have hle : ((procs p).held.count id : Int) ≤ ∑ q, ((procs q).held.count id : Int) :=
    Finset.single_le_sum (fun _ _ => Int.natCast_nonneg _) (Finset.mem_univ p)
  cases hr : e.ready with
  | false =>
    rw [hr] at hone
    simp only [Bool.false_eq_true, if_false] at hone
    omega
  | true =>
    rw [hr, if_pos rfl, hval.resolve_left (by simp [hr])] at hone
    omega

theorem ready_of_held (hm : id ∈ (procs p).held) : e.ready = true := by
  cases hr : e.ready with
  | true => rfl
  | false => exact absurd hm (count_eq_zero.mp (h.not_held (.inl hr) p))

/-- A counter that is not 0 has been initialised. -/
theorem ready_of_val (hval : e.set.val 1 ≠ 0) : e.ready = true := by
  cases hr : e.ready with
  | true => rfl
  | false =>
    have hone := h.val_one
    have hsum : (0 : Int) ≤ ∑ p, ((procs p).held.count id : Int) := Finset.sum_nonneg fun _ _ => Int.natCast_nonneg _
    rw [hr] at hone
    simp only [Bool.false_eq_true, if_false] at hone
    omega

theorem inside_le (p : Fin n) : (procs p).pc.inside id ≤ e.set.val 2 := by
  rw [h.val_two]
  exact Finset.single_le_sum (fun q _ => inside_nonneg _ _) (Finset.mem_univ p)

/-- The lock lets one process in. -/
theorem alone (hp : (procs p).pc.locks = some id) (hq : q ≠ p) : (procs q).pc.locks ≠ some id := by
  have htwo := Finset.sum_le_sum_of_subset_of_nonneg (f := fun r => (procs r).pc.inside id)
    (Finset.subset_univ {p, q}) fun r _ _ => inside_nonneg _ _
  rw [Finset.sum_pair (Ne.symm hq)] at htwo
  have hsingle := h.single
  have hnonneg := inside_nonneg (procs q).pc id
  rw [← h.val_two, inside_eq_one hp] at htwo
  exact inside_eq_zero.mp (by omega)

theorem free (hval : e.set.val 2 = 0) (q : Fin n) : (procs q).pc.locks ≠ some id := by
  have hle := h.inside_le q
  have hnonneg := inside_nonneg (procs q).pc id
  exact inside_eq_zero.mp (by omega)

/-- What a process at `pc` knows. -/
theorem stage_at (hpc : (procs p).pc = pc) : pc.Stage id e := hpc ▸ h.stage p

omit h

/-- What the set has booked for a process is what the process has of it. -/
abbrev Booked (id : Nat) (e : Entry n) (q : Fin n) (r : Proc) : Prop :=
  e.set.adj q 1 = r.held.count id ∧ e.set.adj q 2 = -r.pc.inside id ∧ r.pc.Stage id e

/-- The process `p` is now at `r`. -/
theorem of_update (hself : Booked id e p r) (hothers : ∀ q, q ≠ p → Booked id e q (procs q))
    (counter : e.set.balance 1 = if e.ready then (bigCount : Int) else 0)
    (lock : e.set.balance 2 = 0) (single : e.set.val 2 ≤ 1) :
    Good (update procs p r) id e := by
  have hall := (forall_update_iff procs (Booked id e)).mpr ⟨hself, hothers⟩
  exact ⟨fun q => (hall q).1, fun q => (hall q).2.1, counter, lock, single, fun q => (hall q).2.2⟩

variable (h : Good procs id e)
include h

/-- A process does something that has nothing to do with this set. -/
theorem frame (hheld : r.held.count id = (procs p).held.count id)
    (hin : r.pc.inside id = (procs p).pc.inside id) (hstage : r.pc.Stage id e) :
    Good (update procs p r) id e :=
  of_update ⟨by rw [hheld, h.users], by rw [hin, h.lockers], hstage⟩
    (fun q _ => ⟨h.users q, h.lockers q, h.stage q⟩) h.counter h.lock h.single

/-- A process makes a `semop` on the set. -/
theorem semop {set : SemSet n} (hu : SemSet.Undone ops) (hop : e.set.semop p ops = some set)
    (hheld : (r.held.count id : Int) = (procs p).held.count id - amount ops 1)
    (hin : r.pc.inside id = (procs p).pc.inside id + amount ops 2)
    (hsingle : set.val 2 ≤ 1) (hr : r.pc.Stage id { e with set := set })
    (hothers : ∀ q, q ≠ p → (procs q).pc.Stage id { e with set := set }) :
    Good (update procs p r) id { e with set := set } := by
  refine of_update ⟨?_, ?_, hr⟩ (fun q hq => ?_) ?_ ?_ hsingle
  · rw [adj_semop hu hop, h.users, hheld]
  · rw [adj_semop hu hop, h.lockers, hin]
    omega
  · rw [Booked, adj_semop_other hq hop]
    exact ⟨h.users q, h.lockers q, hothers q hq⟩
  · rw [balance_semop hu hop, h.counter]
  · rw [balance_semop hu hop, h.lock]

/-- A process exits, and what it has of the set is given back. -/
theorem exit (p : Fin n) : Good (update procs p ⟨.exited, []⟩) id { e with set := e.set.exit p } := by
  have hone : (0 : Int) ≤ e.set.val 1 + e.set.adj p 1 := by
    rw [h.users]
    omega
  have htwo : (0 : Int) ≤ e.set.val 2 + e.set.adj p 2 := by
    have hle := h.inside_le p
    rw [h.lockers]
    omega
  refine of_update ⟨?_, ?_, trivial⟩ (fun q hq => ?_) ?_ ?_ ?_
  · rw [exit_adj_self]
    rfl
  · rw [exit_adj_self]
    rfl
  · rw [Booked, exit_adj_ne hq]
    refine ⟨h.users q, h.lockers q, (h.stage q).mono rfl fun hstart => ?_⟩
    -- nobody has the set open then, so the counter stays where it is
    have hval := exit_val hone
    rw [h.users, h.not_held (.inr hstart) p] at hval
    dsimp only
    omega
  · rw [balance_exit hone, h.counter]
  · rw [balance_exit htwo, h.lock]
  · have hval := exit_val htwo
    have hle := h.single
    have hin := inside_nonneg (procs p).pc id
    rw [h.lockers] at hval
    dsimp only
    omega

/-- `SETVAL` of [0]. -/
theorem setval_zero (v : Nat) : Good procs id { e with set := e.set.setval 0 v } where
  users q := by rw [setval_adj_ne (by decide), h.users]
  lockers q := by rw [setval_adj_ne (by decide), h.lockers]
  counter := by rw [balance_setval_ne (by decide), h.counter]
  lock := by rw [balance_setval_ne (by decide), h.lock]
  single := by
    rw [setval_val_ne (by decide)]
    exact h.single
  stage q := (h.stage q).mono rfl fun hstart => by
    rwa [setval_val_ne (by decide)]

/-- `SETVAL` of [1] by the process that has the lock makes the set ready. -/
theorem setval_one (hpc : (procs p).pc = .createSet1 id) : Good (update procs p ⟨.createEnd id, (procs p).held⟩) id
      { e with set := e.set.setval 1 bigCount, ready := true } := by
  have hready : e.ready = false := h.stage_at hpc rfl
  have hlocks := congrArg Pc.locks hpc
  -- nobody has the set open, so no adjustment is lost
  have hclear : ∀ q, (e.set.setval 1 bigCount).adj q 1 = (procs q).held.count id := fun q => by
    rw [setval_adj_self, h.not_held (.inl hready) q]
    rfl
  have hkeep : ∀ q, (e.set.setval 1 bigCount).adj q 2 = -(procs q).pc.inside id := fun q => by
    rw [setval_adj_ne (by decide), h.lockers]
  refine of_update ⟨hclear p, ?_, fun _ => rfl⟩ (fun q hq => ?_) ?_ ?_ ?_
  · rw [hkeep p, inside_eq_one hlocks, inside_eq_one rfl]
  · exact ⟨hclear q, hkeep q, stage_of_not_locks (h.alone hlocks hq)⟩
  · rw [balance_setval]
    rfl
  · rw [balance_setval_ne (by decide), h.lock]
  · rw [setval_val_ne (by decide)]
    exact h.single

end Good

/-! ## §2 The five lists of operations -/

namespace Good
variable {procs : Fin n → Proc} {e : Entry n} {p : Fin n} {set : SemSet n} {r : Proc}

variable (h : Good procs id e) (hu : Undone ops) (hop : e.set.semop p ops = some set)
  (hheld : (r.held.count id : Int) = (procs p).held.count id - amount ops 1)
  (hr : r.pc.Stage id { e with set := set })

include h

section

include hu hop hheld hr

/-- The process waits for the lock and takes it. -/
theorem take (hfree : e.set.val 2 = 0) (hamount : amount ops 2 = 1) (hpc : (procs p).pc.locks = none)
    (hlocks : r.pc.locks = some id) : Good (update procs p r) id { e with set := set } := by
  have hval := val_semop (k := 2) hop
  refine h.semop hu hop hheld ?_ (by omega) hr fun q _ => stage_of_not_locks (h.free hfree q)
  rw [inside_eq_one hlocks, inside_eq_zero.mpr (by rw [hpc]; nofun), hamount]
  rfl

/-- The process has the lock and gives it back. -/
theorem give (hlocks : (procs p).pc.locks = some id) (hamount : amount ops 2 = -1) (hpc : r.pc.locks = none) :
    Good (update procs p r) id { e with set := set } := by
  have hval := val_semop (k := 2) hop
  have hsingle := h.single
  refine h.semop hu hop hheld ?_ (by omega) hr fun q hq => stage_of_not_locks (h.alone hlocks hq)
  rw [inside_eq_one hlocks, inside_eq_zero.mpr (by rw [hpc]; nofun), hamount]
  rfl

end

omit hu hop hheld hr

theorem lock_op (hpc : (procs p).pc.locks = none) (hop : e.set.semop p opLock = some set) (initval : Nat) :
    Good (update procs p ⟨.createGetval id initval, (procs p).held⟩) id
      { e with set := set } := by
  refine h.take (by decide) hop ?_ trivial (val_of_wait hop) (by decide) hpc rfl
  rw [show amount opLock 1 = 0 by decide, Int.sub_zero]

theorem endcreate_op (hpc : (procs p).pc = .createEnd id) (hop : e.set.semop p opEndcreate = some set) :
    Good (update procs p ⟨.idle, id :: (procs p).held⟩) id { e with set := set } := by
  refine h.give (by decide) hop ?_ trivial (congrArg Pc.locks hpc) (by decide) rfl
  rw [count_cons_self, show amount opEndcreate 1 = -1 by decide]
  omega

/-- This is the one that does not ask for the lock. -/
theorem open_op (hpc : (procs p).pc = .openOp id)
    (hrm : ∀ q, (procs q).pc ≠ .closeRm id) (hop : e.set.semop p opOpen = some set) :
    Good (update procs p ⟨.idle, id :: (procs p).held⟩) id { e with set := set } := by
  have hin : (procs p).pc.inside id = 0 := inside_eq_zero.mpr (by rw [hpc]; nofun)
  have hval := val_semop (k := 2) hop
  have hsingle := h.single
  have hamount : amount opOpen 1 = -1 ∧ amount opOpen 2 = 0 := by decide
  refine h.semop (by decide) hop ?_ ?_ (by omega) trivial fun q _ => ?_
  · rw [count_cons_self, hamount.1]
    omega
  · rw [hin, hamount.2]
    rfl
  · have hstage := h.stage q
    have hne := hrm q
    cases hq : (procs q).pc <;> rw [hq] at hstage hne <;> try exact hstage
    rintro rfl
    exact absurd rfl hne

theorem close_op (hpc : (procs p).pc = .closeOp id)
    (hm : id ∈ (procs p).held) (hop : e.set.semop p opClose = some set) :
    Good (update procs p ⟨.closeGetval id, (procs p).held.erase id⟩) id
      { e with set := set } := by
  have hpos : 0 < (procs p).held.count id := count_pos_iff.mpr hm
  refine h.take (by decide) hop ?_ trivial (val_of_wait hop) (by decide) (congrArg Pc.locks hpc) rfl
  rw [count_erase_self, show amount opClose 1 = 1 by decide]
  omega

theorem unlock_op (hpc : (procs p).pc = .closeUnlock id) (hop : e.set.semop p opUnlock = some set) :
    Good (update procs p ⟨.idle, (procs p).held⟩) id { e with set := set } := by
  refine h.give (by decide) hop ?_ trivial (congrArg Pc.locks hpc) (by decide) rfl
  rw [show amount opUnlock 1 = 0 by decide, Int.sub_zero]

end Good

/-! ## §3 What a step keeps -/

namespace Inv
variable {s : Sys n} {p : Fin n} {e e' : Entry n} {r : Proc} (h : Inv s)
include h

theorem closing_update (hr : ∀ j, r.pc = .closeOp j → j ∈ r.held) (q : Fin n)
    (j : Nat) (hq : (update s.procs p r q).pc = .closeOp j) :
    j ∈ (update s.procs p r q).held :=
  (forall_update_iff s.procs fun _ r => r.pc = .closeOp j → j ∈ r.held).mpr ⟨hr j, fun q _ => h.closing q j⟩ q hq

theorem dead_update {j : Nat} (hj : s.sets j = none) (hr : j ∉ r.held ∧ r.pc.locks ≠ some j) (q : Fin n) :
    j ∉ (update s.procs p r q).held ∧ (update s.procs p r q).pc.locks ≠ some j :=
  (forall_update_iff s.procs fun _ r => j ∉ r.held ∧ r.pc.locks ≠ some j).mpr ⟨hr, fun q _ => h.dead j hj q⟩ q

/-- The process goes on without a change to any set. -/
theorem goto (hlocks : pc.locks = (s.procs p).pc.locks) (hstage : ∀ id e, s.sets id = some e → pc.Stage id e)
    (hclosing : ∀ j, pc = .closeOp j → j ∈ (s.procs p).held) : Inv (s.goto p pc) where
  fresh := h.fresh
  dead id hid := h.dead_update hid ⟨(h.dead id hid p).1, by rw [hlocks]; exact (h.dead id hid p).2⟩
  good id e he := (h.good id e he).frame rfl (by rw [Pc.inside, hlocks]; rfl) (hstage id e he)
  closing := h.closing_update hclosing

/-- A process that is not under a lock goes to a place that is not, either. -/
theorem goto_outside (hold : (s.procs p).pc.locks = none)
    (hnew : pc.locks = none) (hclosing : ∀ j, pc = .closeOp j → j ∈ (s.procs p).held) :
    Inv (s.goto p pc) :=
  h.goto (hnew.trans hold.symm) (fun _ _ _ => stage_of_not_locks (by rw [hnew]; nofun)) hclosing

/-- The process changes one set, and nothing it has of the others. -/
theorem change (he : s.sets id = some e) (hheld : ∀ j, j ≠ id → r.held.count j = (s.procs p).held.count j)
    (hnew : r.pc.locks = none ∨ r.pc.locks = some id)
    (hold : (s.procs p).pc.locks = none ∨ (s.procs p).pc.locks = some id)
    (hclosing : ∀ j, r.pc ≠ .closeOp j)
    (hgood : Good (update s.procs p r) id e') :
    Inv ((s.setEntry id (some e')).setProc p r) where
  fresh j hj := by
    have hne : j ≠ id := fun heq => by simp [heq ▸ h.fresh j hj] at he
    exact (update_of_ne hne ..).trans (h.fresh j hj)
  dead j hj := by
    have hne : j ≠ id := fun heq => by simp [Sys.setProc, Sys.setEntry, heq] at hj
    have hnone : s.sets j = none := (update_of_ne hne ..).symm.trans hj
    refine h.dead_update hnone ⟨count_eq_zero.mp ?_, locks_other hnew hne⟩
    rw [hheld j hne]
    exact count_eq_zero.mpr (h.dead j hnone p).1
  good j f hf := by
    by_cases hne : j = id
    · subst hne
      exact some.inj ((update_self j _ s.sets).symm.trans hf) ▸ hgood
    have hf' : s.sets j = some f := (update_of_ne hne ..).symm.trans hf
    have hnew := locks_other hnew hne
    exact (h.good j f hf').frame (hheld j hne)
      ((inside_eq_zero.mpr hnew).trans (inside_eq_zero.mpr (locks_other hold hne)).symm) (stage_of_not_locks hnew)
  closing := h.closing_update fun j hj => absurd hj (hclosing j)

theorem exit (p : Fin n) : Inv (s.exit p) where
  fresh j hj := by simp [Sys.exit, h.fresh j hj]
  dead j hj := have hnone : s.sets j = none := by simpa [Sys.exit] using hj
    h.dead_update hnone ⟨not_mem_nil, nofun⟩
  good j f hf := by
    obtain ⟨e, he, rfl⟩ := map_eq_some_iff.mp hf
    exact (h.good j e he).exit p
  closing := h.closing_update nofun

/-- A new set, which no process knows of. -/
theorem newSet (key : Int) : Inv { s with
      sets := update s.sets s.next (some ⟨key, new n, false⟩)
      table := update s.table key (some s.next)
      next := s.next + 1 } where
  fresh j hj := (update_of_ne (by dsimp only at hj; omega) ..).trans
    (h.fresh j (by dsimp only at hj; omega))
  dead j hj q := by
    have hne : j ≠ s.next := fun heq => by simp [heq] at hj
    exact h.dead j ((update_of_ne hne ..).symm.trans hj) q
  good j f hf := by
    by_cases hne : j = s.next
    · subst hne
      rw [← some.inj ((update_self s.next _ s.sets).symm.trans hf)]
      have hdead := h.dead s.next (h.fresh s.next le_rfl)
      refine ⟨fun q => ?_, fun q => ?_, ?_, ?_, ?_, fun q => stage_of_not_locks (hdead q).2⟩
      · rw [count_eq_zero.mpr (hdead q).1]
        rfl
      · rw [inside_eq_zero.mpr (hdead q).2]
        rfl
      · simp [balance, new]
      · simp [balance, new]
      · exact Nat.zero_le 1
    · exact h.good j f ((update_of_ne hne ..).symm.trans hf)
  closing := h.closing

/-- Nobody has the set open, and the process that removes it is alone under its lock. -/
theorem remove (he : s.sets id = some e) (hpc : (s.procs p).pc = .closeRm id) :
    Inv ({ s.setEntry id none with table := update s.table e.key none }.goto p .idle) where
  fresh j hj := by
    by_cases hne : j = id
    · subst hne
      exact update_self ..
    · exact (update_of_ne hne ..).trans (h.fresh j hj)
  dead j hj q := by
    have hlocks := congrArg Pc.locks hpc
    by_cases hne : j = id
    · subst hne
      have hgood := h.good j e he
      have hstart : e.set.val 1 = bigCount := hgood.stage_at hpc rfl
      have hnone : ∀ q, j ∉ (s.procs q).held := fun q =>
        count_eq_zero.mp (hgood.not_held (.inr hstart) q)
      exact (forall_update_iff (b := ⟨.idle, (s.procs p).held⟩) s.procs fun _ r => j ∉ r.held ∧ r.pc.locks ≠ some j).mpr
        ⟨⟨hnone p, nofun⟩, fun q hq => ⟨hnone q, hgood.alone hlocks hq⟩⟩ q
    · have hj' : s.sets j = none := (update_of_ne hne ..).symm.trans hj
      exact h.dead_update (r := ⟨.idle, (s.procs p).held⟩) hj' ⟨(h.dead j hj' p).1, nofun⟩ q
  good j f hf := by
    have hne : j ≠ id := fun heq => by simp [Sys.goto, Sys.setProc, Sys.setEntry, heq] at hf
    have hf' : s.sets j = some f := (update_of_ne hne ..).symm.trans hf
    refine (h.good j f hf').frame rfl ?_ trivial
    have hold : (s.procs p).pc.inside j = 0 :=  inside_eq_zero.mpr (locks_other (.inr (congrArg Pc.locks hpc)) hne)
    rw [hold]
    rfl
  closing := h.closing_update nofun

/-- A `semop` of the process, whatever becomes of it. -/
theorem semop {gone blocked : Sys n} (hgone : Inv gone) (hblocked : Inv blocked)
    (hheld : ∀ j, j ≠ id → r.held.count j = (s.procs p).held.count j)
    (hnew : r.pc.locks = none ∨ r.pc.locks = some id)
    (hold : (s.procs p).pc.locks = none ∨ (s.procs p).pc.locks = some id)
    (hclosing : ∀ j, r.pc ≠ .closeOp j)
    (hgood : ∀ e set, Good s.procs id e → e.set.semop p ops = some set →
      Good (update s.procs p r) id { e with set := set }) :
    Inv (s.semop p id ops gone blocked r) := by
  unfold Sys.semop
  split
  · exact hgone
  rename_i e he
  split
  · exact hblocked
  · rename_i set hop
    exact h.change he hheld hnew hold hclosing (hgood e set (h.good id e he) hop)

end Inv
end GokuStudio.Apue.Semaph

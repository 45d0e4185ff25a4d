import GokuStudio.Apue.Semaph.Invariant
import GokuStudio.Lib.Runs

/-!
# A set is not removed while it is in use, if two things do not happen

`sem_open` counts itself in without the lock. If it does so between the look at
the counter and the removal in a `sem_close`, the set is removed under it
(`removed_in_use`); and a counter that has come down to 0 makes `sem_create`
initialise the set a second time. `safe_of_careful`: in every run without these two,
a process that has a set open has one that is initialised and not removed.
-/

namespace GokuStudio.Apue.Semaph

open Lib Function List Option
variable {n : Nat} {s : Sys n}

/-- The counter of an initialised set has come down to 0. -/
def Sys.full (s : Sys n) (id : Nat) : Bool :=
  match s.sets id with
  | some e => e.ready && e.set.val 1 == 0
  | none => false

/-- `sem_open` does not count itself in while a `sem_close` is about to remove the set, and
`sem_create` does not look at a counter that has come down to 0. -/
def Sys.careful (s : Sys n) : Event n → Bool
  | .run p =>
    match (s.procs p).pc with
    | .openOp id => decide (∀ q, (s.procs q).pc ≠ .closeRm id)
    | .createGetval id _ => !s.full id
    | _ => true
  | _ => true

def Careful (s : Sys n) (e : Event n) : Prop := s.careful e = true

instance (s : Sys n) (e : Event n) : Decidable (Careful s e) := inferInstanceAs (Decidable (s.careful e = true))

/-- Every process that has a set open has one that is initialised and not removed. -/
def Safe (s : Sys n) : Prop := ∀ p id, id ∈ (s.procs p).held → ∃ e, s.sets id = some e ∧ e.ready = true

/-- Whoever is about to remove a set removes one that no process has open. -/
def RemovesUnused (s : Sys n) : Prop := ∀ p id, (s.procs p).pc = .closeRm id → s.sets id ≠ none → ∀ q, id ∉ (s.procs q).held

theorem Inv.safe (h : Inv s) : Safe s := by
  intro p id hm
  cases he : s.sets id with
  | none => exact absurd hm (h.dead id he p).1
  | some e => exact ⟨e, rfl, (h.good id e he).ready_of_held hm⟩

theorem Inv.removesUnused (h : Inv s) : RemovesUnused s := by
  intro p id hpc hlive q
  obtain ⟨e, he⟩ := ne_none_iff_exists'.mp hlive
  have hgood := h.good id e he
  exact count_eq_zero.mp (hgood.not_held (.inr (hgood.stage_at hpc rfl)) q)

variable {id j initval : Nat} {pc : Pc} {p : Fin n} {e : Entry n}

section
variable (h : Inv s)
include h

/-- A process under the lock of a set goes on under it. -/
theorem Inv.goto_inside (hold : (s.procs p).pc.locks = some id) (hnew : pc.locks = some id)
    (hstage : ∀ e, s.sets id = some e → pc.Stage id e) : Inv (s.goto p pc) := by
  refine h.goto (hnew.trans hold.symm) (fun j f hf => ?_) fun j hj => ?_
  · by_cases hj : j = id
    · subst hj
      exact hstage f hf
    · exact stage_of_not_locks (locks_other (.inr hnew) hj)
  · rw [hj] at hnew
    cases hnew

/-- What `sem_create` learns from the counter. -/
theorem Inv.getval (hpc : (s.procs p).pc = .createGetval id initval) (he : s.sets id = some e)
    (hfull : s.full id = false) :
    Inv (s.goto p (if e.set.val 1 = 0 then .createSet0 id initval else .createEnd id)) := by
  have hold := congrArg Pc.locks hpc
  split
  · rename_i hzero
    refine h.goto_inside hold rfl fun e' he' _ => ?_
    obtain rfl := mem_unique he he'
    simpa [Sys.full, he, hzero] using hfull
  rename_i hne
  refine h.goto_inside hold rfl fun e' he' _ => ?_
  obtain rfl := mem_unique he he'
  exact (h.good id e he).ready_of_val hne

theorem Inv.set0 (hpc : (s.procs p).pc = .createSet0 id initval) (he : s.sets id = some e) :
    Inv ((s.setEntry id (some { e with set := e.set.setval 0 initval })).goto p
      (.createSet1 id)) := by
  have hold := congrArg Pc.locks hpc
  have hready : e.ready = false := (h.good id e he).stage_at hpc rfl
  refine h.change he (fun _ _ => rfl) (.inr rfl) (.inr hold) nofun ?_
  refine ((h.good id e he).setval_zero initval).frame rfl ?_ fun _ => hready
  rw [inside_eq_one hold]
  exact inside_eq_one rfl

theorem Inv.run (hc : Careful s (.run p)) : Inv (s.run p) := by
  unfold Sys.run
  cases hpc : (s.procs p).pc with
  | idle | exited => exact h
  | createGet key initval =>
    have hout := congrArg Pc.locks hpc
    dsimp only
    split
    · exact h.goto_outside hout rfl nofun
    · exact (h.newSet key).goto_outside hout rfl nofun
  | createLock id key initval blocked =>
    have hout := congrArg Pc.locks hpc
    refine h.semop ?_ (h.goto_outside hout rfl nofun) (fun _ _ => rfl) (.inr rfl) (.inl hout) nofun ?_
    · split
      · exact h.exit p
      · exact h.goto_outside hout rfl nofun
    · exact fun e set hg hop => hg.lock_op hout hop initval
  | createGetval id initval =>
    dsimp only
    split
    · exact h.exit p
    · rename_i e he
      exact h.getval hpc he (by simpa [Careful, Sys.careful, hpc] using hc)
  | createSet0 id initval =>
    dsimp only
    split
    · exact h.exit p
    · rename_i e he
      exact h.set0 hpc he
  | createSet1 id =>
    dsimp only
    split
    · exact h.exit p
    · rename_i e he
      exact h.change he (fun _ _ => rfl) (.inr rfl) (.inr (congrArg Pc.locks hpc)) nofun
        ((h.good id e he).setval_one hpc)
  | createEnd id =>
    have hold := congrArg Pc.locks hpc
    exact h.semop (h.exit p) h (fun j hj => count_cons_of_ne (Ne.symm hj)) (.inl rfl) (.inr hold) nofun
      fun e set hg => hg.endcreate_op hpc
  -- from here on `sem_open`, which counts itself in without the lock
  | openGet key =>
    have hout := congrArg Pc.locks hpc
    dsimp only
    split <;> exact h.goto_outside hout rfl nofun
  | openOp id =>
    have hout := congrArg Pc.locks hpc
    have hrm : ∀ q, (s.procs q).pc ≠ .closeRm id := by
      simpa [Careful, Sys.careful, hpc] using hc
    exact h.semop (h.exit p) h (fun j hj => count_cons_of_ne (Ne.symm hj)) (.inl rfl) (.inl hout) nofun
      fun e set hg => hg.open_op hpc hrm
  -- `sem_close` counts itself out and takes the lock in one operation
  | closeOp id =>
    have hout := congrArg Pc.locks hpc
    exact h.semop (h.exit p) h (fun j hj => count_erase_of_ne hj) (.inr rfl) (.inl hout) nofun
      fun e set hg => hg.close_op hpc (h.closing p id hpc)
  | closeGetval id =>
    have hold := congrArg Pc.locks hpc
    dsimp only
    split
    · exact h.exit p
    rename_i e he
    split
    · exact h.exit p
    split
    · rename_i hstart
      refine h.goto_inside hold rfl fun e' he' _ => ?_
      obtain rfl := mem_unique he he'
      exact hstart
    · exact h.goto_inside hold rfl fun _ _ => trivial
  | closeRm id =>
    dsimp only
    split
    · exact h.exit p
    · rename_i e he
      exact h.remove he hpc
  | closeUnlock id =>
    have hold := congrArg Pc.locks hpc
    exact h.semop (h.exit p) h (fun _ _ => rfl) (.inl rfl) (.inr hold) nofun fun e set hg => hg.unlock_op hpc

theorem Inv.step {e : Event n} (hc : Careful s e) : Inv (Semaph.step s e) := by
  cases e with
  | semCreate p key initval | semOpen p key =>
    dsimp only [Semaph.step]
    split
    · rename_i hidle
      exact h.goto_outside (congrArg Pc.locks hidle.1) rfl nofun
    · exact h
  | semClose p id =>
    dsimp only [Semaph.step]
    split
    · rename_i hidle
      refine h.goto_outside (congrArg Pc.locks hidle.1) rfl fun j hj => ?_
      cases hj
      exact hidle.2
    · exact h
  | run p => exact h.run hc
  | refuse p =>
    dsimp only [Semaph.step]
    split
    · rename_i hpc
      exact h.goto_outside (congrArg Pc.locks hpc) rfl nofun
    · rename_i hpc
      exact h.goto_outside (congrArg Pc.locks hpc) rfl nofun
    · exact h
  | exit p => exact h.exit p

end

theorem inv_start (n : Nat) : Inv (start n) where
  fresh _ _ := rfl
  dead _ _ _ := ⟨not_mem_nil, nofun⟩
  good _ _ he := nomatch he
  closing _ _ hpc := nomatch hpc

/-- In every run that is careful, whoever has a set open has one that is initialised and
not removed, and a `sem_close` goes to remove a set only when no process has it open. -/
theorem safe_of_careful (n : Nat) (es : List (Event n)) (h : Meets step Careful (start n) es) :
    Along step (fun s => Safe s ∧ RemovesUnused s) (start n) es := by
  intro pre hpre
  have hinv : Inv (pre.foldl step (start n)) := along_of_meets (fun _ _ hs => hs.step) (inv_start n) h pre hpre
  exact ⟨hinv.safe, hinv.removesUnused⟩

/-- The second process opens the set while the first one has it open. -/
def openEarly : List (Event 2) := .semCreate 0 7 1 :: List.replicate 6 (.run 0) ++
    [.semOpen 1 7, .run 1, .run 1, .semClose 0 0, .run 0, .run 0, .run 0, .semClose 1 0, .run 1, .run 1, .run 1]

theorem safe_open_early : Meets step Careful (start 2) openEarly ∧
    Along step (fun s => Safe s ∧ RemovesUnused s) (start 2) openEarly :=
  ⟨by decide +kernel, safe_of_careful 2 openEarly (by decide +kernel)⟩

/-- The second process opens the set after the first one, which closes it, has looked at the
counter. -/
def openLate : List (Event 2) := .semCreate 0 7 1 :: List.replicate 6 (.run 0) ++
    [.semClose 0 0, .run 0, .run 0, .semOpen 1 7, .run 1, .run 1, .run 0]

/-- It has the set open, and the set is gone. -/
theorem removed_in_use :
    let s := openLate.foldl step (start 2)
    (s.procs 1).held = [0] ∧ (s.sets 0).isNone = true ∧ ¬Safe s := by
  intro s
  have hheld : (s.procs 1).held = [0] := by decide +kernel
  have hgone : (s.sets 0).isNone = true := by decide +kernel
  refine ⟨hheld, hgone, fun hsafe => ?_⟩
  obtain ⟨e, he, -⟩ := hsafe 1 0 (by rw [hheld]; exact mem_singleton_self 0)
  simp [he] at hgone

/-- The condition on `sem_open` is no stronger than it has to be: in any state without it,
two more system calls leave a process with a set that is gone. -/
theorem not_safe_of_open (h : Inv s) {q : Fin n} (hp : (s.procs p).pc = .openOp id)
    (hq : (s.procs q).pc = .closeRm id) :
    ¬Safe (step (step s (.run p)) (.run q)) := by
  have hqp : q ≠ p := fun heq => by simp [heq, hp] at hq
  obtain ⟨e, he⟩ : ∃ e, s.sets id = some e := by
    cases he : s.sets id with
    | none => exact absurd (by rw [hq]; rfl) (h.dead id he q).2
    | some e => exact ⟨e, rfl⟩
  have hval : e.set.val 1 = bigCount := (h.good id e he).stage_at hq rfl
  obtain ⟨set, hop⟩ : ∃ set, e.set.semop p opOpen = some set := by
    simp [SemSet.semop, SemSet.one, opOpen, hval, bigCount]
  have hopen : step s (.run p) = (s.setEntry id (some { e with set := set })).setProc p
      ⟨.idle, id :: (s.procs p).held⟩ := by
    simp only [step, Sys.run, hp, Sys.semop, he, hop]
  rw [hopen]
  -- after the first call `p` has the set open, and `q` is still about to remove it
  generalize hs1 : (s.setEntry id (some { e with set := set })).setProc p ⟨.idle, id :: (s.procs p).held⟩ = s1
  have hq1 : (s1.procs q).pc = .closeRm id := by
    rw [← hs1, Sys.setProc]
    exact (congrArg Proc.pc (update_of_ne hqp ..)).trans hq
  have hp1 : id ∈ (s1.procs p).held := by
    simp [← hs1, Sys.setProc]
  have he1 : s1.sets id = some { e with set := set } := by
    simp [← hs1, Sys.setProc, Sys.setEntry]
  intro hsafe
  simp only [step, Sys.run, hq1, he1, Sys.goto, Sys.setProc, Sys.setEntry] at hsafe
  obtain ⟨f, hf, -⟩ := hsafe p id (by simpa [update_of_ne (Ne.symm hqp)] using hp1)
  simp at hf

theorem not_safe_late : ¬Safe (step (step ((openLate.take 12).foldl step (start 2)) (.run 1)) (.run 0)) := by
  have hmeets : Meets step Careful (start 2) (openLate.take 12) := by decide +kernel
  exact @not_safe_of_open 2 _ 0 1 (along_of_meets (fun _ _ hs => hs.step) (inv_start 2) hmeets _ prefix_rfl) 0 rfl rfl

end GokuStudio.Apue.Semaph

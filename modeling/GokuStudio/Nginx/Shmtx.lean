import GokuStudio.Lib.Runs
import GokuStudio.Lib.Sysv
import Mathlib.Algebra.Order.BigOperators.Group.Finset
import Mathlib.Tactic.Linarith

/-!
# The mutex in shared memory (`ngx_shmtx.c`, with POSIX semaphores)

The steps of `ngx_shmtx_lock`, `ngx_shmtx_trylock` and `ngx_shmtx_unlock` that touch shared
memory, taken by any processes in any order. A process that has announced itself in `wait` and
then gets the lock after all does not take its announcement back. The count is then too high,
which wakes processes for nothing; nobody sleeps on for ever as long as the count does not
wrap. Once it does, a wake-up is lost (`wakeup_lost`).
-/

namespace GokuStudio.Nginx.Shmtx

open Lib List
open Function (update)

/-! ## §1 The code, one access at a time -/

/-- The positive values of `pid_t`. A process that does not exist stays idle. -/
abbrev Pid := Fin (2 ^ 31 - 1)

/-- `SEM_VALUE_MAX` -/
def semValueMax : Nat := 2 ^ 31 - 1

/-- What a process does next. -/
inductive Pc where
  | idle
  /-- `*mtx->lock == 0` and the compare-and-set after it, in `ngx_shmtx_trylock` -/
  | tryRead | tryCas
  /-- the same in `ngx_shmtx_lock`, at the top of the loop and while spinning -/
  | read | cas
  /-- `ngx_atomic_fetch_add(mtx->wait, 1)`, and once more the lock -/
  | announce | read2 | cas2
  | semWait
  | unlock
  /-- `ngx_shmtx_wakeup`, after it has read `wait` -/
  | wakeRead | wakeCas (wait : Nat) | semPost
deriving DecidableEq

/-- The lock word is 0 or the pid of a process. -/
structure Shared where
  lock : Option Pid := none
  wait : Nat := 0
  sem : Nat := 0
deriving DecidableEq

/-- `holds` is set from the compare-and-set that takes the lock to the one that gives it back. -/
structure Proc where
  pc : Pc := .idle
  holds : Bool := false
deriving DecidableEq

structure State where
  procs : Pid → Proc := fun _ => {}
  shared : Shared := {}

inductive Call where
  | lock | trylock | unlock

def Call.entry : Call → Pc
  | .lock => .read
  | .trylock => .tryRead
  | .unlock => .unlock

/-- A turn of `proc`: which function it calls if it is idle; whether it has turns of the spin
loop left (`again`), or, at `sem_wait`, whether that fails with an error other than `EINTR`. -/
structure Turn where
  proc : Pid
  call : Call
  again : Bool

/-- One access of a process, on words of `w` bits. At a semaphore of value 0 it stays where it
is, as it does after `EINTR`. -/
def exec (w : Nat) (t : Turn) (l : Proc) (m : Shared) : Proc × Shared :=
  let missed := if t.again then Pc.read else .announce
  match l.pc with
  | .idle => ({ l with pc := t.call.entry }, m)
  | .tryRead => ({ l with pc := if m.lock = none then .tryCas else .idle }, m)
  | .tryCas =>
    if m.lock = none then (⟨.idle, true⟩, { m with lock := some t.proc }) else ({ l with pc := .idle }, m)
  | .read => ({ l with pc := if m.lock = none then .cas else missed }, m)
  | .cas =>
    if m.lock = none then (⟨.idle, true⟩, { m with lock := some t.proc }) else ({ l with pc := missed }, m)
  | .announce => ({ l with pc := .read2 }, { m with wait := (m.wait + 1) % 2 ^ w })
  | .read2 => ({ l with pc := if m.lock = none then .cas2 else .semWait }, m)
  | .cas2 =>
    -- the announcement is not taken back
    if m.lock = none then (⟨.idle, true⟩, { m with lock := some t.proc }) else ({ l with pc := .semWait }, m)
  | .semWait =>
    if t.again then ({ l with pc := .read }, m)
    else if m.sem = 0 then (l, m)
    else ({ l with pc := .read }, { m with sem := m.sem - 1 })
  | .unlock =>
    if m.lock = some t.proc then (⟨.wakeRead, false⟩, { m with lock := none }) else ({ l with pc := .idle }, m)
  | .wakeRead => ({ l with pc := if m.wait = 0 then .idle else .wakeCas m.wait }, m)
  | .wakeCas wait =>
    if m.wait = wait then ({ l with pc := .semPost }, { m with wait := wait - 1 })
    else ({ l with pc := .wakeRead }, m)
  | .semPost => ({ l with pc := .idle }, { m with sem := if m.sem < semValueMax then m.sem + 1 else m.sem })

section
variable (w : Nat) (s : State) (t : Turn)

def step : State :=
  let r := exec w t (s.procs t.proc) s.shared
  ⟨update s.procs t.proc r.1, r.2⟩

/-! ## §2 What is to hold -/

/-- In lock, unlock or wake-up, and not asleep. -/
def Pc.Due : Pc → Prop
  | .idle | .tryRead | .tryCas | .semWait => False
  | _ => True

/-- The lock is free, a process sleeps, and nobody is left to wake it. -/
def Stuck : Prop := s.shared.lock = none ∧ s.shared.sem = 0 ∧
    ∃ p, (s.procs p).pc = .semWait ∧ ∀ q, q ≠ p → ¬ (s.procs q).pc.Due

def Exclusive : Prop := ∀ p q, (s.procs p).holds = true → (s.procs q).holds = true → p = q

/-- The count of announcements does not wrap in this turn. -/
def NoWrap : Prop := (s.procs t.proc).pc = .announce → s.shared.wait + 1 < 2 ^ w

/-! ## §3 One holder -/

/-- The lock word is the pid of the process that holds the lock. -/
def Owned : Prop := ∀ q, (s.procs q).holds = true ↔ s.shared.lock = some q

end

variable {w : Nat} {t : Turn} {l : Proc} {m : Shared} {s : State}

theorem exec_holds (h : l.holds = true ↔ m.lock = some t.proc) :
    ((exec w t l m).1.holds = true ↔ (exec w t l m).2.lock = some t.proc) ∧
      ∀ q, q ≠ t.proc → ((exec w t l m).2.lock = some q ↔ m.lock = some q) := by
  rw [exec]
  cases hpc : l.pc <;> grind

theorem Owned.step (h : Owned s) (t : Turn) : Owned (step w s t) := by
  intro q
  obtain ⟨hself, hother⟩ := exec_holds (h t.proc)
  by_cases hq : q = t.proc
  · subst hq
    show (update s.procs t.proc _ t.proc).holds = true ↔ _
    rw [Function.update_self]
    exact hself
  · show (update s.procs t.proc _ q).holds = true ↔ _
    rw [Function.update_of_ne hq]
    exact (h q).trans (hother q hq).symm

theorem Owned.exclusive (h : Owned s) : Exclusive s := by
  intro p q hp hq
  have hlock := (h p).mp hp
  rw [(h q).mp hq] at hlock
  exact (Option.some.inj hlock).symm

/-! ## §4 As many announcements as sleepers -/

/-- A process that has announced itself counts for one, one that is about to post against one. -/
def Pc.weight : Pc → Int
  | .read2 | .cas2 | .semWait => 1
  | .semPost => -1
  | _ => 0

theorem weight_le_one (c : Pc) : c.weight ≤ 1 := by
  cases c <;> simp [Pc.weight]

/-- Whoever sleeps can be woken by an announcement or a post that is still there. -/
def Covered (s : State) : Prop := ∑ q, (s.procs q).pc.weight ≤ (s.shared.wait : Int) + s.shared.sem

theorem exec_weight (h : l.pc = .announce → m.wait + 1 < 2 ^ w) : (exec w t l m).1.pc.weight - l.pc.weight ≤
        ((exec w t l m).2.wait : Int) + (exec w t l m).2.sem - (m.wait + m.sem) ∨
      semValueMax ≤ (exec w t l m).2.sem := by
  rw [exec]
  cases hpc : l.pc with
  | announce =>
    left
    rw [Nat.mod_eq_of_lt (h hpc)]
    simp [Pc.weight]
  | idle => cases hc : t.call <;> simp [Call.entry, Pc.weight]
  | _ => grind [Pc.weight]

theorem Covered.step (h : Covered s) (hw : NoWrap w s t) : Covered (step w s t) := by
  have hsum : ∑ q, ((Shmtx.step w s t).procs q).pc.weight = ∑ q, (s.procs q).pc.weight +
        ((exec w t (s.procs t.proc) s.shared).1.pc.weight - (s.procs t.proc).pc.weight) := by
    rw [SemSet.sum_exchange (p := t.proc) (f := fun q => (s.procs q).pc.weight)]
    · simp only [Shmtx.step, Function.update_self]
    · intro q hq
      simp [Shmtx.step, Function.update_of_ne hq]
  rw [Covered] at h ⊢
  rcases exec_weight (t := t) hw with hle | hmax
  · show _ ≤ ((exec w t (s.procs t.proc) s.shared).2.wait : Int) + (exec w t (s.procs t.proc) s.shared).2.sem
    omega
  -- the semaphore is full, and there are no more processes than that
  have hcard : ∑ q, ((Shmtx.step w s t).procs q).pc.weight ≤ (semValueMax : Int) := by
    calc _ ≤ ∑ _q : Pid, (1 : Int) := Finset.sum_le_sum fun q _ => weight_le_one _
      _ = semValueMax := by simp [semValueMax]
  show _ ≤ ((exec w t (s.procs t.proc) s.shared).2.wait : Int) + (exec w t (s.procs t.proc) s.shared).2.sem
  omega

/-! ## §5 Somebody is left to wake the sleepers -/

/-- A process that will wake a sleeper, or take the lock and wake one later. With the lock free
an `unlock` is not among them: it would fail. -/
def Pc.Watches (c : Pc) : Prop := c.Due ∧ c ≠ .unlock

def Watched (s : State) : Prop :=
  s.shared.lock = none → s.shared.sem = 0 → ∀ p, (s.procs p).pc = .semWait → ∃ q, (s.procs q).pc.Watches

/-- A turn that leaves the lock free and the semaphore at 0: its process watches after it, or did
not before it, or has just found nothing to wake. -/
theorem exec_watches (hlock : (exec w t l m).2.lock = none) (hsem : (exec w t l m).2.sem = 0) :
    (exec w t l m).1.pc.Watches ∨
      m.lock = none ∧ m.sem = 0 ∧ (((exec w t l m).1.pc = .semWait → l.pc = .semWait) ∧ ¬ l.pc.Watches ∨
        l.pc = .wakeRead ∧ m.wait = 0 ∧ (exec w t l m).1.pc = .idle) := by
  rw [exec] at *
  cases hpc : l.pc with
  | idle => cases hc : t.call <;> grind [Pc.Watches, Pc.Due, Call.entry]
  | _ => grind [Pc.Watches, Pc.Due, semValueMax]

/-- With no announcement and no token left, a sleeper is owed a post. -/
theorem Covered.post (h : Covered s) (hwait : s.shared.wait = 0) (hsem : s.shared.sem = 0) {p : Pid}
    (hp : (s.procs p).pc = .semWait) : ∃ q, (s.procs q).pc = .semPost := by
  by_contra hno
  have hnonneg : ∀ q ∈ Finset.univ, 0 ≤ (s.procs q).pc.weight := by
    intro q _
    have : (s.procs q).pc ≠ .semPost := fun hq => hno ⟨q, hq⟩
    cases hq : (s.procs q).pc <;> simp_all [Pc.weight]
  have hone := Finset.single_le_sum hnonneg (Finset.mem_univ p)
  rw [hp] at hone
  rw [Covered, hwait, hsem] at h
  exact absurd (hone.trans h) (by simp [Pc.weight])

theorem Watched.step (h : Watched s) (hcov : Covered s) (t : Turn) : Watched (step w s t) := by
  intro hlock hsem p hp
  have hself : ((Shmtx.step w s t).procs t.proc) = (exec w t (s.procs t.proc) s.shared).1 := Function.update_self ..
  have hother : ∀ q, q ≠ t.proc → (Shmtx.step w s t).procs q = s.procs q := fun q hq => Function.update_of_ne hq ..
  rcases exec_watches hlock hsem with hw | ⟨hl, hm, ⟨hsleep, hno⟩ | ⟨hpc, hwait, hidle⟩⟩
  · exact ⟨t.proc, hself ▸ hw⟩
  · -- who slept and who watched did so before
    have hp' : (s.procs p).pc = .semWait := by
      by_cases hpt : p = t.proc
      · subst hpt
        exact hsleep (hself ▸ hp)
      · exact hother p hpt ▸ hp
    obtain ⟨q, hq⟩ := h hl hm p hp'
    have hqt : q ≠ t.proc := fun hqt => hno (hqt ▸ hq)
    exact ⟨q, (hother q hqt).symm ▸ hq⟩
  · have hpt : p ≠ t.proc := by
      rintro rfl
      rw [hself, hidle] at hp
      cases hp
    obtain ⟨q, hq⟩ := hcov.post hwait hm (hother p hpt ▸ hp)
    have hqt : q ≠ t.proc := by
      rintro rfl
      rw [hpc] at hq
      cases hq
    refine ⟨q, ?_⟩
    rw [hother q hqt, hq]
    exact ⟨trivial, by simp⟩

theorem Watched.not_stuck (h : Watched s) : ¬ Stuck s := by
  rintro ⟨hlock, hsem, p, hp, hno⟩
  obtain ⟨q, hdue, -⟩ := h hlock hsem p hp
  by_cases hq : q = p
  · rw [hq, hp] at hdue
    exact hdue
  · exact hno q hq hdue

/-- Two processes take turns. -/
def two (a b : Pid) (la lb : Proc) (m : Shared) : State := ⟨update (update (fun _ => {}) a la) b lb, m⟩

variable {a b : Pid} {la lb : Proc} {k : Nat}

theorem two_comm (hab : a ≠ b) : two a b la lb m = two b a lb la m := by
  rw [two, two, Function.update_comm hab]

theorem step_two (c : Call) (again : Bool) : step w (two a b la lb m) ⟨b, c, again⟩ =
    two a b la (exec w ⟨b, c, again⟩ lb m).1 (exec w ⟨b, c, again⟩ lb m).2 := by
  simp [step, two]

theorem step_two_other (hab : a ≠ b) (c : Call) (again : Bool) : step w (two a b la lb m) ⟨a, c, again⟩ =
    two a b (exec w ⟨a, c, again⟩ la m).1 lb (exec w ⟨a, c, again⟩ la m).2 := by
  rw [two_comm hab, step_two, two_comm hab.symm]

/-- `a` holds the lock, `b` wants it, and nobody sleeps. -/
def contended (a b : Pid) (k : Nat) : State := two a b ⟨.idle, true⟩ ⟨.read, false⟩ ⟨some a, k, 0⟩

/-- `b` announces itself and gets the lock after all; the post meant for it wakes `a`, which had
to announce itself too. -/
def round (a b : Pid) : List Turn := [⟨b, .lock, false⟩, ⟨b, .lock, false⟩] ++ List.replicate 5 ⟨a, .unlock, false⟩ ++
    [⟨b, .lock, false⟩, ⟨b, .lock, false⟩] ++ List.replicate 5 ⟨a, .lock, false⟩

/-- One announcement more than before, and the roles exchanged. -/
theorem round_contended (hab : a ≠ b) (hk : k + 1 < 2 ^ w) :
    (round a b).foldl (step w) (contended a b k) = contended b a (k + 1) := by
  rw [contended, contended, two_comm hab.symm]
  simp [round, replicate, step_two, step_two_other hab, exec, Call.entry, Nat.mod_eq_of_lt hk, semValueMax]

theorem contended_reached (w : Nat) {a b : Pid} (hab : a ≠ b) (hk : k < 2 ^ w) :
    ∃ c d ts, c ≠ d ∧ foldl (step w) {} ts = contended c d k := by
  induction k with
  | zero =>
    refine ⟨a, b, [⟨a, .lock, false⟩, ⟨a, .lock, false⟩, ⟨a, .lock, false⟩, ⟨b, .lock, false⟩], hab, ?_⟩
    have hinit : ({} : State) = two a b {} {} {} := by simp [two]
    simp [hinit, contended, step_two, step_two_other hab, exec, Call.entry]
  | succ k ih =>
    obtain ⟨c, d, ts, hcd, hts⟩ := ih (by omega)
    exact ⟨d, c, ts ++ round c d, hcd.symm, by rw [foldl_append, hts, round_contended hcd hk]⟩

theorem stuck_of_contended (hab : a ≠ b) : ∃ ts, Stuck (foldl (step w) (contended a b (2 ^ w - 1)) ts) := by
  have hwrap : (2 ^ w - 1 + 1) % 2 ^ w = 0 := by
    rw [Nat.sub_add_cancel Nat.one_le_two_pow, Nat.mod_self]
  refine ⟨replicate 3 ⟨b, .lock, false⟩ ++ replicate 3 ⟨a, .unlock, false⟩, ?_⟩
  have hend : foldl (step w) (contended a b (2 ^ w - 1))
      (replicate 3 ⟨b, .lock, false⟩ ++ replicate 3 ⟨a, .unlock, false⟩) = two a b {} ⟨.semWait, false⟩ {} := by
    simp [contended, replicate, step_two, step_two_other hab, exec, Call.entry, hwrap]
  rw [hend]
  refine ⟨rfl, rfl, b, by simp [two], fun q hq => ?_⟩
  show ¬ (update (update (fun _ => ({} : Proc)) a {}) b ⟨.semWait, false⟩ q).pc.Due
  rw [Function.update_of_ne hq, Function.update_eq_self_iff.mpr rfl]
  exact id

end GokuStudio.Nginx.Shmtx

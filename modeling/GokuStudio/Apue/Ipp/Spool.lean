import Mathlib.Data.Finset.Basic
import GokuStudio.Lib.Decimal
import GokuStudio.Lib.Runs

/-!
# Job numbers of the print spooler (`printd.c`)

A job has a file in the data directory and one in the request directory of the
spool, both named by its number. The counter lives in memory. The printer thread
writes it to the job file when it picks a job up, and a restart reads it back
from there.

The machine takes the client threads, the printer thread, crashes and restarts in
any order. While the daemon runs, every number in use is below the counter
(`Below`). A restart keeps this only if the number in the job file is above the
numbers in the spool, and nothing in the code sees to that: the job file is not
written when a number is given out (`number_reused`).
-/

namespace GokuStudio.Apue.Ipp

open Lib Function

/-! ## §1 The counter and its file -/

def longMax : Int := 9223372036854775807
def longMin : Int := -9223372036854775808
def filenmsz : Nat := 64

/-- `SPOOLDIR/JOBFILE` -/
def jobFileName : Bytes := "/var/spool/printer/jobno".toList.map fun c => UInt8.ofNat c.toNat

/-- `init_request`: the counter is read over the name of the file, so what follows
it in the buffer is the rest of the name. `atol` keeps to the range of a `long`. -/
def initRequest (jobfile : Bytes) : Int :=
  let got := pread jobfile 0 filenmsz
  if got.length = 0 then 1
  else max longMin (min longMax (atol (got ++ jobFileName.drop got.length)))

/-- `update_jobno`: the file is not truncated. -/
def updateJobno (jobfile : Bytes) (nextjob : Int) : Bytes := pwrite jobfile 0 (decInt nextjob)

/-- `get_newjobno` leaves this in `nextjob`. -/
def afterJobno (nextjob : Int) : Int :=
  let n := if nextjob = longMax then longMin else nextjob + 1
  if n ≤ 0 then 1 else n

/-! ## §2 The threads and the spool directory -/

/-- How far a client thread is with its job. -/
inductive Client where
  | none
  | named (jobid : Int)
  | spooling (jobid : Int)
  | spooled (jobid : Int)
  | requesting (jobid : Int)
  | requested (jobid : Int)
  /-- It failed, and has the data file still to unlink. -/
  | dropping (jobid : Int)
deriving DecidableEq, Repr

def Client.number : Client → Option Int
  | .none => Option.none
  | .named j => j
  | .spooling j => j
  | .spooled j => j
  | .requesting j => j
  | .requested j => j
  | .dropping j => j

/-- The printer thread: `picked` is before `update_jobno`, and `unlinked` between
the two calls of `unlink`. -/
inductive Printer where
  | waiting
  | picked (jobid : Int)
  | printing (jobid : Int)
  | unlinked (jobid : Int)
deriving DecidableEq, Repr

/-- The main thread: in `build_qonstart` with the requests it has still to read,
or accepting clients. -/
inductive Main where
  | down
  | scanning (todo : Finset Int)
  | dropping (jobid : Int) (todo : Finset Int)
  | serving
deriving DecidableEq

structure Spool where
  jobfile : Bytes
  data : Finset Int
  reqs : Finset Int
  main : Main
  nextjob : Int
  clients : Nat → Client
  queue : List Int
  printer : Printer

namespace Spool

/-- Nothing has been printed yet. -/
def fresh : Spool := ⟨[], ∅, ∅, .down, 0, fun _ => .none, [], .waiting⟩

/-- What `build_qonstart` finds in a request file. -/
inductive Found where
  | request
  | broken
  | nothing
deriving DecidableEq, Repr

inductive Outcome where
  | printed
  | cancelled
  | deferred
deriving DecidableEq, Repr

inductive Event where
  | crash
  /-- `main` up to `build_qonstart`; `opendir` may fail. -/
  | restart (opened : Bool)
  | requeue (jobid : Int) (found : Found)
  | unlinkData
  | serve
  /-- A new client thread calls `get_newjobno`. -/
  | take (c : Nat)
  /-- The next system call or `add_job` of a client thread, which may fail. -/
  | client (c : Nat) (ok : Bool)
  /-- A client thread is cancelled. -/
  | cancel (c : Nat)
  | printer (o : Outcome)
deriving DecidableEq, Repr

section
variable (s : Spool) (c : Nat) (j : Int)

def setClient (st : Client) : Spool :=
  { s with clients := update s.clients c st }

/-- `client_thread` after `get_newjobno`. -/
def clientStep (ok : Bool) : Spool :=
  match s.clients c, ok with
  | .none, _ => s
  | .named j, true => { s with data := insert j s.data }.setClient c (.spooling j)
  | .named _, false => s.setClient c .none
  | .spooling j, true => s.setClient c (.spooled j)
  | .spooling j, false => s.setClient c (.dropping j)
  | .spooled j, true => { s with reqs := insert j s.reqs }.setClient c (.requesting j)
  | .spooled j, false => s.setClient c (.dropping j)
  | .requesting j, true => s.setClient c (.requested j)
  | .requesting j, false => { s with reqs := s.reqs.erase j }.setClient c (.dropping j)
  -- `add_job` returns or ends the daemon, and the result of `unlink` is not looked at
  | .requested j, _ => { s with queue := s.queue ++ [j] }.setClient c .none
  | .dropping j, _ => { s with data := s.data.erase j }.setClient c .none

/-- `printer_thread` -/
def printerStep (o : Outcome) : Spool :=
  match s.printer with
  | .waiting => match s.queue with
    | [] => s
    | j :: queue => { s with queue := queue, printer := .picked j }
  | .picked j => { s with jobfile := updateJobno s.jobfile s.nextjob, printer := .printing j }
  | .printing j => match o with
    | .printed => { s with data := s.data.erase j, printer := .unlinked j }
    -- a cancelled job leaves its files in the spool
    | .cancelled => { s with printer := .waiting }
    | .deferred => { s with queue := j :: s.queue, printer := .waiting }
  | .unlinked j => { s with reqs := s.reqs.erase j, printer := .waiting }

/-- The loop of `build_qonstart`. -/
def requeue (found : Found) : Spool :=
  match s.main with
  | .scanning todo =>
    if j ∈ todo then
      match found with
      | .request => { s with queue := s.queue ++ [j], main := .scanning (todo.erase j) }
      | .broken => { s with reqs := s.reqs.erase j, main := .dropping j (todo.erase j) }
      | .nothing => { s with main := .scanning (todo.erase j) }
    else s
  | _ => s

def step : Event → Spool
  | .crash => { s with main := .down, clients := fun _ => .none, queue := [], printer := .waiting }
  | .restart opened =>
    if s.main = .down then
      { s with nextjob := initRequest s.jobfile, main := .scanning (if opened then s.reqs else ∅) }
    else s
  | .requeue j found => s.requeue j found
  | .unlinkData => match s.main with
    | .dropping j todo => { s with data := s.data.erase j, main := .scanning todo }
    | _ => s
  | .serve => if s.main = .scanning ∅ then { s with main := .serving } else s
  | .take c =>
    if s.main = .serving ∧ s.clients c = .none then
      { s with nextjob := afterJobno s.nextjob }.setClient c (.named s.nextjob)
    else s
  | .client c ok => s.clientStep c ok
  | .cancel c => s.setClient c .none
  | .printer o => if s.main = .down then s else s.printerStep o

/-- A job with this number has a file in the spool. -/
def InSpool : Prop := j ∈ s.data ∨ j ∈ s.reqs

instance (s : Spool) (j : Int) : Decidable (s.InSpool j) := inferInstanceAs (Decidable (_ ∨ _))

/-- The number that `get_newjobno` returns is not in the spool. -/
def NewNumber : Event → Prop
  | .take c => s.main = .serving ∧ s.clients c = .none → ¬ s.InSpool s.nextjob
  | _ => True

/-! ## §3 Numbers in use -/

/-- A number that is in the spool, or that a client thread has. -/
def Used : Prop := s.InSpool j ∨ ∃ c, (s.clients c).number = some j

/-- While the daemon runs the counter is above all numbers in use, and when it is
down no thread is left. -/
structure Below : Prop where
  lt : s.main ≠ .down → ∀ j, s.Used j → j < s.nextjob
  gone : s.main = .down → ∀ c, s.clients c = .none

end

/-- No number comes into use between two states of the running daemon. -/
structure Shrinks (s s' : Spool) : Prop where
  used : ∀ j, s'.Used j → s.Used j
  nextjob : s'.nextjob = s.nextjob
  main : s'.main = .down ↔ s.main = .down
  gone : ∀ c, s.clients c = .none → s'.clients c = .none

section Steps
variable {s s' : Spool} {c : Nat} {st : Client} {e : Event}

theorem fresh_below : fresh.Below := ⟨absurd rfl, fun _ _ => rfl⟩

theorem Below.shrink (h : s.Below) (hs : s.Shrinks s') : s'.Below where
  lt hmain j hj := by
    rw [hs.nextjob]
    exact h.lt (mt hs.main.mpr hmain) j (hs.used j hj)
  gone hmain c := hs.gone c (h.gone (hs.main.mp hmain) c)

theorem Shrinks.refl : s.Shrinks s := ⟨fun _ h => h, rfl, Iff.rfl, fun _ h => h⟩

/-- Only the spool changes. -/
theorem Shrinks.of_spool (hspool : ∀ j, s'.InSpool j → s.InSpool j) (hclients : s'.clients = s.clients)
    (hnext : s'.nextjob = s.nextjob) (hmain : s'.main = .down ↔ s.main = .down) : s.Shrinks s' where
  used j := by
    rintro (hj | ⟨c, hc⟩)
    · exact .inl (hspool j hj)
    · exact .inr ⟨c, hclients ▸ hc⟩
  nextjob := hnext
  main := hmain
  gone c hc := by rw [hclients]; exact hc

/-- A client thread goes on with its own number. -/
theorem Shrinks.setClient (hspool : ∀ j, s'.InSpool j → s.Used j)
    (hst : ∀ j, st.number = some j → (s.clients c).number = some j)
    (hne : s.clients c ≠ .none) (hclients : s'.clients = s.clients)
    (hnext : s'.nextjob = s.nextjob) (hmain : s'.main = s.main) : s.Shrinks (s'.setClient c st) where
  used j := by
    rintro (hj | ⟨d, hd⟩)
    · exact hspool j hj
    · change (update s'.clients c st d).number = some j at hd
      rw [update_apply] at hd
      split at hd
      · exact .inr ⟨c, hst j hd⟩
      · exact .inr ⟨d, hclients ▸ hd⟩
  nextjob := hnext
  main := by
    change s'.main = .down ↔ _
    rw [hmain]
  gone d hd := by
    have hdc : d ≠ c := fun he => hne (he ▸ hd)
    change update s'.clients c st d = _
    rw [update_of_ne hdc, hclients]
    exact hd

theorem clientStep_shrinks (s : Spool) (c : Nat) (ok : Bool) : s.Shrinks (s.clientStep c ok) := by
  have hself : ∀ {j}, s.InSpool j → s.Used j := .inl
  have hdata : ∀ {i j}, j ∈ s.data.erase i ∨ j ∈ s.reqs → s.Used j := by
    rintro i j (hj | hj)
    · exact .inl (.inl (Finset.mem_of_mem_erase hj))
    · exact .inl (.inr hj)
  have hreqs : ∀ {i j}, j ∈ s.data ∨ j ∈ s.reqs.erase i → s.Used j := by
    rintro i j (hj | hj)
    · exact .inl (.inl hj)
    · exact .inl (.inr (Finset.mem_of_mem_erase hj))
  unfold clientStep
  split
  case h_1 => exact .refl
  -- the data file: a new name in the spool, but the thread had the number already
  case h_2 j hc =>
      refine .setClient (fun i hi => ?_) (by simp [hc, Client.number]) (by simp [hc]) rfl rfl rfl
      rcases hi with hi | hi
      · rcases Finset.mem_insert.mp hi with rfl | hi
        · exact .inr ⟨c, by rw [hc]; rfl⟩
        · exact .inl (.inl hi)
      · exact .inl (.inr hi)
  -- the request file, in the same way
  case h_6 j hc =>
      refine .setClient (fun i hi => ?_) (by simp [hc, Client.number]) (by simp [hc]) rfl rfl rfl
      rcases hi with hi | hi
      · exact .inl (.inl hi)
      rcases Finset.mem_insert.mp hi with rfl | hi
      · exact .inr ⟨c, by rw [hc]; rfl⟩
      · exact .inl (.inr hi)
  case h_9 j hc =>
      exact .setClient (fun _ => hreqs) (by simp [hc, Client.number]) (by simp [hc]) rfl rfl rfl
  case h_11 j hc =>
      exact .setClient (fun _ => hdata) (by simp [Client.number]) (by simp [hc]) rfl rfl rfl
  -- the other calls leave the spool as it is
  all_goals
    rename_i hc
    exact .setClient (fun _ => hself) (by simp [hc, Client.number]) (by simp [hc]) rfl rfl rfl

theorem printerStep_shrinks (s : Spool) (o : Outcome) : s.Shrinks (s.printerStep o) := by
  unfold printerStep
  split
  · split
    · exact .refl
    · exact .of_spool (fun _ h => h) rfl rfl Iff.rfl
  · exact .of_spool (fun _ h => h) rfl rfl Iff.rfl
  · split
    · exact .of_spool (fun _ h => h.imp_left Finset.mem_of_mem_erase) rfl rfl Iff.rfl
    · exact .of_spool (fun _ h => h) rfl rfl Iff.rfl
    · exact .of_spool (fun _ h => h) rfl rfl Iff.rfl
  · exact .of_spool (fun _ h => h.imp_right Finset.mem_of_mem_erase) rfl rfl Iff.rfl

theorem requeue_shrinks (s : Spool) (j : Int) (found : Found) : s.Shrinks (s.requeue j found) := by
  unfold requeue
  split
  · rename_i todo hmain
    split
    · split
      · exact .of_spool (fun _ h => h) rfl rfl (by simp [hmain])
      · exact .of_spool (fun _ h => h.imp_right Finset.mem_of_mem_erase) rfl rfl (by simp [hmain])
      · exact .of_spool (fun _ h => h) rfl rfl (by simp [hmain])
    · exact .refl
  · exact .refl

/-- A restart finds a number above those in the spool, and the counter does not
wrap around. -/
def Keeps (s : Spool) : Event → Prop
  | .restart _ => s.main = .down → ∀ j ∈ s.data ∪ s.reqs, j < initRequest s.jobfile
  | .take _ => s.main = .serving → s.nextjob ≠ longMax
  | _ => True

instance (s : Spool) : ∀ e, Decidable (s.Keeps e)
  | .restart _ => inferInstanceAs (Decidable (_ → ∀ j ∈ s.data ∪ s.reqs, j < initRequest s.jobfile))
  | .take _ => inferInstanceAs (Decidable (_ → _))
  | .crash | .requeue _ _ | .unlinkData | .serve | .client _ _ | .cancel _ | .printer _ =>
    isTrue trivial

instance (s : Spool) : ∀ e, Decidable (s.NewNumber e)
  | .take _ => inferInstanceAs (Decidable (_ → _))
  | .crash | .restart _ | .requeue _ _ | .unlinkData | .serve | .client _ _ | .cancel _
  | .printer _ => isTrue trivial

theorem lt_afterJobno {n : Int} (h : n ≠ longMax) : n < afterJobno n := by
  rw [afterJobno]
  simp only [if_neg h]
  split <;> omega

theorem Below.take (h : s.Below) (hserving : s.main = .serving) (hmax : s.nextjob ≠ longMax) :
    ({ s with nextjob := afterJobno s.nextjob }.setClient c (.named s.nextjob)).Below where
  lt _ j hj := by
    have hmain : s.main ≠ .down := by simp [hserving]
    have hlt := lt_afterJobno hmax
    rcases hj with hj | ⟨d, hd⟩
    · exact (h.lt hmain j (.inl hj)).trans hlt
    change (update s.clients c _ d).number = some j at hd
    rw [update_apply] at hd
    split at hd
    · rwa [← Option.some.inj hd]
    · exact (h.lt hmain j (.inr ⟨d, hd⟩)).trans hlt
  gone hdown := by
    change s.main = .down at hdown
    rw [hserving] at hdown
    simp at hdown

theorem Below.step (h : s.Below) (he : s.Keeps e) : (s.step e).Below := by
  cases e with
  | crash => exact ⟨absurd rfl, fun _ _ => rfl⟩
  | restart opened =>
    rw [Spool.step]
    split
    · rename_i hdown
      refine ⟨fun _ j hj => ?_, fun hmain => absurd hmain (by simp)⟩
      rcases hj with hj | ⟨c, hc⟩
      · exact he hdown j (Finset.mem_union.mpr hj)
      · rw [h.gone hdown c] at hc
        exact absurd hc (by simp [Client.number])
    · exact h
  | requeue j found => exact h.shrink (requeue_shrinks s j found)
  | unlinkData =>
    rw [Spool.step]
    split
    · rename_i j todo hmain
      exact h.shrink (.of_spool (fun _ h => h.imp_left Finset.mem_of_mem_erase) rfl rfl (by simp [hmain]))
    · exact h
  | serve =>
    rw [Spool.step]
    split
    · rename_i hmain
      exact h.shrink (.of_spool (fun _ h => h) rfl rfl (by simp [hmain]))
    · exact h
  | take c =>
    rw [Spool.step]
    split
    · rename_i hen
      exact h.take hen.1 (he hen.1)
    · exact h
  | client c ok => exact h.shrink (clientStep_shrinks s c ok)
  | cancel c =>
    by_cases hc : s.clients c = .none
    · have hsame : s.setClient c .none = s := by
        rw [setClient, ← hc, update_eq_self]
      change (s.setClient c .none).Below
      rw [hsame]
      exact h
    · exact h.shrink (.setClient (fun _ => .inl) (by simp [Client.number]) hc rfl rfl rfl)
  | printer o =>
    rw [Spool.step]
    split
    · exact h
    · exact h.shrink (printerStep_shrinks s o)

theorem Below.newNumber (h : s.Below) : s.NewNumber e := by
  cases e with
  | take c =>
    rintro ⟨hserving, -⟩ hin
    exact lt_irrefl _ (h.lt (by simp [hserving]) s.nextjob (.inl hin))
  | crash | restart | requeue | unlinkData | serve | client | cancel | printer => trivial

theorem Below.meets {es : List Event} (h : s.Below) (hes : Meets Spool.step Keeps s es) :
    Meets Spool.step NewNumber s es := by
  induction es generalizing s with
  | nil => trivial
  | cons e es ih => exact ⟨h.newNumber, ih (h.step hes.1) hes.2⟩

/-- In every run whose restarts find a number in the job file that is above the
numbers in the spool, and in which the counter does not wrap around, no number is
given out that is in the spool. -/
theorem new_numbers {es : List Event} (hes : Meets step Keeps fresh es) : Meets step NewNumber fresh es :=
  fresh_below.meets hes

end Steps

/-- A job is submitted, and the printer thread picks it up before the crash. -/
theorem new_numbers_picked_up : Meets step NewNumber fresh [.restart true, .serve, .take 0, .client 0 true, .client 0 true,
      .client 0 true, .client 0 true, .client 0 true, .printer .deferred, .printer .deferred,
      .crash, .restart true, .requeue 1 .request, .serve, .take 0] :=
  new_numbers (by decide +kernel)

/-- A job is submitted, and the daemon crashes before the printer thread picks it
up. After the restart the next client gets the same number, and overwrites it. -/
theorem number_reused : ¬ Meets step NewNumber fresh [.restart true, .serve, .take 0, .client 0 true, .client 0 true,
      .client 0 true, .client 0 true, .client 0 true, .crash, .restart true, .requeue 1 .request,
      .serve, .take 0] := by
  decide +kernel

end Spool
end GokuStudio.Apue.Ipp

import GokuStudio.Lib.Sysv

/-!
# Semaphores that are removed by their last user (`semaph.c`)

`sem_create`, `sem_open` and `sem_close` keep a set of three semaphores: [0] is the
semaphore the user asked for, [1] counts the processes that use the set, down from
`BIGCOUNT`, and [2] is a lock. Any number of processes make these calls, one system
call at a time and in any order, and may exit in between. `Pc` says which system
call of which function comes next.
-/

namespace GokuStudio.Apue.Semaph

open Lib Function

def bigCount : Nat := 10000
def ipcPrivate : Int := 0
def opLock : List SemBuf := [⟨2, 0, false⟩, ⟨2, 1, true⟩]
def opEndcreate : List SemBuf := [⟨1, -1, true⟩, ⟨2, -1, true⟩]
def opOpen : List SemBuf := [⟨1, -1, true⟩]
def opClose : List SemBuf := [⟨2, 0, false⟩, ⟨2, 1, true⟩, ⟨1, 1, true⟩]
def opUnlock : List SemBuf := [⟨2, -1, true⟩]

/-- The system call that comes next in a process. -/
inductive Pc where
  | idle
  | exited
  | createGet (key : Int) (initval : Nat)
  /-- `blocked` says that the process sleeps in its `semop`. -/
  | createLock (id : Nat) (key : Int) (initval : Nat) (blocked : Bool)
  | createGetval (id initval : Nat)
  | createSet0 (id initval : Nat)
  | createSet1 (id : Nat)
  | createEnd (id : Nat)
  | openGet (key : Int)
  | openOp (id : Nat)
  | closeOp (id : Nat)
  | closeGetval (id : Nat)
  | closeRm (id : Nat)
  | closeUnlock (id : Nat)
deriving DecidableEq, Repr

/-- `held` has an id once for every time the process has the set open. -/
structure Proc where
  pc : Pc
  held : List Nat
deriving DecidableEq, Repr

/-- A set that exists; `ready` is not in the code and says that it is initialised. -/
structure Entry (n : Nat) where
  key : Int
  set : SemSet n
  ready : Bool

/-- The sets by their ids, which are never used again, and the processes. -/
structure Sys (n : Nat) where
  sets : Nat → Option (Entry n)
  table : Int → Option Nat
  next : Nat
  procs : Fin n → Proc

inductive Event (n : Nat) where
  | semCreate (p : Fin n) (key : Int) (initval : Nat)
  | semOpen (p : Fin n) (key : Int)
  /-- `sem_close` is called with an id that the process has open. -/
  | semClose (p : Fin n) (id : Nat)
  /-- The process makes its next system call. -/
  | run (p : Fin n)
  /-- A `semget` is refused. -/
  | refuse (p : Fin n)
  | exit (p : Fin n)

variable {n : Nat}

section
variable (s : Sys n) (p : Fin n)

def Sys.setProc (r : Proc) : Sys n :=
  { s with procs := update s.procs p r }

def Sys.goto (pc : Pc) : Sys n := s.setProc p { s.procs p with pc := pc }

def Sys.setEntry (id : Nat) (e : Option (Entry n)) : Sys n :=
  { s with sets := update s.sets id e }

/-- Also what `err_sys` and `err_dump` come to. -/
def Sys.exit : Sys n :=
  { s with
    sets := fun id => (s.sets id).map fun e => { e with set := e.set.exit p }
    procs := update s.procs p ⟨.exited, []⟩ }

/-- A `semop` that leads to `done`; the set may be gone, or the call may have to wait. -/
def Sys.semop (id : Nat) (ops : List SemBuf) (gone blocked : Sys n)
    (done : Proc) : Sys n :=
  match s.sets id with
  | none => gone
  | some e =>
    match e.set.semop p ops with
    | none => blocked
    | some set => (s.setEntry id (some { e with set := set })).setProc p done

/-- The next system call of `p`. -/
def Sys.run : Sys n :=
  match (s.procs p).pc with
  | .idle => s
  | .exited => s
  | .createGet key initval =>
    match s.table key with
    | some id => s.goto p (.createLock id key initval false)
    | none =>
      { s with
        sets := update s.sets s.next (some ⟨key, SemSet.new n, false⟩)
        table := update s.table key (some s.next)
        next := s.next + 1 }.goto p (.createLock s.next key initval false)
  | .createLock id key initval blocked =>
    -- EIDRM for a call that slept, EINVAL for one that comes too late
    s.semop p id opLock (if blocked then s.exit p else s.goto p (.createGet key initval))
      (s.goto p (.createLock id key initval true))
      ⟨.createGetval id initval, (s.procs p).held⟩
  | .createGetval id initval =>
    match s.sets id with
    | none => s.exit p
    | some e => s.goto p (if e.set.val 1 = 0 then .createSet0 id initval else .createEnd id)
  | .createSet0 id initval =>
    match s.sets id with
    | none => s.exit p
    | some e =>
      (s.setEntry id (some { e with set := e.set.setval 0 initval })).goto p (.createSet1 id)
  | .createSet1 id =>
    match s.sets id with
    | none => s.exit p
    | some e =>
      (s.setEntry id (some { e with set := e.set.setval 1 bigCount, ready := true })).goto p
        (.createEnd id)
  | .createEnd id => s.semop p id opEndcreate (s.exit p) s ⟨.idle, id :: (s.procs p).held⟩
  | .openGet key =>
    match s.table key with
    | none => s.goto p .idle
    | some id => s.goto p (.openOp id)
  | .openOp id => s.semop p id opOpen (s.exit p) s ⟨.idle, id :: (s.procs p).held⟩
  | .closeOp id =>
    s.semop p id opClose (s.exit p) s ⟨.closeGetval id, (s.procs p).held.erase id⟩
  | .closeGetval id =>
    match s.sets id with
    | none => s.exit p
    | some e =>
      if e.set.val 1 > bigCount then s.exit p
      else if e.set.val 1 = bigCount then s.goto p (.closeRm id)
      else s.goto p (.closeUnlock id)
  | .closeRm id =>
    match s.sets id with
    | none => s.exit p
    | some e =>
      { s.setEntry id none with table := update s.table e.key none }.goto p .idle
  | .closeUnlock id => s.semop p id opUnlock (s.exit p) s ⟨.idle, (s.procs p).held⟩

/-- The keys that `sem_create` and `sem_open` turn down. -/
def badKey (key : Int) : Bool := key = ipcPrivate || key = -1

def step : Event n → Sys n
  | .semCreate p key initval =>
    if (s.procs p).pc = .idle ∧ !badKey key then s.goto p (.createGet key initval) else s
  | .semOpen p key => if (s.procs p).pc = .idle ∧ !badKey key then s.goto p (.openGet key) else s
  | .semClose p id =>
    if (s.procs p).pc = .idle ∧ id ∈ (s.procs p).held then s.goto p (.closeOp id) else s
  | .run p => s.run p
  | .refuse p =>
    match (s.procs p).pc with
    | .createGet _ _ => s.goto p .idle
    | .openGet _ => s.goto p .idle
    | _ => s
  | .exit p => s.exit p

end

def start (n : Nat) : Sys n := ⟨fun _ => none, fun _ => none, 0, fun _ => ⟨.idle, []⟩⟩

end GokuStudio.Apue.Semaph

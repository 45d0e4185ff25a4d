import GokuStudio.Lib.Cyclic
import GokuStudio.Nginx.RbTree.Runs

/-!
# Timers (`ngx_event_timer.c`)

An event has a node for the tree of timers and a flag that says whether it is in. The tree is
ordered by the signed difference of the keys. An event is named by the address of its node.

A machine step is what happens between two points where a handler or the event loop
chooses what comes next: a call of `ngx_event_add_timer` or `ngx_event_del_timer`, time that
passes, or one turn of the loop of `ngx_event_expire_timers`, which removes a due timer and
starts its handler. A handler is the list of the calls that it makes.
-/

namespace GokuStudio.Nginx.Timer

open Lib Nginx.RbTree Function
variable {w : Nat}

/-! ## §1 The functions -/

/-- `NGX_TIMER_INFINITE` -/
def infinite : BitVec w := -1

/-- `NGX_TIMER_LAZY_DELAY` -/
def lazyDelay : Int := 300

/-- `ngx_abs`, for a value of `ngx_msec_int_t` -/
def abs (d : BitVec w) : BitVec w := if d.toInt ≥ 0 then d else -d

/-- The tree of timers, the time, and the flags `timer_set`. -/
structure Timers (w : Nat) where
  tree : Rbtree w
  now : BitVec w
  timerSet : Addr → Bool

/-- `ngx_event_timer_init` -/
def init (mem : Addr → Option (Node w)) (sentinel : Addr) (now : BitVec w) : Option (Timers w) :=
  (RbTree.init mem sentinel).map fun tree => ⟨tree, now, fun _ => false⟩

section
variable (s : Timers w) (ev : Addr) (key : BitVec w)

/-- `ngx_event_find_timer` -/
def findTimer : Option (BitVec w) :=
  if s.tree.root = s.tree.sentinel then some infinite
  else do
    let node ← RbTree.min s.tree s.tree.root
    let key ← s.tree.key node
    some (if 0 < (key - s.now).toInt then key - s.now else 0)

/-- `ngx_event_del_timer` -/
def delTimer : Option (Timers w) := (RbTree.delete s.tree ev).map fun tree =>
    { s with tree := tree, timerSet := update s.timerSet ev false }

/-- `ev->timer.key = key;` -/
def setKey (tree : Rbtree w) (ev : Addr) (key : BitVec w) : Rbtree w :=
  tree.write ev { (tree.mem ev).getD ⟨0, NULL, NULL, NULL, .black⟩ with key := key }

/-- The end of `ngx_event_add_timer`. -/
def arm : Option (Timers w) := (RbTree.insert insertTimerValue (setKey s.tree ev key) ev).map fun tree =>
    { s with tree := tree, timerSet := update s.timerSet ev true }

/-- The test of `ngx_event_add_timer` that keeps an armed timer as it is. -/
def lazy : Option Bool := (s.tree.key ev).map fun old => (abs (key - old)).toInt < lazyDelay

/-- `ngx_event_add_timer` -/
def addTimer (timer : BitVec w) : Option (Timers w) :=
  let key := s.now + timer
  if s.timerSet ev then do
    if ← lazy s ev key then some s
    else
      let s ← delTimer s ev
      arm s ev key
  else arm s ev key

/-- `(ngx_msec_int_t) (node->key - ngx_current_msec) <= 0` -/
def isDue : Bool := (key - s.now).toInt ≤ 0

/-- One turn of the loop of `ngx_event_expire_timers`: the event that fires, if one does, and
its key. -/
def expireTurn : Option (Timers w × Option (RbTree.Item w)) :=
  if s.tree.root = s.tree.sentinel then some (s, none)
  else do
    let node ← RbTree.min s.tree s.tree.root
    let key ← s.tree.key node
    if isDue s key then
      let s ← delTimer s node
      some (s, some ⟨node, key⟩)
    else some (s, none)

/-! ## §2 The machine -/

/-- What a handler, or the code between the calls of `ngx_event_expire_timers`, does. -/
inductive Act (w : Nat) where
  | add (ev : Addr) (timer : BitVec w)
  | del (ev : Addr)

def act : Act w → Option (Timers w)
  | .add ev timer => addTimer s ev timer
  | .del ev => delTimer s ev

end

/-- A call of `ngx_event_expire_timers`: its time, the events that were due at its start, those
that fired, and those whose timer a handler removed or set anew. -/
structure Call (w : Nat) where
  now : BitVec w
  due : List Addr
  fired : List (RbTree.Item w)
  moved : List Addr

inductive Phase (w : Nat) where
  | idle
  /-- `todo` is what is left to do of the handler. -/
  | expiring (call : Call w) (todo : List (Act w))

/-- Besides the timers: the armed events, the expiry last requested for each event, and the
last call that has ended. The code does not have these. -/
structure State (w : Nat) where
  timers : Timers w
  armed : List Addr
  requested : Addr → BitVec w
  phase : Phase w
  last : Option (Call w)

def start (timers : Timers w) : State w := ⟨timers, [], fun _ => 0, .idle, none⟩

inductive Label (w : Nat) where
  | act (a : Act w)
  | advance (d : BitVec w)
  | expire
  /-- One turn of the loop. If an event fires, its handler does `todo`. -/
  | turn (todo : List (Act w))
  /-- The next call of the handler. -/
  | handle

section
variable (s : State w)

/-- The record of what an act does. -/
def note (timers : Timers w) : Act w → State w
  | .add ev timer =>
    { s with
      timers := timers
      armed := if ev ∈ s.armed then s.armed else ev :: s.armed
      requested := update s.requested ev (s.timers.now + timer) }
  | .del ev => { s with timers := timers, armed := s.armed.filter (· ≠ ev) }

/-- The events whose timer is removed or set anew. -/
def moves : Act w → List Addr
  | .add ev timer => if s.timers.timerSet ev ∧ lazy s.timers ev (s.timers.now + timer) = some false then [ev] else []
  | .del ev => [ev]

def dueEvents : List Addr := s.armed.filter fun ev => ((s.timers.tree.key ev).map (isDue s.timers)).getD false

/-- A turn of the loop either fires an event or ends the call. -/
def turned (call : Call w) (todo : List (Act w)) : Timers w × Option (RbTree.Item w) → State w
  | (timers, none) => { s with timers := timers, phase := .idle, last := some call }
  | (timers, some x) =>
    { s with
      timers := timers
      armed := s.armed.filter (· ≠ x.addr)
      phase := .expiring { call with fired := call.fired ++ [x] } todo }

def step : Label w → Option (State w)
  | .act a =>
    match s.phase with
    | .idle => (act s.timers a).map (note s · a)
    | .expiring _ _ => none
  | .advance d =>
    match s.phase with
    | .idle => some { s with timers := { s.timers with now := s.timers.now + d } }
    | .expiring _ _ => none
  | .expire =>
    match s.phase with
    | .idle => some { s with phase := .expiring ⟨s.timers.now, dueEvents s, [], []⟩ [] }
    | .expiring _ _ => none
  | .turn todo =>
    match s.phase with
    | .expiring call [] => (expireTurn s.timers).map (turned s call todo)
    | _ => none
  | .handle =>
    match s.phase with
    | .expiring call (a :: todo) => (act s.timers a).map fun timers =>
      { note s timers a with phase := .expiring { call with moved := moves s a ++ call.moved } todo }
    | _ => none

/-! ## §3 Runs -/

/-- Timers are removed from armed events only, and the sentinel is no event. -/
def ActAllowed : Act w → Prop
  | .add ev _ => ev ≠ s.timers.tree.sentinel
  | .del ev => ev ∈ s.armed

/-- A handler arms only future timers. -/
def Future : Act w → Prop
  | .add _ timer => 0 < timer.toInt
  | .del _ => True

def Allowed : Label w → Prop
  | .act a => s.phase = .idle ∧ ActAllowed s a
  | .advance _ => s.phase = .idle
  | .expire => s.phase = .idle
  | .turn _ => ∃ call, s.phase = .expiring call []
  | .handle => ∃ call a todo, s.phase = .expiring call (a :: todo) ∧ ActAllowed s a ∧ Future a

/-- All armed keys and the current time lie within one window shorter than half the circle. -/
def Window : Prop :=
  ∃ b, Within b s.timers.now ∧ ∀ ev ∈ s.armed, ∀ key, s.timers.tree.key ev = some key → Within b key

end

/-- The states of runs whose steps all meet `P`. -/
inductive Reached (P : State w → Label w → Prop) (s₀ : State w) : State w → Prop
  | start : Reached P s₀ s₀
  | step {s s' : State w} {l : Label w} (hs : Reached P s₀ s) (hl : Allowed s l) (hP : P s l)
      (hstep : step s l = some s') (hw : Window s') : Reached P s₀ s'

end GokuStudio.Nginx.Timer

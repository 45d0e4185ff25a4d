import GokuStudio.Nginx.KeyTree
import GokuStudio.Nginx.Crc32

/-!
# Limiting the number of connections

`ngx_http_limit_conn_module.c`. A zone is a tree in shared memory with a node for each key,
and in the node the number of requests that hold it. A request takes a count in the zone of
each of its limits, one after the other, and leaves a record in its pool for each. The records
are run when the pool is destroyed, or before that if one of the limits is reached. Each
section under the mutex of a zone is one action, and so are the steps in between.
-/

namespace GokuStudio.Nginx.LimitConn

open Lib Function

/-! ## §1 The configuration -/

/-- `ngx_http_limit_conn_limit_t` -/
structure Limit where
  zone : Nat
  conn : Nat
deriving DecidableEq

inductive ConfError where
  /-- The text "is duplicate". -/
  | isDuplicate
  /-- The text "invalid number of connections". -/
  | invalidNumber
  /-- The text "connection limit must be less 65536". -/
  | mustBeLess
deriving DecidableEq

/-- `ngx_http_limit_conn`: the directive adds a limit to those of its location. The number is
what `ngx_atoi` made of the text, with -1 for an error. -/
def limitConn (limits : List Limit) (zone : Nat) (n : Int) : Except ConfError (List Limit) :=
  if limits.any (·.zone = zone) then .error .isDuplicate
  else if n ≤ 0 then .error .invalidNumber
  else if n > 65535 then .error .mustBeLess
  else .ok (limits ++ [⟨zone, n.toNat⟩])

/-- What the directives of a location can make. -/
inductive Configured : List Limit → Prop
  | none : Configured []
  | add {limits limits' : List Limit} {zone : Nat} {n : Int} (h : Configured limits)
      (hadd : limitConn limits zone n = .ok limits') : Configured limits'

/-- The largest limit that some location has for a zone. -/
def largest (conf : List (List Limit)) (zone : Nat) : Nat :=
  ((conf.flatten.filter (·.zone = zone)).map (·.conn)).foldr max 0

/-! ## §2 Zones -/

/-- The tree of a zone and the field `conn` of its nodes, an `u_short`. -/
structure Zone where
  tree : ColorTree Item
  conn : Nat → BitVec 16

def Zone.empty : Zone := ⟨.leaf, fun _ => 0⟩
def Zone.addrs (zone : Zone) : List Nat := zone.tree.inorder.map (·.addr)

section
variable (ops : ColorTree.Ops Item)

/-- The section of `ngx_http_limit_conn_handler` under the mutex, where `alloc` is what
`ngx_slab_alloc_locked` would return. There is no node if the request is turned away. -/
def count (limit : Nat) (zone : Zone) (data : Bytes) (alloc : Option Nat) : Option Item × Zone :=
  let hash := crc32Short data
  match lookup hash data zone.tree with
  | none =>
    match alloc with
    | none => (none, zone)
    | some addr =>
      let node : Item := ⟨addr, hash, data⟩
      (some node, ⟨ops.insert (goesLeft node) node zone.tree, update zone.conn addr 1⟩)
  | some node =>
    if (zone.conn node.addr).toNat ≥ limit then (none, zone)
    else (some node, { zone with conn := update zone.conn node.addr (zone.conn node.addr + 1) })

/-- The section of `ngx_http_limit_conn_cleanup` under the mutex -/
def uncount (zone : Zone) (node : Item) : Zone :=
  let conn := zone.conn node.addr - 1
  { tree := if conn = 0 then ops.delete node zone.tree else zone.tree
    conn := update zone.conn node.addr conn }

/-! ## §3 Requests -/

/-- A node of a zone. -/
abbrev Hold := Nat × Item

/-- An entry of `pool->cleanup`. -/
inductive Cleanup where
  /-- `ngx_http_limit_conn_cleanup` with its data -/
  | conn (hold : Hold)
  /-- The handler of another module. -/
  | other
deriving DecidableEq

inductive Phase where
  /-- The limits that `ngx_http_limit_conn_handler` still has to look at. There are none when
  it is not running. -/
  | checking (limits : List Limit)
  /-- The count is taken, and the record of it is still to be made. -/
  | counted (hold : Hold) (limits : List Limit)
  /-- `ngx_http_limit_conn_cleanup_all` is running. -/
  | rejecting
  /-- `ngx_destroy_pool` is running. -/
  | ending
  | ended
deriving DecidableEq

structure Request where
  phase : Phase
  /-- `r->main->limit_conn_set` -/
  limitConnSet : Bool
  /-- `r->pool->cleanup` -/
  cleanup : List Cleanup
  /-- The handler has returned an error. -/
  rejected : Bool
  /-- The counts that were taken for the request and not given back. The code does not have
  this list. -/
  held : List Hold
deriving DecidableEq

def Request.new : Request := ⟨.checking [], false, [], false, []⟩

/-- What a request does next. -/
inductive Action where
  /-- `ngx_http_limit_conn_handler` is called at a location with these limits. -/
  | call (limits : List Limit)
  /-- It looks at the next limit, where the variable has this value. -/
  | limit (value : Option Bytes) (alloc : Option Nat)
  /-- It makes the record. `ngx_pool_cleanup_add` may fail. -/
  | record (ok : Bool)
  /-- Another module adds a handler to the pool. -/
  | other
  /-- One turn of `ngx_http_limit_conn_cleanup_all` -/
  | cleanupAll
  /-- The request is over. -/
  | finish
  /-- One turn of the loop of `ngx_destroy_pool` -/
  | destroy
deriving DecidableEq

section
variable (zones : Nat → Zone) (r : Request)

/-- `ngx_http_limit_conn_cleanup`, for the handler at the head of the list -/
def runCleanup (hold : Hold) (rest : List Cleanup) : (Nat → Zone) × Request :=
  (update zones hold.1 (uncount ops (zones hold.1) hold.2),
    { r with cleanup := rest, held := r.held.erase hold })

/-- A limit whose variable has a value. -/
def checkLimit (limit : Limit) (rest : List Limit) (data : Bytes)
    (alloc : Option Nat) : (Nat → Zone) × Request :=
  let r := { r with limitConnSet := true }
  match count ops limit.conn (zones limit.zone) data alloc with
  | (none, _) => (zones, { r with phase := .rejecting })
  | (some node, zone) =>
    (update zones limit.zone zone,
      { r with phase := .counted (limit.zone, node) rest, held := (limit.zone, node) :: r.held })

/-- An action, if the request is where it can take it. -/
def act : Action → Option ((Nat → Zone) × Request)
  | .call limits =>
    match r.phase with
    | .checking [] => some (zones, if r.limitConnSet then r else { r with phase := .checking limits })
    | _ => none
  | .limit value alloc =>
    match r.phase with
    | .checking (limit :: rest) =>
      match value with
      | none => some (zones, { r with phase := .checking rest })
      | some data =>
        if data.length = 0 ∨ data.length > 255 then some (zones, { r with phase := .checking rest })
        else some (checkLimit ops zones r limit rest data alloc)
    | _ => none
  | .record ok =>
    match r.phase with
    | .counted hold rest =>
      if ok then some (zones, { r with phase := .checking rest, cleanup := .conn hold :: r.cleanup })
      else some (zones, { r with phase := .checking [], rejected := true })
    | _ => none
  | .other =>
    match r.phase with
    | .checking _ => some (zones, { r with cleanup := .other :: r.cleanup })
    | _ => none
  | .cleanupAll =>
    match r.phase, r.cleanup with
    | .rejecting, .conn hold :: rest => some (runCleanup ops zones r hold rest)
    | .rejecting, _ => some (zones, { r with phase := .checking [], rejected := true })
    | _, _ => none
  | .finish =>
    match r.phase with
    | .checking [] => some (zones, { r with phase := .ending })
    | _ => none
  | .destroy =>
    match r.phase, r.cleanup with
    | .ending, .conn hold :: rest => some (runCleanup ops zones r hold rest)
    | .ending, .other :: rest => some (zones, { r with cleanup := rest })
    | .ending, [] => some (zones, { r with phase := .ended })
    | _, _ => none

end

/-! ## §4 Runs -/

/-- The zones, and all requests there have been. -/
structure State where
  zones : Nat → Zone
  requests : List Request

def State.init : State := ⟨fun _ => Zone.empty, []⟩

/-- What an action may assume: the limits are those of a location, and the allocator returns
memory in which there is no node. -/
def Allowed (conf : List (List Limit)) (zones : Nat → Zone) (r : Request) : Action → Prop
  | .call limits => limits ∈ conf
  | .limit _ (some addr) => ∀ limit rest, r.phase = .checking (limit :: rest) → addr ∉ (zones limit.zone).addrs
  | _ => True

/-- Any interleaving of the actions of any requests, where each action meets a condition. -/
inductive Run (conf : List (List Limit)) (P : Action → Prop) : State → Prop
  | init : Run conf P .init
  | start {s : State} (h : Run conf P s) : Run conf P { s with requests := .new :: s.requests }
  | act {s : State} (h : Run conf P s) {xs ys : List Request} {r r' : Request} {zones' : Nat → Zone} (a : Action)
      (hs : s.requests = xs ++ r :: ys) (hallowed : Allowed conf s.zones r a)
      (hact : act ops s.zones r a = some (zones', r')) (hP : P a) :
      Run conf P ⟨zones', xs ++ r' :: ys⟩

end
end GokuStudio.Nginx.LimitConn

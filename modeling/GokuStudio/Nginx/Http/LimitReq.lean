import GokuStudio.Lib.Bucket
import GokuStudio.Nginx.Crc32
import GokuStudio.Nginx.Event.Timer
import GokuStudio.Nginx.KeyTree

/-!
# Limiting the rate of requests (`ngx_http_limit_req_module.c`)

A zone keeps a node for each key: the excess, and the time of the last request that was let
in. Times are milliseconds. A node keeps the whole time; the code keeps its lowest bits, and
so does every computation with it here.

A queue has the nodes in the order of their last use. When a node is made, one or two of the
oldest nodes are thrown away if they are a minute old and their excess has leaked.
-/

namespace GokuStudio.Nginx.LimitReq

open Lib Function
variable {w : Nat}

/-! ## §1 The functions -/

/-- `ngx_http_limit_req_limit_t`, with the rate of its zone. -/
structure Limit (w : Nat) where
  rate : BitVec w
  burst : BitVec w
  nodelay : Bool

/-- The fields of `ngx_http_limit_req_node_t` that change. -/
structure LimitNode (w : Nat) where
  last : Nat
  excess : BitVec w
  count : Nat

/-- `ngx_http_limit_req_ctx_t`, with the shared tree and queue. The queue begins with the node
that was used last. -/
structure Zone (w : Nat) where
  tree : ColorTree Item
  node : Nat → LimitNode w
  queue : List Item
  ctxNode : Option Item

/-- `ngx_abs((ngx_msec_int_t) (now - lr->last))` -/
def elapsed (w now last : Nat) : BitVec w := Timer.abs (BitVec.ofNat w now - BitVec.ofNat w last)

/-- `ctx->rate * ms / 1000` -/
def leaked (rate ms : BitVec w) : BitVec w := rate * ms / 1000

/-- `excess`, with one more request -/
def nextExcess (rate : BitVec w) (lr : LimitNode w) (now : Nat) : BitVec w :=
  let excess := lr.excess - leaked rate (elapsed w now lr.last) + 1000
  if excess.toInt < 0 then 0 else excess

/-- `ngx_queue_remove(&lr->queue); ngx_queue_insert_head(&ctx->sh->queue, &lr->queue);` -/
def toHead (zone : Zone w) (item : Item) : Zone w := { zone with queue := item :: zone.queue.erase item }

/-- `lr->excess = excess; lr->last = now;` -/
def setExcess (zone : Zone w) (item : Item) (excess : BitVec w) (now : Nat) : Zone w :=
  { zone with
    node := update zone.node item.addr { zone.node item.addr with excess := excess, last := now } }

/-- The tests of `ngx_http_limit_req_expire` on a node. -/
def isStale (rate : BitVec w) (lr : LimitNode w) (now : Nat) : Bool :=
  let ms := elapsed w now lr.last
  ¬ ms.toInt < 60000 ∧ ¬ (lr.excess - leaked rate ms).toInt > 0

section
variable (ops : ColorTree.Ops Item) (limit : Limit w) (zone : Zone w) (now : Nat)

/-- The node at the end of the queue goes out of the queue and out of the tree. -/
def dropLast (item : Item) : Zone w :=
  { zone with tree := ops.delete item zone.tree, queue := zone.queue.dropLast }

/-- The loop of `ngx_http_limit_req_expire`, with `3 - n` turns left. -/
def expireLoop (rate : BitVec w) (now : Nat) : Nat → Nat → Zone w → Zone w
  | 0, _, zone => zone
  | turns + 1, n, zone =>
    match zone.queue.getLast? with
    | none => zone
    | some item =>
      if (zone.node item.addr).count ≠ 0 then zone
      else if n ≠ 0 ∧ isStale rate (zone.node item.addr) now = false then zone
      else expireLoop rate now turns (n + 1) (dropLast ops zone item)

/-- `ngx_http_limit_req_expire` -/
def expire (rate : BitVec w) (now n : Nat) (zone : Zone w) : Zone w := expireLoop ops rate now (3 - n) n zone

/-- What a lookup returns, where the excess is `*ep`. -/
inductive Lookup (w : Nat) where
  | ok (excess : BitVec w)
  | busy (excess : BitVec w)
  | again (excess : BitVec w)
  | error

/-- The part of `ngx_http_limit_req_lookup` that makes a node, in the memory at `addr`. -/
def makeNode (hash : BitVec 32) (data : Bytes) (addr : Nat) (account : Bool) : Lookup w × Zone w :=
  let item : Item := ⟨addr, hash, data⟩
  let zone := { zone with tree := ops.insert (goesLeft item) item zone.tree, queue := item :: zone.queue }
  if account then (.ok 0, { zone with node := update zone.node addr ⟨now, 0, 0⟩ })
  else (.again 0, { zone with node := update zone.node addr ⟨0, 0, 1⟩, ctxNode := some item })

/-- `ngx_http_limit_req_lookup`. `alloc` and `alloc'` are what the two calls of
`ngx_slab_alloc_locked` return. -/
def lookupNode (hash : BitVec 32) (data : Bytes)
    (alloc alloc' : Option Nat) (account : Bool) : Lookup w × Zone w :=
  match lookup hash data zone.tree with
  | some item =>
    let zone := toHead zone item
    let lr := zone.node item.addr
    let excess := nextExcess limit.rate lr now
    if excess.toNat > limit.burst.toNat then (.busy excess, zone)
    else if account then (.ok excess, setExcess zone item excess now)
    else
      (.again excess, { zone with
        node := update zone.node item.addr { lr with count := lr.count + 1 }
        ctxNode := some item })
  | none =>
    let zone := expire ops limit.rate now 1 zone
    match alloc with
    | some addr => makeNode ops zone now hash data addr account
    | none =>
      let zone := expire ops limit.rate now 0 zone
      match alloc' with
      | some addr => makeNode ops zone now hash data addr account
      | none => (.error, zone)

/-- `max_delay` at the start of `ngx_http_limit_req_account` -/
def delay (excess : BitVec w) : BitVec w :=
  if excess = 0 ∨ limit.nodelay then 0 else excess * 1000 / limit.rate

/-- A turn of the loop of `ngx_http_limit_req_account`. -/
def accountTurn (maxDelay : BitVec w) : BitVec w × Zone w :=
  match zone.ctxNode with
  | none => (maxDelay, zone)
  | some item =>
    let lr := zone.node item.addr
    let excess := nextExcess limit.rate lr now
    let zone := { zone with
      node := update zone.node item.addr { last := now, excess := excess, count := lr.count - 1 }
      ctxNode := none }
    if limit.nodelay then (maxDelay, zone)
    else (if excess * 1000 / limit.rate > maxDelay then excess * 1000 / limit.rate else maxDelay, zone)

/-- A request: the value of the variable, the time, and what the allocator returns. -/
structure Request where
  key : Bytes
  time : Nat
  alloc : Option Nat
  alloc' : Option Nat

inductive Verdict (w : Nat) where
  /-- The request has no key that is counted. -/
  | declined
  /-- The request is let in after a delay, which may be 0. -/
  | admitted (delay : BitVec w)
  | rejected
deriving DecidableEq

/-- `ngx_http_limit_req_handler`, for one limit -/
def handler (req : Request) : Verdict w × Zone w :=
  if req.key.length = 0 ∨ req.key.length > 65535 then (.declined, zone)
  else
    let r := lookupNode ops limit zone req.time (crc32Short req.key) req.key req.alloc req.alloc' true
    match r.1 with
    | .ok excess => (.admitted (delay limit excess), r.2)
    | .again _ =>
      let a := accountTurn limit r.2 req.time (delay limit 0)
      (.admitted a.1, a.2)
    | .busy _ | .error => (.rejected, r.2)

end

/-- The zone of `ngx_http_limit_req_init_zone`. -/
def Zone.empty : Zone w := ⟨.leaf, fun _ => ⟨0, 0, 0⟩, [], none⟩

/-! ## §2 Runs -/

def Zone.addrs (zone : Zone w) : List Nat := zone.tree.inorder.map (·.addr)

/-- Requests at times that do not decrease, with keys of at most 255 bytes. The memory for a
node is there at once, and no other node is in it. -/
inductive Run (ops : ColorTree.Ops Item) (limit : Limit w) (P : Zone w → Request → Prop) :
    List (Request × Verdict w) → Zone w → Prop
  | start : Run ops limit P [] Zone.empty
  | request {log : List (Request × Verdict w)} {zone : Zone w} (hrun : Run ops limit P log zone) (req : Request)
      (htime : ∀ x ∈ log, x.1.time ≤ req.time) (hkey : req.key.length ≤ 255)
      (halloc : ∃ addr, req.alloc = some addr ∧ addr ∉ (expire ops limit.rate req.time 1 zone).addrs)
      (hP : P zone req) :
      Run ops limit P (log ++ [(req, (handler ops limit zone req).1)]) (handler ops limit zone req).2

/-- The requests of a key and the verdicts on them. -/
def ofKey (log : List (Request × Verdict w)) (key : Bytes) : List (Request × Verdict w) := log.filter (·.1.key = key)

/-- The times of the requests that are let in. -/
def admittedTimes (log : List (Request × Verdict w)) : List Nat :=
  (log.filter fun x => x.2 ≠ .rejected ∧ x.2 ≠ .declined).map (·.1.time)

end GokuStudio.Nginx.LimitReq

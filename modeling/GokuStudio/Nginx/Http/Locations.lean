import GokuStudio.Nginx.Core

/-!
# Locations (`ngx_http_init_static_location_trees`, `ngx_http_core_find_static_location`)

The locations of a server are sorted by name, exact ones and prefixes with the same
name are joined, and the locations inside a prefix are moved into its list. From these
nested lists a tree is built: a binary search tree at each level, with a tree of its own
at each prefix. A node holds only the part of its name behind the names around it, and
its length in one byte.

Only exact and prefix locations are modelled; the others are kept apart from the tree.
-/

namespace GokuStudio.Nginx

open Lib

/-! ## §1 Names -/

/-- `/` comes before all other characters. -/
def slashLowest (c : UInt8) : Int := if c = '/' then 0 else c.toNat

/-- `ngx_filename_cmp` -/
def filenameCmp : Nat → Bytes → Bytes → Int
  | 0, _, _ => 0
  | n + 1, s₁, s₂ =>
    if peek s₁ = peek s₂ then
      if peek s₁ ≠ NUL then filenameCmp n (s₁.drop 1) (s₂.drop 1) else 0
    else if peek s₁ = NUL ∨ peek s₂ = NUL then (peek s₁).toNat - (peek s₂).toNat
    else slashLowest (peek s₁) - slashLowest (peek s₂)

/-- Those fields of `ngx_http_core_loc_conf_t` that are read here. -/
structure Location where
  name : Bytes
  exactMatch : Bool
  autoRedirect : Bool := false
deriving DecidableEq, Repr

namespace Locations

/-- `ngx_http_location_queue_t`, without its list. -/
structure Queue where
  name : Bytes
  exact : Option Location
  inclusive : Option Location
deriving DecidableEq, Repr

/-- `ngx_http_add_location` -/
def Queue.of (l : Location) : Queue :=
  ⟨l.name, if l.exactMatch then some l else none, if l.exactMatch then none else some l⟩

/-! ## §2 Sorting and joining -/

/-- `ngx_http_cmp_locations` -/
def cmpLocations (one two : Queue) : Int :=
  let rc := filenameCmp (min one.name.length two.name.length + 1) one.name two.name
  if rc = 0 ∧ one.exact.isNone ∧ two.exact.isSome then 1 else rc

/-- One turn of `ngx_queue_sort`: from the end of the sorted queue backwards. The queue is
written from its end. -/
def sortInsert (q : Queue) : List Queue → List Queue
  | [] => [q]
  | prev :: sorted => if cmpLocations prev q ≤ 0 then q :: prev :: sorted else prev :: sortInsert q sorted

/-- `ngx_queue_sort` -/
def queueSort (qs : List Queue) : List Queue := (qs.foldl (fun sorted q => sortInsert q sorted) []).reverse

/-- `ngx_http_join_exact_locations` from `q` on. No queue means that there is a duplicate
location. -/
def joinFrom (q : Queue) : List Queue → Option (List Queue)
  | [] => some [q]
  | x :: rest =>
    if q.name.length = x.name.length ∧ filenameCmp x.name.length q.name x.name = 0 then
      if (q.exact.isSome ∧ x.exact.isSome) ∨ (q.inclusive.isSome ∧ x.inclusive.isSome) then none
      else joinFrom { q with inclusive := x.inclusive } rest
    else (joinFrom x rest).map (q :: ·)

def joinExact : List Queue → Option (List Queue)
  | [] => some []
  | q :: rest => joinFrom q rest

/-! ## §3 Nested lists -/

/-- A queue, each element with the queue of its list. -/
inductive Forest where
  | nil
  | cons (q : Queue) (list next : Forest)
deriving DecidableEq, Repr

/-- The elements of the outer queue. -/
def Forest.entries : Forest → List (Queue × Forest)
  | .nil => []
  | .cons q list next => (q, list) :: next.entries

/-- The test that ends the loop of `ngx_http_create_locations_list`. -/
def inside (q x : Queue) : Bool := !(decide (q.name.length > x.name.length) || filenameCmp q.name.length q.name x.name != 0)

/-- `ngx_http_create_locations_list`; the fuel is the number of elements. -/
def createList : Nat → List Queue → Forest
  | 0, _ => .nil
  | _ + 1, [] => .nil
  | fuel + 1, q :: rest =>
    match q.inclusive with
    | none => .cons q .nil (createList fuel rest)
    | some _ =>
      .cons q (createList fuel (rest.takeWhile (inside q)))
        (createList fuel (rest.dropWhile (inside q)))

/-! ## §4 The tree -/

/-- `ngx_http_location_tree_node_t` -/
inductive Tree where
  | nil
  | node (exact inclusive : Option Location) (autoRedirect : Bool) (len : Nat) (name : Bytes)
      (left right tree : Tree)
deriving DecidableEq, Repr

/-- `ngx_http_create_locations_tree`. The node in the middle is the root; `len` is one
byte. -/
def createTree : Nat → List (Queue × Forest) → Nat → Tree
  | 0, _, _ => .nil
  | fuel + 1, es, pre =>
    match es.drop (es.length / 2) with
    | [] => .nil
    | (q, list) :: after =>
      let len := q.name.length - pre
      .node q.exact q.inclusive (q.exact.any (·.autoRedirect) || q.inclusive.any (·.autoRedirect))
        (len % 256) (q.name.drop pre)
        (createTree fuel (es.take (es.length / 2)) pre)
        (createTree fuel after pre)
        (createTree fuel list.entries (pre + len))

/-- `ngx_http_init_static_location_trees`, behind the sort in `ngx_http_init_locations`. -/
def staticLocations (ls : List Location) : Option Tree := (joinExact (queueSort (ls.map .of))).map fun qs =>
    createTree qs.length (createList qs.length qs).entries 0

/-! ## §5 The search -/

/-- What the search returns, with the location that it selects. `fault` stands for a `NULL`
pointer that is followed. -/
inductive Found where
  | ok (l : Location)
  | done (l : Location)
  | again (l : Location)
  | declined
  | fault
deriving DecidableEq, Repr

/-- `node->exact` if there is one, and else `node->inclusive` -/
def select (exact inclusive : Option Location) (found : Location → Found) : Found :=
  match exact.or inclusive with
  | some l => found l
  | none => .fault

/-- `ngx_http_core_find_static_location`; `rv` is what it returns at a leaf. -/
def find : Tree → Bytes → Found → Found
  | .nil, _, rv => rv
  | .node exact inclusive autoRedirect len name left right tree, uri, rv =>
    let n := if uri.length ≤ len then uri.length else len
    let rc := filenameCmp n uri name
    if rc ≠ 0 then if rc < 0 then find left uri rv else find right uri rv
    else if uri.length > len then
      match inclusive with
      | some l => find tree (uri.drop n) (.again l)
      | none => find right uri rv
    else if uri.length = len then
      if exact.isSome then select exact inclusive .ok else select exact inclusive .again
    else
      find left uri
        (if uri.length + 1 = len ∧ autoRedirect then select exact inclusive .done else rv)

end Locations
end GokuStudio.Nginx

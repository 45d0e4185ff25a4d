import GokuStudio.Lib.Walk
import GokuStudio.Nginx.Core
import Mathlib.Data.List.Basic

/-!
# Hash tables

`ngx_hash_init` and `ngx_hash_find` of `ngx_hash.c`. A table is built once. The buckets lie one
after the other in one piece of memory, and in a bucket the elements: a pointer to the value,
the length of the name in two bytes, and the name. A `NULL` value ends a bucket. The sizes of
the buckets are kept in an array of `u_short`.

Memory is a map from addresses to bytes, where the bytes of a pointer and of a `u_short` say of
what they are a part.
-/

namespace GokuStudio.Nginx.Hash

open Lib

/-! ## §1 Memory -/

/-- The size of a pointer and of a cache line. -/
structure Platform where
  ptr : Nat
  cacheline : Nat
  ptr_pos : 0 < ptr
  ptr_lt : ptr < 65536
  cacheline_pos : 0 < cacheline
  dvd : ptr ∣ cacheline

/-- `ngx_align` and `ngx_align_ptr` -/
def align (d a : Nat) : Nat := (d + (a - 1)) / a * a

inductive Cell where
  | ptr (v i : Nat)
  | short (n i : Nat)
  | byte (c : UInt8)
deriving DecidableEq

abbrev Mem := Nat → Option Cell

section
variable {w : Nat} (P : Platform) (mem : Mem) (buckets : Nat → Option Nat) (names : List Name) (size : Nat)

def writePtr (a v : Nat) : Mem := fun x => if a ≤ x ∧ x < a + P.ptr then some (.ptr v (x - a)) else mem x
def writeShort (a n : Nat) : Mem := fun x => if a ≤ x ∧ x < a + 2 then some (.short n (x - a)) else mem x

def writeBytes (a : Nat) (s : Bytes) : Mem :=
  fun x => if a ≤ x ∧ x < a + s.length then (s[x - a]?).map .byte else mem x

def readPtr (a : Nat) : Option Nat :=
  match mem a with
  | some (.ptr v _) => if ∀ i < P.ptr, mem (a + i) = some (.ptr v i) then some v else none
  | _ => none

def readShort (a : Nat) : Option Nat :=
  match mem a, mem (a + 1) with
  | some (.short n 0), some (.short m 1) => if n = m then some n else none
  | _, _ => none

def readByte (a : Nat) : Option UInt8 :=
  match mem a with
  | some (.byte c) => some c
  | _ => none

/-! ## §2 Lookup -/

/-- `ngx_hash_t`: a bucket may be `NULL` -/
structure Table where
  buckets : Nat → Option Nat
  size : Nat
  mem : Mem

/-- The loop over the bytes of a name. -/
def sameName (mem : Mem) : Nat → Bytes → Option Bool
  | _, [] => some true
  | a, c :: s =>
    match readByte mem a with
    | none => none
    | some c' => if c ≠ c' then some false else sameName mem (a + 1) s

/-- A turn of the loop over the elements of a bucket. -/
def findTurn (name : Bytes) (elt : Nat) : Option (Nat ⊕ Nat) :=
  match readPtr P mem elt with
  | none => none
  | some 0 => some (.inr 0)
  | some value =>
    match readShort mem (elt + P.ptr) with
    | none => none
    | some len =>
      match if name.length ≠ len then some false else sameName mem (elt + P.ptr + 2) name with
      | none => none
      | some true => some (.inr value)
      | some false => some (.inl (align (elt + P.ptr + 2 + len) P.ptr))

/-- `ngx_hash_find`, with 0 for `NULL` -/
def find (table : Table) (key : Nat) (name : Bytes) : Option Nat :=
  match table.buckets (key % table.size) with
  | none => some 0
  | some elt => loop (findTurn P table.mem name) elt

/-! ## §3 Building -/

/-- `ngx_hash_key_t`. A name whose `data` is `NULL` is passed over. -/
structure Name where
  data : Option Bytes
  len : Nat
  keyHash : Nat
  value : Nat
  length_eq : ∀ s ∈ data, s.length = len

/-- `NGX_HASH_ELT_SIZE` -/
def eltSize (name : Name) : Nat := P.ptr + align (name.len + 2) P.ptr

/-- The array `test`. -/
abbrev Test := Nat → BitVec 16

/-- `test[key] = (u_short) (test[key] + NGX_HASH_ELT_SIZE(&names[n]))` -/
def bump (test : Test) (name : Name) : Test :=
  let key := name.keyHash % size
  Function.update test key (BitVec.ofNat 16 ((test key).toNat + eltSize P name))

/-- Whether the names fit the buckets, and the places of `test` that are used. -/
def tryNames (P : Platform) (bucketSize size : Nat) : List Name → Test → Bool × List Nat
  | [], _ => (true, [])
  | name :: names, test =>
    if name.data = none then tryNames P bucketSize size names test
    else
      let key := name.keyHash % size
      let test := bump P size test name
      if (test key).toNat > bucketSize % 65536 then (false, [key])
      else
        let r := tryNames P bucketSize size names test
        (r.1, key :: r.2)

/-- The loop over the sizes. It ends behind the last one if none will do. -/
def search (P : Platform) (bucketSize : Nat) (names : List Name) : Nat → Nat → Nat × List Nat
  | 0, size => (size, [])
  | turns + 1, size =>
    let t := tryNames P bucketSize size names fun _ => 0
    if t.1 then (size, List.range size ++ t.2)
    else
      let r := search P bucketSize names turns (size + 1)
      (r.1, List.range size ++ t.2 ++ r.2)

/-- A name that is not passed over. -/
def Name.used (name : Name) : Bool := name.data.isSome

/-- The sizes of the buckets, with the pointer at the end. -/
def sizes : Test := (names.filter Name.used).foldl (bump P size) fun _ => BitVec.ofNat 16 P.ptr

/-- The memory that is reserved for a bucket. -/
def reserved : Test := fun i =>
  if (sizes P names size i).toNat = P.ptr then sizes P names size i
  else BitVec.ofNat 16 (align (sizes P names size i).toNat P.cacheline)

/-- Where the buckets from the first on end. -/
def offset (P : Platform) (reserved : Test) : Nat → Nat
  | 0 => 0
  | i + 1 => offset P reserved i + if (reserved i).toNat = P.ptr then 0 else (reserved i).toNat

/-- A write: for which bucket, where and how long. -/
structure Write where
  bucket : Nat
  addr : Nat
  len : Nat

/-- What is filled in, so far. -/
structure Fill where
  mem : Mem
  test : Test
  writes : List Write

/-- An element is written. -/
def fillName (f : Fill) (name : Name) : Option Fill :=
  let key := name.keyHash % size
  match buckets key, name.data with
  | _, none => some f
  | none, some _ => none
  | some bucket, some data =>
    let elt := bucket + (f.test key).toNat
    let mem := writePtr P f.mem elt name.value
    let mem := writeShort mem (elt + P.ptr) (name.len % 65536)
    let mem := writeBytes mem (elt + P.ptr + 2) (strlow data)
    some ⟨mem, bump P size f.test name,
      f.writes ++ [⟨key, elt, P.ptr⟩, ⟨key, elt + P.ptr, 2⟩, ⟨key, elt + P.ptr + 2, name.len⟩]⟩

/-- The end of a bucket is written. -/
def fillEnd (f : Fill) (i : Nat) : Fill :=
  match buckets i with
  | none => f
  | some bucket =>
    let elt := bucket + (f.test i).toNat
    ⟨writePtr P f.mem elt 0, f.test, f.writes ++ [⟨i, elt, P.ptr⟩]⟩

/-- `ngx_hash_init_t`, as far as it matters here. The results of the allocations of `test`, of
the buckets and of the elements are a part of it, and so is the memory as it was. -/
structure Init (w : Nat) where
  maxSize : Nat
  bucketSize : BitVec w
  test : Bool
  buckets : Bool
  elts : Option Nat
  mem : Mem

structure Built where
  table : Table
  reserved : Test
  /-- The places of `test` that are used. -/
  used : List Nat
  writes : List Write

inductive Result where
  | error
  | ok (built : Built)

/-- `bucket_size` of the function -/
def Init.room (hinit : Init w) : Nat := (hinit.bucketSize - BitVec.ofNat w P.ptr).toNat

/-- The first size to try. -/
def Init.start (hinit : Init w) (nelts : Nat) : Nat :=
  let start := nelts / (hinit.room P / (2 * P.ptr))
  let start := if start = 0 then 1 else start
  if hinit.maxSize > 10000 ∧ nelts ≠ 0 ∧ hinit.maxSize / nelts < 100 then hinit.maxSize - 1000 else start

/-- The table of a size, in memory from `base` on. -/
def build (hinit : Init w) (names : List Name) (size base : Nat) (used : List Nat) : Option Built :=
  let res := reserved P names size
  let buckets : Nat → Option Nat := fun i =>
    if i < size ∧ (res i).toNat ≠ P.ptr then some (base + offset P res i) else none
  (names.foldlM (fillName P buckets size) ⟨hinit.mem, fun _ => 0, []⟩).map fun f =>
    let f := (List.range size).foldl (fillEnd P buckets) f
    ⟨⟨buckets, size, f.mem⟩, res, used ++ List.range size, f.writes⟩

/-- `ngx_hash_init`. It fails on a division by zero, and on a write to a `NULL` bucket. -/
def init (hinit : Init w) (names : List Name) : Option Result :=
  if names.any fun name => hinit.bucketSize.toNat < eltSize P name + P.ptr then some .error
  else if hinit.test = false then some .error
  else if hinit.room P / (2 * P.ptr) = 0 then none
  else
    let start := hinit.start P names.length
    let found := search P (hinit.room P) names (hinit.maxSize + 1 - start) start
    if hinit.buckets = false then some .error
    else
      match hinit.elts with
      | none => some .error
      | some elts => (build P hinit names found.1 (align elts P.cacheline) found.2).map .ok

end
end GokuStudio.Nginx.Hash

import GokuStudio.Lib.Ring
import GokuStudio.Nginx.Crc32
import Mathlib.Data.Finset.Card
import Mathlib.Data.Finset.Max
import Mathlib.Data.List.Dedup

/-!
# Consistent hashing (`ngx_http_upstream_hash_module.c`)

Every server puts points on a ring, at hash values computed from its name. A key goes to the
server of the first point from the key's own hash on. The points are kept in an array that
is allocated for all of them at the start and not cleared: `ngx_http_upstream_add_chash_point`
compares the new hash with the element behind the last point, too, which nobody has written.
-/

namespace GokuStudio.Nginx.Upstream.Chash

open Lib List

/-! ## §1 The points of a server -/

/-- `ngx_http_upstream_server_t`, as far as the points depend on it. -/
structure Server where
  name : Bytes
  weight : Nat
  naddrs : Nat
  backup : Bool

/-- The fields `server` and `weight` of `ngx_http_upstream_rr_peer_t`. -/
structure Peer where
  server : Bytes
  weight : Nat

/-- The peers of `ngx_http_upstream_init_round_robin`: one for each address of each server that
is not a backup. -/
def roundRobinPeers (servers : List Server) : List Peer :=
  (servers.filter (!·.backup)).flatMap fun server => List.replicate server.naddrs ⟨server.name, server.weight⟩

/-- `ngx_http_upstream_chash_point_t` -/
structure Point where
  hash : BitVec 32
  server : Bytes

/-- `ngx_strncasecmp(server->data, (u_char *) "unix:", 5) == 0` -/
def isUnix (server : Bytes) : Bool :=
  (server.take 5).map (fun ch => if isUpper ch then ch ||| 0x20 else ch) = text "unix:".toList

/-- The loop that looks for the port from the end of the name on. -/
def findPort : Bytes → Bytes → Option (Bytes × Bytes)
  | [], _ => none
  | c :: rest, port =>
    if c = ':' then some (rest.reverse, port)
    else if c < '0' ∨ c > '9' then none
    else findPort rest (c :: port)

/-- `host` and `port` -/
def hostPort (server : Bytes) : Bytes × Bytes :=
  if isUnix server then (server.drop 5, [])
  else (findPort server.reverse []).getD (server, [])

/-- `base_hash` -/
def baseHash (server : Bytes) : BitVec 32 :=
  let hp := hostPort server
  crc32Update (crc32Update (crc32Update 0xffffffff hp.1) [NUL]) hp.2

/-- The bytes of a `uint32_t`, the lowest first. -/
def wordBytes (x : BitVec 32) : Bytes := [UInt8.ofBitVec (x.extractLsb' 0 8), UInt8.ofBitVec (x.extractLsb' 8 8),
    UInt8.ofBitVec (x.extractLsb' 16 8), UInt8.ofBitVec (x.extractLsb' 24 8)]

/-- The hash of a point from that of the one before. -/
def pointHash (base prev : BitVec 32) : BitVec 32 := crc32Final (crc32Update base (wordBytes prev))

/-- `peer->weight * 160`, in an `ngx_uint_t` -/
def npoints (weight : Nat) : Nat := weight * 160 % 2 ^ 64

/-! ## §2 The array -/

/-- `ngx_http_upstream_chash_points_t`, with the memory that is allocated for it. -/
structure Points where
  bytes : Nat
  number : Nat
  point : Nat → Point

/-- The element `k` of the array lies in the allocated memory. -/
def Points.Inside (bytes k : Nat) : Prop := 8 + 16 * (k + 1) ≤ bytes

instance : DecidablePred (Points.Inside bytes) := fun _ => inferInstanceAs (Decidable (_ ≤ _))

/-- The loop of `ngx_http_upstream_find_chash_point`. -/
def search (point : Nat → Point) (hash : BitVec 32) (i j : Nat) : Nat :=
  if i < j then
    let k := (i + j) / 2
    if hash > (point k).hash then search point hash (k + 1) j
    else if hash < (point k).hash then search point hash i k
    else k
  else i
termination_by j - i
decreasing_by
  · omega
  · omega

/-- `ngx_http_upstream_find_chash_point` -/
def findChashPoint (points : Points) (hash : BitVec 32) : Nat := search points.point hash 0 points.number

/-- The end of `ngx_http_upstream_add_chash_point`. -/
def Points.insert (points : Points) (i : Nat) (new : Point) : Points :=
  { points with number := points.number + 1, point := Ring.insertAt points.point i points.number new }

/-- `ngx_http_upstream_add_chash_point`, or `none` if it leaves the allocated memory. -/
def addChashPoint (points : Points) (new : Point) : Option Points :=
  let i := findChashPoint points new.hash
  if ¬ Points.Inside points.bytes i then none
  else if (points.point i).hash = new.hash then some points
  else if ¬ Points.Inside points.bytes points.number then none
  else some (points.insert i new)

/-- The loop over the points of a server. -/
def addPoints (base : BitVec 32) (server : Bytes) : Nat → BitVec 32 → Points → Option Points
  | 0, _, points => some points
  | n + 1, prev, points =>
    let hash := pointHash base prev
    (addChashPoint points ⟨hash, server⟩).bind (addPoints base server n hash)

/-- `size`, for `n` points -/
def allocSize (n : Nat) : Nat := (24 + 16 * ((n + (2 ^ 64 - 1)) % 2 ^ 64)) % 2 ^ 64

/-- `peers->total_weight` -/
def totalWeight (peers : List Peer) : Nat := (peers.map (·.weight)).sum % 2 ^ 64

/-- `ngx_http_upstream_init_chash`, after `ngx_http_upstream_init_round_robin`. The memory that
`ngx_palloc` returns has held `mem`. -/
def initChash (mem : Nat → Point) (peers : List Peer) : Option Points := peers.foldlM
    (fun points peer => addPoints (baseHash peer.server) peer.server (npoints peer.weight) 0 points)
    ⟨allocSize (npoints (totalWeight peers)), 0, mem⟩

/-- The server that `ngx_http_upstream_init_chash_peer` and the first turn of the loop of
`ngx_http_upstream_get_chash_peer` choose for a key. -/
def keyServer (points : Points) (key : Bytes) : Option Bytes :=
  if points.number = 0 then none
  else some (points.point (findChashPoint points (crc32Long key) % points.number)).server

/-! ## §3 The search -/

/-- The hash of element `k`, as a number. -/
def hashAt (point : Nat → Point) (k : Nat) : Nat := (point k).hash.toNat

theorem search_spec {point : Nat → Point} {n : Nat} (h : Ring.Ascends (hashAt point) n) (hash : BitVec 32) {i j : Nat}
    (hij : i ≤ j) (hjn : j ≤ n) (hbelow : ∀ k < i, hashAt point k < hash.toNat)
    (habove : ∀ k, j ≤ k → k < n → hash.toNat ≤ hashAt point k) :
    Ring.FirstNotBelow (hashAt point) n hash.toNat (search point hash i j) := by
  fun_induction search point hash i j with
  | case1 i j hlt k hgt ih =>
    have hk : hashAt point k < hash.toNat := BitVec.lt_def.mp hgt
    refine ih (by omega) hjn (fun m hm => ?_) habove
    exact lt_of_le_of_lt (h.le (Nat.lt_succ_iff.mp hm) (by omega)) hk
  | case2 i j hlt k _ hlt' ih =>
    have hk : hash.toNat < hashAt point k := BitVec.lt_def.mp hlt'
    refine ih (by omega) (by omega) hbelow fun m hm hmn => ?_
    exact hk.le.trans (h.le hm hmn)
  | case3 i j hlt k hle hge =>
    have hk : hash.toNat = hashAt point k := Nat.le_antisymm (not_lt.mp fun hgt => hle (BitVec.lt_def.mpr hgt))
        (not_lt.mp fun hgt => hge (BitVec.lt_def.mpr hgt))
    refine ⟨by omega, fun m hm => ?_, fun m hm hmn => ?_⟩
    · rw [hk]
      exact h m k hm (by omega)
    · rw [hk]
      exact h.le hm hmn
  | case4 i j hge =>
    have heq : i = j := Nat.le_antisymm hij (Nat.le_of_not_lt hge)
    exact ⟨heq ▸ hjn, hbelow, heq ▸ habove⟩

variable {points : Points}

theorem findChashPoint_spec (h : Ring.Ascends (hashAt points.point) points.number)
    (hash : BitVec 32) :
    Ring.FirstNotBelow (hashAt points.point) points.number hash.toNat (findChashPoint points hash) :=
  search_spec h hash (Nat.zero_le _) le_rfl nofun fun _ hk hk' => absurd hk' (not_lt.mpr hk)

/-! ## §4 Adding points -/

/-- The hashes of a list of points. -/
def hashes (L : List Point) : Finset (BitVec 32) := (L.map (·.hash)).toFinset

/-- The first point of the list with a hash. -/
def owner (L : List Point) (hash : BitVec 32) : Option Point := L.find? (·.hash = hash)

/-- The array after the points `L` have been added to memory that held `mem`. -/
structure Holds (mem : Nat → Point) (L : List Point) (points : Points) : Prop where
  ascends : Ring.Ascends (hashAt points.point) points.number
  number : points.number = (hashes L).card
  owned : ∀ k < points.number, owner L (points.point k).hash = some (points.point k)
  all : ∀ hash ∈ hashes L, ∃ k < points.number, (points.point k).hash = hash
  inside : ∀ k < points.number, Points.Inside points.bytes k
  spare : ∀ k, points.number ≤ k → points.point k = mem k

/-- A point whose hash is new goes into the allocated memory, and is not just the hash that the
memory behind the last point holds if it would go there. -/
def Clear (bytes : Nat) (mem : Nat → Point) (L : List Point) (new : Point) : Prop :=
  new.hash ∉ hashes L → Points.Inside bytes (hashes L).card ∧
    ((∀ hash ∈ hashes L, hash < new.hash) → (mem (hashes L).card).hash ≠ new.hash)

variable {hash : BitVec 32} {L : List Point}

theorem mem_hashes : hash ∈ hashes L ↔ ∃ p ∈ L, p.hash = hash := by
  simp [hashes]

theorem hashes_append (L M : List Point) : hashes (L ++ M) = hashes L ∪ hashes M := by
  rw [hashes, map_append, toFinset_append, hashes, hashes]

theorem hashes_concat (L : List Point) (new : Point) : hashes (L ++ [new]) = insert new.hash (hashes L) := by
  rw [hashes_append, Finset.union_comm, Finset.insert_eq]
  rfl

theorem owner_isSome : (owner L hash).isSome ↔ hash ∈ hashes L := by
  rw [owner, find?_isSome, mem_hashes]
  simp

variable {M rest : List Point} {mem : Nat → Point} {k : Nat} {peers : List Peer}

theorem owner_append : owner (L ++ M) hash = (owner L hash).or (owner M hash) := find?_append

section Add
variable {new : Point} (h : Holds mem L points)
include h

theorem Holds.hash_mem (hk : k < points.number) :
    (points.point k).hash ∈ hashes L := owner_isSome.mp (h.owned k hk ▸ rfl)

/-- The place of a hash that the array holds. -/
theorem Holds.find_old (hnew : new.hash ∈ hashes L) :
    findChashPoint points new.hash < points.number ∧ (points.point (findChashPoint points new.hash)).hash = new.hash := by
  obtain ⟨k, hk, heq⟩ := h.all new.hash hnew
  have hspec := findChashPoint_spec h.ascends new.hash
  have hle : findChashPoint points new.hash ≤ k := by
    refine Nat.le_of_not_lt fun hlt => ?_
    have hbelow := hspec.below k hlt
    rw [hashAt, heq] at hbelow
    exact absurd hbelow (Nat.lt_irrefl _)
  have habove := hspec.above _ le_rfl (lt_of_le_of_lt hle hk)
  have hmono := h.ascends.le hle hk
  rw [hashAt, hashAt, heq] at hmono
  exact ⟨lt_of_le_of_lt hle hk, BitVec.eq_of_toNat_eq (Nat.le_antisymm hmono habove)⟩

theorem Holds.keep (hnew : new.hash ∈ hashes L) : Holds mem (L ++ [new]) points := by
  have hhashes : hashes (L ++ [new]) = hashes L := by
    rw [hashes_concat, Finset.insert_eq_of_mem hnew]
  refine ⟨h.ascends, hhashes ▸ h.number, fun k hk => ?_, hhashes ▸ h.all, h.inside, h.spare⟩
  rw [owner_append, h.owned k hk]
  rfl

section
variable (hnew : new.hash ∉ hashes L)
include hnew

theorem Holds.hash_ne (hk : k < points.number) : (points.point k).hash ≠ new.hash := by
  intro heq
  exact hnew (heq ▸ h.hash_mem hk)

theorem Holds.insert (hinside : Points.Inside points.bytes points.number) :
    Holds mem (L ++ [new]) (points.insert (findChashPoint points new.hash) new) := by
  have hspec := findChashPoint_spec h.ascends new.hash
  have hnone : owner L new.hash = none := by
    rw [← Option.not_isSome_iff_eq_none, owner_isSome]
    exact hnew
  have hne : ∀ k < points.number, (points.point k).hash.toNat ≠ new.hash.toNat := fun k hk heq =>
    h.hash_ne hnew hk (BitVec.eq_of_toNat_eq heq)
  have hascends : Ring.Ascends (hashAt (points.insert (findChashPoint points new.hash) new).point)
      (points.number + 1) :=
    Ring.Ascends.insertAt (f := fun p : Point => p.hash.toNat) h.ascends hspec hne
  have helems : ∀ p, p ∈ Ring.elems (points.insert (findChashPoint points new.hash) new).point (points.number + 1) ↔
      p = new ∨ p ∈ Ring.elems points.point points.number := fun p => Ring.elems_insertAt hspec.le
  refine ⟨hascends, ?_, fun k hk => ?_, fun hash hhash => ?_, fun k hk => ?_, fun k hk => ?_⟩
  · rw [hashes_concat, Finset.card_insert_of_notMem hnew, ← h.number]
    rfl
  · rw [owner_append]
    rcases (helems _).mp ⟨k, hk, rfl⟩ with heq | ⟨k', hk', heq⟩
    · rw [heq, hnone]
      simp [owner]
    · rw [← heq, h.owned k' hk']
      rfl
  · rw [hashes_concat, Finset.mem_insert] at hhash
    rcases hhash with rfl | hhash
    · obtain ⟨k, hk, heq⟩ := (helems _).mpr (.inl rfl)
      exact ⟨k, hk, congrArg (·.hash) heq⟩
    obtain ⟨k', hk', rfl⟩ := h.all hash hhash
    obtain ⟨k, hk, heq⟩ := (helems _).mpr (.inr ⟨k', hk', rfl⟩)
    exact ⟨k, hk, congrArg (·.hash) heq⟩
  · rcases Nat.lt_succ_iff_lt_or_eq.mp hk with hlt | rfl
    · exact h.inside k hlt
    · exact hinside
  · show Ring.insertAt points.point _ points.number new k = mem k
    rw [Ring.insertAt_gt hspec.le hk]
    exact h.spare k (Nat.le_of_succ_le hk)

/-- The test does not take a new hash for one that is there. -/
theorem Holds.test (hclear : (∀ hash ∈ hashes L, hash < new.hash) → (mem (hashes L).card).hash ≠ new.hash) :
    (points.point (findChashPoint points new.hash)).hash ≠ new.hash := by
  have hspec := findChashPoint_spec h.ascends new.hash
  rcases Nat.lt_or_eq_of_le hspec.le with hlt | heq
  · exact h.hash_ne hnew hlt
  -- all points are below the new one, and the test reads what the memory held
  rw [heq, h.spare _ le_rfl, h.number]
  refine hclear fun hash hhash => ?_
  obtain ⟨k, hk, rfl⟩ := h.all hash hhash
  exact BitVec.lt_def.mpr (hspec.below k (heq ▸ hk))

end

theorem Holds.add (hclear : Clear points.bytes mem L new) :
    ∃ points', addChashPoint points new = some points' ∧ points'.bytes = points.bytes ∧ Holds mem (L ++ [new]) points' := by
  by_cases hnew : new.hash ∈ hashes L
  · obtain ⟨hlt, heq⟩ := h.find_old hnew
    refine ⟨points, ?_, rfl, h.keep hnew⟩
    rw [addChashPoint, if_neg (not_not.mpr (h.inside _ hlt)), if_pos heq]
  obtain ⟨hinside, hmem⟩ := hclear hnew
  rw [← h.number] at hinside
  have hle := (findChashPoint_spec h.ascends new.hash).le
  have hinside' : Points.Inside points.bytes (findChashPoint points new.hash) := by
    rw [Points.Inside] at hinside ⊢
    omega
  refine ⟨points.insert (findChashPoint points new.hash) new, ?_, rfl, h.insert hnew hinside⟩
  rw [addChashPoint, if_neg (not_not.mpr hinside'), if_neg (h.test hnew hmem), if_neg (not_not.mpr hinside)]

end Add

/-! ## §5 The whole array -/

/-- The points that the loop over the points of a server adds. -/
def pointsFrom (base : BitVec 32) (server : Bytes) : Nat → BitVec 32 → List Point
  | 0, _ => []
  | n + 1, prev => ⟨pointHash base prev, server⟩ :: pointsFrom base server n (pointHash base prev)

def peerPoints (peer : Peer) : List Point := pointsFrom (baseHash peer.server) peer.server (npoints peer.weight) 0

/-- All points that are computed from the peers, in the order in which they are added. -/
def allPoints (peers : List Peer) : List Point := peers.flatMap peerPoints

theorem addPoints_eq (base : BitVec 32) (server : Bytes) (n : Nat) : ∀ (prev : BitVec 32) (points : Points),
    addPoints base server n prev points = (pointsFrom base server n prev).foldlM addChashPoint points := by
  induction n with
  | zero => exact fun _ _ => rfl
  | succ n ih =>
    intro prev points
    rw [addPoints, pointsFrom, foldlM_cons]
    exact congrArg _ (funext fun points => ih _ points)

theorem initChash_eq (mem : Nat → Point) (peers : List Peer) : initChash mem peers =
    (allPoints peers).foldlM addChashPoint ⟨allocSize (npoints (totalWeight peers)), 0, mem⟩ := by
  rw [initChash, allPoints]
  generalize Points.mk (allocSize (npoints (totalWeight peers))) 0 mem = points
  induction peers generalizing points with
  | nil => rfl
  | cons peer peers ih =>
    rw [foldlM_cons, flatMap_cons, foldlM_append, addPoints_eq]
    exact congrArg _ (funext ih)

/-- Every point that is added is clear of what the memory held. -/
def Clean (bytes : Nat) (mem : Nat → Point) : List Point → List Point → Prop
  | _, [] => True
  | L, new :: rest => Clear bytes mem L new ∧ Clean bytes mem (L ++ [new]) rest

theorem holds_foldlM : ∀ {L : List Point} {points : Points}, Holds mem L points → Clean points.bytes mem L rest →
    ∃ points', rest.foldlM addChashPoint points = some points' ∧ Holds mem (L ++ rest) points' := by
  induction rest with
  | nil =>
    intro L points h _
    exact ⟨points, rfl, (append_nil L).symm ▸ h⟩
  | cons new rest ih =>
    rintro L points h ⟨hclear, hclean⟩
    obtain ⟨points1, hadd, hbytes, h1⟩ := h.add hclear
    obtain ⟨points', hfold, h'⟩ := ih h1 (hbytes ▸ hclean)
    refine ⟨points', ?_, ?_⟩
    · rw [foldlM_cons, hadd]
      exact hfold
    · rwa [append_assoc] at h'

theorem holds_empty (bytes : Nat) (mem : Nat → Point) : Holds mem [] ⟨bytes, 0, mem⟩ :=
  ⟨nofun, rfl, nofun, nofun, nofun, fun _ _ => rfl⟩

/-- The memory that is allocated is large enough for the points, and what it held is never
taken for a point. -/
def CleanFor (mem : Nat → Point) (peers : List Peer) : Prop :=
  Clean (allocSize (npoints (totalWeight peers))) mem [] (allPoints peers)

theorem holds_initChash (h : CleanFor mem peers) :
    ∃ points, initChash mem peers = some points ∧ Holds mem (allPoints peers) points := by
  rw [initChash_eq]
  exact holds_foldlM (holds_empty _ mem) h

/-! ## §6 Keys and servers -/

/-- The places of the points on the ring. -/
def places (L : List Point) : Set Nat := fun n => ∃ hash ∈ hashes L, hash.toNat = n

theorem Holds.elems (h : Holds mem L points) : Ring.elems (hashAt points.point) points.number = places L := by
  ext n
  constructor
  · rintro ⟨k, hk, rfl⟩
    exact ⟨_, h.hash_mem hk, rfl⟩
  · rintro ⟨hash, hhash, rfl⟩
    obtain ⟨k, hk, rfl⟩ := h.all hash hhash
    exact ⟨k, hk, rfl⟩

/-- A key goes to the server that was the first to compute the next point. -/
theorem Holds.key (h : Holds mem L points) (hn : points.number ≠ 0) (key : Bytes) :
    ∃ p, keyServer points key = some p.server ∧ owner L p.hash = some p ∧
      Ring.Next (places L) (crc32Long key).toNat p.hash.toNat := by
  have hpos : 0 < points.number := Nat.pos_of_ne_zero hn
  have hnext := h.ascends.next (findChashPoint_spec h.ascends (crc32Long key)) hpos
  rw [h.elems] at hnext
  refine ⟨_, if_neg hn, h.owned _ (Nat.mod_lt _ hpos), hnext⟩

theorem hashes_subset_append (L M : List Point) : hashes L ⊆ hashes (L ++ M) :=
  hashes_append L M ▸ Finset.subset_union_left

/-- More points, all of one server, take keys to that server and leave the others where they are. -/
theorem Holds.stable {mem' : Nat → Point} {points' : Points} {server : Bytes}
    (h : Holds mem L points) (h' : Holds mem' (L ++ M) points') (hM : ∀ p ∈ M, p.server = server) (key : Bytes) :
    keyServer points' key = keyServer points key ∨ keyServer points' key = some server := by
  have hle : points.number ≤ points'.number := by
    rw [h.number, h'.number]
    exact Finset.card_le_card (hashes_subset_append L M)
  by_cases hn' : points'.number = 0
  · have hn : points.number = 0 := Nat.le_zero.mp (hn' ▸ hle)
    exact .inl (by rw [keyServer, keyServer, if_pos hn, if_pos hn'])
  obtain ⟨p', hkey', howner', hnext'⟩ := h'.key hn' key
  rw [owner_append] at howner'
  cases howner : owner L p'.hash with
  | none =>
    rw [howner, Option.none_or] at howner'
    exact .inr (hkey'.trans (congrArg some (hM p' (mem_of_find?_eq_some howner'))))
  | some q =>
    rw [howner, Option.some_or] at howner'
    cases howner'
    have hmem : p'.hash ∈ hashes L := owner_isSome.mp (howner ▸ rfl)
    have hn : points.number ≠ 0 := by
      rw [h.number]
      exact Finset.card_ne_zero_of_mem hmem
    obtain ⟨p, hkey, hp, hnext⟩ := h.key hn key
    have hsub : places L ⊆ places (L ++ M) := by
      rintro n ⟨hash, hhash, rfl⟩
      exact ⟨hash, hashes_subset_append L M hhash, rfl⟩
    have heq := hnext.unique (hnext'.of_subset hsub ⟨_, hmem, rfl⟩)
    rw [BitVec.eq_of_toNat_eq heq, howner] at hp
    cases hp
    exact .inl (hkey'.trans hkey.symm)

theorem pointsFrom_server (base : BitVec 32) (server : Bytes) (n : Nat) : ∀ (prev : BitVec 32),
    ∀ p ∈ pointsFrom base server n prev, p.server = server := by
  induction n with
  | zero => exact nofun
  | succ n ih =>
    intro prev p hp
    rcases mem_cons.mp hp with rfl | hp
    · rfl
    · exact ih _ p hp

theorem allPoints_append (servers : List Server) (new : Server) :
    ∃ M, allPoints (roundRobinPeers (servers ++ [new])) = allPoints (roundRobinPeers servers) ++ M ∧
      ∀ p ∈ M, p.server = new.name := by
  refine ⟨allPoints (roundRobinPeers [new]), ?_, fun p hp => ?_⟩
  · rw [allPoints, allPoints, allPoints, ← flatMap_append, roundRobinPeers, roundRobinPeers, roundRobinPeers,
      ← flatMap_append, ← filter_append]
  · obtain ⟨peer, hpeer, hp⟩ := mem_flatMap.mp hp
    obtain ⟨server, hserver, hpeer⟩ := mem_flatMap.mp hpeer
    rw [mem_singleton.mp (mem_filter.mp hserver).1] at hpeer
    rw [(mem_replicate.mp hpeer).2] at hp
    exact pointsFrom_server _ _ _ _ p hp

/-- As long as the memory is large enough and what it held is never taken for a point: the
array ascends and holds just the computed hashes, the search finds the first that is not
below, and one more server only takes keys to itself. -/
theorem chash_consistent {mem : Nat → Point} {servers : List Server} (hclean : CleanFor mem (roundRobinPeers servers)) :
    ∃ points, initChash mem (roundRobinPeers servers) = some points ∧
      (∀ i j, i < j → j < points.number → (points.point i).hash < (points.point j).hash) ∧
      (∀ hash, (∃ k < points.number, (points.point k).hash = hash) ↔ hash ∈ hashes (allPoints (roundRobinPeers servers))) ∧
      (∀ hash, Ring.FirstNotBelow (hashAt points.point) points.number hash.toNat (findChashPoint points hash) ∧
        ((∀ k < points.number, (points.point k).hash < hash) → findChashPoint points hash % points.number = 0)) ∧
      ∀ new mem', CleanFor mem' (roundRobinPeers (servers ++ [new])) →
        ∃ points', initChash mem' (roundRobinPeers (servers ++ [new])) = some points' ∧
          ∀ key, keyServer points' key = keyServer points key ∨ keyServer points' key = some new.name := by
  obtain ⟨points, hinit, h⟩ := holds_initChash hclean
  refine ⟨points, hinit, fun i j hij hj => BitVec.lt_def.mpr (h.ascends i j hij hj), fun hash => ?_, fun hash => ?_,
    fun new mem' hclean' => ?_⟩
  · constructor
    · rintro ⟨k, hk, rfl⟩
      exact h.hash_mem hk
    · exact h.all hash
  · have hspec := findChashPoint_spec h.ascends hash
    refine ⟨hspec, fun hall => ?_⟩
    rcases Nat.lt_or_eq_of_le hspec.le with hlt | heq
    · exact absurd (BitVec.lt_def.mp (hall _ hlt)) (not_lt.mpr (hspec.above _ le_rfl hlt))
    · rw [heq, Nat.mod_self]
  · obtain ⟨points', hinit', h'⟩ := holds_initChash hclean'
    obtain ⟨M, hM, hserver⟩ := allPoints_append servers new
    rw [hM] at h'
    exact ⟨points', hinit', h.stable h' hserver⟩

/-! ## §7 What the memory held -/

theorem length_pointsFrom (base : BitVec 32) (server : Bytes) (n : Nat) : ∀ prev : BitVec 32,
    (pointsFrom base server n prev).length = n := by
  induction n with
  | zero => exact fun _ => rfl
  | succ n ih => exact fun _ => congrArg (· + 1) (ih _)

theorem length_allPoints (peers : List Peer) : (allPoints peers).length ≤ (peers.map (·.weight)).sum * 160 := by
  induction peers with
  | nil => exact Nat.zero_le _
  | cons peer peers ih =>
    have hpeer : (peerPoints peer).length = npoints peer.weight := length_pointsFrom _ _ _ _
    have hle : npoints peer.weight ≤ peer.weight * 160 := Nat.mod_le _ _
    rw [allPoints] at ih
    rw [allPoints, flatMap_cons, length_append, hpeer, map_cons, sum_cons, Nat.add_mul]
    omega

/-- The memory is large enough if no product overflows. -/
theorem inside_of_small (hsmall : (peers.map (·.weight)).sum * 2560 + 24 < 2 ^ 64)
    (hk : k < (allPoints peers).length) : Points.Inside (allocSize (npoints (totalWeight peers))) k := by
  have hlength := length_allPoints peers
  rw [Points.Inside, allocSize, npoints, totalWeight]
  omega

theorem card_hashes_le (L : List Point) : (hashes L).card ≤ L.length := by
  rw [← length_map (·.hash)]
  exact toFinset_card_le _

/-- Memory that holds none of the computed hashes is never taken for a point. -/
theorem clean_of_fresh {bytes : Nat} : ∀ {L : List Point},
    (∀ k < (L ++ rest).length, Points.Inside bytes k) → (∀ k, (mem k).hash ∉ hashes rest) → Clean bytes mem L rest := by
  induction rest with
  | nil => exact fun _ _ => trivial
  | cons new rest ih =>
    intro L hinside hmem
    refine ⟨fun _ => ⟨hinside _ ?_, fun _ heq => ?_⟩, ih ?_ fun k hk => ?_⟩
    · have hle := card_hashes_le L
      rw [length_append, length_cons]
      omega
    · exact hmem _ (mem_hashes.mpr ⟨new, mem_cons_self, heq.symm⟩)
    · rwa [append_assoc]
    · obtain ⟨p, hp, heq⟩ := mem_hashes.mp hk
      exact hmem k (mem_hashes.mpr ⟨p, mem_cons_of_mem _ hp, heq⟩)

theorem exists_fresh {S : Finset (BitVec 32)} (h : S.card < 2 ^ 32) : ∃ x, x ∉ S := by
  by_contra hall
  have hsub : Finset.range (2 ^ 32) ⊆ S.image BitVec.toNat := by
    intro n hn
    refine Finset.mem_image.mpr ⟨BitVec.ofNat 32 n, not_not.mp fun hx => hall ⟨_, hx⟩, ?_⟩
    rw [BitVec.toNat_ofNat, Nat.mod_eq_of_lt (Finset.mem_range.mp hn)]
  have hle := (Finset.card_le_card hsub).trans Finset.card_image_le
  rw [Finset.card_range] at hle
  omega

/-- One server with one address. -/
def lone : List Server := [⟨text ['a'], 1, 1, false⟩]

theorem chash_consistent_lone :
    ∃ mem points, CleanFor mem (roundRobinPeers lone) ∧ initChash mem (roundRobinPeers lone) = some points ∧
      ∀ hash ∈ hashes (allPoints (roundRobinPeers lone)), ∃ k < points.number, (points.point k).hash = hash := by
  have hlength : (allPoints (roundRobinPeers lone)).length ≤ 160 := length_allPoints (roundRobinPeers lone)
  have hcard := card_hashes_le (allPoints (roundRobinPeers lone))
  obtain ⟨x, hx⟩ : ∃ x, x ∉ hashes (allPoints (roundRobinPeers lone)) := exists_fresh (by omega)
  have hclean : CleanFor (fun _ => ⟨x, []⟩) (roundRobinPeers lone) :=
    clean_of_fresh (fun k => inside_of_small (by decide)) fun _ => hx
  obtain ⟨points, hinit, -, hall, -⟩ := chash_consistent hclean
  exact ⟨_, points, hclean, hinit, fun hash => (hall hash).mpr⟩

section Hidden
variable {max : BitVec 32}

/-- The greatest hash is not added if the memory holds it. -/
theorem Holds.hide {new : Point} (h : Holds (fun _ => ⟨max, []⟩) L points) (hL : ∀ p ∈ L, p.hash < max)
    (hnew : new.hash = max) (hinside : Points.Inside points.bytes points.number) :
    addChashPoint points new = some points := by
  have hspec := findChashPoint_spec h.ascends new.hash
  have hend : findChashPoint points new.hash = points.number := by
    refine Nat.le_antisymm hspec.le (Nat.le_of_not_lt fun hlt => ?_)
    have hle := hspec.above _ le_rfl hlt
    obtain ⟨p, hp, heq⟩ := mem_hashes.mp (h.hash_mem hlt)
    have hbelow := BitVec.lt_def.mp (hL p hp)
    rw [heq, ← hnew] at hbelow
    exact absurd hbelow (not_lt.mpr hle)
  rw [addChashPoint, hend, if_neg (not_not.mpr hinside), h.spare _ le_rfl, if_pos hnew.symm]

theorem holds_without_max {rest : List Point} (hmax : ∀ p ∈ rest, p.hash ≤ max) :
    ∀ {L : List Point} {points : Points}, Holds (fun _ => ⟨max, []⟩) L points → (∀ p ∈ L, p.hash < max) →
    (∀ k < L.length + rest.length, Points.Inside points.bytes k) →
    ∃ L' points', rest.foldlM addChashPoint points = some points' ∧ Holds (fun _ => ⟨max, []⟩) L' points' ∧
      ∀ p ∈ L', p.hash < max := by
  induction rest with
  | nil => exact fun h hL _ => ⟨_, _, rfl, h, hL⟩
  | cons new rest ih =>
    intro L points h hL hinside
    have hrest : ∀ p ∈ rest, p.hash ≤ max := (forall_mem_cons.mp hmax).2
    have hnumber : Points.Inside points.bytes (hashes L).card := by
      refine hinside _ ?_
      have hle := card_hashes_le L
      rw [length_cons]
      omega
    rw [length_cons] at hinside
    rw [foldlM_cons]
    by_cases hnew : new.hash = max
    · rw [h.hide hL hnew (h.number ▸ hnumber)]
      exact ih hrest h hL fun k hk => hinside k (by omega)
    have hlt : new.hash < max := by
      have hle := BitVec.le_def.mp (hmax new mem_cons_self)
      have hne : new.hash.toNat ≠ max.toNat := fun heq => hnew (BitVec.eq_of_toNat_eq heq)
      exact BitVec.lt_def.mpr (lt_of_le_of_ne hle hne)
    have hclear : Clear points.bytes (fun _ => ⟨max, []⟩) L new := fun _ => ⟨hnumber, fun _ heq => hnew heq.symm⟩
    obtain ⟨points1, hadd, hbytes, h1⟩ := h.add hclear
    rw [hadd]
    refine ih hrest h1 (fun p hp => ?_) fun k hk => ?_
    · rcases mem_append.mp hp with hp | hp
      · exact hL p hp
      · rw [mem_singleton.mp hp]
        exact hlt
    · rw [hbytes]
      rw [length_append, length_singleton] at hk
      exact hinside k (by omega)

end Hidden

/-- There is memory with which the array lacks a point. -/
theorem chash_lacks_point : ∃ mem points hash, initChash mem (roundRobinPeers lone) = some points ∧
      hash ∈ hashes (allPoints (roundRobinPeers lone)) ∧ ∀ k < points.number, (points.point k).hash ≠ hash := by
  have hne : (hashes (allPoints (roundRobinPeers lone))).Nonempty := ⟨_, mem_hashes.mpr ⟨_, mem_cons_self, rfl⟩⟩
  obtain ⟨max, hmem, hmax⟩ := Finset.exists_max_image _ BitVec.toNat hne
  obtain ⟨L, points, hfold, h, hL⟩ := @holds_without_max max (allPoints (roundRobinPeers lone))
    (fun p hp => BitVec.le_def.mpr (hmax p.hash (mem_hashes.mpr ⟨p, hp, rfl⟩))) [] _
    (holds_empty (allocSize (npoints (totalWeight (roundRobinPeers lone)))) _) nofun
    fun k hk => inside_of_small (by decide) (by simpa using hk)
  refine ⟨_, points, max, (initChash_eq _ _).trans hfold, hmem, fun k hk heq => ?_⟩
  obtain ⟨p, hp, heq'⟩ := mem_hashes.mp (h.hash_mem hk)
  have hlt := hL p hp
  rw [heq', heq] at hlt
  exact absurd hlt (BitVec.lt_irrefl max)

end GokuStudio.Nginx.Upstream.Chash

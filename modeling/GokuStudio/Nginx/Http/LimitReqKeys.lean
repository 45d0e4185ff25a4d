import GokuStudio.Nginx.Http.LimitReqRuns

/-!
# Who is limited, and what is forgotten

A client is known by its key. The handler takes keys of up to 65535 bytes, but a node keeps the
length in one byte: a key of 256 bytes or more is never found again, and each of its requests
makes a new node.

A node that is thrown away in time is not missed: as long as it is spent, every request gets
the verdict that it would get if nothing were thrown away.
-/

namespace GokuStudio.Nginx.LimitReq

open Lib List
variable {w : Nat} {ops : ColorTree.Ops Item}

/-! ## §1 Who is limited -/

/-- The zones after any lookups for keys of at most `bound` bytes. The allocator gives memory
that no node is in, or none. What else is done to a zone does not touch its tree and queue. -/
inductive Lookups (ops : ColorTree.Ops Item) (bound : Nat) : Zone w → Prop
  | start : Lookups ops bound Zone.empty
  | lookup {zone : Zone w} (hzone : Lookups ops bound zone) (limit : Limit w) (now : Nat) (key : Bytes)
      (alloc alloc' : Option Nat) (account : Bool) (hpos : 0 < key.length) (hbound : key.length ≤ bound)
      (halloc : ∀ addr ∈ alloc, addr ∉ (expire ops limit.rate now 1 zone).addrs)
      (halloc' : ∀ addr ∈ alloc', addr ∉ (expire ops limit.rate now 0 (expire ops limit.rate now 1 zone)).addrs) :
      Lookups ops bound (lookupNode ops limit zone now (crc32Short key) key alloc alloc' account).2
  | fields {zone : Zone w} (hzone : Lookups ops bound zone) (node : Nat → LimitNode w) (ctxNode : Option Item) :
      Lookups ops bound { zone with node := node, ctxNode := ctxNode }

/-- Every node is found by its key, and requests share a node just if they have the same key. -/
structure Identifies (zone : Zone w) : Prop where
  found : ∀ item ∈ zone.tree.inorder, lookup (crc32Short item.data) item.data zone.tree = some item
  shared : ∀ key key' item item', lookup (crc32Short key) key zone.tree = some item →
    lookup (crc32Short key') key' zone.tree = some item' → (item.addr = item'.addr ↔ key = key')

section
variable {zone : Zone w} {rate : BitVec w} {now addr : Nat} {key : Bytes} (h : Sound zone)
include h

theorem Sound.identifies : Identifies zone := by
  refine ⟨fun item hitem => h.lookup_some.mpr ⟨hitem, rfl⟩, fun key key' item item' hkey hkey' => ?_⟩
  obtain ⟨hitem, rfl⟩ := h.lookup_some.mp hkey
  obtain ⟨hitem', rfl⟩ := h.lookup_some.mp hkey'
  exact ⟨fun heq => h.addr_inj hitem hitem' heq ▸ rfl, fun heq => h.data_inj hitem hitem' heq ▸ rfl⟩

theorem Sound.lookupNode (limit : Limit w) {alloc alloc' : Option Nat} (account : Bool) (hlength : key.length ≤ 255)
    (halloc : ∀ addr ∈ alloc, addr ∉ (expire ops limit.rate now 1 zone).addrs)
    (halloc' : ∀ addr ∈ alloc', addr ∉ (expire ops limit.rate now 0 (expire ops limit.rate now 1 zone)).addrs) :
    Sound (lookupNode ops limit zone now (crc32Short key) key alloc alloc' account).2 := by
  rw [LimitReq.lookupNode]
  cases hlookup : lookup (crc32Short key) key zone.tree with
  | some item =>
    have hhead := h.toHead (h.lookup_some.mp hlookup).1
    dsimp only
    split_ifs
    · exact hhead
    · exact hhead.setExcess _ _ _
    · exact ⟨hhead.toKeyed, hhead.queue⟩
  | none =>
    have habsent := h.lookup_none.mp hlookup
    have hmake : ∀ zone1 : Zone w, ∀ addr, Sound zone1 → (∀ x ∈ zone1.tree.inorder, x ∈ zone.tree.inorder) →
        addr ∉ zone1.addrs → Sound (makeNode ops zone1 now (crc32Short key) key addr account).2 := by
      intro zone1 addr hsound hsub haddr
      have hmade := @Sound.make w zone1 ops hsound now addr key haddr hlength fun x hx => habsent x (hsub x hx)
      cases account with
      | true => exact hmade
      | false => exact ⟨hmade.toKeyed, hmade.queue⟩
    obtain ⟨hone, -, hsub, -⟩ := @Sound.expireLoop w now limit.rate zone ops h 2 1
    cases alloc with
    | some addr => exact hmake _ addr hone hsub (halloc addr rfl)
    | none =>
      obtain ⟨htwo, -, hsub', -⟩ := @Sound.expireLoop w now limit.rate _ ops hone 3 0
      cases alloc' with
      | some addr => exact hmake _ addr htwo (fun x hx => hsub x (hsub' x hx)) (halloc' addr rfl)
      | none => exact htwo

end

theorem lookups_sound {zone : Zone w} {bound : Nat} (hle : bound ≤ 255) (h : Lookups ops bound zone) : Sound zone := by
  induction h with
  | start => exact sound_empty
  | lookup _ limit now key alloc alloc' account _ hbound halloc halloc' ih =>
    exact ih.lookupNode limit account (hbound.trans hle) halloc halloc'
  | fields _ node ctxNode ih => exact ⟨ih.toKeyed, ih.queue⟩

/-- The node of a longer key is lost: the bytes that the comparison sees are not the key. -/
theorem long_lost (limit : Limit w) {key : Bytes} (h : 255 < key.length) :
    ¬ Identifies (lookupNode ops limit Zone.empty 0 (crc32Short key) key (some 0) none true).2 := by
  intro hid
  let item : Item := ⟨0, crc32Short key, key⟩
  have hone : (ops.insert (goesLeft item) item .leaf).inorder = [item] := ops.inorder_insert _ _ _
  have hfound := hid.found item (hone ▸ mem_singleton_self item)
  have hname : key = item.name := ((lookup_iff (hone ▸ pairwise_singleton _ _)).mp hfound).2.2
  have hle : item.name.length ≤ key.length % 256 := length_take_le _ _
  rw [← hname] at hle
  omega

/-- The handler when `ngx_http_limit_req_expire` removes nothing, with memory for each node. -/
def handlerKeep (ops : ColorTree.Ops Item) (limit : Limit w) (zone : Zone w) (req : Request) (addr : Nat) :
    Verdict w × Zone w :=
  match lookup (crc32Short req.key) req.key zone.tree with
  | some _ => handler ops limit zone req
  | none =>
    if req.key.length = 0 ∨ req.key.length > 65535 then (.declined, zone)
    else (.admitted (delay limit 0), (makeNode ops zone req.time (crc32Short req.key) req.key addr true).2)

/-- A run in which nothing is thrown away, and no computation overflows. -/
inductive RunKeep (ops : ColorTree.Ops Item) (limit : Limit w) : List (Request × Verdict w) → Zone w → Prop
  | start : RunKeep ops limit [] Zone.empty
  | request {log : List (Request × Verdict w)} {zone : Zone w} (hrun : RunKeep ops limit log zone) (req : Request)
      (addr : Nat) (haddr : addr ∉ zone.addrs)
      (hno : ∀ item ∈ lookup (crc32Short req.key) req.key zone.tree,
        NoOverflow limit.rate (zone.node item.addr) req.time) :
      RunKeep ops limit (log ++ [(req, (handlerKeep ops limit zone req addr).1)]) (handlerKeep ops limit zone req addr).2

/-- The requests of a log. -/
def requests (log : List (Request × Verdict w)) : List (Bytes × Nat) := log.map fun x => (x.1.key, x.1.time)

section
variable {limit : Limit w} {log log' : List (Request × Verdict w)} {zone zone' : Zone w}

theorem times_eq (key : Bytes) : times log key = ((requests log).filter (·.1 = key)).map (·.2) := by
  rw [times, ofKey, requests, filter_map, map_map]
  rfl

theorem Inv.handlerKeep {req : Request} {v : Verdict w} {addr : Nat} (h : Inv limit log zone)
    (htime : ∀ x ∈ log, x.1.time ≤ req.time) (hlength : req.key.length ≤ 255) (haddr : addr ∉ zone.addrs)
    (hno : ∀ item ∈ lookup (crc32Short req.key) req.key zone.tree,
      NoOverflow limit.rate (zone.node item.addr) req.time) :
    (handlerKeep ops limit zone req addr).1 =
        (if req.key = [] then .declined else verdict limit (bucket limit log req.key) req.time) ∧
      Inv limit (log ++ [(req, v)]) (handlerKeep ops limit zone req addr).2 := by
  rw [LimitReq.handlerKeep]
  cases hlookup : lookup (crc32Short req.key) req.key zone.tree with
  | some item =>
    obtain ⟨hitem, hdata⟩ := h.lookup_some.mp hlookup
    have hkey : req.key ≠ [] := hdata ▸ h.nonempty item hitem
    show (LimitReq.handler ops limit zone req).1 = (if _ then _ else _) ∧ Inv _ _ (LimitReq.handler ops limit zone req).2
    rw [if_neg hkey]
    exact h.handler_found htime hlookup (hno item hlookup)
  | none =>
    by_cases hkey : req.key = []
    · obtain ⟨hverdict, hinv⟩ := @Inv.handler_empty w limit log zone req v ops h hkey
      rw [LimitReq.handler, if_pos (.inl (length_eq_zero_iff.mpr hkey))] at hinv
      rw [if_pos hkey]
      dsimp only
      rw [if_pos (.inl (length_eq_zero_iff.mpr hkey))]
      exact ⟨rfl, hinv⟩
    · have hpos := length_pos_iff.mpr hkey
      rw [if_neg hkey]
      dsimp only
      rw [if_neg (by omega)]
      exact h.make htime ⟨h.toSound, rfl, fun _ hx => hx, fun _ => .inl⟩ hkey hlength (h.lookup_none.mp hlookup) haddr

end
end GokuStudio.Nginx.LimitReq

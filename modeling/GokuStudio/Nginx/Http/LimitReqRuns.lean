import GokuStudio.Nginx.Http.LimitReq
import Mathlib.Data.List.Induction

/-!
# The rate is kept

For each key the zone is a leaky bucket, with one difference: a node that is thrown away is
forgotten. A bucket that has leaked so much that it would let in the next request with no
excess is not missed. But a node is thrown away as soon as its excess has leaked, and then
the next request finds no bucket and is let in without being counted.
-/

namespace GokuStudio.Nginx.LimitReq

open Lib Function List Bucket
variable {w : Nat}

/-! ## §1 The arithmetic -/

/-- None of the computations for a known key leaves the range of a word. -/
def NoOverflow (rate : BitVec w) (lr : LimitNode w) (now : Nat) : Prop :=
  now - lr.last < 2 ^ (w - 1) ∧ rate.toNat * (now - lr.last) < 2 ^ w ∧ lr.excess.toNat + 1000 < 2 ^ (w - 1)

variable {now addr last : Nat}

theorem elapsed_eq (hle : last ≤ now) (hlt : now - last < 2 ^ (w - 1)) (hw : 0 < w) :
    (elapsed w now last).toNat = now - last := by
  have hpow : 2 ^ w = 2 * 2 ^ (w - 1) := by rw [← Nat.pow_succ', Nat.succ_eq_add_one, Nat.sub_add_cancel hw]
  have hsub : BitVec.ofNat w now - BitVec.ofNat w last = BitVec.ofNat w (now - last) := by
    have hadd : BitVec.ofNat w now = BitVec.ofNat w (now - last) + BitVec.ofNat w last := by
      rw [← BitVec.ofNat_add, Nat.sub_add_cancel hle]
    rw [hadd, BitVec.add_sub_cancel]
  have hnat : (BitVec.ofNat w (now - last)).toNat = now - last := by
    rw [BitVec.toNat_ofNat, Nat.mod_eq_of_lt (by omega)]
  have hint : (BitVec.ofNat w (now - last)).toInt ≥ 0 := by
    rw [BitVec.toInt_eq_toNat_of_lt (by omega), hnat]
    exact Int.natCast_nonneg _
  rw [elapsed, hsub, Timer.abs, if_pos hint, hnat]

variable {rate : BitVec w}

theorem leaked_eq {ms : BitVec w} (hmul : rate.toNat * ms.toNat < 2 ^ w) (hw : 1000 < 2 ^ w) :
    (leaked rate ms).toNat = leak rate.toNat ms.toNat := by
  have h1000 : (1000 : BitVec w).toNat = 1000 := Nat.mod_eq_of_lt hw
  rw [leaked, BitVec.toNat_udiv, BitVec.toNat_mul, Nat.mod_eq_of_lt hmul, h1000, leak]

theorem nextExcess_eq {lr : LimitNode w} (hle : lr.last ≤ now) (h : NoOverflow rate lr now) :
    (nextExcess rate lr now).toNat = excess rate.toNat (some (lr.excess.toNat, lr.last)) now := by
  obtain ⟨hlt, hmul, hexcess⟩ := h
  have hw : 0 < w := Nat.pos_of_ne_zero fun hzero => by simp [hzero] at hexcess
  have hpow : 2 ^ w = 2 * 2 ^ (w - 1) := by rw [← Nat.pow_succ', Nat.succ_eq_add_one, Nat.sub_add_cancel hw]
  have helapsed := elapsed_eq hle hlt hw
  have hbig : 1000 < 2 ^ w := by omega
  have hleaked : (leaked rate (elapsed w now lr.last)).toNat = leak rate.toNat (now - lr.last) := by
    rw [leaked_eq (helapsed ▸ hmul) hbig, helapsed]
  have h1000 : (1000 : BitVec w).toNat = 1000 := Nat.mod_eq_of_lt hbig
  have hsmall : leak rate.toNat (now - lr.last) ≤ 2 ^ (w - 1) := by
    rw [leak]
    omega
  have hnat : (lr.excess - leaked rate (elapsed w now lr.last) + 1000).toNat =
      (2 ^ w - leak rate.toNat (now - lr.last) + lr.excess.toNat + 1000) % 2 ^ w := by
    rw [BitVec.toNat_add, BitVec.toNat_sub, hleaked, h1000, Nat.mod_add_mod]
  rw [nextExcess, excess]
  generalize lr.excess - leaked rate (elapsed w now lr.last) + 1000 = x at *
  generalize leak rate.toNat (now - lr.last) = D at *
  have hcases : x.toNat = lr.excess.toNat + 1000 - D ∧ D ≤ lr.excess.toNat + 1000 ∨
      x.toNat = 2 ^ w - (D - (lr.excess.toNat + 1000)) ∧ lr.excess.toNat + 1000 < D := by
    by_cases hD : D ≤ lr.excess.toNat + 1000
    · refine .inl ⟨?_, hD⟩
      rw [hnat, show 2 ^ w - D + lr.excess.toNat + 1000 = lr.excess.toNat + 1000 - D + 2 ^ w by omega,
        Nat.add_mod_right, Nat.mod_eq_of_lt (by omega)]
    · refine .inr ⟨?_, by omega⟩
      rw [hnat, Nat.mod_eq_of_lt (by omega)]
      omega
  rcases hcases with ⟨hx, hD⟩ | ⟨hx, hD⟩
  · have hint : x.toInt = x.toNat := BitVec.toInt_eq_toNat_of_lt (by omega)
    rw [if_neg (by omega), hx]
  have hint : x.toInt < 0 := by
    rw [BitVec.toInt_eq_toNat_cond, if_neg (by omega)]
    omega
  rw [if_pos hint]
  show (0#w).toNat = _
  rw [BitVec.toNat_zero]
  omega

/-! ## §2 The zone -/

/-- So much has leaked that the next request would have no excess. -/
def Spent (rate : BitVec w) (lr : LimitNode w) (now : Nat) : Prop :=
  lr.excess.toNat + 1000 ≤ leak rate.toNat (now - lr.last)

/-- The oldest nodes, as far as they are thrown away, are spent. -/
def OldestSpent (rate : BitVec w) (now : Nat) (node : Nat → LimitNode w) : Nat → List Item → Prop
  | turns + 1, item :: rest =>
    (node item.addr).count = 0 → isStale rate (node item.addr) now = true →
      Spent rate (node item.addr) now ∧ OldestSpent rate now node turns rest
  | _, _ => True

instance OldestSpent.decidable (rate : BitVec w) (now : Nat) (node : Nat → LimitNode w) :
    ∀ turns items, Decidable (OldestSpent rate now node turns items)
  | 0, _ => isTrue (by rw [OldestSpent.eq_2]; exacts [trivial, nofun])
  | _ + 1, [] => isTrue trivial
  | turns + 1, item :: rest =>
    have := OldestSpent.decidable rate now node turns rest
    inferInstanceAs (Decidable ((node item.addr).count = 0 → isStale rate (node item.addr) now = true →
      (node item.addr).excess.toNat + 1000 ≤ leak rate.toNat (now - (node item.addr).last) ∧ _))

/-- The condition on a request: a known key does not overflow, and a new one throws away only
nodes that are spent. -/
def Careful (limit : Limit w) (zone : Zone w) (req : Request) : Prop := req.key.length ≠ 0 →
    match lookup (crc32Short req.key) req.key zone.tree with
    | some item => NoOverflow limit.rate (zone.node item.addr) req.time
    | none => OldestSpent limit.rate req.time zone.node 2 zone.queue.reverse

instance (rate : BitVec w) (lr : LimitNode w) (now : Nat) : Decidable (NoOverflow rate lr now) :=
  inferInstanceAs (Decidable (_ ∧ _ ∧ _))

instance (limit : Limit w) (zone : Zone w) (req : Request) : Decidable (Careful limit zone req) :=
  have : Decidable (match lookup (crc32Short req.key) req.key zone.tree with
      | some item => NoOverflow limit.rate (zone.node item.addr) req.time
      | none => OldestSpent limit.rate req.time zone.node 2 zone.queue.reverse) :=
    match lookup (crc32Short req.key) req.key zone.tree with
    | some _ => inferInstance
    | none => inferInstance
  inferInstanceAs (Decidable (req.key.length ≠ 0 → _))

/-- A zone whose keys are of at most 255 bytes. -/
structure Sound (zone : Zone w) : Prop extends Keyed zone.tree where
  queue : zone.queue.Perm zone.tree.inorder

section Zone
variable {zone : Zone w} {ops : ColorTree.Ops Item}

theorem sound_empty : Sound (Zone.empty (w := w)) := ⟨keyed_leaf, .refl _⟩

section
variable (h : Sound zone)
include h

theorem Sound.dropLast {item : Item} (hitem : zone.queue.getLast? = some item) :
    Sound (dropLast ops zone item) ∧ zone.queue.reverse = item :: (dropLast ops zone item).queue.reverse ∧
      ∀ x, x ∈ zone.tree.inorder ↔ x = item ∨ x ∈ (dropLast ops zone item).tree.inorder := by
  obtain ⟨rest, hrest⟩ := getLast?_eq_some_iff.mp hitem
  have hqueue : (LimitReq.dropLast ops zone item).queue = rest := by
    show zone.queue.dropLast = rest
    rw [hrest, dropLast_concat]
  have hmem : item ∈ zone.tree.inorder := by
    rw [← h.queue.mem_iff, hrest]
    exact mem_append_right _ (mem_singleton_self item)
  have hperm := ops.perm_delete hmem
  refine ⟨⟨h.delete ops hmem, ?_⟩, ?_, fun x => ?_⟩
  · rw [hqueue]
    refine List.Perm.cons_inv (a := item) ?_
    refine (perm_append_singleton item rest).symm.trans ?_
    rw [← hrest]
    exact h.queue.trans hperm.symm
  · rw [hqueue, hrest, reverse_append]
    rfl
  · rw [← hperm.mem_iff, mem_cons]
    rfl

/-- What is thrown away is spent. -/
structure Expired (rate : BitVec w) (now : Nat) (zone zone' : Zone w) : Prop where
  sound : Sound zone'
  node : zone'.node = zone.node
  sub : ∀ x ∈ zone'.tree.inorder, x ∈ zone.tree.inorder
  spent : ∀ x ∈ zone.tree.inorder, x ∈ zone'.tree.inorder ∨ Spent rate (zone.node x.addr) now

/-- Some of the nodes are thrown away. If those that are must be stale, they are spent. -/
theorem Sound.expireLoop (turns n : Nat) : let zone' := expireLoop ops rate now turns n zone
    Sound zone' ∧ zone'.node = zone.node ∧ (∀ x ∈ zone'.tree.inorder, x ∈ zone.tree.inorder) ∧
      (n ≠ 0 → OldestSpent rate now zone.node turns zone.queue.reverse →
        ∀ x ∈ zone.tree.inorder, x ∈ zone'.tree.inorder ∨ Spent rate (zone.node x.addr) now) := by
  induction turns generalizing n zone with
  | zero => exact ⟨h, rfl, fun _ hx => hx, fun _ _ _ => .inl⟩
  | succ turns ih =>
    rw [LimitReq.expireLoop]
    cases hitem : zone.queue.getLast? with
    | none => exact ⟨h, rfl, fun _ hx => hx, fun _ _ _ => .inl⟩
    | some item =>
      dsimp only
      split_ifs with hcount hstale
      · exact ⟨h, rfl, fun _ hx => hx, fun _ _ _ => .inl⟩
      · exact ⟨h, rfl, fun _ hx => hx, fun _ _ _ => .inl⟩
      · obtain ⟨hsound, hqueue, hmem⟩ := @Sound.dropLast w zone ops h item hitem
        obtain ⟨hrest, hnode, hsub, hspent⟩ := ih hsound (n + 1)
        refine ⟨hrest, hnode, fun x hx => (hmem x).mpr (.inr (hsub x hx)), fun hn hold x hx => ?_⟩
        have hstale' : isStale rate (zone.node item.addr) now = true := by
          by_contra hfresh
          exact hstale ⟨hn, Bool.eq_false_iff.mpr hfresh⟩
        rw [hqueue] at hold
        obtain ⟨hitem', hold'⟩ := hold (not_not.mp hcount) hstale'
        rcases (hmem x).mp hx with rfl | hx
        · exact .inr hitem'
        · exact hspent (Nat.succ_ne_zero n) hold' x hx

theorem Sound.toHead {item : Item} (hitem : item ∈ zone.tree.inorder) : Sound (toHead zone item) :=
  ⟨h.toKeyed, (perm_cons_erase (h.queue.mem_iff.mpr hitem)).symm.trans h.queue⟩

theorem Sound.setExcess (item : Item) (excess : BitVec w) (now : Nat) :
    Sound (setExcess zone item excess now) := ⟨h.toKeyed, h.queue⟩

end

theorem Sound.make (h : Sound zone) {now addr : Nat} {key : Bytes} (haddr : addr ∉ zone.addrs)
    (hlength : key.length ≤ 255)
    (hkey : ∀ item ∈ zone.tree.inorder, item.data ≠ key) :
    Sound (makeNode ops zone now (crc32Short key) key addr true).2 :=
  ⟨h.insert ops haddr hlength hkey, (h.queue.cons _).trans ops.perm_insert.symm⟩

end Zone

/-! ## §3 One request -/

section
variable (limit : Limit w) (log : List (Request × Verdict w)) (key : Bytes)

/-- The times of the requests of a key. -/
def times : List Nat := (ofKey log key).map (·.1.time)

/-- The bucket of a key. -/
def bucket : Bucket.State := (times log key).foldl (offer limit.rate.toNat limit.burst.toNat) none

/-- The verdict that the bucket gives. -/
def verdict (s : Bucket.State) (now : Nat) : Verdict w :=
  if excess limit.rate.toNat s now ≤ limit.burst.toNat then
    .admitted (delay limit (BitVec.ofNat w (excess limit.rate.toNat s now)))
  else .rejected

/-- The nodes are the buckets of their keys. The bucket of a key that has no node has been
spent since one of the requests. -/
structure Inv (zone : Zone w) : Prop extends Sound zone where
  nonempty : ∀ item ∈ zone.tree.inorder, item.data ≠ []
  here : ∀ item ∈ zone.tree.inorder,
    bucket limit log item.data = some ((zone.node item.addr).excess.toNat, (zone.node item.addr).last)
  gone : ∀ key e last, key ≠ [] → (∀ item ∈ zone.tree.inorder, item.data ≠ key) →
    bucket limit log key = some (e, last) → ∃ x ∈ log, e + 1000 ≤ leak limit.rate.toNat (x.1.time - last)

end

section Request
variable {limit : Limit w} {log : List (Request × Verdict w)} {zone : Zone w} {req : Request} {v : Verdict w}

theorem bucket_snoc (key : Bytes) : bucket limit (log ++ [(req, v)]) key =
    if req.key = key then offer limit.rate.toNat limit.burst.toNat (bucket limit log key) req.time
    else bucket limit log key := by
  rw [bucket, times, ofKey, filter_append]
  by_cases hkey : req.key = key
  · rw [if_pos hkey, filter_cons_of_pos (by simpa using hkey), map_append, foldl_append]
    rfl
  · rw [if_neg hkey, filter_cons_of_neg (by simpa using hkey), filter_nil, append_nil]
    rfl

theorem bucket_last {key : Bytes} {e : Nat} (h : bucket limit log key = some (e, last)) :
    ∃ x ∈ log, x.1.time = last := by
  induction log using reverseRecOn generalizing e last with
  | nil => cases h
  | append_singleton log x ih =>
    obtain ⟨req, v⟩ := x
    rw [bucket_snoc] at h
    have hold : bucket limit log key = some (e, last) → ∃ x ∈ log ++ [(req, v)], x.1.time = last := by
      intro h
      obtain ⟨x, hx, hlast⟩ := ih h
      exact ⟨x, mem_append_left _ hx, hlast⟩
    split at h
    case isTrue =>
      rw [offer] at h
      split at h
      case isTrue =>
        cases h
        exact ⟨_, mem_append_right _ (mem_singleton_self _), rfl⟩
      case isFalse => exact hold h
    case isFalse => exact hold h

section
variable (h : Inv limit log zone)
include h

/-- A key without a node has no excess. -/
theorem Inv.excess_gone (htime : ∀ x ∈ log, x.1.time ≤ req.time) (hkey : req.key ≠ [])
    (hgone : ∀ item ∈ zone.tree.inorder, item.data ≠ req.key) :
    excess limit.rate.toNat (bucket limit log req.key) req.time = 0 := by
  cases hbucket : bucket limit log req.key with
  | none => rfl
  | some s =>
    obtain ⟨e, last⟩ := s
    obtain ⟨x, hx, hspent⟩ := h.gone req.key e last hkey hgone hbucket
    have hmono := @leak_mono limit.rate.toNat _ _ (Nat.sub_le_sub_right (htime x hx) last)
    exact Nat.sub_eq_zero_of_le (Nat.le_trans hspent hmono)

/-- The excess of a key with a node. -/
theorem Inv.excess_here (htime : ∀ x ∈ log, x.1.time ≤ req.time) {item : Item}
    (hitem : item ∈ zone.tree.inorder) (hdata : item.data = req.key)
    (hno : NoOverflow limit.rate (zone.node item.addr) req.time) :
    (nextExcess limit.rate (zone.node item.addr) req.time).toNat =
      excess limit.rate.toNat (bucket limit log req.key) req.time := by
  have hhere := h.here item hitem
  obtain ⟨x, hx, hlast⟩ := bucket_last hhere
  rw [nextExcess_eq (hlast ▸ htime x hx) hno, ← hdata, hhere]

/-- The other nodes and the other buckets stay as they are. -/
theorem Inv.others {zone' : Zone w} (hsub : ∀ x ∈ zone'.tree.inorder, x.data ≠ req.key →
      x ∈ zone.tree.inorder ∧ zone'.node x.addr = zone.node x.addr)
    (hspent : ∀ x ∈ zone.tree.inorder, x.data ≠ req.key →
      x ∈ zone'.tree.inorder ∨ Spent limit.rate (zone.node x.addr) req.time) :
    (∀ item ∈ zone'.tree.inorder, item.data ≠ req.key → bucket limit (log ++ [(req, v)]) item.data =
      some ((zone'.node item.addr).excess.toNat, (zone'.node item.addr).last)) ∧
    ∀ key e last, key ≠ [] → key ≠ req.key → (∀ item ∈ zone'.tree.inorder, item.data ≠ key) →
      bucket limit (log ++ [(req, v)]) key = some (e, last) →
      ∃ x ∈ log ++ [(req, v)], e + 1000 ≤ leak limit.rate.toNat (x.1.time - last) := by
  refine ⟨fun item hitem hdata => ?_, fun key e last hkey hne hgone hbucket => ?_⟩
  · obtain ⟨hmem, hnode⟩ := hsub item hitem hdata
    rw [bucket_snoc, if_neg (Ne.symm hdata), h.here item hmem, hnode]
  · rw [bucket_snoc, if_neg (Ne.symm hne)] at hbucket
    by_cases hold : ∃ item ∈ zone.tree.inorder, item.data = key
    · obtain ⟨item, hitem, rfl⟩ := hold
      have hitem' : Spent limit.rate (zone.node item.addr) req.time :=
        (hspent item hitem hne).resolve_left fun hmem => hgone item hmem rfl
      rw [h.here item hitem] at hbucket
      cases hbucket
      exact ⟨_, mem_append_right _ (mem_singleton_self _), hitem'⟩
    · obtain ⟨x, hx, hle⟩ := h.gone key e last hkey (fun item hitem heq => hold ⟨item, hitem, heq⟩) hbucket
      exact ⟨x, mem_append_left _ hx, hle⟩

end

section Handler
variable {ops : ColorTree.Ops Item} {item : Item}

/-- The bucket's verdict, and a zone that goes with the longer log. -/
def Answers (limit : Limit w) (log : List (Request × Verdict w)) (req : Request) (v : Verdict w)
    (r : Verdict w × Zone w) : Prop :=
  r.1 = verdict limit (bucket limit log req.key) req.time ∧ Inv limit (log ++ [(req, v)]) r.2

variable (h : Inv limit log zone)
include h

theorem Inv.key_counts (hitem : item ∈ zone.tree.inorder) (hdata : item.data = req.key) :
    ¬ (req.key.length = 0 ∨ req.key.length > 65535) := by
  have hpos := length_pos_iff.mpr (h.nonempty item hitem)
  have hle := (h.keys item hitem).2
  rw [hdata] at hpos hle
  omega

section
variable (htime : ∀ x ∈ log, x.1.time ≤ req.time)
include htime

section
variable (hlookup : lookup (crc32Short req.key) req.key zone.tree = some item)
include hlookup

variable (hno : NoOverflow limit.rate (zone.node item.addr) req.time)
include hno

/-- A known key whose excess is too large: nothing but the queue changes. -/
theorem Inv.handler_busy (hbusy : (nextExcess limit.rate (zone.node item.addr) req.time).toNat > limit.burst.toNat) :
    Answers limit log req v (handler ops limit zone req) := by
  obtain ⟨hitem, hdata⟩ := h.lookup_some.mp hlookup
  have hnot : ¬ excess limit.rate.toNat (bucket limit log req.key) req.time ≤ limit.burst.toNat := by
    rw [← h.excess_here htime hitem hdata hno]
    exact Nat.not_le.mpr hbusy
  have hsame : ∀ key, bucket limit (log ++ [(req, v)]) key = bucket limit log key := by
    intro key
    rw [bucket_snoc]
    split
    case isTrue heq => rw [← heq, offer, if_neg hnot]
    case isFalse => rfl
  rw [Answers, handler, if_neg (h.key_counts hitem hdata), lookupNode, hlookup, verdict, if_neg hnot]
  simp only [toHead, if_pos hbusy]
  refine ⟨trivial, h.toHead hitem, h.nonempty, fun x hx => (hsame _).trans (h.here x hx),
    fun key e last hne hgone hbucket => ?_⟩
  obtain ⟨x, hx, hle⟩ := h.gone key e last hne hgone ((hsame key).symm.trans hbucket)
  exact ⟨x, mem_append_left _ hx, hle⟩

/-- A known key whose request is let in. -/
theorem Inv.handler_ok (hok : ¬ (nextExcess limit.rate (zone.node item.addr) req.time).toNat > limit.burst.toNat) :
    Answers limit log req v (handler ops limit zone req) := by
  obtain ⟨hitem, hdata⟩ := h.lookup_some.mp hlookup
  have hexcess := h.excess_here htime hitem hdata hno
  have hle := Nat.le_of_not_lt hok
  rw [hexcess] at hle
  rw [Answers, handler, if_neg (h.key_counts hitem hdata), lookupNode, hlookup]
  simp only [toHead, if_neg hok, if_true]
  rw [verdict, if_pos hle, ← hexcess, BitVec.ofNat_toNat, BitVec.setWidth_eq]
  obtain ⟨hhere, hgone⟩ := @Inv.others w limit log zone req v h
    (setExcess (toHead zone item) item (nextExcess limit.rate (zone.node item.addr) req.time) req.time)
    (fun x hx hne => ⟨hx, update_of_ne (fun heq => hne (h.addr_inj hx hitem heq ▸ hdata)) _ _⟩)
    (fun x hx _ => .inl hx)
  refine ⟨rfl, (h.toHead hitem).setExcess _ _ _, h.nonempty, fun x hx => ?_, fun key e last hne habsent => ?_⟩
  · by_cases hx' : x.data = req.key
    · rw [hx', h.data_inj hx hitem (hx'.trans hdata.symm), bucket_snoc, if_pos rfl, offer, if_pos hle]
      simp only [setExcess, update_self, hexcess]
    · exact hhere x hx hx'
  · exact hgone key e last hne (fun heq => habsent item hitem (hdata.trans heq.symm)) habsent

/-- A known key. -/
theorem Inv.handler_found : Answers limit log req v (handler ops limit zone req) := by
  by_cases hbusy : (nextExcess limit.rate (zone.node item.addr) req.time).toNat > limit.burst.toNat
  · exact h.handler_busy htime hlookup hno hbusy
  · exact h.handler_ok htime hlookup hno hbusy

end

/-- A node is made for a key without one, when some others have been thrown away. -/
theorem Inv.make {zone1 : Zone w} (hexpired : Expired limit.rate req.time zone zone1) (hne : req.key ≠ [])
    (hlength : req.key.length ≤ 255) (habsent : ∀ item ∈ zone.tree.inorder, item.data ≠ req.key)
    (haddr : addr ∉ zone1.addrs) :
    Answers limit log req v
      (.admitted (delay limit 0), (makeNode ops zone1 req.time (crc32Short req.key) req.key addr true).2) := by
  have habsent' : ∀ item ∈ zone1.tree.inorder, item.data ≠ req.key :=
    fun item hitem => habsent item (hexpired.sub item hitem)
  have hzero := h.excess_gone htime hne habsent
  have hsound := @Sound.make w _ ops hexpired.sound req.time addr req.key haddr hlength habsent'
  have hle : excess limit.rate.toNat (bucket limit log req.key) req.time ≤ limit.burst.toNat := hzero ▸ Nat.zero_le _
  rw [Answers, verdict, if_pos hle, hzero]
  generalize hzone : (makeNode ops zone1 req.time (crc32Short req.key) req.key addr true).2 = zone' at hsound ⊢
  have hmem : ∀ x, x ∈ zone'.tree.inorder ↔ x = ⟨addr, crc32Short req.key, req.key⟩ ∨ x ∈ zone1.tree.inorder := by
    rw [← hzone]
    exact fun x => ops.mem_insert
  have hself : zone'.node addr = ⟨req.time, 0, 0⟩ := by
    rw [← hzone]
    exact update_self _ _ _
  have hothers : ∀ x ∈ zone1.tree.inorder, zone'.node x.addr = zone.node x.addr := by
    intro x hx
    have hne' : x.addr ≠ addr := fun heq => haddr (heq ▸ mem_map_of_mem hx)
    rw [← hzone, ← hexpired.node]
    exact update_of_ne hne' _ _
  obtain ⟨hhere, hgone⟩ := @Inv.others w limit log zone req v h zone' (fun x hx hx' => by
      have hold := ((hmem x).mp hx).resolve_left fun heq => hx' (heq ▸ rfl)
      exact ⟨hexpired.sub x hold, hothers x hold⟩)
    (fun x hx _ => (hexpired.spent x hx).imp_left fun hx' => (hmem x).mpr (.inr hx'))
  refine ⟨rfl, hsound, fun x hx => ?_, fun x hx => ?_, fun key e last hkey hno => ?_⟩
  · rcases (hmem x).mp hx with rfl | hx
    · exact hne
    · exact h.nonempty x (hexpired.sub x hx)
  · rcases (hmem x).mp hx with rfl | hx'
    · rw [bucket_snoc, if_pos rfl, offer, if_pos hle, hzero, hself]
      rfl
    · exact hhere x hx (habsent' x hx')
  · exact hgone key e last hkey (fun heq => hno _ ((hmem _).mpr (.inl rfl)) heq.symm) hno

/-- A key without a node. -/
theorem Inv.handler_new (hlookup : lookup (crc32Short req.key) req.key zone.tree = none) (hne : req.key ≠ [])
    (hlength : req.key.length ≤ 255)
    (halloc : req.alloc = some addr) (haddr : addr ∉ (expire ops limit.rate req.time 1 zone).addrs)
    (hspent : OldestSpent limit.rate req.time zone.node 2 zone.queue.reverse) :
    Answers limit log req v (handler ops limit zone req) := by
  have hkey : ¬ (req.key.length = 0 ∨ req.key.length > 65535) := by
    have hpos := length_pos_iff.mpr hne
    omega
  rw [handler, if_neg hkey, lookupNode, hlookup, halloc]
  obtain ⟨hsound, hnode, hsub, hold⟩ := @Sound.expireLoop w req.time limit.rate zone ops h.toSound 2 1
  exact h.make htime ⟨hsound, hnode, hsub, hold Nat.one_ne_zero hspent⟩ hne hlength (h.lookup_none.mp hlookup) haddr

end

/-- A request without a key changes nothing. -/
theorem Inv.handler_empty (hempty : req.key = []) :
    (handler ops limit zone req).1 = .declined ∧ Inv limit (log ++ [(req, v)]) (handler ops limit zone req).2 := by
  have hhandler : handler ops limit zone req = (.declined, zone) := by
    rw [handler, hempty]
    rfl
  have hsame : ∀ key, key ≠ [] → bucket limit (log ++ [(req, v)]) key = bucket limit log key := by
    intro key hkey
    rw [bucket_snoc, if_neg fun heq : req.key = key => hkey (heq.symm.trans hempty)]
  rw [hhandler]
  refine ⟨rfl, h.toSound, h.nonempty, fun x hx => (hsame _ (h.nonempty x hx)).trans (h.here x hx),
    fun key e last hne hgone hbucket => ?_⟩
  obtain ⟨x, hx, hle⟩ := h.gone key e last hne hgone ((hsame key hne).symm.trans hbucket)
  exact ⟨x, mem_append_left _ hx, hle⟩

/-- Every careful request gets the verdict of its bucket. -/
theorem Inv.handler (htime : ∀ x ∈ log, x.1.time ≤ req.time) (hlength : req.key.length ≤ 255)
    (halloc : ∃ addr, req.alloc = some addr ∧ addr ∉ (expire ops limit.rate req.time 1 zone).addrs)
    (hcareful : Careful limit zone req) :
    (handler ops limit zone req).1 =
        (if req.key = [] then .declined else verdict limit (bucket limit log req.key) req.time) ∧
      Inv limit (log ++ [(req, v)]) (handler ops limit zone req).2 := by
  by_cases hempty : req.key = []
  · rw [if_pos hempty]
    exact h.handler_empty hempty
  rw [if_neg hempty]
  have hcareful := hcareful fun hzero => hempty (length_eq_zero_iff.mp hzero)
  obtain ⟨addr, halloc, haddr⟩ := halloc
  cases hlookup : lookup (crc32Short req.key) req.key zone.tree with rw [hlookup] at hcareful
  | none =>
    exact h.handler_new htime hlookup hempty hlength halloc haddr hcareful
  | some item =>
    exact h.handler_found htime hlookup hcareful

end Handler
end Request

/-! ## §4 Every run -/

/-- The verdicts that a bucket gives on requests at some times. -/
def verdicts (limit : Limit w) : Bucket.State → List Nat → List (Verdict w)
  | _, [] => []
  | s, now :: rest =>
    verdict limit s now :: verdicts limit (offer limit.rate.toNat limit.burst.toNat s now) rest

theorem verdicts_append (limit : Limit w) (s : Bucket.State) (xs : List Nat) (now : Nat) :
    verdicts limit s (xs ++ [now]) = verdicts limit s xs ++
      [verdict limit (xs.foldl (offer limit.rate.toNat limit.burst.toNat) s) now] := by
  induction xs generalizing s with
  | nil => rfl
  | cons x xs ih => exact congrArg (verdict limit s x :: ·) (ih _)

section Runs
variable {ops : ColorTree.Ops Item} {limit : Limit w} {log : List (Request × Verdict w)} {zone : Zone w}
variable (h : Run ops limit (Careful limit) log zone) {xs : List (Request × Verdict w)}
include h

theorem run_inv : Inv limit log zone := by
  induction h with
  | start => exact ⟨sound_empty, nofun, nofun, nofun⟩
  | request _ req htime hkey halloc hcareful ih => exact (ih.handler htime hkey halloc hcareful).2

/-- The verdicts on requests of a key at some times, whatever else is requested. -/
def expected (limit : Limit w) (key : Bytes) (times : List Nat) : List (Verdict w) :=
  if key = [] then times.map fun _ => .declined else verdicts limit none times

theorem run_verdicts (key : Bytes) : (ofKey log key).map (·.2) = expected limit key (times log key) := by
  induction h with
  | start => cases key <;> rfl
  | @request log zone hrun req htime hlength halloc hcareful ih =>
    have hverdict := ((run_inv hrun).handler (v := .declined) htime hlength halloc hcareful).1
    generalize (handler ops limit zone req).1 = v at *
    by_cases hreq : req.key = key
    · have hofKey : ofKey (log ++ [(req, v)]) key = ofKey log key ++ [(req, v)] := by
        rw [ofKey, filter_append, filter_cons_of_pos (by simpa using hreq)]
        rfl
      rw [times, hofKey, map_append, map_append, ih, hverdict, hreq, expected, expected]
      split
      · rw [map_append]
        rfl
      · exact (verdicts_append limit none _ _).symm
    · have hofKey : ofKey (log ++ [(req, v)]) key = ofKey log key := by
        rw [ofKey, filter_append, filter_cons_of_neg (by simpa using hreq), filter_nil, append_nil]
        rfl
      rw [times, hofKey]
      exact ih

theorem run_times (key : Bytes) : (times log key).Pairwise (· ≤ ·) := by
  have hall : (log.map (·.1.time)).Pairwise (· ≤ ·) := by
    induction h with
    | start => exact List.Pairwise.nil
    | request _ req htime _ _ _ ih =>
      rw [map_append, pairwise_append]
      refine ⟨ih, pairwise_singleton _ _, fun t ht t' ht' => ?_⟩
      obtain ⟨x, hx, rfl⟩ := mem_map.mp ht
      rw [mem_singleton.mp ht']
      exact htime x hx
  exact hall.sublist (filter_sublist.map _)

omit h

/-- Which requests are let in can be read off the verdicts. -/
theorem admittedTimes_eq {s : Bucket.State} (h : xs.map (·.2) = verdicts limit s (xs.map (·.1.time))) :
    admittedTimes xs = (admitted limit.rate.toNat limit.burst.toNat s (xs.map (·.1.time))).map (·.1) := by
  induction xs generalizing s with
  | nil => rfl
  | cons x xs ih =>
    rw [map_cons, map_cons, verdicts, cons.injEq] at h
    obtain ⟨hx, hxs⟩ := h
    have hrest := ih hxs
    rw [verdict] at hx
    rw [map_cons, admitted]
    by_cases hle : excess limit.rate.toNat s x.1.time ≤ limit.burst.toNat
    · rw [if_pos hle] at hx
      rw [if_pos hle, map_cons, ← hrest, admittedTimes, filter_cons_of_pos (by simp [hx]), map_cons]
      rfl
    · rw [if_neg hle] at hx
      rw [if_neg hle, ← hrest, admittedTimes, filter_cons_of_neg (by simp [hx])]
      rfl

theorem admittedTimes_declined
    (h : xs.map (·.2) = (xs.map (·.1.time)).map fun _ => .declined) : admittedTimes xs = [] := by
  have hall : ∀ x ∈ xs, x.2 = .declined := by
    rw [map_map] at h
    exact map_inj_left.mp h
  rw [admittedTimes, filter_eq_nil_iff.mpr fun x hx => by simp [hall x hx]]
  rfl

/-- The number of requests of a key that are let in from a time on, for `T` milliseconds. -/
def accepted (log : List (Request × Verdict w)) (key : Bytes) (t₀ T : Nat) : Nat :=
  ((admittedTimes (ofKey log key)).filter fun t => t₀ ≤ t ∧ t ≤ t₀ + T).length

theorem run_window (h : Run ops limit (Careful limit) log zone) (key : Bytes) (t0 T : Nat) :
    (accepted log key t0 T - 1) * 1000 ≤ limit.burst.toNat + leak limit.rate.toNat T := by
  have hverdicts := run_verdicts h key
  rw [expected] at hverdicts
  split at hverdicts
  · rw [accepted, admittedTimes_declined hverdicts, filter_nil, length_nil, Nat.zero_sub, Nat.zero_mul]
    exact Nat.zero_le _
  have hcount : accepted log key t0 T = ((admitted limit.rate.toNat limit.burst.toNat none
      (times log key)).filter fun x => t0 ≤ x.1 ∧ x.1 ≤ t0 + T).length := by
    rw [accepted, admittedTimes_eq hverdicts, filter_map, length_map]
    rfl
  rw [hcount]
  exact admitted_window (run_times h key) t0 T

end Runs
end GokuStudio.Nginx.LimitReq

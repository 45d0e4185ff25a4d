import GokuStudio.Lib.Smooth
import Mathlib.Algebra.BigOperators.Fin
import Mathlib.Data.List.Indexes

/-!
# Round robin over the servers of an upstream (`ngx_http_upstream_round_robin.c`)

`ngx_http_upstream_get_peer` is the smooth weighted choice, with the weights in the machine's
signed words. As long as none of its sums leaves the range of a word, every block of as many
selections as the sum of the weights chooses each server as often as its weight says.
-/

namespace GokuStudio.Nginx.Upstream

open Lib List Smooth
variable {w : Nat}

/-! ## §1 The function -/

/-- `ngx_http_upstream_rr_peer_t`, as far as the selection reads it. -/
structure Peer (w : Nat) where
  currentWeight : BitVec w
  effectiveWeight : BitVec w
  weight : BitVec w
  fails : Nat
  checked : Int
  maxFails : Nat
  failTimeout : Int
  down : Bool

/-- `ngx_http_upstream_rr_peer_data_t`: a request's view of the servers. `tried` are the words
of a bitmap. -/
structure PeerData (w : Nat) where
  peers : List (Peer w)
  current : Nat
  tried : Nat → BitVec w

section
variable (now : Int) (tried : Nat → BitVec w) (i : Nat) (peer : Peer w)

/-- `(uintptr_t) 1 << i % (8 * sizeof(uintptr_t))` -/
def triedMask : BitVec w := 1#w <<< (i % w)

/-- `rrp->tried[n] & m` -/
def isTried : Bool := tried (i / w) &&& triedMask i ≠ 0#w

/-- `rrp->tried[n] |= m` -/
def markTried : Nat → BitVec w := Function.update tried (i / w) (tried (i / w) ||| triedMask i)

/-- The tests that go on to the next peer. -/
def skips : Bool := isTried tried i || peer.down ||
    (peer.maxFails ≠ 0 && peer.fails ≥ peer.maxFails && now - peer.checked ≤ peer.failTimeout)

/-- What the loop does to the weights of a peer. -/
def gain : Peer w :=
  { peer with
    currentWeight := peer.currentWeight + peer.effectiveWeight
    effectiveWeight :=
      if peer.effectiveWeight.slt peer.weight then peer.effectiveWeight + 1 else peer.effectiveWeight }

/-- `best`, a pointer into the peers with what it points to, and `total`. -/
structure Scan (w : Nat) where
  best : Option (Nat × Peer w)
  total : BitVec w

/-- `best == NULL || peer->current_weight > best->current_weight` -/
def isBetter : Option (Nat × Peer w) → Bool
  | none => true
  | some (_, best) => best.currentWeight.slt peer.currentWeight

/-- The loop of `ngx_http_upstream_get_peer` from peer `i` on. -/
def scan (now : Int) (tried : Nat → BitVec w) (i : Nat) (acc : Scan w) : List (Peer w) → Scan w × List (Peer w)
  | [] => (acc, [])
  | peer :: peers =>
    if skips now tried i peer then
      let r := scan now tried (i + 1) acc peers
      (r.1, peer :: r.2)
    else
      let acc := ⟨if isBetter (gain peer) acc.best then some (i, gain peer) else acc.best, acc.total + peer.effectiveWeight⟩
      let r := scan now tried (i + 1) acc peers
      (r.1, gain peer :: r.2)

/-- What the selection does to the chosen peer. -/
def choose (total : BitVec w) (best : Peer w) : Peer w :=
  { best with
    currentWeight := best.currentWeight - total
    checked := if now - best.checked > best.failTimeout then now else best.checked }

/-- `ngx_http_upstream_get_peer`: the index of the peer, or `none` for `NULL`. -/
def getPeer (rrp : PeerData w) : Option Nat × PeerData w :=
  let r := scan now rrp.tried 0 ⟨none, 0⟩ rrp.peers
  match r.1.best with
  | none => (none, { rrp with peers := r.2 })
  | some (i, _) => (some i, ⟨r.2.modify i (choose now r.1.total), i, markTried rrp.tried i⟩)

/-! ## §2 Runs -/

/-- The fields that the selection is about. -/
def weights : BitVec w × BitVec w × BitVec w := (peer.currentWeight, peer.effectiveWeight, peer.weight)

/-- All peers are up and untried. -/
def Ready (rrp : PeerData w) : Prop := ∀ i peer, rrp.peers[i]? = some peer → skips now rrp.tried i peer = false

/-- Selections, each with a view of its own, in which all peers are up and untried. Between two
of them nothing changes the weights. -/
inductive Run (P : List (Peer w) → Prop) (peers : List (Peer w)) : List (Option Nat) → List (Peer w) → Prop
  | start : Run P peers [] peers
  | call {picks : List (Option Nat)} {mid : List (Peer w)} (hrun : Run P peers picks mid) (now : Int)
      (rrp : PeerData w) (hsame : rrp.peers.map weights = mid.map weights) (hready : Ready now rrp)
      (hP : P rrp.peers) : Run P peers (picks ++ [(getPeer now rrp).1]) (getPeer now rrp).2.peers

/-- As `ngx_http_upstream_init_round_robin` leaves a peer. -/
def Fresh : Prop := peer.currentWeight = 0 ∧ peer.effectiveWeight = peer.weight ∧ 0 < peer.weight.toInt

end

/-- The sum of the weights. -/
def totalWeight (peers : List (Peer w)) : Int := (peers.map (·.weight.toInt)).sum

/-- No sum of a selection leaves the range of a word. -/
def Fits (peers : List (Peer w)) : Prop := (peers.map (·.effectiveWeight.toInt)).sum < 2 ^ (w - 1) ∧
    ∀ peer ∈ peers, peer.currentWeight.toInt + peer.effectiveWeight.toInt < 2 ^ (w - 1)

/-! ## §3 One selection -/

/-- `best` after the first `i` peers, whose values are `v`. -/
def BestIs (v : ℕ → ℤ) (i : Nat) : Option (Nat × Peer w) → Prop
  | none => i = 0
  | some (j, best) => j = firstMax v i ∧ best.currentWeight.toInt = v j

variable {peer : Peer w} {i : ℕ}

theorem bestIs_next {v : ℕ → ℤ} {i : Nat} {best : Option (Nat × Peer w)} (h : BestIs v i best)
    (hpeer : peer.currentWeight.toInt = v i) :
    BestIs v (i + 1) (if isBetter peer best then some (i, peer) else best) := by
  cases best with
  | none =>
    have hi : i = 0 := h
    subst hi
    exact ⟨by simp [firstMax], hpeer⟩
  | some best =>
    obtain ⟨j, best⟩ := best
    obtain ⟨rfl, hbest⟩ := h
    have hiff : isBetter peer (some (firstMax v i, best)) = true ↔ v (firstMax v i) < v i := by
      rw [isBetter, BitVec.slt_iff_toInt_lt, hbest, hpeer]
    by_cases hlt : v (firstMax v i) < v i
    · rw [if_pos (hiff.mpr hlt)]
      exact ⟨by rw [firstMax, if_pos hlt], hpeer⟩
    · rw [if_neg (hiff.not.mpr hlt)]
      exact ⟨by rw [firstMax, if_neg hlt], hbest⟩

section Scan
variable {now : Int} {tried : Nat → BitVec w} {v : ℕ → ℤ} {peers : List (Peer w)}

theorem scan_best : ∀ {i : Nat} {acc : Scan w},
    (∀ j peer, peers[j]? = some peer → skips now tried (i + j) peer = false) →
    (∀ j peer, peers[j]? = some peer → (gain peer).currentWeight.toInt = v (i + j)) → BestIs v i acc.best →
    BestIs v (i + peers.length) (scan now tried i acc peers).1.best ∧ (scan now tried i acc peers).2 = peers.map gain := by
  induction peers with
  | nil => exact fun _ _ hbest => ⟨hbest, rfl⟩
  | cons peer peers ih =>
    intro i acc hready hv hbest
    have hskip : skips now tried i peer = false := hready 0 peer rfl
    have hshift : ∀ j, i + (j + 1) = i + 1 + j := by
      intro j
      omega
    obtain ⟨hbest', hpeers⟩ := @ih (i + 1)
      ⟨if isBetter (gain peer) acc.best then some (i, gain peer) else acc.best, acc.total + peer.effectiveWeight⟩
      (fun j p hp => hshift j ▸ hready (j + 1) p hp) (fun j p hp => hshift j ▸ hv (j + 1) p hp)
      (bestIs_next hbest (hv 0 peer rfl))
    rw [scan, hskip, length_cons, hshift]
    exact ⟨hbest', congrArg (gain peer :: ·) hpeers⟩

theorem toInt_add_of_fits {x y : BitVec w} (hx : 0 ≤ y.toInt) (hlt : x.toInt + y.toInt < 2 ^ (w - 1)) :
    (x + y).toInt = x.toInt + y.toInt := by
  refine BitVec.toInt_add_of_not_saddOverflow ?_
  have hle := BitVec.le_toInt x
  simp only [BitVec.saddOverflow, Bool.or_eq_true, decide_eq_true_eq]
  omega

theorem scan_total (hpos : ∀ peer ∈ peers, 0 < peer.effectiveWeight.toInt) :
    ∀ {i : Nat} {acc : Scan w}, (∀ j peer, peers[j]? = some peer → skips now tried (i + j) peer = false) →
    acc.total.toInt + (peers.map (·.effectiveWeight.toInt)).sum < 2 ^ (w - 1) →
    (scan now tried i acc peers).1.total.toInt = acc.total.toInt + (peers.map (·.effectiveWeight.toInt)).sum := by
  induction peers with
  | nil => exact fun _ _ => (Int.add_zero _).symm
  | cons peer peers ih =>
    intro i acc hready hlt
    have hskip : skips now tried i peer = false := hready 0 peer rfl
    have hrest : ∀ p ∈ peers, 0 < p.effectiveWeight.toInt := (forall_mem_cons.mp hpos).2
    have hsum : 0 ≤ (peers.map (·.effectiveWeight.toInt)).sum := by
      refine sum_nonneg fun x hx => ?_
      obtain ⟨p, hp, rfl⟩ := mem_map.mp hx
      exact (hrest p hp).le
    have hpeer := hpos peer mem_cons_self
    rw [map_cons, sum_cons] at hlt ⊢
    have hadd : (acc.total + peer.effectiveWeight).toInt = acc.total.toInt + peer.effectiveWeight.toInt :=
      toInt_add_of_fits hpeer.le (by omega)
    rw [scan, hskip]
    show (scan now tried (i + 1) ⟨_, acc.total + peer.effectiveWeight⟩ peers).1.total.toInt = _
    rw [ih hrest]
    · rw [hadd, Int.add_assoc]
    · intro j p hp
      have hready' := hready (j + 1) p hp
      rwa [Nat.add_comm j 1, ← Nat.add_assoc] at hready'
    · rw [hadd]
      omega

end Scan

/-! ## §4 Every run -/

/-- The weight of peer `i`, or 0 if there is none. -/
def weightAt (peers : List (Peer w)) (i : ℕ) : ℤ := ((peers[i]?).map (·.weight.toInt)).getD 0

theorem total_weightAt (peers : List (Peer w)) :
    total (Finset.range peers.length) (weightAt peers) = totalWeight peers := by
  induction peers with
  | nil => rfl
  | cons peer peers ih =>
    rw [total, length_cons, Finset.sum_range_succ', totalWeight, map_cons, sum_cons, Int.add_comm]
    exact congrArg (peer.weight.toInt + ·) ih

theorem weightAt_outside {peers : List (Peer w)} (hi : i ∉ Finset.range peers.length) : weightAt peers i = 0 := by
  rw [Finset.mem_range, not_lt] at hi
  rw [weightAt, getElem?_eq_none hi]
  rfl

theorem weightAt_nonneg {peers : List (Peer w)} (h : ∀ peer ∈ peers, 0 < peer.weight.toInt) (i : ℕ) :
    0 ≤ weightAt peers i := by
  rw [weightAt]
  cases hpeer : peers[i]? with
  | none => exact le_rfl
  | some peer => exact (h peer (mem_of_getElem? hpeer)).le

theorem totalWeight_pos {peers : List (Peer w)} (hne : peers ≠ []) (h : ∀ peer ∈ peers, 0 < peer.weight.toInt) :
    0 < totalWeight peers := by
  refine sum_pos _ (fun x hx => ?_) (map_eq_nil_iff.not.mpr hne)
  obtain ⟨peer, hpeer, rfl⟩ := mem_map.mp hx
  exact h peer hpeer

section Runs
variable {peers₀ peers : List (Peer w)} {k : ℕ} {now : Int}

/-- The values of the smooth choice with the weights of `peers₀`. -/
def ideal (peers₀ : List (Peer w)) : ℕ → ℕ → ℤ :=
  after (Finset.range peers₀.length) (weightAt peers₀) (firstMax · peers₀.length)

def idealPick (peers₀ : List (Peer w)) : ℕ → ℕ :=
  pick (Finset.range peers₀.length) (weightAt peers₀) (firstMax · peers₀.length)

/-- The weights are those of the smooth choice after `k` turns. -/
structure Tracks (peers₀ : List (Peer w)) (k : ℕ) (peers : List (Peer w)) : Prop where
  length : peers.length = peers₀.length
  current : ∀ i peer, peers[i]? = some peer → peer.currentWeight.toInt = ideal peers₀ k i
  effective : ∀ peer ∈ peers, peer.effectiveWeight = peer.weight ∧ 0 < peer.weight.toInt
  weight : ∀ i, weightAt peers i = weightAt peers₀ i

theorem Tracks.congr {peers' : List (Peer w)} (h : Tracks peers₀ k peers)
    (hsame : peers'.map weights = peers.map weights) :
    Tracks peers₀ k peers' := by
  have hget : ∀ i : ℕ, (peers'[i]?).map weights = (peers[i]?).map weights := by
    intro i
    rw [← getElem?_map, ← getElem?_map, hsame]
  have hfrom : ∀ (i : ℕ) peer', peers'[i]? = some peer' → ∃ peer, peers[i]? = some peer ∧ weights peer' = weights peer := by
    intro i peer' hpeer'
    have hmap := hget i
    rw [hpeer', Option.map_some] at hmap
    obtain ⟨peer, hpeer, heq⟩ := Option.map_eq_some_iff.mp hmap.symm
    exact ⟨peer, hpeer, heq.symm⟩
  refine ⟨?_, fun i peer' hpeer' => ?_, fun peer' hpeer' => ?_, fun i => ?_⟩
  · rw [← h.length, ← length_map weights, hsame, length_map]
  · obtain ⟨peer, hpeer, heq⟩ := hfrom i peer' hpeer'
    rw [← h.current i peer hpeer]
    exact congrArg (·.1.toInt) heq
  · obtain ⟨i, hi⟩ := mem_iff_getElem?.mp hpeer'
    obtain ⟨peer, hpeer, heq⟩ := hfrom i peer' hi
    obtain ⟨heff, hpos⟩ := h.effective peer (mem_of_getElem? hpeer)
    have he : peer'.effectiveWeight = peer.effectiveWeight := congrArg (·.2.1) heq
    have hw : peer'.weight = peer.weight := congrArg (·.2.2) heq
    rw [he, hw]
    exact ⟨heff, hpos⟩
  · rw [← h.weight i, weightAt, weightAt]
    have hmap := congrArg (Option.map (·.2.2.toInt)) (hget i)
    rw [Option.map_map, Option.map_map] at hmap
    exact congrArg (Option.getD · 0) hmap

theorem Tracks.start (hfresh : ∀ peer ∈ peers₀, Fresh peer) : Tracks peers₀ 0 peers₀ := by
  refine ⟨rfl, fun i peer hpeer => ?_, fun peer hpeer => (hfresh peer hpeer).2, fun i => rfl⟩
  obtain ⟨hzero, -⟩ := hfresh peer (mem_of_getElem? hpeer)
  rw [hzero]
  exact BitVec.toInt_zero

theorem Tracks.gain (h : Tracks peers₀ k peers) (hfits : Fits peers)
    (hpeer : peers[i]? = some peer) : (gain peer).currentWeight.toInt =
      Smooth.gain (weightAt peers₀) (ideal peers₀ k) i := by
  have hmem := mem_of_getElem? hpeer
  obtain ⟨heff, hpos⟩ := h.effective peer hmem
  have hlt := hfits.2 peer hmem
  rw [heff] at hlt
  show (peer.currentWeight + peer.effectiveWeight).toInt = _
  rw [heff, toInt_add_of_fits hpos.le hlt, h.current i peer hpeer, Smooth.gain, ← h.weight i, weightAt, hpeer]
  rfl

theorem gain_weight (h : peer.effectiveWeight = peer.weight) :
    (gain peer).effectiveWeight = (gain peer).weight ∧ (gain peer).weight = peer.weight := by
  have hnot : ¬ peer.effectiveWeight.slt peer.weight = true := by
    rw [h, BitVec.slt_iff_toInt_lt]
    exact Int.lt_irrefl _
  refine ⟨?_, rfl⟩
  show (if peer.effectiveWeight.slt peer.weight then peer.effectiveWeight + 1 else peer.effectiveWeight) = peer.weight
  rw [if_neg hnot, h]

/-- Nothing but the current weight of the chosen peer differs from the gain of all. -/
theorem getElem?_modify_gain {total : BitVec w} {b : ℕ} {peer' : Peer w}
    (h : ((peers.map gain).modify b (choose now total))[i]? = some peer') :
    ∃ peer, peers[i]? = some peer ∧ peer'.effectiveWeight = (gain peer).effectiveWeight ∧
      peer'.weight = peer.weight ∧ peer'.currentWeight =
        if b = i then (gain peer).currentWeight - total else (gain peer).currentWeight := by
  rw [getElem?_modify, getElem?_map, Option.map_eq_map, Option.map_map] at h
  obtain ⟨peer, hpeer, rfl⟩ := Option.map_eq_some_iff.mp h
  refine ⟨peer, hpeer, ?_⟩
  by_cases heq : b = i <;> simp [heq, choose, gain]

theorem Tracks.total (h : Tracks peers₀ k peers) : (peers.map (·.effectiveWeight.toInt)).sum = totalWeight peers₀ := by
  have heff : peers.map (·.effectiveWeight.toInt) = peers.map (·.weight.toInt) := by
    refine map_congr_left fun peer hpeer => ?_
    rw [(h.effective peer hpeer).1]
  have hweight : weightAt peers = weightAt peers₀ := funext h.weight
  rw [heff]
  show totalWeight peers = totalWeight peers₀
  rw [← total_weightAt, ← total_weightAt, hweight, h.length]

variable (hne : peers₀ ≠ []) {picks : List (Option Nat)}
include hne

/-- What the loop finds. -/
theorem scan_spec (h : Tracks peers₀ k peers) (hfits : Fits peers)
    {tried : Nat → BitVec w} (hready : ∀ (i : ℕ) peer, peers[i]? = some peer → skips now tried i peer = false) :
    ∃ acc best, scan now tried 0 ⟨none, 0⟩ peers = (acc, peers.map gain) ∧
      acc.best = some (idealPick peers₀ k, best) ∧ acc.total.toInt = totalWeight peers₀ := by
  have hready0 : ∀ (j : ℕ) peer, peers[j]? = some peer → skips now tried (0 + j) peer = false := by
    intro j peer hpeer
    rw [Nat.zero_add]
    exact hready j peer hpeer
  obtain ⟨hbest, hpeers⟩ := @scan_best w now tried (Smooth.gain (weightAt peers₀) (ideal peers₀ k)) peers 0
    ⟨none, 0⟩ hready0 (fun j peer hpeer => (Nat.zero_add j).symm ▸ h.gain hfits hpeer) rfl
  have htotal : (scan now tried 0 ⟨none, 0⟩ peers).1.total.toInt = totalWeight peers₀ := by
    have hzero : (0 : BitVec w).toInt = 0 := BitVec.toInt_zero
    rw [scan_total (fun peer hpeer => ?_) hready0 ?_]
    · rw [hzero, Int.zero_add, h.total]
    · rw [hzero, Int.zero_add]
      exact hfits.1
    · obtain ⟨heff, hpos⟩ := h.effective peer hpeer
      rw [heff]
      exact hpos
  rw [Nat.zero_add, h.length] at hbest
  cases hscan : (scan now tried 0 ⟨none, 0⟩ peers).1.best with
  | none =>
    rw [hscan] at hbest
    exact absurd (length_eq_zero_iff.mp hbest) hne
  | some best =>
    obtain ⟨i, best⟩ := best
    rw [hscan] at hbest
    obtain ⟨rfl, -⟩ := hbest
    exact ⟨_, best, Prod.ext rfl hpeers, hscan, htotal⟩

theorem ideal_chooses : Smooth.Chooses (Finset.range peers₀.length) (firstMax · peers₀.length) :=
  chooses_firstMax (length_pos_iff.mpr hne)

/-- One selection is one turn of the smooth choice. -/
theorem getPeer_spec (hpos : ∀ peer ∈ peers₀, 0 < peer.weight.toInt) {rrp : PeerData w}
    (h : Tracks peers₀ k rrp.peers) (hfits : Fits rrp.peers) (hready : Ready now rrp) :
    (getPeer now rrp).1 = some (idealPick peers₀ k) ∧ Tracks peers₀ (k + 1) (getPeer now rrp).2.peers := by
  obtain ⟨acc, best, hscan, hbest, htotal⟩ := scan_spec hne h hfits hready
  have hget : getPeer now rrp = (some (idealPick peers₀ k), ⟨(rrp.peers.map gain).modify (idealPick peers₀ k)
      (choose now acc.total), idealPick peers₀ k, markTried rrp.tried (idealPick peers₀ k)⟩) := by
    simp only [getPeer, hscan, hbest]
  rw [hget]
  refine ⟨rfl, ?_, fun i peer' hpeer' => ?_, fun peer' hpeer' => ?_, fun i => ?_⟩
  · rw [length_modify, length_map, h.length]
  · obtain ⟨peer, hpeer, -, -, hcurrent⟩ := getElem?_modify_gain hpeer'
    have hgain := h.gain hfits hpeer
    show _ = Smooth.gain (weightAt peers₀) (ideal peers₀ k) i -
      if i = idealPick peers₀ k then total (Finset.range peers₀.length) (weightAt peers₀) else 0
    rw [hcurrent]
    by_cases heq : idealPick peers₀ k = i
    · -- the greatest value is positive, so the difference stays in the range
      have hfirst : 0 < Smooth.gain (weightAt peers₀) (ideal peers₀ k) i := by
        rw [← heq]
        refine gain_pick_pos (ideal_chooses hne) ?_ k
        rw [total_weightAt]
        exact totalWeight_pos hne hpos
      rw [if_pos heq, if_pos heq.symm, total_weightAt, ← hgain, ← htotal]
      refine BitVec.toInt_sub_of_not_ssubOverflow ?_
      have hlow := BitVec.toInt_lt (x := acc.total)
      have hhigh := BitVec.toInt_lt (x := (gain peer).currentWeight)
      have htotal' := totalWeight_pos hne hpos
      simp only [BitVec.ssubOverflow, Bool.or_eq_true, decide_eq_true_eq]
      omega
    · rw [if_neg heq, if_neg (Ne.symm heq), hgain, Int.sub_zero]
  · obtain ⟨i, hi⟩ := mem_iff_getElem?.mp hpeer'
    obtain ⟨peer, hpeer, heff, hweight, -⟩ := getElem?_modify_gain hi
    obtain ⟨heff', hpos'⟩ := h.effective peer (mem_of_getElem? hpeer)
    rw [heff, hweight, (gain_weight heff').1]
    exact ⟨rfl, hpos'⟩
  · rw [← h.weight i, weightAt, weightAt, getElem?_modify, getElem?_map, Option.map_eq_map, Option.map_map,
      Option.map_map]
    congr 2
    funext peer
    by_cases heq : idealPick peers₀ k = i <;> simp [heq, choose, gain]

theorem run_spec (hfresh : ∀ peer ∈ peers₀, Fresh peer) (hrun : Run Fits peers₀ picks peers) :
    picks = (range picks.length).map (some ∘ idealPick peers₀) ∧ Tracks peers₀ picks.length peers := by
  induction hrun with
  | start => exact ⟨rfl, Tracks.start hfresh⟩
  | call _ now rrp hsame hready hfits ih =>
    obtain ⟨hpicks, htracks⟩ := ih
    obtain ⟨hpick, htracks'⟩ :=
      getPeer_spec hne (fun peer hpeer => (hfresh peer hpeer).2.2) (htracks.congr hsame) hfits hready
    rw [length_append, length_singleton]
    refine ⟨?_, htracks'⟩
    rw [range_succ, map_append, ← hpicks, hpick]
    rfl

/-- With few servers and small weights nothing leaves the range of a word. -/
theorem fits_of_small (hpos : ∀ peer ∈ peers₀, 0 < peer.weight.toInt) (h : Tracks peers₀ k peers)
    (hsmall : peers₀.length * totalWeight peers₀ < 2 ^ (w - 1)) : Fits peers := by
  have htotal := totalWeight_pos hne hpos
  have hlength : 1 ≤ (peers₀.length : ℤ) := Int.toNat_le.mp (length_pos_iff.mpr hne)
  refine ⟨?_, fun peer hpeer => ?_⟩
  · rw [h.total]
    exact lt_of_le_of_lt (le_mul_of_one_le_left htotal.le hlength) hsmall
  · obtain ⟨i, hi⟩ := mem_iff_getElem?.mp hpeer
    have hmem : i ∈ Finset.range peers₀.length := by
      rw [Finset.mem_range, ← h.length]
      exact (List.getElem?_eq_some_iff.mp hi).1
    have hle := gain_after_lt (ideal_chooses hne) (total_weightAt peers₀ ▸ htotal)
      (fun j _ => weightAt_nonneg hpos j) k hmem
    rw [Smooth.gain, total_weightAt, Finset.card_range, ← h.weight i, weightAt, hi] at hle
    rw [h.current i peer hi, (h.effective peer hpeer).1]
    exact lt_of_le_of_lt hle hsmall

theorem run_of_small (hfresh : ∀ peer ∈ peers₀, Fresh peer)
    (hsmall : peers₀.length * totalWeight peers₀ < 2 ^ (w - 1))
    (hrun : Run (fun _ => True) peers₀ picks peers) : Run Fits peers₀ picks peers := by
  induction hrun with
  | start => exact .start
  | call _ now rrp hsame hready _ ih =>
    have htracks := (run_spec hne hfresh ih).2.congr hsame
    exact .call ih now rrp hsame hready (fits_of_small hne (fun peer hpeer => (hfresh peer hpeer).2.2) htracks hsmall)

end Runs

theorem block_eq {α : Type} {f : ℕ → α} {before block rest : List α}
    (h : before ++ block ++ rest = (range (before ++ block ++ rest).length).map f) :
    block = (range' before.length block.length).map f := by
  refine ext_getElem? fun j => ?_
  by_cases hj : j < block.length
  · have hget := congrArg (·[before.length + j]?) h
    simp only [append_assoc, getElem?_append_right (Nat.le_add_right _ _), Nat.add_sub_cancel_left,
      getElem?_append_left hj] at hget
    have hmem : before.length + j < (before ++ (block ++ rest)).length := by
      rw [length_append, length_append]
      omega
    rw [hget, getElem?_map, getElem?_map, getElem?_range hmem, getElem?_range' hj, Nat.one_mul]
  · rw [getElem?_eq_none (not_lt.mp hj), getElem?_eq_none]
    simpa using hj

/-- Selections are proportional to the weights, as long as no sum leaves the range of a word:
every block of as many selections as the sum of the weights chooses each peer as often as its
weight says, and after whole blocks all current weights are 0. -/
theorem selections_proportional {peers peers' : List (Peer w)} {picks : List (Option Nat)} (hne : peers ≠ [])
    (hfresh : ∀ peer ∈ peers, Fresh peer) (hrun : Run Fits peers picks peers') :
    (∀ before block rest, picks = before ++ block ++ rest → (block.length : ℤ) = totalWeight peers →
      ∀ i peer, peers[i]? = some peer → (block.count (some i) : ℤ) = peer.weight.toInt) ∧
    (∀ m : ℕ, (picks.length : ℤ) = m * totalWeight peers → ∀ peer ∈ peers', peer.currentWeight = 0) := by
  obtain ⟨hpicks, htracks⟩ := run_spec hne hfresh hrun
  have hpos : ∀ peer ∈ peers, 0 < peer.weight.toInt := fun peer hpeer => (hfresh peer hpeer).2.2
  have htotal := totalWeight_pos hne hpos
  have hnonneg : ∀ i ∈ Finset.range peers.length, 0 ≤ weightAt peers i := fun i _ => weightAt_nonneg hpos i
  constructor
  · rintro before block rest rfl hlength i peer hpeer
    have hmem : i ∈ Finset.range peers.length := Finset.mem_range.mpr (List.getElem?_eq_some_iff.mp hpeer).1
    have hcount := count_block (ideal_chooses hne) hnonneg (fun i => weightAt_outside)
      ((total_weightAt peers).trans hlength.symm) (by omega) hmem before.length
    rw [block_eq hpicks, ← map_map, count_map_of_injective _ _ (Option.some_injective ℕ)]
    refine hcount.trans ?_
    rw [weightAt, hpeer]
    rfl
  · intro m hlength peer hpeer
    obtain ⟨W, hW⟩ := Int.eq_ofNat_of_zero_le htotal.le
    obtain ⟨i, hi⟩ := mem_iff_getElem?.mp hpeer
    have hmul : picks.length = m * W := by
      rw [hW] at hlength
      exact_mod_cast hlength
    have hzero := after_mul (ideal_chooses hne) hnonneg (fun i => weightAt_outside)
      ((total_weightAt peers).trans hW) (by omega) m i
    have hcurrent := htracks.current i peer hi
    rw [hmul] at hcurrent
    exact BitVec.eq_of_toInt_eq ((hcurrent.trans hzero).trans BitVec.toInt_zero.symm)

/-! ## §5 Two servers -/

/-- A server that never fails. -/
def server (currentWeight weight : BitVec 32) : Peer 32 := ⟨currentWeight, weight, weight, 0, 0, 0, 10, false⟩

/-- The view of a new request. -/
def view (peers : List (Peer 32)) : PeerData 32 := ⟨peers, 0, fun _ => 0⟩

theorem ready_servers (now : Int) (a b m n : BitVec 32) : Ready now (view [server a m, server b n]) := by
  intro i peer hpeer
  rcases mem_pair.mp (mem_of_getElem? hpeer) with rfl | rfl <;> simp [skips, isTried, view, server]

theorem selections_proportional_pair :
    ∃ picks peers', Run Fits [server 0 2, server 0 1] picks peers' ∧ picks = [some 0, some 1, some 0] ∧
      (picks.count (some 0) : ℤ) = 2 ∧ ∀ peer ∈ peers', peer.currentWeight = 0 := by
  have hne : [server 0 2, server 0 1] ≠ [] := nofun
  have hfresh : ∀ peer ∈ [server 0 2, server 0 1], Fresh peer := by
    intro peer hpeer
    rcases mem_pair.mp hpeer with rfl | rfl <;> exact ⟨rfl, rfl, by decide⟩
  have hrun : Run (fun _ => True) [server 0 2, server 0 1] [some 0, some 1, some 0] [server 0 2, server 0 1] :=
    .call (.call (.call .start 0 (view [server 0 2, server 0 1]) rfl (ready_servers 0 _ _ _ _) trivial)
      0 (view [server (-1) 2, server 1 1]) rfl (ready_servers 0 _ _ _ _) trivial)
      0 (view [server 1 2, server (-1) 1]) rfl (ready_servers 0 _ _ _ _) trivial
  have hfits := run_of_small hne hfresh (by decide) hrun
  obtain ⟨hcount, hzero⟩ := selections_proportional hne hfresh hfits
  exact ⟨_, _, hfits, rfl, hcount [] _ [] rfl rfl 0 _ rfl, hzero 1 rfl⟩

/-- Two servers of the greatest weight. -/
def heavy (a b : BitVec 32) : List (Peer 32) := [server a 0x7fffffff, server b 0x7fffffff]

/-- The sum of the weights is -2 in a word. The first server is chosen twice in a row, and then
the servers take turns. -/
theorem run_heavy (k : ℕ) : Run (fun _ => True) (heavy 0 0)
    (some 0 :: (replicate k [some 0, some 1]).flatten) (heavy (-0x7fffffff) 0x7fffffff) := by
  induction k with
  | zero => exact .call .start 0 (view (heavy 0 0)) rfl (ready_servers 0 _ _ _ _) trivial
  | succ k ih =>
    have hfirst := Run.call ih 0 (view (heavy (-0x7fffffff) 0x7fffffff)) rfl (ready_servers 0 _ _ _ _) trivial
    have hsecond := Run.call hfirst 0 (view (heavy 2 (-2))) rfl (ready_servers 0 _ _ _ _) trivial
    rw [append_assoc] at hsecond
    rw [replicate_succ', flatten_concat]
    exact hsecond

theorem length_heavy (k : ℕ) : (some 0 :: (replicate k [some 0, some 1]).flatten : List (Option ℕ)).length =
    2 * k + 1 := by
  rw [length_cons, length_flatten, map_replicate, sum_replicate, smul_eq_mul]
  exact congrArg (· + 1) (Nat.mul_comm k 2)

theorem count_heavy (k : ℕ) :
    (some 0 :: (replicate k [some 0, some 1]).flatten : List (Option ℕ)).count (some 0) = k + 1 := by
  rw [count_cons_self, count_flatten, map_replicate, sum_replicate, smul_eq_mul]
  exact congrArg (· + 1) (Nat.mul_one k)

theorem selections_not_proportional :
    ∃ (peers peers' : List (Peer 32)) (picks : List (Option Nat)), (∀ peer ∈ peers, Fresh peer) ∧
      Run (fun _ => True) peers picks peers' ∧ (picks.length : ℤ) = totalWeight peers ∧
      ((peers[0]?).map (·.weight.toInt)) = some 0x7fffffff ∧ picks.count (some 0) = 0x80000000 := by
  have hfresh : ∀ peer ∈ heavy 0 0, Fresh peer := by
    intro peer hpeer
    rcases mem_pair.mp hpeer with rfl | rfl <;> exact ⟨rfl, rfl, by decide⟩
  have hlast : (getPeer 0 (view (heavy (-0x7fffffff) 0x7fffffff))).1 = some 0 := rfl
  obtain ⟨k, hk⟩ : ∃ k, k = 0x7ffffffe := ⟨_, rfl⟩
  have hrun := Run.call (run_heavy k) 0 (view (heavy (-0x7fffffff) 0x7fffffff)) rfl (ready_servers 0 _ _ _ _) trivial
  rw [hlast] at hrun
  refine ⟨heavy 0 0, _, _, hfresh, hrun, ?_, by decide, ?_⟩
  · rw [length_append, length_heavy, length_singleton, hk]
    decide
  · rw [count_append, count_heavy, count_singleton_self, hk]

end GokuStudio.Nginx.Upstream

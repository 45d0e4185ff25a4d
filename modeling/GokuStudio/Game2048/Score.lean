import GokuStudio.Game2048.Board
import Mathlib.Algebra.Group.Action.Defs

/-!
# 2048: what a move adds to the score

A tile `2^k` is worth `(k-1) * 2^k`: that is what the merges that made it out of
tiles 2 have added to the score. A move that merges two tiles adds their sum to the
score and to the worth of the board; two tiles 32768 add 65536 to the score and
leave nothing on the board. A `Ledger` holds what has to be known of a board for
this, and `Paid lost` relates two of them: `lost` is by how much the worth lags
behind.
-/

namespace GokuStudio.Game2048

open Finset

/-! ## §1 The worth of a tile -/

def worth (v : Nat) : Nat := (v.log2 - 1) * v

/-- More than a merge of the tile can add. -/
def cap (v : Nat) : Nat := if v = 0 then 0 else 131072

theorem cap_le (v : Nat) : cap v ≤ 131072 := by
  unfold cap
  split <;> omega

variable {v k x score : Nat} {b : Board} {s : Slide} {array l : List Nat}

theorem worth_mono {u : Nat} (h : u ≤ v) : worth u ≤ worth v := by
  have hlog : u.log2 ≤ v.log2 := by
    rcases Nat.eq_zero_or_pos u with rfl | hu
    · simp
    · exact (Nat.le_log2 (by omega)).mpr (Nat.le_trans (Nat.log2_self_le (by omega)) h)
  exact Nat.mul_le_mul (Nat.sub_le_sub_right hlog 1) h

/-- A merge adds the tile it makes. -/
theorem worth_double (h : 2 ≤ v) : worth (v + v) = worth v + worth v + (v + v) := by
  have hlog : (v + v).log2 = v.log2 + 1 := by
    rw [← Nat.two_mul, Nat.log2_two_mul (by omega)]
  obtain ⟨n, hn⟩ : ∃ n, v.log2 = n + 1 :=
    Nat.exists_eq_succ_of_ne_zero (Nat.ne_of_gt ((Nat.le_log2 (k := 1) (by omega)).mpr h))
  simp only [worth, hlog, hn, Nat.add_sub_cancel]
  rw [Nat.succ_mul, Nat.mul_add]

theorem worth_double_le (v : Nat) : worth (v + v) ≤ worth v + worth v + (v + v) := by
  rcases Nat.lt_or_ge v 2 with hlt | hge
  · interval_cases v <;> decide
  · exact Nat.le_of_eq (worth_double hge)

/-- A merge that wraps around adds less. -/
theorem worth_wrap (h : 65536 ≤ v + v) : worth (uint16 (v + v)) < worth v + worth v + (v + v) := by
  have hlt : uint16 (v + v) < 65536 := Nat.mod_lt _ (by decide)
  have hhigh : (uint16 (v + v)).log2 - 1 ≤ v.log2 - 1 := by
    have hu : (uint16 (v + v)).log2 ≤ 15 := by
      rcases Nat.eq_zero_or_pos (uint16 (v + v)) with h0 | hpos
      · simp [h0]
      · exact Nat.lt_succ_iff.mp ((Nat.log2_lt (by omega)).mpr hlt)
    have hv : 15 ≤ v.log2 := (Nat.le_log2 (by omega)).mpr (by omega)
    omega
  calc worth (uint16 (v + v)) ≤ (v.log2 - 1) * (v + v) := Nat.mul_le_mul hhigh (Nat.mod_le ..)
    _ = worth v + worth v := Nat.mul_add ..
    _ < worth v + worth v + (v + v) := by omega

/-! ## §2 Ledgers -/

structure Ledger where
  worth : Nat
  score : Nat
  cap : Nat

/-- The score has gone up by some `gain`, the worth by as much but for `lost`. -/
def Paid (lost : Nat) (a b : Ledger) : Prop := ∃ gain, b.score = uint32 (a.score + gain) ∧ b.worth + lost = a.worth + gain ∧
    gain + b.cap ≤ a.cap

theorem Paid.refl {a : Ledger} (h : a.score < 4294967296) : Paid 0 a a := ⟨0, (Nat.mod_eq_of_lt h).symm, rfl, by omega⟩

theorem Paid.trans {a b c : Ledger} {l : Nat} (h1 : Paid k a b) (h2 : Paid l b c) : Paid (k + l) a c := by
  obtain ⟨g1, hs1, hw1, hc1⟩ := h1
  obtain ⟨g2, hs2, hw2, hc2⟩ := h2
  refine ⟨g1 + g2, ?_, by omega, by omega⟩
  rw [hs2, hs1, uint32, uint32, Nat.mod_add_mod, Nat.add_assoc]
  rfl

def listLedger (l : List Nat) (score : Nat) : Ledger := ⟨(l.map Game2048.worth).sum, score, (l.map Game2048.cap).sum⟩
def boardLedger (b : Board) (score : Nat) : Ledger := ⟨total Game2048.worth b, score, total Game2048.cap b⟩

/-! ## §3 One line -/

/-- The types of the tiles and of the score. -/
structure Fits (s : Slide) : Prop where
  tiles : ∀ v ∈ s.array, v < 65536
  score : s.score < 4294967296

theorem Fits.moveTo (h : Fits s) (x t : Nat) : Fits (s.moveTo x t) := by
  constructor
  · intro v hv
    rcases List.mem_or_eq_of_mem_set hv with hv | rfl
    · rcases List.mem_or_eq_of_mem_set hv with hv | rfl
      · exact h.tiles v hv
      · exact Nat.mod_lt _ (by decide)
    · decide
  · unfold Slide.moveTo
    dsimp only
    split
    · exact Nat.mod_lt _ (by decide)
    · exact h.score

theorem Fits.getD (h : Fits s) (i : Nat) : s.array.getD i 0 < 65536 := by
  rcases Nat.lt_or_ge i s.array.length with hi | hi
  · rw [List.getD_eq_getElem _ _ hi]
    exact h.tiles _ (List.getElem_mem hi)
  · rw [List.getD_eq_default _ _ hi]
    decide

/-- A move to an empty place is free, a merge costs what it makes. -/
theorem paid_moveTo (h : Fits s) {t : Nat} (ht : t < x) (hx : x < s.array.length)
    (hne : s.array.getD x 0 ≠ 0)
    (hat : s.array.getD t 0 = 0 ∨ s.array.getD t 0 = s.array.getD x 0) :
    ∃ lost, Paid lost (listLedger s.array s.score)
        (listLedger (s.moveTo x t).array (s.moveTo x t).score) ∧
      (65536 ≤ s.array.getD t 0 + s.array.getD x 0 → 0 < lost) := by
  have hworth := sum_moveTo Game2048.worth ht hx
  have hcap := sum_moveTo Game2048.cap ht hx
  have hsmall := h.getD x
  generalize hv : s.array.getD x 0 = v at *
  have hzero : worth 0 = 0 := rfl
  have hcapv : cap v = 131072 := if_neg hne
  have hcapz : cap 0 = 0 := rfl
  rcases hat with h0 | heq
  · have hfits : uint16 (0 + v) = v := by
      rw [Nat.zero_add]
      exact Nat.mod_eq_of_lt hsmall
    rw [h0, hfits] at hworth hcap
    refine ⟨0, ⟨0, ?_, ?_, ?_⟩, by omega⟩
    · simp only [listLedger, Slide.moveTo, h0]
      exact (Nat.mod_eq_of_lt h.score).symm
    · simp only [listLedger]
      omega
    · simp only [listLedger]
      omega
  · have hle : worth (uint16 (v + v)) ≤ worth v + worth v + (v + v) :=
      Nat.le_trans (worth_mono (Nat.mod_le ..)) (worth_double_le v)
    have hcaple := cap_le (uint16 (v + v))
    rw [heq] at hworth hcap
    refine ⟨worth v + worth v + (v + v) - worth (uint16 (v + v)), ⟨v + v, ?_, ?_, ?_⟩, ?_⟩
    · simp only [listLedger, Slide.moveTo, heq, hv, if_pos hne]
    · simp only [listLedger]
      omega
    · simp only [listLedger]
      omega
    · intro hover
      have hwrap := worth_wrap (v := v) (by omega)
      omega

/-- What any loop over a line, and one with a merge that wraps, do to the ledger. -/
theorem wraps_paid : Wraps
    (fun s s' => Fits s → Fits s' ∧ ∃ lost, Paid lost (listLedger s.array s.score) (listLedger s'.array s'.score))
    (fun s s' => Fits s → Fits s' ∧ ∃ lost, 0 < lost ∧
        Paid lost (listLedger s.array s.score) (listLedger s'.array s'.score)) where
  refl s hs := ⟨hs, 0, Paid.refl hs.score⟩
  trans s1 s2 s3 h1 h2 hs := by
    obtain ⟨hs2, k, hk⟩ := h1 hs
    obtain ⟨hs3, l, hl⟩ := h2 hs2
    exact ⟨hs3, k + l, hk.trans hl⟩
  left s1 s2 s3 h1 h2 hs := by
    obtain ⟨hs2, k, hk⟩ := h1 hs
    obtain ⟨hs3, l, hpos, hl⟩ := h2 hs2
    exact ⟨hs3, k + l, by omega, hk.trans hl⟩
  right s1 s2 s3 h1 h2 hs := by
    obtain ⟨hs2, k, hpos, hk⟩ := h1 hs
    obtain ⟨hs3, l, hl⟩ := h2 hs2
    exact ⟨hs3, k + l, by omega, hk.trans hl⟩
  turn s x hx hs := by
    rcases slideStep_cases s x with h | ⟨t, ht, hne, hat, h⟩
    · rw [h]
      exact ⟨hs, 0, Paid.refl hs.score⟩
    rw [h]
    obtain ⟨lost, hpaid, -⟩ := paid_moveTo hs ht hx hne hat
    exact ⟨hs.moveTo x t, lost, hpaid⟩
  wrap s x t ht hx heq hover hs := by
    obtain ⟨lost, hpaid, hpos⟩ := paid_moveTo hs ht hx (by omega) (.inr heq)
    exact ⟨hs.moveTo x t, lost, hpos hover, hpaid⟩

/-- A tile of the game: addRandom places no 1. -/
def GameTile (v : Nat) : Prop := v = 0 ∨ ∃ k, 1 ≤ k ∧ k < 16 ∧ v = 2 ^ k

theorem GameTile.tile (h : GameTile v) : Tile v := by
  rcases h with rfl | ⟨k, -, hk, rfl⟩
  · exact .inl rfl
  · exact .inr ⟨k, hk, rfl⟩

theorem GameTile.two_le (h : GameTile v) (hv : v ≠ 0) : 2 ≤ v := by
  rcases h with rfl | ⟨k, hk, -, rfl⟩
  · exact absurd rfl hv
  · calc 2 = 2 ^ 1 := rfl
      _ ≤ 2 ^ k := Nat.pow_le_pow_right (by decide) hk

def linesLedger (ls : List (List Nat)) (score : Nat) : Ledger :=
  ⟨(ls.map fun l => (l.map Game2048.worth).sum).sum, score, (ls.map fun l => (l.map Game2048.cap).sum).sum⟩

theorem linesLedger_towards (d : Dir) (b : Board) (score : Nat) :
    linesLedger (Grid.towards size d b) score = boardLedger b score := by
  rw [linesLedger, total_towards, total_towards, boardLedger]

theorem mem_merge {ts : List Nat} (h : v ∈ merge ts) : v ∈ ts ∨ v ∈ merged ts := by
  fun_induction merge ts with
  | case1 | case2 a => exact .inl h
  | case3 a rest ih =>
    rw [merged, if_pos rfl]
    rcases List.mem_cons.mp h with rfl | h
    · exact .inr List.mem_cons_self
    · exact (ih h).imp (fun h => by simp [h]) (List.mem_cons_of_mem _)
  | case4 a b rest hab ih =>
    rw [merged, if_neg hab]
    rcases List.mem_cons.mp h with rfl | h
    · exact .inl List.mem_cons_self
    · exact (ih h).imp (List.mem_cons_of_mem a) id

theorem GameTile.double {a : Nat} (h : GameTile a) (hlt : a + a < 65536) : GameTile (a + a) := by
  rcases h with rfl | ⟨k, hk, -, rfl⟩
  · exact .inl rfl
  have hpow : 2 ^ k + 2 ^ k = 2 ^ (k + 1) := by rw [Nat.pow_succ, Nat.mul_two]
  rw [hpow] at hlt ⊢
  refine .inr ⟨k + 1, by omega, ?_, rfl⟩
  exact (Nat.pow_lt_pow_iff_right (by decide)).mp (hlt.trans_eq (by decide : 65536 = 2 ^ 16))

theorem gameTile_slid (hl : ∀ v ∈ l, GameTile v)
    (hfits : ∀ w ∈ merged (tiles l), w < 65536) : ∀ v ∈ slid l, GameTile v := by
  intro v hv
  rcases List.mem_append.mp hv with hv | hv
  · rcases mem_merge hv with hv | hv
    · exact hl v (List.mem_of_mem_filter hv)
    have hlt := hfits v hv
    obtain ⟨a, rfl, ha⟩ := mem_merged_iff.mp hv
    exact (hl a (List.mem_of_mem_filter (ha.subset List.mem_cons_self))).double hlt
  · exact .inl (List.eq_of_mem_replicate hv)

variable (hscore : score < 4294967296)
include hscore

/-- A slide pays exactly when no two tiles 32768 meet. -/
theorem paid_slideArray (hl : ∀ v ∈ l, GameTile v) (hlen : l.length = size) : ∃ lost, Paid lost (listLedger l score)
        (listLedger (slideArray l score).array (slideArray l score).score) ∧
      (lost = 0 ↔ ¬Collides l) := by
  have hsmall : ∀ v ∈ l, v < 65536 := fun v hv => (hl v hv).tile.lt
  have hfits := merged_fits_iff fun v hv => (hl v hv).tile
  have hstart : Fits ⟨l, score, 0, false⟩ := ⟨hsmall, hscore⟩
  by_cases hc : Collides l
  · have hover : ∃ w ∈ merged (tiles l), 65536 ≤ w := by
      simpa using mt hfits.mp (not_not.mpr hc)
    obtain ⟨-, lost, hpos, hpaid⟩ := slideArray_wraps wraps_paid hsmall hscore hover hstart
    exact ⟨lost, hpaid, iff_of_false (by omega) (not_not.mpr hc)⟩
  obtain ⟨-, lost, hpaid⟩ := slideArray_any wraps_paid l score hstart
  refine ⟨lost, hpaid, iff_of_true ?_ hc⟩
  obtain ⟨gain, hsc, hworth, hcap⟩ := hpaid
  obtain ⟨harray, hscore'⟩ := slideArray_follows hsmall hscore (hfits.mpr hc)
  have hdouble : ∀ a ∈ tiles l, worth (a + a) = worth a + worth a + (a + a) := by
    intro a ha
    obtain ⟨hal, hne⟩ := List.mem_filter.mp ha
    exact worth_double ((hl a hal).two_le (by simpa using hne))
  have hslid := @sum_slid Game2048.worth id l rfl hdouble
  have hbound := List.sum_le_card_nsmul (l.map Game2048.cap) 131072 (by simp [cap_le])
  -- the gain is the sum of the tiles made, since both fit into the score
  simp only [listLedger, harray, hscore', uint32, List.map_id] at hsc hworth hcap hslid
  rw [List.length_map, hlen, size, smul_eq_mul] at hbound
  omega

/-! ## §4 The whole board -/

theorem paid_slideLines {ls : List (List Nat)} (h : ∀ l ∈ ls, ∀ v ∈ l, GameTile v) (hlen : ∀ l ∈ ls, l.length = size) : ∃ lost, Paid lost (linesLedger ls score)
        (linesLedger (Grid.slideLines ls score).1 (Grid.slideLines ls score).2.1) ∧
      (lost = 0 ↔ ∀ l ∈ ls, ¬Collides l) := by
  induction ls generalizing score with
  | nil => exact ⟨0, Paid.refl hscore, iff_of_true rfl nofun⟩
  | cons l ls ih =>
    rw [List.forall_mem_cons] at h hlen
    obtain ⟨lost1, ⟨gain1, hs1, hw1, hc1⟩, h1⟩ := paid_slideArray hscore h.1 hlen.1
    obtain ⟨lost2, ⟨gain2, hs2, hw2, hc2⟩, h2⟩ := ih (score_slideArray l hscore) h.2 hlen.2
    refine ⟨lost1 + lost2, ⟨gain1 + gain2, ?_, ?_, ?_⟩, ?_⟩
    · simp only [listLedger, linesLedger, Grid.slideLines, uint32] at hs1 hs2 ⊢
      omega
    · simp only [listLedger, linesLedger, Grid.slideLines, List.map_cons, List.sum_cons] at hw1 hw2 ⊢
      omega
    · simp only [listLedger, linesLedger, Grid.slideLines, List.map_cons, List.sum_cons] at hc1 hc2 ⊢
      omega
    · rw [Nat.add_eq_zero_iff, h1, h2, List.forall_mem_cons]

/-- A move pays exactly when no two tiles 32768 meet. -/
theorem paid_move (d : Dir) (hb : Every GameTile b) : ∃ lost, Paid lost (boardLedger b score)
        (boardLedger (move d b score).board (move d b score).score) ∧
      (lost = 0 ↔ ∀ l ∈ lines d b, ¬Collides l) := by
  have hlines : Grid.towards size d (move d b score).board = _ := congrArg Prod.fst (move_lines d b score)
  have hscores : (move d b score).score = _ := congrArg (·.2.1) (move_lines d b score)
  rw [← collides_towards, ← linesLedger_towards d, ← linesLedger_towards d, hlines, hscores]
  exact paid_slideLines hscore ((every_towards d).mp hb) (Grid.length_towards d)

/-! ## §5 The tiles stay tiles of the game -/

theorem gameTiles_slideLines {ls : List (List Nat)} (h : ∀ l ∈ ls, ∀ v ∈ l, GameTile v)
    (hc : ∀ l ∈ ls, ¬Collides l) : ∀ l ∈ (Grid.slideLines ls score).1, ∀ v ∈ l, GameTile v := by
  induction ls generalizing score with
  | nil => nofun
  | cons l ls ih =>
    rw [List.forall_mem_cons] at h hc
    have htile : ∀ v ∈ l, Tile v := fun v hv => (h.1 v hv).tile
    have hfits := (merged_fits_iff htile).mpr hc.1
    refine List.forall_mem_cons.mpr ⟨?_, ih (score_slideArray l hscore) h.2 hc.2⟩
    rw [(slideArray_follows (fun v hv => (htile v hv).lt) hscore hfits).1]
    exact gameTile_slid h.1 hfits

theorem gameTiles_move {d : Dir}
    (hb : Every GameTile b) (hc : ∀ l ∈ lines d b, ¬Collides l) :
    Every GameTile (move d b score).board := by
  have hlines : Grid.towards size d (move d b score).board = _ := congrArg Prod.fst (move_lines d b score)
  rw [every_towards d, hlines]
  exact gameTiles_slideLines hscore ((every_towards d).mp hb) ((collides_towards d b).mpr hc)

end GokuStudio.Game2048

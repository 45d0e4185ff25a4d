import GokuStudio.Game2048.Play
import Mathlib.Data.List.Range

/-!
# 2048: the end of the game

`gameEnded` looks for an empty place, then for two equal neighbours on a line `board[x]`
and, with the board turned, on a line across. With a tile on the board it answers yes just
if no move would do anything, and the board is as it was (`game_ended_iff`).
-/

namespace GokuStudio.Game2048

open List

/-! ## §1 A slide that does nothing -/

variable {l : List Nat} {x y score : Nat} {b : Board}

/-- With `a` before it on its line, `c` is an empty place or a tile that does not move. -/
def Stays (a c : Nat) : Prop := c ≠ 0 → a ≠ 0 ∧ a ≠ c

/-- A tile does not stay where it is when nothing has moved before. -/
def Leaves (l : List Nat) (x : Nat) : Prop := l.getD x 0 ≠ 0 ∧ findTarget l x 0 ≠ x

theorem findFrom_zero_le {t : Nat} : findFrom l x 0 (t + 1) ≤ t + 1 := by
  induction t with
  | zero =>
    unfold findFrom
    split_ifs <;> omega
  | succ t ih =>
    unfold findFrom
    split_ifs <;> omega

theorem leaves_succ : Leaves l (y + 1) ↔ ¬ Stays (l.getD y 0) (l.getD (y + 1) 0) := by
  rw [Stays, Classical.not_imp]
  refine and_congr_right fun _ => ?_
  rw [findTarget, if_neg (Nat.succ_ne_zero y), findFrom]
  split_ifs with hy hne hzero
  · exact iff_of_false (· rfl) (not_not.mpr ⟨hy, hne⟩)
  · exact iff_of_true (by omega) fun h => hne h.2
  · exact iff_of_true (by omega) fun h => hy h.1
  · obtain ⟨t, rfl⟩ := Nat.exists_eq_add_one_of_ne_zero hzero
    have hle := @findFrom_zero_le l (t + 1 + 1) t
    exact iff_of_true (by omega) fun h => hy h.1

theorem foldl_leaves (l : List Nat) (score k : Nat) :
    let s := (range k).foldl slideStep ⟨l, score, 0, false⟩
    s.success = true ∧ (∃ x, x < k ∧ Leaves l x) ∨ s = ⟨l, score, 0, false⟩ ∧ ∀ x, x < k → ¬ Leaves l x := by
  induction k with
  | zero => exact .inr ⟨rfl, nofun⟩
  | succ k ih =>
    rw [range_succ, foldl_append, foldl_cons, foldl_nil]
    rcases ih with ⟨hs, x, hx, hleaves⟩ | ⟨hs, hnone⟩
    · refine .inl ⟨?_, x, Nat.lt_succ_of_lt hx, hleaves⟩
      rcases slideStep_cases ((range k).foldl slideStep ⟨l, score, 0, false⟩) k with h | ⟨t, -, -, -, h⟩
      · rwa [h]
      · rw [h]
        rfl
    rw [hs, slideStep]
    by_cases hk : Leaves l k
    · refine .inl ⟨?_, k, Nat.lt_succ_self k, hk⟩
      rw [if_pos hk.1]
      exact congrArg Slide.success (if_pos hk.2)
    refine .inr ⟨?_, Nat.forall_lt_succ_right.mpr ⟨hnone, hk⟩⟩
    split_ifs with h0
    · exact if_neg fun ht => hk ⟨h0, ht⟩
    · rfl

theorem success_slideArray : (slideArray l score).success = false ↔ l.IsChain Stays := by
  have hchain : l.IsChain Stays ↔ ∀ x, x < l.length → ¬ Leaves l x := by
    rw [isChain_iff_getElem]
    constructor
    · rintro h (_ | y) hx hleaves
      · exact hleaves.2 rfl
      · rw [leaves_succ, getD_eq_getElem _ _ hx, getD_eq_getElem _ _ (Nat.lt_of_succ_lt hx)] at hleaves
        exact hleaves (h y hx)
    · intro h y hy
      have hstays := not_not.mp (mt leaves_succ.mpr (h (y + 1) hy))
      rwa [getD_eq_getElem _ _ hy, getD_eq_getElem _ _ (Nat.lt_of_succ_lt hy)] at hstays
  rw [hchain]
  rcases foldl_leaves l score l.length with ⟨hs, x, hx, hleaves⟩ | ⟨hs, hnone⟩
  · exact iff_of_false (by simp [slideArray, hs]) fun h => h x hx hleaves
  · exact iff_of_true (congrArg Slide.success hs) hnone

theorem success_slideLines {ls : List (List Nat)} :
    (Grid.slideLines ls score).2.2 = false ↔ ∀ l ∈ ls, l.IsChain Stays := by
  induction ls generalizing score with
  | nil => simp [Grid.slideLines]
  | cons l ls ih => simp only [Grid.slideLines, Bool.or_eq_false_iff, ih, success_slideArray, forall_mem_cons]

/-! ## §2 No move does anything -/

/-- Two places next to each other are empty, or they have different tiles. -/
def Quiet (a c : Nat) : Prop := (a = 0 ↔ c = 0) ∧ (a ≠ 0 → a ≠ c)

/-- All neighbours are quiet, along the lines and across them. -/
theorem quiet_iff : (∀ d, (move d b score).success = false) ↔
    (∀ x, x < size → ∀ y, y < size - 1 → Quiet (b x y) (b x (y + 1))) ∧
      ∀ x, x < size → ∀ y, y < size - 1 → Quiet (b y x) (b (y + 1) x) := by
  have hmove : ∀ d, (move d b score).success = false ↔ ∀ l ∈ Grid.towards size d b, l.IsChain Stays := fun d => by
    rw [← success_slideLines, ← move_lines]
  have hquiet : ∀ a c, Quiet a c ↔ Stays a c ∧ Stays c a := fun a c => by
    unfold Quiet Stays
    omega
  have hdirs : ∀ P : Dir → Prop, (∀ d, P d) ↔ (P .up ∧ P .down) ∧ P .left ∧ P .right := fun P =>
    ⟨fun h => ⟨⟨h .up, h .down⟩, h .left, h .right⟩, fun ⟨⟨hu, hd⟩, hl, hr⟩ d => by cases d <;> assumption⟩
  simp only [hdirs, hmove, hquiet, Grid.towards, Grid.lines, Grid.row, Grid.column, isChain_map, isChain_range,
    isChain_reverse, forall_mem_map, mem_reverse, mem_range, forall_and]

theorem findPairDown_eq_false : findPairDown b = false ↔ ∀ l ∈ Grid.towards size .up b, l.IsChain (· ≠ ·) := by
  simp only [findPairDown, any_eq_false, mem_range, beq_iff_eq, Bool.not_eq_true, Grid.towards, Grid.lines, Grid.row,
    isChain_map, isChain_range, forall_mem_map, ne_eq]

theorem countEmpty_pos : ¬ countEmpty b > 0 ↔ Every (· ≠ 0) b := by
  simp only [countEmpty, length_pos_iff, not_not, emptyCells, flatMap_eq_nil_iff, map_eq_nil_iff, filter_eq_nil_iff, mem_range, decide_eq_true_eq]
  rfl

/-- One tile, and there is no empty place. -/
theorem every_of_quiet {i j : Nat} (hi : i < size) (hj : j < size) (hb : b i j ≠ 0)
    (h : ∀ x, x < size → ∀ y, y < size - 1 → Quiet (b x y) (b x (y + 1)))
    (h' : ∀ x, x < size → ∀ y, y < size - 1 → Quiet (b y x) (b (y + 1) x)) : Every (· ≠ 0) b := by
  have hline : ∀ f : Nat → Nat, (∀ y, y < size - 1 → Quiet (f y) (f (y + 1))) → ∀ y, y < size → (f y = 0 ↔ f 0 = 0) := by
    intro f hf y hy
    induction y with
    | zero => rfl
    | succ y ih => rw [← (hf y (Nat.lt_sub_of_add_lt hy)).1, ih (Nat.lt_of_succ_lt hy)]
  have hcorner : ∀ x, x < size → ∀ y, y < size → (b x y = 0 ↔ b 0 0 = 0) := fun x hx y hy =>
    (hline (b x) (h x hx) y hy).trans (hline (b · 0) (h' 0 (by decide)) x hx)
  intro x hx y hy
  rwa [Ne, hcorner x hx y hy, ← hcorner i hi j hj]

/-- With a tile on the board, the game has ended just if no move does anything, and the
test leaves the board as it was. -/
theorem game_ended_iff (b : Board) (score : Nat) (h : ∃ i, i < size ∧ ∃ j, j < size ∧ b i j ≠ 0) :
    ((gameEnded b).1 = true ↔ ∀ d, (move d b score).success = false) ∧
      ∀ x, x < size → ∀ y, y < size → (gameEnded b).2 x y = b x y := by
  obtain ⟨i, hi, j, hj, hb⟩ := h
  have hleft : Grid.towards size .up (rotateBoard b) = Grid.towards size .left b := (Grid.towards_eq .left b).symm
  have hquiet : (∀ d, (move d b score).success = false) ↔
      Every (· ≠ 0) b ∧ findPairDown b = false ∧ findPairDown (rotateBoard b) = false := by
    rw [quiet_iff, findPairDown_eq_false, findPairDown_eq_false, hleft]
    simp only [Grid.towards, Grid.lines, Grid.row, Grid.column, isChain_map, isChain_range, forall_mem_map, mem_reverse, mem_range]
    constructor
    · rintro ⟨hq, hq'⟩
      have hfull := every_of_quiet hi hj hb hq hq'
      exact ⟨hfull, fun x hx y hy => (hq x hx y hy).2 (hfull x hx y (by omega)),
        fun x hx y hy => (hq' x hx y hy).2 (hfull y (by omega) x hx)⟩
    · rintro ⟨hfull, hpair, hpair'⟩
      exact ⟨fun x hx y hy => ⟨iff_of_false (hfull x hx y (by omega)) (hfull x hx _ (by omega)), fun _ => hpair x hx y hy⟩,
        fun x hx y hy => ⟨iff_of_false (hfull y (by omega) x hx) (hfull _ (by omega) x hx), fun _ => hpair' x hx y hy⟩⟩
  rw [hquiet, gameEnded, ← countEmpty_pos]
  split_ifs with h0 hpair
  · exact ⟨iff_of_false (by simp) fun h => h.1 h0, fun _ _ _ _ => rfl⟩
  · exact ⟨iff_of_false (by simp) fun h => by simp [hpair] at h, fun _ _ _ _ => rfl⟩
  · exact ⟨by simp [h0, hpair], fun x hx y => Grid.rotate_four_apply b hx⟩

/-- Two tiles side by side can still be slid to another edge. -/
theorem game_ended_two : (gameEnded (oneLine [2, 4])).1 = false ∧ ∃ d, (move d (oneLine [2, 4]) 0).success = true := by
  have h := (game_ended_iff (oneLine [2, 4]) 0 ⟨0, by decide, 0, by decide, by decide⟩).1
  refine ⟨by decide, ?_⟩
  by_contra hnone
  exact absurd (h.mpr fun d => by simpa using not_exists.mp hnone d) (by decide)

end GokuStudio.Game2048

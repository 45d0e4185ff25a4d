import Mathlib.Algebra.GroupWithZero.Nat
import Mathlib.Data.List.GetD
import Mathlib.Tactic.Common

/-!
# 2048: sliding one line

`slideArray` of `2048.c` slides a line towards index 0, in place: it goes up the
line, asks `findTarget` for the place of each tile and writes it there, merging it
with an equal tile it runs into. `stop` keeps a merged tile from taking part in a
second merge. `SIZE` is the length of the line here. Tiles are `uint16_t`, the
score is `uint32_t`.

What the slide is for is said without indexes: drop the zeros, merge each pair of
equal neighbours from the left (`merge`), pad with zeros (`slid`). `Joined.add` is
the same merge one tile at a time, and `Follows` is the loop invariant that ties
the line to it.
-/

namespace GokuStudio.Game2048

open List

/-! ## §1 The code -/

def uint16 (n : Nat) : Nat := n % 65536
def uint32 (n : Nat) : Nat := n % 4294967296

/-- The loop of `findTarget`, with the places below `t` still to be looked at. -/
def findFrom (array : List Nat) (x stop : Nat) : Nat → Nat
  | 0 => x
  | t + 1 =>
    if array.getD t 0 ≠ 0 then
      -- another tile: merge with it, or stay right behind it
      if array.getD t 0 ≠ array.getD x 0 then t + 1 else t
    else if t = stop then t
    else findFrom array x stop t

def findTarget (array : List Nat) (x stop : Nat) : Nat :=
  if x = 0 then x else findFrom array x stop x

/-- The locals of `slideArray` and the global `score`. -/
structure Slide where
  array : List Nat
  score : Nat
  stop : Nat
  success : Bool
deriving Repr, DecidableEq

/-- What `slideArray` does with the tile at `x` once its target `t` is another place. -/
def Slide.moveTo (s : Slide) (x t : Nat) : Slide where
  array := (s.array.set t (uint16 (s.array.getD t 0 + s.array.getD x 0))).set x 0
  score :=
    if s.array.getD t 0 ≠ 0 then uint32 (s.score + (s.array.getD t 0 + s.array.getD x 0))
    else s.score
  stop := if s.array.getD t 0 ≠ 0 then t + 1 else s.stop
  success := true

/-- One turn of the loop of `slideArray`. -/
def slideStep (s : Slide) (x : Nat) : Slide :=
  if s.array.getD x 0 ≠ 0 then
    let t := findTarget s.array x s.stop
    if t ≠ x then s.moveTo x t else s
  else s

def slideArray (array : List Nat) (score : Nat) : Slide :=
  (List.range array.length).foldl slideStep ⟨array, score, 0, false⟩

/-! ## §2 What a slide is for -/

/-- Each pair of equal neighbours is merged once, from the left. -/
def merge : List Nat → List Nat
  | [] => []
  | [a] => [a]
  | a :: b :: rest => if a = b then (a + b) :: merge rest else a :: merge (b :: rest)

/-- The tiles that `merge` makes. -/
def merged : List Nat → List Nat
  | [] => []
  | [_] => []
  | a :: b :: rest => if a = b then (a + b) :: merged rest else merged (b :: rest)

def tiles (row : List Nat) : List Nat := row.filter (· ≠ 0)
def slid (row : List Nat) : List Nat := merge (tiles row) ++ List.replicate (row.length - (merge (tiles row)).length) 0
theorem tiles_zero_cons (l : List Nat) : tiles (0 :: l) = tiles l := by simp [tiles]

variable {v : Nat}

theorem tiles_cons (hv : v ≠ 0) (l : List Nat) : tiles (v :: l) = v :: tiles l := by
  simp [tiles, hv]

/-- The merge under way: the tiles in place, whether the last one of them may still
be merged, and the tiles made by merging. -/
structure Joined where
  placed : List Nat
  fresh : Bool
  made : List Nat

def Joined.start : Joined := ⟨[], false, []⟩

def Joined.add (m : Joined) (v : Nat) : Joined :=
  if m.fresh ∧ m.placed.getLast? = some v then
    ⟨m.placed.dropLast ++ [v + v], false, m.made ++ [v + v]⟩
  else ⟨m.placed ++ [v], true, m.made⟩

variable {m : Joined}

theorem add_join (init made : List Nat) (v : Nat) :
    Joined.add ⟨init ++ [v], true, made⟩ v = ⟨init ++ [v + v], false, made ++ [v + v]⟩ := by
  simp [Joined.add]

theorem add_place (h : m.fresh = true → m.placed.getLast? ≠ some v) : m.add v = ⟨m.placed ++ [v], true, m.made⟩ := by
  rw [Joined.add, if_neg (fun hv => h hv.1 hv.2)]

/-- Tile by tile or pair by pair: the merge is the same, from a closed end and from a
tile `a` that may still be merged. -/
theorem foldl_add (rest : List Nat) : ∀ done made : List Nat,
    ((rest.foldl Joined.add ⟨done, false, made⟩).placed = done ++ merge rest ∧
      (rest.foldl Joined.add ⟨done, false, made⟩).made = made ++ merged rest) ∧
    ∀ a, (rest.foldl Joined.add ⟨done ++ [a], true, made⟩).placed = done ++ merge (a :: rest) ∧
      (rest.foldl Joined.add ⟨done ++ [a], true, made⟩).made = made ++ merged (a :: rest) := by
  induction rest with
  | nil => simp [merge, merged]
  | cons b rest ih =>
    intro done made
    constructor
    · rw [foldl_cons, add_place (by simp)]
      exact (ih done made).2 b
    · intro a
      rw [foldl_cons, merge, merged]
      by_cases hab : a = b
      · subst hab
        rw [if_pos rfl, if_pos rfl, add_join]
        obtain ⟨hp, hm⟩ := (ih (done ++ [a + a]) (made ++ [a + a])).1
        rw [hp, hm]
        simp
      · rw [if_neg hab, if_neg hab, add_place (by simp [hab])]
        obtain ⟨hp, hm⟩ := (ih (done ++ [a]) made).2 b
        rw [hp, hm]
        simp

theorem placed_eq_merge (ts : List Nat) : (ts.foldl Joined.add .start).placed = merge ts := (foldl_add ts [] []).1.1
theorem made_eq_merged (ts : List Nat) : (ts.foldl Joined.add .start).made = merged ts := (foldl_add ts [] []).1.2

theorem made_add (m : Joined) (v : Nat) : m.made <+: (m.add v).made := by
  unfold Joined.add
  split
  · exact prefix_append ..
  · exact prefix_rfl

theorem made_foldl (ts : List Nat) (m : Joined) : m.made <+: (ts.foldl Joined.add m).made := by
  induction ts generalizing m with
  | nil => exact prefix_rfl
  | cons v ts ih => exact (made_add m v).trans (ih (m.add v))

/-! ## §3 Where `findTarget` sends a tile

The line is `placed ++ zeros ++ v :: rest` and the tile `v` is looked at. -/

variable {array row : List Nat} {x stop t i : Nat} {f : Nat → Nat → Nat}

/-- The search runs down over empty places other than `stop`. -/
theorem findFrom_zeros {k : Nat} (hkt : k ≤ t) (h : ∀ i, k ≤ i → i < t → array.getD i 0 = 0 ∧ i ≠ stop) :
    findFrom array x stop t = findFrom array x stop k := by
  induction t with
  | zero => rw [Nat.le_zero.mp hkt]
  | succ t ih =>
    rcases Nat.lt_or_ge t k with hlt | hge
    · rw [show k = t + 1 by omega]
    obtain ⟨hz, hs⟩ := h t hge (Nat.lt_succ_self t)
    rw [findFrom, if_neg (not_not.mpr hz), if_neg hs]
    exact ih hge fun i hi hit => h i hi (Nat.lt_succ_of_lt hit)

theorem getD_at (l r : List Nat) (v : Nat) : (l ++ v :: r).getD l.length 0 = v := by
  simp

theorem set_at (l r : List Nat) (v w : Nat) : (l ++ v :: r).set l.length w = l ++ w :: r := by
  simp

section Target
variable {placed rest : List Nat} {z : Nat}

/-- The line with the tile `v` in it. -/
def line (placed : List Nat) (z : Nat) (rest : List Nat) : List Nat := placed ++ List.replicate z 0 ++ rest

theorem line_at : (line placed z (v :: rest)).getD (placed.length + z) 0 = v := by
  have h := getD_at (placed ++ replicate z 0) rest v
  rwa [length_append, length_replicate] at h

theorem line_zero (hi : placed.length ≤ i) (hz : i < placed.length + z) : (line placed z rest).getD i 0 = 0 := by
  rw [line, getD_append _ _ _ _ (by simpa using hz), getD_append_right _ _ _ _ hi, getD_replicate 0 (by omega)]

theorem findFrom_line {k : Nat} (hk : placed.length ≤ k) (hkz : k ≤ placed.length + z) (hstop : stop < k) :
    findFrom (line placed z rest) x stop (placed.length + z) = findFrom (line placed z rest) x stop k :=
  findFrom_zeros hkz fun i hi hix => ⟨line_zero (by omega) hix, by omega⟩

/-- With nothing to merge with, the tile goes to the first free place. -/
theorem findTarget_closed (hz : placed.length = 0 ∨ 0 < z) :
    findTarget (line placed z (v :: rest)) (placed.length + z) placed.length = placed.length := by
  unfold findTarget
  split
  · omega
  · have hpos : 0 < z := by omega
    rw [findFrom_line (Nat.le_succ _) (by omega) (Nat.lt_succ_self _), findFrom, if_neg (not_not.mpr (line_zero (Nat.le_refl _) (by omega))), if_pos rfl]

/-- A last tile that may still be merged takes the tile in if it is equal. -/
theorem findTarget_fresh {init : List Nat} {a : Nat} (ha : a ≠ 0) (hstop : stop ≤ init.length) :
    findTarget (line (init ++ [a]) z (v :: rest)) (init.length + 1 + z) stop =
      if a = v then init.length else init.length + 1 := by
  have hlen : (init ++ [a]).length = init.length + 1 := by simp
  have hv : (line (init ++ [a]) z (v :: rest)).getD (init.length + 1 + z) 0 = v := by
    rw [← hlen]
    exact line_at
  have hlast : (line (init ++ [a]) z (v :: rest)).getD init.length 0 = a := by
    rw [line, append_assoc, append_assoc]
    exact getD_at init _ a
  rw [findTarget, if_neg (by omega), ← hlen, findFrom_line (Nat.le_refl _) (Nat.le_add_right ..) (by omega), hlen,
    findFrom, hlast, hv, if_pos ha]
  by_cases hav : a = v
  · rw [if_neg (not_not.mpr hav), if_pos hav]
  · rw [if_pos hav, if_neg hav]

end Target

/-! ## §4 The loop -/

section Line
variable {placed init rest : List Nat} {z w a : Nat}

theorem line_push : line placed 0 (v :: rest) = line (placed ++ [v]) 0 rest := by
  simp [line]

theorem line_pad : line placed z (0 :: rest) = line placed (z + 1) rest := by
  simp [line, replicate_succ']

theorem line_free : line placed (z + 1) rest = line (placed ++ [0]) z rest := by
  simp [line, replicate_succ]

/-- The two writes of a move, with the target right before the zeros. -/
theorem line_move : ((line (init ++ [a]) z (v :: rest)).set init.length w).set
    (init.length + 1 + z) 0 = line (init ++ [w]) (z + 1) rest := by
  have hfirst : (line (init ++ [a]) z (v :: rest)).set init.length w = line (init ++ [w]) z (v :: rest) := by
    simp only [line, append_assoc, singleton_append]
    exact set_at ..
  have hsecond := set_at (init ++ [w] ++ replicate z 0) rest v 0
  simp only [length_append, length_replicate, length_singleton] at hsecond
  rw [hfirst, line, hsecond]
  exact line_pad

end Line

/-- The line while the loop is at it: the tiles of the merge so far, zeros, and the
part the loop has not come to. -/
structure Follows (score : Nat) (m : Joined) (z : Nat) (rest : List Nat) (s : Slide) : Prop where
  array : s.array = line m.placed z rest
  nonzero : 0 ∉ m.placed
  -- `stop` tells a last tile that may be merged from one that may not
  open_stop : m.fresh = true → s.stop < m.placed.length
  closed_stop : m.fresh = false → s.stop = m.placed.length ∧ (m.placed.length = 0 ∨ 0 < z)
  score : s.score = uint32 (score + m.made.sum)

namespace Follows
variable {score z : Nat} {rest init made : List Nat} {s : Slide}

theorem at_tile (h : Follows score m z (v :: rest) s) : s.array.getD (m.placed.length + z) 0 = v := by
  rw [h.array]
  exact line_at

theorem skip (h : Follows score m z (0 :: rest) s) :
    Follows score m (z + 1) rest (slideStep s (m.placed.length + z)) := by
  rw [slideStep, if_neg (not_not.mpr h.at_tile)]
  exact ⟨h.array.trans line_pad, h.nonzero, h.open_stop, fun hf => ⟨(h.closed_stop hf).1, .inr (Nat.succ_pos z)⟩, h.score⟩

/-- A tile that finds nothing to merge with goes right behind the others. -/
theorem target_place (h : Follows score m z (v :: rest) s) (hv : m.fresh = true → m.placed.getLast? ≠ some v) :
    findTarget s.array (m.placed.length + z) s.stop = m.placed.length := by
  rw [h.array]
  cases hf : m.fresh with
  | false =>
    obtain ⟨hstop, hz⟩ := h.closed_stop hf
    rw [hstop]
    exact findTarget_closed hz
  | true =>
    have hstop := h.open_stop hf
    rcases eq_nil_or_concat m.placed with hnil | ⟨init, a, heq⟩
    · simp [hnil] at hstop
    rw [concat_eq_append] at heq
    have ha : a ≠ 0 := fun ha => h.nonzero (by simp [heq, ha])
    have hav : a ≠ v := fun hav => hv hf (by simp [heq, hav])
    rw [heq, length_append, length_singleton] at hstop ⊢
    rw [findTarget_fresh ha (by omega), if_neg hav]

variable (h : Follows score ⟨init ++ [v], true, made⟩ z (v :: rest) s)
include h

theorem target_join (hv : v ≠ 0) : findTarget s.array (init.length + 1 + z) s.stop = init.length := by
  have hstop := h.open_stop rfl
  rw [length_append, length_singleton] at hstop
  rw [h.array, findTarget_fresh hv (by omega), if_pos rfl]

theorem at_join : s.array.getD (init.length + 1 + z) 0 = v := by
  simpa using h.at_tile

theorem at_last : s.array.getD init.length 0 = v := by
  rw [h.array, line, append_assoc, append_assoc]
  exact getD_at init _ v

theorem join_eq (hv : v ≠ 0) : slideStep s (init.length + 1 + z) = s.moveTo (init.length + 1 + z) init.length := by
  rw [slideStep, h.at_join, if_pos hv, h.target_join hv, if_pos (by omega)]

omit h

theorem place (h : Follows score m z (v :: rest) s) (hv : v ≠ 0) (hsmall : v < 65536)
    (hplace : m.fresh = true → m.placed.getLast? ≠ some v) :
    Follows score (m.add v) z rest (slideStep s (m.placed.length + z)) := by
  have hstop : s.stop < m.placed.length + 1 := by
    cases hf : m.fresh with
    | false => exact Nat.lt_succ_of_le (Nat.le_of_eq (h.closed_stop hf).1)
    | true => exact Nat.lt_succ_of_lt (h.open_stop hf)
  have hnonzero : 0 ∉ m.placed ++ [v] := by simpa [h.nonzero] using hv.symm
  rw [slideStep, h.at_tile, if_pos hv, h.target_place hplace, add_place hplace]
  cases z with
  | zero =>
    rw [if_neg (by simp)]
    exact ⟨h.array.trans line_push, hnonzero, fun _ => by simpa using hstop, nofun, h.score⟩
  | succ z =>
    have hfree : s.array.getD m.placed.length 0 = 0 := by
      rw [h.array]
      exact line_zero (Nat.le_refl _) (by omega)
    have harray : (s.moveTo (m.placed.length + (z + 1)) m.placed.length).array = line (m.placed ++ [v]) (z + 1) rest := by
      have hx : m.placed.length + (z + 1) = m.placed.length + 1 + z := by omega
      rw [Slide.moveTo, h.at_tile, hfree, Nat.zero_add, uint16, Nat.mod_eq_of_lt hsmall, h.array, line_free, hx]
      exact line_move
    rw [if_pos (by omega)]
    refine ⟨harray, hnonzero, fun _ => ?_, nofun, ?_⟩
    · simp only [Slide.moveTo, hfree]
      simpa using hstop
    · simp only [Slide.moveTo, hfree]
      simpa using h.score

theorem join (h : Follows score ⟨init ++ [v], true, made⟩ z (v :: rest) s) (hv : v ≠ 0)
    (hsmall : v + v < 65536) :
    Follows score ⟨init ++ [v + v], false, made ++ [v + v]⟩ (z + 1) rest
      (slideStep s (init.length + 1 + z)) := by
  have hat := h.at_join
  have hlast := h.at_last
  have harray : (s.moveTo (init.length + 1 + z) init.length).array = line (init ++ [v + v]) (z + 1) rest := by
    rw [Slide.moveTo, hat, hlast, uint16, Nat.mod_eq_of_lt hsmall, h.array]
    exact line_move
  rw [h.join_eq hv]
  refine ⟨harray, ?_, nofun, fun _ => ⟨?_, .inr (Nat.succ_pos z)⟩, ?_⟩
  · have hinit : 0 ∉ init := fun hm => h.nonzero (mem_append_left _ hm)
    simp only [mem_append, mem_singleton, not_or]
    exact ⟨hinit, by omega⟩
  · simp only [Slide.moveTo, hlast, if_pos hv]
    simp
  · simp only [Slide.moveTo, hlast, hat, if_pos hv, h.score, uint32]
    rw [Nat.mod_add_mod, sum_append, sum_singleton, Nat.add_assoc]

end Follows

theorem Joined.eq_join (hf : m.fresh = true)
    (hl : m.placed.getLast? = some v) : ∃ init made, m = ⟨init ++ [v], true, made⟩ := by
  obtain ⟨init, heq⟩ := getLast?_eq_some_iff.mp hl
  exact ⟨init, m.made, by rw [← heq, ← hf]⟩

namespace Follows
variable {score z : Nat} {rest : List Nat} {s : Slide}

theorem add (h : Follows score m z (v :: rest) s) (hv : v ≠ 0) (hsmall : v < 65536)
    (hmade : ∀ w ∈ (m.add v).made, w < 65536) :
    ∃ z', (m.add v).placed.length + z' = m.placed.length + z + 1 ∧
      Follows score (m.add v) z' rest (slideStep s (m.placed.length + z)) := by
  by_cases hj : m.fresh = true ∧ m.placed.getLast? = some v
  · obtain ⟨init, made, rfl⟩ := Joined.eq_join hj.1 hj.2
    rw [add_join] at hmade ⊢
    have hnext := h.join hv (hmade (v + v) (by simp))
    refine ⟨z + 1, ?_, ?_⟩
    · simp only [length_append, length_singleton]
      omega
    · rwa [length_append, length_singleton]
  · have hplace : m.fresh = true → m.placed.getLast? ≠ some v := fun hf hl => hj ⟨hf, hl⟩
    refine ⟨z, ?_, h.place hv hsmall hplace⟩
    rw [add_place hplace, length_append, length_singleton]
    omega

/-- The whole loop, as long as no merge leaves `uint16_t`. -/
theorem run (h : Follows score m z rest s) (hrest : ∀ v ∈ rest, v < 65536)
    (hmade : ∀ w ∈ ((tiles rest).foldl Joined.add m).made, w < 65536) :
    ∃ z', ((tiles rest).foldl Joined.add m).placed.length + z' = m.placed.length + z + rest.length ∧
      Follows score ((tiles rest).foldl Joined.add m) z' []
        ((range' (m.placed.length + z) rest.length).foldl slideStep s) := by
  induction rest generalizing m z s with
  | nil => exact ⟨z, rfl, h⟩
  | cons v rest ih =>
    have hrest' := (forall_mem_cons.mp hrest).2
    rw [length_cons, range'_succ, foldl_cons]
    by_cases hv : v = 0
    · subst hv
      rw [tiles_zero_cons] at hmade ⊢
      obtain ⟨z', hz', hrun⟩ := ih h.skip hrest' hmade
      exact ⟨z', by omega, hrun⟩
    rw [tiles_cons hv, foldl_cons] at hmade ⊢
    obtain ⟨z1, hz1, hnext⟩ := h.add hv (hrest v mem_cons_self) fun w hw =>
      hmade w ((made_foldl (tiles rest) (m.add v)).subset hw)
    obtain ⟨z', hz', hrun⟩ := ih hnext hrest' hmade
    rw [hz1] at hrun
    exact ⟨z', by omega, hrun⟩

end Follows

theorem follows_start {score : Nat} (hscore : score < 4294967296) : Follows score .start 0 row ⟨row, score, 0, false⟩ :=
  ⟨rfl, not_mem_nil, nofun, fun _ => ⟨rfl, .inl rfl⟩, (Nat.mod_eq_of_lt hscore).symm⟩

theorem slideArray_follows {row : List Nat} {score : Nat} (hrow : ∀ v ∈ row, v < 65536)
    (hscore : score < 4294967296) (hsum : ∀ w ∈ merged (tiles row), w < 65536) :
    (slideArray row score).array = slid row ∧ (slideArray row score).score = uint32
    (score + (merged (tiles row)).sum) := by
  rw [← made_eq_merged] at hsum
  obtain ⟨z, hz, h⟩ := (follows_start hscore).run hrow hsum
  have hplaced := placed_eq_merge (tiles row)
  rw [hplaced] at hz
  have hz' : z = row.length - (merge (tiles row)).length := by
    simp only [Joined.start, length_nil, Nat.zero_add] at hz
    omega
  rw [slideArray, range_eq_range']
  refine ⟨h.array.trans ?_, h.score.trans ?_⟩
  · rw [line, slid, hplaced, ← hz', append_nil]
  · rw [made_eq_merged]

/-! ## §5 What a turn of the loop does to a count over the places -/

/-- `f` of place and tile, summed over the line, whose first place is `k`. -/
def tally (f : Nat → Nat → Nat) : Nat → List Nat → Nat
  | _, [] => 0
  | k, v :: vs => f k v + tally f (k + 1) vs

theorem tally_set {l : List Nat} {w : Nat} (k : Nat) (hi : i < l.length) :
    tally f k (l.set i w) + f (k + i) (l.getD i 0) = tally f k l + f (k + i) w := by
  induction l generalizing k i with
  | nil => exact absurd hi (Nat.not_lt_zero i)
  | cons v vs ih =>
    cases i with
    | zero =>
      simp only [set_cons_zero, getD_cons_zero, tally, Nat.add_zero]
      omega
    | succ i =>
      have h := ih (k + 1) (Nat.lt_of_succ_lt_succ hi)
      rw [Nat.add_assoc, Nat.add_comm 1 i] at h
      simp only [set_cons_succ, getD_cons_succ, tally]
      omega

theorem tally_moveTo {s : Slide} (ht : t < x) (hx : x < s.array.length) :
    tally f 0 (s.moveTo x t).array + f t (s.array.getD t 0) + f x (s.array.getD x 0) =
      tally f 0 s.array + f t (uint16 (s.array.getD t 0 + s.array.getD x 0)) + f x 0 := by
  have hfirst := tally_set (f := f) (w := uint16 (s.array.getD t 0 + s.array.getD x 0)) 0 (Nat.lt_trans ht hx)
  have hkept : (s.array.set t (uint16 (s.array.getD t 0 + s.array.getD x 0))).getD x 0 = s.array.getD x 0 := by
    rw [getD_eq_getElem?_getD, getElem?_set_ne (Nat.ne_of_lt ht), ← getD_eq_getElem?_getD]
  have hsecond := tally_set (f := f) (w := 0) 0
    (l := s.array.set t (uint16 (s.array.getD t 0 + s.array.getD x 0))) (by simpa using hx)
  rw [hkept] at hsecond
  simp only [Nat.zero_add] at hfirst hsecond
  simp only [Slide.moveTo]
  omega

/-- The target is the tile's own place, or one below it that is empty or has an equal tile. -/
theorem findFrom_spec (ht : t ≤ x) (hz : ∀ i, t ≤ i → i < x → array.getD i 0 = 0) :
    findFrom array x stop t = x ∨ findFrom array x stop t < x ∧
      (array.getD (findFrom array x stop t) 0 = 0 ∨ array.getD (findFrom array x stop t) 0 = array.getD x 0) := by
  fun_induction findFrom array x stop t with
  | case1 => exact .inl rfl
  | case2 t h0 hne =>
    rcases Nat.lt_or_eq_of_le ht with hlt | heq
    · exact .inr ⟨hlt, .inl (hz _ (Nat.le_refl _) hlt)⟩
    · exact .inl heq
  | case3 t h0 heq => exact .inr ⟨ht, .inr (not_not.mp heq)⟩
  | case4 h0 => exact .inr ⟨ht, .inl (not_not.mp h0)⟩
  | case5 t h0 hstop ih =>
    refine ih (by omega) fun i hi hix => ?_
    rcases Nat.lt_or_eq_of_le hi with hlt | rfl
    · exact hz i hlt hix
    · exact not_not.mp h0

theorem findTarget_spec (array : List Nat) (x stop : Nat) : findTarget array x stop = x ∨ findTarget array x stop < x ∧
    (array.getD (findTarget array x stop) 0 = 0 ∨ array.getD (findTarget array x stop) 0 = array.getD x 0) := by
  unfold findTarget
  split
  · exact .inl rfl
  · exact findFrom_spec (Nat.le_refl x) fun i hi hix => by omega

/-- A turn leaves the line alone, or moves the tile down to an empty place or to an equal
tile. -/
theorem slideStep_cases (s : Slide) (x : Nat) : slideStep s x = s ∨ ∃ t, t < x ∧ s.array.getD x 0 ≠ 0 ∧
        (s.array.getD t 0 = 0 ∨ s.array.getD t 0 = s.array.getD x 0) ∧
        slideStep s x = s.moveTo x t := by
  unfold slideStep
  split
  · rename_i hx
    dsimp only
    split
    · rename_i ht
      obtain ⟨hlt, hat⟩ := (findTarget_spec s.array x s.stop).resolve_left ht
      exact .inr ⟨_, hlt, hx, hat, rfl⟩
    · exact .inl rfl
  · exact .inl rfl

theorem length_slideStep (s : Slide) (x : Nat) : (slideStep s x).array.length = s.array.length := by
  rcases slideStep_cases s x with h | ⟨t, -, -, -, h⟩
  · rw [h]
  · simp [h, Slide.moveTo]

/-- What holds of every turn inside the line holds of the loop from anywhere in it. -/
theorem foldl_slideStep {R : Slide → Slide → Prop} (hrefl : ∀ s, R s s)
    (htrans : ∀ s1 s2 s3, R s1 s2 → R s2 s3 → R s1 s3)
    (hstep : ∀ s x, x < s.array.length → R s (slideStep s x)) (n : Nat) :
    ∀ (s : Slide) (k : Nat), k + n ≤ s.array.length → R s ((range' k n).foldl slideStep s) := by
  induction n with
  | zero => exact fun s _ _ => hrefl s
  | succ n ih =>
    intro s k hk
    have hrest := ih (slideStep s k) (k + 1) (by rw [length_slideStep]; omega)
    exact htrans _ _ _ (hstep s k (by omega)) hrest

theorem length_slideArray (row : List Nat) (score : Nat) : (slideArray row score).array.length = row.length := by
  rw [slideArray, range_eq_range']
  exact foldl_slideStep (R := fun s s' => s'.array.length = s.array.length) (fun _ => rfl)
    (fun _ _ _ h1 h2 => h2.trans h1) (fun s x _ => length_slideStep s x) _ _ _ (by simp)

theorem score_slideArray (row : List Nat) {score : Nat} (hscore : score < 4294967296) :
    (slideArray row score).score < 4294967296 := by
  rw [slideArray, range_eq_range']
  refine foldl_slideStep (R := fun s s' => s.score < 4294967296 → s'.score < 4294967296)
    (fun _ => id) (fun _ _ _ h1 h2 => h2 ∘ h1) (fun s x _ hs => ?_) _ _ _ (by simp) hscore
  rcases slideStep_cases s x with h | ⟨t, -, -, -, h⟩
  · rwa [h]
  rw [h, Slide.moveTo]
  split
  · exact Nat.mod_lt _ (by decide)
  · exact hs

/-- The tiles weighed by their places: every move makes the line lighter. -/
def weight (l : List Nat) : Nat := tally (fun i v => if v = 0 then 0 else i) 0 l

/-- Either nothing has happened, or the line has become lighter. -/
def Lighter (s s' : Slide) : Prop := s' = s ∨ s'.success = true ∧ weight s'.array < weight s.array

theorem lighter_slideStep (s : Slide) (x : Nat) (hx : x < s.array.length) : Lighter s (slideStep s x) := by
  rcases slideStep_cases s x with h | ⟨t, ht, hne, -, h⟩
  · exact .inl h
  rw [h]
  refine .inr ⟨rfl, ?_⟩
  have hmove := tally_moveTo (f := fun i v => if v = 0 then 0 else i) ht hx
  rw [if_neg hne, if_pos rfl] at hmove
  have hat : (if uint16 (s.array.getD t 0 + s.array.getD x 0) = 0 then 0 else t) ≤ t := by
    split <;> omega
  unfold weight
  omega

theorem lighter_slideArray (row : List Nat) (score : Nat) : Lighter ⟨row, score, 0, false⟩ (slideArray row score) := by
  rw [slideArray, range_eq_range']
  refine foldl_slideStep (fun _ => .inl rfl) ?_ lighter_slideStep _ _ _ (by simp)
  rintro s1 s2 s3 h1 (rfl | ⟨hs, hw⟩)
  · exact h1
  · rcases h1 with rfl | ⟨-, hw1⟩
    · exact .inr ⟨hs, hw⟩
    · exact .inr ⟨hs, Nat.lt_trans hw hw1⟩

theorem success_iff (row : List Nat) (score : Nat) :
    (slideArray row score).success = true ↔ (slideArray row score).array ≠ row := by
  rcases lighter_slideArray row score with h | ⟨hs, hw⟩
  · simp [h]
  refine iff_of_true hs fun heq => ?_
  rw [heq] at hw
  exact Nat.lt_irrefl _ hw

/-- A slide is drop, merge and pad; the score goes up by the tiles made, and `true` says
that the line changed. -/
theorem slideArray_exact (row : List Nat) (score : Nat) (hrow : ∀ v ∈ row, v ≤ 65535)
    (hscore : score ≤ 4294967295) (hsum : ∀ w ∈ merged (tiles row), w ≤ 65535) :
    (slideArray row score).array = slid row ∧ (slideArray row score).score = uint32 (score + (merged (tiles row)).sum) ∧
      ((slideArray row score).success = true ↔ slid row ≠ row) := by
  obtain ⟨harray, hsc⟩ := @slideArray_follows row score
    (fun v hv => Nat.lt_succ_of_le (hrow v hv)) (Nat.lt_succ_of_le hscore)
    (fun w hw => Nat.lt_succ_of_le (hsum w hw))
  refine ⟨harray, hsc, ?_⟩
  rw [← harray]
  exact success_iff row score

/-- The first merge makes a 4, and the next tile is a 4 as well. -/
theorem slideArray_exact_two_pairs : slid [2, 2, 4, 4, 0, 4] = [4, 8, 4, 0, 0, 0] ∧
      (slideArray [2, 2, 4, 4, 0, 4] 100).array = slid [2, 2, 4, 4, 0, 4] ∧
      (slideArray [2, 2, 4, 4, 0, 4] 100).score = uint32 (100 + 12) ∧
      ((slideArray [2, 2, 4, 4, 0, 4] 100).success = true ↔ slid [2, 2, 4, 4, 0, 4] ≠ [2, 2, 4, 4, 0, 4]) :=
  ⟨by decide, slideArray_exact [2, 2, 4, 4, 0, 4] 100 (by decide) (by decide) (by decide)⟩

end GokuStudio.Game2048

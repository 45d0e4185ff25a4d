import GokuStudio.Game2048.Grid
import GokuStudio.Game2048.Wraps
import Mathlib.Algebra.BigOperators.Intervals
import Mathlib.Algebra.Order.BigOperators.Group.Finset
import Mathlib.Tactic.IntervalCases

/-!
# 2048: the four moves

The moves of `2048.c` with its `SIZE`, one function for each as in the code; what they do
to the lines of the board is in `Grid`.

A move conserves the sum of the tiles exactly when no line of its direction has
two tiles 32768 that come next to each other (`sum_move_iff`): `array[t]+=array[x]`
makes a `uint16_t` 0 of them, and both are gone.
-/

namespace GokuStudio.Game2048

open Finset

/-! ## §1 The code -/

/-- The macro `SIZE`. -/
def size : Nat := 6

section
variable (b : Board) (score : Nat)

/-- The line `board[x]`. -/
def row (x : Nat) : List Nat := (List.range size).map (b x)

/-- Four cells of the board take their turn. -/
def rotateCells (i j : Nat) : Board :=
  let n := size
  let tmp := b i j
  let b := put b i j (b j (n - i - 1))
  let b := put b j (n - i - 1) (b (n - i - 1) (n - j - 1))
  let b := put b (n - i - 1) (n - j - 1) (b (n - j - 1) i)
  put b (n - j - 1) i tmp

def rotateBoard : Board := (List.range (size / 2)).foldl
    (fun b i => (List.range' i (size - i - 1 - i)).foldl (fun b j => rotateCells b i j) b) b

/-- One turn of the loop of `moveUp`. -/
def slideRow (m : Moved) (x : Nat) : Moved :=
  let s := slideArray (row m.board x) m.score
  ⟨setRow m.board x s.array, s.score, m.success || s.success⟩

def moveUp : Moved := (List.range size).foldl slideRow ⟨b, score, false⟩

/-- `moveUp` on the turned board; `before` and `after` count the turns. -/
def moveTurned (before after : Nat) (b : Board) (score : Nat) : Moved :=
  let m := moveUp (rotateBoard^[before] b) score
  { m with board := rotateBoard^[after] m.board }

def moveLeft : Moved := moveTurned 1 3 b score
def moveDown : Moved := moveTurned 2 2 b score
def moveRight : Moved := moveTurned 3 1 b score

end

def move : Dir → Board → Nat → Moved
  | .up => moveUp
  | .down => moveDown
  | .left => moveLeft
  | .right => moveRight

/-! ## §2 Turning the board -/

variable {i v score : Nat}

theorem rotateBoard_apply (b : Board) {j : Nat} (hi : i < size) (hj : j < size) :
    rotateBoard b i j = b j (size - 1 - i) :=
  Grid.rotateBoard_apply b hi hj

theorem move_size (d : Dir) (b : Board) (score : Nat) : Grid.move size d b score = move d b score := by
  show moveTurned (turns d).1 (turns d).2 b score = _
  cases d with
  | up => simp only [move, turns, moveTurned, Function.iterate_zero, id_eq]
  | down | left | right => rfl

theorem move_lines (d : Dir) (b : Board) (score : Nat) :
    (Grid.towards size d (move d b score).board, (move d b score).score, (move d b score).success) =
      Grid.slideLines (Grid.towards size d b) score := by
  rw [← move_size, Grid.move_lines]

/-- `f` over all tiles of the board. -/
def total (f : Nat → Nat) (b : Board) : Nat := ∑ x ∈ range size, ∑ y ∈ range size, f (b x y)

theorem total_rotateBoard (f : Nat → Nat) (b : Board) : total f (rotateBoard b) = total f b := by
  have hturn : total f (rotateBoard b) = ∑ x ∈ range size, ∑ y ∈ range size, f (b y (size - 1 - x)) :=
    sum_congr rfl fun x hx => sum_congr rfl fun y hy => by
      rw [rotateBoard_apply b (mem_range.mp hx) (mem_range.mp hy)]
  rw [hturn, sum_comm]
  exact sum_congr rfl fun y _ => sum_range_reflect (fun x => f (b y x)) size

theorem total_iterate (f : Nat → Nat) (k : Nat) (b : Board) : total f (rotateBoard^[k] b) = total f b := by
  induction k generalizing b with
  | zero => rfl
  | succ k ih => rw [Function.iterate_succ_apply, ih, total_rotateBoard]

/-! ## §3 The sum of the tiles -/

/-- A `uint16_t` that is zero or a power of two. -/
def Tile (v : Nat) : Prop := v = 0 ∨ ∃ k, k < 16 ∧ v = 2 ^ k

/-- `p` holds of all tiles of the board. -/
def Every (p : Nat → Prop) (b : Board) : Prop := ∀ x, x < size → ∀ y, y < size → p (b x y)

/-- The sum of all tiles. -/
def sum (b : Board) : Nat := total id b

theorem Tile.lt (h : Tile v) : v < 65536 := by
  rcases h with rfl | ⟨k, hk, rfl⟩
  · decide
  · calc 2 ^ k < 2 ^ 16 := Nat.pow_lt_pow_right (by decide) hk
      _ = 65536 := by decide

/-- Only two tiles 32768 make a sum that does not fit. -/
theorem Tile.double (h : Tile v) : v + v < 65536 ↔ v ≠ 32768 := by
  rcases h with rfl | ⟨k, hk, rfl⟩
  · decide
  · interval_cases k <;> decide

theorem pair_infix_cons {c a : Nat} {l : List Nat} :
    [c, c] <:+: a :: l ↔ (c = a ∧ l.head? = some c) ∨ [c, c] <:+: l := by
  rw [List.infix_cons_iff, List.cons_prefix_cons]
  cases l with
  | nil => simp
  | cons d l => simp [eq_comm]

/-- What `merge` makes comes from two equal neighbours, and of all such something is
made. -/
theorem mem_merged_iff {ts : List Nat} {w : Nat} : w ∈ merged ts ↔ ∃ a, w = a + a ∧ [a, a] <:+: ts := by
  fun_induction merged ts with
  | case1 => simp
  | case2 a => simp [pair_infix_cons]
  -- the two at the front merge; a third equal one makes the same pair again
  | case3 a rest ih =>
    rw [List.mem_cons, ih]
    constructor
    · rintro (rfl | ⟨c, rfl, hc⟩)
      · exact ⟨a, rfl, [], rest, rfl⟩
      · exact ⟨c, rfl, pair_infix_cons.mpr (.inr (pair_infix_cons.mpr (.inr hc)))⟩
    · rintro ⟨c, rfl, hc⟩
      rcases pair_infix_cons.mp hc with ⟨rfl, -⟩ | hc
      · exact .inl rfl
      rcases pair_infix_cons.mp hc with ⟨rfl, -⟩ | hc
      · exact .inl rfl
      · exact .inr ⟨c, rfl, hc⟩
  | case4 a b rest hab ih =>
    rw [ih]
    have hfront : ∀ c, ¬(c = a ∧ (b :: rest).head? = some c) := by
      rintro c ⟨rfl, hc⟩
      exact hab (Option.some.inj hc).symm
    simp only [@pair_infix_cons _ a, hfront, false_or]

/-- Two tiles 32768 come next to each other in the line. -/
def Collides (l : List Nat) : Prop := [32768, 32768] <:+: tiles l

instance (l : List Nat) : Decidable (Collides l) := inferInstanceAs (Decidable ([32768, 32768] <:+: tiles l))

theorem merged_fits_iff {l : List Nat} (h : ∀ v ∈ l, Tile v) : (∀ w ∈ merged (tiles l), w < 65536) ↔ ¬Collides l := by
  constructor
  · intro hw hc
    exact absurd (hw _ (mem_merged_iff.mpr ⟨32768, rfl, hc⟩)) (by decide)
  · intro hc w hw
    obtain ⟨a, rfl, ha⟩ := mem_merged_iff.mp hw
    have htile : Tile a := h a (List.mem_of_mem_filter (ha.subset List.mem_cons_self))
    refine htile.double.mpr ?_
    rintro rfl
    exact hc ha

theorem sum_slideLines {ls : List (List Nat)} (h : ∀ l ∈ ls, ∀ v ∈ l, Tile v) (hscore : score < 4294967296) :
    ((Grid.slideLines ls score).1.map List.sum).sum ≤ (ls.map List.sum).sum ∧
      (((Grid.slideLines ls score).1.map List.sum).sum = (ls.map List.sum).sum ↔ ∀ l ∈ ls, ¬Collides l) := by
  induction ls generalizing score with
  | nil => simp [Grid.slideLines]
  | cons l ls ih =>
    obtain ⟨hl, hls⟩ := List.forall_mem_cons.mp h
    obtain ⟨hle, hiff⟩ := ih hls (score_slideArray l hscore)
    have hfirst : (slideArray l score).array.sum ≤ l.sum := slideArray_any wraps_sum _ score
    have hsame := sum_slideArray_iff (fun v hv => (hl v hv).lt) hscore
    rw [merged_fits_iff hl] at hsame
    simp only [Grid.slideLines, List.map_cons, List.sum_cons]
    -- no line gains, so the sums agree only if they do so line by line
    rw [List.forall_mem_cons, ← hsame, ← hiff]
    omega

/-! ## §4 The lines of a direction -/

def column (b : Board) (y : Nat) : List Nat := (List.range size).map fun x => b x y

/-- The lines along which a move slides. -/
def lines : Dir → Board → List (List Nat)
  | .up, b => (List.range size).map (row b)
  | .down, b => (List.range size).map (row b)
  | .left, b => (List.range size).map (column b)
  | .right, b => (List.range size).map (column b)

theorem lines_size (d : Dir) (b : Board) : Grid.lines size d b = lines d b := by
  cases d <;> rfl

theorem total_towards (f : Nat → Nat) (d : Dir) (b : Board) :
    ((Grid.towards size d b).map fun l => (l.map f).sum).sum = total f b := by
  rw [Grid.towards_eq, ← total_iterate f (turns d).1 b]
  rfl

variable {b : Board} {p : Nat → Prop}

theorem every_towards (d : Dir) : Every p b ↔ ∀ l ∈ Grid.towards size d b, ∀ v ∈ l, p v := by
  rw [Grid.forall_towards (P := fun l => ∀ v ∈ l, p v) (by simp), lines_size]
  cases d with
  | up | down => simp [lines, row, Every]
  | left | right =>
    simp only [lines, column, Every, List.forall_mem_map, List.mem_range]
    exact ⟨fun h y hy x hx => h x hx y hy, fun h x hx y hy => h y hy x hx⟩

theorem every_rotateBoard (h : Every p b) : Every p (rotateBoard b) := by
  intro x hx y hy
  rw [rotateBoard_apply b hx hy]
  exact h y hy _ (by unfold size; omega)

theorem collides_reverse (l : List Nat) : Collides l.reverse ↔ Collides l := by
  rw [Collides, Collides, tiles, List.filter_reverse]
  exact @List.reverse_infix Nat [32768, 32768] _

theorem collides_towards (d : Dir) (b : Board) : (∀ l ∈ Grid.towards size d b, ¬Collides l) ↔ ∀ l ∈ lines d b, ¬Collides l := by
  rw [Grid.forall_towards fun l => not_congr (collides_reverse l), lines_size]

/-- A move conserves the sum of the tiles exactly when no two tiles 32768 meet on one of
its lines. -/
theorem sum_move_iff (d : Dir) (b : Board) (score : Nat) (hscore : score < 4294967296)
    (h : Every Tile b) :
    sum (move d b score).board = sum b ↔ ∀ l ∈ lines d b, ¬Collides l := by
  have hlines : Grid.towards size d (move d b score).board = _ := congrArg Prod.fst (move_lines d b score)
  rw [sum, sum, ← total_towards id d, ← total_towards id d b, hlines, ← collides_towards]
  simp only [List.map_id]
  exact (sum_slideLines ((every_towards d).mp h) hscore).2

instance (v : Nat) : Decidable (Tile v) := inferInstanceAs (Decidable (v = 0 ∨ ∃ k, k < 16 ∧ v = 2 ^ k))

instance (p : Nat → Prop) [DecidablePred p] (b : Board) : Decidable (Every p b) :=
  inferInstanceAs (Decidable (∀ x, x < size → ∀ y, y < size → p (b x y)))

/-- A board with one line `board[0]` that is not empty. -/
def oneLine (l : List Nat) : Board := setRow (fun _ _ => 0) 0 l

/-- Two tiles 16384 merge on the way down, and a 32768 is next to what they make. -/
theorem sum_move_kept : Every Tile (oneLine [16384, 0, 16384, 32768]) ∧
    sum (move .down (oneLine [16384, 0, 16384, 32768]) 0).board = sum (oneLine [16384, 0, 16384, 32768]) :=
  ⟨by decide, (sum_move_iff .down _ 0 (by decide) (by decide)).mpr (by decide)⟩

/-- Two tiles 32768 slide into each other and leave an empty board. -/
theorem sum_move_lost : Every Tile (oneLine [32768, 32768]) ∧ sum (oneLine [32768, 32768]) = 65536 ∧
    sum (move .up (oneLine [32768, 32768]) 0).board = 0 := by
  decide +kernel

end GokuStudio.Game2048

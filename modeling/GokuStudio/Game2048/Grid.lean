import GokuStudio.Game2048.Slide
import Mathlib.Data.List.Induction
import Mathlib.Data.List.Nodup
import Mathlib.Data.Prod.Basic
import Mathlib.Logic.Function.Iterate

/-!
# 2048: the four directions

`moveUp` of `2048.c` slides every line `board[x]` of the board; the other three moves
turn the board with `rotateBoard`, slide, and turn it back. The code is read here with
any `SIZE`, as long as `int8_t` holds the indexes. `rotateBoard` turns the board in
place, ring by ring, four cells at a time: each cell takes part in one such turn and
takes the value of the cell it is turned from. A move then slides every line of its
direction towards its edge, in the order of the turned board, and leaves all other
lines in their places (`move_eq_slideLines`).
-/

namespace GokuStudio.Game2048

open List

/-! ## §1 The code -/

/-- `board[x][y]`; only the places with both indexes below `SIZE` are meant. -/
abbrev Board := Nat → Nat → Nat

def put (b : Board) (i j v : Nat) : Board := fun i' j' => if i' = i ∧ j' = j then v else b i' j'
def setRow (b : Board) (x : Nat) (array : List Nat) : Board := fun i j => if i = x then array.getD j 0 else b i j

/-- The board and the score after a move, and what the move returns. -/
structure Moved where
  board : Board
  score : Nat
  success : Bool

inductive Dir where
  | up | down | left | right
deriving Repr, DecidableEq

/-- How often a move turns the board before it slides, and afterwards. -/
def turns : Dir → Nat × Nat
  | .up => (0, 0)
  | .down => (2, 2)
  | .left => (1, 3)
  | .right => (3, 1)

namespace Grid
variable {n : Nat}

section
variable (n : Nat) (b : Board)

/-- Four cells of the board take their turn. -/
def rotateCells (i j : Nat) : Board :=
  let tmp := b i j
  let b := put b i j (b j (n - i - 1))
  let b := put b j (n - i - 1) (b (n - i - 1) (n - j - 1))
  let b := put b (n - i - 1) (n - j - 1) (b (n - j - 1) i)
  put b (n - j - 1) i tmp

def rotateBoard : Board := (List.range (n / 2)).foldl
    (fun b i => (List.range' i (n - i - 1 - i)).foldl (fun b j => rotateCells n b i j) b) b

def row (x : Nat) : List Nat := (List.range n).map (b x)

def slideRow (m : Moved) (x : Nat) : Moved :=
  let s := slideArray (row n m.board x) m.score
  ⟨setRow m.board x s.array, s.score, m.success || s.success⟩

def moveUp (score : Nat) : Moved := (List.range n).foldl (slideRow n) ⟨b, score, false⟩

/-- The four moves differ in how often they turn the board. -/
def move (d : Dir) (b : Board) (score : Nat) : Moved :=
  let m := moveUp n ((rotateBoard n)^[(turns d).1] b) score
  { m with board := (rotateBoard n)^[(turns d).2] m.board }

/-! ## §2 Turning the board -/

/-- The four cells that take the place of each other. -/
def Orbit (c : Nat × Nat) (x y : Nat) : Prop :=
  (x, y) = c ∨ (x, y) = (c.2, n - 1 - c.1) ∨ (x, y) = (n - 1 - c.1, n - 1 - c.2) ∨ (x, y) = (n - 1 - c.2, c.1)

/-- The cells where the loops are. -/
def Start (c : Nat × Nat) : Prop := c.1 < n / 2 ∧ c.1 ≤ c.2 ∧ c.2 < n - c.1 - 1

def starts : List (Nat × Nat) := (List.range (n / 2)).flatMap fun i => (List.range' i (n - i - 1 - i)).map (i, ·)

end

variable {c : Nat × Nat} {x y : Nat} {b : Board}

open scoped Classical in
theorem rotateCells_apply (hc : Start n c) (hx : x < n) (hy : y < n) :
    rotateCells n b c.1 c.2 x y = if Orbit n c x y then b y (n - 1 - x) else b x y := by
  obtain ⟨i, j⟩ := c
  simp only [Start, Orbit, rotateCells, put, Prod.mk.injEq] at *
  grind

theorem mem_starts : c ∈ starts n ↔ Start n c := by
  obtain ⟨i, j⟩ := c
  simp only [starts, mem_flatMap, mem_map, mem_range, mem_range'_1, Prod.mk.injEq, Start]
  constructor
  · rintro ⟨i', hi, j', hj, rfl, rfl⟩
    omega
  · rintro ⟨hi, hij, hj⟩
    exact ⟨i, hi, j, by omega, rfl, rfl⟩

theorem nodup_starts : (starts n).Nodup := by
  refine nodup_flatMap.mpr ⟨fun i _ => (nodup_range').map (Prod.mk_right_injective i), ?_⟩
  refine nodup_range.imp fun hne => disjoint_left.mpr ?_
  simp only [mem_map]
  rintro c ⟨j, -, rfl⟩ ⟨j', -, heq⟩
  exact hne (congrArg Prod.fst heq).symm

/-- A cell is turned with one start only. -/
theorem orbit_unique {c' : Nat × Nat} (hc : Start n c) (hc' : Start n c') (h : Orbit n c x y) (h' : Orbit n c' x y) :
    c = c' := by
  obtain ⟨i, j⟩ := c
  obtain ⟨i', j'⟩ := c'
  simp only [Start, Orbit, Prod.mk.injEq] at *
  omega

theorem orbit_turn (hc : Start n c) (hx : x < n) (hy : y < n) : Orbit n c y (n - 1 - x) ↔ Orbit n c x y := by
  obtain ⟨i, j⟩ := c
  simp only [Start, Orbit, Prod.mk.injEq] at *
  omega

/-- All cells are turned but the one in the middle. -/
theorem orbit_total (hx : x < n) (hy : y < n) : (∃ c, Start n c ∧ Orbit n c x y) ∨ (y = x ∧ n - 1 - x = y) := by
  simp only [Prod.exists, Start, Orbit, Prod.mk.injEq]
  have hparts : x ≤ y ∧ x + y < n - 1 ∨ x < y ∧ n - 1 ≤ x + y ∨ y ≤ x ∧ n - 1 < x + y ∨
      y < x ∧ x + y ≤ n - 1 ∨ y = x ∧ n - 1 - x = y := by omega
  rcases hparts with h | h | h | h | h
  · exact .inl ⟨x, y, by omega, .inl ⟨rfl, rfl⟩⟩
  · exact .inl ⟨n - 1 - y, x, by omega, by omega⟩
  · exact .inl ⟨n - 1 - x, n - 1 - y, by omega, by omega⟩
  · exact .inl ⟨y, n - 1 - x, by omega, by omega⟩
  · exact .inr h

open scoped Classical in
theorem foldl_rotateCells (l : List (Nat × Nat)) (hl : ∀ c ∈ l, Start n c) (hnodup : l.Nodup) : ∀ {x y}, x < n → y < n →
    l.foldl (fun b c => rotateCells n b c.1 c.2) b x y = if ∃ c ∈ l, Orbit n c x y then b y (n - 1 - x) else b x y := by
  induction l using reverseRecOn with
  | nil => simp
  | append_singleton l c ih =>
    intro x y hx hy
    obtain ⟨hnodup, -, hnew⟩ := nodup_append.mp hnodup
    have hc : Start n c := hl c (by simp)
    have ih := @ih (fun c hc => hl c (by simp [hc])) hnodup
    rw [foldl_append, foldl_cons, foldl_nil, rotateCells_apply hc hx hy]
    by_cases hturn : Orbit n c x y
    · have hfirst : ¬ ∃ c ∈ l, Orbit n c y (n - 1 - x) := by
        rintro ⟨c', hc', h⟩
        have heq := orbit_unique (hl c' (by simp [hc'])) hc h ((orbit_turn hc hx hy).mpr hturn)
        exact hnew c' hc' c (by simp) heq
      rw [if_pos hturn, ih hy (by omega), if_neg hfirst, if_pos ⟨c, by simp, hturn⟩]
    · have hsame : (∃ c' ∈ l ++ [c], Orbit n c' x y) ↔ ∃ c' ∈ l, Orbit n c' x y := by
        simp [or_and_right, exists_or, hturn]
      rw [if_neg hturn, ih hx hy, if_congr hsame rfl rfl]

theorem rotateBoard_apply (b : Board) (hx : x < n) (hy : y < n) : rotateBoard n b x y = b y (n - 1 - x) := by
  have hflat : rotateBoard n b = (starts n).foldl (fun b c => rotateCells n b c.1 c.2) b := by
    simp only [rotateBoard, starts, foldl_flatMap, foldl_map]
  rw [hflat, foldl_rotateCells _ (fun c => mem_starts.mp) nodup_starts hx hy]
  split
  · rfl
  rename_i hnone
  obtain ⟨c, hc, h⟩ | ⟨hyx, hmid⟩ := orbit_total hx hy
  · exact absurd ⟨c, mem_starts.mpr hc, h⟩ hnone
  · rw [hmid, hyx]

theorem rotate_two_apply (b : Board) (hx : x < n) (hy : y < n) :
    (rotateBoard n)^[2] b x y = b (n - 1 - x) (n - 1 - y) :=
  (rotateBoard_apply _ hx hy).trans (rotateBoard_apply b hy (by omega))

theorem rotate_four_apply (b : Board) (hx : x < n) (hy : y < n) : (rotateBoard n)^[4] b x y = b x y := by
  have hback : ∀ z, z < n → n - 1 - (n - 1 - z) = z := by omega
  refine (rotate_two_apply ((rotateBoard n)^[2] b) hx hy).trans ?_
  rw [rotate_two_apply b (by omega) (by omega), hback x hx, hback y hy]

/-! ## §3 Line by line -/

def column (n : Nat) (b : Board) (y : Nat) : List Nat := (List.range n).map fun x => b x y

/-- The lines along which a move slides. -/
def lines (n : Nat) : Dir → Board → List (List Nat)
  | .up, b | .down, b => (List.range n).map (row n b)
  | .left, b | .right, b => (List.range n).map (column n b)

/-- The lines of a direction, each read from the edge the tiles slide to, in the order in
which they are slid. -/
def towards (n : Nat) (d : Dir) (b : Board) : List (List Nat) :=
  match d with
  | .up => lines n d b
  | .down => ((lines n d b).map List.reverse).reverse
  | .left => (lines n d b).reverse
  | .right => (lines n d b).map List.reverse

/-- `slideArray` line after line: the lines, the score and whether something happened. -/
def slideLines : List (List Nat) → Nat → List (List Nat) × Nat × Bool
  | [], score => ([], score, false)
  | l :: ls, score =>
    let s := slideArray l score
    let r := slideLines ls s.score
    (s.array :: r.1, r.2.1, s.success || r.2.2)

theorem row_setRow (array : List Nat) (h : array.length = n) : row n (setRow b x array) y = if y = x then array else row n b y := by
  split
  · subst y
    exact ext_getElem (by simp [row, h]) fun i _ h2 => by simp [row, setRow, h2]
  · rename_i hne
    simp [row, setRow, hne]

theorem row_slideRow (m : Moved) (x y : Nat) : row n (slideRow n m x).board y =
    if y = x then (slideArray (row n m.board x) m.score).array else row n m.board y :=
  row_setRow _ ((length_slideArray ..).trans (by simp [row]))

/-- A line is slid when the loop comes to it and left alone otherwise. -/
theorem foldl_slideRow (xs : List Nat) (hxs : xs.Nodup) (m : Moved) :
    let m' := xs.foldl (slideRow n) m
    let r := slideLines (xs.map (row n m.board)) m.score
    (∀ y ∉ xs, row n m'.board y = row n m.board y) ∧
      xs.map (row n m'.board) = r.1 ∧ m'.score = r.2.1 ∧ m'.success = (m.success || r.2.2) := by
  induction xs generalizing m with
  | nil => simp [slideLines]
  | cons x xs ih =>
    obtain ⟨hx, hxs⟩ := nodup_cons.mp hxs
    obtain ⟨hrest, hlines, hscore, hsuccess⟩ := ih hxs (slideRow n m x)
    have hsame : xs.map (row n (slideRow n m x).board) = xs.map (row n m.board) :=
      map_congr_left fun y hy => by rw [row_slideRow, if_neg (ne_of_mem_of_not_mem hy hx)]
    rw [hsame] at hlines hscore hsuccess
    refine ⟨fun y hy => ?_, ?_, hscore, ?_⟩
    · rw [mem_cons, not_or] at hy
      rw [foldl_cons, hrest y hy.2, row_slideRow, if_neg hy.1]
    · rw [map_cons, foldl_cons, hrest x hx, row_slideRow, if_pos rfl, hlines]
      rfl
    · rw [foldl_cons, hsuccess]
      exact Bool.or_assoc ..

theorem moveUp_eq_slideLines (b : Board) (score : Nat) :
    (towards n .up (moveUp n b score).board, (moveUp n b score).score, (moveUp n b score).success) =
      slideLines (towards n .up b) score := by
  obtain ⟨-, hlines, hscore, hsuccess⟩ := @foldl_slideRow n (range n) nodup_range ⟨b, score, false⟩
  rw [Bool.false_or] at hsuccess
  exact Prod.ext hlines (Prod.ext hscore hsuccess)

theorem map_reverse_cells {α : Type*} (f : Nat → α) : ((range n).map f).reverse = (range n).map fun x => f (n - 1 - x) := by
  exact ext_getElem (by simp) fun i _ _ => by simp [getElem_reverse]

/-- The lines of a direction are the first ones of the turned board. -/
theorem towards_eq (d : Dir) (b : Board) : towards n d b = towards n .up ((rotateBoard n)^[(turns d).1] b) := by
  have hback : ∀ z, z < n → n - 1 - (n - 1 - z) = z := by omega
  cases d with
  | up => rfl
  | left =>
    refine (map_reverse_cells _).trans (map_congr_left fun x hx => map_congr_left fun y hy => ?_)
    exact (rotateBoard_apply b (mem_range.mp hx) (mem_range.mp hy)).symm
  | down =>
    simp only [towards, lines, map_map]
    rw [map_reverse_cells]
    refine map_congr_left fun x hx => (map_reverse_cells _).trans (map_congr_left fun y hy => ?_)
    exact (rotate_two_apply b (mem_range.mp hx) (mem_range.mp hy)).symm
  | right =>
    simp only [towards, lines, map_map]
    refine map_congr_left fun x hx => (map_reverse_cells _).trans (map_congr_left fun y hy => ?_)
    have hx := mem_range.mp hx
    refine ((rotate_two_apply (rotateBoard n b) hx (mem_range.mp hy)).trans ?_).symm
    rw [rotateBoard_apply b (by omega) (by have := mem_range.mp hy; omega), hback x hx]

theorem move_lines (d : Dir) (b : Board) (score : Nat) :
    (towards n d (move n d b score).board, (move n d b score).score, (move n d b score).success) =
      slideLines (towards n d b) score := by
  have hturns : (rotateBoard n)^[(turns d).1] (move n d b score).board =
      (rotateBoard n)^[(turns d).1 + (turns d).2] (moveUp n ((rotateBoard n)^[(turns d).1] b) score).board :=
    (Function.iterate_add_apply ..).symm
  rw [towards_eq, hturns, towards_eq d b, ← moveUp_eq_slideLines]
  refine congrArg (·, _) (map_congr_left fun x hx => map_congr_left fun y hy => ?_)
  cases d with
  | up => rfl
  | down | left | right => exact rotate_four_apply _ (mem_range.mp hx) (mem_range.mp hy)

/-- A turn of the board is a quarter turn, four of them are none, and a move slides every
line of its direction towards its edge. -/
theorem move_eq_slideLines (n : Nat) (b : Board) : (∀ i j, i < n → j < n → rotateBoard n b i j = b j (n - 1 - i)) ∧
      (∀ i j, i < n → j < n → (rotateBoard n)^[4] b i j = b i j) ∧
      ∀ d score, (towards n d (move n d b score).board, (move n d b score).score,
        (move n d b score).success) = slideLines (towards n d b) score :=
  ⟨fun _ _ => rotateBoard_apply b, fun _ _ => rotate_four_apply b, fun d => move_lines d b⟩

/-- For what does not depend on the end a line is read from. -/
theorem forall_towards {P : List Nat → Prop} (hP : ∀ l, P l.reverse ↔ P l) (d : Dir) :
    (∀ l ∈ towards n d b, P l) ↔ ∀ l ∈ lines n d b, P l := by
  cases d <;> simp only [towards, mem_reverse, forall_mem_map, hP]

theorem length_towards (d : Dir) : ∀ l ∈ towards n d b, l.length = n := by
  rw [forall_towards (P := fun l => l.length = n) (by simp)]
  cases d <;> simp [lines, row, column]

end Grid
end GokuStudio.Game2048

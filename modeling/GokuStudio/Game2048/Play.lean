import GokuStudio.Game2048.Score
import GokuStudio.Lib.Runs

/-!
# 2048: the main loop

One turn of the loop of `main` reads a key, moves, places a tile, asks before it
quits or restarts. A `Turn` holds what comes from outside: the keys, and what
`rand` returns. `fours` is not in the code: it counts the tiles 4 that `addRandom`
has placed in the current game.

The score is the worth of the board less 4 for every such tile, as long as no two
tiles 32768 merge and no restart finds points: a restart clears the board, and
`score` goes on from where it was (`accounted_iff`).
-/

namespace GokuStudio.Game2048

open Finset Lib

/-! ## §1 The code -/

structure Game where
  board : Board
  score : Nat
  fours : Nat
  ended : Bool

def findPairDown (b : Board) : Bool :=
  (List.range size).any fun x => (List.range (size - 1)).any fun y => b x y == b x (y + 1)

/-- The places with no tile, in the order in which the code goes over the board. -/
def emptyCells (b : Board) : List (Nat × Nat) :=
  (List.range size).flatMap fun x => ((List.range size).filter (b x · = 0)).map (x, ·)

def countEmpty (b : Board) : Nat := (emptyCells b).length

/-- The answer of `gameEnded` and the board it leaves. -/
def gameEnded (b : Board) : Bool × Board :=
  if countEmpty b > 0 then (false, b)
  else if findPairDown b then (false, b)
  -- turned once for the other direction, and three times more to get back
  else (!findPairDown (rotateBoard b), rotateBoard^[3] (rotateBoard b))

/-- What one turn of the loop reads: the key, the answers to the two questions, and the
random numbers for the tile after a move and for the two tiles of a new game. -/
structure Turn where
  c : Char
  quit : Char
  restart : Char
  added : Nat × Nat
  first : Nat × Nat
  second : Nat × Nat

section
variable (g : Game) (rand : Nat × Nat) (e : Turn)

/-- `rand` is what the two calls of `rand()` return. -/
def Game.addRandom : Game :=
  let len := (emptyCells g.board).length
  if len > 0 then
    let cell := (emptyCells g.board).getD (rand.1 % len) (0, 0)
    let n := ((rand.2 % 10) / 9 + 1) * 2
    { g with board := put g.board cell.1 cell.2 n, fours := g.fours + if n = 4 then 1 else 0 }
  else g

/-- The `switch` over the key; the capital letters are what the arrow keys send last. -/
def direction : Char → Option Dir
  | 'a' | 'h' | 'D' => some .left
  | 'd' | 'l' | 'C' => some .right
  | 'w' | 'k' | 'A' => some .up
  | 's' | 'j' | 'B' => some .down
  | _ => none

def Game.slide (c : Char) : Game × Bool :=
  match direction c with
  | some d =>
    let m := move d g.board g.score
    ({ g with board := m.board, score := m.score }, m.success)
  | none => (g, false)

/-- After a move that did something. -/
def Game.afterMove : Game :=
  let g := g.addRandom rand
  { g with board := (gameEnded g.board).2, ended := (gameEnded g.board).1 }

/-- An empty board and two tiles, as at the start. The score is left alone. -/
def Game.restart (first second : Nat × Nat) : Game :=
  ({ g with board := fun _ _ => 0, fours := 0 }.addRandom first).addRandom second

/-- An `r` at the first question is taken for the key. -/
def Turn.restarts : Bool := (if e.c = 'q' then e.quit else e.c) = 'r' && e.restart = 'y'

def Game.prompts : Game :=
  if e.c = 'q' ∧ e.quit = 'y' then { g with ended := true }
  else if e.restarts then g.restart e.first e.second
  else g

def step : Game :=
  if g.ended then g
  else
    let moved := g.slide e.c
    let g := if moved.2 then moved.1.afterMove e.added else moved.1
    if g.ended then g else g.prompts e

end

def start (first second : Nat × Nat) : Game := Game.restart ⟨fun _ _ => 0, 0, 0, false⟩ first second

/-! ## §2 Placing a tile -/

variable {b : Board}

theorem total_put (f : Nat → Nat) (b : Board) {x y v : Nat} (hx : x < size) (hy : y < size) :
    total f (put b x y v) + f (b x y) = total f b + f v := by
  have hcells : ∀ b, total f b = ∑ c ∈ range size ×ˢ range size, f (b c.1 c.2) := fun b =>
    (sum_product (range size) (range size) fun c => f (b c.1 c.2)).symm
  have hmem : (x, y) ∈ range size ×ˢ range size := mem_product.mpr ⟨mem_range.mpr hx, mem_range.mpr hy⟩
  have hothers : ∑ c ∈ (range size ×ˢ range size).erase (x, y), f (put b x y v c.1 c.2) =
      ∑ c ∈ (range size ×ˢ range size).erase (x, y), f (b c.1 c.2) :=
    sum_congr rfl fun c hc => congrArg f (if_neg fun h => ne_of_mem_erase hc (Prod.ext h.1 h.2))
  rw [hcells, hcells, ← add_sum_erase _ _ hmem, ← add_sum_erase _ _ hmem, hothers]
  simp only [put, and_self, if_true]
  omega

theorem mem_emptyCells {cell : Nat × Nat} (h : cell ∈ emptyCells b) :
    cell.1 < size ∧ cell.2 < size ∧ b cell.1 cell.2 = 0 := by
  simp only [emptyCells, List.mem_flatMap, List.mem_map, List.mem_filter, List.mem_range, decide_eq_true_eq] at h
  obtain ⟨x, hx, y, ⟨hy, h0⟩, rfl⟩ := h
  exact ⟨hx, hy, h0⟩

/-- Either the board is full, or a 2 or a 4 is put in an empty place. -/
theorem addRandom_cases (g : Game) (rand : Nat × Nat) : g.addRandom rand = g ∨
      ∃ x y n, x < size ∧ y < size ∧ g.board x y = 0 ∧ (n = 2 ∨ n = 4) ∧ g.addRandom rand =
          { g with board := put g.board x y n, fours := g.fours + if n = 4 then 1 else 0 } := by
  unfold Game.addRandom
  dsimp only
  split
  · rename_i hlen
    have hlt : rand.1 % (emptyCells g.board).length < (emptyCells g.board).length := Nat.mod_lt _ hlen
    have hmem : (emptyCells g.board).getD (rand.1 % (emptyCells g.board).length) (0, 0) ∈ emptyCells g.board := by
      rw [List.getD_eq_getElem _ _ hlt]
      exact List.getElem_mem hlt
    obtain ⟨hx, hy, h0⟩ := mem_emptyCells hmem
    exact .inr ⟨_, _, _, hx, hy, h0, by omega, rfl⟩
  · exact .inl rfl

/-! ## §3 The account -/

/-- The score is the worth of the tiles on the board, less 4 for each 4 that was placed. -/
def Accounted (g : Game) : Prop := (g.score : Int) = (total worth g.board : Int) - 4 * g.fours

instance (g : Game) : Decidable (Accounted g) :=
  inferInstanceAs (Decidable ((g.score : Int) = (total worth g.board : Int) - 4 * g.fours))

theorem accounted_iff_add (g : Game) : Accounted g ↔ g.score + 4 * g.fours = total worth g.board := by
  unfold Accounted
  omega

theorem addRandom_score (g : Game) (rand : Nat × Nat) : (g.addRandom rand).score = g.score := by
  rcases addRandom_cases g rand with h | ⟨x, y, n, -, -, -, -, h⟩ <;> rw [h]

theorem addRandom_worth (g : Game) (rand : Nat × Nat) : total worth (g.addRandom rand).board + 4 * g.fours =
      total worth g.board + 4 * (g.addRandom rand).fours := by
  rcases addRandom_cases g rand with h | ⟨x, y, n, hx, hy, h0, hn, h⟩
  · rw [h]
  have hput := @total_put worth g.board x y n hx hy
  have hzero : worth (g.board x y) = 0 := by rw [h0]; rfl
  rw [h]
  dsimp only
  rcases hn with rfl | rfl
  · have htwo : worth 2 = 0 := by decide
    rw [if_neg (by decide)]
    omega
  · have hfour : worth 4 = 4 := by decide
    rw [if_pos rfl]
    omega

variable {g : Game} {d : Dir}

theorem addRandom_tiles (h : Every GameTile g.board) (rand : Nat × Nat) : Every GameTile (g.addRandom rand).board := by
  rcases addRandom_cases g rand with heq | ⟨x, y, n, -, -, -, hn, heq⟩
  · rwa [heq]
  rw [heq]
  intro i hi j hj
  dsimp only [put]
  split
  · rcases hn with rfl | rfl
    · exact .inr ⟨1, by decide⟩
    · exact .inr ⟨2, by decide⟩
  · exact h i hi j hj

theorem gameEnded_board (b : Board) : ∃ k, (gameEnded b).2 = rotateBoard^[k] b := by
  unfold gameEnded
  split
  · exact ⟨0, rfl⟩
  split
  · exact ⟨0, rfl⟩
  · exact ⟨4, rfl⟩

theorem afterMove_tiles (h : Every GameTile g.board) (rand : Nat × Nat) : Every GameTile (g.afterMove rand).board := by
  obtain ⟨k, hk⟩ := gameEnded_board (g.addRandom rand).board
  rw [Game.afterMove]
  rw [hk]
  exact Function.Iterate.rec (Every GameTile) (addRandom_tiles h rand) (fun _ => every_rotateBoard) k

theorem accounted_addRandom (g : Game) (rand : Nat × Nat) : Accounted (g.addRandom rand) ↔ Accounted g := by
  have hworth := addRandom_worth g rand
  rw [accounted_iff_add, accounted_iff_add, addRandom_score]
  omega

theorem accounted_afterMove (g : Game) (rand : Nat × Nat) : Accounted (g.afterMove rand) ↔ Accounted g := by
  obtain ⟨k, hk⟩ := gameEnded_board (g.addRandom rand).board
  rw [← accounted_addRandom g rand, Accounted, Accounted, Game.afterMove]
  rw [hk, total_iterate]

theorem total_empty : total worth (fun _ _ => 0) = 0 := by decide

/-- A new game is worth what its tiles 4 count for, so its score has to be 0. -/
theorem accounted_restart (g : Game) (first second : Nat × Nat) : Accounted (g.restart first second) ↔ g.score = 0 := by
  rw [Game.restart, accounted_addRandom, accounted_addRandom, accounted_iff_add]
  rw [total_empty]
  rfl

theorem restart_tiles (g : Game) (first second : Nat × Nat) : Every GameTile (g.restart first second).board :=
  addRandom_tiles (addRandom_tiles (fun _ _ _ _ => .inl rfl) first) second

/-! ## §4 A move -/

theorem worth_le {v : Nat} (h : GameTile v) : worth v ≤ 458752 := by
  rcases h with rfl | ⟨k, -, hk, rfl⟩
  · decide
  · calc worth (2 ^ k) ≤ worth (2 ^ 15) := worth_mono (Nat.pow_le_pow_right (by decide) (by omega))
      _ = 458752 := by decide

theorem total_le {f : Nat → Nat} {n : Nat} (h : Every (f · ≤ n) b) : total f b ≤ 36 * n := by
  have hrow : ∀ x ∈ range size, ∑ y ∈ range size, f (b x y) ≤ size * n := fun x hx =>
    (sum_le_card_nsmul _ _ n fun y hy => h x (mem_range.mp hx) y (mem_range.mp hy)).trans_eq
      (by rw [card_range, smul_eq_mul])
  calc total f b ≤ size * (size * n) := (sum_le_card_nsmul _ _ _ hrow).trans_eq (by rw [card_range, smul_eq_mul])
    _ = 36 * n := by unfold size; omega

/-- A score that is accounted for is far from leaving `uint32_t`. -/
theorem score_le (hb : Every GameTile g.board) (h : Accounted g) : g.score ≤ 16515072 := by
  have hworth : total worth g.board ≤ 36 * 458752 := total_le fun x hx y hy => worth_le (hb x hx y hy)
  have hsum := (accounted_iff_add g).mp h
  omega

theorem accounted_move_iff (hb : Every GameTile g.board) (h : Accounted g) (d : Dir) :
    Accounted { g with board := (move d g.board g.score).board,
                       score := (move d g.board g.score).score } ↔
      ∀ l ∈ lines d g.board, ¬Collides l := by
  have hscore := score_le hb h
  have hlt : g.score < 4294967296 := by omega
  obtain ⟨lost, ⟨gain, hsc, hworth, hcap⟩, hlost⟩ := paid_move hlt d hb
  -- `cap` bounds what one move pays, so the score does not wrap around
  have hbound : total cap g.board ≤ 36 * 131072 := total_le fun x _ y _ => cap_le _
  rw [← hlost, accounted_iff_add]
  rw [accounted_iff_add] at h
  simp only [boardLedger, uint32] at hsc hworth hcap
  dsimp only
  omega

/-! ## §5 Runs -/

/-- A move meets no two tiles 32768 on its lines, and a restart comes at score 0. -/
def Sound (g : Game) (e : Turn) : Prop := g.ended = false →
    (∀ d, direction e.c = some d → ∀ l ∈ lines d g.board, ¬Collides l) ∧
      (e.restarts = true → ¬(e.c = 'q' ∧ e.quit = 'y') → g.score = 0)

theorem step_ended (h : g.ended = true) (e : Turn) : step g e = g := by
  rw [step, if_pos h]

theorem direction_ne {c : Char} (h : direction c = some d) : c ≠ 'q' ∧ c ≠ 'r' := by
  constructor
  · rintro rfl
    simp [direction] at h
  · rintro rfl
    simp [direction] at h

variable {e : Turn}

theorem restarts_direction (h : direction e.c = some d) : e.restarts = false := by
  obtain ⟨hq, hr⟩ := direction_ne h
  simp [Turn.restarts, hq, hr]

/-- A key that moves asks nothing. -/
theorem prompts_direction (h : direction e.c = some d) (g : Game) : g.prompts e = g := by
  simp [Game.prompts, (direction_ne h).1, restarts_direction h]

/-- A turn with a move: the move, and a tile if the move did something. -/
theorem step_move (hended : g.ended = false) (hd : direction e.c = some d) :
    let g1 := { g with board := (move d g.board g.score).board,
                       score := (move d g.board g.score).score }
    step g e = g1 ∨ step g e = g1.afterMove e.added := by
  intro g1
  have hslide : g.slide e.c = (g1, (move d g.board g.score).success) := by
    simp only [Game.slide, hd, g1]
  rw [step, if_neg (by simp [hended]), hslide]
  dsimp only
  rw [prompts_direction hd, ite_self]
  split
  · exact .inr rfl
  · exact .inl rfl

/-- A turn without one. -/
theorem step_prompts (hended : g.ended = false) (hd : direction e.c = none) : step g e = g.prompts e := by
  have hslide : g.slide e.c = (g, false) := by simp only [Game.slide, hd]
  rw [step, if_neg (by simp [hended]), hslide]
  simp [hended]

theorem accounted_prompts_iff (h : Accounted g) (e : Turn) : Accounted (g.prompts e) ↔
      (e.restarts = true → ¬(e.c = 'q' ∧ e.quit = 'y') → g.score = 0) := by
  unfold Game.prompts
  split
  · rename_i hq
    exact iff_of_true h fun _ => absurd hq
  rename_i hq
  split
  · rename_i hr
    rw [accounted_restart]
    exact ⟨fun hs _ _ => hs, fun hs => hs hr hq⟩
  · rename_i hr
    exact iff_of_true h fun h' => absurd h' hr

theorem prompts_tiles (h : Every GameTile g.board) (e : Turn) : Every GameTile (g.prompts e).board := by
  unfold Game.prompts
  split
  · exact h
  split
  · exact restart_tiles g e.first e.second
  · exact h

/-- A sound turn is what keeps the account, and it keeps the tiles. -/
theorem step_spec (hb : Every GameTile g.board) (h : Accounted g) (e : Turn) :
    (Accounted (step g e) ↔ Sound g e) ∧ (Sound g e → Every GameTile (step g e).board) := by
  cases hended : g.ended with
  | true =>
    rw [step_ended hended]
    exact ⟨iff_of_true h fun hf => by simp [hended] at hf, fun _ => hb⟩
  | false =>
    cases hd : direction e.c with
    | none =>
      rw [step_prompts hended hd, accounted_prompts_iff h]
      exact ⟨by simp [Sound, hended, hd], fun _ => prompts_tiles hb e⟩
    | some d =>
      have hsound : Sound g e ↔ ∀ l ∈ lines d g.board, ¬Collides l := by
        simp [Sound, hended, hd, restarts_direction hd]
      have hscore := score_le hb h
      have hlt : g.score < 4294967296 := by omega
      have htiles := gameTiles_move (d := d) hlt hb
      rw [hsound]
      rcases step_move hended hd with heq | heq
      · rw [heq]
        exact ⟨accounted_move_iff hb h d, htiles⟩
      · rw [heq, accounted_afterMove]
        exact ⟨accounted_move_iff hb h d, fun hc => afterMove_tiles (htiles hc) e.added⟩

/-- The score is accounted for all along a run of the main loop exactly when no two tiles
32768 merge and every restart comes at score 0. -/
theorem accounted_iff (first second : Nat × Nat) (es : List Turn) :
    Along step Accounted (start first second) es ↔ Meets step Sound (start first second) es :=
  along_iff_meets (fun _ e hb h _ => ⟨fun hs => ⟨(step_spec hb h e).2 hs, (step_spec hb h e).1.mpr hs⟩,
      (step_spec hb h e).1.mp⟩)
    (restart_tiles _ first second) ((accounted_restart ..).mpr rfl)
    (meets_of_forall (fun _ _ => trivial) _ _)

/-- Two tiles 2 are merged into a 4, and a new game begins with 4 points. -/
theorem restart_keeps_score :
    let key (c : Char) : Turn := ⟨c, 'n', 'y', (0, 0), (0, 0), (0, 0)⟩
    let g := [key 'w', key 'r'].foldl step (start (0, 0) (0, 0))
    Accounted ([key 'w'].foldl step (start (0, 0) (0, 0))) ∧ total worth g.board = 0 ∧
      g.fours = 0 ∧ g.score = 4 ∧ ¬Accounted g := by
  decide +kernel

end GokuStudio.Game2048

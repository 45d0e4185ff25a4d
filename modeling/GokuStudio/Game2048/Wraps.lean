import GokuStudio.Game2048.Slide

/-!
# 2048: merges that do not fit

Two tiles whose sum wraps around in `uint16_t` are merged all the same, and the tiles
after them are placed by other rules than those of `merge`. What the loop does then is
followed by what every turn does (`R`) and what a turn with such a merge does (`S`).
The first use is the sum of the tiles, which a merge conserves unless it wraps.
-/

namespace GokuStudio.Game2048

open List

/-- `S` is what remains of a loop with one turn that wraps, `R` of any loop. -/
structure Wraps (R S : Slide → Slide → Prop) : Prop where
  refl : ∀ s, R s s
  trans : ∀ s₁ s₂ s₃, R s₁ s₂ → R s₂ s₃ → R s₁ s₃
  left : ∀ s₁ s₂ s₃, R s₁ s₂ → S s₂ s₃ → S s₁ s₃
  right : ∀ s₁ s₂ s₃, S s₁ s₂ → R s₂ s₃ → S s₁ s₃
  turn : ∀ s x, x < s.array.length → R s (slideStep s x)
  wrap : ∀ s x t, t < x → x < s.array.length → s.array.getD t 0 = s.array.getD x 0 →
    65536 ≤ s.array.getD t 0 + s.array.getD x 0 → S s (s.moveTo x t)

namespace Follows

variable {score z v : Nat} {m : Joined} {rest : List Nat} {s : Slide} {R S : Slide → Slide → Prop}

theorem length_array (h : Follows score m z rest s) : s.array.length = m.placed.length + z + rest.length := by
  simp [h.array, line, Nat.add_assoc]

theorem add_overflow (hRS : Wraps R S) (h : Follows score m z (v :: rest) s) (hv : v ≠ 0)
    (hmade : ∀ w ∈ m.made, w < 65536) (hover : ∃ w ∈ (m.add v).made, 65536 ≤ w) :
    S s (slideStep s (m.placed.length + z)) := by
  obtain ⟨w, hw, hle⟩ := hover
  by_cases hj : m.fresh = true ∧ m.placed.getLast? = some v
  · obtain ⟨init, made, rfl⟩ := Joined.eq_join hj.1 hj.2
    have hwv : w = v + v := by
      rw [add_join, mem_append, mem_singleton] at hw
      rcases hw with hw | hw
      · exact absurd (hmade w hw) (by omega)
      · exact hw
    have hlen : s.array.length = init.length + 1 + z + (rest.length + 1) := by
      simpa using h.length_array
    rw [length_append, length_singleton, h.join_eq hv]
    refine hRS.wrap s _ _ (by omega) (by omega) ?_ ?_
    · rw [h.at_join, h.at_last]
    · rw [h.at_join, h.at_last]
      omega
  · rw [add_place fun hf hl => hj ⟨hf, hl⟩] at hw
    exact absurd (hmade w hw) (by omega)

theorem run_overflow (hRS : Wraps R S) (h : Follows score m z rest s)
    (hrest : ∀ v ∈ rest, v < 65536) (hmade : ∀ w ∈ m.made, w < 65536)
    (hover : ∃ w ∈ ((tiles rest).foldl Joined.add m).made, 65536 ≤ w) :
    S s ((range' (m.placed.length + z) rest.length).foldl slideStep s) := by
  induction rest generalizing m z s with
  | nil =>
    obtain ⟨w, hw, hle⟩ := hover
    exact absurd (hmade w hw) (by omega)
  | cons v rest ih =>
    have hrest' := (forall_mem_cons.mp hrest).2
    have hlen := h.length_array
    have hturn := hRS.turn s (m.placed.length + z) (by simp [hlen])
    rw [length_cons, range'_succ, foldl_cons]
    by_cases hv : v = 0
    · subst hv
      rw [tiles_zero_cons] at hover
      exact hRS.left _ _ _ hturn (ih h.skip hrest' hmade hover)
    rw [tiles_cons hv, foldl_cons] at hover
    by_cases hsmall : ∀ w ∈ (m.add v).made, w < 65536
    · obtain ⟨z1, hz1, hnext⟩ := h.add hv (hrest v mem_cons_self) hsmall
      have hrun := ih hnext hrest' hsmall hover
      rw [hz1] at hrun
      exact hRS.left _ _ _ hturn hrun
    -- this is the turn; after it the line is no longer that of the merge
    simp only [not_forall, Nat.not_lt, exists_prop] at hsmall
    refine hRS.right _ _ _ (h.add_overflow hRS hv hmade hsmall) ?_
    refine foldl_slideStep hRS.refl hRS.trans hRS.turn _ _ _ ?_
    rw [length_slideStep, hlen, length_cons]
    omega

end Follows

theorem slideArray_any {R S : Slide → Slide → Prop} (hRS : Wraps R S) (row : List Nat)
    (score : Nat) : R ⟨row, score, 0, false⟩ (slideArray row score) := by
  rw [slideArray, range_eq_range']
  exact foldl_slideStep hRS.refl hRS.trans hRS.turn _ _ _ (by simp)

theorem slideArray_wraps {R S : Slide → Slide → Prop} (hRS : Wraps R S) {row : List Nat}
    {score : Nat} (hrow : ∀ v ∈ row, v < 65536) (hscore : score < 4294967296)
    (hover : ∃ w ∈ merged (tiles row), 65536 ≤ w) :
    S ⟨row, score, 0, false⟩ (slideArray row score) := by
  rw [← made_eq_merged] at hover
  rw [slideArray, range_eq_range']
  exact (follows_start hscore).run_overflow hRS hrow (by simp [Joined.start]) hover

/-! ## The sum of the tiles -/

theorem tally_map (f : Nat → Nat) (k : Nat) (l : List Nat) : tally (fun _ v => f v) k l = (l.map f).sum := by
  induction l generalizing k with
  | nil => rfl
  | cons v vs ih => rw [tally, ih, map_cons, sum_cons]

theorem sum_moveTo (f : Nat → Nat) {s : Slide} {x t : Nat} (ht : t < x)
    (hx : x < s.array.length) :
    ((s.moveTo x t).array.map f).sum + f (s.array.getD t 0) + f (s.array.getD x 0) =
      (s.array.map f).sum + f (uint16 (s.array.getD t 0 + s.array.getD x 0)) + f 0 := by
  have h := tally_moveTo (f := fun _ v => f v) ht hx
  rwa [tally_map, tally_map] at h

theorem wraps_sum : Wraps (fun s s' => s'.array.sum ≤ s.array.sum)
    (fun s s' => s'.array.sum < s.array.sum) where
  refl _ := Nat.le_refl _
  trans _ _ _ h1 h2 := Nat.le_trans h2 h1
  left _ _ _ h1 h2 := Nat.lt_of_lt_of_le h2 h1
  right _ _ _ h1 h2 := Nat.lt_of_le_of_lt h2 h1
  turn s x hx := by
    rcases slideStep_cases s x with h | ⟨t, ht, -, -, h⟩
    · exact Nat.le_of_eq (by rw [h])
    have hsum := sum_moveTo id ht hx
    have hle : uint16 (s.array.getD t 0 + s.array.getD x 0) ≤ s.array.getD t 0 + s.array.getD x 0 := Nat.mod_le ..
    simp only [map_id, id_eq] at hsum
    rw [h]
    omega
  wrap s x t ht hx _ hle := by
    have hsum := sum_moveTo id ht hx
    have hwrap : uint16 (s.array.getD t 0 + s.array.getD x 0) < s.array.getD t 0 + s.array.getD x 0 := by
      rw [uint16]
      omega
    simp only [map_id, id_eq] at hsum
    omega

/-- `f` over the line after the merges, for an `f` that a merge changes by `g`. -/
theorem sum_merge {f g : Nat → Nat} {ts : List Nat} (hf : ∀ a ∈ ts, f (a + a) = f a + f a + g (a + a)) :
    ((merge ts).map f).sum = (ts.map f).sum + ((merged ts).map g).sum := by
  fun_induction merge ts with
  | case1 | case2 a => rfl
  | case3 a rest ih =>
    have hrest := ih fun c hc => hf c (by simp [hc])
    have ha := hf a (by simp)
    rw [merged, if_pos rfl]
    simp only [map_cons, sum_cons]
    omega
  | case4 a b rest hab ih =>
    have hrest := ih (forall_mem_cons.mp hf).2
    rw [merged, if_neg hab]
    simp only [map_cons, sum_cons] at hrest ⊢
    omega

theorem sum_tiles {f : Nat → Nat} (hf : f 0 = 0) (row : List Nat) : ((tiles row).map f).sum = (row.map f).sum := by
  induction row with
  | nil => rfl
  | cons v row ih =>
    by_cases hv : v = 0
    · subst hv
      rw [tiles_zero_cons, ih, map_cons, sum_cons, hf, Nat.zero_add]
    · rw [tiles_cons hv, map_cons, map_cons, sum_cons, sum_cons, ih]

theorem sum_slid {f g : Nat → Nat} {row : List Nat} (hf : f 0 = 0)
    (hfg : ∀ a ∈ tiles row, f (a + a) = f a + f a + g (a + a)) :
    ((slid row).map f).sum = (row.map f).sum + ((merged (tiles row)).map g).sum := by
  rw [slid, map_append, sum_append, sum_merge hfg, sum_tiles hf, map_replicate, hf]
  simp

theorem sum_slideArray_iff {row : List Nat} {score : Nat} (hrow : ∀ v ∈ row, v < 65536)
    (hscore : score < 4294967296) :
    (slideArray row score).array.sum = row.sum ↔ ∀ w ∈ merged (tiles row), w < 65536 := by
  constructor
  · intro hsum w hw
    by_contra hle
    have hdrop := slideArray_wraps wraps_sum hrow hscore ⟨w, hw, Nat.le_of_not_lt hle⟩
    exact absurd hsum (Nat.ne_of_lt hdrop)
  · intro hsmall
    rw [(slideArray_follows hrow hscore hsmall).1]
    have h := @sum_slid id (fun _ => 0) row rfl (by simp)
    simpa [map_const'] using h

end GokuStudio.Game2048

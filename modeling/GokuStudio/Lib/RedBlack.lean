import GokuStudio.Lib.ColorTree

/-!
# Red-black trees, and trees that are nearly so

`Balanced t h` says that no red node of `t` has a red child and that all ways down meet `h`
black nodes. `Fits k h` says the same of everything around a position where a tree of that
height belongs.

An insertion puts a red node where perhaps only a black one fits. A deletion leaves a tree
that is one black node too low. The rest of the file says what the repairs of such a
position lead to.
-/

namespace GokuStudio.Lib

open List

namespace ColorTree
variable {α : Type} {t t' : ColorTree α} {h : Nat} {x : α} {k : List (Crumb α)} {d : Side}

/-! ## §1 What is wanted -/

/-- No red node has a red child. -/
def NoRedRed : ColorTree α → Prop
  | .leaf => True
  | .node c l _ r => (c = .red → l.color = .black ∧ r.color = .black) ∧ NoRedRed l ∧ NoRedRed r

/-- The colours on each way from the root to a leaf. -/
def paths : ColorTree α → List (List Color)
  | .leaf => [[]]
  | .node c l _ r => (l.paths ++ r.paths).map (c :: ·)

/-- A red-black tree: besides, its root is black, and all ways down meet the same number of
black nodes. -/
structure RedBlack (t : ColorTree α) : Prop where
  root : t.color = .black
  red : NoRedRed t
  black : ∃ h, ∀ way ∈ t.paths, way.count .black = h

/-! ## §2 Height -/

def Balanced : ColorTree α → Nat → Prop
  | .leaf, h => h = 0
  | .node .red l _ r, h => l.color = .black ∧ r.color = .black ∧ Balanced l h ∧ Balanced r h
  | .node .black l _ r, h => ∃ h', h = h' + 1 ∧ Balanced l h' ∧ Balanced r h'

theorem balanced_iff : Balanced t h ↔ NoRedRed t ∧ ∀ way ∈ t.paths, way.count .black = h := by
  induction t generalizing h with
  | leaf => simp [Balanced, NoRedRed, paths, eq_comm]
  | node c l x r ihl ihr =>
    cases c with
    | red =>
      simp only [Balanced, NoRedRed, paths, ihl, ihr, mem_map, mem_append]
      constructor
      · rintro ⟨hl, hr, ⟨hl1, hl2⟩, hr1, hr2⟩
        refine ⟨⟨fun _ => ⟨hl, hr⟩, hl1, hr1⟩, ?_⟩
        rintro way ⟨way', hway | hway, rfl⟩
        · exact (count_cons_of_ne (by decide)).trans (hl2 _ hway)
        · exact (count_cons_of_ne (by decide)).trans (hr2 _ hway)
      · rintro ⟨⟨hc, hl1, hr1⟩, hway⟩
        refine ⟨(hc trivial).1, (hc trivial).2, ⟨hl1, fun way h => ?_⟩, hr1, fun way h => ?_⟩
        · exact (count_cons_of_ne (by decide)).symm.trans (hway _ ⟨way, .inl h, rfl⟩)
        · exact (count_cons_of_ne (by decide)).symm.trans (hway _ ⟨way, .inr h, rfl⟩)
    | black =>
      simp only [Balanced, NoRedRed, paths, ihl, ihr, mem_map, mem_append]
      constructor
      · rintro ⟨h', rfl, ⟨hl1, hl2⟩, hr1, hr2⟩
        refine ⟨⟨nofun, hl1, hr1⟩, ?_⟩
        rintro way ⟨way', hway | hway, rfl⟩
        · rw [count_cons_self, hl2 _ hway]
        · rw [count_cons_self, hr2 _ hway]
      · rintro ⟨⟨-, hl1, hr1⟩, hway⟩
        obtain ⟨way0, hway0⟩ : ∃ way, way ∈ l.paths := by
          clear * -
          induction l with
          | leaf => exact ⟨[], mem_singleton_self _⟩
          | node c l x r ihl _ =>
            obtain ⟨way, h⟩ := ihl
            exact ⟨c :: way, mem_map_of_mem (mem_append_left _ h)⟩
        have hcount : ∀ way, way ∈ l.paths ∨ way ∈ r.paths → way.count .black + 1 = h := by
          intro way h
          rw [← hway _ ⟨way, h, rfl⟩, count_cons_self]
        have h0 := hcount way0 (.inl hway0)
        refine ⟨way0.count .black, h0.symm, ⟨hl1, fun way h => ?_⟩, hr1, fun way h => ?_⟩
        · have := hcount way (.inl h)
          omega
        · have := hcount way (.inr h)
          omega

theorem balanced_red : Balanced (join d .red t x t') h ↔
      t.color = .black ∧ t'.color = .black ∧ Balanced t h ∧ Balanced t' h := by
  cases d
  · exact Iff.rfl
  · rw [join, Balanced]
    tauto

theorem balanced_black : Balanced (join d .black t x t') (h + 1) ↔ Balanced t h ∧ Balanced t' h := by
  cases d
  · rw [join, Balanced]
    simp
  · rw [join, Balanced]
    simp [and_comm]

theorem balanced_black_pos (hblack : t.color = .black) (hbal : Balanced t (h + 1)) (d : Side) :
    ∃ near x far, t = join d .black near x far ∧ Balanced near h ∧ Balanced far h := by
  cases t with
  | leaf => cases hbal
  | node c l x r =>
    obtain rfl : c = .black := hblack
    obtain ⟨near, far, heq⟩ := exists_join d .black l x r
    rw [heq, balanced_black] at hbal
    exact ⟨near, x, far, heq, hbal⟩

theorem exists_red (hred : t.color = .red) (hbal : Balanced t h) (d : Side) :
    ∃ near x far, t = join d .red near x far ∧ near.color = .black ∧ far.color = .black ∧
      Balanced near h ∧ Balanced far h := by
  cases t with
  | leaf => cases hred
  | node c l x r =>
    obtain rfl : c = .red := hred
    obtain ⟨near, far, heq⟩ := exists_join d .red l x r
    rw [heq, balanced_red] at hbal
    exact ⟨near, x, far, heq, hbal⟩

theorem Balanced.blacken (hred : t.color = .red) (hbal : Balanced t h) : Balanced t.blacken (h + 1) := by
  obtain ⟨near, x, far, rfl, -, -, hnear, hfar⟩ := exists_red hred hbal .left
  rw [blacken_join, balanced_black]
  exact ⟨hnear, hfar⟩

/-! ## §3 Around a position -/

/-- The parent is black. -/
def HeadBlack : List (Crumb α) → Prop
  | [] => False
  | f :: _ => f.color = .black

def Fits : List (Crumb α) → Nat → Prop
  | [], _ => True
  | ⟨_, .red, _, sibling⟩ :: k, h =>
    sibling.color = .black ∧ Balanced sibling h ∧ HeadBlack k ∧ Fits k h
  | ⟨_, .black, _, sibling⟩ :: k, h => Balanced sibling h ∧ Fits k (h + 1)

theorem Fits.redBlack (hfits : Fits k h)
    (hbal : Balanced t h) (hcolor : t.color = .red → HeadBlack k) : RedBlack (plug k t) := by
  induction k generalizing t h with
  | nil =>
    obtain ⟨hred, hblack⟩ := balanced_iff.mp hbal
    refine ⟨?_, hred, h, hblack⟩
    cases hc : t.color with
    | red => exact (hcolor hc).elim
    | black => exact hc
  | cons f k ih =>
    obtain ⟨d, c, x, sibling⟩ := f
    cases c with
    | red =>
      obtain ⟨hsib, hsibBal, hhead, hk⟩ := hfits
      refine ih hk (balanced_red.mpr ⟨?_, hsib, hbal, hsibBal⟩) fun _ => hhead
      cases hc : t.color with
      | red => cases hcolor hc
      | black => rfl
    | black =>
      refine ih hfits.2 (balanced_black.mpr ⟨hbal, hfits.1⟩) ?_
      rw [color_join]
      nofun

theorem RedBlack.fits (h : RedBlack (plug k t)) : ∃ n, Fits k n ∧ Balanced t n ∧ (t.color = .red → HeadBlack k) := by
  induction k generalizing t with
  | nil =>
    obtain ⟨n, hblack⟩ := h.black
    refine ⟨n, trivial, balanced_iff.mpr ⟨h.red, hblack⟩, fun hred => ?_⟩
    have hroot : t.color = .black := h.root
    rw [hroot] at hred
    cases hred
  | cons f k ih =>
    obtain ⟨d, c, x, sibling⟩ := f
    obtain ⟨n, hfits, hbal, hcolor⟩ := ih h
    cases c with
    | red =>
      obtain ⟨ht, hsib, htBal, hsibBal⟩ := balanced_red.mp hbal
      refine ⟨n, ⟨hsib, hsibBal, hcolor (color_join _ _ _ _ _), hfits⟩, htBal, fun hred => ?_⟩
      rw [ht] at hred
      cases hred
    | black =>
      cases n with
      | zero =>
        cases d <;> obtain ⟨h', h0, -⟩ := hbal <;> cases h0
      | succ n =>
        obtain ⟨htBal, hsibBal⟩ := balanced_black.mp hbal
        exact ⟨n, ⟨hsibBal, hfits⟩, htBal, fun _ => rfl⟩

/-! ## §4 After an insertion: a red node below a red one -/

section Insertion
variable {e : Side} {uncle sibling : ColorTree α} {y : α}

/-- With a red uncle the trouble moves up. -/
theorem insert_recolor (hfits : Fits (⟨d, .red, x, sibling⟩ :: ⟨e, .black, y, uncle⟩ :: k) h)
    (hbal : Balanced t h) (huncle : uncle.color = .red) :
    Fits k (h + 1) ∧ Balanced (join e .red (join d .black t x sibling) y uncle.blacken) (h + 1) := by
  obtain ⟨-, hsib, -, huncleBal, hk⟩ := hfits
  refine ⟨hk, balanced_red.mpr ⟨color_join _ _ _ _ _, color_blacken _, ?_, huncleBal.blacken huncle⟩⟩
  exact balanced_black.mpr ⟨hbal, hsib⟩

/-- With a black one a rotation ends it. -/
theorem insert_rotate (hfits : Fits (⟨d, .red, x, sibling⟩ :: ⟨d, .black, y, uncle⟩ :: k) h)
    (hbal : Balanced t h) (huncle : uncle.color = .black) :
    RedBlack (plug k (join d .black t x (join d .red sibling y uncle))) := by
  obtain ⟨hsib, hsibBal, -, huncleBal, hk⟩ := hfits
  refine hk.redBlack (balanced_black.mpr ⟨hbal, balanced_red.mpr ⟨hsib, huncle, hsibBal, huncleBal⟩⟩) ?_
  rw [color_join]
  nofun

end Insertion

/-! ## §5 After a deletion: a tree that is too low -/

/-- One black node more is wanted. A red node can give it by its colour. -/
def Lacks (t : ColorTree α) (h : Nat) : Prop :=
  (t.color = .black ∧ Balanced t h) ∨ (t.color = .red ∧ Balanced t.blacken (h + 1))

theorem Balanced.lacks (hbal : Balanced t h) : Lacks t h := by
  cases hc : t.color with
  | black => exact .inl ⟨hc, hbal⟩
  | red => exact .inr ⟨hc, hbal.blacken hc⟩

section Deletion
variable {c : Color} {near far sibling : ColorTree α} {p w y : α}

theorem Lacks.redBlack (hlacks : Lacks t h) (hfits : Fits k (h + 1)) (hend : k = [] ∨ t.color = .red) :
    RedBlack (plug k t.blacken) := by
  have hblack : t.blacken.color = .red → HeadBlack k := by
    rw [color_blacken]
    nofun
  rcases hlacks with ⟨hc, hbal⟩ | ⟨hc, hbal⟩
  · rcases hend with rfl | hred
    · exact Fits.redBlack trivial (by rwa [blacken_of_black hc]) hblack
    · rw [hc] at hred
      cases hred
  · exact hfits.redBlack hbal hblack

/-- A sibling exists. -/
theorem fits_sibling (hfits : Fits (⟨d, c, p, sibling⟩ :: k) (h + 1)) : Balanced sibling (h + 1) := by
  cases c with
  | red => exact hfits.2.1
  | black => exact hfits.1

/-- A red sibling is rotated up. -/
theorem delete_redSibling (hfits : Fits (⟨d, c, p, join d .red near w far⟩ :: k) (h + 1)) :
    c = .black ∧ Fits (⟨d, .red, p, near⟩ :: ⟨d, .black, w, far⟩ :: k) (h + 1) := by
  cases c with
  | red =>
    have hsib := hfits.1
    rw [color_join] at hsib
    cases hsib
  | black =>
    obtain ⟨hsib, hk⟩ := hfits
    obtain ⟨hnear, -, hnearBal, hfarBal⟩ := balanced_red.mp hsib
    exact ⟨rfl, hnear, hnearBal, rfl, hfarBal, hk⟩

/-- A black sibling with black children gives up its colour. -/
theorem delete_recolor (hfits : Fits (⟨d, c, p, join d .black near w far⟩ :: k) (h + 1))
    (hbal : Balanced t h) (hnear : near.color = .black) (hfar : far.color = .black) :
    ∃ h', Lacks (join d c t p (join d .red near w far)) h' ∧ Fits k (h' + 1) := by
  obtain ⟨hnearBal, hfarBal⟩ := balanced_black.mp (fits_sibling hfits)
  have hred : Balanced (join d .red near w far) h := balanced_red.mpr ⟨hnear, hfar, hnearBal, hfarBal⟩
  cases c with
  | red =>
    refine ⟨h, .inr ⟨color_join _ _ _ _ _, ?_⟩, hfits.2.2.2⟩
    rw [blacken_join, balanced_black]
    exact ⟨hbal, hred⟩
  | black =>
    exact ⟨h + 1, .inl ⟨color_join _ _ _ _ _, balanced_black.mpr ⟨hbal, hred⟩⟩, hfits.2⟩

/-- A red child on the near side is rotated to the far side. -/
theorem delete_nearRed {a b : ColorTree α}
    (hfits : Fits (⟨d, c, p, join d .black (join d .red a y b) w far⟩ :: k) (h + 1))
    (hfar : far.color = .black) :
    Fits (⟨d, c, p, join d .black a y (join d .red b w far)⟩ :: k) (h + 1) := by
  obtain ⟨hnearBal, hfarBal⟩ := balanced_black.mp (fits_sibling hfits)
  obtain ⟨-, hb, haBal, hbBal⟩ := balanced_red.mp hnearBal
  have hnew : Balanced (join d .black a y (join d .red b w far)) (h + 1) :=
    balanced_black.mpr ⟨haBal, balanced_red.mpr ⟨hb, hfar, hbBal, hfarBal⟩⟩
  cases c with
  | red => exact ⟨color_join _ _ _ _ _, hnew, hfits.2.2⟩
  | black => exact ⟨hnew, hfits.2⟩

/-- With a red child on the far side a rotation ends it. -/
theorem delete_rotate (hfits : Fits (⟨d, c, p, join d .black near w far⟩ :: k) (h + 1))
    (hbal : Balanced t h) (hfar : far.color = .red) :
    RedBlack (plug k (join d c (join d .black t p near) w far.blacken)) := by
  obtain ⟨hnearBal, hfarBal⟩ := balanced_black.mp (fits_sibling hfits)
  have hlow : Balanced (join d .black t p near) (h + 1) := balanced_black.mpr ⟨hbal, hnearBal⟩
  have hfarBal' := hfarBal.blacken hfar
  cases c with
  | red =>
    refine hfits.2.2.2.redBlack (balanced_red.mpr ⟨?_, color_blacken _, hlow, hfarBal'⟩) fun _ => hfits.2.2.1
    exact color_join _ _ _ _ _
  | black =>
    refine hfits.2.redBlack (balanced_black.mpr ⟨hlow, hfarBal'⟩) ?_
    rw [color_join]
    nofun

/-- The one child of a node gets its place. -/
theorem delete_only (hrb : RedBlack (plug k (join d c t x .leaf))) :
    ∃ h, Balanced t h ∧ (c = .red → Fits k h ∧ t.color = .black) ∧ (c = .black → Fits k (h + 1)) := by
  obtain ⟨h, hfits, hbal, hcolor⟩ := RedBlack.fits (k := ⟨d, c, x, .leaf⟩ :: k) hrb
  refine ⟨h, hbal, ?_, ?_⟩
  · rintro rfl
    refine ⟨hfits.2.2.2, ?_⟩
    cases ht : t.color with
    | red => cases hcolor ht
    | black => rfl
  · rintro rfl
    exact hfits.2

/-- The elements do not count. -/
theorem fits_item {k' : List (Crumb α)} (y : α) (hfits : Fits (k ++ ⟨d, c, x, sibling⟩ :: k') h) :
    Fits (k ++ ⟨d, c, y, sibling⟩ :: k') h := by
  induction k generalizing h with
  | nil => cases c <;> exact hfits
  | cons f k ih =>
    obtain ⟨e, b, z, t⟩ := f
    cases b with
    | black => exact ⟨hfits.1, ih hfits.2⟩
    | red =>
      refine ⟨hfits.1, hfits.2.1, ?_, ih hfits.2.2.2⟩
      have hhead := hfits.2.2.1
      cases k <;> exact hhead

end Deletion
end ColorTree
end GokuStudio.Lib

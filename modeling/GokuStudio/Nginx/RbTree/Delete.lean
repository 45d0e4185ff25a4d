import GokuStudio.Nginx.RbTree.Insert

/-!
# Deletion keeps a red-black tree

A node with two children changes places with the next node in the order, so that the place
that is given up has one child at most. That child moves up. If a black node is gone, the
subtree there is too low, and the loop moves this up or ends it by rotations.

The subtree may be the sentinel. Its parent pointer is set for this time, since the loop
starts from it.
-/

namespace GokuStudio.Nginx.RbTree

open Lib ColorTree Rbtree
open Option hiding join
open List hiding after

variable {w : Nat} {s : Rbtree w} {top : Addr} {k : List (Crumb (Item w))}

/-! ## §1 One turn of the repair -/

variable {f : Crumb (Item w)} {s' : Rbtree w}

section Repair
variable {d : Side} {c : Color} {t near far sibling : ColorTree (Item w)} {x y z : Item w}

/-- The parent pointer at a position, the sentinel's included. -/
theorem parent_kept (h : At s' top (f :: k) t) (hkeeps : Keeps s s')
    (hparent : s.parent (ptr s.sentinel t) = some f.item.addr) :
    s'.parent (ptr s'.sentinel t) = some f.item.addr := by
  cases t with
  | leaf => exact hkeeps.parent.trans hparent
  | node c l y r => exact h.parent_ptr node_ne_leaf

theorem raiseSibling_black (h : At s top (⟨d, c, x, sibling⟩ :: k) t) (hblack : sibling.color = .black)
    (temp : Addr) : raiseSibling d s temp (ptr s.sentinel sibling) = some (s, ptr s.sentinel sibling) := by
  rw [raiseSibling, h.sibling.color_ptr, hblack]
  rfl

theorem raiseSibling_red (h : At s top (⟨d, c, x, join d .red near y far⟩ :: k) t)
    (hparent : s.parent (ptr s.sentinel t) = some x.addr) :
    ∃ s', raiseSibling d s (ptr s.sentinel t) y.addr = some (s', ptr s'.sentinel near) ∧
      At s' top (⟨d, .red, x, near⟩ :: ⟨d, .black, y, far⟩ :: k) t ∧ Keeps s s' := by
  have hcolor := h.sibling.color_at
  obtain ⟨s1, hset1, hy1, hkeeps1⟩ := h.sibling.setColor .black
  have hparent1 := parent_kept hy1.back hkeeps1 hparent
  obtain ⟨s2, hset2, hx2, hkeeps2⟩ := (at_crumb.mp hy1.back).setColor .red
  obtain ⟨s3, hset3, hx3, hkeeps3⟩ := hx2.rotate
  have hkeeps := hkeeps1.trans (hkeeps2.trans hkeeps3)
  have ht3 : At s3 top (⟨d, .red, x, near⟩ :: ⟨d, .black, y, far⟩ :: k) t := at_crumb.mpr (at_crumb.mpr hx3)
  have hparent3 := parent_kept ht3 hkeeps hparent
  rw [hkeeps1.sentinel] at hparent1
  rw [hkeeps.sentinel] at hparent3
  refine ⟨s3, ?_, ht3, hkeeps⟩
  simp only [raiseSibling, hcolor, bind_eq_bind, bind_some, hset1, hparent1, hset2, hset3, hparent3,
    (at_crumb.mp ht3).far]

variable (h : At s top (⟨d, c, x, join d .black near y far⟩ :: k) t)
include h

/-- The colours of the two children, left and right. -/
theorem settle_colors :
    ∃ left right leftColor rightColor, s.child .left y.addr = some left ∧ s.color left = some leftColor ∧
      s.child .right y.addr = some right ∧ s.color right = some rightColor ∧
      (leftColor = .black ∧ rightColor = .black ↔ near.color = .black ∧ far.color = .black) := by
  have hy := h.sibling
  have hnear := at_crumb.mpr hy
  have hmem := hy.mem_join
  have hn := hnear.color_ptr
  have hf := hnear.sibling.color_ptr
  cases d with
  | left => exact ⟨_, _, _, _, child_eq hmem .left, hn, child_eq hmem .right, hf, Iff.rfl⟩
  | right => exact ⟨_, _, _, _, child_eq hmem .left, hf, child_eq hmem .right, hn, and_comm⟩

theorem settle_recolor (hparent : s.parent (ptr s.sentinel t) = some x.addr) (hnear : near.color = .black)
    (hfar : far.color = .black) :
    ∃ s', settle d s (ptr s.sentinel t) y.addr = some (s', x.addr) ∧
      At s' top k (join d c t x (join d .red near y far)) ∧ Keeps s s' := by
  obtain ⟨left, right, leftColor, rightColor, hl, hlc, hr, hrc, hiff⟩ := settle_colors h
  obtain ⟨s1, hset1, hy1, hkeeps1⟩ := h.sibling.setColor .red
  have hparent1 := parent_kept hy1.back hkeeps1 hparent
  rw [hkeeps1.sentinel] at hparent1
  refine ⟨s1, ?_, at_crumb.mp hy1.back, hkeeps1⟩
  simp only [settle, hl, hlc, hr, hrc, bind_eq_bind, bind_some]
  rw [if_pos (hiff.mpr ⟨hnear, hfar⟩)]
  simp only [hset1, hparent1, bind_some]

theorem raiseNear_red (hfar : far.color = .red) (temp : Addr) : raiseNear d s temp y.addr = some (s, y.addr) := by
  have hy := h.sibling
  have hf := (at_crumb.mpr hy).sibling.color_ptr
  rw [hfar] at hf
  simp only [raiseNear, hy.far, hf, bind_eq_bind, bind_some]

omit h

theorem raiseNear_black {a b : ColorTree (Item w)}
    (h : At s top (⟨d, c, x, join d .black (join d .red a z b) y far⟩ :: k) t)
    (hparent : s.parent (ptr s.sentinel t) = some x.addr) (hfar : far.color = .black) :
    ∃ s', raiseNear d s (ptr s.sentinel t) y.addr = some (s', z.addr) ∧
      At s' top (⟨d, c, x, join d .black a z (join d .red b y far)⟩ :: k) t ∧ Keeps s s' := by
  have hy := h.sibling
  have hn : At s top (⟨d, .black, y, far⟩ :: ⟨d.other, c, x, t⟩ :: k) (join d .red a z b) := at_crumb.mpr hy
  have hf := hn.sibling.color_ptr
  have hnear := hy.near
  rw [hfar] at hf
  rw [ptr_join] at hnear
  obtain ⟨s1, hset1, hn1, hkeeps1⟩ := hn.setColor .black
  obtain ⟨s2, hset2, hy2, hkeeps2⟩ := (at_crumb.mp hn1).setColor .red
  have hy2' : At s2 top (⟨d.other, c, x, t⟩ :: k) (join d.other .red far y (join d.other .black b z a)) := by
    rw [join_other, join_other]
    exact hy2
  obtain ⟨s3, hset3, hz3, hkeeps3⟩ := hy2'.rotate
  rw [join_other, join_other] at hz3
  have hkeeps := hkeeps1.trans (hkeeps2.trans hkeeps3)
  have hparent3 := parent_kept hz3.back hkeeps hparent
  have hchild3 := (at_crumb.mp hz3.back).far
  rw [hkeeps.sentinel] at hparent3
  rw [ptr_join] at hchild3
  refine ⟨s3, ?_, hz3.back, hkeeps⟩
  simp only [raiseNear, hy.far, hf, hnear, bind_eq_bind, bind_some, hset1, hset2, hset3, hparent3, hchild3]

theorem deleteFinish_spec (h : At s top (⟨d, c, x, join d .black near y far⟩ :: k) t)
    (hparent : s.parent (ptr s.sentinel t) = some x.addr) :
    ∃ s', deleteFinish d s (ptr s.sentinel t) y.addr = some (s', s'.root) ∧
      At s' top k (join d c (join d .black t x near) y far.blacken) ∧ Keeps s s' := by
  obtain ⟨s1, hset1, hy1, hkeeps1⟩ := h.sibling.setColor c
  obtain ⟨s2, hset2, hx2, hkeeps2⟩ := (at_crumb.mp hy1.back).setColor .black
  have hy2 := (at_crumb.mpr hx2).sibling
  obtain ⟨s3, hset3, hf3, hkeeps3⟩ := (at_crumb.mpr hy2).sibling.blacken
  have ht3 := (at_crumb.mp hf3.back).back
  obtain ⟨s4, hset4, hy4, hkeeps4⟩ := (at_crumb.mp ht3).rotate
  refine ⟨s4, ?_, hy4, hkeeps1.trans (hkeeps2.trans (hkeeps3.trans hkeeps4))⟩
  simp only [deleteFinish, hparent, (at_crumb.mp h).color_at, hset1, hset2, hy2.far, hset3, hset4, bind_eq_bind, bind_some]

/-- With a red child the repair is done. -/
theorem settle_rotate {h : Nat} (hat : At s top (⟨d, c, x, join d .black near y far⟩ :: k) t)
    (hparent : s.parent (ptr s.sentinel t) = some x.addr) (hbal : Balanced t h)
    (hfits : Fits (⟨d, c, x, join d .black near y far⟩ :: k) (h + 1))
    (hred : ¬ (near.color = .black ∧ far.color = .black)) :
    ∃ s' t', settle d s (ptr s.sentinel t) y.addr = some (s', s'.root) ∧ At s' top [] t' ∧ RedBlack t' ∧
      t'.inorder = (plug (⟨d, c, x, join d .black near y far⟩ :: k) t).inorder ∧ Keeps s s' := by
  obtain ⟨left, right, leftColor, rightColor, hl, hlc, hr, hrc, hiff⟩ := settle_colors hat
  simp only [settle, hl, hlc, hr, hrc, bind_eq_bind, bind_some]
  rw [if_neg fun hboth => hred (hiff.mp hboth)]
  cases hfar : far.color with
  | red =>
    obtain ⟨s1, hset1, hy1, hkeeps1⟩ := deleteFinish_spec hat hparent
    refine ⟨s1, _, ?_, at_plug.mp (by rwa [append_nil]), delete_rotate hfits hbal hfar, ?_, hkeeps1⟩
    · rw [raiseNear_red hat hfar]
      exact hset1
    · rw [plug]
      refine inorder_plug_congr ?_
      cases d <;> simp [join, inorder]
  | black =>
    have hnear : near.color = .red := by
      cases hn : near.color with
      | red => rfl
      | black => exact absurd ⟨hn, hfar⟩ hred
    obtain ⟨a, z, b, rfl, -⟩ := exists_red hnear (balanced_black.mp (fits_sibling hfits)).1 d
    obtain ⟨s1, hset1, ht1, hkeeps1⟩ := raiseNear_black hat hparent hfar
    have hparent1 := parent_kept ht1 hkeeps1 hparent
    obtain ⟨s2, hset2, hy2, hkeeps2⟩ := deleteFinish_spec ht1 hparent1
    have hfits1 := delete_nearRed hfits hfar
    rw [hkeeps1.sentinel] at hset2
    refine ⟨s2, _, ?_, at_plug.mp (by rwa [append_nil]),
      delete_rotate hfits1 hbal (color_join _ _ _ _ _), ?_, hkeeps1.trans hkeeps2⟩
    · rw [hset1]
      exact hset2
    · rw [plug]
      refine inorder_plug_congr ?_
      cases d <;> simp [join, inorder, blacken]

end Repair

/-! ## §2 The loop -/

section Loop
variable {d : Side} {c : Color} {t near far sibling : ColorTree (Item w)} {x y : Item w} {h : Nat}

theorem deleteTurn_red (hat : At s top k t) (hred : t.color = .red) :
    deleteTurn (s, ptr s.sentinel t) = some (.inr (s, ptr s.sentinel t)) := by
  rw [deleteTurn]
  split_ifs
  · rfl
  · simp only [hat.color_ptr, hred, bind_eq_bind, bind_some]

/-- The subtree is the left or the right child of its parent. -/
theorem deleteTurn_black (hat : At s top (⟨d, c, x, sibling⟩ :: k) t) (hblack : t.color = .black)
    (hparent : s.parent (ptr s.sentinel t) = some x.addr) (hsib : sibling ≠ .leaf) :
    deleteTurn (s, ptr s.sentinel t) = (deleteRepair d s (ptr s.sentinel t)).map .inl := by
  obtain ⟨left, hleft, hside⟩ := hat.side (.inr hsib)
  rw [deleteTurn, if_neg hat.root_cons]
  simp only [hat.color_ptr, hblack, bind_eq_bind, bind_some, hparent, hleft, hside]

/-- What the loop and the last statement lead to. -/
def Repaired (s : Rbtree w) (top temp : Addr) (items : List (Item w)) : Prop :=
  ∃ s' t', (loop deleteTurn (s, temp)).bind (fun c => c.1.setColor c.2 .black) = some s' ∧
    At s' top [] t' ∧ RedBlack t' ∧ t'.inorder = items ∧ s'.sentinel = s.sentinel

/-- The loop stops at the root or at a red node. -/
theorem repaired_stop (hat : At s top k t)
    (hturn : deleteTurn (s, ptr s.sentinel t) = some (.inr (s, ptr s.sentinel t))) (hlacks : Lacks t h)
    (hfits : Fits k (h + 1)) (hend : k = [] ∨ t.color = .red) :
    Repaired s top (ptr s.sentinel t) (plug k t).inorder := by
  obtain ⟨s', hset, hat', hkeeps⟩ := hat.blacken
  refine ⟨s', plug k t.blacken, ?_, at_plug.mp (by rwa [append_nil]), hlacks.redBlack hfits hend,
    inorder_plug_congr (inorder_blacken t), hkeeps.sentinel⟩
  rw [loop_done hturn]
  exact hset

theorem repaired_root (hat : At s top [] t) (hrb : RedBlack t) : Repaired s top s.root t.inorder := by
  obtain ⟨h, -, hbal, -⟩ := RedBlack.fits (k := []) hrb
  rw [← hat.root_nil]
  exact repaired_stop hat (if_pos hat.root_nil) hbal.lacks trivial (.inl rfl)

theorem Repaired.step {temp temp' : Addr} {items : List (Item w)}
    (hturn : deleteTurn (s, temp) = some (.inl (s', temp'))) (hkeeps : Keeps s s')
    (hrep : Repaired s' top temp' items) : Repaired s top temp items := by
  obtain ⟨s'', t', hloop, hat, hrb, hinorder, hsentinel⟩ := hrep
  refine ⟨s'', t', ?_, hat, hrb, hinorder, hsentinel.trans hkeeps.sentinel⟩
  rw [loop_next hturn]
  exact hloop

theorem inorder_recolor (e e' : Color) : (plug (⟨d, c, x, join d e near y far⟩ :: k) t).inorder =
    (plug k (join d c t x (join d e' near y far))).inorder := by
  rw [plug]
  refine inorder_plug_congr ?_
  cases d <;> simp [join, inorder]

/-- What the repair with a black sibling comes to, if the loop can go on from above. -/
theorem settle_spec {temp : Addr} (hat : At s top (⟨d, c, x, join d .black near y far⟩ :: k) t)
    (hparent : s.parent (ptr s.sentinel t) = some x.addr) (hbal : Balanced t h)
    (hfits : Fits (⟨d, c, x, join d .black near y far⟩ :: k) (h + 1)) {s0 : Rbtree w} (hkeeps0 : Keeps s0 s)
    (hturn : deleteTurn (s0, temp) = (settle d s (ptr s.sentinel t) y.addr).map .inl)
    (hnext : ∀ {s' h'}, At s' top k (join d c t x (join d .red near y far)) →
      Lacks (join d c t x (join d .red near y far)) h' → Fits k (h' + 1) →
      Repaired s' top x.addr (plug k (join d c t x (join d .red near y far))).inorder) :
    Repaired s0 top temp (plug (⟨d, c, x, join d .black near y far⟩ :: k) t).inorder := by
  by_cases hboth : near.color = .black ∧ far.color = .black
  · obtain ⟨s1, hset, hat1, hkeeps⟩ := settle_recolor hat hparent hboth.1 hboth.2
    obtain ⟨h', hlacks1, hfits1⟩ := delete_recolor hfits hbal hboth.1 hboth.2
    rw [hset] at hturn
    refine Repaired.step hturn (hkeeps0.trans hkeeps) ?_
    rw [inorder_recolor .black .red]
    exact hnext hat1 hlacks1 hfits1
  · obtain ⟨s1, t1, hset, hat1, hrb, hinorder, hkeeps⟩ := settle_rotate hat hparent hbal hfits hboth
    rw [hset] at hturn
    refine Repaired.step hturn (hkeeps0.trans hkeeps) ?_
    rw [← hinorder]
    exact repaired_root hat1 hrb

theorem delete_loop : ∀ {k : List (Crumb (Item w))} {s : Rbtree w} {t : ColorTree (Item w)} {h : Nat},
    At s top k t → (∀ f k', k = f :: k' → s.parent (ptr s.sentinel t) = some f.item.addr) → Lacks t h →
    Fits k (h + 1) → Repaired s top (ptr s.sentinel t) (plug k t).inorder := by
  intro k
  induction k with
  | nil =>
    intro s t h hat _ hlacks hfits
    exact repaired_stop hat (if_pos hat.root_nil) hlacks hfits (.inl rfl)
  | cons f k ih =>
    intro s t h hat hup hlacks hfits
    obtain ⟨d, c, x, sibling⟩ := f
    have hparent : s.parent (ptr s.sentinel t) = some x.addr := hup _ _ rfl
    rcases hlacks with ⟨hblack, hbal⟩ | ⟨hred, hbal⟩
    · have hsibBal := fits_sibling hfits
      have hleaf : sibling ≠ .leaf := by
        rintro rfl
        cases hsibBal
      have hturn := deleteTurn_black hat hblack hparent hleaf
      have hchild := (at_crumb.mp hat).far
      cases hsib : sibling.color with
      | black =>
        obtain ⟨near, y, far, rfl, -, -⟩ := balanced_black_pos hsib hsibBal d
        have hrepair : deleteRepair d s (ptr s.sentinel t) = settle d s (ptr s.sentinel t) y.addr := by
          have hraise := raiseSibling_black hat hsib (ptr s.sentinel t)
          rw [ptr_join] at hchild hraise
          simp only [deleteRepair, hparent, hchild, hraise, bind_eq_bind, bind_some]
        rw [hrepair] at hturn
        refine settle_spec hat hparent hbal hfits (.refl s) hturn fun {s1 h'} hat1 hlacks1 hfits1 => ?_
        have hnext := ih hat1 (fun f k' hk => ?_) hlacks1 hfits1
        · rwa [ptr_join] at hnext
        · subst hk
          exact hat1.parent_ptr join_ne_leaf
      | red =>
        obtain ⟨near, y, far, rfl, hnear, -, hnearBal, -⟩ := exists_red hsib hsibBal d
        obtain ⟨rfl, hfits1⟩ := delete_redSibling hfits
        obtain ⟨a, z, b, rfl, -, -⟩ := balanced_black_pos hnear hnearBal d
        obtain ⟨s1, hraise, hat1, hkeeps1⟩ := raiseSibling_red hat hparent
        have hparent1 := parent_kept hat1 hkeeps1 hparent
        have hrepair : deleteRepair d s (ptr s.sentinel t) = settle d s1 (ptr s1.sentinel t) z.addr := by
          rw [ptr_join] at hchild hraise
          rw [hkeeps1.sentinel]
          simp only [deleteRepair, hparent, hchild, hraise, bind_eq_bind, bind_some]
        rw [hrepair] at hturn
        have hinorder : (plug (⟨d, .red, x, join d .black a z b⟩ :: ⟨d, .black, y, far⟩ :: k) t).inorder =
            (plug (⟨d, .black, x, join d .red (join d .black a z b) y far⟩ :: k) t).inorder := by
          rw [plug, plug, plug]
          exact inorder_plug_congr (inorder_rotate _ _ _ _ _ _ _ _ _ _)
        rw [← hinorder]
        refine settle_spec hat1 hparent1 hbal hfits1 hkeeps1 hturn fun {s2 h'} hat2 hlacks2 hfits2 => ?_
        have hstop := repaired_stop hat2 (deleteTurn_red hat2 (color_join _ _ _ _ _)) hlacks2 hfits2
          (.inr (color_join _ _ _ _ _))
        rwa [ptr_join] at hstop
    · exact repaired_stop hat (deleteTurn_red hat hred) (.inr ⟨hred, hbal⟩) hfits (.inr hred)

end Loop

/-! ## §3 The place that is given up -/

variable {l r : ColorTree (Item w)}

section Unhook
variable {d : Side} {c : Color} {t u : ColorTree (Item w)} {x m : Item w}

/-- The leftmost node of a subtree. -/
theorem min_spec (h : At s top k t) (ht : t ≠ .leaf) :
    ∃ km c x r, t = plug km (.node c .leaf x r) ∧ (∀ f ∈ km, f.side = .left) ∧ min s (ptr s.sentinel t) = some x.addr := by
  induction t generalizing k with
  | leaf => exact absurd rfl ht
  | node c l x r ihl _ =>
    have hx : s.mem x.addr = some ⟨x.key, ptr s.sentinel l, ptr s.sentinel r, up top k, c⟩ := h.rep.1
    have hl : At s top (⟨.left, c, x, r⟩ :: k) l := at_crumb.mpr h
    have hchild := child_eq hx .left
    by_cases hleaf : l = .leaf
    · subst hleaf
      refine ⟨[], c, x, r, rfl, by simp, ?_⟩
      refine loop_done ?_
      show (s.child .left x.addr).map _ = _
      rw [hchild]
      exact congrArg some (if_pos rfl)
    obtain ⟨km, c', y, r', heq, hside, hmin⟩ := ihl hl hleaf
    refine ⟨km ++ [⟨.left, c, x, r⟩], c', y, r', ?_, ?_, ?_⟩
    · rw [plug_append, ← heq]
      rfl
    · intro f hf
      rcases mem_append.mp hf with hf | hf
      · exact hside f hf
      · rw [mem_singleton.mp hf]
    · refine (loop_next ?_).trans hmin
      show (s.child .left x.addr).map _ = _
      rw [hchild]
      exact congrArg some (if_neg (hl.ptr_ne_sentinel hleaf))

/-- A node with at most one child gives up its own place. -/
theorem substitute_only (h : At s top k (join d c u x .leaf)) :
    substitute s x.addr = some (x.addr, ptr s.sentinel u) := by
  have hx := h.mem_join
  have hl := child_eq hx .left
  have hr := child_eq hx .right
  simp only [substitute, hl, hr, bind_eq_bind, bind_some]
  cases d with
  | right => exact if_pos rfl
  | left =>
    show (if ptr s.sentinel u = s.sentinel then some (x.addr, s.sentinel) else _) = _
    split_ifs with hu hne
    · rw [hu]
    · rfl
    · exact absurd rfl hne

theorem setParent_spec {parent : Addr} (q : Addr) (h : Rep s t parent)
    (hnodup : (s.sentinel :: addrs t.inorder).Nodup) (hblack : s.color s.sentinel = some .black) :
    ∃ s', s.setParent (ptr s.sentinel t) q = some s' ∧ Rep s' t q ∧ s'.parent (ptr s.sentinel t) = some q ∧
      s'.color s.sentinel = some .black ∧ s'.sentinel = s.sentinel ∧ s'.root = s.root ∧
      ∀ p, p ≠ s.sentinel → p ∉ addrs t.inorder → s'.mem p = s.mem p := by
  rw [nodup_cons] at hnodup
  cases t with
  | leaf =>
    obtain ⟨n, hn, hc⟩ := map_eq_some_iff.mp hblack
    obtain ⟨s', hset, hw⟩ := write_parent hn q
    refine ⟨s', hset, trivial, parent_eq hw.self, ?_, hw.sentinel, hw.root, fun p hp _ => hw.others p hp⟩
    rw [color_eq hw.self]
    exact congrArg some hc
  | node c l x r =>
    have hx : x.addr ∈ addrs (ColorTree.node c l x r).inorder := by simp [inorder]
    obtain ⟨s', hset, hw⟩ := write_parent h.1 q
    refine ⟨s', hset, h.reparent hnodup.2 hw.sentinel ?_ fun p _ => hw.others p,
      parent_eq hw.self, ?_, hw.sentinel, hw.root, fun p _ hp => hw.others p ?_⟩
    · intro _ n hn
      rw [ptr, h.1] at hn
      cases hn
      exact hw.self
    · rw [Rbtree.color, hw.others _ (ne_of_mem_of_not_mem hx hnodup.1).symm]
      exact hblack
    · exact (ne_of_mem_of_not_mem hx hp).symm

/-- The child of a node moves up to its place, and has the parent `q` then. -/
theorem lift_child (h : At s top (f :: k) (join d c u x .leaf)) (q : Addr) :
    ∃ s1 s2, hang .left s x.addr (ptr s.sentinel u) = some s1 ∧ s1.parent x.addr = some f.item.addr ∧
      s1.setParent (ptr s.sentinel u) q = some s2 ∧ Around s2 top (f :: k) (ptr s.sentinel u) ∧ Rep s2 u q ∧
      s2.mem x.addr = s.mem x.addr ∧ s2.color s.sentinel = some .black ∧
      s2.parent (ptr s.sentinel u) = some q ∧ s2.sentinel = s.sentinel := by
  have hdistinct := h.distinct_join
  simp only [inorder, addrs, map_nil, nil_append] at hdistinct
  have hx := h.mem_join
  obtain ⟨-, hu, -⟩ := rep_join.mp h.rep
  have hsib := h.ptr_ne_sibling (.inl join_ne_leaf)
  have haround := h.around
  rw [ptr_join] at hsib haround
  simp only [nodup_cons, mem_cons, mem_append, nodup_append, not_or] at hdistinct
  obtain ⟨⟨hsx, hsu, hsk⟩, ⟨hxu, hxk⟩, hnu, hnk, huk⟩ := hdistinct
  obtain ⟨n', hset1, haround1⟩ := hang_spec .left (ptr s.sentinel u) haround hnk hx Node.parent_of hsib
  have hw1 := writes_write s f.item.addr n'
  generalize s.write f.item.addr n' = s1 at hset1 haround1 hw1
  have hfk : f.item.addr ∈ addrs (elems (f :: k)) := by simp [elems]
  have hx1 : s1.mem x.addr = s.mem x.addr := hw1.others _ (ne_of_mem_of_not_mem hfk hxk).symm
  have hu1 : Rep s1 u x.addr := hu.frame hw1.sentinel fun p hp => hw1.others p fun heq => huk p hp _ hfk heq
  have hblack1 : s1.color s1.sentinel = some .black := by
    rw [Rbtree.color, hw1.sentinel, hw1.others _ (ne_of_mem_of_not_mem hfk hsk).symm]
    exact h.sentinel
  obtain ⟨s2, hset2, hu2, hparent2, hblack2, hsent2, hroot2, hmem2⟩ :=
    setParent_spec q hu1 (nodup_cons.mpr ⟨hw1.sentinel ▸ hsu, hnu⟩) hblack1
  rw [hw1.sentinel] at hset2 hparent2 hblack2 hsent2 hmem2
  refine ⟨s1, s2, hset1, ?_, hset2, ?_, hu2, (hmem2 _ (Ne.symm hsx) hxu).trans hx1, hblack2, hparent2, hsent2⟩
  · rw [parent, hx1, hx]
    exact congrArg some Node.parent_of
  · refine haround1.frame (hsent2.trans hw1.sentinel.symm) hroot2 fun p hp => ?_
    exact hmem2 p (ne_of_mem_of_not_mem hp hsk) fun hpu => huk p hpu p hp rfl

/-- Without the node the others are as distinct as before. -/
theorem distinct_lift (h : At s top k (join d c u x .leaf)) : (s.sentinel :: addrs (u.inorder ++ elems k)).Nodup := by
  rw [addrs_append]
  exact h.distinct_join.sublist ((sublist_cons_self _ _).cons_cons _)

theorem unhook_only (h : At s top (f :: k) (join d c u x .leaf)) :
    ∃ s1 s2 s3, hang .left s x.addr (ptr s.sentinel u) = some s1 ∧
      (s1.parent x.addr).bind (s1.setParent (ptr s.sentinel u)) = some s2 ∧ clear s2 x.addr = some s3 ∧
      At s3 top (f :: k) u ∧ s3.parent (ptr s3.sentinel u) = some f.item.addr ∧ s3.sentinel = s.sentinel := by
  have hdistinct := h.distinct_join
  simp only [inorder, addrs, map_nil, nil_append] at hdistinct
  simp only [nodup_cons, mem_cons, mem_append, nodup_append, not_or] at hdistinct
  obtain ⟨⟨hsx, -⟩, ⟨hxu, hxk⟩, -⟩ := hdistinct
  obtain ⟨s1, s2, hset1, hparent1, hset2, haround2, hu2, hx2, hblack2, hparent2, hsent2⟩ := lift_child h f.item.addr
  obtain ⟨n3, s3, hn3, hw3⟩ := write_clear (hx2.trans h.mem_join)
  have hsent : s3.sentinel = s.sentinel := hw3.sentinel.trans hsent2
  refine ⟨s1, s2, s3, hset1, ?_, hn3, ⟨?_, ?_, ?_, ?_⟩, ?_, hsent⟩
  · rw [hparent1]
    exact hset2
  · rw [hsent]
    exact haround2.frame hw3.sentinel hw3.root fun p hp => hw3.others p (ne_of_mem_of_not_mem hp hxk)
  · exact hu2.frame hw3.sentinel fun p hp => hw3.others p (ne_of_mem_of_not_mem hp hxu)
  · rw [hsent]
    exact distinct_lift h
  · rw [hsent, Rbtree.color, hw3.others _ hsx]
    exact hblack2
  · rw [hsent, parent, hw3.others]
    · exact hparent2
    · rcases At.ptr_cases s u with hptr | hptr
      · rw [hptr]
        exact hsx
      · exact ne_of_mem_of_not_mem hptr hxu

/-- `m` gets the place, the children and the colour of `x`. -/
theorem takePlace_spec {q : Addr} {n : Node w}
    (haround : Around s top (⟨.right, c, x, l⟩ :: k) (ptr s.sentinel r)) (hr : Rep s r q)
    (hm : s.mem m.addr = some n) (hkey : n.key = m.key) (hblack : s.color s.sentinel = some .black)
    (hdistinct : (s.sentinel :: x.addr :: m.addr :: (addrs r.inorder ++ (addrs l.inorder ++ addrs (elems k)))).Nodup) :
    ∃ s1 s2, takePlace s x.addr m.addr = some s1 ∧ clear s1 x.addr = some s2 ∧
      At s2 top (⟨.right, c, m, l⟩ :: k) r ∧ Keeps s s2 := by
  obtain ⟨hx, hl, haround⟩ := haround
  have hx : s.mem x.addr = some ⟨x.key, ptr s.sentinel l, ptr s.sentinel r, up top k, c⟩ := hx
  have hd := hdistinct
  simp only [nodup_cons, mem_cons, mem_append, nodup_append, not_or] at hd
  obtain ⟨⟨hsx, hsm, hsr, hsl, hsk⟩, ⟨hxm, hxr, hxl, hxk⟩, ⟨hmr, hml, hmk⟩, hnr, ⟨hnl, hnk, hlk⟩, hrlk⟩ := hd
  -- the fields are copied
  obtain ⟨s1, hset1, hw1⟩ := write_child hm .left (ptr s.sentinel l)
  obtain ⟨s2, hset2, hw2⟩ := write_child hw1.self .right (ptr s.sentinel r)
  have hw2 := hw1.trans hw2
  obtain ⟨s3, hset3, hw3⟩ := write_parent hw2.self (up top k)
  have hw3 := hw2.trans hw3
  obtain ⟨s4, hset4, hw4⟩ := write_color hw3.self c
  have hw4 := hw3.trans hw4
  have hm4 : s4.mem m.addr = some ⟨m.key, ptr s.sentinel l, ptr s.sentinel r, up top k, c⟩ := by
    rw [hw4.self, ← hkey]
    rfl
  -- the parent points to the new node
  have haround4 : Around s4 top k x.addr := haround.frame hw4.sentinel hw4.root fun p hp => hw4.others p (ne_of_mem_of_not_mem hp hmk)
  obtain ⟨s5, hset5, haround5, hout5⟩ := relink_spec .left m.addr haround4 hnk ((hw4.others _ hxm).trans hx) rfl hxk
    (by rw [hw4.sentinel]; exact Ne.symm hsx)
  have hsent5 : s5.sentinel = s.sentinel := hout5.sentinel.trans hw4.sentinel
  have hm5 : s5.mem m.addr = _ := (hout5.mem _ hmk).trans hm4
  -- so do the children
  have hl5 : Rep s5 l x.addr := hl.frame hsent5 fun p hp =>
    (hout5.mem p fun hk => hlk p hp p hk rfl).trans (hw4.others p (ne_of_mem_of_not_mem hp hml))
  obtain ⟨s6, hset6, hl6, hsent6, hroot6, hmem6⟩ := adopt_spec (q := m.addr) hl5 (nodup_cons.mpr ⟨hsent5 ▸ hsl, hnl⟩)
  rw [hsent5] at hset6 hsent6
  have hm6 : s6.mem m.addr = _ := (hmem6 _ hml).trans hm5
  have hr6 : Rep s6 r q := hr.frame hsent6 fun p hp => by
    rw [hmem6 p fun hpl => hrlk p hp p (.inl hpl) rfl, hout5.mem p fun hk => hrlk p hp p (.inr hk) rfl,
      hw4.others p (ne_of_mem_of_not_mem hp hmr)]
  obtain ⟨s7, hset7, hr7, hsent7, hroot7, hmem7⟩ := adopt_spec (q := m.addr) hr6 (nodup_cons.mpr ⟨hsent6 ▸ hsr, hnr⟩)
  rw [hsent6] at hset7 hsent7
  have hx7 : s7.mem x.addr = _ :=
    (hmem7 _ hxr).trans ((hmem6 _ hxl).trans ((hout5.mem _ hxk).trans ((hw4.others _ hxm).trans hx)))
  obtain ⟨n8, s8, hset8, hw8⟩ := write_clear hx7
  have hsent8 : s8.sentinel = s.sentinel := hw8.sentinel.trans hsent7
  have hkeeps : Keeps s s8 := by
    refine ⟨hsent8, ?_⟩
    rw [hw8.others _ hsx, hmem7 _ hsr, hmem6 _ hsl, hout5.mem _ hsk, hw4.others _ hsm]
  refine ⟨s7, s8, ?_, hset8, at_crumb.mpr ⟨?_, rep_join.mpr ⟨?_, ?_, ?_⟩, ?_, hkeeps.color hblack⟩, hkeeps⟩
  · have hx1 := (hw1.others _ hxm).trans hx
    have hx2 := (hw2.others _ hxm).trans hx
    have hx3 := (hw3.others _ hxm).trans hx
    simp only [takePlace, bind_eq_bind, child_eq hx, Node.child, bind_some, hset1,
      child_eq hx1, hset2, parent_eq hx2, hset3, color_eq hx3, hset4, hset5,
      child_eq hm5, hset6, child_eq hm6, hset7]
  · rw [ptr_join]
    refine haround5.frame (hsent8.trans hsent5.symm) (hw8.root.trans (hroot7.trans hroot6)) fun p hp => ?_
    rw [hw8.others p (ne_of_mem_of_not_mem hp hxk), hmem7 p fun hpr => hrlk p hpr p (.inr hp) rfl,
      hmem6 p fun hpl => hlk p hpl p hp rfl]
  · rw [hw8.others _ (Ne.symm hxm), hmem7 _ hmr, hm6, hsent8]
    rfl
  · exact hr7.frame hw8.sentinel fun p hp => hw8.others p (ne_of_mem_of_not_mem hp hxr)
  · refine hl6.frame (hsent8.trans hsent6.symm) fun p hp => ?_
    rw [hw8.others p (ne_of_mem_of_not_mem hp hxl), hmem7 p fun hpr => hrlk p hpr p (.inl hp) rfl]
  · rw [hsent8]
    refine ((addrs_join_perm _).cons s.sentinel).nodup_iff.mpr ?_
    exact hdistinct.sublist ((sublist_cons_self _ _).cons_cons _)

/-- The next node in the order is unhooked first. -/
theorem unhook_min {km : List (Crumb (Item w))} {b : Color}
    (h : At s top (km ++ ⟨.right, c, x, l⟩ :: k) (.node b .leaf m r)) :
    ∃ s1 s2 q, hang .left s m.addr (ptr s.sentinel r) = some s1 ∧
      s1.parent m.addr = some (up top (km ++ ⟨.right, c, x, l⟩ :: k)) ∧
      s1.setParent (ptr s.sentinel r) (if up top (km ++ ⟨.right, c, x, l⟩ :: k) = x.addr then m.addr
        else up top (km ++ ⟨.right, c, x, l⟩ :: k)) = some s2 ∧
      Around s2 top (⟨.right, c, x, l⟩ :: k) (ptr s.sentinel (plug km r)) ∧ Rep s2 (plug km r) q ∧
      s2.mem m.addr = s.mem m.addr ∧ s2.color s.sentinel = some .black ∧
      s2.parent (ptr s.sentinel r) = some (up top (km ++ ⟨.right, c, m, l⟩ :: k)) ∧
      s2.sentinel = s.sentinel := by
  obtain ⟨f, k', hk⟩ : ∃ f k', km ++ ⟨.right, c, x, l⟩ :: k = f :: k' := by
    cases km with
    | nil | cons g km => exact ⟨_, _, rfl⟩
  rw [hk] at h ⊢
  have hdistinct := h.distinct_join (d := .right)
  simp only [inorder, addrs, map_nil, nil_append] at hdistinct
  simp only [nodup_cons, mem_cons, mem_append, nodup_append, not_or] at hdistinct
  obtain ⟨-, -, -, hnk, -⟩ := hdistinct
  obtain ⟨s1, s2, hset1, hparent1, hset2, haround2, hr2, hm2, hblack2, hparent2, hsent2⟩ :=
    lift_child (d := .right) h (if up top (f :: k') = x.addr then m.addr else up top (f :: k'))
  cases km with
  | nil =>
    obtain ⟨rfl, rfl⟩ := cons.inj hk
    rw [up, if_pos rfl] at hr2 hparent2
    exact ⟨s1, s2, _, hset1, hparent1, hset2, haround2, hr2, hm2, hblack2, hparent2, hsent2⟩
  | cons g km =>
    obtain ⟨rfl, rfl⟩ := cons.inj hk
    have hgx : g.item.addr ≠ x.addr := by
      intro heq
      have hnodup : (g.item.addr :: addrs (g.sibling.inorder ++ elems (km ++ ⟨.right, c, x, l⟩ :: k))).Nodup := hnk
      refine (nodup_cons.mp hnodup).1 ?_
      have hx : ∀ km : List (Crumb (Item w)), x.addr ∈ addrs (elems (km ++ ⟨.right, c, x, l⟩ :: k)) := by
        intro km
        induction km with
        | nil => simp [elems]
        | cons g km ih => simp [elems, ih]
      rw [heq, addrs_append]
      exact mem_append_right _ (hx km)
    rw [up, if_neg hgx] at hr2 hparent2
    have hat2 : At s2 top ((g :: km) ++ ⟨.right, c, x, l⟩ :: k) r := by
      refine ⟨hsent2 ▸ haround2, hr2, ?_, hsent2 ▸ hblack2⟩
      rw [hsent2]
      exact distinct_lift (d := .right) h
    rw [at_plug] at hat2
    refine ⟨s1, s2, _, hset1, hparent1, hset2, ?_, hat2.rep, hm2, hblack2, hparent2, hsent2⟩
    rw [← hsent2]
    exact hat2.around

end Unhook

/-! ## §4 Deletion -/

section Deletion
variable {c : Color} {t u : ColorTree (Item w)} {x : Item w} {h : Nat}

/-- What is done after the place is given up. -/
theorem delete_finish (hat : At s top k u)
    (hup : ∀ f k', k = f :: k' → s.parent (ptr s.sentinel u) = some f.item.addr) (hbal : Balanced u h)
    (hred : c = .red → Fits k h ∧ u.color = .black) (hblack : c = .black → Fits k (h + 1)) :
    ∃ s' t', (match c with
        | .red => some s
        | .black => (loop deleteTurn (s, ptr s.sentinel u)).bind fun c => c.1.setColor c.2 .black) = some s' ∧
      At s' top [] t' ∧ RedBlack t' ∧ t'.inorder = (plug k u).inorder ∧ s'.sentinel = s.sentinel := by
  cases c with
  | red =>
    obtain ⟨hfits, hcolor⟩ := hred rfl
    refine ⟨s, plug k u, rfl, at_plug.mp (by rwa [append_nil]), hfits.redBlack hbal fun hr => ?_, rfl, rfl⟩
    rw [hcolor] at hr
    cases hr
  | black => exact delete_loop hat hup hbal.lacks (hblack rfl)

/-- A node with one child at most. -/
theorem delete_one {d : Side} (hat : At s top k (join d c u x .leaf))
    (hrb : RedBlack (plug k (join d c u x .leaf))) :
    ∃ s' t', delete s x.addr = some s' ∧ Holds s' t' ∧ RedBlack t' ∧
      t'.inorder = (plug k u).inorder ∧ s'.sentinel = s.sentinel := by
  have hsub := substitute_only hat
  obtain ⟨h, hbal, hred, hblack⟩ := delete_only hrb
  cases k with
  | nil =>
    have hroot := hat.root_nil
    rw [ptr_join] at hroot
    obtain ⟨hx, hu, -⟩ := rep_join.mp hat.rep
    have hdistinct := hat.distinct_join
    simp only [inorder, elems, addrs, map_nil, append_nil] at hdistinct
    simp only [nodup_cons, mem_cons, not_or] at hdistinct
    obtain ⟨⟨hsx, hsu⟩, hxu, hnu⟩ := hdistinct
    have hat1 : At { s with root := ptr s.sentinel u } x.addr [] u := by
      refine ⟨rfl, hu.frame rfl fun p hp => rfl, ?_, hat.sentinel⟩
      rw [elems, append_nil]
      exact nodup_cons.mpr ⟨hsu, hnu⟩
    obtain ⟨s2, hset2, hat2, hkeeps2⟩ := hat1.blacken
    have hx2 : s2.mem x.addr = _ := (setColor_others hset2 ?_).trans hx
    · obtain ⟨n3, s3, hset3, hw3⟩ := write_clear hx2
      have hkeeps3 : Keeps s2 s3 := ⟨hw3.sentinel, hw3.others _ (by rw [hkeeps2.sentinel]; exact hsx)⟩
      refine ⟨s3, u.blacken, ?_, ⟨x.addr, ?_, ?_, ?_, hkeeps3.color hat2.sentinel⟩,
        (hbal.lacks).redBlack (k := []) trivial (.inl rfl), inorder_blacken u,
        hw3.sentinel.trans hkeeps2.sentinel⟩
      · simp only [delete, hsub, bind_eq_bind, bind_some]
        rw [if_pos hroot, hset2]
        exact hset3
      · rw [hw3.sentinel]
        exact hw3.root.trans hat2.around
      · refine hat2.rep.frame hw3.sentinel fun p hp => hw3.others p ?_
        rw [inorder_blacken] at hp
        exact ne_of_mem_of_not_mem hp hxu
      · rw [hw3.sentinel]
        exact hat2.distinct
    · rcases At.ptr_cases s u with hptr | hptr
      · rw [hptr]
        exact Ne.symm hsx
      · exact (ne_of_mem_of_not_mem hptr hxu).symm
  | cons f k =>
    have hroot := hat.root_cons
    rw [ptr_join] at hroot
    have hcolor := hat.color_at
    obtain ⟨s1, s2, s3, hset1, hset2, hset3, hat3, hparent3, hsent3⟩ := unhook_only hat
    have hup : ∀ g k', f :: k = g :: k' → s3.parent (ptr s3.sentinel u) = some g.item.addr := by
      rintro g k' ⟨⟩
      exact hparent3
    obtain ⟨s', t', hfinish, hat', hrb', hinorder, hsent'⟩ := delete_finish hat3 hup hbal hred hblack
    refine ⟨s', t', ?_, ⟨top, hat'⟩, hrb', hinorder, hsent'.trans hsent3⟩
    rw [hsent3] at hfinish
    simp only [delete, hsub, bind_eq_bind, bind_some]
    rw [if_neg hroot]
    simp only [hcolor, hset1, bind_some]
    rw [if_pos trivial, hset2]
    simp only [hset3, bind_some]
    exact hfinish

/-- A node with two children. -/
theorem delete_two (hat : At s top k (.node c l x r))
    (hrb : RedBlack (plug k (.node c l x r))) (hl : l ≠ .leaf) (hr : r ≠ .leaf) :
    ∃ s' t', delete s x.addr = some s' ∧ Holds s' t' ∧ RedBlack t' ∧
      t'.inorder = before k ++ (l.inorder ++ r.inorder ++ after k) ∧ s'.sentinel = s.sentinel := by
  have hx : s.mem x.addr = some ⟨x.key, ptr s.sentinel l, ptr s.sentinel r, up top k, c⟩ := hat.rep.1
  have hlat : At s top (⟨.left, c, x, r⟩ :: k) l := at_crumb.mpr hat
  have hrat : At s top (⟨.right, c, x, l⟩ :: k) r := at_crumb.mpr hat
  obtain ⟨km, b, m, r', rfl, hside, hmin⟩ := min_spec hrat hr
  have hmat : At s top (km ++ ⟨.right, c, x, l⟩ :: k) (.node b .leaf m r') := at_plug.mpr hrat
  have hm := hmat.mem_join (d := .right)
  have hsub : substitute s x.addr = some (m.addr, ptr s.sentinel r') := by
    simp only [substitute, child_eq hx, Node.child, bind_eq_bind, bind_some]
    rw [if_neg (hlat.ptr_ne_sentinel hl), if_neg (hrat.ptr_ne_sentinel hr), hmin]
    simp only [bind_some, child_eq hm]
    exact if_neg (not_not.mpr rfl)
  have hk : ∀ y : Item w, km ++ ⟨.right, c, y, l⟩ :: k ≠ [] := fun y => append_ne_nil_of_right_ne_nil _ (cons_ne_nil _ _)
  have hroot : m.addr ≠ s.root := by
    obtain ⟨f, k', hk'⟩ := exists_cons_of_ne_nil (hk x)
    exact (hk' ▸ hmat).root_cons
  have hcolor := hmat.color_at (d := .right)
  have hbefore := before_left hside
  have hinorder : ∀ t : ColorTree (Item w), (plug km t).inorder = t.inorder ++ after km := by
    intro t
    rw [inorder_plug, hbefore, nil_append]
  obtain ⟨s1, s2, q, hset1, hparent1, hset2, haround2, hr2, hm2, hblack2, hparent2, hsent2⟩ := unhook_min hmat
  have hdistinct : (s2.sentinel :: x.addr :: m.addr :: (addrs (plug km r').inorder ++
      (addrs l.inorder ++ addrs (elems k)))).Nodup := by
    have hd := (show At s top k (join .right c (plug km (.node b .leaf m r')) x l) from hat).distinct_join
    rw [hinorder] at hd
    rw [hsent2, hinorder]
    exact hd
  have hmx : m.addr ≠ x.addr := by
    intro heq
    have hd := (nodup_cons.mp (nodup_cons.mp hdistinct).2).1
    exact hd (by simp [heq])
  rw [← hsent2] at haround2 hblack2 hparent2
  obtain ⟨s3, s4, hset3, hset4, hat4, hkeeps4⟩ := takePlace_spec haround2 hr2 (hm2.trans hm) Node.key_of hblack2 hdistinct
  have hsent4 : s4.sentinel = s.sentinel := hkeeps4.sentinel.trans hsent2
  rw [← at_plug] at hat4
  have hup : ∀ f k', km ++ ⟨.right, c, m, l⟩ :: k = f :: k' → s4.parent (ptr s4.sentinel r') = some f.item.addr := by
    intro f k' hk'
    rw [hk'] at hat4 hparent2
    exact parent_kept hat4 hkeeps4 hparent2
  have hrb' : RedBlack (plug (km ++ ⟨.right, c, x, l⟩ :: k) (join .right b r' m .leaf)) := by
    rw [plug_append]
    exact hrb
  obtain ⟨h, hbal, hred, hblack⟩ := delete_only hrb'
  obtain ⟨s', t', hfinish, hat', hrb'', hinorder', hsent'⟩ := delete_finish hat4 hup hbal
    (fun hb => ⟨fits_item m (hred hb).1, (hred hb).2⟩) fun hb => fits_item m (hblack hb)
  refine ⟨s', t', ?_, ⟨top, hat'⟩, hrb'', ?_, hsent'.trans hsent4⟩
  · rw [hsent4] at hfinish
    have hreplace : replace s1 x.addr m.addr (ptr s.sentinel r') = some s3 := by
      simp only [replace, hparent1, hset2, bind_eq_bind, bind_some, hset3]
    have hset1 : hang .left s m.addr (ptr s.sentinel r') = some s1 := hset1
    simp only [delete, hsub, bind_eq_bind, bind_some]
    rw [if_neg hroot]
    simp only [hcolor, hset1, bind_some]
    rw [if_neg hmx, hreplace]
    simp only [hset4, bind_some]
    exact hfinish
  · rw [hinorder', plug_append, inorder_plug, hinorder, hinorder]
    simp [inorder, before, after]

/-- The node is gone, and the others keep their order. -/
theorem delete_spec (h : Holds s t) (hrb : RedBlack t) (hx : x ∈ t.inorder) :
    ∃ s' t' xs ys, delete s x.addr = some s' ∧ Holds s' t' ∧ RedBlack t' ∧ s'.sentinel = s.sentinel ∧
      t.inorder = xs ++ x :: ys ∧ t'.inorder = xs ++ ys := by
  obtain ⟨top, hat⟩ := h
  obtain ⟨k, c, l, r, rfl⟩ := exists_plug hx
  have hat : At s top k (.node c l x r) := by
    rw [← append_nil k]
    exact at_plug.mpr hat
  suffices hdel : ∃ s' t', delete s x.addr = some s' ∧ Holds s' t' ∧ RedBlack t' ∧
      t'.inorder = before k ++ (l.inorder ++ r.inorder ++ after k) ∧ s'.sentinel = s.sentinel by
    obtain ⟨s', t', hdel, hholds, hrb', hinorder, hsent⟩ := hdel
    refine ⟨s', t', before k ++ l.inorder, r.inorder ++ after k, hdel, hholds, hrb', hsent, ?_, ?_⟩
    · rw [inorder_plug, inorder]
      simp
    · rw [hinorder]
      simp
  by_cases hl : l = .leaf
  · subst hl
    rw [inorder, nil_append, ← inorder_plug]
    exact delete_one (d := .right) hat hrb
  by_cases hr : r = .leaf
  · subst hr
    rw [inorder, append_nil, ← inorder_plug]
    exact delete_one (d := .left) hat hrb
  · exact delete_two hat hrb hl hr

end Deletion
end GokuStudio.Nginx.RbTree

import GokuStudio.Nginx.RbTree.Heap

/-!
# Insertion keeps a red-black tree

The new node goes to the leaf that `descend` leads to, as a red node. As long as its parent
is red too, a turn of the loop either moves the trouble two nodes up or ends it by one or
two rotations.
-/

namespace GokuStudio.Nginx.RbTree

open Lib ColorTree List Rbtree
open Option hiding join

variable {w : Nat} {s : Rbtree w} {top : Addr} {k : List (Crumb (Item w))} {less : BitVec w → BitVec w → Bool}
  {x : Item w}

/-! ## §1 The place of a new node -/

/-- A turn of the loop goes to the side where the key belongs. -/
theorem place_turn {node : Addr} {n : Node w} {d : Side} {c : Color} {t t' : ColorTree (Item w)}
    (hn : s.mem node = some n) (h : At s top (⟨d, c, x, t'⟩ :: k) t)
    (hd : (if less n.key x.key then Side.left else .right) = d) {K : List (Crumb (Item w))}
    (hleaf : t = .leaf → K = ⟨d, c, x, t'⟩ :: k)
    (ih : t ≠ .leaf → ∃ f k', K = f :: k' ∧ loop (placeTurn less s node) (ptr s.sentinel t) = some (f.item.addr, f.side)) :
    ∃ f k', K = f :: k' ∧ loop (placeTurn less s node) x.addr = some (f.item.addr, f.side) := by
  have hx := at_crumb.mp h
  have hturn : placeTurn less s node x.addr = if ptr s.sentinel t = s.sentinel then some (.inr (x.addr, d))
      else some (.inl (ptr s.sentinel t)) := by
    simp only [placeTurn, key_eq hn, key_eq hx.mem_join, Node.key_of, bind_eq_bind, bind_some, hd, hx.near]
  by_cases ht : t = .leaf
  · subst ht
    exact ⟨_, _, hleaf rfl, loop_done (hturn.trans (if_pos rfl))⟩
  · obtain ⟨f, k', hdescend, hloop⟩ := ih ht
    exact ⟨f, k', hdescend, (loop_next (hturn.trans (if_neg (h.ptr_ne_sentinel ht)))).trans hloop⟩

/-- The loop goes the way of `descend`. -/
theorem place_spec {node : Addr} {n : Node w} (hn : s.mem node = some n)
    {t : ColorTree (Item w)} (h : At s top k t) (ht : t ≠ .leaf) :
    ∃ f k', descend (fun x => less n.key x.key) t k = f :: k' ∧
      loop (placeTurn less s node) (ptr s.sentinel t) = some (f.item.addr, f.side) := by
  induction t generalizing k with
  | leaf => exact absurd rfl ht
  | node c l x r ihl ihr =>
    have hl : At s top (⟨.left, c, x, r⟩ :: k) l := at_crumb.mpr h
    have hr : At s top (⟨.right, c, x, l⟩ :: k) r := at_crumb.mpr h
    cases hless : less n.key x.key with
    | true =>
      rw [descend, if_pos hless]
      exact place_turn hn hl (if_pos hless) (fun hleaf => by rw [hleaf, descend]) (ihl hl)
    | false =>
      rw [descend, if_neg (by simp [hless])]
      exact place_turn hn hr (if_neg (by simp [hless])) (fun hleaf => by rw [hleaf, descend]) (ihr hr)

/-- The new node is red. -/
theorem insertWith_spec {n : Node w}
    (hn : s.mem x.addr = some n) (hkey : n.key = x.key) {t : ColorTree (Item w)} (h : At s top [] t)
    (ht : t ≠ .leaf) (hx : x.addr ∉ addrs t.inorder) (hsentinel : x.addr ≠ s.sentinel) :
    ∃ s' k, insertWith less s s.root x.addr = some s' ∧ descend (fun y => less x.key y.key) t [] = k ∧
      At s' top k (.node .red .leaf x .leaf) ∧ Keeps s s' := by
  obtain ⟨f, k, hdescend, hloop⟩ := @place_spec w s top [] less x.addr n hn t h ht
  rw [hkey] at hdescend
  have hat : At s top (f :: k) .leaf := by
    rw [← hdescend, ← append_nil (descend _ _ _), at_plug, plug_descend]
    exact h
  have hperm : (addrs t.inorder).Perm (addrs (elems (f :: k))) := by
    rw [← hdescend]
    have hplug := inorder_plug_perm (descend (fun y => less x.key y.key) t []) .leaf
    rw [plug_descend] at hplug
    exact hplug.map _
  have hxk : x.addr ∉ addrs (elems (f :: k)) := fun hmem => hx (hperm.mem_iff.mpr hmem)
  have hdistinct := nodup_cons.mp hat.distinct
  rw [inorder, nil_append] at hdistinct
  obtain ⟨hf, hsib, haround⟩ := hat.around
  have hne : x.addr ≠ f.item.addr := fun heq => hxk (by simp [elems, heq])
  have hfs : f.item.addr ≠ s.sentinel := fun heq => hdistinct.1 (by simp [elems, heq])
  have hnodup := hdistinct.2
  rw [elems, addrs_cons, addrs_append, nodup_cons, mem_append, not_or] at hnodup
  obtain ⟨s1, hset1, hw1⟩ := write_child hf f.side x.addr
  rw [Node.setChild_of] at hw1
  have hn1 : s1.mem x.addr = some n := (hw1.others _ hne).trans hn
  have hset2 := modify_eq hn1 fun n =>
    { n with parent := f.item.addr, left := s1.sentinel, right := s1.sentinel, color := .red }
  have hw2 := writes_write s1 x.addr
    { n with parent := f.item.addr, left := s1.sentinel, right := s1.sentinel, color := .red }
  generalize s1.write x.addr
    { n with parent := f.item.addr, left := s1.sentinel, right := s1.sentinel, color := .red } = s2 at hset2 hw2
  have hsent : s2.sentinel = s.sentinel := hw2.sentinel.trans hw1.sentinel
  have hmem : ∀ p, p ≠ x.addr → p ≠ f.item.addr → s2.mem p = s.mem p := fun p hp hp' =>
    (hw2.others p hp).trans (hw1.others p hp')
  have hkeeps : Keeps s s2 := ⟨hsent, hmem _ (Ne.symm hsentinel) (Ne.symm hfs)⟩
  refine ⟨s2, f :: k, ?_, hdescend, ⟨⟨?_, ?_, ?_⟩, ⟨?_, trivial, trivial⟩, ?_, hkeeps.color h.sentinel⟩, hkeeps⟩
  · have hroot : s.root = ptr s.sentinel t := h.around
    rw [insertWith, hroot, hloop]
    simp only [bind_eq_bind, bind_some, hset1, hset2]
  · rw [hw2.others _ (Ne.symm hne), hw1.self, hsent]
    rfl
  · refine hsib.frame hsent fun p hp => hmem p ?_ (ne_of_mem_of_not_mem hp hnodup.1.1)
    exact ne_of_mem_of_not_mem (by simp [elems, hp]) hxk
  · refine haround.frame hsent (hw2.root.trans hw1.root) fun p hp => hmem p ?_ (ne_of_mem_of_not_mem hp hnodup.1.2)
    exact ne_of_mem_of_not_mem (by simp [elems, hp]) hxk
  · rw [hw2.self, hw2.sentinel, ← hkey]
    rfl
  · rw [hsent, inorder, inorder, nil_append, singleton_append, addrs_cons]
    refine nodup_cons.mpr ⟨?_, nodup_cons.mpr ⟨hxk, hdistinct.2⟩⟩
    rw [mem_cons, not_or]
    exact ⟨Ne.symm hsentinel, hdistinct.1⟩

/-! ## §2 One turn of the repair -/

section Repair
variable {d e : Side} {t uncle sibling : ColorTree (Item w)} {y : Item w}

/-- A red uncle: the grandparent is the red node then. -/
theorem insertRepair_recolor (h : At s top (⟨e, .red, x, sibling⟩ :: ⟨d, .black, y, uncle⟩ :: k) t)
    (ht : t ≠ .leaf) (huncle : uncle.color = .red) :
    ∃ s', insertRepair d s (ptr s.sentinel t) = some (s', y.addr) ∧
      At s' top k (join d .red (join e .black t x sibling) y uncle.blacken) ∧ Keeps s s' := by
  have hparent := h.parent_ptr ht
  have hx := at_crumb.mp h
  have hgrand := parent_eq hx.mem_join
  have hy := at_crumb.mp hx
  have hcolor := hx.sibling.color_ptr
  obtain ⟨s1, hset1, hx1, hkeeps1⟩ := hx.setColor .black
  obtain ⟨s2, hset2, hu2, hkeeps2⟩ := hx1.sibling.blacken
  obtain ⟨s3, hset3, hy3, hkeeps3⟩ := (at_crumb.mp hu2.back).setColor .red
  refine ⟨s3, ?_, hy3, hkeeps1.trans (hkeeps2.trans hkeeps3)⟩
  simp only [Node.parent_of, up, huncle, hkeeps1.sentinel] at hparent hgrand hcolor hset1 hset2 hset3
  simp only [insertRepair, hparent, hgrand, hy.far, hcolor, bind_eq_bind, bind_some, hset1, hset2, hset3]

/-- The rotation of the grandparent, for a node on the outer side. -/
theorem insertFinish_spec {c : Color}
    (h : At s top (⟨d, c, x, sibling⟩ :: ⟨d, .black, y, uncle⟩ :: k) t) (ht : t ≠ .leaf) :
    ∃ s', insertFinish d s (ptr s.sentinel t) = some (s', ptr s.sentinel t) ∧
      At s' top (⟨d, .black, x, join d .red sibling y uncle⟩ :: k) t ∧ Keeps s s' := by
  have hparent := h.parent_ptr ht
  have hx := at_crumb.mp h
  obtain ⟨s1, hset1, hx1, hkeeps1⟩ := hx.setColor .black
  have hgrand := parent_eq hx1.mem_join
  obtain ⟨s2, hset2, hy2, hkeeps2⟩ := (at_crumb.mp hx1).setColor .red
  have hy2' : At s2 top k (join d.other .red uncle y (join d.other .black sibling x t)) := by
    rw [join_other, join_other]
    exact hy2
  obtain ⟨s3, hset3, hx3, hkeeps3⟩ := hy2'.rotate
  rw [join_other, join_other] at hx3
  refine ⟨s3, ?_, at_crumb.mpr hx3, hkeeps1.trans (hkeeps2.trans hkeeps3)⟩
  simp only [Node.parent_of, up] at hparent hgrand hset1 hset2 hset3
  simp only [insertFinish, hparent, hgrand, bind_eq_bind, bind_some, hset1, hset2, hset3]

theorem insertRepair_black (h : At s top (⟨e, .red, x, sibling⟩ :: ⟨d, .black, y, uncle⟩ :: k) t)
    (ht : t ≠ .leaf) (huncle : uncle.color = .black) :
    insertRepair d s (ptr s.sentinel t) =
      (turnInner d s (ptr s.sentinel t) x.addr).bind fun moved => insertFinish d moved.1 moved.2 := by
  have hparent := h.parent_ptr ht
  have hx := at_crumb.mp h
  have hgrand := parent_eq hx.mem_join
  have hcolor := hx.sibling.color_ptr
  simp only [Node.parent_of, up, huncle] at hparent hgrand hcolor
  simp only [insertRepair, hparent, hgrand, (at_crumb.mp hx).far, hcolor, bind_eq_bind, bind_some]

theorem insertRepair_outer (h : At s top (⟨d, .red, x, sibling⟩ :: ⟨d, .black, y, uncle⟩ :: k) t)
    (ht : t ≠ .leaf) (huncle : uncle.color = .black) :
    ∃ s', insertRepair d s (ptr s.sentinel t) = some (s', ptr s.sentinel t) ∧
      At s' top (⟨d, .black, x, join d .red sibling y uncle⟩ :: k) t ∧ Keeps s s' := by
  have hturn : turnInner d s (ptr s.sentinel t) x.addr = some (s, ptr s.sentinel t) := by
    rw [turnInner, (at_crumb.mp h).far]
    exact if_neg (h.ptr_ne_sibling (.inl ht))
  rw [insertRepair_black h ht huncle, hturn]
  exact insertFinish_spec h ht

/-- A node on the inner side changes places with its parent first. -/
theorem insertRepair_inner {near far : ColorTree (Item w)} {z : Item w}
    (h : At s top (⟨d.other, .red, x, sibling⟩ :: ⟨d, .black, y, uncle⟩ :: k) (join d .red near z far))
    (huncle : uncle.color = .black) :
    ∃ s', insertRepair d s z.addr = some (s', x.addr) ∧
      At s' top (⟨d, .black, z, join d .red far y uncle⟩ :: k) (join d .red sibling x near) ∧ Keeps s s' := by
  have ht : join d .red near z far ≠ .leaf := join_ne_leaf
  have hx := at_crumb.mp h
  have hx' : At s top (⟨d, .black, y, uncle⟩ :: k) (join d .red sibling x (join d .red near z far)) := by
    rw [← join_other]
    exact hx
  obtain ⟨s1, hset1, hz1, hkeeps1⟩ := hx'.rotate
  have hturn : turnInner d s z.addr x.addr = some (s1, x.addr) := by
    rw [turnInner, hx'.far, ptr_join]
    simp only [bind_eq_bind, bind_some]
    rw [if_pos trivial, hset1]
    rfl
  have hrepair := insertRepair_black h ht huncle
  rw [ptr_join] at hrepair
  have ht1 : join d .red sibling x near ≠ .leaf := join_ne_leaf
  have hx1 : At s1 top (⟨d, .red, z, far⟩ :: ⟨d, .black, y, uncle⟩ :: k) (join d .red sibling x near) := at_crumb.mpr hz1
  obtain ⟨s2, hset2, hx2, hkeeps2⟩ := insertFinish_spec hx1 ht1
  rw [ptr_join] at hset2
  rw [hrepair, hturn]
  exact ⟨s2, hset2, hx2, hkeeps1.trans hkeeps2⟩

end Repair

/-! ## §3 The loop -/

section Loop
variable {d e : Side} {c : Color} {t uncle sibling : ColorTree (Item w)} {y : Item w}

theorem insertTurn_black (h : At s top (⟨d, .black, x, sibling⟩ :: k) t) (ht : t ≠ .leaf) :
    insertTurn (s, ptr s.sentinel t) = some (.inr s) := by
  rw [insertTurn, if_neg h.root_cons]
  simp only [h.parent_ptr ht, bind_eq_bind, bind_some, (at_crumb.mp h).color_at]

/-- The parent is the left or the right child of its parent. -/
theorem insertTurn_red (h : At s top (⟨e, .red, x, sibling⟩ :: ⟨d, c, y, uncle⟩ :: k) t) (ht : t ≠ .leaf) :
    insertTurn (s, ptr s.sentinel t) = (insertRepair d s (ptr s.sentinel t)).map .inl := by
  have hx := at_crumb.mp h
  obtain ⟨left, hleft, hside⟩ := hx.side (.inl join_ne_leaf)
  rw [ptr_join] at hside
  rw [insertTurn, if_neg h.root_cons]
  simp only [h.parent_ptr ht, bind_eq_bind, bind_some, hx.color_at, parent_eq hx.mem_join, Node.parent_of, up, hleft, hside]

/-- The loop ends with a tree that is right but for the colour of its root. -/
theorem insert_loop {n : Nat} : ∀ {s : Rbtree w} {k : List (Crumb (Item w))} {t : ColorTree (Item w)} {h : Nat},
    k.length ≤ n → At s top k t → t.color = .red → Balanced t h → Fits k h →
    ∃ s' t', loop insertTurn (s, ptr s.sentinel t) = some s' ∧ At s' top [] t' ∧
      t'.inorder = (plug k t).inorder ∧ RedBlack t'.blacken ∧ Keeps s s' := by
  induction n with
  | zero =>
    intro s k t h hlen hat hred hbal hfits
    obtain rfl := length_eq_zero_iff.mp (Nat.le_zero.mp hlen)
    refine ⟨s, t, loop_done (if_pos hat.root_nil), hat, rfl, ?_, .refl s⟩
    exact (hbal.lacks).redBlack (k := []) trivial (.inl rfl)
  | succ n ih =>
    intro s k t h hlen hat hred hbal hfits
    have ht : t ≠ .leaf := by
      rintro rfl
      cases hred
    match k with
    | [] => exact ih (Nat.zero_le n) hat hred hbal hfits
    | ⟨d, .black, x, sibling⟩ :: k =>
      have hrb := hfits.redBlack hbal fun _ => rfl
      refine ⟨s, _, loop_done (insertTurn_black hat ht), at_plug.mp (by rwa [append_nil]), rfl, ?_, .refl s⟩
      rw [blacken_of_black hrb.root]
      exact hrb
    | [⟨d, .red, x, sibling⟩] => exact hfits.2.2.1.elim
    | ⟨e, .red, x, sibling⟩ :: ⟨d, .red, y, uncle⟩ :: k => cases hfits.2.2.1
    | ⟨e, .red, x, sibling⟩ :: ⟨d, .black, y, uncle⟩ :: k =>
      have hturn := insertTurn_red hat ht
      cases huncle : uncle.color with
      | red =>
        obtain ⟨s1, hset, hat1, hkeeps1⟩ := insertRepair_recolor hat ht huncle
        obtain ⟨hfits1, hbal1⟩ := insert_recolor hfits hbal huncle
        obtain ⟨s', t', hloop, hat', hinorder, hrb, hkeeps⟩ :=
          ih (by simp only [length_cons] at hlen; omega) hat1 (color_join _ _ _ _ _) hbal1 hfits1
        rw [ptr_join] at hloop
        refine ⟨s', t', (loop_next (hturn.trans (by rw [hset]; rfl))).trans hloop, hat', ?_, hrb, hkeeps1.trans hkeeps⟩
        rw [hinorder]
        refine inorder_plug_congr ?_
        cases d <;> cases e <;> simp [join, inorder]
      | black =>
        by_cases hside : e = d
        · subst hside
          obtain ⟨s1, hset, hat1, hkeeps1⟩ := insertRepair_outer hat ht huncle
          have hrb := insert_rotate hfits hbal huncle
          have hdone := insertTurn_black hat1 ht
          rw [hkeeps1.sentinel] at hdone
          refine ⟨s1, _, (loop_next (hturn.trans (by rw [hset]; rfl))).trans (loop_done hdone),
            at_plug.mp (by rwa [append_nil]), ?_, ?_, hkeeps1⟩
          · exact inorder_plug_congr (inorder_rotate _ _ _ _ _ _ _ _ _ _).symm
          · rw [plug, blacken_of_black hrb.root]
            exact hrb
        · obtain rfl : e = d.other := Side.eq_other hside
          obtain ⟨near, z, far, rfl, hnear, hfar, hnearBal, hfarBal⟩ := exists_red hred hbal d
          obtain ⟨s1, hset, hat1, hkeeps1⟩ := insertRepair_inner hat huncle
          obtain ⟨hsib, hsibBal, hhead, hk⟩ := hfits
          have hfits1 : Fits (⟨d, .red, z, far⟩ :: ⟨d, .black, y, uncle⟩ :: k) h := ⟨hfar, hfarBal, hhead, hk⟩
          have hrb := insert_rotate hfits1 (t := join d .red sibling x near)
            (balanced_red.mpr ⟨hsib, hnear, hsibBal, hnearBal⟩) huncle
          have hdone := insertTurn_black hat1 join_ne_leaf
          rw [ptr_join] at hdone hturn ⊢
          refine ⟨s1, _, (loop_next (hturn.trans (by rw [hset]; rfl))).trans (loop_done hdone),
            at_plug.mp (by rwa [append_nil]), ?_, ?_, hkeeps1⟩
          · rw [plug, plug, plug]
            refine inorder_plug_congr ?_
            cases d <;> simp [Side.other, join, inorder]
          · rw [plug, blacken_of_black hrb.root]
            exact hrb

end Loop

/-! ## §4 Insertion -/

/-- The tree is in the memory, whatever the parent pointer of its root is. -/
def Holds (s : Rbtree w) (t : ColorTree (Item w)) : Prop := ∃ top, At s top [] t

/-- The new node stands where the comparison puts it, and the others keep their order. -/
theorem insert_spec {n : Node w} {t : ColorTree (Item w)}
    (h : Holds s t) (hrb : RedBlack t) (hn : s.mem x.addr = some n) (hkey : n.key = x.key)
    (hx : x.addr ∉ addrs t.inorder) (hsentinel : x.addr ≠ s.sentinel) :
    ∃ s' t', insert (insertWith less) s x.addr = some s' ∧ Holds s' t' ∧ RedBlack t' ∧ s'.sentinel = s.sentinel ∧
      t'.inorder = before (descend (fun y => less x.key y.key) t []) ++
        x :: after (descend (fun y => less x.key y.key) t []) := by
  obtain ⟨top, hat⟩ := h
  rw [insert]
  by_cases hleaf : t = .leaf
  · subst hleaf
    have hroot : s.root = s.sentinel := hat.around
    have hn' : { s with root := x.addr }.mem x.addr = some n := hn
    have hw := writes_write { s with root := x.addr } x.addr
      { n with parent := NULL, left := s.sentinel, right := s.sentinel, color := .black }
    rw [if_pos hroot, modify_eq hn']
    have hkeeps : Keeps s _ := ⟨hw.sentinel, hw.others _ (Ne.symm hsentinel)⟩
    refine ⟨_, .node .black .leaf x .leaf, rfl, ⟨NULL, hw.root, ⟨?_, trivial, trivial⟩, ?_,
      hkeeps.color hat.sentinel⟩, ?_, rfl, rfl⟩
    · rw [hw.self, ← hkey]
      rfl
    · exact nodup_cons.mpr ⟨by simpa [inorder, elems, addrs] using Ne.symm hsentinel, nodup_singleton _⟩
    · exact Fits.redBlack (k := []) trivial ⟨0, rfl, rfl, rfl⟩ (fun h => absurd h Color.noConfusion)
  · have hroot : s.root ≠ s.sentinel := by
      rw [← hat.root_nil]
      exact hat.ptr_ne_sentinel hleaf
    rw [if_neg hroot]
    obtain ⟨s1, k, hplace, hdescend, hat1, hkeeps1⟩ := @insertWith_spec w s top less x n hn hkey t hat hleaf hx hsentinel
    have hplug : plug k .leaf = t := by
      rw [← hdescend, plug_descend]
      rfl
    obtain ⟨h, hfits, hh, -⟩ := RedBlack.fits (hplug ▸ hrb)
    cases hh
    obtain ⟨s2, t2, hloop, hat2, hinorder, hrb2, hkeeps2⟩ :=
      insert_loop (Nat.le_refl _) hat1 rfl ⟨rfl, rfl, rfl, rfl⟩ hfits
    obtain ⟨s3, hset, hat3, hkeeps3⟩ := hat2.blacken
    rw [hat2.root_nil] at hset
    refine ⟨s3, t2.blacken, ?_, ⟨top, hat3⟩, hrb2, (hkeeps1.trans (hkeeps2.trans hkeeps3)).sentinel, ?_⟩
    · simp only [hplace, bind_eq_bind, bind_some]
      exact (congrArg (bind · _) hloop).trans hset
    · rw [inorder_blacken, hinorder, inorder_plug, hdescend]
      rfl

end GokuStudio.Nginx.RbTree

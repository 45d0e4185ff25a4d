import GokuStudio.Apue.Db.Shared

/-!
# The functions of `db.c` among other processes

What one call of the library does while others work on the same files. A call
locks the hash chain of its key, and from then on the chain is its own:
`OnChain key os v v'` says that the chain is in order and runs through the records
`os`, that the map still gives `key` the value `v`, and that the chain itself has
`v'` by now. Giving the lock
back is the moment the call counts: the map and the log catch up with the chain.
-/

namespace GokuStudio.Apue.Db

open Lib List Layout
open Function (update update_eq_self update_idem update_of_ne update_self)

/-! ## §1 What survives the others -/

section Stable
variable {p h y : Nat} {d d' : Disk} {γ γ' : Ghost} {P : Pic} {cells : Nat → Prop} {r : IdxRec}

theorem Pic.Row.inside {c : Nat} {t : Owner} {os : List Nat} (hB : P.Base) (hR : P.Row c t os)
    (hcell : cells c) (ht : t.Within cells p) (hy : y ∈ c :: os) : P.In cells p y := by
  rcases mem_cons.mp hy with rfl | hy
  · exact .inl ⟨hR.cell, hcell⟩
  have hown := hR.own y hy
  obtain ⟨r, hr⟩ := hB.exists_rec (hown ▸ hR.owner)
  exact .inr ⟨recAt_ge hr, hown ▸ ht⟩

theorem Pic.ChainOk.inside (hB : P.Base) (hC : P.ChainOk h) (hh : h < nhashDef)
    (hcell : cells (cellOf h)) (hy : y ∈ cellOf h :: P.ch h) : P.In cells p y :=
  (hC.row hh).inside hB hcell hcell hy

theorem Pic.FreeOk.inside (hB : P.Base) (hF : P.FreeOk) (hcell : cells freeOff)
    (hy : y ∈ freeOff :: P.fl) : P.In cells p y :=
  hF.row.inside hB hcell hcell hy

theorem Pic.inside_of_mine (hr : P.lay.recAt y = some r) (hown : P.own y = .proc p) : P.In cells p y := by
  refine .inr ⟨recAt_ge hr, ?_⟩
  rw [hown]
  rfl

theorem Pic.FreeOk.stable (hF : γ.pic.FreeOk) (hB : γ.pic.Base) (hr : Rely p (d, γ) (d', γ'))
    (hheld : d.Holding p freeOff) : γ'.pic.FreeOk := by
  have hsame : ∀ y ∈ freeOff :: γ.pic.fl, γ.pic.lay.SameAt γ'.pic.lay y := fun y hy =>
    hr.same y (hF.inside hB hheld hy)
  exact hF.frame (hr.fl hheld) (fun y => hr.own y .free hheld) (fun y hy => (hsame y hy).ptr)
    fun y hy => (hsame y (mem_cons_of_mem _ hy)).key

end Stable

/-- The chain of `key` is in order. The map gives the key `v`, the chain `v'`. -/
structure OnChain (key : Bytes) (os : List Nat) (v v' : Option Bytes) (γ : Ghost) : Prop where
  list : γ.pic.ch (dbHash key) = os
  old : γ.map key = v
  chain : γ.pic.ChainOk (dbHash key)
  means : γ.pic.MapOk (update γ.map key v') (dbHash key)

variable {P : Pic}

section OnChain

variable {p : Nat} {d d' : Disk} {γ γ' : Ghost} {key : Bytes} {os : List Nat}
  {v v' : Option Bytes}

section
variable (hO : OnChain key os v v' γ)
include hO

theorem OnChain.frame (hmap : ∀ k, dbHash k = dbHash key → γ'.map k = γ.map k)
    (hch : γ'.pic.ch (dbHash key) = γ.pic.ch (dbHash key))
    (hown : ∀ y, γ'.pic.own y = .chain (dbHash key) ↔ γ.pic.own y = .chain (dbHash key))
    (hsame : ∀ y ∈ cellOf (dbHash key) :: γ.pic.ch (dbHash key), γ.pic.lay.SameAt γ'.pic.lay y) :
    OnChain key os v v' γ' := by
  refine ⟨hch.trans hO.list, (hmap key rfl).trans hO.old, hO.chain.frame hch hown
    (fun y hy => (hsame y hy).ptr) fun y hy => (hsame y (mem_cons_of_mem _ hy)).key, ?_⟩
  have hM : γ'.pic.MapOk (update γ.map key v') (dbHash key) := hO.means.frame hch
    (fun y hy => (hsame y (mem_cons_of_mem _ hy)).key)
    fun y hy => (hsame y (mem_cons_of_mem _ hy)).dat
  intro k hk x
  rw [← hM k hk x]
  by_cases hkk : k = key
  · rw [hkk, update_self, update_self]
  · rw [update_of_ne hkk, update_of_ne hkk, hmap k hk]

theorem OnChain.same (hB : γ.pic.Base) (hr : Rely p (d, γ) (d', γ')) (hheld : d.Holding p (cellOf (dbHash key))) :
    ∀ y ∈ cellOf (dbHash key) :: γ.pic.ch (dbHash key), γ.pic.lay.SameAt γ'.pic.lay y :=
  fun y hy => hr.same y (hO.chain.inside hB (dbHash_lt key) hheld hy)

theorem OnChain.stable (hB : γ.pic.Base) (hr : Rely p (d, γ) (d', γ'))
    (hheld : d.Holding p (cellOf (dbHash key))) : OnChain key os v v' γ' :=
  hO.frame (fun k hk => hr.map k (by rw [hk]; exact hheld)) (hr.ch _ hheld)
    (fun y => hr.own y (.chain (dbHash key)) hheld) (hO.same hB hr hheld)

end

/-- A key that the chain does not have is on no record of it. -/
theorem OnChain.fresh (hO : OnChain key os v none γ) (hB : γ.pic.Base) :
    ∀ y ∈ γ.pic.ch (dbHash key), γ.pic.lay.keyAt y ≠ some key := by
  intro y hy hk
  obtain ⟨r, hr⟩ := hO.chain.list.exists_rec hB hy
  have := (hO.means key rfl (γ.pic.lay.datum r)).mpr ⟨y, hy, hk, by rw [datAt, hr]; rfl⟩
  rw [update_self] at this
  exact Option.noConfusion rfl (heq_of_eq this)

end OnChain

/-- Process `p` is in the middle of a call on `key`, with the chain locked. -/
structure Mid (m₀ : Map) (p : Nat) (key : Bytes) (kind : LockKind) (evs : List (Op × Option Res))
    (mine : List Nat) (pend : Option (Nat × Nat)) (os : List Nat) (v v' : Option Bytes)
    (w : Disk × Ghost) : Prop where
  here : At p [(kind, cellOf (dbHash key))] evs mine pend w
  inv : Inv m₀ w.1 w.2
  on : OnChain key os v v' w.2

/-- `Q` holds wherever the call goes on, with the chain locked and nothing in hand. -/
abbrev GoesOn (m₀ : Map) (p : Nat) (key : Bytes) (evs : List (Op × Option Res)) (chainoff : Nat) (os : List Nat)
    (v v' : Option Bytes) (Q : DB → Disk × Ghost → Prop) : Prop :=
  ∀ (db : DB) d γ, db.chainoff = chainoff → Mid m₀ p key .wr evs [] none os v v' (d, γ) → Q db (d, γ)

section Mid

variable {m₀ : Map} {p : Nat} {d d' : Disk} {γ γ' : Ghost} {key : Bytes} {kind : LockKind}
  {evs : List (Op × Option Res)} {mine : List Nat} {pend : Option (Nat × Nat)} {os : List Nat}
  {v v' : Option Bytes} {o : Nat} {r : IdxRec}

theorem Mid.holding (hM : Mid m₀ p key kind evs mine pend os v v' (d, γ)) : d.Holding p (cellOf (dbHash key)) :=
  hM.here.holding (mem_singleton.mpr rfl)

theorem Mid.writing (hM : Mid m₀ p key .wr evs mine pend os v v' (d, γ)) : d.Writing p (cellOf (dbHash key)) :=
  hM.here.writing (mem_singleton.mpr rfl)

variable (hM : Mid m₀ p key kind evs mine pend os v v' (d, γ))
include hM

theorem Mid.stable (hr : Rely p (d, γ) (d', γ')) (hi : Inv m₀ d' γ') :
    Mid m₀ p key kind evs mine pend os v v' (d', γ') :=
  ⟨hM.here.stable hr, hi, hM.on.stable hM.inv.base hr hM.holding⟩

/-- A record in the hand of `p` is not on the chain. -/
theorem Mid.ne_of_mine (ho : o ∈ mine) (hr : γ.pic.lay.recAt o = some r) :
    ∀ y ∈ cellOf (dbHash key) :: γ.pic.ch (dbHash key), y ≠ o := fun y hy =>
  (hM.on.chain.row (dbHash_lt key)).ne hy (by rw [(hM.here.own o).mpr ho]; nofun) (recAt_ge hr)

theorem Mid.head_le : os.headD 0 ≤ ptrMax := by
  have hhead := hM.on.chain.chain.head
  rw [hM.on.list] at hhead
  exact hM.inv.base.wf.ptrAt_le hhead

end Mid

/-- The same, with the free list locked too. -/
structure MidFree (m₀ : Map) (p : Nat) (key : Bytes) (evs : List (Op × Option Res)) (mine os : List Nat)
    (v v' : Option Bytes) (w : Disk × Ghost) : Prop where
  here : At p [(.wr, freeOff), (.wr, cellOf (dbHash key))] evs mine none w
  inv : Inv m₀ w.1 w.2
  on : OnChain key os v v' w.2
  free : w.2.pic.FreeOk

/-! ## §2 Searching -/

variable {db : DB} {o : Nat}

section Functions

variable {m₀ : Map} {p : Nat} {d : Disk} {γ : Ghost} {key data : Bytes} {os : List Nat}
  {v v' : Option Bytes} {evs : List (Op × Option Res)} {F : Err → Disk × Ghost → Prop}

variable {h : Nat} {Q : DB → Disk × Ghost → Prop} {pend : Option (Nat × Nat)} {r : IdxRec}
  {S : List (LockKind × Nat)} {mine : List Nat}

theorem shared_find {writelock : Bool} {kind : LockKind} (hkind : kind = if writelock then .wr else .rd)
    (hA : At p [] evs [] none (d, γ)) {Q : DB × Int → Disk × Ghost → Prop}
    (hstray : ∀ d' γ' os v, Mid m₀ p key kind evs [] none os v v (d', γ') → F sepErr (d', γ'))
    (hhit : ∀ c o os (db' : DB) d' γ', db'.chainoff = cellOf (dbHash key) →
      Mid m₀ p key kind evs [] none os (some (γ'.pic.lay.datum (γ'.pic.lay.view o)))
        (some (γ'.pic.lay.datum (γ'.pic.lay.view o))) (d', γ') →
      γ'.pic.find key = .hit c o →
      Q ({ db'.loaded o (γ'.pic.lay.view o) with ptroff := c }, 0) (d', γ'))
    (hmiss : ∀ os (db' : DB) d' γ', db'.chainoff = cellOf (dbHash key) →
      Mid m₀ p key kind evs [] none os none none (d', γ') → Q (db', -1) (d', γ')) :
    Safe (shared m₀ p) Q F (dbFindAndLock p db key writelock) (d, γ) := by
  -- from the moment the chain is locked
  have hwalk : ∀ (db' : DB) (d1 : Disk) (γ1 : Ghost), db'.chainoff = cellOf (dbHash key) →
      db'.ptroff = (cellOf (dbHash key) : Nat) →
      Mid m₀ p key kind evs [] none (γ1.pic.ch (dbHash key)) (γ1.map key) (γ1.map key) (d1, γ1) →
      Safe (shared m₀ p) Q F (findLocked db' key) (d1, γ1) := by
    intro db' d1 γ1 hch hptr hM1
    rw [findLocked, hptr]
    refine safe_bind.mpr (safe_dbReadptr (shared_views m₀ p) fun d2 γ2 hr2 hi2 => ?_)
    have hM2 := hM1.stable hr2 hi2
    have hC2 := hM2.on.chain
    have hrec : ∀ o ∈ γ2.pic.ch (dbHash key), _ := fun _ => (hC2.row (dbHash_lt key)).recAt_view hi2.base
    have hmap : ∀ {γ'}, OnChain key (γ1.pic.ch (dbHash key)) (γ1.map key) (γ1.map key) γ' →
        γ'.pic.MapOk γ'.map (dbHash key) := by
      intro γ' hO
      have := hO.means
      rwa [← hO.old, update_eq_self] at this
    refine ⟨_, hC2.chain.head, safe_bind.mpr (safe_findLoop (shared_views m₀ p)
      (hC2.list.length_lt hi2.base) (linked_of_chain hC2.chain hC2.chain.head hrec)
      hptr (Rely.refl p (d2, γ2)) hi2 ?_ ?_ ?_ ?_)⟩
    · intro d3 γ3 hr3 _ o ho
      exact (hM2.on.same hi2.base hr3 hM2.holding o (mem_cons_of_mem _ ho)).recAt (hrec o ho)
    · intro _ d3 γ3 hr3 hi3
      exact hstray d3 γ3 _ _ (hM2.stable hr3 hi3)
    · intro c o hs db3 hch3 d3 γ3 hr3 hi3
      have hM3 := hM2.stable hr3 hi3
      have hview : ∀ y ∈ γ2.pic.ch (dbHash key), γ3.pic.lay.view y = γ2.pic.lay.view y := by
        intro y hy
        exact view_of_recAt ((hM2.on.same hi2.base hr3 hM2.holding y (mem_cons_of_mem _ hy)).recAt (hrec y hy))
      have hf : γ3.pic.find key = .hit c o := by
        rw [Pic.find, hr3.ch _ hM2.holding]
        exact (search_congr hview).trans hs
      obtain ⟨-, pre, post, r, hsplit, -, hr, -⟩ := hM3.on.chain.find_hit hi3.base hf
      have hne : ¬ (o : Int) = 0 := Int.natCast_ne_zero.mpr (recAt_ne_zero hr)
      have hmem : o ∈ γ2.pic.ch (dbHash key) := by
        rw [← hr3.ch _ hM2.holding, hsplit]
        simp
      have hv := (hmap hM3.on).find_hit hi3.base hM3.on.chain hf
      rw [← hview o hmem]
      simp only [if_neg hne]
      refine hhit c o (γ1.pic.ch (dbHash key)) db3 d3 γ3 (hch3.trans hch) ?_ hf
      rw [← hv, hM3.on.old]
      exact hM3
    · intro hs db3 hch3 d3 γ3 hr3 hi3
      have hv : γ1.map key = none := hM2.on.old.symm.trans ((hmap hM2.on).find_miss hi2.base hC2 hs)
      simp only [if_true]
      refine hmiss (γ1.pic.ch (dbHash key)) db3 d3 γ3 (hch3.trans hch) ?_
      rw [hv] at hM2
      exact hM2.stable hr3 hi3
  have hstart : ∀ (db' : DB), db'.chainoff = cellOf (dbHash key) → db'.ptroff = (cellOf (dbHash key) : Nat) →
      Safe (shared m₀ p) Q F (do
        lockByte p kind (cellOf (dbHash key))
        findLocked db' key) (d, γ) := by
    intro db' hch hptr
    refine safe_bind.mpr (shared_lock (cellOf_lt (dbHash_lt key)) hA (by simp) fun d1 γ1 _ hi1 hno hA1 hi1' => ?_)
    obtain ⟨hC, hMap⟩ := hi1.chain _ (dbHash_lt key) hno
    exact hwalk db' _ γ1 hch hptr ⟨hA1, hi1', rfl, rfl, hC, by rw [update_eq_self]; exact hMap⟩
  unfold dbFindAndLock
  subst hkind
  cases writelock <;> exact hstart { db with chainoff := chainOffOf key, ptroff := chainOffOf key } rfl rfl

theorem notMem_chainLock (k : LockKind) (kind : LockKind) (h : Nat) : (k, freeOff) ∉ [(kind, cellOf h)] := by
  intro hk
  exact cellOf_ne_freeOff h (Prod.mk.inj (mem_singleton.mp hk)).2.symm

section MidFree
variable (hM : MidFree m₀ p key evs mine os v v' (d, γ))
include hM

theorem MidFree.writing : d.Writing p (cellOf (dbHash key)) := hM.here.writing (by simp)
theorem MidFree.writing_free : d.Writing p freeOff := hM.here.writing mem_cons_self

theorem MidFree.stable {d' : Disk} {γ' : Ghost} (hr : Rely p (d, γ) (d', γ')) (hi : Inv m₀ d' γ') :
    MidFree m₀ p key evs mine os v v' (d', γ') :=
  ⟨hM.here.stable hr, hi, hM.on.stable hM.inv.base hr hM.writing.holding,
    hM.free.stable hM.inv.base hr hM.writing_free.holding⟩

/-- The lock on the free list is given back with the list in order. -/
theorem MidFree.unlock {Q : Unit → Disk × Ghost → Prop} (h : ∀ d' d'' γ', Rely p (d, γ) (d', γ') →
      Mid m₀ p key .wr evs mine none os v v' (d'', γ') → Q () (d'', γ')) :
    Safe (shared m₀ p) Q F (unLock p .idx freeOff 1) (d, γ) := by
  refine shared_unlock evs hM.here (fun k => notMem_chainLock k _ _) fun d' γ' hr hi' => ?_
  have hM' := hM.stable hr hi'
  refine ⟨γ', rfl, Moves.refl p d' γ', hi'.serial, hM'.here.log, fun h _ he => ?_, fun _ => hM'.free,
    fun d'' hA'' hi'' => h d' d'' γ' hr ⟨hA'', hi'', hM'.on⟩⟩
  exact absurd he.symm (cellOf_ne_freeOff h)

end MidFree

/-- The free list is locked, and nobody has left it out of order. -/
theorem Mid.lock_free (hM : Mid m₀ p key .wr evs mine none os v v' (d, γ)) {Q : Unit → Disk × Ghost → Prop}
    (h : ∀ d' d'' γ', Rely p (d, γ) (d', γ') → MidFree m₀ p key evs mine os v v' (d'', γ') → Q () (d'', γ')) :
    Safe (shared m₀ p) Q F (writewLock p .idx freeOff 1) (d, γ) :=
  shared_lock freeOff_lt hM.here (fun k => notMem_chainLock k _ _) fun d1 γ1 hr1 hi1 hno hA1 hi1' =>
    h d1 _ γ1 hr1 ⟨hA1, hi1', hM.on.stable hM.inv.base hr1 hM.holding, hi1.free hno⟩

/-- The free record at `o`, to which `c` points, is taken into the hand of `p`. -/
def Pic.take (P : Pic) (p c o v : Nat) : Pic :=
  { P with
    lay := P.lay.setPtr c v
    own := update P.own o (.proc p)
    fl := P.fl.erase o }

theorem Pic.FreeOk.take {pre post : List Nat} (hB : P.Base)
    (hF : P.FreeOk) (hsplit : P.fl = pre ++ o :: post) (hr : P.lay.recAt o = some r) :
    (P.take p (lastCell freeOff pre) o r.ptr).FreeOk := by
  obtain ⟨hlast, -, -⟩ := hF.list.cell_facts hB freeOff_lt hsplit
  have hL := hB.looks.setPtr hlast (hB.wf.recAt_ok hr).ptr_le
  have hfl : (P.take p (lastCell freeOff pre) o r.ptr).fl = pre ++ post := by
    change P.fl.erase o = _
    rw [hsplit]
    exact erase_of_split (hsplit ▸ hF.chain.nodup)
  refine hF.unlink hB hsplit hfl (fun _ => own_update_leave nofun) ?_ (fun y _ hy => ?_) fun y _ => ?_
  · change (P.lay.setPtr _ _).ptrAt _ = _
    rw [hL.ptrAt, update_self, ptrAt_of_recAt hr]
  · change (P.lay.setPtr _ _).ptrAt _ = _
    rw [hL.ptrAt, update_of_ne hy]
  · change (P.lay.setPtr _ _).keyAt _ = _
    rw [hL.keyAt]

theorem At.own_update {w : Disk × Ghost} (hA : At p S evs [] pend w) (o y : Nat) :
    update w.2.pic.own o (.proc p) y = .proc p ↔ y ∈ [o] := by
  by_cases hyo : y = o
  · simp [hyo]
  · rw [update_of_ne hyo, hA.own]
    simp [hyo]

theorem shared_findfree (hM : Mid m₀ p key .wr evs [] none os v v' (d, γ)) {kl dl : Nat}
    {Q : DB × Int → Disk × Ghost → Prop}
    (hnone : GoesOn m₀ p key evs db.chainoff os v v' fun db' => Q (db', -1))
    (hsome : ∀ c o r (db' : DB) d' γ', db'.chainoff = db.chainoff →
      Mid m₀ p key .wr evs [o] none os v v' (d', γ') → γ'.pic.lay.recAt o = some r →
      r.key.length = kl → r.datlen = dl → o ≤ ptrMax →
      Q ({ db'.loaded o r with idxpos := (c : Nat) + ptrSz }, 0) (d', γ')) :
    Safe (shared m₀ p) Q F (dbFindfree p db kl dl) (d, γ) := by
  unfold dbFindfree
  refine safe_bind.mpr (hM.lock_free fun d0 d1 γ1 _ hM1 => ?_)
  refine safe_bind.mpr (safe_dbReadptr (shared_views m₀ p) fun d2 γ2 hr2 hi2 => ?_)
  have hM2 := hM1.stable hr2 hi2
  have hF2 := hM2.free
  have hw2 := hM2.writing_free.holding
  have hrec : ∀ o ∈ γ2.pic.fl, _ := fun _ => hF2.row.recAt_view hi2.base
  refine ⟨_, hF2.chain.head, safe_bind.mpr (safe_freeLoop (shared_views m₀ p)
    (hF2.list.length_lt hi2.base) (linked_of_chain hF2.chain hF2.chain.head hrec)
    (Rely.refl p (d2, γ2)) hi2 ?_ (fun _ => hF2.sep_notMem hi2.base) ?_ ?_)⟩
  · intro d3 γ3 hr3 _ o ho
    exact (hr3.same o (hF2.inside hi2.base hw2 (mem_cons_of_mem _ ho))).recAt (hrec o ho)
  · intro c o hs db3 hch d3 γ3 hr3 hi3
    obtain ⟨pre, post, r, hsplit, rfl, hro, hkl, hdl⟩ := hF2.searchFree_some hi2.base hs
    have hmem : o ∈ γ2.pic.fl := by rw [hsplit]; simp
    have hne : ¬ (o : Int) = 0 := Int.natCast_ne_zero.mpr (recAt_ne_zero hro)
    have hok := hi2.base.wf.recAt_ok hro
    simp only [if_neg hne, view_of_recAt hro]
    refine safe_bind.mpr (shared_dbWriteptr hok.ptr_le fun d4 γ4 hr4 hi4 => ?_)
    -- nobody has touched the free list since it was locked
    have hr24 := hr3.trans hr4
    have hM4 := hM2.stable hr24 hi4
    have hF4 := hM4.free
    have hsplit4 : γ4.pic.fl = pre ++ o :: post := (hr24.fl hw2).trans hsplit
    have hro4 := (hr24.same o (hF2.inside hi2.base hw2 (mem_cons_of_mem _ hmem))).recAt hro
    have hown4 := (hF4.own_iff o).mp (by rw [hsplit4]; simp)
    obtain ⟨hlast, hlo, hin⟩ := hF4.list.cell_facts hi4.base freeOff_lt hsplit4
    have hedit := hi4.base.edit_setPtr hlast hok.ptr_le
    refine ⟨⟨o, hlast⟩, hF4.inside hi4.base hM4.writing_free hin, γ4.pic.take p (lastCell freeOff pre) o r.ptr, rfl,
      .hand rfl (by rw [hown4]; exact hM4.writing_free) rfl (fun _ => .inl rfl) (.inr hM4.writing_free) rfl, fun d5 hl5 hi5 => ?_⟩
    have hM5 : MidFree m₀ p key evs [o] os v v' (d5, { γ4 with pic := γ4.pic.take p (lastCell freeOff pre) o r.ptr }) := by
      refine ⟨hM4.here.setPic hl5 _ (hM4.here.own_update o) hM4.here.pend, hi5, hM4.on.frame (fun _ _ => rfl) rfl
        (fun _ => own_update_other nofun ?_) fun y hy =>
          hedit.same y (hM4.on.chain.cells_ne_free hi4.base hF4 (dbHash_lt key) hy hin),
        hF4.take hi4.base hsplit4 hro4⟩
      rw [hown4]
      nofun
    have hro5 : (γ4.pic.lay.setPtr (lastCell freeOff pre) r.ptr).recAt o = some r := (hedit.same o (Ne.symm hlo)).recAt hro4
    refine safe_bind.mpr (hM5.unlock fun d6 d7 γ7 hr7 hM7 => safe_ret.mpr ?_)
    refine hsome _ o r db3 d7 γ7 hch hM7 ?_ hkl hdl (hF2.list.le hi2.base hmem)
    refine (hr7.same o (Pic.inside_of_mine hro5 ?_)).recAt hro5
    exact update_self ..
  · intro hs db3 cell hch d3 γ3 hr3 hi3
    simp only [if_true]
    exact safe_bind.mpr ((hM2.stable hr3 hi3).unlock fun d4 d5 γ5 _ hM5 => safe_ret.mpr (hnone db3 d5 γ5 hch hM5))

/-! ## §3 Linking a record in -/

/-- The record at `o`, in the hand of `p`, goes to the front of the chain. -/
def Pic.link (P : Pic) (h o : Nat) : Pic :=
  { P with
    lay := P.lay.setPtr (cellOf h) o
    own := update P.own o (.chain h)
    ch := update P.ch h (o :: P.ch h) }

theorem shared_link (hM : Mid m₀ p key .wr evs [o] none os v none (d, γ))
    (hr : γ.pic.lay.recAt o = some r) (hptr : r.ptr = os.headD 0) (hk : r.key = key)
    (hx : γ.pic.lay.datAt o = some data) (ho : o ≤ ptrMax)
    (hQ : GoesOn m₀ p key evs db.chainoff (o :: os) v (some data) Q) :
    Safe (shared m₀ p) Q F (dbWriteptr db ((cellOf (dbHash key) : Nat) : Int) (o : Int)) (d, γ) := by
  have hh := dbHash_lt key
  refine shared_dbWriteptr ho fun d1 γ1 hr1 hi1 => ?_
  have hM1 := hM.stable hr1 hi1
  have hsame := hr1.same o (Pic.inside_of_mine hr ((hM.here.own o).mpr (by simp)))
  have hrec1 := hsame.recAt hr
  have hown1 : γ1.pic.own o = .proc p := (hM1.here.own o).mpr (by simp)
  have hC := hM1.on.chain
  have hhead := hC.chain.head
  have hne := hM1.ne_of_mine (by simp) hrec1
  have hL := hi1.base.looks.setPtr hhead ho
  have hkey1 : γ1.pic.lay.keyAt o = some key := by rw [keyAt, hrec1, ← hk]; rfl
  refine ⟨⟨_, hhead⟩, hC.inside hi1.base hh hM1.writing mem_cons_self, γ1.pic.link (dbHash key) o, rfl,
    .hand rfl (by rw [hown1]; rfl) hM1.writing (ch_update hM1.writing) (.inl rfl) rfl, fun d2 hl2 hi2 => ?_⟩
  have hch : (γ1.pic.link (dbHash key) o).ch (dbHash key) = o :: γ1.pic.ch (dbHash key) := update_self ..
  refine hQ _ d2 _ rfl ⟨hM1.here.setPic hl2 _ (fun y => ?_) hM1.here.pend, hi2,
    hch.trans (by rw [hM1.on.list]), hM1.on.old, ?_, ?_⟩
  · change update γ1.pic.own o (.chain (dbHash key)) y = _ ↔ _
    by_cases hyo : y = o
    · rw [hyo, update_self]
      simp
    · rw [update_of_ne hyo, hM1.here.own]
      simp [hyo]
  · refine hC.push hch (fun _ => own_update_join) (recAt_ne_zero hrec1) ?_ ?_ (fun y hy => ?_)
      (fun y _ => congrFun hL.keyAt y) ((congrFun hL.keyAt o).trans hkey1) rfl
      (hM1.on.fresh hi1.base)
    · exact (congrFun hL.ptrAt _).trans (update_self ..)
    · refine (congrFun hL.ptrAt o).trans ?_
      rw [update_of_ne (hne _ mem_cons_self).symm, ptrAt_of_recAt hrec1, hhead, hptr, hM1.on.list]
    · have hcell : y ≠ cellOf (dbHash key) := fun he =>
        hC.list.cell_notMem hi1.base (cellOf_lt hh) (he ▸ hy)
      exact (congrFun hL.ptrAt y).trans (update_of_ne hcell ..)
  · have hpush : (γ1.pic.link (dbHash key) o).MapOk (update (update γ1.map key none) key (some data)) (dbHash key) :=
      hM1.on.means.push hch (fun y _ => congrFun hL.keyAt y) (fun y _ => congrFun hL.datAt y)
        ((congrFun hL.keyAt o).trans hkey1)
        ((congrFun hL.datAt o).trans (hsame.dat.trans hx)) (hM1.on.fresh hi1.base)
    rwa [update_idem] at hpush

/-- A write to a record in the hand of `p` does not touch the chain. -/
theorem Mid.edit {L : Layout} {d' : Disk} (hM : Mid m₀ p key .wr evs mine pend os v v' (d, γ)) (ho : o ∈ mine)
    (hr : γ.pic.lay.recAt o = some r) (he : Edit γ.pic L o) (hl : d'.locks = d.locks)
    (hi : Inv m₀ d' { γ with pic := { γ.pic with lay := L } }) :
    Mid m₀ p key .wr evs mine pend os v v' (d', { γ with pic := { γ.pic with lay := L } }) :=
  ⟨hM.here.setPic hl { γ.pic with lay := L } hM.here.own hM.here.pend, hi, hM.on.frame (fun _ _ => rfl) rfl (fun _ => Iff.rfl)
    fun y hy => he.same y (hM.ne_of_mine ho hr y hy)⟩

theorem shared_storeReuse (hk : NoNul key) (hx : NoNul data)
    (hM : Mid m₀ p key .wr evs [o] none os v none (d, γ)) (hr : γ.pic.lay.recAt o = some r)
    (hkl : r.key.length = key.length) (hdl : r.datlen = data.length + 1) (ho : o ≤ ptrMax)
    (hch : db.chainoff = cellOf (dbHash key)) {pos : Int}
    (hQ : GoesOn m₀ p key evs db.chainoff (o :: os) v (some data) Q) :
    Safe (shared m₀ p) Q F
      (storeReuse p { db.loaded o r with idxpos := pos } key data (os.headD 0 : Nat)) (d, γ) := by
  have hmine : o ∈ [o] := mem_singleton.mpr rfl
  have hok := hM.inv.base.wf.recAt_ok hr
  have hhead := hM.head_le
  unfold storeReuse
  refine safe_bind.mpr (shared_dbWritedat (o := o) hx hdl.symm fun d1 γ1 hr1 hi1 => ?_)
  have hM1 := hM.stable hr1 hi1
  have hown1 : γ1.pic.own o = .proc p := (hM1.here.own o).mpr hmine
  have hrec1 := (hr1.same o (Pic.inside_of_mine hr ((hM.here.own o).mpr hmine))).recAt hr
  refine ⟨hrec1, Pic.inside_of_mine hrec1 hown1, fun d2 hl2 hi2 => ?_⟩
  have hM2 := hM1.edit hmine hrec1 (hi1.base.edit_writeDat hrec1 hx hdl.symm) hl2 hi2
  have hdat2 : (γ1.pic.lay.writeDat r data).datAt o = some data := by
    rw [(hi1.base.looks_writeDat hrec1 hx hdl.symm).datAt, update_self]
  have hrec2 : (γ1.pic.lay.writeDat r data).recAt o = some r := hrec1
  refine safe_bind.mpr (shared_dbWriteidx rfl hdl.symm hok hhead hkl.symm hk fun d3 γ3 hr3 hi3 => ?_)
  have hM3 := hM2.stable hr3 hi3
  have hsame3 := hr3.same o (Pic.inside_of_mine hrec2 hown1)
  have hrec3 := hsame3.recAt hrec2
  have hdat3 : γ3.pic.lay.datAt o = some data := hsame3.dat.trans hdat2
  have hown3 : γ3.pic.own o = .proc p := (hM3.here.own o).mpr hmine
  refine ⟨hrec3, Pic.inside_of_mine hrec3 hown3, _, rfl, Regroup.refl .., fun d4 hl4 hi4 => ?_⟩
  have hL := hi3.base.looks_rekey hrec3 hhead hkl.symm hk
  have hM4 := hM3.edit hmine hrec3 (hi3.base.edit_writeRec hrec3 hhead hkl.symm hk) hl4 hi4
  have hrec4 : (γ3.pic.lay.writeRec o r (os.headD 0) key).recAt o = some (r.rekey (os.headD 0) key) :=
    hL.recAt (update_self ..) (update_self ..) (regAt_of_recAt hrec3)
  change Safe (shared m₀ p) Q F (dbWriteptr _ ((db.chainoff : Nat) : Int) (o : Int)) _
  rw [hch]
  refine shared_link hM4 hrec4 rfl rfl ((congrFun hL.datAt o).trans hdat3) ho fun db' d' γ' hch' => hQ db' d' γ' ?_
  exact hch'

/-- The datum is appended, then its record, then the record is linked in. -/
theorem shared_storeAppend (hk : NoNul key) (hx : NoNul data) (hdat : ¬ BadDat data)
    (hM : Mid m₀ p key .wr evs [] none os v none (d, γ)) (hch : db.chainoff = cellOf (dbHash key))
    (hstop : ∀ e d' γ' mine pend, Mid m₀ p key .wr evs mine pend os v none (d', γ') → F e (d', γ'))
    (hQ : ∀ o, GoesOn m₀ p key evs db.chainoff (o :: os) v (some data) Q) :
    Safe (shared m₀ p) Q F (storeAppend p db key data (os.headD 0 : Nat)) (d, γ) := by
  unfold storeAppend
  refine safe_bind.mpr (shared_dbWritedat_end hx fun d1 γ1 hr1 hi1 d2 hl2 d3 γ3 hr3 hi3 => ?_)
  have hM1 := hM.stable hr1 hi1
  have hC1 := hM1.on.chain
  obtain rfl := hM1.on.list
  have hB2 : (γ1.pic.appendPend p data).Base := hi1.base.appendPend hx
  have hA2 : At p [(.wr, cellOf (dbHash key))] evs [] (some (γ1.pic.lay.dat.length, data.length + 1))
      (d2, { γ1 with pic := γ1.pic.appendPend p data }) :=
    hM1.here.setPic hl2 (γ1.pic.appendPend p data) hM1.here.own (update_self ..)
  have hO2 : OnChain key _ v none { γ1 with pic := γ1.pic.appendPend p data } :=
    hM1.on.frame (fun _ _ => rfl) rfl (fun _ => Iff.rfl) fun y _ => hi1.base.same_appendPend y
  have hM3 : Mid m₀ p key .wr evs [] (some (γ1.pic.lay.dat.length, data.length + 1)) (γ1.pic.ch (dbHash key)) v none
      (d3, γ3) :=
    ⟨hA2.stable hr3, hi3, hO2.stable hB2 hr3 (hA2.writing (mem_singleton.mpr rfl)).holding⟩
  -- the datum is where it was appended, whatever the others appended since
  have hhas3 : HasDatum γ3.pic.lay.dat γ1.pic.lay.dat.length (data.length + 1) data :=
    (γ1.pic.hasDatum_appendPend p hx).of_pread (hr3.bytes _ _ (update_self ..))
  by_cases hlen : BadLen (γ1.pic.newRec key data).text
  · exact safe_bind.mpr (safe_dbWriteidx_len (r := γ1.pic.newRec key data) rfl rfl hM.head_le hlen
      (hstop _ _ _ _ _ hM3))
  have hok := hC1.newRec_ok hi1.base hk hlen hdat
  refine safe_bind.mpr (shared_dbWriteidx_end rfl rfl hok fun d4 γ4 hr4 hi4 => ?_)
  have hM4 := hM3.stable hr4 hi4
  refine ⟨hM4.here.pend, fun d5 hl5 hi5 d6 γ6 hr6 hi6 => ?_⟩
  have hhas4 := hhas3.of_pread (hr4.bytes _ _ hM3.here.pend)
  have hM5 : Mid m₀ p key .wr evs [γ4.pic.lay.idxEnd] none (γ1.pic.ch (dbHash key)) v none
      (d5, { γ4 with pic := γ4.pic.appendRec p (γ1.pic.newRec key data) }) := by
    have hown := hi4.base.own_idxEnd
    refine ⟨hM4.here.setPic hl5 _ (hM4.here.own_update _) (update_self ..), hi5,
      hM4.on.frame (fun _ _ => rfl) rfl (fun _ => own_update_other nofun ?_) fun y hy => Pic.same_appendRec
        ((hM4.on.chain.row (dbHash_lt key)).ne hy ?_ (Pic.idxEnd_ge _))⟩ <;> rw [hown] <;> nofun
  have hrec5 : (γ4.pic.lay.addRec (γ1.pic.newRec key data)).recAt γ4.pic.lay.idxEnd = some (γ1.pic.newRec key data) := by
    rw [recAt_addRec, if_pos rfl]
  have hdat5 : (γ4.pic.lay.addRec (γ1.pic.newRec key data)).datAt γ4.pic.lay.idxEnd = some data := by
    rw [datAt_addRec, if_pos rfl]
    exact congrArg some hhas4.value
  have hM6 := hM5.stable hr6 hi6
  have hsame6 := hr6.same _ (Pic.inside_of_mine hrec5 ((hM5.here.own _).mpr (mem_singleton.mpr rfl)))
  by_cases hend : ptrMax < γ4.pic.lay.idxEnd
  · exact safe_dbWriteptr_big hend (hstop _ _ _ _ _ hM6)
  rw [hch]
  exact shared_link hM6 (hsame6.recAt hrec5) rfl rfl (hsame6.dat.trans hdat5) (by omega)
    fun db' d' γ' hch' => hQ _ db' d' γ' (hch'.trans hch.symm)

end Functions
end GokuStudio.Apue.Db

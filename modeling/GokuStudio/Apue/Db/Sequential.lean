import GokuStudio.Apue.Db.Machine

/-!
# One process alone

A process that is not disturbed runs the functions of `db.c` exactly as the
abstract machine says: from files that show a good picture, `db_store`,
`db_delete` and `db_fetch` come to an end, return or stop as the machine does,
and leave files that show the machine's new picture (`run_dbStore`,
`run_dbDelete`, `run_dbFetch`). Nothing here waits: all locks are its own.
-/

namespace GokuStudio.Apue.Db

open Lib Function Layout
open List hiding Chain

/-! ## §1 The rules of a lone process -/

/-- The files have this layout, and nobody else holds a lock. -/
structure Shows (pid : Nat) (d : Disk) (L : Layout) : Prop where
  idx : d.idx = L.idx
  dat : d.dat = L.dat
  wf : L.Wf
  alone : ∀ l ∈ d.locks, l.pid = pid

def solo (pid : Nat) : Rules Disk Layout where
  inv := Shows pid
  rely w w' := w'.2 = w.2
  guar _ _ := True
  wait := False
  rely_refl _ := rfl
  rely_trans h h' := h'.trans h

theorem solo_views (pid : Nat) : Views (solo pid) id := ⟨Shows.idx, Shows.dat, Shows.wf, fun _ => trivial⟩

variable {pid : Nat}

theorem solo_harmless (f : File) (kind : LockKind) (start len : Nat) :
    Harmless (solo pid) ⟨pid, f, kind, start, len⟩ := by
  refine ⟨fun {d L} hi => .inr ?_, fun {d L} hi _ => ⟨⟨hi.idx, hi.dat, hi.wf, ?_⟩, trivial, rfl⟩,
    fun {d L} hi => ⟨⟨hi.idx, hi.dat, hi.wf, ?_⟩, trivial, rfl⟩⟩
  · refine all_eq_true.mpr fun l hl => ?_
    simp [Lock.conflicts, hi.alone l hl]
  · intro l hl
    rcases Disk.mem_addLock hl with rfl | hl
    · rfl
    · exact hi.alone l hl
  · exact fun l hl => hi.alone l (Disk.mem_dropLock hl)

variable {start len c v o : Nat} {db : DB} {Q : DB × Int → Disk × Layout → Prop} {r : IdxRec} {d0 : Disk}

section
variable {α : Type} {d : Disk} {L : Layout} {F : Err → Disk × Layout → Prop} {f : File}

/-- The next picture's layout, on the disk the write leaves. -/
theorem Shows.setIdx {L' : Layout} (hi : Shows pid d L) (hdat : L'.dat = L.dat) (hwf : L'.Wf) :
    Shows pid { d with idx := L'.idx } L' :=
  ⟨rfl, hi.dat.trans hdat.symm, hwf, hi.alone⟩

theorem Shows.setDat {b : Bytes} (hi : Shows pid d L) : Shows pid { d with dat := b } (L.setDat b) :=
  ⟨hi.idx, rfl, hi.wf.setDat b, hi.alone⟩

theorem solo_lock (kind : LockKind) {Q : Unit → Disk × Layout → Prop} (h : ∀ d', Q () (d', L)) : Safe (solo pid) Q F
      (match kind with | .wr => writewLock pid f start len | .rd => readwLock pid f start len)
      (d, L) := by
  cases kind with
  | wr => exact (solo_harmless f .wr start len).safe_lock fun d' _ hr _ => by cases hr; exact h d'
  | rd => exact (solo_harmless f .rd start len).safe_lock fun d' _ hr _ => by cases hr; exact h d'

theorem solo_unLock {Q : Unit → Disk × Layout → Prop}
    (h : ∀ d', Q () (d', L)) : Safe (solo pid) Q F (unLock pid f start len) (d, L) :=
  (solo_harmless f .wr start len).safe_unlock fun d' _ hr _ => by cases hr; exact h d'

theorem solo_dbReadptr (hv : L.ptrAt c = some v)
    (h : ∀ d', Shows pid d' L → Q ({ db with idxpos := c + ptrSz }, (v : Int)) (d', L)) :
    Safe (solo pid) Q F (dbReadptr db (c : Int)) (d, L) := by
  refine safe_dbReadptr (solo_views pid) fun d' L' hr hi => ⟨v, ?_⟩
  cases hr
  exact ⟨hv, h d' hi⟩

theorem solo_dbWriteptr (hc : ∃ v0, L.ptrAt c = some v0) (hv : v ≤ ptrMax)
    {Q : DB → Disk × Layout → Prop}
    (h : ∀ d', Q { db with idxpos := c + ptrSz } (d', L.setPtr c v)) :
    Safe (solo pid) Q F (dbWriteptr db (c : Int) (v : Int)) (d, L) := by
  refine safe_dbWriteptr (solo_views pid) hv fun d' L' hr hi => ?_
  cases hr
  obtain ⟨v0, hc⟩ := hc
  exact ⟨⟨v0, hc⟩, L.setPtr c v, hi.setIdx (L.setPtr_dat c v) (hi.wf.setPtr hc hv), trivial, h _⟩

theorem solo_dbWriteidx {key : Bytes} (hwf : L.Wf)
    (hr : L.recAt o = some r) (hoff : db.datoff = r.datoff) (hlen : db.datlen = r.datlen)
    (hv : v ≤ ptrMax) (hk : key.length = r.key.length) (hnul : NoNul key)
    {Q : DB → Disk × Layout → Prop}
    (h : ∀ d', Q (db.wroteIdx o (r.rekey v key)) (d', L.writeRec o r v key)) :
    Safe (solo pid) Q F (dbWriteidx pid db key (o : Int) .seekSet (v : Int)) (d, L) := by
  have hok := hwf.recAt_ok hr
  have hok' := hok.rekey hv hk hnul
  have hoff' : db.datoff = (r.rekey v key).datoff := hoff
  refine safe_dbWriteidx_at hoff' hlen (solo_views pid) hok' fun d' L' hrely hi => ?_
  cases hrely
  exact ⟨⟨r, hr, IdxRec.length_encode_rekey hok hv hk hnul⟩, L.writeRec o r v key,
    hi.setIdx rfl (hwf.setRec hr hok'), trivial, h _⟩

theorem solo_dbWritedat {x : Bytes} {Q : DB → Disk × Layout → Prop}
    (h : ∀ d', Q { db with datoff := r.datoff, datlen := x.length + 1 } (d', L.writeDat r x)) :
    Safe (solo pid) Q F (dbWritedat pid db x (r.datoff : Int) .seekSet) (d, L) := by
  refine safe_dbWritedat_at (solo_views pid) fun d' L' hrely hi => ?_
  cases hrely
  exact ⟨L.writeDat r x, hi.setDat, trivial, h _⟩

end

/-! ## §2 The functions -/

section Functions
variable {d : Disk} {P : Pic} {key data : Bytes} {F : Err → Disk × Layout → Prop}

theorem linked_of_chain {L : Layout} : ∀ {os : List Nat} {c p : Nat}, Chain L.ptrAt c os →
    L.ptrAt c = some p → (∀ o ∈ os, L.recAt o = some (L.view o)) → Linked L.view p os
  | [], c, p, hch, hp, _ => by
    rw [Chain, hp] at hch
    exact Option.some.inj hch
  | o :: os, c, p, hch, hp, hrec => by
    obtain ⟨ho, hne, hos⟩ := hch
    rw [hp] at ho
    refine ⟨Option.some.inj ho, hne, linked_of_chain hos ?_ fun x hx => hrec x (by simp [hx])⟩
    exact ptrAt_of_recAt (hrec o (by simp))

/-- `_db_find_and_lock` from where the chain is locked. -/
def findLocked (db : DB) (key : Bytes) : DbM (DB × Int) := do
  let (db, offset) ← dbReadptr db db.ptroff
  let (db, offset) ← findLoop walkFuel db key offset
  pure (db, if offset = 0 then -1 else 0)

theorem solo_find (hG : P.Good) {writelock : Bool} (hstray : P.find key = .stray → ∀ d', F sepErr (d', P.lay))
    (hhit : ∀ c o, P.find key = .hit c o → ∀ db' : DB, db'.chainoff = cellOf (dbHash key) →
      ∀ d', Q ({ db'.loaded o (P.lay.view o) with ptroff := c }, 0) (d', P.lay))
    (hmiss : P.find key = .miss → ∀ db' : DB, db'.chainoff = cellOf (dbHash key) → ∀ d', Q (db', -1) (d', P.lay)) :
    Safe (solo pid) Q F (dbFindAndLock pid db key writelock) (d, P.lay) := by
  have hC := hG.chain _ (dbHash_lt key)
  have hrec : ∀ o ∈ P.ch (dbHash key), P.lay.recAt o = some (P.lay.view o) := fun _ =>
    (hC.row (dbHash_lt key)).recAt_view hG.base
  have hlink := linked_of_chain hC.chain hC.chain.head hrec
  have hlock : ∀ (db' : DB) (d' : Disk), db'.chainoff = cellOf (dbHash key) → db'.ptroff = (cellOf (dbHash key) : Nat) →
      Safe (solo pid) Q F (findLocked db' key) (d', P.lay) := by
    intro db' d' hch hptr
    rw [findLocked, hptr]
    refine safe_bind.mpr (solo_dbReadptr hC.chain.head fun d2 hi2 => ?_)
    refine safe_bind.mpr (safe_findLoop (solo_views pid) (hC.list.length_lt hG.base) hlink hptr
      ((solo pid).rely_refl (d2, P.lay)) hi2 ?_ ?_ ?_ ?_)
    · intro d3 L hr _ o ho
      cases hr
      exact hrec o ho
    · intro hs d3 L hr _
      cases hr
      exact hstray hs d3
    · intro c o hs db3 hch3 d3 L hr _
      cases hr
      obtain ⟨-, pre, post, r, -, -, hr, -⟩ := hG.find_hit hs
      have hne : ¬ (o : Int) = 0 := Int.natCast_ne_zero.mpr (recAt_ne_zero hr)
      simp only [if_neg hne]
      exact hhit c o hs db3 (hch3.trans hch) d3
    · intro hs db3 hch3 d3 L hr _
      cases hr
      simp only [if_true]
      exact hmiss hs db3 (hch3.trans hch) d3
  unfold dbFindAndLock
  cases writelock with
  | true => exact safe_bind.mpr (solo_lock .wr fun d' => hlock _ d' rfl rfl)
  | false => exact safe_bind.mpr (solo_lock .rd fun d' => hlock _ d' rfl rfl)

/-- A cell stays a cell when pointers are written. -/
theorem exists_update {ptr : Nat → Option Nat} (y w : Nat)
    (hc : ∃ v, ptr c = some v) : ∃ v, update ptr y (some w) c = some v := by
  by_cases hcy : c = y
  · exact ⟨w, by rw [hcy, update_self]⟩
  · rwa [update_of_ne hcy]

theorem length_blanks (n : Nat) : (blanks n).length = n := length_replicate ..

variable (hG : P.Good)
include hG

theorem solo_dodelete {h : Nat} (hh : h < nhashDef) {pre post : List Nat}
    (hsplit : P.ch h = pre ++ o :: post) (hr : P.lay.recAt o = some r) {Q : DB → Disk × Layout → Prop}
    (hQ : ∀ db' : DB, db'.chainoff = db.chainoff → ∀ d', Q db' (d', (P.delete h (lastCell (cellOf h) pre) o).lay)) :
    Safe (solo pid) Q F
      (dbDodelete pid { db.loaded o r with ptroff := lastCell (cellOf h) pre }) (d, P.lay) := by
  obtain ⟨h1, h2, h3, -⟩ := Pic.looks_delete hG hh hsplit hr
  have hlay : (P.delete h (lastCell (cellOf h) pre) o).lay =
      (((P.lay.writeDat r (blanks (r.datlen - 1))).writeRec o r (P.fl.headD 0)
        (blanks r.key.length)).setPtr freeOff o).setPtr (lastCell (cellOf h) pre) r.ptr := by
    rw [Pic.delete, view_of_recAt hr]
  have hok := hG.base.wf.recAt_ok hr
  have hpos := hok.dat_pos
  have hC := hG.chain h hh
  have hmem : o ∈ P.ch h := by rw [hsplit]; simp
  have hfree := hG.free.chain.head
  obtain ⟨hlast, -, -⟩ := hC.list.cell_facts hG.base (cellOf_lt hh) hsplit
  rw [hlay] at hQ
  unfold dbDodelete
  refine safe_bind.mpr (solo_lock .wr fun d1 => ?_)
  refine safe_bind.mpr (solo_dbWritedat fun d2 => ?_)
  refine safe_bind.mpr (solo_dbReadptr (h1.ptrAt ▸ hfree) fun d3 _ => ?_)
  refine safe_bind.mpr (solo_dbWriteidx h1.wf hr rfl ?_
    (hG.base.wf.ptrAt_le hfree) (length_blanks _) (nul_notMem_blanks _) fun d4 => ?_)
  · change (replicate (r.datlen - 1) space).length + 1 = r.datlen
    rw [length_replicate]
    omega
  refine safe_bind.mpr (solo_dbWriteptr ?_ (hC.list.le hG.base hmem) fun d5 => ?_)
  · rw [h2.ptrAt]
    exact exists_update _ _ ⟨_, hfree⟩
  refine safe_bind.mpr (solo_dbWriteptr ?_ hok.ptr_le fun d6 => ?_)
  · rw [h3.ptrAt]
    exact exists_update _ _ (exists_update _ _ ⟨o, hlast⟩)
  refine safe_bind.mpr (solo_unLock fun d7 => safe_ret.mpr (hQ _ ?_ d7))
  rfl

theorem solo_findfree {kl dl : Nat}
    (hnone : searchFree P.lay.view kl dl freeOff P.fl = none → ∀ db' : DB,
      db'.chainoff = db.chainoff → ∀ d', Q (db', -1) (d', P.lay))
    (hsome : ∀ c o, searchFree P.lay.view kl dl freeOff P.fl = some (c, o) → ∀ db' : DB, db'.chainoff = db.chainoff → ∀ d',
        Q ({ db'.loaded o (P.lay.view o) with idxpos := c + ptrSz }, 0)
          (d', P.lay.setPtr c (P.lay.view o).ptr)) :
    Safe (solo pid) Q F (dbFindfree pid db kl dl) (d, P.lay) := by
  have hF := hG.free
  have hrec : ∀ o ∈ P.fl, P.lay.recAt o = some (P.lay.view o) := fun _ => hF.row.recAt_view hG.base
  have hlink := linked_of_chain hF.chain hF.chain.head hrec
  unfold dbFindfree
  refine safe_bind.mpr (solo_lock .wr fun d1 => ?_)
  refine safe_bind.mpr (solo_dbReadptr hF.chain.head fun d2 hi2 => ?_)
  refine safe_bind.mpr (safe_freeLoop (solo_views pid) (hF.list.length_lt hG.base) hlink
    ((solo pid).rely_refl (d2, P.lay)) hi2 ?_ (fun _ => hF.sep_notMem hG.base) ?_ ?_)
  · intro d3 L hr _ o ho
    cases hr
    exact hrec o ho
  · intro c o hs db3 hch d3 L hr _
    cases hr
    obtain ⟨pre, post, r, hsplit, rfl, hro, -, -⟩ := hG.free.searchFree_some hG.base hs
    have hne : ¬ (o : Int) = 0 := Int.natCast_ne_zero.mpr (recAt_ne_zero hro)
    obtain ⟨hlast, -, -⟩ := hF.list.cell_facts hG.base freeOff_lt hsplit
    simp only [if_neg hne]
    refine safe_bind.mpr (solo_dbWriteptr ⟨o, hlast⟩ ?_ fun d4 => ?_)
    · rw [view_of_recAt hro]
      exact (hG.base.wf.recAt_ok hro).ptr_le
    · exact safe_bind.mpr (solo_unLock fun d5 => safe_ret.mpr (hsome _ o hs db3 hch d5))
  · intro hs db3 cell hch d3 L hr _
    cases hr
    simp only [if_true]
    exact safe_bind.mpr (solo_unLock fun d4 => safe_ret.mpr (hnone hs db3 hch d4))

section

/-- A call that ends as the machine does: it returns 0 or stops. -/
abbrev Agrees (R : Result Err Int × Pic) (chainoff : Nat) : DB → Disk × Layout → Prop :=
  fun db w => R.1 = .ok 0 ∧ db.chainoff = chainoff ∧ w.2 = R.2.lay

abbrev Stops (R : Result Err Int × Pic) : Err → Disk × Layout → Prop := fun e w => R.1 = .stopped e ∧ w.2 = R.2.lay

variable (hk : NoNul key) (hx : NoNul data) (hch : db.chainoff = cellOf (dbHash key))
include hk hx hch

theorem solo_storeAppend (hdat : ¬ BadDat data) :
    Safe (solo pid) (Agrees (P.storeAppend key data) db.chainoff) (Stops (P.storeAppend key data))
      (storeAppend pid db key data ((P.ch (dbHash key)).headD 0 : Nat)) (d, P.lay) := by
  have hhead := (hG.chain _ (dbHash_lt key)).chain.head
  unfold storeAppend Pic.storeAppend
  refine safe_bind.mpr (safe_dbWritedat_end (solo_views pid) (solo_harmless ..) fun d1 L hr hi => ?_)
  obtain rfl : L = P.lay := hr
  refine ⟨(P.appendDat data).lay, hi.setDat, trivial, fun d2 L hr _ => ?_⟩
  obtain rfl : L = (P.appendDat data).lay := hr
  by_cases hlen : BadLen (P.newRec key data).text
  · rw [if_pos hlen]
    exact safe_bind.mpr (safe_dbWriteidx_len rfl rfl (hG.base.wf.ptrAt_le hhead) hlen ⟨rfl, rfl⟩)
  have hok := (hG.chain _ (dbHash_lt key)).newRec_ok hG.base hk hlen hdat
  have hL := Pic.looks_appendLost hG hx hok
  refine safe_bind.mpr (safe_dbWriteidx_end rfl rfl (solo_views pid) (solo_harmless ..) hok fun d3 L hr hi => ?_)
  obtain rfl : L = (P.appendDat data).lay := hr
  refine ⟨(P.appendLost key data).lay, hi.setIdx rfl hL.wf, trivial, fun d4 L hr _ => ?_⟩
  obtain rfl : L = (P.appendLost key data).lay := hr
  by_cases hend : ptrMax < P.lay.idxEnd
  · rw [if_neg hlen, if_pos hend]
    exact safe_dbWriteptr_big hend ⟨rfl, rfl⟩
  rw [if_neg hlen, if_neg hend]
  refine solo_dbWriteptr (v := P.lay.idxEnd) ?_ (by omega) fun d5 => ⟨rfl, rfl, ?_⟩
  · rw [hL.ptrAt, hch]
    exact exists_update _ _ ⟨_, hhead⟩
  · rw [hch]
    rfl

theorem solo_storeReuse (hs : searchFree P.lay.view key.length (data.length + 1) freeOff P.fl = some (c, o)) :
    Safe (solo pid) (fun db' w => db'.chainoff = db.chainoff ∧ w.2 = (P.reuse c o key data).lay) F
      (storeReuse pid { db.loaded o (P.lay.view o) with idxpos := c + ptrSz } key data
        ((P.ch (dbHash key)).headD 0 : Nat)) (d, P.lay.setPtr c (P.lay.view o).ptr) := by
  obtain ⟨pre, post, r, hsplit, rfl, hr, hkl, hdl⟩ := hG.free.searchFree_some hG.base hs
  have hmem : o ∈ P.fl := by rw [hsplit]; simp
  have hhead := (hG.chain _ (dbHash_lt key)).chain.head
  obtain ⟨-, h2, h3, -⟩ := Pic.looks_reuse hG hsplit hr hkl.symm hdl.symm hk hx
  have hlay : (P.reuse (lastCell freeOff pre) o key data).lay =
      (((P.lay.setPtr (lastCell freeOff pre) r.ptr).writeDat r data).writeRec o r
        ((P.ch (dbHash key)).headD 0) key).setPtr (cellOf (dbHash key)) o := by
    rw [Pic.reuse, view_of_recAt hr]
  have hr2 : ((P.lay.setPtr (lastCell freeOff pre) r.ptr).writeDat r data).recAt o = some r := by
    refine h2.recAt ?_ ?_ ?_
    · obtain ⟨-, hlo, -⟩ := hG.free.list.cell_facts hG.base freeOff_lt hsplit
      rw [update_of_ne hlo.symm, ptrAt_of_recAt hr]
    · exact keyAt_of_recAt hr
    · exact regAt_of_recAt hr
  rw [hlay, view_of_recAt hr]
  unfold storeReuse
  refine safe_bind.mpr (solo_dbWritedat fun d2 => ?_)
  refine safe_bind.mpr (solo_dbWriteidx h2.wf hr2 rfl hdl.symm (hG.base.wf.ptrAt_le hhead) hkl.symm hk fun d3 => ?_)
  refine solo_dbWriteptr (c := db.chainoff) ?_ (hG.free.list.le hG.base hmem) fun d4 => ⟨rfl, ?_⟩
  · rw [h3.ptrAt, hch]
    exact exists_update _ _ (exists_update _ _ ⟨_, hhead⟩)
  · rw [hch]

theorem solo_storeNew (hdat : ¬ BadDat data) :
    Safe (solo pid) (Agrees (P.storeNew key data) db.chainoff) (Stops (P.storeNew key data))
      (storeNew pid db key data) (d, P.lay) := by
  have hhead := (hG.chain _ (dbHash_lt key)).chain.head
  unfold storeNew Pic.storeNew
  refine safe_bind.mpr (solo_dbReadptr (hch ▸ hhead) fun d1 _ => ?_)
  refine safe_bind.mpr (solo_findfree hG (fun hs db' hch' d' => ?_) fun c o hs db' hch' d' => ?_)
  · rw [hs]
    refine (solo_storeAppend hG hk hx (hch'.trans hch) hdat).mono (fun db2 w hw => ?_) fun e w hw => hw
    exact ⟨hw.1, hw.2.1.trans hch', hw.2.2⟩
  · rw [hs]
    refine (solo_storeReuse hG hk hx (hch'.trans hch) hs).mono (fun db2 w hw => ?_) fun e w hw => hw
    exact ⟨rfl, hw.1.trans hch', hw.2⟩

theorem solo_storeOver (hdat : ¬ BadDat data) (hf : P.find key = .hit c o) :
    Safe (solo pid) (Agrees (P.storeOver c o key data) db.chainoff) (Stops (P.storeOver c o key data))
      (storeOver pid { db.loaded o (P.lay.view o) with ptroff := c } key data) (d, P.lay) := by
  obtain ⟨-, pre, post, r, hsplit, rfl, hr, rfl⟩ := hG.find_hit hf
  have hh := dbHash_lt r.key
  unfold storeOver Pic.storeOver
  by_cases hlen : data.length + 1 ≠ (P.lay.view o).datlen
  · have hlen' : data.length + 1 ≠ ({ db.loaded o (P.lay.view o) with
        ptroff := lastCell (cellOf (dbHash r.key)) pre } : DB).datlen := hlen
    have hG' := hG.delete hh hsplit hr
    rw [if_pos hlen, if_pos hlen', view_of_recAt hr]
    refine safe_bind.mpr (solo_dodelete hG hh hsplit hr fun db' hch' d' => ?_)
    have hcell : db'.chainoff = cellOf (dbHash r.key) := hch'.trans hch
    rw [hcell]
    refine safe_bind.mpr (solo_dbReadptr (hG'.chain _ hh).chain.head fun d2 _ => ?_)
    refine (solo_storeAppend hG' hk hx hcell hdat).mono (fun db2 w hw => ?_) fun e w hw => hw
    exact ⟨hw.1, hw.2.1.trans hch', hw.2.2⟩
  · have hlen' : ¬ data.length + 1 ≠ ({ db.loaded o (P.lay.view o) with
        ptroff := lastCell (cellOf (dbHash r.key)) pre } : DB).datlen := hlen
    rw [if_neg hlen, if_neg hlen']
    exact solo_dbWritedat fun d2 => ⟨rfl, rfl, rfl⟩

omit hch in
theorem solo_dbStore {flag : Int} : Safe (solo pid)
      (fun a w => (P.store key data flag).1 = .ok a.2 ∧ w.2 = (P.store key data flag).2.lay)
      (Stops (P.store key data flag)) (dbStore pid db key data flag) (d, P.lay) := by
  unfold dbStore Pic.store
  by_cases hflag : BadFlag flag
  · rw [if_pos hflag, if_pos hflag]
    exact ⟨rfl, rfl⟩
  rw [if_neg hflag, if_neg hflag]
  by_cases hdat : BadDat data
  · rw [if_pos hdat, if_pos hdat]
    exact ⟨rfl, rfl⟩
  rw [if_neg hdat, if_neg hdat]
  refine safe_bind.mpr (solo_find hG (fun hf d' => ?_) (fun c o hf db' hch d' => ?_) fun hf db' hch d' => ?_)
  · rw [hf]
    exact ⟨rfl, rfl⟩
  · rw [hf]
    by_cases hins : flag = flagInsert
    · simp only [if_pos hins, Int.lt_irrefl, if_false]
      exact safe_bind.mpr (solo_unLock fun d2 => safe_ret.mpr ⟨rfl, rfl⟩)
    simp only [if_neg hins, Int.lt_irrefl, if_false]
    refine safe_bind.mpr ((solo_storeOver hG hk hx hch hdat hf).mono (fun db2 w hw => ?_) fun e w hw => hw)
    obtain ⟨d2, L⟩ := w
    exact safe_bind.mpr (solo_unLock fun d3 => safe_ret.mpr ⟨hw.1, hw.2.2⟩)
  · rw [hf]
    have hneg : (-1 : Int) < 0 := by decide
    by_cases hrep : flag = flagReplace
    · simp only [if_pos hrep, if_pos hneg]
      exact safe_bind.mpr (solo_unLock fun d2 => safe_ret.mpr ⟨rfl, rfl⟩)
    simp only [if_neg hrep, if_pos hneg]
    refine safe_bind.mpr ((solo_storeNew hG hk hx hch hdat).mono (fun db2 w hw => ?_) fun e w hw => hw)
    obtain ⟨d2, L⟩ := w
    exact safe_bind.mpr (solo_unLock fun d3 => safe_ret.mpr ⟨hw.1, hw.2.2⟩)

end

theorem solo_dbDelete : Safe (solo pid) (fun a w => (P.remove key).1 = .ok a.2 ∧ w.2 = (P.remove key).2.lay)
      (Stops (P.remove key)) (dbDelete pid db key) (d, P.lay) := by
  unfold dbDelete Pic.remove
  refine safe_bind.mpr (solo_find hG (fun hf d' => ?_) (fun c o hf db' hch d' => ?_) fun hf db' hch d' => ?_)
  · rw [hf]
    exact ⟨rfl, rfl⟩
  · rw [hf]
    simp only [if_true]
    obtain ⟨-, pre, post, r, hsplit, rfl, hr, rfl⟩ := hG.find_hit hf
    rw [view_of_recAt hr]
    refine safe_bind.mpr (solo_dodelete hG (dbHash_lt _) hsplit hr fun db2 hch2 d2 => ?_)
    exact safe_bind.mpr (solo_unLock fun d3 => safe_ret.mpr ⟨rfl, rfl⟩)
  · rw [hf]
    have hne : ¬ (-1 : Int) = 0 := by decide
    simp only [if_neg hne]
    exact safe_bind.mpr (solo_unLock fun d2 => safe_ret.mpr ⟨rfl, rfl⟩)

theorem solo_dbFetch : Safe (solo pid) (fun a w => P.fetch key = .ok a.2 ∧ w.2 = P.lay)
      (fun e w => P.fetch key = .stopped e ∧ w.2 = P.lay) (dbFetch pid db key) (d, P.lay) := by
  unfold dbFetch Pic.fetch
  refine safe_bind.mpr (solo_find hG (fun hf d' => ?_) (fun c o hf db' hch d' => ?_) fun hf db' hch d' => ?_)
  · rw [hf]
    exact ⟨rfl, rfl⟩
  · rw [hf]
    simp only [Int.lt_irrefl, if_false]
    obtain ⟨-, pre, post, r, -, -, hr, -⟩ := hG.find_hit hf
    rw [view_of_recAt hr]
    have hoff : ({ db'.loaded o r with ptroff := (c : Int) } : DB).datoff = (r.datoff : Nat) := rfl
    refine safe_bind.mpr (safe_dbReaddat (solo_views pid) hoff fun d2 L hrel _ => ?_)
    obtain rfl : L = P.lay := hrel
    refine ⟨P.lay.datum r, hG.base.dat.has hr, ?_⟩
    exact safe_bind.mpr (solo_unLock fun d3 => safe_ret.mpr ⟨rfl, rfl⟩)
  · rw [hf]
    have hneg : (-1 : Int) < 0 := by decide
    simp only [if_pos hneg]
    exact safe_bind.mpr (solo_unLock fun d2 => safe_ret.mpr ⟨rfl, rfl⟩)

end Functions

/-! ## §3 Runs -/

section Run
variable {d : Disk} {P : Pic} {key data : Bytes}

theorem run_of_solo {α : Type} {prog : DbM (DB × α)} {R : Result Err α} {L L' : Layout}
    (hS : Shows pid d L)
    (h : Safe (solo pid) (fun a w => R = .ok a.2 ∧ w.2 = L') (fun e w => R = .stopped e ∧ w.2 = L')
      prog (d, L)) :
    ∃ db' d', Shows pid d' L' ∧ run prog d = (R.map (Prod.mk db'), d') := by
  rcases h.run_alone id hS with ⟨a, d', L1, hrun, hS', rfl, rfl⟩ | ⟨e, d', L1, hrun, hS', rfl, rfl⟩
  · exact ⟨a.1, d', hS', hrun⟩
  · exact ⟨dbAlloc, d', hS', hrun⟩

variable (db) (hG : P.Good) (hS : Shows pid d P.lay)
include hG hS

theorem run_dbStore (hk : NoNul key) (hx : NoNul data) (flag : Int) :
    ∃ db' d', Shows pid d' (P.store key data flag).2.lay ∧
      run (dbStore pid db key data flag) d = ((P.store key data flag).1.map (Prod.mk db'), d') :=
  run_of_solo hS (solo_dbStore hG hk hx)

theorem run_dbDelete (key : Bytes) :
    ∃ db' d', Shows pid d' (P.remove key).2.lay ∧ run (dbDelete pid db key) d = ((P.remove key).1.map (Prod.mk db'), d') :=
  run_of_solo hS (solo_dbDelete hG)

theorem run_dbFetch (key : Bytes) : ∃ db' d', Shows pid d' P.lay ∧
      run (dbFetch pid db key) d = ((P.fetch key).map (Prod.mk db'), d') :=
  run_of_solo hS (solo_dbFetch hG)

end Run

/-! ## §4 A fresh database -/

/-- The picture of a fresh database. -/
def Pic.empty : Pic where
  lay := { table := List.replicate (nhashDef + 1) 0, recs := [], dat := [] }
  own _ := .nobody
  ch _ := []
  fl := []
  pend _ := none

theorem Pic.empty_ptrAt {i : Nat} (hi : i < nhashDef + 1) : Pic.empty.lay.ptrAt (i * ptrSz) = some 0 := by
  have hlt : i * ptrSz < recOff := by
    have : (nhashDef + 1) * 6 + 1 = recOff := rfl
    have : i * ptrSz = i * 6 := rfl
    omega
  rw [ptrAt, if_pos hlt, if_pos (Nat.mul_mod_left ..), Nat.mul_div_cancel _ (by decide)]
  change (replicate (nhashDef + 1) 0)[i]? = some 0
  rw [getElem?_replicate, if_pos hi]

theorem Pic.good_empty : Pic.empty.Good := by
  have hnone : ∀ o, Pic.empty.lay.recAt o = none := fun _ => rfl
  refine ⟨⟨⟨length_replicate .., fun p hp => ?_, fun r hr => ?_⟩, ?_, fun o => ?_⟩,
    fun h hh => ⟨?_, fun o => ?_, fun o ho => ?_, fun o ho => ?_⟩,
    ⟨?_, fun o => ?_, fun o ho => ?_⟩, fun p => ⟨rfl, fun o => Owner.noConfusion⟩⟩
  · rw [eq_of_mem_replicate hp]
    exact Nat.zero_le _
  · exact absurd hr (by simp [Pic.empty])
  · exact ⟨fun hr => absurd hr (by simp [hnone]), fun hr => absurd hr (by simp [hnone]),
      fun hp => absurd hp (by simp [Pic.empty]), fun hp => absurd hp (by simp [Pic.empty]),
      fun hp => absurd hp (by simp [Pic.empty])⟩
  · exact ⟨fun _ => rfl, fun _ => rfl⟩
  · have := Pic.empty_ptrAt (Nat.succ_lt_succ hh)
    rwa [Nat.succ_mul] at this
  · exact ⟨fun ho => absurd ho (not_mem_nil), Owner.noConfusion⟩
  · exact absurd ho not_mem_nil
  · exact absurd ho not_mem_nil
  · exact Pic.empty_ptrAt (i := 0) (by decide)
  · exact ⟨fun ho => absurd ho (not_mem_nil), Owner.noConfusion⟩
  · exact absurd ho not_mem_nil

theorem Pic.means_empty : Pic.empty.Means fun _ => none := fun _ _ _ _ =>
  ⟨fun he => Option.noConfusion rfl (heq_of_eq he), fun ⟨_, ho, _⟩ => absurd ho not_mem_nil⟩

theorem Pic.empty_idx : Pic.empty.lay.idx =
    (replicate (nhashDef + 1) (padLeft ptrSz (dec 0))).flatten ++ [newline] := by
  rw [idx, front]
  change (replicate (nhashDef + 1) 0).flatMap _ ++ [newline] ++ [] = _
  rw [append_nil, flatMap_def, map_replicate]

variable (h : ∀ l ∈ d0.locks, l.pid = pid)
include h

theorem run_dbOpen_eq : run (dbOpen pid) d0 = (.ok (dbRewind dbAlloc),
      ((({ d0 with idx := [], dat := [] } : Disk).addLock ⟨pid, .idx, .wr, 0, 0⟩).setFile .idx
        (pwrite [] 0 Pic.empty.lay.idx)).dropLock ⟨pid, .idx, .wr, 0, 0⟩) := by
  have hg : d0.grants ⟨pid, .idx, .wr, 0, 0⟩ = true := all_eq_true.mpr fun l hl => by simp [Lock.conflicts, h l hl]
  have hrun : run (dbOpen pid) d0 = if d0.grants ⟨pid, .idx, .wr, 0, 0⟩ then (.ok (dbRewind dbAlloc),
        ((({ d0 with idx := [], dat := [] } : Disk).addLock ⟨pid, .idx, .wr, 0, 0⟩).setFile .idx
          (pwrite [] 0 ((replicate (nhashDef + 1) (padLeft ptrSz (dec 0))).flatten ++
            [newline]))).dropLock ⟨pid, .idx, .wr, 0, 0⟩)
      else (.blocked, { d0 with idx := [], dat := [] }) := rfl
  rw [hrun, if_pos hg, ← Pic.empty_idx]

/-- `db_open` leaves a fresh database. -/
theorem run_dbOpen : ∃ d, run (dbOpen pid) d0 = (.ok (dbRewind dbAlloc), d) ∧ Shows pid d Pic.empty.lay := by
  have hidx : ∀ (b : Bytes) (d : Disk) (l : Lock),
      ((d.setFile .idx (pwrite [] 0 b)).dropLock l).idx = b := fun b _ _ => pwrite_end [] b
  refine ⟨_, run_dbOpen_eq h, hidx _ _ _, rfl, Pic.good_empty.base.wf, fun l hl => ?_⟩
  have hl' := Disk.mem_dropLock hl
  rw [Disk.setFile_locks] at hl'
  rcases Disk.mem_addLock hl' with rfl | hl'
  · rfl
  · exact h l hl'

end GokuStudio.Apue.Db

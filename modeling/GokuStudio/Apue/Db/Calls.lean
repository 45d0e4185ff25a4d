import GokuStudio.Apue.Db.Concurrent

/-!
# Whole calls among other processes

`_db_dodelete` is the one place where a chain is out of order for a while. The
record is in nobody's chain as soon as its key is blank, and the chain is in
order as soon as the cell in front of it is written; in between, it is the
chain that this last write *will* produce that is in order (`Detached`).

A call counts at the moment it gives its chain lock back. `shared_dbStore`,
`shared_dbDelete` and `shared_dbFetch` say that from a process that has finished
the calls `evs` each of them leads to a process that has finished one more, with
the result that the finite map gives.
-/

namespace GokuStudio.Apue.Db

open Lib List Layout
open Function (update update_eq_self update_idem update_of_ne update_self)

variable {db : DB}

section Functions

variable {m₀ : Map} {p y : Nat} {d : Disk} {γ : Ghost} {key data x : Bytes} {os : List Nat}
  {v v' : Option Bytes} {evs : List (Op × Option Res)} {F : Err → Disk × Ghost → Prop} {Q : DB → Disk × Ghost → Prop} {kind : LockKind} {op : Op}

/-! ## §1 Deleting -/

/-- The record at `o` is out of the chain `h`: it is in the hand of `p`, blank,
and points into the free list. The cell in front of it still points to it. -/
def Pic.cut (P : Pic) (p h o : Nat) (r : IdxRec) : Pic :=
  { P with
    lay := P.lay.writeRec o r (P.fl.headD 0) (blanks r.key.length)
    own := update P.own o (.proc p)
    ch := update P.ch h ((P.ch h).erase o) }

/-- The record at `o`, in the hand of `p`, becomes the head of the free list. -/
def Pic.release (P : Pic) (o : Nat) : Pic :=
  { P with
    lay := P.lay.setPtr freeOff o
    own := update P.own o .free
    fl := o :: P.fl }

/-- The chain as it will be once `c` points to `v`. -/
def Pic.point (P : Pic) (c v : Nat) : Pic := { P with lay := P.lay.setPtr c v }

section Delete
variable {P : Pic} {h o : Nat} {pre post : List Nat} {r : IdxRec} {m : Map}

theorem cut_ch (hC : P.ChainOk h) (hsplit : P.ch h = pre ++ o :: post) : (P.cut p h o r).ch h = pre ++ post := by
  change update P.ch h ((P.ch h).erase o) h = _
  rw [update_self, hsplit]
  exact erase_of_split (hsplit ▸ hC.chain.nodup)

variable (hB : P.Base) (hC : P.ChainOk h) (hF : P.FreeOk) (hh : h < nhashDef)
  (hsplit : P.ch h = pre ++ o :: post) (hr : P.lay.recAt o = some r)

include hB hF hr

theorem looks_cut : Looks (P.cut p h o r).lay P.pend (update P.lay.ptrAt o (some (P.fl.headD 0)))
      (update P.lay.keyAt o (some (blanks r.key.length))) P.lay.datAt P.lay.regAt
      P.lay.sizes :=
  hB.looks_rekey hr (hB.wf.ptrAt_le hF.chain.head) (length_blanks _) (nul_notMem_blanks _)

include hC hh hsplit

/-- The chain without the record, and the cell in front of it written. -/
theorem looks_cut_point : Looks ((P.cut p h o r).point (lastCell (cellOf h) pre) r.ptr).lay P.pend
      (update (update P.lay.ptrAt o (some (P.fl.headD 0)))
        (lastCell (cellOf h) pre) (some r.ptr))
      (update P.lay.keyAt o (some (blanks r.key.length))) P.lay.datAt P.lay.regAt
      P.lay.sizes := by
  obtain ⟨hlast, hco, -⟩ := hC.list.cell_facts hB (cellOf_lt hh) hsplit
  rw [← update_of_ne hco (some (P.fl.headD 0)) P.lay.ptrAt] at hlast
  exact (looks_cut hB hF hr).setPtr hlast (hB.wf.recAt_ok hr).ptr_le

theorem Pic.ChainOk.cut : ((P.cut p h o r).point (lastCell (cellOf h) pre) r.ptr).ChainOk h := by
  have hL := looks_cut_point (p := p) hB hC hF hh hsplit hr
  refine hC.unlink hB hh hsplit (cut_ch (p := p) (r := r) hC hsplit) (fun _ => own_update_leave nofun) ?_
    (fun y hy hyc => ?_) fun y hy => ?_
  · rw [hL.ptrAt, update_self, ptrAt_of_recAt hr]
  · have hyo : y ≠ o := by
      rcases mem_cons.mp hy with rfl | hy
      · exact fun he => hC.list.cell_notMem hB (cellOf_lt hh) (by rw [he, hsplit]; simp)
      · exact ((hC.list.mem_rest hsplit).mp hy).2
    rw [hL.ptrAt, update_of_ne hyc, update_of_ne hyo]
  · rw [hL.keyAt, update_of_ne ((hC.list.mem_rest hsplit).mp hy).2]

theorem Pic.MapOk.cut (hM : P.MapOk m h) :
    ((P.cut p h o r).point (lastCell (cellOf h) pre) r.ptr).MapOk (update m r.key none) h := by
  have hL := looks_cut_point (p := p) hB hC hF hh hsplit hr
  refine hM.unlink hC hsplit (cut_ch (p := p) (r := r) hC hsplit) (keyAt_of_recAt hr) (fun y hy => ?_)
    fun y _ => congrFun hL.datAt y
  rw [hL.keyAt, update_of_ne ((hC.list.mem_rest hsplit).mp hy).2]

omit hsplit in
theorem Pic.FreeOk.cut (ho : o ∈ P.ch h) : (P.cut p h o r).FreeOk := by
  have hL := looks_cut (p := p) (h := h) hB hF hr
  have hne : ∀ y ∈ freeOff :: P.fl, y ≠ o := fun y hy =>
    (hC.cells_ne_free hB hF hh (mem_cons_of_mem _ ho) hy).symm
  refine hF.frame rfl (fun _ => own_update_other nofun ?_) (fun y hy => ?_) fun y hy => ?_
  · rw [(hC.own_iff o).mp ho]
    nofun
  · rw [hL.ptrAt, update_of_ne (hne y hy)]
  · rw [hL.keyAt, update_of_ne (hne y (mem_cons_of_mem _ hy))]

omit hC hh hsplit hr

theorem Pic.FreeOk.release (ho : o ≤ ptrMax)
    (hr : P.lay.recAt o = some r) (hptr : r.ptr = P.fl.headD 0) (hkey : ∀ b ∈ r.key, b = space) :
    (P.release o).FreeOk := by
  have hL : Looks (P.release o).lay _ _ _ _ _ _ := hB.looks.setPtr hF.chain.head ho
  have hof : o ≠ freeOff := by
    rintro rfl
    exact absurd (recAt_ge hr) (by decide)
  refine hF.push rfl (fun _ => own_update_join) (recAt_ne_zero hr) ?_ ?_ (fun y hy => ?_)
    (fun y _ => congrFun hL.keyAt y) fun k hk => ?_
  · rw [hL.ptrAt, update_self]
  · rw [hL.ptrAt, update_of_ne hof, ptrAt_of_recAt hr, hF.chain.head, hptr]
  · have hyf : y ≠ freeOff := fun he => hF.list.cell_notMem hB freeOff_lt (he ▸ hy)
    rw [hL.ptrAt, update_of_ne hyf]
  · rw [hL.keyAt, keyAt, hr] at hk
    cases hk
    exact hkey

end Delete

/-- The chain of `key` without the record in front of which `c` stands: in order
once `c` points to `w`. -/
structure Detached (key : Bytes) (os : List Nat) (v : Option Bytes) (c w : Nat) (γ : Ghost) : Prop where
  on : OnChain key os v none { γ with pic := γ.pic.point c w }
  cell : c ∈ cellOf (dbHash key) :: os
  has : ∃ u, γ.pic.lay.ptrAt c = some u
  le : w ≤ ptrMax

section Detached
variable {c w o : Nat} {d' : Disk} {γ' : Ghost} {r : IdxRec}

theorem Layout.SameAt.setPtr {P P' : Pic} {u u' : Nat} (hs : P.lay.SameAt P'.lay y) (hB : P.Base)
    (hB' : P'.Base) (hc : P.lay.ptrAt c = some u) (hc' : P'.lay.ptrAt c = some u')
    (hw : w ≤ ptrMax) : (P.lay.setPtr c w).SameAt (P'.lay.setPtr c w) y := by
  have hL := hB.looks.setPtr hc hw
  have hL' := hB'.looks.setPtr hc' hw
  refine ⟨?_, ?_, ?_, ?_⟩
  · rw [hL.ptrAt, hL'.ptrAt]
    by_cases hy : y = c
    · rw [hy, update_self, update_self]
    · rw [update_of_ne hy, update_of_ne hy, hs.ptr]
  · rw [hL.keyAt, hL'.keyAt, hs.key]
  · rw [hL.datAt, hL'.datAt, hs.dat]
  · rw [hL.regAt, hL'.regAt, hs.reg]

variable (hD : Detached key os v c w γ)
include hD

theorem Detached.row : γ.pic.Row (cellOf (dbHash key)) (.chain (dbHash key)) os :=
  ⟨cellOf_lt (dbHash_lt key), nofun, fun y hy => (hD.on.chain.own_iff y).mp (hD.on.list ▸ hy)⟩

section
variable (hB : γ.pic.Base)
include hB

theorem Detached.frame (hB' : γ'.pic.Base) (hmap : ∀ k, dbHash k = dbHash key → γ'.map k = γ.map k)
    (hch : γ'.pic.ch (dbHash key) = γ.pic.ch (dbHash key))
    (hown : ∀ y, γ'.pic.own y = .chain (dbHash key) ↔ γ.pic.own y = .chain (dbHash key))
    (hsame : ∀ y ∈ cellOf (dbHash key) :: os, γ.pic.lay.SameAt γ'.pic.lay y) :
    Detached key os v c w γ' := by
  obtain ⟨u, hu⟩ := hD.has
  have hu' : γ'.pic.lay.ptrAt c = some u := (hsame c hD.cell).ptr.trans hu
  refine ⟨hD.on.frame hmap hch hown fun y hy => ?_, hD.cell, ⟨u, hu'⟩, hD.le⟩
  rw [hD.on.list] at hy
  exact (hsame y hy).setPtr hB hB' hu hu' hD.le

theorem Detached.inside {cells : Nat → Prop}
    (hcell : cells (cellOf (dbHash key))) (hy : y ∈ cellOf (dbHash key) :: os) :
    γ.pic.In cells p y :=
  hD.row.inside hB hcell hcell hy

theorem Detached.stable (hB' : γ'.pic.Base)
    (hr : Rely p (d, γ) (d', γ')) (hheld : d.Holding p (cellOf (dbHash key))) :
    Detached key os v c w γ' :=
  hD.frame hB hB' (fun k hk => hr.map k (by rw [hk]; exact hheld)) (hr.ch _ hheld)
    (fun y => hr.own y (.chain (dbHash key)) hheld) fun y hy => hr.same y (hD.inside hB hheld hy)

theorem Detached.ne_free (hF : γ.pic.FreeOk)
    {z : Nat} (hy : y ∈ cellOf (dbHash key) :: os) (hz : z ∈ freeOff :: γ.pic.fl) : y ≠ z :=
  hD.row.cells_ne hB hF.row (cellOf_ne_freeOff _) nofun hy hz

end

omit hD

/-- The end of `_db_dodelete`: the record goes to the free list, and only then
does the chain go around it. -/
theorem shared_unlink (hA : At p [(.wr, freeOff), (.wr, cellOf (dbHash key))] evs [o] none (d, γ))
    (hi : Inv m₀ d γ) (hD : Detached key os v c w γ) (hF : γ.pic.FreeOk)
    (hr : γ.pic.lay.recAt o = some r) (hptr : r.ptr = γ.pic.fl.headD 0)
    (hkey : ∀ b ∈ r.key, b = space) (ho : o ≤ ptrMax) (hoff : db.ptroff = c)
    (hQ : GoesOn m₀ p key evs db.chainoff os v none Q) :
    Safe (shared m₀ p) Q F (do
      let db ← dbWriteptr db freeOff (o : Int)
      let db ← dbWriteptr db db.ptroff (w : Int)
      unLock p .idx freeOff 1
      pure db) (d, γ) := by
  have hheld : ∀ {d1 : Disk} {γ1 : Ghost} {mine : List Nat},
      At p [(.wr, freeOff), (.wr, cellOf (dbHash key))] evs mine none (d1, γ1) →
      d1.Writing p freeOff ∧ d1.Writing p (cellOf (dbHash key)) :=
    fun hA => ⟨hA.writing (by simp), hA.writing (by simp)⟩
  refine safe_bind.mpr (shared_dbWriteptr ho fun d1 γ1 hr1 hi1 => ?_)
  have hA1 := hA.stable hr1
  have hD1 := hD.stable hi.base hi1.base hr1 (hheld hA).2.holding
  have hF1 := hF.stable hi.base hr1 (hheld hA).1.holding
  have hown1 : γ1.pic.own o = .proc p := (hA1.own o).mpr (by simp)
  have hrec1 := (hr1.same o (Pic.inside_of_mine hr ((hA.own o).mpr (by simp)))).recAt hr
  have hptr1 : r.ptr = γ1.pic.fl.headD 0 := by
    rw [hptr]
    exact congrArg (headD · 0) (hr1.fl (hheld hA).1.holding).symm
  refine ⟨⟨_, hF1.chain.head⟩, .inl ⟨freeOff_lt, (hheld hA1).1⟩, γ1.pic.release o, rfl,
    .hand rfl (by rw [hown1]; rfl) (hheld hA1).1 (fun _ => .inl rfl) (.inr (hheld hA1).1) rfl, fun d2 hl2 hi2 => ?_⟩
  have hedit := hi1.base.edit_setPtr hF1.chain.head ho
  have hF2 := hF1.release hi1.base ho hrec1 hptr1 hkey
  have hA2 : At p [(.wr, freeOff), (.wr, cellOf (dbHash key))] evs [] none
      (d2, { γ1 with pic := γ1.pic.release o }) := by
    refine hA1.setPic hl2 _ (fun y => ?_) hA1.pend
    change update γ1.pic.own o .free y = _ ↔ _
    by_cases hyo : y = o
    · simp [hyo]
    · rw [update_of_ne hyo, hA1.own]
      simp [hyo]
  have hD2 : Detached key os v c w { γ1 with pic := γ1.pic.release o } := by
    refine hD1.frame hi1.base hi2.base (fun _ _ => rfl) rfl (fun _ => own_update_other nofun ?_) fun y hy =>
      hedit.same y (hD1.ne_free hi1.base hF1 hy mem_cons_self)
    rw [hown1]
    nofun
  rw [hoff]
  refine safe_bind.mpr (shared_dbWriteptr hD.le fun d3 γ3 hr3 hi3 => ?_)
  have hA3 := hA2.stable hr3
  have hD3 := hD2.stable hi2.base hi3.base hr3 (hheld hA2).2.holding
  have hF3 := hF2.stable hi2.base hr3 (hheld hA2).1.holding
  obtain ⟨u, hu⟩ := hD3.has
  refine ⟨⟨u, hu⟩, hD3.inside hi3.base (hheld hA3).2 hD3.cell, γ3.pic.point c w, rfl, Regroup.refl .., fun d4 hl4 hi4 => ?_⟩
  have hA4 : At p [(.wr, freeOff), (.wr, cellOf (dbHash key))] evs [] none
      (d4, { γ3 with pic := γ3.pic.point c w }) :=
    hA3.setPic hl4 (γ3.pic.point c w) hA3.own hA3.pend
  have hF4 : (γ3.pic.point c w).FreeOk := by
    have hsame : ∀ y ∈ freeOff :: γ3.pic.fl, γ3.pic.lay.SameAt (γ3.pic.lay.setPtr c w) y :=
      fun y hy => (hi3.base.edit_setPtr hu hD.le).same y (hD3.ne_free hi3.base hF3 hD3.cell hy).symm
    exact hF3.frame rfl (fun _ => Iff.rfl) (fun y hy => (hsame y hy).ptr)
      fun y hy => (hsame y (mem_cons_of_mem _ hy)).key
  have hM4 : MidFree m₀ p key evs [] os v none (d4, { γ3 with pic := γ3.pic.point c w }) := ⟨hA4, hi4, hD3.on, hF4⟩
  exact safe_bind.mpr (hM4.unlock fun d5 d6 γ6 _ hM6 => safe_ret.mpr (hQ _ d6 γ6 rfl hM6))

/-- Writing over the datum of a record on the chain. -/
theorem OnChain.overwrite (hO : OnChain key os v v' γ) (hB : γ.pic.Base) (ho : o ∈ os)
    (hr : γ.pic.lay.recAt o = some r) (hk : r.key = key) (hx : NoNul x)
    (hlen : x.length + 1 = r.datlen) :
    OnChain key os v (some x)
      { γ with pic := { γ.pic with lay := γ.pic.lay.writeDat r x } } := by
  have hL := hB.looks_writeDat hr hx hlen
  rw [← hO.list] at ho
  refine ⟨hO.list, hO.old, hO.chain.frame rfl (fun _ => Iff.rfl) (fun y _ => congrFun hL.ptrAt y)
    fun y _ => congrFun hL.keyAt y, ?_⟩
  have hkey : γ.pic.lay.keyAt o = some key := by rw [keyAt, hr, ← hk]; rfl
  have hM : Pic.MapOk { γ.pic with lay := γ.pic.lay.writeDat r x }
      (update (update γ.map key v') key (some x)) (dbHash key) :=
    hO.means.overwrite hO.chain rfl ho hkey (fun y _ => congrFun hL.keyAt y)
      (fun y _ hy => (congrFun hL.datAt y).trans (update_of_ne hy ..))
      ((congrFun hL.datAt o).trans (update_self ..))
  rwa [update_idem] at hM

theorem shared_dodelete {pre post : List Nat}
    (hM : Mid m₀ p key .wr evs [] none (pre ++ o :: post) v (some x) (d, γ))
    (hr : γ.pic.lay.recAt o = some r) (hk : r.key = key)
    (hQ : GoesOn m₀ p key evs db.chainoff (pre ++ post) v none Q) :
    Safe (shared m₀ p) Q F
      (dbDodelete p { db.loaded o r with ptroff := lastCell (cellOf (dbHash key)) pre }) (d, γ) := by
  have hh := dbHash_lt key
  have hok := hM.inv.base.wf.recAt_ok hr
  have hdl : (blanks (r.datlen - 1)).length + 1 = r.datlen := by
    have := hok.dat_pos
    rw [length_blanks]
    omega
  have hmem : o ∈ pre ++ o :: post := by simp
  -- a record of the chain stays as it is while the chain is locked
  have hkeep : ∀ {d1 d2 : Disk} {γ1 γ2 : Ghost} {v1 : Option Bytes},
      OnChain key (pre ++ o :: post) v v1 γ1 → γ1.pic.Base → Rely p (d1, γ1) (d2, γ2) →
      d1.Holding p (cellOf (dbHash key)) → γ1.pic.lay.recAt o = some r →
      γ2.pic.lay.recAt o = some r := fun hO hB hr1 hw hr =>
    (hO.same hB hr1 hw o (mem_cons_of_mem _ (by rw [hO.list]; exact hmem))).recAt hr
  unfold dbDodelete
  refine safe_bind.mpr (hM.lock_free fun d0 d1 γ1 hr1 hM1 => ?_)
  have hrec1 := hkeep hM.on hM.inv.base hr1 hM.holding hr
  refine safe_bind.mpr (shared_dbWritedat (o := o) (nul_notMem_blanks _) hdl fun d2 γ2 hr2 hi2 => ?_)
  have hM2 := hM1.stable hr2 hi2
  have hrec2 := hkeep hM1.on hM1.inv.base hr2 hM1.writing.holding hrec1
  have hin2 : o ∈ cellOf (dbHash key) :: γ2.pic.ch (dbHash key) := by
    rw [hM2.on.list]
    exact mem_cons_of_mem _ hmem
  refine ⟨hrec2, hM2.on.chain.inside hi2.base hh hM2.writing hin2, fun d3 hl3 hi3 => ?_⟩
  have hL3 := hi2.base.looks_writeDat hrec2 (nul_notMem_blanks _) hdl
  have hM3 : MidFree m₀ p key evs [] (pre ++ o :: post) v (some (blanks (r.datlen - 1))) (d3, { γ2 with
      pic := { γ2.pic with lay := γ2.pic.lay.writeDat r (blanks (r.datlen - 1)) } }) :=
    ⟨hM2.here.setPic hl3 { γ2.pic with lay := γ2.pic.lay.writeDat r (blanks (r.datlen - 1)) } hM2.here.own hM2.here.pend,
      hi3, hM2.on.overwrite hi2.base hmem hrec2 hk (nul_notMem_blanks _) hdl, hM2.free.frame rfl (fun _ => Iff.rfl)
        (fun y _ => congrFun hL3.ptrAt y) fun y _ => congrFun hL3.keyAt y⟩
  refine safe_bind.mpr (safe_dbReadptr (shared_views m₀ p) fun d4 γ4 hr4 hi4 => ?_)
  have hM4 := hM3.stable hr4 hi4
  have hrec4 := hkeep hM3.on hi3.base hr4 hM3.writing.holding hrec2
  have hfl4 := hi4.base.wf.ptrAt_le hM4.free.chain.head
  refine ⟨_, hM4.free.chain.head, safe_bind.mpr (shared_dbWriteidx rfl ?_ hok hfl4
    (length_blanks _) (nul_notMem_blanks _) fun d5 γ5 hr5 hi5 => ?_)⟩
  · exact hdl
  have hM5 := hM4.stable hr5 hi5
  have hC5 := hM5.on.chain
  have hsplit5 := hM5.on.list
  have hrec5 := hkeep hM4.on hi4.base hr5 hM4.writing.holding hrec4
  have hin5 : o ∈ γ5.pic.ch (dbHash key) := by
    rw [hsplit5]
    exact hmem
  have hflEq : γ5.pic.fl = γ4.pic.fl := hr5.fl hM4.writing_free.holding
  refine ⟨hrec5, hC5.inside hi5.base hh hM5.writing (mem_cons_of_mem _ hin5), γ5.pic.cut p (dbHash key) o r, ?_,
    .hand rfl (by rw [(hC5.own_iff o).mp hin5]; exact hM5.writing) rfl (ch_update hM5.writing) (.inl rfl) rfl, fun d6 hl6 hi6 => ?_⟩
  · rw [← hflEq]
    rfl
  have hL6 := looks_cut (p := p) (h := dbHash key) hi5.base hM5.free hrec5
  obtain ⟨hlast, hco, hcin⟩ := hC5.list.cell_facts hi5.base (cellOf_lt hh) hsplit5
  have hmeans := hM5.on.means.cut (p := p) hi5.base hC5 hM5.free hh hsplit5 hrec5
  rw [hk, update_idem] at hmeans
  refine shared_unlink (r := r.rekey (γ5.pic.fl.headD 0) (blanks r.key.length))
    (hM5.here.setPic hl6 (γ5.pic.cut p (dbHash key) o r) (hM5.here.own_update o) hM5.here.pend) hi6
    ⟨⟨cut_ch (p := p) (r := r) hC5 hsplit5, hM5.on.old, hC5.cut hi5.base hM5.free hh hsplit5 hrec5, hmeans⟩,
      ?_, ⟨o, ?_⟩, hok.ptr_le⟩
    (hM5.free.cut hi5.base hC5 hh hrec5 hin5) ?_ rfl (fun b => eq_of_mem_replicate)
    (hC5.list.le hi5.base hin5) rfl hQ
  · rw [← cons_append]
    exact mem_append_left _ (lastCell_mem ..)
  · exact (congrFun hL6.ptrAt _).trans ((update_of_ne hco ..).trans hlast)
  · exact hL6.recAt (update_self ..) (update_self ..) (regAt_of_recAt hrec5)

end Detached

/-! ## §2 Storing -/

theorem shared_readHead (hM : Mid m₀ p key .wr evs [] none os v v' (d, γ))
    (hch : db.chainoff = cellOf (dbHash key)) {Q : DB × Int → Disk × Ghost → Prop}
    (hQ : GoesOn m₀ p key evs db.chainoff os v v' fun db' => Q (db', (os.headD 0 : Nat))) :
    Safe (shared m₀ p) Q F (dbReadptr db db.chainoff) (d, γ) := by
  rw [hch]
  refine safe_dbReadptr (shared_views m₀ p) fun d1 γ1 hr1 hi1 => ?_
  have hM1 := hM.stable hr1 hi1
  have hhead := hM1.on.chain.chain.head
  rw [hM1.on.list] at hhead
  exact ⟨_, hhead, hQ _ d1 γ1 rfl hM1⟩

variable (hk : NoNul key) (hx : NoNul data) (hdat : ¬ BadDat data) (hch : db.chainoff = cellOf (dbHash key))
  (hstop : ∀ e d' γ' mine pend os, Mid m₀ p key .wr evs mine pend os v none (d', γ') → F e (d', γ'))
  (hQ : ∀ os, GoesOn m₀ p key evs (cellOf (dbHash key)) os v (some data) Q)

include hk hx hdat hch hstop hQ

theorem shared_storeNew (hM : Mid m₀ p key .wr evs [] none os v none (d, γ)) :
    Safe (shared m₀ p) Q F (storeNew p db key data) (d, γ) := by
  unfold storeNew
  refine safe_bind.mpr (shared_readHead hM hch fun db1 d1 γ1 hch1 hM1 => ?_)
  refine safe_bind.mpr (shared_findfree hM1 (fun db2 d2 γ2 hch2 hM2 => ?_)
    fun c o r db2 d2 γ2 hch2 hM2 hr hkl hdl ho => ?_)
  · have hcell := hch2.trans (hch1.trans hch)
    exact shared_storeAppend hk hx hdat hM2 hcell (fun e d' γ' mine pend => hstop e d' γ' mine pend _)
      fun o db' d' γ' hch' => hQ _ db' d' γ' (hch'.trans hcell)
  · have hcell := hch2.trans (hch1.trans hch)
    exact shared_storeReuse hk hx hM2 hr hkl hdl ho hcell fun db' d' γ' hch' => hQ _ db' d' γ' (hch'.trans hcell)

theorem shared_storeOver {c o : Nat} (hM : Mid m₀ p key .wr evs [] none os v (some x) (d, γ))
    (hf : γ.pic.find key = .hit c o) :
    Safe (shared m₀ p) Q F
      (storeOver p { db.loaded o (γ.pic.lay.view o) with ptroff := c } key data) (d, γ) := by
  obtain ⟨-, pre, post, r, hsplit, rfl, hr, hrk⟩ := hM.on.chain.find_hit hM.inv.base hf
  obtain rfl : os = pre ++ o :: post := hM.on.list.symm.trans hsplit
  have hmem : o ∈ pre ++ o :: post := by simp
  rw [view_of_recAt hr]
  unfold storeOver
  by_cases hlen : data.length + 1 ≠ r.datlen
  · have hlen' : data.length + 1 ≠ ({ db.loaded o r with
        ptroff := lastCell (cellOf (dbHash key)) pre } : DB).datlen := hlen
    rw [if_pos hlen']
    refine safe_bind.mpr (shared_dodelete hM hr hrk fun db1 d1 γ1 hch1 hM1 => ?_)
    have hcell1 := hch1.trans hch
    refine safe_bind.mpr (shared_readHead hM1 hcell1 fun db2 d2 γ2 hch2 hM2 => ?_)
    have hcell2 := hch2.trans hcell1
    exact shared_storeAppend hk hx hdat hM2 hcell2 (fun e d' γ' mine pend => hstop e d' γ' mine pend _)
      fun o db' d' γ' hch' => hQ _ db' d' γ' (hch'.trans hcell2)
  · have hlen' : ¬ data.length + 1 ≠ ({ db.loaded o r with
        ptroff := lastCell (cellOf (dbHash key)) pre } : DB).datlen := hlen
    rw [if_neg hlen']
    have heq : data.length + 1 = r.datlen := not_not.mp hlen
    refine shared_dbWritedat (o := o) hx heq fun d1 γ1 hr1 hi1 => ?_
    have hM1 := hM.stable hr1 hi1
    have hin : o ∈ cellOf (dbHash key) :: γ.pic.ch (dbHash key) := by
      rw [hsplit]
      exact mem_cons_of_mem _ hmem
    have hrec1 := (hM.on.same hM.inv.base hr1 hM.holding o hin).recAt hr
    refine ⟨hrec1, hM1.on.chain.inside hi1.base (dbHash_lt key) hM1.writing ?_,
      fun d2 hl2 hi2 => hQ (pre ++ o :: post) _ d2 _ hch ⟨?_, hi2, ?_⟩⟩
    · rw [hM1.on.list]
      exact mem_cons_of_mem _ hmem
    · exact hM1.here.setPic hl2 { γ1.pic with lay := γ1.pic.lay.writeDat r data } hM1.here.own hM1.here.pend
    · exact hM1.on.overwrite hi1.base hmem hrec1 hrk hx heq

omit hk hx hdat hch hstop hQ

/-! ## §3 The moment a call counts -/

theorem Moves.finish {e : Event} (hA : At p [(kind, cellOf (dbHash key))] evs [] none (d, γ))
    (hold : γ.map key = v) (hkind : kind = .wr ∨ v' = v) (he : e.pid = p) :
    Moves p d γ ⟨γ.pic, update γ.map key v', γ.log ++ [e]⟩ := by
  refine ⟨fun _ => .inl rfl, fun _ => .inl (Layout.SameAt.refl _ _), fun _ => .inl rfl,
    .inl rfl, fun k => ?_, fun _ _ => rfl, fun _ _ _ _ _ => rfl, fun q hq => ?_⟩
  · by_cases hk : k = key
    · rcases hkind with rfl | rfl
      · refine .inr ?_
        rw [hk]
        exact hA.writing (mem_singleton.mpr rfl)
      · refine .inl ?_
        rw [hk, hold]
        exact update_self ..
    · exact .inl (update_of_ne hk ..)
  · obtain ⟨pid, op, res⟩ := e
    obtain rfl : pid = p := he
    exact callsOf_snoc_other hq ..

/-- Giving the chain back finishes the call. -/
theorem shared_finish {α : Type} {a : α} {r : Res} (hM : Mid m₀ p key kind evs [] none os v v' (d, γ)) (hkind : kind = .wr ∨ v' = v)
    (hstep : ∀ m : Map, m key = v → Map.step m op = (r, update m key v'))
    (hch : db.chainoff = cellOf (dbHash key)) {Q : α → Disk × Ghost → Prop}
    (hQ : ∀ w, At p [] (evs ++ [(op, some r)]) [] none w → Q a w) :
    Safe (shared m₀ p) Q F (unLock p .idx db.chainoff 1 >>= fun _ => pure a) (d, γ) := by
  rw [hch]
  refine safe_bind.mpr (shared_unlock (evs ++ [(op, some r)]) hM.here (by simp) fun d1 γ1 hr1 hi1 => ?_)
  have hM1 := hM.stable hr1 hi1
  refine ⟨⟨γ1.pic, update γ1.map key v', γ1.log ++ [⟨p, op, some r⟩]⟩, rfl,
    Moves.finish hM1.here hM1.on.old hkind rfl, hi1.serial.snoc ?_, ?_, fun h hh he _ => ?_,
    fun he => absurd he (cellOf_ne_freeOff _), fun d2 hA2 _ => safe_ret.mpr (hQ _ hA2)⟩
  · have := @Effect.returned γ1.map p op
    rwa [hstep γ1.map hM1.on.old] at this
  · rw [callsOf_snoc_self, hM1.here.log]
  · obtain rfl := cellOf_inj he
    exact ⟨hM1.on.chain, hM1.on.means⟩

/-- Where a call may stop: before it has locked anything, with the chain as it
found it, or, storing, with the old record gone. -/
inductive Halting (m₀ : Map) (p : Nat) (evs : List (Op × Option Res)) : Op → Disk × Ghost → Prop where
  | early {op : Op} {w : Disk × Ghost} : At p [] evs [] none w → Halting m₀ p evs op w
  | same {op : Op} {key : Bytes} {kind : LockKind} {mine : List Nat} {pend : Option (Nat × Nat)}
      {os : List Nat} {v : Option Bytes} {w : Disk × Ghost} :
      Mid m₀ p key kind evs mine pend os v v w → Halting m₀ p evs op w
  | lost {key data : Bytes} {flag : Int} {mine : List Nat} {pend : Option (Nat × Nat)}
      {os : List Nat} {v : Option Bytes} {w : Disk × Ghost} :
      Mid m₀ p key .wr evs mine pend os v none w → Halting m₀ p evs (.store key data flag) w

theorem Halting.stable {w w' : Disk × Ghost} (h : Halting m₀ p evs op w)
    (hr : Rely p w w') (hi : Inv m₀ w'.1 w'.2) : Halting m₀ p evs op w' := by
  cases h with
  | early hA => exact .early (hA.stable hr)
  | same hM => exact .same (hM.stable hr hi)
  | lost hM => exact .lost (hM.stable hr hi)

theorem shared_dbStore {flag : Int} (hk : NoNul key) (hx : NoNul data)
    (hflag : ¬ BadFlag flag)
    (hA : At p [] evs [] none (d, γ)) :
    Safe (shared m₀ p)
      (fun a w => At p [] (evs ++ [(.store key data flag, some (.rc a.2))]) [] none w)
      (fun _ w => Halting m₀ p evs (.store key data flag) w) (dbStore p db key data flag) (d, γ) := by
  unfold dbStore
  rw [if_neg hflag]
  by_cases hdat : BadDat data
  · rw [if_pos hdat]
    exact .early hA
  rw [if_neg hdat]
  refine safe_bind.mpr (shared_find rfl hA (fun d1 γ1 os v => .same)
    (fun c o os db1 d1 γ1 hch hM hf => ?_) fun os db1 d1 γ1 hch hM => ?_)
  · by_cases hins : flag = flagInsert
    · simp only [if_pos hins, Int.lt_irrefl, if_false]
      refine shared_finish hM (.inr rfl) (fun m hm => ?_) hch fun _ => id
      rw [Map.step, Map.store, if_neg hflag, hm]
      simp only [if_pos hins]
      rw [← hm, update_eq_self]
    simp only [if_neg hins, Int.lt_irrefl, if_false]
    refine safe_bind.mpr (shared_storeOver hk hx hdat hch
      (fun e d' γ' mine pend os => .lost) (fun os2 db2 d2 γ2 hch2 hM2 => ?_) hM hf)
    refine shared_finish hM2 (.inl rfl) (fun m hm => ?_) hch2 fun _ => id
    rw [Map.step, Map.store, if_neg hflag, hm]
    simp only [if_neg hins]
  · have hneg : (-1 : Int) < 0 := by decide
    by_cases hrep : flag = flagReplace
    · simp only [if_pos hrep, if_pos hneg]
      refine shared_finish hM (.inr rfl) (fun m hm => ?_) hch fun _ => id
      rw [Map.step, Map.store, if_neg hflag, hm]
      simp only [if_pos hrep]
      rw [← hm, update_eq_self]
    simp only [if_neg hrep, if_pos hneg]
    refine safe_bind.mpr (shared_storeNew hk hx hdat hch
      (fun e d' γ' mine pend os => .lost) (fun os2 db2 d2 γ2 hch2 hM2 => ?_) hM)
    refine shared_finish hM2 (.inl rfl) (fun m hm => ?_) hch2 fun _ => id
    rw [Map.step, Map.store, if_neg hflag, hm]
    simp only [if_neg hrep]

theorem shared_dbDelete (hA : At p [] evs [] none (d, γ)) :
    Safe (shared m₀ p) (fun a w => At p [] (evs ++ [(.delete key, some (.rc a.2))]) [] none w)
      (fun _ w => Halting m₀ p evs (.delete key) w) (dbDelete p db key) (d, γ) := by
  unfold dbDelete
  refine safe_bind.mpr (shared_find rfl hA (fun d1 γ1 os v => .same)
    (fun c o os db1 d1 γ1 hch hM hf => ?_) fun os db1 d1 γ1 hch hM => ?_)
  · obtain ⟨-, pre, post, r, hsplit, rfl, hr, hrk⟩ := hM.on.chain.find_hit hM.inv.base hf
    obtain rfl : os = pre ++ o :: post := hM.on.list.symm.trans hsplit
    rw [view_of_recAt hr] at hM ⊢
    simp only [if_true]
    refine safe_bind.mpr (shared_dodelete hM hr hrk fun db2 d2 γ2 hch2 hM2 => ?_)
    refine shared_finish hM2 (.inl rfl) (fun m hm => ?_) (hch2.trans hch) fun _ => id
    simp [Map.step, Map.delete, hm]
  · have hne : ¬ (-1 : Int) = 0 := by decide
    simp only [if_neg hne]
    refine shared_finish hM (.inr rfl) (fun m hm => ?_) hch fun _ => id
    simp [Map.step, Map.delete, hm]

theorem shared_dbFetch (hA : At p [] evs [] none (d, γ)) :
    Safe (shared m₀ p) (fun a w => At p [] (evs ++ [(.fetch key, some (.datum a.2))]) [] none w)
      (fun _ w => Halting m₀ p evs (.fetch key) w) (dbFetch p db key) (d, γ) := by
  unfold dbFetch
  have hstep : ∀ {x : Option Bytes} (m : Map), m key = x → Map.step m (.fetch key) = (.datum x, update m key x) := by
    rintro _ m rfl
    rw [update_eq_self]
    rfl
  refine safe_bind.mpr (shared_find rfl hA (fun d1 γ1 os v => .same)
    (fun c o os db1 d1 γ1 hch hM hf => ?_) fun os db1 d1 γ1 hch hM => ?_)
  · simp only [Int.lt_irrefl, if_false]
    obtain ⟨-, pre, post, r, hsplit, -, hr, -⟩ := hM.on.chain.find_hit hM.inv.base hf
    rw [view_of_recAt hr] at hM ⊢
    have hoff : ({ db1.loaded o r with ptroff := (c : Int) } : DB).datoff = (r.datoff : Nat) := rfl
    refine safe_bind.mpr (safe_dbReaddat (shared_views m₀ p) hoff fun d2 γ2 hr2 hi2 => ?_)
    -- the record and its datum are still what they were when the search ended
    have hs := hM.on.same hM.inv.base hr2 hM.holding o (mem_cons_of_mem _ (by rw [hsplit]; simp))
    have hr' := hs.recAt hr
    have hdat : γ2.pic.lay.datum r = γ1.pic.lay.datum r := by
      have := hs.dat
      rw [datAt, datAt, hr, hr'] at this
      exact Option.some.inj this
    refine ⟨γ1.pic.lay.datum r, hdat ▸ hi2.base.dat.has hr', ?_⟩
    exact shared_finish (hM.stable hr2 hi2) (.inr rfl) hstep hch fun _ => id
  · have hneg : (-1 : Int) < 0 := by decide
    simp only [if_pos hneg]
    exact shared_finish hM (.inr rfl) hstep hch fun _ => id

end Functions
end GokuStudio.Apue.Db

import GokuStudio.Apue.Db.Picture

/-!
# The database as an abstract machine

The operations of `db.c` on pictures: what one whole `db_store`, `db_delete` or
`db_fetch` of a process that is not disturbed does to the records and chains,
and what it returns. A picture is `Good` when every chain is in order; every
operation keeps it so, the ones that stop half-way included, and the ones that
succeed change the map the picture stands for as they should.

A layout is updated field by field. `Looks` carries the four lookups of a
layout along such a sequence of updates, as plain functions.
-/

namespace GokuStudio.Apue.Db

open Lib List Layout Option
open Function (update update_apply update_eq_self update_idem update_of_ne update_self)

/-! ## §1 Lookups along a sequence of updates -/

variable {p off len v h' y z o : Nat} {L : Layout} {r : IdxRec} {k : Bytes}

namespace Layout

/-- Where the datum of the record at `o` lies. -/
def regAt (L : Layout) (o : Nat) : Option (Nat × Nat) := (L.recAt o).map fun r => (r.datoff, r.datlen)

theorem regAt_of_recAt (h : L.recAt o = some r) : L.regAt o = some (r.datoff, r.datlen) := by
  rw [regAt, h]
  rfl

theorem recAt_eq_none_iff : L.recAt o = none ↔ L.keyAt o = none := by
  rw [keyAt, map_eq_none_iff]

theorem recAt_of_fields (hp : L.ptrAt o = some p) (hk : L.keyAt o = some k) (hreg : L.regAt o = some (off, len)) :
    L.recAt o = some ⟨p, k, off, len⟩ := by
  obtain ⟨r, hr, rfl⟩ := map_eq_some_iff.mp hk
  rw [ptrAt_of_recAt hr] at hp
  rw [regAt, hr] at hreg
  cases hp
  cases hreg
  exact hr

end Layout

/-- A sound layout with these lookups and these record sizes. -/
structure Looks (L : Layout) (pend : Nat → Option (Nat × Nat)) (ptr : Nat → Option Nat)
    (key dat : Nat → Option Bytes) (reg : Nat → Option (Nat × Nat)) (sz : List Nat) : Prop where
  wf : L.Wf
  datOk : DatOk L pend
  ptrAt : L.ptrAt = ptr
  keyAt : L.keyAt = key
  datAt : L.datAt = dat
  regAt : L.regAt = reg
  sizes : L.sizes = sz

namespace Looks

variable {pend : Nat → Option (Nat × Nat)} {ptr : Nat → Option Nat} {key dat : Nat → Option Bytes}
  {reg : Nat → Option (Nat × Nat)} {sz : List Nat}

variable {x : Bytes} (h : Looks L pend ptr key dat reg sz)
include h

theorem recAt (hp : ptr o = some p) (hk : key o = some k) (hreg : reg o = some (off, len)) :
    L.recAt o = some ⟨p, k, off, len⟩ :=
  recAt_of_fields (h.ptrAt ▸ hp) (h.keyAt ▸ hk) (h.regAt ▸ hreg)

theorem setPtr {c v0 : Nat} (hc : ptr c = some v0) (hv : v ≤ ptrMax) :
    Looks (L.setPtr c v) pend (update ptr c (some v)) key dat reg sz := by
  have hc' : L.ptrAt c = some v0 := h.ptrAt ▸ hc
  refine ⟨h.wf.setPtr hc' hv, h.datOk.setPtr h.wf hc' hv, ?_, ?_, ?_, ?_, ?_⟩
  · funext y
    rw [ptrAt_setPtr h.wf hc' hv, update_apply, h.ptrAt]
  · funext y
    rw [keyAt_setPtr h.wf hc' hv, h.keyAt]
  · funext y
    rw [datAt_setPtr h.wf hc' hv, h.datAt]
  · funext y
    rw [← h.regAt, Layout.regAt, Layout.recAt_setPtr h.wf hc' hv]
    by_cases hyc : y = c
    · rw [if_pos hyc, Option.map_map]
      rfl
    · rw [if_neg hyc]
      rfl
  · rw [sizes_setPtr h.wf hc' hv, h.sizes]

/-- A record gets a new pointer and a new key of the old length. -/
theorem rekey {k0 : Bytes} (hk : key o = some k0) (hreg : reg o = some (off, len)) (hv : v ≤ ptrMax)
    (hlen : k.length = k0.length) (hnul : NoNul k) :
    Looks (L.setRec o ⟨v, k, off, len⟩) pend (update ptr o (some v))
      (update key o (some k)) dat reg sz := by
  have hk' : L.keyAt o = some k0 := h.keyAt ▸ hk
  obtain ⟨r, hr, rfl⟩ := map_eq_some_iff.mp hk'
  have hreg' : (r.datoff, r.datlen) = (off, len) := by
    rw [← h.regAt, Layout.regAt, hr] at hreg
    exact some.inj hreg
  cases hreg'
  have hok := h.wf.recAt_ok hr
  have hs : recSize (r.rekey v k) = recSize r := IdxRec.length_encode_rekey hok hv hlen hnul
  change Looks (L.setRec o (r.rekey v k)) pend _ _ dat reg sz
  refine ⟨h.wf.setRec hr (hok.rekey hv hlen hnul), h.datOk.setRec hr hs rfl rfl, ?_, ?_, ?_, ?_, ?_⟩
  · funext y
    rw [ptrAt_setRec hr hs, update_apply, h.ptrAt]
    rfl
  · funext y
    rw [keyAt_setRec hr hs, update_apply, h.keyAt]
    rfl
  · funext y
    rw [datAt_setRec hr hs rfl rfl, h.datAt]
  · funext y
    rw [← h.regAt, Layout.regAt, Layout.recAt_setRec hr hs, Layout.regAt]
    by_cases hyo : y = o
    · rw [if_pos hyo, hyo, hr]
      rfl
    · rw [if_neg hyo]
  · rw [sizes_setRec hr hs, h.sizes]

/-- The datum of a record is overwritten. -/
theorem write (hreg : reg o = some (off, len)) (hx : NoNul x) (hlen : x.length + 1 = len) :
    Looks (L.setDat (pwrite L.dat off (x ++ [newline]))) pend ptr key
      (update dat o (some x)) reg sz := by
  rw [← h.regAt] at hreg
  obtain ⟨r, hr, he⟩ := map_eq_some_iff.mp hreg
  cases he
  refine ⟨h.wf.setDat _, h.datOk.write hr hlen hx, h.ptrAt, h.keyAt, ?_, h.regAt, h.sizes⟩
  funext y
  by_cases hyo : y = o
  · rw [hyo, update_self, Layout.datAt, recAt_setDat, hr, map_some, datum, setDat_dat, (h.datOk.write_same hr hlen hx).value]
  · rw [update_of_ne hyo, h.datOk.datAt_write_other hr hlen hyo, h.datAt]

/-- A datum and its record go to the ends of the files. -/
theorem append (hp : pend p = none) (hx : NoNul x)
    (hok : (⟨v, k, L.dat.length, x.length + 1⟩ : IdxRec).Ok) :
    Looks ((L.setDat (L.dat ++ (x ++ [newline]))).addRec ⟨v, k, L.dat.length, x.length + 1⟩) pend
      (update ptr L.idxEnd (some v)) (update key L.idxEnd (some k))
      (update dat L.idxEnd (some x))
      (update reg L.idxEnd (some (L.dat.length, x.length + 1)))
      (sz ++ [recSize ⟨v, k, L.dat.length, x.length + 1⟩]) := by
  have hpend : update (update pend p (some (L.dat.length, x.length + 1))) p none = pend := by
    rw [update_idem, ← hp, update_eq_self]
  have hdat := (h.datOk.append (p := p) hx).addRec (r := ⟨v, k, L.dat.length, x.length + 1⟩) (update_self ..)
  rw [hpend] at hdat
  refine ⟨(h.wf.setDat _).addRec hok, hdat, ?_, ?_, ?_, ?_, ?_⟩
  · funext y
    rw [ptrAt_addRec, update_apply, ← h.ptrAt]
    rfl
  · funext y
    rw [keyAt_addRec, update_apply, ← h.keyAt]
    rfl
  · funext y
    have hnew : (L.setDat (L.dat ++ (x ++ [newline]))).datum ⟨v, k, L.dat.length, x.length + 1⟩ = x := by
      rw [datum, setDat_dat, ← pwrite_end]
      exact (HasDatum.write_same hx le_rfl).value
    rw [datAt_addRec, hnew, update_apply, h.datOk.datAt_append, ← h.datAt]
    rfl
  · funext y
    rw [Layout.regAt, Layout.recAt_addRec, Layout.idxEnd_setDat, update_apply, ← h.regAt]
    by_cases hy : y = L.idxEnd
    · rw [if_pos hy, if_pos hy]
      rfl
    · rw [if_neg hy, if_neg hy]
      rfl
  · rw [sizes_addRec, sizes_setDat, h.sizes]

/-- Only a datum goes to the end of the data file. -/
theorem appendDat (hp : pend p = none) (hx : NoNul x) :
    Looks (L.setDat (L.dat ++ (x ++ [newline]))) pend ptr key dat reg sz := by
  have hdat := (h.datOk.append (p := p) hx).forget p
  have hpend : update (update pend p (some (L.dat.length, x.length + 1))) p none = pend := by
    rw [update_idem, ← hp, update_eq_self]
  rw [hpend] at hdat
  refine ⟨h.wf.setDat _, hdat, h.ptrAt, h.keyAt, ?_, h.regAt, h.sizes⟩
  funext y
  rw [h.datOk.datAt_append, h.datAt]

end Looks

/-! ## §2 Operations on pictures -/

def blanks (n : Nat) : Bytes := List.replicate n space

theorem nul_notMem_blanks (n : Nat) : (0 : UInt8) ∉ blanks n := fun hn =>
  absurd (eq_of_mem_replicate hn) (by decide)

/-- The record at an offset; only asked where there is one. -/
def Layout.view (L : Layout) (o : Nat) : IdxRec := (L.recAt o).getD ⟨0, [], 0, 0⟩

theorem Layout.view_of_recAt (h : L.recAt o = some r) : L.view o = r := by
  rw [view, h, getD_some]

theorem Pic.Row.recAt_view {P : Pic} {c : Nat} {t : Owner} {os : List Nat} (hB : P.Base) (hR : P.Row c t os)
    (ho : o ∈ os) : P.lay.recAt o = some (P.lay.view o) := by
  obtain ⟨r, hr⟩ := hB.exists_rec (hR.own o ho ▸ hR.owner)
  rw [hr, view_of_recAt hr]

/-- The search for a free record never meets a separator. -/
theorem Pic.FreeOk.sep_notMem {P : Pic} (hB : P.Base) (hF : P.FreeOk) (ho : o ∈ P.fl) : sep ∉ (P.lay.view o).key :=
  fun hs => absurd (hF.blank o ho _ (keyAt_of_recAt (hF.row.recAt_view hB ho)) sep hs) (by decide)

/-- `data` in the place of the datum of `r`. -/
def Layout.writeDat (L : Layout) (r : IdxRec) (data : Bytes) : Layout :=
  L.setDat (pwrite L.dat r.datoff (data ++ [newline]))

/-- The record `r` with another pointer and another key. -/
def Layout.writeRec (L : Layout) (o : Nat) (r : IdxRec) (v : Nat) (key : Bytes) : Layout := L.setRec o (r.rekey v key)

namespace Pic

/-- No record of its chain has the key. -/
abbrev Lacks (P : Pic) (key : Bytes) : Prop := ∀ y ∈ P.ch (dbHash key), P.lay.keyAt y ≠ some key

section
variable (P : Pic) (c o : Nat) (key data : Bytes)

/-- `_db_dodelete` of the record at `o`, on chain `h`, to which `c` points. -/
def delete (h c o : Nat) : Pic :=
  let r := P.lay.view o
  { P with
    lay := (((P.lay.writeDat r (blanks (r.datlen - 1))).writeRec o r (P.fl.headD 0)
      (blanks r.key.length)).setPtr freeOff o).setPtr c r.ptr
    own := update P.own o .free
    ch := update P.ch h ((P.ch h).erase o)
    fl := o :: P.fl }

/-- The free record at `o`, to which `c` points, becomes the record of `key`. -/
def reuse : Pic :=
  let r := P.lay.view o
  let h := dbHash key
  { P with
    lay := (((P.lay.setPtr c r.ptr).writeDat r data).writeRec o r ((P.ch h).headD 0) key).setPtr
      (cellOf h) o
    own := update P.own o (.chain h)
    ch := update P.ch h (o :: P.ch h)
    fl := P.fl.erase o }

/-- The record `db_store` would append. -/
def newRec : IdxRec := ⟨(P.ch (dbHash key)).headD 0, key, P.lay.dat.length, data.length + 1⟩

/-- The datum is appended, and the length check on the index record fails. -/
def appendDat : Pic :=
  { P with lay := P.lay.setDat (P.lay.dat ++ (data ++ [newline])) }

/-- Datum and index record are appended, but the offset of the record does not
fit in a chain pointer. -/
def appendLost : Pic :=
  { P.appendDat data with
    lay := (P.appendDat data).lay.addRec (P.newRec key data)
    own := update P.own P.lay.idxEnd .lost }

/-- Datum and index record are appended and linked in. -/
def append : Pic :=
  let h := dbHash key
  { P with
    lay := (P.appendLost key data).lay.setPtr (cellOf h) P.lay.idxEnd
    own := update P.own P.lay.idxEnd (.chain h)
    ch := update P.ch h (P.lay.idxEnd :: P.ch h) }

/-- The datum of the record at `o` is replaced by one of the same length. -/
def overwrite : Pic :=
  { P with lay := P.lay.writeDat (P.lay.view o) data }

/-! ## §3 What the operations keep -/

/-- Every chain is in order, and no operation is under way. -/
structure Good : Prop where
  base : P.Base
  chain : ∀ h, h < nhashDef → P.ChainOk h
  free : P.FreeOk
  idle : ∀ p, P.pend p = none ∧ ∀ o, P.own o ≠ .proc p

/-- The map a picture stands for. -/
def Means (m : Bytes → Option Bytes) : Prop := ∀ h, P.MapOk m h

end

variable {P : Pic} {h c : Nat} {key data : Bytes} {m : Bytes → Option Bytes} {w : Owner}

theorem Base.looks (hB : P.Base) : Looks P.lay P.pend P.lay.ptrAt P.lay.keyAt P.lay.datAt P.lay.regAt P.lay.sizes :=
  ⟨hB.wf, hB.dat, rfl, rfl, rfl, rfl, rfl⟩


/-- The cells of two different chains, heads included, are different cells. -/
theorem Good.cells_ne (hG : P.Good) (hh : h < nhashDef) (hh' : h' < nhashDef)
    (hne : h' ≠ h) (hy : y ∈ cellOf h' :: P.ch h') (hz : z ∈ cellOf h :: P.ch h) : y ≠ z :=
  ((hG.chain h' hh').row hh').cells_ne hG.base ((hG.chain h hh).row hh) (fun he => hne (cellOf_inj he))
    (fun he => hne (Owner.chain.inj he).symm) hy hz

theorem ChainOk.cells_ne_free (hB : P.Base) (hC : P.ChainOk h) (hF : P.FreeOk) (hh : h < nhashDef)
    (hy : y ∈ cellOf h :: P.ch h) (hz : z ∈ freeOff :: P.fl) : y ≠ z :=
  (hC.row hh).cells_ne hB hF.row (cellOf_ne_freeOff h) nofun hy hz

theorem Good.cells_ne_free (hG : P.Good) (hh : h < nhashDef)
    (hy : y ∈ cellOf h :: P.ch h) (hz : z ∈ freeOff :: P.fl) : y ≠ z :=
  (hG.chain h hh).cells_ne_free hG.base hG.free hh hy hz

/-- Records keep existing under operations that do not append. -/
theorem own_iff_of_update {own : Nat → Owner} {L' : Layout}
    (hown : ∀ y, own y = .nobody ↔ L.recAt y = none) (hw : w ≠ .nobody)
    (hkey : L'.keyAt = update L.keyAt o (some k)) (y : Nat) :
    update own o w y = .nobody ↔ L'.recAt y = none := by
  rw [recAt_eq_none_iff, hkey]
  by_cases hyo : y = o
  · rw [hyo, update_self, update_self]
    exact ⟨fun he => absurd he hw, fun he => absurd he (by simp)⟩
  · rw [update_of_ne hyo, update_of_ne hyo, hown, recAt_eq_none_iff]

theorem Good.idle_update (hG : P.Good) (hw : ∀ p, w ≠ .proc p) (p : Nat) :
    P.pend p = none ∧ ∀ y, update P.own o w y ≠ .proc p := by
  refine ⟨(hG.idle p).1, fun y => ?_⟩
  by_cases hyo : y = o
  · rw [hyo, update_self]
    exact hw p
  · rw [update_of_ne hyo]
    exact (hG.idle p).2 y

/-- An operation on one chain, seen as an operation on the map. -/
theorem Means.of_chain {P' : Pic} {m' : Bytes → Option Bytes} {k x : Option Bytes}
    (hM : P.Means m) (hnew : P'.MapOk m' h) (hm : ∀ k, dbHash k ≠ h → m' k = m k)
    (hch : ∀ h', h' ≠ h → P'.ch h' = P.ch h')
    (ho : ∀ h', h' < nhashDef → h' ≠ h → o ∉ P.ch h')
    (hkey : P'.lay.keyAt = update P.lay.keyAt o k)
    (hdat : P'.lay.datAt = update P.lay.datAt o x) : P'.Means m' := by
  intro h'
  by_cases hne : h' = h
  · exact hne ▸ hnew
  by_cases hh' : h' < nhashDef
  · have hne' : ∀ y ∈ P.ch h', y ≠ o := fun y hy he => ho h' hh' hne (he ▸ hy)
    refine MapOk.frame (fun k hk x => ?_) (hch h' hne) (fun y hy => ?_) fun y hy => ?_
    · rw [hm k (hk ▸ hne)]
      exact hM h' k hk x
    · rw [hkey, update_of_ne (hne' y hy)]
    · rw [hdat, update_of_ne (hne' y hy)]
  · exact fun k hk => absurd (hk ▸ dbHash_lt k) hh'

section Delete
variable {pre post : List Nat}

theorem delete_ch_of_ne (hne : h' ≠ h) (c o : Nat) : (P.delete h c o).ch h' = P.ch h' := update_of_ne hne ..

variable (hG : P.Good) (hh : h < nhashDef) (hsplit : P.ch h = pre ++ o :: post) (hr : P.lay.recAt o = some r)
include hG hh hsplit

theorem delete_ch (c : Nat) : (P.delete h c o).ch h = pre ++ post := by
  change update P.ch h ((P.ch h).erase o) h = _
  rw [update_self, hsplit]
  exact erase_of_split (hsplit ▸ (hG.chain h hh).chain.nodup)

include hr

/-- The four writes of a deletion, one after the other. -/
theorem looks_delete :
    let key' := update P.lay.keyAt o (some (blanks r.key.length))
    let dat' := update P.lay.datAt o (some (blanks (r.datlen - 1)))
    let ptr2 := update P.lay.ptrAt o (some (P.fl.headD 0))
    let ptr3 := update ptr2 freeOff (some o)
    let ptr4 := update ptr3 (lastCell (cellOf h) pre) (some r.ptr)
    let L1 := P.lay.writeDat r (blanks (r.datlen - 1))
    let L2 := L1.writeRec o r (P.fl.headD 0) (blanks r.key.length)
    let L3 := L2.setPtr freeOff o
    Looks L1 P.pend P.lay.ptrAt P.lay.keyAt dat' P.lay.regAt P.lay.sizes ∧
    Looks L2 P.pend ptr2 key' dat' P.lay.regAt P.lay.sizes ∧
    Looks L3 P.pend ptr3 key' dat' P.lay.regAt P.lay.sizes ∧
    Looks (P.delete h (lastCell (cellOf h) pre) o).lay P.pend ptr4 key' dat' P.lay.regAt P.lay.sizes := by
  have hC := hG.chain h hh
  have hmem : o ∈ P.ch h := by rw [hsplit]; simp
  have hok := hG.base.wf.recAt_ok hr
  have hpos := hok.dat_pos
  have hreg := regAt_of_recAt hr
  have hkey := keyAt_of_recAt hr
  have hfree : P.lay.ptrAt freeOff = some (P.fl.headD 0) := hG.free.chain.head
  have hof : freeOff ≠ o := (hG.cells_ne_free hh (mem_cons_of_mem _ hmem) (by simp)).symm
  obtain ⟨hlast, hco, hin⟩ := hC.list.cell_facts hG.base (cellOf_lt hh) hsplit
  have hcf : lastCell (cellOf h) pre ≠ freeOff := hG.cells_ne_free hh hin (by simp)
  have h1 := hG.base.looks.write hreg (nul_notMem_blanks (r.datlen - 1)) (by rw [blanks, length_replicate]; omega)
  have h2 := h1.rekey hkey hreg (hG.base.wf.ptrAt_le hfree)
    (by rw [blanks, length_replicate]) (nul_notMem_blanks r.key.length)
  have h3 := h2.setPtr (by rw [update_of_ne hof]; exact hfree) (hC.list.le hG.base hmem)
  have h4 := h3.setPtr (by rw [update_of_ne hcf, update_of_ne hco]; exact hlast) hok.ptr_le
  rw [delete, view_of_recAt hr]
  exact ⟨h1, h2, h3, h4⟩

/-- Deleting keeps every chain in order. -/
theorem Good.delete : (P.delete h (lastCell (cellOf h) pre) o).Good := by
  obtain ⟨-, -, -, hL⟩ := looks_delete hG hh hsplit hr
  have hC := hG.chain h hh
  have hmem : o ∈ cellOf h :: P.ch h := by rw [hsplit]; simp
  obtain ⟨-, hlo, hlast⟩ := hC.list.cell_facts hG.base (cellOf_lt hh) hsplit
  have hrest : ∀ y ∈ pre ++ post, y ∈ P.ch h ∧ y ≠ o := fun y => (hC.list.mem_rest hsplit).mp
  have hfree : ∀ {y}, y ∈ cellOf h :: P.ch h → y ≠ freeOff := fun hy =>
    hG.cells_ne_free hh hy (by simp)
  have hcell := hC.list.cell_notMem hG.base (cellOf_lt hh)
  refine ⟨⟨hL.wf, hL.datOk, own_iff_of_update hG.base.own_iff (by simp) hL.keyAt⟩,
    fun h' hh' => ?_, ?_, hG.idle_update (by simp)⟩
  · by_cases hne : h' = h
    · subst hne
      refine hC.unlink hG.base hh' hsplit (delete_ch hG hh' hsplit _) (fun _ => own_update_leave nofun) ?_
        (fun y hy hyc => ?_) fun y hy => ?_
      · rw [hL.ptrAt, update_self, ptrAt_of_recAt hr]
      · have hy' : y ∈ cellOf h' :: P.ch h' ∧ y ≠ o := by
          rcases mem_cons.mp hy with rfl | hy
          · exact ⟨by simp, fun he => hcell (by rw [he, hsplit]; simp)⟩
          · exact ⟨mem_cons_of_mem _ (hrest y hy).1, (hrest y hy).2⟩
        rw [hL.ptrAt, update_of_ne hyc, update_of_ne (hfree hy'.1), update_of_ne hy'.2]
      · rw [hL.keyAt, update_of_ne (hrest y hy).2]
    · refine (hG.chain h' hh').frame (delete_ch_of_ne hne _ o) (fun _ => own_update_other nofun ?_)
        (fun y hy => ?_) fun y hy => ?_
      · rw [(hC.own_iff o).mp (by rw [hsplit]; simp)]
        exact fun he => hne (Owner.chain.inj he).symm
      · rw [hL.ptrAt, update_of_ne (hG.cells_ne hh hh' hne hy hlast), update_of_ne (hG.cells_ne_free hh' hy (by simp)),
          update_of_ne (hG.cells_ne hh hh' hne hy hmem)]
      · rw [hL.keyAt, update_of_ne (hG.cells_ne hh hh' hne (mem_cons_of_mem _ hy) hmem)]
  · refine hG.free.push rfl (fun _ => own_update_join) (recAt_ne_zero hr) ?_ ?_ (fun y hy => ?_)
      (fun y hy => ?_) fun k hk b hb => ?_
    · rw [hL.ptrAt, update_of_ne (hfree hlast).symm, update_self]
    · rw [hL.ptrAt, update_of_ne hlo.symm, update_of_ne (hfree hmem), update_self, hG.free.chain.head]
    · have hy' := mem_cons_of_mem freeOff hy
      have hyf : y ≠ freeOff := fun he => hG.free.list.cell_notMem hG.base freeOff_lt (he ▸ hy)
      rw [hL.ptrAt, update_of_ne (hG.cells_ne_free hh hlast hy').symm,
        update_of_ne hyf, update_of_ne (hG.cells_ne_free hh hmem hy').symm]
    · rw [hL.keyAt, update_of_ne (hG.cells_ne_free hh hmem (mem_cons_of_mem _ hy)).symm]
    · rw [hL.keyAt, update_self] at hk
      cases hk
      exact eq_of_mem_replicate hb

theorem Means.delete (hM : P.Means m) : (P.delete h (lastCell (cellOf h) pre) o).Means (update m r.key none) := by
  obtain ⟨-, -, -, hL⟩ := looks_delete hG hh hsplit hr
  have hC := hG.chain h hh
  have hmem : o ∈ P.ch h := by rw [hsplit]; simp
  have hkey := keyAt_of_recAt hr
  have hrest : ∀ y ∈ pre ++ post, y ≠ o := fun y hy => ((hC.list.mem_rest hsplit).mp hy).2
  refine hM.of_chain ((hM h).unlink hC hsplit (delete_ch hG hh hsplit _) hkey ?_ ?_)
    (fun k hk => update_of_ne ?_ ..) (fun h' hne => delete_ch_of_ne hne _ o)
    (fun h' hh' hne hmem' => ?_) hL.keyAt hL.datAt
  · intro y hy
    rw [hL.keyAt, update_of_ne (hrest y hy)]
  · intro y hy
    rw [hL.datAt, update_of_ne (hrest y hy)]
  · rintro rfl
    exact hk (hC.hash o hmem _ hkey)
  · exact hG.cells_ne hh hh' hne (mem_cons_of_mem _ hmem') (mem_cons_of_mem _ hmem) rfl

/-- After a deletion no record of the chain has the key any more. -/
theorem delete_no_key : ∀ y ∈ (P.delete h (lastCell (cellOf h) pre) o).ch h,
      (P.delete h (lastCell (cellOf h) pre) o).lay.keyAt y ≠ some r.key := by
  have hC := hG.chain h hh
  intro y hy he
  rw [delete_ch hG hh hsplit] at hy
  obtain ⟨hmem, hyo⟩ := (hC.list.mem_rest hsplit).mp hy
  rw [(looks_delete hG hh hsplit hr).2.2.2.keyAt, update_of_ne hyo] at he
  exact hyo (hC.inj y hmem o (by rw [hsplit]; simp) (he.trans (keyAt_of_recAt hr).symm))

end Delete

section Push
variable {P' : Pic}

variable (hG : P.Good) (hch : P'.ch = update P.ch (dbHash key) (o :: P.ch (dbHash key)))
  (hnot : ∀ h', P.own o ≠ .chain h') (hkey : P'.lay.keyAt = update P.lay.keyAt o (some key)) (hnew : P.Lacks key)

include hG hch hnot hkey hnew

/-- A record that was on no chain goes to the front of one. -/
theorem Good.chains_push (hown : P'.own = update P.own o (.chain (dbHash key))) (hne : o ≠ 0)
    (hcell : P'.lay.ptrAt (cellOf (dbHash key)) = some o) (ho : P'.lay.ptrAt o = P.lay.ptrAt (cellOf (dbHash key)))
    (hptr : ∀ h', h' < nhashDef → ∀ y ∈ cellOf h' :: P.ch h', y ≠ cellOf (dbHash key) → P'.lay.ptrAt y = P.lay.ptrAt y) :
    ∀ h', h' < nhashDef → P'.ChainOk h' := by
  intro h' hh'
  have hC := hG.chain h' hh'
  have hcells : ∀ y ∈ P.ch h', y ≠ cellOf (dbHash key) := fun y hy he =>
    hC.list.cell_notMem hG.base (cellOf_lt (dbHash_lt key)) (he ▸ hy)
  have hkeys : ∀ y ∈ P.ch h', P'.lay.keyAt y = P.lay.keyAt y := fun y hy => by
    have hyo : y ≠ o := by
      rintro rfl
      exact hnot h' ((hC.own_iff y).mp hy)
    rw [hkey, update_of_ne hyo]
  by_cases hhh : h' = dbHash key
  · subst hhh
    exact hC.push (by rw [hch, update_self]) (fun _ => by rw [hown]; exact own_update_join) hne hcell ho
      (fun y hy => hptr _ hh' y (mem_cons_of_mem _ hy) (hcells y hy)) hkeys
      (by rw [hkey, update_self]) rfl hnew
  refine hC.frame (by rw [hch, update_of_ne hhh]) (fun y => ?_) (fun y hy => ?_) hkeys
  · rw [hown]
    exact own_update_other (fun he => hhh (Owner.chain.inj he).symm) (hnot h')
  · refine hptr h' hh' y hy ?_
    rcases mem_cons.mp hy with rfl | hy
    · exact fun he => hhh (cellOf_inj he)
    · exact hcells y hy

theorem Means.push (hM : P.Means m) (hdat : P'.lay.datAt = update P.lay.datAt o (some data)) :
    P'.Means (update m key (some data)) := by
  have hno : ∀ h', h' < nhashDef → o ∉ P.ch h' := fun h' hh' hmem =>
    hnot h' (((hG.chain h' hh').own_iff o).mp hmem)
  have hyo : ∀ y ∈ P.ch (dbHash key), y ≠ o := fun y hy he => hno _ (dbHash_lt key) (he ▸ hy)
  refine hM.of_chain ((hM _).push (by rw [hch, update_self])
    (fun y hy => ?_) (fun y hy => ?_) (by rw [hkey, update_self])
    (by rw [hdat, update_self]) hnew)
    (fun k hk => update_of_ne (fun he => hk (congrArg dbHash he)) ..)
    (fun h' hne => by rw [hch, update_of_ne hne]) (fun h' hh' _ => hno h' hh') hkey hdat
  · rw [hkey, update_of_ne (hyo y hy)]
  · rw [hdat, update_of_ne (hyo y hy)]

end Push

section Reuse

variable {pre post : List Nat} (hG : P.Good) (hsplit : P.fl = pre ++ o :: post) (hr : P.lay.recAt o = some r)
  (hk : key.length = r.key.length) (hx : data.length + 1 = r.datlen) (hnulk : NoNul key) (hnulx : NoNul data)

include hG hsplit hr hk hx hnulk hnulx

/-- The four writes that put a free record back to use. -/
theorem looks_reuse :
    let head := (P.ch (dbHash key)).headD 0
    let key' := update P.lay.keyAt o (some key)
    let dat' := update P.lay.datAt o (some data)
    let ptr1 := update P.lay.ptrAt (lastCell freeOff pre) (some r.ptr)
    let ptr3 := update ptr1 o (some head)
    let ptr4 := update ptr3 (cellOf (dbHash key)) (some o)
    let L1 := P.lay.setPtr (lastCell freeOff pre) r.ptr
    let L2 := L1.writeDat r data
    let L3 := L2.writeRec o r head key
    Looks L1 P.pend ptr1 P.lay.keyAt P.lay.datAt P.lay.regAt P.lay.sizes ∧
    Looks L2 P.pend ptr1 P.lay.keyAt dat' P.lay.regAt P.lay.sizes ∧
    Looks L3 P.pend ptr3 key' dat' P.lay.regAt P.lay.sizes ∧
    Looks (P.reuse (lastCell freeOff pre) o key data).lay P.pend ptr4 key' dat' P.lay.regAt P.lay.sizes := by
  have hh := dbHash_lt key
  have hC := hG.chain _ hh
  have hmem : o ∈ P.fl := by rw [hsplit]; simp
  have hok := hG.base.wf.recAt_ok hr
  have hreg := regAt_of_recAt hr
  have hkey := keyAt_of_recAt hr
  obtain ⟨hlast, -, hin⟩ := hG.free.list.cell_facts hG.base freeOff_lt hsplit
  have hcl : cellOf (dbHash key) ≠ lastCell freeOff pre := hG.cells_ne_free hh (by simp) hin
  have hco : cellOf (dbHash key) ≠ o := hG.cells_ne_free hh (by simp) (mem_cons_of_mem _ hmem)
  have hhead := hC.chain.head
  have h1 := hG.base.looks.setPtr hlast hok.ptr_le
  have h2 := h1.write hreg hnulx hx
  have h3 := h2.rekey hkey hreg (hG.base.wf.ptrAt_le hhead) hk hnulk
  have h4 := h3.setPtr (by rw [update_of_ne hco, update_of_ne hcl]; exact hhead) (hG.free.list.le hG.base hmem)
  rw [reuse, view_of_recAt hr]
  exact ⟨h1, h2, h3, h4⟩

/-- Reusing a free record keeps every chain in order. -/
theorem Good.reuse (hnew : P.Lacks key) : (P.reuse (lastCell freeOff pre) o key data).Good := by
  obtain ⟨-, -, -, hL⟩ := looks_reuse hG hsplit hr hk hx hnulk hnulx
  have hmem : o ∈ freeOff :: P.fl := by rw [hsplit]; simp
  have hown : P.own o = .free := (hG.free.own_iff o).mp (by rw [hsplit]; simp)
  obtain ⟨-, hlo, hlast⟩ := hG.free.list.cell_facts hG.base freeOff_lt hsplit
  have hcell := hG.free.list.cell_notMem hG.base freeOff_lt
  have hrest : ∀ y ∈ freeOff :: (pre ++ post), y ∈ freeOff :: P.fl ∧ y ≠ o := by
    intro y hy
    rcases mem_cons.mp hy with rfl | hy
    · exact ⟨by simp, fun he => hcell (by rw [he, hsplit]; simp)⟩
    · exact ((hG.free.list.mem_rest hsplit).mp hy).imp_left (mem_cons_of_mem _)
  have hcl : ∀ {y}, y ∈ freeOff :: P.fl → y ≠ cellOf (dbHash key) := fun hy =>
    (hG.cells_ne_free (dbHash_lt key) (by simp) hy).symm
  refine ⟨⟨hL.wf, hL.datOk, own_iff_of_update hG.base.own_iff (by simp) hL.keyAt⟩, ?_, ?_, hG.idle_update (by simp)⟩
  · refine hG.chains_push rfl (by simp [hown]) hL.keyAt hnew rfl (recAt_ne_zero hr) ?_ ?_ fun h' hh' y hy hyc => ?_
    · rw [hL.ptrAt, update_self]
    · rw [hL.ptrAt, update_of_ne (hcl hmem), update_self, (hG.chain _ (dbHash_lt key)).chain.head]
    · rw [hL.ptrAt, update_of_ne hyc, update_of_ne (hG.cells_ne_free hh' hy hmem),
        update_of_ne (hG.cells_ne_free hh' hy hlast)]
  · have hfl : (P.reuse (lastCell freeOff pre) o key data).fl = pre ++ post := by
      change P.fl.erase o = _
      rw [hsplit]
      exact erase_of_split (hsplit ▸ hG.free.chain.nodup)
    refine hG.free.unlink hG.base hsplit hfl (fun _ => own_update_leave nofun) ?_ (fun y hy hyc => ?_) fun y hy => ?_
    · rw [hL.ptrAt, update_of_ne (hcl hlast), update_of_ne hlo, update_self, ptrAt_of_recAt hr]
    · rw [hL.ptrAt, update_of_ne (hcl (hrest y hy).1), update_of_ne (hrest y hy).2, update_of_ne hyc]
    · rw [hL.keyAt, update_of_ne (hrest y (mem_cons_of_mem _ hy)).2]

theorem Means.reuse (hM : P.Means m) (hnew : P.Lacks key) :
    (P.reuse (lastCell freeOff pre) o key data).Means (update m key (some data)) := by
  obtain ⟨-, -, -, hL⟩ := looks_reuse hG hsplit hr hk hx hnulk hnulx
  have hown : P.own o = .free := (hG.free.own_iff o).mp (by rw [hsplit]; simp)
  exact hM.push hG rfl (by simp [hown]) hL.keyAt hnew hL.datAt

end Reuse

section Append

theorem Base.own_idxEnd (hB : P.Base) : P.own P.lay.idxEnd = .nobody := (hB.own_iff _).mpr (recAt_idxEnd P.lay)
theorem idxEnd_ge (L : Layout) : recOff ≤ L.idxEnd := Nat.le_add_right _ _

variable (hG : P.Good) (hx : NoNul data) (hok : (P.newRec key data).Ok) (hend : P.lay.idxEnd ≤ ptrMax)
include hG

/-- The cell past the end of the file is no cell yet. -/
theorem Good.cells_ne_idxEnd (hh : h < nhashDef) (hy : y ∈ cellOf h :: P.ch h) : y ≠ P.lay.idxEnd :=
  ((hG.chain h hh).row hh).ne hy (by rw [hG.base.own_idxEnd]; nofun) (idxEnd_ge _)

theorem Good.free_ne_idxEnd (hy : y ∈ freeOff :: P.fl) : y ≠ P.lay.idxEnd :=
  hG.free.row.ne hy (by rw [hG.base.own_idxEnd]; nofun) (idxEnd_ge _)

include hx

theorem Good.appendDat : (P.appendDat data).Good :=
  ⟨⟨hG.base.wf.setDat _, (hG.base.looks.appendDat (hG.idle 0).1 hx).datOk, hG.base.own_iff⟩,
    fun h' hh' => (hG.chain h' hh').frame rfl (fun _ => Iff.rfl) (fun _ _ => rfl) fun _ _ => rfl,
    hG.free.frame rfl (fun _ => Iff.rfl) (fun _ _ => rfl) fun _ _ => rfl, hG.idle⟩

include hok

theorem looks_appendLost : Looks (P.appendLost key data).lay P.pend
      (update P.lay.ptrAt P.lay.idxEnd (some ((P.ch (dbHash key)).headD 0)))
      (update P.lay.keyAt P.lay.idxEnd (some key))
      (update P.lay.datAt P.lay.idxEnd (some data))
      (update P.lay.regAt P.lay.idxEnd (some (P.lay.dat.length, data.length + 1)))
      (P.lay.sizes ++ [recSize (P.newRec key data)]) :=
  hG.base.looks.append (hG.idle 0).1 hx hok

/-- A record that is appended and never linked in disturbs no chain. -/
theorem Good.appendLost : (P.appendLost key data).Good := by
  have hL := looks_appendLost hG hx hok
  have hown := hG.base.own_idxEnd
  refine ⟨⟨hL.wf, hL.datOk, own_iff_of_update hG.base.own_iff (by simp) hL.keyAt⟩,
    fun h' hh' => ?_, ?_, hG.idle_update (by simp)⟩
  · refine (hG.chain h' hh').frame rfl (fun _ => own_update_other nofun (by rw [hown]; nofun)) (fun y hy => ?_)
      fun y hy => ?_
    · rw [hL.ptrAt, update_of_ne (hG.cells_ne_idxEnd hh' hy)]
    · rw [hL.keyAt, update_of_ne (hG.cells_ne_idxEnd hh' (mem_cons_of_mem _ hy))]
  · refine hG.free.frame rfl (fun _ => own_update_other nofun (by rw [hown]; nofun)) (fun y hy => ?_) fun y hy => ?_
    · rw [hL.ptrAt, update_of_ne (hG.free_ne_idxEnd hy)]
    · rw [hL.keyAt, update_of_ne (hG.free_ne_idxEnd (mem_cons_of_mem _ hy))]

include hend

theorem looks_append : Looks (P.append key data).lay P.pend
      (update (update P.lay.ptrAt P.lay.idxEnd
        (some ((P.ch (dbHash key)).headD 0))) (cellOf (dbHash key)) (some P.lay.idxEnd))
      (update P.lay.keyAt P.lay.idxEnd (some key))
      (update P.lay.datAt P.lay.idxEnd (some data))
      (update P.lay.regAt P.lay.idxEnd (some (P.lay.dat.length, data.length + 1)))
      (P.lay.sizes ++ [recSize (P.newRec key data)]) := by
  have hhead := (hG.chain _ (dbHash_lt key)).chain.head
  rw [← update_of_ne (hG.cells_ne_idxEnd (dbHash_lt key) mem_cons_self)
    (some ((P.ch (dbHash key)).headD 0)) P.lay.ptrAt] at hhead
  exact (looks_appendLost hG hx hok).setPtr hhead hend

/-- Appending and linking in keeps every chain in order. -/
theorem Good.append (hnew : P.Lacks key) : (P.append key data).Good := by
  have hL := looks_append hG hx hok hend
  have hown := hG.base.own_idxEnd
  have hcell := hG.cells_ne_idxEnd (dbHash_lt key) mem_cons_self
  refine ⟨⟨hL.wf, hL.datOk, own_iff_of_update hG.base.own_iff (by simp) hL.keyAt⟩, ?_, ?_, hG.idle_update (by simp)⟩
  · refine hG.chains_push rfl (by simp [hown]) hL.keyAt hnew rfl ?_ ?_ ?_ fun h' hh' y hy hyc => ?_
    · have hge := idxEnd_ge P.lay
      have : 0 < recOff := by decide
      omega
    · rw [hL.ptrAt, update_self]
    · rw [hL.ptrAt, update_of_ne hcell.symm, update_self, (hG.chain _ (dbHash_lt key)).chain.head]
    · rw [hL.ptrAt, update_of_ne hyc, update_of_ne (hG.cells_ne_idxEnd hh' hy)]
  · refine hG.free.frame rfl (fun _ => own_update_other nofun (by rw [hown]; nofun)) (fun y hy => ?_) fun y hy => ?_
    · rw [hL.ptrAt, update_of_ne (hG.cells_ne_free (dbHash_lt key) (by simp) hy).symm,
        update_of_ne (hG.free_ne_idxEnd hy)]
    · rw [hL.keyAt, update_of_ne (hG.free_ne_idxEnd (mem_cons_of_mem _ hy))]

theorem Means.append (hM : P.Means m) (hnew : P.Lacks key) :
    (P.append key data).Means (update m key (some data)) := by
  have hL := looks_append hG hx hok hend
  exact hM.push hG rfl (by simp [hG.base.own_idxEnd]) hL.keyAt hnew hL.datAt

end Append

section Overwrite
variable (hG : P.Good) (hr : P.lay.recAt o = some r) (hnul : NoNul data) (hx : data.length + 1 = r.datlen)
include hG hr hnul hx

theorem looks_overwrite : Looks (P.overwrite o data).lay P.pend P.lay.ptrAt P.lay.keyAt
      (update P.lay.datAt o (some data)) P.lay.regAt P.lay.sizes := by
  have hreg := regAt_of_recAt hr
  rw [overwrite, view_of_recAt hr]
  exact hG.base.looks.write hreg hnul hx

theorem Good.overwrite : (P.overwrite o data).Good :=
  ⟨⟨hG.base.wf.setDat _, (looks_overwrite hG hr hnul hx).datOk, hG.base.own_iff⟩,
    fun h' hh' => (hG.chain h' hh').frame rfl (fun _ => Iff.rfl) (fun _ _ => rfl) fun _ _ => rfl,
    hG.free.frame rfl (fun _ => Iff.rfl) (fun _ _ => rfl) fun _ _ => rfl, hG.idle⟩

theorem Means.overwrite (hM : P.Means m) (hh : h < nhashDef) (ho : o ∈ P.ch h) :
    (P.overwrite o data).Means (update m r.key (some data)) := by
  have hL := looks_overwrite hG hr hnul hx
  have hC := hG.chain h hh
  have hkey := keyAt_of_recAt hr
  refine hM.of_chain (k := some r.key) ((hM h).overwrite hC rfl ho hkey (fun y _ => rfl)
    (fun y _ hyo => ?_) ?_) (fun k hk => update_of_ne ?_ ..) (fun _ _ => rfl)
    (fun h' hh' hne hmem' => ?_) ?_ hL.datAt
  · rw [hL.datAt, update_of_ne hyo]
  · rw [hL.datAt, update_self]
  · rintro rfl
    exact hk (hC.hash o ho _ hkey)
  · exact hG.cells_ne hh hh' hne (mem_cons_of_mem _ hmem') (mem_cons_of_mem _ ho) rfl
  · rw [hL.keyAt, ← hkey, update_eq_self]

end Overwrite

/-! ## §4 Whole operations -/

/-- Where the code looks for a key. -/
def find (P : Pic) (key : Bytes) : Search := search P.lay.view key (cellOf (dbHash key)) (P.ch (dbHash key))

/-- The new records go to the ends of the files, if they are within the
limits. -/
def storeAppend (P : Pic) (key data : Bytes) : Result Err Int × Pic :=
  let len := (P.newRec key data).text.length
  if len < idxlenMin ∨ idxlenMax < len then
    (.stopped (.dump "_db_writeidx: invalid length"), P.appendDat data)
  else if ptrMax < P.lay.idxEnd then
    (.stopped (.quit "_db_writeptr: invalid ptr: %d" P.lay.idxEnd), P.appendLost key data)
  else (.ok 0, P.append key data)

def storeNew (P : Pic) (key data : Bytes) : Result Err Int × Pic :=
  match searchFree P.lay.view key.length (data.length + 1) freeOff P.fl with
  | some (c, o) => (.ok 0, P.reuse c o key data)
  | none => P.storeAppend key data

def storeOver (P : Pic) (c o : Nat) (key data : Bytes) : Result Err Int × Pic :=
  if data.length + 1 ≠ (P.lay.view o).datlen then
    (P.delete (dbHash key) c o).storeAppend key data
  else (.ok 0, P.overwrite o data)

def store (P : Pic) (key data : Bytes) (flag : Int) : Result Err Int × Pic :=
  if flag ≠ flagInsert ∧ flag ≠ flagReplace ∧ flag ≠ flagStore then (.ok (-1), P)
  else if data.length + 1 < datlenMin ∨ datlenMax < data.length + 1 then
    (.stopped (.dump "db_store: invalid data length"), P)
  else
    match P.find key with
    | .stray => (.stopped sepErr, P)
    | .miss => if flag = flagReplace then (.ok (-1), P) else P.storeNew key data
    | .hit c o => if flag = flagInsert then (.ok 1, P) else P.storeOver c o key data

def remove (P : Pic) (key : Bytes) : Result Err Int × Pic :=
  match P.find key with
  | .stray => (.stopped sepErr, P)
  | .miss => (.ok (-1), P)
  | .hit c o => (.ok 0, P.delete (dbHash key) c o)

def fetch (P : Pic) (key : Bytes) : Result Err (Option Bytes) :=
  match P.find key with
  | .stray => .stopped sepErr
  | .miss => .ok none
  | .hit _ o => .ok (some (P.lay.datum (P.lay.view o)))

section Whole
variable {flag : Int} (hB : P.Base) (hC : P.ChainOk (dbHash key)) {rc : Int}
include hB hC

theorem ChainOk.find_hit (hf : P.find key = .hit c o) :
    sep ∉ key ∧ ∃ pre post r, P.ch (dbHash key) = pre ++ o :: post ∧
      c = lastCell (cellOf (dbHash key)) pre ∧ P.lay.recAt o = some r ∧ r.key = key := by
  obtain ⟨hkey, hsep, pre, post, hsplit, hc⟩ := search_hit hf
  have hmem : o ∈ P.ch (dbHash key) := by rw [hsplit]; simp
  obtain ⟨r, hr⟩ := hC.list.exists_rec hB hmem
  rw [view_of_recAt hr] at hkey
  exact ⟨hsep, pre, post, r, hsplit, hc, hr, hkey⟩

theorem ChainOk.find_miss (hf : P.find key = .miss) : P.Lacks key := by
  intro y hy he
  obtain ⟨r, hr⟩ := hC.list.exists_rec hB hy
  refine search_miss hf y hy ?_
  rw [view_of_recAt hr]
  rw [keyAt, hr] at he
  exact some.inj he

theorem MapOk.find_hit (hM : P.MapOk m (dbHash key))
    (hf : P.find key = .hit c o) : m key = some (P.lay.datum (P.lay.view o)) := by
  obtain ⟨-, pre, post, r, hsplit, -, hr, hkey⟩ := hC.find_hit hB hf
  refine (hM key rfl _).mpr ⟨o, by rw [hsplit]; simp, ?_, ?_⟩
  · rw [keyAt, hr, ← hkey]
    rfl
  · rw [datAt, hr, view_of_recAt hr]
    rfl

theorem MapOk.find_miss (hM : P.MapOk m (dbHash key)) (hf : P.find key = .miss) : m key = none := by
  by_contra hne
  obtain ⟨x, hx⟩ := ne_none_iff_exists'.mp hne
  obtain ⟨y, hy, hk, -⟩ := (hM key rfl x).mp hx
  exact hC.find_miss hB hf y hy hk

omit hB hC

section
variable (hG : P.Good)
include hG

theorem Good.find_hit (hf : P.find key = .hit c o) : sep ∉ key ∧ ∃ pre post r, P.ch (dbHash key) = pre ++ o :: post ∧
      c = lastCell (cellOf (dbHash key)) pre ∧ P.lay.recAt o = some r ∧ r.key = key :=
  (hG.chain _ (dbHash_lt key)).find_hit hG.base hf

theorem Good.find_miss (hf : P.find key = .miss) : P.Lacks key := (hG.chain _ (dbHash_lt key)).find_miss hG.base hf

theorem Means.find_hit (hM : P.Means m) (hf : P.find key = .hit c o) : m key = some (P.lay.datum (P.lay.view o)) :=
  (hM _).find_hit hG.base (hG.chain _ (dbHash_lt key)) hf

theorem Means.find_miss (hM : P.Means m) (hf : P.find key = .miss) : m key = none :=
  (hM _).find_miss hG.base (hG.chain _ (dbHash_lt key)) hf

omit hG

theorem ChainOk.newRec_ok (hB : P.Base) (hC : P.ChainOk (dbHash key)) (hk : NoNul key)
    (hlen : ¬ BadLen (P.newRec key data).text) (hdat : ¬ BadDat data) : (P.newRec key data).Ok := by
  refine ⟨hB.wf.ptrAt_le hC.chain.head, hk, by omega, by omega, Nat.succ_pos _, ?_⟩
  have : (P.newRec key data).datlen = data.length + 1 := rfl
  omega

end

/-- The record `_db_findfree` picks. -/
theorem FreeOk.searchFree_some (hB : P.Base) (hF : P.FreeOk) {kl dl : Nat}
    (hf : searchFree P.lay.view kl dl freeOff P.fl = some (c, o)) :
    ∃ pre post r, P.fl = pre ++ o :: post ∧ c = lastCell freeOff pre ∧ P.lay.recAt o = some r ∧
      r.key.length = kl ∧ r.datlen = dl := by
  obtain ⟨hk, hd, pre, post, hsplit, hc⟩ := Db.searchFree_some hf
  obtain ⟨r, hr⟩ := hF.list.exists_rec hB (o := o) (by rw [hsplit]; simp)
  rw [view_of_recAt hr] at hk hd
  exact ⟨pre, post, r, hsplit, hc, hr, hk, hd⟩

end Whole
end Pic

/-! ## §5 The map -/

/-- What a database is for. -/
abbrev Map := Bytes → Option Bytes

namespace Map

def store (m : Map) (key data : Bytes) (flag : Int) : Int × Map :=
  if flag ≠ flagInsert ∧ flag ≠ flagReplace ∧ flag ≠ flagStore then (-1, m)
  else
    match m key with
    | some _ => if flag = flagInsert then (1, m) else (0, update m key (some data))
    | none => if flag = flagReplace then (-1, m) else (0, update m key (some data))

def delete (m : Map) (key : Bytes) : Int × Map :=
  match m key with
  | some _ => (0, update m key none)
  | none => (-1, m)

end Map

namespace Pic
variable {P : Pic} {key data : Bytes} {m : Map} {flag rc : Int}

/-- An operation leaves a good picture, also when it stops half-way. If it returns, it has done
what `out` does to the map. -/
structure Yields (P : Pic) (res : Result Err Int × Pic) (out : Map → Int × Map) : Prop where
  good : res.2.Good
  means : ∀ {m rc}, P.Means m → res.1 = .ok rc → rc = (out m).1 ∧ res.2.Means (out m).2

section Yields
variable {P' : Pic} {c o : Nat} {out : Map → Int × Map}

theorem Yields.stopped {e : Err} (hG : P'.Good) : P.Yields (.stopped e, P') out := ⟨hG, fun _ hrc => nomatch hrc⟩

theorem Yields.ok (hG : P'.Good) (h : ∀ m, P.Means m → rc = (out m).1 ∧ P'.Means (out m).2) :
    P.Yields (.ok rc, P') out := ⟨hG, fun hM hrc => Result.ok.inj hrc ▸ h _ hM⟩

variable (hG : P.Good)
include hG

section
variable (hk : NoNul key) (hx : NoNul data)
include hk hx

section
variable (hdat : ¬ BadDat data)
include hdat

theorem Good.yields_storeAppend (hnew : P.Lacks key) :
    P.Yields (P.storeAppend key data) fun m => (0, update m key (some data)) := by
  unfold Pic.storeAppend
  by_cases hlen : BadLen (P.newRec key data).text
  · rw [if_pos hlen]
    exact .stopped (hG.appendDat hx)
  have hok := (hG.chain _ (dbHash_lt key)).newRec_ok hG.base hk hlen hdat
  by_cases hend : ptrMax < P.lay.idxEnd
  · rw [if_neg hlen, if_pos hend]
    exact .stopped (hG.appendLost hx hok)
  rw [if_neg hlen, if_neg hend]
  have hle := not_lt.mp hend
  exact .ok (hG.append hx hok hle hnew) fun m hM => ⟨rfl, hM.append hG hx hok hle hnew⟩

theorem Good.yields_storeNew (hnew : P.Lacks key) :
    P.Yields (P.storeNew key data) fun m => (0, update m key (some data)) := by
  unfold Pic.storeNew
  cases hf : searchFree P.lay.view key.length (data.length + 1) freeOff P.fl with
  | none => exact hG.yields_storeAppend hk hx hdat hnew
  | some co =>
    obtain ⟨c, o⟩ := co
    obtain ⟨pre, post, r, hsplit, rfl, hr, hkl, hdl⟩ := hG.free.searchFree_some hG.base hf
    exact .ok (hG.reuse hsplit hr hkl.symm hdl.symm hk hx hnew) fun m hM =>
      ⟨rfl, hM.reuse hG hsplit hr hkl.symm hdl.symm hk hx hnew⟩

theorem Good.yields_storeOver (hf : P.find key = .hit c o) :
    P.Yields (P.storeOver c o key data) fun m => (0, update m key (some data)) := by
  obtain ⟨-, pre, post, r, hsplit, rfl, hr, rfl⟩ := hG.find_hit hf
  have hh := dbHash_lt r.key
  unfold Pic.storeOver
  by_cases hlen : data.length + 1 ≠ (P.lay.view o).datlen
  · rw [if_pos hlen]
    have hrest := (hG.delete hh hsplit hr).yields_storeAppend hk hx hdat (delete_no_key hG hh hsplit hr)
    refine ⟨hrest.good, fun hM hrc => ?_⟩
    have hdone := hrest.means (hM.delete hG hh hsplit hr) hrc
    rwa [update_idem] at hdone
  · rw [if_neg hlen]
    rw [view_of_recAt hr, ne_eq, not_not] at hlen
    exact .ok (hG.overwrite hr hx hlen) fun m hM =>
      ⟨rfl, hM.overwrite hG hr hx hlen hh (by rw [hsplit]; simp)⟩

end

/-- A store does what the map does. -/
theorem Good.yields_store : P.Yields (P.store key data flag) (Map.store · key data flag) := by
  unfold Pic.store Map.store
  by_cases hflag : BadFlag flag
  · simp only [if_pos hflag]
    exact .ok hG fun m hM => ⟨rfl, hM⟩
  simp only [if_neg hflag]
  by_cases hdat : BadDat data
  · rw [if_pos hdat]
    exact .stopped hG
  rw [if_neg hdat]
  cases hf : P.find key with
  | stray => exact .stopped hG
  | miss =>
    by_cases hrep : flag = flagReplace
    · simp only [if_pos hrep]
      exact .ok hG fun m hM => by simp [hM.find_miss hG hf, hM]
    simp only [if_neg hrep]
    obtain ⟨hgood, hmeans⟩ := hG.yields_storeNew hk hx hdat (hG.find_miss hf)
    exact ⟨hgood, fun hM hrc => by simpa [hM.find_miss hG hf] using hmeans hM hrc⟩
  | hit c o =>
    by_cases hins : flag = flagInsert
    · simp only [if_pos hins]
      exact .ok hG fun m hM => by simp [hM.find_hit hG hf, hM]
    simp only [if_neg hins]
    obtain ⟨hgood, hmeans⟩ := hG.yields_storeOver hk hx hdat hf
    exact ⟨hgood, fun hM hrc => by simpa [hM.find_hit hG hf] using hmeans hM hrc⟩

end

theorem Good.yields_remove : P.Yields (P.remove key) (Map.delete · key) := by
  unfold Pic.remove Map.delete
  cases hf : P.find key with
  | stray => exact .stopped hG
  | miss => exact .ok hG fun m hM => by simp [hM.find_miss hG hf, hM]
  | hit c o =>
    obtain ⟨-, pre, post, r, hsplit, rfl, hr, rfl⟩ := hG.find_hit hf
    refine .ok (hG.delete (dbHash_lt _) hsplit hr) fun m hM => ?_
    rw [hM.find_hit hG hf]
    exact ⟨rfl, hM.delete hG (dbHash_lt _) hsplit hr⟩

end Yields

theorem Means.fetch (hG : P.Good) (hM : P.Means m) {x : Option Bytes} (hrc : P.fetch key = .ok x) : x = m key := by
  unfold Pic.fetch at hrc
  cases hf : P.find key with rw [hf] at hrc
  | stray => simp at hrc
  | miss =>
    rw [hM.find_miss hG hf]
    exact (Result.ok.inj hrc).symm
  | hit c o =>
    rw [hM.find_hit hG hf]
    exact (Result.ok.inj hrc).symm

end Pic
end GokuStudio.Apue.Db

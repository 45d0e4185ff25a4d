import GokuStudio.Apue.Db.Scan

/-!
# Stores that fail

`db_store` checks the limits of the format in the middle of its writes. When it
does not complete, what a later process sees is what was there before, with two
exceptions (`store_atomic_iff`):

- the key was there with data of another length: the old record is deleted
  before the new one is checked, and stays deleted (`LosesOld`);
- the key was not there and the new index record starts past `PTR_MAX`: the
  record has been appended when `_db_writeptr` refuses to link it in, and a
  scan shows it (`LeavesStray`).
-/

namespace GokuStudio.Apue.Db

open Lib List Disk Layout

/-! ## §1 What a later process sees -/

/-- The scan shows this pair, given time. -/
def Disk.scanSees (d : Disk) (k x : Bytes) : Prop := ∃ n, ∀ fuel, n ≤ fuel → (k, x) ∈ (d.scan fuel).1

structure SameView (d d' : Disk) : Prop where
  fetch : ∀ k x, d.fetches k x ↔ d'.fetches k x
  scan : ∀ k x, d.scanSees k x ↔ d'.scanSees k x

structure Pic.SameView (P P' : Pic) : Prop where
  fetch : ∀ k x, P.fetch k = .ok (some x) ↔ P'.fetch k = .ok (some x)
  scan : ∀ kx, kx ∈ (P.lay.scanRecs P.lay.recs).1 ↔ kx ∈ (P'.lay.scanRecs P'.lay.recs).1

section Views
variable {d d' : Disk} {P P' : Pic}

theorem FilesOf.scanSees_iff (hG : P.Good) (h : FilesOf d P) {k x : Bytes} :
    d.scanSees k x ↔ (k, x) ∈ (P.lay.scanRecs P.lay.recs).1 :=
  h.scan_iff hG (p := ((k, x) ∈ ·.1))

theorem sameView_iff (hG : P.Good) (hG' : P'.Good) (h : FilesOf d P) (h' : FilesOf d' P') :
    SameView d d' ↔ P.SameView P' := by
  have hf : ∀ {k x}, (d.fetches k x ↔ d'.fetches k x) ↔ (P.fetch k = .ok (some x) ↔ P'.fetch k = .ok (some x)) := by
    intro k x
    rw [fetches, fetches, h.fetch hG, h'.fetch hG']
  have hs : ∀ {k x}, (d.scanSees k x ↔ d'.scanSees k x) ↔ _ := fun {k x} =>
    iff_congr (h.scanSees_iff hG (k := k) (x := x)) (h'.scanSees_iff hG')
  exact ⟨fun hv => ⟨fun k x => hf.mp (hv.fetch k x), fun kx => hs.mp (hv.scan kx.1 kx.2)⟩,
    fun hv => ⟨fun k x => hf.mpr (hv.fetch k x), fun k x => hs.mpr (hv.scan (k, x))⟩⟩

end Views

/-! ## §2 Appends that fail -/

section Append
variable {P : Pic} {key data : Bytes} {L : Layout} {r : IdxRec}

theorem scanRecs_congr {L' : Layout} : ∀ {rs : List IdxRec},
    (∀ r ∈ rs, L'.datum r = L.datum r) → L'.scanRecs rs = L.scanRecs rs
  | [], _ => rfl
  | r :: rs, h => by
    rw [scanRecs, scanRecs, h r (by simp), scanRecs_congr fun x hx => h x (by simp [hx])]

/-- One more record at the end is seen if the scan gets that far. -/
theorem scanRecs_snoc : ∀ {rs : List IdxRec}, (L.scanRecs (rs ++ [r])).1 = (L.scanRecs rs).1 ++
      (if (L.scanRecs rs).2 = true then (L.scanRecs [r]).1 else [])
  | [] => by simp [scanRecs]
  | y :: ys => by
    have ih : (L.scanRecs (ys ++ [r])).1 = (L.scanRecs ys).1 ++
        (if (L.scanRecs ys).2 = true then (L.scanRecs [r]).1 else []) := scanRecs_snoc
    rw [cons_append, scanRecs, scanRecs]
    by_cases hs : sep ∈ y.key
    · simp [hs]
    by_cases hb : y.blank = true
    · rw [if_neg hs, if_neg hs, if_pos hb, if_pos hb, ih]
    · rw [if_neg hs, if_neg hs, if_neg hb, if_neg hb]
      simp only [ih, cons_append]

theorem storeAppend_ok_iff : (P.storeAppend key data).1 = .ok 0 ↔ P.Room key data := by
  constructor
  · intro hrc
    simp only [Pic.storeAppend] at hrc
    split_ifs at hrc with hlen hend
    obtain ⟨hmin, hmax⟩ := not_or.mp hlen
    exact ⟨not_lt.mp hmin, not_lt.mp hmax, not_lt.mp hend⟩
  · intro hR
    rw [hR.fits]

variable (hG : P.Good)
include hG

/-- A picture with the same chains, records and data is searched the same way. -/
theorem fetch_congr (P' : Pic) (hch : P'.ch = P.ch)
    (hrec : ∀ h, h < nhashDef → ∀ o ∈ P.ch h, P'.lay.recAt o = P.lay.recAt o)
    (hdat : ∀ o r, P.lay.recAt o = some r → P'.lay.datum r = P.lay.datum r) (k : Bytes) :
    P'.fetch k = P.fetch k := by
  have hview : ∀ o ∈ P.ch (dbHash k), P'.lay.view o = P.lay.view o := fun o ho => by
    rw [view, view, hrec _ (dbHash_lt k) o ho]
  have hfind : P'.find k = P.find k := by
    rw [Pic.find, Pic.find, hch]
    exact search_congr hview
  unfold Pic.fetch
  rw [hfind]
  cases hf : P.find k with
  | stray | miss => rfl
  | hit c o =>
    obtain ⟨-, pre, post, r, hsplit, -, hr, -⟩ := hG.find_hit hf
    have ho : o ∈ P.ch (dbHash k) := by rw [hsplit]; simp
    simp only [hview o ho, view_of_recAt hr, hdat o r hr]

theorem Pic.Good.datum_append (hL : L.dat = P.lay.dat ++ (data ++ [newline]))
    {o : Nat} (hr : P.lay.recAt o = some r) : L.datum r = P.lay.datum r := by
  rw [datum, hL]
  exact ((hG.base.dat.has hr).append).value

theorem fetch_appendDat (k : Bytes) : (P.appendDat data).fetch k = P.fetch k :=
  fetch_congr hG (P.appendDat data) rfl (fun _ _ _ _ => rfl) (fun _ _ => hG.datum_append rfl) k

theorem fetch_appendLost (k : Bytes) : (P.appendLost key data).fetch k = P.fetch k := by
  refine fetch_congr hG (P.appendLost key data) rfl (fun h hh o ho => ?_) (fun _ _ => hG.datum_append rfl) k
  have hne := hG.cells_ne_idxEnd hh (mem_cons_of_mem _ ho)
  exact (recAt_addRec ..).trans (if_neg hne)

theorem Pic.Good.datum_of_mem (hL : L.dat = P.lay.dat ++ (data ++ [newline])) :
    ∀ r ∈ P.lay.recs, L.datum r = P.lay.datum r := by
  intro r hr
  obtain ⟨pre, post, hrecs⟩ := append_of_mem hr
  exact hG.datum_append hL (Layout.RestAt.head ⟨pre, hrecs, rfl⟩)

theorem sameView_appendDat : P.SameView (P.appendDat data) := by
  refine ⟨fun k x => by rw [fetch_appendDat hG], fun kx => ?_⟩
  have : (P.appendDat data).lay.scanRecs P.lay.recs = P.lay.scanRecs P.lay.recs := scanRecs_congr (hG.datum_of_mem rfl)
  change _ ↔ kx ∈ ((P.appendDat data).lay.scanRecs P.lay.recs).1
  rw [this]

/-- A record that is appended and not linked in changes the view just when the
scan comes to it and shows something new. -/
theorem sameView_appendLost (hx : NoNul data) : P.SameView (P.appendLost key data) ↔
      ((P.lay.scanRecs P.lay.recs).2 = true → sep ∉ key → isBlank key = false →
        (key, data) ∈ (P.lay.scanRecs P.lay.recs).1) := by
  have hrecs : (P.appendLost key data).lay.recs = P.lay.recs ++ [P.newRec key data] := rfl
  have hold : (P.appendLost key data).lay.scanRecs P.lay.recs = P.lay.scanRecs P.lay.recs :=
    scanRecs_congr (hG.datum_of_mem rfl)
  have hnew : (P.appendLost key data).lay.datum (P.newRec key data) = data := by
    have hhas := HasDatum.write_same hx (Nat.le_refl P.lay.dat.length)
    rw [pwrite_end] at hhas
    exact hhas.value
  have hlast : ((P.appendLost key data).lay.scanRecs [P.newRec key data]).1 =
      if sep ∈ key ∨ isBlank key = true then [] else [(key, data)] := by
    have hkey : (P.newRec key data).key = key := rfl
    have hblank : (P.newRec key data).blank = isBlank key := rfl
    by_cases hs : sep ∈ key
    · simp [scanRecs, hkey, hs]
    by_cases hb : isBlank key = true
    · simp [scanRecs, hkey, hblank, hs, hb]
    · simp [scanRecs, hkey, hblank, hs, hb, hnew]
  have hscan : ((P.appendLost key data).lay.scanRecs (P.appendLost key data).lay.recs).1 = (P.lay.scanRecs P.lay.recs).1 ++
        (if (P.lay.scanRecs P.lay.recs).2 = true then
          (if sep ∈ key ∨ isBlank key = true then [] else [(key, data)]) else []) := by
    rw [hrecs, scanRecs_snoc, hold, hlast]
  constructor
  · rintro ⟨-, hs⟩ hend hsep hb
    have := (hs (key, data)).mpr
    rw [hscan, if_pos hend, if_neg (by simp [hsep, hb])] at this
    exact this (by simp)
  · intro h
    refine ⟨fun k x => by rw [fetch_appendLost hG], fun kx => ?_⟩
    rw [hscan]
    by_cases hend : (P.lay.scanRecs P.lay.recs).2 = true
    · by_cases hkey : sep ∈ key ∨ isBlank key = true
      · simp [hkey]
      have hmem := h hend (fun hs => hkey (.inl hs)) (by simpa using fun hb => hkey (.inr hb))
      rw [if_pos hend, if_neg hkey, mem_append, mem_singleton]
      exact ⟨.inl, fun ho => ho.elim id fun he => he ▸ hmem⟩
    · simp [hend]

/-- An append that fails hides nothing from `db_fetch`. -/
theorem fetch_storeAppend (hrc : (P.storeAppend key data).1 ≠ .ok 0) (k : Bytes) :
    (P.storeAppend key data).2.fetch k = P.fetch k := by
  simp only [Pic.storeAppend] at hrc ⊢
  split_ifs at hrc ⊢
  · exact fetch_appendDat hG k
  · exact fetch_appendLost hG k
  · exact absurd rfl hrc

end Append

/-! ## §3 Which failures show -/

/-- The old record is deleted, and the new one turns out not to fit. -/
def Pic.LosesOld (P : Pic) (key data : Bytes) (flag : Int) : Prop := (flag = flagReplace ∨ flag = flagStore) ∧
  (datlenMin ≤ data.length + 1 ∧ data.length + 1 ≤ datlenMax) ∧
  (∃ c o, P.find key = .hit c o ∧ data.length + 1 ≠ (P.lay.view o).datlen) ∧
  ¬ P.Room key data

/-- The new record is appended where no chain pointer can reach it, and the
scan shows it. -/
def Pic.LeavesStray (P : Pic) (key data : Bytes) (flag : Int) : Prop := (flag = flagInsert ∨ flag = flagStore) ∧
  (datlenMin ≤ data.length + 1 ∧ data.length + 1 ≤ datlenMax) ∧
  P.find key = .miss ∧
  searchFree P.lay.view key.length (data.length + 1) freeOff P.fl = none ∧
  (idxlenMin ≤ (P.newRec key data).text.length ∧ (P.newRec key data).text.length ≤ idxlenMax) ∧
  ptrMax < P.lay.idxEnd ∧ isBlank key = false ∧ sep ∉ key ∧
  (P.lay.scanRecs P.lay.recs).2 = true ∧ (key, data) ∉ (P.lay.scanRecs P.lay.recs).1

namespace Pic
variable {P : Pic} {key data : Bytes} {flag : Int} {c o : Nat}

theorem SameView.rfl : P.SameView P := ⟨fun _ _ => Iff.rfl, fun _ => Iff.rfl⟩

variable (hG : P.Good)
include hG

section
variable (hf : P.find key = .hit c o)
include hf

/-- After a deletion the key is not found. -/
theorem Good.fetch_delete (x : Bytes) : (P.delete (dbHash key) c o).fetch key ≠ .ok (some x) := by
  obtain ⟨-, pre, post, r, hsplit, rfl, hr, rfl⟩ := hG.find_hit hf
  intro hx
  obtain ⟨c', o', hf', -⟩ := fetch_eq_some_iff.mp hx
  obtain ⟨-, pre', post', r', hsplit', -, hr', hk'⟩ := (hG.delete (dbHash_lt r.key) hsplit hr).find_hit hf'
  refine delete_no_key hG (dbHash_lt r.key) hsplit hr o' (by rw [hsplit']; simp) ?_
  rw [keyAt_of_recAt hr', hk']

/-- A store for a key that is there. -/
theorem Good.storeOver_view : ((P.storeOver c o key data).1 ≠ .ok 0 → P.SameView (P.storeOver c o key data).2) ↔
      ¬ (data.length + 1 ≠ (P.lay.view o).datlen ∧ ¬ P.Room key data) := by
  unfold Pic.storeOver
  by_cases hlen : data.length + 1 ≠ (P.lay.view o).datlen
  · rw [if_pos hlen, ← hG.room_delete hf, ← storeAppend_ok_iff]
    constructor
    · rintro h ⟨-, hrc⟩
      -- before the call the key is found, after it is not
      have hold : P.fetch key = .ok (some (P.lay.datum (P.lay.view o))) := fetch_eq_some_iff.mpr ⟨c, o, hf, rfl⟩
      have hnew := ((h hrc).fetch key _).mp hold
      rw [fetch_storeAppend (hG.delete_hit hf) hrc] at hnew
      exact hG.fetch_delete hf _ hnew
    · intro h hrc
      exact absurd ⟨hlen, hrc⟩ h
  · rw [if_neg hlen]
    exact ⟨fun _ h => hlen h.1, fun _ => absurd rfl⟩

end

/-- A store for a key that is not there. -/
theorem Good.storeNew_view (hx : NoNul data) :
    ((P.storeNew key data).1 ≠ .ok 0 → P.SameView (P.storeNew key data).2) ↔
      ¬ (searchFree P.lay.view key.length (data.length + 1) freeOff P.fl = none ∧
        (idxlenMin ≤ (P.newRec key data).text.length ∧ (P.newRec key data).text.length ≤ idxlenMax) ∧
        ptrMax < P.lay.idxEnd ∧ isBlank key = false ∧ sep ∉ key ∧
        (P.lay.scanRecs P.lay.recs).2 = true ∧ (key, data) ∉ (P.lay.scanRecs P.lay.recs).1) := by
  unfold Pic.storeNew
  cases hs : searchFree P.lay.view key.length (data.length + 1) freeOff P.fl with
  | some co => simp
  | none =>
    simp only [Pic.storeAppend]
    split_ifs with hlen hend
    · exact ⟨fun _ h => by omega, fun _ _ => sameView_appendDat hG⟩
    · rw [sameView_appendLost hG hx]
      constructor
      · rintro h ⟨-, -, -, hb, hsep, hends, hmem⟩
        exact hmem (h (by simp) hends hsep hb)
      · intro h _ hends hsep hb
        by_contra hmem
        exact h ⟨trivial, by omega, hend, hb, hsep, hends, hmem⟩
    · exact ⟨fun _ h => hend h.2.2.1, fun _ => absurd rfl⟩

theorem Good.store_view (hx : NoNul data) :
    ((P.store key data flag).1 ≠ .ok 0 → P.SameView (P.store key data flag).2) ↔
      ¬ (P.LosesOld key data flag ∨ P.LeavesStray key data flag) := by
  have hflags : flagInsert ≠ flagReplace ∧ flagInsert ≠ flagStore ∧ flagReplace ≠ flagStore := by
    decide
  unfold Pic.store
  by_cases hflag : BadFlag flag
  · rw [if_pos hflag]
    refine ⟨fun _ h => ?_, fun _ _ => SameView.rfl⟩
    rcases h with ⟨h, -⟩ | ⟨h, -⟩ <;> rcases h with h | h <;> simp [BadFlag, h] at hflag
  by_cases hdat : BadDat data
  · rw [if_neg hflag, if_pos hdat]
    refine ⟨fun _ h => ?_, fun _ _ => SameView.rfl⟩
    rcases h with ⟨-, h, -⟩ | ⟨-, h, -⟩ <;> omega
  have hdat' : datlenMin ≤ data.length + 1 ∧ data.length + 1 ≤ datlenMax := by omega
  rw [if_neg hflag, if_neg hdat]
  cases hf : P.find key with
  | stray =>
    refine ⟨fun _ h => ?_, fun _ _ => SameView.rfl⟩
    rcases h with ⟨-, -, ⟨c, o, h, -⟩, -⟩ | ⟨-, -, h, -⟩ <;> simp [hf] at h
  | miss =>
    have hA : ¬ P.LosesOld key data flag := fun ⟨_, _, ⟨c, o, h, _⟩, _⟩ => by simp [hf] at h
    by_cases hrep : flag = flagReplace
    · simp only [if_pos hrep]
      refine ⟨fun _ h => ?_, fun _ _ => SameView.rfl⟩
      rcases h.resolve_left hA with ⟨h | h, -⟩
      · exact hflags.1 (h.symm.trans hrep)
      · exact hflags.2.2 (hrep.symm.trans h)
    · have hins : flag = flagInsert ∨ flag = flagStore := by tauto
      simp only [if_neg hrep]
      rw [hG.storeNew_view hx]
      simp only [hA, false_or, LeavesStray, hins, hdat', hf, true_and, and_self]
  | hit c o =>
    have hB : ¬ P.LeavesStray key data flag := fun ⟨_, _, h, _⟩ => by simp [hf] at h
    by_cases hins : flag = flagInsert
    · simp only [if_pos hins]
      refine ⟨fun _ h => ?_, fun _ _ => SameView.rfl⟩
      rcases h.resolve_right hB with ⟨h | h, -⟩
      · exact hflags.1 (hins.symm.trans h)
      · exact hflags.2.1 (hins.symm.trans h)
    have hrep : flag = flagReplace ∨ flag = flagStore := by tauto
    simp only [if_neg hins]
    rw [hG.storeOver_view hf]
    refine not_congr ⟨fun h => .inl ⟨hrep, hdat', ⟨c, o, hf, h.1⟩, h.2⟩, fun h => ?_⟩
    obtain ⟨-, -, ⟨c', o', hf', hlen⟩, hroom⟩ := h.resolve_right hB
    obtain ⟨rfl, rfl⟩ := Search.hit.inj (hf.symm.trans hf')
    exact ⟨hlen, hroom⟩

end Pic

/-! ## §4 The same on files -/

section
variable (d : Disk) (key data : Bytes) (flag : Int)

/-- The index record an append would write is within the limits. -/
def Disk.Room : Prop := idxlenMin ≤ (idxText key d.dat.length (data.length + 1)).length ∧
  (idxText key d.dat.length (data.length + 1)).length ≤ idxlenMax ∧
  d.idx.length ≤ ptrMax

/-- No record of the free list has these sizes. The index file has one layout
at most, `Layout.Wf.idx_inj`. -/
def Disk.NoFit (keylen datlen : Nat) : Prop :=
  ∀ (L : Layout) (fl : List Nat), L.Wf → d.idx = L.idx → Chain L.ptrAt freeOff fl →
    ∀ o ∈ fl, ¬ ((L.view o).key.length = keylen ∧ (L.view o).datlen = datlen)

/-- The key is there with data of another length, and the new index record is
not within the limits. -/
def Disk.LosesOld : Prop := (flag = flagReplace ∨ flag = flagStore) ∧
  (datlenMin ≤ data.length + 1 ∧ data.length + 1 ≤ datlenMax) ∧
  (∃ old, d.fetches key old ∧ old.length ≠ data.length) ∧ ¬ d.Room key data

/-- The key is not there, no free record can be used, the new index record has
a proper length but starts past `PTR_MAX`, and a scan, which so far comes to
its end, would return it as something new. -/
def Disk.LeavesStray : Prop := (flag = flagInsert ∨ flag = flagStore) ∧
  (datlenMin ≤ data.length + 1 ∧ data.length + 1 ≤ datlenMax) ∧
  d.fetch key = .ok none ∧ d.NoFit key.length (data.length + 1) ∧
  (idxlenMin ≤ (idxText key d.dat.length (data.length + 1)).length ∧
    (idxText key d.dat.length (data.length + 1)).length ≤ idxlenMax) ∧
  ptrMax < d.idx.length ∧ isBlank key = false ∧ sep ∉ key ∧
  ∃ ps n, (∀ fuel, n ≤ fuel → d.scan fuel = (ps, true)) ∧ (key, data) ∉ ps

end

section Files
variable {d : Disk} {P : Pic} {key data : Bytes} {flag : Int}

theorem fetch_eq_none_iff : P.fetch key = .ok none ↔ P.find key = .miss := by
  unfold Pic.fetch
  cases P.find key <;> simp

theorem searchFree_eq_none_iff {view : Nat → IdxRec} {keylen datlen : Nat} :
    ∀ {os : List Nat} {c : Nat}, searchFree view keylen datlen c os = none ↔
      ∀ o ∈ os, ¬ ((view o).key.length = keylen ∧ (view o).datlen = datlen)
  | [], _ => by simp [searchFree]
  | o :: os, c => by
    rw [searchFree, forall_mem_cons]
    by_cases h : (view o).key.length = keylen ∧ (view o).datlen = datlen
    · simp [h]
    · rw [if_neg h, searchFree_eq_none_iff]
      exact ⟨fun hos => ⟨h, hos⟩, fun hos => hos.2⟩

variable (hG : P.Good) (h : FilesOf d P)
include hG h

theorem FilesOf.room_iff : d.Room key data ↔ P.Room key data := by
  have hlen : d.idx.length = P.lay.idxEnd := by rw [h.1, hG.base.wf.length_idx]
  unfold Disk.Room
  rw [hlen, h.2]
  exact ⟨fun ⟨h1, h2, h3⟩ => ⟨h1, h2, h3⟩, fun ⟨h1, h2, h3⟩ => ⟨h1, h2, h3⟩⟩

theorem FilesOf.noFit_iff {keylen datlen : Nat} :
    d.NoFit keylen datlen ↔ searchFree P.lay.view keylen datlen freeOff P.fl = none := by
  rw [searchFree_eq_none_iff]
  refine ⟨fun hno => hno P.lay P.fl hG.base.wf h.1 hG.free.chain, fun hno L fl hL hidx hfl => ?_⟩
  obtain ⟨htable, hrecs⟩ := hL.idx_inj hG.base.wf (hidx.symm.trans h.1)
  have hptr : L.ptrAt = P.lay.ptrAt := by
    funext c
    rw [ptrAt, ptrAt, recAt, recAt, htable, hrecs]
  have hview : L.view = P.lay.view := by
    funext o
    rw [view, view, recAt, recAt, hrecs]
  rw [hptr] at hfl
  rw [hview, hfl.unique hG.free.chain]
  exact hno

theorem FilesOf.scan_ends_iff {kx : Bytes × Bytes} :
    (∃ ps n, (∀ fuel, n ≤ fuel → d.scan fuel = (ps, true)) ∧ kx ∉ ps) ↔
      (P.lay.scanRecs P.lay.recs).2 = true ∧ kx ∉ (P.lay.scanRecs P.lay.recs).1 := by
  have hscan : ∀ ps, (∃ n, ∀ fuel, n ≤ fuel → d.scan fuel = (ps, true)) ↔ P.lay.scanRecs P.lay.recs = (ps, true) :=
    fun ps => h.scan_iff hG (p := (· = (ps, true)))
  simp only [exists_and_right, hscan]
  constructor
  · rintro ⟨ps, heq, hmem⟩
    rw [heq]
    exact ⟨rfl, hmem⟩
  · rintro ⟨hend, hmem⟩
    exact ⟨_, Prod.ext rfl hend, hmem⟩

theorem FilesOf.losesOld_iff : d.LosesOld key data flag ↔ P.LosesOld key data flag := by
  have hfound : (∃ old, d.fetches key old ∧ old.length ≠ data.length) ↔
      ∃ c o, P.find key = .hit c o ∧ data.length + 1 ≠ (P.lay.view o).datlen := by
    have hlen : ∀ c o, P.find key = .hit c o → (P.lay.datum (P.lay.view o)).length + 1 = (P.lay.view o).datlen := by
      intro c o hf
      obtain ⟨-, pre, post, r, -, -, hr, -⟩ := hG.find_hit hf
      rw [view_of_recAt hr]
      exact (hG.base.dat.has hr).2.1
    constructor
    · rintro ⟨old, hold, hne⟩
      rw [fetches, h.fetch hG] at hold
      obtain ⟨c, o, hf, rfl⟩ := fetch_eq_some_iff.mp hold
      have := hlen c o hf
      exact ⟨c, o, hf, by omega⟩
    · rintro ⟨c, o, hf, hne⟩
      have := hlen c o hf
      refine ⟨P.lay.datum (P.lay.view o), ?_, by omega⟩
      rw [fetches, h.fetch hG]
      exact fetch_eq_some_iff.mpr ⟨c, o, hf, rfl⟩
  unfold Disk.LosesOld Pic.LosesOld
  rw [hfound, h.room_iff hG]

theorem FilesOf.leavesStray_iff : d.LeavesStray key data flag ↔ P.LeavesStray key data flag := by
  have hlen : d.idx.length = P.lay.idxEnd := by rw [h.1, hG.base.wf.length_idx]
  unfold Disk.LeavesStray Pic.LeavesStray
  rw [h.fetch hG, fetch_eq_none_iff, h.noFit_iff hG, h.scan_ends_iff hG, hlen, h.2]
  exact Iff.rfl

end Files

/-! ## §5 Reachable databases -/

/-- What calls on a fresh database lead to. A call that stops takes its process
with it; the next one comes from another process, with a handle of its own. -/
inductive Reach (pid : Nat) : Disk → Prop where
  | fresh {d₀ d : Disk} {db : DB} : (∀ l ∈ d₀.locks, l.pid = pid) → run (dbOpen pid) d₀ = (.ok db, d) → Reach pid d
  | returned {d d' : Disk} {db : DB} {op : Op} {a : DB × Res} : Reach pid d → op.CStrings →
      run (op.prog pid db) d = (.ok a, d') → Reach pid d'
  | stopped {d d' : Disk} {db : DB} {op : Op} {e : Err} : Reach pid d → op.CStrings →
      run (op.prog pid db) d = (.stopped e, d') → Reach pid (d'.exit pid)

section Reach
variable {pid : Nat} {d d' : Disk} {P : Pic}

/-- However a call ends, it leaves a good picture. -/
theorem good_after_op (hG : P.Good) (hS : Shows pid d P.lay) {op : Op} (hc : op.CStrings) (db : DB) :
    ∃ P' : Pic, P'.Good ∧ Shows pid (run (op.prog pid db) d).2 P'.lay := by
  obtain ⟨db', d', hS', hrun⟩ := run_prog hG hS hc db
  rw [hrun]
  exact ⟨_, (hG.yields_step hc).1, hS'⟩

theorem Reach.good (h : Reach pid d) : ∃ P : Pic, P.Good ∧ Shows pid d P.lay := by
  induction h with
  | fresh halone hopen =>
    obtain ⟨d', hopen', hS⟩ := run_dbOpen halone
    obtain ⟨-, rfl⟩ := Prod.mk.inj (hopen.symm.trans hopen')
    exact ⟨_, Pic.good_empty, hS⟩
  | returned _ hc hrun ih =>
    obtain ⟨P, hG, hS⟩ := ih
    obtain ⟨P', hG', hS'⟩ := good_after_op hG hS hc _
    rw [hrun] at hS'
    exact ⟨P', hG', hS'⟩
  | stopped _ hc hrun ih =>
    obtain ⟨P, hG, hS⟩ := ih
    obtain ⟨P', hG', hS'⟩ := good_after_op hG hS hc _
    rw [hrun] at hS'
    exact ⟨P', hG', hS'.idx, hS'.dat, hS'.wf, fun l hl => hS'.alone l (mem_of_mem_filter hl)⟩

end Reach

/-- A store that does not complete leaves what a later process sees as it was. -/
def StoreAtomic (pid : Nat) (db : DB) (d : Disk) (key data : Bytes) (flag : Int) : Prop :=
  ∀ r d', run (dbStore pid db key data flag) d = (r, d') → (∀ db', r ≠ .ok (db', 0)) → SameView d d'

theorem Pic.Good.storeAtomic_iff {P : Pic} {pid : Nat} {d : Disk} (hG : P.Good)
    (hS : Shows pid d P.lay) (db : DB) {key data : Bytes} (hk : NoNul key)
    (hx : NoNul data) (flag : Int) :
    StoreAtomic pid db d key data flag ↔ ¬ (d.LosesOld key data flag ∨ d.LeavesStray key data flag) := by
  have hd := hS.files
  rw [hd.losesOld_iff hG, hd.leavesStray_iff hG, ← hG.store_view hx]
  obtain ⟨db', d', hS', hrun⟩ := run_dbStore db hG hS hk hx flag
  have hG' : (P.store key data flag).2.Good := (hG.yields_store hk hx).good
  have hview := sameView_iff hG hG' hd hS'.files
  have hok : (∀ db1, (P.store key data flag).1.map (Prod.mk db') ≠ .ok (db1, 0)) ↔ (P.store key data flag).1 ≠ .ok 0 := by
    cases (P.store key data flag).1 with
    | ok rc | stopped e | blocked => simp [Result.map]
  unfold StoreAtomic
  rw [hrun, ← hok, ← hview]
  exact ⟨fun h => h _ _ rfl, fun h r d1 he hne => by
    obtain ⟨rfl, rfl⟩ := Prod.mk.inj he
    exact h hne⟩

/-- In every reachable database a store is atomic unless it loses the old
record or leaves a stray one. -/
theorem store_atomic_iff {pid : Nat} {d : Disk} (hR : Reach pid d) (db : DB) {key data : Bytes}
    (hk : (0 : UInt8) ∉ key) (hx : (0 : UInt8) ∉ data) (flag : Int) :
    StoreAtomic pid db d key data flag ↔ ¬ (d.LosesOld key data flag ∨ d.LeavesStray key data flag) := by
  obtain ⟨P, hG, hS⟩ := hR.good
  exact hG.storeAtomic_iff hS db hk hx flag

theorem store_atomic_iff_first : ∃ db d, run (dbOpen 1) ⟨[], [], []⟩ = (.ok db, d) ∧
      (StoreAtomic 1 db d [97] [120] flagInsert ↔
        ¬ (d.LosesOld [97] [120] flagInsert ∨ d.LeavesStray [97] [120] flagInsert)) := by
  obtain ⟨d, hopen, -⟩ := @run_dbOpen 1 ⟨[], [], []⟩ (by simp)
  exact ⟨_, d, hopen, store_atomic_iff (.fresh (by simp) hopen) _ (by decide) (by decide) _⟩

/-- A key of 1018 bytes with one byte of data has an index record of 1023
bytes. Replacing the data by 99 bytes would need 1025 of them, and the call
stops after the old record is gone. -/
theorem failed_replace_loses_record : ∃ d, Reach 1 d ∧ d.fetches (List.replicate 1018 97) [120] ∧
      ¬ StoreAtomic 1 (dbRewind dbAlloc) d (List.replicate 1018 97) (List.replicate 99 121)
        flagReplace := by
  have halone : ∀ l ∈ (⟨[], [], []⟩ : Disk).locks, l.pid = 1 := by simp
  obtain ⟨d₀, hopen, hS₀⟩ := run_dbOpen halone
  generalize hkey : replicate 1018 (97 : UInt8) = key
  have hlen : key.length = 1018 := by rw [← hkey, length_replicate]
  have hchars : ∀ b ∈ key, b = 97 := fun b hb => by
    rw [← hkey] at hb
    exact eq_of_mem_replicate hb
  have hnul : (0 : UInt8) ∉ key := fun h => absurd (hchars _ h) (by decide)
  have htext : ∀ datoff datlen : Nat, (idxText key datoff datlen).length =
      1021 + (dec datoff).length + (dec datlen).length := fun datoff datlen => by
    have := IdxRec.length_text ⟨0, key, datoff, datlen⟩
    rw [IdxRec.text] at this
    simp only at this
    omega
  have hproper : (Op.store key [120] flagInsert).Proper := by
    refine ⟨⟨fun h => ?_, hnul, fun h => absurd (hchars _ h) (by decide)⟩, by decide⟩
    rw [h] at hlen
    exact absurd hlen (by decide)
  have hlim : InLimits 1 (dbRewind dbAlloc) d₀ [.store key [120] flagInsert, .fetch key] :=
    inLimits_first halone hopen (by decide) (by decide) (by rw [htext]; decide)
  obtain ⟨db, d, P, hrun, ⟨hG, hP, hM, hS⟩, -⟩ := (sound_open hS₀).step hproper hlim.1
  have hfetch : d.fetches key [120] := by
    obtain ⟨x, hx⟩ := hP.fetch hG key
    have hm := hM.fetch hG hx
    rw [fetches, hS.files.fetch hG, hx, hm]
    simp [Map.step, Map.store, flagInsert, flagReplace, flagStore]
  have hc : (Op.store key [120] flagInsert).CStrings := ⟨hnul, by decide⟩
  refine ⟨d, .returned (.fresh halone hopen) hc hrun, hfetch, ?_⟩
  rw [hG.storeAtomic_iff hS _ hnul (by decide), not_not]
  refine .inl ⟨.inl rfl, by decide, ⟨[120], hfetch, by decide⟩, fun hroom => ?_⟩
  have hmax := hroom.2.1
  have hdec : (dec ((replicate 99 (121 : UInt8)).length + 1)).length = 3 := by decide
  rw [htext, hdec] at hmax
  have := length_dec_pos d.dat.length
  simp only [idxlenMax] at hmax
  omega

end GokuStudio.Apue.Db

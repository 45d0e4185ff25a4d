import GokuStudio.Apue.Db.Sequential

/-!
# What one process sees

A process opens a fresh database and calls `db_store`, `db_delete` and
`db_fetch` as often as it likes. As long as its keys are proper keys and its
records stay within the limits of the format, every call returns what a plain
map from keys to data would return (`runOps_eq_map`), and after every call the
files are in the shape the format promises (`tidy_after_ops`).
-/

namespace GokuStudio.Apue.Db

open Lib Function List Layout

/-! ## §1 Pictures without accidents -/

/-- No record was ever lost. -/
structure Pic.Whole (P : Pic) : Prop where
  lost : ∀ o, P.own o ≠ .lost
  table : ∀ o h, P.own o = .chain h → h < nhashDef

/-- Nothing was ever lost, and no key has a separator in it. -/
structure Pic.Clean (P : Pic) : Prop extends P.Whole where
  sep : ∀ o k, P.lay.keyAt o = some k → Db.sep ∉ k

namespace Pic
variable {P P' : Pic} {key data : Bytes} {flag : Int} {c o : Nat} {w : Owner}

theorem Whole.update (hP : P.Whole) (hown : P'.own = update P.own o w)
    (hw : w = .free ∨ ∃ key, w = .chain (dbHash key)) : P'.Whole := by
  refine ⟨fun y => ?_, fun y h => ?_⟩
  · rw [hown]
    by_cases hyo : y = o
    · rw [hyo, update_self]
      rcases hw with rfl | ⟨key, rfl⟩ <;> exact Owner.noConfusion
    · rw [update_of_ne hyo]
      exact hP.lost y
  · rw [hown]
    by_cases hyo : y = o
    · rw [hyo, update_self]
      rcases hw with rfl | ⟨key, rfl⟩
      · exact Owner.noConfusion
      · exact fun he => Owner.chain.inj he ▸ dbHash_lt key
    · rw [update_of_ne hyo]
      exact hP.table y h

theorem Clean.update (hP : P.Clean) {k : Bytes}
    (hown : P'.own = update P.own o w) (hw : w = .free ∨ ∃ key, w = .chain (dbHash key))
    (hkey : P'.lay.keyAt = update P.lay.keyAt o (some k)) (hk : Db.sep ∉ k) : P'.Clean := by
  refine ⟨hP.toWhole.update hown hw, fun y k' hk' => ?_⟩
  rw [hkey] at hk'
  by_cases hyo : y = o
  · rw [hyo, update_self] at hk'
    exact Option.some.inj hk' ▸ hk
  · rw [update_of_ne hyo] at hk'
    exact hP.sep y k' hk'

theorem sep_notMem_blanks (n : Nat) : Db.sep ∉ blanks n := fun hn =>
  absurd (eq_of_mem_replicate hn) (by decide)

/-- The search never meets a separator. -/
theorem Clean.find_ne_stray (hG : P.Good) (hP : P.Clean) : P.find key ≠ .stray := by
  intro hf
  obtain ⟨y, hy, hs⟩ := search_stray hf
  obtain ⟨r, hr⟩ := (hG.chain _ (dbHash_lt key)).list.exists_rec hG.base hy
  rw [view_of_recAt hr] at hs
  exact hP.sep y r.key (keyAt_of_recAt hr) hs

/-- A store that returns loses nothing. -/
theorem Whole.store (hP : P.Whole) {rc : Int} (hrc : (P.store key data flag).1 = .ok rc) :
    (P.store key data flag).2.Whole := by
  have happend : ∀ (P : Pic) (rc : Int), P.Whole → (P.storeAppend key data).1 = .ok rc →
      (P.storeAppend key data).2.Whole := by
    intro P rc hP hrc
    simp only [Pic.storeAppend] at hrc ⊢
    split_ifs at hrc ⊢
    exact hP.update rfl (.inr ⟨key, rfl⟩)
  unfold Pic.store at hrc ⊢
  by_cases hflag : BadFlag flag
  · rw [if_pos hflag]
    exact hP
  by_cases hdat : BadDat data
  · rw [if_neg hflag, if_pos hdat]
    exact hP
  rw [if_neg hflag, if_neg hdat] at hrc ⊢
  cases hf : P.find key with
  | stray => exact hP
  | miss =>
    rw [hf] at hrc
    by_cases hrep : flag = flagReplace
    · simpa only [if_pos hrep] using hP
    simp only [if_neg hrep] at hrc ⊢
    unfold Pic.storeNew at hrc ⊢
    cases hs : searchFree P.lay.view key.length (data.length + 1) freeOff P.fl with
    | none =>
      rw [hs] at hrc
      exact happend P rc hP hrc
    | some co => exact hP.update rfl (.inr ⟨key, rfl⟩)
  | hit c o =>
    rw [hf] at hrc
    by_cases hins : flag = flagInsert
    · simpa only [if_pos hins] using hP
    simp only [if_neg hins] at hrc ⊢
    unfold Pic.storeOver at hrc ⊢
    by_cases hlen : data.length + 1 ≠ (P.lay.view o).datlen
    · rw [if_pos hlen] at hrc ⊢
      exact happend _ rc (hP.update rfl (.inl rfl)) hrc
    · rw [if_neg hlen]
      exact ⟨hP.lost, hP.table⟩

theorem Whole.remove (hP : P.Whole) : (P.remove key).2.Whole := by
  unfold Pic.remove
  cases P.find key with
  | stray | miss => exact hP
  | hit c o => exact hP.update rfl (.inl rfl)

/-- The limits on what an append writes. -/
structure Room (P : Pic) (key data : Bytes) : Prop where
  min : idxlenMin ≤ (idxText key P.lay.dat.length (data.length + 1)).length
  max : (idxText key P.lay.dat.length (data.length + 1)).length ≤ idxlenMax
  ptr : P.lay.idxEnd ≤ ptrMax

section Hit
variable (hG : P.Good) (hf : P.find key = .hit c o)
include hG hf

theorem Clean.delete (hP : P.Clean) : (P.delete (dbHash key) c o).Clean := by
  obtain ⟨-, pre, post, r, hsplit, rfl, hr, -⟩ := hG.find_hit hf
  exact hP.update rfl (.inl rfl) (looks_delete hG (dbHash_lt key) hsplit hr).2.2.2.keyAt (sep_notMem_blanks _)

theorem Good.delete_hit : (P.delete (dbHash key) c o).Good := by
  obtain ⟨-, pre, post, r, hsplit, rfl, hr, -⟩ := hG.find_hit hf
  exact hG.delete (dbHash_lt _) hsplit hr

/-- A deletion changes the size of nothing. -/
theorem Good.delete_sizes : (P.delete (dbHash key) c o).lay.sizes = P.lay.sizes ∧
      (P.delete (dbHash key) c o).lay.dat.length = P.lay.dat.length := by
  obtain ⟨-, pre, post, r, hsplit, rfl, hr, -⟩ := hG.find_hit hf
  refine ⟨(looks_delete hG (dbHash_lt key) hsplit hr).2.2.2.sizes, ?_⟩
  have hbound := (hG.base.dat.has hr).bound
  have hpos := (hG.base.wf.recAt_ok hr).dat_pos
  have hdat : (P.delete (dbHash key) (lastCell (cellOf (dbHash key)) pre) o).lay.dat =
      pwrite P.lay.dat r.datoff (blanks (r.datlen - 1) ++ [newline]) := by
    rw [Pic.delete, view_of_recAt hr, setPtr_dat, setPtr_dat]
    rfl
  rw [hdat, length_pwrite (by omega), length_append, length_blanks, length_singleton]
  omega

theorem Good.room_delete : (P.delete (dbHash key) c o).Room key data ↔ P.Room key data := by
  obtain ⟨hsz, hdl⟩ := hG.delete_sizes hf
  have hend : (P.delete (dbHash key) c o).lay.idxEnd = P.lay.idxEnd := by
    rw [idxEnd_eq, hsz, ← idxEnd_eq]
  constructor
  · rintro ⟨h1, h2, h3⟩
    exact ⟨hdl ▸ h1, hdl ▸ h2, hend ▸ h3⟩
  · rintro ⟨h1, h2, h3⟩
    exact ⟨hdl.symm ▸ h1, hdl.symm ▸ h2, hend.symm ▸ h3⟩

end Hit

theorem Room.fits (h : P.Room key data) : P.storeAppend key data = (.ok 0, P.append key data) := by
  have hmin : idxlenMin ≤ (P.newRec key data).text.length := h.min
  have hmax : (P.newRec key data).text.length ≤ idxlenMax := h.max
  have hptr := h.ptr
  unfold Pic.storeAppend
  rw [if_neg (by omega), if_neg (by omega)]

theorem storeAppend_dat (P : Pic) (key data : Bytes) :
    (P.storeAppend key data).2.lay.dat = P.lay.dat ++ (data ++ [newline]) := by
  simp only [Pic.storeAppend]
  split_ifs
  · rfl
  · rfl
  · change ((P.appendLost key data).lay.setPtr _ _).dat = _
    rw [setPtr_dat]
    rfl

/-- A call that returns and only adds to the index file. -/
abbrev Extends (P : Pic) (R : Result Err Int × Pic) : Prop :=
  (∃ rc, R.1 = .ok rc) ∧ R.2.Clean ∧ P.lay.sizes <+: R.2.lay.sizes

/-- The call makes the data file grow. -/
def Grows (P : Pic) (key data : Bytes) (flag : Int) : Prop := P.lay.dat.length < (P.store key data flag).2.lay.dat.length

variable (hG : P.Good) (hP : P.Clean) (hk : NoNul key) (hs : Db.sep ∉ key) (hx : NoNul data)
include hG hP hk hs hx

theorem Clean.append (hdat : ¬ BadDat data) (h : P.Room key data) :
    (P.append key data).Clean ∧ P.lay.sizes <+: (P.append key data).lay.sizes := by
  have hmin : idxlenMin ≤ (P.newRec key data).text.length := h.min
  have hmax : (P.newRec key data).text.length ≤ idxlenMax := h.max
  have hL := looks_append hG hx ((hG.chain _ (dbHash_lt key)).newRec_ok hG.base hk (by omega) hdat) h.ptr
  exact ⟨hP.update rfl (.inr ⟨key, rfl⟩) hL.keyAt hs, hL.sizes ▸ prefix_append ..⟩

theorem Clean.storeNew (hdat : ¬ BadDat data)
    (hroom : P.lay.dat.length < (P.storeNew key data).2.lay.dat.length → P.Room key data) :
    P.Extends (P.storeNew key data) := by
  unfold Pic.storeNew at hroom ⊢
  cases hf : searchFree P.lay.view key.length (data.length + 1) freeOff P.fl with
  | some co =>
    obtain ⟨c, o⟩ := co
    obtain ⟨pre, post, r, hsplit, rfl, hr, hkl, hdl⟩ := hG.free.searchFree_some hG.base hf
    obtain ⟨-, -, -, hL⟩ := looks_reuse hG hsplit hr hkl.symm hdl.symm hk hx
    exact ⟨⟨0, rfl⟩, hP.update rfl (.inr ⟨key, rfl⟩) hL.keyAt hs, hL.sizes ▸ prefix_refl _⟩
  | none =>
    have hR : P.Room key data := hroom (by
      simp only [hf, storeAppend_dat, length_append, length_singleton]
      omega)
    have := hP.append hG hk hs hx hdat hR
    simp only [hR.fits]
    exact ⟨⟨0, rfl⟩, this⟩

theorem Clean.storeOver (hdat : ¬ BadDat data) (hf : P.find key = .hit c o)
    (hroom : P.lay.dat.length < (P.storeOver c o key data).2.lay.dat.length → P.Room key data) :
    P.Extends (P.storeOver c o key data) := by
  unfold Pic.storeOver at hroom ⊢
  by_cases hlen : data.length + 1 ≠ (P.lay.view o).datlen
  · obtain ⟨hsz, hdl⟩ := hG.delete_sizes hf
    have hR : P.Room key data := hroom (by
      rw [if_pos hlen, storeAppend_dat, length_append, length_append, hdl, length_singleton]
      omega)
    have hR' := (hG.room_delete hf).mpr hR
    have := (hP.delete hG hf).append (hG.delete_hit hf) hk hs hx hdat hR'
    rw [if_pos hlen, hR'.fits]
    exact ⟨⟨0, rfl⟩, this.1, hsz ▸ this.2⟩
  · obtain ⟨-, pre, post, r, hsplit, rfl, hr, -⟩ := hG.find_hit hf
    rw [if_neg hlen]
    rw [view_of_recAt hr, ne_eq, not_not] at hlen
    have hL := looks_overwrite hG hr hx hlen
    exact ⟨⟨0, rfl⟩, ⟨⟨hP.lost, hP.table⟩, fun y k hy => hP.sep y k (hL.keyAt ▸ hy)⟩, hL.sizes ▸ prefix_refl _⟩

/-- A store within the limits returns, and only adds to the index file. -/
theorem Clean.store (hmin : datlenMin ≤ data.length + 1)
    (hmax : data.length + 1 ≤ datlenMax) (hroom : P.Grows key data flag → P.Room key data) :
    P.Extends (P.store key data flag) := by
  have hdat : ¬ BadDat data := by omega
  unfold Grows at hroom
  unfold Pic.store at hroom ⊢
  by_cases hflag : BadFlag flag
  · rw [if_pos hflag]
    exact ⟨⟨-1, rfl⟩, hP, prefix_refl _⟩
  rw [if_neg hflag, if_neg hdat] at hroom ⊢
  cases hf : P.find key with
  | stray => exact absurd hf (hP.find_ne_stray hG)
  | miss =>
    rw [hf] at hroom
    by_cases hrep : flag = flagReplace
    · simp only [if_pos hrep]
      exact ⟨⟨-1, rfl⟩, hP, prefix_refl _⟩
    · simp only [if_neg hrep] at hroom ⊢
      exact hP.storeNew hG hk hs hx hdat hroom
  | hit c o =>
    rw [hf] at hroom
    by_cases hins : flag = flagInsert
    · simp only [if_pos hins]
      exact ⟨⟨1, rfl⟩, hP, prefix_refl _⟩
    · simp only [if_neg hins] at hroom ⊢
      exact hP.storeOver hG hk hs hx hdat hf hroom

omit hk hs hx

theorem Clean.remove (key : Bytes) : P.Extends (P.remove key) := by
  unfold Pic.remove
  cases hf : P.find key with
  | stray => exact absurd hf (hP.find_ne_stray hG)
  | miss => exact ⟨⟨-1, rfl⟩, hP, prefix_refl _⟩
  | hit c o => exact ⟨⟨0, rfl⟩, hP.delete hG hf, (hG.delete_sizes hf).1 ▸ prefix_refl _⟩

theorem Clean.fetch (key : Bytes) : ∃ x, P.fetch key = .ok x := by
  unfold Pic.fetch
  cases hf : P.find key with
  | stray => exact absurd hf (hP.find_ne_stray hG)
  | miss => exact ⟨none, rfl⟩
  | hit c o => exact ⟨_, rfl⟩

end Pic

/-! ## §2 Calls -/

inductive Op where
  | store (key data : Bytes) (flag : Int)
  | delete (key : Bytes)
  | fetch (key : Bytes)
deriving DecidableEq, Repr

/-- What a call returns: an `int`, or the datum found. -/
inductive Res where
  | rc (n : Int)
  | datum (x : Option Bytes)
deriving DecidableEq, Repr

def Op.prog (pid : Nat) (db : DB) : Op → DbM (DB × Res)
  | .store key data flag => do
      let (db, rc) ← dbStore pid db key data flag
      pure (db, .rc rc)
  | .delete key => do
      let (db, rc) ← dbDelete pid db key
      pure (db, .rc rc)
  | .fetch key => do
      let (db, x) ← dbFetch pid db key
      pure (db, .datum x)

/-- The same call on a map. -/
def Map.step (m : Map) : Op → Res × Map
  | .store key data flag => (.rc (Map.store m key data flag).1, (Map.store m key data flag).2)
  | .delete key => (.rc (Map.delete m key).1, (Map.delete m key).2)
  | .fetch key => (.datum (m key), m)

/-- Call after call on one handle, up to the first one that does not return. -/
def runOps (pid : Nat) : DB → Disk → List Op → List (Result Err Res) × Disk
  | _, d, [] => ([], d)
  | db, d, op :: ops =>
    match run (op.prog pid db) d with
    | (.ok (db', r), d') => (.ok r :: (runOps pid db' d' ops).1, (runOps pid db' d' ops).2)
    | (.stopped e, d') => ([.stopped e], d')
    | (.blocked, d') => ([.blocked], d')

def Map.steps : Map → List Op → List Res × Map
  | m, [] => ([], m)
  | m, op :: ops =>
    ((Map.step m op).1 :: (Map.steps (Map.step m op).2 ops).1, (Map.steps (Map.step m op).2 ops).2)

def ProperKey (key : Bytes) : Prop := key ≠ [] ∧ (0 : UInt8) ∉ key ∧ sep ∉ key

/-- Proper keys, and data that are C strings. -/
def Op.Proper : Op → Prop
  | .store key data _ => ProperKey key ∧ (0 : UInt8) ∉ data
  | .delete key => ProperKey key
  | .fetch key => ProperKey key

def Op.CStrings : Op → Prop
  | .store key data _ => (0 : UInt8) ∉ key ∧ (0 : UInt8) ∉ data
  | .delete key => (0 : UInt8) ∉ key
  | .fetch key => (0 : UInt8) ∉ key

/-- The data record is within the limits, and so is the index record that goes
with it if the call appends one. -/
def Op.InLimits (pid : Nat) (db : DB) (d : Disk) : Op → Prop
  | .store key data flag =>
    datlenMin ≤ data.length + 1 ∧ data.length + 1 ≤ datlenMax ∧
    (d.dat.length < (run (dbStore pid db key data flag) d).2.dat.length →
      idxlenMin ≤ (idxText key d.dat.length (data.length + 1)).length ∧
      (idxText key d.dat.length (data.length + 1)).length ≤ idxlenMax ∧
      d.idx.length ≤ ptrMax)
  | _ => True

/-- Every call is within the limits when its turn comes. -/
def InLimits (pid : Nat) : DB → Disk → List Op → Prop
  | _, _, [] => True
  | db, d, op :: ops => op.InLimits pid db d ∧
      ∀ db' r d', run (op.prog pid db) d = (.ok (db', r), d') → InLimits pid db' d' ops

/-! ## §3 One call after another -/

/-- The files show a good and clean picture of the map. -/
structure Sound (pid : Nat) (d : Disk) (P : Pic) (m : Map) : Prop where
  good : P.Good
  clean : P.Clean
  means : P.Means m
  shows : Shows pid d P.lay

/-- The same call on a picture. -/
def Pic.step (P : Pic) : Op → Result Err Res × Pic
  | .store key data flag => ((P.store key data flag).1.map .rc, (P.store key data flag).2)
  | .delete key => ((P.remove key).1.map .rc, (P.remove key).2)
  | .fetch key => ((P.fetch key).map .datum, P)

variable {pid : Nat} {db : DB} {op : Op}

section Step
variable {d : Disk} {P : Pic} {m : Map}

theorem run_prog (hG : P.Good) (hS : Shows pid d P.lay) (hc : op.CStrings) (db : DB) :
    ∃ db' d', Shows pid d' (P.step op).2.lay ∧ run (op.prog pid db) d = ((P.step op).1.map (Prod.mk db'), d') := by
  have hbind : ∀ {α : Type} {prog : DbM (DB × α)} {f : α → Res} {R : Result Err α} {L : Layout},
      (∃ db' d', Shows pid d' L ∧ run prog d = (R.map (Prod.mk db'), d')) →
      ∃ db' d', Shows pid d' L ∧ run (prog >>= fun x => (pure (x.1, f x.2) : DbM (DB × Res))) d =
        ((R.map f).map (Prod.mk db'), d') := by
    rintro α prog f R L ⟨db', d', hS', hrun⟩
    refine ⟨db', d', hS', ?_⟩
    rw [run_bind, hrun]
    cases R <;> rfl
  cases op with
  | store key data flag => exact hbind (run_dbStore db hG hS hc.1 hc.2 flag)
  | delete key => exact hbind (run_dbDelete db hG hS key)
  | fetch key => exact hbind (run_dbFetch db hG hS key)

theorem Result.map_eq_ok {ε α β : Type} {R : Result ε α} {f : α → β} {b : β}
    (h : R.map f = .ok b) : ∃ a, R = .ok a ∧ f a = b := by
  cases R with
  | ok a => exact ⟨a, rfl, Result.ok.inj h⟩
  | stopped e | blocked => exact absurd h (by simp [Result.map])

theorem Pic.Good.yields_step (hG : P.Good) (hc : op.CStrings) : (P.step op).2.Good ∧ ∀ {m r}, P.Means m →
    (P.step op).1 = .ok r → r = (Map.step m op).1 ∧ (P.step op).2.Means (Map.step m op).2 := by
  have hyields : ∀ {R out}, P.Yields R out → R.2.Good ∧ ∀ {m r}, P.Means m → R.1.map Res.rc = .ok r →
      r = .rc (out m).1 ∧ R.2.Means (out m).2 := by
    refine fun {R out} h => ⟨h.good, fun hM hr => ?_⟩
    obtain ⟨rc, hrc, rfl⟩ := Result.map_eq_ok hr
    exact ⟨congrArg _ (h.means hM hrc).1, (h.means hM hrc).2⟩
  cases op with
  | store key data flag => exact hyields (hG.yields_store hc.1 hc.2)
  | delete key => exact hyields hG.yields_remove
  | fetch key =>
    refine ⟨hG, fun hM hr => ?_⟩
    obtain ⟨x, hx, rfl⟩ := Result.map_eq_ok hr
    exact ⟨congrArg _ (hM.fetch hG hx), hM⟩

/-- One call: it returns what the map returns, and the picture follows. -/
theorem Sound.step (hS : Sound pid d P m) (hv : op.Proper) (hl : op.InLimits pid db d) :
    ∃ db' d' P', run (op.prog pid db) d = (.ok (db', (Map.step m op).1), d') ∧
      Sound pid d' P' (Map.step m op).2 ∧ P.lay.sizes <+: P'.lay.sizes := by
  obtain ⟨hG, hP, hM, hSh⟩ := hS
  have hc : op.CStrings := by
    cases op with
    | store key data flag => exact ⟨hv.1.2.1, hv.2⟩
    | delete key | fetch key => exact hv.2.1
  have hclean : (∃ r, (P.step op).1 = .ok r) ∧ (P.step op).2.Clean ∧ P.lay.sizes <+: (P.step op).2.lay.sizes := by
    cases op with
    | store key data flag =>
      obtain ⟨hmin, hmax, hroom⟩ := hl
      obtain ⟨db', d', hSh', hrun⟩ := run_dbStore db hG hSh hc.1 hc.2 flag
      rw [hrun, hSh.dat, hSh'.dat, hSh.idx, hSh.wf.length_idx] at hroom
      obtain ⟨⟨rc, hrc⟩, hP'⟩ := hP.store hG hc.1 hv.1.2.2 hc.2 hmin hmax fun hg =>
        ⟨(hroom hg).1, (hroom hg).2.1, (hroom hg).2.2⟩
      exact ⟨⟨.rc rc, congrArg (Result.map _) hrc⟩, hP'⟩
    | delete key =>
      obtain ⟨⟨rc, hrc⟩, hP'⟩ := hP.remove hG key
      exact ⟨⟨.rc rc, congrArg (Result.map _) hrc⟩, hP'⟩
    | fetch key =>
      obtain ⟨x, hx⟩ := hP.fetch hG key
      exact ⟨⟨.datum x, congrArg (Result.map _) hx⟩, hP, prefix_refl _⟩
  obtain ⟨⟨r, hr⟩, hP', hsz⟩ := hclean
  obtain ⟨db', d', hSh', hrun⟩ := run_prog hG hSh hc db
  obtain ⟨hG', hM'⟩ := hG.yields_step hc
  obtain ⟨rfl, hM'⟩ := hM' hM hr
  rw [hr] at hrun
  exact ⟨db', d', _, hrun, ⟨hG', hP', hM', hSh'⟩, hsz⟩

end Step

/-- Any number of calls, by induction on them: the results are the map's, and
there is a picture for every moment between two calls. -/
theorem Sound.steps : ∀ {ops : List Op} {db : DB} {d : Disk} {P : Pic} {m : Map},
    Sound pid d P m → (∀ op ∈ ops, op.Proper) → InLimits pid db d ops →
    (runOps pid db d ops).1 = (Map.steps m ops).1.map .ok ∧
    ∃ Q : Nat → Pic, Q 0 = P ∧ (∀ n ≤ ops.length, Sound pid (runOps pid db d (ops.take n)).2 (Q n)
        (Map.steps m (ops.take n)).2) ∧
      ∀ n < ops.length, (Q n).lay.sizes <+: (Q (n + 1)).lay.sizes
  | [], db, d, P, m, hS, _, _ => by
    refine ⟨rfl, fun _ => P, rfl, fun n hn => ?_, fun n hn => absurd hn (Nat.not_lt_zero _)⟩
    rw [take_nil]
    exact hS
  | op :: ops, db, d, P, m, hS, hv, hl => by
    obtain ⟨db', d', P', hrun, hS', hsz⟩ := hS.step (hv op (by simp)) hl.1
    obtain ⟨hres, Q, hQ0, hQ, hQsz⟩ := Sound.steps hS' (fun o ho => hv o (by simp [ho])) (hl.2 _ _ _ hrun)
    refine ⟨?_, fun n => n.casesOn P Q, rfl, fun n hn => ?_, fun n hn => ?_⟩
    · rw [runOps, hrun]
      exact congrArg (cons _) hres
    · cases n with
      | zero => exact hS
      | succ n =>
        rw [take_succ_cons, runOps, hrun]
        exact hQ n (Nat.le_of_succ_le_succ hn)
    · cases n with
      | zero =>
        change P.lay.sizes <+: (Q 0).lay.sizes
        rw [hQ0]
        exact hsz
      | succ n => exact hQsz n (Nat.lt_of_succ_lt_succ hn)

theorem sound_open {d : Disk} (hS : Shows pid d Pic.empty.lay) : Sound pid d Pic.empty fun _ => none := by
  refine ⟨Pic.good_empty, ⟨⟨fun o => Owner.noConfusion, fun o h => Owner.noConfusion⟩,
    fun o k hk => ?_⟩, Pic.means_empty, hS⟩
  exact absurd hk (by simp [keyAt, recAt, Pic.empty, tileAt])

/-- **A finite map.** On a fresh database, every call of every sequence of
proper calls within the limits returns what the map returns. -/
theorem runOps_eq_map (pid : Nat) (d₀ : Disk) (halone : ∀ l ∈ d₀.locks, l.pid = pid) :
    ∃ db d, run (dbOpen pid) d₀ = (.ok db, d) ∧ ∀ ops : List Op, (∀ op ∈ ops, op.Proper) → InLimits pid db d ops →
        (runOps pid db d ops).1 = (Map.steps (fun _ => none) ops).1.map .ok := by
  obtain ⟨d, hopen, hS⟩ := run_dbOpen halone
  exact ⟨_, d, hopen, fun ops hv hl => ((sound_open hS).steps hv hl).1⟩

/-- A first store on a fresh database has all the room there is. -/
theorem inLimits_first {d0 d : Disk} {key data : Bytes} {flag : Int}
    (halone : ∀ l ∈ d0.locks, l.pid = pid) (hopen : run (dbOpen pid) d0 = (.ok db, d))
    (hmin : datlenMin ≤ data.length + 1) (hmax : data.length + 1 ≤ datlenMax)
    (htext : idxlenMin ≤ (idxText key (0 : Nat) (data.length + 1)).length ∧
      (idxText key (0 : Nat) (data.length + 1)).length ≤ idxlenMax) :
    InLimits pid db d [.store key data flag, .fetch key] := by
  obtain ⟨d', hopen', hS⟩ := run_dbOpen halone
  obtain rfl : d = d' := congrArg Prod.snd (hopen.symm.trans hopen')
  have hdat : d.dat = [] := hS.dat
  have hidx : d.idx.length = recOff := by
    rw [hS.idx, hS.wf.length_idx]
    rfl
  refine ⟨⟨hmin, hmax, fun _ => ?_⟩, fun _ _ _ _ => ⟨trivial, fun _ _ _ _ => trivial⟩⟩
  rw [hdat, hidx]
  exact ⟨htext.1, htext.2, by decide⟩

theorem runOps_eq_map_first : ∃ db d, run (dbOpen 1) ⟨[], [], []⟩ = (.ok db, d) ∧
      (runOps 1 db d [.store [97] [120] flagInsert, .fetch [97]]).1 = [.ok (.rc 0), .ok (.datum (some [120]))] := by
  obtain ⟨db, d, hopen, h⟩ := runOps_eq_map 1 ⟨[], [], []⟩ (by simp)
  refine ⟨db, d, hopen, h _ ?_ (inLimits_first (by simp) hopen (by decide) (by decide) (by decide))⟩
  simp [Op.Proper, ProperKey, sep]

/-! ## §4 The shape of the files -/

/-- The files in the shape the format promises. Past the table, the index file
is tiled by the records of `L`; each of them is on one chain: the hash chain of
its key if the key is in the map, else the free list. -/
structure Tidy (d : Disk) (L : Layout) (ch : Nat → List Nat) (fl : List Nat) (m : Map) : Prop where
  idx : d.idx = L.front ++ L.recs.flatMap IdxRec.encode
  wf : L.Wf
  chain : ∀ h < nhashDef, Chain L.ptrAt (cellOf h) (ch h) ∧ (ch h).Nodup
  free : Chain L.ptrAt freeOff fl ∧ fl.Nodup
  on_chain : ∀ h < nhashDef, ∀ o ∈ ch h, ∃ r, L.recAt o = some r ∧ dbHash r.key = h ∧
    m r.key = some (pread d.dat r.datoff (r.datlen - 1))
  on_free : ∀ o ∈ fl, ∃ r, L.recAt o = some r
  one_chain : ∀ o r, L.recAt o = some r → (o ∈ ch (dbHash r.key) ∧ o ∉ fl ∧ ∀ h < nhashDef, o ∈ ch h → h = dbHash r.key) ∨
    (o ∈ fl ∧ ∀ h < nhashDef, o ∉ ch h)
  live : ∀ k x, m k = some x → ∃ o ∈ ch (dbHash k), ∃ r, L.recAt o = some r ∧ r.key = k
  data : ∀ o r, L.recAt o = some r → r.datoff + r.datlen ≤ d.dat.length ∧
    pread d.dat (r.datoff + (r.datlen - 1)) 1 = [newline]
  apart : ∀ o o' r r', L.recAt o = some r → L.recAt o' = some r' → o ≠ o' → Apart r.datoff r.datlen r'.datoff r'.datlen

section
variable {d : Disk} {P : Pic} {m : Map}

/-- A record is owned by its chain or by the free list. -/
theorem Pic.Whole.owned (hG : P.Good) (hP : P.Whole) {o : Nat} {r : IdxRec}
    (hr : P.lay.recAt o = some r) : (∃ h, P.own o = .chain h) ∨ P.own o = .free := by
  cases hown : P.own o with
  | nobody =>
    have := (hG.base.own_iff o).mp hown
    rw [hr] at this
    simp at this
  | chain h => exact .inl ⟨h, rfl⟩
  | free => exact .inr rfl
  | proc p => exact absurd hown ((hG.idle p).2 o)
  | lost => exact absurd hown (hP.lost o)

theorem Pic.Means.of_rec (hM : P.Means m) {o : Nat} {r : IdxRec} (hr : P.lay.recAt o = some r)
    (ho : o ∈ P.ch (dbHash r.key)) : m r.key = some (P.lay.datum r) := by
  refine (hM _ r.key rfl _).mpr ⟨o, ho, keyAt_of_recAt hr, ?_⟩
  rw [datAt, hr]
  rfl

theorem Pic.Means.exists_rec (hG : P.Good) (hM : P.Means m) {k x : Bytes} (hx : m k = some x) :
    ∃ o r, P.lay.recAt o = some r ∧ o ∈ P.ch (dbHash k) ∧ r.key = k ∧ P.lay.datum r = x := by
  obtain ⟨o, ho, hko, hxo⟩ := (hM _ k rfl x).mp hx
  obtain ⟨r, hr⟩ := (hG.chain _ (dbHash_lt k)).list.exists_rec hG.base ho
  rw [datAt, hr] at hxo
  exact ⟨o, r, hr, ho, Option.some.inj ((keyAt_of_recAt hr).symm.trans hko), Option.some.inj hxo⟩

variable (hS : Sound pid d P m)
include hS

theorem Sound.tidy : Tidy d P.lay P.ch P.fl m := by
  obtain ⟨hG, hP, hM, hSh⟩ := hS
  refine ⟨hSh.idx, hG.base.wf, fun h hh => ⟨(hG.chain h hh).chain, (hG.chain h hh).chain.nodup⟩,
    ⟨hG.free.chain, hG.free.chain.nodup⟩, fun h hh o ho => ?_, fun o ho =>
    hG.free.list.exists_rec hG.base ho, fun o r hr => ?_, fun k x hx => ?_, fun o r hr => ?_,
    fun o o' r r' => hG.base.dat.apart⟩
  · obtain ⟨r, hr⟩ := (hG.chain h hh).list.exists_rec hG.base ho
    have hhash := (hG.chain h hh).hash o ho r.key (keyAt_of_recAt hr)
    refine ⟨r, hr, hhash, ?_⟩
    rw [hSh.dat]
    exact hM.of_rec hr (hhash ▸ ho)
  · rcases hP.toWhole.owned hG hr with ⟨h, hown⟩ | hown
    · have hh := hP.table o h hown
      have ho := ((hG.chain h hh).own_iff o).mpr hown
      have hhash := (hG.chain h hh).hash o ho r.key (keyAt_of_recAt hr)
      refine .inl ⟨hhash ▸ ho, fun hfl => ?_, fun h' hh' ho' => ?_⟩
      · rw [(hG.free.own_iff o).mp hfl] at hown
        exact Owner.noConfusion hown
      · have := ((hG.chain h' hh').own_iff o).mp ho'
        rw [hown] at this
        exact (Owner.chain.inj this).symm.trans hhash.symm
    · refine .inr ⟨(hG.free.own_iff o).mpr hown, fun h' hh' ho' => ?_⟩
      rw [((hG.chain h' hh').own_iff o).mp ho'] at hown
      exact Owner.noConfusion hown
  · obtain ⟨o, r, hr, ho, hk, -⟩ := hM.exists_rec hG hx
    exact ⟨o, ho, r, hr, hk⟩
  · have hhas := hG.base.dat.has hr
    have hlen := hhas.2.1
    rw [hSh.dat]
    refine ⟨hhas.bound, ?_⟩
    have hread : pread P.lay.dat (r.datoff + (r.datlen - 1)) 1 =
        (pread P.lay.dat r.datoff r.datlen).drop (r.datlen - 1) := by
      rw [pread, pread, drop_take, drop_drop]
      congr 1
      omega
    rw [hread, hhas.2.2, drop_left' (by omega)]

theorem Sound.returns {α : Type} {prog : DbM α}
    (hsafe : Safe (solo pid) (fun _ _ => True) (fun _ _ => False) prog (d, P.lay)) : ∃ a d', run prog d = (.ok a, d') := by
  rcases hsafe.run_alone id hS.shows with ⟨a, d', _, hrun, -, -⟩ | ⟨_, _, _, _, -, hfalse⟩
  · exact ⟨a, d', hrun⟩
  · exact hfalse.elim

end

/-- **The files stay in shape.** After every call of every sequence of proper
calls within the limits the files are tidy, no index record has changed its
size, and both search loops would come to an end. -/
theorem tidy_after_ops (pid : Nat) (d₀ : Disk) (halone : ∀ l ∈ d₀.locks, l.pid = pid) :
    ∃ db d, run (dbOpen pid) d₀ = (.ok db, d) ∧ ∀ ops : List Op, (∀ op ∈ ops, op.Proper) → InLimits pid db d ops →
        ∃ (L : Nat → Layout) (ch : Nat → Nat → List Nat) (fl : Nat → List Nat), ∀ n ≤ ops.length,
            Tidy (runOps pid db d (ops.take n)).2 (L n) (ch n) (fl n)
              (Map.steps (fun _ => none) (ops.take n)).2 ∧
            (∀ i ≤ n, (L i).sizes <+: (L n).sizes) ∧
            (∀ db' key writelock, ∃ a d', run (dbFindAndLock pid db' key writelock) (runOps pid db d (ops.take n)).2 =
                (.ok a, d')) ∧
            ∀ db' keylen datlen, ∃ a d', run (dbFindfree pid db' keylen datlen) (runOps pid db d (ops.take n)).2 =
                (.ok a, d') := by
  obtain ⟨d, hopen, hS⟩ := run_dbOpen halone
  refine ⟨_, d, hopen, fun ops hv hl => ?_⟩
  obtain ⟨-, Q, -, hQ, hsz⟩ := (sound_open hS).steps hv hl
  -- sizes only ever grow, step by step
  have hgrow : ∀ n ≤ ops.length, ∀ i ≤ n, (Q i).lay.sizes <+: (Q n).lay.sizes := by
    intro n hn i hi
    induction n, hi using Nat.le_induction with
    | base => exact prefix_refl _
    | succ n _ ih => exact (ih (Nat.le_of_succ_le hn)).trans (hsz n hn)
  refine ⟨fun n => (Q n).lay, fun n => (Q n).ch, fun n => (Q n).fl, fun n hn => ?_⟩
  have hn' := hQ n hn
  refine ⟨hn'.tidy, hgrow n hn, fun db' key w => hn'.returns ?_, fun db' kl dl => hn'.returns ?_⟩
  · exact solo_find hn'.good (fun hf => absurd hf (hn'.clean.find_ne_stray hn'.good))
      (fun _ _ _ _ _ _ => trivial) fun _ _ _ _ => trivial
  · exact solo_findfree hn'.good (fun _ _ _ _ => trivial) fun _ _ _ _ _ _ => trivial

theorem tidy_after_first : ∃ db d, run (dbOpen 1) ⟨[], [], []⟩ = (.ok db, d) ∧
      ∃ L ch fl m, Tidy (runOps 1 db d [.store [97] [120] flagInsert, .fetch [97]]).2 L ch fl m := by
  obtain ⟨db, d, hopen, h⟩ := tidy_after_ops 1 ⟨[], [], []⟩ (by simp)
  obtain ⟨L, ch, fl, hn⟩ := h [.store [97] [120] flagInsert, .fetch [97]] (by simp [Op.Proper, ProperKey, sep])
    (inLimits_first (by simp) hopen (by decide) (by decide) (by decide))
  exact ⟨db, d, hopen, L 2, ch 2, fl 2, _, (hn 2 le_rfl).1⟩

end GokuStudio.Apue.Db

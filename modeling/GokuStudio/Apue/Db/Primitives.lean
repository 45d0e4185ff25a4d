import GokuStudio.Apue.Db.Layout
import GokuStudio.Lib.Chain

/-!
# The primitive functions, as rules

One rule for each function of `db.c` that reads or writes one field: what it
needs to find in the layout, and what it leaves there. The rules are stated for
any `Rules` whose invariant ties the files to a layout (`Views`), so they serve
a process that runs alone and a process among others alike; the two search
loops are here too, for they only read.
-/

namespace GokuStudio.Apue.Db

open Lib List Disk IdxRec
variable {Γ : Type} {d : Disk}

/-- The invariant of `𝓡` knows a layout of the two files. -/
structure Views (𝓡 : Rules Disk Γ) (lay : Γ → Layout) : Prop where
  idx : ∀ {d γ}, 𝓡.inv d γ → d.idx = (lay γ).idx
  dat : ∀ {d γ}, 𝓡.inv d γ → d.dat = (lay γ).dat
  wf : ∀ {d γ}, 𝓡.inv d γ → (lay γ).Wf
  guar_refl : ∀ w, 𝓡.guar w w

/-- The handle after `_db_readidx` has read the record `r` at `o`. -/
def DB.loaded (db : DB) (o : Nat) (r : IdxRec) : DB :=
  { db with
    idxoff := o, ptrval := r.ptr, idxlen := r.text.length, idxbuf := r.key,
    datoff := r.datoff, datlen := r.datlen, idxpos := o + (ptrSz + idxlenSz) + r.text.length }

/-- The error of `_db_readidx` on a key with a separator in it. -/
def sepErr : Err := .dump "_db_readidx: too many separators"

/-! ## Searching a chain -/

/-- Records `view o`, met in the order `os`, linked by their pointers from the
value `p` on. -/
def Linked (view : Nat → IdxRec) : Nat → List Nat → Prop
  | p, [] => p = 0
  | p, o :: os => p = o ∧ o ≠ 0 ∧ Linked view (view o).ptr os

/-- How the walk of `_db_find_and_lock` along a chain ends: at the record it
looks for, with the cell that points there; at the end; or at a record whose
key has a separator in it. -/
inductive Search where
  | hit (cell off : Nat)
  | miss
  | stray
deriving DecidableEq, Repr

def search (view : Nat → IdxRec) (key : Bytes) : Nat → List Nat → Search
  | _, [] => .miss
  | c, o :: os =>
    if sep ∈ (view o).key then .stray
    else if (view o).key = key then .hit c o
    else search view key o os

/-- The walk of `_db_findfree` along the free list. -/
def searchFree (view : Nat → IdxRec) (keylen datlen : Nat) : Nat → List Nat → Option (Nat × Nat)
  | _, [] => none
  | c, o :: os =>
    if (view o).key.length = keylen ∧ (view o).datlen = datlen then some (c, o)
    else searchFree view keylen datlen o os

section Search
variable {view : Nat → IdxRec} {key : Bytes} {c o : Nat} {os : List Nat}

theorem search_hit {c' : Nat} (h : search view key c os = .hit c' o) :
    (view o).key = key ∧ sep ∉ key ∧ ∃ pre post, os = pre ++ o :: post ∧ c' = lastCell c pre := by
  fun_induction search view key c os with
  | case1 | case2 => cases h
  | case3 c y ys hsep hkey =>
    cases h
    exact ⟨hkey, hkey ▸ hsep, [], ys, rfl, rfl⟩
  | case4 c y ys _ _ ih =>
    obtain ⟨h1, h2, pre, post, rfl, h3⟩ := ih h
    exact ⟨h1, h2, y :: pre, post, rfl, h3⟩

theorem search_miss (h : search view key c os = .miss) : ∀ o ∈ os, (view o).key ≠ key := by
  fun_induction search view key c os with
  | case1 => nofun
  | case2 | case3 => cases h
  | case4 c y ys _ hkey ih => exact forall_mem_cons.mpr ⟨hkey, ih h⟩

theorem search_stray (h : search view key c os = .stray) : ∃ o ∈ os, sep ∈ (view o).key := by
  fun_induction search view key c os with
  | case1 | case3 => cases h
  | case2 c y ys hsep => exact ⟨y, mem_cons_self, hsep⟩
  | case4 c y ys _ _ ih =>
    obtain ⟨o, ho, hs⟩ := ih h
    exact ⟨o, mem_cons_of_mem _ ho, hs⟩

theorem search_congr {view' : Nat → IdxRec} (h : ∀ o ∈ os, view' o = view o) :
    search view' key c os = search view key c os := by
  induction os generalizing c with
  | nil => rfl
  | cons o os ih => rw [search, search, h o mem_cons_self, ih (forall_mem_cons.mp h).2]

theorem searchFree_some {c' kl dl : Nat} (h : searchFree view kl dl c os = some (c', o)) :
    (view o).key.length = kl ∧ (view o).datlen = dl ∧ ∃ pre post, os = pre ++ o :: post ∧ c' = lastCell c pre := by
  fun_induction searchFree view kl dl c os with
  | case1 => cases h
  | case2 c y ys hfit =>
    cases h
    exact ⟨hfit.1, hfit.2, [], ys, rfl, rfl⟩
  | case3 c y ys _ ih =>
    obtain ⟨h1, h2, pre, post, rfl, h3⟩ := ih h
    exact ⟨h1, h2, y :: pre, post, rfl, h3⟩

end Search

/-! ## The lock table -/

theorem Disk.mem_addLock {l l' : Lock} (h : l' ∈ (d.addLock l).locks) : l' = l ∨ l' ∈ d.locks :=
  (mem_cons.mp h).imp_right mem_of_mem_filter

theorem Disk.mem_dropLock {l l' : Lock} (h : l' ∈ (d.dropLock l).locks) : l' ∈ d.locks := mem_of_mem_filter h

@[simp] theorem Disk.setFile_locks (d : Disk) (f : File) (b : Bytes) : (d.setFile f b).locks = d.locks := by
  cases f <;> rfl

variable {pid start len v o off c : Nat} {f : File} {db : DB}

section Rules

variable {𝓡 : Rules Disk Γ} {lay : Γ → Layout} {α : Type} {γ : Γ} {F : Err → Disk × Γ → Prop}
  {Q : DB → Disk × Γ → Prop} {view : Nat → IdxRec} {w0 : Disk × Γ} {r : IdxRec} {b x : Bytes}

/-! ## Locks -/

section Locks
variable {Q : Unit → Disk × Γ → Prop} {l : Lock}

/-- Taking or giving back this lock is nobody's business: it may always be done,
and neither the others nor the process itself rely on it. -/
structure Harmless (𝓡 : Rules Disk Γ) (l : Lock) : Prop where
  wait : ∀ {d γ}, 𝓡.inv d γ → 𝓡.wait ∨ d.grants l = true
  add : ∀ {d γ}, 𝓡.inv d γ → d.grants l = true →
    𝓡.inv (d.addLock l) γ ∧ 𝓡.guar (d, γ) (d.addLock l, γ) ∧ 𝓡.rely (d, γ) (d.addLock l, γ)
  drop : ∀ {d γ}, 𝓡.inv d γ → 𝓡.inv (d.dropLock l) γ ∧ 𝓡.guar (d, γ) (d.dropLock l, γ) ∧ 𝓡.rely (d, γ) (d.dropLock l, γ)

theorem Harmless.safe_lock (H : Harmless 𝓡 l) (h : 𝓡.Later (d, γ) fun d' γ' => Q () (d', γ')) :
    Safe 𝓡 Q F (.await (fun d => d.grants l) fun d => d.addLock l) (d, γ) := by
  refine fun d' γ' hr hi => ⟨H.wait hi, fun hg => ?_⟩
  obtain ⟨h1, h2, h3⟩ := H.add hi hg
  exact ⟨γ', h1, h2, h _ γ' (𝓡.rely_trans hr h3) h1⟩

theorem Harmless.safe_unlock (H : Harmless 𝓡 ⟨pid, f, .wr, start, len⟩)
    (h : 𝓡.Later (d, γ) fun d' γ' => Q () (d', γ')) :
    Safe 𝓡 Q F (unLock pid f start len) (d, γ) := by
  refine safe_update fun d' γ' hr hi => ?_
  obtain ⟨h1, h2, h3⟩ := H.drop hi
  exact ⟨γ', h1, h2, h _ γ' (𝓡.rely_trans hr h3) h1⟩

end Locks

/-! ## Reading -/

section
variable (V : Views 𝓡 lay)
include V

theorem safe_dbReadptr {Q : DB × Int → Disk × Γ → Prop}
    (h : 𝓡.Later (d, γ) fun d' γ' => ∃ v : Nat,
      (lay γ').ptrAt c = some v ∧ Q ({ db with idxpos := c + ptrSz }, (v : Int)) (d', γ')) :
    Safe 𝓡 Q F (dbReadptr db (c : Int)) (d, γ) := by
  refine safe_bind.mpr (safe_look V.guar_refl fun d' γ' hr hi => ?_)
  obtain ⟨v, hv, hQ⟩ := h d' γ' hr hi
  have hwf := V.wf hi
  have hc : ¬ (c : Int) < 0 := by omega
  simp only [file, if_neg hc, V.idx hi, Int.toNat_natCast, hwf.read_ptr hv,
    length_field (hwf.ptrAt_le hv), ne_eq, not_true_eq_false, if_false, atol_padLeft_dec]
  exact hQ

/-- `_db_readidx` where a record starts, be it the offset asked for or the file
position. -/
theorem safe_dbReadidx_pos {offset : Int}
    (hpos : (if offset = 0 then db.idxpos else offset) = o) {Q : DB × Int → Disk × Γ → Prop}
    (h : 𝓡.Later (d, γ) fun d' γ' => ∃ r, (lay γ').recAt o = some r ∧ (sep ∈ r.key → F sepErr (d', γ')) ∧
      (sep ∉ r.key → Q (db.loaded o r, (r.ptr : Int)) (d', γ'))) :
    Safe 𝓡 Q F (dbReadidx db offset) (d, γ) := by
  have hneg : ¬ (o : Int) < 0 := by omega
  unfold dbReadidx
  simp only [hpos]
  refine safe_bind.mpr (safe_look V.guar_refl fun d' γ' hr hi => ?_)
  obtain ⟨r, hrec, hF, hQ⟩ := h d' γ' hr hi
  have hwf := V.wf hi
  have hok := hwf.recAt_ok hrec
  have hfield := length_field hok.ptr_le
  have hdrop : r.front.drop ptrSz = padLeft idxlenSz (dec r.text.length) := drop_left' hfield
  have hlen : sizeT (r.text.length : Int) = r.text.length := sizeT_natCast (Nat.lt_of_le_of_lt hok.len_max (by decide))
  simp only [if_neg hneg, V.idx hi, Int.toNat_natCast, hwf.read_front hrec, hdrop,
    atol_padLeft_dec, hlen, hwf.read_text hrec, length_front hok, ne_eq,
    not_true_eq_false, if_false, parseIdx_encode hok]
  by_cases hsep : sep ∈ r.key
  · rw [if_pos hsep]
    exact hF hsep
  · rw [if_neg hsep]
    exact hQ hsep

/-- `_db_readidx` at the end of the index file. -/
theorem safe_dbReadidx_end (hpos : db.idxpos = o) {Q : DB × Int → Disk × Γ → Prop}
    (h : 𝓡.Later (d, γ) fun d' γ' => (lay γ').idxEnd = o ∧ Q ({ db with idxoff := o, idxpos := o }, -1) (d', γ')) :
    Safe 𝓡 Q F (dbReadidx db 0) (d, γ) := by
  have hneg : ¬ (o : Int) < 0 := by omega
  unfold dbReadidx
  simp only [if_true, hpos]
  refine safe_bind.mpr (safe_look V.guar_refl fun d' γ' hr hi => ?_)
  obtain ⟨hend, hQ⟩ := h d' γ' hr hi
  have hnil : pread (lay γ').idx o (ptrSz + idxlenSz) = [] := by
    rw [pread, drop_eq_nil_of_le (by rw [(V.wf hi).length_idx, hend]), take_nil]
  have hlen : 0 ≠ ptrSz + idxlenSz := by decide
  simp only [if_neg hneg, V.idx hi, Int.toNat_natCast, hnil, length_nil, if_pos hlen, and_self, if_true]
  exact hQ

/-- A datum of `len` bytes, newline included, lies at `off`. -/
def HasDatum (dat : Bytes) (off len : Nat) (x : Bytes) : Prop :=
  (0 : UInt8) ∉ x ∧ x.length + 1 = len ∧ pread dat off len = x ++ [newline]

theorem safe_dbReaddat (hoff : db.datoff = off) {Q : DB × Bytes → Disk × Γ → Prop}
    (h : 𝓡.Later (d, γ) fun d' γ' => ∃ x,
      HasDatum (lay γ').dat off db.datlen x ∧ Q ({ db with datbuf := x }, x) (d', γ')) :
    Safe 𝓡 Q F (dbReaddat db) (d, γ) := by
  refine safe_bind.mpr (safe_look V.guar_refl fun d' γ' hr hi => ?_)
  obtain ⟨x, ⟨hnul, hlen, hread⟩, hQ⟩ := h d' γ' hr hi
  have hneg : ¬ db.datoff < 0 := by omega
  have hnat : db.datoff.toNat = off := by omega
  simp only [file, if_neg hneg, V.dat hi, hnat, hread]
  simp only [length_append, length_singleton, hlen, ne_eq, not_true_eq_false, if_false,
    getLast?_concat, dropLast_concat, cstr_eq_self hnul]
  exact hQ

end

/-! ## Writing -/

theorem safe_lseekWrite_at {Q : Option Int → Disk × Γ → Prop}
    (h : 𝓡.Later (d, γ) fun d' γ' => 𝓡.Puts (d', γ') (d'.setFile f (pwrite (d'.file f) off b)) (Q (some (off : Int)))) :
    Safe 𝓡 Q F (lseekWrite f (off : Int) .seekSet b) (d, γ) := by
  have hneg : ¬ (off : Int) < 0 := by omega
  refine safe_update fun d' γ' hr hi => ?_
  simp only [seekPos, hneg, if_false, Int.toNat_natCast]
  exact h d' γ' hr hi

theorem safe_lseekWrite_end {Q : Option Int → Disk × Γ → Prop}
    (h : 𝓡.Later (d, γ) fun d' γ' => 𝓡.Puts (d', γ') (d'.setFile f (pwrite (d'.file f) (d'.file f).length b))
      (Q (some ((d'.file f).length : Int)))) :
    Safe 𝓡 Q F (lseekWrite f 0 .seekEnd b) (d, γ) := by
  refine safe_update fun d' γ' hr hi => ?_
  have hneg : ¬ ((d'.file f).length : Int) < 0 := by omega
  simp only [seekPos, Int.add_zero, if_neg hneg, Int.toNat_natCast]
  exact h d' γ' hr hi

theorem ptr_fits (h : v ≤ ptrMax) : ¬ ((v : Int) < 0 ∨ (ptrMax : Int) < v) := by omega

/-- `_db_writeptr` of a pointer that fits its field. -/
theorem safe_dbWriteptr (V : Views 𝓡 lay) (hv : v ≤ ptrMax)
    (h : 𝓡.Later (d, γ) fun d' γ' => (∃ v0, (lay γ').ptrAt c = some v0) ∧ 𝓡.Puts (d', γ') { d' with idx := ((lay γ').setPtr c v).idx } (Q { db with idxpos := c + ptrSz })) :
    Safe 𝓡 Q F (dbWriteptr db (c : Int) (v : Int)) (d, γ) := by
  unfold dbWriteptr
  rw [if_neg (ptr_fits hv), decInt_natCast]
  refine safe_bind.mpr (safe_lseekWrite_at fun d' γ' hr hi => ?_)
  obtain ⟨⟨v0, hv0⟩, γ'', hi', hg, hQ⟩ := h d' γ' hr hi
  simp only [file, setFile, V.idx hi, (V.wf hi).write_ptr hv0 hv]
  exact ⟨γ'', hi', hg, hQ⟩

/-- `_db_writeptr` of a pointer that does not fit: `err_quit`. -/
theorem safe_dbWriteptr_big {c : Int} (hv : ptrMax < v) (h : F (.quit "_db_writeptr: invalid ptr: %d" v) (d, γ)) :
    Safe 𝓡 Q F (dbWriteptr db c (v : Int)) (d, γ) := by
  have hrange : (v : Int) < 0 ∨ (ptrMax : Int) < v := .inr (by exact_mod_cast hv)
  unfold dbWriteptr
  rw [if_pos hrange]
  exact h

/-- The handle after `_db_writeidx` of the record `r` at `o`. -/
def DB.wroteIdx (db : DB) (o : Nat) (r : IdxRec) : DB :=
  { db with
    ptrval := r.ptr, idxbuf := r.text, idxoff := o,
    idxpos := o + (ptrSz + idxlenSz) + r.text.length }

section Writeidx

theorem IdxRec.Ok.not_badLen (hok : r.Ok) : ¬ BadLen r.text := by
  have hmin := hok.len_min
  have hmax := hok.len_max
  omega

variable (hoff : db.datoff = r.datoff) (hlen : db.datlen = r.datlen)
include hoff hlen

theorem idxText_eq : idxText r.key db.datoff db.datlen = r.text := by
  rw [hoff, hlen]
  rfl

theorem safe_dbWriteidx_at (V : Views 𝓡 lay) (hok : r.Ok)
    (h : 𝓡.Later (d, γ) fun d' γ' => (∃ r0, (lay γ').recAt o = some r0 ∧ recSize r = recSize r0) ∧
      𝓡.Puts (d', γ') { d' with idx := ((lay γ').setRec o r).idx } (Q (db.wroteIdx o r))) :
    Safe 𝓡 Q F (dbWriteidx pid db r.key (o : Int) .seekSet (r.ptr : Int)) (d, γ) := by
  unfold dbWriteidx
  rw [if_neg (ptr_fits hok.ptr_le)]
  simp only [idxText_eq hoff hlen, if_neg hok.not_badLen, decInt_natCast, reduceCtorEq, if_false]
  refine safe_bind.mpr (safe_bind.mpr (safe_lseekWrite_at fun d' γ' hr hi => ?_))
  obtain ⟨⟨r0, hrec, hs⟩, γ'', hi', hg, hQ⟩ := h d' γ' hr hi
  have hwrite := (V.wf hi).write_rec hrec hs
  rw [encode, front] at hwrite
  simp only [file, setFile, V.idx hi, hwrite]
  exact ⟨γ'', hi', hg, hQ⟩

/-- `_db_writeidx` refuses a record that is too short or too long. -/
theorem safe_dbWriteidx_len {off : Int} {whence : Whence} (hptr : r.ptr ≤ ptrMax) (hbad : BadLen r.text)
    (h : F (.dump "_db_writeidx: invalid length") (d, γ)) :
    Safe 𝓡 Q F (dbWriteidx pid db r.key off whence (r.ptr : Int)) (d, γ) := by
  unfold dbWriteidx
  rw [if_neg (ptr_fits hptr)]
  simp only [idxText_eq hoff hlen, if_pos hbad]
  exact h

/-- `_db_writeidx` at the end of the file. -/
theorem safe_dbWriteidx_end (V : Views 𝓡 lay) (H : Harmless 𝓡 ⟨pid, .idx, .wr, recOff, 0⟩)
    (hok : r.Ok) (h : 𝓡.Later (d, γ) fun d' γ' => 𝓡.Puts (d', γ') { d' with idx := ((lay γ').addRec r).idx } fun w =>
      𝓡.Later w fun d3 γ3 => Q (db.wroteIdx (lay γ').idxEnd r) (d3, γ3)) :
    Safe 𝓡 Q F (dbWriteidx pid db r.key 0 .seekEnd (r.ptr : Int)) (d, γ) := by
  unfold dbWriteidx
  rw [if_neg (ptr_fits hok.ptr_le)]
  simp only [idxText_eq hoff hlen, if_neg hok.not_badLen, decInt_natCast, if_true]
  refine safe_bind.mpr (H.safe_lock fun d1 γ1 hr1 _ => ?_)
  refine safe_bind.mpr (safe_lseekWrite_end fun d2 γ2 hr2 hi2 => ?_)
  obtain ⟨γ'', hi', hg, hQ⟩ := h d2 γ2 (𝓡.rely_trans hr1 hr2) hi2
  have hwrite := (V.wf hi2).append_rec r
  rw [encode, front] at hwrite
  simp only [file, setFile, V.idx hi2, (V.wf hi2).length_idx, hwrite]
  refine ⟨γ'', hi', hg, safe_bind.mpr (H.safe_unlock fun d3 γ3 hr3 hi3 => ?_)⟩
  exact hQ d3 γ3 hr3 hi3

end Writeidx

/-- `_db_writedat` over an existing datum. -/
theorem safe_dbWritedat_at (V : Views 𝓡 lay)
    (h : 𝓡.Later (d, γ) fun d' γ' => 𝓡.Puts (d', γ') { d' with dat := pwrite (lay γ').dat off (x ++ [newline]) }
      (Q { db with datoff := off, datlen := x.length + 1 })) :
    Safe 𝓡 Q F (dbWritedat pid db x (off : Int) .seekSet) (d, γ) := by
  unfold dbWritedat
  simp only [reduceCtorEq, if_false]
  refine safe_bind.mpr (safe_bind.mpr (safe_lseekWrite_at fun d' γ' hr hi => ?_))
  obtain ⟨γ'', hi', hg, hQ⟩ := h d' γ' hr hi
  simp only [file, setFile, V.dat hi]
  exact ⟨γ'', hi', hg, hQ⟩

/-- `_db_writedat` at the end of the file. -/
theorem safe_dbWritedat_end (V : Views 𝓡 lay) (H : Harmless 𝓡 ⟨pid, .dat, .wr, 0, 0⟩)
    (h : 𝓡.Later (d, γ) fun d' γ' => 𝓡.Puts (d', γ') { d' with dat := (lay γ').dat ++ (x ++ [newline]) } fun w =>
      𝓡.Later w fun d3 γ3 => Q { db with datoff := (lay γ').dat.length, datlen := x.length + 1 } (d3, γ3)) :
    Safe 𝓡 Q F (dbWritedat pid db x 0 .seekEnd) (d, γ) := by
  unfold dbWritedat
  simp only [if_true]
  refine safe_bind.mpr (H.safe_lock fun d1 γ1 hr1 _ => ?_)
  refine safe_bind.mpr (safe_lseekWrite_end fun d2 γ2 hr2 hi2 => ?_)
  obtain ⟨γ'', hi', hg, hQ⟩ := h d2 γ2 (𝓡.rely_trans hr1 hr2) hi2
  simp only [file, setFile, V.dat hi2, pwrite_end]
  refine ⟨γ'', hi', hg, safe_bind.mpr (H.safe_unlock fun d3 γ3 hr3 hi3 => ?_)⟩
  exact hQ d3 γ3 hr3 hi3

/-! ## The search loops -/

theorem safe_findLoop (V : Views 𝓡 lay) {key : Bytes} {Q : DB × Int → Disk × Γ → Prop} :
    ∀ {os : List Nat} {fuel p c : Nat} {db : DB} {d : Disk} {γ : Γ},
    os.length < fuel → Linked view p os → db.ptroff = (c : Int) →
    𝓡.rely w0 (d, γ) → 𝓡.inv d γ →
    (𝓡.Later w0 fun _ γ' => ∀ o ∈ os, (lay γ').recAt o = some (view o)) →
    (search view key c os = .stray → 𝓡.Later w0 fun d' γ' => F sepErr (d', γ')) →
    (∀ c' o, search view key c os = .hit c' o → ∀ db' : DB, db'.chainoff = db.chainoff →
      𝓡.Later w0 fun d' γ' => Q ({ db'.loaded o (view o) with ptroff := c' }, (o : Int)) (d', γ')) →
    (search view key c os = .miss → ∀ db' : DB, db'.chainoff = db.chainoff →
      𝓡.Later w0 fun d' γ' => Q (db', 0) (d', γ')) →
    Safe 𝓡 Q F (findLoop fuel db key (p : Int)) (d, γ)
  | _, 0, _, _, _, _, _, hfuel => absurd hfuel (Nat.not_lt_zero _)
  | [], fuel + 1, p, c, db, d, γ, _ => fun hlink _ hw hi _ _ _ hmiss => by
    have hp : p = 0 := hlink
    subst hp
    exact hmiss rfl db rfl d γ hw hi
  | o :: os, fuel + 1, p, c, db, d, γ, hfuel => fun hlink hc hw hi hrecs hstray hhit hmiss => by
    obtain ⟨rfl, hne, hlink'⟩ := hlink
    have hp : ¬ (p : Int) = 0 := by omega
    rw [findLoop, if_neg hp]
    refine safe_bind.mpr (safe_dbReadidx_pos V (if_neg hp) fun d' γ' hr' hi' => ?_)
    have hw' := 𝓡.rely_trans hw hr'
    refine ⟨view p, hrecs d' γ' hw' hi' p (by simp), fun hsep => ?_, fun hsep => ?_⟩
    · exact hstray (if_pos hsep) d' γ' hw' hi'
    · by_cases hkey : (view p).key = key
      · have := hhit c p ((if_neg hsep).trans (if_pos hkey)) db rfl d' γ' hw' hi'
        simp only [DB.loaded, hkey, if_true] at this ⊢
        rw [hc]
        exact this
      have hmiss' : (db.loaded p (view p)).idxbuf ≠ key := hkey
      have hskip : search view key c (p :: os) = search view key p os := (if_neg hsep).trans (if_neg hkey)
      simp only [if_neg hmiss']
      rw [hskip] at hstray hmiss
      exact safe_findLoop V (by simpa using hfuel) hlink' rfl hw' hi'
        (fun d'' γ'' h1 h2 x hx => hrecs d'' γ'' h1 h2 x (by simp [hx])) hstray
        (fun c' o hs => hhit c' o (hskip.trans hs))
        hmiss

/-- The free list holds no separators: its keys are blank. -/
theorem safe_freeLoop (V : Views 𝓡 lay) {keylen datlen : Nat} {Q : DB × Int × Int → Disk × Γ → Prop} :
    ∀ {os : List Nat} {fuel p c : Nat} {db : DB} {d : Disk} {γ : Γ},
    os.length < fuel → Linked view p os →
    𝓡.rely w0 (d, γ) → 𝓡.inv d γ →
    (𝓡.Later w0 fun _ γ' => ∀ o ∈ os, (lay γ').recAt o = some (view o)) →
    (∀ o ∈ os, sep ∉ (view o).key) →
    (∀ c' o, searchFree view keylen datlen c os = some (c', o) → ∀ db' : DB,
      db'.chainoff = db.chainoff → 𝓡.Later w0 fun d' γ' => Q (db'.loaded o (view o), (o : Int), (c' : Int)) (d', γ')) →
    (searchFree view keylen datlen c os = none → ∀ (db' : DB) cell, db'.chainoff = db.chainoff →
      𝓡.Later w0 fun d' γ' => Q (db', 0, cell) (d', γ')) →
    Safe 𝓡 Q F (freeLoop fuel db keylen datlen (c : Int) (p : Int)) (d, γ)
  | _, 0, _, _, _, _, _, hfuel => absurd hfuel (Nat.not_lt_zero _)
  | [], fuel + 1, p, c, db, d, γ, _ => fun hlink hw hi _ _ _ hnone => by
    have hp : p = 0 := hlink
    subst hp
    exact hnone rfl db c rfl d γ hw hi
  | o :: os, fuel + 1, p, c, db, d, γ, hfuel => fun hlink hw hi hrecs hsep hsome hnone => by
    obtain ⟨rfl, hne, hlink'⟩ := hlink
    have hp : ¬ (p : Int) = 0 := by omega
    rw [freeLoop, if_neg hp]
    refine safe_bind.mpr (safe_dbReadidx_pos V (if_neg hp) fun d' γ' hr' hi' => ?_)
    have hw' := 𝓡.rely_trans hw hr'
    refine ⟨view p, hrecs d' γ' hw' hi' p (by simp), fun h => absurd h (hsep p (by simp)), fun _ => ?_⟩
    by_cases hfit : (view p).key.length = keylen ∧ (view p).datlen = datlen
    · have := hsome c p (if_pos hfit) db rfl d' γ' hw' hi'
      simp only [DB.loaded, hfit, and_self, if_true] at this ⊢
      exact this
    have hmiss : ¬ ((db.loaded p (view p)).idxbuf.length = keylen ∧ (db.loaded p (view p)).datlen = datlen) := hfit
    have hskip : searchFree view keylen datlen c (p :: os) = searchFree view keylen datlen p os := if_neg hfit
    simp only [if_neg hmiss]
    rw [hskip] at hnone
    exact safe_freeLoop V (by simpa using hfuel) hlink' hw' hi'
      (fun d'' γ'' h1 h2 x hx => hrecs d'' γ'' h1 h2 x (by simp [hx]))
      (fun x hx => hsep x (by simp [hx]))
      (fun c' o hs => hsome c' o (hskip.trans hs))
      hnone

end Rules
end GokuStudio.Apue.Db

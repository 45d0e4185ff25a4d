import GokuStudio.Apue.Db.Code

/-!
# What the two files look like

`Layout` is the index file as its fields — the table of pointers and the index
records in file order — and the data file as bytes; `Layout.idx` writes the
index file out. Pointer cells are named by their offset, whether they stand in
the table or at the front of a record (`ptrAt`), which is how the code names
them too.

The theorems of §3 are the small axioms the rest of the development uses: what
the bytes at a field's offset are, and that writing a field's bytes is the
field update on the layout. Nothing after this module looks at index bytes.
-/

namespace GokuStudio.Apue.Db

open Lib List

/-! ## §1 Records and layouts -/

/-- An index record. -/
structure IdxRec where
  ptr : Nat
  key : Bytes
  datoff : Nat
  datlen : Nat
deriving DecidableEq, Repr

variable {p o v v0 n q : Nat} {r r' : IdxRec} {k x y : Bytes}

namespace IdxRec

def text (r : IdxRec) : Bytes := idxText r.key r.datoff r.datlen

/-- The fields in front of the text. -/
def front (r : IdxRec) : Bytes := padLeft ptrSz (dec r.ptr) ++ padLeft idxlenSz (dec r.text.length)

def encode (r : IdxRec) : Bytes := r.front ++ r.text

/-- A record `_db_writeidx` would write without complaint. -/
structure Ok (r : IdxRec) : Prop where
  ptr_le : r.ptr ≤ ptrMax
  nul : (0 : UInt8) ∉ r.key
  len_min : idxlenMin ≤ r.text.length
  len_max : r.text.length ≤ idxlenMax
  dat_pos : 0 < r.datlen
  dat_max : r.datlen ≤ datlenMax

theorem length_field (h : p ≤ ptrMax) : (padLeft ptrSz (dec p)).length = ptrSz :=
  length_padLeft (length_dec_le (by decide) (Nat.lt_of_le_of_lt h (by decide)))

theorem length_text (r : IdxRec) : r.text.length = r.key.length + (dec r.datoff).length + (dec r.datlen).length + 3 := by
  simp only [text, idxText, decInt_natCast, length_append, length_cons, length_nil]
  omega

theorem text_setPtr (r : IdxRec) (p : Nat) : { r with ptr := p }.text = r.text := rfl

/-- A new pointer and a new key of the same length: what `_db_writeidx` does to
a record that is deleted or reused. -/
def rekey (r : IdxRec) (p : Nat) (k : Bytes) : IdxRec := { r with ptr := p, key := k }

theorem length_text_rekey (hk : k.length = r.key.length) : (r.rekey p k).text.length = r.text.length := by
  rw [length_text, length_text]
  simp [rekey, hk]

variable (h : r.Ok)
include h

theorem length_front : r.front.length = ptrSz + idxlenSz := by
  have hlen : (dec r.text.length).length ≤ idxlenSz := length_dec_le (by decide) (Nat.lt_of_le_of_lt h.len_max (by decide))
  rw [front, length_append, length_field h.ptr_le, length_padLeft hlen]

/-- The two reads of a record that stands behind `a`. -/
theorem Ok.read_front {a b c : Bytes} (hb : b = a ++ (r.encode ++ c)) :
    pread b a.length (ptrSz + idxlenSz) = r.front := by
  rw [hb, encode, append_assoc, ← length_front h]
  exact pread_mid a r.front (r.text ++ c)

theorem Ok.read_text {a b c : Bytes} (hb : b = a ++ (r.encode ++ c)) :
    pread b (a.length + (ptrSz + idxlenSz)) r.text.length = r.text := by
  have := pread_mid (a ++ r.front) r.text c
  rwa [length_append, length_front h, append_assoc, ← append_assoc r.front, ← encode, ← hb] at this

theorem length_encode : r.encode.length = ptrSz + idxlenSz + r.text.length := by
  rw [encode, length_append, length_front h]

theorem Ok.setPtr (hp : p ≤ ptrMax) : ({ r with ptr := p } : IdxRec).Ok :=
  ⟨hp, h.nul, h.len_min, h.len_max, h.dat_pos, h.dat_max⟩

theorem Ok.rekey (hp : p ≤ ptrMax)
    (hk : k.length = r.key.length) (hnul : NoNul k) : (r.rekey p k).Ok := by
  refine ⟨hp, hnul, ?_, ?_, h.dat_pos, h.dat_max⟩
  · rw [length_text_rekey hk]; exact h.len_min
  · rw [length_text_rekey hk]; exact h.len_max

theorem length_encode_rekey (hp : p ≤ ptrMax) (hk : k.length = r.key.length) (hnul : NoNul k) :
    (r.rekey p k).encode.length = r.encode.length := by
  rw [length_encode (h.rekey hp hk hnul), length_encode h, length_text_rekey hk]

end IdxRec

def recSize (r : IdxRec) : Nat := r.encode.length

theorem recSize_pos (r : IdxRec) : 0 < recSize r := by
  rw [recSize, IdxRec.encode, length_append, IdxRec.length_text]
  omega

structure Layout where
  table : List Nat
  recs : List IdxRec
  dat : Bytes
deriving DecidableEq, Repr

variable {L : Layout}

namespace Layout

def front (L : Layout) : Bytes := L.table.flatMap (fun p => padLeft ptrSz (dec p)) ++ [newline]

section
variable (L : Layout)

/-- The bytes of the index file. -/
def idx : Bytes := L.front ++ L.recs.flatMap IdxRec.encode

def recAt (o : Nat) : Option IdxRec := tileAt recSize recOff L.recs o

/-- The end of the index file: where the next record would go. -/
def idxEnd : Nat := recOff + tilesLen recSize L.recs

/-- The pointer cell at an offset of the index file. -/
def ptrAt (c : Nat) : Option Nat :=
  if c < recOff then
    if c % ptrSz = 0 then L.table[c / ptrSz]? else none
  else (L.recAt c).map IdxRec.ptr

def setRec (o : Nat) (r : IdxRec) : Layout :=
  { L with recs := tileSet recSize recOff L.recs o r }

def setPtr (c v : Nat) : Layout :=
  if c < recOff then { L with table := L.table.set (c / ptrSz) v }
  else
    match L.recAt c with
    | some r => L.setRec c { r with ptr := v }
    | none => L

def addRec (r : IdxRec) : Layout := { L with recs := L.recs ++ [r] }
def setDat (b : Bytes) : Layout := { L with dat := b }

/-- The index file is one the code wrote. -/
structure Wf : Prop where
  table_len : L.table.length = nhashDef + 1
  table_le : ∀ p ∈ L.table, p ≤ ptrMax
  rec_ok : ∀ r ∈ L.recs, r.Ok

/-! ## §2 Looking up after an update -/

/-- The sizes of the records, in file order: what no operation changes. -/
def sizes : List Nat := L.recs.map recSize

end

section
variable (h : L.recAt o = some r)
include h

theorem recAt_mem : r ∈ L.recs := by
  obtain ⟨pre, post, hrecs, -⟩ := tileAt_split h
  simp [hrecs]

theorem recAt_ge : recOff ≤ o := (tileAt_bounds h).1

theorem recAt_ne_zero : o ≠ 0 := by
  have := recAt_ge h
  have : 0 < recOff := by decide
  omega

theorem Wf.recAt_ok (hL : L.Wf) : r.Ok := hL.rec_ok r (recAt_mem h)

theorem ptrAt_of_recAt : L.ptrAt o = some r.ptr := by
  have hge := recAt_ge h
  rw [ptrAt, if_neg (by omega), h]
  rfl

theorem setPtr_of_recAt : L.setPtr o v = L.setRec o { r with ptr := v } := by
  have hge := recAt_ge h
  rw [setPtr, if_neg (by omega), h]

theorem recSize_setPtr (hL : L.Wf) (hv : v ≤ ptrMax) : recSize { r with ptr := v } = recSize r := by
  have hok := hL.recAt_ok h
  rw [recSize, recSize, IdxRec.length_encode (hok.setPtr hv), IdxRec.length_encode hok]
  rfl

variable (hs : recSize r' = recSize r)
include hs

theorem recAt_setRec (o' : Nat) : (L.setRec o r').recAt o' = if o' = o then some r' else L.recAt o' :=
  tileAt_tileSet hs o' h

theorem ptrAt_setRec (c : Nat) : (L.setRec o r').ptrAt c = if c = o then some r'.ptr else L.ptrAt c := by
  have hge := recAt_ge h
  by_cases hc : c < recOff
  · have hne : c ≠ o := by omega
    simp only [ptrAt, if_pos hc, if_neg hne, setRec]
  · simp only [ptrAt, if_neg hc, recAt_setRec h hs]
    by_cases hco : c = o <;> simp [hco]

theorem sizes_setRec : (L.setRec o r').sizes = L.sizes := by
  obtain ⟨pre, post, hrecs, -, hset⟩ := tileAt_split h
  rw [sizes, sizes, setRec, hset, hrecs]
  simp [hs]

end

theorem recAt_of_ptrAt (hge : recOff ≤ o) (h : L.ptrAt o = some v) : ∃ r, L.recAt o = some r ∧ r.ptr = v := by
  rw [ptrAt, if_neg (by omega)] at h
  exact Option.map_eq_some_iff.mp h

variable {c : Nat}

theorem table_of_ptrAt (hc : c < recOff) (h : L.ptrAt c = some v) : c % ptrSz = 0 ∧ L.table[c / ptrSz]? = some v := by
  rw [ptrAt, if_pos hc] at h
  split at h
  case isTrue hm => exact ⟨hm, h⟩
  case isFalse => simp at h

theorem Wf.ptrAt_le (hL : L.Wf) (h : L.ptrAt c = some v) : v ≤ ptrMax := by
  by_cases hc : c < recOff
  · exact hL.table_le v (mem_of_getElem? (table_of_ptrAt hc h).2)
  · obtain ⟨r, hr, rfl⟩ := recAt_of_ptrAt (by omega) h
    exact (hL.recAt_ok hr).ptr_le

@[simp] theorem setPtr_dat (L : Layout) (c v : Nat) : (L.setPtr c v).dat = L.dat := by
  unfold setPtr
  split
  · rfl
  · split <;> rfl

@[simp] theorem setRec_dat (L : Layout) (o : Nat) (r : IdxRec) : (L.setRec o r).dat = L.dat := rfl
@[simp] theorem addRec_dat (L : Layout) (r : IdxRec) : (L.addRec r).dat = L.dat := rfl
@[simp] theorem setDat_dat (L : Layout) (b : Bytes) : (L.setDat b).dat = b := rfl
@[simp] theorem recAt_setDat (L : Layout) (b : Bytes) (o : Nat) : (L.setDat b).recAt o = L.recAt o := rfl
@[simp] theorem idxEnd_setDat (L : Layout) (b : Bytes) : (L.setDat b).idxEnd = L.idxEnd := rfl

theorem recAt_idxEnd (L : Layout) : L.recAt L.idxEnd = none := tileAt_end_none recSize_pos L.recs recOff _ le_rfl

theorem recAt_addRec (L : Layout) (r : IdxRec) (o : Nat) :
    (L.addRec r).recAt o = if o = L.idxEnd then some r else L.recAt o :=
  tileAt_append_singleton recSize_pos r L.recs recOff o

theorem ptrAt_addRec (L : Layout) (r : IdxRec) (c : Nat) :
    (L.addRec r).ptrAt c = if c = L.idxEnd then some r.ptr else L.ptrAt c := by
  have hend : recOff ≤ L.idxEnd := Nat.le_add_right _ _
  by_cases hc : c < recOff
  · have hne : c ≠ L.idxEnd := by omega
    simp only [ptrAt, if_pos hc, if_neg hne, addRec]
  · simp only [ptrAt, if_neg hc, recAt_addRec]
    by_cases hce : c = L.idxEnd <;> simp [hce]

theorem Wf.setRec (hL : L.Wf) (h : L.recAt o = some r) (hok : r'.Ok) : (L.setRec o r').Wf := by
  refine ⟨hL.table_len, hL.table_le, fun x hx => ?_⟩
  obtain ⟨pre, post, hsplit, -, hset⟩ := tileAt_split h
  have hrecs : (L.setRec o r').recs = pre ++ r' :: post := hset r'
  rw [hrecs, mem_append, mem_cons] at hx
  rcases hx with hx | rfl | hx
  · exact hL.rec_ok x (by rw [hsplit]; simp [hx])
  · exact hok
  · exact hL.rec_ok x (by rw [hsplit]; simp [hx])

theorem Wf.addRec (hL : L.Wf) (hok : r.Ok) : (L.addRec r).Wf := by
  refine ⟨hL.table_len, hL.table_le, fun x hx => ?_⟩
  rcases mem_append.mp hx with hx | hx
  · exact hL.rec_ok x hx
  · rw [mem_singleton.mp hx]
    exact hok

theorem Wf.setDat (hL : L.Wf) (b : Bytes) : (L.setDat b).Wf := ⟨hL.table_len, hL.table_le, hL.rec_ok⟩
@[simp] theorem sizes_setDat (L : Layout) (b : Bytes) : (L.setDat b).sizes = L.sizes := rfl

theorem sizes_addRec (L : Layout) (r : IdxRec) : (L.addRec r).sizes = L.sizes ++ [recSize r] := by
  simp [sizes, addRec]

section
variable (hL : L.Wf) (h : L.ptrAt c = some v0) (hv : v ≤ ptrMax)
include hL h hv

theorem recAt_setPtr (o : Nat) : (L.setPtr c v).recAt o =
      if o = c then (L.recAt o).map (fun r => { r with ptr := v }) else L.recAt o := by
  by_cases hc : c < recOff
  · have hnone : o = c → L.recAt o = none := by
      rintro rfl
      by_contra hne
      obtain ⟨r, hr⟩ := Option.ne_none_iff_exists'.mp hne
      exact absurd (recAt_ge hr) (by omega)
    rw [setPtr, if_pos hc]
    change L.recAt o = _
    by_cases hoc : o = c
    · rw [if_pos hoc, hnone hoc]
      rfl
    · rw [if_neg hoc]
  · obtain ⟨r, hr, -⟩ := recAt_of_ptrAt (by omega) h
    rw [setPtr_of_recAt hr, recAt_setRec hr (recSize_setPtr hr hL hv)]
    by_cases hoc : o = c
    · subst hoc
      rw [if_pos rfl, if_pos rfl, hr]
      rfl
    · rw [if_neg hoc, if_neg hoc]

theorem ptrAt_setPtr (c' : Nat) : (L.setPtr c v).ptrAt c' = if c' = c then some v else L.ptrAt c' := by
  by_cases hc : c < recOff
  · obtain ⟨hmod, hget⟩ := table_of_ptrAt hc h
    have hlt := (List.getElem?_eq_some_iff.mp hget).1
    rw [setPtr, if_pos hc]
    by_cases hc' : c' < recOff
    · by_cases hm' : c' % ptrSz = 0
      · simp only [ptrAt, if_pos hc', if_pos hm', getElem?_set]
        have hiff : c / ptrSz = c' / ptrSz ↔ c' = c := by
          constructor
          · intro he
            rw [← Nat.div_add_mod c' ptrSz, ← Nat.div_add_mod c ptrSz, hm', hmod, he]
          · rintro rfl
            rfl
        by_cases he : c' = c
        · simp [he, hlt]
        · rw [if_neg (fun h => he (hiff.mp h)), if_neg he]
      · have hne : c' ≠ c := by
          rintro rfl
          exact hm' hmod
        simp only [ptrAt, if_pos hc', if_neg hm', if_neg hne]
    · have hne : c' ≠ c := by omega
      rw [if_neg hne]
      simp only [ptrAt, if_neg hc']
      rfl
  · obtain ⟨r, hr, -⟩ := recAt_of_ptrAt (by omega) h
    rw [setPtr_of_recAt hr, ptrAt_setRec hr (recSize_setPtr hr hL hv)]

theorem Wf.setPtr : (L.setPtr c v).Wf := by
  by_cases hc : c < recOff
  · rw [Layout.setPtr, if_pos hc]
    refine ⟨by rw [length_set]; exact hL.table_len, fun p hp => ?_, hL.rec_ok⟩
    rcases mem_or_eq_of_mem_set hp with hp | rfl
    · exact hL.table_le p hp
    · exact hv
  · obtain ⟨r, hr, -⟩ := recAt_of_ptrAt (by omega) h
    rw [setPtr_of_recAt hr]
    exact hL.setRec hr ((hL.recAt_ok hr).setPtr hv)

theorem sizes_setPtr : (L.setPtr c v).sizes = L.sizes := by
  by_cases hc : c < recOff
  · rw [setPtr, if_pos hc]
    rfl
  obtain ⟨r, hr, -⟩ := recAt_of_ptrAt (by omega) h
  rw [setPtr_of_recAt hr]
  exact sizes_setRec hr (recSize_setPtr hr hL hv)

end

theorem idxEnd_eq (L : Layout) : L.idxEnd = recOff + L.sizes.sum := rfl

/-! ## §3 Fields as bytes -/

theorem length_flatMap_field : ∀ {ps : List Nat}, (∀ p ∈ ps, p ≤ ptrMax) →
    (ps.flatMap fun p => padLeft ptrSz (dec p)).length = ptrSz * ps.length
  | [], _ => rfl
  | p :: ps, h => by
    rw [flatMap_cons, length_append, IdxRec.length_field (h p (by simp)),
      length_flatMap_field fun q hq => h q (by simp [hq]), length_cons, Nat.mul_succ,
      Nat.add_comm]

theorem Wf.length_front (hL : L.Wf) : L.front.length = recOff := by
  rw [front, length_append, length_flatMap_field hL.table_le, hL.table_len]
  rfl

theorem Wf.length_idx (hL : L.Wf) : L.idx.length = L.idxEnd := by
  rw [idx, length_append, hL.length_front, length_flatMap_enc]
  rfl

/-- A cell of the table, as a place in the list. -/
theorem table_split (hc : c < recOff) (h : L.ptrAt c = some v) :
    ∃ pre post, L.table = pre ++ v :: post ∧ c = ptrSz * pre.length ∧
      ∀ v', L.table.set (c / ptrSz) v' = pre ++ v' :: post := by
  obtain ⟨hm, h⟩ := table_of_ptrAt hc h
  obtain ⟨hlt, hget⟩ := List.getElem?_eq_some_iff.mp h
  have hlen : (L.table.take (c / ptrSz)).length = c / ptrSz := by
    rw [length_take]
    omega
  refine ⟨L.table.take (c / ptrSz), L.table.drop (c / ptrSz + 1), ?_, ?_, fun v' => ?_⟩
  · rw [← hget]
    simp
  · rw [hlen]
    have := Nat.div_add_mod c ptrSz
    omega
  · rw [set_eq_take_append_cons_drop, if_pos hlt]

variable (hL : L.Wf)
include hL

/-- The bytes of a record, in place. -/
theorem Wf.rec_split (h : L.recAt o = some r) :
    ∃ pre post : Bytes, L.idx = pre ++ (r.encode ++ post) ∧ pre.length = o ∧
      ∀ r', (L.setRec o r').idx = pre ++ (r'.encode ++ post) := by
  have h' : tileAt (fun r => (IdxRec.encode r).length) L.front.length L.recs o = some r := by
    rw [hL.length_front]
    exact h
  obtain ⟨pre, post, hidx, hlen, hset⟩ := flatMap_split_at h'
  refine ⟨pre, post, hidx, hlen, fun r' => ?_⟩
  have := hset r'
  rw [hL.length_front] at this
  exact this

section
variable (h : L.ptrAt c = some v)
include h

/-- The bytes of a pointer cell, in place. -/
theorem Wf.ptr_split : ∃ pre post : Bytes, L.idx = pre ++ (padLeft ptrSz (dec v) ++ post) ∧ pre.length = c ∧
      ∀ v', v' ≤ ptrMax → (L.setPtr c v').idx = pre ++ (padLeft ptrSz (dec v') ++ post) := by
  by_cases hc : c < recOff
  · obtain ⟨pre, post, htab, hpos, hset⟩ := table_split hc h
    refine ⟨pre.flatMap fun p => padLeft ptrSz (dec p),
      post.flatMap (fun p => padLeft ptrSz (dec p)) ++ ([newline] ++ L.recs.flatMap IdxRec.encode),
      ?_, ?_, fun v' _ => ?_⟩
    · rw [idx, front, htab]
      simp
    · rw [length_flatMap_field fun p hp => hL.table_le p (by rw [htab]; simp [hp]), hpos]
    · rw [Layout.setPtr, if_pos hc, idx, front, hset v']
      simp
  · obtain ⟨r, hr, rfl⟩ := recAt_of_ptrAt (by omega) h
    obtain ⟨pre, post, hidx, hlen, hset⟩ := hL.rec_split hr
    refine ⟨pre, padLeft idxlenSz (dec r.text.length) ++ (r.text ++ post), ?_, hlen, fun v' _ => ?_⟩
    · rw [hidx, IdxRec.encode, IdxRec.front]
      simp
    · rw [setPtr_of_recAt hr, hset, IdxRec.encode, IdxRec.front]
      simp [IdxRec.text_setPtr]

theorem Wf.read_ptr : pread L.idx c ptrSz = padLeft ptrSz (dec v) := by
  obtain ⟨pre, post, hidx, rfl, -⟩ := hL.ptr_split h
  have := pread_mid pre (padLeft ptrSz (dec v)) post
  rwa [IdxRec.length_field (hL.ptrAt_le h), ← hidx] at this

theorem Wf.write_ptr {v' : Nat} (hv' : v' ≤ ptrMax) :
    pwrite L.idx c (padLeft ptrSz (dec v')) = (L.setPtr c v').idx := by
  obtain ⟨pre, post, hidx, rfl, hset⟩ := hL.ptr_split h
  rw [hidx, hset v' hv', pwrite_mid]
  rw [IdxRec.length_field hv', IdxRec.length_field (hL.ptrAt_le h)]

end

section
variable (h : L.recAt o = some r)
include h

theorem Wf.read_front : pread L.idx o (ptrSz + idxlenSz) = r.front := by
  obtain ⟨pre, post, hidx, rfl, -⟩ := hL.rec_split h
  exact (hL.recAt_ok h).read_front hidx

theorem Wf.read_text : pread L.idx (o + (ptrSz + idxlenSz)) r.text.length = r.text := by
  obtain ⟨pre, post, hidx, rfl, -⟩ := hL.rec_split h
  exact (hL.recAt_ok h).read_text hidx

theorem Wf.write_rec (hs : recSize r' = recSize r) : pwrite L.idx o r'.encode = (L.setRec o r').idx := by
  obtain ⟨pre, post, hidx, rfl, hset⟩ := hL.rec_split h
  rw [hidx, hset r', pwrite_mid hs]

end

theorem Wf.append_rec (r : IdxRec) : pwrite L.idx L.idxEnd r.encode = (L.addRec r).idx := by
  rw [← hL.length_idx, pwrite_end]
  simp [idx, front, Layout.addRec]

end Layout

/-! ## §4 Reading a record back -/

theorem sizeT_natCast (h : n < 2 ^ 64) : sizeT (n : Int) = n := by
  rw [sizeT, Int.emod_eq_of_lt (by omega) (by exact_mod_cast h)]
  rfl

theorem strchr_append {c : UInt8} {a : Bytes} (b : Bytes) (h : c ∉ a) : strchr (a ++ c :: b) c = some (a, b) := by
  have hall : ∀ x ∈ a, decide (x ≠ c) = true := by
    intro x hx
    simp only [decide_eq_true_eq]
    rintro rfl
    exact h hx
  have hdrop : (a ++ c :: b).dropWhile (fun x => decide (x ≠ c)) = c :: b := by
    rw [dropWhile_append_of_pos hall]
    simp
  have htake : (a ++ c :: b).takeWhile (fun x => decide (x ≠ c)) = a := by
    rw [takeWhile_append_of_pos hall]
    simp
  rw [strchr, hdrop, htake]

theorem sep_notMem_dec (n : Nat) : sep ∉ dec n := notMem_dec (by decide)
theorem nul_notMem_dec (n : Nat) : (0 : UInt8) ∉ dec n := notMem_dec (by decide)

theorem cstr_eq_self {b : Bytes} (h : NoNul b) : cstr b = b := by
  refine takeWhile_eq_self_iff.mpr fun x hx => ?_
  simp only [ne_eq, decide_eq_true_eq]
  rintro rfl
  exact h hx

namespace IdxRec

theorem text_eq (r : IdxRec) : r.text = (r.key ++ sep :: (dec r.datoff ++ sep :: dec r.datlen)) ++ [newline] := by
  simp [text, idxText, decInt_natCast]

theorem getLast_text (r : IdxRec) : r.text.getLast? = some newline := by
  rw [text_eq, getLast?_concat]

theorem cstr_dropLast_text (h : r.Ok) :
    cstr r.text.dropLast = r.key ++ sep :: (dec r.datoff ++ sep :: dec r.datlen) := by
  rw [text_eq, dropLast_concat]
  refine cstr_eq_self ?_
  have hsep : (0 : UInt8) ≠ sep := by decide
  simp [NoNul, h.nul, nul_notMem_dec, hsep]

theorem Ok.drop_front (h : r.Ok) : r.front.drop ptrSz = padLeft idxlenSz (dec r.text.length) :=
  drop_left' (length_field h.ptr_le)

theorem Ok.sizeT_len (h : r.Ok) : sizeT (r.text.length : Int) = r.text.length :=
  sizeT_natCast (Nat.lt_of_le_of_lt h.len_max (by decide))

/-- The number of separators decides: a key without one reads back, a key with
one is taken for a broken record. -/
theorem parseIdx_encode (h : r.Ok) : parseIdx r.front r.text =
      if sep ∈ r.key then .error "_db_readidx: too many separators"
      else .ok ⟨r.ptr, r.text.length, r.key, r.datoff, r.datlen⟩ := by
  have htake : r.front.take ptrSz = padLeft ptrSz (dec r.ptr) := take_left' (length_field h.ptr_le)
  have hdat : sizeT (r.datlen : Int) = r.datlen := sizeT_natCast (Nat.lt_of_le_of_lt h.dat_max (by decide))
  have hbounds : ¬ BadLen r.text := by
    have := h.len_min
    have := h.len_max
    omega
  have hdbounds : ¬ (r.datlen = 0 ∨ datlenMax < r.datlen) := by
    have := h.dat_pos
    have := h.dat_max
    omega
  have hnn : ¬ (r.datoff : Int) < 0 := by omega
  simp only [parseIdx, htake, h.drop_front, atol_padLeft_dec, h.sizeT_len, if_neg hbounds, ne_eq,
    not_true_eq_false, if_false, getLast_text, cstr_dropLast_text h]
  by_cases hkey : sep ∈ r.key
  · rw [if_pos hkey]
    obtain ⟨k1, k2, hk, hk1⟩ := eq_append_cons_of_mem hkey
    rw [hk, append_assoc, cons_append, strchr_append _ hk1]
    by_cases hk2 : sep ∈ k2
    · obtain ⟨k3, k4, rfl, hk3⟩ := eq_append_cons_of_mem hk2
      simp [strchr_append _ hk3]
    · simp [strchr_append _ hk2]
  · rw [if_neg hkey]
    simp [strchr_append _ hkey, strchr_append _ (sep_notMem_dec r.datoff), sep_notMem_dec, atol_dec, hdat, hnn, hdbounds]

end IdxRec

/-! ## §5 One layout for a file -/

theorem field_inj {w : Nat} (h : padLeft w (dec p) = padLeft w (dec q)) : p = q := by
  have := congrArg atol h
  rw [atol_padLeft_dec, atol_padLeft_dec] at this
  exact Int.ofNat.inj this

theorem field_append_inj (hp : p ≤ ptrMax) (hq : q ≤ ptrMax)
    (h : padLeft ptrSz (dec p) ++ x = padLeft ptrSz (dec q) ++ y) : p = q ∧ x = y := by
  obtain ⟨hf, hr⟩ := append_inj h (by rw [IdxRec.length_field hp, IdxRec.length_field hq])
  exact ⟨field_inj hf, hr⟩

/-- The text of a record tells its key, even one with separators in it: the
numbers stand behind the last two. -/
theorem idxText_inj {k' : Bytes} {o' n' : Nat} (h : idxText k o n = idxText k' o' n') : k = k' ∧ o = o' ∧ n = n' := by
  have hnl : ∀ m, sep ∉ dec m ++ [newline] := fun m hm => by
    rcases mem_append.mp hm with hm | hm
    · exact sep_notMem_dec m hm
    · exact absurd (mem_singleton.mp hm) (by decide)
  have hassoc : ∀ (k : Bytes) (o n : Nat), idxText k o n =
      (k ++ sep :: dec o) ++ sep :: (dec n ++ [newline]) := fun k o n => by
    simp [idxText, decInt_natCast]
  rw [hassoc, hassoc] at h
  obtain ⟨hko, hn⟩ := append_cons_inj_of_notMem_right (hnl n) (hnl n') h
  obtain ⟨hk, ho⟩ := append_cons_inj_of_notMem_right (sep_notMem_dec o) (sep_notMem_dec o') hko
  have hdec : ∀ {a b : Nat}, dec a = dec b → a = b := fun {a b} h => by
    rw [← digitsVal_dec a, h, digitsVal_dec]
  exact ⟨hk, hdec ho, hdec (append_cancel_right hn)⟩

theorem IdxRec.encode_append_inj (hr : r.Ok) (hr' : r'.Ok)
    (h : r.encode ++ x = r'.encode ++ y) : r = r' ∧ x = y := by
  rw [encode, encode, append_assoc, append_assoc] at h
  obtain ⟨hfront, hrest⟩ := append_inj h (by rw [length_front hr, length_front hr'])
  obtain ⟨hptr, hlen⟩ := field_append_inj hr.ptr_le hr'.ptr_le hfront
  obtain ⟨htext, hxy⟩ := append_inj hrest (field_inj hlen)
  obtain ⟨hk, ho, hn⟩ := idxText_inj htext
  cases r
  cases r'
  simp only at hptr hk ho hn
  exact ⟨by rw [hptr, hk, ho, hn], hxy⟩

/-- The bytes of an index file can be read in one way only. -/
theorem Layout.Wf.idx_inj {L' : Layout} (hL : L.Wf) (hL' : L'.Wf) (h : L.idx = L'.idx) :
    L.table = L'.table ∧ L.recs = L'.recs := by
  obtain ⟨hfront, hrecs⟩ := append_inj h (by rw [hL.length_front, hL'.length_front])
  constructor
  · refine flatMap_inj field_append_inj (fun {p} _ => ?_) hL.table_le hL'.table_le (append_cancel_right hfront)
    have := length_dec_pos p
    simp only [padLeft, length_append]
    omega
  · exact flatMap_inj IdxRec.encode_append_inj (fun _ => recSize_pos _) hL.rec_ok hL'.rec_ok hrecs

/-! ## §6 One record written and read back -/

theorem notMem_of_strchr {s a b : Bytes} {c : UInt8} (h : strchr s c = some (a, b)) : c ∉ a := by
  rw [strchr] at h
  split at h
  · simp at h
  · obtain ⟨rfl, -⟩ := Prod.mk.inj (Option.some.inj h)
    exact fun hc => by simpa using mem_takeWhile_imp hc

/-- What the reader accepts. -/
theorem parseIdx_ok {front body : Bytes} {f : IdxFields} (h : parseIdx front body = .ok f) :
    sep ∉ f.key ∧ 0 ≤ f.datoff ∧ 0 < f.datlen ∧ f.datlen ≤ datlenMax := by
  simp only [parseIdx] at h
  repeat' split at h
  all_goals first | contradiction | skip
  rename_i hkey _ _ _ _ _ hoff hlen
  obtain rfl := Except.ok.inj h
  rw [not_or, Nat.not_lt] at hlen
  exact ⟨notMem_of_strchr hkey, Int.not_lt.mp hoff, Nat.pos_of_ne_zero hlen.1, hlen.2⟩

variable {pid : Nat} {db db' : DB} {d d' : Disk} {key : Bytes} {offset ptrval : Int} {whence : Whence}

/-- A write without a complaint puts the record where it says. -/
theorem written_of_dbWriteidx (h : run (dbWriteidx pid db key offset whence ptrval) d = (.ok db', d')) :
    0 ≤ ptrval ∧ ptrval ≤ ptrMax ∧ ¬ BadLen (idxText key db.datoff db.datlen) ∧ ∃ o : Nat, db'.idxoff = o ∧
      d'.idx = pwrite d.idx o (padLeft ptrSz (decInt ptrval) ++
        (padLeft idxlenSz (dec (idxText key db.datoff db.datlen).length) ++ idxText key db.datoff db.datlen)) := by
  unfold dbWriteidx at h
  by_cases hp : ptrval < 0 ∨ (ptrMax : Int) < ptrval
  · simp [if_pos hp] at h
  by_cases hl : BadLen (idxText key db.datoff db.datlen)
  · simp [if_neg hp, if_pos hl] at h
  simp only [if_neg hp, if_neg hl] at h
  refine ⟨by omega, by omega, hl, (seekPos d .idx offset whence).toNat, ?_⟩
  cases whence with
  | seekSet =>
    by_cases hpos : seekPos d .idx offset .seekSet < 0
    · simp [run_bind, lseekWrite, Prog.update, run, hpos] at h
    simp [run_bind, lseekWrite, Prog.update, run, hpos] at h
    obtain ⟨rfl, rfl⟩ := h
    exact ⟨(Int.toNat_of_nonneg (Int.not_lt.mp hpos)).symm, rfl⟩
  | seekEnd =>
    have hseek : ∀ l, seekPos (d.addLock l) .idx offset .seekEnd = seekPos d .idx offset .seekEnd := fun _ => rfl
    by_cases hg : d.grants ⟨pid, .idx, .wr, recOff, 0⟩ = true
    · by_cases hpos : seekPos d .idx offset .seekEnd < 0
      · simp [run_bind, lseekWrite, writewLock, Prog.update, Prog.await, run, hseek, hg, hpos] at h
      simp [run_bind, lseekWrite, writewLock, unLock, Prog.update, Prog.await, run, hseek, hg, hpos] at h
      obtain ⟨rfl, rfl⟩ := h
      exact ⟨(Int.toNat_of_nonneg (Int.not_lt.mp hpos)).symm, rfl⟩
    · simp [writewLock, Prog.await, run, hg] at h

/-- `_db_readidx` at `off` finds the key, the place and length of the data and the chain pointer. The offset 0
means the current position, which then has to be there. -/
def ReadsBack (d : Disk) (off : Int) (key : Bytes) (datoff : Int) (datlen : Nat) (ptrval : Int) : Prop :=
  ∀ db : DB, (off = 0 → db.idxpos = 0) → ∃ db', run (dbReadidx db off) d = (.ok (db', ptrval), d) ∧
    db'.idxbuf = key ∧ db'.datoff = datoff ∧ db'.datlen = datlen ∧ db'.ptrval = ptrval

theorem accepted_of_dbReadidx (h : run (dbReadidx db offset) d = (.ok (db', ptrval), d')) (hp : 0 ≤ ptrval) :
    sep ∉ db'.idxbuf ∧ 0 ≤ db'.datoff ∧ 0 < db'.datlen ∧ db'.datlen ≤ datlenMax := by
  simp only [dbReadidx] at h
  generalize (if offset = 0 then db.idxpos else offset) = pos at h
  simp only [lseekReadRec, Prog.look, run_bind, run, if_true] at h
  split at h
  · simp at h
  split at h
  · split at h
    · -- the end of the file: the result is -1
      have hret := (Prod.mk.inj (Result.ok.inj (Prod.mk.inj h).1)).2
      omega
    · simp at h
  · split at h
    · simp at h
    rename_i hparse
    obtain ⟨rfl, -⟩ := Prod.mk.inj (Result.ok.inj (Prod.mk.inj h).1)
    exact parseIdx_ok hparse

theorem IdxRec.Ok.readsBack {a c : Bytes} (h : r.Ok) (hsep : sep ∉ r.key) (hidx : d.idx = a ++ (r.encode ++ c)) :
    ReadsBack d a.length r.key r.datoff r.datlen r.ptr := by
  intro db hdb
  have hpos : (if (a.length : Int) = 0 then db.idxpos else (a.length : Int)) = a.length := by
    split
    · rename_i h0
      rw [hdb h0, h0]
    · rfl
  have hneg : ¬ (a.length : Int) < 0 := by omega
  simp only [dbReadidx, hpos, lseekReadRec, Prog.look, run_bind, run, if_true, if_neg hneg, Int.toNat_natCast,
    h.read_front hidx, h.drop_front, atol_padLeft_dec, h.sizeT_len, h.read_text hidx, length_front h, ne_eq, not_true_eq_false,
    if_false, parseIdx_encode h, if_neg hsep]
  exact ⟨_, rfl, rfl, rfl, rfl, rfl⟩

/-- **Index records.** A record that `_db_writeidx` has written reads back exactly if its key has no separator in
it and the data's place and length are ones the reader accepts. -/
theorem readidx_writeidx_iff (hkey : NoNul key) (h : run (dbWriteidx pid db key offset whence ptrval) d = (.ok db', d')) :
    ReadsBack d' db'.idxoff key db.datoff db.datlen ptrval ↔
      sep ∉ key ∧ 0 ≤ db.datoff ∧ 0 < db.datlen ∧ db.datlen ≤ datlenMax := by
  obtain ⟨hp, hpmax, hlen, o, ho, hidx⟩ := written_of_dbWriteidx h
  constructor
  · intro hback
    obtain ⟨db2, hrun, rfl, hoff, hlen, -⟩ := hback { db with idxpos := 0 } fun _ => rfl
    rw [← hoff, ← hlen]
    exact accepted_of_dbReadidx hrun hp
  · rintro ⟨hsep, hoff, hpos, hmax⟩
    obtain ⟨p, rfl⟩ := Int.eq_ofNat_of_zero_le hp
    obtain ⟨n, hn⟩ := Int.eq_ofNat_of_zero_le hoff
    rw [hn] at hidx hlen
    rw [decInt_natCast, ← append_assoc] at hidx
    obtain ⟨a, c, hsplit, rfl⟩ := pwrite_split d.idx o (IdxRec.encode ⟨p, key, n, db.datlen⟩)
    have hok : IdxRec.Ok ⟨p, key, n, db.datlen⟩ := ⟨Int.ofNat_le.mp hpmax, hkey,
      Nat.not_lt.mp fun hlt => hlen (.inl hlt), Nat.not_lt.mp fun hlt => hlen (.inr hlt), hpos, hmax⟩
    rw [ho, hn]
    exact hok.readsBack hsep (hidx.trans hsplit)

/-- A handle after two bytes of data were written, and an index file with one byte in it. -/
def twoBytes : DB := { dbAlloc with datlen := 2 }

theorem readidx_writeidx_iff_blank : ∃ db' d', run (dbWriteidx 0 twoBytes [space] 0 .seekEnd 0) ⟨[newline], [], []⟩ =
    (.ok db', d') ∧ ReadsBack d' db'.idxoff [space] 0 2 0 :=
  ⟨_, _, rfl, (@readidx_writeidx_iff 0 twoBytes _ ⟨[newline], [], []⟩ _ [space] 0 0 .seekEnd (by decide) rfl).mpr
    (by decide)⟩

theorem separator_not_read_back : ∃ db' d', run (dbWriteidx 0 twoBytes [sep] 0 .seekEnd 0) ⟨[newline], [], []⟩ =
    (.ok db', d') ∧ NoNul [sep] ∧ ¬ ReadsBack d' db'.idxoff [sep] 0 2 0 := by
  refine ⟨_, _, rfl, by decide, fun hback => ?_⟩
  obtain ⟨db', hrun, hkey, -⟩ := hback dbAlloc fun _ => rfl
  exact (accepted_of_dbReadidx hrun le_rfl).1 (by rw [hkey]; exact mem_singleton_self _)

end GokuStudio.Apue.Db

import GokuStudio.Apue.Db.History

/-!
# The sequential scan

`db_rewind` and then `db_nextrec` until it returns nothing: the records in file
order. Deleted records are told from the others by their blank keys alone, and
`_db_readidx` takes no key with a separator in it, so what the scan returns is
what `db_fetch` finds exactly when every key in the database has a byte that is
not blank and no separator (`scan_complete_iff`). `db_store` accepts the other
keys all the same.
-/

namespace GokuStudio.Apue.Db

open Lib List Layout Option IdxRec

/-! ## §1 Scanning and looking -/

/-- `db_nextrec` again and again: the pairs returned, and whether the end of
the file was reached. `fuel` bounds both loops. -/
def scanLoop (pid fuel : Nat) : Nat → DB → Disk → List (Bytes × Bytes) × Bool
  | 0, _, _ => ([], false)
  | n + 1, db, d =>
    match run (dbNextrec pid fuel db) d with
    | (.ok (db', some kx), d') => (kx :: (scanLoop pid fuel n db' d').1, (scanLoop pid fuel n db' d').2)
    | (.ok (_, none), _) => ([], true)
    | _ => ([], false)

/-- A process that comes later finds the files and no locks. -/
def Disk.unlocked (d : Disk) : Disk := { d with locks := [] }

/-- A later scan. -/
def Disk.scan (d : Disk) (fuel : Nat) : List (Bytes × Bytes) × Bool := scanLoop 0 fuel fuel (dbRewind dbAlloc) d.unlocked

/-- A later `db_fetch`. -/
def Disk.fetch (d : Disk) (key : Bytes) : Result Err (Option Bytes) :=
  (run (dbFetch 0 (dbRewind dbAlloc) key) d.unlocked).1.map Prod.snd

def Disk.fetches (d : Disk) (key x : Bytes) : Prop := d.fetch key = .ok (some x)
def isBlank (key : Bytes) : Bool := key.all (· == space)
def IdxRec.blank (r : IdxRec) : Bool := isBlank r.key

/-- The scan on records: from the front, over blank keys, up to a separator. -/
def Layout.scanRecs (L : Layout) : List IdxRec → List (Bytes × Bytes) × Bool
  | [] => ([], true)
  | r :: rs =>
    if sep ∈ r.key then ([], false)
    else if r.blank then L.scanRecs rs
    else ((r.key, L.datum r) :: (L.scanRecs rs).1, (L.scanRecs rs).2)

/-! ## §2 The code of the scan -/

/-- The records `rs` follow at the offset `o`. -/
def Layout.RestAt (L : Layout) (o : Nat) (rs : List IdxRec) : Prop :=
  ∃ pre, L.recs = pre ++ rs ∧ o = recOff + tilesLen recSize pre

namespace Layout
variable {L : Layout} {o : Nat} {r : IdxRec} {rs : List IdxRec}

theorem RestAt.head (h : L.RestAt o (r :: rs)) : L.recAt o = some r := by
  obtain ⟨pre, hrecs, rfl⟩ := h
  rw [recAt, hrecs]
  exact tileAt_of_split recSize_pos pre r rs recOff

theorem RestAt.tail (h : L.RestAt o (r :: rs)) : L.RestAt (o + recSize r) rs := by
  obtain ⟨pre, hrecs, rfl⟩ := h
  refine ⟨pre ++ [r], by rw [hrecs, append_assoc]; rfl, ?_⟩
  rw [tilesLen_append, tilesLen_cons, tilesLen_nil]
  omega

theorem RestAt.end_eq (h : L.RestAt o []) : L.idxEnd = o := by
  obtain ⟨pre, hrecs, rfl⟩ := h
  rw [idxEnd, hrecs, append_nil]

theorem Wf.loaded_idxpos (hwf : L.Wf) (hrec : L.recAt o = some r) (db : DB) :
    (db.loaded o r).idxpos = (o + recSize r : Nat) := by
  change ((o : Int) + ((ptrSz : Int) + idxlenSz) + r.text.length) = _
  rw [recSize, length_encode (hwf.recAt_ok hrec)]
  push_cast
  omega

theorem restAt_start (L : Layout) : L.RestAt recOff L.recs := ⟨[], rfl, by simp⟩

end Layout

section Solo
variable {pid fuel : Nat} {d : Disk} {L : Layout} {F : Err → Disk × Layout → Prop} {pend : Nat → Option (Nat × Nat)}

theorem isBlank_sep {key : Bytes} (h : isBlank key = true) : sep ∉ key := by
  intro hs
  have := all_eq_true.mp h sep hs
  exact absurd this (by decide)

/-- The loop of `db_nextrec`, by induction on the records still to come. -/
theorem solo_nextLoop {Q : DB × Option Bytes → Disk × Layout → Prop} :
    ∀ {rs : List IdxRec} {fuel o : Nat} {db : DB} {d : Disk}, rs.length < fuel → L.Wf →
    L.RestAt o rs → db.idxpos = o →
    (rs.dropWhile blank = [] → ∀ db' d', Q (db', none) (d', L)) →
    (∀ r rs', rs.dropWhile blank = r :: rs' → sep ∈ r.key → ∀ d', F sepErr (d', L)) →
    (∀ r rs' o', rs.dropWhile blank = r :: rs' → sep ∉ r.key →
      L.RestAt o' (r :: rs') → ∀ (db' : DB) d', Q (db'.loaded o' r, some r.key) (d', L)) →
    Safe (solo pid) Q F (nextLoop fuel db) (d, L)
  | _, 0, _, _, _, hfuel => absurd hfuel (Nat.not_lt_zero _)
  | [], fuel + 1, o, db, d, _ => fun hwf hat hpos hend _ _ => by
    refine safe_bind.mpr (safe_dbReadidx_end (solo_views pid) hpos fun d' L' hr _ => ?_)
    obtain rfl : L = L' := hr.symm
    have hneg : (-1 : Int) < 0 := by decide
    simp only [if_pos hneg]
    exact ⟨hat.end_eq, hend rfl _ d'⟩
  | r :: rs, fuel + 1, o, db, d, hfuel => fun hwf hat hpos hend hstop hnext => by
    refine safe_bind.mpr (safe_dbReadidx_pos (solo_views pid) (o := o) (by simp [hpos]) fun d' L' hr _ => ⟨r, ?_⟩)
    obtain rfl : L = L' := hr.symm
    have hrec := hat.head
    have hpos' : ¬ (r.ptr : Int) < 0 := by omega
    refine ⟨hrec, fun hs => ?_, fun hs => ?_⟩
    · have hnb : ¬ r.blank = true := fun hb => isBlank_sep hb hs
      exact hstop r rs (dropWhile_cons_of_neg hnb) hs d'
    · simp only [if_neg hpos']
      by_cases hb : r.blank = true
      · have hb' : ((db.loaded o r).idxbuf.all fun x => x == space) = true := hb
        have hdrop := dropWhile_cons_of_pos (l := rs) hb
        simp only [if_pos hb']
        rw [hdrop] at hend hstop hnext
        exact solo_nextLoop (by simpa using hfuel) hwf hat.tail (hwf.loaded_idxpos hrec db) hend hstop hnext
      · have hb' : ¬ ((db.loaded o r).idxbuf.all fun x => x == space) = true := hb
        simp only [if_neg hb']
        exact hnext r rs o (dropWhile_cons_of_neg hb) hs hat db d'

/-- What one `db_nextrec` does at the records `rs`. -/
def NextOk (L : Layout) (rs : List IdxRec) (a : DB × Option (Bytes × Bytes)) : Prop :=
  match rs.dropWhile blank with
  | [] => a.2 = none
  | r :: rs' => sep ∉ r.key ∧ a.2 = some (r.key, L.datum r) ∧ ∃ o : Nat, a.1.idxpos = o ∧ L.RestAt o rs'

def NextStops (rs : List IdxRec) : Prop := ∃ r rs', rs.dropWhile blank = r :: rs' ∧ sep ∈ r.key

theorem solo_dbNextrec (hwf : L.Wf) (hdat : DatOk L pend)
    {rs : List IdxRec} {o : Nat} {db : DB} (hfuel : rs.length < fuel) (hat : L.RestAt o rs)
    (hpos : db.idxpos = o) :
    Safe (solo pid) (fun a w => w.2 = L ∧ NextOk L rs a) (fun _ _ => NextStops rs)
      (dbNextrec pid fuel db) (d, L) := by
  unfold dbNextrec
  refine safe_bind.mpr (solo_lock .rd fun d1 => ?_)
  refine safe_bind.mpr (solo_nextLoop hfuel hwf hat hpos (fun hnil db' d' => ?_)
    (fun r rs' hdrop hs d' => ⟨r, rs', hdrop, hs⟩) fun r rs' o' hdrop hs hat' db' d' => ?_)
  · refine safe_bind.mpr (solo_unLock fun d2 => safe_ret.mpr ⟨rfl, ?_⟩)
    rw [NextOk, hnil]
  · have hrec := hat'.head
    have hoff : (db'.loaded o' r).datoff = (r.datoff : Nat) := rfl
    refine safe_bind.mpr (safe_dbReaddat (solo_views pid) hoff fun d2 L' hr _ => ?_)
    obtain rfl : L = L' := hr.symm
    refine ⟨L.datum r, hdat.has hrec, safe_bind.mpr (solo_unLock fun d3 => safe_ret.mpr ⟨rfl, ?_⟩)⟩
    rw [NextOk, hdrop]
    exact ⟨hs, rfl, o' + recSize r, hwf.loaded_idxpos hrec db', hat'.tail⟩

theorem Layout.scanRecs_dropWhile (L : Layout) : ∀ rs : List IdxRec, L.scanRecs rs = L.scanRecs (rs.dropWhile blank)
  | [] => rfl
  | r :: rs => by
    by_cases hb : r.blank = true
    · have hs := isBlank_sep hb
      rw [dropWhile_cons_of_pos hb, ← scanRecs_dropWhile L rs, scanRecs, if_neg hs, if_pos hb]
    · rw [dropWhile_cons_of_neg hb]

/-- The loop of calls, by induction on the calls left. -/
theorem scanLoop_eq (hdat : DatOk L pend) :
    ∀ {n : Nat} {rs : List IdxRec} {o : Nat} {db : DB} {d : Disk}, rs.length < n →
    rs.length < fuel → L.RestAt o rs → db.idxpos = o → Shows pid d L →
    scanLoop pid fuel n db d = L.scanRecs rs
  | 0, _, _, _, _, hn, _, _, _, _ => absurd hn (Nat.not_lt_zero _)
  | n + 1, rs, o, db, d, hn, hfuel, hat, hpos, hS => by
    rw [scanRecs_dropWhile, scanLoop]
    have hlen := (dropWhile_suffix (l := rs) blank).length_le
    rcases (solo_dbNextrec hS.wf hdat hfuel hat hpos).run_alone id hS with
      ⟨⟨db', x⟩, d', L', hrun, hS', hL, hok⟩ | ⟨e, d', L', hrun, -, r, rs', hdrop, hs⟩
    · obtain rfl : L = L' := hL.symm
      rw [hrun]
      unfold NextOk at hok
      cases hdrop : rs.dropWhile blank with rw [hdrop] at hok
      | nil =>
        obtain rfl : x = none := hok
        rfl
      | cons r rs' =>
        rw [hdrop, length_cons] at hlen
        obtain ⟨hs, rfl, o', hpos', hat'⟩ : sep ∉ r.key ∧ x = some (r.key, L.datum r) ∧ _ := hok
        have hnb : ¬ r.blank = true := by
          have := head?_dropWhile_not blank rs
          rw [hdrop] at this
          simpa using this
        have ih : scanLoop pid fuel n db' d' = L.scanRecs rs' := scanLoop_eq hdat (by omega) (by omega) hat' hpos' hS'
        simp only [scanRecs, if_neg hs, if_neg hnb, ih]
    · rw [hrun, hdrop, scanRecs, if_pos hs]

end Solo

/-! ## §3 What a later process sees of a picture -/

section Views
variable {d : Disk} {P : Pic}

/-- The files are those of the picture. -/
def FilesOf (d : Disk) (P : Pic) : Prop := d.idx = P.lay.idx ∧ d.dat = P.lay.dat

theorem FilesOf.shows (hG : P.Good) (h : FilesOf d P) (pid : Nat) : Shows pid d.unlocked P.lay :=
  ⟨h.1, h.2, hG.base.wf, fun _ hl => absurd hl not_mem_nil⟩

theorem Shows.files {pid : Nat} {d : Disk} (h : Shows pid d P.lay) : FilesOf d P := ⟨h.idx, h.dat⟩

theorem FilesOf.scan (hG : P.Good) (h : FilesOf d P) {fuel : Nat} (hfuel : P.lay.recs.length < fuel) :
    d.scan fuel = P.lay.scanRecs P.lay.recs :=
  scanLoop_eq hG.base.dat hfuel hfuel P.lay.restAt_start rfl (h.shows hG 0)

/-- With time enough the scan is the scan of the records. -/
theorem FilesOf.scan_iff (hG : P.Good) (h : FilesOf d P) {p : List (Bytes × Bytes) × Bool → Prop} :
    (∃ n, ∀ fuel, n ≤ fuel → p (d.scan fuel)) ↔ p (P.lay.scanRecs P.lay.recs) := by
  constructor
  · rintro ⟨n, hn⟩
    have := hn _ (Nat.le_max_left n (P.lay.recs.length + 1))
    rwa [h.scan hG (Nat.le_max_right ..)] at this
  · refine fun hp => ⟨P.lay.recs.length + 1, fun fuel hf => ?_⟩
    rwa [h.scan hG hf]

theorem FilesOf.fetch (hG : P.Good) (h : FilesOf d P) (key : Bytes) : d.fetch key = P.fetch key := by
  obtain ⟨db', d', -, hrun⟩ := run_dbFetch (dbRewind dbAlloc) hG (h.shows hG 0) key
  rw [Disk.fetch, hrun]
  cases P.fetch key <;> rfl

theorem fetch_eq_some_iff {key x : Bytes} : P.fetch key = .ok (some x) ↔
      ∃ c o, P.find key = .hit c o ∧ P.lay.datum (P.lay.view o) = x := by
  unfold Pic.fetch
  cases hf : P.find key with
  | stray | miss | hit c o => simp

end Views

/-! ## §4 Complete scans -/

section Complete
variable {L : Layout}

/-- The scan reaches the end of the file just when no key has a separator. -/
theorem scanRecs_ends : ∀ {rs : List IdxRec}, (L.scanRecs rs).2 = true ↔ ∀ r ∈ rs, sep ∉ r.key
  | [] => by simp [scanRecs]
  | r :: rs => by
    have ih : (L.scanRecs rs).2 = true ↔ ∀ r ∈ rs, sep ∉ r.key := scanRecs_ends
    by_cases hs : sep ∈ r.key
    · simp [scanRecs, hs]
    · by_cases hb : r.blank = true <;> simp [scanRecs, hs, hb, ih]

/-- Every pair comes from a record that is still to come. -/
theorem scanRecs_mem : ∀ {rs : List IdxRec} {o : Nat} {k x : Bytes}, L.RestAt o rs →
    (k, x) ∈ (L.scanRecs rs).1 → ∃ o' r, o ≤ o' ∧ L.recAt o' = some r ∧ r.blank = false ∧ r.key = k ∧ L.datum r = x
  | [], _, _, _, _, h => by simp [scanRecs] at h
  | r :: rs, o, k, x, hat, h => by
    by_cases hs : sep ∈ r.key
    · simp [scanRecs, hs] at h
    by_cases hb : r.blank = true
    · rw [scanRecs, if_neg hs, if_pos hb] at h
      obtain ⟨o', r', hle, hr'⟩ := scanRecs_mem hat.tail h
      exact ⟨o', r', Nat.le_trans (Nat.le_add_right o _) hle, hr'⟩
    rw [scanRecs, if_neg hs, if_neg hb] at h
    rcases mem_cons.mp h with he | h
    · obtain ⟨rfl, rfl⟩ := Prod.mk.inj he
      exact ⟨o, r, Nat.le_refl o, hat.head, by simpa using hb, rfl, rfl⟩
    · obtain ⟨o', r', hle, hr'⟩ := scanRecs_mem hat.tail h
      exact ⟨o', r', Nat.le_trans (Nat.le_add_right o _) hle, hr'⟩

theorem scanRecs_complete : ∀ {rs : List IdxRec} {r : IdxRec}, (∀ r ∈ rs, sep ∉ r.key) → r ∈ rs →
    r.blank = false → (r.key, L.datum r) ∈ (L.scanRecs rs).1
  | [], _, _, hr, _ => absurd hr not_mem_nil
  | y :: ys, r, hsep, hr, hb => by
    have hs := hsep y (by simp)
    have ih : r ∈ ys → (r.key, L.datum r) ∈ (L.scanRecs ys).1 := fun hr' =>
      scanRecs_complete (fun r hr => hsep r (by simp [hr])) hr' hb
    by_cases hby : y.blank = true
    · rw [scanRecs, if_neg hs, if_pos hby]
      rcases mem_cons.mp hr with rfl | hr
      · rw [hb] at hby
        simp at hby
      · exact ih hr
    · rw [scanRecs, if_neg hs, if_neg hby]
      rcases mem_cons.mp hr with rfl | hr
      · exact mem_cons_self ..
      · exact mem_cons_of_mem _ (ih hr)

/-- Records with different keys give different pairs. -/
theorem scanRecs_nodup (hinj : ∀ o o' r r', L.recAt o = some r → L.recAt o' = some r' →
    r.blank = false → r'.blank = false → r.key = r'.key → o = o') :
    ∀ {rs : List IdxRec} {o : Nat}, L.RestAt o rs → (L.scanRecs rs).1.Nodup
  | [], _, _ => nodup_nil
  | r :: rs, o, hat => by
    have ih := scanRecs_nodup hinj hat.tail
    by_cases hs : sep ∈ r.key
    · rw [scanRecs, if_pos hs]
      exact nodup_nil
    by_cases hb : r.blank = true
    · rwa [scanRecs, if_neg hs, if_pos hb]
    rw [scanRecs, if_neg hs, if_neg hb]
    refine nodup_cons.mpr ⟨fun hmem => ?_, ih⟩
    obtain ⟨o', r', hle, hr', hb', hk, -⟩ := scanRecs_mem hat.tail hmem
    have := hinj o o' r r' hat.head hr' (by simpa using hb) hb' hk.symm
    have := recSize_pos r
    omega

end Complete

/-- The scan comes to an end and returns each pair that `db_fetch` finds once,
and no other pair. -/
def ScanComplete (d : Disk) : Prop := ∃ ps, (∃ n, ∀ fuel, n ≤ fuel → d.scan fuel = (ps, true)) ∧ ps.Nodup ∧
    ∀ k x, (k, x) ∈ ps ↔ d.fetches k x

section Live
variable {d : Disk} {P : Pic} {m : Map} {r : IdxRec} {o : Nat}

/-- A record whose key is not blank is on the chain of its key. -/
theorem live_of_not_blank (hG : P.Good) (hP : P.Whole)
    (hr : P.lay.recAt o = some r) (hb : r.blank = false) : o ∈ P.ch (dbHash r.key) := by
  rcases hP.owned hG hr with ⟨h, hown⟩ | hown
  · have hC := hG.chain h (hP.table o h hown)
    have ho := (hC.own_iff o).mpr hown
    rwa [hC.hash o ho r.key (keyAt_of_recAt hr)]
  have hblank := hG.free.blank o ((hG.free.own_iff o).mpr hown) r.key (keyAt_of_recAt hr)
  have : r.blank = true := all_eq_true.mpr fun b hb => by simp [hblank b hb]
  rw [hb] at this
  simp at this

/-- No separator in any live key means no separator in any record. -/
theorem sep_free (hG : P.Good) (hP : P.Whole) (hM : P.Means m)
    (hm : ∀ k, m k ≠ none → sep ∉ k) : ∀ r ∈ P.lay.recs, sep ∉ r.key := by
  intro r hr
  by_cases hb : r.blank = true
  · exact isBlank_sep hb
  obtain ⟨pre, post, hrecs⟩ := append_of_mem hr
  have hrec : P.lay.recAt (recOff + tilesLen recSize pre) = some r := Layout.RestAt.head ⟨pre, hrecs, rfl⟩
  refine hm r.key ?_
  rw [hM.of_rec hrec (live_of_not_blank hG hP hrec (by simpa using hb))]
  simp

theorem FilesOf.fetch_eq_map (hG : P.Good) (hM : P.Means m) (h : FilesOf d P)
    (hsep : ∀ k, m k ≠ none → sep ∉ k) (key : Bytes) : d.fetch key = .ok (m key) := by
  have hC := hG.chain _ (dbHash_lt key)
  rw [h.fetch hG]
  unfold Pic.fetch
  cases hf : P.find key with
  | stray =>
    obtain ⟨o, ho, hs⟩ := search_stray hf
    obtain ⟨r, hr⟩ := hC.list.exists_rec hG.base ho
    rw [view_of_recAt hr] at hs
    rw [← hC.hash o ho r.key (keyAt_of_recAt hr)] at ho
    exact absurd hs (hsep r.key (by simp [hM.of_rec hr ho]))
  | miss => rw [hM.find_miss hG hf]
  | hit c o => rw [hM.find_hit hG hf]

/-- The scan and `db_fetch` agree just when every key of the map has a byte
that is not blank, and no separator. -/
theorem scanComplete_iff_of_means (hG : P.Good) (hP : P.Whole) (hM : P.Means m)
    (hd : FilesOf d P) :
    ScanComplete d ↔ ∀ k, m k ≠ none → isBlank k = false ∧ sep ∉ k := by
  have hscan : ∀ ps, (∃ n, ∀ fuel, n ≤ fuel → d.scan fuel = (ps, true)) ↔ P.lay.scanRecs P.lay.recs = (ps, true) :=
    fun ps => hd.scan_iff hG (p := (· = (ps, true)))
  have hfetch : (∀ k, m k ≠ none → sep ∉ k) → ∀ {k x}, d.fetches k x ↔ m k = some x := fun hlive k x => by
    simp [Disk.fetches, hd.fetch_eq_map hG hM hlive]
  constructor
  · rintro ⟨ps, hps, -, hmem⟩
    have heq := (hscan ps).mp hps
    have hsep := scanRecs_ends.mp (congrArg Prod.snd heq)
    obtain rfl : (P.lay.scanRecs P.lay.recs).1 = ps := congrArg Prod.fst heq
    have hlive : ∀ k, m k ≠ none → sep ∉ k := fun k hk => by
      obtain ⟨x, hx⟩ := ne_none_iff_exists'.mp hk
      obtain ⟨o, r, hr, -, rfl, -⟩ := hM.exists_rec hG hx
      exact hsep r (recAt_mem hr)
    refine fun k hk => ⟨?_, hlive k hk⟩
    obtain ⟨x, hx⟩ := ne_none_iff_exists'.mp hk
    obtain ⟨_, r, -, -, hb, rfl, -⟩ := scanRecs_mem P.lay.restAt_start ((hmem k x).mpr ((hfetch hlive).mpr hx))
    exact hb
  · intro hm
    have hlive : ∀ k, m k ≠ none → sep ∉ k := fun k hk => (hm k hk).2
    have hsep := sep_free hG hP hM hlive
    refine ⟨_, (hscan _).mpr (Prod.ext rfl (scanRecs_ends.mpr hsep)), ?_, fun k x => ?_⟩
    · refine scanRecs_nodup (fun o o' r r' hr hr' hb hb' hk => ?_) P.lay.restAt_start
      have ho := live_of_not_blank hG hP hr hb
      have ho' := live_of_not_blank hG hP hr' hb'
      rw [← hk] at ho'
      refine (hG.chain _ (dbHash_lt r.key)).inj o ho o' ho' ?_
      rw [keyAt_of_recAt hr, keyAt_of_recAt hr', hk]
    · rw [hfetch hlive]
      constructor
      · intro hmem
        obtain ⟨o, r, -, hr, hb, rfl, rfl⟩ := scanRecs_mem P.lay.restAt_start hmem
        exact hM.of_rec hr (live_of_not_blank hG hP hr hb)
      · intro hx
        obtain ⟨o, r, hr, -, rfl, rfl⟩ := hM.exists_rec hG hx
        exact scanRecs_complete hsep (recAt_mem hr) (hm r.key (by rw [hx]; simp)).1

end Live

/-! ## §5 After calls that return -/

/-- The files show a good picture of the map, with nothing lost. -/
structure Kept (pid : Nat) (d : Disk) (P : Pic) (m : Map) : Prop where
  good : P.Good
  whole : P.Whole
  means : P.Means m
  shows : Shows pid d P.lay

section Kept
variable {pid : Nat} {d d' : Disk} {P : Pic} {m : Map} {db db' : DB} {r : Res}

/-- A call that returns does what the map does. -/
theorem Kept.step (hK : Kept pid d P m) {op : Op} (hc : op.CStrings)
    (hrun : run (op.prog pid db) d = (.ok (db', r), d')) :
    ∃ P', Kept pid d' P' (Map.step m op).2 := by
  obtain ⟨hG, hP, hM, hSh⟩ := hK
  obtain ⟨db1, d1, hSh', hrun1⟩ := run_prog hG hSh hc db
  obtain ⟨hres, rfl⟩ := Prod.mk.inj (hrun1.symm.trans hrun)
  obtain ⟨r, hr, -⟩ := Result.map_eq_ok hres
  have hY := hG.yields_step hc
  refine ⟨_, hY.1, ?_, (hY.2 hM hr).2, hSh'⟩
  cases op with
  | store key data flag =>
    obtain ⟨rc, hrc, -⟩ := Result.map_eq_ok hr
    exact hP.store hrc
  | delete key => exact hP.remove
  | fetch key => exact hP

/-- Any number of calls that all return, by induction on them. -/
theorem Kept.steps : ∀ {ops : List Op} {db : DB} {d : Disk} {P : Pic} {m : Map},
    Kept pid d P m → (∀ op ∈ ops, op.CStrings) → (∀ r ∈ (runOps pid db d ops).1, ∃ a, r = .ok a) →
    ∃ P', Kept pid (runOps pid db d ops).2 P' (Map.steps m ops).2
  | [], _, _, P, _, hK, _, _ => ⟨P, hK⟩
  | op :: ops, db, d, P, m, hK, hc, hok => by
    cases hrun : run (op.prog pid db) d with
    | mk res d' =>
      rw [runOps, hrun] at hok ⊢
      cases res with
      | ok a =>
        obtain ⟨db', r⟩ := a
        obtain ⟨P', hK'⟩ := hK.step (hc op (by simp)) hrun
        exact hK'.steps (fun o ho => hc o (by simp [ho])) fun r hr => hok r (by simp [hr])
      | stopped e => exact absurd (hok (.stopped e) (by simp)) (by simp)
      | blocked => exact absurd (hok .blocked (by simp)) (by simp)

end Kept

/-- After any calls on a fresh database that all return, the scan is complete
just when every key that is now in the database has a byte that is not blank,
and no separator. -/
theorem scan_complete_iff (pid : Nat) (d₀ : Disk) (halone : ∀ l ∈ d₀.locks, l.pid = pid) :
    ∃ db d, run (dbOpen pid) d₀ = (.ok db, d) ∧ ∀ ops : List Op, (∀ op ∈ ops, op.CStrings) →
        (∀ r ∈ (runOps pid db d ops).1, ∃ a, r = .ok a) →
        (ScanComplete (runOps pid db d ops).2 ↔
          ∀ k, (Map.steps (fun _ => none) ops).2 k ≠ none → isBlank k = false ∧ sep ∉ k) := by
  obtain ⟨d, hopen, hS⟩ := run_dbOpen halone
  refine ⟨_, d, hopen, fun ops hc hok => ?_⟩
  obtain ⟨P, hK⟩ := Kept.steps ⟨Pic.good_empty, (sound_open hS).clean.toWhole, Pic.means_empty, hS⟩ hc hok
  exact scanComplete_iff_of_means hK.good hK.whole hK.means hK.shows.files

theorem scan_complete_iff_first : ∃ db d, run (dbOpen 1) ⟨[], [], []⟩ = (.ok db, d) ∧
      (ScanComplete (runOps 1 db d [.store [97] [120] flagInsert, .fetch [97]]).2 ↔
        ∀ k, (Map.steps (fun _ => none) [.store [97] [120] flagInsert, .fetch [97]]).2 k ≠ none →
          isBlank k = false ∧ sep ∉ k) := by
  obtain ⟨db, d, hopen, h⟩ := scan_complete_iff 1 ⟨[], [], []⟩ (by simp)
  refine ⟨db, d, hopen, h _ (by simp [Op.CStrings]) ?_⟩
  obtain ⟨d', hopen', hS⟩ := @run_dbOpen 1 ⟨[], [], []⟩ (by simp)
  obtain ⟨hdb, rfl⟩ := Prod.mk.inj (hopen.symm.trans hopen')
  obtain rfl := Result.ok.inj hdb
  have hl : InLimits 1 (dbRewind dbAlloc) d [.store [97] [120] flagInsert, .fetch [97]] :=
    inLimits_first (by simp) hopen (by decide) (by decide) (by decide)
  obtain ⟨hres, -⟩ := (sound_open hS).steps (by simp [Op.Proper, ProperKey, sep]) hl
  rw [hres]
  simp

/-- The key `" "` is stored and found, and the scan passes over it. -/
theorem scan_misses_blank_key : ∃ db d, run (dbOpen 1) ⟨[], [], []⟩ = (.ok db, d) ∧
      (runOps 1 db d [.store [space] [120] flagInsert, .fetch [space]]).1 = [.ok (.rc 0), .ok (.datum (some [120]))] ∧
      ¬ ScanComplete (runOps 1 db d [.store [space] [120] flagInsert, .fetch [space]]).2 := by
  have halone : ∀ l ∈ (⟨[], [], []⟩ : Disk).locks, l.pid = 1 := by simp
  obtain ⟨d, hopen, hS⟩ := run_dbOpen halone
  have hproper : ∀ op ∈ [Op.store [space] [120] flagInsert, .fetch [space]], op.Proper := by
    simp [Op.Proper, ProperKey, sep, space]
  have hl : InLimits 1 (dbRewind dbAlloc) d [.store [space] [120] flagInsert, .fetch [space]] :=
    inLimits_first halone hopen (by decide) (by decide) (by decide)
  obtain ⟨hres, Q, -, hQ, -⟩ := (sound_open hS).steps hproper hl
  obtain ⟨hG, hP, hM, hSh⟩ := hQ 2 le_rfl
  refine ⟨_, d, hopen, hres, fun hscan => ?_⟩
  have := (scanComplete_iff_of_means hG hP.toWhole hM hSh.files).mp hscan [space] (by decide)
  exact absurd this.1 (by decide)

end GokuStudio.Apue.Db

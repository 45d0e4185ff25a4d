import GokuStudio.Apue.Db.Primitives

/-!
# A database, pictured

`Pic` adds to the layout what the pointers are for: which records hang on
which hash chain (`ch`), which on the free list (`fl`), and who is in charge of
each record (`own`). `Base` is what holds of a picture at any moment, even in
the middle of an operation; `ChainOk` and `FreeOk` say that one hash chain, or
the free list, is in order; `MapOk` says what a chain means as a map from keys
to data.

§3 has one lemma for each thing the code does to a chain: take a record out,
put one in front, leave it alone. They compare two pictures and speak only of
the cells and records of that chain, so that it does not matter what else went
on between the two.
-/

namespace GokuStudio.Apue.Db

open Lib List Layout Option
open Function (update update_of_ne update_self)

/-! ## §1 Keys and data of records -/

variable {r r' : IdxRec} {c v v0 off len p o : Nat}

namespace Layout

def keyAt (L : Layout) (o : Nat) : Option Bytes := (L.recAt o).map IdxRec.key

variable {L : Layout}

theorem keyAt_of_recAt (h : L.recAt o = some r) : L.keyAt o = some r.key := by
  rw [keyAt, h]
  rfl

def datum (L : Layout) (r : IdxRec) : Bytes := pread L.dat r.datoff (r.datlen - 1)
def datAt (L : Layout) (o : Nat) : Option Bytes := (L.recAt o).map L.datum

theorem keyAt_setPtr (hL : L.Wf) (h : L.ptrAt c = some v0)
    (hv : v ≤ ptrMax) (o : Nat) : (L.setPtr c v).keyAt o = L.keyAt o := by
  rw [keyAt, recAt_setPtr hL h hv]
  by_cases hoc : o = c
  · rw [if_pos hoc, keyAt, Option.map_map]
    rfl
  · rw [if_neg hoc, keyAt]

theorem datAt_setPtr (hL : L.Wf) (h : L.ptrAt c = some v0)
    (hv : v ≤ ptrMax) (o : Nat) : (L.setPtr c v).datAt o = L.datAt o := by
  have hdatum : (L.setPtr c v).datum = L.datum := by
    funext r
    rw [datum, datum, setPtr_dat]
  rw [datAt, recAt_setPtr hL h hv, hdatum]
  by_cases hoc : o = c
  · rw [if_pos hoc, datAt, Option.map_map]
    rfl
  · rw [if_neg hoc, datAt]

theorem keyAt_setRec (h : L.recAt o = some r) (hs : recSize r' = recSize r) (x : Nat) :
    (L.setRec o r').keyAt x = if x = o then some r'.key else L.keyAt x := by
  rw [keyAt, recAt_setRec h hs]
  by_cases hxo : x = o <;> simp [hxo, keyAt]

theorem datAt_setRec (h : L.recAt o = some r)
    (hs : recSize r' = recSize r) (hoff : r'.datoff = r.datoff) (hlen : r'.datlen = r.datlen)
    (x : Nat) : (L.setRec o r').datAt x = L.datAt x := by
  rw [datAt, recAt_setRec h hs]
  by_cases hxo : x = o
  · subst hxo
    rw [if_pos rfl, datAt, h]
    simp [datum, hoff, hlen]
  · rw [if_neg hxo]
    rfl

theorem keyAt_addRec (L : Layout) (r : IdxRec) (x : Nat) :
    (L.addRec r).keyAt x = if x = L.idxEnd then some r.key else L.keyAt x := by
  rw [keyAt, recAt_addRec]
  by_cases hx : x = L.idxEnd <;> simp [hx, keyAt]

theorem datAt_addRec (L : Layout) (r : IdxRec) (x : Nat) :
    (L.addRec r).datAt x = if x = L.idxEnd then some (L.datum r) else L.datAt x := by
  rw [datAt, recAt_addRec]
  by_cases hx : x = L.idxEnd
  · simp [hx, datum]
  · simp only [hx, if_false]
    rfl

end Layout

/-! ## §2 The data file -/

/-- Two stretches of the data file that do not overlap. -/
def Apart (a la b lb : Nat) : Prop := a + la ≤ b ∨ b + lb ≤ a

theorem Apart.symm {a la b lb : Nat} (h : Apart a la b lb) : Apart b lb a la := Or.symm h

variable {dat x b : Bytes}

theorem HasDatum.bound (h : HasDatum dat off len x) : off + len ≤ dat.length := by
  have hlen := congrArg length h.2.2
  have h1 := h.2.1
  simp only [pread, length_take, length_drop, length_append, length_singleton] at hlen
  omega

theorem HasDatum.value (h : HasDatum dat off len x) : pread dat off (len - 1) = x := by
  have hx := h.2.2
  have hlen := h.2.1
  have htake : pread dat off (len - 1) = (pread dat off len).take (len - 1) := by
    rw [pread, pread, take_take]
    congr 1
    omega
  rw [htake, hx, take_left' (by omega)]

theorem HasDatum.write_same (hx : NoNul x) (hoff : off ≤ dat.length) :
    HasDatum (pwrite dat off (x ++ [newline])) off (x.length + 1) x := by
  refine ⟨hx, rfl, ?_⟩
  have := pread_pwrite_same (b := x ++ [newline]) hoff
  rwa [length_append, length_singleton] at this

section
variable (h : HasDatum dat off len x)
include h

theorem HasDatum.write_apart (ho : o ≤ dat.length) (ha : Apart o b.length off len) :
    HasDatum (pwrite dat o b) off len x := by
  refine ⟨h.1, h.2.1, ?_⟩
  rw [pread_pwrite_disjoint ho ha.symm]
  exact h.2.2

theorem HasDatum.append : HasDatum (dat ++ b) off len x := by
  refine ⟨h.1, h.2.1, ?_⟩
  rw [pread_append_left h.bound]
  exact h.2.2

/-- The bytes are all that counts. -/
theorem HasDatum.of_pread {dat' : Bytes} (he : pread dat' off len = pread dat off len) : HasDatum dat' off len x :=
  ⟨h.1, h.2.1, he.trans h.2.2⟩

end

/-- The data file serves the index records: every record names a datum of its
own. `pend p` is a datum that process `p` has appended and that no index record
names yet. -/
structure DatOk (L : Layout) (pend : Nat → Option (Nat × Nat)) : Prop where
  has : ∀ {o r}, L.recAt o = some r → HasDatum L.dat r.datoff r.datlen (L.datum r)
  apart : ∀ {o o' r r'}, L.recAt o = some r → L.recAt o' = some r' → o ≠ o' → Apart r.datoff r.datlen r'.datoff r'.datlen
  pend_has : ∀ {p off len}, pend p = some (off, len) → ∃ x, HasDatum L.dat off len x
  pend_apart : ∀ {p off len o r}, pend p = some (off, len) → L.recAt o = some r → Apart off len r.datoff r.datlen
  pend_pend : ∀ {p q off len off' len'}, pend p = some (off, len) → pend q = some (off', len') →
    p ≠ q → Apart off len off' len'

namespace DatOk
variable {L L' : Layout} {pend : Nat → Option (Nat × Nat)}

theorem update_some {q : Nat} {o : Option (Nat × Nat)} {w : Nat × Nat} (h : update pend p o q = some w) :
    (q = p ∧ o = some w) ∨ (q ≠ p ∧ pend q = some w) := by
  by_cases hqp : q = p
  · subst hqp
    rw [update_self] at h
    exact .inl ⟨rfl, h⟩
  · rw [update_of_ne hqp] at h
    exact .inr ⟨hqp, h⟩

variable (h : DatOk L pend)
include h

/-- Only offsets and lengths matter: pointers and keys may change. -/
theorem congr (hdat : L'.dat = L.dat)
    (hrec : ∀ o r', L'.recAt o = some r' → ∃ r, L.recAt o = some r ∧ r'.datoff = r.datoff ∧ r'.datlen = r.datlen) :
    DatOk L' pend := by
  refine ⟨fun {o r'} hr' => ?_, fun {o o' r r'} hr hr' hne => ?_, fun hp => ?_,
    fun {p off len o r} hp hr => ?_, h.pend_pend⟩
  · obtain ⟨r, hr, h1, h2⟩ := hrec o r' hr'
    have := h.has hr
    simp only [datum, hdat, h1, h2] at this ⊢
    exact this
  · obtain ⟨s, hs, h1, h2⟩ := hrec o r hr
    obtain ⟨s', hs', h1', h2'⟩ := hrec o' r' hr'
    rw [h1, h2, h1', h2']
    exact h.apart hs hs' hne
  · rw [hdat]
    exact h.pend_has hp
  · obtain ⟨s, hs, h1, h2⟩ := hrec o r hr
    rw [h1, h2]
    exact h.pend_apart hp hs

theorem setPtr (hL : L.Wf) (hc : L.ptrAt c = some v0) (hv : v ≤ ptrMax) : DatOk (L.setPtr c v) pend := by
  refine h.congr (L.setPtr_dat c v) fun o r' hr' => ?_
  rw [recAt_setPtr hL hc hv] at hr'
  by_cases hoc : o = c
  · rw [if_pos hoc] at hr'
    obtain ⟨r, hr, rfl⟩ := map_eq_some_iff.mp hr'
    exact ⟨r, hr, rfl, rfl⟩
  · rw [if_neg hoc] at hr'
    exact ⟨r', hr', rfl, rfl⟩

theorem setRec (hr : L.recAt o = some r)
    (hs : recSize r' = recSize r) (hoff : r'.datoff = r.datoff) (hlen : r'.datlen = r.datlen) :
    DatOk (L.setRec o r') pend := by
  refine h.congr rfl fun x s' hs' => ?_
  rw [recAt_setRec hr hs] at hs'
  by_cases hxo : x = o
  · rw [if_pos hxo] at hs'
    cases hs'
    exact ⟨r, hxo ▸ hr, hoff, hlen⟩
  · rw [if_neg hxo] at hs'
    exact ⟨s', hs', rfl, rfl⟩

section
variable (hr : L.recAt o = some r) (hlen : x.length + 1 = r.datlen)
include hr hlen

theorem write_same (hx : NoNul x) : HasDatum (pwrite L.dat r.datoff (x ++ [newline])) r.datoff r.datlen x := by
  have := (h.has hr).bound
  exact hlen ▸ HasDatum.write_same hx (by omega)

theorem write_apart {y : Bytes} (hy : HasDatum L.dat off len y) (ha : Apart r.datoff r.datlen off len) :
    HasDatum (pwrite L.dat r.datoff (x ++ [newline])) off len y := by
  have := (h.has hr).bound
  exact hy.write_apart (by omega) (by rwa [length_append, length_singleton, hlen])

/-- Overwriting one record's datum with one of the same length. -/
theorem write (hx : NoNul x) : DatOk (L.setDat (pwrite L.dat r.datoff (x ++ [newline]))) pend := by
  refine ⟨fun {o' r'} hr' => ?_, h.apart, fun hp => ?_, h.pend_apart, h.pend_pend⟩
  · rw [recAt_setDat] at hr'
    by_cases hoo : o' = o
    · subst hoo
      obtain rfl := mem_unique hr hr'
      have := h.write_same hr hlen hx
      simp only [datum, setDat_dat]
      rwa [this.value]
    · have := h.write_apart hr hlen (h.has hr') (h.apart hr hr' (Ne.symm hoo))
      simp only [datum, setDat_dat]
      rwa [this.value]
  · obtain ⟨y, hy⟩ := h.pend_has hp
    exact ⟨y, h.write_apart hr hlen hy (h.pend_apart hp hr).symm⟩

theorem datAt_write_other {o' : Nat} (hne : o' ≠ o) :
    (L.setDat (pwrite L.dat r.datoff (x ++ [newline]))).datAt o' = L.datAt o' := by
  rw [datAt, recAt_setDat, datAt]
  cases hr' : L.recAt o' with
  | none => rfl
  | some r' =>
    have := h.write_apart hr hlen (h.has hr') (h.apart hr hr' (Ne.symm hne))
    rw [map_some, map_some, datum, setDat_dat, this.value]

end

/-- A datum at the end of the file. -/
theorem append (hx : NoNul x) : DatOk (L.setDat (L.dat ++ (x ++ [newline])))
      (update pend p (some (L.dat.length, x.length + 1))) := by
  refine ⟨fun {o r} hr => ?_, h.apart, fun {q off len} hp => ?_,
    fun {q off len o r} hp hr => ?_, fun {q q' off len off' len'} hp hp' hne => ?_⟩
  · rw [recAt_setDat] at hr
    have := (h.has hr).append (b := x ++ [newline])
    simp only [datum, setDat_dat]
    rwa [this.value]
  · rcases update_some hp with ⟨-, ⟨⟩⟩ | ⟨-, hp⟩
    · refine ⟨x, ?_⟩
      rw [setDat_dat, ← pwrite_end]
      exact HasDatum.write_same hx le_rfl
    · obtain ⟨y, hy⟩ := h.pend_has hp
      exact ⟨y, hy.append⟩
  · rw [recAt_setDat] at hr
    rcases update_some hp with ⟨-, ⟨⟩⟩ | ⟨-, hp⟩
    · exact .inr (h.has hr).bound
    · exact h.pend_apart hp hr
  · rcases update_some hp with ⟨rfl, ⟨⟩⟩ | ⟨-, hp⟩
    · rw [update_of_ne (Ne.symm hne)] at hp'
      obtain ⟨y, hy⟩ := h.pend_has hp'
      exact .inr hy.bound
    rcases update_some hp' with ⟨-, ⟨⟩⟩ | ⟨-, hp'⟩
    · obtain ⟨y, hy⟩ := h.pend_has hp
      exact .inl hy.bound
    · exact h.pend_pend hp hp' hne

/-- A pending datum gets its index record. -/
theorem addRec (hp : pend p = some (r.datoff, r.datlen)) : DatOk (L.addRec r) (update pend p none) := by
  have hend : ∀ {o s}, (L.addRec r).recAt o = some s → (o = L.idxEnd ∧ s = r) ∨ (o ≠ L.idxEnd ∧ L.recAt o = some s) := by
    intro o s hs
    rw [recAt_addRec] at hs
    by_cases ho : o = L.idxEnd
    · rw [if_pos ho] at hs
      exact .inl ⟨ho, (some.inj hs).symm⟩
    · rw [if_neg ho] at hs
      exact .inr ⟨ho, hs⟩
  have hother : ∀ {q off len}, update pend p none q = some (off, len) → q ≠ p ∧ pend q = some (off, len) :=
    fun hq => (update_some hq).resolve_left (by simp)
  refine ⟨fun {o s} hs => ?_, fun {o o' s s'} hs hs' hne => ?_, fun hq => ?_,
    fun {q off len o s} hq hs => ?_, fun hq hq' hne => ?_⟩
  · rcases hend hs with ⟨-, rfl⟩ | ⟨-, hs⟩
    · obtain ⟨x, hx⟩ := h.pend_has hp
      rw [datum, addRec_dat, hx.value]
      exact hx
    · exact h.has hs
  · rcases hend hs with ⟨rfl, rfl⟩ | ⟨-, hs⟩
    · rcases hend hs' with ⟨rfl, -⟩ | ⟨-, hs'⟩
      · exact absurd rfl hne
      · exact h.pend_apart hp hs'
    rcases hend hs' with ⟨-, he⟩ | ⟨-, hs'⟩
    · rw [he]
      exact (h.pend_apart hp hs).symm
    · exact h.apart hs hs' hne
  · exact h.pend_has (hother hq).2
  · rcases hend hs with ⟨-, rfl⟩ | ⟨-, hs⟩
    · exact h.pend_pend (hother hq).2 hp (hother hq).1
    · exact h.pend_apart (hother hq).2 hs
  · exact h.pend_pend (hother hq).2 (hother hq').2 hne

/-- Forgetting a pending datum. -/
theorem forget (p : Nat) : DatOk L (update pend p none) := by
  have hother : ∀ {q off len}, update pend p none q = some (off, len) → pend q = some (off, len) :=
    fun hq => ((update_some hq).resolve_left (by simp)).2
  exact ⟨h.has, h.apart, fun hq => h.pend_has (hother hq), fun hq => h.pend_apart (hother hq),
    fun hq hq' => h.pend_pend (hother hq) (hother hq')⟩

theorem datAt_append (b : Bytes) (o : Nat) : (L.setDat (L.dat ++ b)).datAt o = L.datAt o := by
  rw [datAt, recAt_setDat, datAt]
  cases hr : L.recAt o with
  | none => rfl
  | some r =>
    have := (h.has hr).append (b := b)
    rw [map_some, map_some, datum, setDat_dat, this.value]

end DatOk

/-! ## §3 Pictures -/

/-- Who is in charge of the record at an offset. A record is `lost` when the
process that appended it stopped before it was linked in. -/
inductive Owner where
  | nobody
  | chain (h : Nat)
  | free
  | proc (p : Nat)
  | lost
deriving DecidableEq, Repr

section Own
variable {own : Nat → Owner} {t w : Owner} {y : Nat}

/-- The record at `o` changes hands, from another owner than `t` to another one. -/
theorem own_update_other (hw : w ≠ t) (ho : own o ≠ t) : update own o w y = t ↔ own y = t := by
  by_cases hy : y = o
  · rw [hy, update_self]
    exact iff_of_false hw ho
  · rw [update_of_ne hy]

theorem own_update_leave (hw : w ≠ t) : update own o w y = t ↔ own y = t ∧ y ≠ o := by
  by_cases hy : y = o <;> simp [hy, hw]

theorem own_update_join : update own o t y = t ↔ own y = t ∨ y = o := by
  by_cases hy : y = o <;> simp [hy]

end Own

structure Pic where
  lay : Layout
  own : Nat → Owner
  ch : Nat → List Nat
  fl : List Nat
  pend : Nat → Option (Nat × Nat)

/-- The head cell of a hash chain. -/
def cellOf (h : Nat) : Nat := h * ptrSz + hashOff

theorem cellOf_lt {h : Nat} (hh : h < nhashDef) : cellOf h < recOff := by
  have : h * 6 + 6 < 829 := by
    have : nhashDef = 137 := rfl
    omega
  exact this

theorem cellOf_inj {h h' : Nat} (he : cellOf h = cellOf h') : h = h' := by
  have : h * 6 + 6 = h' * 6 + 6 := he
  omega

theorem cellOf_ne_freeOff (h : Nat) : cellOf h ≠ freeOff := by
  have : h * 6 + 6 ≠ 0 := by omega
  exact this

theorem dbHash_lt (key : Bytes) : dbHash key < nhashDef := Nat.mod_lt _ (by decide)
theorem freeOff_lt : freeOff < recOff := by decide

namespace Pic

section
variable (P : Pic) (c : Nat) (t : Owner) (os : List Nat)

/-- What holds of a picture at any moment. -/
structure Base : Prop where
  wf : P.lay.Wf
  dat : DatOk P.lay P.pend
  own_iff : ∀ o, P.own o = .nobody ↔ P.lay.recAt o = none

/-- Hash chain `h` is in order. -/
structure ChainOk (h : Nat) : Prop where
  chain : Chain P.lay.ptrAt (cellOf h) (P.ch h)
  own_iff : ∀ o, o ∈ P.ch h ↔ P.own o = .chain h
  hash : ∀ o ∈ P.ch h, ∀ k, P.lay.keyAt o = some k → dbHash k = h
  inj : ∀ o ∈ P.ch h, ∀ o' ∈ P.ch h, P.lay.keyAt o = P.lay.keyAt o' → o = o'

/-- The free list is in order. -/
structure FreeOk : Prop where
  chain : Chain P.lay.ptrAt freeOff P.fl
  own_iff : ∀ o, o ∈ P.fl ↔ P.own o = .free
  blank : ∀ o ∈ P.fl, ∀ k, P.lay.keyAt o = some k → ∀ b ∈ k, b = space

/-- The records `os` behind the cell `c` of the table are in the charge of `t`. -/
structure Row : Prop where
  cell : c < recOff
  owner : t ≠ .nobody
  own : ∀ o ∈ os, P.own o = t

/-- The records behind the cell `c` are just those in the charge of `t`. -/
structure Linked : Prop where
  chain : Chain P.lay.ptrAt c os
  own_iff : ∀ o, o ∈ os ↔ P.own o = t
  owner : t ≠ .nobody

/-- A record with this key and this datum hangs on the key's hash chain. -/
def Holds (k x : Bytes) : Prop := ∃ o ∈ P.ch (dbHash k), P.lay.keyAt o = some k ∧ P.lay.datAt o = some x

/-- On the keys of hash chain `h`, the picture means the map `m`. -/
def MapOk (m : Bytes → Option Bytes) (h : Nat) : Prop := ∀ k, dbHash k = h → ∀ x, m k = some x ↔ P.Holds k x

end

variable {P P' : Pic} {h : Nat} {k : Bytes} {m : Bytes → Option Bytes}

section
variable (hB : P.Base)
include hB

theorem Base.exists_rec (ho : P.own o ≠ .nobody) : ∃ r, P.lay.recAt o = some r :=
  ne_none_iff_exists'.mp fun hnone => ho ((hB.own_iff o).mpr hnone)

omit hB

theorem ChainOk.list (hC : P.ChainOk h) : P.Linked (cellOf h) (.chain h) (P.ch h) := ⟨hC.chain, hC.own_iff, nofun⟩
theorem FreeOk.list (hF : P.FreeOk) : P.Linked freeOff .free P.fl := ⟨hF.chain, hF.own_iff, nofun⟩

/-- Whatever a pointer cell holds fits in a pointer field. -/
theorem chain_le {ptr : Nat → Option Nat} (hle : ∀ {c v}, ptr c = some v → v ≤ ptrMax) :
    ∀ {os : List Nat} {c : Nat}, Chain ptr c os → ∀ o ∈ os, o ≤ ptrMax
  | [], _, _, o, ho => absurd ho (by simp)
  | x :: xs, c, hch, o, ho => by
    rcases mem_cons.mp ho with rfl | ho
    · exact hle hch.1
    · exact chain_le hle hch.2.2 o ho

namespace Linked
variable {t : Owner} {os pre post : List Nat} {y : Nat} (hL : P.Linked c t os)
include hL

theorem row (hc : c < recOff) : P.Row c t os := ⟨hc, hL.owner, fun o => (hL.own_iff o).mp⟩

theorem mem_rest (hsplit : os = pre ++ o :: post) : y ∈ pre ++ post ↔ y ∈ os ∧ y ≠ o :=
  hsplit ▸ mem_unlink_iff (hsplit ▸ hL.chain.nodup) y

include hB

theorem exists_rec (ho : o ∈ os) : ∃ r, P.lay.recAt o = some r := hB.exists_rec ((hL.own_iff o).mp ho ▸ hL.owner)

/-- The table's cells are not records. -/
theorem cell_notMem {c' : Nat} (hc : c' < recOff) : c' ∉ os := by
  intro hmem
  obtain ⟨r, hr⟩ := hL.exists_rec hB hmem
  exact absurd (recAt_ge hr) (by omega)

theorem le (ho : o ∈ os) : o ≤ ptrMax := chain_le hB.wf.ptrAt_le hL.chain o ho
theorem length_lt : os.length < walkFuel := Nat.lt_succ_of_le (hL.chain.length_le fun _ => hL.le hB)

/-- The cell that points to a record of the list. -/
theorem cell_facts (hc : c < recOff) (hsplit : os = pre ++ o :: post) :
    P.lay.ptrAt (lastCell c pre) = some o ∧ lastCell c pre ≠ o ∧ lastCell c pre ∈ c :: os := by
  have hcell := hL.cell_notMem hB hc
  have hchain := hL.chain
  rw [hsplit] at hchain hcell ⊢
  exact ⟨hchain.ptr_lastCell, hchain.lastCell_ne hcell, lastCell_mem_split ..⟩

end Linked
end

section Row
variable {os os' : List Nat} {t t' : Owner} {c' y z : Nat}

theorem ChainOk.row (hC : P.ChainOk h) (hh : h < nhashDef) : Row P (cellOf h) (.chain h) (P.ch h) :=
  hC.list.row (cellOf_lt hh)

theorem FreeOk.row (hF : P.FreeOk) : Row P freeOff .free P.fl := hF.list.row freeOff_lt

/-- A record of another owner is none of the cells. -/
theorem Row.ne (hR : P.Row c t os) (hy : y ∈ c :: os) (hz : P.own z ≠ t) (hge : recOff ≤ z) : y ≠ z := by
  rintro rfl
  rcases mem_cons.mp hy with rfl | hy
  · exact absurd hR.cell (Nat.not_lt.mpr hge)
  · exact hz (hR.own y hy)

/-- The cells of two rows, heads included, are different cells. -/
theorem Row.cells_ne (hB : P.Base) (hR : P.Row c t os) (hR' : P.Row c' t' os') (hc : c ≠ c') (ht : t' ≠ t)
    (hy : y ∈ c :: os) (hz : z ∈ c' :: os') : y ≠ z := by
  have hge : ∀ {c t os}, P.Row c t os → ∀ o ∈ os, recOff ≤ o := fun hR o ho => by
    obtain ⟨r, hr⟩ := hB.exists_rec (hR.own o ho ▸ hR.owner)
    exact recAt_ge hr
  rcases mem_cons.mp hz with rfl | hz
  · rintro rfl
    rcases mem_cons.mp hy with he | hy
    · exact hc he.symm
    · exact absurd hR'.cell (Nat.not_lt.mpr (hge hR y hy))
  · exact hR.ne hy (hR'.own z hz ▸ ht) (hge hR' z hz)

end Row

/-! ### Leaving a chain alone -/

theorem ChainOk.frame (hC : P.ChainOk h) (hch : P'.ch h = P.ch h)
    (hown : ∀ o, P'.own o = .chain h ↔ P.own o = .chain h)
    (hptr : ∀ o ∈ cellOf h :: P.ch h, P'.lay.ptrAt o = P.lay.ptrAt o)
    (hkey : ∀ o ∈ P.ch h, P'.lay.keyAt o = P.lay.keyAt o) : P'.ChainOk h := by
  refine ⟨?_, fun o => ?_, fun o ho k hk => ?_, fun o ho o' ho' he => ?_⟩
  · rw [hch]
    exact hC.chain.congr hptr
  · rw [hch, hown]
    exact hC.own_iff o
  · rw [hch] at ho
    exact hC.hash o ho k (hkey o ho ▸ hk)
  · rw [hch] at ho ho'
    rw [hkey o ho, hkey o' ho'] at he
    exact hC.inj o ho o' ho' he

theorem FreeOk.frame (hF : P.FreeOk) (hfl : P'.fl = P.fl) (hown : ∀ o, P'.own o = .free ↔ P.own o = .free)
    (hptr : ∀ o ∈ freeOff :: P.fl, P'.lay.ptrAt o = P.lay.ptrAt o)
    (hkey : ∀ o ∈ P.fl, P'.lay.keyAt o = P.lay.keyAt o) : P'.FreeOk := by
  refine ⟨?_, fun o => ?_, fun o ho k hk => ?_⟩
  · rw [hfl]
    exact hF.chain.congr hptr
  · rw [hfl, hown]
    exact hF.own_iff o
  · rw [hfl] at ho
    exact hF.blank o ho k (hkey o ho ▸ hk)

theorem MapOk.frame (hM : P.MapOk m h) (hch : P'.ch h = P.ch h)
    (hkey : ∀ o ∈ P.ch h, P'.lay.keyAt o = P.lay.keyAt o)
    (hdat : ∀ o ∈ P.ch h, P'.lay.datAt o = P.lay.datAt o) : P'.MapOk m h := by
  intro k hk x
  rw [hM k hk x, Holds, Holds, hk, hch]
  refine exists_congr fun o => and_congr_right fun ho => ?_
  rw [hkey o ho, hdat o ho]

/-! ### Taking a record out -/

theorem ChainOk.unlink {pre post : List Nat} (hB : P.Base) (hh : h < nhashDef)
    (hC : P.ChainOk h) (hsplit : P.ch h = pre ++ o :: post) (hch : P'.ch h = pre ++ post)
    (hown : ∀ y, P'.own y = .chain h ↔ P.own y = .chain h ∧ y ≠ o)
    (hlast : P'.lay.ptrAt (lastCell (cellOf h) pre) = P.lay.ptrAt o)
    (hptr : ∀ y ∈ cellOf h :: (pre ++ post), y ≠ lastCell (cellOf h) pre → P'.lay.ptrAt y = P.lay.ptrAt y)
    (hkey : ∀ y ∈ pre ++ post, P'.lay.keyAt y = P.lay.keyAt y) : P'.ChainOk h := by
  have hcell := hC.list.cell_notMem hB (cellOf_lt hh)
  refine ⟨?_, fun y => ?_, fun y hy k hk => ?_, fun y hy y' hy' he => ?_⟩
  · rw [hch]
    have hchain := hC.chain
    rw [hsplit] at hchain hcell
    exact hchain.unlink hcell hlast hptr
  · rw [hch, hC.list.mem_rest hsplit, hown, hC.own_iff]
  · rw [hch] at hy
    exact hC.hash y ((hC.list.mem_rest hsplit).mp hy).1 k (hkey y hy ▸ hk)
  · rw [hch] at hy hy'
    rw [hkey y hy, hkey y' hy'] at he
    exact hC.inj y ((hC.list.mem_rest hsplit).mp hy).1 y' ((hC.list.mem_rest hsplit).mp hy').1 he

theorem MapOk.unlink {pre post : List Nat} (hC : P.ChainOk h) (hM : P.MapOk m h)
    (hsplit : P.ch h = pre ++ o :: post) (hch : P'.ch h = pre ++ post)
    (hk : P.lay.keyAt o = some k)
    (hkey : ∀ y ∈ pre ++ post, P'.lay.keyAt y = P.lay.keyAt y)
    (hdat : ∀ y ∈ pre ++ post, P'.lay.datAt y = P.lay.datAt y) :
    P'.MapOk (update m k none) h := by
  have hmem : o ∈ P.ch h := by rw [hsplit]; simp
  intro k' hk' x
  by_cases hkk : k' = k
  · subst hkk
    rw [update_self]
    refine ⟨fun he => absurd he (by simp), ?_⟩
    rintro ⟨y, hy, hy1, -⟩
    rw [hk', hch] at hy
    rw [hkey y hy] at hy1
    have hy' := (hC.list.mem_rest hsplit).mp hy
    exact absurd (hC.inj y hy'.1 o hmem (hy1.trans hk.symm)) hy'.2
  rw [update_of_ne hkk, hM k' hk' x]
  unfold Holds
  rw [hk', hch]
  constructor
  · rintro ⟨y, hy, h1, h2⟩
    have hne : y ≠ o := by
      rintro rfl
      exact hkk (mem_unique h1 hk)
    have hy' := (hC.list.mem_rest hsplit).mpr ⟨hy, hne⟩
    exact ⟨y, hy', (hkey y hy').trans h1, (hdat y hy').trans h2⟩
  · rintro ⟨y, hy, h1, h2⟩
    exact ⟨y, ((hC.list.mem_rest hsplit).mp hy).1, (hkey y hy).symm.trans h1, (hdat y hy).symm.trans h2⟩

theorem FreeOk.unlink {pre post : List Nat} (hB : P.Base)
    (hF : P.FreeOk) (hsplit : P.fl = pre ++ o :: post) (hfl : P'.fl = pre ++ post)
    (hown : ∀ y, P'.own y = .free ↔ P.own y = .free ∧ y ≠ o)
    (hlast : P'.lay.ptrAt (lastCell freeOff pre) = P.lay.ptrAt o)
    (hptr : ∀ y ∈ freeOff :: (pre ++ post), y ≠ lastCell freeOff pre → P'.lay.ptrAt y = P.lay.ptrAt y)
    (hkey : ∀ y ∈ pre ++ post, P'.lay.keyAt y = P.lay.keyAt y) : P'.FreeOk := by
  have hcell := hF.list.cell_notMem hB freeOff_lt
  refine ⟨?_, fun y => ?_, fun y hy k hk => ?_⟩
  · rw [hfl]
    have hchain := hF.chain
    rw [hsplit] at hchain hcell
    exact hchain.unlink hcell hlast hptr
  · rw [hfl, hF.list.mem_rest hsplit, hown, hF.own_iff]
  · rw [hfl] at hy
    exact hF.blank y ((hF.list.mem_rest hsplit).mp hy).1 k (hkey y hy ▸ hk)

/-! ### Putting a record in front -/

theorem ChainOk.push (hC : P.ChainOk h) (hch : P'.ch h = o :: P.ch h)
    (hown : ∀ y, P'.own y = .chain h ↔ P.own y = .chain h ∨ y = o) (hne : o ≠ 0)
    (hcell : P'.lay.ptrAt (cellOf h) = some o) (ho : P'.lay.ptrAt o = P.lay.ptrAt (cellOf h))
    (hptr : ∀ y ∈ P.ch h, P'.lay.ptrAt y = P.lay.ptrAt y)
    (hkey : ∀ y ∈ P.ch h, P'.lay.keyAt y = P.lay.keyAt y)
    (hk : P'.lay.keyAt o = some k) (hhash : dbHash k = h)
    (hnew : ∀ y ∈ P.ch h, P.lay.keyAt y ≠ some k) : P'.ChainOk h := by
  refine ⟨?_, fun y => ?_, fun y hy k' hk' => ?_, fun y hy y' hy' he => ?_⟩
  · rw [hch]
    exact hC.chain.push ho hcell hne hptr
  · rw [hch, mem_cons, hC.own_iff, hown, or_comm]
  · rw [hch, mem_cons] at hy
    rcases hy with rfl | hy
    · rw [hk] at hk'
      exact (some.inj hk') ▸ hhash
    · exact hC.hash y hy k' (hkey y hy ▸ hk')
  · rw [hch, mem_cons] at hy hy'
    rcases hy with rfl | hy
    · rcases hy' with rfl | hy'
      · rfl
      · rw [hk, hkey y' hy'] at he
        exact absurd he.symm (hnew y' hy')
    rcases hy' with rfl | hy'
    · rw [hk, hkey y hy] at he
      exact absurd he (hnew y hy)
    · rw [hkey y hy, hkey y' hy'] at he
      exact hC.inj y hy y' hy' he

theorem MapOk.push (hM : P.MapOk m h) (hch : P'.ch h = o :: P.ch h)
    (hkey : ∀ y ∈ P.ch h, P'.lay.keyAt y = P.lay.keyAt y)
    (hdat : ∀ y ∈ P.ch h, P'.lay.datAt y = P.lay.datAt y)
    (hk : P'.lay.keyAt o = some k) (hx : P'.lay.datAt o = some x)
    (hnew : ∀ y ∈ P.ch h, P.lay.keyAt y ≠ some k) :
    P'.MapOk (update m k (some x)) h := by
  intro k' hk' x'
  by_cases hkk : k' = k
  · subst hkk
    rw [update_self]
    unfold Holds
    rw [hk', hch]
    constructor
    · intro he
      exact ⟨o, by simp, hk, hx.trans he⟩
    · rintro ⟨y, hy, h1, h2⟩
      rcases mem_cons.mp hy with rfl | hy
      · exact hx.symm.trans h2
      · exact absurd ((hkey y hy).symm.trans h1) (hnew y hy)
  · rw [update_of_ne hkk, hM k' hk' x']
    unfold Holds
    rw [hk', hch]
    constructor
    · rintro ⟨y, hy, h1, h2⟩
      exact ⟨y, by simp [hy], (hkey y hy).trans h1, (hdat y hy).trans h2⟩
    · rintro ⟨y, hy, h1, h2⟩
      rcases mem_cons.mp hy with rfl | hy
      · exact absurd (mem_unique h1 hk) hkk
      · exact ⟨y, hy, (hkey y hy).symm.trans h1, (hdat y hy).symm.trans h2⟩

theorem FreeOk.push (hF : P.FreeOk) (hfl : P'.fl = o :: P.fl)
    (hown : ∀ y, P'.own y = .free ↔ P.own y = .free ∨ y = o) (hne : o ≠ 0)
    (hcell : P'.lay.ptrAt freeOff = some o) (ho : P'.lay.ptrAt o = P.lay.ptrAt freeOff)
    (hptr : ∀ y ∈ P.fl, P'.lay.ptrAt y = P.lay.ptrAt y)
    (hkey : ∀ y ∈ P.fl, P'.lay.keyAt y = P.lay.keyAt y)
    (hblank : ∀ k, P'.lay.keyAt o = some k → ∀ b ∈ k, b = space) : P'.FreeOk := by
  refine ⟨?_, fun y => ?_, fun y hy k' hk' => ?_⟩
  · rw [hfl]
    exact hF.chain.push ho hcell hne hptr
  · rw [hfl, mem_cons, hF.own_iff, hown, or_comm]
  · rw [hfl, mem_cons] at hy
    rcases hy with rfl | hy
    · exact hblank k' hk'
    · exact hF.blank y hy k' (hkey y hy ▸ hk')

/-! ### Writing over a datum -/

theorem MapOk.overwrite (hC : P.ChainOk h) (hM : P.MapOk m h) (hch : P'.ch h = P.ch h)
    (ho : o ∈ P.ch h) (hk : P.lay.keyAt o = some k)
    (hkey : ∀ y ∈ P.ch h, P'.lay.keyAt y = P.lay.keyAt y)
    (hdat : ∀ y ∈ P.ch h, y ≠ o → P'.lay.datAt y = P.lay.datAt y)
    (hx : P'.lay.datAt o = some x) : P'.MapOk (update m k (some x)) h := by
  intro k' hk' x'
  unfold Holds
  rw [hk', hch]
  by_cases hkk : k' = k
  · subst hkk
    rw [update_self]
    constructor
    · intro he
      exact ⟨o, ho, (hkey o ho).trans hk, hx.trans he⟩
    · rintro ⟨y, hy, h1, h2⟩
      obtain rfl := hC.inj y hy o ho (((hkey y hy).symm.trans h1).trans hk.symm)
      exact hx.symm.trans h2
  rw [update_of_ne hkk, hM k' hk' x']
  unfold Holds
  rw [hk']
  have hne : ∀ {y}, P.lay.keyAt y = some k' → y ≠ o := by
    rintro y h1 rfl
    exact hkk (mem_unique h1 hk)
  constructor
  · rintro ⟨y, hy, h1, h2⟩
    exact ⟨y, hy, (hkey y hy).trans h1, (hdat y hy (hne h1)).trans h2⟩
  · rintro ⟨y, hy, h1, h2⟩
    have h1' := (hkey y hy).symm.trans h1
    exact ⟨y, hy, h1', (hdat y hy (hne h1')).symm.trans h2⟩

end Pic
end GokuStudio.Apue.Db

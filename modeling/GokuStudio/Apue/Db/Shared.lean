import GokuStudio.Apue.Db.History
import GokuStudio.Lib.Interleave

/-!
# A database that several processes use

The locks of `db.c` divide the database into territories. A hash chain belongs
to whoever has locked the byte of its head pointer, the free list to whoever
has locked the first byte, and a record that is on neither (taken from the free
list or just appended, not linked in yet) to the process that has it. The
append locks protect nothing that the picture would show: an append is one step
here, and the offset it found is all that counts.

The auxiliary state `Ghost` is the picture, the map the finished calls add up
to, and the log of those calls. `Rely p` says that the others leave the
territory of `p` alone, `Moves p` what a step of `p` may change, and `Inv` that
every chain nobody is writing is in order and means the map.
-/

namespace GokuStudio.Apue.Db

open Lib List Disk Layout
open Function (update update_of_ne update_self)

/-! ## §1 Locks on the table -/

/-- `p` has locked the byte at `c`, in the table of pointers. -/
def Disk.Has (d : Disk) (p : Nat) (kind : LockKind) (c : Nat) : Prop :=
  c < recOff ∧ (⟨p, .idx, kind, c, 1⟩ : Lock) ∈ d.locks

def Disk.Holding (d : Disk) (p c : Nat) : Prop := ∃ kind, d.Has p kind c
def Disk.Writing (d : Disk) (p c : Nat) : Prop := d.Has p .wr c

/-- The lock table respects the locks. -/
def Disk.Exclusive (d : Disk) : Prop := ∀ l ∈ d.locks, ∀ l' ∈ d.locks, l.conflicts l' = false

section Locks
variable {d : Disk} {p q c c' start : Nat} {kind kind' : LockKind} {f : File} {l : Lock}

theorem Lock.conflicts_comm (a b : Lock) : a.conflicts b = b.conflicts a := by
  simp only [Lock.conflicts, Lock.meets, bne, BEq.comm, BEq.comm]
  ac_rfl

theorem Disk.Writing.holding (h : d.Writing p c) : d.Holding p c := ⟨_, h⟩

theorem conflicts_same_byte (hpq : p ≠ q) (hkind : kind = .wr ∨ kind' = .wr) :
    (⟨p, .idx, kind, c, 1⟩ : Lock).conflicts ⟨q, .idx, kind', c, 1⟩ = true := by
  rcases hkind with rfl | rfl <;> simp [Lock.conflicts, Lock.meets, hpq]

theorem Disk.Exclusive.not_holding (hd : d.Exclusive) (h : d.Writing p c) (hq : q ≠ p) : ¬ d.Holding q c := by
  rintro ⟨kind, hk⟩
  have := hd _ h.2 _ hk.2
  rw [conflicts_same_byte hq.symm (.inl rfl)] at this
  exact Bool.noConfusion this

/-- Nobody else is in the way of a lock that is granted. -/
theorem Disk.not_writing_of_grants (hg : d.grants ⟨p, .idx, kind, c, 1⟩ = true)
    (hno : ¬ d.Holding p c) (q : Nat) : ¬ d.Writing q c := by
  intro hq
  by_cases hqp : q = p
  · exact hno (hqp ▸ hq.holding)
  have := all_eq_true.mp hg _ hq.2
  rw [conflicts_same_byte (fun e => hqp e.symm) (.inr rfl)] at this
  exact Bool.noConfusion this

theorem Disk.Exclusive.addLock (hd : d.Exclusive) (hg : d.grants l = true) : (d.addLock l).Exclusive := by
  have hnew : ∀ l' ∈ d.locks, l.conflicts l' = false := by
    intro l' hl'
    simpa using all_eq_true.mp hg l' hl'
  have hself : l.conflicts l = false := by simp [Lock.conflicts]
  intro a ha b hb
  rcases mem_addLock ha with rfl | ha'
  · rcases mem_addLock hb with rfl | hb'
    · exact hself
    · exact hnew b hb'
  rcases mem_addLock hb with rfl | hb'
  · rw [Lock.conflicts_comm]
    exact hnew a ha'
  · exact hd a ha' b hb'

theorem Disk.Exclusive.dropLock (hd : d.Exclusive) : (d.dropLock l).Exclusive :=
  fun a ha b hb => hd a (mem_dropLock ha) b (mem_dropLock hb)

/-- Which table locks there are after one less. -/
theorem Disk.has_drop : (d.dropLock l).Has q kind c ↔ d.Has q kind c ∧ l.covers ⟨q, .idx, kind, c, 1⟩ = false := by
  simp [Disk.Has, dropLock, and_assoc]

theorem Disk.has_add : (d.addLock l).Has q kind c ↔
    c < recOff ∧ ⟨q, .idx, kind, c, 1⟩ = l ∨ (d.dropLock l).Has q kind c := by
  simp [Disk.Has, addLock, dropLock, and_or_left]

theorem Disk.has_dropLock : (d.dropLock ⟨p, .idx, kind, c, 1⟩).Has q kind' c' ↔ d.Has q kind' c' ∧ ¬ (q = p ∧ c' = c) := by
  refine has_drop.trans (and_congr_right fun _ => ?_)
  simp only [Lock.covers, Bool.and_eq_false_iff, beq_eq_false_iff_ne, decide_eq_false_iff_not, Bool.or_eq_false_iff]
  grind

theorem Disk.has_addLock (hc : c < recOff) (hno : ¬ d.Holding p c) : (d.addLock ⟨p, .idx, kind, c, 1⟩).Has q kind' c' ↔
      (q = p ∧ kind' = kind ∧ c' = c) ∨ d.Has q kind' c' := by
  rw [has_add, has_dropLock]
  refine or_congr ⟨?_, ?_⟩ (and_iff_left_of_imp ?_)
  · rintro ⟨-, he⟩
    cases he
    exact ⟨rfl, rfl, rfl⟩
  · rintro ⟨rfl, rfl, rfl⟩
    exact ⟨hc, rfl⟩
  · -- the new lock replaces only locks of the same process on the same byte
    rintro h ⟨rfl, rfl⟩
    exact hno ⟨kind', h⟩

section
variable (hf : f = .dat ∨ recOff ≤ start)
include hf

/-- The append locks do not touch the table. -/
theorem Disk.has_dropLock_append : (d.dropLock ⟨p, f, .wr, start, 0⟩).Has q kind c ↔ d.Has q kind c := by
  refine has_drop.trans (and_iff_left_of_imp fun h => ?_)
  rcases hf with rfl | hs
  · simp [Lock.covers]
  · have : ¬ start ≤ c := by have := h.1; omega
    simp [Lock.covers, this]

theorem Disk.has_addLock_append : (d.addLock ⟨p, f, .wr, start, 0⟩).Has q kind c ↔ d.Has q kind c := by
  rw [has_add, has_dropLock_append hf]
  exact or_iff_right nofun

end

theorem Disk.has_exit : (d.exit p).Has q kind c ↔ d.Has q kind c ∧ q ≠ p := by
  simp only [Disk.Has, exit, mem_filter, bne_iff_ne, ne_eq, and_assoc]

theorem Disk.Exclusive.exit (hd : d.Exclusive) : (d.exit p).Exclusive :=
  fun a ha b hb => hd a (mem_of_mem_filter ha) b (mem_of_mem_filter hb)

end Locks

/-! ## §2 Serial histories -/

/-- A finished call: who made it, and what it returned; nothing if it stopped. -/
structure Event where
  pid : Nat
  op : Op
  res : Option Res
deriving DecidableEq, Repr

/-- What a call does to the map when it is the only one. A call that stops has
no effect, or it is a store that has lost the old record. -/
inductive Effect : Map → Event → Map → Prop where
  | returned {m : Map} {p : Nat} {op : Op} : Effect m ⟨p, op, some (Map.step m op).1⟩ (Map.step m op).2
  | stopped {m : Map} {p : Nat} {op : Op} : Effect m ⟨p, op, none⟩ m
  | lost {m : Map} {p : Nat} {key data : Bytes} {flag : Int} :
      Effect m ⟨p, .store key data flag, none⟩ (update m key none)

/-- The calls of the log, one after the other, lead from one map to the other. -/
inductive Serial : Map → List Event → Map → Prop where
  | nil {m : Map} : Serial m [] m
  | snoc {m m' m'' : Map} {es : List Event} {e : Event} : Serial m es m' → Effect m' e m'' → Serial m (es ++ [e]) m''

/-- The calls of one process, in the order of the log. -/
def callsOf (p : Nat) (log : List Event) : List (Op × Option Res) :=
  (log.filter fun e => e.pid == p).map fun e => (e.op, e.res)

theorem callsOf_snoc_self (p : Nat) (log : List Event) (op : Op) (res : Option Res) :
    callsOf p (log ++ [⟨p, op, res⟩]) = callsOf p log ++ [(op, res)] := by
  simp [callsOf]

variable {p : Nat}

theorem callsOf_snoc_other {q : Nat} (h : q ≠ p) (log : List Event) (op : Op)
    (res : Option Res) : callsOf q (log ++ [⟨p, op, res⟩]) = callsOf q log := by
  have hne : (p == q) = false := beq_eq_false_iff_ne.mpr fun e => h e.symm
  simp [callsOf, hne]

/-! ## §3 Territories -/

structure Ghost where
  pic : Pic
  map : Map
  log : List Event

/-- The records of this owner are `p`'s, when `p` has the locks `cells`. -/
def Owner.Within (cells : Nat → Prop) (p : Nat) : Owner → Prop
  | .proc q => q = p
  | .chain h => cells (cellOf h)
  | .free => cells freeOff
  | .nobody => False
  | .lost => False

/-- The cell `y`, in the table or of a record, is `p`'s. -/
def Pic.In (P : Pic) (cells : Nat → Prop) (p y : Nat) : Prop :=
  (y < recOff ∧ cells y) ∨ (recOff ≤ y ∧ (P.own y).Within cells p)

/-- Nothing is different at `y`. -/
structure Layout.SameAt (L L' : Layout) (y : Nat) : Prop where
  ptr : L'.ptrAt y = L.ptrAt y
  key : L'.keyAt y = L.keyAt y
  dat : L'.datAt y = L.datAt y
  reg : L'.regAt y = L.regAt y

theorem Layout.SameAt.refl (L : Layout) (y : Nat) : L.SameAt L y := ⟨rfl, rfl, rfl, rfl⟩

variable {y o : Nat} {ow : Owner} {r : IdxRec} {os : List Nat} {d : Disk}

theorem Layout.SameAt.trans {L L' L'' : Layout} (h : L.SameAt L' y) (h' : L'.SameAt L'' y) : L.SameAt L'' y :=
  ⟨h'.ptr.trans h.ptr, h'.key.trans h.key, h'.dat.trans h.dat, h'.reg.trans h.reg⟩

theorem Layout.SameAt.recAt {L L' : Layout} (h : L.SameAt L' y)
    (hr : L.recAt y = some r) : L'.recAt y = some r := by
  have hp := ptrAt_of_recAt hr
  have hk := keyAt_of_recAt hr
  have hg := regAt_of_recAt hr
  exact recAt_of_fields (h.ptr.trans hp) (h.key.trans hk) (h.reg.trans hg)

/-- The others leave alone what is `p`'s. -/
structure Rely (p : Nat) (w w' : Disk × Ghost) : Prop where
  locks : ∀ kind c, w'.1.Has p kind c ↔ w.1.Has p kind c
  own : ∀ y ow, ow.Within (w.1.Holding p) p → (w'.2.pic.own y = ow ↔ w.2.pic.own y = ow)
  same : ∀ y, w.2.pic.In (w.1.Holding p) p y → w.2.pic.lay.SameAt w'.2.pic.lay y
  ch : ∀ h, w.1.Holding p (cellOf h) → w'.2.pic.ch h = w.2.pic.ch h
  fl : w.1.Holding p freeOff → w'.2.pic.fl = w.2.pic.fl
  map : ∀ k, w.1.Holding p (cellOf (dbHash k)) → w'.2.map k = w.2.map k
  pend : w'.2.pic.pend p = w.2.pic.pend p
  bytes : ∀ off len, w.2.pic.pend p = some (off, len) → pread w'.2.pic.lay.dat off len = pread w.2.pic.lay.dat off len
  log : callsOf p w'.2.log = callsOf p w.2.log

section Rely
variable {w w' w'' : Disk × Ghost}

theorem Rely.of_locks {d' : Disk} {γ : Ghost}
    (h : ∀ kind c, d'.Has p kind c ↔ d.Has p kind c) : Rely p (d, γ) (d', γ) :=
  ⟨h, fun _ _ _ => Iff.rfl, fun _ _ => Layout.SameAt.refl _ _, fun _ _ => rfl,
    fun _ => rfl, fun _ _ => rfl, rfl, fun _ _ _ => rfl, rfl⟩

theorem Rely.refl (p : Nat) (w : Disk × Ghost) : Rely p w w := .of_locks fun _ _ => Iff.rfl

variable (h : Rely p w w')
include h

theorem Rely.holding : w'.1.Holding p = w.1.Holding p := by
  funext c
  exact propext (exists_congr fun kind => h.locks kind c)

/-- A cell stays in the territory. -/
theorem Rely.inside (hy : w.2.pic.In (w.1.Holding p) p y) : w'.2.pic.In (w'.1.Holding p) p y := by
  rw [h.holding]
  rcases hy with hy | hy
  · exact .inl hy
  refine .inr ⟨hy.1, ?_⟩
  rw [(h.own y _ hy.2).mpr rfl]
  exact hy.2

theorem Rely.trans (h' : Rely p w' w'') : Rely p w w'' := by
  have hh := h.holding
  refine ⟨fun kind c => (h'.locks kind c).trans (h.locks kind c), fun y ow how => ?_, fun y hy => ?_,
    fun c hc => ?_, fun hc => ?_, fun k hk => ?_, h'.pend.trans h.pend, fun off len hp => ?_,
    h'.log.trans h.log⟩
  · exact (h'.own y ow (by rw [hh]; exact how)).trans (h.own y ow how)
  · exact (h.same y hy).trans (h'.same y (h.inside hy))
  · exact (h'.ch c (by rw [hh]; exact hc)).trans (h.ch c hc)
  · exact (h'.fl (by rw [hh]; exact hc)).trans (h.fl hc)
  · exact (h'.map k (by rw [hh]; exact hk)).trans (h.map k hk)
  · exact (h'.bytes off len (h.pend.trans hp)).trans (h.bytes off len hp)

end Rely

/-- `p` may change the owner of such a record, and to such an owner. -/
def Owner.Open (cells : Nat → Prop) (p : Nat) (ow : Owner) : Prop := ow.Within cells p ∨ ow = .nobody ∨ ow = .lost

/-- A step of `p` changes only what is `p`'s to write. -/
structure Moves (p : Nat) (d : Disk) (γ γ' : Ghost) : Prop where
  own : ∀ y, γ'.pic.own y = γ.pic.own y ∨ ((γ.pic.own y).Open (d.Writing p) p ∧ (γ'.pic.own y).Open (d.Writing p) p)
  same : ∀ y, γ.pic.lay.SameAt γ'.pic.lay y ∨ γ.pic.In (d.Writing p) p y ∨ (recOff ≤ y ∧ γ.pic.own y = .nobody)
  ch : ∀ h, γ'.pic.ch h = γ.pic.ch h ∨ d.Writing p (cellOf h)
  fl : γ'.pic.fl = γ.pic.fl ∨ d.Writing p freeOff
  map : ∀ k, γ'.map k = γ.map k ∨ d.Writing p (cellOf (dbHash k))
  pend : ∀ q, q ≠ p → γ'.pic.pend q = γ.pic.pend q
  bytes : ∀ q off len, q ≠ p → γ.pic.pend q = some (off, len) → pread γ'.pic.lay.dat off len = pread γ.pic.lay.dat off len
  log : ∀ q, q ≠ p → callsOf q γ'.log = callsOf q γ.log

section Moves
variable {q : Nat} {d' : Disk} {γ γ' : Ghost}

/-- What one process holds, no other may write. -/
theorem Owner.Within.not_open (hd : d.Exclusive) (hq : q ≠ p) (h : ow.Within (d.Holding q) q) :
    ¬ ow.Open (d.Writing p) p := by
  rintro (how | rfl | rfl)
  · cases ow with
    | nobody | lost => exact h
    | proc r => exact hq (h.symm.trans how)
    | chain c | free => exact hd.not_holding how hq h
  · exact h
  · exact h

theorem Moves.own_iff (hm : Moves p d γ γ') (hno : ¬ ow.Open (d.Writing p) p) (y : Nat) :
    γ'.pic.own y = ow ↔ γ.pic.own y = ow := by
  rcases hm.own y with he | ⟨h1, h2⟩
  · rw [he]
  constructor
  · rintro rfl
    exact absurd h2 hno
  · rintro rfl
    exact absurd h1 hno

theorem Moves.rely (hm : Moves p d γ γ') (hd : d.Exclusive) (hq : q ≠ p)
    (hlocks : ∀ kind c, d'.Has q kind c ↔ d.Has q kind c) : Rely q (d, γ) (d', γ') := by
  have hnot : ∀ {c}, d.Holding q c → ¬ d.Writing p c := fun h hw => hd.not_holding hw hq h
  refine ⟨hlocks, fun y ow how => hm.own_iff (how.not_open hd hq) y, fun y hy => ?_, fun h hh => ?_, fun hh => ?_,
    fun k hk => ?_, hm.pend q hq, fun off len => hm.bytes q off len hq, hm.log q hq⟩
  · rcases hm.same y with hs | hin | ⟨hge, hnob⟩
    · exact hs
    · rcases hy with ⟨hlt, hy⟩ | ⟨hge, hy⟩
      · rcases hin with ⟨-, hin⟩ | ⟨hge, -⟩
        · exact absurd hin (hnot hy)
        · omega
      · rcases hin with ⟨hlt, -⟩ | ⟨-, hin⟩
        · omega
        · exact absurd (.inl hin) (hy.not_open hd hq)
    · rcases hy with ⟨hlt, -⟩ | ⟨-, hy⟩
      · omega
      · exact absurd (.inr (.inl hnob)) (hy.not_open hd hq)
  · exact (hm.ch h).resolve_right (hnot hh)
  · exact hm.fl.resolve_right (hnot hh)
  · exact (hm.map k).resolve_right (hnot hk)

end Moves

/-! ## §4 The invariant -/

/-- The files show the picture, every chain nobody is writing is in order and
means the map, and the map is what the log adds up to. -/
structure Inv (m₀ : Map) (d : Disk) (γ : Ghost) : Prop where
  idx : d.idx = γ.pic.lay.idx
  dat : d.dat = γ.pic.lay.dat
  base : γ.pic.Base
  exclusive : d.Exclusive
  chain : ∀ h, h < nhashDef → (∀ p, ¬ d.Writing p (cellOf h)) → γ.pic.ChainOk h ∧ γ.pic.MapOk γ.map h
  free : (∀ p, ¬ d.Writing p freeOff) → γ.pic.FreeOk
  serial : Serial m₀ γ.log γ.map

section Inv
variable {m₀ : Map} {p : Nat} {d d' : Disk} {γ γ' : Ghost} {h : Nat}

theorem not_open_chain (hno : ¬ d.Writing p (cellOf h)) : ¬ (Owner.chain h).Open (d.Writing p) p := by
  rintro (how | how | how)
  · exact hno how
  all_goals cases how

theorem not_open_free (hno : ¬ d.Writing p freeOff) : ¬ Owner.free.Open (d.Writing p) p := by
  rintro (how | how | how)
  · exact hno how
  all_goals cases how

section
variable (hm : Moves p d γ γ') (hB : γ.pic.Base)
include hm hB

/-- The cells of a list that `p` is not writing are the same after a step of `p`. -/
theorem Moves.same_list {c : Nat} (hc : c < recOff)
    (hcell : ¬ d.Writing p c) (hown : ∀ y, y ∈ os ↔ γ.pic.own y = ow) (hno : ¬ ow.Open (d.Writing p) p) :
    ∀ y ∈ c :: os, γ.pic.lay.SameAt γ'.pic.lay y := by
  intro y hy
  rcases mem_cons.mp hy with rfl | hy
  · rcases hm.same y with hs | (⟨-, hin⟩ | ⟨hge, -⟩) | ⟨hge, -⟩
    · exact hs
    · exact absurd hin hcell
    all_goals omega
  have hy := (hown y).mp hy
  rcases hm.same y with hs | (⟨hlt, -⟩ | ⟨-, hin⟩) | ⟨-, hnob⟩
  · exact hs
  · obtain ⟨r, hr⟩ := hB.exists_rec fun hnob => hno (.inr (.inl (hy.symm.trans hnob)))
    exact absurd (recAt_ge hr) (Nat.not_le.mpr hlt)
  · exact absurd (.inl (hy ▸ hin)) hno
  · exact absurd (.inr (.inl (hy.symm.trans hnob))) hno

theorem Moves.free (hno : ¬ d.Writing p freeOff) (hF : γ.pic.FreeOk) : γ'.pic.FreeOk := by
  have hsame := hm.same_list hB freeOff_lt hno hF.own_iff (not_open_free hno)
  exact hF.frame (hm.fl.resolve_right hno) (hm.own_iff (not_open_free hno)) (fun y hy => (hsame y hy).ptr)
    fun y hy => (hsame y (mem_cons_of_mem _ hy)).key

variable (hh : h < nhashDef) (hno : ¬ d.Writing p (cellOf h)) (hC : γ.pic.ChainOk h)
include hh hno hC

theorem Moves.same_chain : ∀ y ∈ cellOf h :: γ.pic.ch h, γ.pic.lay.SameAt γ'.pic.lay y :=
  hm.same_list hB (cellOf_lt hh) hno hC.own_iff (not_open_chain hno)

theorem Moves.chain : γ'.pic.ChainOk h := by
  have hsame := hm.same_chain hB hh hno hC
  exact hC.frame ((hm.ch h).resolve_right hno) (hm.own_iff (not_open_chain hno)) (fun y hy => (hsame y hy).ptr)
    fun y hy => (hsame y (mem_cons_of_mem _ hy)).key

theorem Moves.mapOk (hM : γ.pic.MapOk γ.map h) : γ'.pic.MapOk γ'.map h := by
  have hsame := hm.same_chain hB hh hno hC
  have hmap : ∀ k, dbHash k = h → γ'.map k = γ.map k := by
    rintro k rfl
    exact (hm.map k).resolve_right hno
  have hM' : γ'.pic.MapOk γ.map h := hM.frame ((hm.ch h).resolve_right hno)
    (fun y hy => (hsame y (mem_cons_of_mem _ hy)).key)
    fun y hy => (hsame y (mem_cons_of_mem _ hy)).dat
  intro k hk x
  rw [hmap k hk]
  exact hM' k hk x

end

variable (hi : Inv m₀ d γ) (hm : Moves p d γ γ') (hB : γ'.pic.Base) (hidx : d'.idx = γ'.pic.lay.idx)
  (hdat : d'.dat = γ'.pic.lay.dat) (hserial : Serial m₀ γ'.log γ'.map)

include hi hm hB hidx hdat hserial

/-- The invariant after a step of `p`. Where `p` gives a lock back, it owes the
chain in order. -/
theorem Inv.moves (hd : d'.Exclusive) (hlocks : ∀ q c, q ≠ p → (d'.Writing q c ↔ d.Writing q c))
    (hchain : ∀ h, h < nhashDef → d.Writing p (cellOf h) → ¬ d'.Writing p (cellOf h) → γ'.pic.ChainOk h ∧ γ'.pic.MapOk γ'.map h)
    (hfree : d.Writing p freeOff → ¬ d'.Writing p freeOff → γ'.pic.FreeOk) : Inv m₀ d' γ' := by
  have hnone : ∀ {c}, ¬ d.Writing p c → (∀ q, ¬ d'.Writing q c) → ∀ q, ¬ d.Writing q c := by
    intro c hp hno q hq
    by_cases hqp : q = p
    · exact hp (hqp ▸ hq)
    · exact hno q ((hlocks q c hqp).mpr hq)
  refine ⟨hidx, hdat, hB, hd, fun h hh hno => ?_, fun hno => ?_, hserial⟩
  · by_cases hp : d.Writing p (cellOf h)
    · exact hchain h hh hp (hno p)
    · obtain ⟨hC, hM⟩ := hi.chain h hh (hnone hp hno)
      exact ⟨hm.chain hi.base hh hp hC, hm.mapOk hi.base hh hp hC hM⟩
  · by_cases hp : d.Writing p freeOff
    · exact hfree hp (hno p)
    · exact hm.free hi.base hp (hi.free (hnone hp hno))

/-- A step of `p` that leaves the locks alone. -/
theorem Inv.moves_same (hlocks : d'.locks = d.locks) : Inv m₀ d' γ' ∧ ∀ q, q ≠ p → Rely q (d, γ) (d', γ') := by
  have hhas : ∀ q k c, d'.Has q k c ↔ d.Has q k c := fun q k c => by
    rw [Disk.Has, Disk.Has, hlocks]
  have hex : d'.Exclusive := by
    unfold Disk.Exclusive
    rw [hlocks]
    exact hi.exclusive
  exact ⟨hi.moves hm hB hidx hdat hserial hex (fun q c _ => hhas q .wr c)
    (fun h _ hw => absurd ((hhas p .wr _).mpr hw)) fun hw => absurd ((hhas p .wr _).mpr hw),
    fun q hq => hm.rely hi.exclusive hq (hhas q)⟩

end Inv

/-! ## §5 The rules of a process among others -/

def shared (m₀ : Map) (p : Nat) : Rules Disk Ghost where
  inv := Inv m₀
  rely := Rely p
  guar w w' := ∀ q, q ≠ p → Rely q w w'
  wait := True
  rely_refl := Rely.refl p
  rely_trans h h' := h.trans h'

theorem shared_views (m₀ : Map) (p : Nat) : Views (shared m₀ p) fun γ => γ.pic.lay :=
  ⟨Inv.idx, Inv.dat, fun hi => hi.base.wf, fun w q _ => Rely.refl q w⟩

theorem Moves.refl (p : Nat) (d : Disk) (γ : Ghost) : Moves p d γ γ :=
  ⟨fun _ => .inl rfl, fun _ => .inl (Layout.SameAt.refl _ _), fun _ => .inl rfl,
    .inl rfl, fun _ => .inl rfl, fun _ _ => rfl, fun _ _ _ _ _ => rfl, fun _ _ => rfl⟩

section Rules
variable {m₀ : Map} {d' : Disk} {γ : Ghost} {F : Err → Disk × Ghost → Prop}

/-- The same picture under other locks, as long as the process gives up none. -/
theorem Inv.setLocks (hi : Inv m₀ d γ) (hidx : d'.idx = d.idx) (hdat : d'.dat = d.dat)
    (hd : d'.Exclusive) (hkeep : ∀ q c, d.Writing q c → d'.Writing q c) : Inv m₀ d' γ :=
  ⟨hidx.trans hi.idx, hdat.trans hi.dat, hi.base, hd, fun h hh hno => hi.chain h hh fun q hq => hno q (hkeep q _ hq),
    fun hno => hi.free fun q hq => hno q (hkeep q _ hq), hi.serial⟩

theorem shared_harmless {f : File} {start : Nat} (hf : f = .dat ∨ recOff ≤ start) :
    Harmless (shared m₀ p) ⟨p, f, .wr, start, 0⟩ := by
  refine ⟨fun _ => .inl trivial, fun {d γ} hi hg => ⟨?_, fun q _ => ?_, ?_⟩, fun {d γ} hi => ⟨?_, fun q _ => ?_, ?_⟩⟩
  · exact Inv.setLocks hi rfl rfl (Disk.Exclusive.addLock hi.exclusive hg) fun q c => (has_addLock_append hf).mpr
  · exact Rely.of_locks fun _ _ => has_addLock_append hf
  · exact Rely.of_locks fun _ _ => has_addLock_append hf
  · exact Inv.setLocks hi rfl rfl (Disk.Exclusive.dropLock hi.exclusive) fun q c => (has_dropLock_append hf).mpr
  · exact Rely.of_locks fun _ _ => has_dropLock_append hf
  · exact Rely.of_locks fun _ _ => has_dropLock_append hf

/-- What a process knows of itself: its table locks, its finished calls, the
records it has in hand and the datum it has appended. -/
structure At (p : Nat) (S : List (LockKind × Nat)) (evs : List (Op × Option Res))
    (mine : List Nat) (pend : Option (Nat × Nat)) (w : Disk × Ghost) : Prop where
  locks : ∀ kind c, w.1.Has p kind c ↔ (kind, c) ∈ S
  log : callsOf p w.2.log = evs
  own : ∀ y, w.2.pic.own y = .proc p ↔ y ∈ mine
  pend : w.2.pic.pend p = pend

variable {S : List (LockKind × Nat)} {evs : List (Op × Option Res)} {mine : List Nat}
  {pend : Option (Nat × Nat)} {w w' : Disk × Ghost} {c : Nat} {kind : LockKind} {Q : Unit → Disk × Ghost → Prop}

theorem At.stable (hA : At p S evs mine pend w) (hr : Rely p w w') : At p S evs mine pend w' :=
  ⟨fun kind c => (hr.locks kind c).trans (hA.locks kind c), hr.log.trans hA.log,
    fun y => (hr.own y (.proc p) rfl).trans (hA.own y), hr.pend.trans hA.pend⟩

/-- The picture changes, locks and log do not. -/
theorem At.setPic (hA : At p S evs mine pend (d, γ)) (hlocks : d'.locks = d.locks)
    (P' : Pic) {mine' : List Nat} (hown : ∀ y, P'.own y = .proc p ↔ y ∈ mine')
    {pend' : Option (Nat × Nat)} (hpend : P'.pend p = pend') :
    At p S evs mine' pend' (d', { γ with pic := P' }) := by
  refine ⟨fun kind c => ?_, hA.log, hown, hpend⟩
  rw [← hA.locks, Disk.Has, Disk.Has, hlocks]

theorem At.holding (hA : At p S evs mine pend w) (hS : (kind, c) ∈ S) :
    w.1.Holding p c := ⟨kind, (hA.locks kind c).mpr hS⟩

theorem At.writing (hA : At p S evs mine pend w) (hS : (.wr, c) ∈ S) : w.1.Writing p c := (hA.locks .wr c).mpr hS

/-- `writew_lock` or `readw_lock` of one byte of the table. -/
def lockByte (p : Nat) (kind : LockKind) (c : Nat) : DbM Unit :=
  match kind with
  | .wr => writewLock p .idx c 1
  | .rd => readwLock p .idx c 1

theorem shared_lock (hc : c < recOff) (hA : At p S evs mine pend (d, γ))
    (hS : ∀ k, (k, c) ∉ S)
    (h : (shared m₀ p).Later (d, γ) fun d' γ' => (∀ q, ¬ d'.Writing q c) →
      At p ((kind, c) :: S) evs mine pend (d'.addLock ⟨p, .idx, kind, c, 1⟩, γ') →
      Inv m₀ (d'.addLock ⟨p, .idx, kind, c, 1⟩) γ' →
      Q () (d'.addLock ⟨p, .idx, kind, c, 1⟩, γ')) :
    Safe (shared m₀ p) Q F (lockByte p kind c) (d, γ) := by
  have hstep : (shared m₀ p).Later (d, γ) fun d' γ' => (True ∨ d'.grants ⟨p, .idx, kind, c, 1⟩ = true) ∧
      (d'.grants ⟨p, .idx, kind, c, 1⟩ = true →
        (shared m₀ p).Puts (d', γ') (d'.addLock ⟨p, .idx, kind, c, 1⟩) (Q ())) := by
    intro d' γ' hr hi
    refine ⟨.inl trivial, fun hg => ?_⟩
    have hA' := hA.stable hr
    have hno : ¬ d'.Holding p c := by
      rintro ⟨k, hk⟩
      exact hS k ((hA'.locks k c).mp hk)
    have hinv : Inv m₀ (d'.addLock ⟨p, .idx, kind, c, 1⟩) γ' := hi.setLocks rfl rfl (hi.exclusive.addLock hg)
        fun q c' hq => (has_addLock hc hno).mpr (.inr hq)
    refine ⟨γ', hinv, fun q hq => Rely.of_locks fun k c' => ?_,
      h d' γ' hr hi (not_writing_of_grants hg hno) ⟨fun k c' => ?_, hA'.log, hA'.own, hA'.pend⟩ hinv⟩
    · rw [has_addLock hc hno]
      exact or_iff_right fun he => hq he.1
    · rw [has_addLock hc hno, hA'.locks, mem_cons, Prod.mk.injEq]
      exact or_congr_left (and_iff_right rfl)
  cases kind with
  | wr | rd => exact hstep

/-- Giving a lock back, with the chain it protects in order. -/
theorem shared_unlock (evs' : List (Op × Option Res)) (hA : At p ((kind, c) :: S) evs mine pend (d, γ))
    (hS : ∀ k, (k, c) ∉ S)
    (h : (shared m₀ p).Later (d, γ) fun d' γ' => ∃ γ'', γ''.pic = γ'.pic ∧
      Moves p d' γ' γ'' ∧ Serial m₀ γ''.log γ''.map ∧ callsOf p γ''.log = evs' ∧
      (∀ h, h < nhashDef → c = cellOf h → kind = .wr → γ''.pic.ChainOk h ∧ γ''.pic.MapOk γ''.map h) ∧
      (c = freeOff → γ''.pic.FreeOk) ∧
      ∀ d'', At p S evs' mine pend (d'', γ'') → Inv m₀ d'' γ'' → Q () (d'', γ'')) :
    Safe (shared m₀ p) Q F (unLock p .idx c 1) (d, γ) := by
  refine safe_update fun d' γ' hr hi => ?_
  obtain ⟨γ'', hpic, hm, hserial, hlog, hchain, hfree, hQ⟩ := h d' γ' hr hi
  have hA' := hA.stable hr
  -- only this lock is gone, and only for this process
  have hkept : ∀ {c'}, d'.Writing p c' → ¬ (d'.dropLock ⟨p, .idx, .wr, c, 1⟩).Writing p c' → c' = c ∧ kind = .wr := by
    intro c' hw hno
    have hcc : c' = c := by
      by_contra hne
      exact hno (has_dropLock.mpr ⟨hw, fun he => hne he.2⟩)
    refine ⟨hcc, ?_⟩
    have := (hA'.locks .wr c').mp hw
    rw [hcc] at this
    rcases mem_cons.mp this with he | he
    · exact (Prod.mk.inj he).1.symm
    · exact absurd he (hS _)
  have hinv : Inv m₀ (d'.dropLock ⟨p, .idx, .wr, c, 1⟩) γ'' := by
    refine hi.moves hm (hpic ▸ hi.base) (hi.idx.trans (by rw [hpic])) (hi.dat.trans (by rw [hpic])) hserial
      hi.exclusive.dropLock (fun q c' hq => ?_) (fun h hh hw hno => ?_) fun hw hno => hfree (hkept hw hno).1.symm
    · exact has_dropLock.trans (and_iff_left fun he => hq he.1)
    · obtain ⟨hcc, hk⟩ := hkept hw hno
      exact hchain h hh hcc.symm hk
  refine ⟨γ'', hinv, fun q hq => hm.rely hi.exclusive hq fun k c' => ?_, hQ _ ⟨fun k c' => ?_, hlog, ?_, ?_⟩ hinv⟩
  · exact has_dropLock.trans (and_iff_left fun he => hq he.1)
  · rw [has_dropLock, hA'.locks, mem_cons, Prod.mk.injEq]
    constructor
    · rintro ⟨⟨-, hcc⟩ | hmem, hne⟩
      · exact absurd ⟨rfl, hcc⟩ hne
      · exact hmem
    · intro hmem
      exact ⟨.inr hmem, fun he => hS k (he.2 ▸ hmem)⟩
  · intro y
    rw [hpic]
    exact hA'.own y
  · rw [hpic]
    exact hA'.pend

end Rules

/-! ## §6 Writing in one's own territory -/

/-- The layout `L'` is sound and differs from the picture's at `c` only. -/
structure Edit (P : Pic) (L' : Layout) (c : Nat) : Prop where
  wf : L'.Wf
  datOk : DatOk L' P.pend
  same : ∀ y, y ≠ c → P.lay.SameAt L' y
  key_none : ∀ y, L'.keyAt y = none ↔ P.lay.keyAt y = none
  bytes : ∀ q off len, P.pend q = some (off, len) → pread L'.dat off len = pread P.lay.dat off len

section Edit
variable {P : Pic} {c v : Nat} {k x : Bytes}

theorem Pic.Base.edit_setPtr (hB : P.Base) {v0 : Nat} (hc : P.lay.ptrAt c = some v0)
    (hv : v ≤ ptrMax) : Edit P (P.lay.setPtr c v) c := by
  have hL := hB.looks.setPtr hc hv
  refine ⟨hL.wf, hL.datOk, fun y hy => ⟨?_, ?_, ?_, ?_⟩, fun y => ?_, fun q off len _ => ?_⟩
  · rw [hL.ptrAt, update_of_ne hy]
  · rw [hL.keyAt]
  · rw [hL.datAt]
  · rw [hL.regAt]
  · rw [hL.keyAt]
  · rw [setPtr_dat]

variable (hB : P.Base) (hr : P.lay.recAt o = some r)
include hB hr

theorem Pic.Base.looks_rekey (hv : v ≤ ptrMax) (hlen : k.length = r.key.length) (hnul : NoNul k) :
    Looks (P.lay.writeRec o r v k) P.pend (update P.lay.ptrAt o (some v))
      (update P.lay.keyAt o (some k)) P.lay.datAt P.lay.regAt P.lay.sizes := by
  have hkey := keyAt_of_recAt hr
  have hreg := regAt_of_recAt hr
  exact hB.looks.rekey hkey hreg hv hlen hnul

theorem Pic.Base.edit_writeRec (hv : v ≤ ptrMax) (hlen : k.length = r.key.length) (hnul : NoNul k) :
    Edit P (P.lay.writeRec o r v k) o := by
  have hL := hB.looks_rekey hr hv hlen hnul
  have hkey := keyAt_of_recAt hr
  refine ⟨hL.wf, hL.datOk, fun y hy => ⟨?_, ?_, ?_, ?_⟩, fun y => ?_, fun q off len _ => rfl⟩
  · rw [hL.ptrAt, update_of_ne hy]
  · rw [hL.keyAt, update_of_ne hy]
  · rw [hL.datAt]
  · rw [hL.regAt]
  · rw [hL.keyAt]
    by_cases hy : y = o
    · rw [hy, update_self, hkey]
      simp
    · rw [update_of_ne hy]

theorem Pic.Base.looks_writeDat (hx : NoNul x) (hlen : x.length + 1 = r.datlen) :
    Looks (P.lay.writeDat r x) P.pend P.lay.ptrAt P.lay.keyAt
      (update P.lay.datAt o (some x)) P.lay.regAt P.lay.sizes := by
  have hreg := regAt_of_recAt hr
  exact hB.looks.write hreg hx hlen

theorem Pic.Base.edit_writeDat (hx : NoNul x) (hlen : x.length + 1 = r.datlen) : Edit P (P.lay.writeDat r x) o := by
  have hL := hB.looks_writeDat hr hx hlen
  refine ⟨hL.wf, hL.datOk, fun y hy => ⟨?_, ?_, ?_, ?_⟩, fun y => ?_, fun q off len hp => ?_⟩
  · rw [hL.ptrAt]
  · rw [hL.keyAt]
  · rw [hL.datAt, update_of_ne hy]
  · rw [hL.regAt]
  · rw [hL.keyAt]
  · have hin := (hB.dat.has hr).bound
    have ha : Apart off len r.datoff (x ++ [newline]).length := by
      rw [length_append, length_singleton, hlen]
      exact hB.dat.pend_apart hp hr
    exact pread_pwrite_disjoint (by omega) ha

end Edit

/-- The picture's groups are rearranged within the territory of `p`. -/
structure Regroup (p : Nat) (d : Disk) (P P' : Pic) : Prop where
  own : ∀ y, P'.own y = P.own y ∨ ((P.own y).Open (d.Writing p) p ∧ (P'.own y).Open (d.Writing p) p)
  nobody : ∀ y, P'.own y = .nobody ↔ P.own y = .nobody
  ch : ∀ h, P'.ch h = P.ch h ∨ d.Writing p (cellOf h)
  fl : P'.fl = P.fl ∨ d.Writing p freeOff
  pend : P'.pend = P.pend

theorem Regroup.refl (p : Nat) (d : Disk) (P : Pic) (L' : Layout) : Regroup p d P { P with lay := L' } :=
  ⟨fun _ => .inl rfl, fun _ => Iff.rfl, fun _ => .inl rfl, .inl rfl, rfl⟩

theorem Owner.Within.ne_nobody {cells : Nat → Prop} (h : ow.Within cells p) : ow ≠ .nobody := by
  rintro rfl
  exact h

theorem ch_update {h : Nat} {ch : Nat → List Nat} (hw : d.Writing p (cellOf h)) (h' : Nat) :
    update ch h os h' = ch h' ∨ d.Writing p (cellOf h') := by
  by_cases hh : h' = h
  · exact .inr (hh ▸ hw)
  · exact .inl (update_of_ne hh ..)

/-- One record changes hands, and both owners are `p`'s. -/
theorem Regroup.hand {P P' : Pic} (hown : P'.own = update P.own o ow)
    (hfrom : (P.own o).Within (d.Writing p) p) (hto : ow.Within (d.Writing p) p)
    (hch : ∀ h, P'.ch h = P.ch h ∨ d.Writing p (cellOf h)) (hfl : P'.fl = P.fl ∨ d.Writing p freeOff)
    (hpend : P'.pend = P.pend) : Regroup p d P P' := by
  refine ⟨fun y => ?_, fun y => ?_, hch, hfl, hpend⟩
  all_goals
    rw [hown]
    by_cases hy : y = o
  · rw [hy, update_self]
    exact .inr ⟨.inl hfrom, .inl hto⟩
  · exact .inl (update_of_ne hy ..)
  · rw [hy, update_self]
    exact iff_of_false hto.ne_nobody hfrom.ne_nobody
  · rw [update_of_ne hy]

variable {db : DB}

section Write
variable {m₀ : Map} {p : Nat} {d d' : Disk} {γ : Ghost} {F : Err → Disk × Ghost → Prop}

/-- A write in one's own territory keeps the invariant and disturbs nobody. -/
theorem Inv.edit (hi : Inv m₀ d γ) {P' : Pic} {c : Nat} (he : Edit γ.pic P'.lay c)
    (hin : γ.pic.In (d.Writing p) p c) (hg : Regroup p d γ.pic P') (hidx : d'.idx = P'.lay.idx)
    (hdat : d'.dat = P'.lay.dat) (hlocks : d'.locks = d.locks) :
    Inv m₀ d' { γ with pic := P' } ∧ ∀ q, q ≠ p → Rely q (d, γ) (d', { γ with pic := P' }) := by
  have hm : Moves p d γ { γ with pic := P' } := by
    refine ⟨hg.own, fun y => ?_, hg.ch, hg.fl, fun _ => .inl rfl, fun q _ => by rw [hg.pend],
      fun q off len _ => he.bytes q off len, fun _ _ => rfl⟩
    by_cases hy : y = c
    · exact .inr (.inl (hy ▸ hin))
    · exact .inl (he.same y hy)
  have hB : P'.Base := by
    refine ⟨he.wf, hg.pend ▸ he.datOk, fun y => ?_⟩
    rw [hg.nobody, hi.base.own_iff, recAt_eq_none_iff, recAt_eq_none_iff]
    exact (he.key_none y).symm
  exact hi.moves_same hm hB hidx hdat hi.serial hlocks

variable {Q : DB → Disk × Ghost → Prop}

theorem shared_dbWriteptr {c v : Nat} (hv : v ≤ ptrMax) (h : (shared m₀ p).Later (d, γ) fun d' γ' =>
      (∃ v0, γ'.pic.lay.ptrAt c = some v0) ∧ γ'.pic.In (d'.Writing p) p c ∧ ∃ P' : Pic,
      P'.lay = γ'.pic.lay.setPtr c v ∧ Regroup p d' γ'.pic P' ∧
      ∀ d'', d''.locks = d'.locks → Inv m₀ d'' { γ' with pic := P' } →
        Q { db with idxpos := c + ptrSz } (d'', { γ' with pic := P' })) :
    Safe (shared m₀ p) Q F (dbWriteptr db (c : Int) (v : Int)) (d, γ) := by
  refine safe_dbWriteptr (shared_views m₀ p) hv fun d' γ' hr hi => ?_
  obtain ⟨⟨v0, hc⟩, hin, P', hlay, hg, hQ⟩ := h d' γ' hr hi
  have he : Edit γ'.pic P'.lay c := hlay ▸ hi.base.edit_setPtr hc hv
  obtain ⟨hi', hguar⟩ := @Inv.edit m₀ p d' { d' with idx := (γ'.pic.lay.setPtr c v).idx } γ' hi P' c
    he hin hg (by rw [hlay]) (by rw [hlay, setPtr_dat]; exact hi.dat) rfl
  exact ⟨⟨v0, hc⟩, { γ' with pic := P' }, hi', hguar, hQ _ rfl hi'⟩

theorem shared_dbWriteidx {v : Nat} {key : Bytes}
    (hoff : db.datoff = r.datoff) (hlen : db.datlen = r.datlen) (hok : r.Ok) (hv : v ≤ ptrMax)
    (hk : key.length = r.key.length) (hnul : NoNul key) (h : (shared m₀ p).Later (d, γ) fun d' γ' =>
      γ'.pic.lay.recAt o = some r ∧ γ'.pic.In (d'.Writing p) p o ∧ ∃ P' : Pic,
      P'.lay = γ'.pic.lay.writeRec o r v key ∧ Regroup p d' γ'.pic P' ∧
      ∀ d'', d''.locks = d'.locks → Inv m₀ d'' { γ' with pic := P' } →
        Q (db.wroteIdx o (r.rekey v key)) (d'', { γ' with pic := P' })) :
    Safe (shared m₀ p) Q F (dbWriteidx p db key (o : Int) .seekSet (v : Int)) (d, γ) := by
  have hok' := hok.rekey hv hk hnul
  have hoff' : db.datoff = (r.rekey v key).datoff := hoff
  refine safe_dbWriteidx_at hoff' hlen (shared_views m₀ p) hok' fun d' γ' hrely hi => ?_
  obtain ⟨hr, hin, P', hlay, hg, hQ⟩ := h d' γ' hrely hi
  have he : Edit γ'.pic P'.lay o := hlay ▸ hi.base.edit_writeRec hr hv hk hnul
  obtain ⟨hi', hguar⟩ := @Inv.edit m₀ p d' { d' with idx := (γ'.pic.lay.writeRec o r v key).idx } γ'
    hi P' o he hin hg (by rw [hlay]) (by rw [hlay]; exact hi.dat) rfl
  exact ⟨⟨r, hr, IdxRec.length_encode_rekey hok hv hk hnul⟩, { γ' with pic := P' }, hi', hguar, hQ _ rfl hi'⟩

theorem shared_dbWritedat {x : Bytes} (hx : NoNul x)
    (hlen : x.length + 1 = r.datlen) (h : (shared m₀ p).Later (d, γ) fun d' γ' =>
      γ'.pic.lay.recAt o = some r ∧ γ'.pic.In (d'.Writing p) p o ∧
      ∀ d'', d''.locks = d'.locks → Inv m₀ d'' { γ' with pic := { γ'.pic with lay := γ'.pic.lay.writeDat r x } } →
        Q { db with datoff := r.datoff, datlen := x.length + 1 }
          (d'', { γ' with pic := { γ'.pic with lay := γ'.pic.lay.writeDat r x } })) :
    Safe (shared m₀ p) Q F (dbWritedat p db x (r.datoff : Int) .seekSet) (d, γ) := by
  refine safe_dbWritedat_at (shared_views m₀ p) fun d' γ' hrely hi => ?_
  obtain ⟨hr, hin, hQ⟩ := h d' γ' hrely hi
  obtain ⟨hi', hguar⟩ := @Inv.edit m₀ p d' { d' with dat := (γ'.pic.lay.writeDat r x).dat } γ' hi
    { γ'.pic with lay := γ'.pic.lay.writeDat r x } o (hi.base.edit_writeDat hr hx hlen) hin
    (Regroup.refl ..) hi.idx rfl rfl
  exact ⟨_, hi', hguar, hQ _ rfl hi'⟩

end Write

/-! ## §7 Appending -/

/-- `p` has appended a datum that no record names yet. -/
def Pic.appendPend (P : Pic) (p : Nat) (x : Bytes) : Pic :=
  { P with
    lay := P.lay.setDat (P.lay.dat ++ (x ++ [newline]))
    pend := update P.pend p (some (P.lay.dat.length, x.length + 1)) }

/-- `p` has appended the record for its datum. -/
def Pic.appendRec (P : Pic) (p : Nat) (r : IdxRec) : Pic :=
  { P with
    lay := P.lay.addRec r
    own := update P.own P.lay.idxEnd (.proc p)
    pend := update P.pend p none }

section Append

variable {m₀ : Map} {d' : Disk} {γ : Ghost} {P : Pic} {x : Bytes} {F : Err → Disk × Ghost → Prop}
  {Q : DB → Disk × Ghost → Prop}

theorem Pic.Base.same_appendPend (hB : P.Base) (y : Nat) : P.lay.SameAt (P.appendPend p x).lay y :=
  ⟨rfl, rfl, hB.dat.datAt_append _ y, rfl⟩

theorem Pic.Base.appendPend (hB : P.Base) (hx : NoNul x) : (P.appendPend p x).Base :=
  ⟨hB.wf.setDat _, hB.dat.append hx, hB.own_iff⟩

theorem Pic.hasDatum_appendPend (P : Pic) (p : Nat) (hx : NoNul x) :
    HasDatum (P.appendPend p x).lay.dat P.lay.dat.length (x.length + 1) x := by
  change HasDatum (P.lay.dat ++ (x ++ [newline])) _ _ _
  rw [← pwrite_end]
  exact HasDatum.write_same hx le_rfl

theorem moves_appendPend (hB : γ.pic.Base) : Moves p d γ { γ with pic := γ.pic.appendPend p x } := by
  refine ⟨fun _ => .inl rfl, fun y => .inl (hB.same_appendPend y), fun _ => .inl rfl,
    .inl rfl, fun _ => .inl rfl, fun q hq => update_of_ne hq .., fun q off len _ hp => ?_,
    fun _ _ => rfl⟩
  obtain ⟨y, hy⟩ := hB.dat.pend_has hp
  exact pread_append_left hy.bound

theorem Pic.same_appendRec (hy : y ≠ P.lay.idxEnd) : P.lay.SameAt (P.appendRec p r).lay y := by
  refine ⟨?_, ?_, ?_, ?_⟩
  · exact (ptrAt_addRec ..).trans (if_neg hy)
  · exact (keyAt_addRec ..).trans (if_neg hy)
  · exact (datAt_addRec ..).trans (if_neg hy)
  · change (P.lay.addRec r).regAt y = _
    rw [regAt, recAt_addRec, if_neg hy, regAt]

theorem Pic.Base.appendRec (hB : P.Base) (hok : r.Ok) (hp : P.pend p = some (r.datoff, r.datlen)) :
    (P.appendRec p r).Base := by
  refine ⟨hB.wf.addRec hok, hB.dat.addRec hp, fun y => ?_⟩
  change update P.own P.lay.idxEnd (.proc p) y = _ ↔ (P.lay.addRec r).recAt y = none
  rw [recAt_addRec]
  by_cases hy : y = P.lay.idxEnd
  · rw [hy, update_self, if_pos rfl]
    simp
  · rw [update_of_ne hy, if_neg hy]
    exact hB.own_iff y

theorem moves_appendRec (hB : γ.pic.Base) : Moves p d γ { γ with pic := γ.pic.appendRec p r } := by
  refine ⟨fun y => ?_, fun y => ?_, fun _ => .inl rfl, .inl rfl, fun _ => .inl rfl,
    fun q hq => update_of_ne hq .., fun _ _ _ _ _ => rfl, fun _ _ => rfl⟩
  · by_cases hy : y = γ.pic.lay.idxEnd
    · refine .inr ⟨.inr (.inl (hy ▸ hB.own_idxEnd)), .inl ?_⟩
      change (update γ.pic.own γ.pic.lay.idxEnd (.proc p) y).Within _ p
      rw [hy, update_self]
      rfl
    · exact .inl (update_of_ne hy ..)
  · by_cases hy : y = γ.pic.lay.idxEnd
    · exact .inr (.inr ⟨hy ▸ Pic.idxEnd_ge _, hy ▸ hB.own_idxEnd⟩)
    · exact .inl (Pic.same_appendRec hy)

theorem shared_dbWritedat_end (hx : NoNul x)
    (h : (shared m₀ p).Later (d, γ) fun d' γ' => ∀ d'', d''.locks = d'.locks →
      (shared m₀ p).Later (d'', { γ' with pic := γ'.pic.appendPend p x }) fun d3 γ3 =>
        Q { db with datoff := γ'.pic.lay.dat.length, datlen := x.length + 1 } (d3, γ3)) :
    Safe (shared m₀ p) Q F (dbWritedat p db x 0 .seekEnd) (d, γ) := by
  refine safe_dbWritedat_end (shared_views m₀ p) (shared_harmless (.inl rfl)) fun d' γ' hr hi => ?_
  obtain ⟨hi', hguar⟩ := @Inv.moves_same m₀ p d'
    { d' with dat := γ'.pic.lay.dat ++ (x ++ [newline]) } γ' _ hi (moves_appendPend hi.base)
    (hi.base.appendPend hx) hi.idx rfl hi.serial rfl
  exact ⟨_, hi', hguar, h d' γ' hr hi _ rfl⟩

theorem shared_dbWriteidx_end (hoff : db.datoff = r.datoff) (hlen : db.datlen = r.datlen)
    (hok : r.Ok)
    (h : (shared m₀ p).Later (d, γ) fun d' γ' =>
      γ'.pic.pend p = some (r.datoff, r.datlen) ∧ ∀ d'', d''.locks = d'.locks →
      Inv m₀ d'' { γ' with pic := γ'.pic.appendRec p r } →
      (shared m₀ p).Later (d'', { γ' with pic := γ'.pic.appendRec p r }) fun d3 γ3 =>
        Q (db.wroteIdx γ'.pic.lay.idxEnd r) (d3, γ3)) :
    Safe (shared m₀ p) Q F (dbWriteidx p db r.key 0 .seekEnd (r.ptr : Int)) (d, γ) := by
  refine safe_dbWriteidx_end hoff hlen (shared_views m₀ p) (shared_harmless (.inr le_rfl)) hok fun d' γ' hr hi => ?_
  obtain ⟨hp, hQ⟩ := h d' γ' hr hi
  obtain ⟨hi', hguar⟩ := @Inv.moves_same m₀ p d' { d' with idx := (γ'.pic.lay.addRec r).idx } γ' _ hi
    (moves_appendRec hi.base) (hi.base.appendRec hok hp) rfl hi.dat hi.serial rfl
  exact ⟨_, hi', hguar, hQ _ rfl hi'⟩

end Append
end GokuStudio.Apue.Db

import GokuStudio.Apue.Db.Scan
import GokuStudio.Apue.Db.Calls

/-!
# Serializability

Any number of processes work on one database, each with a handle of its own and
any list of calls; their reads, writes and locks follow each other in any order
that the locks allow. `serializable`: whenever nobody is in the middle of a
call, there is one serial order of all the calls that keeps the order of each
process, gives every call the result it had, and leads to the map that the files
hold.

A process that stops (`err_dump`, `err_quit`) drops its locks. Its last call has
no result; it had no effect, or it was a store that had already removed the old
record.
-/

namespace GokuStudio.Apue.Db

open Lib Function List Disk

/-! ## §1 A process that stops -/

/-- What `p` had in hand belongs to nobody any more, but stays in the files. -/
def Pic.forget (P : Pic) (p : Nat) : Pic :=
  { P with
    own := fun y => if P.own y = .proc p then .lost else P.own y
    pend := update P.pend p none }

/-- Under the other processes' eyes `p` can leave the files as `d'`, with no
lock and nothing in hand, and with the calls `evs` in the log. -/
def Leaves (m₀ : Map) (p : Nat) (d : Disk) (γ : Ghost) (d' : Disk) (evs : List (Op × Option Res)) : Prop :=
  ∃ γ', Inv m₀ d' γ' ∧ (∀ q, q ≠ p → Rely q (d, γ) (d', γ')) ∧ At p [] evs [] none (d', γ')

section Exit

variable {m₀ m' : Map} {p : Nat} {d : Disk} {γ : Ghost} {evs : List (Op × Option Res)} {op : Op}
  {P : Pic} {pend : Option (Nat × Nat)} {mine : List Nat}

theorem Pic.forget_own_iff {ow : Owner} (hp : ow ≠ .proc p) (hl : ow ≠ .lost) (y : Nat) :
    (P.forget p).own y = ow ↔ P.own y = ow := by
  change (if P.own y = .proc p then Owner.lost else P.own y) = ow ↔ _
  by_cases hy : P.own y = .proc p
  · rw [if_pos hy, hy]
    exact ⟨fun he => absurd he.symm hl, fun he => absurd he.symm hp⟩
  · rw [if_neg hy]

theorem Pic.forget_own_ne (y : Nat) : (P.forget p).own y ≠ .proc p := by
  change (if P.own y = .proc p then Owner.lost else P.own y) ≠ _
  by_cases hy : P.own y = .proc p
  · rw [if_pos hy]
    exact Owner.noConfusion
  · rwa [if_neg hy]

theorem Pic.Base.forget (hB : P.Base) (p : Nat) : (P.forget p).Base := by
  refine ⟨hB.wf, hB.dat.forget p, fun y => ?_⟩
  rw [Pic.forget_own_iff Owner.noConfusion Owner.noConfusion]
  exact hB.own_iff y

theorem moves_forget {e : Event} (he : e.pid = p) (hmap : ∀ k, m' k = γ.map k ∨ d.Writing p (cellOf (dbHash k))) :
    Moves p d γ ⟨γ.pic.forget p, m', γ.log ++ [e]⟩ := by
  refine ⟨fun y => ?_, fun y => .inl (Layout.SameAt.refl _ _), fun _ => .inl rfl, .inl rfl,
    hmap, fun q hq => update_of_ne hq .., fun _ _ _ _ _ => rfl, fun q hq => ?_⟩
  · by_cases hy : γ.pic.own y = .proc p
    · refine .inr ⟨?_, ?_⟩
      · rw [hy]
        exact .inl rfl
      · change (if γ.pic.own y = .proc p then Owner.lost else γ.pic.own y).Open _ p
        rw [if_pos hy]
        exact .inr (.inr rfl)
    · exact .inl (if_neg hy)
  · obtain ⟨pid, op, res⟩ := e
    obtain rfl : pid = p := he
    exact callsOf_snoc_other hq ..

/-- A process ends with the chains it was writing in order, meaning `m'`. -/
theorem Inv.exit {S : List (LockKind × Nat)} (hi : Inv m₀ d γ) (hA : At p S evs mine pend (d, γ))
    (hmap : ∀ k, m' k = γ.map k ∨ d.Writing p (cellOf (dbHash k)))
    (heff : Effect γ.map ⟨p, op, none⟩ m')
    (hchain : ∀ h, h < nhashDef → d.Writing p (cellOf h) → γ.pic.ChainOk h ∧ γ.pic.MapOk m' h)
    (hfree : ¬ d.Writing p freeOff) :
    Leaves m₀ p d γ (d.exit p) (evs ++ [(op, none)]) := by
  have hm : Moves p d γ ⟨γ.pic.forget p, m', γ.log ++ [⟨p, op, none⟩]⟩ := moves_forget rfl hmap
  refine ⟨_, hi.moves hm (hi.base.forget p) hi.idx hi.dat (hi.serial.snoc heff) hi.exclusive.exit (fun q c hq => ?_)
    (fun h hh hw _ => ?_) (fun hw _ => absurd hw hfree),
    fun q hq => hm.rely hi.exclusive hq fun k c => ?_, ⟨fun k c => ?_, ?_, fun y => ?_, ?_⟩⟩
  · exact has_exit.trans (and_iff_left hq)
  · obtain ⟨hC, hM⟩ := hchain h hh hw
    exact ⟨hC.frame rfl (Pic.forget_own_iff Owner.noConfusion Owner.noConfusion) (fun _ _ => rfl)
      fun _ _ => rfl, hM.frame rfl (fun _ _ => rfl) fun _ _ => rfl⟩
  · exact has_exit.trans (and_iff_left hq)
  · rw [has_exit]
    simp
  · rw [callsOf_snoc_self, hA.log]
  · exact iff_of_false (Pic.forget_own_ne y) not_mem_nil
  · exact update_self ..

theorem Mid.exit {key : Bytes} {kind : LockKind}
    {os : List Nat} {v v' : Option Bytes} (hM : Mid m₀ p key kind evs mine pend os v v' (d, γ))
    (hkind : kind = .wr ∨ v' = v)
    (heff : ∀ m : Map, m key = v → Effect m ⟨p, op, none⟩ (update m key v')) :
    Leaves m₀ p d γ (d.exit p) (evs ++ [(op, none)]) := by
  refine hM.inv.exit hM.here (fun k => ?_) (heff _ hM.on.old) (fun h hh hw => ?_) fun hw => ?_
  · by_cases hk : k = key
    · rcases hkind with rfl | rfl
      · exact .inr (by rw [hk]; exact hM.writing)
      · exact .inl (by rw [hk, hM.on.old, update_self])
    · exact .inl (update_of_ne hk ..)
  · have := mem_singleton.mp ((hM.here.locks _ _).mp hw)
    obtain rfl := cellOf_inj (Prod.mk.inj this).2
    exact ⟨hM.on.chain, hM.on.means⟩
  · exact notMem_chainLock _ _ _ ((hM.here.locks _ _).mp hw)

theorem Halting.exit (h : Halting m₀ p evs op (d, γ)) (hi : Inv m₀ d γ) :
    Leaves m₀ p d γ (d.exit p) (evs ++ [(op, none)]) := by
  cases h with
  | early hA =>
    have hno : ∀ c, ¬ d.Writing p c := fun c hw =>
      absurd ((hA.locks _ _).mp hw) not_mem_nil
    exact hi.exit hA (fun _ => .inl rfl) .stopped (fun h _ hw => absurd hw (hno _)) (hno _)
  | same hM =>
    refine hM.exit (.inr rfl) fun m hm => ?_
    rw [← hm, update_eq_self]
    exact .stopped
  | lost hM => exact hM.exit (.inl rfl) fun m _ => .lost

end Exit

/-! ## §2 The protocol -/

def dbService : Service Disk Err DB Op Res where
  prog p db op := op.prog p db
  exit p d := d.exit p

/-- Calls that have returned, as the log has them. -/
def returned (done : List (Op × Res)) : List (Op × Option Res) := done.map fun c => (c.1, some c.2)

/-- Between two calls a process has no lock and no record in hand, and the log
has the calls it made. -/
def dbProtocol (m₀ : Map) : Protocol dbService Ghost where
  inv := Inv m₀
  rely := Rely
  rely_refl := Rely.refl
  rely_trans _ _ _ _ h h' := h.trans h'
  proper := Op.CStrings
  ready p done w := At p [] (returned done) [] none w
  halting p done op w := Halting m₀ p (returned done) op w
  halted p done op w := At p [] (returned done ++ [(op, none)]) [] none w
  ready_stable hr _ hA := hA.stable hr
  halting_stable hr hi h := h.stable hr hi
  halted_stable hr _ hA := hA.stable hr

section Protocol
variable {m₀ : Map} {p : Nat} {d : Disk} {γ : Ghost} {evs : List (Op × Option Res)}

/-- A call that is refused at once counts when it starts. -/
theorem Inv.refuse {op : Op} {r : Res} (hi : Inv m₀ d γ) (hA : At p [] evs [] none (d, γ))
    (hstep : Map.step γ.map op = (r, γ.map)) :
    Leaves m₀ p d γ d (evs ++ [(op, some r)]) := by
  have hm : Moves p d γ { γ with log := γ.log ++ [⟨p, op, some r⟩] } :=
    ⟨fun _ => .inl rfl, fun _ => .inl (Layout.SameAt.refl _ _), fun _ => .inl rfl, .inl rfl,
      fun _ => .inl rfl, fun _ _ => rfl, fun _ _ _ _ _ => rfl, fun _ hq => callsOf_snoc_other hq ..⟩
  have heff : Effect γ.map ⟨p, op, some r⟩ γ.map := by
    have := @Effect.returned γ.map p op
    rwa [hstep] at this
  obtain ⟨hi', hr⟩ := @Inv.moves_same m₀ p d d γ _ hi hm hi.base hi.idx hi.dat (hi.serial.snoc heff) rfl
  refine ⟨_, hi', hr, hA.locks, ?_, hA.own, hA.pend⟩
  rw [callsOf_snoc_self, hA.log]

theorem dbProtocol_calls (m₀ : Map) : (dbProtocol m₀).Calls := by
  intro p done db op d γ hc hA hi
  have hready : ∀ {op r w}, At p [] (returned done ++ [(op, some r)]) [] none w →
      (dbProtocol m₀).ready p (done ++ [(op, r)]) w := by
    intro op r w h
    change At p [] (returned (done ++ [(op, r)])) [] none w
    rwa [returned, map_append]
  cases op with
  | store key data flag =>
    by_cases hflag : BadFlag flag
    · have hstep : Map.step γ.map (.store key data flag) = (.rc (-1), γ.map) := by
        rw [Map.step, Map.store, if_pos hflag]
      obtain ⟨γ', hi', hr, hA'⟩ := hi.refuse hA hstep
      refine ⟨γ', hi', hr, ?_⟩
      have hprog : dbService.prog p db (.store key data flag) = .ret (db, .rc (-1)) := by
        change (dbStore p db key data flag >>= _) = _
        rw [dbStore, if_pos hflag]
        rfl
      rw [hprog]
      exact hready hA'
    · refine ⟨γ, hi, fun q _ => Rely.refl q _, safe_bind.mpr ?_⟩
      exact (shared_dbStore hc.1 hc.2 hflag hA).mono (fun a w => hready) fun _ _ h => h
  | delete key =>
    refine ⟨γ, hi, fun q _ => Rely.refl q _, safe_bind.mpr ?_⟩
    exact (shared_dbDelete hA).mono (fun a w => hready) fun _ _ h => h
  | fetch key =>
    refine ⟨γ, hi, fun q _ => Rely.refl q _, safe_bind.mpr ?_⟩
    exact (shared_dbFetch hA).mono (fun a w => hready) fun _ _ h => h

theorem dbProtocol_exits (m₀ : Map) : (dbProtocol m₀).Exits := fun _ _ _ _ _ h => h.exit

end Protocol

/-! ## §3 Serial orders -/

/-- A database that nobody is using, and the map it holds. -/
def Database (d : Disk) (m : Map) : Prop := d.locks = [] ∧ ∃ P : Pic, P.Good ∧ P.Means m ∧ FilesOf d P

/-- On the hash chain of `key`, as the files have it, there is a record of `key`
with the datum `x`. -/
def Disk.Stores (d : Disk) (key x : Bytes) : Prop := ∃ (L : Layout) (os : List Nat), L.Wf ∧ d.idx = L.idx ∧ d.dat = L.dat ∧
    Chain L.ptrAt (cellOf (dbHash key)) os ∧ ∃ o ∈ os, L.keyAt o = some key ∧ L.datAt o = some x

/-- Processes with handles and calls to make, about to begin. -/
def clients (d : Disk) (handle : Nat → DB) (todo : Nat → List Op) : Conf Disk Err DB Op Res :=
  ⟨d, fun p => ⟨todo p, [], .idle (handle p)⟩⟩

/-- The calls a process has made; the one it stopped in has no result. -/
def calls (t : Thread Disk Err DB Op Res) : List (Op × Option Res) := returned t.done ++ match t.status with
    | .stopped op => [(op, none)]
    | _ => []

section Serializable
variable {m₀ m : Map} {d d₀ : Disk} {γ : Ghost} {P : Pic} {C : Conf Disk Err DB Op Res}

theorem Layout.Wf.files_inj {L L' : Layout} (hL : L.Wf) (hL' : L'.Wf) (hidx : L.idx = L'.idx)
    (hdat : L.dat = L'.dat) : L = L' := by
  obtain ⟨htable, hrecs⟩ := hL.idx_inj hL' hidx
  obtain ⟨table, recs, dat⟩ := L
  obtain ⟨table', recs', dat'⟩ := L'
  obtain rfl : table = table' := htable
  obtain rfl : recs = recs' := hrecs
  obtain rfl : dat = dat' := hdat
  rfl

theorem FilesOf.stores_iff (hG : P.Good) (hM : P.Means m) (h : FilesOf d P) {key x : Bytes} :
    m key = some x ↔ d.Stores key x := by
  rw [hM _ key rfl x]
  constructor
  · rintro ⟨o, ho, hk, hx⟩
    exact ⟨P.lay, P.ch (dbHash key), hG.base.wf, h.1, h.2, (hG.chain _ (dbHash_lt key)).chain, o, ho, hk, hx⟩
  · rintro ⟨L, os, hL, hidx, hdat, hos, o, ho, hk, hx⟩
    -- the files can be read in one way only
    obtain rfl : L = P.lay := hL.files_inj hG.base.wf (hidx.symm.trans h.1) (hdat.symm.trans h.2)
    rw [hos.unique (hG.chain _ (dbHash_lt key)).chain] at ho
    exact ⟨o, ho, hk, hx⟩

/-- At the start nothing has happened yet. -/
theorem holds_clients (hd : Database d₀ m₀) (handle : Nat → DB) (todo : Nat → List Op)
    (hc : ∀ p, ∀ op ∈ todo p, op.CStrings) :
    ∃ γ, (dbProtocol m₀).Holds (clients d₀ handle todo) γ := by
  obtain ⟨hlocks, P, hG, hM, hfiles⟩ := hd
  refine ⟨⟨P, m₀, []⟩, ⟨hfiles.1, hfiles.2, hG.base, ?_, fun h hh _ => ⟨hG.chain h hh, hM h⟩,
    fun _ => hG.free, .nil⟩, fun p => ⟨hc p, ?_⟩⟩
  · intro l hl
    change l ∈ d₀.locks at hl
    rw [hlocks] at hl
    exact absurd hl not_mem_nil
  · refine ⟨fun kind c => ?_, rfl, fun y => ?_, (hG.idle p).1⟩
    · refine iff_of_false (fun hh => ?_) not_mem_nil
      have := hh.2
      change _ ∈ d₀.locks at this
      rw [hlocks] at this
      exact not_mem_nil this
    · exact iff_of_false ((hG.idle p).2 y) not_mem_nil

/-- Between calls every process has given back all it had. -/
theorem quiet_at (h : (dbProtocol m₀).Holds C γ) (hq : C.Quiet) (p : Nat) :
    At p [] (calls (C.threads p)) [] none (C.shared, γ) := by
  have hloc := (h.2 p).2
  rcases hq p with ⟨handle, hst⟩ | ⟨op, hst⟩
  · rw [hst] at hloc
    rw [calls, hst, append_nil]
    exact hloc
  · rw [hst] at hloc
    rw [calls, hst]
    exact hloc

theorem quiet_good (h : (dbProtocol m₀).Holds C γ) (hq : C.Quiet) :
    γ.pic.Good ∧ γ.pic.Means γ.map ∧ FilesOf C.shared γ.pic := by
  have hi : Inv m₀ C.shared γ := h.1
  have hno : ∀ p c, ¬ C.shared.Writing p c := fun p c hw =>
    absurd (((quiet_at h hq p).locks _ _).mp hw) not_mem_nil
  have hchain := fun h' hh => hi.chain h' hh fun p => hno p _
  refine ⟨⟨hi.base, fun h' hh => (hchain h' hh).1, hi.free fun p => hno p _, fun p => ?_⟩,
    fun h' k hk x => ?_, hi.idx, hi.dat⟩
  · refine ⟨(quiet_at h hq p).pend, fun o ho => ?_⟩
    exact absurd (((quiet_at h hq p).own o).mp ho) not_mem_nil
  · exact (hchain h' (hk ▸ dbHash_lt k)).2 k hk x

/-- **Serializability.** Whatever the interleaving, once nobody is in a call
there is a serial order of all the calls, in each process's own order, with the
results that were returned, and the files hold the map it leads to. -/
theorem serializable (hd : Database d₀ m₀) (handle : Nat → DB) (todo : Nat → List Op)
    (hc : ∀ p, ∀ op ∈ todo p, op.CStrings)
    (hrun : Steps dbService (clients d₀ handle todo) C) (hq : C.Quiet) :
    ∃ (log : List Event) (m : Map), Serial m₀ log m ∧ (∀ p, callsOf p log = calls (C.threads p)) ∧
      (∀ key x, m key = some x ↔ C.shared.Stores key x) ∧
      ((∀ key, m key ≠ none → sep ∉ key) → ∀ key, C.shared.fetch key = .ok (m key)) := by
  obtain ⟨γ₀, h₀⟩ := holds_clients hd handle todo hc
  obtain ⟨γ, h⟩ := Protocol.steps (dbProtocol_calls m₀) (dbProtocol_exits m₀) h₀ hrun
  have hi : Inv m₀ C.shared γ := h.1
  obtain ⟨hG, hM, hfiles⟩ := quiet_good h hq
  exact ⟨γ.log, γ.map, hi.serial, fun p => (quiet_at h hq p).log,
    fun key x => hfiles.stores_iff hG hM, hfiles.fetch_eq_map hG hM⟩

/-- `db_open` leaves an empty map and no lock. -/
theorem database_open {pid : Nat} {db : DB} (hlocks : d₀.locks = [])
    (hopen : run (dbOpen pid) d₀ = (.ok db, d)) : Database d fun _ => none := by
  have halone : ∀ l ∈ d₀.locks, l.pid = pid := by simp [hlocks]
  obtain ⟨d', hopen', hS⟩ := run_dbOpen halone
  obtain rfl : d = d' := congrArg Prod.snd (hopen.symm.trans hopen')
  refine ⟨?_, Pic.empty, Pic.good_empty, Pic.means_empty, hS.files⟩
  rw [run_dbOpen_eq halone] at hopen
  rw [← (Prod.mk.inj hopen).2]
  simp [dropLock, addLock, setFile_locks, hlocks, Lock.covers]

/-- One process stores, and another is refused for its flag. -/
theorem serializable_first : ∃ (d : Disk) (C : Conf Disk Err DB Op Res), Database d (fun _ => none) ∧
      (C.threads 1).done = [(.store [97] [120] flagInsert, .rc 0)] ∧
      (C.threads 2).done = [(.store [97] [121] 9, .rc (-1))] ∧
      ∃ (log : List Event) (m : Map), Serial (fun _ => none) log m ∧ (∀ p, callsOf p log = calls (C.threads p)) ∧
        (∀ key x, m key = some x ↔ C.shared.Stores key x) ∧
        ((∀ key, m key ≠ none → sep ∉ key) → ∀ key, C.shared.fetch key = .ok (m key)) := by
  have halone : ∀ l ∈ (⟨[], [], []⟩ : Disk).locks, l.pid = 1 := by simp
  obtain ⟨d, hopen, hS⟩ := run_dbOpen halone
  have hlim : InLimits 1 (dbRewind dbAlloc) d [.store [97] [120] flagInsert, .fetch [97]] :=
    inLimits_first halone hopen (by decide) (by decide) (by decide)
  have hproper : (Op.store [97] [120] flagInsert).Proper := by simp [Op.Proper, ProperKey, sep]
  obtain ⟨db, d', -, hrun, -, -⟩ := (sound_open hS).step hproper hlim.1
  have hres : (Map.step (fun _ => none) (.store [97] [120] flagInsert)).1 = .rc 0 := by
    simp [Map.step, Map.store, flagInsert, flagReplace, flagStore]
  rw [hres] at hrun
  have hd := database_open rfl hopen
  let todo : Nat → List Op := fun p =>
    if p = 1 then [.store [97] [120] flagInsert] else if p = 2 then [.store [97] [121] 9] else []
  have h1 : Steps dbService (clients d (fun _ => dbRewind dbAlloc) todo) _ := Steps.call (p := 1) rfl hrun
  have h2 := h1.trans (Steps.call (p := 2) rfl rfl)
  refine ⟨d, _, hd, rfl, rfl, serializable hd _ todo (fun p op ho => ?_) h2 fun p => .inl ?_⟩
  · by_cases hp1 : p = 1
    · simp only [todo, if_pos hp1, mem_singleton] at ho
      subst ho
      exact ⟨by decide, by decide⟩
    by_cases hp2 : p = 2
    · simp only [todo, if_neg hp1, if_pos hp2, mem_singleton] at ho
      subst ho
      exact ⟨by decide, by decide⟩
    · simp [todo, hp1, hp2] at ho
  · by_cases hp2 : p = 2
    · exact ⟨_, by rw [hp2, Conf.setThread_self]⟩
    rw [Conf.setThread_of_ne _ _ hp2]
    by_cases hp1 : p = 1
    · exact ⟨_, by rw [hp1]; exact congrArg Thread.status (Conf.setThread_self ..)⟩
    · exact ⟨_, congrArg Thread.status (Conf.setThread_of_ne _ _ hp1)⟩

end Serializable
end GokuStudio.Apue.Db

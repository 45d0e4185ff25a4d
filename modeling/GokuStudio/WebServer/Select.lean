import GokuStudio.Lib.Runs
import GokuStudio.WebServer.Table
import Mathlib.Data.Finset.Card

/-!
# The select loop (`http_server_main_loop_select`)

`select` replaces the set of watched descriptors by the set of those that are
ready, so the loop rebuilds the set from the table before every call
(`reset_fd_set_and_maxfd`). It always does. But a client that has just connected
is put into the set of *ready* descriptors, and if a ready client sits in a slot
behind the new one's, the new one is read from in the same round.

`watching_iff` says in which runs this does not happen.
-/

namespace GokuStudio.WebServer

open Lib Function List

/-! ## §1 The loop -/

/-- Not in the code: `reported`, what `select` has reported in this round. -/
structure Select extends Table where
  rfset : Finset Nat
  maxfd : Nat
  reported : Finset Nat

/-- What the world does in a round: `select` fails, or it leaves these
descriptors in the set; `accept` returns a descriptor or fails; a client that is
read from does this. -/
inductive SelectRound where
  | failed
  | ready (fds : Finset Nat) (accept : Option Nat) (outcome : Nat → Outcome)

/-- The set and its maximum, rebuilt from the slots below `maxinx`. -/
def resetFdSetAndMaxfd (maxfdAssume maxinx : Nat) (client : Nat → Option Nat) : Finset Nat × Nat :=
  (List.range maxinx).foldl (fun acc j =>
    match client j with
    | none => acc
    | some fd => (insert fd acc.1, if acc.2 < fd then fd else acc.2)) ({maxfdAssume}, maxfdAssume)

namespace Select

section
variable (listenedfd : Nat) (s : Select)

def start : Select where
  status := .running
  slot := fun _ => none
  maxinx := 1
  conns := ∅
  called := []
  rfset := {listenedfd}
  maxfd := listenedfd
  reported := ∅

def add (i connfd : Nat) : Select :=
  { s with
    toTable := { s.toTable.put i connfd with maxinx := if s.maxinx ≤ i then i + 1 else s.maxinx }
    maxfd := if s.maxfd < connfd then connfd else s.maxfd }

/-- The walk over the slots. -/
def scan (outcome : Nat → Outcome) : List Nat → Nat → Select → Select
  | [], _, s => s
  | i :: is, nready, s =>
    match s.slot i with
    | none => scan outcome is nready s
    | some fd =>
      if fd ∈ s.rfset then
        let s := { s with toTable := s.handle i fd (outcome i) }
        if s.status ≠ .running then s
        else if nready ≤ 1 then s
        else scan outcome is (nready - 1) s
      else scan outcome is nready s

/-- Back to the call of `select`, if the loop goes on. -/
def rewatch : Select :=
  if s.status = .running then
    { s with
      rfset := (resetFdSetAndMaxfd listenedfd s.maxinx s.slot).1
      maxfd := (resetFdSetAndMaxfd listenedfd s.maxinx s.slot).2 }
  else s

/-- `select` returns. -/
def fresh (fds : Finset Nat) : Select :=
  { s with rfset := fds, reported := fds, called := [] }

def round (r : SelectRound) : Select :=
  if s.status = .running then
    match r with
    | .failed => { s.fresh ∅ with status := .returned }
    | .ready fds accept outcome =>
      let nready := fds.card
      let s := s.fresh fds
      if nready = 0 then s
      else if listenedfd ∈ s.rfset then
        match accept with
        | none => { s with status := .returned }
        | some connfd =>
          -- `FD_SET` writes behind the set if the descriptor is too large
          if connfd < maxFdSetsize then
            let s := { s with rfset := insert connfd s.rfset }
            match freeSlot s.slot with
            | none => { s with status := .exited }
            | some i =>
              let s := s.add i connfd
              if nready ≤ 1 then s.rewatch listenedfd
              else (s.scan outcome (List.range s.maxinx) (nready - 1)).rewatch listenedfd
          else { s with status := .undefined }
      else (s.scan outcome (List.range s.maxinx) nready).rewatch listenedfd
  else s

/-! ## §2 What should hold -/

/-- At a call of `select` the set holds the listening descriptor and the open
connections, and `maxfd` is the largest of them; and only descriptors that
`select` reported are read from. -/
structure Watching : Prop where
  defined : s.status ≠ .undefined
  rfset : s.status = .running → s.rfset = insert listenedfd s.conns
  maxfd : s.status = .running → s.maxfd ∈ s.rfset ∧ ∀ fd ∈ s.rfset, fd ≤ s.maxfd
  called : ∀ c ∈ s.called, c.2 ∈ s.reported

/-- There are rounds as long as the loop runs. What the kernel promises:
`select`, which waits without a limit, reports some of the descriptors it was
given, and `accept` returns a descriptor that is not in use. -/
def Promised : SelectRound → Prop
  | .failed => s.status = .running
  | .ready fds accept _ => s.status = .running ∧ fds.Nonempty ∧ (∀ fd ∈ fds, fd ∈ s.rfset ∧ fd ≤ s.maxfd) ∧
        ∀ fd, accept = some fd → fd ≠ listenedfd ∧ fd ∉ s.conns

instance (listenedfd : Nat) (s : Select) : ∀ r, Decidable (s.Promised listenedfd r)
  | .failed => inferInstanceAs (Decidable (s.status = .running))
  | .ready fds accept _ => inferInstanceAs (Decidable (s.status = .running ∧ fds.Nonempty ∧
      (∀ fd ∈ fds, fd ∈ s.rfset ∧ fd ≤ s.maxfd) ∧ ∀ fd ∈ accept, fd ≠ listenedfd ∧ fd ∉ s.conns))

/-- When somebody connects, the descriptor fits into the set, and in the slots
behind the one that is free first nobody is ready, or the loop ends at a client
before it. -/
def Fine : SelectRound → Prop
  | .failed => True
  | .ready fds accept outcome => listenedfd ∈ fds → ∀ connfd, accept = some connfd →
      connfd < maxFdSetsize ∧ ∀ i, freeSlot s.slot = some i → (∀ j fd, i < j → s.slot j = some fd → fd ∉ fds) ∨
          ∃ j fd, j < i ∧ s.slot j = some fd ∧ fd ∈ fds ∧ (outcome j).ends = true

/-- The table holds the open connections below `maxinx`. -/
structure Tabled : Prop where
  holds : s.toTable.Holds 0
  lt_maxinx : ∀ i fd, s.slot i = some fd → i < s.maxinx
  not_listening : listenedfd ∉ s.conns

end

/-! ## §3 The set -/

section Reset
variable {listenedfd maxinx : Nat} {client : Nat → Option Nat}

theorem reset_spec (maxinx : Nat) : let reset := resetFdSetAndMaxfd listenedfd maxinx client
    (∀ fd, fd ∈ reset.1 ↔ fd = listenedfd ∨ ∃ j < maxinx, client j = some fd) ∧
      reset.2 ∈ reset.1 ∧ ∀ fd ∈ reset.1, fd ≤ reset.2 := by
  induction maxinx with
  | zero => simp [resetFdSetAndMaxfd]
  | succ n ih =>
    rw [resetFdSetAndMaxfd, range_succ, foldl_append, ← resetFdSetAndMaxfd, foldl_cons, foldl_nil]
    generalize resetFdSetAndMaxfd listenedfd n client = reset at ih
    obtain ⟨hmem, hin, hmax⟩ := ih
    cases hn : client n with
    | none =>
      refine ⟨fun fd => ?_, hin, hmax⟩
      rw [hmem]
      simp only [Nat.lt_succ_iff_lt_or_eq, or_and_right, exists_or, exists_eq_left, hn]
      simp
    | some x =>
      refine ⟨fun fd => ?_, ?_, fun fd hfd => ?_⟩
      · rw [Finset.mem_insert, hmem]
        simp only [Nat.lt_succ_iff_lt_or_eq, or_and_right, exists_or, exists_eq_left, hn,
          Option.some.injEq, eq_comm (a := x)]
        rw [or_comm, or_assoc]
      · dsimp only
        split
        · exact Finset.mem_insert_self ..
        · exact Finset.mem_insert_of_mem hin
      · dsimp only at hfd ⊢
        rcases Finset.mem_insert.mp hfd with rfl | hfd
        · split <;> omega
        · have := hmax fd hfd
          split <;> omega

/-- What `reset_fd_set_and_maxfd` makes of a table that is in order. -/
theorem Tabled.rewatch {s : Select} (h : s.Tabled listenedfd) (hst : s.status ≠ .undefined)
    (hcalled : ∀ c ∈ s.called, c.2 ∈ s.reported) :
    (s.rewatch listenedfd).Tabled listenedfd ∧ (s.rewatch listenedfd).Watching listenedfd := by
  rw [Select.rewatch]
  split
  · obtain ⟨hmem, hin, hmax⟩ := @reset_spec listenedfd s.slot s.maxinx
    refine ⟨⟨⟨h.holds.mem_conns_iff, h.holds.inj⟩, h.lt_maxinx, h.not_listening⟩,
      ⟨hst, fun _ => ?_, fun _ => ⟨hin, hmax⟩, hcalled⟩⟩
    ext fd
    rw [hmem, Finset.mem_insert, h.holds.mem_conns_iff]
    constructor
    · rintro (h' | ⟨j, -, hj⟩)
      · exact .inl h'
      · exact .inr ⟨j, Nat.zero_le j, hj⟩
    · rintro (h' | ⟨j, -, hj⟩)
      · exact .inl h'
      · exact .inr ⟨j, h.lt_maxinx j fd hj, hj⟩
  · rename_i hrun
    exact ⟨h, ⟨hst, fun hr => absurd hr hrun, fun hr => absurd hr hrun, hcalled⟩⟩

end Reset

/-! ## §4 The walk -/

/-- The slots of `is` whose descriptor is in the set. -/
def hits (slot : Nat → Option Nat) (set : Finset Nat) (is : List Nat) : List (Nat × Nat) :=
  is.filterMap fun i => match slot i with
    | none => none
    | some fd => if fd ∈ set then some (i, fd) else none

/-- The clients that are read from, up to the first at which the loop ends. -/
def visits (outcome : Nat → Outcome) : List (Nat × Nat) → List (Nat × Nat)
  | [] => []
  | c :: cs => if (outcome c.1).ends then [c] else c :: visits outcome cs

section Walk

variable {listenedfd nready i fd : Nat} {s : Select} {outcome : Nat → Outcome} {is js : List Nat}
  {slot slot' : Nat → Option Nat} {set set' : Finset Nat} {c : Nat × Nat} {cs ds : List (Nat × Nat)}

theorem mem_hits : c ∈ hits slot set is ↔ c.1 ∈ is ∧ slot c.1 = some c.2 ∧ c.2 ∈ set := by
  obtain ⟨i, fd⟩ := c
  rw [hits, mem_filterMap]
  constructor
  · rintro ⟨j, hj, h⟩
    split at h
    · cases h
    split at h
    · cases h
      exact ⟨hj, by assumption, by assumption⟩
    · cases h
  · rintro ⟨hi, hs, hset⟩
    exact ⟨i, hi, by simp [hs, hset]⟩

theorem hits_congr (h : ∀ i ∈ is, slot i = slot' i ∧ ∀ fd, slot i = some fd → (fd ∈ set ↔ fd ∈ set')) :
    hits slot set is = hits slot' set' is := by
  refine filterMap_congr fun i hi => ?_
  obtain ⟨hs, hset⟩ := h i hi
  rw [← hs]
  cases hfd : slot i with
  | none => rfl
  | some fd => simp [hset fd hfd]

theorem hits_append : hits slot set (is ++ js) = hits slot set is ++ hits slot set js := filterMap_append

theorem hits_cons_of_not (h : ∀ fd, slot i = some fd → fd ∉ set) : hits slot set (i :: is) = hits slot set is := by
  refine filterMap_cons_none ?_
  cases hs : slot i with
  | none => rfl
  | some fd => exact if_neg (h fd hs)

theorem hits_cons (hs : slot i = some fd) (hset : fd ∈ set) : hits slot set (i :: is) = (i, fd) :: hits slot set is := by
  simp [hits, hs, hset]

theorem visits_subset (h : c ∈ visits outcome cs) : c ∈ cs := by
  induction cs with
  | nil => exact h
  | cons d cs ih =>
    rw [visits] at h
    split at h
    · exact mem_cons.mpr (.inl (mem_singleton.mp h))
    rcases mem_cons.mp h with rfl | h
    · exact mem_cons_self ..
    · exact mem_cons_of_mem _ (ih h)

/-- The walk reads from the first `nready` clients that are in the set. -/
theorem scan_called (hst : s.status = .running) (hnd : is.Nodup) (hpos : 0 < nready) :
    (s.scan outcome is nready).called = s.called ++ visits outcome ((hits s.slot s.rfset is).take nready) := by
  induction is generalizing s nready with
  | nil => simp [scan, hits, visits]
  | cons i is ih =>
    obtain ⟨hi, hnd'⟩ := nodup_cons.mp hnd
    rw [scan]
    cases hs : s.slot i with
    | none =>
      rw [hits_cons_of_not (by simp [hs])]
      exact ih hst hnd' hpos
    | some fd =>
      by_cases hset : fd ∈ s.rfset
      · obtain ⟨n, rfl⟩ : ∃ n, nready = n + 1 := ⟨nready - 1, by omega⟩
        simp only [if_pos hset, hits_cons hs hset, take_succ_cons, visits]
        cases hends : (outcome i).ends with
        | true =>
          have hne : (s.handle i fd (outcome i)).status ≠ .running := by
            rw [Ne, status_handle hst, hends]
            simp
          simp [hne]
        | false =>
          have hrun := (@status_handle s.toTable i fd (outcome i) hst).mpr hends
          simp only [hrun, ne_eq, not_true_eq_false, if_false, Bool.false_eq_true]
          split
          · have : n = 0 := by omega
            simp [this, visits]
          -- the slots to come are those before the call
          have hsame : hits (s.handle i fd (outcome i)).slot s.rfset is = hits s.slot s.rfset is := by
            refine hits_congr fun j hj => ⟨slot_handle_of_ne ?_, fun _ _ => Iff.rfl⟩
            rintro rfl
            exact hi hj
          rw [ih hrun hnd' (by omega)]
          simp [hsame]
      · simp only [if_neg hset]
        rw [hits_cons_of_not fun x hx => Option.some.inj (hs.symm.trans hx) ▸ hset]
        exact ih hst hnd' hpos

/-- The walk keeps the table in order and reports nothing new. -/
theorem Tabled.scan (h : s.Tabled listenedfd) (hst : s.status ≠ .undefined) :
    (s.scan outcome is nready).Tabled listenedfd ∧ (s.scan outcome is nready).status ≠ .undefined ∧
      (s.scan outcome is nready).reported = s.reported := by
  induction is generalizing s nready with
  | nil => exact ⟨h, hst, rfl⟩
  | cons i is ih =>
    rw [Select.scan]
    cases hs : s.slot i with
    | none => exact ih h hst
    | some fd =>
      have hsub : (s.handle i fd (outcome i)).conns ⊆ s.conns := by
        cases outcome i with
        | closed => exact Finset.erase_subset ..
        | answered | failed | blocked => exact Finset.Subset.refl _
      have h' : { s with toTable := s.handle i fd (outcome i) }.Tabled listenedfd := by
        refine ⟨h.holds.handle hs, fun j x hj => ?_, fun hl => h.not_listening (hsub hl)⟩
        rw [maxinx_handle]
        exact h.lt_maxinx j x (slot_of_slot_handle hj)
      have hst' : (s.handle i fd (outcome i)).status ≠ .undefined := by
        cases outcome i with
        | closed | answered => exact hst
        | failed | blocked => exact nofun
      dsimp only
      split
      · split
        · exact ⟨h', hst', rfl⟩
        split
        · exact ⟨h', hst', rfl⟩
        · exact ih h' hst'
      · exact ih h hst

theorem visits_append_of_ends (h : ∃ c ∈ cs, (outcome c.1).ends = true) :
    visits outcome (cs ++ ds) = visits outcome cs := by
  induction cs with
  | nil => exact absurd h (by simp)
  | cons d cs ih =>
    rw [cons_append, visits, visits]
    split
    · rfl
    rename_i hd
    obtain ⟨c, hc, hends⟩ := h
    rcases mem_cons.mp hc with rfl | hc
    · exact absurd hends hd
    · rw [ih ⟨c, hc, hends⟩]

theorem visits_append_of_forall (h : ∀ c ∈ cs, (outcome c.1).ends = false) :
    visits outcome (cs ++ ds) = cs ++ visits outcome ds := by
  induction cs with
  | nil => rfl
  | cons d cs ih =>
    rw [cons_append, visits, h d mem_cons_self, if_neg (by simp), ih (forall_mem_cons.mp h).2, cons_append]

end Walk

/-! ## §5 One round -/

section Round
variable {listenedfd connfd i m fd : Nat} {s : Select} {outcome : Nat → Outcome} {fds : Finset Nat}

/-- Of the slots behind slot `i` none is ready, or the loop ends at a slot before it. -/
abbrev Undisturbed (s : Select) (fds : Finset Nat) (outcome : Nat → Outcome) (i : Nat) : Prop :=
  (∀ j fd, i < j → s.slot j = some fd → fd ∉ fds) ∨
    ∃ j fd, j < i ∧ s.slot j = some fd ∧ fd ∈ fds ∧ (outcome j).ends = true

/-- Somebody has connected and got slot `i`. -/
def met (s : Select) (fds : Finset Nat) (i connfd : Nat) : Select :=
  { s.fresh fds with rfset := insert connfd fds }.add i connfd

theorem Tabled.slot_ne (h : s.Tabled listenedfd) (hfd : fd ∉ s.conns) (j : Nat) : s.slot j ≠ some fd :=
  fun hs => hfd ((h.holds.mem_conns_iff fd).mpr ⟨j, Nat.zero_le j, hs⟩)

theorem Tabled.met (h : s.Tabled listenedfd) (hfree : s.slot i = none) (hne : connfd ≠ listenedfd)
    (hfresh : connfd ∉ s.conns) : (s.met fds i connfd).Tabled listenedfd := by
  have hholds := h.holds.put (Nat.zero_le i) hfree (h.slot_ne hfresh)
  refine ⟨⟨hholds.mem_conns_iff, hholds.inj⟩, fun j fd hj => ?_, fun hl => ?_⟩
  · change j < if s.maxinx ≤ i then i + 1 else s.maxinx
    rcases slot_of_slot_put hj with rfl | hj
    · split <;> omega
    · have := h.lt_maxinx j fd hj
      split <;> omega
  · rcases Finset.mem_insert.mp hl with he | hl
    · exact hne he.symm
    · exact h.not_listening hl

theorem range_split (hi : i < m) : range m = range i ++ i :: range' (i + 1) (m - (i + 1)) := by
  have happ : range' 0 i ++ range' (0 + i) (m - i) = range' 0 (i + (m - i)) := range'_append_1
  rw [Nat.zero_add, Nat.add_sub_cancel' hi.le] at happ
  rw [← range'_succ, show m - (i + 1) + 1 = m - i by omega, range_eq_range', range_eq_range', happ]

/-- The new client is in the set, between the ready clients before and behind it. -/
theorem hits_met (h : s.Tabled listenedfd) (hfresh : connfd ∉ s.conns) (hi : i < m) :
    hits (s.met fds i connfd).slot (insert connfd fds) (range m) = hits s.slot fds (range i) ++
        (i, connfd) :: hits s.slot fds (range' (i + 1) (m - (i + 1))) := by
  have hsame : ∀ j, j ≠ i → (s.met fds i connfd).slot j = s.slot j ∧
      ∀ fd, (s.met fds i connfd).slot j = some fd → (fd ∈ insert connfd fds ↔ fd ∈ fds) := by
    intro j hj
    have hslot : (s.met fds i connfd).slot j = s.slot j := update_of_ne hj _ s.slot
    refine ⟨hslot, fun fd hfd => ?_⟩
    rw [hslot] at hfd
    rw [Finset.mem_insert, or_iff_right]
    rintro rfl
    exact h.slot_ne hfresh j hfd
  rw [range_split hi, hits_append]
  congr 1
  · refine hits_congr fun j hj => hsame j ?_
    have := mem_range.mp hj
    omega
  · rw [@hits_cons i connfd _ (s.met fds i connfd).slot _ (update_self i _ s.slot) (Finset.mem_insert_self ..)]
    congr 1
    refine hits_congr fun j hj => hsame j ?_
    have := mem_range'_1.mp hj
    omega

/-- Below `maxinx` there are as many ready clients as `select` reported. -/
theorem length_hits (h : s.Tabled listenedfd) (hm : s.maxinx ≤ m) (hl : listenedfd ∈ fds)
    (hsub : fds ⊆ insert listenedfd s.conns) :
    (hits s.slot fds (range m)).length = fds.card - 1 := by
  have hnd : ((hits s.slot fds (range m)).map Prod.snd).Nodup := by
    refine (nodup_map_iff_inj_on ?_).mpr ?_
    · refine List.Nodup.filterMap ?_ nodup_range
      intro a b c ha hb
      have hfst : ∀ j, c ∈ hits s.slot fds [j] → c.1 = j := fun j hc =>
        mem_singleton.mp (mem_hits.mp hc).1
      have ha' := hfst a (mem_filterMap.mpr ⟨a, mem_singleton_self a, ha⟩)
      have hb' := hfst b (mem_filterMap.mpr ⟨b, mem_singleton_self b, hb⟩)
      rw [← ha', hb']
    · rintro ⟨a, x⟩ ha ⟨b, y⟩ hb rfl
      have := h.holds.inj a b x (mem_hits.mp ha).2.1 (mem_hits.mp hb).2.1
      rw [this]
  have hset : ((hits s.slot fds (range m)).map Prod.snd).toFinset = fds.erase listenedfd := by
    ext fd
    rw [mem_toFinset, mem_map, Finset.mem_erase]
    constructor
    · rintro ⟨c, hc, rfl⟩
      obtain ⟨-, hs, hfd⟩ := mem_hits.mp hc
      refine ⟨?_, hfd⟩
      intro he
      exact h.slot_ne h.not_listening c.1 (he ▸ hs)
    · rintro ⟨hne, hfd⟩
      have hconn := (Finset.mem_insert.mp (hsub hfd)).resolve_left hne
      obtain ⟨j, -, hj⟩ := (h.holds.mem_conns_iff fd).mp hconn
      have := h.lt_maxinx j fd hj
      exact ⟨(j, fd), mem_hits.mpr ⟨mem_range.mpr (by omega), hj, hfd⟩, rfl⟩
  rw [← Finset.card_erase_of_mem hl, ← hset, toFinset_card_of_nodup hnd, length_map]

theorem called_rewatch : (s.rewatch listenedfd).called = s.called := by
  rw [Select.rewatch]
  split <;> rfl

theorem reported_rewatch : (s.rewatch listenedfd).reported = s.reported := by
  rw [Select.rewatch]
  split <;> rfl

section
variable (hI : s.Tabled listenedfd)
include hI

/-- When the only news is a connection the loop is back at `select` at once. -/
theorem fine_of_card_le_one (hl : listenedfd ∈ fds) (hcard : fds.card ≤ 1)
    {j : Nat} (hs : s.slot j = some fd) : fd ∉ fds := by
  intro hfd
  have he : fd = listenedfd := Finset.card_le_one.mp hcard fd hfd listenedfd hl
  exact hI.slot_ne hI.not_listening j (he ▸ hs)

theorem Tabled.fresh (fds : Finset Nat) : (s.fresh fds).Tabled listenedfd :=
  ⟨⟨hI.holds.mem_conns_iff, hI.holds.inj⟩, hI.lt_maxinx, hI.not_listening⟩

/-- A loop that has ended watches nothing. -/
theorem ended_spec (st : LoopStatus) (hrun : st ≠ .running) (hdef : st ≠ .undefined) {rfset : Finset Nat} :
    { s.fresh fds with rfset := rfset, status := st }.Tabled listenedfd ∧
      { s.fresh fds with rfset := rfset, status := st }.Watching listenedfd :=
  ⟨⟨⟨hI.holds.mem_conns_iff, hI.holds.inj⟩, hI.lt_maxinx, hI.not_listening⟩,
    ⟨hdef, fun h => absurd h hrun, fun h => absurd h hrun, nofun⟩⟩

variable (hst : s.status = .running)
include hst

/-- Nobody connects. -/
theorem round_walk (hne : fds.Nonempty) (hl : listenedfd ∉ fds) {accept : Option Nat} :
    (s.round listenedfd (.ready fds accept outcome)).Tabled listenedfd ∧
      (s.round listenedfd (.ready fds accept outcome)).Watching listenedfd := by
  have hcard0 : fds.card ≠ 0 := Finset.card_ne_zero.mpr hne
  have hl' : listenedfd ∉ (s.fresh fds).rfset := hl
  have hst' : (s.fresh fds).status = .running := hst
  simp only [round, hst, if_true, hcard0, if_false, hl']
  obtain ⟨htab, hdef, hrep⟩ := @Tabled.scan listenedfd fds.card (s.fresh fds) outcome
    (range (s.fresh fds).maxinx) (hI.fresh fds) (by rw [hst']; exact nofun)
  refine htab.rewatch hdef fun c hc => ?_
  rw [scan_called hst' nodup_range (by omega)] at hc
  rw [hrep]
  exact (mem_hits.mp (mem_of_mem_take (visits_subset hc))).2.2

section Accept

variable (hsub : fds ⊆ insert listenedfd s.conns) (hl : listenedfd ∈ fds) (hne : connfd ≠ listenedfd)
  (hfresh : connfd ∉ s.conns)

include hsub hl hne hfresh

/-- Somebody has connected, and more is to be done. -/
theorem met_walk (hfree : s.slot i = none) (hcard : 1 < fds.card) :
    (∀ c ∈ ((s.met fds i connfd).scan outcome (range (s.met fds i connfd).maxinx)
      (fds.card - 1)).called, c.2 ∈ fds) ↔ s.Undisturbed fds outcome i := by
  have hi : i < (s.met fds i connfd).maxinx := by
    change i < if s.maxinx ≤ i then i + 1 else s.maxinx
    split <;> omega
  have hle : s.maxinx ≤ (s.met fds i connfd).maxinx := by
    change s.maxinx ≤ if s.maxinx ≤ i then i + 1 else s.maxinx
    split <;> omega
  generalize (s.met fds i connfd).maxinx = m at hi hle
  have hcalled := @scan_called (fds.card - 1) (s.met fds i connfd) outcome (range m) hst nodup_range (by omega)
  have hhits := @hits_met listenedfd connfd i m s fds hI hfresh hi
  have hlen := length_hits hI hle hl hsub
  -- without the new client the free slot counts for nothing
  have hold : hits s.slot fds (range m) = hits s.slot fds (range i) ++
      hits s.slot fds (range' (i + 1) (m - (i + 1))) := by
    rw [range_split hi, hits_append, hits_cons_of_not (by simp [hfree])]
  rw [hold, length_append] at hlen
  change _ = [] ++ visits outcome ((hits (s.met fds i connfd).slot (insert connfd fds) (range m)).take _) at hcalled
  rw [hcalled, hhits, nil_append, ← hlen]
  set A := hits s.slot fds (range i) with hA
  set B := hits s.slot fds (range' (i + 1) (m - (i + 1))) with hB
  have htake : (A ++ (i, connfd) :: B).take (A.length + B.length) = A ++ ((i, connfd) :: B).take B.length := by
    rw [take_append, take_of_length_le (by omega), Nat.add_sub_cancel_left]
  have hAin : ∀ c ∈ A, c.2 ∈ fds := fun c hc => (mem_hits.mp hc).2.2
  rw [htake]
  constructor
  · intro h
    by_contra hno
    rw [not_or] at hno
    obtain ⟨hbehind, hends⟩ := hno
    have hAends : ∀ c ∈ A, (outcome c.1).ends = false := by
      intro c hc
      obtain ⟨hj, hs, hfd⟩ := mem_hits.mp hc
      cases he : (outcome c.1).ends with
      | false => rfl
      | true => exact absurd ⟨c.1, c.2, mem_range.mp hj, hs, hfd, he⟩ hends
    have hBne : B ≠ [] := by
      intro hnil
      apply hbehind
      intro j fd hj hs hfd
      have hmem : (j, fd) ∈ B := by
        have := hI.lt_maxinx j fd hs
        exact mem_hits.mpr ⟨mem_range'_1.mpr ⟨by omega, by dsimp only; omega⟩, hs, hfd⟩
      rw [hnil] at hmem
      exact absurd hmem not_mem_nil
    obtain ⟨n, hn⟩ : ∃ n, B.length = n + 1 := ⟨B.length - 1, by have := length_pos_iff.mpr hBne; omega⟩
    rw [visits_append_of_forall hAends, hn, take_succ_cons] at h
    have hnew : connfd ∈ fds := by
      refine h (i, connfd) (mem_append_right _ ?_)
      rw [visits]
      split
      · exact mem_singleton_self _
      · exact mem_cons_self ..
    rcases Finset.mem_insert.mp (hsub hnew) with he | hc
    · exact hne he
    · exact hfresh hc
  · rintro (hbehind | ⟨j, fd, hj, hs, hfd, hends⟩) c hc
    · have hBnil : B = [] := by
        refine eq_nil_iff_forall_not_mem.mpr fun c hc => ?_
        obtain ⟨hj, hs, hfd⟩ := mem_hits.mp hc
        exact hbehind c.1 c.2 (by have := mem_range'_1.mp hj; omega) hs hfd
      rw [hBnil, length_nil, take_zero, append_nil] at hc
      exact hAin c (visits_subset hc)
    · have hmem : (j, fd) ∈ A := mem_hits.mpr ⟨mem_range.mpr hj, hs, hfd⟩
      rw [visits_append_of_ends ⟨(j, fd), hmem, hends⟩] at hc
      exact hAin c (visits_subset hc)

/-- Somebody connects. -/
theorem round_accept (hlt : connfd < maxFdSetsize) (hfree : freeSlot s.slot = some i) :
    Decides (Tabled listenedfd) (Watching listenedfd) (s.Undisturbed fds outcome i)
      (s.round listenedfd (.ready fds (some connfd) outcome)) := by
  have hcard0 : fds.card ≠ 0 := Finset.card_ne_zero_of_mem hl
  have hslot : s.slot i = none := (freeSlot_eq_some.mp hfree).2.1
  have hmet : (s.met fds i connfd).Tabled listenedfd := hI.met hslot hne hfresh
  have hdef : (s.met fds i connfd).status ≠ .undefined := by
    change s.status ≠ .undefined
    rw [hst]
    exact nofun
  have hround : s.round listenedfd (.ready fds (some connfd) outcome) =
      if fds.card ≤ 1 then (s.met fds i connfd).rewatch listenedfd
      else ((s.met fds i connfd).scan outcome (range (s.met fds i connfd).maxinx)
        (fds.card - 1)).rewatch listenedfd := by
    have hfree' : freeSlot (s.fresh fds).slot = some i := hfree
    have hl' : listenedfd ∈ (s.fresh fds).rfset := hl
    simp only [round, hst, if_true, hcard0, if_false, hl', hlt, hfree']
    rfl
  rw [hround]
  rcases Nat.lt_or_ge 1 fds.card with hcard | hcard
  · rw [if_neg (by omega)]
    have hiff := @met_walk listenedfd connfd i s outcome fds hI hst hsub hl hne hfresh hslot hcard
    obtain ⟨htab, hdef', hrep⟩ := @Tabled.scan listenedfd (fds.card - 1) (s.met fds i connfd) outcome
      (range (s.met fds i connfd).maxinx) hmet hdef
    change _ = fds at hrep
    constructor
    · intro h
      refine htab.rewatch hdef' ?_
      rw [hrep]
      exact hiff.mpr h
    · intro h
      have hcalled := h.called
      rw [called_rewatch, reported_rewatch, hrep] at hcalled
      exact hiff.mp hcalled
  · rw [if_pos hcard]
    exact .of_true (.inl fun j fd _ => fine_of_card_le_one hI hl hcard) (hmet.rewatch hdef nofun)

end Accept

omit hst in
theorem round_spec (hP : s.Watching listenedfd) {r : SelectRound} (hV : s.Promised listenedfd r) :
    Decides (Tabled listenedfd) (Watching listenedfd) (s.Fine listenedfd r) (s.round listenedfd r) := by
  cases r with
  | failed =>
    have hst : s.status = .running := hV
    have hround : s.round listenedfd .failed = { s.fresh ∅ with rfset := ∅, status := .returned } := by
      simp only [round, hst, if_true]
      rfl
    rw [hround]
    exact .of_true trivial (ended_spec hI .returned nofun nofun)
  | ready fds accept outcome =>
    obtain ⟨hst, hne, hrep, hacc⟩ := hV
    have hsub : fds ⊆ insert listenedfd s.conns := fun fd hfd => hP.rfset hst ▸ (hrep fd hfd).1
    rw [Fine]
    by_cases hl : listenedfd ∈ fds
    · rw [forall_prop_of_true hl]
      have hcard0 : fds.card ≠ 0 := Finset.card_ne_zero_of_mem hl
      have hl' : listenedfd ∈ (s.fresh fds).rfset := hl
      cases accept with
      | none =>
        have hround : s.round listenedfd (.ready fds none outcome) =
            { s.fresh fds with rfset := fds, status := .returned } := by
          simp only [round, hst, if_true, hcard0, if_false, hl']
          rfl
        rw [hround]
        exact .of_true nofun (ended_spec hI .returned nofun nofun)
      | some connfd =>
        obtain ⟨hnl, hfresh⟩ := hacc connfd rfl
        simp only [Option.some.injEq, forall_eq']
        by_cases hlt : connfd < maxFdSetsize
        · rw [and_iff_right hlt]
          cases hfree : freeSlot s.slot with
          | none =>
            have hfree' : freeSlot (s.fresh fds).slot = none := hfree
            have hround : s.round listenedfd (.ready fds (some connfd) outcome) =
                { s.fresh fds with rfset := insert connfd fds, status := .exited } := by
              simp only [round, hst, if_true, hcard0, if_false, hl', hlt, hfree']
              rfl
            rw [hround]
            exact .of_true nofun (ended_spec hI .exited nofun nofun)
          | some i =>
            simp only [Option.some.injEq, forall_eq']
            exact round_accept hI hst hsub hl hnl hfresh hlt hfree
        · refine ⟨fun h => absurd h.1 hlt, fun h => absurd ?_ h.defined⟩
          simp only [round, hst, if_true, hcard0, if_false, hl', hlt]
    · exact .of_true (fun h => absurd h hl) (round_walk hI hst hne hl)

end

theorem start_spec (listenedfd : Nat) : (start listenedfd).Tabled listenedfd ∧ (start listenedfd).Watching listenedfd := by
  refine ⟨⟨⟨fun fd => ?_, fun i j fd hi => absurd hi (by simp [start])⟩,
    fun i fd hi => absurd hi (by simp [start]), Finset.notMem_empty _⟩,
    ⟨nofun, fun _ => rfl, fun _ => ?_, nofun⟩⟩
  · simp [start]
  · simp [start]

end Round

/-! ## §6 Whole runs -/

/-- From the start on: `select` watches what it should, and only the clients it
reports are read from, exactly if every round is fine when it comes. -/
theorem watching_iff (listenedfd : Nat) {rounds : List SelectRound}
    (hV : Meets (round listenedfd) (Promised listenedfd) (start listenedfd) rounds) :
    Along (round listenedfd) (Watching listenedfd) (start listenedfd) rounds ↔
      Meets (round listenedfd) (Fine listenedfd) (start listenedfd) rounds := by
  obtain ⟨hI, hP⟩ := start_spec listenedfd
  exact along_iff_meets (fun _ _ hI hP => round_spec hI hP) hI hP hV

/-- Two clients connect, the first one closes, and then the second one sends and
a third one connects. -/
def closeThenConnect : List SelectRound := [.ready {3} (some 4) fun _ => .answered, .ready {3} (some 5) fun _ => .answered,
    .ready {4} none fun _ => .closed, .ready {3, 5} (some 6) fun _ => .answered]

theorem watching_first_client : Along (round 3) (Watching 3) (start 3) (closeThenConnect.take 1) := by
  refine (watching_iff 3 (by decide +kernel)).mpr ⟨?_, trivial⟩
  intro _ connfd hconn
  rw [← Option.some.inj hconn]
  refine ⟨by decide, fun i _ => .inl fun j fd _ hs => ?_⟩
  exact absurd hs (by simp [start])

/-- The new client is read from before it has sent anything, and the client that
has sent something is not. -/
theorem new_client_read : Meets (round 3) (Promised 3) (start 3) closeThenConnect ∧
      (closeThenConnect.foldl (round 3) (start 3)).called = [(0, 6)] ∧
      (closeThenConnect.foldl (round 3) (start 3)).reported = {3, 5} ∧
      ¬ Along (round 3) (Watching 3) (start 3) closeThenConnect := by
  have hcalled : (closeThenConnect.foldl (round 3) (start 3)).called = [(0, 6)] := by decide +kernel
  have hrep : (closeThenConnect.foldl (round 3) (start 3)).reported = {3, 5} := by decide +kernel
  refine ⟨by decide +kernel, hcalled, hrep, fun h => ?_⟩
  have hlast := h closeThenConnect (prefix_refl _)
  generalize closeThenConnect.foldl (round 3) (start 3) = s at hcalled hrep hlast
  have hin := hlast.called (0, 6) (by rw [hcalled]; exact mem_singleton_self _)
  rw [hrep] at hin
  exact absurd hin (by decide)

end Select
end GokuStudio.WebServer

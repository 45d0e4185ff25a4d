import GokuStudio.Lib.Runs
import GokuStudio.WebServer.Table

/-!
# The poll loop (`http_server_main_loop_poll`)

One round of the loop is a call of `poll`, perhaps one new client, and a walk
over the slots below `maxinx`. The listening descriptor sits in slot 0.

`maxinx` grows only when a slot *above* it is taken, and the walk asks for
`events`, what is waited for, and not for `revents`, what has come. So the second
of two clients is never passed to `poll`, and a client may be read from that has
sent nothing. `slotsRight_iff` says in which runs this does not happen.
-/

namespace GokuStudio.WebServer

open Lib List
open Function (update update_apply update_of_ne update_self)

/-! ## §1 The loop -/

/-- `revents` of a slot: nothing, `POLLIN`, or only other bits. -/
inductive Revents where
  | none
  | pollin
  | other
deriving DecidableEq, Repr

/-- `pollin i` is `client[i].events & POLLIN`. Not in the code: `readable`, the
slots `poll` has reported readable in this round. -/
structure Poll extends Table where
  pollin : Nat → Bool
  readable : Nat → Bool

/-- What the world does in a round: `poll` fails, or it fills in `revents`;
`accept` returns a descriptor or fails; a client that is read from does this. -/
inductive PollRound where
  | failed (e : Errno)
  | ready (revents : Nat → Revents) (accept : Option Nat) (outcome : Nat → Outcome)

namespace Poll

/-- `events` of the slots other than the first is not initialised. -/
def start (listenedfd : Nat) (events : Nat → Bool) : Poll where
  status := .running
  slot := update (fun _ => none) 0 (some listenedfd)
  maxinx := 1
  conns := ∅
  called := []
  pollin := update events 0 true
  readable := fun _ => false

section
variable (s : Poll)

def add (i connfd : Nat) : Poll :=
  { s with
    toTable := { s.toTable.put i connfd with
      maxinx := if s.maxinx < i then i + 2 else if s.maxinx = 1 then 2 else s.maxinx }
    pollin := update s.pollin i true }

/-- The walk over the slots. `nready` goes down with every client, ready or not. -/
def scan (outcome : Nat → Outcome) : List Nat → Nat → Poll → Poll
  | [], _, s => s
  | i :: is, nready, s =>
    match s.slot i with
    | none => scan outcome is nready s
    | some fd =>
      let s := if s.pollin i then { s with toTable := s.handle i fd (outcome i) } else s
      if s.status ≠ .running then s
      else if nready ≤ 1 then s
      else scan outcome is (nready - 1) s

/-- What `poll` returns. -/
def nready (revents : Nat → Revents) : Nat := ((List.range s.maxinx).filter fun i => revents i != .none).length

/-- A round begins: nobody has been read from. -/
def fresh (readable : Nat → Bool) : Poll := { s with called := [], readable := readable }

def round (r : PollRound) : Poll :=
  if s.status = .running then
    match r with
    | .failed e =>
      { s.fresh fun _ => false with status := if e = .eintr then .running else .returned }
    | .ready revents accept outcome =>
      let nready := s.nready revents
      let s := s.fresh fun i => revents i == .pollin
      if nready = 0 then s
      else if revents 0 = .pollin then
        match accept with
        | none => { s with status := .returned }
        | some connfd =>
          match freeSlot s.slot with
          | none => { s with status := .exited }
          | some i =>
            let s := s.add i connfd
            if nready ≤ 1 then s
            else s.scan outcome (List.range' 1 (s.maxinx - 1)) (nready - 1)
      else s.scan outcome (List.range' 1 (s.maxinx - 1)) nready
  else s

/-! ## §2 What should hold -/

/-- Every descriptor is passed to `poll`, none is in two slots, and only slots
that `poll` reported are read from. -/
structure SlotsRight : Prop where
  lt_maxinx : ∀ i fd, s.slot i = some fd → i < s.maxinx
  inj : ∀ i j fd, s.slot i = some fd → s.slot j = some fd → i = j
  called : ∀ c ∈ s.called, s.readable c.1 = true

/-- There are rounds as long as the loop runs. What the kernel promises: `poll`
reports slots it was given that hold a descriptor, and `accept` returns a
descriptor that is not in use. -/
def Promised : PollRound → Prop
  | .failed _ => s.status = .running
  | .ready revents accept _ => s.status = .running ∧ (∀ i, revents i ≠ .none → i < s.maxinx ∧ s.slot i ≠ none) ∧
        ∀ fd, accept = some fd → ∀ i, s.slot i ≠ some fd

/-- Nobody connects while a client is connected, and `poll` returns because the
listening descriptor or the client there is is readable. -/
def Fine : PollRound → Prop
  | .failed _ => True
  | .ready revents accept _ => 0 < s.nready revents →
      if revents 0 = .pollin then accept ≠ none → s.conns = ∅
      else ∀ i fd, 1 ≤ i → s.slot i = some fd → revents i = .pollin

/-- As long as all is right there is room for one client. -/
structure OneClient : Prop where
  maxinx : s.maxinx = 1 ∨ s.maxinx = 2
  listening : s.slot 0 ≠ none
  holds : s.toTable.Holds 1
  events : ∀ i fd, s.slot i = some fd → s.pollin i = true

end

/-! ## §3 One round -/

section Round
variable {s : Poll} {revents : Nat → Revents} {outcome : Nat → Outcome} {connfd n i fd : Nat}

/-- `poll` has returned. -/
abbrev polled (s : Poll) (revents : Nat → Revents) : Poll := s.fresh fun i => revents i == .pollin

theorem nready_pos_iff : 0 < s.nready revents ↔ ∃ i < s.maxinx, revents i ≠ .none := by
  rw [nready, length_pos_iff_exists_mem]
  simp

/-- The walk reads from the client in slot 1, whatever `poll` said. -/
theorem scan_one (h1 : s.slot 1 = some fd) (hin : s.pollin 1 = true) :
    s.scan outcome [1] n = { s with toTable := s.handle 1 fd (outcome 1) } := by
  simp only [scan, h1, hin, if_true]
  split
  · rfl
  · split <;> rfl

theorem slot_add : (s.add i connfd).slot = update s.slot i (some connfd) := rfl

theorem maxinx_add_two (h2 : s.maxinx = 2) : (s.add 2 connfd).maxinx = 2 := by
  change (if s.maxinx < 2 then 2 + 2 else if s.maxinx = 1 then 2 else s.maxinx) = 2
  simp [h2]

/-- A second client gets slot 2 and is not passed to `poll`. -/
theorem not_slotsRight_add_two (h2 : s.maxinx = 2) : ¬ (s.add 2 connfd).SlotsRight ∧
    ∀ fd o, ¬ { s.add 2 connfd with toTable := (s.add 2 connfd).handle 1 fd o }.SlotsRight := by
  have hmax := @maxinx_add_two s connfd h2
  have hslot : (s.add 2 connfd).slot 2 = some connfd := update_self 2 _ s.slot
  constructor
  · intro h
    have := h.lt_maxinx 2 connfd hslot
    omega
  · intro fd o h
    have := h.lt_maxinx 2 connfd ((slot_handle_of_ne (by decide)).trans hslot)
    simp only [maxinx_handle] at this
    omega

section
variable (hI : s.OneClient)
include hI

theorem OneClient.maxinx_pos : 0 < s.maxinx := by
  rcases hI.maxinx with h | h <;> omega

/-- Without a client in slot 1 the walk does nothing. -/
theorem scan_none (h1 : s.slot 1 = none) : s.scan outcome (range' 1 (s.maxinx - 1)) n = s := by
  rcases hI.maxinx with h | h
  · rw [h]
    rfl
  · rw [h]
    simp [scan, h1]

theorem freeSlot_one (h1 : s.slot 1 = none) : freeSlot s.slot = some 1 :=
  freeSlot_eq_some.mpr ⟨by decide, h1, fun _ hj => Nat.lt_one_iff.mp hj ▸ hI.listening⟩

/-- Reading from the client in slot 1 keeps the table right. -/
theorem OneClient.handle (h1 : s.slot 1 = some fd) (o : Outcome) :
    { s with toTable := s.handle 1 fd o }.OneClient := by
  refine ⟨?_, ?_, hI.holds.handle h1, fun i x h => hI.events i x (slot_of_slot_handle h)⟩
  · rw [maxinx_handle]
    exact hI.maxinx
  · rw [slot_handle_of_ne (by decide)]
    exact hI.listening

variable (hP : s.SlotsRight)
include hP

/-- Only slots 0 and 1 hold anything. -/
theorem OneClient.eq_one (hi : 1 ≤ i) (hs : s.slot i = some fd) : i = 1 := by
  have := hP.lt_maxinx i fd hs
  rcases hI.maxinx with h | h <;> omega

theorem OneClient.maxinx_two (h1 : s.slot 1 = some fd) : s.maxinx = 2 :=
  hI.maxinx.resolve_left fun h => absurd (hP.lt_maxinx 1 fd h1) (by omega)

/-- The status is of no importance to the table, nor is what `poll` says. -/
theorem fresh_right (readable : Nat → Bool) (st : LoopStatus) :
    { s.fresh readable with status := st }.OneClient ∧ { s.fresh readable with status := st }.SlotsRight :=
  ⟨⟨hI.maxinx, hI.listening, ⟨hI.holds.mem_conns_iff, hI.holds.inj⟩, hI.events⟩, hP.lt_maxinx, hP.inj, nofun⟩

theorem polled_right (revents : Nat → Revents) : (s.polled revents).OneClient ∧ (s.polled revents).SlotsRight :=
  fresh_right hI hP _ s.status

theorem conns_eq_empty_iff : s.conns = ∅ ↔ s.slot 1 = none := by
  rw [Finset.eq_empty_iff_forall_notMem, Option.eq_none_iff_forall_ne_some]
  refine forall_congr' fun fd => ?_
  rw [hI.holds.mem_conns_iff, not_exists]
  constructor
  · exact fun h hs => h 1 ⟨le_rfl, hs⟩
  · rintro h i ⟨hi, hs⟩
    exact h (hI.eq_one hP hi hs ▸ hs)

/-- The only client gets slot 1 and is passed to `poll`. -/
theorem add_one (h1 : s.slot 1 = none) (hfresh : ∀ i, s.slot i ≠ some connfd) :
    (s.add 1 connfd).OneClient ∧ (s.add 1 connfd).SlotsRight := by
  have hmax : (s.add 1 connfd).maxinx = 2 := by
    change (if s.maxinx < 1 then 1 + 2 else if s.maxinx = 1 then 2 else s.maxinx) = 2
    rcases hI.maxinx with h | h <;> simp [h]
  have hholds : (s.add 1 connfd).toTable.Holds 1 := by
    have := hI.holds.put (Nat.le_refl 1) h1 hfresh
    exact ⟨this.mem_conns_iff, this.inj⟩
  constructor
  · refine ⟨.inr hmax, ?_, hholds, fun i fd h => ?_⟩
    · rw [slot_add, update_of_ne (by decide)]
      exact hI.listening
    · change update s.pollin 1 true i = true
      rw [update_apply]
      split
      · rfl
      · rename_i hi
        exact hI.events i fd ((slot_of_slot_put h).resolve_left hi)
  · refine ⟨fun i fd h => ?_, hholds.inj, hP.called⟩
    rw [hmax]
    rcases slot_of_slot_put h with hi | hi
    · omega
    · have := hP.lt_maxinx i fd hi
      rcases hI.maxinx with hm | hm <;> omega

theorem freeSlot_two (h1 : s.slot 1 ≠ none) : freeSlot s.slot = some 2 := by
  refine freeSlot_eq_some.mpr ⟨by decide, ?_, fun j hj => ?_⟩
  · exact Option.eq_none_iff_forall_ne_some.mpr fun fd hs => absurd (hI.eq_one hP (by decide) hs) (by decide)
  · rcases Nat.le_one_iff_eq_zero_or_eq_one.mp (Nat.lt_succ_iff.mp hj) with rfl | rfl
    · exact hI.listening
    · exact h1

omit hI in
theorem slotsRight_handle_iff (hcalled : s.called = []) {o : Outcome} :
    { s with toTable := s.handle 1 fd o }.SlotsRight ↔ s.readable 1 = true := by
  constructor
  · intro h
    refine h.called (1, fd) ?_
    simp
  · intro h
    refine ⟨fun i x hx => ?_, fun i j x hi hj => ?_, fun c hc => ?_⟩
    · rw [maxinx_handle]
      exact hP.lt_maxinx i x (slot_of_slot_handle hx)
    · exact hP.inj i j x (slot_of_slot_handle hi) (slot_of_slot_handle hj)
    · rw [called_handle, hcalled, nil_append] at hc
      rw [mem_singleton.mp hc]
      exact h

variable (hst : s.status = .running)
include hst

/-- Somebody connects. -/
theorem round_accept (hrep : ∀ i, revents i ≠ .none → i < s.maxinx ∧ s.slot i ≠ none)
    (hfresh : ∀ i, s.slot i ≠ some connfd) (h0 : revents 0 = .pollin) :
    Decides OneClient SlotsRight (s.conns = ∅) (s.round (.ready revents (some connfd) outcome)) := by
  have hpos : s.nready revents ≠ 0 := (nready_pos_iff.mpr ⟨0, hI.maxinx_pos, h0 ▸ nofun⟩).ne'
  obtain ⟨hI', hP'⟩ := polled_right hI hP revents
  rw [conns_eq_empty_iff hI hP]
  simp only [round, hst, if_true, hpos, if_false, h0]
  cases h1 : s.slot 1 with
  | none =>
    have hone : s.nready revents ≤ 1 := by
      have hnone : revents 1 = .none := by
        by_contra hne
        exact (hrep 1 hne).2 h1
      rw [nready]
      rcases hI.maxinx with h | h
      · simp [h, h0]
      · rw [h]
        simp [range_succ, h0, hnone]
    rw [freeSlot_one hI' h1]
    simp only [hone, if_true]
    exact .of_true trivial (add_one hI' hP' h1 hfresh)
  | some fd =>
    have hmax := hI.maxinx_two hP h1
    have hbad := @not_slotsRight_add_two (s.polled revents) connfd hmax
    rw [freeSlot_two hI' hP' (by change s.slot 1 ≠ none; rw [h1]; simp)]
    simp only [@maxinx_add_two (s.polled revents) connfd hmax]
    refine ⟨nofun, fun h => ?_⟩
    split at h
    · exact absurd h hbad.1
    have hs1 : ((s.polled revents).add 2 connfd).slot 1 = some fd :=
      (update_of_ne (show 1 ≠ 2 by decide) (some connfd) s.slot).trans h1
    have hp1 : ((s.polled revents).add 2 connfd).pollin 1 = true :=
      (update_of_ne (show 1 ≠ 2 by decide) true s.pollin).trans (hI.events 1 fd h1)
    rw [show range' 1 (2 - 1) = [1] from rfl, scan_one hs1 hp1] at h
    exact absurd h (hbad.2 _ _)

/-- Nobody connects: the client there is is read from. -/
theorem round_walk (hpos : 0 < s.nready revents) (h0 : revents 0 ≠ .pollin) {accept : Option Nat} :
    Decides OneClient SlotsRight (∀ i fd, 1 ≤ i → s.slot i = some fd → revents i = .pollin)
      (s.round (.ready revents accept outcome)) := by
  obtain ⟨hI', hP'⟩ := polled_right hI hP revents
  simp only [round, hst, if_true, hpos.ne', if_false, h0]
  cases h1 : s.slot 1 with
  | none =>
    rw [scan_none hI' h1]
    refine .of_true (fun i fd hi hs => ?_) ⟨hI', hP'⟩
    rw [hI.eq_one hP hi hs, h1] at hs
    simp at hs
  | some fd =>
    have hwalk : range' 1 ((s.polled revents).maxinx - 1) = [1] := by
      change range' 1 (s.maxinx - 1) = [1]
      rw [hI.maxinx_two hP h1]
      rfl
    rw [hwalk, @scan_one (s.polled revents) _ _ fd h1 (hI.events 1 fd h1)]
    have hiff := @slotsRight_handle_iff _ fd hP' rfl (outcome 1)
    constructor
    · intro h
      refine ⟨hI'.handle h1 _, hiff.mpr ?_⟩
      exact beq_iff_eq.mpr (h 1 fd (Nat.le_refl 1) h1)
    · intro h i x hi hs
      rw [hI.eq_one hP hi hs]
      exact beq_iff_eq.mp (hiff.mp h)

omit hst in
theorem round_spec {r : PollRound} (hV : s.Promised r) : Decides OneClient SlotsRight (s.Fine r) (s.round r) := by
  cases r with
  | failed e =>
    have hst : s.status = .running := hV
    simp only [round, hst, if_true]
    exact .of_true trivial (fresh_right hI hP _ _)
  | ready revents accept outcome =>
    obtain ⟨hst, hrep, hfresh⟩ := hV
    rcases Nat.eq_zero_or_pos (s.nready revents) with hz | hpos
    · have hround : s.round (.ready revents accept outcome) = s.polled revents := by
        simp [round, hst, hz]
      rw [hround, Fine, hz]
      exact .of_true nofun (polled_right hI hP revents)
    rw [Fine, forall_prop_of_true hpos]
    by_cases h0 : revents 0 = .pollin
    · rw [if_pos h0]
      cases accept with
      | none =>
        simp only [round, hst, if_true, hpos.ne', if_false, h0]
        exact .of_true (absurd rfl) (fresh_right hI hP _ _)
      | some connfd =>
        have hround := @round_accept s revents outcome connfd hI hP hst hrep (hfresh connfd rfl) h0
        exact ⟨fun h => hround.1 (h (by simp)), fun h _ => hround.2 h⟩
    · rw [if_neg h0]
      exact round_walk hI hP hst hpos h0

end

theorem slot_start {listenedfd j : Nat} {events : Nat → Bool} (hj : j ≠ 0) :
    (start listenedfd events).slot j = none := by
  change update (fun _ => none) 0 (some listenedfd) j = none
  rw [update_of_ne hj]

theorem start_right (listenedfd : Nat) (events : Nat → Bool) :
    (start listenedfd events).OneClient ∧ (start listenedfd events).SlotsRight := by
  have hslot : ∀ i fd, (start listenedfd events).slot i = some fd → i = 0 := by
    intro i fd h
    by_contra hi
    rw [slot_start hi] at h
    simp at h
  have hinj : ∀ i j fd, (start listenedfd events).slot i = some fd →
      (start listenedfd events).slot j = some fd → i = j := by
    intro i j fd hi hj
    rw [hslot i fd hi, hslot j fd hj]
  constructor
  · refine ⟨.inl rfl, by simp [start], ⟨fun fd => ?_, hinj⟩, fun i fd h => ?_⟩
    · refine iff_of_false (Finset.notMem_empty fd) ?_
      rintro ⟨i, hi, hs⟩
      have := hslot i fd hs
      omega
    · rw [hslot i fd h]
      exact update_self 0 true events
  · exact ⟨fun i fd h => hslot i fd h ▸ Nat.one_pos, hinj, nofun⟩

end Round

/-! ## §4 Whole runs -/

/-- From the start on: the table is right after every round exactly if every
round is fine when it comes. -/
theorem slotsRight_iff (listenedfd : Nat) (events : Nat → Bool) {rounds : List PollRound}
    (hV : Meets round Promised (start listenedfd events) rounds) :
    Along round SlotsRight (start listenedfd events) rounds ↔ Meets round Fine (start listenedfd events) rounds := by
  obtain ⟨hI, hP⟩ := start_right listenedfd events
  exact along_iff_meets (fun _ _ hI hP => round_spec hI hP) hI hP hV

/-- A round in which only a client with this descriptor connects. -/
def connect (connfd : Nat) : PollRound :=
  .ready (fun i => if i = 0 then .pollin else .none) (some connfd) fun _ => .answered

section Connect
variable {s : Poll} {connfd i listenedfd : Nat} {events : Nat → Bool}

theorem promised_connect (hst : s.status = .running) (hI : s.OneClient)
    (hfresh : ∀ i, s.slot i ≠ some connfd) : s.Promised (connect connfd) := by
  refine ⟨hst, fun i hi => ?_, fun fd hfd => ?_⟩
  · have : i = 0 := by
      by_contra hne
      exact hi (if_neg hne)
    rw [this]
    exact ⟨hI.maxinx_pos, hI.listening⟩
  · rw [← Option.some.inj hfd]
    exact hfresh

theorem fine_connect (h : s.conns = ∅) : s.Fine (connect connfd) := by
  intro _
  rw [if_pos (if_pos rfl)]
  exact fun _ => h

theorem nready_connect (hI : s.OneClient) : s.nready (fun i => if i = 0 then .pollin else .none) = 1 := by
  rw [nready]
  rcases hI.maxinx with h | h
  · rw [h]
    rfl
  · rw [h]
    rfl

theorem round_connect (hst : s.status = .running) (hI : s.OneClient) (hfree : freeSlot s.slot = some i) :
    s.round (connect connfd) = (s.fresh fun i => (if i = 0 then Revents.pollin else .none) == .pollin).add i connfd := by
  have hfree' : freeSlot (s.fresh fun i => (if i = 0 then Revents.pollin else .none) == .pollin).slot = some i := hfree
  simp only [round, hst, if_true, connect, nready_connect hI, hfree', Nat.one_ne_zero, if_false, Nat.le_refl]

theorem fresh_start {fd : Nat} (h : fd ≠ listenedfd) (j : Nat) : (start listenedfd events).slot j ≠ some fd := by
  rcases Nat.eq_zero_or_pos j with rfl | hj
  · exact fun hs => h (Option.some.inj hs).symm
  · rw [slot_start (by omega)]
    simp

end Connect

theorem slotsRight_first_client : Along round SlotsRight (start 3 fun _ => false) [connect 4] := by
  have hV : Meets round Promised (start 3 fun _ => false) [connect 4] :=
    ⟨promised_connect rfl (start_right _ _).1 (fresh_start (by decide)), trivial⟩
  exact (slotsRight_iff 3 (fun _ => false) hV).mpr ⟨fine_connect rfl, trivial⟩

/-- Two clients: the second one is in slot 2, and `poll` is given two slots. -/
theorem second_client_starves : Meets round Promised (start 3 fun _ => false) [connect 4, connect 5] ∧
      ([connect 4, connect 5].foldl round (start 3 fun _ => false)).slot 2 = some 5 ∧
      ([connect 4, connect 5].foldl round (start 3 fun _ => false)).maxinx = 2 ∧
      ¬ Along round SlotsRight (start 3 fun _ => false) [connect 4, connect 5] := by
  obtain ⟨hI, hP⟩ := start_right 3 fun _ => false
  have hround := @round_connect _ 4 1 rfl hI (freeSlot_one hI (slot_start (by decide)))
  have hV : (start 3 fun _ => false).Promised (connect 4) := promised_connect rfl hI (fresh_start (by decide))
  obtain ⟨hI₁, hP₁⟩ := (round_spec hI hP hV).1 (fine_connect rfl)
  have hst₁ : ((start 3 fun _ => false).round (connect 4)).status = .running := by
    rw [hround]
    rfl
  have hslot₁ : ((start 3 fun _ => false).round (connect 4)).slot =
      update (update (fun _ => none) 0 (some 3)) 1 (some 4) := by
    rw [hround]
    rfl
  have hround₂ := @round_connect _ 5 2 hst₁ hI₁ (freeSlot_two hI₁ hP₁ (by rw [hslot₁]; simp))
  have hslot : ([connect 4, connect 5].foldl round (start 3 fun _ => false)).slot 2 = some 5 := by
    rw [foldl_cons, foldl_cons, foldl_nil, hround₂, slot_add, update_self]
  have hmax : ([connect 4, connect 5].foldl round (start 3 fun _ => false)).maxinx = 2 := by
    rw [foldl_cons, foldl_cons, foldl_nil, hround₂, hround]
    rfl
  refine ⟨⟨hV, promised_connect hst₁ hI₁ fun i => ?_, trivial⟩, hslot, hmax, fun h => ?_⟩
  · rw [hslot₁, update_apply, update_apply]
    split
    · simp
    · split <;> simp
  · have := (h _ (prefix_refl _)).lt_maxinx 2 5 hslot
    omega

end Poll
end GokuStudio.WebServer

import GokuStudio.Lib.Runs
import Mathlib.Logic.Function.Basic

/-!
# The lock of the file cache (`ngx_http_file_cache.c`)

The requests for one key share a node. While one of them fetches the entry,
`node->updating` keeps the others waiting or gives them the old one. A step is one of
the functions with its section under the mutex; what a request does to its own record
around that section nobody else sees.

Of the node only the flag is modelled. A node that is freed has no request left, and
a new one begins without the flag.
-/

namespace GokuStudio.Nginx.FileCache

open Lib

/-! ## §1 The calls -/

/-- A request opens the entry, waits for the lock, or has an answer. -/
inductive Phase where
  | opening
  | waiting
  | opened

/-- `ngx_http_cache_t` -/
structure Cache where
  phase : Phase := .opening
  lock : Bool := true
  updating : Bool := false
  updated : Bool := false

inductive Call where
  | lock
  | lockWaitHandler (timeout : Bool)
  | read (expired : Bool)
  | update
  | free

/-- What `ngx_http_file_cache_lock` and so on do to the flag of the node and to the
record of the request. -/
def Call.run (updating : Bool) (c : Cache) : Call → Bool × Cache
  | .lock =>
    if !c.lock then (updating, { c with phase := .opened })
    else if !updating then (true, { c with updating := true, phase := .opened })
    else (updating, { c with phase := if c.updating then .opened else .waiting })
  | .lockWaitHandler timeout =>
    if timeout then (updating, { c with lock := false, phase := .opening })
    else (updating, { c with phase := if updating then .waiting else .opening })
  | .read expired =>
    -- `c->valid_sec < now`
    if expired && !updating then (true, { c with updating := true, phase := .opened })
    else (updating, { c with phase := .opened })
  | .update => if c.updated then (updating, c) else (false, { c with updated := true, updating := false })
  | .free =>
    if c.updated then (updating, c)
    else (updating && !c.updating, { c with updated := true, updating := false })

/-- The calls that a request can come to. It may end, and is freed then, at any time. -/
def Call.Ready (c : Cache) : Call → Prop
  | .lock | .read _ => c.phase = .opening ∧ c.updated = false
  | .lockWaitHandler _ => c.phase = .waiting ∧ c.updated = false
  | .update => c.phase = .opened
  | .free => True

/-- `node->updating`, and the records of the requests. -/
structure State where
  updating : Bool := false
  cache : Nat → Cache := fun _ => {}

def State.put (s : State) (i : Nat) (r : Bool × Cache) : State := ⟨r.1, Function.update s.cache i r.2⟩
def step (s : State) (e : Nat × Call) : State := s.put e.1 (e.2.run s.updating (s.cache e.1))
def Ready (s : State) (e : Nat × Call) : Prop := e.2.Ready (s.cache e.1)

/-! ## §2 The right to update -/

/-- A live request has it. -/
def Cache.holds (c : Cache) : Bool := c.updating && !c.updated

/-- The flag of the node is that of one request. -/
def Exclusive (s : State) : Prop :=
  (s.updating = true ↔ ∃ i, (s.cache i).holds) ∧ ∀ i j, (s.cache i).holds → (s.cache j).holds → i = j

/-- The flag is not cleared by a request that did not set it. -/
def Entitled (s : State) : Nat × Call → Prop
  | (i, .update) => s.updating = true → (s.cache i).updated = true ∨ (s.cache i).updating = true
  | _ => True

variable {s : State} {i : Nat}

/-- What a request may do depends on whether another has the right. -/
theorem exclusive_put {r : Bool × Cache} (h : Exclusive s) : Exclusive (s.put i r) ↔
    if s.updating && !(s.cache i).holds then r.1 = true ∧ r.2.holds = false else r.1 = r.2.holds := by
  have hall : ∀ j, ((s.put i r).cache j).holds = if j = i then r.2.holds else (s.cache j).holds := by
    intro j
    show (Function.update s.cache i r.2 j).holds = _
    split_ifs with hj
    · rw [hj, Function.update_self]
    · rw [Function.update_of_ne hj]
  have hu : (s.put i r).updating = r.1 := rfl
  unfold Exclusive at h ⊢
  grind

/-- Only an update can take the right from another. -/
theorem Exclusive.step {e : Nat × Call} (h : Exclusive s) (hready : Ready s e) :
    Exclusive (step s e) ↔ Entitled s e := by
  obtain ⟨i, call⟩ := e
  have hi : (s.cache i).holds → s.updating := fun hi => h.1.mpr ⟨i, hi⟩
  rw [FileCache.step, exclusive_put h]
  unfold Cache.holds at *
  cases call <;> grind [Call.run, Entitled, Ready, Call.Ready]

/-! ## §3 Every run -/

/-- The right is exclusive all along a run exactly if nobody who lacks it updates the
entry while another has it. -/
theorem cache_lock_exclusive_iff {es : List (Nat × Call)} (h : Meets step Ready {} es) :
    Along step Exclusive {} es ↔ Meets step Entitled {} es := by
  have hstart : Exclusive {} := by simp [Exclusive, Cache.holds]
  refine along_iff_meets (I := fun _ => True) (fun s e _ hs hready => ?_) trivial hstart h
  have hiff := hs.step hready
  exact ⟨fun hmine => ⟨trivial, hiff.mpr hmine⟩, hiff.mp⟩

/-- The second request waits until the first has fetched the entry, and reads it. -/
theorem cache_lock_exclusive_two : Along step Exclusive {}
    [(0, .lock), (1, .lock), (0, .update), (1, .lockWaitHandler false), (1, .read false), (1, .free)] := by
  refine (cache_lock_exclusive_iff ?_).mpr ?_
  · exact ⟨⟨rfl, rfl⟩, ⟨rfl, rfl⟩, rfl, ⟨rfl, rfl⟩, ⟨rfl, rfl⟩, trivial, trivial⟩
  · exact ⟨trivial, trivial, fun _ => .inr rfl, trivial, trivial, trivial, trivial⟩

/-- The wait of the second request is over before the first is done. It fetches the
entry on its own, and clears the flag, which a third one finds cleared. -/
theorem cache_lock_shared : let es : List (Nat × Call) :=
      [(0, .lock), (1, .lock), (1, .lockWaitHandler true), (1, .lock), (1, .update), (2, .lock)]
    Meets step Ready {} es ∧ ((es.foldl step {}).cache 0).holds ∧ ((es.foldl step {}).cache 2).holds := by
  refine ⟨?_, rfl, rfl⟩
  exact ⟨⟨rfl, rfl⟩, ⟨rfl, rfl⟩, ⟨rfl, rfl⟩, ⟨rfl, rfl⟩, rfl, ⟨rfl, rfl⟩, trivial⟩

end GokuStudio.Nginx.FileCache

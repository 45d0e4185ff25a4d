import GokuStudio.WebServer.Socket
import Mathlib.Data.Finset.Basic

/-!
# The table of clients (`client[]` of the select and the poll loop)

Both loops keep their clients in an array of slots, put a new client into the
first free slot, and handle a client in the same way. What they watch and how
they find the clients to handle is their own business.
-/

namespace GokuStudio.WebServer

open Function Option

/-- `MAX_FD_SETSIZE`, which is `FD_SETSIZE`. -/
def maxFdSetsize : Nat := 1024

inductive LoopStatus where
  | running
  | returned
  | exited
  /-- A read waits for bytes that do not come. -/
  | blocked
  | undefined
deriving DecidableEq, Repr

/-- What comes of `read_http_data`, and of `send_http_data` if there is a request. -/
inductive Outcome where
  | closed
  | answered
  | failed
  | blocked
deriving DecidableEq, Repr

def Outcome.ends : Outcome → Bool
  | .closed => false
  | .answered => false
  | .failed => true
  | .blocked => true

/-- `slot i` is `client[i]`, with `none` for `-1`. Not in the code: `conns`, the
connections that have been accepted and not closed, and `called`, the slots and
descriptors of the calls of `read_http_data` in this round. -/
structure Table where
  status : LoopStatus
  slot : Nat → Option Nat
  maxinx : Nat
  conns : Finset Nat
  called : List (Nat × Nat)

/-- The first `i` with `client[i] == -1`. -/
def freeSlot (slot : Nat → Option Nat) : Option Nat := (List.range maxFdSetsize).find? fun i => (slot i).isNone

/-- `fd` is put into slot `i`. -/
def Table.put (t : Table) (i fd : Nat) : Table :=
  { t with slot := update t.slot i (some fd), conns := insert fd t.conns }

/-- Read from the client in slot `i`, and answer it or close it. -/
def Table.handle (t : Table) (i fd : Nat) (o : Outcome) : Table :=
  let t := { t with called := t.called ++ [(i, fd)] }
  match o with
  | .closed => { t with slot := update t.slot i none, conns := t.conns.erase fd }
  | .answered => t
  | .failed => { t with status := .returned }
  | .blocked => { t with status := .blocked }

section Handle
variable {t : Table} {i fd j x b : Nat} {o : Outcome}

theorem freeSlot_eq_some {slot : Nat → Option Nat} :
    freeSlot slot = some i ↔ i < maxFdSetsize ∧ slot i = none ∧ ∀ j < i, slot j ≠ none := by
  rw [freeSlot, List.find?_range_eq_some]
  simp only [isNone_iff_eq_none, List.mem_range, Bool.not_eq_true', isNone_eq_false_iff, isSome_iff_ne_none]
  constructor
  · rintro ⟨h1, h2, h3⟩
    exact ⟨h2, h1, h3⟩
  · rintro ⟨h1, h2, h3⟩
    exact ⟨h2, h1, h3⟩

@[simp] theorem called_handle : (t.handle i fd o).called = t.called ++ [(i, fd)] := by
  cases o <;> rfl

@[simp] theorem maxinx_handle : (t.handle i fd o).maxinx = t.maxinx := by
  cases o <;> rfl

theorem slot_handle_of_ne (h : j ≠ i) : (t.handle i fd o).slot j = t.slot j := by
  cases o with
  | closed => exact update_of_ne h ..
  | answered | failed | blocked => rfl

/-- Handling a client brings no descriptor into the table. -/
theorem slot_of_slot_handle (h : (t.handle i fd o).slot j = some x) : t.slot j = some x := by
  cases o with
  | closed =>
    change update t.slot i none j = some x at h
    rw [update_apply] at h
    split at h
    · simp at h
    · exact h
  | answered | failed | blocked => exact h

/-- Only one descriptor comes into the table. -/
theorem slot_of_slot_put (h : (t.put i fd).slot j = some x) : j = i ∨ t.slot j = some x := by
  by_cases hj : j = i
  · exact .inl hj
  · exact .inr ((update_of_ne hj ..).symm.trans h)

theorem status_handle (h : t.status = .running) : (t.handle i fd o).status = .running ↔ o.ends = false := by
  cases o <;> simp [Table.handle, Outcome.ends, h]

/-- From slot `b` on the table holds the open connections, and nothing is in two
slots. -/
structure Table.Holds (t : Table) (b : Nat) : Prop where
  mem_conns_iff : ∀ fd, fd ∈ t.conns ↔ ∃ i, b ≤ i ∧ t.slot i = some fd
  inj : ∀ i j fd, t.slot i = some fd → t.slot j = some fd → i = j

theorem Table.Holds.handle (h : t.Holds b) (hslot : t.slot i = some fd) : (t.handle i fd o).Holds b := by
  refine ⟨fun x => ?_, fun j k x hj hk => h.inj j k x (slot_of_slot_handle hj) (slot_of_slot_handle hk)⟩
  cases o with
  | closed =>
    change x ∈ t.conns.erase fd ↔ ∃ k, b ≤ k ∧ update t.slot i none k = some x
    rw [Finset.mem_erase, h.mem_conns_iff]
    constructor
    · rintro ⟨hne, k, hk, hx⟩
      have hki : k ≠ i := by
        rintro rfl
        rw [hslot] at hx
        exact hne (some.inj hx).symm
      exact ⟨k, hk, by rw [update_of_ne hki, hx]⟩
    · rintro ⟨k, hk, hx⟩
      rw [update_apply] at hx
      split at hx
      · simp at hx
      rename_i hki
      refine ⟨?_, k, hk, hx⟩
      rintro rfl
      exact hki (h.inj k i x hx hslot)
  | answered | failed | blocked => exact h.mem_conns_iff x

theorem Table.Holds.put (h : t.Holds b) (hb : b ≤ i) (hfree : t.slot i = none)
    (hfresh : ∀ j, t.slot j ≠ some fd) : (t.put i fd).Holds b := by
  have hslot : ∀ k x, (t.put i fd).slot k = some x ↔ (k = i ∧ x = fd) ∨ t.slot k = some x := by
    intro k x
    change update t.slot i (some fd) k = some x ↔ _
    rw [update_apply]
    split
    · rename_i hk
      rw [hk, hfree]
      simp [eq_comm]
    · rename_i hk
      simp [hk]
  constructor
  · intro x
    change x ∈ insert fd t.conns ↔ _
    simp only [Finset.mem_insert, h.mem_conns_iff, hslot]
    constructor
    · rintro (rfl | ⟨k, hk, hx⟩)
      · exact ⟨i, hb, .inl ⟨rfl, rfl⟩⟩
      · exact ⟨k, hk, .inr hx⟩
    · rintro ⟨k, hk, ⟨-, rfl⟩ | hx⟩
      · exact .inl rfl
      · exact .inr ⟨k, hk, hx⟩
  · intro j k x hj hk
    rcases (hslot j x).mp hj with ⟨rfl, rfl⟩ | hj' <;> rcases (hslot k x).mp hk with ⟨rfl, hx⟩ | hk'
    · rfl
    · exact absurd hk' (hfresh k)
    · exact absurd (hx ▸ hj') (hfresh j)
    · exact h.inj j k x hj' hk'

end Handle
end GokuStudio.WebServer

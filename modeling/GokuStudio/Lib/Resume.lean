import Mathlib.Data.List.Basic
import Mathlib.Tactic.Common

/-!
# Parsers that stop at the end of a buffer and go on later

A parser of this kind reads a buffer from a position on. Each byte either moves
it on or makes it leave. At the end of the buffer it keeps its record and
returns `again`; when more bytes have been appended to the same buffer it is
called once more, with the record it kept. It may look back at what the buffer
holds before the byte it reads, but not behind it (`step_append`).

Such a parser leaves the same way however the bytes arrive (`call_feed`): with
the same exit, at the same byte, with the same record. What may differ is what
`leave` takes from the beginning of the last call.
-/

namespace GokuStudio.Lib

open List

inductive Turn (σ ε : Type) where
  | next (s : σ)
  | exit (e : ε) (s : σ)
deriving DecidableEq, Repr

/-- The record a turn leaves. -/
def Turn.left {σ ε : Type} : Turn σ ε → σ
  | .next s => s
  | .exit _ s => s

/-- How a scan of the rest of a buffer ends: at its end, or with an exit at
position `p`. -/
inductive Scan (σ ε : Type) where
  | again (s : σ)
  | found (e : ε) (s : σ) (p : Nat)
deriving DecidableEq, Repr

section
variable {α σ ε : Type}

def scanFrom (step : Nat → α → σ → Turn σ ε) : Nat → σ → List α → Scan σ ε
  | _, s, [] => .again s
  | p, s, a :: rest =>
    match step p a s with
    | .next s' => scanFrom step (p + 1) s' rest
    | .exit e s' => .found e s' p

/-- A scan of two pieces is the scan of the first, and if that comes to its end,
the scan of the second from there. -/
theorem scanFrom_append {step : Nat → α → σ → Turn σ ε} : ∀ {p : Nat} {s : σ} {r1 r2 : List α},
    scanFrom step p s (r1 ++ r2) =
      match scanFrom step p s r1 with
      | .again s' => scanFrom step (p + r1.length) s' r2
      | .found e s' q => .found e s' q
  | _, _, [], _ => rfl
  | p, s, a :: r1, r2 => by
    rw [cons_append, scanFrom, scanFrom]
    cases step p a s with
    | next s' =>
      rw [length_cons, ← Nat.add_assoc, Nat.add_right_comm]
      exact scanFrom_append
    | exit e s' => rfl

end

structure Ret (ρ σ : Type) where
  rc : ρ
  req : σ
  pos : Nat
deriving DecidableEq, Repr

/-- `leave k pos e s p` is what a call returns that began with record `k` at
`pos` and took exit `e` at `p` with record `s`. -/
structure Resumable (α σ ε ρ : Type) where
  again : ρ
  step : List α → Nat → α → σ → Turn σ ε
  leave : σ → Nat → ε → σ → Nat → Ret ρ σ
  step_append : ∀ {buf : List α} {p : Nat} (more : List α) (a : α) (s : σ), p < buf.length →
    step (buf ++ more) p a s = step buf p a s
  leave_rc : ∀ k pos e s p, (leave k pos e s p).rc ≠ again

namespace Resumable
variable {α σ ε ρ : Type} (m : Resumable α σ ε ρ)

def scan (buf : List α) : Nat → σ → List α → Scan σ ε := scanFrom (m.step buf)

def call (k : σ) (buf : List α) (pos : Nat) : Ret ρ σ :=
  match m.scan buf pos k (buf.drop pos) with
  | .again s => ⟨m.again, s, buf.length⟩
  | .found e s p => m.leave k pos e s p

/-- One call after each chunk, as long as they return `again`. -/
def feed [DecidableEq ρ] (k : σ) (buf : List α) (pos : Nat) : List (List α) → Ret ρ σ
  | [] => ⟨m.again, k, pos⟩
  | c :: cs =>
    let ret := m.call k (buf ++ c) pos
    if ret.rc = m.again then feed ret.req (buf ++ c) ret.pos cs else ret

variable {m} {buf c : List α} {s k : σ} {p : Nat} {e : ε}

theorem scan_cons {a : α} {rest : List α} : m.scan buf p s (a :: rest) =
      match m.step buf p a s with
      | .next s' => m.scan buf (p + 1) s' rest
      | .exit e s' => .found e s' p := rfl

theorem scan_append_buf {more : List α} : ∀ {p : Nat} {s : σ} {rest : List α},
    p + rest.length ≤ buf.length → m.scan (buf ++ more) p s rest = m.scan buf p s rest
  | _, _, [], _ => rfl
  | p, s, a :: rest, h => by
    rw [length_cons] at h
    rw [scan_cons, scan_cons, m.step_append more a s (by omega)]
    cases m.step buf p a s with
    | next s' => exact scan_append_buf (by omega)
    | exit e s' => rfl

theorem scan_of_again (rest : List α) (h : m.scan (buf ++ c) buf.length k c = .again s) :
    m.scan (buf ++ (c ++ rest)) buf.length k (c ++ rest) = m.scan (buf ++ c ++ rest) (buf ++ c).length s rest := by
  have hc : scanFrom (m.step (buf ++ c ++ rest)) buf.length k c = .again s := (scan_append_buf (by simp)).trans h
  rw [← append_assoc, scan, scanFrom_append, hc, length_append]

theorem scan_of_found (rest : List α) (h : m.scan (buf ++ c) buf.length k c = .found e s p) :
    m.scan (buf ++ (c ++ rest)) buf.length k (c ++ rest) = .found e s p := by
  have hc : scanFrom (m.step (buf ++ c ++ rest)) buf.length k c = .found e s p := (scan_append_buf (by simp)).trans h
  rw [← append_assoc, scan, scanFrom_append, hc]

/-- What every step keeps until the parser leaves holds where it leaves. -/
theorem scan_found {I : Nat → σ → Prop} {O : ε → σ → Nat → Prop}
    (hnext : ∀ {p a s s'}, buf[p]? = some a → I p s → m.step buf p a s = .next s' → I (p + 1) s')
    (hexit : ∀ {p a s e s'}, buf[p]? = some a → I p s → m.step buf p a s = .exit e s' → O e s' p) :
    ∀ {rest : List α} {p : Nat} {s s' : σ} {e : ε} {q : Nat}, rest = buf.drop p → I p s →
      m.scan buf p s rest = .found e s' q → O e s' q
  | [], _, _, _, _, _, _, _, h => by cases h
  | a :: rest, p, s, s', e, q, hrest, hI, h => by
    have ha : buf[p]? = some a := by
      rw [← head?_drop, ← hrest]
      rfl
    have htail : rest = buf.drop (p + 1) := by
      rw [← tail_drop, ← hrest]
      rfl
    rw [scan_cons] at h
    cases hstep : m.step buf p a s with rw [hstep] at h
    | next s1 =>
      exact scan_found hnext hexit htail (hnext ha hI hstep) h
    | exit e1 s1 =>
      cases h
      exact hexit ha hI hstep

theorem call_of_again (h : m.scan (buf ++ c) buf.length k c = .again s) :
    m.call k (buf ++ c) buf.length = ⟨m.again, s, (buf ++ c).length⟩ := by
  rw [call, drop_left, h]

theorem call_of_found (h : m.scan (buf ++ c) buf.length k c = .found e s p) :
    m.call k (buf ++ c) buf.length = m.leave k buf.length e s p := by
  rw [call, drop_left, h]

variable (m) in
/-- The two ways in which a call on the whole and calls on the chunks can agree.
`k'` is the record with which the last of the calls on the chunks began. -/
inductive SameEnd (k : σ) (buf whole : List α) : Ret ρ σ → Ret ρ σ → Prop where
  | again (s : σ) : m.scan (buf ++ whole) buf.length k whole = .again s →
      SameEnd k buf whole ⟨m.again, s, (buf ++ whole).length⟩ ⟨m.again, s, (buf ++ whole).length⟩
  | found (e : ε) (s : σ) (p : Nat) (k' : σ) (buf' c' : List α) : m.scan (buf ++ whole) buf.length k whole = .found e s p →
      m.scan (buf' ++ c') buf'.length k' c' = .found e s p →
      SameEnd k buf whole (m.leave k buf.length e s p) (m.leave k' buf'.length e s p)

theorem call_feed [DecidableEq ρ] {cs : List (List α)} : ∀ {k : σ} {buf : List α},
    m.SameEnd k buf cs.flatten (m.call k (buf ++ cs.flatten) buf.length)
      (m.feed k buf buf.length cs) := by
  induction cs with
  | nil =>
    intro k buf
    have h : m.scan (buf ++ []) buf.length k [] = .again k := rfl
    rw [flatten_nil, call_of_again h]
    have := SameEnd.again k h
    rwa [append_nil] at this ⊢
  | cons c cs ih =>
    intro k buf
    rw [flatten_cons]
    cases hc : m.scan (buf ++ c) buf.length k c with
    | again s =>
      -- the first chunk is used up: both go on from `s`
      have hwhole := scan_of_again cs.flatten hc
      have hfeed : m.feed k buf buf.length (c :: cs) = m.feed s (buf ++ c) (buf ++ c).length cs := by
        rw [feed, call_of_again hc]
        exact if_pos rfl
      have hrest : m.SameEnd s (buf ++ c) cs.flatten (m.call s (buf ++ c ++ cs.flatten) (buf ++ c).length)
          (m.feed s (buf ++ c) (buf ++ c).length cs) := ih
      rw [hfeed]
      generalize m.feed s (buf ++ c) (buf ++ c).length cs = f at hrest ⊢
      generalize m.call s (buf ++ c ++ cs.flatten) (buf ++ c).length = w at hrest
      cases hrest with rw [h] at hwhole
      | again s' h =>
        rw [call_of_again hwhole, append_assoc]
        exact .again s' hwhole
      | found e s' p k' buf' c' h h' =>
        rw [call_of_found hwhole]
        exact .found e s' p k' buf' c' hwhole h'
    | found e s p =>
      have hwhole := scan_of_found cs.flatten hc
      have hfeed : m.feed k buf buf.length (c :: cs) = m.leave k buf.length e s p := by
        rw [feed, call_of_found hc]
        exact if_neg (m.leave_rc _ _ _ _ _)
      rw [hfeed, call_of_found hwhole]
      exact .found e s p k buf c hwhole hc

end Resumable
end GokuStudio.Lib

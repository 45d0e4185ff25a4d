import Mathlib.Data.List.Basic
import Mathlib.Tactic.Common

/-!
# Segments between separators

`joinSegments sep st last` is the text of the segments `st`, each with a separator
behind it, and of `last`. The list `st` has the segment read last at its head.

`readSegments` reads a text element by element: it collects a segment, and at a separator
hands it over. That is the same as to split the text first and to hand over the
segments one after the other (`readSegments_eq`).
-/

namespace GokuStudio.Lib

open List
variable {α σ : Type} {sep : α}

def joinSegments (sep : α) (st : List (List α)) (last : List α) : List α := st.reverse.flatMap (· ++ [sep]) ++ last

variable [DecidableEq α] {last l seg : List α}

theorem splitOn_joinSegments {st : List (List α)} (hst : ∀ s ∈ st, sep ∉ s)
    (hlast : sep ∉ last) : (joinSegments sep st last).splitOn sep = st.reverse ++ [last] := by
  have key : ∀ l : List (List α), (∀ s ∈ l, sep ∉ s) → (l.flatMap (· ++ [sep]) ++ last).splitOn sep = l ++ [last] := by
    intro l hl
    induction l with
    | nil => exact splitOn_eq_singleton hlast
    | cons s l ih =>
      have := ih (forall_mem_cons.mp hl).2
      rw [flatMap_cons, append_assoc, append_assoc, singleton_append,
        splitOn_append_cons_self_of_not_mem (hl s mem_cons_self), this, cons_append]
  exact key st.reverse fun s hs => hst s (mem_reverse.mp hs)

/-- A text is made of segments in one way. -/
theorem joinSegments_inj {st st' : List (List α)} {last' : List α} (hst : ∀ s ∈ st, sep ∉ s)
    (hst' : ∀ s ∈ st', sep ∉ s) (hlast : sep ∉ last) (hlast' : sep ∉ last')
    (h : joinSegments sep st last = joinSegments sep st' last') : st = st' ∧ last = last' := by
  have hsplit := congrArg (splitOn sep) h
  rw [splitOn_joinSegments hst hlast, splitOn_joinSegments hst' hlast'] at hsplit
  obtain ⟨hrev, hone⟩ := append_inj' hsplit rfl
  exact ⟨reverse_inj.mp hrev, singleton_inj.mp hone⟩

/-- The segments with a separator behind them, and the one behind the last. -/
def initSegments (sep : α) (l : List α) : List (List α) := (l.splitOn sep).dropLast

def lastSegment (sep : α) (l : List α) : List α := (l.splitOn sep).getLastD []

theorem initSegments_append_cons (rest : List α) (h : sep ∉ seg) :
    initSegments sep (seg ++ sep :: rest) = seg :: initSegments sep rest := by
  rw [initSegments, splitOn_append_cons_self_of_not_mem h, dropLast_cons_of_ne_nil (splitOn_ne_nil sep rest)]
  rfl

theorem lastSegment_append_cons (rest : List α) (h : sep ∉ seg) :
    lastSegment sep (seg ++ sep :: rest) = lastSegment sep rest := by
  rw [lastSegment, splitOn_append_cons_self_of_not_mem h]
  cases hr : rest.splitOn sep with
  | nil => exact absurd hr (splitOn_ne_nil sep rest)
  | cons s l => rw [lastSegment, hr, getLastD_cons, getLastD_cons, getLastD_cons]

/-- `place` is given each segment when its separator is read. -/
def readSegments (sep : α) (place : σ → List α → Option σ) : σ → List α → List α → Option (σ × List α)
  | s, seg, [] => some (s, seg)
  | s, seg, a :: rest =>
    if a = sep then (place s seg).bind fun s' => readSegments sep place s' [] rest
    else readSegments sep place s (seg ++ [a]) rest

theorem readSegments_eq {place : σ → List α → Option σ} {rest : List α} : ∀ {s : σ} {seg : List α},
    sep ∉ seg → readSegments sep place s seg rest =
      ((initSegments sep (seg ++ rest)).foldlM place s).map (·, lastSegment sep (seg ++ rest)) := by
  induction rest with
  | nil =>
    intro s seg h
    rw [append_nil, initSegments, lastSegment, splitOn_eq_singleton h]
    rfl
  | cons a rest ih =>
    intro s seg h
    rw [readSegments]
    split_ifs with ha
    · subst ha
      rw [initSegments_append_cons rest h, lastSegment_append_cons rest h, foldlM_cons]
      cases place s seg with
      | none => rfl
      | some s' => exact ih (not_mem_nil)
    have hseg : sep ∉ seg ++ [a] := by
      rw [mem_append, mem_singleton]
      rintro (hm | rfl)
      · exact h hm
      · exact ha rfl
    rw [ih hseg, append_assoc, singleton_append]

/-- By induction on the text, a segment at a time. -/
theorem not_mem_of_mem_splitOn (l : List α) : ∀ s ∈ l.splitOn sep, sep ∉ s := by
  by_cases h : sep ∈ l
  · obtain ⟨seg, rest, hl, hseg⟩ := eq_append_cons_of_mem h
    have hlt : rest.length < l.length := by
      rw [hl, length_append, length_cons]
      omega
    rw [hl, splitOn_append_cons_self_of_not_mem hseg]
    exact forall_mem_cons.mpr ⟨hseg, not_mem_of_mem_splitOn rest⟩
  · rw [splitOn_eq_singleton h]
    intro s hs
    rwa [mem_singleton.mp hs]
termination_by l.length

theorem not_mem_initSegments {s : List α} (h : s ∈ initSegments sep l) : sep ∉ s :=
  not_mem_of_mem_splitOn l s (dropLast_subset _ h)

theorem not_mem_lastSegment (l : List α) : sep ∉ lastSegment sep l := by
  rw [lastSegment, getLastD_eq_getLast?]
  cases h : (l.splitOn sep).getLast? with
  | none => exact not_mem_nil
  | some s => exact not_mem_of_mem_splitOn l s (mem_of_getLast? h)

end GokuStudio.Lib

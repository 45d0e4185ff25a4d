import Mathlib.Data.List.Basic
import Mathlib.Tactic.Common

/-!
# Machines that read a word as it arrives

A machine takes one letter at a time. It goes on, maybe with some output, or it
finds that the word is complete, or that it never will be. `lang s w d` says that
the word `w`, read from `s` on, is complete, and that its output is `d`.

If a letter leaves exactly the words that complete the letters read so far
(`Residual`), then the machine stops at the right place with the right output,
refuses a word only if no word that goes on from it is complete, and otherwise
waits for more (`eat_done`, `eat_invalid`, `eat_more`).
-/

namespace GokuStudio.Lib

open List

inductive Bite (σ β : Type) where
  | next (s : σ) (out : List β)
  | done
  | invalid
deriving DecidableEq, Repr

/-- With the output so far, and what is left behind a complete word. -/
inductive Meal (σ α β : Type) where
  | more (s : σ) (out : List β)
  | done (out : List β) (rest : List α)
  | invalid
deriving DecidableEq, Repr

variable {σ α β : Type}

def Meal.prepend (o : List β) : Meal σ α β → Meal σ α β
  | .more s out => .more s (o ++ out)
  | .done out rest => .done (o ++ out) rest
  | .invalid => .invalid

theorem Meal.prepend_nil (m : Meal σ α β) : m.prepend [] = m := by
  cases m <;> rfl

theorem Meal.prepend_append (o1 o2 : List β) (m : Meal σ α β) : m.prepend (o1 ++ o2) = (m.prepend o2).prepend o1 := by
  cases m <;> simp [Meal.prepend]

def eat (bite : σ → α → Bite σ β) : σ → List α → Meal σ α β
  | s, [] => .more s []
  | s, a :: w =>
    match bite s a with
    | .next s' o => (eat bite s' w).prepend o
    | .done => .done [] w
    | .invalid => .invalid

structure Residual (bite : σ → α → Bite σ β) (lang : σ → List α → List β → Prop) : Prop where
  nil : ∀ s d, ¬ lang s [] d
  next : ∀ {s a s' o}, bite s a = .next s' o → ∀ w d, lang s (a :: w) d ↔ ∃ d', d = o ++ d' ∧ lang s' w d'
  done : ∀ {s a}, bite s a = .done → ∀ w d, lang s (a :: w) d ↔ w = [] ∧ d = []
  invalid : ∀ {s a}, bite s a = .invalid → ∀ w d, ¬ lang s (a :: w) d
  live : ∀ s, ∃ w d, lang s w d

variable {bite : σ → α → Bite σ β} {lang : σ → List α → List β → Prop} {m : Meal σ α β} {w : List α}

theorem Meal.prepend_eq_done {o d : List β} {rest : List α} :
    m.prepend o = .done d rest ↔ ∃ d', m = .done d' rest ∧ d = o ++ d' := by
  cases m with
  | more s out | invalid => simp [Meal.prepend]
  | done out rest' =>
    constructor
    · intro h
      cases h
      exact ⟨out, rfl, rfl⟩
    · rintro ⟨d', h, rfl⟩
      cases h
      rfl

theorem Meal.prepend_eq_more {o d : List β} {s : σ} :
    m.prepend o = .more s d ↔ ∃ d', m = .more s d' ∧ d = o ++ d' := by
  cases m with
  | done out rest | invalid => simp [Meal.prepend]
  | more s' out =>
    constructor
    · intro h
      cases h
      exact ⟨out, rfl, rfl⟩
    · rintro ⟨d', h, rfl⟩
      cases h
      rfl

theorem Meal.prepend_eq_invalid {o : List β} : m.prepend o = .invalid ↔ m = .invalid := by
  cases m <;> simp [Meal.prepend]

section
variable (h : Residual bite lang)
include h

/-- The machine stops behind a complete word, and behind nothing else. -/
theorem eat_done : ∀ {s : σ} {d : List β} {rest : List α},
    eat bite s w = .done d rest ↔ ∃ u, w = u ++ rest ∧ lang s u d := by
  induction w with
  | nil =>
    intro s d rest
    refine ⟨fun he => (by cases he), ?_⟩
    rintro ⟨u, hu, hl⟩
    rw [(append_eq_nil_iff.mp hu.symm).1] at hl
    exact absurd hl (h.nil s d)
  | cons a w ih =>
    intro s d rest
    rw [eat]
    -- a complete word is not empty, so it begins with the letter that is read
    have hcons : (∃ u, a :: w = u ++ rest ∧ lang s u d) ↔ ∃ u, w = u ++ rest ∧ lang s (a :: u) d := by
      constructor
      · rintro ⟨u, hu, hl⟩
        cases u with
        | nil => exact absurd hl (h.nil s d)
        | cons b u =>
          obtain ⟨rfl, rfl⟩ := cons.inj hu
          exact ⟨u, rfl, hl⟩
      · rintro ⟨u, rfl, hl⟩
        exact ⟨a :: u, rfl, hl⟩
    rw [hcons]
    cases hb : bite s a with
    | next s' o =>
      rw [Meal.prepend_eq_done]
      constructor
      · rintro ⟨d', he, rfl⟩
        obtain ⟨u, hu, hl⟩ := ih.mp he
        exact ⟨u, hu, (h.next hb u _).mpr ⟨d', rfl, hl⟩⟩
      · rintro ⟨u, hu, hl⟩
        obtain ⟨d', rfl, hl'⟩ := (h.next hb u d).mp hl
        exact ⟨d', ih.mpr ⟨u, hu, hl'⟩, rfl⟩
    | done =>
      constructor
      · intro he
        cases he
        exact ⟨[], rfl, (h.done hb [] []).mpr ⟨rfl, rfl⟩⟩
      · rintro ⟨u, rfl, hl⟩
        obtain ⟨rfl, rfl⟩ := (h.done hb u d).mp hl
        rfl
    | invalid =>
      refine ⟨fun he => (by cases he), ?_⟩
      rintro ⟨u, -, hl⟩
      exact absurd hl (h.invalid hb u d)

/-- No word that goes on from a refused one is complete. -/
theorem eat_invalid : ∀ {s : σ}, eat bite s w = .invalid → ∀ x u d, u <+: w ++ x → ¬ lang s u d := by
  induction w with
  | nil =>
    intro s he
    cases he
  | cons a w ih =>
    intro s he x u d hu hl
    rw [eat] at he
    cases u with
    | nil => exact h.nil s d hl
    | cons b u =>
      rw [cons_append, cons_prefix_cons] at hu
      obtain ⟨rfl, hu⟩ := hu
      cases hb : bite s b with
      | next s' o =>
        rw [hb] at he
        obtain ⟨d', -, hl'⟩ := (h.next hb u d).mp hl
        exact ih (Meal.prepend_eq_invalid.mp he) x u d' hu hl'
      | done =>
        rw [hb] at he
        cases he
      | invalid => exact h.invalid hb u d hl

/-- A word that is neither complete nor refused can be completed. -/
theorem eat_more : ∀ {s s' : σ} {out : List β},
    eat bite s w = .more s' out → ∀ x d, lang s' x d → lang s (w ++ x) (out ++ d) := by
  induction w with
  | nil =>
    intro s s' out he x d hl
    cases he
    exact hl
  | cons a w ih =>
    intro s s' out he x d hl
    rw [eat] at he
    cases hb : bite s a with rw [hb] at he
    | next s1 o =>
      obtain ⟨out', hm, rfl⟩ := Meal.prepend_eq_more.mp he
      refine (h.next hb (w ++ x) _).mpr ⟨out' ++ d, append_assoc .., ?_⟩
      exact ih hm x d hl
    | done | invalid =>
      cases he

end

theorem eat_append {w1 w2 : List α} : ∀ {s : σ}, eat bite s (w1 ++ w2) =
    match eat bite s w1 with
    | .more s' out => (eat bite s' w2).prepend out
    | .done out rest => .done out (rest ++ w2)
    | .invalid => .invalid := by
  induction w1 with
  | nil =>
    intro s
    exact (Meal.prepend_nil _).symm
  | cons a w1 ih =>
    intro s
    rw [cons_append, eat, eat]
    cases bite s a with
    | next s' o =>
      dsimp only
      rw [ih]
      cases eat bite s' w1 with
      | more s1 out => exact (Meal.prepend_append ..).symm
      | done out rest | invalid => rfl
    | done | invalid => rfl

end GokuStudio.Lib

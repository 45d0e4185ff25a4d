import Mathlib.Data.List.Basic
import Mathlib.Tactic.Common

/-!
# Runs of a machine

A machine takes one event after the other, `es.foldl step s`. `Meets step F s es`
says that every event of a run meets `F`, in the state in which its turn comes.
If in a state where `P` holds an event keeps `P` exactly when it meets `F`, then
`P` holds all along a run exactly when all its events meet `F`
(`along_iff_meets`). `V` is what the events of a run promise of themselves.

The second half is the same for a machine whose steps may have no result, that is
for `es.foldlM step s`.
-/

namespace GokuStudio.Lib

open List Option
variable {σ ε : Type} {step : σ → ε → σ} {P : σ → Prop} {V F : σ → ε → Prop}

/-- Every event meets `F` when its turn comes. -/
def Meets (step : σ → ε → σ) (F : σ → ε → Prop) : σ → List ε → Prop
  | _, [] => True
  | s, e :: es => F s e ∧ Meets step F (step s e) es

instance decidableMeets [∀ s e, Decidable (F s e)] : ∀ (s : σ) (es : List ε), Decidable (Meets step F s es)
  | _, [] => isTrue trivial
  | s, e :: es =>
    have := decidableMeets (step s e) es
    inferInstanceAs (Decidable (F s e ∧ Meets step F (step s e) es))

/-- `P` holds in every state of the run. -/
def Along (step : σ → ε → σ) (P : σ → Prop) (s : σ) (es : List ε) : Prop := ∀ pre, pre <+: es → P (pre.foldl step s)

variable {s : σ} {es : List ε} {e : ε}

theorem along_cons : Along step P s (e :: es) ↔ P s ∧ Along step P (step s e) es := by
  constructor
  · intro h
    refine ⟨h [] ( nil_prefix ..), fun pre hpre => ?_⟩
    exact h (e :: pre) (cons_prefix_cons.mpr ⟨rfl, hpre⟩)
  · rintro ⟨h0, h⟩ pre hpre
    cases pre with
    | nil => exact h0
    | cons a pre =>
      obtain ⟨rfl, hrest⟩ := cons_prefix_cons.mp hpre
      exact h pre hrest

theorem along_nil : Along step P s [] ↔ P s := by
  constructor
  · exact fun h => h [] ( nil_prefix ..)
  · intro h pre hpre
    rw [prefix_nil.mp hpre]
    exact h

/-- `P` holds in `s` exactly if `A` does, and then `I` does, too. -/
def Decides (I P : σ → Prop) (A : Prop) (s : σ) : Prop := (A → I s ∧ P s) ∧ (P s → A)

theorem Decides.of_true {I : σ → Prop} {A : Prop} (hA : A) (h : I s ∧ P s) : Decides I P A s :=
  ⟨fun _ => h, fun _ => hA⟩

/-- `I` is what the argument has to know of the states besides `P`. -/
theorem along_iff_meets {I : σ → Prop} (hstep : ∀ s e, I s → P s → V s e → Decides I P (F s e) (step s e)) (hI : I s)
    (h : P s) (hV : Meets step V s es) : Along step P s es ↔ Meets step F s es := by
  induction es generalizing s with
  | nil =>
    rw [along_nil]
    exact iff_of_true h trivial
  | cons e es ih =>
    rw [along_cons, and_iff_right h, Meets]
    constructor
    · intro hA
      have hP := hA [] ( nil_prefix ..)
      have hF := (hstep s e hI h hV.1).2 hP
      exact ⟨hF, (ih ((hstep s e hI h hV.1).1 hF).1 hP hV.2).mp hA⟩
    · rintro ⟨hF, hM⟩
      obtain ⟨hI', hP⟩ := (hstep s e hI h hV.1).1 hF
      exact (ih hI' hP hV.2).mpr hM

/-- The half that needs no more than that `F` keeps `P`. -/
theorem along_of_meets (hstep : ∀ s e, P s → F s e → P (step s e)) (h : P s)
    (hF : Meets step F s es) : Along step P s es := by
  induction es generalizing s with
  | nil => exact along_nil.mpr h
  | cons e es ih => exact along_cons.mpr ⟨h, ih (hstep s e h hF.1) hF.2⟩

theorem meets_of_forall (h : ∀ s e, F s e) (s : σ) (es : List ε) : Meets step F s es := by
  induction es generalizing s with
  | nil => trivial
  | cons e es ih => exact ⟨h s e, ih (step s e)⟩

/-! ## Steps that may have no result -/

section Partial
variable {step : σ → ε → Option σ}

def MeetsPartial (step : σ → ε → Option σ) (F : σ → ε → Prop) : σ → List ε → Prop
  | _, [] => True
  | s, e :: es => F s e ∧ ∀ s', step s e = some s' → MeetsPartial step F s' es

theorem meetsPartial_cons_none (h : step s e = none) : MeetsPartial step F s (e :: es) ↔ F s e := by
  rw [MeetsPartial, h]
  simp

theorem meetsPartial_cons_some {s' : σ} (h : step s e = some s') :
    MeetsPartial step F s (e :: es) ↔ F s e ∧ MeetsPartial step F s' es := by
  rw [MeetsPartial, h]
  simp

instance decidableMeetsPartial [∀ s e, Decidable (F s e)] : ∀ (s : σ) (es : List ε), Decidable (MeetsPartial step F s es)
  | _, [] => isTrue trivial
  | s, e :: es => match h : step s e with
    | none => decidable_of_iff' _ (meetsPartial_cons_none h)
    | some s' =>
      have := decidableMeetsPartial s' es
      decidable_of_iff' _ (meetsPartial_cons_some h)

/-- The run has a result all along, and `P` holds in every state of it. -/
def AlongPartial (step : σ → ε → Option σ) (P : σ → Prop) (s : σ) (es : List ε) : Prop :=
  ∀ pre, pre <+: es → ∃ s', pre.foldlM step s = some s' ∧ P s'

theorem alongPartial_nil : AlongPartial step P s [] ↔ P s := by
  constructor
  · intro h
    obtain ⟨s', hs', hP⟩ := h [] ( nil_prefix ..)
    rwa [← some.inj hs'] at hP
  · intro h pre hpre
    rw [prefix_nil.mp hpre]
    exact ⟨s, rfl, h⟩

theorem alongPartial_cons : AlongPartial step P s (e :: es) ↔
      P s ∧ ∃ s', step s e = some s' ∧ AlongPartial step P s' es := by
  constructor
  · intro h
    obtain ⟨s0, hs0, hP⟩ := h [] ( nil_prefix ..)
    rw [← some.inj hs0] at hP
    obtain ⟨s1, hs1, -⟩ := h [e] (cons_prefix_cons.mpr ⟨rfl, nil_prefix ..⟩)
    have hstep : step s e = some s1 := by simpa using hs1
    refine ⟨hP, s1, hstep, fun pre hpre => ?_⟩
    obtain ⟨s', hs', hP'⟩ := h (e :: pre) (cons_prefix_cons.mpr ⟨rfl, hpre⟩)
    rw [foldlM_cons, hstep] at hs'
    exact ⟨s', hs', hP'⟩
  · rintro ⟨h0, s1, hstep, h⟩ pre hpre
    cases pre with
    | nil => exact ⟨s, rfl, h0⟩
    | cons a pre =>
      obtain ⟨rfl, hrest⟩ := cons_prefix_cons.mp hpre
      obtain ⟨s', hs', hP'⟩ := h pre hrest
      refine ⟨s', ?_, hP'⟩
      rw [foldlM_cons, hstep]
      exact hs'

theorem alongPartial_iff_meets (hgood : ∀ s e, P s → V s e → F s e → ∃ s', step s e = some s' ∧ P s')
    (hbad : ∀ s e s', P s → V s e → step s e = some s' → P s' → F s e) (h : P s) (hV : MeetsPartial step V s es) :
    AlongPartial step P s es ↔ MeetsPartial step F s es := by
  induction es generalizing s with
  | nil =>
    rw [alongPartial_nil]
    exact iff_of_true h trivial
  | cons e es ih =>
    rw [alongPartial_cons, and_iff_right h, MeetsPartial]
    constructor
    · rintro ⟨s1, hstep, hA⟩
      obtain ⟨s0, hs0, hP⟩ := hA [] ( nil_prefix ..)
      rw [← some.inj hs0] at hP
      refine ⟨hbad s e s1 h hV.1 hstep hP, fun s' hs' => ?_⟩
      obtain rfl := mem_unique hstep hs'
      exact (ih hP (hV.2 s1 hstep)).mp hA
    · rintro ⟨hF, hM⟩
      obtain ⟨s1, hstep, hP⟩ := hgood s e h hV.1 hF
      exact ⟨s1, hstep, (ih hP (hV.2 s1 hstep)).mpr (hM s1 hstep)⟩

end Partial
end GokuStudio.Lib

import GokuStudio.Lib.Prog

/-!
# Processes side by side

Any number of processes work on one shared state. Each has a list of calls to
make and a handle of its own; a call is a `Prog`, and the steps of different
processes follow each other in any order (`Step`, `Steps`). A call that stops
takes its process with it.

`Protocol` is the rely/guarantee argument for such a system: an invariant of the
shared state and the auxiliary state, what each process relies on, and for each
call a `Safe` judgment that leads from `ready` to `ready`. `Protocol.steps` is
the rule for the parallel composition: in every configuration that is reached
the invariant holds and every process is where it should be.
-/

namespace GokuStudio.Lib

open Function

/-- Where a process is: between two calls, in a call, or gone. -/
inductive Status (σ ε δ ω ρ : Type) : Type where
  | idle (handle : δ)
  | busy (op : ω) (rest : Prog σ ε (δ × ρ))
  | stopped (op : ω)

structure Thread (σ ε δ ω ρ : Type) where
  todo : List ω
  done : List (ω × ρ)
  status : Status σ ε δ ω ρ

structure Conf (σ ε δ ω ρ : Type) where
  shared : σ
  threads : Nat → Thread σ ε δ ω ρ

/-- The calls a process can make, and what its end does to the shared state. -/
structure Service (σ ε δ ω ρ : Type) where
  prog : Nat → δ → ω → Prog σ ε (δ × ρ)
  exit : Nat → σ → σ

variable {p : Nat}

section Steps
variable {σ ε δ ω ρ : Type}

def Conf.setThread (C : Conf σ ε δ ω ρ) (p : Nat) (t : Thread σ ε δ ω ρ) : Conf σ ε δ ω ρ :=
  { C with threads := update C.threads p t }

theorem Conf.setThread_self (C : Conf σ ε δ ω ρ) (p : Nat) (t : Thread σ ε δ ω ρ) :
    (C.setThread p t).threads p = t := update_self ..

theorem Conf.setThread_of_ne (C : Conf σ ε δ ω ρ) {q : Nat} (t : Thread σ ε δ ω ρ) (h : q ≠ p) :
    (C.setThread p t).threads q = C.threads q := update_of_ne h ..

/-- One step of process `p`. -/
inductive Step (S : Service σ ε δ ω ρ) (p : Nat) : Conf σ ε δ ω ρ → Conf σ ε δ ω ρ → Prop where
  | start {C : Conf σ ε δ ω ρ} {todo : List ω} {done : List (ω × ρ)} {handle : δ} {op : ω} :
      C.threads p = ⟨op :: todo, done, .idle handle⟩ →
      Step S p C (C.setThread p ⟨todo, done, .busy op (S.prog p handle op)⟩)
  | act {C : Conf σ ε δ ω ρ} {todo : List ω} {done : List (ω × ρ)} {op : ω} {g : σ → Bool}
      {u : σ → σ} {k : σ → Prog σ ε (δ × ρ)} :
      C.threads p = ⟨todo, done, .busy op (.act g u k)⟩ → g C.shared = true →
      Step S p C
        (({ C with shared := u C.shared } : Conf σ ε δ ω ρ).setThread p
          ⟨todo, done, .busy op (k C.shared)⟩)
  | ret {C : Conf σ ε δ ω ρ} {todo : List ω} {done : List (ω × ρ)} {op : ω} {handle : δ} {r : ρ} :
      C.threads p = ⟨todo, done, .busy op (.ret (handle, r))⟩ →
      Step S p C (C.setThread p ⟨todo, done ++ [(op, r)], .idle handle⟩)
  | stop {C : Conf σ ε δ ω ρ} {todo : List ω} {done : List (ω × ρ)} {op : ω} {e : ε} :
      C.threads p = ⟨todo, done, .busy op (.stop e)⟩ →
      Step S p C
        (({ C with shared := S.exit p C.shared } : Conf σ ε δ ω ρ).setThread p
          ⟨todo, done, .stopped op⟩)

/-- Any number of steps, each of any process. -/
inductive Steps (S : Service σ ε δ ω ρ) : Conf σ ε δ ω ρ → Conf σ ε δ ω ρ → Prop where
  | refl {C : Conf σ ε δ ω ρ} : Steps S C C
  | step {C C' C'' : Conf σ ε δ ω ρ} {p : Nat} : Steps S C C' → Step S p C' C'' → Steps S C C''

variable {S : Service σ ε δ ω ρ} {C : Conf σ ε δ ω ρ} {done : List (ω × ρ)} {todo : List ω} {op : ω} {s' : σ} {r : ρ}

theorem Steps.trans {C' C'' : Conf σ ε δ ω ρ} (h : Steps S C C') (h' : Steps S C' C'') : Steps S C C'' := by
  induction h' with
  | refl => exact h
  | step _ hstep ih => exact ih.step hstep

theorem Conf.setThread_setThread (C : Conf σ ε δ ω ρ) (s : σ) (p : Nat) (t t' : Thread σ ε δ ω ρ) :
    ({ C.setThread p t with shared := s } : Conf σ ε δ ω ρ).setThread p t' =
      ({ C with shared := s } : Conf σ ε δ ω ρ).setThread p t' := by
  simp only [Conf.setThread, update_idem]

/-- A call that ends when it runs alone can be run to its end. -/
theorem Steps.rest {handle : δ} {x : Prog σ ε (δ × ρ)} (hp : C.threads p = ⟨todo, done, .busy op x⟩)
    (hrun : run x C.shared = (.ok (handle, r), s')) :
    Steps S C (({ C with shared := s' } : Conf σ ε δ ω ρ).setThread p
      ⟨todo, done ++ [(op, r)], .idle handle⟩) := by
  induction x generalizing C with
  | ret a =>
    obtain ⟨ha, rfl⟩ := Prod.mk.inj hrun
    obtain rfl := Result.ok.inj ha
    exact Steps.refl.step (.ret hp)
  | stop e => exact absurd (congrArg Prod.fst hrun) (by simp)
  | act g u k ih =>
    by_cases hg : g C.shared = true
    · rw [run, if_pos hg] at hrun
      have := @ih C.shared (({ C with shared := u C.shared } : Conf σ ε δ ω ρ).setThread p
        ⟨todo, done, .busy op (k C.shared)⟩) (Conf.setThread_self ..) hrun
      rw [Conf.setThread_setThread] at this
      exact (Steps.refl.step (.act hp hg)).trans this
    · rw [run, if_neg hg] at hrun
      exact absurd (congrArg Prod.fst hrun) (by simp)

theorem Steps.call {handle handle' : δ} (hp : C.threads p = ⟨op :: todo, done, .idle handle⟩)
    (hrun : run (S.prog p handle op) C.shared = (.ok (handle', r), s')) :
    Steps S C (({ C with shared := s' } : Conf σ ε δ ω ρ).setThread p
      ⟨todo, done ++ [(op, r)], .idle handle'⟩) := by
  have := Steps.rest (S := S) (C := C.setThread p ⟨todo, done, .busy op (S.prog p handle op)⟩)
    (Conf.setThread_self ..) hrun
  rw [Conf.setThread_setThread] at this
  exact (Steps.refl.step (.start hp)).trans this

/-- Nobody is in the middle of a call. -/
def Conf.Quiet (C : Conf σ ε δ ω ρ) : Prop :=
  ∀ p, (∃ handle, (C.threads p).status = .idle handle) ∨ ∃ op, (C.threads p).status = .stopped op

end Steps

/-! ## The rule for parallel composition -/

section Protocol
variable {σ ε δ ω ρ Γ : Type}

/-- A rely/guarantee argument for all processes. `ready` holds of a process
between two calls, `halting` when a call stops, `halted` ever after. -/
structure Protocol (S : Service σ ε δ ω ρ) (Γ : Type) where
  inv : σ → Γ → Prop
  rely : Nat → σ × Γ → σ × Γ → Prop
  rely_refl : ∀ p w, rely p w w
  rely_trans : ∀ p {w w' w''}, rely p w w' → rely p w' w'' → rely p w w''
  proper : ω → Prop
  ready : Nat → List (ω × ρ) → σ × Γ → Prop
  halting : Nat → List (ω × ρ) → ω → σ × Γ → Prop
  halted : Nat → List (ω × ρ) → ω → σ × Γ → Prop
  ready_stable : ∀ {p done w w'}, rely p w w' → inv w'.1 w'.2 → ready p done w → ready p done w'
  halting_stable : ∀ {p done op w w'}, rely p w w' → inv w'.1 w'.2 → halting p done op w → halting p done op w'
  halted_stable : ∀ {p done op w w'}, rely p w w' → inv w'.1 w'.2 → halted p done op w → halted p done op w'

namespace Protocol
variable {S : Service σ ε δ ω ρ} (𝓟 : Protocol S Γ) {t : Thread σ ε δ ω ρ} {γ : Γ}

/-- What holds for process `p` while it works: each step keeps the invariant and
looks harmless to everybody else. -/
def rules (p : Nat) : Rules σ Γ where
  inv := 𝓟.inv
  rely := 𝓟.rely p
  guar w w' := ∀ q, q ≠ p → 𝓟.rely q w w'
  wait := True
  rely_refl := 𝓟.rely_refl p
  rely_trans := 𝓟.rely_trans p

/-- Every call leads from `ready` to `ready`, or to `halting`; the auxiliary
state may move when the call starts. -/
def Calls : Prop := ∀ p done handle op s γ, 𝓟.proper op → 𝓟.ready p done (s, γ) → 𝓟.inv s γ →
    ∃ γ', 𝓟.inv s γ' ∧ (∀ q, q ≠ p → 𝓟.rely q (s, γ) (s, γ')) ∧
      Safe (𝓟.rules p) (fun a w => 𝓟.ready p (done ++ [(op, a.2)]) w)
        (fun _ w => 𝓟.halting p done op w) (S.prog p handle op) (s, γ')

/-- The end of a process leads from `halting` to `halted`. -/
def Exits : Prop := ∀ p done op s γ, 𝓟.halting p done op (s, γ) → 𝓟.inv s γ →
    ∃ γ', 𝓟.inv (S.exit p s) γ' ∧ (∀ q, q ≠ p → 𝓟.rely q (s, γ) (S.exit p s, γ')) ∧ 𝓟.halted p done op (S.exit p s, γ')

/-- A process is where it should be. -/
def Local (p : Nat) (t : Thread σ ε δ ω ρ) (w : σ × Γ) : Prop := (∀ op ∈ t.todo, 𝓟.proper op) ∧
  match t.status with
  | .idle _ => 𝓟.ready p t.done w
  | .busy op x => Safe (𝓟.rules p) (fun a w => 𝓟.ready p (t.done ++ [(op, a.2)]) w)
      (fun _ w => 𝓟.halting p t.done op w) x w
  | .stopped op => 𝓟.halted p t.done op w

theorem Local.stable {𝓟 : Protocol S Γ} {w w' : σ × Γ}
    (h : 𝓟.Local p t w) (hr : 𝓟.rely p w w') (hi : 𝓟.inv w'.1 w'.2) : 𝓟.Local p t w' := by
  obtain ⟨hp, hs⟩ := h
  refine ⟨hp, ?_⟩
  cases hst : t.status with rw [hst] at hs
  | idle handle => exact 𝓟.ready_stable hr hi hs
  | busy op x => exact Safe.stable hs (fun _ => 𝓟.ready_stable hr hi) (fun _ => 𝓟.halting_stable hr hi) hr
  | stopped op => exact 𝓟.halted_stable hr hi hs

/-- The invariant holds and every process is where it should be. -/
def Holds (C : Conf σ ε δ ω ρ) (γ : Γ) : Prop := 𝓟.inv C.shared γ ∧ ∀ p, 𝓟.Local p (C.threads p) (C.shared, γ)

/-- One process moves; the others only see what they rely on. -/
theorem Holds.move {𝓟 : Protocol S Γ} {C : Conf σ ε δ ω ρ} {γ' : Γ} {s' : σ}
    (h : 𝓟.Holds C γ) (hinv : 𝓟.inv s' γ')
    (hguar : ∀ q, q ≠ p → 𝓟.rely q (C.shared, γ) (s', γ')) (ht : 𝓟.Local p t (s', γ')) :
    𝓟.Holds (({ C with shared := s' } : Conf σ ε δ ω ρ).setThread p t) γ' := by
  refine ⟨hinv, fun q => ?_⟩
  by_cases hq : q = p
  · subst hq
    rw [Conf.setThread_self]
    exact ht
  · rw [Conf.setThread_of_ne _ _ hq]
    exact (h.2 q).stable (hguar q hq) hinv

theorem step {𝓟 : Protocol S Γ} (hcalls : 𝓟.Calls) (hexits : 𝓟.Exits) {p : Nat}
    {C C' : Conf σ ε δ ω ρ} (h : 𝓟.Holds C γ) (hstep : Step S p C C') :
    ∃ γ', 𝓟.Holds C' γ' := by
  have hloc := h.2 p
  cases hstep with
  | @start todo done handle op hp =>
    rw [hp] at hloc
    obtain ⟨γ', hinv, hguar, hsafe⟩ := hcalls p done handle op C.shared γ (hloc.1 op (by simp)) hloc.2 h.1
    exact ⟨γ', h.move hinv hguar ⟨fun op' ho => hloc.1 op' (by simp [ho]), hsafe⟩⟩
  | @act todo done op g u k hp hg =>
    rw [hp] at hloc
    obtain ⟨γ', hinv, hguar, hsafe⟩ := (hloc.2 C.shared γ (𝓟.rely_refl p _) h.1).2 hg
    exact ⟨γ', h.move hinv hguar ⟨hloc.1, hsafe⟩⟩
  | @ret todo done op handle r hp =>
    rw [hp] at hloc
    exact ⟨γ, h.move h.1 (fun q _ => 𝓟.rely_refl q _) ⟨hloc.1, hloc.2⟩⟩
  | @stop todo done op e hp =>
    rw [hp] at hloc
    obtain ⟨γ', hinv, hguar, hhalted⟩ := hexits p done op C.shared γ hloc.2 h.1
    exact ⟨γ', h.move hinv hguar ⟨hloc.1, hhalted⟩⟩

/-- Parallel composition: what holds at the start leads through every run. -/
theorem steps {𝓟 : Protocol S Γ} (hcalls : 𝓟.Calls) (hexits : 𝓟.Exits)
    {C C' : Conf σ ε δ ω ρ} (h : 𝓟.Holds C γ) (hsteps : Steps S C C') :
    ∃ γ', 𝓟.Holds C' γ' := by
  induction hsteps with
  | refl => exact ⟨γ, h⟩
  | step _ hstep ih =>
    obtain ⟨γ', h'⟩ := ih
    exact step hcalls hexits h' hstep

end Protocol
end Protocol
end GokuStudio.Lib

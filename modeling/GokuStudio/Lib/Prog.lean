import Mathlib.Tactic.Common

/-!
# Programs of atomic steps

A system program that several processes run on one shared state is a tree of
*atomic steps*: a step may wait until a guard holds, it updates the shared
state at once, and what the program does next may depend on the state it saw.
Everything between two steps is private to the process and costs nothing.

- `Prog σ ε α` — the programs; a run ends by returning (`ret`) or by stopping
  the whole process (`stop`).
- `run` — one process alone. A step whose guard is false waits for somebody
  else, so alone it waits for ever (`Result.blocked`).
- `Safe` — the rely/guarantee judgment. `Rules` says what every process keeps
  true (`inv`), what the others may do meanwhile (`rely`) and what each own
  step must look like from outside (`guar`). Auxiliary state `Γ` is updated by
  the proof, never by the program.
- `Safe.run_alone` — a process that owes never to wait ends when it runs
  alone: the judgment becomes a total-correctness statement about `run`.
-/

namespace GokuStudio.Lib

/-- A process over shared state `σ` that may stop with `ε` or return `α`. -/
inductive Prog (σ ε α : Type) : Type where
  | ret (a : α)
  | stop (e : ε)
  | act (guard : σ → Bool) (upd : σ → σ) (next : σ → Prog σ ε α)

namespace Prog
variable {σ ε α β : Type}

def bind (x : Prog σ ε α) (f : α → Prog σ ε β) : Prog σ ε β :=
  match x with
  | .ret a => f a
  | .stop e => .stop e
  | .act g u k => .act g u (fun s => (k s).bind f)

instance : Monad (Prog σ ε) where
  pure := .ret
  bind := bind

@[simp] theorem pure_eq (a : α) : (pure a : Prog σ ε α) = .ret a := rfl

@[simp] theorem act_bind (g : σ → Bool) (u : σ → σ) (k : σ → Prog σ ε α)
    (f : α → Prog σ ε β) :
    (Prog.act g u k >>= f) = .act g u (fun s => k s >>= f) := rfl

/-- One step that waits for nothing and changes nothing: read the state. -/
def look (f : σ → α) : Prog σ ε α := .act (fun _ => true) id (fun s => .ret (f s))

/-- One step that waits for nothing: update the state, and return what `f` saw
just before. -/
def update (u : σ → σ) (f : σ → α) : Prog σ ε α := .act (fun _ => true) u (fun s => .ret (f s))

/-- One step that waits for its guard. -/
def await (g : σ → Bool) (u : σ → σ) : Prog σ ε Unit := .act g u (fun _ => .ret ())

end Prog

/-! ## One process alone -/

/-- How a run ends. -/
inductive Result (ε α : Type) : Type where
  | ok (a : α)
  | stopped (e : ε)
  | blocked
deriving DecidableEq, Repr

def Result.map {ε α β : Type} (f : α → β) : Result ε α → Result ε β
  | .ok a => .ok (f a)
  | .stopped e => .stopped e
  | .blocked => .blocked

section Run
variable {σ ε α β : Type}

def run : Prog σ ε α → σ → Result ε α × σ
  | .ret a, s => (.ok a, s)
  | .stop e, s => (.stopped e, s)
  | .act g u k, s => if g s then run (k s) (u s) else (.blocked, s)

@[simp] theorem run_ret (a : α) (s : σ) : run (.ret a : Prog σ ε α) s = (.ok a, s) := rfl
@[simp] theorem run_stop (e : ε) (s : σ) : run (.stop e : Prog σ ε α) s = (.stopped e, s) := rfl

theorem run_bind (x : Prog σ ε α) (f : α → Prog σ ε β) (s : σ) : run (x >>= f) s =
      match run x s with
      | (.ok a, s') => run (f a) s'
      | (.stopped e, s') => (.stopped e, s')
      | (.blocked, s') => (.blocked, s') := by
  induction x generalizing s with
  | ret a | stop e => rfl
  | act g u k ih =>
    by_cases hg : g s = true
    · simp only [Prog.act_bind, run, hg, if_true]
      exact ih s (u s)
    · simp [Prog.act_bind, run, hg]

end Run

/-! ## Rely and guarantee -/

/-- What a process may assume of the others and owes to them. `wait` says
whether its own steps may wait. -/
structure Rules (σ Γ : Type) where
  inv : σ → Γ → Prop
  rely : σ × Γ → σ × Γ → Prop
  guar : σ × Γ → σ × Γ → Prop
  wait : Prop
  rely_refl : ∀ w, rely w w
  rely_trans : ∀ {w w' w''}, rely w w' → rely w' w'' → rely w w''

/-- `Q` holds in whatever world the others may have made of `w`. -/
abbrev Rules.Later {σ Γ : Type} (𝓡 : Rules σ Γ) (w : σ × Γ) (Q : σ → Γ → Prop) : Prop :=
  ∀ s γ, 𝓡.rely w (s, γ) → 𝓡.inv s γ → Q s γ

/-- The process may make `s` of the shared state in `w`, so that `Q` holds. -/
abbrev Rules.Puts {σ Γ : Type} (𝓡 : Rules σ Γ) (w : σ × Γ) (s : σ) (Q : σ × Γ → Prop) : Prop :=
  ∃ γ, 𝓡.inv s γ ∧ 𝓡.guar w (s, γ) ∧ Q (s, γ)

section Safe
variable {σ Γ ε α β : Type}

/-- From the world `w`, whatever the others do between two steps, every step
keeps the invariant and the guarantee; a return satisfies `Q`, a stop `F`. -/
def Safe (𝓡 : Rules σ Γ) (Q : α → σ × Γ → Prop) (F : ε → σ × Γ → Prop) : Prog σ ε α → σ × Γ → Prop
  | .ret a, w => Q a w
  | .stop e, w => F e w
  | .act g u k, w => ∀ s γ, 𝓡.rely w (s, γ) → 𝓡.inv s γ → (𝓡.wait ∨ g s = true) ∧
      (g s = true → ∃ γ', 𝓡.inv (u s) γ' ∧ 𝓡.guar (s, γ) (u s, γ') ∧ Safe 𝓡 Q F (k s) (u s, γ'))

variable {𝓡 : Rules σ Γ} {Q : α → σ × Γ → Prop} {F : ε → σ × Γ → Prop} {w : σ × Γ}

@[simp] theorem safe_ret {a : α} : Safe 𝓡 Q F (.ret a) w ↔ Q a w := Iff.rfl

variable {x : Prog σ ε α} {f : σ → α} {γ0 : Γ} {s0 : σ}

/-- Sequencing: run the first part to a world from which the rest is safe. -/
theorem safe_bind {Q : β → σ × Γ → Prop} {f : α → Prog σ ε β} :
    Safe 𝓡 Q F (x >>= f) w ↔ Safe 𝓡 (fun a => Safe 𝓡 Q F (f a)) F x w := by
  induction x generalizing w with
  | ret a | stop e => rfl
  | act g u k ih => simp only [Prog.act_bind, Safe, ih]

/-- Consequence rule. -/
theorem Safe.mono {Q' : α → σ × Γ → Prop} {F' : ε → σ × Γ → Prop} (h : Safe 𝓡 Q F x w)
    (hQ : ∀ a w, Q a w → Q' a w) (hF : ∀ e w, F e w → F' e w) :
    Safe 𝓡 Q' F' x w := by
  induction x generalizing w with
  | ret a => exact hQ a w h
  | stop e => exact hF e w h
  | act g u k ih =>
    intro s γ hr hi
    refine ⟨(h s γ hr hi).1, fun hg => ?_⟩
    obtain ⟨γ', h1, h2, h3⟩ := (h s γ hr hi).2 hg
    exact ⟨γ', h1, h2, ih s h3⟩

/-- A judgment survives interference: that is what `rely` is for. The two
postconditions have to survive it themselves. -/
theorem Safe.stable {w' : σ × Γ} (h : Safe 𝓡 Q F x w)
    (hQ : ∀ a, Q a w → Q a w') (hF : ∀ e, F e w → F e w') (hr : 𝓡.rely w w') :
    Safe 𝓡 Q F x w' := by
  cases x with
  | ret a => exact hQ a h
  | stop e => exact hF e h
  | act g u k => exact fun s γ hr' => h s γ (𝓡.rely_trans hr hr')

/-- Reading: it is enough to be safe after every world the others may have
produced by the time of the read. -/
theorem safe_look (hguar : ∀ w, 𝓡.guar w w)
    (h : ∀ s γ, 𝓡.rely (s0, γ0) (s, γ) → 𝓡.inv s γ → Q (f s) (s, γ)) :
    Safe 𝓡 Q F (Prog.look f : Prog σ ε α) (s0, γ0) := by
  intro s γ hr hi
  exact ⟨.inr rfl, fun _ => ⟨γ, hi, hguar _, h s γ hr hi⟩⟩

/-- Writing: choose the new auxiliary state at every world the others may have
produced by the time of the write. -/
theorem safe_update {u : σ → σ} (h : 𝓡.Later (s0, γ0) fun s γ => 𝓡.Puts (s, γ) (u s) (Q (f s))) :
    Safe 𝓡 Q F (Prog.update u f : Prog σ ε α) (s0, γ0) := by
  intro s γ hr hi
  exact ⟨.inr rfl, fun _ => h s γ hr hi⟩

/-! ## Nobody else -/

/-- A process that may never wait really comes to an end when it runs alone,
and ends as promised. -/
theorem Safe.run_alone (hwait : ¬ 𝓡.wait) {s : σ} {γ : Γ} (hinv : 𝓡.inv s γ) (h : Safe 𝓡 Q F x (s, γ)) :
    (∃ a s' γ', run x s = (.ok a, s') ∧ 𝓡.inv s' γ' ∧ Q a (s', γ')) ∨
    (∃ e s' γ', run x s = (.stopped e, s') ∧ 𝓡.inv s' γ' ∧ F e (s', γ')) := by
  induction x generalizing s γ with
  | ret a => exact .inl ⟨a, s, γ, rfl, hinv, h⟩
  | stop e => exact .inr ⟨e, s, γ, rfl, hinv, h⟩
  | act g u k ih =>
    obtain ⟨hw, hstep⟩ := h s γ (𝓡.rely_refl _) hinv
    have hg : g s = true := hw.resolve_left hwait
    obtain ⟨γ', hinv', -, hsafe⟩ := hstep hg
    have hrun : run (.act g u k) s = run (k s) (u s) := by simp [run, hg]
    rw [hrun]
    exact ih s hinv' hsafe

end Safe
end GokuStudio.Lib

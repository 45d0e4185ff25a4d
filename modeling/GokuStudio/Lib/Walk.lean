import GokuStudio.Lib.Chain

/-!
# Loops, and loops along a chain

`loop` repeats a body that may fail. A loop that meets a failure, or does not come
to an end, has no result.

The loops of C code that follow pointers are made of it. `next a` is the pointer
field of the node at `a`, if there is a node.

- `walk` stops at a node or at the null pointer.
- `seek` looks one node ahead: it stops before a node or before the null pointer.
- `visit` goes to the end and returns the nodes.

On a `Chain` they end, and the list of its nodes says with what.
-/

namespace GokuStudio.Lib

open List Option

section Loop
variable {σ α : Type} {body : σ → Option (σ ⊕ α)} {s s' : σ} {a : α}

/-- `for (;;) body`: the body says where to go on, or with what the loop is left. -/
def loop (body : σ → Option (σ ⊕ α)) (s : σ) : Option α :=
  match body s with
  | none => none
  | some (.inr a) => some a
  | some (.inl s') => by
    apply loop
    · exact body
    · exact s'
partial_fixpoint

theorem loop_done (h : body s = some (.inr a)) : loop body s = some a := by
  rw [loop, h]

theorem loop_next (h : body s = some (.inl s')) : loop body s = loop body s' := by
  rw [loop, h]

theorem loop_fail (h : body s = none) : loop body s = none := by
  rw [loop, h]

theorem loop_endless {I : σ → Prop} (h : ∀ s, I s → ∃ s', body s = some (.inl s') ∧ I s') (hs : I s) :
    loop body s = none := by
  have hnot : ∀ s a, loop body s = some a → ¬ I s := by
    refine loop.partial_correctness body (fun s _ => ¬ I s) fun f ih s a ha hs => ?_
    obtain ⟨s', hbody, hs'⟩ := h s hs
    rw [hbody] at ha
    exact ih s' a ha hs'
  exact eq_none_iff_forall_ne_some.mpr fun a ha => hnot s a ha hs

end Loop

/-- `while (p != NULL && !stop(p)) p = p->next;` -/
def walk (next : Nat → Option Nat) (stop : Nat → Bool) : Nat → Option Nat :=
  loop fun p => if p = 0 ∨ stop p then some (.inr p) else (next p).map .inl

/-- `while (!stop(p->next)) p = p->next;` -/
def seek (next : Nat → Option Nat) (stop : Nat → Bool) : Nat → Option Nat :=
  loop fun p => (next p).map fun q => if stop q then .inr p else .inl q

/-- One turn of `visit`, with the nodes it has been through. -/
def visitTurn (next : Nat → Option Nat) (c : Nat × List Nat) : Option (Nat × List Nat ⊕ List Nat) :=
  if c.1 = 0 then some (.inr c.2) else (next c.1).map fun q => .inl (q, c.2 ++ [c.1])

/-- `for (; p != NULL; p = p->next)`, and the nodes it goes through. -/
def visit (next : Nat → Option Nat) (p : Nat) : Option (List Nat) := loop (visitTurn next) (p, [])

variable {ptr next : Nat → Option Nat} {stop : Nat → Bool} {c p q : Nat} {xs : List Nat}

theorem walk_stop (h : p = 0 ∨ stop p = true) : walk next stop p = some p := loop_done (if_pos h)

theorem walk_next (hp : p ≠ 0) (hs : stop p = false) (hq : next p = some q) : walk next stop p = walk next stop q :=
  loop_next (by simp [hp, hs, hq])

theorem seek_stop (hq : next p = some q) (hs : stop q = true) :
    seek next stop p = some p := loop_done (by simp [hq, hs])

theorem seek_next (hq : next p = some q) (hs : stop q = false) : seek next stop p = seek next stop q :=
  loop_next (by simp [hq, hs])

theorem seek_fail (h : next p = none) : seek next stop p = none := loop_fail (by simp [h])

theorem walk_chain (stop : Nat → Bool) (h : Chain ptr c xs) (hnext : ∀ x ∈ xs, next x = ptr x)
    (hp : ptr c = some p) :
    walk next stop p = some ((xs.find? stop).getD 0) := by
  induction xs generalizing c p with
  | nil =>
    have hp0 : p = 0 := by
      rw [Chain, hp] at h
      exact some.inj h
    rw [walk_stop (.inl hp0), hp0]
    rfl
  | cons x xs ih =>
    obtain ⟨hx, hne, hrest⟩ := h
    obtain rfl : x = p := mem_unique hx hp
    cases hs : stop x with
    | true =>
      rw [walk_stop (.inr hs), find?_cons_of_pos hs]
      rfl
    | false =>
      have hnx : next x = some (xs.headD 0) := by
        rw [hnext x mem_cons_self]
        exact hrest.head
      rw [walk_next hne hs hnx, find?_cons_of_neg (by simp [hs])]
      exact ih hrest (forall_mem_cons.mp hnext).2 hrest.head

/-- The cell before the first node that stops the loop, or the last cell. -/
theorem seek_chain (h : Chain ptr c xs) (hnext : ∀ x ∈ c :: xs, next x = ptr x)
    (hstop : stop 0 = true) :
    seek next stop c = some (lastCell c (xs.takeWhile fun x => !stop x)) := by
  induction xs generalizing c with
  | nil =>
    have hc : next c = some 0 := by
      rw [hnext c mem_cons_self]
      exact h
    rw [seek_stop hc hstop]
    rfl
  | cons x xs ih =>
    obtain ⟨hx, -, hrest⟩ := h
    have hc : next c = some x := by
      rw [hnext c mem_cons_self]
      exact hx
    cases hs : stop x with
    | true =>
      rw [seek_stop hc hs, takeWhile_cons_of_neg (by simp [hs])]
      rfl
    | false =>
      rw [seek_next hc hs, takeWhile_cons_of_pos (by simp [hs])]
      exact ih hrest (forall_mem_cons.mp hnext).2

/-- The cell before a node that stops the loop and that the loop reaches. -/
theorem seek_before {x : Nat} {pre post : List Nat} (h : Chain ptr c (pre ++ x :: post))
    (hnext : ∀ y ∈ c :: pre, next y = ptr y) (hpre : ∀ y ∈ pre, stop y = false)
    (hx : stop x = true) : seek next stop c = some (lastCell c pre) := by
  induction pre generalizing c with
  | nil =>
    exact seek_stop ((hnext c mem_cons_self).trans h.1) hx
  | cons y pre ih =>
    obtain ⟨hy, -, hrest⟩ := h
    rw [seek_next ((hnext c mem_cons_self).trans hy) (hpre y mem_cons_self)]
    exact ih hrest (forall_mem_cons.mp hnext).2 (forall_mem_cons.mp hpre).2

theorem null_or_iff {a : Nat} (y : Nat) (hy : y ≠ 0) : (y == 0 || y == a) = true ↔ y = a := by simp [hy]

/-- A node that is not the first: the loop that looks for it stops at the one before. -/
theorem Chain.seek_node {a x : Nat} {pre post : List Nat} (h : Chain ptr 0 (x :: pre ++ a :: post))
    (hnext : ∀ y, y ≠ 0 → ptr y = next y) (hstop : ∀ y, y ≠ 0 → (stop y = true ↔ y = a)) :
    x ≠ a ∧ lastCell x pre ≠ 0 ∧ lastCell x pre ≠ a ∧ next (lastCell x pre) = some a ∧
      seek next stop x = some (lastCell x pre) := by
  have hnotin := (nodup_middle.mp h.nodup).notMem
  have hlast : lastCell x pre ∈ x :: pre := lastCell_mem x pre
  have hlast0 : lastCell x pre ≠ 0 := h.ne_zero (mem_append_left _ hlast)
  refine ⟨fun he => hnotin (he ▸ by simp), hlast0, fun he => hnotin (he ▸ mem_append_left _ hlast), ?_, ?_⟩
  · rw [← hnext _ hlast0]
    exact h.ptr_lastCell
  · refine seek_before h.2.2 (fun y hy => ?_) (fun y hy => ?_) ((hstop a (h.ne_zero (by simp))).mpr rfl)
    · exact (hnext y (h.ne_zero (mem_append_left _ hy))).symm
    · refine Bool.eq_false_iff.mpr fun hs => hnotin ?_
      rw [← (hstop y (h.ne_zero (by simp [hy]))).mp hs]
      simp [hy]

/-- The nodes of the chain come behind those the loop has been through. -/
theorem visitTurn_chain (h : Chain ptr c xs) (hnext : ∀ x ∈ xs, next x = ptr x)
    (hp : ptr c = some p) (seen : List Nat) :
    loop (visitTurn next) (p, seen) = some (seen ++ xs) := by
  induction xs generalizing c p seen with
  | nil =>
    have hp0 : p = 0 := by
      rw [Chain, hp] at h
      exact some.inj h
    have hturn : visitTurn next (p, seen) = some (.inr seen) := if_pos hp0
    rw [loop_done hturn, append_nil]
  | cons x xs ih =>
    obtain ⟨hx, hne, hrest⟩ := h
    obtain rfl : x = p := mem_unique hx hp
    have hnx : next x = some (xs.headD 0) := by
      rw [hnext x mem_cons_self]
      exact hrest.head
    have hturn : visitTurn next (x, seen) = some (.inl (xs.headD 0, seen ++ [x])) := by
      simp [visitTurn, hne, hnx]
    rw [loop_next hturn, ih hrest (forall_mem_cons.mp hnext).2 hrest.head, append_assoc]
    rfl

theorem visit_chain (h : Chain ptr c xs) (hnext : ∀ x ∈ xs, next x = ptr x) (hp : ptr c = some p) :
    visit next p = some xs :=
  visitTurn_chain h hnext hp []

end GokuStudio.Lib

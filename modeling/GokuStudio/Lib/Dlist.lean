import GokuStudio.Lib.Chain

/-!
# Doubly linked lists

A list with a head and a tail variable, and nodes with the fields `next` and
`prev`. The head variable is cell 0 of the forward pointers, and the tail variable
is cell 0 of the backward pointers, so that "the node before, or the head variable
if there is none" is one cell: a list is two chains, `Dlist`, one the reverse of
the other.

`pushFront`, `pushBack` and `remove` are the operations as they are written in C,
with their case splits on `NULL`; each is a change of two or three cells. An
operation that follows a pointer to no node has no result.
-/

namespace GokuStudio.Lib

open List Option

open Function (update update_apply update_of_ne update_self)

/-- Forward pointers and backward pointers go through the same nodes. -/
structure Dlist (fwd bwd : Nat → Option Nat) (xs : List Nat) : Prop where
  forward : Chain fwd 0 xs
  backward : Chain bwd 0 xs.reverse

theorem lastCell_eq_headD (c : Nat) (xs : List Nat) : lastCell c xs = xs.reverse.headD c := by
  induction xs generalizing c with
  | nil => rfl
  | cons x xs ih =>
    rw [lastCell, ih, reverse_cons]
    cases xs.reverse <;> rfl

section Cells
variable {fwd bwd : Nat → Option Nat} {xs pre post : List Nat} {x : Nat}

theorem Dlist.symm (h : Dlist fwd bwd xs) : Dlist bwd fwd xs.reverse :=
  ⟨h.backward, by rw [reverse_reverse]; exact h.forward⟩

theorem Dlist.ne_zero (h : Dlist fwd bwd xs) (hx : x ∈ xs) : x ≠ 0 := h.forward.ne_zero hx

section
variable (h : Dlist fwd bwd (pre ++ x :: post))
include h

theorem Dlist.next_eq : fwd x = some (post.headD 0) := (chain_append.mp h.forward).2.2.2.head

theorem Dlist.prev_eq : bwd x = some (pre.reverse.headD 0) := by
  have hb := h.symm
  rw [reverse_append, reverse_cons, append_assoc] at hb
  exact hb.next_eq

/-- The two cells that point to a node take over its own pointers. -/
theorem Dlist.unlink : Dlist (update fwd (pre.reverse.headD 0) (fwd x))
      (update bwd (post.headD 0) (bwd x)) (pre ++ post) := by
  -- the forward half; the backward half is the same for the reverse list
  have half : ∀ {ptr : Nat → Option Nat} {pre post : List Nat}, Chain ptr 0 (pre ++ x :: post) →
      Chain (update ptr (pre.reverse.headD 0) (ptr x)) 0 (pre ++ post) := by
    intro ptr pre post hc
    rw [← lastCell_eq_headD]
    refine hc.unlink (fun h0 => hc.ne_zero h0 rfl) (update_self ..) fun y _ hy => ?_
    exact update_of_ne hy ..
  refine ⟨half h.forward, ?_⟩
  have hb := h.backward
  rw [reverse_append, reverse_cons, append_assoc] at hb
  rw [reverse_append]
  have hb' : Chain bwd 0 (post.reverse ++ x :: pre.reverse) := hb
  have hhalf := half hb'
  rwa [reverse_reverse] at hhalf

end

/-- A new first node. -/
theorem Dlist.link (h : Dlist fwd bwd xs) (hx : x ≠ 0) (hxs : x ∉ xs) :
    Dlist (update (update fwd x (some (xs.headD 0))) 0 (some x))
      (update (update bwd x (some 0)) (xs.headD 0) (some x)) (x :: xs) := by
  have hhead : xs.headD 0 ≠ x := by
    cases xs with
    | nil => exact hx.symm
    | cons y ys => exact fun he => hxs (he ▸ mem_cons_self ..)
  constructor
  · refine h.forward.push ?_ (update_self ..) hx fun y hy => ?_
    · rw [update_of_ne hx, update_self, h.forward.head]
    · have hyx : y ≠ x := fun he => hxs (he ▸ hy)
      rw [update_of_ne (h.ne_zero hy), update_of_ne hyx]
  · have hlast : lastCell 0 xs.reverse = xs.headD 0 := by
      rw [lastCell_eq_headD, reverse_reverse]
    have hchain : Chain bwd 0 (xs.reverse ++ []) := by
      rw [append_nil]
      exact h.backward
    have hend : bwd (xs.headD 0) = some 0 := by
      rw [← hlast]
      exact (chain_append.mp hchain).2
    rw [reverse_cons]
    refine hchain.link ?_ hx ?_ ?_ fun y hy hne => ?_
    · exact fun h0 => hchain.ne_zero h0 rfl
    · rw [hlast, update_self]
    · rw [hlast, update_of_ne hhead.symm, update_self, hend]
    · rw [hlast] at hne
      have hyx : y ≠ x := by
        rintro rfl
        rw [append_nil, mem_cons, mem_reverse] at hy
        exact hy.elim hx hxs
      rw [update_of_ne hne, update_of_ne hyx]

end Cells

/-! ## The operations in C -/

structure Links where
  head : Nat
  tail : Nat
  next : Nat → Option Nat
  prev : Nat → Option Nat

namespace Links

def empty : Links := ⟨0, 0, fun _ => none, fun _ => none⟩

section
variable (l : Links) (a v : Nat)

/-- There is a node at this address. -/
def Has : Prop := l.next a ≠ none ∧ l.prev a ≠ none

/-- A node comes into being; what its fields hold is not known. -/
def alloc (a next prev : Nat) : Links :=
  { l with next := update l.next a (some next), prev := update l.prev a (some prev) }

def free : Links :=
  { l with next := update l.next a none, prev := update l.prev a none }

/-- `a->next = v` -/
def setNext : Option Links := (l.next a).map fun _ => { l with next := update l.next a (some v) }

/-- `a->prev = v` -/
def setPrev : Option Links := (l.prev a).map fun _ => { l with prev := update l.prev a (some v) }

/-- `if (a == NULL) head = v; else a->next = v;` -/
def setNextOrHead : Option Links :=
  if a = 0 then some { l with head := v } else l.setNext a v

/-- `if (a == NULL) tail = v; else a->prev = v;` -/
def setPrevOrTail : Option Links :=
  if a = 0 then some { l with tail := v } else l.setPrev a v

/-- The list with a new first node. -/
def pushFront (x : Nat) : Option Links := do
  let l ← l.setNext x l.head
  let l ← l.setPrev x 0
  let l ← l.setPrevOrTail l.head x
  return { l with head := x }

/-- The list with a new last node. -/
def pushBack (x : Nat) : Option Links := do
  let l ← l.setPrev x l.tail
  let l ← l.setNext x 0
  let l ← l.setNextOrHead l.tail x
  return { l with tail := x }

/-- The list without a node. -/
def remove (x : Nat) : Option Links := do
  let l ← l.setPrevOrTail (← l.next x) (← l.prev x)
  l.setNextOrHead (← l.prev x) (← l.next x)

def fwd : Option Nat := if a = 0 then some l.head else l.next a
def bwd : Option Nat := if a = 0 then some l.tail else l.prev a

/-- The nodes of the list. -/
def Shows (xs : List Nat) : Prop := Dlist l.fwd l.bwd xs

/-! ### Each operation is a change of cells -/

def writeFwd : Links :=
  if a = 0 then { l with head := v } else { l with next := update l.next a (some v) }

def writeBwd : Links :=
  if a = 0 then { l with tail := v } else { l with prev := update l.prev a (some v) }

/-- The list from its other end. -/
def flip : Links := ⟨l.tail, l.head, l.prev, l.next⟩

end

section Cells
variable {l : Links} {a b v x : Nat} {xs pre post : List Nat}

theorem has_flip : l.flip.Has b ↔ l.Has b := and_comm
theorem Shows.flip (h : l.Shows xs) : l.flip.Shows xs.reverse := h.symm

theorem writeBwd_eq_flip : l.writeBwd a v = (l.flip.writeFwd a v).flip := by
  rw [writeBwd, writeFwd]
  split <;> rfl

theorem setPrev_eq_flip : l.setPrev a v = (l.flip.setNext a v).map Links.flip := by
  rw [setPrev, setNext, Option.map_map]
  rfl

theorem setPrevOrTail_eq_flip : l.setPrevOrTail a v = (l.flip.setNextOrHead a v).map Links.flip := by
  rw [setPrevOrTail, setNextOrHead, setPrev_eq_flip]
  split <;> rfl

theorem fwd_of_ne (ha : a ≠ 0) : l.fwd a = l.next a := if_neg ha
theorem bwd_of_ne (ha : a ≠ 0) : l.bwd a = l.prev a := if_neg ha

@[simp] theorem fwd_writeFwd : (l.writeFwd a v).fwd = update l.fwd a (some v) := by
  funext c
  rw [update_apply, writeFwd, fwd, fwd]
  by_cases ha : a = 0
  · subst ha
    by_cases hc : c = 0 <;> simp [hc]
  by_cases hc : c = 0
  · simp [ha, hc, Ne.symm ha]
  · simp [ha, hc, update_apply]

@[simp] theorem bwd_writeBwd : (l.writeBwd a v).bwd = update l.bwd a (some v) := by
  rw [writeBwd_eq_flip]
  exact fwd_writeFwd

@[simp] theorem bwd_writeFwd : (l.writeFwd a v).bwd = l.bwd := by
  rw [writeFwd]
  split <;> rfl

@[simp] theorem fwd_writeBwd : (l.writeBwd a v).fwd = l.fwd := by
  rw [writeBwd]
  split <;> rfl

theorem has_writeFwd (ha : a = 0 ∨ l.Has a) : (l.writeFwd a v).Has b ↔ l.Has b := by
  rw [writeFwd]
  split
  · rfl
  rename_i ha0
  rw [Has, Has]
  dsimp only
  rw [update_apply]
  split
  · rename_i hb
    have := ha.resolve_left ha0
    simp [hb, this.1, this.2]
  · rfl

theorem has_writeBwd (ha : a = 0 ∨ l.Has a) : (l.writeBwd a v).Has b ↔ l.Has b := by
  rw [writeBwd_eq_flip, has_flip, has_writeFwd (ha.imp_right has_flip.mpr), has_flip]

theorem setNext_eq (ha : a ≠ 0) (hl : l.Has a) : l.setNext a v = some (l.writeFwd a v) := by
  obtain ⟨w, hw⟩ := ne_none_iff_exists'.mp hl.1
  rw [setNext, hw, writeFwd, if_neg ha]
  rfl

theorem setPrev_eq (ha : a ≠ 0) (hl : l.Has a) : l.setPrev a v = some (l.writeBwd a v) := by
  rw [setPrev_eq_flip, setNext_eq ha (has_flip.mpr hl), writeBwd_eq_flip]
  rfl

theorem setNextOrHead_eq (hl : a = 0 ∨ l.Has a) : l.setNextOrHead a v = some (l.writeFwd a v) := by
  rw [setNextOrHead]
  by_cases ha : a = 0
  · rw [if_pos ha, writeFwd, if_pos ha]
  · rw [if_neg ha, setNext_eq ha (hl.resolve_left ha)]

theorem setPrevOrTail_eq (hl : a = 0 ∨ l.Has a) : l.setPrevOrTail a v = some (l.writeBwd a v) := by
  rw [setPrevOrTail_eq_flip, setNextOrHead_eq (hl.imp_right has_flip.mpr), writeBwd_eq_flip]
  rfl

/-- A last node is a first node from the other end. -/
theorem pushBack_eq_flip : l.pushBack x = (l.flip.pushFront x).map Links.flip := by
  rw [Links.pushBack, Links.pushFront]
  cases hprev : l.prev x with
  | none => simp [setPrev, setNext, Links.flip, hprev]
  | some p =>
    cases hnext : l.next x with
    | none => simp [setPrev, setNext, Links.flip, hprev, hnext]
    | some q =>
      by_cases htail : l.tail = 0
      · simp [setPrev, setNext, setNextOrHead, setPrevOrTail, Links.flip, hprev, hnext, htail]
      · cases hlast : update l.next x (some 0) l.tail <;>
          simp [setPrev, setNext, setNextOrHead, setPrevOrTail, Links.flip, hprev, hnext, htail, hlast]

variable (h : l.Shows xs)
include h

theorem Shows.head_eq : l.head = xs.headD 0 := some.inj h.forward.head
theorem Shows.tail_eq : l.tail = xs.reverse.headD 0 := some.inj h.backward.head

theorem Shows.has (hx : x ∈ xs) : l.Has x := by
  have hx0 := h.ne_zero hx
  have hf := h.forward.isSome (mem_cons_of_mem 0 hx)
  have hb := h.backward.isSome (mem_cons_of_mem 0 (mem_reverse.mpr hx))
  rw [fwd_of_ne hx0] at hf
  rw [bwd_of_ne hx0] at hb
  exact ⟨isSome_iff_ne_none.mp hf, isSome_iff_ne_none.mp hb⟩

theorem Shows.has_headD (pre : List Nat) (hsub : ∀ y ∈ pre, y ∈ xs) : pre.headD 0 = 0 ∨ l.Has (pre.headD 0) := by
  cases pre with
  | nil => exact .inl rfl
  | cons y pre => exact .inr (h.has (hsub y mem_cons_self))

theorem Shows.pushFront (hx : x ≠ 0) (hxs : x ∉ xs) (hl : l.Has x) :
    ∃ l', l.pushFront x = some l' ∧ l'.Shows (x :: xs) ∧ ∀ b, l'.Has b ↔ l.Has b := by
  have hhead := h.has_headD xs fun _ hy => hy
  rw [← h.head_eq] at hhead
  have h1 : ∀ b, (l.writeFwd x l.head).Has b ↔ l.Has b := fun b => has_writeFwd (.inr hl)
  have h2 : ∀ b, ((l.writeFwd x l.head).writeBwd x 0).Has b ↔ l.Has b := fun b =>
    (has_writeBwd (.inr ((h1 x).mpr hl))).trans (h1 b)
  have heq : ((l.writeFwd x l.head).writeBwd x 0).head = l.head := by
    simp [writeFwd, writeBwd, hx]
  have hhead2 : l.head = 0 ∨ ((l.writeFwd x l.head).writeBwd x 0).Has l.head := hhead.imp_right (h2 l.head).mpr
  refine ⟨(((l.writeFwd x l.head).writeBwd x 0).writeBwd l.head x).writeFwd 0 x, ?_, ?_, ?_⟩
  · rw [Links.pushFront, setNext_eq hx hl]
    simp only [bind_eq_bind, bind_some, setPrev_eq hx ((h1 x).mpr hl), heq, setPrevOrTail_eq hhead2]
    rfl
  · have := h.link hx hxs
    rw [← h.head_eq] at this
    simpa [Shows] using this
  · exact fun b => (has_writeFwd (.inl rfl)).trans ((has_writeBwd hhead2).trans (h2 b))

theorem Shows.pushBack (hx : x ≠ 0) (hxs : x ∉ xs) (hl : l.Has x) :
    ∃ l', l.pushBack x = some l' ∧ l'.Shows (xs ++ [x]) ∧ ∀ b, l'.Has b ↔ l.Has b := by
  obtain ⟨l', hrun, hl', hhas⟩ := h.flip.pushFront hx (mt mem_reverse.mp hxs) (has_flip.mpr hl)
  refine ⟨l'.flip, ?_, ?_, fun b => has_flip.trans ((hhas b).trans has_flip)⟩
  · rw [pushBack_eq_flip, hrun]
    rfl
  · have hback := hl'.flip
    rwa [reverse_cons, reverse_reverse] at hback

/-- A list only looks at its own nodes. -/
theorem Shows.congr {l' : Links} (hhead : l'.head = l.head)
    (htail : l'.tail = l.tail) (hnext : ∀ y ∈ xs, l'.next y = l.next y)
    (hprev : ∀ y ∈ xs, l'.prev y = l.prev y) : l'.Shows xs := by
  refine ⟨h.forward.congr fun y hy => ?_, h.backward.congr fun y hy => ?_⟩
  · rcases mem_cons.mp hy with rfl | hy
    · exact congrArg some hhead
    · rw [fwd_of_ne (h.ne_zero hy), fwd_of_ne (h.ne_zero hy), hnext y hy]
  · rcases mem_cons.mp hy with rfl | hy
    · exact congrArg some htail
    · rw [mem_reverse] at hy
      rw [bwd_of_ne (h.ne_zero hy), bwd_of_ne (h.ne_zero hy), hprev y hy]

theorem Shows.alloc (hxs : x ∉ xs) (next prev : Nat) : (l.alloc x next prev).Shows xs := by
  have hne : ∀ y ∈ xs, y ≠ x := fun y hy he => hxs (he ▸ hy)
  exact h.congr rfl rfl (fun y hy => update_of_ne (hne y hy) ..) fun y hy => update_of_ne (hne y hy) ..

theorem Shows.free (hxs : x ∉ xs) : (l.free x).Shows xs := by
  have hne : ∀ y ∈ xs, y ≠ x := fun y hy he => hxs (he ▸ hy)
  exact h.congr rfl rfl (fun y hy => update_of_ne (hne y hy) ..) fun y hy => update_of_ne (hne y hy) ..

omit h

/-- The tail variable points to the last node. -/
theorem Shows.tail_mem {y : Nat} (h : l.Shows (pre ++ y :: post)) : l.tail ∈ y :: post := by
  rw [h.tail_eq, ← lastCell_eq_headD, lastCell_append]
  exact lastCell_mem y post

theorem Shows.remove (h : l.Shows (pre ++ x :: post)) :
    ∃ l', l.remove x = some l' ∧ l'.Shows (pre ++ post) ∧ ∀ b, l'.Has b ↔ l.Has b := by
  have hx0 : x ≠ 0 := h.ne_zero (by simp)
  have hnd := h.forward.nodup
  have hnotin := (nodup_middle.mp hnd).notMem
  have hnext : l.next x = some (post.headD 0) := by
    rw [← fwd_of_ne hx0]
    exact h.next_eq
  have hprev : l.prev x = some (pre.reverse.headD 0) := by
    rw [← bwd_of_ne hx0]
    exact h.prev_eq
  have hn := h.has_headD post fun y hy => by simp [hy]
  have hp := h.has_headD pre.reverse fun y hy => by simp [mem_reverse.mp hy]
  have hnx : post.headD 0 ≠ x := by
    cases post with
    | nil => exact hx0.symm
    | cons y post => exact fun he => hnotin (he ▸ by simp)
  -- the first write leaves the node itself alone
  have hnext1 : (l.writeBwd (post.headD 0) (pre.reverse.headD 0)).next x = some (post.headD 0) := by
    rw [← fwd_of_ne hx0, fwd_writeBwd]
    exact h.next_eq
  have hprev1 : (l.writeBwd (post.headD 0) (pre.reverse.headD 0)).prev x = some (pre.reverse.headD 0) := by
    rw [← bwd_of_ne hx0, bwd_writeBwd, update_of_ne hnx.symm]
    exact h.prev_eq
  have hp1 : pre.reverse.headD 0 = 0 ∨ (l.writeBwd (post.headD 0) (pre.reverse.headD 0)).Has (pre.reverse.headD 0) :=
    hp.imp_right (has_writeBwd hn).mpr
  refine ⟨(l.writeBwd (post.headD 0) (pre.reverse.headD 0)).writeFwd (pre.reverse.headD 0) (post.headD 0), ?_, ?_, ?_⟩
  · simp only [Links.remove, hnext, hprev, bind_eq_bind, bind_some,
      setPrevOrTail_eq hn, hnext1, hprev1, setNextOrHead_eq hp1]
  · have := h.unlink
    rw [h.next_eq, h.prev_eq] at this
    rw [Shows, fwd_writeFwd, bwd_writeFwd, fwd_writeBwd, bwd_writeBwd]
    exact this
  · exact fun b => (has_writeFwd hp1).trans (has_writeBwd hn)

theorem has_alloc {next prev : Nat} : (l.alloc x next prev).Has b ↔ b = x ∨ l.Has b := by
  by_cases hb : b = x <;> simp [Has, Links.alloc, hb]

theorem has_free : (l.free x).Has b ↔ b ≠ x ∧ l.Has b := by
  by_cases hb : b = x <;> simp [Has, Links.free, hb]

theorem empty_shows : empty.Shows [] := ⟨rfl, rfl⟩

end Cells
end Links
end GokuStudio.Lib

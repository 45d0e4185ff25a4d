import GokuStudio.Lib.Walk
import GokuStudio.Nginx.Core
import Mathlib.Data.List.Basic

/-!
# Names in DNS responses

`ngx_resolver_copy` of `ngx_resolver.c` reads a name from a response. A name is a sequence of
labels, each behind a byte with its length, and ends with a zero byte. In the place of a
length there may be a pointer, two bytes with the position where the name goes on. The first
pass finds the length of the text, and the second one writes it.

A response is at the head of a larger buffer: what is behind it can be read, too.
-/

namespace GokuStudio.Nginx.Resolver

open Lib List

/-! ## §1 The code -/

/-- The bytes from `buf` on. -/
abbrev Buf := Nat → UInt8

/-- `n & 0xc0` -/
def isPointer (n : UInt8) : Bool := n &&& 0xc0 ≠ 0

/-- `((n & 0x3f) << 8) + *p` -/
def target (n lo : UInt8) : Nat := (n &&& 0x3f).toNat * 256 + lo.toNat

inductive CopyError where
  /-- The text "name is out of response". -/
  | outOfResponse
  /-- The text "compression pointers loop". -/
  | pointersLoop
  | noMemory
deriving DecidableEq

/-- The first pass from the element at `p` on, with the turns that are left: the length, and
the positions that are read. -/
def measure (buf : Buf) (last : Nat) : Nat → Nat → Int → Except CopyError Int × List Nat
  | 0, _, _ => (.error .pointersLoop, [])
  | turns + 1, p, len =>
    if buf p = 0 then (.ok len, [p])
    else if isPointer (buf p) then
      let q := target (buf p) (buf (p + 1))
      if q ≥ last then (.error .outOfResponse, [p, p + 1])
      else
        let m := measure buf last turns q len
        (m.1, p :: (p + 1) :: m.2)
    else
      let q := p + 1 + (buf p).toNat
      if q ≥ last then (.error .outOfResponse, [p])
      else
        let m := measure buf last turns q (len + (1 + (buf p).toNat))
        (m.1, p :: m.2)

section
variable (buf : Buf) (last src : Nat)

/-- The `n` bytes from `src` on. -/
def bytesAt (src n : Nat) : Bytes := (List.range n).map fun i => buf (src + i)

/-- The variables of the second pass: what is written so far is `dst`. -/
structure CopyState where
  n : UInt8
  src : Nat
  dst : Bytes
  reads : List Nat
deriving DecidableEq

/-- A turn of the second pass. -/
def copyTurn (s : CopyState) : Option (CopyState ⊕ CopyState) :=
  let s' : CopyState :=
    if isPointer s.n then
      let src := target s.n (buf s.src)
      { n := buf src, src := src + 1, dst := s.dst, reads := s.reads ++ [s.src, src] }
    else
      let label := bytesAt buf s.src s.n.toNat
      let src := s.src + s.n.toNat
      { n := buf src, src := src + 1, dst := s.dst ++ strlow label ++ (if buf src ≠ 0 then text ['.'] else [])
        reads := s.reads ++ (List.range s.n.toNat).map (s.src + ·) ++ [src] }
  some (if s'.n = 0 then .inr s' else .inl s')

/-- How a call ends. A name that is not asked for is `none`. -/
structure Copied where
  result : Except CopyError (Option Bytes)
  /-- The size of the memory for the name. -/
  allocated : Nat
  reads : List Nat

/-- `ngx_resolver_copy`, where `wanted` says that `name` is not `NULL`, and `alloc` that there
is memory. -/
def copy (wanted alloc : Bool) : Option Copied :=
  let m := measure buf last 128 src (-1)
  match m.1 with
  | .error e => some ⟨.error e, 0, m.2⟩
  | .ok len =>
    if wanted = false then some ⟨.ok none, 0, m.2⟩
    else if len = -1 then some ⟨.ok (some []), 0, m.2⟩
    else if alloc = false then some ⟨.error .noMemory, 0, m.2⟩
    else (loop (copyTurn buf) ⟨buf src, src + 1, [], m.2 ++ [src]⟩).map fun s => ⟨.ok (some s.dst), len.toNat, s.reads⟩

/-! ## §2 Names -/

/-- The labels of the name at a position. -/
inductive Encodes (buf : Buf) : Nat → List Bytes → Prop
  | root {p : Nat} (hp : buf p = 0) : Encodes buf p []
  | label {p : Nat} {labels : List Bytes} (hp : buf p ≠ 0) (hlabel : isPointer (buf p) = false)
      (h : Encodes buf (p + 1 + (buf p).toNat) labels) :
      Encodes buf p (bytesAt buf (p + 1) (buf p).toNat :: labels)
  | pointer {p : Nat} {labels : List Bytes} (hp : isPointer (buf p) = true)
      (h : Encodes buf (target (buf p) (buf (p + 1))) labels) : Encodes buf p labels

/-- The usual reading of a letter. -/
def lower (c : UInt8) : UInt8 := if isUpper c then c + ('a' - 'A') else c

/-- Labels with a dot between them. -/
def dotted : List Bytes → Bytes
  | [] => []
  | [label] => label
  | label :: labels => label ++ text ['.'] ++ dotted labels

/-- Where a name goes on behind a label or a pointer. -/
def follow (p : Nat) : Nat :=
  if isPointer (buf p) then target (buf p) (buf (p + 1)) else p + 1 + (buf p).toNat

/-- The lengths and the pointers that are met on the way, at most so many. -/
def elements (buf : Buf) (last : Nat) : Nat → Nat → List Nat
  | 0, _ => []
  | turns + 1, p => p :: if buf p = 0 ∨ follow buf p ≥ last then [] else elements buf last turns (follow buf p)

/-- No pointer that is met sticks out of the response. -/
def PointersInside : Prop := ∀ p ∈ elements buf last 128 src, isPointer (buf p) = true → p + 1 < last

/-- A name with a label whose zero byte is reached by a pointer. -/
def EndsInPointer : Prop :=
  ∃ xs p q, elements buf last 128 src = xs ++ [p, q] ∧ isPointer (buf p) = true ∧ buf q = 0 ∧
    ∃ x ∈ xs, isPointer (buf x) = false

end

variable {turns p src : Nat} {xs : List Nat}

section
variable {buf : Buf} {last : Nat} {labels : List Bytes}

/-- The elements behind the first one, for a name that ends in the response. -/
inductive Route (buf : Buf) (last : Nat) : Nat → List Nat → Prop
  | root {p : Nat} (hlast : p < last) (hp : buf p = 0) : Route buf last p []
  | step {p : Nat} {xs : List Nat} (hlast : p < last) (hp : buf p ≠ 0) (h : Route buf last (follow buf p) xs) :
      Route buf last p (follow buf p :: xs)

def labelAt (buf : Buf) (p : Nat) : Bytes := bytesAt buf (p + 1) (buf p).toNat

/-- The labels among some elements. -/
def labelsOf (buf : Buf) : List Nat → List Bytes
  | [] => []
  | p :: xs => if buf p = 0 ∨ isPointer (buf p) then labelsOf buf xs else labelAt buf p :: labelsOf buf xs

/-- The lengths of some labels, with one more for each. -/
def extent : List Bytes → Nat
  | [] => 0
  | label :: labels => 1 + label.length + extent labels

theorem length_labelAt (p : Nat) : (labelAt buf p).length = (buf p).toNat := by
  rw [labelAt, bytesAt, length_map, length_range]

/-! ## §3 The first pass -/

theorem elements_lt {turns p : Nat} (hp : p < last) : ∀ x ∈ elements buf last turns p, x < last := by
  induction turns generalizing p with
  | zero => exact nofun
  | succ turns ih =>
    intro x hx
    rw [elements] at hx
    rcases mem_cons.mp hx with rfl | hx
    · exact hp
    split at hx
    · cases hx
    rename_i hgo
    rw [not_or, Nat.not_le] at hgo
    exact ih hgo.2 x hx

/-- The positions that the first pass reads for an element, and what it adds to the length. -/
def readsAt (buf : Buf) (p : Nat) : List Nat := if isPointer (buf p) then [p, p + 1] else [p]

def adds (buf : Buf) (p : Nat) : Nat := if isPointer (buf p) then 0 else 1 + (buf p).toNat

theorem measure_succ (hne : buf p ≠ 0) (len : Int) : measure buf last (turns + 1) p len =
    if follow buf p ≥ last then (.error .outOfResponse, readsAt buf p)
    else ((measure buf last turns (follow buf p) (len + adds buf p)).1,
      readsAt buf p ++ (measure buf last turns (follow buf p) (len + adds buf p)).2) := by
  rw [measure, if_neg hne, follow, adds, readsAt]
  by_cases hpointer : isPointer (buf p) = true <;> simp [hpointer]

theorem measure_reads (turns p : Nat) (len : Int) :
    (measure buf last turns p len).2 = (elements buf last turns p).flatMap (readsAt buf) := by
  induction turns generalizing p len with
  | zero => rfl
  | succ turns ih =>
    rw [elements, flatMap_cons]
    by_cases hzero : buf p = 0
    · rw [measure, if_pos hzero, if_pos (Or.inl hzero), readsAt, hzero]
      rfl
    rw [measure_succ hzero]
    split
    case isTrue hge => rw [if_pos (Or.inr hge), flatMap_nil, append_nil]
    case isFalse hge => rw [if_neg (not_or.mpr ⟨hzero, hge⟩), ih]

theorem extent_labelsOf (hne : buf p ≠ 0) :
    extent (labelsOf buf (p :: xs)) = adds buf p + extent (labelsOf buf xs) := by
  rw [labelsOf, adds]
  by_cases hpointer : isPointer (buf p) = true
  · simp [hpointer]
  · simp [hne, hpointer, extent, length_labelAt]

/-- A name that the first pass accepts has a length that fits its labels. -/
theorem measure_ok {len len' : Int} (hp : p < last) (h : (measure buf last turns p len).1 = .ok len') :
    ∃ xs, elements buf last turns p = p :: xs ∧ Route buf last p xs ∧ len' = len + extent (labelsOf buf (p :: xs)) := by
  induction turns generalizing p len with
  | zero => cases h
  | succ turns ih =>
    rw [elements]
    by_cases hzero : buf p = 0
    · rw [measure, if_pos hzero] at h
      cases h
      refine ⟨[], by rw [if_pos (Or.inl hzero)], .root hp hzero, ?_⟩
      rw [labelsOf, if_pos (Or.inl hzero)]
      exact (Int.add_zero _).symm
    rw [measure_succ hzero] at h
    split at h
    case isTrue => cases h
    case isFalse hge =>
      obtain ⟨xs, helements, hroute, hlen⟩ := ih (Nat.not_le.mp hge) h
      refine ⟨follow buf p :: xs, ?_, .step hp hzero hroute, ?_⟩
      · rw [if_neg (not_or.mpr ⟨hzero, hge⟩), helements]
      · rw [hlen, extent_labelsOf hzero]
        omega

/-! ## §4 The second pass -/

section
variable (h : Route buf last p xs)
include h

theorem Route.lt : p < last := by
  cases h <;> assumption

theorem Route.encodes : Encodes buf p (labelsOf buf (p :: xs)) := by
  induction h with
  | root hlast hzero =>
    rw [labelsOf, if_pos (Or.inl hzero)]
    exact .root hzero
  | @step p xs hlast hne hrest ih =>
    rw [labelsOf]
    by_cases hpointer : isPointer (buf p) = true
    · rw [if_pos (Or.inr hpointer)]
      exact .pointer hpointer ((if_pos hpointer : follow buf p = _) ▸ ih)
    · rw [if_neg (not_or.mpr ⟨hne, hpointer⟩)]
      exact .label hne (Bool.eq_false_iff.mpr hpointer) ((if_neg hpointer : follow buf p = _) ▸ ih)

/-- What the second pass writes for some elements. -/
def written (buf : Buf) : List Nat → Bytes
  | p :: q :: xs =>
    if isPointer (buf p) then written buf (q :: xs)
    else strlow (labelAt buf p) ++ (if buf q ≠ 0 then text ['.'] else []) ++ written buf (q :: xs)
  | _ => []

/-- The second pass ends, and reads in the response if the pointers are in it. -/
theorem Route.loop_eq (hne : buf p ≠ 0) (dst : Bytes)
    (reads : List Nat) : ∃ s, loop (copyTurn buf) ⟨buf p, p + 1, dst, reads⟩ = some s ∧
      s.dst = dst ++ written buf (p :: xs) ∧ reads ⊆ s.reads ∧
      ((∀ x ∈ p :: xs, isPointer (buf x) = true → x + 1 < last) → (∀ x ∈ reads, x < last) → ∀ x ∈ s.reads, x < last) := by
  induction h generalizing dst reads with
  | root hlast hzero => exact absurd hzero hne
  | @step p xs hlast _ hrest ih =>
    -- the state after this turn, whether it is the last one or not
    have hgo : ∀ dst' reads', copyTurn buf ⟨buf p, p + 1, dst, reads⟩ =
          some (if buf (follow buf p) = 0 then .inr ⟨buf (follow buf p), follow buf p + 1, dst', reads'⟩
            else .inl ⟨buf (follow buf p), follow buf p + 1, dst', reads'⟩) →
        ∃ s, loop (copyTurn buf) ⟨buf p, p + 1, dst, reads⟩ = some s ∧
          s.dst = dst' ++ written buf (follow buf p :: xs) ∧ reads' ⊆ s.reads ∧
          ((∀ x ∈ follow buf p :: xs, isPointer (buf x) = true → x + 1 < last) → (∀ x ∈ reads', x < last) →
            ∀ x ∈ s.reads, x < last) := by
      intro dst' reads' hturn
      by_cases hzero : buf (follow buf p) = 0
      · refine ⟨_, loop_done (hturn.trans (congrArg some (if_pos hzero))), ?_, fun _ hx => hx, fun _ hreads => hreads⟩
        cases hrest with
        | root => exact (append_nil dst').symm
        | step _ hne' => exact absurd hzero hne'
      · obtain ⟨s, hloop, hdst, hkept, hreads⟩ := ih hzero dst' reads'
        exact ⟨s, (loop_next (hturn.trans (congrArg some (if_neg hzero)))).trans hloop, hdst, hkept, hreads⟩
    by_cases hpointer : isPointer (buf p) = true
    · have hfollow : follow buf p = target (buf p) (buf (p + 1)) := if_pos hpointer
      obtain ⟨s, hloop, hdst, hkept, hreads⟩ := hgo dst (reads ++ [p + 1, follow buf p]) (by
        simp only [copyTurn, if_pos hpointer, hfollow])
      refine ⟨s, hloop, ?_, fun x hx => hkept (mem_append_left _ hx), fun hinside hold => ?_⟩
      · rw [hdst, written, if_pos hpointer]
      · refine hreads (forall_mem_cons.mp hinside).2 fun x hx => ?_
        rcases mem_append.mp hx with hx | hx
        · exact hold x hx
        rcases mem_cons.mp hx with rfl | hx
        · exact hinside p mem_cons_self hpointer
        · exact mem_singleton.mp hx ▸ hrest.lt
    · have hfollow : follow buf p = p + 1 + (buf p).toNat := if_neg hpointer
      obtain ⟨s, hloop, hdst, hkept, hreads⟩ := hgo
        (dst ++ strlow (labelAt buf p) ++ if buf (follow buf p) ≠ 0 then text ['.'] else [])
        (reads ++ (range (buf p).toNat).map (p + 1 + ·) ++ [follow buf p]) (by
          simp only [copyTurn, if_neg hpointer, hfollow, labelAt])
      refine ⟨s, hloop, ?_, fun x hx => hkept (mem_append_left _ (mem_append_left _ hx)), fun hinside hold => ?_⟩
      · rw [hdst, written, if_neg hpointer]
        simp only [append_assoc]
      · refine hreads (forall_mem_cons.mp hinside).2 fun x hx => ?_
        have hlt := hrest.lt
        rcases mem_append.mp hx with hx | hx
        · rcases mem_append.mp hx with hx | hx
          · exact hold x hx
          obtain ⟨i, hi, rfl⟩ := mem_map.mp hx
          have hi := mem_range.mp hi
          omega
        · exact mem_singleton.mp hx ▸ hlt

end

/-- Whether the last element is reached by a pointer. -/
def hangs (buf : Buf) : List Nat → Bool
  | [p, _] => isPointer (buf p)
  | _ :: xs => hangs buf xs
  | [] => false

theorem hangs_append (xs : List Nat) (p q : Nat) : hangs buf (xs ++ [p, q]) = isPointer (buf p) := by
  induction xs with
  | nil => rfl
  | cons x xs ih =>
    cases xs with
    | nil => exact ih
    | cons y ys =>
      cases ys with
      | nil | cons z zs => exact ih

theorem labelsOf_eq_nil : labelsOf buf xs = [] ↔ ∀ x ∈ xs, buf x = 0 ∨ isPointer (buf x) = true := by
  induction xs with
  | nil => exact iff_of_true rfl nofun
  | cons x xs ih =>
    rw [labelsOf, forall_mem_cons, ← ih]
    split
    case isTrue hx => exact (and_iff_right hx).symm
    case isFalse hx => exact iff_of_false nofun fun h => hx h.1

/-- Only pointers: the last element is reached by one. -/
theorem Route.hangs (h : Route buf last p xs) (hne : buf p ≠ 0)
    (hlabels : labelsOf buf (p :: xs) = []) : hangs buf (p :: xs) = true := by
  induction h with
  | root _ hzero => exact absurd hzero hne
  | @step p xs _ _ hrest ih =>
    have hpointer := (labelsOf_eq_nil.mp hlabels p mem_cons_self).resolve_left hne
    cases hrest with
    | root => exact hpointer
    | step _ hne' _ =>
      refine ih hne' (labelsOf_eq_nil.mpr fun x hx => ?_)
      exact labelsOf_eq_nil.mp hlabels x (mem_cons_of_mem _ hx)

theorem labelsOf_root (hp : buf p = 0) : labelsOf buf [p] = [] := if_pos (Or.inl hp)

theorem dotted_cons {label : Bytes} (h : labels ≠ []) :
    dotted (label :: labels) = label ++ text ['.'] ++ dotted labels := by
  cases labels with
  | nil => exact absurd rfl h
  | cons => rfl

/-- The second pass writes the labels with dots between them, and one dot more if the zero byte
is reached by a pointer. -/
theorem Route.written_eq (h : Route buf last p xs) :
    written buf (p :: xs) = dotted ((labelsOf buf (p :: xs)).map strlow) ++
      if labelsOf buf (p :: xs) ≠ [] ∧ Resolver.hangs buf (p :: xs) = true then text ['.'] else [] := by
  induction h with
  | root _ hzero =>
    rw [labelsOf, if_pos (Or.inl hzero)]
    rfl
  | @step p xs _ hne hrest ih =>
    rw [written, labelsOf]
    by_cases hpointer : isPointer (buf p) = true
    · rw [if_pos hpointer, if_pos (Or.inr hpointer), ih]
      cases hrest with
      | root _ hzero =>
        rw [labelsOf_root hzero]
        rfl
      | step => rfl
    rw [if_neg hpointer, if_neg (not_or.mpr ⟨hne, hpointer⟩), ih]
    cases hrest with
    | root _ hzero =>
      have hlast : ¬ Resolver.hangs buf [p, follow buf p] = true := hpointer
      rw [labelsOf_root hzero, if_neg (not_not.mpr hzero), if_neg fun h => h.1 rfl, if_neg fun h => hlast h.2]
      simp [dotted]
    | @step _ ys _ hne' hrest' =>
      rw [if_pos hne']
      by_cases hlabels : labelsOf buf (follow buf p :: follow buf (follow buf p) :: ys) = []
      · have hhangs := Route.hangs (.step ‹_› hne' hrest') hne' hlabels
        rw [hlabels, if_neg fun h => h.1 rfl, if_pos ⟨cons_ne_nil _ _, hhangs⟩]
        simp [dotted]
      · rw [map_cons, dotted_cons (by simpa using hlabels)]
        simp only [ne_eq, hlabels, not_false_eq_true, true_and, reduceCtorEq, append_assoc]
        rfl

theorem length_dotted (h : labels ≠ []) : (dotted labels).length + 1 = extent labels := by
  induction labels with
  | nil => exact absurd rfl h
  | cons label labels ih =>
    by_cases hnil : labels = []
    · rw [hnil, dotted, extent, extent]
      omega
    rw [dotted_cons hnil, extent, length_append, length_append, ← ih hnil]
    show label.length + 1 + _ + 1 = _
    omega

theorem extent_map_strlow (labels : List Bytes) : extent (labels.map strlow) = extent labels := by
  induction labels with
  | nil => rfl
  | cons label labels ih => rw [map_cons, extent, extent, ih, strlow, length_map]

theorem extent_eq_zero : extent labels = 0 ↔ labels = [] := by
  cases labels with
  | nil => exact iff_of_true rfl rfl
  | cons label labels =>
    rw [extent]
    exact iff_of_false (by omega) nofun

/-! ## §5 Both passes -/

/-- The last element of a name is the zero byte, and no other one is. -/
theorem Route.exists_last (h : Route buf last p xs) :
    ∃ ys q, p :: xs = ys ++ [q] ∧ buf q = 0 ∧ ∀ y ∈ ys, buf y ≠ 0 := by
  induction h with
  | @root p _ hzero => exact ⟨[], p, rfl, hzero, nofun⟩
  | @step p xs _ hne _ ih =>
    obtain ⟨ys, q, heq, hq, hys⟩ := ih
    exact ⟨p :: ys, q, congrArg (p :: ·) heq, hq, forall_mem_cons.mpr ⟨hne, hys⟩⟩

theorem measure_error {len : Int} {e : CopyError} (h : (measure buf last turns p len).1 = .error e) :
    ∀ x ∈ elements buf last turns p, buf x ≠ 0 := by
  induction turns generalizing p len with
  | zero => exact nofun
  | succ turns ih =>
    by_cases hzero : buf p = 0
    · rw [measure, if_pos hzero] at h
      cases h
    rw [elements, forall_mem_cons]
    refine ⟨hzero, ?_⟩
    rw [measure_succ hzero] at h
    split at h
    case isTrue hge =>
      rw [if_pos (Or.inr hge)]
      exact nofun
    case isFalse hge =>
      rw [if_neg (not_or.mpr ⟨hzero, hge⟩)]
      exact ih h

theorem Route.endsInPointer_iff (h : Route buf last src xs) (helements : elements buf last 128 src = src :: xs) :
    EndsInPointer buf last src ↔ labelsOf buf (src :: xs) ≠ [] ∧ Resolver.hangs buf (src :: xs) = true := by
  obtain ⟨ys, q, heq, hq, hys⟩ := h.exists_last
  rw [EndsInPointer, helements]
  refine ⟨?_, ?_⟩
  · rintro ⟨zs, a, b, hsplit, ha, hb, x, hx, hlabel⟩
    rw [hsplit, hangs_append]
    refine ⟨fun hnil => ?_, ha⟩
    have hcat : zs ++ [a] ++ [b] = ys ++ [q] := by
      rw [append_assoc]
      exact hsplit.symm.trans heq
    have hinit : zs ++ [a] = ys := append_inj_left' hcat rfl
    rcases labelsOf_eq_nil.mp hnil x (mem_append_left _ hx) with hzero | hpointer
    · exact hys x (hinit ▸ mem_append_left _ hx) hzero
    · rw [hlabel] at hpointer
      cases hpointer
  · rintro ⟨hlabels, hhangs⟩
    rcases eq_nil_or_concat ys with rfl | ⟨zs, a, rfl⟩
    · rw [heq] at hhangs
      cases hhangs
    rw [concat_eq_append, append_assoc] at heq
    rw [heq, singleton_append, hangs_append] at hhangs
    refine ⟨zs, a, q, heq, hhangs, hq, ?_⟩
    by_contra hall
    refine hlabels (labelsOf_eq_nil.mpr fun x hx => ?_)
    rw [heq, mem_append] at hx
    rcases hx with hx | hx
    · refine Or.inr (by_contra fun hlabel => hall ⟨x, hx, Bool.eq_false_iff.mpr hlabel⟩)
    rcases mem_cons.mp hx with rfl | hx
    · exact Or.inr hhangs
    · exact Or.inl (mem_singleton.mp hx ▸ hq)

/-- The first pass reads in the response iff the pointers are in it. -/
theorem measure_reads_iff (hsrc : src < last) (len : Int) :
    (∀ x ∈ (measure buf last 128 src len).2, x < last) ↔ PointersInside buf last src := by
  have hlt := @elements_lt buf last 128 src hsrc
  rw [measure_reads, PointersInside]
  refine ⟨fun h p hp hpointer => h (p + 1) ?_, fun h x hx => ?_⟩
  · refine mem_flatMap.mpr ⟨p, hp, ?_⟩
    rw [readsAt, if_pos hpointer]
    exact mem_cons_of_mem _ mem_cons_self
  · obtain ⟨p, hp, hx⟩ := mem_flatMap.mp hx
    rw [readsAt] at hx
    by_cases hpointer : isPointer (buf p) = true
    · rw [if_pos hpointer] at hx
      rcases mem_cons.mp hx with rfl | hx
      · exact hlt x hp
      · exact mem_singleton.mp hx ▸ h p hp hpointer
    · rw [if_neg hpointer] at hx
      exact mem_singleton.mp hx ▸ hlt p hp

theorem tolower_eq : ∀ c : UInt8, tolower c = lower c := by
  apply forall_byte
  decide +kernel

/-- What a call should do: it ends, reads in the response only, and a name that it gives has
the size of its memory and is the text of the labels. -/
def CopyRight (buf : Buf) (last src : Nat) (wanted alloc : Bool) : Prop :=
  ∃ out, copy buf last src wanted alloc = some out ∧ (∀ x ∈ out.reads, x < last) ∧
    ∀ name, out.result = .ok (some name) → name.length = out.allocated ∧
      ∃ labels, Encodes buf src labels ∧ name = dotted (labels.map fun label => label.map lower)

theorem strlow_eq (s : Bytes) : strlow s = s.map lower := map_congr_left fun c _ => tolower_eq c

/-- A call whose second pass runs. -/
theorem Route.copy_eq (h : Route buf last src xs)
    (hlen : (measure buf last 128 src (-1)).1 = .ok (-1 + extent (labelsOf buf (src :: xs))))
    (hlabels : labelsOf buf (src :: xs) ≠ []) : ∃ reads, copy buf last src true true =
      some ⟨.ok (some (written buf (src :: xs))), extent (labelsOf buf (src :: xs)) - 1, reads⟩ ∧
      (measure buf last 128 src (-1)).2 ⊆ reads ∧
      ((∀ x ∈ src :: xs, isPointer (buf x) = true → x + 1 < last) →
        (∀ x ∈ (measure buf last 128 src (-1)).2, x < last) → ∀ x ∈ reads, x < last) := by
  have hpos : extent (labelsOf buf (src :: xs)) ≠ 0 := extent_eq_zero.not.mpr hlabels
  have hne : buf src ≠ 0 := by
    intro hzero
    cases h with
    | root => exact hlabels (labelsOf_eq_nil.mpr fun x hx => Or.inl (mem_singleton.mp hx ▸ hzero))
    | step _ hne => exact hne hzero
  obtain ⟨s, hloop, hdst, hkept, hreads⟩ := h.loop_eq hne [] ((measure buf last 128 src (-1)).2 ++ [src])
  refine ⟨s.reads, ?_, fun x hx => hkept (mem_append_left _ hx), fun hinside hold => hreads hinside fun x hx => ?_⟩
  · have hlen' : ¬ (-1 + (extent (labelsOf buf (src :: xs)) : Int) = -1) := by omega
    simp only [copy, hlen, Bool.true_eq_false, if_false, if_neg hlen', hloop, Option.map_some, hdst, nil_append]
    rw [show (-1 + (extent (labelsOf buf (src :: xs)) : Int)).toNat = extent (labelsOf buf (src :: xs)) - 1 by omega]
  · rcases mem_append.mp hx with hx | hx
    · exact hold x hx
    · exact mem_singleton.mp hx ▸ h.lt

/-- A call is right iff no pointer sticks out of the response, and the name that it copies does
not end in a pointer to the zero byte. -/
theorem copy_right_iff {src : Nat} (hsrc : src < last) (wanted alloc : Bool) : CopyRight buf last src wanted alloc ↔
      PointersInside buf last src ∧ (wanted = true → alloc = true → ¬ EndsInPointer buf last src) := by
  rw [← measure_reads_iff hsrc (-1)]
  -- without a second pass only the reads of the first one count
  have hfirst : ∀ result, copy buf last src wanted alloc = some ⟨result, 0, (measure buf last 128 src (-1)).2⟩ →
      (∀ name, result = .ok (some name) → name = [] ∧ Encodes buf src []) →
      (wanted = true → alloc = true → ¬ EndsInPointer buf last src) →
      (CopyRight buf last src wanted alloc ↔ (∀ x ∈ (measure buf last 128 src (-1)).2, x < last) ∧
        (wanted = true → alloc = true → ¬ EndsInPointer buf last src)) := by
    intro result hcopy hname hno
    rw [CopyRight, hcopy]
    refine ⟨?_, fun h => ⟨_, rfl, h.1, fun name hok => ?_⟩⟩
    · rintro ⟨out, ⟨⟩, hreads, -⟩
      exact ⟨hreads, hno⟩
    · obtain ⟨rfl, hroot⟩ := hname name hok
      exact ⟨rfl, [], hroot, rfl⟩
  cases hmeasure : (measure buf last 128 src (-1)).1 with
  | error e =>
    refine hfirst (.error e) (by simp only [copy, hmeasure]) nofun fun _ _ => ?_
    rintro ⟨zs, a, b, hsplit, -, hb, -⟩
    exact measure_error hmeasure b (by rw [hsplit]; simp) hb
  | ok len =>
    obtain ⟨xs, helements, hroute, hlen⟩ := measure_ok hsrc hmeasure
    have hends := hroute.endsInPointer_iff helements
    cases wanted with
    | false => exact hfirst (.ok none) (by simp only [copy, hmeasure, if_true]) nofun nofun
    | true =>
      by_cases hnil : labelsOf buf (src :: xs) = []
      · have hnone : ¬ EndsInPointer buf last src := fun h => (hends.mp h).1 hnil
        have hlen' : len = -1 := by rw [hlen, hnil]; rfl
        refine hfirst (.ok (some [])) ?_ (fun name hok => ⟨by cases hok; rfl, hnil ▸ hroute.encodes⟩) fun _ _ => hnone
        simp only [copy, hmeasure, hlen', Bool.true_eq_false, if_false, if_true]
      have hlen' : ¬ len = -1 := by
        have hpos := extent_eq_zero.not.mpr hnil
        omega
      cases alloc with
      | false =>
        refine hfirst (.error .noMemory) ?_ nofun nofun
        simp only [copy, hmeasure, hlen', Bool.true_eq_false, if_false, if_true]
      | true =>
        obtain ⟨reads, hcopy, hkept, hreads⟩ := hroute.copy_eq (hlen ▸ hmeasure) hnil
        have hlength : ((written buf (src :: xs)).length = extent (labelsOf buf (src :: xs)) - 1) ↔
            ¬ EndsInPointer buf last src := by
          have hdots := @length_dotted ((labelsOf buf (src :: xs)).map strlow) (by simpa using hnil)
          rw [extent_map_strlow] at hdots
          rw [hroute.written_eq, length_append]
          by_cases hend : EndsInPointer buf last src
          · rw [if_pos (hends.mp hend)]
            refine iff_of_false ?_ (not_not.mpr hend)
            show ¬ _ + 1 = _
            omega
          rw [if_neg (hends.not.mp hend)]
          refine iff_of_true ?_ hend
          show _ + 0 = _
          omega
        rw [CopyRight, hcopy]
        refine ⟨?_, fun ⟨hfirst, hno⟩ => ⟨_, rfl, ?_, fun name hok => ?_⟩⟩
        · rintro ⟨out, ⟨⟩, hall, hname⟩
          exact ⟨fun x hx => hall x (hkept hx), fun _ _ => hlength.mp (hname _ rfl).1⟩
        · refine hreads (fun x hx => ?_) hfirst
          exact (measure_reads_iff hsrc (-1)).mp hfirst x (helements ▸ hx)
        · cases hok
          have hno := hno rfl rfl
          refine ⟨hlength.mpr hno, _, hroute.encodes, ?_⟩
          rw [hroute.written_eq, if_neg (hends.not.mp hno), append_nil]
          exact congrArg dotted (map_congr_left fun label _ => strlow_eq label)

end

/-- A response, with zero bytes behind it. -/
def bufOf (bytes : Bytes) : Buf := fun i => bytes.getD i 0

/-- The name "A". -/
theorem copy_right_label : CopyRight (bufOf [1, 65, 0]) 3 0 true true := by
  refine (copy_right_iff (by decide) true true).mpr ⟨?_, fun _ _ => ?_⟩
  · intro p hp
    have helements : elements (bufOf [1, 65, 0]) 3 128 0 = [0, 2] := by decide
    rw [helements] at hp
    revert p
    decide
  · rintro ⟨xs, p, q, hsplit, hpointer, -⟩
    have helements : elements (bufOf [1, 65, 0]) 3 128 0 = [] ++ [0, 2] := by decide
    rw [helements] at hsplit
    cases (append_inj_right' hsplit rfl)
    cases hpointer

/-- The name "a" that goes on with a pointer to a zero byte: one byte of memory, and the two
bytes "a." are written. And a pointer whose second byte is behind the response. -/
theorem copy_wrong : ¬ CopyRight (bufOf [1, 97, 192, 4, 0]) 5 0 true true ∧ ¬ CopyRight (bufOf [192, 1]) 1 0 true true := by
  refine ⟨?_, ?_⟩
  · rintro ⟨out, hcopy, -, hname⟩
    have hnext : copyTurn (bufOf [1, 97, 192, 4, 0]) ⟨1, 1, [], [0, 2, 3, 4, 0]⟩ =
        some (.inl ⟨192, 3, [97, 46], [0, 2, 3, 4, 0, 1, 2]⟩) := rfl
    have hdone : copyTurn (bufOf [1, 97, 192, 4, 0]) ⟨192, 3, [97, 46], [0, 2, 3, 4, 0, 1, 2]⟩ =
        some (.inr ⟨0, 5, [97, 46], [0, 2, 3, 4, 0, 1, 2, 3, 4]⟩) := by decide
    have heq : copy (bufOf [1, 97, 192, 4, 0]) 5 0 true true =
        (loop (copyTurn (bufOf [1, 97, 192, 4, 0])) ⟨1, 1, [], [0, 2, 3, 4, 0]⟩).map
          fun s => ⟨.ok (some s.dst), 1, s.reads⟩ := rfl
    rw [heq, loop_next hnext, loop_done hdone] at hcopy
    cases hcopy
    cases (hname _ rfl).1
  · rintro ⟨out, hcopy, hreads, -⟩
    have heq : copy (bufOf [192, 1]) 1 0 true true = some ⟨.error .outOfResponse, 0, [0, 1]⟩ := rfl
    rw [heq] at hcopy
    cases hcopy
    exact absurd (hreads 1 (.tail 0 (.head _))) (Nat.lt_irrefl 1)

end GokuStudio.Nginx.Resolver

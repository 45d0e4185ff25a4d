import GokuStudio.Lib.Segments
import GokuStudio.Nginx.Core

/-!
# What a normalised URI is

The path of a URI is what stands before the first `?` or `#`. Its escapes are
decoded once, runs of slashes are merged if that is asked for, and its dot
segments are removed: `.` stands for nothing, `..` takes the segment before it
away, and there must be one. `normalise` is `none` for a path with an escape that
is not one, with an encoded NUL, or with a `..` that climbs above the root.

The second half compares the standard rule for `..` with another one that is
applied to the same segments: a `..` behind an empty segment takes two segments
away (`removeTwo`).
-/

namespace GokuStudio.Nginx

open Lib List

/-! ## §1 Decoding -/

/-- The byte of the escape `%ab`. -/
def escaped (a b : UInt8) : Option UInt8 :=
  (hexValue a).bind fun x => (hexValue b).bind fun y => if 16 * x + y = NUL then none else some (16 * x + y)

def unescape : Bytes → Option Bytes
  | [] => some []
  | c :: rest =>
    if c = '%' then
      match rest with
      | a :: b :: rest => (escaped a b).bind fun v => (unescape rest).map (v :: ·)
      | _ => none
    else (unescape rest).map (c :: ·)

/-- A `?` or a `#`. -/
def endsPath (c : UInt8) : Bool := c = '?' ∨ c = '#'

def pathPart (uri : Bytes) : Bytes := uri.takeWhile fun c => !endsPath c

/-! ## §2 Dot segments -/

abbrev slash : UInt8 := '/'
def dot : Bytes := text ['.']
def dotDot : Bytes := text ['.', '.']

section
variable (mergeSlashes : Bool) (path : Bytes) (st : List Bytes) (last : Bytes)

/-- A segment is placed on those before it, the nearest of which is at the head. -/
def removeDot (seg : Bytes) : Option (List Bytes) :=
  if seg = dot then some st
  else if seg = dotDot then
    match st with
    | [] => none
    | _ :: st => some st
  else some (seg :: st)

/-- The segments before the last one; merged slashes leave no empty one. -/
def segments : List Bytes :=
  if mergeSlashes then (initSegments slash path.tail).filter (· ≠ [])
  else initSegments slash path.tail

def absolute : Bytes := slash :: joinSegments slash st last

/-- A dot segment at the end leaves the slash before it. -/
def closePath : Option Bytes :=
  if last = dot ∨ last = dotDot then (removeDot st last).map (absolute · []) else some (absolute st last)

def normalisePath : Option Bytes := ((segments mergeSlashes path).foldlM removeDot []).bind fun st =>
    closePath st (lastSegment slash path.tail)

def normalise (uri : Bytes) : Option Bytes := (unescape (pathPart uri)).bind (normalisePath mergeSlashes)

end

example : normalise true (text ['/', 'a', '/', '/', '%', '2', 'e', '.', '/', 'b', '/', '.', '?', '%']) =
    some (text ['/', 'b', '/']) := by decide

/-! ## §3 What comes out -/

/-- Neither a dot segment nor more than one segment. -/
def PlainSegment (seg : Bytes) : Prop := seg ≠ dot ∧ seg ≠ dotDot ∧ slash ∉ seg

variable {st st' segs : List Bytes} {seg s : Bytes} {merge : Bool}

theorem removeDot_plain (hst : ∀ s ∈ st, PlainSegment s) (hseg : slash ∉ seg) (h : removeDot st seg = some st') :
    ∀ s ∈ st', PlainSegment s := by
  unfold removeDot at h
  split_ifs at h with hd hdd
  · cases h
    exact hst
  · cases st with
    | nil => cases h
    | cons t st =>
      cases h
      exact (forall_mem_cons.mp hst).2
  · cases h
    exact forall_mem_cons.mpr ⟨⟨hd, hdd, hseg⟩, hst⟩

theorem foldlM_removeDot_plain : ∀ {st st' : List Bytes}, (∀ s ∈ st, PlainSegment s) → (∀ s ∈ segs, slash ∉ s) →
    segs.foldlM removeDot st = some st' → ∀ s ∈ st', PlainSegment s := by
  induction segs with
  | nil =>
    intro st st' hst _ h
    cases h
    exact hst
  | cons seg segs ih =>
    intro st st' hst hsegs h
    rw [foldlM_cons] at h
    cases h1 : removeDot st seg with rw [h1] at h
    | none =>
      cases h
    | some st1 =>
      have hst1 := removeDot_plain hst (hsegs seg mem_cons_self) h1
      exact ih hst1 (forall_mem_cons.mp hsegs).2 h

theorem not_mem_segments {path : Bytes} (h : s ∈ segments merge path) : slash ∉ s := by
  unfold segments at h
  split_ifs at h
  · exact not_mem_initSegments (mem_of_mem_filter h)
  · exact not_mem_initSegments h

/-- A normalised path starts with a slash and has no dot segment. -/
theorem normalise_clean {uri out : Bytes} (h : normalise merge uri = some out) :
    ∃ segs, out = slash :: segs ∧ ∀ s ∈ segs.splitOn slash, s ≠ dot ∧ s ≠ dotDot := by
  obtain ⟨path, -, h⟩ := Option.bind_eq_some_iff.mp h
  obtain ⟨st, hst, h⟩ := Option.bind_eq_some_iff.mp h
  have hplain : ∀ s ∈ st, PlainSegment s := foldlM_removeDot_plain (by simp) (fun s => not_mem_segments) hst
  have key : ∀ {st : List Bytes} {last : Bytes}, (∀ s ∈ st, PlainSegment s) → PlainSegment last →
      ∃ segs, absolute st last = slash :: segs ∧ ∀ s ∈ segs.splitOn slash, s ≠ dot ∧ s ≠ dotDot := by
    intro st last hst hlast
    refine ⟨_, rfl, ?_⟩
    rw [splitOn_joinSegments (fun s hs => (hst s hs).2.2) hlast.2.2]
    intro s hs
    rcases mem_append.mp hs with hs | hs
    · exact ⟨(hst s (mem_reverse.mp hs)).1, (hst s (mem_reverse.mp hs)).2.1⟩
    · rw [mem_singleton.mp hs]
      exact ⟨hlast.1, hlast.2.1⟩
  unfold closePath at h
  split_ifs at h with hdots
  · obtain ⟨st', hst', rfl⟩ := Option.map_eq_some_iff.mp h
    exact key (removeDot_plain hplain (not_mem_lastSegment _) hst') (by simp [PlainSegment, dot, dotDot, text])
  cases h
  rw [not_or] at hdots
  exact key hplain ⟨hdots.1, hdots.2, not_mem_lastSegment _⟩

/-! ## §4 A `..` that takes two -/

def removeTwo (st : List Bytes) (seg : Bytes) : Option (List Bytes) :=
  if seg = dot then some st
  else if seg = dotDot then
    match st with
    | [] => none
    | s :: st =>
      if s = [] then
        match st with
        | [] => none
        | _ :: st => some st
      else some st
  else some (seg :: st)

theorem removeTwo_dotDot (st : List Bytes) (h : s ≠ []) : removeTwo (s :: st) dotDot = some st := if_neg h

theorem mem_removeTwo (h : removeTwo st seg = some st') (hs : s ∈ st') : s ∈ st ∨ s = seg := by
  unfold removeTwo at h
  split_ifs at h with hd hdd
  · cases h
    exact .inl hs
  · left
    match st, h with
    | t :: rest, h =>
      dsimp only at h
      split_ifs at h
      · match rest, h with
        | _ :: rest, h =>
          cases h
          exact mem_cons_of_mem _ (mem_cons_of_mem _ hs)
      · cases h
        exact mem_cons_of_mem _ hs
  · cases h
    exact (mem_cons.mp hs).symm

/-- Some `..` takes an empty segment away. -/
def EmptyPop : List Bytes → List Bytes → Prop
  | _, [] => False
  | st, seg :: segs =>
    (seg = dotDot ∧ st.head? = some []) ∨
      match removeDot st seg with
      | none => False
      | some st => EmptyPop st segs

theorem removeTwo_eq (h : ¬ (seg = dotDot ∧ st.head? = some [])) : removeTwo st seg = removeDot st seg := by
  unfold removeTwo removeDot
  split_ifs with hd hdd
  · rfl
  · cases st with
    | nil => rfl
    | cons s st =>
      have hs : s ≠ [] := by
        rintro rfl
        exact h ⟨hdd, rfl⟩
      exact if_neg hs
  · rfl

theorem foldlM_removeTwo_eq : ∀ {st : List Bytes}, ¬ EmptyPop st segs →
    segs.foldlM removeTwo st = segs.foldlM removeDot st := by
  induction segs with
  | nil => exact fun _ => rfl
  | cons seg segs ih =>
    intro st h
    rw [EmptyPop, not_or] at h
    rw [foldlM_cons, foldlM_cons, removeTwo_eq h.1]
    cases hr : removeDot st seg with
    | none => rfl
    | some st' =>
      rw [hr] at h
      exact ih h.2

/-- The stack of `removeTwo` is the lower one, if it has one. -/
def Lower : Option (List Bytes) → Option (List Bytes) → Prop
  | none, _ => True
  | some a, some b => a.length < b.length
  | some _, none => False

theorem removeTwo_lower {a b : List Bytes} (seg : Bytes) (h : a.length < b.length) :
    Lower (removeTwo a seg) (removeDot b seg) := by
  unfold removeTwo removeDot
  split_ifs with hd hdd
  · exact h
  · cases b with
    | nil => simp at h
    | cons t b =>
      rw [length_cons] at h
      cases a with
      | nil => trivial
      | cons s a =>
        rw [length_cons] at h
        show Lower (if s = [] then _ else _) (some b)
        split_ifs
        · cases a with
          | nil => trivial
          | cons s' a =>
            rw [length_cons] at h
            show a.length < b.length
            omega
        · show a.length < b.length
          omega
  · show (seg :: a).length < (seg :: b).length
    simpa using h

theorem foldlM_lower : ∀ {a b : List Bytes}, a.length < b.length →
    Lower (segs.foldlM removeTwo a) (segs.foldlM removeDot b) := by
  induction segs with
  | nil => exact fun h => h
  | cons seg segs ih =>
    intro a b h
    have hstep := removeTwo_lower seg h
    rw [foldlM_cons, foldlM_cons]
    cases ha : removeTwo a seg with
    | none => trivial
    | some a' =>
      cases hb : removeDot b seg with rw [ha, hb] at hstep
      | none =>
        exact hstep.elim
      | some b' =>
        exact ih hstep

theorem foldlM_lower_of_emptyPop : ∀ {st : List Bytes}, EmptyPop st segs →
    Lower (segs.foldlM removeTwo st) (segs.foldlM removeDot st) := by
  induction segs with
  | nil => exact fun h => h.elim
  | cons seg segs ih =>
    intro st h
    rw [foldlM_cons, foldlM_cons]
    by_cases hpop : seg = dotDot ∧ st.head? = some []
    · -- the two part here
      obtain ⟨rfl, hst⟩ := hpop
      obtain ⟨rest, rfl⟩ : ∃ rest, st = [] :: rest := head?_eq_some_iff.mp hst
      cases rest with
      | nil => trivial
      | cons s rest => exact foldlM_lower (Nat.lt_succ_self _)
    rw [EmptyPop, or_iff_right hpop] at h
    rw [removeTwo_eq hpop]
    cases hr : removeDot st seg with
    | none => trivial
    | some st' =>
      rw [hr] at h
      exact ih h

/-- What the standard refuses is refused. -/
theorem foldlM_removeTwo_none (h : segs.foldlM removeDot st = none) : segs.foldlM removeTwo st = none := by
  by_cases hpop : EmptyPop st segs
  · have hlow := foldlM_lower_of_emptyPop hpop
    rw [h] at hlow
    cases hA : segs.foldlM removeTwo st with
    | none => rfl
    | some a =>
      rw [hA] at hlow
      exact hlow.elim
  · rw [foldlM_removeTwo_eq hpop, h]

theorem foldlM_removeTwo_eq_iff : segs.foldlM removeTwo st = segs.foldlM removeDot st ↔
      segs.foldlM removeDot st = none ∨ ¬ EmptyPop st segs := by
  constructor
  · intro h
    by_contra hno
    rw [not_or, not_not] at hno
    have hlow := foldlM_lower_of_emptyPop hno.2
    rw [h] at hlow
    cases hB : segs.foldlM removeDot st with
    | none => exact hno.1 hB
    | some b =>
      rw [hB] at hlow
      exact Nat.lt_irrefl _ hlow
  · rintro (h | h)
    · rw [foldlM_removeTwo_none h, h]
    · exact foldlM_removeTwo_eq h

theorem mem_foldlM_removeTwo : ∀ {st st' : List Bytes},
    segs.foldlM removeTwo st = some st' → ∀ s ∈ st', s ∈ st ∨ s ∈ segs := by
  induction segs with
  | nil =>
    intro st st' h s hs
    cases h
    exact .inl hs
  | cons seg segs ih =>
    intro st st' h s hs
    rw [foldlM_cons] at h
    cases h1 : removeTwo st seg with rw [h1] at h
    | none =>
      cases h
    | some st1 =>
      rcases ih h s hs with hs | hs
      · rcases mem_removeTwo h1 hs with hs | rfl
        · exact .inl hs
        · exact .inr mem_cons_self
      · exact .inr (mem_cons_of_mem _ hs)

end GokuStudio.Nginx

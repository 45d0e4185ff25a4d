import GokuStudio.Lib.Lex
import GokuStudio.Nginx.Http.Locations
import Mathlib.Data.List.TakeWhile
import Mathlib.Data.Prod.Lex

/-!
# The queue of locations: sorted, joined, nested

Names are compared by their keys, in which a slash comes before all other characters and
the end of a name before that. For names without NUL bytes `ngx_filename_cmp` decides the
lexicographic order of the keys.

What the tree is built from is said by two facts about the nested queues. Read from left
to right, an element before its list, the names increase. And a list holds the names that
begin with the name it belongs to, all of them.
-/

namespace GokuStudio.Nginx

open Lib List Option

namespace Locations

/-! ## §1 The order of names -/

def rank (c : UInt8) : Nat := if c = NUL then 0 else if c = '/' then 1 else c.toNat + 1
def key (name : Bytes) : List Nat := name.map rank

variable {a b : Bytes} {c d : UInt8} {one two q x : Queue} {sorted qs rest : List Queue} {ls : List Location}
  {n fuel : Nat} {l : Location}

theorem rank_eq (c : UInt8) : rank c = if c.toNat = 0 then 0 else if c.toNat = 47 then 1 else c.toNat + 1 := by
  unfold rank
  simp only [← UInt8.toNat_inj]
  rfl

theorem rank_injective : Function.Injective rank := by
  intro c d h
  rw [rank_eq, rank_eq] at h
  rw [← UInt8.toNat_inj]
  split_ifs at h <;> omega

theorem key_injective : Function.Injective key := map_injective_iff.mpr rank_injective
theorem key_isPrefix_iff : key a <+: key b ↔ a <+: b := prefix_map_iff_of_injective rank_injective

/-- What `ngx_filename_cmp` returns where two texts differ. -/
def byteCmp (c d : UInt8) : Int :=
  if c = NUL ∨ d = NUL then (c.toNat : Int) - d.toNat else slashLowest c - slashLowest d

theorem byteCmp_sign (h : c ≠ d) : (byteCmp c d < 0 ∧ rank c < rank d) ∨ (0 < byteCmp c d ∧ rank d < rank c) := by
  rw [rank_eq, rank_eq]
  unfold byteCmp slashLowest
  simp only [ne_eq, ← UInt8.toNat_inj] at h ⊢
  have hnul : NUL.toNat = 0 := rfl
  have hslash : ('/' : UInt8).toNat = 47 := rfl
  rw [hnul, hslash]
  split_ifs <;> omega

theorem filenameCmp_cons : filenameCmp (n + 1) (c :: a) (d :: b) =
      if c = d then if c ≠ NUL then filenameCmp n a b else 0 else byteCmp c d := rfl

theorem byteCmp_end (h : c ≠ NUL) : 0 < byteCmp c NUL ∧ byteCmp NUL c < 0 := by
  have hrank : rank NUL = 0 := rfl
  constructor
  · rcases byteCmp_sign h with ⟨-, hlt⟩ | ⟨hpos, -⟩
    · omega
    · exact hpos
  · rcases byteCmp_sign h.symm with ⟨hneg, -⟩ | ⟨-, hlt⟩
    · exact hneg
    · omega

theorem filenameCmp_nil_right : filenameCmp (n + 1) (c :: a) [] = if c = NUL then 0 else byteCmp c NUL := by
  by_cases h : c = NUL
  · subst h
    rfl
  · rw [if_neg h]
    exact if_neg h

theorem filenameCmp_nil_left (h : d ≠ NUL) : filenameCmp (n + 1) [] (d :: b) = byteCmp NUL d := by
  exact if_neg h.symm

/-- The sign at the first difference is that of the keys. -/
theorem filenameCmp_sign : ∀ {a b : Bytes}, NUL ∉ b →
    (filenameCmp n a b < 0 → key a < key b) ∧ (0 < filenameCmp n a b → key b < key a) := by
  have hzero : ∀ {P Q : Prop}, ((0 : Int) < 0 → P) ∧ ((0 : Int) < 0 → Q) :=
    ⟨fun h => absurd h (Int.lt_irrefl 0), fun h => absurd h (Int.lt_irrefl 0)⟩
  induction n with
  | zero =>
    intro a b _
    exact hzero
  | succ n ih =>
    intro a b hb
    cases b with
    | nil =>
      cases a with
      | nil => exact hzero
      | cons c a =>
        refine ⟨?_, fun _ => nil_lt_cons _ _⟩
        rw [filenameCmp_nil_right]
        split_ifs with hc
        · exact fun h => absurd h (Int.lt_irrefl 0)
        intro h
        have hpos := (byteCmp_end hc).1
        omega
    | cons d b =>
      rw [mem_cons, not_or] at hb
      obtain ⟨hd, hb⟩ := hb
      cases a with
      | nil =>
        rw [filenameCmp_nil_left (Ne.symm hd)]
        refine ⟨fun _ => nil_lt_cons _ _, ?_⟩
        intro h
        have hneg := (byteCmp_end (Ne.symm hd)).2
        omega
      | cons c a =>
        rw [filenameCmp_cons]
        split_ifs with hcd hc
        · subst hcd
          obtain ⟨hlt, hgt⟩ := ih hb
          exact ⟨fun h => List.Lex.cons (hlt h), fun h => List.Lex.cons (hgt h)⟩
        · exact hzero
        · rcases byteCmp_sign hcd with ⟨hneg, hlt⟩ | ⟨hpos, hgt⟩
          · exact ⟨fun _ => List.Lex.rel hlt, fun h => by omega⟩
          · exact ⟨fun h => by omega, fun _ => List.Lex.rel hgt⟩

/-- Within both texts it is zero just if they agree. -/
theorem filenameCmp_eq_zero : ∀ {a b : Bytes}, NUL ∉ b → n ≤ a.length → n ≤ b.length →
    (filenameCmp n a b = 0 ↔ a.take n = b.take n) := by
  induction n with
  | zero =>
    intro a b _ _ _
    exact ⟨fun _ => rfl, fun _ => rfl⟩
  | succ n ih =>
    intro a b hb ha hb'
    cases a with
    | nil => cases ha
    | cons c a =>
      cases b with
      | nil => cases hb'
      | cons d b =>
        rw [mem_cons, not_or] at hb
        rw [filenameCmp_cons, take_succ_cons, take_succ_cons, cons.injEq]
        split_ifs with hcd hc
        · rw [ih hb.2 (Nat.le_of_succ_le_succ ha) (Nat.le_of_succ_le_succ hb'), and_iff_right hcd]
        · exact absurd (hcd ▸ not_not.mp hc) (Ne.symm hb.1)
        · refine iff_of_false ?_ fun h => hcd h.1
          rcases byteCmp_sign hcd with ⟨hneg, -⟩ | ⟨hpos, -⟩ <;> omega

/-- With the NUL byte at the end of one of them, it is zero just if they are equal. -/
theorem filenameCmp_min : ∀ {b : Bytes}, NUL ∉ a → NUL ∉ b →
    (filenameCmp (min a.length b.length + 1) a b = 0 ↔ a = b) := by
  induction a with
  | nil =>
    intro b _ hb
    cases b with
    | nil => exact ⟨fun _ => rfl, fun _ => rfl⟩
    | cons d b =>
      rw [mem_cons, not_or] at hb
      rw [filenameCmp_nil_left (Ne.symm hb.1)]
      exact iff_of_false (Int.ne_of_lt (byteCmp_end (Ne.symm hb.1)).2) nofun
  | cons c a ih =>
    intro b ha hb
    rw [mem_cons, not_or] at ha
    cases b with
    | nil =>
      rw [filenameCmp_nil_right, if_neg (Ne.symm ha.1)]
      exact iff_of_false (Int.ne_of_gt (byteCmp_end (Ne.symm ha.1)).1) nofun
    | cons d b =>
      rw [mem_cons, not_or] at hb
      rw [length_cons, length_cons, Nat.succ_min_succ, filenameCmp_cons, cons.injEq]
      split_ifs with hcd hc
      · rw [ih ha.2 hb.2, and_iff_right hcd]
      · exact absurd (not_not.mp hc) (Ne.symm ha.1)
      · refine iff_of_false ?_ fun h => hcd h.1
        rcases byteCmp_sign hcd with ⟨hneg, -⟩ | ⟨hpos, -⟩ <;> omega

/-! ## §2 Sorting -/

/-- The order of the queue: by name, and an exact location before the same prefix. -/
def Ordered (one two : Queue) : Prop := key one.name < key two.name ∨
    (one.name = two.name ∧ (one.exact.isSome ∨ two.exact.isNone))

theorem cmpLocations_le (h1 : NUL ∉ one.name) (h2 : NUL ∉ two.name) : cmpLocations one two ≤ 0 ↔ Ordered one two := by
  have hsign := @filenameCmp_sign (min one.name.length two.name.length + 1) one.name two.name h2
  have hzero := filenameCmp_min h1 h2
  rw [cmpLocations, Ordered]
  generalize filenameCmp (min one.name.length two.name.length + 1) one.name two.name = rc at hsign hzero ⊢
  rcases Int.lt_trichotomy rc 0 with hrc | rfl | hrc
  · rw [if_neg fun h => Int.ne_of_lt hrc h.1]
    exact iff_of_true (Int.le_of_lt hrc) (.inl (hsign.1 hrc))
  · have heq := hzero.mp rfl
    have hlt : ¬ key one.name < key two.name := by
      rw [heq]
      exact lt_irrefl _
    rw [or_iff_right hlt, and_iff_right heq]
    cases one.exact <;> cases two.exact <;> simp
  · have hne : one.name ≠ two.name := fun h => Int.ne_of_gt hrc (hzero.mpr h)
    rw [if_neg fun h => Int.ne_of_gt hrc h.1]
    refine iff_of_false (Int.not_le.mpr hrc) ?_
    rintro (h | h)
    · exact lt_asymm h (hsign.2 hrc)
    · exact hne h.1

/-- The keys with `false` for an exact location, which comes before `true`. -/
def place (q : Queue) : List Nat ×ₗ Bool := toLex (key q.name, q.exact.isNone)

theorem ordered_iff : Ordered one two ↔ place one ≤ place two := by
  rw [place, place, Prod.Lex.toLex_le_toLex, Ordered, key_injective.eq_iff]
  cases one.exact <;> cases two.exact <;> simp

theorem ordered_total (h : ¬ Ordered one two) : Ordered two one :=
  ordered_iff.mpr (le_of_not_ge (mt ordered_iff.mpr h))

theorem mem_sortInsert : x ∈ sortInsert q sorted ↔ x = q ∨ x ∈ sorted := by
  induction sorted with
  | nil => simp [sortInsert]
  | cons prev sorted ih =>
    rw [sortInsert]
    split_ifs
    · simp
    · rw [mem_cons, ih, mem_cons]
      tauto

/-- The sorted queue is written from its end. -/
theorem sortInsert_ordered (hq : NUL ∉ q.name)
    (hnul : ∀ x ∈ sorted, NUL ∉ x.name) (h : sorted.Pairwise fun a b => Ordered b a) :
    (sortInsert q sorted).Pairwise fun a b => Ordered b a := by
  induction sorted with
  | nil => exact pairwise_singleton _ _
  | cons prev sorted ih =>
    have hprev := hnul prev mem_cons_self
    obtain ⟨hall, hsorted⟩ := pairwise_cons.mp h
    rw [sortInsert]
    split_ifs with hle
    · have hord := (cmpLocations_le hprev hq).mp hle
      exact pairwise_cons.mpr ⟨forall_mem_cons.mpr ⟨hord, fun x hx => ordered_iff.mpr ((ordered_iff.mp (hall x hx)).trans (ordered_iff.mp hord))⟩, h⟩
    have hord := ordered_total fun hord => hle ((cmpLocations_le hprev hq).mpr hord)
    refine pairwise_cons.mpr ⟨?_, ih (forall_mem_cons.mp hnul).2 hsorted⟩
    intro x hx
    rcases mem_sortInsert.mp hx with rfl | hx
    · exact hord
    · exact hall x hx

theorem mem_queueSort : x ∈ queueSort qs ↔ x ∈ qs := by
  have hfold : ∀ acc : List Queue, x ∈ qs.foldl (fun sorted q => sortInsert q sorted) acc ↔ x ∈ qs ∨ x ∈ acc := by
    induction qs with
    | nil => simp
    | cons q qs ih =>
      intro acc
      rw [foldl_cons, ih, mem_sortInsert, mem_cons]
      tauto
  rw [queueSort, mem_reverse, hfold]
  simp

theorem queueSort_ordered (hnul : ∀ x ∈ qs, NUL ∉ x.name) : (queueSort qs).Pairwise Ordered := by
  have hfold : ∀ acc : List Queue, (∀ x ∈ acc, NUL ∉ x.name) → (acc.Pairwise fun a b => Ordered b a) →
      (qs.foldl (fun sorted q => sortInsert q sorted) acc).Pairwise fun a b => Ordered b a := by
    induction qs with
    | nil => exact fun acc _ h => h
    | cons q qs ih =>
      intro acc hacc h
      have hq := hnul q mem_cons_self
      refine ih (forall_mem_cons.mp hnul).2 _ ?_ (sortInsert_ordered hq hacc h)
      intro x hx
      rcases mem_sortInsert.mp hx with rfl | hx
      · exact hq
      · exact hacc x hx
  rw [queueSort, pairwise_reverse]
  exact hfold [] nofun .nil

/-! ## §3 Joining -/

/-- The element holds locations of its name, in the right places. -/
structure Valid (ls : List Location) (q : Queue) : Prop where
  text : NUL ∉ q.name
  slots : q.exact.isSome ∨ q.inclusive.isSome
  exact : ∀ l, q.exact = some l → l ∈ ls ∧ l.exactMatch = true ∧ l.name = q.name
  inclusive : ∀ l, q.inclusive = some l → l ∈ ls ∧ l.exactMatch = false ∧ l.name = q.name

/-- The element `y` has all that `x` has. -/
structure Covers (y x : Queue) : Prop where
  name : y.name = x.name
  exact : ∀ l, x.exact = some l → y.exact = some l
  inclusive : ∀ l, x.inclusive = some l → y.inclusive = some l

theorem covers_refl (q : Queue) : Covers q q := ⟨rfl, fun _ h => h, fun _ h => h⟩

theorem covers_trans {y z : Queue} (h : Covers z y) (h' : Covers y x) : Covers z x :=
  ⟨h.name.trans h'.name, fun l hl => h.exact l (h'.exact l hl), fun l hl => h.inclusive l (h'.inclusive l hl)⟩

theorem valid_of (hl : l ∈ ls) (hnul : NUL ∉ l.name) : Valid ls (.of l) := by
  cases he : l.exactMatch with
  | true => exact ⟨hnul, by simp [Queue.of, he], by simp [Queue.of, he, hl], by simp [Queue.of, he]⟩
  | false => exact ⟨hnul, by simp [Queue.of, he], by simp [Queue.of, he], by simp [Queue.of, he, hl]⟩

/-- Two elements with the same name that are no duplicates: the first is exact, the
second a prefix. -/
theorem merge_cases (hord : Ordered q (.of l)) (hname : q.name = l.name)
    (hdup : ¬ ((q.exact.isSome ∧ (Queue.of l).exact.isSome) ∨ (q.inclusive.isSome ∧ (Queue.of l).inclusive.isSome))) :
    l.exactMatch = false ∧ q.inclusive = none := by
  have hord : q.exact.isSome ∨ (Queue.of l).exact.isNone := by
    rcases hord with h | h
    · have heq : key q.name = key (Queue.of l).name := congrArg key hname
      exact absurd heq h.ne
    · exact h.2
  cases he : l.exactMatch with
  | true =>
    simp only [Queue.of, he, if_true, isNone_some, isSome_some, and_true] at hord hdup
    simp at hord
    exact absurd (.inl hord) hdup
  | false =>
    refine ⟨rfl, ?_⟩
    simp [Queue.of, he] at hdup
    exact hdup

/-- What `joinFrom` makes of an element and the sorted rest. -/
structure Joins (ls : List Location) (q : Queue) (rest js : List Queue) : Prop where
  head : ∃ q' js', js = q' :: js' ∧ Covers q' q
  sorted : js.Pairwise fun a b => key a.name < key b.name
  valid : ∀ y ∈ js, Valid ls y
  covers : ∀ x ∈ rest, ∃ y ∈ js, Covers y x

theorem joinFrom_joins : ∀ {q : Queue} {js : List Queue},
    Valid ls q → (∀ x ∈ rest, ∃ l ∈ ls, x = .of l ∧ NUL ∉ l.name) → (∀ x ∈ rest, Ordered q x) →
    rest.Pairwise Ordered → joinFrom q rest = some js → Joins ls q rest js := by
  induction rest with
  | nil =>
    intro q js hq _ _ _ h
    cases h
    refine ⟨⟨q, [], rfl, covers_refl q⟩, pairwise_singleton _ _, ?_, nofun⟩
    intro y hy
    rw [mem_singleton.mp hy]
    exact hq
  | cons x rest ih =>
    intro q js hq hof hord hsorted h
    obtain ⟨l, hl, rfl, hnul⟩ := hof x mem_cons_self
    obtain ⟨hx, hrest⟩ := pairwise_cons.mp hsorted
    have hof' : ∀ x ∈ rest, ∃ l ∈ ls, x = .of l ∧ NUL ∉ l.name := (forall_mem_cons.mp hof).2
    rw [joinFrom] at h
    split_ifs at h with hsame hdup
    · -- the same name
      have hname : q.name = l.name := by
        have hlen : q.name.length = l.name.length := hsame.1
        have htake := (filenameCmp_eq_zero hnul hlen.ge le_rfl).mp hsame.2
        rwa [take_length, ← hlen, take_length] at htake
      obtain ⟨hincl, hnone⟩ := merge_cases (hord _ mem_cons_self) hname hdup
      have hexact : q.exact.isSome := by
        rcases hq.slots with h | h
        · exact h
        · rw [hnone] at h
          cases h
      have hq' : Valid ls { q with inclusive := (Queue.of l).inclusive } := by
        refine ⟨hq.text, .inl hexact, hq.exact, ?_⟩
        intro l' hl'
        have hl'' : l = l' := by simpa [Queue.of, hincl] using hl'
        subst hl''
        exact ⟨hl, hincl, hname.symm⟩
      have hjoins := ih hq' hof' (fun x hx => ?_) hrest h
      · obtain ⟨q', js', rfl, hcovers⟩ := hjoins.head
        refine ⟨⟨q', js', rfl, ?_⟩, hjoins.sorted, hjoins.valid, ?_⟩
        · refine covers_trans hcovers ⟨rfl, fun _ h => h, ?_⟩
          rw [hnone]
          nofun
        · intro x hx
          rcases mem_cons.mp hx with rfl | hx
          · refine ⟨q', mem_cons_self, covers_trans hcovers ⟨hname, ?_, fun _ h => h⟩⟩
            simp [Queue.of, hincl]
          · exact hjoins.covers x hx
      · rcases hord x (mem_cons_of_mem _ hx) with h | h
        · exact .inl h
        · exact .inr ⟨h.1, .inl hexact⟩
    · -- another name
      obtain ⟨js', hjs', rfl⟩ := map_eq_some_iff.mp h
      have hjoins := ih (valid_of hl hnul) hof' hx hrest hjs'
      have hlt : key q.name < key l.name := by
        rcases hord _ mem_cons_self with hlt | heq
        · exact hlt
        have hname : q.name = l.name := heq.1
        refine absurd ⟨congrArg length hname, ?_⟩ hsame
        exact (filenameCmp_eq_zero hnul (hname ▸ le_rfl) le_rfl).mpr (by rw [hname])
      obtain ⟨q', js'', rfl, hcovers⟩ := hjoins.head
      have hall := (pairwise_cons.mp hjoins.sorted).1
      have hq' : q'.name = l.name := hcovers.name
      refine ⟨⟨q, _, rfl, covers_refl q⟩, pairwise_cons.mpr ⟨?_, hjoins.sorted⟩, ?_, ?_⟩
      · intro y hy
        rcases mem_cons.mp hy with rfl | hy
        · rwa [hq']
        · rw [← hq'] at hlt
          exact hlt.trans (hall y hy)
      · exact forall_mem_cons.mpr ⟨hq, hjoins.valid⟩
      · refine forall_mem_cons.mpr ⟨⟨q', mem_cons_of_mem _ mem_cons_self, hcovers⟩, fun x hx => ?_⟩
        obtain ⟨y, hy, hc⟩ := hjoins.covers x hx
        exact ⟨y, mem_cons_of_mem _ hy, hc⟩

/-- The queue that the tree is built from. -/
structure Joined (ls : List Location) (qs : List Queue) : Prop where
  sorted : qs.Pairwise fun a b => key a.name < key b.name
  valid : ∀ q ∈ qs, Valid ls q
  covers : ∀ l ∈ ls, ∃ q ∈ qs, Covers q (.of l)

theorem joined (hnul : ∀ l ∈ ls, NUL ∉ l.name) (h : joinExact (queueSort (ls.map .of)) = some qs) : Joined ls qs := by
  have hof : ∀ x ∈ queueSort (ls.map .of), ∃ l ∈ ls, x = .of l ∧ NUL ∉ l.name := by
    intro x hx
    obtain ⟨l, hl, rfl⟩ := mem_map.mp (mem_queueSort.mp hx)
    exact ⟨l, hl, rfl, hnul l hl⟩
  have hsorted : (queueSort (ls.map .of)).Pairwise Ordered := by
    apply queueSort_ordered
    intro x hx
    obtain ⟨l, hl, rfl⟩ := mem_map.mp hx
    exact hnul l hl
  have hmem : ∀ l ∈ ls, Queue.of l ∈ queueSort (ls.map .of) := fun l hl => mem_queueSort.mpr (mem_map_of_mem hl)
  generalize queueSort (ls.map .of) = sorted at h hof hsorted hmem
  cases sorted with
  | nil =>
    cases h
    exact ⟨.nil, nofun, fun l hl => nomatch hmem l hl⟩
  | cons q rest =>
    obtain ⟨l0, hl0, rfl, hnul0⟩ := hof q mem_cons_self
    obtain ⟨hord, hrest⟩ := pairwise_cons.mp hsorted
    have hjoins := joinFrom_joins (valid_of hl0 hnul0) (forall_mem_cons.mp hof).2 hord hrest h
    refine ⟨hjoins.sorted, hjoins.valid, ?_⟩
    intro l hl
    rcases mem_cons.mp (hmem l hl) with heq | hx
    · obtain ⟨q', js', rfl, hcovers⟩ := hjoins.head
      rw [heq]
      exact ⟨q', mem_cons_self, hcovers⟩
    · exact hjoins.covers _ hx

/-! ## §4 Nesting -/

/-- All elements, each before its list. -/
def Forest.flat : Forest → List Queue
  | .nil => []
  | .cons q list next => q :: (list.flat ++ next.flat)

/-- A list holds names that begin with the name it belongs to, and no such name is
behind it. -/
def Nested : Forest → Prop
  | .nil => True
  | .cons q list next =>
    (∀ x ∈ list.flat, q.inclusive.isSome ∧ q.name <+: x.name) ∧
      (q.inclusive.isSome → ∀ x ∈ next.flat, ¬ q.name <+: x.name) ∧ Nested list ∧ Nested next

theorem inside_iff (hx : NUL ∉ x.name) : inside q x ↔ q.name <+: x.name := by
  have hcmp : q.name.length ≤ x.name.length → (filenameCmp q.name.length q.name x.name = 0 ↔ q.name <+: x.name) := by
    intro hle
    rw [filenameCmp_eq_zero hx le_rfl hle, take_length, prefix_iff_eq_take]
  rw [inside]
  constructor
  · intro h
    simp only [Bool.not_eq_true', Bool.or_eq_false_iff, decide_eq_false_iff_not, not_lt, bne_eq_false_iff_eq] at h
    exact (hcmp h.1).mp h.2
  · intro h
    simp only [Bool.not_eq_true', Bool.or_eq_false_iff, decide_eq_false_iff_not, not_lt, bne_eq_false_iff_eq]
    exact ⟨h.length_le, (hcmp h.length_le).mpr h⟩

/-- Behind the names that begin with a name there are no more of them. -/
theorem not_prefix_dropWhile (hnul : ∀ x ∈ rest, NUL ∉ x.name) (hq : ∀ x ∈ rest, key q.name < key x.name)
    (hsorted : rest.Pairwise fun a b => key a.name < key b.name) :
    ∀ x ∈ rest.dropWhile (inside q), ¬ q.name <+: x.name := by
  have hsub := dropWhile_sublist (l := rest) (inside q)
  intro x hx
  cases hdrop : rest.dropWhile (inside q) with
  | nil =>
    rw [hdrop] at hx
    cases hx
  | cons y ys =>
    have hy : ¬ inside q y := by
      have hhead := head_dropWhile_not (inside q) (by rw [hdrop]; exact cons_ne_nil _ _)
      simp only [hdrop, head_cons] at hhead
      simp [hhead]
    have hymem : y ∈ rest := hsub.mem (by rw [hdrop]; exact mem_cons_self)
    rw [hdrop] at hx
    rcases mem_cons.mp hx with rfl | hx
    · exact fun h => hy ((inside_iff (hnul _ hymem)).mpr h)
    intro h
    have hsorted' := hsorted.sublist hsub
    rw [hdrop] at hsorted'
    have hyx := (pairwise_cons.mp hsorted').1 x hx
    have hbetween := prefix_between (key_isPrefix_iff.mpr h) (hq y hymem).le hyx.le
    exact hy ((inside_iff (hnul _ hymem)).mpr (key_isPrefix_iff.mp hbetween))

theorem flat_createList : ∀ {qs : List Queue}, qs.length ≤ fuel → (createList fuel qs).flat = qs := by
  induction fuel with
  | zero =>
    intro qs h
    rw [length_eq_zero_iff.mp (Nat.le_zero.mp h)]
    rfl
  | succ fuel ih =>
    intro qs h
    cases qs with
    | nil => rfl
    | cons q rest =>
      have hrest : rest.length ≤ fuel := Nat.le_of_succ_le_succ h
      rw [createList]
      cases q.inclusive with
      | none => rw [Forest.flat, ih hrest, Forest.flat, nil_append]
      | some l =>
        have h1 := (takeWhile_sublist (l := rest) (inside q)).length_le
        have h2 := (dropWhile_sublist (l := rest) (inside q)).length_le
        rw [Forest.flat, ih (h1.trans hrest), ih (h2.trans hrest), takeWhile_append_dropWhile]

theorem createList_nested : ∀ {qs : List Queue}, qs.length ≤ fuel →
    (∀ q ∈ qs, NUL ∉ q.name) → (qs.Pairwise fun a b => key a.name < key b.name) →
    Nested (createList fuel qs) := by
  induction fuel with
  | zero => exact fun _ _ _ => trivial
  | succ fuel ih =>
    intro qs h hnul hsorted
    cases qs with
    | nil => trivial
    | cons q rest =>
      have hrest : rest.length ≤ fuel := Nat.le_of_succ_le_succ h
      have hnul' : ∀ x ∈ rest, NUL ∉ x.name := (forall_mem_cons.mp hnul).2
      obtain ⟨hq, hsorted'⟩ := pairwise_cons.mp hsorted
      rw [createList]
      cases hincl : q.inclusive with
      | none =>
        refine ⟨nofun, ?_, trivial, ih hrest hnul' hsorted'⟩
        rw [hincl]
        nofun
      | some l =>
        have hs1 := takeWhile_sublist (l := rest) (inside q)
        have hs2 := dropWhile_sublist (l := rest) (inside q)
        have h1 := hs1.length_le.trans hrest
        have h2 := hs2.length_le.trans hrest
        refine ⟨?_, ?_, ih h1 (fun x hx => hnul' x (hs1.mem hx)) (hsorted'.sublist hs1),
          ih h2 (fun x hx => hnul' x (hs2.mem hx)) (hsorted'.sublist hs2)⟩
        · rw [flat_createList h1, hincl]
          intro x hx
          exact ⟨rfl, (inside_iff (hnul' x (hs1.mem hx))).mp (mem_takeWhile_imp hx)⟩
        · rw [flat_createList h2]
          exact fun _ => not_prefix_dropWhile hnul' hq hsorted'

end Locations
end GokuStudio.Nginx

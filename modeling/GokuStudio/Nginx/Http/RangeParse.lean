import GokuStudio.Nginx.Http.Range
import Mathlib.Data.List.TakeWhile

/-!
# What the ranges of a request denote

`Denotes p specs` is the grammar of the text behind `bytes=`: specifications with
commas between them, spaces around their parts, up to the end of the text. The
numbers in a specification are natural numbers.

The parser reads that grammar, and nothing else. It computes the ranges that the
specifications denote as long as its `off_t`s can hold the numbers and the sum of the
sizes (`NoOverflow`).
-/

namespace GokuStudio.Nginx

open Lib List

namespace Range

/-! ## §1 The grammar -/

abbrev dash : UInt8 := '-'
abbrev comma : UInt8 := ','

def Spaces (w : Bytes) : Prop := ∀ ch ∈ w, ch = (' ' : UInt8)
def Number (ds : Bytes) : Prop := ds ≠ [] ∧ ∀ ch ∈ ds, isDigit ch

/-- The number with the digits of `n` and then those of the word. -/
def decimalFrom (n : Nat) (ds : Bytes) : Nat := ds.foldl (fun n ch => 10 * n + (ch - '0').toNat) n

abbrev decimal (ds : Bytes) : Nat := decimalFrom 0 ds

inductive Spec where
  | closed (first last : Nat)
  | openEnd (first : Nat)
  | suffix (n : Nat)
deriving DecidableEq, Repr

inductive SpecText : Bytes → Spec → Prop where
  | closed {s₁ ds s₂ s₃ es s₄ : Bytes} : Spaces s₁ → Number ds → Spaces s₂ → Spaces s₃ → Number es → Spaces s₄ →
      SpecText (s₁ ++ (ds ++ (s₂ ++ dash :: (s₃ ++ (es ++ s₄))))) (.closed (decimal ds) (decimal es))
  | openEnd {s₁ ds s₂ s₃ : Bytes} : Spaces s₁ → Number ds → Spaces s₂ → Spaces s₃ →
      SpecText (s₁ ++ (ds ++ (s₂ ++ dash :: s₃))) (.openEnd (decimal ds))
  | suffix {s₁ ds s₂ : Bytes} : Spaces s₁ → Number ds → Spaces s₂ →
      SpecText (s₁ ++ dash :: (ds ++ s₂)) (.suffix (decimal ds))

inductive Denotes : Bytes → List Spec → Prop where
  | last {w rest : Bytes} {s : Spec} : SpecText w s → peek rest = NUL → Denotes (w ++ rest) [s]
  | cons {w p : Bytes} {s : Spec} {specs : List Spec} : SpecText w s → Denotes p specs →
      Denotes (w ++ comma :: p) (s :: specs)

/-! ## §2 The ranges -/

/-- The range of a specification. A suffix is counted from the end, and no range goes
beyond it. -/
def Spec.range (L : Int) : Spec → HttpRange
  | .closed first last => ⟨first, min (last + 1) L⟩
  | .openEnd first => ⟨first, L⟩
  | .suffix n => ⟨L - n, L⟩

/-- Those that are not empty. -/
def collected (L : Int) (specs : List Spec) : List HttpRange := (specs.map (Spec.range L)).filter fun r => r.start < r.stop

/-- The sum of the sizes. -/
def total : List HttpRange → Int
  | [] => 0
  | r :: rs => r.stop - r.start + total rs

def Spec.Fits : Spec → Prop
  | .closed first last => first < 2 ^ 63 ∧ last < 2 ^ 63
  | .openEnd first => first < 2 ^ 63
  | .suffix n => n < 2 ^ 63

structure NoOverflow (L : Int) (specs : List Spec) : Prop where
  numbers : ∀ s ∈ specs, s.Fits
  sum : total (collected L specs) < 2 ^ 63

/-! ## §3 Spaces and digits -/

variable {p s₁ ds s₂ s₃ w r tail s : Bytes} {L start stop : Int} {found : Found} {specs : List Spec}
  {rs : List HttpRange} {fuel : Nat}

theorem peek_cons {ch : UInt8} (h : peek p = ch) (hch : ch ≠ NUL) : p = ch :: p.drop 1 := by
  cases p with
  | nil => exact absurd h.symm hch
  | cons a p =>
    cases h
    rfl

theorem skipSpaces_eq (p : Bytes) : ∃ s, Spaces s ∧ p = s ++ skipSpaces p := by
  refine ⟨p.takeWhile (· = (' ' : UInt8)), ?_, takeWhile_append_dropWhile.symm⟩
  intro ch hch
  have hspace := mem_takeWhile_imp hch
  exact of_decide_eq_true hspace

theorem offT_digit (n : Int) (ch : UInt8) (h : isDigit ch) :
    offT (offT n * 10 + ch.toNat - ('0' : UInt8).toNat) = offT (10 * n + (ch - '0').toNat) := by
  have hch : ((ch - '0').toNat : Int) = ch.toNat - ('0' : UInt8).toNat := by
    revert h
    revert ch
    apply forall_byte
    decide +kernel
  rw [hch, offT, offT, offT, Int.add_sub_assoc]
  apply (Int.bmod_add_cancel_right _).mpr
  rw [Int.bmod_mul_bmod, Int.mul_comm]

/-- The digits that are read, and the number they make. -/
theorem readDigits_eq (p : Bytes) : ∀ n : Nat, ∃ ds, (∀ ch ∈ ds, isDigit ch) ∧
    p = ds ++ (readDigits (offT n) p).2 ∧ (readDigits (offT n) p).1 = offT (decimalFrom n ds) ∧
    (isDigit (peek p) → ds ≠ []) := by
  induction p with
  | nil =>
    intro n
    rw [readDigits]
    refine ⟨[], nofun, rfl, ?_, fun h => absurd h (by decide)⟩
    rw [decimalFrom, foldl_nil]
  | cons ch p ih =>
    intro n
    rw [readDigits]
    split_ifs with hch
    · have hnext : offT (offT n * 10 + ch.toNat - ('0' : UInt8).toNat) =
          offT ((10 * n + (ch - '0').toNat : Nat) : Int) := by
        rw [offT_digit n ch hch, Int.natCast_add, Int.natCast_mul]
        rfl
      obtain ⟨ds, hds, hp, hn, -⟩ := ih (10 * n + (ch - '0').toNat)
      rw [hnext]
      refine ⟨ch :: ds, ?_, congrArg _ hp, ?_, fun _ => cons_ne_nil _ _⟩
      · exact forall_mem_cons.mpr ⟨hch, hds⟩
      · exact hn
    · refine ⟨[], nofun, rfl, ?_, fun h => absurd h hch⟩
      rw [decimalFrom, foldl_nil]

theorem offT_number {n : Nat} (h : n < 2 ^ 63) : offT n = n := offT_of_lt (by omega) (by omega)

/-- A number at the beginning of the text. -/
theorem readDigits_number (h : isDigit (peek p)) : ∃ ds, Number ds ∧
    p = ds ++ (readDigits 0 p).2 ∧ (readDigits 0 p).1 = offT (decimal ds) := by
  obtain ⟨ds, hds, hp, hn, hne⟩ := readDigits_eq p 0
  rw [offT_number (by decide)] at hp hn
  exact ⟨ds, ⟨hne h, hds⟩, hp, hn⟩

/-! ## §4 A range -/

/-- What a turn of the loop has read when it comes to `found:`. -/
structure Reads (L : Int) (p : Bytes) (found : Found) (w : Bytes) (s : Spec) : Prop where
  text : SpecText w s
  split : p = w ++ found.p
  stop : peek found.p = ',' ∨ peek found.p = NUL
  range : s.Fits → (⟨found.start, found.stop⟩ : HttpRange) = s.range L

/-- The end of a range: a number and then spaces. -/
theorem readEnd_eq {suffix : Bool} (h : readEnd L start suffix p = some found) : ∃ ds s, Number ds ∧ Spaces s ∧
    p = ds ++ (s ++ found.p) ∧ (peek found.p = ',' ∨ peek found.p = NUL) ∧
    found.start = (if suffix then offT (L - offT (decimal ds)) else start) ∧
    found.stop = (let stop := if suffix then L - 1 else offT (decimal ds)
      if stop ≥ L then L else stop + 1) := by
  rw [readEnd] at h
  split at h
  · cases h
  rename_i hdigit
  obtain ⟨ds, hds, hp, hn⟩ := readDigits_number (Decidable.not_not.mp hdigit)
  obtain ⟨s, hs, hp'⟩ := skipSpaces_eq (readDigits 0 p).2
  dsimp only at h
  split at h
  · cases h
  rename_i hstop
  cases h
  rw [hn]
  refine ⟨ds, s, hds, hs, ?_, Decidable.or_iff_not_not_and_not.mpr hstop, rfl, rfl⟩
  rw [← hp']
  exact hp

theorem reads_suffix (h0 : 0 ≤ L) (hL : L < 2 ^ 63) (hs1 : Spaces s₁) (h : readEnd L 0 true p = some found) :
    ∃ w s, Reads L (s₁ ++ dash :: p) found w s := by
  obtain ⟨ds, s₂, hds, hs2, hp, hstop, hstart, hend⟩ := readEnd_eq h
  refine ⟨_, _, .suffix hs1 hds hs2, ?_, hstop, ?_⟩
  · rw [hp]
    simp only [append_assoc, cons_append]
  · intro hfits
    have hn : decimal ds < 2 ^ 63 := hfits
    rw [if_pos rfl, offT_number hn, offT_of_lt (by omega) (by omega)] at hstart
    have hlast : found.stop = L := by
      rw [hend]
      rw [if_pos rfl, if_neg (by omega)]
      omega
    rw [hstart, hlast]
    rfl

theorem reads_closed (hs1 : Spaces s₁) (hds : Number ds) (hs2 : Spaces s₂) (hs3 : Spaces s₃)
    (h : readEnd L (offT (decimal ds)) false p = some found) :
    ∃ w s, Reads L (s₁ ++ (ds ++ (s₂ ++ dash :: (s₃ ++ p)))) found w s := by
  obtain ⟨es, s4, hes, hs4, hp, hstop, hstart, hend⟩ := readEnd_eq h
  refine ⟨_, _, .closed hs1 hds hs2 hs3 hes hs4, ?_, hstop, ?_⟩
  · rw [hp]
    simp only [append_assoc, cons_append]
  · rintro ⟨hfirst, hlast⟩
    rw [if_neg Bool.false_ne_true, offT_number hfirst] at hstart
    rw [if_neg Bool.false_ne_true, offT_number hlast] at hend
    rw [hstart, hend, Spec.range]
    dsimp only
    split_ifs <;> congr 1 <;> omega

theorem readRange_reads (h0 : 0 ≤ L) (hL : L < 2 ^ 63)
    (h : readRange L p = some found) : ∃ w s, Reads L p found w s := by
  obtain ⟨s₁, hs1, hp⟩ := skipSpaces_eq p
  rw [readRange] at h
  rw [hp]
  generalize skipSpaces p = q at h
  dsimp only at h
  split at h
  · -- a number comes first
    split at h
    · cases h
    rename_i _ hdigit
    obtain ⟨ds, hds, hq, hn⟩ := readDigits_number (Decidable.not_not.mp hdigit)
    obtain ⟨s₂, hs2, hq2⟩ := skipSpaces_eq (readDigits 0 q).2
    split at h
    · cases h
    rename_i hdash
    have hq3 := peek_cons (Decidable.not_not.mp hdash) (by decide)
    obtain ⟨s₃, hs3, hq4⟩ := skipSpaces_eq ((skipSpaces (readDigits 0 q).2).drop 1)
    rw [hq, hq2, hq3, hq4]
    rw [hn] at h
    split at h
    · rename_i hstop
      obtain rfl := Option.some.inj h
      refine ⟨_, _, .openEnd hs1 hds hs2 hs3, ?_, hstop, ?_⟩
      · simp only [append_assoc, cons_append]
      · intro hfits
        rw [offT_number hfits]
        rfl
    · exact reads_closed hs1 hds hs2 hs3 h
  · rename_i hdash
    rw [peek_cons (Decidable.not_not.mp hdash) (by decide)]
    exact reads_suffix h0 hL hs1 h

/-! ## §5 The loop -/

theorem collected_cons (L : Int) (s : Spec) (specs : List Spec) :
    collected L (s :: specs) = collected L [s] ++ collected L specs := by
  rw [collected, map_cons, ← singleton_append, filter_append]
  rfl

theorem total_append (rs rs' : List HttpRange) : total (rs ++ rs') = total rs + total rs' := by
  induction rs with
  | nil => simp [total]
  | cons r rs ih =>
    rw [cons_append, total, total, ih]
    omega

theorem total_nonneg (h : ∀ r ∈ rs, r.start < r.stop) : 0 ≤ total rs := by
  induction rs with
  | nil => exact Int.le_refl 0
  | cons r rs ih =>
    have hr := h r mem_cons_self
    have hrs := ih (forall_mem_cons.mp h).2
    rw [total]
    omega

theorem size_le_total (h : ∀ r ∈ rs, r.start < r.stop) : ∀ r ∈ rs, r.stop - r.start ≤ total rs := by
  induction rs with
  | nil => nofun
  | cons r rs ih =>
    have hr := h r mem_cons_self
    have hrs : ∀ r ∈ rs, r.start < r.stop := (forall_mem_cons.mp h).2
    have h0 := total_nonneg hrs
    intro r' hr'
    rw [total]
    rcases mem_cons.mp hr' with rfl | hr'
    · omega
    · have := ih hrs r' hr'
      omega

theorem collected_lt : ∀ r ∈ collected L specs, r.start < r.stop := by
  intro r hr
  exact of_decide_eq_true (mem_filter.mp hr).2

/-- `found:` collects the range if it is not empty. -/
theorem push_eq {c c' : Ctx} {s : Spec} (hc : 0 ≤ c.size) (hr : (⟨start, stop⟩ : HttpRange) = s.range L)
    (hsum : c.size + total (collected L [s]) < 2 ^ 63) (h : push c start stop = some c') :
    c'.elts = c.elts ++ collected L [s] ∧ c'.size = c.size + total (collected L [s]) := by
  have hone : collected L [s] = if start < stop then [⟨start, stop⟩] else [] := by
    rw [collected, map_singleton, ← hr, filter_singleton]
    by_cases hlt : start < stop
    · rw [if_pos hlt, cond_eq_ite, if_pos (decide_eq_true hlt)]
    · rw [if_neg hlt, cond_eq_ite, if_neg (by simpa using hlt)]
  rw [push] at h
  split_ifs at h hone with hlt
  · obtain rfl := Option.some.inj h
    have htotal : total (collected L [s]) = stop - start := by
      rw [hone]
      exact Int.add_zero _
    rw [htotal] at hsum ⊢
    refine ⟨by rw [hone], ?_⟩
    have hsize : offT (stop - start) = stop - start := offT_of_lt (by omega) (by omega)
    rw [hsize, offT_of_lt (by omega) (by omega)]
  · obtain rfl := Option.some.inj h
    rw [hone]
    exact ⟨(append_nil _).symm, (Int.add_zero _).symm⟩

/-- What the loop has read, and what it has collected. -/
structure Collects (L : Int) (c c' : Ctx) (specs : List Spec) : Prop where
  elts : c'.elts = c.elts ++ collected L specs
  size : c'.size = c.size + total (collected L specs)

theorem collects_push {c c1 c' : Ctx} {s : Spec} (hr : s.Fits → (⟨start, stop⟩ : HttpRange) = s.range L)
    (hpush : push c start stop = some c1)
    (hc : 0 ≤ c.size) (hfits : ∀ s' ∈ s :: specs, s'.Fits)
    (hsum : c.size + total (collected L (s :: specs)) < 2 ^ 63)
    (hrest : 0 ≤ c1.size → (∀ s' ∈ specs, s'.Fits) →
      c1.size + total (collected L specs) < 2 ^ 63 → Collects L c1 c' specs) :
    Collects L c c' (s :: specs) := by
  have h0 : 0 ≤ total (collected L specs) := total_nonneg collected_lt
  have h1 : 0 ≤ total (collected L [s]) := total_nonneg collected_lt
  rw [collected_cons, total_append] at hsum
  obtain ⟨helts, hsize⟩ := push_eq hc (hr (hfits s mem_cons_self)) (by omega) hpush
  have hrest := hrest (by omega) (forall_mem_cons.mp hfits).2 (by omega)
  constructor
  · rw [hrest.elts, helts, collected_cons L s specs, append_assoc]
  · rw [hrest.size, hsize, collected_cons L s specs, total_append, Int.add_assoc]

theorem finish_ok {c c' : Ctx} (h : finish L c = .ok c') : c' = c ∧ c'.elts ≠ [] ∧ c'.size ≤ L := by
  rw [finish] at h
  split_ifs at h with hne hle
  cases h
  exact ⟨rfl, hne, by omega⟩

theorem loop_ok (h0 : 0 ≤ L) (hL : L < 2 ^ 63) : ∀ {c c' : Ctx} {p : Bytes},
    loop L fuel c p = .ok c' → ∃ specs, Denotes p specs ∧ c'.size ≤ L ∧
      (0 ≤ c.size → (∀ s ∈ specs, s.Fits) → c.size + total (collected L specs) < 2 ^ 63 → Collects L c c' specs) := by
  induction fuel with
  | zero =>
    intro c c' p h
    cases h
  | succ fuel ih =>
    intro c c' p h
    rw [loop] at h
    cases hr : readRange L p with rw [hr] at h
    | none =>
      cases h
    | some found =>
      dsimp only at h
      obtain ⟨w, s, hreads⟩ := readRange_reads h0 hL hr
      cases hpush : push c found.start found.stop with rw [hpush] at h
      | none =>
        cases h
      | some c1 =>
        dsimp only at h
        rw [hreads.split]
        split at h
        · rename_i hcomma
          -- the last range of the text
          obtain ⟨rfl, -, hle⟩ := finish_ok h
          refine ⟨[s], .last hreads.text (hreads.stop.resolve_left hcomma), hle, ?_⟩
          intro hc hfits hsum
          refine collects_push hreads.range hpush hc hfits hsum fun _ _ _ => ?_
          exact ⟨(append_nil _).symm, (Int.add_zero _).symm⟩
        rename_i hcomma
        obtain ⟨specs, hspecs, hle, hcollects⟩ := ih h
        refine ⟨s :: specs, ?_, hle, ?_⟩
        · rw [peek_cons (Decidable.not_not.mp hcomma) (by decide)]
          exact .cons hreads.text hspecs
        · intro hc hfits hsum
          exact collects_push hreads.range hpush hc hfits hsum hcollects

theorem specText_ne_nil {s : Spec} (h : SpecText w s) : w ≠ [] := by
  cases h <;> simp

/-- Every turn reads at least one byte. -/
theorem loop_ends (h0 : 0 ≤ L) (hL : L < 2 ^ 63) : ∀ {c : Ctx} {p : Bytes},
    p.length < fuel → loop L fuel c p ≠ .stuck := by
  induction fuel with
  | zero =>
    intro c p h
    cases h
  | succ fuel ih =>
    intro c p hlen
    rw [loop]
    cases hr : readRange L p with
    | none => nofun
    | some found =>
      obtain ⟨w, s, hreads⟩ := readRange_reads h0 hL hr
      have hw := length_pos_iff.mpr (specText_ne_nil hreads.text)
      rw [hreads.split, length_append] at hlen
      dsimp only
      cases push c found.start found.stop with
      | none => nofun
      | some c1 =>
        dsimp only
        split_ifs
        · unfold finish
          split_ifs <;> nofun
        apply ih
        rw [length_drop]
        omega

/-! ## §6 A text denotes one list of specifications -/

/-- The specification at the beginning of a text, if there is one, and what follows. -/
def readSpec (p : Bytes) : Spec × Bytes :=
  let q := skipSpaces p
  if peek q = dash then
    (.suffix (decimal ((q.drop 1).takeWhile isDigit)), skipSpaces ((q.drop 1).dropWhile isDigit))
  else
    let first := decimal (q.takeWhile isDigit)
    let r := skipSpaces ((skipSpaces (q.dropWhile isDigit)).drop 1)
    if isDigit (peek r) then
      (.closed first (decimal (r.takeWhile isDigit)), skipSpaces (r.dropWhile isDigit))
    else (.openEnd first, r)

theorem skipSpaces_append (hs : Spaces s) (hr : peek r ≠ ' ') : skipSpaces (s ++ r) = r := by
  have hall : ∀ ch ∈ s, decide (ch = (' ' : UInt8)) = true := fun ch hch => decide_eq_true (hs ch hch)
  rw [skipSpaces, dropWhile_append_of_pos hall]
  cases r with
  | nil => rfl
  | cons ch r =>
    have hch : ¬ decide (ch = (' ' : UInt8)) = true := fun h => hr (of_decide_eq_true h)
    exact dropWhile_cons_of_neg hch

theorem takeDigits_append (hds : Number ds) (hr : ¬ isDigit (peek r)) : (ds ++ r).takeWhile isDigit = ds := by
  rw [takeWhile_append_of_pos hds.2]
  cases r with
  | nil => exact append_nil ds
  | cons ch r =>
    have hch : ¬ isDigit ch := hr
    rw [takeWhile_cons_of_neg hch]
    exact append_nil ds

theorem dropDigits_append (hds : Number ds) (hr : ¬ isDigit (peek r)) : (ds ++ r).dropWhile isDigit = r := by
  rw [dropWhile_append_of_pos hds.2]
  cases r with
  | nil => rfl
  | cons ch r => exact dropWhile_cons_of_neg hr

theorem peek_number (hds : Number ds) : isDigit (peek (ds ++ r)) := by
  cases ds with
  | nil => exact absurd rfl hds.1
  | cons ch ds => exact hds.2 ch mem_cons_self

/-- No byte of a number is one of the bytes around it. -/
theorem digit_ne : ∀ ch : UInt8, isDigit ch → ch ≠ ' ' ∧ ch ≠ dash ∧ ch ≠ comma ∧ ch ≠ NUL := by
  apply forall_byte
  decide +kernel

theorem not_digit_spaces (hs : Spaces s) (hr : ¬ isDigit (peek r)) : ¬ isDigit (peek (s ++ r)) := by
  cases s with
  | nil => exact hr
  | cons ch s =>
    rw [show peek (ch :: s ++ r) = ' ' from hs ch mem_cons_self]
    decide

theorem readSpec_suffix (hq : skipSpaces p = dash :: (ds ++ tail))
    (hds : Number ds) (htail : ¬ isDigit (peek tail)) :
    readSpec p = (.suffix (decimal ds), skipSpaces tail) := by
  have hdrop : (skipSpaces p).drop 1 = ds ++ tail := by
    rw [hq]
    rfl
  rw [readSpec]
  rw [if_pos (by rw [hq]; rfl), hdrop, takeDigits_append hds htail, dropDigits_append hds htail]

/-- A number, a dash, and then maybe another number. -/
theorem readSpec_first (hq : skipSpaces p = ds ++ (s₂ ++ dash :: (s₃ ++ tail))) (hds : Number ds) (hs2 : Spaces s₂)
    (hs3 : Spaces s₃) (htail : peek tail ≠ ' ') :
    readSpec p =
      if isDigit (peek tail) then
        (.closed (decimal ds) (decimal (tail.takeWhile isDigit)), skipSpaces (tail.dropWhile isDigit))
      else (.openEnd (decimal ds), tail) := by
  have hdash : peek (skipSpaces p) ≠ dash := by
    rw [hq]
    exact (digit_ne _ (peek_number hds)).2.1
  have hend : ¬ isDigit (peek (s₂ ++ dash :: (s₃ ++ tail))) := not_digit_spaces hs2 (by rw [peek]; decide)
  have hr : skipSpaces ((skipSpaces ((skipSpaces p).dropWhile isDigit)).drop 1) = tail := by
    rw [hq, dropDigits_append hds hend, skipSpaces_append hs2 (by rw [peek]; decide)]
    exact skipSpaces_append hs3 htail
  rw [readSpec]
  rw [if_neg hdash, hr, hq, takeDigits_append hds hend]

theorem readSpec_append {rest : Bytes} {s : Spec} (h : SpecText w s)
    (hrest : peek rest = comma ∨ peek rest = NUL) : readSpec (w ++ rest) = (s, rest) := by
  have hspace : peek rest ≠ ' ' := by
    rcases hrest with h | h <;> rw [h] <;> decide
  have hdigit : ¬ isDigit (peek rest) := by
    rcases hrest with h | h <;> rw [h] <;> decide
  cases h with
  | @closed s₁ ds s₂ s₃ es s4 hs1 hds hs2 hs3 hes hs4 =>
    have htail : isDigit (peek (es ++ (s4 ++ rest))) := peek_number hes
    have hend : ¬ isDigit (peek (s4 ++ rest)) := not_digit_spaces hs4 hdigit
    have hq : skipSpaces (s₁ ++ (ds ++ (s₂ ++ dash :: (s₃ ++ (es ++ s4)))) ++ rest) =
        ds ++ (s₂ ++ dash :: (s₃ ++ (es ++ (s4 ++ rest)))) := by
      simp only [append_assoc, cons_append]
      exact skipSpaces_append hs1 (digit_ne _ (peek_number hds)).1
    rw [readSpec_first hq hds hs2 hs3 (digit_ne _ htail).1, if_pos htail,
      takeDigits_append hes hend, dropDigits_append hes hend, skipSpaces_append hs4 hspace]
  | @openEnd s₁ ds s₂ s₃ hs1 hds hs2 hs3 =>
    have hq : skipSpaces (s₁ ++ (ds ++ (s₂ ++ dash :: s₃)) ++ rest) = ds ++ (s₂ ++ dash :: (s₃ ++ rest)) := by
      simp only [append_assoc, cons_append]
      exact skipSpaces_append hs1 (digit_ne _ (peek_number hds)).1
    rw [readSpec_first hq hds hs2 hs3 hspace, if_neg hdigit]
  | @suffix s₁ ds s₂ hs1 hds hs2 =>
    have hq : skipSpaces (s₁ ++ dash :: (ds ++ s₂) ++ rest) = dash :: (ds ++ (s₂ ++ rest)) := by
      simp only [append_assoc, cons_append]
      exact skipSpaces_append hs1 (by rw [peek]; decide)
    rw [readSpec_suffix hq hds (not_digit_spaces hs2 hdigit), skipSpaces_append hs2 hspace]

theorem denotes_unique (h : Denotes p specs) : ∀ {specs' : List Spec}, Denotes p specs' → specs' = specs := by
  have hne : comma ≠ NUL := by decide
  induction h with
  | @last w rest s hs hrest =>
    have hread := readSpec_append hs (.inr hrest)
    intro specs' h'
    generalize hp : w ++ rest = p at h' hread
    cases h' with
    | @last w' rest' s' hs' hrest' =>
      rw [readSpec_append hs' (.inr hrest')] at hread
      cases hread
      rfl
    | @cons w' p' s' specs' hs' hp' =>
      rw [readSpec_append hs' (.inl rfl)] at hread
      cases hread
      exact absurd hrest hne
  | @cons w p s specs hs hp ih =>
    have hread : readSpec (w ++ comma :: p) = (s, comma :: p) := readSpec_append hs (.inl rfl)
    intro specs' h'
    generalize hq : w ++ comma :: p = q at h' hread
    cases h' with
    | @last w' rest' s' hs' hrest' =>
      rw [readSpec_append hs' (.inr hrest')] at hread
      cases hread
      exact absurd hrest' hne
    | @cons w' p' s' specs' hs' hp' =>
      rw [readSpec_append hs' (.inl rfl)] at hread
      cases hread
      rw [ih hp']

end Range

open Range

theorem rangeParse_ends (p : Bytes) (L : Nat) (hL : L < 2 ^ 63) (ranges : Nat) : rangeParse p L ranges ≠ .stuck :=
  loop_ends (by omega) (by omega) (Nat.lt_succ_self _)

theorem rangeParse_ends_comma : rangeParse (text "0-,".toList) (10 : Nat) 1 ≠ .stuck := rangeParse_ends _ 10 (by decide) 1

def twoRanges : Bytes := text ['0', '-', '1', ',', '-', '2']

theorem denotes_twoRanges : Denotes twoRanges [.closed 0 1, .suffix 2] := by
  have hspaces : Spaces [] := nofun
  have hnumber : ∀ ch : UInt8, isDigit ch → Number [ch] := by
    intro ch hch
    exact ⟨cons_ne_nil _ _, fun a ha => mem_singleton.mp ha ▸ hch⟩
  have h1 : SpecText (text ['0', '-', '1']) (.closed 0 1) :=
    @SpecText.closed [] (text ['0']) [] [] (text ['1']) [] hspaces (hnumber '0' rfl) hspaces hspaces
      (hnumber '1' rfl) hspaces
  have h2 : SpecText (text ['-', '2']) (.suffix 2) := @SpecText.suffix [] (text ['2']) [] hspaces (hnumber '2' rfl) hspaces
  exact .cons h1 (@Denotes.last _ [] _ h2 rfl)

end GokuStudio.Nginx

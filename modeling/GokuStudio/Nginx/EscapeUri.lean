import GokuStudio.Nginx.Http.UnsafeUri

/-!
# nginx: escaping URIs (`ngx_escape_uri`)

The table of `refresh` does not mark the `%`, though the comment on it lists it: such a `%` is
written as it is, and `ngx_unescape_uri` takes it for the start of an escape.
-/

namespace GokuStudio.Nginx.EscapeUri

open Lib List UnsafeUri

inductive Escape where
  | uri | args | uriComponent | html | refresh | memcached | mailAuth

/-- The first word is the same in all tables, and the last four are the same in each. -/
def table (punctuation upper lower high : UInt32) : List UInt32 :=
  [0xffffffff, punctuation, upper, lower, high, high, high, high]

/-- `map[type]` -/
def Escape.map : Escape → List UInt32
  | uri => table 0x80000029 0 0x80000000 0xffffffff
  | args => table 0x88000869 0 0x80000000 0xffffffff
  | uriComponent => table 0xfc009fff 0x78000001 0xb8000001 0xffffffff
  | html => table 0x000000ad 0 0x80000000 0xffffffff
  | refresh => table 0x00000085 0 0x80000000 0xffffffff
  | memcached | mailAuth => table 0x00000021 0 0 0

/-- `escape[*src >> 5] & (1 << (*src & 0x1f))` -/
def Escape.marks (type : Escape) (src : UInt8) : Bool :=
  type.map.getD (src >>> 5).toNat 0 &&& (1 <<< (src &&& 0x1f).toUInt32) ≠ 0

abbrev percent : UInt8 := '%'
def hex (n : UInt8) : UInt8 := (text "0123456789abcdef".toList).getD n.toNat 0

variable (type : Escape) {s : Bytes} {c : UInt8}

/-- What is returned if `dst` is `NULL`. -/
def escapeCount (s : Bytes) : Nat := s.countP type.marks

def escapeUri : Bytes → Bytes
  | [] => []
  | src :: s =>
    if type.marks src then percent :: hex (src >>> 4) :: hex (src &&& 0xf) :: escapeUri s else src :: escapeUri s

theorem escape_length (s : Bytes) : (escapeUri type s).length = s.length + 2 * escapeCount type s := by
  induction s with
  | nil => rfl
  | cons c s ih =>
    rw [escapeUri, escapeCount, countP_cons]
    split_ifs <;> grind [escapeCount]

theorem hexValue_hex : ∀ c : UInt8, hexValue (hex (c >>> 4)) = some (c >>> 4) ∧
    hexValue (hex (c &&& 0xf)) = some (c &&& 0xf) ∧ ((c >>> 4) <<< 4) + (c &&& 0xf) = c := by
  apply forall_byte
  decide +kernel

theorem digit_plain : ∀ d : UInt8, (hexValue d).isSome → ¬ type.marks d ∧ d ≠ percent := by
  apply forall_byte
  cases type <;> decide +kernel

theorem introduces {v : Bytes} (h : c :: v <:+ escapeUri type s) (hc : type.marks c) :
    c = percent ∧ ∃ b, type.marks b ∧ [hex (b >>> 4), hex (b &&& 0xf)] <+: v := by
  induction s with
  | nil => cases suffix_nil.mp h
  | cons b s ih =>
    obtain ⟨hhigh, hlow, -⟩ := hexValue_hex b
    rw [escapeUri] at h
    split_ifs at h with hb <;> simp only [suffix_cons_iff, cons.injEq] at h
    · obtain ⟨rfl, rfl⟩ | ⟨rfl, -⟩ | ⟨rfl, -⟩ | h := h
      · exact ⟨rfl, b, hb, _, rfl⟩
      · exact absurd hc (digit_plain type _ (hhigh ▸ rfl)).1
      · exact absurd hc (digit_plain type _ (hlow ▸ rfl)).1
      · exact ih h
    · obtain ⟨rfl, -⟩ | h := h
      · exact absurd hc hb
      · exact ih h

/-! ## The way back -/

theorem unescape_quoted (ch : UInt8) (s : Bytes) : unescapeUri .quoted (ch :: s) =
    (hexValue ch).elim (ch :: unescapeUri .usual s) fun x => unescapeUri (.quotedSecond x) s := by
  rw [unescapeUri, hexValue_eq]
  split_ifs <;> rfl

theorem unescape_second (x ch : UInt8) (s : Bytes) : unescapeUri (.quotedSecond x) (ch :: s) =
    (hexValue ch).elim (unescapeUri .usual s) fun y => ((x <<< 4) + y) :: unescapeUri .usual s := by
  rw [unescapeUri, hexValue_eq]
  simp only [UInt8.sub_eq_add_neg, UInt8.add_assoc]
  split_ifs <;> rfl

theorem unescape_cons (h : c = percent → type.marks c) :
    unescapeUri .usual (escapeUri type (c :: s)) = c :: unescapeUri .usual (escapeUri type s) := by
  rw [escapeUri]
  split_ifs with hc
  · obtain ⟨hhigh, hlow, hbyte⟩ := hexValue_hex c
    change unescapeUri .quoted _ = _
    rw [unescape_quoted, hhigh, Option.elim_some, unescape_second, hlow, Option.elim_some, hbyte]
  · exact if_neg fun heq => hc (h heq)

theorem unescape_escape (h : percent ∈ s → type.marks percent) : unescapeUri .usual (escapeUri type s) = s := by
  induction s with
  | nil => rfl
  | cons c s ih =>
    rw [unescape_cons type fun heq => heq ▸ h (heq ▸ mem_cons_self), ih fun hmem => h (mem_cons_of_mem c hmem)]

/-! ## A `%` that is not marked

Each byte gets a weight, such that a `%` in the text weighs more than what it brings. -/

def weight (c : UInt8) : Nat := if Escape.refresh.marks c ∨ c = percent then 3 else 1
def size (s : Bytes) : Nat := (s.map weight).sum

def debt : Quote → Nat
  | .usual => 0
  | .quoted => 2
  | .quotedSecond _ => 3

theorem size_cons (c : UInt8) (s : Bytes) : size (c :: s) = weight c + size s := sum_cons

theorem weight_bounds (c : UInt8) : 1 ≤ weight c ∧ weight c ≤ 3 := by
  unfold weight
  split_ifs <;> decide

theorem size_digit {x : UInt8} (h : hexValue c = some x) (s : Bytes) :
    size (unescapeUri .usual (c :: s)) = 1 + size (unescapeUri .usual s) := by
  obtain ⟨hmarks, hne⟩ := digit_plain .refresh c (h ▸ rfl)
  rw [unescapeUri, if_neg hne, size_cons, weight, if_neg (not_or_intro hmarks hne)]

theorem size_unescape (s : Bytes) (q : Quote) : size (unescapeUri q (escapeUri .refresh s)) ≤ size s + debt q := by
  induction s generalizing q with
  | nil => cases q <;> exact Nat.zero_le _
  | cons c s ih =>
    have husual := ih .usual
    have hweight := weight_bounds c
    obtain ⟨hhigh, hlow, -⟩ := hexValue_hex c
    have hnone : hexValue percent = none := rfl
    rw [size_cons]
    cases q with
    | usual =>
      by_cases hp : c = percent
      · rw [hp, Nat.add_comm (weight _)]
        exact Nat.le_succ_of_le (ih .quoted)
      rw [unescape_cons _ fun heq => absurd heq hp, size_cons]
      exact Nat.add_le_add_left husual _
    | quoted =>
      rw [escapeUri]
      split_ifs with hc
      · -- the `%` of the escape is taken for itself, and its digits too
        rw [unescape_quoted, hnone, Option.elim_none, size_cons, size_digit hhigh, size_digit hlow]
        grind [weight, debt]
      rw [unescape_quoted]
      cases hexValue c <;> grind [size_cons, debt]
    | quotedSecond x =>
      rw [escapeUri]
      split_ifs with hc
      · rw [unescape_second, hnone, Option.elim_none, size_digit hhigh, size_digit hlow]
        grind [debt]
      rw [unescape_second]
      cases hexValue c <;> grind [size_cons, weight_bounds, debt]

/-- The length, the marked bytes of what is written, and the way back. -/
def Escapes (s : Bytes) : Prop :=
  (escapeUri type s).length = s.length + 2 * escapeCount type s ∧
  (∀ c v, c :: v <:+ escapeUri type s → type.marks c →
    c = percent ∧ ∃ b, type.marks b ∧ [hex (b >>> 4), hex (b &&& 0xf)] <+: v) ∧
  unescapeUri .usual (escapeUri type s) = s

theorem escapes_iff (s : Bytes) : Escapes type s ↔ (type = .refresh → percent ∉ s) := by
  constructor
  · rintro ⟨-, -, hback⟩ rfl hmem
    induction s with
    | nil => cases hmem
    | cons c s ih =>
      by_cases hp : c = percent
      · have hsize := size_unescape s .quoted
        subst hp
        change unescapeUri .quoted _ = _ at hback
        rw [hback, size_cons, Nat.add_comm] at hsize
        exact absurd hsize (Nat.not_succ_le_self _)
      · rw [unescape_cons _ fun heq => absurd heq hp] at hback
        exact ih (cons.inj hback).2 (mem_of_ne_of_mem (Ne.symm hp) hmem)
  · refine fun h => ⟨escape_length type s, fun c v => introduces type, unescape_escape type fun hmem => ?_⟩
    cases type with
    | refresh => exact absurd hmem (h rfl)
    | _ => rfl

theorem refresh_reads_percent : ¬ Escapes .refresh (text "%41".toList) := fun h => absurd h.2.2 (by decide)

end GokuStudio.Nginx.EscapeUri

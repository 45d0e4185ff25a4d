import GokuStudio.Nginx.Core
import Mathlib.Tactic.IntervalCases

/-!
# nginx: base64

The encoder and the decoder take their alphabet as a table. What is encoded is decoded to itself
(`decode_encode`). The decoder reads up to the first `=`, and never looks at what stands
behind it.
-/

namespace GokuStudio.Nginx.Base64

open Lib List

/-- `ngx_encode_base64` and `ngx_decode_base64`, and the same with `url`. -/
inductive Variant where
  | plain
  | url
deriving DecidableEq

namespace Variant

/-- The last two characters of the alphabet. -/
def last : Variant → Char × Char
  | plain => ('+', '/')
  | url => ('-', '_')

def padding (v : Variant) : Bool := v = plain

def alphabet (v : Variant) : Bytes :=
  text ("ABCDEFGHIJKLMNOPQRSTUVWXYZabcdefghijklmnopqrstuvwxyz0123456789".toList ++ [v.last.1, v.last.2])

/-- The table of the encoder. -/
def basis (v : Variant) (i : UInt8) : UInt8 := v.alphabet.getD i.toNat 0

/-- The table of the decoder, by the ranges in it. -/
def value (v : Variant) (ch : UInt8) : UInt8 :=
  if isUpper ch then ch - 'A'
  else if isLower ch then ch - 'a' + 26
  else if isDigit ch then ch - '0' + 52
  else if ch = v.last.1 then 62
  else if ch = v.last.2 then 63
  else 77

end Variant

def equals : UInt8 := '='

variable (v : Variant)

def pad (n : Nat) : Bytes := if v.padding then replicate n equals else []

/-- `ngx_encode_base64_internal` -/
def encode : Bytes → Bytes
  | s0 :: s1 :: s2 :: s =>
    v.basis ((s0 >>> 2) &&& 0x3f) :: v.basis (((s0 &&& 3) <<< 4) ||| (s1 >>> 4)) ::
      v.basis (((s1 &&& 0x0f) <<< 2) ||| (s2 >>> 6)) :: v.basis (s2 &&& 0x3f) :: encode s
  | [s0, s1] => v.basis ((s0 >>> 2) &&& 0x3f) :: v.basis (((s0 &&& 3) <<< 4) ||| (s1 >>> 4)) ::
      v.basis ((s1 &&& 0x0f) <<< 2) :: pad v 1
  | [s0] => v.basis ((s0 >>> 2) &&& 0x3f) :: v.basis ((s0 &&& 3) <<< 4) :: pad v 2
  | [] => []

/-- The loop of `ngx_decode_base64_internal` that finds `len`; `none` is `NGX_ERROR`. -/
def scan : Bytes → Option Nat
  | [] => some 0
  | ch :: src => if ch = equals then some 0 else if v.value ch = 77 then none else (scan src).map (· + 1)

/-- What it writes for so many bytes. -/
def groups : Bytes → Bytes
  | s0 :: s1 :: s2 :: s3 :: s =>
    (v.value s0 <<< 2 ||| v.value s1 >>> 4) :: (v.value s1 <<< 4 ||| v.value s2 >>> 2) ::
      (v.value s2 <<< 6 ||| v.value s3) :: groups s
  | [s0, s1, s2] => [v.value s0 <<< 2 ||| v.value s1 >>> 4, v.value s1 <<< 4 ||| v.value s2 >>> 2]
  | [s0, s1] => [v.value s0 <<< 2 ||| v.value s1 >>> 4]
  | _ => []

/-- `ngx_decode_base64_internal` -/
def decode (src : Bytes) : Option Bytes := do
  let len ← scan v src
  if len % 4 = 1 then none else some (groups v (src.take len))

/-- Characters of the alphabet, and a rest. -/
def Formed (rest : Bytes → Prop) (src : Bytes) : Prop :=
  ∃ s t, src = s ++ t ∧ (∀ ch ∈ s, ch ∈ v.alphabet) ∧ s.length % 4 ≠ 1 ∧ rest t

/-! ## The round trip -/

variable {v : Variant} {src : Bytes}

theorem value_basis : ∀ i : UInt8, i < 64 → v.value (v.basis i) = i ∧ v.basis i ≠ equals := by
  apply forall_byte
  cases v <;> decide +kernel

theorem mem_alphabet : ∀ ch : UInt8, v.value ch ≠ 77 → ch ∈ v.alphabet := by
  apply forall_byte
  cases v <;> decide +kernel

/-- The indices of a group are in the table. -/
theorem index_lt (a b c : UInt8) : a >>> 2 &&& 0x3f < 64 ∧ (a &&& 3) <<< 4 ||| b >>> 4 < 64 ∧
    (b &&& 0x0f) <<< 2 ||| c >>> 6 < 64 ∧ c &&& 0x3f < 64 := by
  have hbyte : ∀ a : UInt8, a >>> 2 &&& 0x3f < 64 ∧ (a &&& 3) <<< 4 < 64 ∧ a >>> 4 < 64 ∧
      (a &&& 0x0f) <<< 2 < 64 ∧ a >>> 6 < 64 ∧ a &&& 0x3f < 64 := by
    apply forall_byte
    decide +kernel
  have hor : ∀ {a b : UInt8}, a < 64 → b < 64 → a ||| b < 64 := fun {a b} ha hb => by
    rw [UInt8.lt_iff_toNat_lt] at *
    rw [UInt8.toNat_or]
    exact Nat.or_lt_two_pow (n := 6) ha hb
  obtain ⟨h0, h1, -⟩ := hbyte a
  obtain ⟨-, -, h1', h2, -⟩ := hbyte b
  obtain ⟨-, -, -, -, h2', h3⟩ := hbyte c
  exact ⟨h0, hor h1 h1', hor h2 h2', h3⟩

/-- Its bytes come back from them. -/
theorem group_back (a b c : UInt8) : (a >>> 2 &&& 0x3f) <<< 2 ||| ((a &&& 3) <<< 4 ||| b >>> 4) >>> 4 = a ∧
    ((a &&& 3) <<< 4 ||| b >>> 4) <<< 4 ||| ((b &&& 0x0f) <<< 2 ||| c >>> 6) >>> 2 = b ∧
    ((b &&& 0x0f) <<< 2 ||| c >>> 6) <<< 6 ||| (c &&& 0x3f) = c := by
  refine ⟨?_, ?_, ?_⟩
  all_goals
    apply UInt8.toBitVec_inj.mp
    ext i hi
    interval_cases i <;> simp

theorem scan_basis {i : UInt8} (hi : i < 64) : scan v (v.basis i :: src) = (scan v src).map (· + 1) := by
  obtain ⟨hvalue, hne⟩ := value_basis (v := v) i hi
  have h77 : i ≠ 77 := fun h => absurd (h ▸ hi) (by decide)
  rw [scan, if_neg hne, if_neg (hvalue.symm ▸ h77)]

theorem decode_encode (x : Bytes) : decode v (encode v x) = some x := by
  suffices h : ∃ n, scan v (encode v x) = some n ∧ n % 4 ≠ 1 ∧ groups v ((encode v x).take n) = x by
    obtain ⟨n, hscan, hn, hgroups⟩ := h
    rw [decode, hscan, Option.bind_eq_bind, Option.bind_some, if_neg hn, hgroups]
  have hpad : ∀ n, scan v (pad v n) = some 0 := by
    intro n
    cases v <;> cases n <;> rfl
  have hvalue := fun i hi => (value_basis (v := v) i hi).1
  induction x using encode.induct with
  | case1 s0 s1 s2 s ih =>
    obtain ⟨n, hscan, hn, hgroups⟩ := ih
    obtain ⟨h0, h1, h2, h3⟩ := index_lt s0 s1 s2
    obtain ⟨b0, b1, b2⟩ := group_back s0 s1 s2
    refine ⟨n + 4, ?_, by omega, ?_⟩
    · rw [encode, scan_basis h0, scan_basis h1, scan_basis h2, scan_basis h3, hscan]
      rfl
    · simp only [encode, take_succ_cons, groups, hvalue, h0, h1, h2, h3, b0, b1, b2, hgroups]
  | case2 s0 s1 =>
    obtain ⟨h0, h1, h2, -⟩ := index_lt s0 s1 0
    obtain ⟨b0, b1, -⟩ := group_back s0 s1 0
    rw [UInt8.zero_shiftRight, UInt8.or_zero] at h2 b1
    refine ⟨3, ?_, by decide, ?_⟩
    · rw [encode, scan_basis h0, scan_basis h1, scan_basis h2, hpad]
      rfl
    · simp only [encode, take_succ_cons, take_zero, groups, hvalue, h0, h1, h2, b0, b1]
  | case3 s0 =>
    obtain ⟨h0, h1, -⟩ := index_lt s0 0 0
    obtain ⟨b0, -⟩ := group_back s0 0 0
    rw [UInt8.zero_shiftRight, UInt8.or_zero] at h1 b0
    refine ⟨2, ?_, by decide, ?_⟩
    · rw [encode, scan_basis h0, scan_basis h1, hpad]
      rfl
    · simp only [encode, take_succ_cons, take_zero, groups, hvalue, h0, h1, b0]
  | case4 => exact ⟨0, rfl, by decide, rfl⟩

/-! ## What is accepted -/

theorem scan_some {n : Nat} (h : scan v src = some n) :
    (∀ ch ∈ src.takeWhile (· ≠ equals), ch ∈ v.alphabet) ∧ (src.takeWhile (· ≠ equals)).length = n := by
  induction src generalizing n with
  | nil =>
    cases h
    simp
  | cons ch src ih =>
    rw [scan] at h
    split_ifs at h with hch hvalue
    · cases h
      simp [hch]
    obtain ⟨m, hm, rfl⟩ := Option.map_eq_some_iff.mp h
    obtain ⟨hall, hlen⟩ := ih hm
    rw [takeWhile_cons_of_pos (by simpa using hch)]
    exact ⟨forall_mem_cons.mpr ⟨mem_alphabet ch hvalue, hall⟩, congrArg (· + 1) hlen⟩

theorem formed_of_decode (h : (decode v src).isSome) : Formed v (fun t => ∀ ch ∈ t.head?, ch = equals) src := by
  cases hscan : scan v src with rw [decode, hscan] at h
  | none => cases h
  | some n =>
    obtain ⟨hall, rfl⟩ := scan_some hscan
    refine ⟨_, _, takeWhile_append_dropWhile.symm, hall, by simpa using h, ?_⟩
    intro ch hch
    have hstop := head?_dropWhile_not (· ≠ equals) src
    rw [Option.mem_def.mp hch] at hstop
    simpa using hstop

/-- What is encoded is decoded to itself. What is accepted is of the alphabet up to its end or the first `=`. -/
theorem base64_accepts (v : Variant) : (∀ x, decode v (encode v x) = some x) ∧
    ∀ src, (decode v src).isSome → Formed v (fun t => ∀ ch ∈ t.head?, ch = equals) src :=
  ⟨decode_encode, fun _ => formed_of_decode⟩

/-- `QQ=x` is decoded to `A`. -/
theorem base64_trailing : decode .plain [81, 81, 61, 120] = some [65] ∧
    ¬Formed .plain (fun t => ∀ ch ∈ t, ch = equals) [81, 81, 61, 120] := by
  refine ⟨by decide, ?_⟩
  rintro ⟨s, t, hst, hs, -, ht⟩
  rcases eq_nil_or_concat t with rfl | ⟨t, x, rfl⟩
  · rw [append_nil] at hst
    exact absurd (hs equals (hst ▸ by decide)) (by decide +kernel)
  · have hlast : 120 = x := by simpa using congrArg getLast? hst
    exact absurd (ht x (by simp)) (hlast ▸ by decide)

/-- What `ngx_base64_encoded_length` and `ngx_base64_decoded_length` give is enough. -/
theorem base64_fits (x : Bytes) : (encode v x).length ≤ (x.length + 2) / 3 * 4 ∧
    ∀ y ∈ decode v src, y.length ≤ (src.length + 3) / 4 * 3 := by
  have hgroups : ∀ s, (groups v s).length ≤ (s.length + 3) / 4 * 3 := by
    intro s
    fun_induction groups v s <;> simp
    omega
  refine ⟨?_, fun y hy => ?_⟩
  · fun_induction encode v x with
    | case1 => simp; omega
    | _ => cases v <;> simp [pad, Variant.padding]
  · obtain ⟨len, -, hlen⟩ := Option.bind_eq_some_iff.mp hy
    split_ifs at hlen
    cases hlen
    have := hgroups (src.take len)
    grind

end GokuStudio.Nginx.Base64

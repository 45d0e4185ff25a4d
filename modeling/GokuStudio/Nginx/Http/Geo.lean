import GokuStudio.Lib.Walk
import Mathlib.Data.BitVec

/-!
# The blocks of an address range (`ngx_http_geo_module.c`)

`ngx_http_geo_add_range` and `ngx_http_geo_delete_range` cut a range of addresses into blocks of
65536, each with a loop of its own. An address has 32 bits: behind the last block comes address 0,
and a loop that gets there does not end. The second loop does not go on at the beginning of a
block, and may leave out the last one.
-/

namespace GokuStudio.Nginx.Geo

open Lib List

/-- The part of a range in one block. -/
structure Block where
  h : Nat
  s : Nat
  e : Nat

def block (start last n : BitVec 32) : Block where
  h := (n >>> 16).toNat
  s := if n = start then (n &&& 0xffff#32).toNat else 0
  e := if n ||| 0xffff#32 > last then (last &&& 0xffff#32).toNat else 0xffff

section
variable {σ ε : Type} (body : σ → Block → Except ε σ) (start last : BitVec 32) (s : σ)

/-- A turn of `for (n = start; n <= end; n = next)`. What is done with a block may be an error. -/
def turn (next : BitVec 32 → BitVec 32) (body : σ → Block → Except ε σ) (start last : BitVec 32)
    (c : BitVec 32 × σ) : Option (BitVec 32 × σ ⊕ Except ε σ) :=
  if c.1 ≤ last then
    match body c.2 (block start last c.1) with
    | .ok s => some (.inl (next c.1, s))
    | .error e => some (.inr (.error e))
  else some (.inr (.ok c.2))

/-- The loop of `ngx_http_geo_add_range` -/
def addRange : Option (Except ε σ) :=
  loop (turn (fun n => (n + 0x10000#32) &&& 0xffff0000#32) body start last) (start, s)

/-- The loop of `ngx_http_geo_delete_range` -/
def deleteRange : Option (Except ε σ) := loop (turn (fun n => n + 0x10000#32) body start last) (start, s)

end

/-- The blocks are noted down. -/
def log (hs : List Nat) (b : Block) : Except Empty (List Nat) := .ok (hs ++ [b.h])

section
variable {next : BitVec 32 → BitVec 32} {start last : BitVec 32}

theorem turn_log {n : BitVec 32} (hn : n ≤ last) (hs : List Nat) :
    turn next log start last (n, hs) = some (.inl (next n, hs ++ [n.toNat / 65536])) := by
  rw [turn, if_pos hn, log, block, BitVec.toNat_ushiftRight, Nat.shiftRight_eq_div_pow]

/-- From a block on, when the loop is at the place `r` of each block: it ends at the last block in
which that place is in the range. -/
theorem loop_log {r : Nat} (hr : r < 65536) (hend : (last.toNat + 65536 - r) / 65536 < 65536)
    (hnext : ∀ n, n.toNat % 65536 = r → n.toNat / 65536 < 65535 → (next n).toNat = (n.toNat / 65536 + 1) * 65536 + r)
    {m : Nat} {n : BitVec 32} (hn : n.toNat % 65536 = r)
    (hm : m = (last.toNat + 65536 - r) / 65536 - n.toNat / 65536) (hs : List Nat) :
    loop (turn next log start last) (n, hs) = some (.ok (hs ++ range' (n.toNat / 65536) m)) := by
  induction m generalizing n hs with
  | zero =>
    have hturn : turn next log start last (n, hs) = some (.inr (.ok hs)) :=
      if_neg (BitVec.le_def.not.mpr (by dsimp only; omega))
    rw [loop_done hturn, range'_zero, append_nil]
  | succ m ih =>
    have hto := hnext n hn (by omega)
    rw [loop_next (turn_log (by rw [BitVec.le_def]; omega) hs), ih (by omega) (by omega), range'_succ, append_assoc,
      show (next n).toNat / 65536 = n.toNat / 65536 + 1 by omega]
    rfl

theorem loop_never {I : BitVec 32 → Prop} (hle : ∀ n, I n → n ≤ last) (hI : ∀ n, I n → I (next n)) (h : I start) :
    loop (turn next log start last) (start, []) ≠ some r := by
  rw [loop_endless (I := fun c => I c.1) (fun c hc => ⟨_, turn_log (hle c.1 hc) c.2, hI c.1 hc⟩) h]
  nofun

theorem toNat_step (n : BitVec 32) : (n + 0x10000#32).toNat = (n.toNat + 65536) % 4294967296 := rfl

theorem toNat_align (n : BitVec 32) : (n &&& 0xffff0000#32).toNat = n.toNat / 65536 * 65536 := by
  have hmask : ∀ i < 32, (0xffff0000#32).getLsbD i = decide (16 ≤ i) := by decide
  have heq : n &&& 0xffff0000#32 = n >>> 16 <<< 16 := by
    refine BitVec.eq_of_getLsbD_eq fun i hi => ?_
    rw [BitVec.getLsbD_and, hmask i hi, BitVec.getLsbD_shiftLeft, BitVec.getLsbD_ushiftRight]
    by_cases h16 : 16 ≤ i
    · simp [hi, h16, Nat.not_lt.mpr h16]
    · simp [h16]
  rw [heq, BitVec.toNat_shiftLeft, BitVec.toNat_ushiftRight, Nat.shiftRight_eq_div_pow, Nat.shiftLeft_eq]
  omega

/-- The first loop is right just if the range does not reach the last block, and the second one
just if, moreover, the range ends at a place in its block that is not before the one it begins at. -/
theorem geo_ranges_iff (h : start ≤ last) :
    let blocks := range' (start.toNat / 65536) (last.toNat / 65536 + 1 - start.toNat / 65536)
    (addRange log start last [] = some (.ok blocks) ↔ last.toNat / 65536 ≠ 65535) ∧
      (deleteRange log start last [] = some (.ok blocks) ↔
        last.toNat / 65536 ≠ 65535 ∧ start.toNat % 65536 ≤ last.toNat % 65536) := by
  have hle := BitVec.le_def.mp h
  have hlast := last.isLt
  have hto : ∀ n : BitVec 32, n.toNat % 65536 = start.toNat % 65536 → n.toNat / 65536 < 65535 →
      (n + 0x10000#32).toNat = (n.toNat / 65536 + 1) * 65536 + start.toNat % 65536 := by
    intro n _ _
    rw [toNat_step]
    omega
  refine ⟨⟨fun hadd hend => ?_, fun hend => ?_⟩, ⟨fun hdel => ?_, fun ⟨hend, hplace⟩ => ?_⟩⟩
  · refine loop_never (I := (· ≤ last)) (fun _ hn => hn) (fun n _ => ?_) h hadd
    rw [BitVec.le_def, toNat_align, toNat_step]
    omega
  · have hto : ∀ n : BitVec 32, n.toNat / 65536 < 65535 →
        ((n + 0x10000#32) &&& 0xffff0000#32).toNat = (n.toNat / 65536 + 1) * 65536 + 0 := by
      intro n hn
      rw [toNat_align, toNat_step]
      omega
    have hfirst := hto start (by omega)
    rw [addRange, loop_next (turn_log h []), loop_log (by decide) (by omega) (fun n _ => hto n) (by omega) rfl,
      show ((start + 0x10000#32) &&& 0xffff0000#32).toNat / 65536 = start.toNat / 65536 + 1 by omega,
      show last.toNat / 65536 + 1 - start.toNat / 65536 = last.toNat / 65536 - start.toNat / 65536 + 1 by omega,
      range'_succ, show (last.toNat + 65536 - 0) / 65536 = last.toNat / 65536 + 1 by omega, Nat.add_sub_add_right]
    rfl
  · by_contra hno
    by_cases hplace : start.toNat % 65536 ≤ last.toNat % 65536
    · refine loop_never (I := fun n => n.toNat % 65536 ≤ last.toNat % 65536) (fun n hn => ?_) (fun n hn => ?_) hplace hdel
      · rw [BitVec.le_def]
        omega
      · rw [toNat_step]
        omega
    · rw [deleteRange, loop_log (by omega) (by omega) hto rfl rfl] at hdel
      have hlen := congrArg length (Except.ok.inj (Option.some.inj hdel))
      simp only [nil_append, length_range'] at hlen
      omega
  · rw [deleteRange, loop_log (by omega) (by omega) hto rfl rfl, nil_append,
      show (last.toNat + 65536 - start.toNat % 65536) / 65536 = last.toNat / 65536 + 1 by omega]

theorem geo_ranges_ten : addRange log 0x0a000000#32 0x0a01ffff#32 [] = some (.ok [2560, 2561]) :=
  (geo_ranges_iff (by decide)).1.mpr (by decide)

/-- The range of the last block is not left, and one over two blocks is left after the first. -/
theorem geo_ranges_last : (∀ r, addRange log 0xffff0000#32 0xffffffff#32 [] ≠ some r) ∧
    deleteRange log 0x8000#32 0x10000#32 [] = some (.ok [0]) :=
  ⟨fun _ => loop_never (I := fun _ => True) (fun n _ => BitVec.le_def.mpr (Nat.le_of_lt_succ n.isLt))
      (fun _ _ => trivial) trivial,
    loop_log (r := 0x8000) (by decide) (by decide) (fun n _ _ => by rw [toNat_step]; omega) rfl rfl []⟩

end
end GokuStudio.Nginx.Geo

import GokuStudio.Nginx.Hash.Table

/-!
# The sizes of the buckets

What the names of a bucket need is a sum of sizes. The code forms it in a `u_short`, so it is
right as long as the sum fits into one.
-/

namespace GokuStudio.Nginx.Hash

open Lib Function List
variable {P : Platform} {names : List Name}

/-! ## §1 Alignment -/

theorem dvd_align (d a : Nat) : a ∣ align d a := Nat.dvd_mul_left _ _

theorem le_align (d : Nat) {a : Nat} (ha : 0 < a) : d ≤ align d a := by
  have hmod := Nat.mod_lt (d + (a - 1)) ha
  have hdiv := Nat.div_add_mod' (d + (a - 1)) a
  rw [align]
  omega

theorem align_add {a b d : Nat} (ha : 0 < a) (hb : a ∣ b) : align (b + d) a = b + align d a := by
  obtain ⟨k, rfl⟩ := hb
  rw [align, align, Nat.add_assoc, Nat.mul_add_div ha, Nat.add_mul, Nat.mul_comm k a]

/-- Where the next element begins. -/
theorem align_next {elt : Nat} (helt : P.ptr ∣ elt) (name : Name) :
    align (elt + P.ptr + 2 + name.len) P.ptr = elt + eltSize P name := by
  rw [show elt + P.ptr + 2 + name.len = elt + P.ptr + (name.len + 2) by omega,
    align_add P.ptr_pos (Nat.dvd_add helt (Nat.dvd_refl _)), eltSize, Nat.add_assoc]

theorem dvd_eltSize (name : Name) : P.ptr ∣ eltSize P name := Nat.dvd_add (Nat.dvd_refl _) (dvd_align _ _)

theorem le_eltSize (name : Name) : P.ptr + 2 + name.len ≤ eltSize P name := by
  have hle := le_align (name.len + 2) P.ptr_pos
  rw [eltSize]
  omega

/-! ## §2 Sums -/

/-- What the names of a bucket need. -/
def weight (P : Platform) (size i : Nat) : List Name → Nat
  | [] => 0
  | name :: names => (if name.used ∧ name.keyHash % size = i then eltSize P name else 0) + weight P size i names

theorem weight_append (size i : Nat) (xs ys : List Name) :
    weight P size i (xs ++ ys) = weight P size i xs + weight P size i ys := by
  induction xs with
  | nil => exact (Nat.zero_add _).symm
  | cons name xs ih => rw [cons_append, weight, weight, ih, Nat.add_assoc]

theorem weight_snoc (size i : Nat) (xs : List Name) (name : Name) : weight P size i (xs ++ [name]) =
    weight P size i xs + if name.used ∧ name.keyHash % size = i then eltSize P name else 0 := by
  rw [weight_append, weight, weight, Nat.add_zero]

/-- The names fit buckets of a size. -/
def Fits (P : Platform) (room size : Nat) (names : List Name) : Prop := ∀ i, weight P size i names ≤ room

/-- As long as the names fit, the next sum fits into a `u_short`. -/
def NoWrapAt (P : Platform) (room size : Nat) (names : List Name) : Prop :=
  ∀ xs name ys, names = xs ++ name :: ys → name.used = true → Fits P room size xs →
    room ≤ 65535 ∧ weight P size (name.keyHash % size) (xs ++ [name]) ≤ 65535

section Arrays
variable {size : Nat} {test : Test} {name : Name} {xs : List Name} {c : Nat}

theorem bump_eq (hused : name.used = true) (htest : ∀ i, (test i).toNat = c + weight P size i xs)
    (hle : c + weight P size (name.keyHash % size) (xs ++ [name]) ≤ 65535) (i : Nat) :
    (bump P size test name i).toNat = c + weight P size i (xs ++ [name]) := by
  rw [bump]
  by_cases hi : i = name.keyHash % size
  · rw [hi, update_self, BitVec.toNat_ofNat, htest]
    rw [weight_snoc, if_pos ⟨hused, rfl⟩] at hle ⊢
    rw [Nat.mod_eq_of_lt (by omega)]
    omega
  · rw [update_of_ne hi, htest, weight_snoc, if_neg fun h => hi h.2.symm, Nat.add_zero]

theorem tryNames_lt (hsize : 0 < size) (room : Nat) (names : List Name) (test : Test) :
    ∀ i ∈ (tryNames P room size names test).2, i < size := by
  induction names generalizing test with
  | nil => exact nofun
  | cons name names ih =>
    rw [tryNames]
    split
    · exact ih test
    have hkey : name.keyHash % size < size := Nat.mod_lt _ hsize
    simp only
    split
    · intro i hi
      exact mem_singleton.mp hi ▸ hkey
    · exact forall_mem_cons.mpr ⟨hkey, ih _⟩

/-- Without a wrap the test of a size is right. -/
theorem tryNames_iff {room : Nat} (names : List Name) (hwrap : NoWrapAt P room size (xs ++ names))
    (htest : ∀ i, (test i).toNat = weight P size i xs) (hfits : Fits P room size xs) :
    (tryNames P room size names test).1 = true ↔ Fits P room size (xs ++ names) := by
  induction names generalizing xs test with
  | nil => exact iff_of_true rfl ((append_nil xs).symm ▸ hfits)
  | cons name names ih =>
    have hcat : xs ++ name :: names = xs ++ [name] ++ names := by rw [append_assoc]; rfl
    rw [tryNames]
    by_cases hdata : name.data = none
    · have hunused : ¬ name.used = true := by rw [Name.used, hdata]; exact Bool.false_ne_true
      have hsame : ∀ i, weight P size i (xs ++ [name]) = weight P size i xs := by
        intro i
        rw [weight_snoc, if_neg fun h => hunused h.1, Nat.add_zero]
      rw [if_pos hdata, hcat]
      refine ih (hcat ▸ hwrap) (fun i => (htest i).trans (hsame i).symm) fun i => ?_
      rw [hsame]
      exact hfits i
    have hused : name.used = true := Option.isSome_iff_ne_none.mpr hdata
    obtain ⟨hroom, hle⟩ := hwrap xs name names rfl hused hfits
    have hbump : ∀ i, (bump P size test name i).toNat = weight P size i (xs ++ [name]) := by
      intro i
      have h := bump_eq hused (fun i => (htest i).trans (Nat.zero_add _).symm) ((Nat.zero_add _).symm ▸ hle) i
      rwa [Nat.zero_add] at h
    rw [if_neg hdata]
    simp only
    rw [hbump, Nat.mod_eq_of_lt (show room < 65536 by omega)]
    by_cases hgt : weight P size (name.keyHash % size) (xs ++ [name]) > room
    · rw [if_pos hgt]
      refine iff_of_false Bool.false_ne_true fun h => ?_
      have hall := h (name.keyHash % size)
      rw [hcat, weight_append] at hall
      omega
    rw [if_neg hgt, hcat]
    refine ih (hcat ▸ hwrap) hbump fun i => ?_
    by_cases hi : name.keyHash % size = i
    · rw [← hi]
      exact Nat.not_lt.mp hgt
    · rw [weight_snoc, if_neg fun h => hi h.2, Nat.add_zero]
      exact hfits i

/-- The array of sums, from a constant on. -/
theorem foldl_bump (names : List Name) (htest : ∀ i, (test i).toNat = c + weight P size i xs)
    (hle : ∀ i, c + weight P size i (xs ++ names) ≤ 65535) (i : Nat) :
    ((names.filter Name.used).foldl (bump P size) test i).toNat = c + weight P size i (xs ++ names) := by
  induction names generalizing xs test with
  | nil => rw [append_nil]; exact htest i
  | cons name names ih =>
    have hcat : xs ++ name :: names = xs ++ [name] ++ names := by rw [append_assoc]; rfl
    rw [hcat] at hle ⊢
    by_cases hused : name.used = true
    · rw [filter_cons_of_pos hused, foldl_cons]
      refine ih (bump_eq hused htest ?_) hle
      have h := hle (name.keyHash % size)
      rw [weight_append] at h
      omega
    · rw [filter_cons_of_neg hused]
      refine ih (fun i => ?_) hle
      rw [htest, weight_snoc, if_neg fun h => hused h.1, Nat.add_zero]

end Arrays

/-! ## §3 The search for a size -/

/-- No sum wraps at a size that is tried. -/
def NoWrap (P : Platform) (room start maxSize : Nat) (names : List Name) : Prop :=
  ∀ size, start ≤ size → size ≤ maxSize → (∀ s, start ≤ s → s < size → ¬ Fits P room s names) → NoWrapAt P room size names

/-- The first size that fits. -/
structure First (P : Platform) (room start maxSize : Nat) (names : List Name) (size : Nat) : Prop where
  start_le : start ≤ size
  le_max : size ≤ maxSize
  fits : Fits P room size names
  first : ∀ s, start ≤ s → s < size → ¬ Fits P room s names

theorem search_spec {room start maxSize : Nat} (hwrap : NoWrap P room start maxSize names) :
    ∀ turns size, start ≤ size → 0 < size → size + turns = maxSize + 1 →
      (∀ s, start ≤ s → s < size → ¬ Fits P room s names) →
      First P room start maxSize names (search P room names turns size).1 ∧
          (∀ i ∈ (search P room names turns size).2, i < maxSize) ∨
        (search P room names turns size).1 = maxSize + 1 ∧ ∀ s, start ≤ s → s ≤ maxSize → ¬ Fits P room s names := by
  intro turns
  induction turns with
  | zero =>
    intro size _ _ hturns hnone
    exact .inr ⟨hturns, fun s hs hle => hnone s hs (by omega)⟩
  | succ turns ih =>
    intro size hstart hpos hturns hnone
    have hiff := @tryNames_iff P size (fun _ => 0) [] room names (hwrap size hstart (by omega) hnone) (fun _ => rfl)
      fun _ => Nat.zero_le _
    have hused : ∀ i ∈ range size ++ (tryNames P room size names fun _ => 0).2, i < maxSize := by
      intro i hi
      have hlt : i < size := by
        rcases mem_append.mp hi with hi | hi
        · exact mem_range.mp hi
        · exact tryNames_lt hpos room names _ i hi
      omega
    rw [search]
    by_cases htry : (tryNames P room size names fun _ => 0).1 = true
    · simp only [if_pos htry]
      exact .inl ⟨⟨hstart, by omega, hiff.mp htry, hnone⟩, hused⟩
    simp only [if_neg htry]
    have hnone' : ∀ s, start ≤ s → s < size + 1 → ¬ Fits P room s names := by
      intro s hs hlt
      rcases Nat.lt_or_eq_of_le (Nat.lt_succ_iff.mp hlt) with hlt | rfl
      · exact hnone s hs hlt
      · exact fun hfits => htry (hiff.mpr hfits)
    rcases ih (size + 1) (by omega) (by omega) (by omega) hnone' with ⟨hfirst, hrest⟩ | hlast
    · refine .inl ⟨hfirst, fun i hi => ?_⟩
      rcases mem_append.mp hi with hi | hi
      · exact hused i hi
      · exact hrest i hi
    · exact .inr hlast

theorem start_pos {w : Nat} (hinit : Init w) (nelts : Nat) : 0 < hinit.start P nelts := by
  rw [Init.start]
  split
  case isTrue hbig => omega
  case isFalse =>
    split
    case isTrue => exact Nat.one_pos
    case isFalse hne => exact Nat.pos_of_ne_zero hne

/-! ## §4 The areas of the buckets -/

section Areas
variable {size : Nat}

/-- The sizes of the areas fit into a `u_short`. -/
def AreasFit (P : Platform) (size : Nat) (names : List Name) : Prop :=
  ∀ i, weight P size i names ≠ 0 → align (P.ptr + weight P size i names) P.cacheline ≤ 65535

variable (h : AreasFit P size names)
include h

theorem AreasFit.sum_le (i : Nat) : P.ptr + weight P size i names ≤ 65535 := by
  by_cases hzero : weight P size i names = 0
  · have hlt := P.ptr_lt
    omega
  · exact Nat.le_trans (le_align _ P.cacheline_pos) (h i hzero)

theorem AreasFit.sizes (i : Nat) : (sizes P names size i).toNat = P.ptr + weight P size i names := by
  refine @foldl_bump P size _ [] P.ptr names (fun i => ?_) h.sum_le i
  rw [BitVec.toNat_ofNat, Nat.mod_eq_of_lt P.ptr_lt]
  rfl

theorem AreasFit.reserved (i : Nat) : (reserved P names size i).toNat =
    if weight P size i names = 0 then P.ptr else align (P.ptr + weight P size i names) P.cacheline := by
  rw [Hash.reserved, h.sizes]
  by_cases hzero : weight P size i names = 0
  · rw [if_pos (by omega), if_pos hzero, h.sizes, hzero, Nat.add_zero]
  · rw [if_neg (by omega), if_neg hzero, BitVec.toNat_ofNat]
    exact Nat.mod_eq_of_lt (Nat.lt_succ_of_le (h i hzero))

/-- An area is empty iff its bucket is. -/
theorem AreasFit.reserved_ne (i : Nat) :
    (Hash.reserved P names size i).toNat ≠ P.ptr ↔ weight P size i names ≠ 0 := by
  rw [h.reserved]
  by_cases hzero : weight P size i names = 0
  · rw [if_pos hzero]
    exact iff_of_false (fun hne => hne rfl) fun hne => hne hzero
  rw [if_neg hzero]
  have hle := le_align (P.ptr + weight P size i names) P.cacheline_pos
  exact iff_of_true (by omega) hzero

theorem AreasFit.dvd_offset (i : Nat) : P.cacheline ∣ offset P (Hash.reserved P names size) i := by
  induction i with
  | zero => exact Nat.dvd_zero _
  | succ i ih =>
    rw [offset]
    refine Nat.dvd_add ih ?_
    split
    case isTrue => exact Nat.dvd_zero _
    case isFalse hne =>
      rw [h.reserved, if_neg ((h.reserved_ne i).mp hne)]
      exact dvd_align _ _

omit h

/-- The areas come one after the other. -/
theorem offset_add_le (res : Test) {i j : Nat} (hij : i < j) (hi : (res i).toNat ≠ P.ptr) :
    offset P res i + (res i).toNat ≤ offset P res j := by
  induction j with
  | zero => exact absurd hij (Nat.not_lt_zero i)
  | succ j ih =>
    rw [offset]
    rcases Nat.lt_or_eq_of_le (Nat.lt_succ_iff.mp hij) with hlt | rfl
    · exact Nat.le_trans (ih hlt) (Nat.le_add_right _ _)
    · exact Nat.add_le_add_left (Nat.le_of_eq (if_neg hi).symm) _

end Areas
end GokuStudio.Nginx.Hash

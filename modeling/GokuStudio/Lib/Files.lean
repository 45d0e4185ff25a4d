import Mathlib.Algebra.GroupWithZero.Nat
import Mathlib.Data.List.Basic
import Mathlib.Tactic.Common

/-!
# Byte files and their tilings

A file is the list of its bytes. `pread` and `pwrite` are positioned reads and
writes with their usual meaning: a read past the end is short, a write past the
end fills the gap with zero bytes.

A *tiling* presents (a stretch of) a file as records laid one after the other:
`tileAt base ts o` is the record that starts at offset `o` when the first one
starts at `base`, `tileSet` replaces it. The offsets of the records are never
stored anywhere; as long as a replacement keeps its size, no other record moves
(`tileAt_tileSet`).
-/

namespace GokuStudio.Lib

open List

abbrev Bytes := List UInt8

/-! ## Positioned reads and writes -/

def pread (f : Bytes) (off n : Nat) : Bytes := (f.drop off).take n

def pwrite (f : Bytes) (off : Nat) (b : Bytes) : Bytes :=
  f.take off ++ List.replicate (off - f.length) 0 ++ b ++ f.drop (off + b.length)

theorem pread_mid (a b c : Bytes) : pread (a ++ (b ++ c)) a.length b.length = b := by
  simp [pread]

variable {b : Bytes}

theorem pwrite_mid {a c b' : Bytes} (h : b'.length = b.length) :
    pwrite (a ++ (b ++ c)) a.length b' = a ++ (b' ++ c) := by
  have hgap : a.length - (a ++ (b ++ c)).length = 0 := by
    rw [length_append]
    omega
  have hrest : (a ++ (b ++ c)).drop (a.length + b'.length) = c := by
    rw [← append_assoc, drop_left' (by simp [h])]
  rw [pwrite, hgap, hrest, take_left]
  simp

theorem pwrite_end (f b : Bytes) : pwrite f f.length b = f ++ b := by
  simp [pwrite]

variable {f : Bytes} {off o n : Nat}

theorem pwrite_eq (h : off ≤ f.length) : pwrite f off b = f.take off ++ (b ++ f.drop (off + b.length)) := by
  have hgap : off - f.length = 0 := by omega
  simp [pwrite, hgap]

/-- Wherever it goes, what was written stands there. -/
theorem pwrite_split (f : Bytes) (off : Nat) (b : Bytes) : ∃ a c, pwrite f off b = a ++ (b ++ c) ∧ a.length = off := by
  refine ⟨f.take off ++ replicate (off - f.length) 0, f.drop (off + b.length), by simp [pwrite], ?_⟩
  rw [length_append, length_take, length_replicate]
  omega

theorem length_pwrite (h : off ≤ f.length) : (pwrite f off b).length = max f.length (off + b.length) := by
  rw [pwrite_eq h]
  simp only [length_append, length_take, length_drop]
  omega

theorem pread_pwrite_same (h : off ≤ f.length) : pread (pwrite f off b) off b.length = b := by
  rw [pwrite_eq h]
  have hlen : (f.take off).length = off := by simp [h]
  have := pread_mid (f.take off) b (f.drop (off + b.length))
  rwa [hlen] at this

/-- A read is not affected by a write to another place. -/
theorem pread_pwrite_disjoint (h : off ≤ f.length) (hd : o + n ≤ off ∨ off + b.length ≤ o) :
    pread (pwrite f off b) o n = pread f o n := by
  rw [pwrite_eq h]
  rcases hd with hd | hd
  · have h1 : o ≤ (f.take off).length := by simp; omega
    have h2 : n ≤ ((f.take off).drop o).length := by simp; omega
    rw [pread, pread, drop_append_of_le_length h1, take_append_of_le_length h2, drop_take, take_take]
    congr 1
    omega
  rw [pread, pread]
  congr 1
  rw [← append_assoc, drop_append, drop_eq_nil_of_le, nil_append, drop_drop]
  · congr 1
    simp only [length_append, length_take]
    omega
  · simp only [length_append, length_take]
    omega

theorem pread_append_left (h : off + n ≤ f.length) : pread (f ++ b) off n = pread f off n := by
  rw [← pwrite_end]
  exact pread_pwrite_disjoint (Nat.le_refl _) (.inl h)

/-! ## Tilings -/

section Tiles
variable {α : Type} (size : α → Nat)

def tilesLen (ts : List α) : Nat := (ts.map size).sum

def tileAt : Nat → List α → Nat → Option α
  | _, [], _ => none
  | b, t :: ts, o => if o = b then some t else tileAt (b + size t) ts o

def tileSet : Nat → List α → Nat → α → List α
  | _, [], _, _ => []
  | b, t :: ts, o, t' => if o = b then t' :: ts else t :: tileSet (b + size t) ts o t'

variable {size}

@[simp] theorem tilesLen_nil : tilesLen size [] = 0 := rfl

@[simp] theorem tilesLen_cons (t : α) (ts : List α) : tilesLen size (t :: ts) = size t + tilesLen size ts := by
  simp [tilesLen]

@[simp] theorem tilesLen_append (ts us : List α) : tilesLen size (ts ++ us) = tilesLen size ts + tilesLen size us := by
  simp [tilesLen]

variable {t t' : α} {ts : List α}

/-- A record found at an offset splits the tiling there. -/
theorem tileAt_split : ∀ {ts : List α} {b o : Nat}, tileAt size b ts o = some t →
      ∃ pre post, ts = pre ++ t :: post ∧ o = b + tilesLen size pre ∧ ∀ t', tileSet size b ts o t' = pre ++ t' :: post
  | [], b, o, h => by simp [tileAt] at h
  | x :: xs, b, o, h => by
    by_cases hob : o = b
    · subst hob
      simp only [tileAt, if_true] at h
      cases h
      exact ⟨[], xs, rfl, by simp, fun t' => by simp [tileSet]⟩
    simp only [tileAt, if_neg hob] at h
    obtain ⟨pre, post, rfl, ho, hset⟩ := tileAt_split h
    refine ⟨x :: pre, post, rfl, ?_, fun t' => ?_⟩
    · rw [tilesLen_cons, ho, Nat.add_assoc]
    · rw [tileSet, if_neg hob, hset t', cons_append]

theorem tileAt_bounds {b : Nat} (h : tileAt size b ts o = some t) : b ≤ o ∧ o + size t ≤ b + tilesLen size ts := by
  obtain ⟨pre, post, rfl, rfl, -⟩ := tileAt_split h
  simp only [tilesLen_append, tilesLen_cons]
  omega

/-- Replacing a record by one of the same size moves no other record. -/
theorem tileAt_tileSet (hsize : size t' = size t) : ∀ {ts : List α} {b o : Nat} (o' : Nat),
    tileAt size b ts o = some t → tileAt size b (tileSet size b ts o t') o' =
        if o' = o then some t' else tileAt size b ts o'
  | [], b, o, o', h => by simp [tileAt] at h
  | x :: xs, b, o, o', h => by
    by_cases hob : o = b
    · subst hob
      simp only [tileAt, if_true, Option.some.injEq] at h
      subst h
      by_cases ho' : o' = o <;> simp [tileSet, tileAt, ho', hsize]
    simp only [tileAt, if_neg hob] at h
    have ih := tileAt_tileSet hsize o' h
    have hle := (tileAt_bounds h).1
    by_cases ho' : o' = b
    · subst ho'
      have hne : o' ≠ o := fun e => hob e.symm
      simp [tileSet, tileAt, if_neg hob, hne]
    · simp [tileSet, tileAt, if_neg hob, if_neg ho', ih]

variable (hpos : ∀ t : α, 0 < size t)

include hpos in
theorem tileAt_end_none : ∀ (ts : List α) (b o : Nat), b + tilesLen size ts ≤ o → tileAt size b ts o = none
  | [], _, _, _ => rfl
  | t :: ts, b, o, h => by
    have := hpos t
    rw [tilesLen_cons] at h
    have hob : o ≠ b := by omega
    rw [tileAt, if_neg hob]
    exact tileAt_end_none ts _ o (by omega)

include hpos in
/-- The record just past the end is the appended one; the others stay. -/
theorem tileAt_append_singleton (t : α) : ∀ (ts : List α) (b o : Nat), tileAt size b (ts ++ [t]) o =
      if o = b + tilesLen size ts then some t else tileAt size b ts o
  | [], b, o => by
    rw [tilesLen_nil, Nat.add_zero]
    rfl
  | x :: xs, b, o => by
    have hx := hpos x
    by_cases hob : o = b
    · subst hob
      have hne : ¬ o = o + tilesLen size (x :: xs) := by
        rw [tilesLen_cons]
        omega
      rw [if_neg hne, cons_append, tileAt, tileAt, if_pos rfl, if_pos rfl]
    · rw [cons_append, tileAt, if_neg hob, tileAt_append_singleton t xs]
      simp [tileAt, if_neg hob, Nat.add_assoc]

include hpos in
theorem tileAt_of_split (pre : List α) (t : α) (post : List α) (b : Nat) :
    tileAt size b (pre ++ t :: post) (b + tilesLen size pre) = some t := by
  induction pre generalizing b with
  | nil => simp [tileAt]
  | cons x xs ih =>
    have hx := hpos x
    have hne : ¬ b + tilesLen size (x :: xs) = b := by
      rw [tilesLen_cons]
      omega
    rw [cons_append, tileAt, if_neg hne, tilesLen_cons, ← Nat.add_assoc]
    exact ih (b + size x)

end Tiles

/-! ## Tiles as bytes -/

section Encoded
variable {α : Type} {enc : α → Bytes}

theorem length_flatMap_enc (ts : List α) : (ts.flatMap enc).length = tilesLen (fun t => (enc t).length) ts := by
  induction ts with
  | nil => rfl
  | cons t ts ih => simp [ih]

/-- The bytes from a record's offset on start with that record. -/
theorem flatMap_split_at {ts : List α} {hdr : Bytes} {t : α}
    (h : tileAt (fun t => (enc t).length) hdr.length ts o = some t) :
    ∃ pre post : Bytes, hdr ++ ts.flatMap enc = pre ++ (enc t ++ post) ∧ pre.length = o ∧
      ∀ t', hdr ++ (tileSet (fun t => (enc t).length) hdr.length ts o t').flatMap enc = pre ++ (enc t' ++ post) := by
  obtain ⟨pre, post, rfl, ho, hset⟩ := tileAt_split h
  refine ⟨hdr ++ pre.flatMap enc, post.flatMap enc, ?_, ?_, fun t' => ?_⟩
  · simp
  · rw [length_append, length_flatMap_enc, ho]
  · rw [hset t']
    simp

/-- Records whose first one can be told from any bytes can all be told. -/
theorem flatMap_inj {ok : α → Prop}
    (hhead : ∀ {t t' x x'}, ok t → ok t' → enc t ++ x = enc t' ++ x' → t = t' ∧ x = x')
    (hpos : ∀ {t}, ok t → 0 < (enc t).length) : ∀ {ts ts' : List α}, (∀ t ∈ ts, ok t) →
    (∀ t ∈ ts', ok t) → ts.flatMap enc = ts'.flatMap enc → ts = ts'
  | [], [], _, _, _ => rfl
  | [], t :: ts, _, hok', h => by
    have := congrArg length h
    have := hpos (hok' t (by simp))
    simp only [flatMap_cons, flatMap_nil, length_append, length_nil] at *
    omega
  | t :: ts, [], hok, _, h => by
    have := congrArg length h
    have := hpos (hok t (by simp))
    simp only [flatMap_cons, flatMap_nil, length_append, length_nil] at *
    omega
  | t :: ts, t' :: ts', hok, hok', h => by
    rw [flatMap_cons, flatMap_cons] at h
    obtain ⟨rfl, hrest⟩ := hhead (hok t (by simp)) (hok' t' (by simp)) h
    rw [flatMap_inj hhead hpos (fun u hu => hok u (by simp [hu])) (fun u hu => hok' u (by simp [hu])) hrest]

end Encoded

/-- The last separator splits in one way only. -/
theorem append_cons_inj_of_notMem_right {α : Type} {c : α} {a b x y : List α} (hx : c ∉ x)
    (hy : c ∉ y) (h : a ++ c :: x = b ++ c :: y) : a = b ∧ x = y := by
  rcases append_eq_append_iff.mp h with ⟨z, rfl, hz⟩ | ⟨z, rfl, hz⟩
  · cases z with
    | nil => exact ⟨by simp, (cons.inj hz).2⟩
    | cons d z => exact absurd (by rw [(cons.inj hz).2]; simp) hx
  · cases z with
    | nil => exact ⟨by simp, (cons.inj hz).2.symm⟩
    | cons d z => exact absurd (by rw [(cons.inj hz).2]; simp) hy

end GokuStudio.Lib

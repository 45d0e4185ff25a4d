import GokuStudio.WebServer.Http
import Mathlib.Algebra.Order.BigOperators.Group.List
import Mathlib.Data.List.Infix

/-!
# The file table (`http_src_func.c`)

Every file below the source path goes into `s_list` under the path `nftw`
reports, and an index a second time under its directory; then the source path is
cut off. A file counts as an index if the first `/index.html` in its path is also
the end of it.
-/

namespace GokuStudio.WebServer

open Lib List

def slash : UInt8 := 47
def indexName : Bytes := ascii "/index.html"
def toLower (c : UInt8) : UInt8 := if 65 ≤ c ∧ c ≤ 90 then c + 32 else c

/-- The first place at which `s` stands in `t`, whatever the case. -/
def strcasestr (t s : Bytes) : Option Nat := t.tails.findIdx? fun u => (s.map toLower).isPrefixOf (u.map toLower)

/-- `NULL != index_str && index_str[INDEX_NAME_LEN] == '\0'`. -/
def isIndex (fPath : Bytes) : Bool := (strcasestr fPath indexName).any (· + 11 == fPath.length)

def scanSrcFileCb (sList : List SrcFile) (f : SrcFile) : List SrcFile :=
  sList ++ (f :: if isIndex f.fPath then [{ f with fPath := f.fPath.take (f.fPath.length - 11) }] else [])

/-- `f_p_len` counts the NUL. -/
def cutSrcPath (srcPathLen : Nat) (f : SrcFile) : SrcFile :=
  { f with fPath := if f.fPath.length + 1 - srcPathLen = 1 then [slash] else f.fPath.drop srcPathLen }

/-- `reported` is what `nftw` calls back with. -/
def loadHttpServerSrc (srcPath : Bytes) (reported : List SrcFile) : List SrcFile :=
  let srcPathLen := if srcPath.getLast? = some slash then srcPath.length - 1 else srcPath.length
  (reported.foldl scanSrcFileCb []).map (cutSrcPath srcPathLen)

/-! ## The tree -/

def under (src : Bytes) (f : SrcFile) : SrcFile := { f with fPath := src ++ f.fPath }

/-- The path ends in `/index.html`. -/
def Ends (p : Bytes) : Prop := indexName <:+ p.map toLower

/-- `/index.html` stands at `i`. -/
def StandsAt (p : Bytes) (i : Nat) : Prop := indexName <+: (p.drop i).map toLower

instance (p : Bytes) : Decidable (Ends p) := inferInstanceAs (Decidable (_ <:+ _))

/-- The entry for the directory of an index. -/
def dirEntry (f : SrcFile) : SrcFile :=
  { f with fPath := if f.fPath.length = 11 then [slash] else f.fPath.take (f.fPath.length - 11) }

/-- One entry for each file, and one for the directory of each index. -/
def mirror (files : List SrcFile) : List SrcFile :=
  files ++ files.flatMap fun f => if Ends f.fPath then [dirEntry f] else []

variable {p src rel path : Bytes} {i : Nat} {files : List SrcFile} {f : SrcFile}

theorem StandsAt.le (h : StandsAt p i) : i + 11 ≤ p.length := by
  have hlen := h.length_le
  rw [length_map, length_drop] at hlen
  change 11 ≤ _ at hlen
  omega

theorem ends_iff : Ends p ↔ ∃ i, StandsAt p i ∧ i + 11 = p.length := by
  constructor
  · intro h
    have hlen : 11 ≤ p.length := h.length_le.trans_eq (length_map _)
    refine ⟨p.length - 11, ?_, by omega⟩
    rw [Ends, suffix_iff_eq_drop, length_map] at h
    rw [StandsAt, map_drop]
    exact h ▸ prefix_rfl
  · rintro ⟨i, h, hi⟩
    have heq : indexName = (p.drop i).map toLower := h.eq_of_length (by
      rw [length_map, length_drop]
      change 11 = _
      omega)
    rw [Ends, heq, map_drop]
    exact drop_suffix i _

theorem strcasestr_eq_some : strcasestr p indexName = some i ↔ StandsAt p i ∧ ∀ j < i, ¬ StandsAt p j := by
  have hlow : indexName.map toLower = indexName := by decide
  rw [strcasestr, findIdx?_eq_some_iff_getElem]
  simp only [hlow, getElem_tails, isPrefixOf_iff_prefix, length_tails]
  constructor
  · rintro ⟨-, h⟩
    exact h
  · intro h
    have := h.1.le
    exact ⟨by omega, h⟩

theorem isIndex_iff : isIndex p = true ↔ Ends p ∧ ∀ i, StandsAt p i → i + 11 = p.length := by
  rw [isIndex, Option.any_eq_true, ends_iff]
  simp only [beq_iff_eq, strcasestr_eq_some]
  constructor
  · rintro ⟨i, ⟨h, hfirst⟩, hi⟩
    refine ⟨⟨i, h, hi⟩, fun j hj => ?_⟩
    have := hj.le
    have := mt (hfirst j) (not_not.mpr hj)
    omega
  · rintro ⟨⟨i, h, hi⟩, honly⟩
    refine ⟨i, ⟨h, fun j hj hs => ?_⟩, hi⟩
    have := honly j hs
    omega

/-- The name has no other slash, so it does not reach over the root. -/
theorem ends_append (hroot : rel.head? = some slash) : Ends (src ++ rel) ↔ Ends rel := by
  constructor
  · intro h
    rw [Ends, map_append] at h
    rcases suffix_or_suffix_of_suffix h (suffix_append _ _) with h | h
    · exact h
    have hall : ∀ t ∈ indexName.tails, t.head? = some slash → t = indexName := by decide
    have := hall _ ((mem_tails _ _).mpr h) (by rw [head?_map, hroot]; rfl)
    rw [Ends, this]
  · intro h
    rw [Ends, map_append]
    exact h.trans (suffix_append _ _)

section Load
variable (hroot : f.fPath.head? = some slash)
include hroot

theorem cutSrcPath_under : cutSrcPath src.length (under src f) = f := by
  have hpos : 0 < f.fPath.length := length_pos_of_ne_nil (by rintro h; simp [h] at hroot)
  rw [cutSrcPath, under, if_neg (by rw [length_append]; omega), drop_left]

theorem cutSrcPath_dir (h : isIndex (src ++ f.fPath) = true) :
    cutSrcPath src.length { under src f with fPath := (src ++ f.fPath).take ((src ++ f.fPath).length - 11) } =
      dirEntry f := by
  have hlen : 11 ≤ f.fPath.length := ((ends_append hroot).mp (isIndex_iff.mp h).1).length_le.trans_eq (length_map _)
  have htake : (src ++ f.fPath).take ((src ++ f.fPath).length - 11) = src ++ f.fPath.take (f.fPath.length - 11) := by
    rw [length_append, Nat.add_sub_assoc hlen, take_length_add_append]
  rw [htake]
  simp only [cutSrcPath, dirEntry, under, drop_left, length_append, length_take]
  congr 2
  exact propext (by omega)

end Load

variable (hsrc : src.getLast? ≠ some slash) (hpath : path = src ++ [slash] ∨ path = src ∧ src ≠ [])
  (hroot : ∀ f ∈ files, f.fPath.head? = some slash)

include hsrc hpath hroot

theorem loadHttpServerSrc_eq : loadHttpServerSrc path (files.map (under src)) =
    files.flatMap fun f => [f] ++ if isIndex (src ++ f.fPath) then [dirEntry f] else [] := by
  have hlen : (if path.getLast? = some slash then path.length - 1 else path.length) = src.length := by
    rcases hpath with rfl | ⟨rfl, -⟩
    · simp
    · rw [if_neg hsrc]
  simp only [loadHttpServerSrc, hlen]
  unfold scanSrcFileCb
  rw [← flatMap_eq_foldl, map_flatMap, flatMap_map]
  refine flatMap_congr fun f hf => ?_
  rw [map_cons, cutSrcPath_under (hroot f hf)]
  cases h : isIndex (src ++ f.fPath)
  · simp [under, h]
  · simp [under, h, ← cutSrcPath_dir (hroot f hf) h]

/-- The table is the tree's mirror exactly if in the path of every index, source
path included, its name stands nowhere else. -/
theorem table_mirrors_iff : (loadHttpServerSrc path (files.map (under src))).Perm (mirror files) ↔
    ∀ f ∈ files, Ends f.fPath → ∀ i, StandsAt (src ++ f.fPath) i → i + 11 = (src ++ f.fPath).length := by
  have hidx : ∀ f ∈ files, (isIndex (src ++ f.fPath) = true ↔ Ends f.fPath ∧
      ∀ i, StandsAt (src ++ f.fPath) i → i + 11 = (src ++ f.fPath).length) := fun f hf => by
    rw [isIndex_iff, ends_append (hroot f hf)]
  rw [loadHttpServerSrc_eq hsrc hpath hroot, mirror]
  constructor
  · -- a missing entry makes the table shorter
    intro hperm f hf hends
    by_contra hnot
    have hlen := (flatMap_append_perm files _ _).length_eq.trans hperm.length_eq
    rw [flatMap_singleton', length_append, length_append, Nat.add_left_cancel_iff, length_flatMap, length_flatMap] at hlen
    refine (sum_lt_sum _ _ (fun g hg => ?_) ⟨f, hf, ?_⟩).ne hlen
    · by_cases hg' : isIndex (src ++ g.fPath) = true
      · rw [if_pos hg', if_pos ((hidx g hg).mp hg').1]
      · rw [if_neg hg']
        exact Nat.zero_le _
    · rw [if_neg (mt (hidx f hf).mp (by tauto)), if_pos hends]
      exact Nat.zero_lt_one
  · intro hall
    refine (flatMap_append_perm files _ _).symm.trans ?_
    rw [flatMap_singleton', flatMap_congr fun f hf => ?_]
    exact if_congr ((hidx f hf).trans (and_iff_left_of_imp (hall f hf))) rfl rfl

omit hsrc hpath hroot

theorem table_mirrors_iff_page : (loadHttpServerSrc (ascii "w/") [⟨ascii "w/a", []⟩]).Perm (mirror [⟨ascii "/a", []⟩]) :=
  (@table_mirrors_iff (ascii "w") _ [⟨ascii "/a", []⟩] (by decide) (.inl rfl) (by decide)).mpr
    (forall_mem_singleton.mpr fun h => absurd h (by decide))

/-- A directory `index.html` hides the index in it. -/
theorem nested_index_missed : ¬ (loadHttpServerSrc (ascii "w") [⟨ascii "w/index.html/index.html", []⟩]).Perm
    (mirror [⟨ascii "/index.html/index.html", []⟩]) := by
  decide +kernel

end GokuStudio.WebServer

import GokuStudio.Nginx.Http.DotSegments
import GokuStudio.Nginx.Http.RequestLine
import Mathlib.Data.Bool.Basic

/-!
# URIs from configuration, variables and headers (`ngx_http_parse_unsafe_uri`)

A URI is refused if its path has a NUL byte or a `..` segment. The first loop looks at the
path as it stands, up to the `?`, and cuts the URI there; if it has seen a `%`, the path is decoded
and looked at again. A `..` counts for the loops if a slash or the end follows it, and the
end is that of the text they look at: for the first loop that of the whole URI. So a `..`
right before the `?` goes through, unless a `%` brings the second loop.

The pool is taken to have memory for the decoded path.
-/

namespace GokuStudio.Nginx.UnsafeUri

open Lib List

/-! ## §1 The functions -/

inductive Quote where
  | usual
  | quoted
  | quotedSecond (decoded : UInt8)

/-- `ngx_unescape_uri` with the type 0. -/
def unescapeUri : Quote → Bytes → Bytes
  | _, [] => []
  | .usual, ch :: s => if ch = '%' then unescapeUri .quoted s else ch :: unescapeUri .usual s
  | .quoted, ch :: s =>
    if isDigit ch then unescapeUri (.quotedSecond (ch - '0')) s
    else if isHexLetter ch then unescapeUri (.quotedSecond (letterValue ch)) s
    else ch :: unescapeUri .usual s
  | .quotedSecond decoded, ch :: s =>
    if isDigit ch then ((decoded <<< 4) + ch - '0') :: unescapeUri .usual s
    else if isHexLetter ch then ((decoded <<< 4) + letterValue ch) :: unescapeUri .usual s
    else unescapeUri .usual s

/-- `p[0] == '.' && p[1] == '.'`, and the end or a slash behind them. -/
def dotDotAhead : Bytes → Bool
  | a :: b :: p => a = '.' ∧ b = '.' ∧ (p = [] ∨ p.head? = some slash)
  | _ => false

/-- The first loop: `quoted`, the path and the arguments, or `none` at what is unsafe. -/
def scanRaw (quoted : Bool) : Bytes → Option (Bool × Bytes × Option Bytes)
  | [] => some (quoted, [], none)
  | ch :: p =>
    if ch = '%' then (scanRaw true p).map fun (q, path, args) => (q, ch :: path, args)
    else if RequestLine.usual ch then (scanRaw quoted p).map fun (q, path, args) => (q, ch :: path, args)
    else if ch = '?' then some (quoted, [], some p)
    else if ch = NUL then none
    else if ch = slash ∧ dotDotAhead p then none
    else (scanRaw quoted p).map fun (q, path, args) => (q, ch :: path, args)

/-- The second loop: is the decoded path safe? -/
def scanDecoded : Bytes → Bool
  | [] => true
  | ch :: p => if ch = NUL then false else if ch = slash ∧ dotDotAhead p then false else scanDecoded p

/-- The path and the arguments, or `none` for `NGX_ERROR`. -/
def parseUnsafeUri (uri : Bytes) : Option (Bytes × Option Bytes) :=
  if uri = [] ∨ uri.head? = some ('?' : UInt8) then none
  else if dotDotAhead uri then none
  else
    match scanRaw false uri with
    | none => none
    | some (false, path, args) => some (path, args)
    | some (true, path, args) =>
      let path := unescapeUri .usual path
      if dotDotAhead path then none else if scanDecoded path then some (path, args) else none

/-! ## §2 What the loops find -/

/-- What stands before the first `?`. -/
def rawPath (uri : Bytes) : Bytes := uri.takeWhile (· ≠ '?')

/-- The same with the `?`: as far as the first loop looks. -/
def seen : Bytes → Bytes
  | [] => []
  | ch :: p => if ch = '?' then [ch] else ch :: seen p

def argsOf : Bytes → Option Bytes
  | [] => none
  | ch :: p => if ch = '?' then some p else argsOf p

/-- A segment behind a slash is `..`. -/
def Behind (p : Bytes) : Prop := dotDot ∈ (p.splitOn slash).tail

variable {ch : UInt8} {p uri : Bytes} {quoted : Bool}

theorem splitOn_cons (ch : UInt8) (p : Bytes) : (ch :: p).splitOn slash =
    if ch = slash then [] :: p.splitOn slash else (p.splitOn slash).modifyHead (ch :: ·) := by
  rw [splitOn, splitOnP_cons_eq_if_modifyHead]
  simp [splitOn]

theorem splitOn_eq (p : Bytes) : p.splitOn slash = p.takeWhile (· ≠ slash) :: (p.splitOn slash).tail := by
  induction p with
  | nil => simp
  | cons ch p ih =>
    rw [splitOn_cons]
    by_cases hch : ch = slash
    · simp [hch]
    · rw [if_neg hch, ih]
      simp [hch]

theorem dotDotAhead_iff : dotDotAhead p = true ↔ p.takeWhile (· ≠ slash) = dotDot := by
  have hdot : ('.' : UInt8) ≠ slash := by decide
  match p with
  | [] | [a] | [a, b] | a :: b :: c :: p => grind [dotDotAhead, dotDot, text, takeWhile_nil, takeWhile_cons]

theorem mem_splitOn_iff : dotDot ∈ p.splitOn slash ↔ dotDotAhead p = true ∨ Behind p := by
  rw [splitOn_eq, mem_cons, dotDotAhead_iff, eq_comm]
  rfl

theorem behind_cons : Behind (ch :: p) ↔ (ch = slash ∧ dotDotAhead p = true) ∨ Behind p := by
  rw [Behind, splitOn_cons]
  by_cases hch : ch = slash
  · rw [if_pos hch, tail_cons, mem_splitOn_iff, and_iff_right hch]
  · rw [if_neg hch, splitOn_eq]
    simp [hch, Behind]

theorem scanDecoded_iff : scanDecoded p = true ↔ NUL ∉ p ∧ ¬ Behind p := by
  induction p with
  | nil => simp [scanDecoded, Behind]
  | cons ch p ih => grind [scanDecoded, behind_cons]

theorem dotDotAhead_seen : dotDotAhead (seen p) = dotDotAhead p := by
  have hmark : ('?' : UInt8) ≠ '.' ∧ ('?' : UInt8) ≠ slash := by decide
  match p with
  | [] | [a] | [a, b] | a :: b :: c :: p => grind [dotDotAhead, seen]

theorem usual_ne (h : RequestLine.usual ch = true) : ch ≠ '?' ∧ ch ≠ NUL ∧ ch ≠ slash := by
  refine ⟨?_, ?_, ?_⟩ <;> rintro rfl <;> exact absurd h (by decide)

theorem scanRaw_iff {r : Bool × Bytes × Option Bytes} : scanRaw quoted uri = some r ↔ NUL ∉ rawPath uri ∧
    ¬ Behind (seen uri) ∧ (quoted || decide (('%' : UInt8) ∈ rawPath uri), rawPath uri, argsOf uri) = r := by
  induction uri generalizing quoted r with
  | nil => simp [scanRaw, rawPath, seen, argsOf, Behind]
  | cons ch p ih =>
    have husual := @usual_ne ch
    have hper : ('%' : UInt8) ≠ NUL ∧ ('%' : UInt8) ≠ slash ∧ ('%' : UInt8) ≠ '?' := by decide
    by_cases hq : ch = '?'
    · have hmark : ¬ Behind [('?' : UInt8)] := by unfold Behind; decide
      have hno : ¬ RequestLine.usual '?' = true := by decide
      simp [scanRaw, rawPath, seen, argsOf, hq, hmark, hno, hper.2.2.symm]
    have hraw : rawPath (ch :: p) = ch :: rawPath p := by simp [rawPath, hq]
    have hseen : seen (ch :: p) = ch :: seen p := by simp [seen, hq]
    have hargs : argsOf (ch :: p) = argsOf p := by simp [argsOf, hq]
    -- a character that the loop passes over goes to the path
    have hpass : ∀ b, (scanRaw b p).map (fun (q, path, args) => (q, ch :: path, args)) = some r ↔ NUL ∉ rawPath p ∧
        ¬ Behind (seen p) ∧ (b || decide (('%' : UInt8) ∈ rawPath p), ch :: rawPath p, argsOf p) = r := by
      simp [Option.map_eq_some_iff, ih, and_assoc]
    rw [hraw, hseen, hargs, behind_cons, dotDotAhead_seen, scanRaw]
    split_ifs <;> grind

/-! ## §3 What is let through -/

/-- The path of the result. -/
def decodedPath (uri : Bytes) : Bytes :=
  if ('%' : UInt8) ∈ rawPath uri then unescapeUri .usual (rawPath uri) else rawPath uri

def Safe (path : Bytes) : Prop := NUL ∉ path ∧ dotDot ∉ path.splitOn slash

/-- What is let through is the path and the arguments, and the path is safe. -/
def Right (uri : Bytes) : Prop := ∀ path args, parseUnsafeUri uri = some (path, args) →
  path = decodedPath uri ∧ args = argsOf uri ∧ Safe path

/-- No `%` and no NUL in the path, and a `..` that is one only without the `?` behind it. -/
def Slips (uri : Bytes) : Prop := ('%' : UInt8) ∉ rawPath uri ∧ NUL ∉ rawPath uri ∧
  dotDot ∈ (rawPath uri).splitOn slash ∧ dotDot ∉ (seen uri).splitOn slash

theorem parseUnsafeUri_iff {path : Bytes} {args : Option Bytes} : parseUnsafeUri uri = some (path, args) ↔
    rawPath uri ≠ [] ∧ NUL ∉ rawPath uri ∧ dotDot ∉ (seen uri).splitOn slash ∧ path = decodedPath uri ∧
      args = argsOf uri ∧ (('%' : UInt8) ∈ rawPath uri → Safe path) := by
  have hempty : (uri = [] ∨ uri.head? = some ('?' : UInt8)) ↔ rawPath uri = [] := by
    cases uri <;> simp [rawPath, takeWhile_cons]
  rw [parseUnsafeUri, mem_splitOn_iff, dotDotAhead_seen, decodedPath]
  cases hraw : scanRaw false uri with
  | none =>
    have hflaw : ¬ (NUL ∉ rawPath uri ∧ ¬ Behind (seen uri)) := by
      rintro ⟨hnul, hbehind⟩
      rw [scanRaw_iff.mpr ⟨hnul, hbehind, rfl⟩] at hraw
      cases hraw
    grind
  | some r =>
    obtain ⟨hnul, hbehind, rfl⟩ := scanRaw_iff.mp hraw
    by_cases hper : ('%' : UInt8) ∈ rawPath uri
    · have hsafe : ∀ p, Safe p ↔ dotDotAhead p = false ∧ scanDecoded p = true := by
        intro p
        rw [Safe, mem_splitOn_iff, scanDecoded_iff]
        grind
      simp only [Bool.false_or, hper, decide_true, if_true]
      grind
    · simp only [Bool.false_or, hper, decide_false, if_false]
      grind

/-- **Unsafe URIs.** The result is right for every URI but those whose last path segment is a `..` that the first
loop does not see as one. -/
theorem unsafe_uri_iff (uri : Bytes) : Right uri ↔ ¬ Slips uri := by
  constructor
  · rintro h ⟨hper, hnul, hdots, hseen⟩
    have hne : rawPath uri ≠ [] := by
      intro h0
      rw [h0] at hdots
      exact absurd hdots (by decide)
    have hpath : decodedPath uri = rawPath uri := if_neg hper
    exact (h _ _ (parseUnsafeUri_iff.mpr ⟨hne, hnul, hseen, rfl, rfl, fun hp => absurd hp hper⟩)).2.2.2 (hpath ▸ hdots)
  · intro h path args hparse
    obtain ⟨-, hnul, hseen, rfl, rfl, hsafe⟩ := parseUnsafeUri_iff.mp hparse
    refine ⟨rfl, rfl, ?_⟩
    by_cases hper : ('%' : UInt8) ∈ rawPath uri
    · exact hsafe hper
    · rw [decodedPath, if_neg hper]
      exact ⟨hnul, fun hdots => h ⟨hper, hnul, hdots, hseen⟩⟩

theorem dotDot_let_through : parseUnsafeUri (text ['/', '.', '.', '?']) = some (text ['/', '.', '.'], some []) ∧
    ¬ Right (text ['/', '.', '.', '?']) := by
  have hparse : parseUnsafeUri (text ['/', '.', '.', '?']) = some (text ['/', '.', '.'], some []) := by decide
  exact ⟨hparse, fun h => (h _ _ hparse).2.2.2 (by decide)⟩

end GokuStudio.Nginx.UnsafeUri

import GokuStudio.Nginx.Http.DotSegments
import GokuStudio.Nginx.Http.FastPath
import Mathlib.Data.List.Induction

/-!
# How a complex URI is normalised

The loop of `ngx_http_parse_complex_uri` decodes the path on its way (`decoded`)
and gives the bytes to a machine that holds the segments placed so far and the
segment it is reading (`Rep`): they are what has been written, and the state says
whether the segment is empty, a dot, two dots, or something else.

So the path that comes out is that of `removeTwo`, with the last segment as it
stands. It differs from what `normalise` asks for in three ways: a dot segment at
the end of the path stays, an escape that the end of the URI cuts short is
dropped, and without merging a `..` behind an empty segment takes two away.
-/

namespace GokuStudio.Nginx

open Lib List
open Option hiding getD map_map

namespace ComplexUri

/-! ## §1 The machine on decoded bytes -/

def stateOf (seg : Bytes) : Plain :=
  if seg = [] then .slash else if seg = dot then .dot else if seg = dotDot then .dotDot else .usual

variable {y v c x : UInt8}

theorem stateOf_append {seg : Bytes} {ch : UInt8} (h : ch ≠ '.') : stateOf (seg ++ [ch]) = .usual := by
  have hne : ∀ s : Bytes, s.getLast? = some '.' → seg ++ [ch] ≠ s := by
    rintro s hs rfl
    rw [getLast?_concat] at hs
    exact h (some.inj hs)
  rw [stateOf, if_neg (by simp), if_neg (hne dot rfl), if_neg (hne dotDot rfl)]

/-- `st` are the segments that have been placed, `seg` is the one being read. -/
structure Rep (u : Scratch) (st : List Bytes) (seg : Bytes) : Prop where
  state : u.state = .plain (stateOf seg)
  out : u.out = absolute st seg
  placed : ∀ s ∈ st, slash ∉ s
  reading : slash ∉ seg

/-- A segment is placed. -/
def place (mergeSlashes : Bool) (st : List Bytes) (seg : Bytes) : Option (List Bytes) :=
  if seg = [] then some (if mergeSlashes then st else [] :: st) else removeTwo st seg

theorem absolute_append (st : List Bytes) (seg more : Bytes) : absolute st (seg ++ more) = absolute st seg ++ more := by
  simp [absolute, joinSegments]

theorem absolute_cons (seg : Bytes) (st : List Bytes) (last : Bytes) :
    absolute (seg :: st) last = absolute st seg ++ slash :: last := by
  simp [absolute, joinSegments]

section
variable {merge : Bool} {u : Scratch} {st : List Bytes} {seg : Bytes} {ch : UInt8}
variable (hout : u.out = absolute st seg) (hst : ∀ s ∈ st, slash ∉ s) (hseg : slash ∉ seg)

include hout hst hseg in
theorem Rep.push (hch : ch ≠ '/') (s : Plain) (hs : stateOf (seg ++ [ch]) = s) : Rep (u.push ch s) st (seg ++ [ch]) := by
  refine ⟨?_, ?_, hst, ?_⟩
  · rw [hs]
    rfl
  · rw [absolute_append, ← hout]
    rfl
  · rw [mem_append, mem_singleton]
    rintro (hm | hm)
    · exact hseg hm
    · exact hch hm.symm

theorem not_usual_dot : RequestLine.usual '.' = false := by decide

include hout hst hseg in
/-- A byte that is neither a slash nor one of those that end or escape. -/
theorem swPlain_byte (h1 : ch ≠ '/') (h2 : ch ≠ '%') (h3 : ch ≠ '?') (h4 : ch ≠ '#') :
    ∃ u', swPlain merge (stateOf seg) ch u = .next u' ∧ Rep u' st (seg ++ [ch]) := by
  by_cases hdot : ch = '.'
  · subst hdot
    unfold swPlain
    rw [not_usual_dot, if_neg (by simp)]
    by_cases hnil : seg = []
    · subst hnil
      exact ⟨_, rfl, Rep.push hout hst hseg h1 .dot rfl⟩
    by_cases hd : seg = dot
    · subst hd
      exact ⟨_, rfl, Rep.push hout hst hseg h1 .dotDot rfl⟩
    have hne : seg ++ [('.' : UInt8)] ≠ [] ∧ seg ++ [('.' : UInt8)] ≠ dot := by
      refine ⟨by simp, fun he => hnil ?_⟩
      exact append_cancel_right (he.trans (nil_append _).symm)
    have hndd : seg ++ [('.' : UInt8)] ≠ dotDot := fun he =>
      hd (append_cancel_right (he.trans rfl : seg ++ [('.' : UInt8)] = dot ++ [('.' : UInt8)]))
    have hus : stateOf (seg ++ [('.' : UInt8)]) = .usual := by
      rw [stateOf, if_neg hne.1, if_neg hne.2, if_neg hndd]
    by_cases hdd : seg = dotDot
    · subst hdd
      refine ⟨_, rfl, Rep.push ?_ hst hseg h1 .usual hus⟩
      exact hout
    · rw [stateOf, if_neg hnil, if_neg hd, if_neg hdd]
      refine ⟨_, rfl, Rep.push ?_ hst hseg h1 .usual hus⟩
      exact hout
  · obtain ⟨plus, hstep⟩ := swPlain_ordinary merge ⟨h1, hdot, h2, h3, h4⟩
    exact ⟨_, hstep, Rep.push (u := { u with plusInUri := plus }) hout hst hseg h1 .usual (stateOf_append hdot)⟩

/-- Looking for a slash from `n` downwards. -/
theorem stepBack_append {a : Bytes} (c : Bytes) : ∀ {b : Bytes}, slash ∉ b →
    stepBack (a ++ slash :: b ++ c) (a.length + 1 + b.length) = some (a ++ [slash]) := by
  intro b hb
  induction b using reverseRecOn generalizing c with
  | nil =>
    rw [length_nil, Nat.add_zero, stepBack]
    rw [if_pos (by simp), append_assoc, take_append, take_of_length_le (by omega)]
    simp
  | append_singleton b x ih =>
    rw [mem_append, mem_singleton, not_or] at hb
    rw [length_append, length_singleton, ← Nat.add_assoc, stepBack]
    have hx : (a ++ slash :: (b ++ [x]) ++ c).getD (a.length + 1 + b.length) 0 = x := by
      simp [getD, Nat.add_assoc, Nat.add_comm 1]
    rw [if_neg (by rw [hx]; exact Ne.symm hb.2)]
    have := ih (x :: c) hb.1
    simpa using this

theorem absolute_nil_slash (st : List Bytes) : ∃ a, absolute st [] = a ++ [slash] := by
  cases st with
  | nil => exact ⟨[], rfl⟩
  | cons s st => exact ⟨absolute st s, absolute_cons s st []⟩

/-- Looking for a slash at the end of what a segment has been added to. -/
theorem stepBack_absolute (hseg : slash ∉ seg) {c : Bytes} (hc : c.length = 4) :
    stepBack (absolute st seg ++ c) ((absolute st seg ++ c).length - 4) = some (absolute st []) := by
  obtain ⟨a, ha⟩ := absolute_nil_slash st
  have hout : absolute st seg = a ++ slash :: seg := by
    rw [← nil_append seg, absolute_append, ha, append_assoc]
    rfl
  rw [length_append, hc, Nat.add_sub_cancel, hout, ha, ← stepBack_append c hseg, length_append, length_cons]
  congr 1
  omega

/-- The `u -= 5` of the source is right behind a segment that is not empty. -/
theorem stepBack_dotDot (hst : ∀ s ∈ st, slash ∉ s) : stepBack (absolute st dotDot) ((absolute st dotDot).length - 4) =
      (removeTwo st dotDot).map (absolute · []) := by
  cases st with
  | nil => rfl
  | cons s st =>
    have hs : slash ∉ s := hst s mem_cons_self
    rw [absolute_cons]
    by_cases hnil : s = []
    · subst hnil
      cases st with
      | nil => rfl
      | cons s' st =>
        rw [absolute_cons, append_assoc]
        exact stepBack_absolute (hst s' (mem_cons_of_mem _ mem_cons_self)) rfl
    · obtain ⟨t, x, rfl⟩ : ∃ t x, s = t ++ [x] := ⟨_, _, (dropLast_append_getLast hnil).symm⟩
      have ht : slash ∉ t := fun hm => hs (mem_append_left _ hm)
      rw [removeTwo_dotDot st hnil, absolute_append, append_assoc]
      exact stepBack_absolute ht rfl

/-- A move that gives the byte `v` to the machine. -/
def Takes (merge : Bool) (st : List Bytes) (seg : Bytes) (v : UInt8) (t : Move) : Prop :=
  if v = slash then
    match place merge st seg with
    | some st' => ∃ u', t = .next u' ∧ Rep u' st' []
    | none => ∃ u', t = .exit .invalidRequest u'
  else ∃ u', t = .next u' ∧ Rep u' st (seg ++ [v])

include hout hst hseg

/-- A slash places the segment. -/
theorem swPlain_slash : Takes merge st seg slash (swPlain merge (stateOf seg) '/' u) := by
  rw [Takes, if_pos rfl]
  by_cases hnil : seg = []
  · subst hnil
    cases merge with
    | true => exact ⟨_, rfl, rfl, hout, hst, not_mem_nil⟩
    | false =>
      refine ⟨_, rfl, rfl, ?_, ?_, not_mem_nil⟩
      · show u.out ++ [slash] = absolute ([] :: st) []
        rw [absolute_cons, ← hout]
      · exact forall_mem_cons.mpr ⟨not_mem_nil, hst⟩
  rw [place, if_neg hnil]
  by_cases hd : seg = dot
  · subst hd
    refine ⟨_, rfl, rfl, ?_, hst, not_mem_nil⟩
    rw [hout, ← nil_append dot, absolute_append]
    exact dropLast_concat
  by_cases hdd : seg = dotDot
  · subst hdd
    have hback := stepBack_dotDot hst
    rw [← hout] at hback
    have hstep : swPlain merge (stateOf dotDot) '/' u = swDotDot '/' u := rfl
    rw [hstep, swDotDot, if_pos rfl, hback]
    cases hr : removeTwo st dotDot with
    | none => exact ⟨u, rfl⟩
    | some st' =>
      refine ⟨_, rfl, rfl, rfl, ?_, not_mem_nil⟩
      intro s hs
      rcases mem_removeTwo hr hs with hs | rfl
      · exact hst s hs
      · exact hseg
  · have hstate : stateOf seg = .usual := by rw [stateOf, if_neg hnil, if_neg hd, if_neg hdd]
    rw [removeTwo.eq_def, if_neg hd, if_neg hdd, hstate]
    refine ⟨_, rfl, rfl, ?_, ?_, not_mem_nil⟩
    · rw [absolute_cons, ← hout]
      rfl
    · exact forall_mem_cons.mpr ⟨hseg, hst⟩

theorem takes_swPlain (h2 : ch ≠ '%') (h3 : ch ≠ '?') (h4 : ch ≠ '#') :
    Takes merge st seg ch (swPlain merge (stateOf seg) ch u) := by
  by_cases h1 : ch = slash
  · subst h1
    exact swPlain_slash hout hst hseg
  · rw [Takes, if_neg h1]
    exact swPlain_byte hout hst hseg h1 h2 h3 h4

/-- A decoded byte that would mean something if it stood in the URI itself. -/
theorem takes_push (h1 : ch ≠ '/') (h2 : ch ≠ '.') : Takes merge st seg ch (.next (u.push ch .usual)) := by
  unfold Takes
  rw [if_neg h1]
  exact ⟨_, rfl, Rep.push hout hst hseg h1 .usual (stateOf_append h2)⟩

omit hout hst hseg

/-! ## §2 Escapes -/

theorem shift_four : ∀ x : UInt8, x <<< 4 = 16 * x := by
  apply forall_byte
  decide +kernel

theorem toNat_escaped (hx : x.toNat < 16) (hy : y.toNat < 16) : (16 * x + y).toNat = 16 * x.toNat + y.toNat := by
  rw [UInt8.toNat_add, UInt8.toNat_mul, show (16 : UInt8).toNat = 16 from rfl]
  omega

/-- The two low digits tell the bytes apart that the two branches look for. -/
theorem escaped_ne {n : Nat} (hx : x.toNat < 16) (hy : y.toNat < 16) (hn : n < 256)
    (h : n % 16 ≠ y.toNat) : 16 * x + y ≠ UInt8.ofNat n := by
  intro he
  have := congrArg UInt8.toNat he
  rw [toNat_escaped hx hy, UInt8.toNat_ofNat_of_lt' hn] at this
  omega

theorem takes_escape {a b : UInt8} (hout : u.out = absolute st seg)
    (hst : ∀ s ∈ st, slash ∉ s) (hseg : slash ∉ seg) (hx : hexValue a = some x)
    (hv : escaped a b = some v) :
    Takes merge st seg v (swQuotedSecond merge (stateOf seg) x b u) := by
  have hx16 := hexValue_lt hx
  rw [escaped, hx, bind_some] at hv
  obtain ⟨y, hy, hv⟩ := bind_eq_some_iff.mp hv
  have hy16 := hexValue_lt hy
  split_ifs at hv with hnul
  cases hv
  rw [hexValue_eq] at hy
  unfold swQuotedSecond
  rw [shift_four]
  split_ifs at hy ⊢ with hd hl
  · cases hy
    have hlow := digit_lt b hd
    unfold secondDigit
    rw [if_neg hnul]
    split_ifs with hc
    · refine takes_push hout hst hseg ?_ ?_ <;> rcases hc with hc | hc <;> rw [hc] <;> decide
    · rw [not_or] at hc
      exact takes_swPlain hout hst hseg hc.1 (escaped_ne (n := 63) hx16 hy16 (by decide) (by omega)) hc.2
  cases hy
  have hlow := letter_bounds b hl
  unfold secondLetter
  split_ifs with hc
  · refine takes_push hout hst hseg ?_ ?_ <;> rw [hc] <;> decide
  · exact takes_swPlain hout hst hseg (escaped_ne (n := 37) hx16 hy16 (by decide) (by omega)) hc
      (escaped_ne (n := 35) hx16 hy16 (by decide) (by omega))

theorem invalid_escape (merge : Bool) {a b : UInt8} (s : Plain) (hx : hexValue a = some x)
    (hv : escaped a b = none) : ∃ u', swQuotedSecond merge s x b u = .exit .invalidRequest u' := by
  have hx16 := hexValue_lt hx
  rw [escaped, hx, bind_some] at hv
  unfold swQuotedSecond
  rw [shift_four]
  cases hy : hexValue b with
  | none =>
    rw [hexValue_eq] at hy
    split_ifs at hy with hd hl
    rw [if_neg hd, if_neg hl]
    exact ⟨u, rfl⟩
  | some y =>
    have hy16 := hexValue_lt hy
    rw [hy, bind_some] at hv
    split_ifs at hv with hnul
    rw [hexValue_eq] at hy
    split_ifs at hy ⊢ with hd hl
    · cases hy
      unfold secondDigit
      rw [hnul]
      exact ⟨u, rfl⟩
    -- a letter does not make a NUL
    cases hy
    have hlow := letter_bounds b hl
    exact absurd hnul (escaped_ne (n := 0) hx16 hy16 (by decide) (by omega))

theorem swQuoted_eq (s : Plain) : swQuoted s ch u =
    match hexValue ch with
    | some x => .next { u with quotedUri := true, state := .quotedSecond s x }
    | none => .exit .invalidRequest { u with quotedUri := true } := by
  rw [hexValue_eq]
  unfold swQuoted
  split_ifs <;> rfl

/-! ## §3 The loop -/

/-- The bytes that the loop gives to the machine. An escape that the end of the
URI cuts short gives none. -/
def decoded : Bytes → Option Bytes
  | [] => some []
  | c :: rest =>
    if endsPath c then some []
    else if c = '%' then
      match rest with
      | [] => some []
      | [a] => (hexValue a).map fun _ => []
      | a :: b :: rest => (escaped a b).bind fun v => (decoded rest).map (v :: ·)
    else (decoded rest).map (c :: ·)

theorem decoded_ends (rest : Bytes) (h : endsPath c) : decoded (c :: rest) = some [] := by
  unfold decoded
  exact if_pos h

theorem decoded_byte (rest : Bytes) (h : ¬ endsPath c) (h' : c ≠ '%') :
    decoded (c :: rest) = (decoded rest).map (c :: ·) := by
  rw [decoded.eq_def]
  dsimp only
  rw [if_neg h, if_neg h']

theorem decoded_escape (a b : UInt8) (rest : Bytes) :
    decoded ('%' :: a :: b :: rest) = (escaped a b).bind fun v => (decoded rest).map (v :: ·) := rfl

/-- What the loop has written where it ends. -/
def written : Scan Scratch Exit → Option Bytes
  | .again u => some u.out
  | .found .invalidRequest _ _ => none
  | .found .args u _ => some u.out
  | .found .done u _ => some u.out

def continueWith (merge : Bool) (p : Nat) (rest : Bytes) : Move → Scan Scratch Exit
  | .next u => run merge (p + 1) u rest
  | .exit e u => .found e u p

theorem run_cons (p : Nat) (rest : Bytes) :
    run merge p u (ch :: rest) = continueWith merge p rest (step merge ch u) := by
  rw [run, scanFrom]
  cases step merge ch u <;> rfl

/-- What the machine makes of the bytes it is given. -/
def placed (merge : Bool) (st : List Bytes) (seg : Bytes) (path : Bytes) : Option Bytes :=
  (readSegments slash (place merge) st seg path).map fun x => absolute x.1 x.2

theorem written_takes {t : Move} {p : Nat} {rest : Bytes} (h : Takes merge st seg v t)
    (ih : ∀ {u st seg}, Rep u st seg → written (run merge (p + 1) u rest) = (decoded rest).bind (placed merge st seg)) :
    written (continueWith merge p rest t) = ((decoded rest).map (v :: ·)).bind (placed merge st seg) := by
  rw [bind_map]
  unfold Takes at h
  split_ifs at h with hv
  · cases hp : place merge st seg with rw [hp] at h
    | none =>
      obtain ⟨u', rfl⟩ := h
      show none = _
      cases decoded rest with
      | none => rfl
      | some d => simp [placed, readSegments, hv, hp]
    | some st' =>
      obtain ⟨u', rfl, hrep⟩ := h
      rw [continueWith, ih hrep]
      congr 1
      funext d
      simp [placed, readSegments, hv, hp]
  · obtain ⟨u', rfl, hrep⟩ := h
    rw [continueWith, ih hrep]
    congr 1
    funext d
    simp [placed, readSegments, hv]

theorem step_endsPath (merge : Bool) (hs : ∃ s, u.state = .plain s) (h : endsPath ch) :
    step merge ch u = .exit .args u ∨ step merge ch u = .exit .done u := by
  obtain ⟨s, hs⟩ := hs
  rw [endsPath, decide_eq_true_eq] at h
  rw [step, hs]
  rcases h with rfl | rfl
  · left
    cases s <;> rfl
  · right
    cases s <;> rfl

theorem step_percent {s : Plain} (hs : u.state = .plain s) :
    step merge '%' u = .next { u with state := .quoted s } := by
  rw [step, hs]
  cases s <;> rfl

/-- What is written is what the machine makes of the decoded path. -/
theorem written_run : ∀ (bytes : Bytes) {p : Nat} {u : Scratch} {st : List Bytes} {seg : Bytes},
    Rep u st seg → written (run merge p u bytes) = (decoded bytes).bind (placed merge st seg)
  | [], p, u, st, seg, h => by
    show some u.out = some (absolute st seg)
    rw [h.out]
  | c :: rest, p, u, st, seg, h => by
    have hnothing : some u.out = (some []).bind (placed merge st seg) := by
      rw [h.out]
      rfl
    rw [run_cons]
    by_cases hend : endsPath c
    · rw [decoded_ends rest hend, ← hnothing]
      rcases step_endsPath merge ⟨_, h.state⟩ hend with hs | hs <;> rw [hs] <;> rfl
    by_cases hperc : c = '%'
    · subst hperc
      rw [step_percent h.state]
      match rest with
      | [] => exact hnothing
      | a :: rest =>
        rw [continueWith, run_cons]
        show written (continueWith merge (p + 1) rest (swQuoted (stateOf seg) a _)) = _
        rw [swQuoted_eq]
        match rest with
        | [] =>
          show _ = ((hexValue a).map fun _ => []).bind (placed merge st seg)
          cases hexValue a with
          | none => rfl
          | some x => exact hnothing
        | b :: rest =>
          rw [decoded_escape]
          cases hx : hexValue a with
          | none =>
            rw [escaped, hx]
            rfl
          | some x =>
            rw [continueWith, run_cons]
            show written (continueWith merge (p + 2) rest (swQuotedSecond merge (stateOf seg) x b _)) = _
            cases hv : escaped a b with
            | none =>
              obtain ⟨u', hu'⟩ := invalid_escape merge (stateOf seg) hx hv
              rw [hu']
              rfl
            | some v =>
              exact written_takes (takes_escape h.out h.placed h.reading hx hv) (written_run rest)
    · rw [decoded_byte rest hend hperc]
      refine written_takes ?_ (written_run rest)
      rw [endsPath, decide_eq_true_eq, not_or] at hend
      rw [step, h.state]
      exact takes_swPlain h.out h.placed h.reading hperc hend.1 hend.2

end

/-! ## §4 The path as a whole -/

theorem foldlM_place (merge : Bool) (segs : List Bytes) (st : List Bytes) : segs.foldlM (place merge) st =
      (if merge then segs.filter (· ≠ []) else segs).foldlM removeTwo st := by
  cases merge with
  | true =>
    induction segs generalizing st with
    | nil => rfl
    | cons seg segs ih =>
      by_cases hnil : seg = []
      · subst hnil
        exact ih st
      have hfilter : (seg :: segs).filter (· ≠ []) = seg :: segs.filter (· ≠ []) :=
        filter_cons_of_pos (by simpa using hnil)
      rw [if_pos rfl, hfilter, foldlM_cons, foldlM_cons, place, if_neg hnil]
      exact congrArg _ (funext ih)
  | false =>
    have hplace : place false = removeTwo := by
      funext st seg
      by_cases hnil : seg = []
      · subst hnil
        rfl
      · exact if_neg hnil
    rw [hplace]
    rfl

/-- What the code makes of a decoded path. -/
def asWritten (mergeSlashes : Bool) (path : Bytes) : Option Bytes :=
  ((segments mergeSlashes path).foldlM removeTwo []).map (absolute · (lastSegment slash path.tail))

theorem placed_eq (merge : Bool) (c : UInt8) (body : Bytes) :
    placed merge [] [] body = asWritten merge (c :: body) := by
  have hread : readSegments slash (place merge) [] [] body = _ := readSegments_eq (not_mem_nil)
  rw [placed, hread, asWritten, segments, tail_cons, nil_append, foldlM_place, Option.map_map]
  cases merge <;> rfl

theorem written_uri (merge : Bool) (p : Nat) (plus quoted : Bool) (rest : Bytes) :
    written (run merge p { plusInUri := plus, quotedUri := quoted } (slash :: rest)) =
      (decoded (slash :: rest)).bind (asWritten merge) := by
  have hrep : Rep { plusInUri := plus, quotedUri := quoted, out := [slash], state := .plain .slash }
      [] [] := ⟨rfl, rfl, by simp, not_mem_nil⟩
  have hdec : decoded (slash :: rest) = (decoded rest).map (slash :: ·) := decoded_byte rest (by decide) (by decide)
  rw [run_cons, hdec, bind_map]
  refine (written_run rest hrep).trans ?_
  congr 1
  funext body
  exact placed_eq merge slash body

/-! ## §5 Against the standard -/

abbrev percent : UInt8 := '%'

/-- The URI has neither `?` nor `#`, and ends inside of an escape that begins
behind `q`. -/
def CutShort (uri q : Bytes) : Prop := (∀ c ∈ uri, ¬ endsPath c) ∧
    (uri = q ++ [percent] ∨ ∃ h, (hexValue h).isSome ∧ uri = q ++ [percent, h])

theorem unescape_byte (rest : Bytes) (h : c ≠ '%') : unescape (c :: rest) = (unescape rest).map (c :: ·) := by
  rw [unescape.eq_def]
  dsimp only
  rw [if_neg h]

theorem unescape_escape (a b : UInt8) (rest : Bytes) :
    unescape ('%' :: a :: b :: rest) = (escaped a b).bind fun v => (unescape rest).map (v :: ·) := rfl

theorem hexValue_not_ends : ∀ ch : UInt8, (hexValue ch).isSome → ¬ endsPath ch := by
  apply forall_byte
  decide +kernel

theorem isSome_of_escaped {a b : UInt8} (h : escaped a b = some v) : (hexValue a).isSome ∧ (hexValue b).isSome := by
  obtain ⟨x, hx, h⟩ := bind_eq_some_iff.mp h
  obtain ⟨y, hy, -⟩ := bind_eq_some_iff.mp h
  exact ⟨isSome_of_eq_some hx, isSome_of_eq_some hy⟩

theorem pathPart_cons (rest : Bytes) (h : ¬ endsPath c) : pathPart (c :: rest) = c :: pathPart rest := by
  rw [pathPart, takeWhile_cons_of_pos (by simpa using h)]
  rfl

theorem pathPart_ends (rest : Bytes) (h : endsPath c) : pathPart (c :: rest) = [] := by
  rw [pathPart, takeWhile_cons_of_neg (by simpa using h)]

theorem unescape_pathPart_escape (a b : UInt8) (rest : Bytes) : unescape (percent :: pathPart (a :: b :: rest)) =
      (escaped a b).bind fun v => (unescape (pathPart rest)).map (v :: ·) := by
  by_cases ha : endsPath a
  · rw [pathPart_ends _ ha, escaped]
    cases hx : hexValue a with
    | none => rfl
    | some x => exact absurd ha (hexValue_not_ends a (isSome_of_eq_some hx))
  rw [pathPart_cons _ ha]
  by_cases hb : endsPath b
  · rw [pathPart_ends _ hb, escaped]
    cases hexValue a with
    | none => rfl
    | some x =>
      cases hy : hexValue b with
      | none => rfl
      | some y => exact absurd hb (hexValue_not_ends b (isSome_of_eq_some hy))
  · rw [pathPart_cons _ hb, unescape_escape]

theorem unescape_pathPart_one (a : UInt8) : unescape (percent :: pathPart [a]) = none := by
  by_cases ha : endsPath a
  · rw [pathPart_ends _ ha]
    rfl
  · rw [pathPart_cons _ ha]
    rfl

theorem CutShort.cons {uri q : Bytes} (hc : ¬ endsPath c) (h : CutShort uri q) : CutShort (c :: uri) (c :: q) := by
  refine ⟨forall_mem_cons.mpr ⟨hc, h.1⟩, ?_⟩
  rcases h.2 with rfl | ⟨x, hx, rfl⟩
  · exact .inl rfl
  · exact .inr ⟨x, hx, rfl⟩

/-- A path that is not cut short is given to the machine as it decodes. -/
theorem decoded_of_whole : ∀ {uri : Bytes}, (∀ q, CutShort uri q → unescape q = none) →
    decoded uri = unescape (pathPart uri)
  | [], _ => rfl
  | c :: rest, h => by
    by_cases hend : endsPath c
    · rw [pathPart_ends rest hend, decoded_ends rest hend]
      rfl
    rw [pathPart_cons rest hend]
    by_cases hperc : c = '%'
    · subst hperc
      match rest, h with
      | [], h => cases h [] ⟨forall_mem_singleton.mpr hend, .inl rfl⟩
      | [a], h =>
        rw [unescape_pathPart_one]
        show (hexValue a).map _ = none
        rw [map_eq_none_iff]
        by_contra hx
        have ha := isSome_iff_ne_none.mpr hx
        cases h [] ⟨forall_mem_cons.mpr ⟨hend, forall_mem_singleton.mpr (hexValue_not_ends a ha)⟩, .inr ⟨a, ha, rfl⟩⟩
      | a :: b :: rest, h =>
        rw [unescape_pathPart_escape, decoded_escape]
        cases hv : escaped a b with
        | none => rfl
        | some v =>
          obtain ⟨ha, hb⟩ := isSome_of_escaped hv
          rw [bind_some, bind_some, decoded_of_whole fun q hq => ?_]
          have hnone := h _ (((hq.cons (hexValue_not_ends b hb)).cons (hexValue_not_ends a ha)).cons hend)
          rwa [unescape_escape, hv, bind_some, map_eq_none_iff] at hnone
    · rw [decoded_byte rest hend hperc, unescape_byte _ hperc, decoded_of_whole fun q hq => ?_]
      have hnone := h _ (hq.cons hend)
      rwa [unescape_byte _ hperc, map_eq_none_iff] at hnone

theorem CutShort.tail {uri q : Bytes} (h : CutShort (c :: uri) (c :: q)) : CutShort uri q := by
  obtain ⟨hends, hcut⟩ := h
  refine ⟨(forall_mem_cons.mp hends).2, ?_⟩
  rcases hcut with h | ⟨x, hx, h⟩
  · exact .inl (cons_injective h)
  · exact .inr ⟨x, hx, cons_injective h⟩

/-- A URI that is cut short does not decode, and what stands before the cut is
given to the machine. -/
theorem decoded_of_cutShort : ∀ {q uri d : Bytes}, CutShort uri q → unescape q = some d →
    decoded uri = some d ∧ unescape (pathPart uri) = none
  | [], uri, d, h, hq => by
    cases hq
    obtain ⟨hends, rfl | ⟨x, hx, rfl⟩⟩ := h
    · exact ⟨rfl, rfl⟩
    refine ⟨?_, ?_⟩
    · obtain ⟨y, hy⟩ := isSome_iff_exists.mp hx
      show (hexValue x).map _ = some []
      rw [hy]
      rfl
    · exact (congrArg unescape (pathPart_cons [x] (hends percent mem_cons_self))).trans (unescape_pathPart_one x)
  | c :: q, uri, d, h, hq => by
    obtain ⟨uri, rfl⟩ : ∃ uri', uri = c :: uri' := by
      obtain ⟨-, rfl | ⟨x, -, rfl⟩⟩ := h <;> exact ⟨_, rfl⟩
    have hend := h.1 c mem_cons_self
    rw [pathPart_cons _ hend]
    by_cases hperc : c = '%'
    · subst hperc
      match q, h, hq with
      | a :: b :: q, h, hq =>
        rw [unescape_escape] at hq
        obtain ⟨v, hv, hq⟩ := bind_eq_some_iff.mp hq
        obtain ⟨d', hd', rfl⟩ := map_eq_some_iff.mp hq
        obtain ⟨uri, rfl⟩ : ∃ uri', uri = a :: b :: uri' := by
          obtain ⟨-, heq | ⟨x, -, heq⟩⟩ := h <;> exact ⟨_, cons_injective heq⟩
        obtain ⟨hdec, hune⟩ := decoded_of_cutShort h.tail.tail.tail hd'
        rw [decoded_escape, unescape_pathPart_escape, hv, bind_some, bind_some, hdec, hune]
        exact ⟨rfl, rfl⟩
    · rw [unescape_byte _ hperc] at hq
      obtain ⟨d', hd', rfl⟩ := map_eq_some_iff.mp hq
      obtain ⟨hdec, hune⟩ := decoded_of_cutShort h.tail hd'
      rw [decoded_byte _ hend hperc, unescape_byte _ hperc, hdec, hune]
      exact ⟨rfl, rfl⟩

/-- On a path that decodes, code and standard agree: both refuse it, or the last
segment is not a dot segment and no empty segment is taken away. -/
def SegmentsRight (mergeSlashes : Bool) (path : Bytes) : Prop :=
  let standard := (segments mergeSlashes path).foldlM removeDot []
  if lastSegment slash path.tail = dot ∨ lastSegment slash path.tail = dotDot then
    standard = none ∨ (lastSegment slash path.tail = dotDot ∧ standard = some [] ∧ EmptyPop [] (segments mergeSlashes path))
  else standard = none ∨ ¬ EmptyPop [] (segments mergeSlashes path)

section
variable {merge : Bool} {path : Bytes} {a b : List Bytes}

theorem noSlash_removeTwo (h : (segments merge path).foldlM removeTwo [] = some a) : ∀ s ∈ a, slash ∉ s := by
  intro s hs
  rcases mem_foldlM_removeTwo h s hs with hs | hs
  · cases hs
  · exact not_mem_segments hs

/-- The last segment is not a dot segment: the same segments have to be left. -/
theorem asWritten_eq_iff_plain
    (hlast : ¬ (lastSegment slash path.tail = dot ∨ lastSegment slash path.tail = dotDot)) :
    asWritten merge path = normalisePath merge path ↔
      (segments merge path).foldlM removeTwo [] = (segments merge path).foldlM removeDot [] := by
  have hnorm : normalisePath merge path =
      ((segments merge path).foldlM removeDot []).map (absolute · (lastSegment slash path.tail)) := by
    rw [normalisePath, map_eq_bind]
    congr 1
    funext st
    exact if_neg hlast
  rw [asWritten, hnorm]
  constructor
  · intro h
    cases hA : (segments merge path).foldlM removeTwo [] with
    | none =>
      rw [hA, map_none, eq_comm, map_eq_none_iff] at h
      exact h.symm
    | some a =>
      rw [hA, map_some, eq_comm] at h
      obtain ⟨b, hb, heq⟩ := map_eq_some_iff.mp h
      have hplain := foldlM_removeDot_plain (by simp) (fun _ => not_mem_segments) hb
      have := (joinSegments_inj (fun s hs => (hplain s hs).2.2) (noSlash_removeTwo hA) (not_mem_lastSegment _)
        (not_mem_lastSegment _) (cons_injective heq)).1
      rw [hb, this]
  · intro h
    rw [h]

/-- The last segment is a dot segment: it is never removed, so that both have to
refuse. -/
theorem asWritten_eq_iff_dots (hlast : lastSegment slash path.tail = dot ∨ lastSegment slash path.tail = dotDot) :
    asWritten merge path = normalisePath merge path ↔
      (segments merge path).foldlM removeTwo [] = none ∧ normalisePath merge path = none := by
  constructor
  · intro h
    cases hA : (segments merge path).foldlM removeTwo [] with
    | none =>
      rw [asWritten, hA] at h
      exact ⟨rfl, h.symm⟩
    | some a =>
      exfalso
      rw [asWritten, hA, map_some, eq_comm] at h
      obtain ⟨st, hst, h⟩ := bind_eq_some_iff.mp h
      rw [closePath, if_pos hlast] at h
      obtain ⟨b, hb, heq⟩ := map_eq_some_iff.mp h
      have hplain := removeDot_plain (foldlM_removeDot_plain (by simp) (fun _ => not_mem_segments) hst)
        (not_mem_lastSegment _) hb
      have hnil := (joinSegments_inj (fun s hs => (hplain s hs).2.2) (noSlash_removeTwo hA)
        not_mem_nil (not_mem_lastSegment _) (cons_injective heq)).2
      rw [← hnil] at hlast
      rcases hlast with hlast | hlast <;> cases hlast
  · rintro ⟨hA, hN⟩
    rw [asWritten, hA, hN]
    rfl

theorem normalisePath_dot (hlast : lastSegment slash path.tail = dot) :
    normalisePath merge path = none ↔ (segments merge path).foldlM removeDot [] = none := by
  rw [normalisePath, hlast]
  cases (segments merge path).foldlM removeDot [] with
  | none => exact iff_of_true rfl rfl
  | some st => exact iff_of_false (by simp [closePath, removeDot]) (by simp)

theorem normalisePath_dotDot (hlast : lastSegment slash path.tail = dotDot) :
    normalisePath merge path = none ↔ (segments merge path).foldlM removeDot [] = none ∨
      (segments merge path).foldlM removeDot [] = some [] := by
  rw [normalisePath, hlast]
  cases (segments merge path).foldlM removeDot [] with
  | none => exact iff_of_true rfl (.inl rfl)
  | some st =>
    cases st with
    | nil => exact iff_of_true rfl (.inr rfl)
    | cons s st =>
      refine iff_of_false ?_ (by simp)
      intro h
      cases h

theorem asWritten_eq_iff : asWritten merge path = normalisePath merge path ↔ SegmentsRight merge path := by
  unfold SegmentsRight
  split_ifs with hlast
  · rw [asWritten_eq_iff_dots hlast]
    constructor
    · rintro ⟨hA, hN⟩
      by_cases hB : (segments merge path).foldlM removeDot [] = none
      · exact .inl hB
      rcases hlast with hlast | hlast
      · exact absurd ((normalisePath_dot hlast).mp hN) hB
      have hroot := ((normalisePath_dotDot hlast).mp hN).resolve_left hB
      refine .inr ⟨hlast, hroot, ?_⟩
      by_contra hpop
      rw [foldlM_removeTwo_eq hpop, hroot] at hA
      cases hA
    · rintro (hB | ⟨hdd, hroot, hpop⟩)
      · refine ⟨foldlM_removeTwo_none hB, ?_⟩
        rw [normalisePath, hB]
        rfl
      · refine ⟨?_, (normalisePath_dotDot hdd).mpr (.inr hroot)⟩
        have hlow := foldlM_lower_of_emptyPop hpop
        rw [hroot] at hlow
        cases hA : (segments merge path).foldlM removeTwo [] with
        | none => rfl
        | some a =>
          rw [hA] at hlow
          exact absurd hlow (Nat.not_lt_zero _)
  · rw [asWritten_eq_iff_plain hlast]
    exact foldlM_removeTwo_eq_iff

end

/-- When the URI comes out as the standard wants it, or is refused where it has to
be: what is decoded has to be right, and where an escape is cut short, the
segments before it have to be refused for climbing above the root. -/
def UriRight (mergeSlashes : Bool) (uri : Bytes) : Prop :=
  (∀ path, unescape (pathPart uri) = some path → SegmentsRight mergeSlashes path) ∧
    ∀ q path, CutShort uri q → unescape q = some path → (segments mergeSlashes path).foldlM removeTwo [] = none

theorem asWritten_decoded_iff (merge : Bool) (uri : Bytes) :
    (decoded uri).bind (asWritten merge) = normalise merge uri ↔ UriRight merge uri := by
  unfold normalise UriRight
  by_cases hwhole : ∀ q, CutShort uri q → unescape q = none
  · rw [decoded_of_whole hwhole, and_iff_left fun q path hc hq => by rw [hwhole q hc] at hq; cases hq]
    cases unescape (pathPart uri) with
    | none => simp
    | some path => simp [asWritten_eq_iff]
  obtain ⟨q, hq⟩ := not_forall.mp hwhole
  obtain ⟨hc, hne⟩ := Classical.not_imp.mp hq
  obtain ⟨path, hpath⟩ := ne_none_iff_exists'.mp hne
  obtain ⟨hdec, hune⟩ := decoded_of_cutShort hc hpath
  rw [hune, bind_none, and_iff_right nofun]
  constructor
  · intro h q' path' hc' hq'
    rw [(decoded_of_cutShort hc' hq').1, bind_some, asWritten, map_eq_none_iff] at h
    exact h
  · intro h
    rw [hdec, bind_some, asWritten, h q path hc hpath]
    rfl

theorem parseComplexUri_uri (merge : Bool) (r : UriRequest) : (parseComplexUri merge r).map (·.strings.uri) =
      written (run merge r.start { plusInUri := r.plusInUri, quotedUri := r.quotedUri }
        (slice r.buf r.start r.finish)) := by
  unfold parseComplexUri
  dsimp only
  cases run merge r.start { plusInUri := r.plusInUri, quotedUri := r.quotedUri } (slice r.buf r.start r.finish) with
  | again u => rfl
  | found e u p =>
    cases e with
    | args =>
      unfold closeArgs
      dsimp only
      split_ifs <;> rfl
    | done | invalidRequest => rfl

end ComplexUri

/-- The URI of an accepted line. -/
def uriOf (r : UriRequest) : Bytes := slice r.buf r.start r.finish

/-- `ngx_http_parse_complex_uri` accepts the URIs that `normalise` accepts and gives
what it gives, so that the path starts with a slash and has no dot segment. -/
def Normalised (mergeSlashes : Bool) (r : UriRequest) : Prop :=
  (parseComplexUri mergeSlashes r).map (·.strings.uri) = normalise mergeSlashes (uriOf r) ∧
    ∀ s, parseComplexUri mergeSlashes r = some s →
      ∃ segs, s.strings.uri = slash :: segs ∧ ∀ seg ∈ segs.splitOn slash, seg ≠ dot ∧ seg ≠ dotDot

theorem uriOf_afterLine {buf : Bytes} {chunks : List Bytes} (hok : (feedRequestLine {} buf chunks).rc = .ok) :
    ∃ rest, uriOf (afterLine buf chunks) = slash :: rest := by
  obtain ⟨us, ue, hus, hue, hu, -⟩ := afterLine_spec true hok
  obtain ⟨-, -, -, hlt, hslash, -⟩ := hu
  have hstart : (afterLine buf chunks).start = us := by rw [UriRequest.start, hus]; rfl
  have hfin : (afterLine buf chunks).finish = ue := by rw [UriRequest.finish, hue]; rfl
  have hone : slice (buf ++ chunks.flatten) us (us + 1) = [slash] := by
    rw [slice_succ hslash le_rfl, slice_self]
    rfl
  refine ⟨slice (buf ++ chunks.flatten) (us + 1) ue, ?_⟩
  rw [uriOf, hstart, hfin]
  show slice (buf ++ chunks.flatten) us ue = _
  rw [slice_trans (Nat.le_succ us) hlt, hone]
  rfl

/-- For every URI of an accepted line. -/
theorem complex_uri_normalised_iff (buf : Bytes) (chunks : List Bytes) (mergeSlashes : Bool)
    (hok : (feedRequestLine {} buf chunks).rc = .ok) :
    Normalised mergeSlashes (afterLine buf chunks) ↔ ComplexUri.UriRight mergeSlashes (uriOf (afterLine buf chunks)) := by
  obtain ⟨rest, huri⟩ := uriOf_afterLine hok
  have heq : (parseComplexUri mergeSlashes (afterLine buf chunks)).map (·.strings.uri) =
      (ComplexUri.decoded (uriOf (afterLine buf chunks))).bind (ComplexUri.asWritten mergeSlashes) := by
    rw [ComplexUri.parseComplexUri_uri, ← uriOf, huri]
    exact ComplexUri.written_uri ..
  rw [← ComplexUri.asWritten_decoded_iff, ← heq]
  constructor
  · exact fun h => h.1
  · intro h
    refine ⟨h, fun s hs => ?_⟩
    have hnormal : normalise mergeSlashes (uriOf (afterLine buf chunks)) = some s.strings.uri := by
      rw [← h, hs]
      rfl
    exact normalise_clean hnormal

/-- `GET` and a URI, as it is written in HTTP/0.9. -/
def getUri (uri : List Char) : List Bytes := [text ['G', 'E', 'T', ' '] ++ text uri ++ [LF]]

/-- A line to which it applies. -/
theorem complex_uri_normalised_iff_dots :
    (feedRequestLine {} [] (getUri ['/', 'a', '/', '.', '.', '/', 'b'])).rc = .ok ∧
    (Normalised true (afterLine [] (getUri ['/', 'a', '/', '.', '.', '/', 'b'])) ↔
      ComplexUri.UriRight true (uriOf (afterLine [] (getUri ['/', 'a', '/', '.', '.', '/', 'b'])))) :=
  ⟨by decide, complex_uri_normalised_iff [] _ true (by decide)⟩

/-- A dot segment at the end, an escape at the end, and a `..` behind an empty
segment: each of these lines is accepted with a flag raised. -/
theorem complex_uri_not_normalised : ((feedRequestLine {} [] (getUri ['/', 'a', '/', '.', '.'])).rc = .ok ∧
      (afterLine [] (getUri ['/', 'a', '/', '.', '.'])).complexUri = true ∧
      (parseComplexUri true (afterLine [] (getUri ['/', 'a', '/', '.', '.']))).map (·.strings.uri) =
        some (text ['/', 'a', '/', '.', '.']) ∧
      normalise true (text ['/', 'a', '/', '.', '.']) = some (text ['/'])) ∧
    ((feedRequestLine {} [] (getUri ['/', 'a', '%'])).rc = .ok ∧ (afterLine [] (getUri ['/', 'a', '%'])).quotedUri = true ∧
      (parseComplexUri true (afterLine [] (getUri ['/', 'a', '%']))).map (·.strings.uri) = some (text ['/', 'a']) ∧
      normalise true (text ['/', 'a', '%']) = none) ∧
    ((feedRequestLine {} [] (getUri ['/', 'a', '/', '/', '.', '.', '/', 'b'])).rc = .ok ∧
      (afterLine [] (getUri ['/', 'a', '/', '/', '.', '.', '/', 'b'])).complexUri = true ∧
      (parseComplexUri false (afterLine [] (getUri ['/', 'a', '/', '/', '.', '.', '/', 'b']))).map
        (·.strings.uri) = some (text ['/', 'b']) ∧
      normalise false (text ['/', 'a', '/', '/', '.', '.', '/', 'b']) = some (text ['/', 'a', '/', 'b'])) := by
  decide

end GokuStudio.Nginx

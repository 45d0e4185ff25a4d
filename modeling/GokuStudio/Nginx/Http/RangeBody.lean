import GokuStudio.Nginx.Http.RangeFilter

/-!
# The bytes of an answer with ranges

`Holds b w` says that a buffer stands for the bytes `w`, in memory and in the file
alike, and `Carries` says so of a chain. The range filters work on positions only; what
they make of the bytes follows from what a part of a window holds (`Window.part`).

The answer is always the right one. Its announced length is too, unless the whole of a
multipart answer is longer than an `off_t` can say.
-/

namespace GokuStudio.Nginx

open Lib List

/-! ## §1 Windows -/

theorem slice_eq (w : Bytes) (i j : Nat) : slice w i j = (w.drop i).take (j - i) := drop_take

theorem slice_append_eq (w1 w2 : Bytes) (i j : Nat) :
    slice (w1 ++ w2) i j = slice w1 i j ++ slice w2 (i - w1.length) (j - w1.length) := by
  rw [slice, slice, slice, take_append, drop_append, length_take]
  by_cases h : j ≤ w1.length
  · have hz : j - w1.length = 0 := by omega
    rw [hz, take_zero, drop_nil, drop_nil]
  · rw [Nat.min_eq_right (by omega)]

variable {w : Bytes}

theorem slice_of_le {i j : Nat} (h : min j w.length ≤ i) : slice w i j = [] := by
  rw [slice]
  apply drop_eq_nil_of_le
  rw [length_take]
  exact h

variable {m n L : Nat}

theorem slice_slice {i j : Nat} (h : i + n ≤ j) : slice (slice w i j) m n = slice w (i + m) (i + n) := by
  rw [slice_eq, slice_eq, slice_eq, drop_take, drop_drop, take_take, Nat.min_eq_left (by omega), Nat.add_sub_add_left]

theorem slice_length_le {i j : Nat} (h : w.length ≤ j) : slice w i j = slice w i w.length := by
  rw [slice, slice, take_of_length_le h, take_length]

/-- The bytes of `store` from `i` up to `j` are `w`. -/
structure Window (store : Bytes) (i j : Nat) (w : Bytes) : Prop where
  le : i ≤ j
  bound : j ≤ store.length
  bytes : slice store i j = w

namespace Window
variable {store : Bytes} {i j : Nat}

theorem length (h : Window store i j w) : w.length = j - i := by
  rw [← h.bytes, length_slice h.bound]

theorem whole (w : Bytes) : Window w 0 w.length w := ⟨Nat.zero_le _, le_rfl, by rw [slice, take_length, drop_zero]⟩

/-- A part of a window. -/
theorem part (h : Window store i j w) (hmn : m ≤ n) (hn : n ≤ w.length) :
    Window store (i + m) (i + n) (slice w m n) := by
  have hlen := h.length
  have hle := h.le
  have hbound := h.bound
  refine ⟨by omega, by omega, ?_⟩
  rw [← h.bytes, slice_slice (by omega)]

theorem last (h : Window store i j w) : j = i + w.length := by
  have hlen := h.length
  have hle := h.le
  omega

end Window

/-! ## §2 Buffers and chains -/

/-- The buffer stands for these bytes, wherever it points. -/
structure Buf.Holds (b : Buf) (w : Bytes) : Prop where
  data : b.inMemory ∨ b.inFile
  mem : b.inMemory → Window b.mem b.pos b.last w
  file : b.inFile → Window b.file b.filePos b.fileLast w

inductive Carries : List Buf → Bytes → Prop where
  | nil : Carries [] []
  | cons {b : Buf} {bs : List Buf} {w w' : Bytes} : b.Holds w → Carries bs w' → Carries (b :: bs) (w ++ w')

variable {bs bs' out : List Buf}

theorem carries_append {w' : Bytes} (h : Carries bs w) (h' : Carries bs' w') : Carries (bs ++ bs') (w ++ w') := by
  induction h with
  | nil => exact h'
  | cons hb _ ih =>
    rw [cons_append, append_assoc]
    exact .cons hb ih

theorem carries_one {b : Buf} (h : b.Holds w) : Carries [b] w := by
  rw [← append_nil w]
  exact .cons h .nil

theorem carries_split : ∀ {w : Bytes}, Carries (bs ++ bs') w →
    ∃ w1 w2, w = w1 ++ w2 ∧ Carries bs w1 ∧ Carries bs' w2 := by
  induction bs with
  | nil =>
    intro w h
    exact ⟨[], w, rfl, .nil, h⟩
  | cons b bs ih =>
    intro w h
    cases h with
    | @cons _ _ w0 w' hb h =>
      obtain ⟨w1, w2, rfl, h1, h2⟩ := ih h
      exact ⟨w0 ++ w1, w2, (append_assoc ..).symm, .cons hb h1, h2⟩

namespace Buf
variable {b : Buf}

theorem Holds.not_special (h : b.Holds w) : b.special = false := by
  rcases h.data with hm | hf
  · simp [special, hm]
  · simp [special, hf]

theorem Holds.size (h : b.Holds w) : b.size = w.length := by
  rw [Buf.size]
  split_ifs with hm
  · rw [(h.mem hm).last]
    omega
  · rw [(h.file (h.data.resolve_left hm)).last]
    omega

theorem holds_ofBytes (w : Bytes) : (ofBytes w).Holds w := ⟨.inl rfl, fun _ => Window.whole w, nofun⟩
theorem holds_last (w : Bytes) : { ofBytes w with lastBuf := true }.Holds w := ⟨.inl rfl, fun _ => Window.whole w, nofun⟩

/-- Positions moved to a part of what a buffer holds. -/
theorem Holds.part (h : b.Holds w) {b' : Buf} (hmn : m ≤ n) (hn : n ≤ w.length)
    (hmem : b'.inMemory = b.inMemory) (hfile : b'.inFile = b.inFile)
    (hm : b.inMemory → b'.mem = b.mem ∧ b'.pos = b.pos + m ∧ b'.last = b.pos + n)
    (hf : b.inFile → b'.file = b.file ∧ b'.filePos = b.filePos + m ∧ b'.fileLast = b.filePos + n) :
    b'.Holds (slice w m n) := by
  rw [← hmem] at hm
  rw [← hfile] at hf
  constructor
  · rw [hmem, hfile]
    exact h.data
  · intro h'
    obtain ⟨hstore, hpos, hlast⟩ := hm h'
    rw [hstore, hpos, hlast]
    exact (h.mem (hmem ▸ h')).part hmn hn
  · intro h'
    obtain ⟨hstore, hpos, hlast⟩ := hf h'
    rw [hstore, hpos, hlast]
    exact (h.file (hfile ▸ h')).part hmn hn

end Buf

namespace RangeFilter

variable {calls : List (List Buf)} {r : HttpRange} {ranges : List HttpRange} {c : Ctx} {boundary first last o : Nat}
  {s : Sent} {p : Part}

/-! ## §3 One range -/

section
variable {b : Buf} (h : b.Holds w)
include h

theorem holds_skip : (skip b).Holds [] := by
  have hpart : (skip b).Holds (slice w w.length w.length) := h.part le_rfl le_rfl rfl rfl
      (fun hm => ⟨rfl, (h.mem hm).last, (h.mem hm).last⟩)
      (fun hf => ⟨rfl, (if_pos hf).trans (h.file hf).last, (h.file hf).last⟩)
  rwa [slice_of_le (by omega)] at hpart

theorem holds_cutStart (hn : n ≤ w.length) : (cutStart b n).Holds (slice w n w.length) :=
  h.part hn le_rfl rfl rfl (fun hm => ⟨rfl, if_pos hm, (h.mem hm).last⟩)
    (fun hf => ⟨rfl, if_pos hf, (h.file hf).last⟩)

theorem holds_cutEnd (hn : n ≤ w.length) : (cutEnd b n).Holds (slice w 0 (w.length - n)) := by
  have hlast : ∀ {i j : Nat}, j = i + w.length → j - n = i + (w.length - n) := by
    intro i j hj
    omega
  exact h.part (Nat.zero_le _) (Nat.sub_le _ _) rfl rfl
    (fun hm => ⟨rfl, rfl, (if_pos hm).trans (hlast (h.mem hm).last)⟩)
    (fun hf => ⟨rfl, rfl, (if_pos hf).trans (hlast (h.file hf).last)⟩)

theorem holds_window (hmn : m ≤ n) (hn : n ≤ w.length) : (window b ⟨m, n⟩).Holds (slice w m n) :=
  h.part hmn hn rfl rfl (fun hm => ⟨rfl, if_pos hm, if_pos hm⟩) (fun hf => ⟨rfl, if_pos hf, if_pos hf⟩)

end

/-- What the loop has done: `o` is the offset it began with, `w` what the chain carried. -/
structure Cut (first last o : Nat) (w : Bytes) (s : Sent) : Prop where
  /-- The loop leaves a chain early only behind the range. -/
  offset : ∃ o' : Nat, s.offset = o' ∧ o' ≤ o + w.length ∧ (o' = o + w.length ∨ last ≤ o')
  out : ∀ out, s.out = some out → Carries out (slice w (first - o) (last - o))
  none : s.out = none → slice w (first - o) (last - o) = [] ∧ Carries s.links []

theorem Cut.sent (h : Cut first last o w s) (hbs : s.out = .none → Carries bs []) :
    Carries (s.out.getD bs) (slice w (first - o) (last - o)) := by
  cases hs : s.out with
  | none =>
    rw [(h.none hs).1]
    exact hbs hs
  | some out => exact h.out out hs

section
variable {w1 w2 : Bytes} {b : Buf}

/-- The range in a buffer, and the range in what follows it. -/
theorem slice_range (first last o : Nat) (w1 w2 : Bytes) : slice (w1 ++ w2) (first - o) (last - o) =
      slice w1 (first - o) (last - o) ++ slice w2 (first - (o + w1.length)) (last - (o + w1.length)) := by
  rw [slice_append_eq, Nat.sub_sub, Nat.sub_sub]

variable (h : Cut first last (o + w1.length) w2 s)
include h

theorem Cut.behind : ∃ o' : Nat, s.offset = o' ∧ o' ≤ o + (w1 ++ w2).length ∧
      (o' = o + (w1 ++ w2).length ∨ last ≤ o') := by
  rw [length_append, ← Nat.add_assoc]
  exact h.offset

theorem cut_skip (hb : b.Holds w1) (hout : last ≤ o ∨ o + w1.length ≤ first) :
    Cut first last o (w1 ++ w2) { s with links := skip b :: s.links } := by
  have hempty : slice w1 (first - o) (last - o) = [] := by
    rcases hout with hle | hle <;> exact slice_of_le (by omega)
  refine ⟨h.behind, ?_, ?_⟩
  · rw [slice_range, hempty]
    exact h.out
  · rw [slice_range, hempty]
    intro hnone
    obtain ⟨hempty2, hlinks⟩ := h.none hnone
    exact ⟨hempty2, .cons (holds_skip hb) hlinks⟩

theorem cut_keep (hb : b.Holds (slice w1 (first - o) (last - o))) : Cut first last o (w1 ++ w2) (s.keep b) := by
  refine ⟨h.behind, ?_, nofun⟩
  rw [slice_range]
  intro out hout
  cases hout
  exact .cons hb (h.sent fun hs => (h.none hs).2)

omit h

/-- The range ends in this buffer. -/
theorem cut_break (hlast : last ≤ o + w1.length) (hb : b.Holds (slice w1 (first - o) (last - o))) :
    Cut first last o (w1 ++ w2) ⟨((o + w1.length : Nat) : Int), some [b], [b]⟩ := by
  refine ⟨⟨o + w1.length, rfl, ?_, .inr hlast⟩, ?_, nofun⟩
  · rw [length_append]
    omega
  · rw [slice_range]
    intro out hout
    cases hout
    rw [slice_of_le (w := w2) (by omega), append_nil]
    exact carries_one hb

variable (hb : b.Holds w1)
include hb

/-- The buffer cut at the beginning of the range. -/
theorem holds_first (hfirst : first < o + w1.length) :
    (if (first : Int) > o then cutStart b ((first : Int) - o).toNat else b).Holds
      (slice w1 (first - o) w1.length) := by
  split_ifs with h
  · have hn : ((first : Int) - o).toNat = first - o := by omega
    rw [hn]
    exact holds_cutStart hb (by omega)
  · have hn : first - o = 0 := by omega
    rw [hn, slice, take_length, drop_zero]
    exact hb

/-- A buffer in which the range ends. -/
theorem holds_ended (hlt : first < last) (ho : o < last)
    (hfirst : first < o + w1.length) (hlast : last ≤ o + w1.length) :
    (cutEnd (if (first : Int) > o then cutStart b ((first : Int) - o).toNat else b)
      (((o + w1.length : Nat) : Int) - last).toNat).Holds (slice w1 (first - o) (last - o)) := by
  have hlen : (slice w1 (first - o) w1.length).length = w1.length - (first - o) := length_slice le_rfl
  have hn : (((o + w1.length : Nat) : Int) - last).toNat = o + w1.length - last := by omega
  have hcut := holds_cutEnd (holds_first hb hfirst) (n := o + w1.length - last) (by omega)
  rw [hlen, slice_slice (by omega), Nat.add_zero,
    show first - o + (w1.length - (first - o) - (o + w1.length - last)) = last - o by omega] at hcut
  rw [hn]
  exact hcut

end

theorem singlepartLoop_cut (hlt : first < last) : ∀ {o : Nat} {w : Bytes}, Carries bs w → o + w.length < 2 ^ 63 →
      Cut first last o w (singlepartLoop ⟨first, last⟩ o bs) := by
  induction bs with
  | nil =>
    intro o w h _
    cases h
    exact ⟨⟨o, rfl, le_rfl, .inl rfl⟩, nofun, fun _ => ⟨by simp [slice], .nil⟩⟩
  | cons b bs ih =>
    intro o w h hfits
    cases h with
    | @cons _ _ w1 w2 hb hbs =>
      rw [length_append] at hfits
      have hrest := ih (o := o + w1.length) hbs (by omega)
      have hend : offT (o + b.size) = ((o + w1.length : Nat) : Int) := by
        rw [hb.size, offT_of_lt (by omega) (by omega)]
        omega
      rw [singlepartLoop]
      dsimp only
      rw [hend, hb.not_special, if_neg Bool.false_ne_true]
      split
      · rename_i hout
        exact cut_skip hrest hb (by omega)
      rename_i hin
      split
      · exact cut_break (by omega) (holds_ended hb hlt (by omega) (by omega) (by omega))
      -- a buffer that the range reaches beyond
      · refine cut_keep hrest ?_
        rw [slice_length_le (by omega)]
        exact holds_first hb (by omega)

theorem bodyFilter_single (h : c.ranges = [p]) (chain : List Buf) :
    bodyFilter c chain = some (singlepartBody c p.range chain) := by
  cases chain with
  | nil => rfl
  | cons b rest => rw [bodyFilter, h]

/-- The calls for one range: each goes on where the one before has stopped. -/
theorem singlepart_calls (hlt : first < last) (hp : p.range = ⟨first, last⟩) :
    ∀ {c : Ctx} {o : Nat} {w : Bytes}, c.ranges = [p] → c.offset = o → Carries calls.flatten w → o + w.length < 2 ^ 63 →
      ∃ out, bodyCalls c calls = some out ∧ Carries out (slice w (first - o) (last - o)) := by
  induction calls with
  | nil =>
    intro c o w _ _ h _
    cases h
    refine ⟨[], rfl, ?_⟩
    rw [slice_of_le (by simp)]
    exact .nil
  | cons chain calls ih =>
    intro c o w hranges ho h hfits
    obtain ⟨w1, w2, rfl, h1, h2⟩ := carries_split h
    rw [length_append] at hfits
    have hcut := singlepartLoop_cut hlt (o := o) h1 (by omega)
    obtain ⟨o', ho', hle, hend⟩ := hcut.offset
    -- behind the range it does not matter that the offset has fallen back
    have hrest : slice w2 (first - o') (last - o') = slice w2 (first - (o + w1.length)) (last - (o + w1.length)) := by
      rcases hend with rfl | hend
      · rfl
      · rw [slice_of_le (by omega), slice_of_le (by omega)]
    obtain ⟨outs, houts, hcarries⟩ := ih (c := { c with offset := o' }) hranges rfl h2 (by omega)
    refine ⟨(singlepartLoop ⟨first, last⟩ o chain).out.getD [] ++ outs, ?_, ?_⟩
    · rw [bodyCalls, bodyFilter_single hranges, singlepartBody, hp, ho, ho']
      dsimp only
      rw [Option.bind_eq_bind, Option.bind_some, houts]
      rfl
    · rw [slice_range, ← hrest]
      exact carries_append (hcut.sent fun _ => .nil) hcarries

/-! ## §4 Several ranges -/

/-- A part of a multipart answer, as it should be. -/
def part (h : HeadersOut) (boundary : Nat) (body : Bytes) (r : HttpRange) : Bytes := boundaryHeader h boundary ++
    (dec r.start.toNat ++ text "-".toList ++ dec (r.stop.toNat - 1) ++ text "/".toList ++
      dec body.length ++ crlf ++ crlf ++ slice body r.start.toNat r.stop.toNat)

def lastBoundary (boundary : Nat) : Bytes := crlf ++ text "--".toList ++ boundaryText boundary ++ text "--".toList ++ crlf

/-- The answer: the bytes of a single range, or the parts in the order of the request and
the last boundary. -/
def answer (h : HeadersOut) (boundary : Nat) (body : Bytes) : List HttpRange → Bytes
  | [r] => slice body r.start.toNat r.stop.toNat
  | ranges => ranges.flatMap (part h boundary body) ++ lastBoundary boundary

/-- A range that lies within the body. -/
structure Within (L : Nat) (r : HttpRange) : Prop where
  nonneg : 0 ≤ r.start
  lt : r.start < r.stop
  le : r.stop ≤ L

theorem length_boundaryText (h : boundary < 2 ^ 64) : (boundaryText boundary).length = atomicLen := by
  have hdec : (dec boundary).length ≤ atomicLen := length_dec_le (by decide) (Nat.lt_trans h (by decide))
  rw [boundaryText, length_append, length_replicate]
  omega

/-- The bytes that the last boundary is copied from. -/
theorem take_boundaryHeader (h : HeadersOut) (hb : boundary < 2 ^ 64) :
    (boundaryHeader h boundary).take (4 + atomicLen) = crlf ++ text "--".toList ++ boundaryText boundary := by
  have hlen : (crlf ++ text "--".toList ++ boundaryText boundary).length = 4 + atomicLen := by
    rw [length_append, length_boundaryText hb]
    rfl
  rw [boundaryHeader, append_assoc _ crlf, append_assoc _ (crlf ++ _), ← hlen]
  exact take_left

theorem contentRange_eq {h : HeadersOut} (hL : h.contentLength = L)
    (hr : Within L r) : contentRange h r =
      dec r.start.toNat ++ text "-".toList ++ dec (r.stop.toNat - 1) ++ text "/".toList ++ dec L ++ crlf ++ crlf := by
  obtain ⟨h0, hlt, hle⟩ := hr
  have hstart : r.start = (r.start.toNat : Int) := by omega
  have hstop : r.stop - 1 = ((r.stop.toNat - 1 : Nat) : Int) := by omega
  rw [contentRange, hL, hstop, decInt_natCast, decInt_natCast]
  conv_lhs => rw [hstart, decInt_natCast]

section
variable {h : HeadersOut} {body w1 w2 : Bytes} {b : Buf}

theorem Within.mono {L' : Nat} (hr : Within L r) (hle : L ≤ L') : Within L' r := by
  have hstop := hr.le
  exact ⟨hr.nonneg, hr.lt, by omega⟩

theorem Within.pos (hr : Within L r) : 0 < L := by
  obtain ⟨h0, hlt, hle⟩ := hr
  omega

theorem Within.eq_mk (hr : Within L r) : r = ⟨(r.start.toNat : Int), (r.stop.toNat : Int)⟩ := by
  obtain ⟨h0, hlt, -⟩ := hr
  cases r
  simp only at h0 hlt ⊢
  congr <;> omega

/-- The three buffers of a part. -/
theorem part_carries (hbody : body = w1 ++ w2) (hL : h.contentLength = body.length)
    (hholds : b.Holds w1) (hr : Within w1.length r) :
    Carries [.ofBytes (boundaryHeader h boundary), .ofBytes (contentRange h r), window b r]
      (part h boundary body r) := by
  have hle : w1.length ≤ body.length := by
    rw [hbody, length_append]
    omega
  have hwindow : (window b r).Holds (slice body r.start.toNat r.stop.toNat) := by
    have hr' := hr.eq_mk
    obtain ⟨h0, hlt, hstop⟩ := hr
    rw [hbody, slice_append _ (by omega)]
    have hpart := holds_window hholds (m := r.start.toNat) (n := r.stop.toNat) (by omega) (by omega)
    rwa [← hr'] at hpart
  rw [part, ← contentRange_eq hL (hr.mono hle)]
  exact .cons (Buf.holds_ofBytes _) (.cons (Buf.holds_ofBytes _) (carries_one hwindow))

section
variable (hb : boundary < 2 ^ 64) (hL : h.contentLength = body.length)

include hb hL in
theorem multipartBody_carries (hbody : body = w1 ++ w2) (hholds : b.Holds w1) (hranges : ∀ r ∈ ranges, Within w1.length r) :
    Carries (multipartBody (multipartHeader h boundary ranges).ctx b)
      (ranges.flatMap (part h boundary body) ++ lastBoundary boundary) := by
  rw [multipartBody]
  apply carries_append
  · simp only [multipartHeader, flatMap_map]
    induction ranges with
    | nil => exact .nil
    | cons r ranges ih =>
      rw [flatMap_cons, flatMap_cons]
      apply carries_append
      · exact part_carries hbody hL hholds (hranges r mem_cons_self)
      · exact ih (forall_mem_cons.mp hranges).2
  · simp only [multipartHeader]
    rw [take_boundaryHeader h hb]
    exact carries_one (Buf.holds_last _)

/-! ## §5 The calls for several ranges -/

theorem bodyFilter_multi (hc : c.ranges.length ≠ 1) (hb : b.special = false)
    (rest : List Buf) : bodyFilter c (b :: rest) =
      (testOverlapped c b).map fun offset => ({ c with offset := offset }, multipartBody c b) := by
  rw [bodyFilter, hb]
  split
  · rename_i p hp
    rw [hp] at hc
    exact absurd rfl hc
  · rw [if_neg Bool.false_ne_true]
    cases testOverlapped c b <;> rfl

/-- A call returns, or the answer ends here. -/
theorem bodyCalls_cons {chain : List Buf} :
    bodyCalls c (chain :: calls) = some out ↔ ∃ c' o o', bodyFilter c chain = some (c', o) ∧
      bodyCalls c' calls = some o' ∧ out = o ++ o' := by
  simp only [bodyCalls, Option.bind_eq_bind, Option.bind_eq_some_iff, Option.pure_def, Option.some.injEq, Prod.exists]
  constructor
  · rintro ⟨c', o, hf, o', hr, rfl⟩
    exact ⟨c', o, o', hf, hr, rfl⟩
  · rintro ⟨c', o, o', hf, hr, rfl⟩
    exact ⟨c', o, hf, o', hr, rfl⟩

/-- A second buffer with data is an error. -/
theorem multipart_again : ∀ {c : Ctx} {w : Bytes} {out : List Buf},
    c.ranges.length ≠ 1 → c.offset ≠ 0 → Carries calls.flatten w → bodyCalls c calls = some out →
    out = [] := by
  induction calls with
  | nil =>
    intro c w out _ _ _ h
    cases h
    rfl
  | cons chain calls ih =>
    intro c w out hc ho hcarries h
    obtain ⟨w1, w2, -, h1, h2⟩ := carries_split hcarries
    obtain ⟨c', o, o', hfilter, hcalls, rfl⟩ := bodyCalls_cons.mp h
    cases h1 with
    | nil =>
      cases hfilter
      exact ih hc ho h2 hcalls
    | cons hb _ =>
      rw [bodyFilter_multi hc hb.not_special, testOverlapped, if_pos ho] at hfilter
      cases hfilter

/-- Only the last buffer of an answer says that it is the last. -/
structure Split (calls : List (List Buf)) (body : Bytes) : Prop where
  carries : Carries calls.flatten body
  last : ∀ b ∈ calls.flatten.dropLast, b.lastBuf = false

theorem Split.last_first {rest : List Buf} (hsplit : Split ((b :: rest) :: calls) body) (hlast : b.lastBuf) :
    rest ++ calls.flatten = [] := by
  cases hbs : rest ++ calls.flatten with
  | nil => rfl
  | cons b' bs =>
    have hflat : ((b :: rest) :: calls).flatten = b :: b' :: bs := congrArg (b :: ·) hbs
    have hfalse : b.lastBuf = false := by
      apply hsplit.last b
      rw [hflat]
      exact mem_cons_self
    rw [hfalse] at hlast
    cases hlast

theorem testOverlapped_some {offset : Int} (hb : b.Holds w1) (hfits : w1.length < 2 ^ 63)
    (h : testOverlapped c b = some offset) :
    offset = w1.length ∧ (b.lastBuf ∨ ∀ p ∈ c.ranges, p.range.stop ≤ w1.length) := by
  rw [testOverlapped] at h
  split_ifs at h with ho hlap
  obtain rfl := Option.some.inj h
  refine ⟨hb.size, ?_⟩
  rw [Decidable.not_not] at ho
  cases hlast : b.lastBuf with
  | true => exact .inl rfl
  | false =>
    right
    intro p hp
    by_contra hlt
    apply hlap
    rw [hlast, Bool.not_false, Bool.true_and, any_eq_true]
    refine ⟨p, hp, ?_⟩
    rw [ho, hb.size, offT_of_lt (by omega) (by omega), Bool.or_eq_true]
    right
    rw [decide_eq_true_eq]
    omega

variable (hfits : body.length < 2 ^ 63) (hranges : ∀ r ∈ ranges, Within body.length r)

include hb hL hfits hranges in
/-- The first buffer answers, if it is accepted, and no other one does. -/
theorem multipart_calls (hne : ranges ≠ []) (hone : ranges.length ≠ 1) (hsplit : Split calls body) (hout : bodyCalls (multipartHeader h boundary ranges).ctx calls = some out) :
    Carries out (ranges.flatMap (part h boundary body) ++ lastBoundary boundary) := by
  have hc : (multipartHeader h boundary ranges).ctx.ranges.length ≠ 1 := by
    simpa [multipartHeader] using hone
  obtain ⟨r0, hr0⟩ := exists_mem_of_ne_nil _ hne
  induction calls with
  | nil =>
    -- no bytes at all: then there is no range either
    cases hsplit.carries
    exact absurd (hranges r0 hr0).pos (Nat.lt_irrefl 0)
  | cons chain calls ih =>
    obtain ⟨c', o, o', hfilter, hcalls, rfl⟩ := bodyCalls_cons.mp hout
    cases chain with
    | nil =>
      cases hfilter
      exact ih ⟨hsplit.carries, hsplit.last⟩ hcalls
    | cons b rest =>
      have hcarries : Carries (b :: (rest ++ calls.flatten)) body := hsplit.carries
      cases hcarries with
      | @cons _ _ w1 w2 hholds hrest =>
        rw [length_append] at hfits
        rw [bodyFilter_multi hc hholds.not_special, Option.map_eq_some_iff] at hfilter
        obtain ⟨offset, htest, hmulti⟩ := hfilter
        cases hmulti
        obtain ⟨hoffset, hall⟩ := testOverlapped_some hholds (by omega) htest
        have hwithin : ∀ r ∈ ranges, Within w1.length r := by
          intro r hr
          have hr' := hranges r hr
          rcases hall with hlast | hall
          · have hnone := hsplit.last_first hlast
            rw [hnone] at hrest
            cases hrest
            rwa [append_nil] at hr'
          · refine ⟨hr'.nonneg, hr'.lt, ?_⟩
            exact hall ⟨r, contentRange h r⟩ (mem_map.mpr ⟨r, hr, rfl⟩)
        have hpos : offset ≠ 0 := by
          have := (hwithin r0 hr0).pos
          omega
        obtain ⟨_, w3, -, -, hcarries'⟩ := carries_split hrest
        have hnil : o' = [] := multipart_again (c := { (multipartHeader h boundary ranges).ctx with offset := offset })
            hc hpos hcarries' hcalls
        rw [hnil, append_nil]
        exact multipartBody_carries hb hL rfl hholds hwithin

/-! ## §6 The announced length -/

theorem offT_eq_iff (n : Nat) : offT n = n ↔ n < 2 ^ 63 := by
  constructor
  · intro hn
    have hlt : offT n < (2 ^ 64 + 1) / 2 := Int.bmod_lt (by decide)
    omega
  · intro hn
    exact offT_of_lt (by omega) (by omega)

theorem offT_congr (h : m % 2 ^ 64 = n % 2 ^ 64) : offT m = offT n := by
  have hmod : (m : Int) % ((2 ^ 64 : Nat) : Int) = (n : Int) % ((2 ^ 64 : Nat) : Int) := by omega
  rw [offT, offT, Int.bmod_def, Int.bmod_def, hmod]

include hL

theorem length_part (hr : Within body.length r) : ((part h boundary body r).length : Int) =
      (boundaryHeader h boundary).length + (contentRange h r).length + (r.stop - r.start) := by
  obtain ⟨h0, hlt, hle⟩ := hr
  rw [part, ← contentRange_eq hL ⟨h0, hlt, hle⟩, length_append, length_append, length_slice (by omega)]
  omega

include hfits hranges

/-- The sum that the header filter computes, up to the wrap of a `size_t`. -/
theorem multipartLen_eq {len : Nat} : multipartLen (boundaryHeader h boundary).length len
        (ranges.map fun r => { range := r, contentRange := contentRange h r }) % 2 ^ 64 =
      (len + (ranges.flatMap (part h boundary body)).length) % 2 ^ 64 := by
  induction ranges generalizing len with
  | nil => rfl
  | cons r ranges ih =>
    have hr := hranges r mem_cons_self
    have hlen : ((part h boundary body r).length : Int) = _ := length_part hL hr
    obtain ⟨h0, hlt, hle⟩ := hr
    have hsize : sizeT (r.stop - r.start) = (r.stop - r.start).toNat := by
      rw [sizeT]
      omega
    rw [map_cons, multipartLen, ih (forall_mem_cons.mp hranges).2, flatMap_cons, length_append, hsize, sizeT]
    dsimp only
    omega

include hb

theorem multipart_contentLength : (multipartHeader h boundary ranges).contentLength =
      offT (ranges.flatMap (part h boundary body) ++ lastBoundary boundary).length := by
  have hlast : (lastBoundary boundary).length = 4 + atomicLen + 4 := by
    simp only [lastBoundary, length_append, length_boundaryText hb]
    rfl
  have hheader : (multipartHeader h boundary ranges).contentLength =
      offT (multipartLen (boundaryHeader h boundary).length (4 + atomicLen + 4)
        (ranges.map fun r => { range := r, contentRange := contentRange h r })) := by
    rw [multipartHeader]
  rw [hheader, length_append, hlast, Nat.add_comm _ (4 + atomicLen + 4)]
  exact offT_congr (multipartLen_eq hL hfits hranges)

omit hb hL hfits hranges

/-! ## §7 The answer -/

/-- The answer is always right; its length is announced as an `off_t` has it. -/
structure Right (h : HeadersOut) (boundary : Nat) (body : Bytes) (ranges : List HttpRange)
    (out : List Buf) : Prop where
  carries : Carries out (answer h boundary body ranges)
  length : (header h boundary ranges).contentLength = offT (answer h boundary body ranges).length

variable (hsplit : Split calls body)
include hfits hsplit

theorem singlepart_right (hr : Within body.length r)
    (hout : bodyCalls (header h boundary [r]).ctx calls = some out) :
    Right h boundary body [r] out := by
  have hr' := hr.eq_mk
  obtain ⟨h0, hlt, hle⟩ := hr
  constructor
  · obtain ⟨out', hout', hcarries⟩ := singlepart_calls
      (c := (header h boundary [r]).ctx) (o := 0) (by omega) hr' rfl rfl hsplit.carries (by omega)
    rw [hout] at hout'
    cases hout'
    exact hcarries
  · have hlen : (answer h boundary body [r]).length = r.stop.toNat - r.start.toNat := length_slice (by omega)
    have hsize : r.stop - r.start = ((r.stop.toNat - r.start.toNat : Nat) : Int) := by omega
    rw [hlen, ← hsize]
    rfl

include hb hL hranges

theorem right (hne : ranges ≠ [])
    (hout : bodyCalls (header h boundary ranges).ctx calls = some out) :
    Right h boundary body ranges out := by
  match ranges with
  | [] => exact absurd rfl hne
  | [r] => exact singlepart_right hfits hsplit (hranges r mem_cons_self) hout
  | r1 :: r2 :: rs =>
    exact ⟨multipart_calls hb hL hfits hranges (cons_ne_nil _ _) (by simp) hsplit hout,
      multipart_contentLength hb hL hfits hranges⟩

end
end
end RangeFilter

open RangeFilter

/-- The answer is the one that was asked for, and its length is announced rightly just
if it is an `off_t`. -/
theorem range_answer_iff (h : HeadersOut) (boundary : Nat) (hb : boundary < 2 ^ 64) (body : Bytes)
    (hL : h.contentLength = body.length) (hfits : body.length < 2 ^ 63) (ranges : List HttpRange)
    (hne : ranges ≠ []) (hranges : ∀ r ∈ ranges, Within body.length r) (calls : List (List Buf))
    (hsplit : Split calls body) (out : List Buf)
    (hout : bodyCalls (header h boundary ranges).ctx calls = some out) :
    (Carries out (answer h boundary body ranges) ∧
      (header h boundary ranges).contentLength = (answer h boundary body ranges).length) ↔
    (answer h boundary body ranges).length < 2 ^ 63 := by
  have hright := right hb hL hfits hranges hsplit hne hout
  rw [hright.length, offT_eq_iff]
  exact and_iff_right hright.carries

def tenBytes : Bytes := text "0123456789".toList

/-- The same ten bytes in memory and in a file. -/
def tenBuf : Buf :=
  { inMemory := true, mem := tenBytes, last := 10, inFile := true, file := NUL :: tenBytes, filePos := 1,
    fileLast := 11 }

theorem split_tenBuf : Split [[tenBuf]] tenBytes := by
  have hholds : tenBuf.Holds tenBytes := by
    constructor
    · exact .inl rfl
    · exact fun _ => ⟨by decide, by decide, by decide⟩
    · exact fun _ => ⟨by decide, by decide, by decide⟩
  exact ⟨carries_one hholds, nofun⟩

theorem range_answer_iff_tenBuf : ∃ out,
    bodyCalls (header { contentLength := 10 } 7 [⟨8, 10⟩, ⟨0, 1⟩]).ctx [[tenBuf]] = some out ∧
      Carries out (answer { contentLength := 10 } 7 tenBytes [⟨8, 10⟩, ⟨0, 1⟩]) ∧
      (header { contentLength := 10 } 7 [⟨8, 10⟩, ⟨0, 1⟩]).contentLength =
        (answer { contentLength := 10 } 7 tenBytes [⟨8, 10⟩, ⟨0, 1⟩]).length := by
  have hranges : ∀ r ∈ ([⟨8, 10⟩, ⟨0, 1⟩] : List HttpRange), Within tenBytes.length r := by
    intro r hr
    simp only [mem_cons, not_mem_nil, or_false] at hr
    rcases hr with rfl | rfl <;> exact ⟨by decide, by decide, by decide⟩
  refine ⟨_, rfl, ?_⟩
  exact (range_answer_iff _ 7 (by decide) tenBytes rfl (by decide) _ (cons_ne_nil _ _) hranges _
    split_tenBuf _ rfl).mpr (by decide +kernel)

/-- The longest body there is. -/
def hugeBody : Bytes := List.replicate (2 ^ 63 - 1) NUL

def hugeBuf : Buf := { Buf.ofBytes hugeBody with lastBuf := true }

/-- All of it, in two ranges: with the headers of the parts the answer is too long, and a
negative length is announced. -/
theorem range_answer_length_wrong : (∀ r ∈ ([⟨0, 1⟩, ⟨1, 2 ^ 63 - 1⟩] : List HttpRange), Within hugeBody.length r) ∧
      Split [[hugeBuf]] hugeBody ∧
      (∃ out, bodyCalls (header { contentLength := 2 ^ 63 - 1 } 7 [⟨0, 1⟩, ⟨1, 2 ^ 63 - 1⟩]).ctx
        [[hugeBuf]] = some out) ∧
      (header { contentLength := 2 ^ 63 - 1 } 7 [⟨0, 1⟩, ⟨1, 2 ^ 63 - 1⟩]).contentLength < 0 := by
  have hlen : hugeBody.length = 2 ^ 63 - 1 := length_replicate
  refine ⟨fun r hr => ?_, ⟨carries_one (Buf.holds_last _), nofun⟩, ⟨_, rfl⟩, by decide +kernel⟩
  rw [hlen]
  simp only [mem_cons, not_mem_nil, or_false] at hr
  rcases hr with rfl | rfl <;> exact ⟨by decide, by decide, by decide⟩

end GokuStudio.Nginx

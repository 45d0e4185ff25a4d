import GokuStudio.Nginx.Http.ChunkedSound

/-!
# Bodies that are thrown away (`ngx_http_discard_request_body`)

A body that nobody wants is read all the same, and behind it the next request may
begin. `content_length_n` says how much is asked for. For a chunked body it comes from
the parser, as the length of the shortest word that completes the body (`need`).

An arrival is the number of bytes that have come when `recv` is called. If there are
none, the handler of the next read event goes on with the loop. Failures of the socket
and of the allocator, `Expect` and the timers are left out.
-/

namespace GokuStudio.Nginx

open Lib List

namespace DiscardBody

open ChunkedBody
open Chunked hiding sizeOf

/-! ## §1 The code -/

structure Request where
  chunked : Bool
  contentLengthN : Int
  ctx : Ctx := {}
deriving DecidableEq, Repr

/-- A request, what its header buffer still holds, and what the socket will give. -/
structure Conn where
  req : Request
  headerIn : Bytes
  socket : Bytes
deriving DecidableEq, Repr

/-- With `b->pos`; none is `NGX_HTTP_BAD_REQUEST`. The loop is that of `filterBuf`, which
also collects the data. The subtraction stays within `off_t`. -/
def discardRequestBodyFilter (r : Request) (b : Bytes) : Option (Request × Nat) :=
  if r.chunked then
    match (filterBuf b (b.length + 1) r.ctx 0 []).1 with
    | .done pos => some ({ r with contentLengthN := 0 }, pos)
    | .more c => some ({ r with contentLengthN := c.length, ctx := c }, b.length)
    | _ => none
  else if b.length > r.contentLengthN then some ({ r with contentLengthN := 0 }, r.contentLengthN.toNat)
  else some ({ r with contentLengthN := r.contentLengthN - b.length }, b.length)

/-- What `recv` is asked for; the buffer has 4096 bytes. -/
def Request.size (r : Request) : Nat := (min r.contentLengthN 4096 % 2 ^ 64).toNat

/-- One turn of the loop of `ngx_http_read_discarded_request_body`. -/
def readTurn (s : Conn) (arrived : Nat) : Option Conn :=
  if s.req.contentLengthN = 0 then some s
  else
    let b := s.socket.take (min s.req.size arrived)
    if b = [] then some s
    else (discardRequestBodyFilter s.req b).map fun (r, _) => { s with req := r, socket := s.socket.drop b.length }

def readDiscardedRequestBody (s : Conn) (arrivals : List Nat) : Option Conn := arrivals.foldlM readTurn s

def discardRequestBody (s : Conn) (arrivals : List Nat) : Option Conn :=
  if s.req.contentLengthN ≤ 0 ∧ ¬ s.req.chunked then some s
  else if s.headerIn ≠ [] ∨ s.req.chunked then
    (discardRequestBodyFilter s.req s.headerIn).bind fun (r, pos) =>
      readDiscardedRequestBody { s with req := r, headerIn := s.headerIn.drop pos } arrivals
  else readDiscardedRequestBody s arrivals

/-! ## §2 The shortest word that completes a body -/

def need : Phase → Nat
  | .start => 3
  | .size n | .ext n | .extCr n => if n = 0 then 2 else n + 5
  | .data n => n + 5
  | .afterData | .afterDataCr => 4
  | .trailer | .trailerCr => 1
  | .header | .headerCr => 2

section
variable {s s' : Phase} {c : UInt8} {v o d : Bytes}

/-- A byte brings the end nearer by one at most, and the end of the data by what it puts out. -/
theorem need_of_next (h : bite s c = .next s' o) :
    need s ≤ need s' + 1 ∧ Chunked.sizeOf s ≤ o.length + Chunked.sizeOf s' := by
  have hsize : ∀ n, need (.afterSize n) = if n = 0 then 1 else n + 4 := by
    intro n
    cases n <;> rfl
  have hbyte : ∀ n, need (.afterByte n) = n + 4 ∧ Chunked.sizeOf (.afterByte n) = n := by
    intro n
    cases n <;> exact ⟨rfl, rfl⟩
  cases s <;> simp only [bite, lineEnd, ChunkedBody.lf] at h <;> grind [need, Chunked.sizeOf, sizeOf_afterSize]

theorem need_of_done (h : bite s c = .done) : need s = 1 ∧ Chunked.sizeOf s = 0 := by
  cases s <;> simp only [bite, lineEnd, ChunkedBody.lf] at h <;> grind [need, Chunked.sizeOf]

theorem bounds_of_lang (h : lang s v d) : need s ≤ v.length ∧ Chunked.sizeOf s ≤ d.length := by
  induction v generalizing s d with
  | nil => exact absurd h (lang_nil s d)
  | cons c v ih =>
    rw [length_cons]
    cases hb : bite s c with
    | next s' o =>
      obtain ⟨d', rfl, hl⟩ := (residual.next hb v d).mp h
      obtain ⟨hneed, hsize⟩ := need_of_next hb
      obtain ⟨hv, hd⟩ := ih hl
      rw [length_append]
      omega
    | done =>
      obtain ⟨hneed, hsize⟩ := need_of_done hb
      omega
    | invalid => exact absurd h (residual.invalid hb v d)

theorem carefulByte_of_lang (h : lang s (c :: v) d) (hd : d.length < 2 ^ 62) : CarefulByte s c := by
  cases s with
  | size n =>
    intro x hx
    have hb : bite (.size n) c = .next (.size (16 * n + x.toNat)) [] := by rw [bite, hx]
    obtain ⟨_, rfl, hl⟩ := (residual.next hb v d).mp h
    have hn : 16 * n + x.toNat ≤ d.length := (bounds_of_lang hl).2
    unfold Fits
    omega
  | afterData =>
    obtain ⟨rfl, -⟩ | ⟨rfl, -⟩ | ⟨-, -, hno⟩ := left_lineEnd.mp ((lang_cons .afterData).mp h)
    · exact .inl rfl
    · exact .inr rfl
    · exact hno.elim
  | _ => trivial

theorem careful_of_lang (h : lang s v d) (hd : d.length < 2 ^ 62) (rest : Bytes) : Careful s (v ++ rest) := by
  induction v generalizing s d with
  | nil => exact absurd h (lang_nil s d)
  | cons c v ih =>
    rw [cons_append, Careful]
    refine ⟨carefulByte_of_lang h hd, ?_⟩
    cases hb : bite s c with
    | next s' o =>
      obtain ⟨d', rfl, hl⟩ := (residual.next hb v d).mp h
      rw [length_append] at hd
      exact ih hl (by omega)
    | done | invalid => trivial

end

theorem lengthOf_sim {s : Phase} {c : Ctx} (h : Sim s c) : lengthOf c = need s := by
  unfold Sim enter at h
  split at h
  · next hc =>
    have hstate : stateOf s = .afterData := h.state.symm
    have hs : s = .afterData := by
      cases s with
      | ext n | extCr n => cases n <;> cases hstate
      | afterData => rfl
      | _ => cases hstate
    rw [lengthOf, hc.1, hc.2, hs]
    rfl
  · have hsize := h.size
    have hfits : Chunked.sizeOf s + 5 < 2 ^ 63 := h.fits
    have hoff : ∀ x, 0 ≤ x → x ≤ c.size + 5 → offT x = x := fun x h0 hx => offT_of_lt (by omega) (by omega)
    rw [lengthOf, h.state]
    cases s with
    | ext n | extCr n => cases n <;> grind [stateOf, need, Chunked.sizeOf]
    | _ => grind [stateOf, need, Chunked.sizeOf]

/-- A call that wants more sets `length`. -/
theorem length_of_more {buf out o : Bytes} {c c' : Ctx} {fuel pos : Nat}
    (h : filterBuf buf fuel c pos out = (.more c', o)) : c'.length = lengthOf c' := by
  induction fuel generalizing c pos out with
  | zero => cases h
  | succ fuel ih =>
    rw [filterBuf] at h
    split at h
    · dsimp only at h
      split at h <;> exact ih h
    · cases h
    · next hparse =>
      cases h
      unfold parseChunked atData at hparse
      grind [lengthOf]
    · cases h

/-! ## §3 What is still to come -/

/-- The word `v` completes the body of the request. -/
def Ready (r : Request) (v : Bytes) : Prop :=
  if r.chunked then ∃ s d, Sim s r.ctx ∧ lang s v d ∧ d.length < 2 ^ 62 else r.contentLengthN = v.length

/-- Between two buffers: no more is asked for than the body has left. -/
def Open (r : Request) (v : Bytes) : Prop :=
  (r.contentLengthN = 0 ∧ v = []) ∨ (0 < r.contentLengthN ∧ r.contentLengthN ≤ v.length ∧ Ready r v)

variable {r : Request} {v w b : Bytes}

/-- The body ends in the buffer. -/
theorem filter_end (h : Ready r v) (b : Bytes) : ∃ r' pos,
    discardRequestBodyFilter r (v ++ b) = some (r', pos) ∧ (v ++ b).drop pos = b ∧ r'.contentLengthN = 0 := by
  unfold Ready at h
  unfold discardRequestBodyFilter
  split at h
  · next hchunked =>
    obtain ⟨s, d, hsim, hl, hd⟩ := h
    have heat : eat bite s (v ++ b) = .done d b := (eat_done residual).mpr ⟨v, rfl, hl⟩
    have hagree := filterBuf_whole hsim (careful_of_lang hl hd b)
    rw [heat] at hagree
    generalize filterBuf (v ++ b) _ r.ctx 0 [] = fed at hagree
    obtain ⟨f, out⟩ := fed
    cases f with
    | done pos => exact ⟨_, pos, if_pos hchunked, hagree.2.symm, rfl⟩
    | _ => exact hagree.elim
  · next hchunked =>
    rw [if_neg hchunked, h]
    split_ifs with hlt
    · exact ⟨_, _, rfl, by simp, rfl⟩
    have hb : b = [] := by
      rw [length_append] at hlt
      exact eq_nil_of_length_eq_zero (by omega)
    subst hb
    exact ⟨_, _, rfl, by simp, by simp⟩

/-- The body goes on behind the buffer. -/
theorem filter_within (h : Ready r (b ++ v)) (hv : v ≠ []) :
    ∃ r' pos, discardRequestBodyFilter r b = some (r', pos) ∧ b.drop pos = [] ∧ Open r' v := by
  have hpos : 0 < v.length := length_pos_iff.mpr hv
  unfold Ready at h
  unfold discardRequestBodyFilter
  split at h
  · next hchunked =>
    obtain ⟨s, d, hsim, hl, hd⟩ := h
    have heat : eat bite s (b ++ v) = .done d [] := (eat_done residual).mpr ⟨_, (append_nil _).symm, hl⟩
    have hcare := careful_of_lang hl hd []
    rw [append_nil] at hcare
    have hagree := filterBuf_whole hsim (careful_append hcare).1
    rw [eat_append] at heat
    generalize hfed : filterBuf b _ r.ctx 0 [] = fed at hagree
    obtain ⟨f, out⟩ := fed
    cases he : eat bite s b with
    | more s' d1 =>
      rw [he] at hagree heat
      obtain ⟨d', hd', rfl⟩ := Meal.prepend_eq_done.mp heat
      obtain ⟨u, hu, hl'⟩ := (eat_done residual).mp hd'
      rw [append_nil] at hu
      subst hu
      cases f with
      | more c =>
        have hlen : c.length = need s' := (length_of_more hfed).trans (lengthOf_sim hagree.1)
        have hneed := (bounds_of_lang hl').1
        refine ⟨_, _, if_pos hchunked, by simp, .inr ⟨?_, ?_, ?_⟩⟩
        · rw [hlen]
          cases s' <;> grind [need]
        · show c.length ≤ v.length
          omega
        · rw [length_append] at hd
          unfold Ready
          rw [if_pos hchunked]
          exact ⟨s', d', hagree.1, hl', by omega⟩
      | _ => exact hagree.elim
    | done d1 rest =>
      rw [he] at heat
      injection heat with _ hnil
      exact absurd (append_eq_nil_iff.mp hnil).2 hv
    | invalid =>
      rw [he] at heat
      cases heat
  · next hchunked =>
    rw [length_append] at h
    rw [if_neg hchunked, if_neg (by omega)]
    refine ⟨_, _, rfl, by simp, .inr ?_⟩
    unfold Ready
    rw [if_neg hchunked]
    dsimp only
    omega

/-- A buffer from the socket holds nothing but the body. -/
theorem filter_part (h : Ready r (b ++ v)) :
    ∃ r' pos, discardRequestBodyFilter r b = some (r', pos) ∧ b.drop pos = [] ∧ Open r' v := by
  by_cases hv : v = []
  · subst hv
    rw [append_nil] at h
    obtain ⟨r', pos, hfilter, hdrop, hzero⟩ := filter_end h []
    rw [append_nil] at hfilter hdrop
    exact ⟨r', pos, hfilter, hdrop, .inl ⟨hzero, rfl⟩⟩
  · exact filter_within h hv

theorem Open.size_le (h : Open r v) : r.size ≤ v.length := by
  unfold Request.size
  obtain ⟨hzero, rfl⟩ | ⟨hpos, hle, -⟩ := h <;> omega

/-! ## §4 Reading -/

/-- Of the body `w` and the stream in the two buffers, what has been taken and what is to come. -/
structure Taken (w headerIn socket : Bytes) (s : Conn) (v : Bytes) : Prop where
  parts : ∃ u₁ u₂, headerIn = u₁ ++ s.headerIn ∧ socket = u₂ ++ s.socket ∧ w = u₁ ++ u₂ ++ v
  left : Open s.req v
  ahead : v <+: s.socket

variable {s : Conn} {headerIn socket : Bytes}

theorem readTurn_taken (h : Taken w headerIn socket s v) (n : Nat) :
    ∃ s' v', readTurn s n = some s' ∧ Taken w headerIn socket s' v' ∧ v'.length ≤ v.length - min n 1 := by
  obtain ⟨⟨u1, u2, hheader, hsocket, hw⟩, hopen, y, hy⟩ := h
  have hsize := hopen.size_le
  unfold readTurn
  obtain ⟨hzero, rfl⟩ | ⟨hpos, hle, hready⟩ := hopen
  · exact ⟨s, [], if_pos hzero, ⟨⟨u1, u2, hheader, hsocket, hw⟩, .inl ⟨hzero, rfl⟩, y, hy⟩, Nat.zero_le _⟩
  have hask : min n 1 ≤ min s.req.size n := by
    unfold Request.size
    omega
  have hk : min s.req.size n ≤ v.length := Nat.le_trans (Nat.min_le_left ..) hsize
  generalize min s.req.size n = k at hask hk
  have hsock : s.socket = v.take k ++ (v.drop k ++ y) := by rw [← append_assoc, take_append_drop, hy]
  have hlen : (v.take k).length = k := length_take_of_le hk
  have hdrop : s.socket.drop k = v.drop k ++ y := by rw [hsock, drop_left' hlen]
  rw [if_neg (Int.ne_of_gt hpos), hsock, take_left' hlen, ← hsock]
  dsimp only
  split_ifs with hnil
  · -- nothing has come
    rw [hnil] at hlen
    have hk0 : k = 0 := hlen.symm
    exact ⟨s, v, rfl, ⟨⟨u1, u2, hheader, hsocket, hw⟩, .inr ⟨hpos, hle, hready⟩, y, hy⟩, by omega⟩
  obtain ⟨r', pos, hfilter, -, hopen⟩ := filter_part ((take_append_drop k v).symm ▸ hready)
  refine ⟨{ s with req := r', socket := v.drop k ++ y }, v.drop k, ?_,
    ⟨⟨u1, u2 ++ v.take k, hheader, ?_, ?_⟩, hopen, prefix_append _ _⟩, ?_⟩
  · rw [hfilter, hlen, hdrop]
    rfl
  · rw [hsocket, hsock, append_assoc]
  · rw [hw, append_assoc, append_assoc, append_assoc, take_append_drop]
  · rw [length_drop]
    omega

/-- Every arrival takes something, until the body is complete. -/
theorem read_taken (arrivals : List Nat) (h : Taken w headerIn socket s v) :
    ∃ s' v', readDiscardedRequestBody s arrivals = some s' ∧ Taken w headerIn socket s' v' ∧
      v'.length ≤ v.length - arrivals.countP (0 < ·) := by
  induction arrivals generalizing s v with
  | nil => exact ⟨s, v, rfl, h, le_rfl⟩
  | cons n arrivals ih =>
    obtain ⟨s1, v1, hturn, h1, hle1⟩ := readTurn_taken h n
    obtain ⟨s2, v2, hread, h2, hle2⟩ := ih h1
    refine ⟨s2, v2, ?_, h2, ?_⟩
    · rw [readDiscardedRequestBody, foldlM_cons, hturn]
      exact hread
    · rw [countP_cons]
      split_ifs with hn
      · have hpos : 0 < n := of_decide_eq_true hn
        omega
      · omega

/-- The header buffer holds the body, or all it holds is of the body. -/
theorem filter_header {rest : Bytes} (h : Ready r w) (hstream : headerIn ++ socket = w ++ rest) :
    ∃ r' pos v, discardRequestBodyFilter r headerIn = some (r', pos) ∧ v.length ≤ w.length ∧
      Taken w headerIn socket ⟨r', headerIn.drop pos, socket⟩ v := by
  obtain ⟨v, rfl, rfl⟩ | ⟨b, rfl, rfl⟩ := append_eq_append_iff.mp hstream
  · obtain ⟨r', pos, hfilter, hdrop, hopen⟩ := filter_part h
    exact ⟨r', pos, v, hfilter, by simp, ⟨headerIn, [], by simp [hdrop], rfl, by simp⟩, hopen, prefix_append _ _⟩
  · obtain ⟨r', pos, hfilter, hdrop, hzero⟩ := filter_end h b
    exact ⟨r', pos, [], hfilter, Nat.zero_le _, ⟨w, [], by simp [hdrop], rfl, by simp⟩, .inl ⟨hzero, rfl⟩, nil_prefix⟩

/-- The bodies that a request can have, with what its head says of them. -/
inductive Announced : Request → Bytes → Prop where
  | length {w : Bytes} : Announced ⟨false, w.length, {}⟩ w
  | chunked {w d : Bytes} : Body w d → d.length < 2 ^ 62 → Announced ⟨true, -1, {}⟩ w

theorem Announced.ready (h : Announced r w) : Ready r w := by
  unfold Ready
  cases h with
  | length => exact (if_neg Bool.false_ne_true).mpr rfl
  | chunked hbody hd => exact (if_pos rfl).mpr ⟨.start, _, sim_init, hbody, hd⟩

theorem Open.zero_iff (h : Open r v) : r.contentLengthN = 0 ↔ v = [] := by
  obtain ⟨hzero, rfl⟩ | ⟨hpos, hle, -⟩ := h
  · simp [hzero]
  refine iff_of_false (Int.ne_of_gt hpos) ?_
  rintro rfl
  exact absurd hpos (Int.not_lt.mpr hle)

/-- The bytes `u₁` of the header buffer and `u₂` of the socket have been taken, and they are of the
body; `recv` is asked for no more than the body has left, and each arrival takes some of that. -/
def Exact (w headerIn socket : Bytes) (arrivals : List Nat) (result : Option Conn) : Prop :=
  ∃ s u₁ u₂ v, result = some s ∧ headerIn = u₁ ++ s.headerIn ∧ socket = u₂ ++ s.socket ∧ w = u₁ ++ u₂ ++ v ∧
    s.req.size ≤ v.length ∧ (s.req.contentLengthN = 0 ↔ v = []) ∧ (w.length ≤ arrivals.countP (0 < ·) → v = [])

theorem Taken.exact (h : Taken w headerIn socket s v) (hv : v.length ≤ w.length) (arrivals : List Nat) :
    Exact w headerIn socket arrivals (readDiscardedRequestBody s arrivals) := by
  obtain ⟨s', v', hread, ⟨⟨u1, u2, hheader, hsocket, hw⟩, hopen, -⟩, hle⟩ := read_taken arrivals h
  refine ⟨s', u1, u2, v', hread, hheader, hsocket, hw, hopen.size_le, hopen.zero_iff, ?_⟩
  intro hmany
  exact eq_nil_of_length_eq_zero (by omega)

end DiscardBody

open DiscardBody ChunkedBody

theorem discard_exactly_body {r : Request} {w : Bytes} (h : Announced r w) (headerIn socket rest : Bytes)
    (hstream : headerIn ++ socket = w ++ rest) (arrivals : List Nat) :
    Exact w headerIn socket arrivals (discardRequestBody ⟨r, headerIn, socket⟩ arrivals) := by
  have hready := h.ready
  unfold discardRequestBody
  split_ifs with hnone hheader
  · -- a body without a byte
    cases h with
    | length =>
      obtain rfl : w = [] := eq_nil_of_length_eq_zero (Nat.le_zero.mp (Int.ofNat_le.mp hnone.1))
      exact ⟨_, [], [], [], rfl, rfl, rfl, rfl, Open.size_le (.inl ⟨rfl, rfl⟩), by simp, fun _ => rfl⟩
    | chunked => exact absurd rfl hnone.2
  · obtain ⟨r', pos, v, hfilter, hv, htaken⟩ := filter_header hready hstream
    rw [hfilter]
    exact htaken.exact hv arrivals
  · obtain ⟨hnil, hplain⟩ := not_or.mp hheader
    obtain rfl : headerIn = [] := not_not.mp hnil
    have hlen : r.contentLengthN = w.length := (if_neg hplain).mp hready
    have hpos : 0 < r.contentLengthN := Int.not_le.mp fun hle => hnone ⟨hle, hplain⟩
    have htaken : Taken w [] socket ⟨r, [], socket⟩ w :=
      ⟨⟨[], [], rfl, rfl, rfl⟩, .inr ⟨hpos, Int.le_of_eq hlen, hready⟩, rest, hstream.symm⟩
    exact htaken.exact le_rfl arrivals

/-- A chunk of one byte, cut in two, and the first byte of the next request. -/
def oneByte : Conn := ⟨⟨true, -1, {}⟩, text ['1', '\n'], text ['a', '\n', '0', '\n', '\n', 'G']⟩

theorem discard_exactly_body_oneByte : (discardRequestBody oneByte [2, 0, 9]).map Conn.socket = some (text ['G']) ∧
    Exact (text ['1', '\n', 'a', '\n', '0', '\n', '\n']) oneByte.headerIn oneByte.socket [2, 0, 9]
      (discardRequestBody oneByte [2, 0, 9]) := by
  have hlast : Body (text ['0', '\n', '\n']) [] :=
    @Body.last (text ['0']) [LF] [LF] (by decide) (by decide) (.inl (.inl rfl)) (.last (.inl rfl))
  have hbody : Body (text ['1', '\n', 'a', '\n', '0', '\n', '\n']) (text ['a']) :=
    @Body.chunk (text ['1']) [LF] (text ['a']) [LF] _ _ (by decide) (by decide) (by decide) (.inl (.inl rfl)) (.inl rfl)
      hlast
  refine ⟨by decide +kernel, ?_⟩
  exact discard_exactly_body (.chunked hbody (by decide)) _ _ (text ['G']) (by decide) _

end GokuStudio.Nginx

import GokuStudio.Nginx.Http.RequestLine
import GokuStudio.Nginx.Http.HeaderLine
import GokuStudio.Nginx.Http.StatusLine

/-!
# How the bytes arrive

The three line parsers return the same code and record the same fields however
the bytes are cut into chunks. After an error `b->pos` is where the last call
began, so the position is the same only for a line that was not refused. The
hash of a header's name is not stored by `header_done:` or after an error; without
an upstream nothing has changed it by the time `header_done:` is reached.
-/

namespace GokuStudio.Nginx

open Lib

/-! ## §1 Header lines -/

namespace HeaderLine

/-- The states from which the end of the headers can be reached without an
upstream. No name has been begun in them. -/
def Blank (r : Header) : Prop := r.state = .start ∨ r.state = .ignoreLine ∨ r.state = .headerAlmostDone

/-- What a step that keeps to the blank states leaves alone. -/
def SameName (r r' : Header) : Prop := r'.headerHash = r.headerHash ∧ r'.lowcaseIndex = r.lowcaseIndex

variable {u : Bool} {buf : Bytes} {p : Nat} {ch : UInt8} {r r' r'' : Header}

theorem SameName.trans (h : SameName r r') (h' : SameName r' r'') : SameName r r'' := ⟨h'.1.trans h.1, h'.2.trans h.2⟩

theorem startName_state (h : startName u ch r = .next r') : r'.state = r.state := by
  unfold startName at h
  split at h
  · cases h
    rfl
  split at h
  · cases h
    split <;> rfl
  split at h
  · cases h
  · cases h
    rfl

theorem swStart_next (h : swStart u p ch r = .next r') :
    r'.state = .name ∨ r'.state = .headerAlmostDone ∧ SameName r r' := by
  unfold swStart at h
  split at h
  · cases h
    exact .inr ⟨rfl, rfl, rfl⟩
  split at h
  · cases h
  · exact .inl (startName_state h)

theorem step_upstream : (step u buf p ch r).left.upstream = r.upstream := by
  unfold step
  split
  case h_1 =>
      unfold swStart startName firstNameByte
      split_ifs <;> rfl
  case h_2 =>
      unfold swName nameByte
      split_ifs <;> rfl
  all_goals
    simp only [swSpaceBeforeValue, swValue, swSpaceAfterValue, swIgnoreLine, swAlmostDone, swHeaderAlmostDone]
    split_ifs <;> rfl

/-- Without an upstream a step out of the other states does not lead into the
blank ones. -/
theorem step_blank (hu : r.upstream = false) (h : step u buf p ch r = .next r') (hb : Blank r') :
    Blank r ∧ SameName r r' := by
  unfold step at h
  split at h
  case h_1 hs =>
      obtain hname | ⟨-, hsame⟩ := swStart_next h
      · simp [Blank, hname] at hb
      · exact ⟨.inl hs, hsame⟩
  case h_2 hs =>
      unfold swName nameByte at h
      unfold Blank at hb
      split_ifs at h <;> cases h <;> simp_all
  case h_6 hs =>
      unfold swIgnoreLine at h
      cases h
      exact ⟨.inr (.inl hs), by split <;> exact ⟨rfl, rfl⟩⟩
  case h_8 hs => cases h
  all_goals
    -- the states of the value
    refine absurd hb ?_
    simp only [swSpaceBeforeValue, swValue, swSpaceAfterValue, swAlmostDone] at h
    unfold Blank
    split_ifs at h <;> cases h <;> simp_all

theorem step_headerDone (h : step u buf p ch r = .exit .headerDone r') : Blank r ∧ SameName r r' := by
  unfold step at h
  split at h
  case h_1 hs =>
      unfold swStart startName at h
      split_ifs at h <;> cases h
      exact ⟨.inl hs, rfl, rfl⟩
  case h_2 =>
      unfold swName at h
      split_ifs at h <;> cases h
  case h_8 hs =>
      unfold swHeaderAlmostDone at h
      split_ifs at h <;> cases h
      exact ⟨.inr (.inr hs), rfl, rfl⟩
  all_goals
    simp only [swSpaceBeforeValue, swValue, swSpaceAfterValue, swIgnoreLine, swAlmostDone] at h
    split_ifs at h <;> cases h

/-- Where the headers end, no name has been begun, and so nowhere before. -/
theorem scan_headerDone {k : Header} {e : Exit} {q : Nat} (h : (parser u).scan buf p k (buf.drop p) = .found e r q) :
    r.upstream = k.upstream ∧ (k.upstream = false → e = .headerDone → SameName k r) := by
  refine Resumable.scan_found (I := fun _ s => s.upstream = k.upstream ∧ (k.upstream = false → Blank s → SameName k s))
    (O := fun e s _ => s.upstream = k.upstream ∧ (k.upstream = false → e = .headerDone → SameName k s))
    ?_ ?_ rfl ⟨rfl, fun _ _ => ⟨rfl, rfl⟩⟩ h
  · intro p ch s s' _ hI hstep
    have hup : (Turn.next s' : Move).left.upstream = s.upstream := hstep ▸ step_upstream
    refine ⟨hup.trans hI.1, fun hu hb => ?_⟩
    obtain ⟨hb', hsame⟩ := step_blank (hI.1.trans hu) hstep hb
    exact (hI.2 hu hb').trans hsame
  · intro p ch s e s' _ hI hstep
    have hup : (Turn.exit e s' : Move).left.upstream = s.upstream := hstep ▸ step_upstream
    refine ⟨hup.trans hI.1, ?_⟩
    rintro hu rfl
    obtain ⟨hb, hsame⟩ := step_headerDone hstep
    exact (hI.2 hu hb).trans hsame

end HeaderLine

/-! ## §2 One call, or one after each chunk -/

/-- `ngx_http_parse_request_line` after each chunk that is appended to the buffer,
as long as it returns `NGX_AGAIN`. -/
def feedRequestLine (r : Request) (buf : Bytes) (chunks : List Bytes) : Ret Rc Request :=
  RequestLine.parser.feed r buf buf.length chunks

def feedHeaderLine (r : HeaderLine.Header) (buf : Bytes) (allowUnderscores : Bool)
    (chunks : List Bytes) : Ret Rc HeaderLine.Header :=
  (HeaderLine.parser allowUnderscores).feed r buf buf.length chunks

def feedStatusLine (r : StatusLine.Status) (buf : Bytes) (chunks : List Bytes) : Ret Rc StatusLine.Status :=
  StatusLine.parser.feed r buf buf.length chunks

section SameEnd
variable {buf whole : Bytes}

theorem requestLine_sameEnd {r : Request} {f w : Ret Rc Request} (h : RequestLine.parser.SameEnd r buf whole w f) :
    f.rc = w.rc ∧ { f.req with state := w.req.state } = w.req ∧
      (w.rc ≠ .invalidMethod → w.rc ≠ .invalidRequest → f = w) := by
  cases h with
  | again s h => exact ⟨rfl, rfl, fun _ _ => rfl⟩
  | found e s p k' buf' c' h h' =>
    cases e with
    | done => exact ⟨rfl, rfl, fun _ _ => rfl⟩
    | invalidMethod => exact ⟨rfl, rfl, absurd rfl⟩
    | invalidRequest => exact ⟨rfl, rfl, fun _ => absurd rfl⟩

theorem headerLine_sameEnd {r : HeaderLine.Header} {u : Bool} {f w : Ret Rc HeaderLine.Header}
    (h : (HeaderLine.parser u).SameEnd r buf whole w f) :
    f.rc = w.rc ∧ { f.req with
        state := w.req.state
        headerHash := w.req.headerHash
        lowcaseIndex := w.req.lowcaseIndex } = w.req ∧
      (w.rc ≠ .invalidHeader → f.pos = w.pos) ∧
      (w.rc ≠ .invalidHeader → (w.rc = .headerDone → r.upstream = false) → f.req = w.req) := by
  cases h with
  | again s h => exact ⟨rfl, rfl, fun _ => rfl, fun _ _ => rfl⟩
  | found e s p k' buf' c' h h' =>
    cases e with
    | done => exact ⟨rfl, rfl, fun _ => rfl, fun _ _ => rfl⟩
    | invalidHeader => exact ⟨rfl, rfl, absurd rfl, absurd rfl⟩
    | headerDone =>
      refine ⟨rfl, rfl, fun _ => rfl, fun _ hr => ?_⟩
      obtain ⟨hup, hsame⟩ := HeaderLine.scan_headerDone (p := buf.length) (by rwa [List.drop_left])
      obtain ⟨hup', hsame'⟩ := HeaderLine.scan_headerDone (p := buf'.length) (by rwa [List.drop_left])
      obtain ⟨hhash, hindex⟩ := hsame (hr rfl) rfl
      obtain ⟨hhash', hindex'⟩ := hsame' (hup'.symm.trans (hup.trans (hr rfl))) rfl
      show HeaderLine.Header.mk .. = HeaderLine.Header.mk ..
      rw [← hhash, ← hindex, ← hhash', ← hindex']

theorem statusLine_sameEnd {r : StatusLine.Status} {f w : Ret Rc StatusLine.Status}
    (h : StatusLine.parser.SameEnd r buf whole w f) :
    f.rc = w.rc ∧ { f.req with state := w.req.state } = w.req ∧ (w.rc ≠ .error → f = w) := by
  cases h with
  | again s h => exact ⟨rfl, rfl, fun _ => rfl⟩
  | found e s p k' buf' c' h h' =>
    cases e with
    | done => exact ⟨rfl, rfl, fun _ => rfl⟩
    | error => exact ⟨rfl, rfl, absurd rfl⟩

end SameEnd

/-- A line that is accepted in pieces is what one call makes of it. -/
theorem feedRequestLine_ok {r : Request} {buf : Bytes} {chunks : List Bytes} (h : (feedRequestLine r buf chunks).rc = .ok) :
    feedRequestLine r buf chunks = parseRequestLine r (buf ++ chunks.flatten) buf.length := by
  obtain ⟨hrc, -, heq⟩ := requestLine_sameEnd (@Resumable.call_feed _ _ _ _ RequestLine.parser _ chunks r buf)
  have hok := hrc.symm.trans h
  exact heq (by rw [hok]; decide) (by rw [hok]; decide)

/-- The code and the recorded fields never depend on the chunks. The position does
not where a line is not refused, and the hash of the name (with the index that
belongs to it) does not where the header is stored, or ends the headers of a
request without an upstream. -/
theorem lines_independent_of_chunks : (∀ (r : Request) (buf : Bytes) (chunks : List Bytes),
      let f := feedRequestLine r buf chunks
      let w := parseRequestLine r (buf ++ chunks.flatten) buf.length
      f.rc = w.rc ∧ { f.req with state := w.req.state } = w.req ∧
        (w.rc ≠ .invalidMethod → w.rc ≠ .invalidRequest → f = w)) ∧
    (∀ (r : HeaderLine.Header) (buf : Bytes) (u : Bool) (chunks : List Bytes),
      let f := feedHeaderLine r buf u chunks
      let w := parseHeaderLine r (buf ++ chunks.flatten) buf.length u
      f.rc = w.rc ∧
        { f.req with
          state := w.req.state
          headerHash := w.req.headerHash
          lowcaseIndex := w.req.lowcaseIndex } = w.req ∧
        (w.rc ≠ .invalidHeader → f.pos = w.pos) ∧
        (w.rc ≠ .invalidHeader → (w.rc = .headerDone → r.upstream = false) → f.req = w.req)) ∧
    (∀ (r : StatusLine.Status) (buf : Bytes) (chunks : List Bytes),
      let f := feedStatusLine r buf chunks
      let w := parseStatusLine r (buf ++ chunks.flatten) buf.length
      f.rc = w.rc ∧ { f.req with state := w.req.state } = w.req ∧ (w.rc ≠ .error → f = w)) :=
  ⟨fun _ _ _ => requestLine_sameEnd Resumable.call_feed, fun _ _ _ _ => headerLine_sameEnd Resumable.call_feed,
    fun _ _ _ => statusLine_sameEnd Resumable.call_feed⟩

/-- `G1` is no method: one call leaves the position at its beginning, and so do
two calls, of which the second began behind the `G`. Of the name in `a\0` one call
stores no hash, and two calls the one of the `a`. -/
theorem refused_line_depends_on_chunks : (parseRequestLine {} (text ['G', '1']) 0).pos = 0 ∧
    (feedRequestLine {} [] [text ['G'], text ['1']]).pos = 1 ∧
    (feedRequestLine {} [] [text ['G'], text ['1']]).rc = .invalidMethod ∧
    (parseHeaderLine {} (text ['a', '\x00']) 0 false).req.headerHash = 0 ∧
    (feedHeaderLine {} [] false [text ['a'], text ['\x00']]).req.headerHash = 97 ∧
    (feedHeaderLine {} [] false [text ['a'], text ['\x00']]).rc = .invalidHeader := by
  decide

end GokuStudio.Nginx

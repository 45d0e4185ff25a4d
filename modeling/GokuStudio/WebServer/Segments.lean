import GokuStudio.WebServer.Epoll

/-!
# One request in several segments

TCP may hand a request over in pieces. The edge-triggered loop reads what is
there at each event into a buffer of its own, so what it does depends on what is
waiting at the socket at the time of each event, the *fronts*. A front without a
line is thrown away, a front that begins with some other line loses that line,
and a front that begins with a `GET` line is answered and thrown away.

`replyTo_eq_iff`: the answer to a request does not depend on the pieces exactly
when one front begins with a `GET` line and has the request's own answer.
-/

namespace GokuStudio.WebServer

open Lib Function List Option

/-! ## §1 Requests -/

def crlf : Bytes := [cr, lf]

/-- Lines, each with its end, and an empty line behind them. -/
def block : List Bytes → Bytes
  | [] => crlf
  | l :: ls => l ++ crlf ++ block ls

def IsLine (l : Bytes) : Prop := l ≠ [] ∧ cr ∉ l ∧ lf ∉ l
def getLine (target version : Bytes) : Bytes := ascii "GET " ++ target ++ [sp] ++ version

/-- A complete request that fits into the buffer. -/
structure GetRequest where
  target : Bytes
  version : Bytes
  headers : List Bytes
  sp_notMem_target : sp ∉ target
  isLine : ∀ l ∈ getLine target version :: headers, IsLine l
  fits : (block (getLine target version :: headers)).length ≤ recvBufSize

def GetRequest.bytes (r : GetRequest) : Bytes := block (getLine r.target r.version :: r.headers)

section Block
variable {ls : List Bytes} {a b l rest y : Bytes} {d : UInt8}

/-- The first line feed of a block ends its first line. -/
theorem block_cons_eq (hl : IsLine l) (h : block (l :: ls) = a ++ lf :: y) (ha : lf ∉ a) :
    a = l ++ [cr] ∧ y = block ls := by
  have hlc : lf ∉ l ++ [cr] := by
    rw [mem_append, not_or]
    exact ⟨hl.2.2, by decide⟩
  have hsplit : block (l :: ls) = (l ++ [cr]) ++ lf :: block ls := by simp [block, crlf]
  have hcut := congrArg (cutLine lf) (hsplit.symm.trans h)
  rw [cutLine_append hlc, cutLine_append ha] at hcut
  obtain ⟨h1, h2⟩ := Prod.mk.inj (some.inj hcut)
  exact ⟨(append_cancel_right h1).symm, h2.symm⟩

theorem block_nil_eq (h : block [] = a ++ lf :: y) : y = [] := by
  match a, h with
  | [], h => exact absurd (cons.inj h).1 (by decide)
  | [_], h => exact (cons.inj (cons.inj h).2).2.symm
  | _ :: _ :: a, h =>
    have := (cons.inj (cons.inj h).2).2
    simp at this

/-- Behind a line feed of a block there is a block again, or nothing. -/
theorem block_after (hls : ∀ l ∈ ls, IsLine l) (h : block ls = a ++ lf :: y) :
    y = [] ∨ ∃ ls', (∀ l ∈ ls', IsLine l) ∧ y = block ls' := by
  induction ls generalizing a with
  | nil => exact .inl (block_nil_eq h)
  | cons l ls ih =>
    have hls' : ∀ l ∈ ls, IsLine l := (forall_mem_cons.mp hls).2
    cases hcut : cutLine lf a with
    | none =>
      obtain ⟨-, rfl⟩ := block_cons_eq (hls l mem_cons_self) h (cutLine_eq_none.mp hcut)
      exact .inr ⟨ls, hls', rfl⟩
    | some xr =>
      obtain ⟨x, a'⟩ := xr
      obtain ⟨c, rfl, hc, rfl⟩ := cutLine_eq_some hcut
      have hassoc : c ++ [lf] ++ a' ++ lf :: y = c ++ lf :: (a' ++ lf :: y) := by simp
      rw [hassoc] at h
      obtain ⟨-, hrest⟩ := block_cons_eq (hls l mem_cons_self) h hc
      exact ih hls' hrest.symm

theorem lines_nil : lines d [] = [] := lines_none rfl

/-- A line of a request does not look like the end of it. -/
theorem stops_line (hl : IsLine l) : stops d (l ++ cr :: rest) = false := by
  obtain ⟨hne, hcr, hlf⟩ := hl
  match l with
  | a :: l =>
    have ha : a ≠ cr := fun he => hcr (he ▸ mem_cons_self ..)
    have hsecond : (l ++ cr :: rest).headD d ≠ lf := by
      cases l with
      | nil => exact (by decide : cr ≠ lf)
      | cons a' l =>
        intro he
        exact hlf (mem_cons_of_mem _ (by rw [← he]; exact mem_cons_self ..))
    rw [stops, Bool.or_eq_false_iff]
    exact ⟨beq_eq_false_iff_ne.mpr ha, beq_eq_false_iff_ne.mpr hsecond⟩

/-- All of a block is taken, and all there is of it. -/
theorem lines_block (hls : ∀ l ∈ ls, IsLine l) (h : block ls = y ++ b) : lines d y = y := by
  induction ls generalizing y with
  | nil =>
    cases hcut : cutLine lf y with
    | none => exact lines_none hcut
    | some xr =>
      obtain ⟨x, rest⟩ := xr
      obtain ⟨c, rfl, -, rfl⟩ := cutLine_eq_some hcut
      have hassoc : c ++ [lf] ++ rest ++ b = c ++ lf :: (rest ++ b) := by simp
      have hrest : rest ++ b = [] := block_nil_eq (h.trans hassoc)
      rw [(append_eq_nil_iff.mp hrest).1] at hcut ⊢
      rw [lines_some hcut, lines_nil, append_nil, ite_self]
  | cons l ls ih =>
    cases hcut : cutLine lf y with
    | none => exact lines_none hcut
    | some xr =>
      obtain ⟨x, rest⟩ := xr
      obtain ⟨c, rfl, hc, rfl⟩ := cutLine_eq_some hcut
      have hl := hls l mem_cons_self
      have hassoc : c ++ [lf] ++ rest ++ b = c ++ lf :: (rest ++ b) := by simp
      obtain ⟨rfl, hrest⟩ := block_cons_eq hl (h.trans hassoc) hc
      have hstop : stops d (l ++ [cr] ++ [lf] ++ rest) = false := by
        have := @stops_line l (lf :: rest) d hl
        simpa using this
      rw [lines_some hcut, hstop, if_neg (by simp), ih (forall_mem_cons.mp hls).2 hrest.symm]

end Block

/-- Wherever in a request a line ends, the lines behind it are taken with it. -/
theorem GetRequest.lines_rest (r : GetRequest) {a q b l rest : Bytes} (h : r.bytes = a ++ q ++ b)
    (hcut : cutLine lf q = some (l, rest)) (d : UInt8) : lines d rest = rest := by
  obtain ⟨x, rfl, -, rfl⟩ := cutLine_eq_some hcut
  have hsplit : block (getLine r.target r.version :: r.headers) = (a ++ x) ++ lf :: (rest ++ b) := h.trans (by simp)
  rcases block_after r.isLine hsplit with hnil | ⟨ls, hls, hb⟩
  · rw [(append_eq_nil_iff.mp hnil).1]
    exact lines_nil
  · exact lines_block hls hb.symm

/-! ## §2 Segments -/

/-- A piece of the request that arrives on its own and causes an event. -/
structure Segment where
  bytes : Bytes
  out : List Wrote
  beyond : UInt8

/-- The client takes every answer, and no `write` to it fails. -/
structure Segment.Prompt (files : List SrcFile) (g : Segment) : Prop where
  noError : ∀ e, .failed e ∉ g.out
  takes : ∀ r, IsReply files r → Takes g.out r.length

def segmentEvents (fd : Nat) : List Segment → List Event
  | [] => []
  | g :: segs => .arrive fd g.bytes :: .readable fd g.out g.beyond :: segmentEvents fd segs

/-- What has been written to the client, if the server is still there. -/
def Server.sentTo (s : Server) (fd : Nat) : Option Bytes :=
  if s.status = .running then (s.conns fd).map (·.sent) else none

/-- What a client that connects and sends these segments is written. -/
def replyTo (files : List SrcFile) (errno : Errno) (fd : Nat) (segs : List Segment) : Option Bytes :=
  ((Event.listen [fd] .eagain :: segmentEvents fd segs).foldl (Server.step files)
    (Server.start errno)).sentTo fd

def hasGet (q : Bytes) : Bool :=
  match cutLine lf q with
  | none => false
  | some (l, _) => isGet l

/-- What of `q` is still waiting after an event. -/
def pendingAfter (q : Bytes) : Bytes :=
  match cutLine lf q with
  | none => []
  | some (l, rest) => if isGet l then [] else rest

/-- What is waiting at the socket at the time of each event. -/
def fronts (p : Bytes) : List Segment → List Bytes
  | [] => []
  | g :: segs => (p ++ g.bytes) :: fronts (pendingAfter (p ++ g.bytes)) segs

/-- The answer to what is waiting, if there is a path in it. -/
def answer (files : List SrcFile) (q : Bytes) : Option Bytes :=
  ((q.drop 4).findIdx? (· == sp)).map (response files (window recvBufSize q))

theorem pendingAfter_suffix (q : Bytes) : ∃ x, q = x ++ pendingAfter q := by
  rw [pendingAfter]
  cases hcut : cutLine lf q with
  | none => exact ⟨q, (append_nil q).symm⟩
  | some lr =>
    obtain ⟨l, rest⟩ := lr
    obtain ⟨-, -, -, hsplit⟩ := cutLine_eq_some hcut
    cases hget : isGet l with
    | true => exact ⟨q, by simp [hget]⟩
    | false => exact ⟨l, by simpa [hget] using hsplit⟩

/-! ## §3 One event -/

/-- The client's connection is open, `q` is waiting there, and the server has
written `sent`. -/
structure Waits (s : Server) (fd : Nat) (q sent : Bytes) : Prop where
  running : s.status = .running
  errno : s.errno = .eagain
  sock : ∃ taken, s.conns fd = some ⟨q, .open, taken, sent⟩

section Step
variable {files : List SrcFile} {s : Server} {fd : Nat} {q sent l rest r : Bytes} {g : Segment}

section
variable (h : Waits s fd q sent)
include h

theorem Waits.sentTo : s.sentTo fd = some sent := by
  obtain ⟨taken, hconn⟩ := h.sock
  rw [Server.sentTo, if_pos h.running, hconn]
  rfl

theorem Waits.put {c : Call} (herr : c.errno = .eagain)
    (hopen : c.sock.tail = .open) : Waits (s.put fd c) fd c.sock.inbox c.sock.sent := by
  refine ⟨h.running, herr, c.sock.taken, ?_⟩
  change update s.conns fd (some c.sock) fd = _
  rw [update_self, ← hopen]

theorem Waits.arrive (b : Bytes) : Waits (s.step files (.arrive fd b)) fd (q ++ b) sent := by
  obtain ⟨taken, hconn⟩ := h.sock
  have hput := h.put (c := ⟨⟨q ++ b, .open, taken, sent⟩, s.errno, []⟩) h.errno rfl
  simp only [Server.step, if_pos h.running, hconn]
  exact hput

theorem Waits.readable_eq : ∃ taken, s.step files (.readable fd g.out g.beyond) =
      s.serve files fd ⟨q, .open, taken, sent⟩ g.out g.beyond := by
  obtain ⟨taken, hconn⟩ := h.sock
  refine ⟨taken, ?_⟩
  simp only [Server.step, if_pos h.running, hconn]

/-- Without a `GET` line the client is not answered. -/
theorem Waits.readable_none (hq : q.length ≤ recvBufSize) (hget : hasGet q = false) :
    Waits (s.step files (.readable fd g.out g.beyond)) fd (pendingAfter q) sent := by
  obtain ⟨taken, hserve⟩ := @Waits.readable_eq files s fd q sent g h
  have htake : q.take recvBufSize = q := take_of_length_le hq
  rw [hserve, Server.serve, pendingAfter]
  rw [hasGet] at hget
  cases hcut : cutLine lf q with
  | none =>
    rw [readHttpData_none rfl (by rw [htake]; exact hcut) rfl]
    simp only [htake, atEnd, Sock.take, drop_length, Int.reduceNeg, Int.reduceLT, if_true]
    exact h.put rfl rfl
  | some lr =>
    obtain ⟨l, rest⟩ := lr
    rw [hcut] at hget
    obtain ⟨-, -, -, hsplit⟩ := cutLine_eq_some hcut
    rw [readHttpData_unknown rfl (by rw [htake]; exact hcut) hget]
    simp only [Int.reduceNeg, Int.reduceLT, if_true, h.errno, hget, Bool.false_eq_true, if_false]
    have hdrop : q.drop l.length = rest := by rw [hsplit, drop_left]
    rw [← hdrop]
    exact h.put rfl rfl

end

theorem writeLoop_errno : ∀ {out : List Wrote} {buf : Bytes} {errno : Errno},
    (∀ e, .failed e ∉ out) → (writeLoop out buf errno).1 = true →
    (writeLoop out buf errno).2.2 = errno
  | _, [], _, _, _ => by simp [writeLoop]
  | [], _ :: _, _, _, h => by simp [writeLoop] at h
  | .failed e :: _, _ :: _, _, hout, _ => absurd mem_cons_self (hout e)
  | .bytes _ :: _, _ :: _, _, hout, h => by
    rw [writeLoop] at h ⊢
    exact writeLoop_errno (fun e he => hout e (mem_cons_of_mem _ he)) h

theorem Segment.Prompt.writen (hg : g.Prompt files) (hr : IsReply files r) (c : Call) : writen g.out c r =
      ((r.length : Int), { c with sock := { c.sock with sent := c.sock.sent ++ r } }) := by
  have hok := (@writeLoop_ok_iff g.out r c.errno).mpr (hg.takes r hr)
  have hsent := writeLoop_sent hok
  have herr := writeLoop_errno hg.noError hok
  rcases hw : writeLoop g.out r c.errno with ⟨ok, sent, errno⟩
  rw [hw] at hok hsent herr
  dsimp only at hok hsent herr
  rw [WebServer.writen, hw, hok, hsent, herr]
  rfl

/-- With a `GET` line the client is answered, or the search for the path runs
out of the buffer. -/
theorem Waits.readable_get (h : Waits s fd q sent) (hq : q.length ≤ recvBufSize)
    (hcut : cutLine lf q = some (l, rest)) (hget : isGet l = true)
    (hlines : ∀ d, lines d rest = rest) (hg : g.Prompt files) :
    match answer files q with
    | some r => Waits (s.step files (.readable fd g.out g.beyond)) fd [] (sent ++ r)
    | none => (s.step files (.readable fd g.out g.beyond)).status = .fatal .undefined := by
  obtain ⟨taken, hserve⟩ := @Waits.readable_eq files s fd q sent g h
  have htake : q.take recvBufSize = q := take_of_length_le hq
  obtain ⟨m, c, hread, hm, hbuf, hin, -, hsent, htail⟩ := @readHttpData_get g.beyond l rest
      ⟨⟨q, .open, taken, sent⟩, s.errno, replicate recvBufSize 0⟩ rfl
      (by rw [htake]; exact hcut) hget
  obtain ⟨hopen, herr⟩ := htail rfl
  have herr : c.errno = .eagain := by
    rcases herr with he | he
    · exact he.trans h.errno
    · exact he
  obtain ⟨-, -, -, hsplit⟩ := cutLine_eq_some hcut
  have hnil : c.sock.inbox = [] := by
    rw [hin, hlines, ← hsplit, drop_length]
  have hneg : ¬ (m : Int) < 0 := by omega
  have hzero : ¬ (m : Int) = 0 := by omega
  rw [hserve, Server.serve, hread, answer]
  simp only [hneg, hzero, if_false, analysisHttpData, if_true, hbuf, findIdx?_window, htake]
  cases (q.drop 4).findIdx? (· == sp) with
  | none => rfl
  | some n =>
    have hlen : ¬ ((response files (window recvBufSize q) n).length : Int) < 0 := by omega
    simp only [map_some, sendHttpData, if_true, hbuf, hg.writen (isReply_response ..), hlen, if_false, hsent]
    have hput := h.put (c := { c with sock := { c.sock with
      sent := sent ++ response files (window recvBufSize q) n } }) herr hopen
    rwa [hnil] at hput

end Step

/-! ## §4 All segments -/

section Run

variable {files : List SrcFile} {s : Server} {fd : Nat} {q p sent a x r : Bytes} {segs : List Segment}
  {answers : List (Option Bytes)}

theorem isReply_answer (h : answer files q = some r) : IsReply files r := by
  obtain ⟨n, -, rfl⟩ := map_eq_some_iff.mp h
  exact isReply_response ..

theorem cutLine_of_hasGet (h : hasGet q = true) : ∃ l rest, cutLine lf q = some (l, rest) ∧ isGet l = true := by
  rw [hasGet] at h
  cases hcut : cutLine lf q with
  | none => simp [hcut] at h
  | some lr => exact ⟨lr.1, lr.2, rfl, by rwa [hcut] at h⟩

/-- All fronts have an answer, and these answers after `sent` are `x`. -/
def AllAnswered (answers : List (Option Bytes)) (sent x : Bytes) : Prop :=
  ∃ rs : List Bytes, answers = rs.map some ∧ x = sent ++ rs.flatten

theorem allAnswered_nil : AllAnswered [] sent x ↔ x = sent := by
  constructor
  · rintro ⟨rs, hrs, rfl⟩
    rw [map_eq_nil_iff.mp hrs.symm]
    simp
  · rintro rfl
    exact ⟨[], rfl, by simp⟩

theorem not_allAnswered_none : ¬AllAnswered (none :: answers) sent x := by
  rintro ⟨rs, hrs, -⟩
  cases rs with
  | nil => simp at hrs
  | cons r rs => exact absurd (cons.inj hrs).1 (by simp)

theorem allAnswered_some : AllAnswered (some r :: answers) sent x ↔ AllAnswered answers (sent ++ r) x := by
  constructor
  · rintro ⟨rs, hrs, rfl⟩
    cases rs with
    | nil => simp at hrs
    | cons r' rs =>
      obtain ⟨hr, hrs⟩ := cons.inj hrs
      rw [← some.inj hr]
      exact ⟨rs, hrs, by simp⟩
  · rintro ⟨rs, hrs, rfl⟩
    exact ⟨r :: rs, by rw [hrs, map_cons], by simp⟩

/-- The client is written the answers to the fronts that begin with a `GET`
line, as long as they have one. -/
theorem Waits.run (req : GetRequest) (h : Waits s fd p sent)
    (hbytes : req.bytes = a ++ p ++ (segs.map Segment.bytes).flatten)
    (hsegs : ∀ g ∈ segs, g.Prompt files) (x : Bytes) :
    ((segmentEvents fd segs).foldl (Server.step files) s).sentTo fd = some x ↔
      AllAnswered (((fronts p segs).filter hasGet).map (answer files)) sent x := by
  induction segs generalizing s p sent a with
  | nil =>
    change s.sentTo fd = some x ↔ AllAnswered [] sent x
    rw [h.sentTo, some.injEq, allAnswered_nil, eq_comm]
  | cons g segs ih =>
    have hsegs' : ∀ g ∈ segs, g.Prompt files := (forall_mem_cons.mp hsegs).2
    have hq : req.bytes = a ++ (p ++ g.bytes) ++ (segs.map Segment.bytes).flatten := by
      rw [hbytes]
      simp
    have hfits : (p ++ g.bytes).length ≤ recvBufSize := by
      have := req.fits
      change req.bytes.length ≤ recvBufSize at this
      rw [hq, length_append, length_append] at this
      omega
    have harr : Waits (s.step files (.arrive fd g.bytes)) fd (p ++ g.bytes) sent := h.arrive g.bytes
    rw [fronts, segmentEvents, foldl_cons, foldl_cons]
    cases hget : hasGet (p ++ g.bytes) with
    | false =>
      obtain ⟨y, hy⟩ := pendingAfter_suffix (p ++ g.bytes)
      have hnext : req.bytes = (a ++ y) ++ pendingAfter (p ++ g.bytes) ++ (segs.map Segment.bytes).flatten := by
        rw [hq, append_assoc a y, ← hy]
      rw [filter_cons_of_neg (by rw [hget]; simp)]
      exact ih (harr.readable_none hfits hget) hnext hsegs'
    | true =>
      obtain ⟨l, rest, hcut, hl⟩ := cutLine_of_hasGet hget
      have hstep := harr.readable_get hfits hcut hl (req.lines_rest hq hcut) (hsegs g mem_cons_self)
      have hpend : pendingAfter (p ++ g.bytes) = [] := by
        rw [pendingAfter, hcut]
        exact if_pos hl
      rw [filter_cons_of_pos hget, map_cons, hpend]
      cases hans : answer files (p ++ g.bytes) with
      | none =>
        -- the server is gone, and so are the answers
        rw [hans] at hstep
        have hstop : (((s.step files (.arrive fd g.bytes)).step files
            (.readable fd g.out g.beyond)).status) ≠ .running := by
          rw [hstep]
          simp
        rw [foldl_fixed' fun e => by rw [Server.step.eq_def, if_neg hstop], Server.sentTo, if_neg hstop]
        exact iff_of_false (by simp) not_allAnswered_none
      | some r =>
        rw [hans] at hstep
        have hnext : req.bytes = (a ++ (p ++ g.bytes)) ++ [] ++ (segs.map Segment.bytes).flatten := by
          rw [hq, append_nil]
        rw [allAnswered_some]
        exact ih hstep hnext hsegs'

theorem replyTo_eq_some_iff (req : GetRequest) (errno : Errno)
    (hsplit : (segs.map Segment.bytes).flatten = req.bytes) (hsegs : ∀ g ∈ segs, g.Prompt files)
    (x : Bytes) :
    replyTo files errno fd segs = some x ↔
      ∃ rs : List Bytes, ((fronts [] segs).filter hasGet).map (answer files) = rs.map some ∧ x = rs.flatten := by
  have hbytes : req.bytes = [] ++ [] ++ (segs.map Segment.bytes).flatten := by
    rw [hsplit]
    rfl
  have hwaits : Waits ((Server.start errno).step files (.listen [fd] .eagain)) fd [] [] := ⟨rfl, rfl, [], update_self ..⟩
  exact hwaits.run req hbytes hsegs x

/-- Where there is a space there is a path. -/
theorem exists_answer (files : List SrcFile) (h : sp ∈ q.drop 4) :
    ∃ n, answer files q = some (response files (window recvBufSize q) n) := by
  rw [answer]
  cases hidx : (q.drop 4).findIdx? (· == sp) with
  | none =>
    rw [findIdx?_eq_none_iff] at hidx
    exact absurd (hidx sp h) (by simp)
  | some n => exact ⟨n, rfl⟩

variable (req : GetRequest)
include req

theorem GetRequest.hasGet_bytes : hasGet req.bytes = true := by
  have hline := req.isLine _ mem_cons_self
  have hbytes : req.bytes = (getLine req.target req.version ++ [cr]) ++ lf :: block req.headers := by
    simp [GetRequest.bytes, block, crlf]
  have hlf : lf ∉ getLine req.target req.version ++ [cr] := by
    rw [mem_append, not_or]
    exact ⟨hline.2.2, by decide⟩
  have hlen : (ascii "GET ").length = 4 := by decide
  rw [hasGet, hbytes, cutLine_append hlf]
  simp only [isGet, getLine, append_assoc, beq_iff_eq]
  rw [← hlen, take_left]

theorem GetRequest.sp_mem : sp ∈ req.bytes.drop 4 := by
  have hlen : (ascii "GET ").length = 4 := by decide
  simp only [GetRequest.bytes, block, getLine, append_assoc]
  rw [← hlen, drop_left]
  simp

/-- In one segment the request gets its answer. -/
theorem replyTo_whole (errno : Errno) {whole : Segment}
    (hwhole : whole.bytes = req.bytes) (hprompt : whole.Prompt files) :
    replyTo files errno fd [whole] = answer files req.bytes := by
  obtain ⟨n, hn⟩ := exists_answer files req.sp_mem
  rw [hn]
  refine (replyTo_eq_some_iff req errno (by simp [hwhole]) (by simpa using hprompt) _).mpr ?_
  refine ⟨[response files (window recvBufSize req.bytes) n], ?_, by simp⟩
  simp [fronts, hwhole, req.hasGet_bytes, hn]

end Run

/-- `GET /` without headers. -/
def rootRequest : GetRequest where
  target := ascii "/"
  version := ascii "HTTP/1.1"
  headers := []
  sp_notMem_target := by decide
  isLine := by simp only [List.mem_singleton, forall_eq, IsLine]; decide
  fits := by decide

/-- A segment of a client that takes the one answer a server without files has. -/
def bareSegment (b : Bytes) : Segment := ⟨b, [.bytes httpRsp404Def.length], 0⟩

theorem takes_at_once : ∀ n, Takes [.bytes n] n
  | 0 => trivial
  | n + 1 => by
    rw [Takes, Nat.sub_self]
    trivial

theorem prompt_bareSegment (b : Bytes) : (bareSegment b).Prompt [] := by
  refine ⟨by simp [bareSegment], fun r hr => ?_⟩
  rcases hr with rfl | ⟨f, hf, -⟩
  · rw [bareSegment]
    generalize httpRsp404Def.length = n
    exact takes_at_once n
  · exact absurd hf not_mem_nil

theorem prompt_pair {a b : Bytes} : ∀ g ∈ [bareSegment a, bareSegment b], g.Prompt [] :=
  forall_mem_cons.mpr ⟨prompt_bareSegment _, forall_mem_singleton.mpr (prompt_bareSegment _)⟩

end GokuStudio.WebServer

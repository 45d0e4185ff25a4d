import GokuStudio.Lib.Runs
import GokuStudio.WebServer.Http

/-!
# The edge-triggered loop (`http_server_main_loop_epoll_et`)

The loop handles one event after the other. What the rest of the world does in
between (connections, bytes, hang-ups) are events too, which the server does not
see before it reads. `errno` outlives an event, and a negative result of
`read_http_data` is told apart by `errno` alone.

`Serving` is what the server owes its clients: it runs, and every request that
has been read to its end was answered once. `serving_iff`: it holds all along a
run exactly when every event is `Fine` in the state in which it comes.
-/

namespace GokuStudio.WebServer

open Lib Function List Option

/-! ## §1 The loop -/

inductive Status where
  | running
  | returned
  | fatal (f : Fatal)
deriving DecidableEq, Repr

structure Server where
  status : Status
  errno : Errno
  conns : Nat → Option Sock
  gone : List Sock

inductive Event where
  /-- The listening socket: connections get these descriptors, then `accept` fails. -/
  | listen (fds : List Nat) (e : Errno)
  | waitFailed (e : Errno)
  | arrive (fd : Nat) (b : Bytes)
  | hangup (fd : Nat) (tail : Tail)
  /-- `EPOLLIN`; `out` is how the client will take an answer. -/
  | readable (fd : Nat) (out : List Wrote) (beyond : UInt8)

def accepted : Sock := ⟨[], .open, [], []⟩

namespace Server

def start (errno : Errno) : Server := ⟨.running, errno, fun _ => none, []⟩

def put (s : Server) (fd : Nat) (c : Call) : Server :=
  { s with errno := c.errno, conns := update s.conns fd (some c.sock) }

/-- `close(connfd)`, and `epoll_ctl` with a descriptor that is closed already. -/
def close (s : Server) (fd : Nat) (sock : Sock) : Server :=
  { s with errno := .ebadf, conns := update s.conns fd none, gone := sock :: s.gone }

def acceptAll (s : Server) (fds : List Nat) : Server :=
  { s with conns := fds.foldl (fun conns fd => update conns fd (some accepted)) s.conns }

def serve (files : List SrcFile) (s : Server) (fd : Nat) (sock : Sock) (out : List Wrote)
    (beyond : UInt8) : Server :=
  match readHttpData beyond ⟨sock, s.errno, List.replicate recvBufSize 0⟩ with
  | .error f => { s with status := .fatal f }
  | .ok (ret, type, c) =>
    if ret < 0 then
      if c.errno = .eagain then s.put fd c else { s.put fd c with status := .returned }
    else if ret = 0 then s.close fd c.sock
    else
      match analysisHttpData type c.buf with
      | .error f => { s with status := .fatal f }
      | .ok (_, filePathLen) =>
        match sendHttpData files out type filePathLen c with
        | (ret, c) => if ret < 0 then { s.put fd c with status := .returned } else s.put fd c

def step (files : List SrcFile) (s : Server) (e : Event) : Server :=
  if s.status = .running then
    match e with
    | .listen fds e =>
      { s.acceptAll fds with
        errno := e, status := if e = .eagain then .running else .returned }
    | .waitFailed e =>
      { s with errno := e, status := if e = .eintr then .running else .returned }
    | .arrive fd b =>
      match s.conns fd with
      | none => s
      | some sock =>
        { s with
          conns := update s.conns fd (some { sock with inbox := sock.inbox ++ b }) }
    | .hangup fd tail =>
      match s.conns fd with
      | none => s
      | some sock => { s with conns := update s.conns fd (some { sock with tail := tail }) }
    | .readable fd out beyond =>
      match s.conns fd with
      | none => s
      | some sock => s.serve files fd sock out beyond
  else s

end Server

/-! ## §2 Requests and replies of a connection -/

/-- How far the requests of a client have come: how many are complete, whether a
line of the next one is there, and the line that is not complete yet. -/
structure Progress where
  done : Nat
  started : Bool
  line : Bytes
deriving DecidableEq, Repr

/-- A request ends with the first empty line behind its first line. -/
def Progress.feed (p : Progress) (b : UInt8) : Progress :=
  if b = lf then
    if p.line = [cr] then
      if p.started then ⟨p.done + 1, false, []⟩ else { p with line := [] }
    else { p with started := true, line := [] }
  else { p with line := p.line ++ [b] }

def progress (b : Bytes) : Progress := b.foldl Progress.feed ⟨0, false, []⟩

section
variable (files : List SrcFile)

def IsReply (b : Bytes) : Prop := b = httpRsp404Def ∨ ∃ f ∈ files, b = rsp200 f

/-- `n` replies, one after the other. -/
def Replies (sent : Bytes) (n : Nat) : Prop :=
  ∃ rs : List Bytes, (∀ r ∈ rs, IsReply files r) ∧ rs.length = n ∧ sent = rs.flatten

/-- The request that is not complete yet has been answered already. -/
def Answered (s : Sock) : Prop := Replies files s.sent ((progress s.taken).done + 1)

/-- Every complete request has been answered once, and the one that has only
begun at most once. -/
def ServedRight (s : Sock) : Prop := Replies files s.sent (progress s.taken).done ∨
    ((progress s.taken).started = true ∧ Answered files s)

/-- The server runs, and serves everybody right. -/
def Serving (s : Server) : Prop :=
  s.status = .running ∧ ∀ sock, ((∃ fd, s.conns fd = some sock) ∨ sock ∈ s.gone) → ServedRight files sock

/-- This line is the end of a request. -/
def EndsRequest (taken line : Bytes) : Prop := (progress (taken ++ line)).done = (progress taken).done + 1

/-- What has to be waiting at a client's socket for the event to do no harm:
without a line, no error; a line that is not a `GET` line only while `errno` says
`EAGAIN`, and not as the end of a request without an answer; a `GET` line only
for a request that has no answer yet, with a path that ends in the buffer, from a
client that takes the answer. -/
def FineRead (errno : Errno) (s : Sock) (out : List Wrote) : Prop :=
  match cutLine lf (s.inbox.take recvBufSize) with
  | none => recvBufSize < s.inbox.length ∨ ∀ e, s.tail = .error e → e = .eagain
  | some (line, _) =>
    if isGet line then
      ¬ Answered files s ∧ ∃ n, ((s.inbox.take recvBufSize).drop 4).findIdx? (· == sp) = some n ∧
        Takes out (response files (window recvBufSize s.inbox) n).length
    else errno = .eagain ∧ (EndsRequest s.taken line → Answered files s)

def Fine (s : Server) : Event → Prop
  | .listen _ e => e = .eagain
  | .waitFailed e => e = .eintr
  | .arrive _ _ => True
  | .hangup _ _ => True
  | .readable fd out _ => ∀ sock, s.conns fd = some sock → FineRead files s.errno sock out

end

/-! ## §3 Replies can be counted -/

section Replies
variable {files : List SrcFile} {r r' a b sent : Bytes} {n m : Nat}

theorem cr_notMem_dec (n : Nat) : cr ∉ dec n := notMem_dec (by decide)

/-- No reply is the beginning of another one. -/
theorem reply_append_inj (hr : IsReply files r) (hr' : IsReply files r') (h : r ++ a = r' ++ b) : r = r' ∧ a = b := by
  -- the status code tells the two kinds apart
  have hkind : ∀ (f : SrcFile) (x y : Bytes), httpRsp404Def ++ x ≠ rsp200 f ++ y := by
    intro f x y he
    simp only [httpRsp404Def, rsp200, httpRsp200Def, append_assoc] at he
    exact absurd (append_inj_left he (by decide)) (by decide)
  rcases hr with rfl | ⟨f, -, rfl⟩ <;> rcases hr' with rfl | ⟨f', -, rfl⟩
  · exact ⟨rfl, append_cancel_left h⟩
  · exact absurd h (hkind f' a b)
  · exact absurd h.symm (hkind f b a)
  · have hcrlf : ascii "\r\n\r\n" = cr :: [lf, cr, lf] := by decide
    simp only [rsp200, append_assoc, hcrlf, cons_append] at h
    have hcut := congrArg (cutLine cr) (append_cancel_left h)
    rw [cutLine_append (cr_notMem_dec _), cutLine_append (cr_notMem_dec _)] at hcut
    obtain ⟨hdec, hrest⟩ := Prod.mk.inj (some.inj hcut)
    have hlen := congrArg atol (append_cancel_right hdec)
    rw [atol_dec, atol_dec, Int.natCast_inj] at hlen
    obtain ⟨hdata, hab⟩ := append_inj (@append_cancel_left _ [lf, cr, lf] _ _ hrest) hlen
    exact ⟨by rw [rsp200, rsp200, hdata], hab⟩

theorem reply_length_pos (hr : IsReply files r) : 0 < r.length := by
  rcases hr with rfl | ⟨f, -, rfl⟩
  · rw [httpRsp404Def, length_append]
    exact Nat.lt_of_lt_of_le (by decide) (Nat.le_add_right ..)
  rw [rsp200, httpRsp200Def]
  simp only [length_append]
  have : 0 < (ascii "HTTP/1.1 200").length := by decide
  omega

theorem flatten_reply_inj {rs rs' : List Bytes} (hrs : ∀ r ∈ rs, IsReply files r)
    (hrs' : ∀ r ∈ rs', IsReply files r) (h : rs.flatten = rs'.flatten) : rs = rs' := by
  rw [← flatMap_id, ← flatMap_id] at h
  have hinj : ∀ {r r' a b : Bytes}, IsReply files r → IsReply files r' → id r ++ a = id r' ++ b →
      r = r' ∧ a = b := reply_append_inj
  exact flatMap_inj hinj reply_length_pos hrs hrs' h

theorem Replies.unique (h : Replies files sent n) (h' : Replies files sent m) : n = m := by
  obtain ⟨rs, hrs, rfl, rfl⟩ := h
  obtain ⟨rs', hrs', rfl, he⟩ := h'
  rw [flatten_reply_inj hrs hrs' he]

theorem Replies.snoc (h : Replies files sent n) (hr : IsReply files r) : Replies files (sent ++ r) (n + 1) := by
  obtain ⟨rs, hrs, rfl, rfl⟩ := h
  refine ⟨rs ++ [r], fun x hx => ?_, by simp, by simp⟩
  rcases mem_append.mp hx with hx | hx
  · exact hrs x hx
  · rw [mem_singleton.mp hx]
    exact hr

theorem isReply_response (files : List SrcFile) (buf : Bytes) (n : Nat) : IsReply files (response files buf n) := by
  rw [response, findSrc]
  split
  · rename_i f hf
    exact .inr ⟨f, mem_of_find?_eq_some hf, rfl⟩
  · exact .inl rfl

end Replies

/-! ## §4 How requests come to their end -/

section Progress
variable {p : Progress} {x b l rest taken : Bytes} {d : UInt8}

theorem progress_append (a b : Bytes) : progress (a ++ b) = b.foldl Progress.feed (progress a) := foldl_append ..

theorem feed_part (hx : lf ∉ x) : x.foldl Progress.feed p = { p with line := p.line ++ x } := by
  induction x generalizing p with
  | nil => rw [append_nil, foldl_nil]
  | cons a x ih =>
    have ha : a ≠ lf := fun he => hx (he ▸ mem_cons_self ..)
    rw [foldl_cons, ih fun hm => hx (mem_cons_of_mem _ hm), Progress.feed, if_neg ha]
    simp

theorem feed_line (hx : lf ∉ x) : (x ++ [lf]).foldl Progress.feed p =
    if p.line ++ x = [cr] then
      if p.started then ⟨p.done + 1, false, []⟩ else { p with line := [] }
    else { p with started := true, line := [] } := by
  rw [foldl_append, feed_part hx, foldl_cons, foldl_nil, Progress.feed, if_pos rfl]

/-- A request has begun, or come to its end. -/
def Progress.Next (p p' : Progress) : Prop :=
  (p'.done = p.done ∧ p'.started = true) ∨ (p'.done = p.done + 1 ∧ p'.started = false)

/-- The lines behind a first line end a request at most once, with the last of them. -/
theorem feed_lines (n : Nat) : ∀ {b : Bytes} {p : Progress}, b.length = n → p.started = true → p.line = [] →
    p.Next ((lines d b).foldl Progress.feed p) := by
  induction n using Nat.strong_induction_on with
  | _ n ih =>
    intro b p hn hs hl
    cases hcut : cutLine lf b with
    | none =>
      rw [lines_none hcut, feed_part (cutLine_eq_none.mp hcut)]
      exact .inl ⟨rfl, hs⟩
    | some lr =>
      obtain ⟨l, rest⟩ := lr
      obtain ⟨x, rfl, hx, hsplit⟩ := cutLine_eq_some hcut
      have hfeed := feed_line (p := p) hx
      rw [lines_some hcut]
      by_cases hstop : stops d b = true
      · rw [if_pos hstop, hfeed, hl, nil_append]
        by_cases hcr : x = [cr]
        · simp [Progress.Next, hcr, hs]
        · simp [Progress.Next, hcr]
      -- a line that does not stop the loop is not the empty line
      have hcr : x ≠ [cr] := by
        rintro rfl
        apply hstop
        rw [hsplit]
        rfl
      rw [if_neg hstop, foldl_append, hfeed, hl, nil_append, if_neg hcr]
      refine ih rest.length ?_ rfl rfl rfl
      have := length_of_cutLine hcut
      omega

/-- What a `GET` takes begins a request, and may be all of it. -/
theorem progress_get (hcut : cutLine lf b = some (l, rest)) (hget : isGet l = true) :
    (progress taken).Next (progress (taken ++ (l ++ lines d rest))) := by
  obtain ⟨x, rfl, hx, -⟩ := cutLine_eq_some hcut
  have hcr : (progress taken).line ++ x ≠ [cr] := by
    intro h
    have hlen := congrArg length h
    rw [isGet, beq_iff_eq] at hget
    have h4 := congrArg length hget
    have hget4 : (ascii "GET ").length = 4 := by decide
    rw [length_take, hget4, length_append, length_singleton] at h4
    rw [length_append, length_singleton] at hlen
    omega
  rw [progress_append, foldl_append, feed_line hx, if_neg hcr]
  exact feed_lines _ rfl rfl rfl

end Progress

/-! ## §5 One event -/

section Serve

variable {files : List SrcFile} {s : Server} {sock sock' : Sock} {fd : Nat} {out : List Wrote}
  {beyond : UInt8} {l rest x : Bytes}

section
variable (h : ServedRight files sock)
include h

theorem ServedRight.count (hno : ¬ Answered files sock) : Replies files sock.sent (progress sock.taken).done := by
  rcases h with h | ⟨-, h⟩
  · exact h
  · exact absurd h hno

/-- Bytes without a line feed change nothing. -/
theorem ServedRight.part (hx : lf ∉ x) (htaken : sock'.taken = sock.taken ++ x) (hsent : sock'.sent = sock.sent) :
    ServedRight files sock' := by
  have hp : progress sock'.taken = { progress sock.taken with line := (progress sock.taken).line ++ x } := by
    rw [htaken, progress_append, feed_part hx]
  rw [ServedRight, Answered, hp, hsent]
  exact h

/-- A line that is not answered must not be the end of a request without an answer. -/
theorem servedRight_line_iff (hx : lf ∉ x)
    (htaken : sock'.taken = sock.taken ++ (x ++ [lf])) (hsent : sock'.sent = sock.sent) :
    ServedRight files sock' ↔ (EndsRequest sock.taken (x ++ [lf]) → Answered files sock) := by
  have hp : progress sock'.taken = (x ++ [lf]).foldl Progress.feed (progress sock.taken) := by
    rw [htaken, progress_append]
  rw [feed_line hx] at hp
  rw [EndsRequest, ← htaken, ServedRight, Answered, Answered, hsent]
  by_cases hcr : (progress sock.taken).line ++ x = [cr]
  · rw [if_pos hcr] at hp
    by_cases hs : (progress sock.taken).started = true
    · rw [if_pos hs] at hp
      rw [hp]
      simp
    rw [if_neg hs] at hp
    rw [hp]
    have := h.count fun hA => ?_
    · simp [this]
    · rcases h with h | ⟨h, -⟩
      · have := h.unique hA
        omega
      · exact hs h
  · rw [if_neg hcr] at hp
    rw [hp]
    simp only [true_and, Nat.left_eq_add, Nat.succ_ne_zero, IsEmpty.forall_iff, iff_true]
    rcases h with h | ⟨-, h⟩
    · exact .inl h
    · exact .inr h

/-- An answer is right exactly if it is the first one to its request. -/
theorem servedRight_get_iff {b r : Bytes} {d : UInt8}
    (hcut : cutLine lf b = some (l, rest)) (hget : isGet l = true) (hr : IsReply files r)
    (htaken : sock'.taken = sock.taken ++ (l ++ lines d rest)) (hsent : sock'.sent = sock.sent ++ r) :
    ServedRight files sock' ↔ ¬ Answered files sock := by
  have hp := @progress_get b l rest sock.taken d hcut hget
  rw [← htaken, Progress.Next] at hp
  constructor
  · -- two answers are one too many
    intro h' hA
    have hcount : Replies files sock'.sent ((progress sock.taken).done + 1 + 1) := by
      rw [hsent]
      exact Replies.snoc hA hr
    rcases h' with h' | ⟨hs, h'⟩
    · have := hcount.unique h'
      omega
    have := hcount.unique h'
    rcases hp with ⟨hd, -⟩ | ⟨-, hns⟩
    · omega
    · rw [hs] at hns
      simp at hns
  · intro hno
    have hcount : Replies files sock'.sent ((progress sock.taken).done + 1) := by
      rw [hsent]
      exact (h.count hno).snoc hr
    rcases hp with ⟨hd, hs⟩ | ⟨hd, -⟩
    · refine .inr ⟨hs, ?_⟩
      rw [Answered, hd]
      exact hcount
    · refine .inl ?_
      rw [hd]
      exact hcount

end

theorem not_serving_returned : ¬ Serving files { s with status := .returned } := fun h => absurd h.1 (by simp)

/-- The zeros behind the bytes of the queue hold no space. -/
theorem findIdx?_window (q : Bytes) : ((window recvBufSize q).drop 4).findIdx? (· == sp) =
    ((q.take recvBufSize).drop 4).findIdx? (· == sp) := by
  have hz : ∀ n, (replicate n (0 : UInt8)).findIdx? (· == sp) = none := by
    intro n
    rw [findIdx?_eq_none_iff]
    intro a ha
    rw [eq_of_mem_replicate ha]
    decide
  rw [window, drop_append, drop_replicate, findIdx?_append, hz]
  simp

theorem servedRight_accepted : ServedRight files accepted := .inl ⟨[], nofun, rfl, rfl⟩

theorem conns_acceptAll {fds : List Nat} {i : Nat} (h : (s.acceptAll fds).conns i = some sock) :
    sock = accepted ∨ s.conns i = some sock := by
  induction fds generalizing s with
  | nil => exact .inr h
  | cons fd fds ih =>
    rcases @ih { s with conns := update s.conns fd (some accepted) } h with he | he
    · exact .inl he
    change update s.conns fd (some accepted) i = some sock at he
    rw [update_apply] at he
    split at he
    · exact .inl (some.inj he).symm
    · exact .inr he

theorem serving_start (files : List SrcFile) (errno : Errno) : Serving files (Server.start errno) := by
  refine ⟨rfl, ?_⟩
  rintro sock (⟨fd, hfd⟩ | hgone)
  · cases hfd
  · cases hgone

variable (h : Serving files s) (hfd : s.conns fd = some sock)
include h

/-- Only the one client matters that is served. -/
theorem serving_put_iff {c : Call} : Serving files (s.put fd c) ↔ ServedRight files c.sock := by
  constructor
  · intro h'
    exact h'.2 _ (.inl ⟨fd, update_self ..⟩)
  · intro hc
    refine ⟨h.1, fun x hx => ?_⟩
    rcases hx with ⟨i, hi⟩ | hx
    · change update s.conns fd (some c.sock) i = some x at hi
      rw [update_apply] at hi
      split at hi
      · rw [← some.inj hi]
        exact hc
      · exact h.2 x (.inl ⟨i, hi⟩)
    · exact h.2 x (.inr hx)

theorem serving_close_iff : Serving files (s.close fd sock) ↔ ServedRight files sock := by
  constructor
  · intro h'
    exact h'.2 _ (.inr mem_cons_self)
  · intro hc
    refine ⟨h.1, fun x hx => ?_⟩
    rcases hx with ⟨i, hi⟩ | hx
    · change update s.conns fd none i = some x at hi
      rw [update_apply] at hi
      split at hi
      · simp at hi
      · exact h.2 x (.inl ⟨i, hi⟩)
    · rcases mem_cons.mp hx with rfl | hx
      · exact hc
      · exact h.2 x (.inr hx)

include hfd

/-- No line has arrived. -/
theorem serve_none_iff (hcut : cutLine lf (sock.inbox.take recvBufSize) = none) :
    Serving files (s.serve files fd sock out beyond) ↔
      (recvBufSize < sock.inbox.length ∨ ∀ e, sock.tail = .error e → e = .eagain) := by
  have hright := h.2 sock (.inl ⟨fd, hfd⟩)
  have hlf := cutLine_eq_none.mp hcut
  have htake : sock.inbox.take (sock.inbox.take recvBufSize).length = sock.inbox.take recvBufSize := by
    rw [length_take, ← take_eq_take_min]
  rw [Server.serve, readHttpData_none rfl hcut rfl]
  dsimp only
  generalize hc : Call.mk (sock.take (sock.inbox.take recvBufSize).length) s.errno (window recvBufSize sock.inbox) = c
  obtain ⟨hle, -, -, htaken, hsent, -⟩ := atEnd_spec c
  have hpart : ServedRight files (atEnd c).2.sock := by
    subst hc
    exact hright.part hlf (htaken.trans (congrArg (sock.taken ++ ·) htake)) hsent
  have hserve : ((atEnd c).1 < 0 → (atEnd c).2.errno = .eagain) ↔
      (recvBufSize < sock.inbox.length ∨ ∀ e, sock.tail = .error e → e = .eagain) := by
    have hlen := length_drop (i := (sock.inbox.take recvBufSize).length) (l := sock.inbox)
    subst hc
    cases hin : sock.inbox.drop (sock.inbox.take recvBufSize).length with
    | cons a q =>
      rw [hin, length_cons, length_take] at hlen
      exact iff_of_true (by simp [atEnd, Sock.take, hin, -length_take]) (.inl (by omega))
    | nil =>
      rw [hin, length_nil, length_take] at hlen
      rw [or_iff_right (by omega)]
      cases htail : sock.tail <;> simp [atEnd, Sock.take, hin, htail, -length_take]
  rw [← hserve]
  split_ifs with hneg he hzero
  · exact iff_of_true ((serving_put_iff h).mpr hpart) fun _ => he
  · exact iff_of_false not_serving_returned fun hall => he (hall hneg)
  · exact iff_of_true ((serving_close_iff h).mpr hpart) fun hn => absurd hn hneg
  · exact absurd (Int.lt_or_eq_of_le hle) (not_or.mpr ⟨hneg, hzero⟩)

/-- A line has arrived that is not a `GET` line. -/
theorem serve_unknown_iff (hcut : cutLine lf (sock.inbox.take recvBufSize) = some (l, rest)) (hget : isGet l = false) :
    Serving files (s.serve files fd sock out beyond) ↔
      s.errno = .eagain ∧ (EndsRequest sock.taken l → Answered files sock) := by
  have hright := h.2 sock (.inl ⟨fd, hfd⟩)
  rw [Server.serve, readHttpData_unknown rfl hcut hget]
  simp only [Int.reduceNeg, Int.reduceLT, if_true]
  by_cases he : s.errno = .eagain
  · rw [if_pos he, and_iff_right he, serving_put_iff h]
    obtain ⟨x, rfl, hx, -⟩ := cutLine_eq_some hcut
    refine servedRight_line_iff hright hx ?_ rfl
    change sock.taken ++ sock.inbox.take _ = _
    rw [take_of_cutLine hcut]
  · rw [if_neg he]
    exact iff_of_false not_serving_returned fun hall => he hall.1

/-- A `GET` line has arrived. -/
theorem serve_get_iff (hcut : cutLine lf (sock.inbox.take recvBufSize) = some (l, rest)) (hget : isGet l = true) :
    Serving files (s.serve files fd sock out beyond) ↔ ¬ Answered files sock ∧
        ∃ n, ((sock.inbox.take recvBufSize).drop 4).findIdx? (· == sp) = some n ∧
          Takes out (response files (window recvBufSize sock.inbox) n).length := by
  have hright := h.2 sock (.inl ⟨fd, hfd⟩)
  obtain ⟨m, c, hread, hm, hbuf, -, htaken, hsent, -⟩ :=
    @readHttpData_get beyond l rest ⟨sock, s.errno, replicate recvBufSize 0⟩ rfl hcut hget
  have hneg : ¬ (m : Int) < 0 := by omega
  have hzero : ¬ (m : Int) = 0 := by omega
  rw [Server.serve, hread]
  simp only [hneg, hzero, if_false, analysisHttpData, if_true, hbuf, findIdx?_window]
  cases hidx : ((sock.inbox.take recvBufSize).drop 4).findIdx? (· == sp) with
  | none => exact iff_of_false (fun h => absurd h.1 (by simp)) (by simp)
  | some n =>
    simp only [sendHttpData, if_true, writen, hbuf, some.injEq, exists_eq_left']
    by_cases hok : Takes out (response files (window recvBufSize sock.inbox) n).length
    · have hw := (@writeLoop_ok_iff out _ c.errno).mpr hok
      have hall := writeLoop_sent hw
      rw [hw, hall, and_iff_left hok, if_pos rfl, if_neg (by omega), serving_put_iff h]
      exact servedRight_get_iff hright hcut hget (isReply_response ..) htaken (by rw [hsent])
    have hw : (writeLoop out (response files (window recvBufSize sock.inbox) n) c.errno).1 = false :=
      Bool.eq_false_iff.mpr (mt writeLoop_ok_iff.mp hok)
    rw [hw]
    exact iff_of_false not_serving_returned fun hall => hok hall.2

/-- The three ways a read can go are all there are. -/
theorem serve_iff : Serving files (s.serve files fd sock out beyond) ↔ FineRead files s.errno sock out := by
  rw [FineRead]
  cases hcut : cutLine lf (sock.inbox.take recvBufSize) with
  | none => exact serve_none_iff h hfd hcut
  | some lr =>
    obtain ⟨l, rest⟩ := lr
    dsimp only
    cases hget : isGet l with
    | true => exact serve_get_iff h hfd hcut hget
    | false => exact serve_unknown_iff h hfd hcut hget

omit hfd in
theorem serving_step_iff (e : Event) : Serving files (s.step files e) ↔ Fine files s e := by
  rw [Server.step.eq_def, if_pos h.1]
  cases e with
  | listen fds e =>
    by_cases he : e = .eagain
    · refine iff_of_true ⟨if_pos he, fun x hx => ?_⟩ he
      rcases hx with ⟨i, hi⟩ | hx
      · rcases conns_acceptAll hi with rfl | hi
        · exact servedRight_accepted
        · exact h.2 x (.inl ⟨i, hi⟩)
      · exact h.2 x (.inr hx)
    · exact iff_of_false (fun h' => by simpa [he] using h'.1) he
  | waitFailed e =>
    by_cases he : e = .eintr
    · exact iff_of_true ⟨if_pos he, h.2⟩ he
    · exact iff_of_false (fun h' => by simpa [he] using h'.1) he
  | arrive fd b =>
    refine iff_of_true ?_ trivial
    dsimp only
    cases hfd : s.conns fd with
    | none => exact h
    | some sock =>
      exact (serving_put_iff (c := ⟨{ sock with inbox := sock.inbox ++ b }, s.errno, []⟩) h).mpr (h.2 sock (.inl ⟨fd, hfd⟩))
  | hangup fd tail =>
    refine iff_of_true ?_ trivial
    dsimp only
    cases hfd : s.conns fd with
    | none => exact h
    | some sock =>
      exact (serving_put_iff (c := ⟨{ sock with tail := tail }, s.errno, []⟩) h).mpr (h.2 sock (.inl ⟨fd, hfd⟩))
  | readable fd out beyond =>
    rw [Fine]
    dsimp only
    cases hfd : s.conns fd with
    | none => exact iff_of_true h (by simp)
    | some sock =>
      rw [serve_iff h hfd]
      simp

end Serve

/-! ## §6 Whole runs -/

end GokuStudio.WebServer

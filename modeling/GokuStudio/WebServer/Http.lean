import GokuStudio.Lib.Decimal
import GokuStudio.WebServer.Socket

/-!
# Requests and answers (`http_server_func.c`)

`read_http_data` reads the first line of a request; if it is a `GET` line it
goes on, line by line, until a line that looks like the end. It reads into one
buffer at increasing offsets, and the buffer is never longer than the front of
the queue. So all of it can be said of the queue (`readHttpData_none`,
`readHttpData_unknown`, `readHttpData_get`): the first line decides, and `lines`
is what a `GET` takes.
-/

namespace GokuStudio.WebServer

open Lib List

def recvBufSize : Nat := 512
def ascii (s : String) : Bytes := s.toList.map fun c => UInt8.ofNat c.toNat

def httpRsp200Def : Bytes := ascii "HTTP/1.1 200" ++ ascii (" OK\r\nServer: learn_c_web_server\r\n" ++
    "Content-Type: text/html; charset=UTF-8\r\nConnection: Close\r\nContent-Length: ")

def httpRsp404Def : Bytes := ascii "HTTP/1.1 404" ++ ascii (" Not Found\r\nServer: learn_c_web_server\r\n" ++
    "Content-Type: text/html; charset=UTF-8\r\nConnection: Close\r\nContent-Length: 147\r\n\r\n" ++
    "<!DOCTYPE html><html><head><title>404 Not Found</title></head><body>" ++
    "<p>404 Not Found: The requested resource could not be found!</p></body></html>")

inductive DataRecvType where
  | get
  | post
  | head
  | unknown
deriving DecidableEq, Repr

/-- An entry of `s_list`: the path without its NUL, and the file. -/
structure SrcFile where
  fPath : Bytes
  fData : Bytes
deriving DecidableEq, Repr

/-! ## §1 The functions -/

/-- `recvinfo->buf[i]`. The byte behind the buffer is whatever is there. -/
def bufAt (beyond : UInt8) (buf : Bytes) (i : Nat) : UInt8 :=
  if i < recvBufSize then buf.getD i 0 else beyond

/-- The loop of `read_http_data`; `ret` is what the last `readline` returned. -/
def recvRest (beyond : UInt8) (c : Call) (recvedLen ret : Nat) (_hret : 0 < ret) : Except Fatal (Nat × Call) :=
  if recvedLen < recvBufSize then
    if bufAt beyond c.buf (0 + recvedLen) ≠ cr ∧ bufAt beyond c.buf (1 + recvedLen) ≠ lf then
      match readline c (recvedLen + ret) (recvBufSize - (recvedLen + ret)) with
      | .error f => .error f
      | .ok (ret', c) =>
        if hle : ret' ≤ 0 then .ok (recvedLen + ret, c)
        else recvRest beyond c (recvedLen + ret) ret'.toNat (by omega)
    else .ok (recvedLen, c)
  else .error .undefined
termination_by recvBufSize - recvedLen

def readHttpData (beyond : UInt8) (c : Call) : Except Fatal (Int × DataRecvType × Call) :=
  match readline c 0 recvBufSize with
  | .error f => .error f
  | .ok (ret, c) =>
    if hneg : ret < 0 then .ok (ret, .get, c)
    else if hzero : ret = 0 then .ok (ret, .get, c)
    else if c.buf.take 4 = ascii "GET " then
      match recvRest beyond c 0 ret.toNat (by omega) with
      | .error f => .error f
      | .ok (recvedLen, c) => .ok (recvedLen, .get, c)
    else .ok (-1, .unknown, c)

/-- The length of the path. The search for its end does not stop at the end of
the buffer. -/
def analysisHttpData (type : DataRecvType) (buf : Bytes) : Except Fatal (Int × Nat) :=
  if type = .get then
    match (buf.drop 4).findIdx? (· == sp) with
    | some filePathLen => .ok (0, filePathLen)
    | none => .error .undefined
  else .ok (-1, 0)

/-- `0 == strncmp(a, b, n)`. -/
def strncmpEq : Nat → Bytes → Bytes → Bool
  | 0, _, _ => true
  | n + 1, a, b =>
    if a.headD 0 ≠ b.headD 0 then false
    else if a.headD 0 = 0 then true
    else strncmpEq n a.tail b.tail

section
variable (files : List SrcFile) (buf : Bytes) (filePathLen : Nat)

def findSrc : Option SrcFile :=
  files.find? fun f => filePathLen == f.fPath.length && strncmpEq f.fPath.length (buf.drop 4) f.fPath

def rsp200 (f : SrcFile) : Bytes := httpRsp200Def ++ dec f.fData.length ++ ascii "\r\n\r\n" ++ f.fData

/-- What is sent for the path of this length in the buffer. -/
def response : Bytes :=
  match findSrc files buf filePathLen with
  | some f => rsp200 f
  | none => httpRsp404Def

def sendHttpData (out : List Wrote) (type : DataRecvType) (filePathLen : Nat)
    (c : Call) : Int × Call :=
  if type = .get then writen out c (response files c.buf filePathLen) else (-1, c)

end

/-! ## §2 What is taken off the queue -/

def isGet (line : Bytes) : Bool := line.take 4 == ascii "GET "

/-- The loop ends at a line that starts with a carriage return, or whose second
byte is a line feed; `d` stands for the byte behind the last one. -/
def stops (d : UInt8) (b : Bytes) : Bool := b.headD d == cr || b.tail.headD d == lf

/-- The lines at the front of `b` that the loop takes. A line that is not there
yet is taken as far as it goes. -/
def lines (d : UInt8) (b : Bytes) : Bytes :=
  match _h : cutLine lf b with
  | none => b
  | some (l, rest) => if stops d b then l else l ++ lines d rest
termination_by b.length
decreasing_by
  obtain ⟨c, rfl, -, rfl⟩ := cutLine_eq_some _h
  simp only [List.length_append, List.length_singleton]
  omega

/-- The byte behind the bytes in the buffer. -/
def behind (beyond : UInt8) (q : Bytes) : UInt8 := if q.length < recvBufSize then 0 else beyond

section Spec
variable {d beyond : UInt8} {q b l rest : Bytes} {r : Nat} {c : Call}

theorem lines_none (h : cutLine lf b = none) : lines d b = b := by
  rw [lines]
  split
  · rfl
  · simp_all

theorem lines_some (h : cutLine lf b = some (l, rest)) : lines d b = if stops d b then l else l ++ lines d rest := by
  rw [lines]
  split <;> simp_all

theorem stops_iff : stops d b = true ↔ ¬ (b.headD d ≠ cr ∧ b.tail.headD d ≠ lf) := by
  rw [stops, Bool.or_eq_true, beq_iff_eq, beq_iff_eq, not_and_or, not_not, not_not]

theorem lines_eq_append (h : cutLine lf b = some (l, rest)) : ∃ x, lines d b = l ++ x := by
  rw [lines_some h]
  by_cases hs : stops d b = true
  · exact ⟨[], by rw [if_pos hs, append_nil]⟩
  · exact ⟨_, by rw [if_neg hs]⟩

theorem length_of_cutLine (h : cutLine lf b = some (l, rest)) : 0 < l.length ∧ b.length = l.length + rest.length := by
  obtain ⟨x, rfl, -, rfl⟩ := cutLine_eq_some h
  exact ⟨by simp, length_append⟩

/-- The first line is at the front of the queue. -/
theorem take_of_cutLine {size : Nat} (hcut : cutLine lf (q.take size) = some (l, rest)) : q.take l.length = l := by
  obtain ⟨-, -, -, hsplit⟩ := cutLine_eq_some hcut
  have hle := (length_of_cutLine hcut).2.symm.le.trans (length_take_le ..)
  have := congrArg (take l.length) hsplit
  rwa [take_take, Nat.min_eq_left (by omega), take_left] at this

theorem atEnd_spec (c : Call) : (atEnd c).1 ≤ 0 ∧ (atEnd c).2.buf = c.buf ∧
    (atEnd c).2.sock.inbox = c.sock.inbox ∧ (atEnd c).2.sock.taken = c.sock.taken ∧
    (atEnd c).2.sock.sent = c.sock.sent ∧ (c.sock.tail = .open →
      (atEnd c).2.sock.tail = .open ∧ ((atEnd c).2.errno = c.errno ∨ (atEnd c).2.errno = .eagain)) := by
  cases hin : c.sock.inbox with
  | nil => cases htail : c.sock.tail <;> simp [atEnd, hin, htail]
  | cons a q => simp [atEnd, hin]

theorem bufAt_window {i : Nat} (hi : i ≤ (q.take recvBufSize).length) :
    bufAt beyond (window recvBufSize q) i = ((q.take recvBufSize).drop i).headD (behind beyond q) := by
  have hlen : (q.take recvBufSize).length = min recvBufSize q.length := length_take
  rw [bufAt, behind, window, getD_eq_getElem?_getD, headD_eq_head?_getD, head?_drop]
  by_cases hlt : i < (q.take recvBufSize).length
  · rw [if_pos (by omega), getElem?_append_left hlt, getElem?_eq_getElem hlt]
    rfl
  have hnone : (q.take recvBufSize)[i]? = none := getElem?_eq_none (by omega)
  rw [hnone]
  by_cases hq : q.length < recvBufSize
  · rw [if_pos (by omega), if_pos hq, getElem?_append_right (by omega), getElem?_replicate]
    split <;> rfl
  · rw [if_neg (by omega), if_neg hq]
    rfl

/-- The first look at the queue fills the buffer. -/
theorem readline_fresh (hbuf : c.buf = replicate recvBufSize 0) : readline c 0 recvBufSize =
      readline { c with buf := window recvBufSize c.sock.inbox } 0 recvBufSize := by
  have hpeek : recvPeek c 0 recvBufSize = recvPeek { c with buf := window recvBufSize c.sock.inbox } 0 recvBufSize := by
    cases hin : c.sock.inbox with
    | nil =>
      have : c = { c with buf := window recvBufSize [] } := by
        rw [window]
        simp [← hbuf]
      rw [← this]
    | cons a q =>
      have hz : pwrite c.buf 0 ((a :: q).take recvBufSize) = window recvBufSize (a :: q) := by
        rw [pwrite_eq (Nat.zero_le _), hbuf, window, take_zero, nil_append, drop_replicate, Nat.zero_add, length_take]
        congr 2
        omega
      have hw : pwrite (window recvBufSize (a :: q)) 0 ((a :: q).take recvBufSize) = window recvBufSize (a :: q) := by
        have := @pwrite_window recvBufSize 0 (min recvBufSize (a :: q).length) (a :: q) (by omega) (by omega)
        rwa [drop_zero, ← take_eq_take_min] at this
      simp only [recvPeek, hin, hz, hw]
  rw [readline, readline, readlineLoop, hpeek]
  conv_rhs => rw [readlineLoop]

theorem reading_fresh (c : Call) : Reading recvBufSize c.sock.inbox 0 { c with buf := window recvBufSize c.sock.inbox } :=
  ⟨rfl, rfl, Nat.zero_le _, Nat.zero_le _⟩

/-- The loop takes the lines it should. The line it has read last starts at `r`. -/
theorem recvRest_spec (n : Nat) : ∀ {b l rest : Bytes} {r : Nat} {c : Call} (hpos : 0 < l.length),
    b.length = n → (q.take recvBufSize).drop r = b → cutLine lf b = some (l, rest) →
    Reading recvBufSize q (r + l.length) c →
    ∃ m c', recvRest beyond c r l.length hpos = .ok (m, c') ∧ r ≤ m ∧
      (stops (behind beyond q) b = false → r + l.length ≤ m) ∧ c'.buf = window recvBufSize q ∧
      c'.sock.inbox = q.drop (r + (lines (behind beyond q) b).length) ∧
      c'.sock.taken = c.sock.taken ++ (lines (behind beyond q) b).drop l.length ∧
      c'.sock.sent = c.sock.sent ∧
      (c.sock.tail = .open → c'.sock.tail = .open ∧ (c'.errno = c.errno ∨ c'.errno = .eagain)) := by
  induction n using Nat.strong_induction_on with
  | _ n ih =>
    intro b l rest r c hpos hn hb hcut hR
    obtain ⟨-, -, -, hsplit⟩ := cutLine_eq_some hcut
    have hblen := (length_of_cutLine hcut).2
    have hwlen : r + b.length = (q.take recvBufSize).length := by
      have := congrArg length hb
      rw [length_drop] at this
      omega
    have hlt : r < recvBufSize := by
      have := length_take_le recvBufSize q
      omega
    have h0 : bufAt beyond c.buf (0 + r) = b.headD (behind beyond q) := by
      rw [hR.buf, Nat.zero_add, bufAt_window (by omega), hb]
    have h1 : bufAt beyond c.buf (1 + r) = b.tail.headD (behind beyond q) := by
      rw [hR.buf, Nat.add_comm, bufAt_window (by omega), ← drop_drop, hb, drop_one]
    have hlines := lines_some (d := behind beyond q) hcut
    rw [recvRest, if_pos hlt, h0, h1]
    by_cases hs : stops (behind beyond q) b = true
    · rw [if_pos hs] at hlines
      rw [if_neg (stops_iff.mp hs), hlines]
      exact ⟨r, c, rfl, le_rfl, fun h => absurd h (by rw [hs]; simp), hR.buf, hR.inbox, by simp, rfl,
        fun h => ⟨h, .inl rfl⟩⟩
    rw [if_neg hs] at hlines
    have hrest : (q.take recvBufSize).drop (r + l.length) = rest := by
      rw [← drop_drop, hb, hsplit, drop_left]
    have hdrop : (l ++ lines (behind beyond q) rest).drop l.length = lines (behind beyond q) rest := drop_left
    rw [if_pos (not_not.mp (mt stops_iff.mpr hs)), hlines, hdrop]
    cases hcut' : cutLine lf rest with
    | none =>
      -- the rest of the window is taken, and nothing follows it
      have hread := hR.readline_none (by rw [hrest]; exact hcut')
      have htake : c.sock.inbox.take rest.length = rest := by
        have := @take_drop_rest recvBufSize (r + l.length) q
        rwa [hrest, ← hR.inbox] at this
      rw [hrest] at hread
      obtain ⟨hle, hbuf, hin, htk, hsent, htail⟩ := atEnd_spec { c with sock := c.sock.take rest.length }
      simp only [hread, dif_pos hle, lines_none hcut']
      refine ⟨_, _, rfl, Nat.le_add_right .., fun _ => le_rfl, hbuf.trans hR.buf, hin.trans ?_,
        htk.trans ?_, hsent, htail⟩
      · change c.sock.inbox.drop rest.length = _
        rw [hR.inbox, drop_drop, length_append, Nat.add_assoc]
      · change c.sock.taken ++ c.sock.inbox.take rest.length = _
        rw [htake]
    | some lr =>
      obtain ⟨l', rest'⟩ := lr
      obtain ⟨hpos', hlen'⟩ := length_of_cutLine hcut'
      have hread := hR.readline_line (by rw [hrest]; exact hcut')
      have hwin := length_take (i := recvBufSize) (l := q)
      have hR' := hR.take (k := l'.length) (by omega) (by omega)
      have htake : c.sock.inbox.take l'.length = l' :=
        @take_of_cutLine _ _ rest' (recvBufSize - (r + l.length)) (by rw [hR.inbox, ← drop_take, hrest, hcut'])
      obtain ⟨m, c', hrun, hm, -, hbuf, hin, htk, hsent, htail⟩ := ih rest.length (by omega) hpos' rfl hrest hcut' hR'
      have hnle : ¬ (l'.length : Int) ≤ 0 := by omega
      simp only [hread, dif_neg hnle, Int.toNat_natCast, hrun]
      refine ⟨m, c', rfl, by omega, fun _ => hm, hbuf, hin.trans ?_, htk.trans ?_, hsent, htail⟩
      · rw [length_append, Nat.add_assoc]
      · obtain ⟨x, hx⟩ := @lines_eq_append (behind beyond q) rest l' rest' hcut'
        change c.sock.taken ++ c.sock.inbox.take l'.length ++ _ = _
        rw [htake, hx, drop_left, append_assoc]

theorem isGet_iff (hcut : cutLine lf (q.take recvBufSize) = some (l, rest)) :
    (window recvBufSize q).take 4 = ascii "GET " ↔ isGet l = true := by
  obtain ⟨x, rfl, hx, hsplit⟩ := cutLine_eq_some hcut
  have hw : window recvBufSize q = x ++ [lf] ++ (rest ++ replicate (recvBufSize - q.length) 0) := by
    rw [window, hsplit, append_assoc]
  rw [isGet, beq_iff_eq, hw]
  by_cases hlen : 4 ≤ (x ++ [lf]).length
  · rw [take_append_of_le_length hlen]
  -- a shorter line has its line feed among the four bytes
  have hmem : ∀ y : Bytes, lf ∈ (x ++ [lf] ++ y).take 4 := by
    intro y
    rw [take_append, take_of_length_le (by omega)]
    simp
  have hno : lf ∉ ascii "GET " := by decide
  have h1 := hmem (rest ++ replicate (recvBufSize - q.length) 0)
  have h2 := hmem []
  rw [append_nil] at h2
  exact iff_of_false (fun h => hno (h ▸ h1)) fun h => hno (h ▸ h2)

theorem stops_get (hcut : cutLine lf b = some (l, rest)) (hget : isGet l = true) : stops d b = false := by
  obtain ⟨-, -, -, rfl⟩ := cutLine_eq_some hcut
  rw [isGet, beq_iff_eq] at hget
  match l, hget with
  | a :: a' :: _, hget =>
    have ha : a = 71 := (cons.inj hget).1
    have ha' : a' = 69 := (cons.inj (cons.inj hget).2).1
    rw [ha, ha']
    rfl
  | [_], hget => exact absurd (cons.inj hget).2 (by decide)
  | [], hget => exact absurd hget (by decide)

variable (hbuf : c.buf = List.replicate recvBufSize 0)
include hbuf

/-- No line in the window: the window is taken and the request is not looked at. -/
theorem readHttpData_none {c' : Call} (hcut : cutLine lf (c.sock.inbox.take recvBufSize) = none)
    (hc' : c' = { c with
      buf := window recvBufSize c.sock.inbox
      sock := c.sock.take (c.sock.inbox.take recvBufSize).length }) :
    readHttpData beyond c = .ok ((atEnd c').1, .get, (atEnd c').2) := by
  have hread := (reading_fresh c).readline_none (by rw [drop_zero]; exact hcut)
  rw [drop_zero, Nat.sub_zero] at hread
  have hle := (atEnd_spec c').1
  rw [readHttpData, readline_fresh hbuf, hread, ← hc']
  rcases Int.lt_or_eq_of_le hle with h | h
  · simp only [dif_pos h]
  · simp only [h, Int.lt_irrefl, dif_neg, dif_pos, not_false_eq_true]

variable (hcut : cutLine lf (c.sock.inbox.take recvBufSize) = some (l, rest))
include hcut

/-- A line that is no `GET` line is taken; `errno` is what it was. -/
theorem readHttpData_unknown (hget : isGet l = false) : readHttpData beyond c = .ok (-1, .unknown, { c with
      buf := window recvBufSize c.sock.inbox, sock := c.sock.take l.length }) := by
  have hread := (reading_fresh c).readline_line (by rw [drop_zero]; exact hcut)
  rw [Nat.sub_zero] at hread
  have hpos := (length_of_cutLine hcut).1
  have hneg : ¬ (l.length : Int) < 0 := by omega
  have hzero : ¬ (l.length : Int) = 0 := by omega
  have hno : ¬ (window recvBufSize c.sock.inbox).take 4 = ascii "GET " := by
    rw [isGet_iff hcut, hget]
    simp
  rw [readHttpData, readline_fresh hbuf, hread]
  simp only [dif_neg hneg, dif_neg hzero, if_neg hno]

/-- A `GET` line is taken with the lines behind it. -/
theorem readHttpData_get (hget : isGet l = true) :
    ∃ (m : Nat) (c' : Call), readHttpData beyond c = .ok ((m : Int), .get, c') ∧ 0 < m ∧
      c'.buf = window recvBufSize c.sock.inbox ∧
      c'.sock.inbox = c.sock.inbox.drop
        (l ++ lines (behind beyond c.sock.inbox) rest).length ∧
      c'.sock.taken = c.sock.taken ++ (l ++ lines (behind beyond c.sock.inbox) rest) ∧
      c'.sock.sent = c.sock.sent ∧
      (c.sock.tail = .open → c'.sock.tail = .open ∧ (c'.errno = c.errno ∨ c'.errno = .eagain)) := by
  have hread := (reading_fresh c).readline_line (by rw [drop_zero]; exact hcut)
  rw [Nat.sub_zero] at hread
  obtain ⟨hpos, hlen⟩ := length_of_cutLine hcut
  have hneg : ¬ (l.length : Int) < 0 := by omega
  have hzero : ¬ (l.length : Int) = 0 := by omega
  have hwin := length_take (i := recvBufSize) (l := c.sock.inbox)
  have htake : c.sock.inbox.take l.length = l := take_of_cutLine hcut
  have hR := (reading_fresh c).take (k := l.length) (by omega) (by omega)
  have hstop := @stops_get (behind beyond c.sock.inbox) _ _ _ hcut hget
  obtain ⟨m, c', hrun, -, hm, hbuf', hin, htk, hsent, htail⟩ :=
    @recvRest_spec beyond c.sock.inbox _ _ _ _ _ _ hpos rfl (drop_zero ..) hcut hR
  have hlines := lines_some (d := behind beyond c.sock.inbox) hcut
  rw [if_neg (by rw [hstop]; simp)] at hlines
  rw [hlines] at hin htk
  rw [readHttpData, readline_fresh hbuf, hread]
  simp only [dif_neg hneg, dif_neg hzero, if_pos ((isGet_iff hcut).mpr hget), Int.toNat_natCast, hrun]
  refine ⟨m, c', rfl, by have := hm hstop; omega, hbuf', hin.trans (by rw [Nat.zero_add]), htk.trans ?_, hsent, htail⟩
  change c.sock.taken ++ c.sock.inbox.take l.length ++ _ = _
  rw [htake, drop_left, append_assoc]

end Spec
end GokuStudio.WebServer

import GokuStudio.Lib.Files
import GokuStudio.Lib.Lines

/-!
# Sockets (`lib_sock_timeout_func.c`)

A client's connection is what waits in the socket's receive queue, what follows
it, and two histories: the bytes the server has taken off the queue and the
bytes it has written back. Nothing arrives in the middle of a call, so a call is
a function of the socket, of `errno` and of the buffer.

`readline` looks at the queue (`MSG_PEEK`), takes the bytes off it up to the
first line feed, and otherwise takes all it saw and looks again.
-/

namespace GokuStudio.WebServer

open Lib List

def lf : UInt8 := 10
def cr : UInt8 := 13
def sp : UInt8 := 32

/-- `EWOULDBLOCK` is `EAGAIN`. -/
inductive Errno where
  | eagain
  | eintr
  | ebadf
  | etimedout
  | other (n : Nat)
deriving DecidableEq, Repr

/-- What a read finds behind the queue: nothing yet, the end, or an error. -/
inductive Tail where
  | open
  | fin
  | error (e : Errno)
deriving DecidableEq, Repr

structure Sock where
  inbox : Bytes
  tail : Tail
  taken : Bytes
  sent : Bytes
deriving DecidableEq, Repr

/-- How a call ends the program: `exit(EXIT_FAILURE)`, or a walk through memory
that is not the program's. -/
inductive Fatal where
  | exit
  | undefined
deriving DecidableEq, Repr

structure Call where
  sock : Sock
  errno : Errno
  buf : Bytes
deriving DecidableEq, Repr

/-! ## §1 Reading -/

/-- `recv` with `MSG_PEEK`. On a queue that is not empty it returns at once, with
0 if it may not return any byte. -/
def recvPeek (c : Call) (bufp len : Nat) : Int × Call :=
  match c.sock.inbox with
  | [] =>
    match c.sock.tail with
    | .open => (-1, { c with errno := .eagain })
    | .fin => (0, c)
    | .error e => (-1, { c with errno := e, sock := { c.sock with tail := .fin } })
  | a :: b =>
    ((((a :: b).take len).length : Nat), { c with buf := pwrite c.buf bufp ((a :: b).take len) })

/-- The first `n` bytes leave the queue. -/
def Sock.take (s : Sock) (n : Nat) : Sock :=
  { s with inbox := s.inbox.drop n, taken := s.taken ++ s.inbox.take n }

/-- Both callers know that there are `count` bytes; with fewer, `readn` would
wait for the rest and return something else than `count`. -/
def readn (c : Call) (bufp count : Nat) : Int × Call := (((c.sock.inbox.take count).length : Nat),
    { c with sock := c.sock.take count, buf := pwrite c.buf bufp (c.sock.inbox.take count) })

def readlineLoop (c : Call) (bufp nleft maxline : Nat) : Except Fatal (Int × Call) :=
  match recvPeek c bufp nleft with
  | (ret, c) =>
    if _hneg : ret < 0 then .ok (ret, c)
    else if _hzero : ret = 0 then .ok (ret, c)
    else
      let nread := ret.toNat
      match (pread c.buf bufp nread).findIdx? (· == lf) with
      | some i =>
        match readn c bufp (i + 1) with
        | (ret, c) =>
          if ret ≠ i + 1 then .error .exit
          else .ok (((maxline - nleft : Nat) : Int) + ret, c)
      | none =>
        if _hleft : nleft < nread then .error .exit
        else
          match readn c bufp nread with
          | (ret, c) =>
            if ret ≠ nread then .error .exit
            else readlineLoop c (bufp + nread) (nleft - nread) maxline
termination_by nleft

def readline (c : Call) (bufp maxline : Nat) : Except Fatal (Int × Call) := readlineLoop c bufp maxline maxline

/-! ## §2 What a line is -/

/-- The buffer of `size` bytes shows the front of the queue, and zeros. -/
def window (size : Nat) (q : Bytes) : Bytes := q.take size ++ List.replicate (size - q.length) 0

/-- The call has read `r` bytes of the queue `q` into its buffer. What it has
only looked at is in the buffer too. -/
structure Reading (size : Nat) (q : Bytes) (r : Nat) (c : Call) : Prop where
  inbox : c.sock.inbox = q.drop r
  buf : c.buf = window size q
  le_size : r ≤ size
  le_length : r ≤ q.length

/-- Behind the bytes that fit into the buffer: what `recv` returns there. -/
def atEnd (c : Call) : Int × Call :=
  match c.sock.inbox with
  | [] =>
    match c.sock.tail with
    | .open => (-1, { c with errno := .eagain })
    | .fin => (0, c)
    | .error e => (-1, { c with errno := e, sock := { c.sock with tail := .fin } })
  | _ :: _ => (0, c)

section Readline
variable {size r k : Nat} {q l rest : Bytes} {c : Call}

theorem length_window : (window size q).length = size := by
  simp only [window, length_append, length_take, length_replicate]
  omega

theorem pwrite_pread {f : Bytes} (h : r + k ≤ f.length) : pwrite f r (pread f r k) = f := by
  have hlen : (pread f r k).length = k := by
    simp only [pread, length_take, length_drop]
    omega
  rw [pwrite_eq (by omega), hlen, pread, ← drop_drop, take_append_drop, take_append_drop]

theorem pread_window (hs : r + k ≤ size) (hq : r + k ≤ q.length) : pread (window size q) r k = (q.drop r).take k := by
  have hlen : (q.take size).length = min size q.length := length_take
  rw [window, pread_append_left (by omega), pread, drop_take, take_take]
  congr 1
  omega

/-- The buffer keeps what it shows when bytes of the queue are read into it. -/
theorem pwrite_window (hs : r + k ≤ size) (hq : r + k ≤ q.length) :
    pwrite (window size q) r ((q.drop r).take k) = window size q := by
  rw [← pread_window hs hq]
  exact pwrite_pread (by rw [length_window]; exact hs)

theorem length_rest : ((q.take size).drop r).length = min size q.length - r := by
  rw [length_drop, length_take]

theorem take_drop_rest : (q.drop r).take ((q.take size).drop r).length = (q.take size).drop r := by
  rw [length_rest, drop_take]
  refine take_eq_take_iff.mpr ?_
  rw [length_drop]
  omega

variable (hR : Reading size q r c)
include hR

/-- The part of the queue that fits lies within the buffer and the queue. -/
theorem Reading.fits : r + ((q.take size).drop r).length ≤ size ∧ r + ((q.take size).drop r).length ≤ q.length := by
  have hle := hR.le_length
  have hsz := hR.le_size
  rw [length_rest]
  omega

theorem Reading.inbox_ne_nil (hne : (q.take size).drop r ≠ []) : c.sock.inbox ≠ [] := by
  intro h
  rw [hR.inbox] at h
  apply hne
  rw [drop_take, h, take_nil]

theorem Reading.recvPeek_eq (hne : c.sock.inbox ≠ []) :
    recvPeek c r (size - r) = ((((q.take size).drop r).length : Int), c) := by
  have htake : c.sock.inbox.take (size - r) = (q.take size).drop r := by
    rw [hR.inbox, ← drop_take]
  have hbuf : pwrite c.buf r ((q.take size).drop r) = c.buf := by
    have := pwrite_window hR.fits.1 hR.fits.2
    rwa [take_drop_rest, ← hR.buf] at this
  cases hin : c.sock.inbox with
  | nil => exact absurd hin hne
  | cons a b =>
    rw [hin] at htake
    simp only [recvPeek, hin, htake, hbuf]

theorem Reading.readn_eq (hs : r + k ≤ size) (hq : r + k ≤ q.length) :
    readn c r k = ((k : Int), { c with sock := c.sock.take k }) := by
  have hlen : ((q.drop r).take k).length = k := by
    rw [length_take, length_drop]
    omega
  have hbuf : pwrite c.buf r ((q.drop r).take k) = c.buf := by
    rw [hR.buf]
    exact pwrite_window hs hq
  simp only [readn, hR.inbox, hlen, hbuf]

theorem Reading.take (hs : r + k ≤ size) (hq : r + k ≤ q.length) :
    Reading size q (r + k) { c with sock := c.sock.take k } := by
  refine ⟨?_, hR.buf, hs, hq⟩
  change c.sock.inbox.drop k = _
  rw [hR.inbox, drop_drop]

theorem Reading.findIdx?_eq : (pread c.buf r ((q.take size).drop r).length).findIdx? (· == lf) =
      (cutLine lf ((q.take size).drop r)).map fun lr => lr.1.length - 1 := by
  rw [hR.buf, pread_window hR.fits.1 hR.fits.2, take_drop_rest, findIdx?_eq_cutLine]

theorem Reading.atEnd_eq (hend : (q.take size).drop r = []) {maxline : Nat} :
    readlineLoop c r (size - r) maxline = .ok (atEnd c) := by
  rw [readlineLoop]
  cases hin : c.sock.inbox with
  | nil =>
    rw [recvPeek, atEnd, hin]
    cases c.sock.tail <;> simp
  | cons a b =>
    rw [hR.recvPeek_eq (by rw [hin]; simp), hend, atEnd, hin]
    simp

/-- A line in the part of the queue that fits: it is taken. -/
theorem Reading.readline_line (hcut : cutLine lf ((q.take size).drop r) = some (l, rest)) :
    readline c r (size - r) = .ok ((l.length : Int), { c with sock := c.sock.take l.length }) := by
  obtain ⟨x, rfl, -, hsplit⟩ := cutLine_eq_some hcut
  have hfits := hR.fits
  have hlen : ((q.take size).drop r).length = x.length + 1 + rest.length := by
    rw [hsplit, length_append, length_append, length_singleton]
  have hne : (q.take size).drop r ≠ [] := by
    rw [hsplit]
    simp
  rw [readline, readlineLoop, hR.recvPeek_eq (hR.inbox_ne_nil hne)]
  simp only [Int.toNat_natCast, hR.findIdx?_eq, hcut, Option.map_some, length_append,
    length_singleton, Nat.add_sub_cancel]
  rw [dif_neg (by omega), dif_neg (by omega), hR.readn_eq (by omega) (by omega)]
  simp

/-- No line in it: it is taken all the same, and the call looks behind it. -/
theorem Reading.readline_none (hcut : cutLine lf ((q.take size).drop r) = none) :
    readline c r (size - r) = .ok (atEnd { c with sock := c.sock.take ((q.take size).drop r).length }) := by
  by_cases hend : (q.take size).drop r = []
  · rw [readline, hR.atEnd_eq hend, hend]
    simp [Sock.take]
  have hpos : 0 < ((q.take size).drop r).length := length_pos_iff.mpr hend
  have hfits := hR.fits
  have hdone : (q.take size).drop (r + ((q.take size).drop r).length) = [] := by
    rw [← drop_drop, drop_length]
  rw [readline, readlineLoop, hR.recvPeek_eq (hR.inbox_ne_nil hend)]
  simp only [Int.toNat_natCast, hR.findIdx?_eq, hcut, Option.map_none]
  rw [dif_neg (by omega), dif_neg (by omega), dif_neg (by omega), hR.readn_eq hfits.1 hfits.2]
  simp only [ne_eq, not_true_eq_false, if_false]
  rw [Nat.sub_sub]
  exact (hR.take hfits.1 hfits.2).atEnd_eq hdone

end Readline

/-! ## §3 Writing -/

/-- What one `write` to a client that can be written to comes back with. -/
inductive Wrote where
  | bytes (n : Nat)
  | failed (e : Errno)
deriving DecidableEq, Repr

/-- The loop of `writen`: has everything been written, what has been written, and
`errno`. When the client takes nothing more, `write_timeout` gives up. -/
def writeLoop : List Wrote → Bytes → Errno → Bool × Bytes × Errno
  | _, [], errno => (true, [], errno)
  | [], _ :: _, _ => (false, [], .etimedout)
  | .failed e :: out, a :: b, _ =>
    if e = .eintr then writeLoop out (a :: b) .eintr else (false, [], e)
  | .bytes n :: out, a :: b, errno =>
    ((writeLoop out ((a :: b).drop n) errno).1, (a :: b).take n ++ (writeLoop out ((a :: b).drop n) errno).2.1,
      (writeLoop out ((a :: b).drop n) errno).2.2)

def writen (out : List Wrote) (c : Call) (buf : Bytes) : Int × Call :=
  match writeLoop out buf c.errno with
  | (ok, sent, errno) =>
    (if ok then (buf.length : Int) else -1,
      { c with errno := errno, sock := { c.sock with sent := c.sock.sent ++ sent } })

/-- The client takes `n` bytes before it gives up or breaks the connection. -/
def Takes : List Wrote → Nat → Prop
  | _, 0 => True
  | [], _ + 1 => False
  | .failed e :: out, n + 1 => e = .eintr ∧ Takes out (n + 1)
  | .bytes k :: out, n + 1 => Takes out (n + 1 - k)

theorem writeLoop_ok_iff : ∀ {out : List Wrote} {buf : Bytes} {errno : Errno},
    (writeLoop out buf errno).1 = true ↔ Takes out buf.length
  | _, [], _ => by simp [writeLoop, Takes]
  | [], _ :: _, _ => by simp [writeLoop, Takes]
  | .failed e :: out, a :: b, errno => by
    have ih := @writeLoop_ok_iff out (a :: b) .eintr
    rw [writeLoop, length_cons, Takes]
    by_cases he : e = .eintr
    · rw [if_pos he, ih, and_iff_right he]
      rfl
    · simp [he]
  | .bytes n :: out, a :: b, errno => by
    have ih := @writeLoop_ok_iff out ((a :: b).drop n) errno
    rw [writeLoop, length_cons, Takes, ih, length_drop, length_cons]

/-- All of it, or a part from the front. -/
theorem writeLoop_sent : ∀ {out : List Wrote} {buf : Bytes} {errno : Errno},
    (writeLoop out buf errno).1 = true → (writeLoop out buf errno).2.1 = buf
  | _, [], _, _ => by simp [writeLoop]
  | [], _ :: _, _, h => by simp [writeLoop] at h
  | .failed e :: out, a :: b, errno, h => by
    rw [writeLoop] at h ⊢
    by_cases he : e = .eintr
    · rw [if_pos he] at h ⊢
      exact writeLoop_sent h
    · simp [he] at h
  | .bytes n :: out, a :: b, errno, h => by
    rw [writeLoop] at h ⊢
    rw [writeLoop_sent h, take_append_drop]

end GokuStudio.WebServer

import Mathlib.Data.List.Basic
import Mathlib.Tactic.Common
import Mathlib.Algebra.GroupWithZero.Nat

/-!
# The body of a proxied response (`ngx_http_proxy_module.c`, `ngx_event_pipe.c`)

A response with a `Content-Length` is copied by `ngx_http_proxy_copy_filter`, which the event
pipe calls with its buffers, or by `ngx_http_proxy_non_buffered_copy_filter`, called after every
read. Both put all they are given on the output chain and only then count it off the length that
is left. So they keep to the length exactly when no more than that is read. The bytes count
here, not their values; how much a read gives, and into how much room, is up to the upstream and
the pipe's buffers.
-/

namespace GokuStudio.Nginx.ProxyBody

open List Option

/-- What the two filters and the pipe keep of a response. `out` is what is on the output chain
(`p->in`, `u->out_bufs`), `raw` what is in the first of `free_raw_bufs`; the others are empty. -/
structure Body where
  length : Int
  out : Nat := 0
  raw : Nat := 0
  keepalive : Bool := false
  upstreamDone : Bool := false
  upstreamEof : Bool := false
deriving DecidableEq

section
variable (close : Bool) (p : Body) (n : Nat)

/-- `ngx_http_proxy_input_filter_init`, with a length in the header -/
def inputFilterInit (contentLength : Nat) : Body :=
  if contentLength = 0 then { length := 0, keepalive := !close } else { length := contentLength }

/-- `ngx_http_proxy_copy_filter`, with a buffer of `n` bytes -/
def copyFilter : Body :=
  if n = 0 then p
  else
    let p := { p with out := p.out + n }
    if p.length = -1 then p
    else
      let p := { p with length := p.length - n }
      if p.length = 0 then { p with upstreamDone := true, keepalive := !close }
      else if p.length < 0 then { p with upstreamDone := true }
      else p

/-- `ngx_http_proxy_non_buffered_copy_filter` -/
def nonBufferedCopyFilter (u : Body) (bytes : Nat) : Body :=
  let u := { u with out := u.out + bytes }
  if u.length = -1 then u
  else
    let u := { u with length := u.length - bytes }
    if u.length = 0 then { u with keepalive := !close } else u

/-! ## §1 The event pipe -/

/-- One `recv_chain`: the bytes it got, and the room in the buffers of the chain. -/
structure Recv where
  n : Nat
  room : List Nat
  pos : 0 < n
  fits : n ≤ room.sum

/-- The `while (cl && n > 0)` loop: buffers that are full go to the filter. -/
def fill (close : Bool) (p : Body) (n : Nat) : List Nat → Body
  | [] => p
  | size :: room =>
    if n = 0 then p
    else if n ≥ size then fill close (copyFilter close { p with raw := 0 } (p.raw + size)) (n - size) room
    else { p with raw := p.raw + n }

/-- The `for ( ;; )` loop. There is no result if it would not have made all these reads. -/
def readLoop (close : Bool) (p : Body) : List Recv → Option Body
  | [] => some p
  | r :: rs => if p.upstreamDone then none else readLoop close (fill close p r.n r.room) rs

/-- A partly filled buffer goes to the filter once it holds all that is missing. -/
def flushRaw : Body :=
  if p.length ≠ -1 ∧ (p.raw : Int) ≥ p.length then copyFilter close { p with raw := 0 } p.raw else p

/-- A call that reads: what `recv_chain` gave, and whether it said at last that the upstream has
closed the connection. -/
structure Call where
  reads : List Recv
  eof : Bool

/-- `ngx_event_pipe_read_upstream` -/
def readUpstream (c : Call) : Option Body :=
  if p.upstreamEof || p.upstreamDone then none
  else (readLoop close p c.reads).bind fun p =>
    if c.eof && p.upstreamDone then none
    else
      let p := flushRaw close { p with upstreamEof := c.eof }
      let p := if p.length = 0 then { p with upstreamDone := true } else p
      some (if p.upstreamEof then copyFilter close { p with raw := 0 } p.raw else p)

/-- What the upstream has sent in the course of these calls. -/
def received (cs : List Call) : Nat := (cs.map fun c => (c.reads.map Recv.n).sum).sum

/-! ## §2 Reads that are passed on at once -/

/-- A turn of `ngx_http_upstream_process_non_buffered_request`: the bytes of `recv`, and whether
the client has then taken all there was (`u->busy_bufs == NULL`). -/
structure Turn where
  n : Nat
  drained : Bool

/-- The request is finalized, and nothing more is read, once the client has it all. -/
def nonBufferedRequest (u : Body) (t : Turn) : Option Body :=
  if u.upstreamDone then none
  else
    let u := nonBufferedCopyFilter close u t.n
    some (if t.drained && u.length = 0 then { u with upstreamDone := true } else u)

end

/-! ## §3 The counter as long as it is a length -/

/-- After `t` bytes of a body of `l`. Past `l` the counter says nothing: at -1 it has become the
mark of an unknown length. -/
structure Counted (l t : Nat) (p : Body) : Prop where
  total : p.out + p.raw = t
  left : p.out ≤ l → p.length = l - p.out
  reused : p.keepalive = true → l ≤ p.out

/-- The body is cut at its length, and the connection is used again only if that was all. -/
def Honours (l t : Nat) (p : Body) : Prop := p.out ≤ l ∧ (p.keepalive = true → t = l)

variable {close : Bool} {l t n : Nat} {p p' : Body}

theorem Counted.honours_iff (h : Counted l t p) (hraw : p.out ≤ l → t ≤ l) : Honours l t p ↔ t ≤ l := by
  have := h.total
  constructor
  · intro hp
    exact hraw hp.1
  · intro ht
    refine ⟨by omega, fun hk => ?_⟩
    have := h.reused hk
    omega

theorem counted_init : Counted l 0 (inputFilterInit close l) := by
  rw [inputFilterInit]
  split
  · exact ⟨rfl, by simp_all, by simp_all⟩
  · exact ⟨rfl, by simp, by simp⟩

/-- What was raw, and `n` bytes more, goes to the filter. -/
theorem Counted.copyFilter (h : Counted l t p) (close : Bool) (n : Nat) :
    Counted l (t + n) (copyFilter close { p with raw := 0 } (p.raw + n)) := by
  obtain ⟨ht, hl, hk⟩ := h
  rw [ProxyBody.copyFilter]
  split
  · exact ⟨by simp; omega, hl, hk⟩
  · dsimp only
    (repeat' split) <;> constructor <;> grind

theorem Counted.nonBuffered (h : Counted l t p) (close : Bool) (n : Nat) :
    Counted l (t + n) (nonBufferedCopyFilter close p n) := by
  obtain ⟨ht, hl, hk⟩ := h
  rw [nonBufferedCopyFilter]
  (repeat' split) <;> constructor <;> grind

theorem nonBuffered_raw : (nonBufferedCopyFilter close p n).raw = p.raw := by
  rw [nonBufferedCopyFilter]
  dsimp only
  (repeat' split) <;> rfl

theorem copyFilter_raw : (ProxyBody.copyFilter close p n).raw = p.raw := by
  rw [ProxyBody.copyFilter]
  dsimp only
  (repeat' split) <;> rfl

/-! ## §4 Reads, calls and runs -/

section
variable (h : Counted l t p)
include h

theorem Counted.fill {room : List Nat} (hfits : n ≤ room.sum) : Counted l (t + n) (fill close p n room) := by
  induction room generalizing p n t with
  | nil =>
    obtain rfl : n = 0 := Nat.le_zero.mp hfits
    exact h
  | cons size room ih =>
    rw [sum_cons] at hfits
    rw [ProxyBody.fill]
    split
    · next h0 => exact h0 ▸ h
    split
    · next hge =>
      have := ih (n := n - size) (h.copyFilter close size) (by omega)
      rwa [Nat.add_assoc, Nat.add_sub_cancel' hge] at this
    · exact ⟨by have := h.total; show p.out + (p.raw + n) = t + n; omega, h.left, h.reused⟩

theorem Counted.readLoop {rs : List Recv} (hp : readLoop close p rs = some p') :
    Counted l (t + (rs.map Recv.n).sum) p' := by
  induction rs generalizing p t with
  | nil => exact some.inj hp ▸ h
  | cons r rs ih =>
    rw [ProxyBody.readLoop] at hp
    split at hp
    · cases hp
    · rw [map_cons, sum_cons, ← Nat.add_assoc]
      exact ih (h.fill r.fits) hp

/-- At the end of a call there is nothing raw beyond the length. -/
def Flushed (l t : Nat) (p : Body) : Prop := Counted l t p ∧ (p.out ≤ l → t ≤ l)

theorem Counted.handed : Flushed l t (ProxyBody.copyFilter close { p with raw := 0 } p.raw) := by
  have hc := h.copyFilter close 0
  have := hc.total
  rw [copyFilter_raw] at this
  refine ⟨hc, fun hout => ?_⟩
  simp only [Nat.add_zero] at this hout
  omega

theorem Counted.flushRaw (close : Bool) : Flushed l t (flushRaw close p) := by
  rw [ProxyBody.flushRaw]
  split
  · exact h.handed
  refine ⟨h, fun hout => ?_⟩
  have := h.left hout
  have := h.total
  omega

theorem Flushed.readUpstream {c : Call} (hp : readUpstream close p c = some p') :
    Flushed l (t + (c.reads.map Recv.n).sum) p' := by
  rw [ProxyBody.readUpstream] at hp
  split at hp
  · cases hp
  obtain ⟨q, hq, hp⟩ := bind_eq_some_iff.mp hp
  have hc := h.readLoop hq
  split at hp
  · cases hp
  have hc' : Counted l _ { q with upstreamEof := c.eof } := ⟨hc.total, hc.left, hc.reused⟩
  have hf := hc'.flushRaw close
  generalize ProxyBody.flushRaw close { q with upstreamEof := c.eof } = f at hf hp
  obtain rfl := some.inj hp
  -- the flags that the rest of the call sets are none of the counter's business
  have hd : Flushed l (t + (c.reads.map Recv.n).sum) (if f.length = 0 then { f with upstreamDone := true } else f) := by
    split
    · exact ⟨⟨hf.1.total, hf.1.left, hf.1.reused⟩, hf.2⟩
    · exact hf
  generalize (if f.length = 0 then { f with upstreamDone := true } else f) = g at hd
  split
  · exact hd.1.handed
  · exact hd

end

theorem flushed_run {cs : List Call} (h : Flushed l t p) (hp : cs.foldlM (readUpstream close) p = some p') :
    Flushed l (t + received cs) p' := by
  induction cs generalizing p t with
  | nil => exact some.inj hp ▸ h
  | cons c cs ih =>
    rw [foldlM_cons] at hp
    obtain ⟨q, hq, hp⟩ := bind_eq_some_iff.mp hp
    have := ih (Flushed.readUpstream h.1 hq) hp
    rwa [Nat.add_assoc] at this

theorem counted_turns {ts : List Turn} (h : Counted l t p) (hraw : p.raw = 0)
    (hp : ts.foldlM (nonBufferedRequest close) p = some p') :
    Counted l (t + (ts.map Turn.n).sum) p' ∧ p'.raw = 0 := by
  induction ts generalizing p t with
  | nil => exact some.inj hp ▸ ⟨h, hraw⟩
  | cons a ts ih =>
    rw [foldlM_cons] at hp
    obtain ⟨q, hq, hp⟩ := bind_eq_some_iff.mp hp
    rw [nonBufferedRequest] at hq
    split at hq
    · cases hq
    have hc := h.nonBuffered close a.n
    have hr : (nonBufferedCopyFilter close p a.n).raw = 0 := nonBuffered_raw.trans hraw
    obtain rfl := some.inj hq
    rw [map_cons, sum_cons, ← Nat.add_assoc]
    refine ih ?_ ?_ hp
    · split
      · exact ⟨hc.total, hc.left, hc.reused⟩
      · exact hc
    · split <;> exact hr

/-- Neither filter keeps to the declared length if more is read: they keep to it, and mark the
connection rightly, exactly when no more than the length is read. -/
theorem copy_filters_honour_length_iff (close : Bool) (l : Nat) :
    (∀ cs p, cs.foldlM (readUpstream close) (inputFilterInit close l) = some p →
      (Honours l (received cs) p ↔ received cs ≤ l)) ∧
    ∀ (ts : List Turn) u, ts.foldlM (nonBufferedRequest close) (inputFilterInit close l) = some u →
      (Honours l (ts.map Turn.n).sum u ↔ (ts.map Turn.n).sum ≤ l) := by
  constructor
  · intro cs p hp
    have hf := flushed_run ⟨counted_init, fun _ => Nat.zero_le l⟩ hp
    rw [Nat.zero_add] at hf
    exact hf.1.honours_iff hf.2
  · intro ts u hu
    have hraw : (inputFilterInit close l).raw = 0 := by
      rw [inputFilterInit]
      split <;> rfl
    obtain ⟨hc, hr⟩ := counted_turns counted_init hraw hu
    rw [Nat.zero_add] at hc
    refine hc.honours_iff fun hout => ?_
    have := hc.total
    omega

/-- A body of four bytes in two reads, with room for three in the first buffer. -/
theorem copy_filters_honour_length_four :
    (Honours 4 4 { length := 0, out := 4, keepalive := true, upstreamDone := true } ↔ 4 ≤ 4) ∧
    (Honours 4 4 { length := 0, out := 4, keepalive := true } ↔ 4 ≤ 4) :=
  ⟨(copy_filters_honour_length_iff false 4).1 [⟨[⟨2, [3, 5], by decide, by decide⟩, ⟨2, [1, 5], by decide, by decide⟩], false⟩]
      _ (by decide),
    (copy_filters_honour_length_iff false 4).2 [⟨3, true⟩, ⟨1, false⟩] _ (by decide)⟩

/-- Four bytes are announced and six come. Where the pipe's buffers hold four bytes, one read
fills one buffer, and the connection is marked, before the other two bytes follow. -/
theorem surplus_passed_on :
    ([⟨[⟨6, [4, 4], by decide, by decide⟩], false⟩] : List Call).foldlM (readUpstream false) (inputFilterInit false 4) =
      some { length := -2, out := 6, keepalive := true, upstreamDone := true } ∧
    ([⟨4, false⟩, ⟨1, false⟩, ⟨9, true⟩] : List Turn).foldlM (nonBufferedRequest false) (inputFilterInit false 4) =
      some { length := -1, out := 14, keepalive := true } := by
  decide

end GokuStudio.Nginx.ProxyBody

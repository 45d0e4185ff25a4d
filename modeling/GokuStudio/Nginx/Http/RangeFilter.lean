import GokuStudio.Lib.Decimal
import GokuStudio.Nginx.Http.Range

/-!
# Answers with ranges (`ngx_http_range_header_filter`, `ngx_http_range_body_filter`)

The header filters announce the length of the answer and prepare the headers of its
parts. The body filter is called with chains of buffers, once or more often. It cuts
one range out of them as they pass, or, for more than one range, cuts all of them out
of the first buffer.

A buffer points into memory, into a file, or both. Failures of the allocator are left
out.
-/

namespace GokuStudio.Nginx

open Lib

/-! ## §1 Buffers -/

/-- `ngx_buf_t`. Any of `temporary`, `memory` and `mmap` makes a buffer `inMemory`; `pos`
and `last` are positions in `mem`, `filePos` and `fileLast` in `file`. -/
structure Buf where
  inMemory : Bool := false
  inFile : Bool := false
  flush : Bool := false
  sync : Bool := false
  lastBuf : Bool := false
  mem : Bytes := []
  pos : Nat := 0
  last : Nat := 0
  file : Bytes := []
  filePos : Nat := 0
  fileLast : Nat := 0
deriving DecidableEq, Repr

namespace Buf

/-- `ngx_buf_special` -/
def special (b : Buf) : Bool := (b.flush || b.lastBuf || b.sync) && !b.inMemory && !b.inFile

/-- `ngx_buf_size` -/
def size (b : Buf) : Int :=
  if b.inMemory then (b.last : Int) - b.pos else (b.fileLast : Int) - b.filePos

/-- A buffer in memory with these bytes. -/
def ofBytes (w : Bytes) : Buf := { inMemory := true, mem := w, last := w.length }

end Buf

/-! ## §2 The headers -/

/-- Those fields of `r->headers_out` that the filter reads. -/
structure HeadersOut where
  contentType : Bytes := []
  contentTypeLen : Nat := 0
  charset : Bytes := []
  contentLength : Int
deriving DecidableEq, Repr

namespace RangeFilter

def atomicLen : Nat := 20
def crlf : Bytes := [CR, LF]

/-- `%0muA` -/
def boundaryText (boundary : Nat) : Bytes :=
  List.replicate (atomicLen - (dec boundary).length) ('0' : UInt8) ++ dec boundary

/-- An element of `ctx->ranges`, with its `content_range`. -/
structure Part where
  range : HttpRange
  contentRange : Bytes := []
deriving DecidableEq, Repr

/-- `ngx_http_range_filter_ctx_t` -/
structure Ctx where
  offset : Int := 0
  boundaryHeader : Bytes := []
  ranges : List Part
deriving DecidableEq, Repr

/-- What a header filter leaves: the context, and the new `content_length_n`. -/
structure Announced where
  ctx : Ctx
  contentLength : Int
deriving DecidableEq, Repr

/-- `ngx_http_range_singlepart_header` -/
def singlepartHeader (r : HttpRange) : Announced := ⟨{ ranges := [{ range := r }] }, offT (r.stop - r.start)⟩

section
variable (h : HeadersOut) (boundary : Nat)

/-- The `Content-Type` line of a part. -/
def typeLine : Bytes :=
  if h.contentTypeLen = h.contentType.length ∧ h.charset ≠ [] then
    text "Content-Type: ".toList ++ h.contentType ++ text "; charset=".toList ++ h.charset ++ crlf
  else if h.contentType ≠ [] then text "Content-Type: ".toList ++ h.contentType ++ crlf
  else []

def boundaryHeader : Bytes :=
  crlf ++ text "--".toList ++ boundaryText boundary ++ crlf ++ typeLine h ++ text "Content-Range: bytes ".toList

/-- `%O-%O/%O` and two line ends -/
def contentRange (r : HttpRange) : Bytes :=
  decInt r.start ++ text "-".toList ++ decInt (r.stop - 1) ++ text "/".toList ++ decInt h.contentLength ++ crlf ++ crlf

/-- The value that a `size_t` holds. -/
def sizeT (n : Int) : Nat := (n % 2 ^ 64).toNat

/-- The loop that sums up `len`. -/
def multipartLen (headerLen : Nat) : Nat → List Part → Nat
  | len, [] => len
  | len, p :: ps =>
    multipartLen headerLen
      (sizeT (len + (headerLen + p.contentRange.length + sizeT (p.range.stop - p.range.start)))) ps

/-- `ngx_http_range_multipart_header`; the boundary is `ngx_next_temp_number`. -/
def multipartHeader (ranges : List HttpRange) : Announced :=
  let header := boundaryHeader h boundary
  let parts := ranges.map fun r => { range := r, contentRange := contentRange h r }
  ⟨{ boundaryHeader := header, ranges := parts }, offT (multipartLen header.length (4 + atomicLen + 4) parts)⟩

/-- What `ngx_http_range_header_filter` does with the ranges that have been parsed. -/
def header : List HttpRange → Announced
  | [r] => singlepartHeader r
  | ranges => multipartHeader h boundary ranges

end

/-! ## §3 One range -/

section
variable (c : Ctx) (b : Buf)

/-- A buffer before the range, or behind it. -/
def skip : Buf :=
  { b with filePos := if b.inFile then b.fileLast else b.filePos, pos := b.last, sync := true }

def cutStart (n : Nat) : Buf :=
  { b with
    filePos := if b.inFile then b.filePos + n else b.filePos
    pos := if b.inMemory then b.pos + n else b.pos }

def cutEnd (n : Nat) : Buf :=
  { b with
    fileLast := if b.inFile then b.fileLast - n else b.fileLast
    last := if b.inMemory then b.last - n else b.last
    lastBuf := true }

/-- What the loop has done to the rest of a chain: the offset behind it, the first link
that goes out, if there is one, and what follows it, and the links as they are now. -/
structure Sent where
  offset : Int
  out : Option (List Buf)
  links : List Buf
deriving DecidableEq, Repr

/-- `*ll = cl; ll = &cl->next;`. If no later link goes out, the link keeps its `next`. -/
def Sent.keep (s : Sent) : Sent :=
  let chain := b :: s.out.getD s.links
  ⟨s.offset, some chain, chain⟩

/-- The loop of `ngx_http_range_singlepart_body`. -/
def singlepartLoop (range : HttpRange) : Int → List Buf → Sent
  | offset, [] => ⟨offset, none, []⟩
  | start, b :: rest =>
    let last := offT (start + b.size)
    if b.special then (singlepartLoop range last rest).keep b
    else if range.stop ≤ start ∨ range.start ≥ last then
      let s := singlepartLoop range last rest
      { s with links := skip b :: s.links }
    else
      let b := if range.start > start then cutStart b (range.start - start).toNat else b
      if range.stop ≤ last then
        let b := cutEnd b (last - range.stop).toNat
        ⟨last, some [b], [b]⟩
      else (singlepartLoop range last rest).keep b

def singlepartBody (range : HttpRange) (chain : List Buf) : Ctx × List Buf :=
  let s := singlepartLoop range c.offset chain
  ({ c with offset := s.offset }, s.out.getD [])

/-! ## §4 Several ranges -/

/-- `ngx_http_range_test_overlapped`: the new offset, or `NGX_ERROR`. -/
def testOverlapped : Option Int :=
  if c.offset ≠ 0 then none
  else if !b.lastBuf && c.ranges.any fun p =>
      decide (c.offset > p.range.start) || decide (offT (c.offset + b.size) < p.range.stop) then none
  else some b.size

/-- The part of a buffer that a range asks for. -/
def window (r : HttpRange) : Buf :=
  { inMemory := b.inMemory
    inFile := b.inFile
    file := b.file
    filePos := if b.inFile then b.filePos + r.start.toNat else 0
    fileLast := if b.inFile then b.filePos + r.stop.toNat else 0
    mem := b.mem
    pos := if b.inMemory then b.pos + r.start.toNat else 0
    last := if b.inMemory then b.pos + r.stop.toNat else 0 }

/-- `ngx_http_range_multipart_body` -/
def multipartBody : List Buf := (c.ranges.flatMap fun p =>
    [.ofBytes c.boundaryHeader, .ofBytes p.contentRange, window b p.range]) ++
  [{ Buf.ofBytes (c.boundaryHeader.take (4 + atomicLen) ++ text "--".toList ++ crlf) with
      lastBuf := true }]

/-! ## §5 The filter -/

/-- `ngx_http_range_body_filter`: the context and what goes to the next filter, or
`NGX_ERROR`. -/
def bodyFilter : List Buf → Option (Ctx × List Buf)
  | [] => some (c, [])
  | b :: rest =>
    match c.ranges with
    | [p] => some (singlepartBody c p.range (b :: rest))
    | _ =>
      if b.special then some (c, b :: rest)
      else
        match testOverlapped c b with
        | none => none
        | some offset => some ({ c with offset := offset }, multipartBody c b)

end

/-- The calls of the filter for one answer, and all that goes to the next filter. -/
def bodyCalls : Ctx → List (List Buf) → Option (List Buf)
  | _, [] => some []
  | c, chain :: calls => do
      let (c, out) ← bodyFilter c chain
      let outs ← bodyCalls c calls
      pure (out ++ outs)

end RangeFilter
end GokuStudio.Nginx

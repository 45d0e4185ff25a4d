import GokuStudio.Lib.Resume
import GokuStudio.Nginx.Core

/-!
# Chunked bodies (`ngx_http_parse_chunked`, `ngx_http_request_body_chunked_filter`)

The parser reads the lines between the data and stops where data begins; the
filter then takes as many bytes as the chunk has left, or as the buffer has, and
calls it again. Sizes are of type `off_t`, a 64-bit number with a sign; their
arithmetic wraps around.

The filter is modelled without `client_max_body_size` and without the failures of
the allocator.
-/

namespace GokuStudio.Nginx

open Lib

namespace Chunked

inductive State where
  | chunkStart
  | chunkSize
  | chunkExtension
  | chunkExtensionAlmostDone
  | chunkData
  | afterData
  | afterDataAlmostDone
  | lastChunkExtension
  | lastChunkExtensionAlmostDone
  | trailer
  | trailerAlmostDone
  | trailerHeader
  | trailerHeaderAlmostDone
deriving DecidableEq, Repr

/-- `ngx_http_chunked_t` -/
structure Ctx where
  state : State := .chunkStart
  size : Int := 0
  length : Int := 0
deriving DecidableEq, Repr

/-- `goto data`, `goto done`, `goto invalid`. -/
inductive Exit where
  | data
  | done
  | invalid
deriving DecidableEq, Repr

abbrev Move := Turn Ctx Exit

/-! ## §1 The cases of the switch -/

/-- The two tests that `sw_chunk_start` and `sw_chunk_size` begin with. -/
def hexDigit (ch : UInt8) : Option Int :=
  if isDigit ch then some (ch - '0').toNat
  else if isHexLetter ch then some (letterValue ch).toNat
  else none

section
variable (ch : UInt8) (c : Ctx)

def swChunkStart : Move :=
  match hexDigit ch with
  | some d => .next { c with size := d, state := .chunkSize }
  | none => .exit .invalid c

/-- The two switches at the end of `sw_chunk_size`. -/
def sizeEnd (cr lf ext : State) (ch : UInt8) (c : Ctx) : Move :=
  if ch = CR then .next { c with state := cr }
  else if ch = LF then .next { c with state := lf }
  else if ch = ';' ∨ ch = ' ' ∨ ch = '\t' then .next { c with state := ext }
  else .exit .invalid c

def swChunkSize : Move :=
  match hexDigit ch with
  | some d => .next { c with size := offT (c.size * 16 + d) }
  | none =>
    if c.size = 0 then sizeEnd .lastChunkExtensionAlmostDone .trailer .lastChunkExtension ch c
    else sizeEnd .chunkExtensionAlmostDone .chunkData .chunkExtension ch c

/-- The states that skip what is not the end of a line. -/
def skipLine (cr lf : State) (ch : UInt8) (c : Ctx) : Move :=
  if ch = CR then .next { c with state := cr }
  else if ch = LF then .next { c with state := lf }
  else .next c

/-- The states behind a carriage return. -/
def almostDone (next : State) (ch : UInt8) (c : Ctx) : Move :=
  if ch = LF then .next { c with state := next } else .exit .invalid c

def swTrailer : Move :=
  if ch = CR then .next { c with state := .trailerAlmostDone }
  else if ch = LF then .exit .done c
  else .next { c with state := .trailerHeader }

def swTrailerAlmostDone : Move := .exit (if ch = LF then .done else .invalid) c

def step : Move :=
  match c.state with
  | .chunkStart => swChunkStart ch c
  | .chunkSize => swChunkSize ch c
  | .chunkExtension => skipLine .chunkExtensionAlmostDone .chunkData ch c
  | .chunkExtensionAlmostDone => almostDone .chunkData ch c
  | .chunkData => .exit .data c
  | .afterData => skipLine .afterDataAlmostDone .chunkStart ch c
  | .afterDataAlmostDone => almostDone .chunkStart ch c
  | .lastChunkExtension => skipLine .lastChunkExtensionAlmostDone .trailer ch c
  | .lastChunkExtensionAlmostDone => almostDone .trailer ch c
  | .trailer => swTrailer ch c
  | .trailerAlmostDone => swTrailerAlmostDone ch c
  | .trailerHeader => skipLine .trailerHeaderAlmostDone .trailer ch c
  | .trailerHeaderAlmostDone => almostDone .trailer ch c

/-! ## §2 The call -/

def lengthOf : Int :=
  match c.state with
  | .chunkStart => 3
  | .chunkSize => if c.size ≠ 0 then offT (1 + (c.size + 4)) else 2
  | .chunkExtension | .chunkExtensionAlmostDone => offT (1 + c.size + 4)
  | .chunkData => offT (c.size + 4)
  | .afterData | .afterDataAlmostDone => 4
  | .lastChunkExtension | .lastChunkExtensionAlmostDone => 2
  | .trailer | .trailerAlmostDone => 1
  | .trailerHeader | .trailerHeaderAlmostDone => 2

end

/-- `data:`, which the end of the buffer also leads to. -/
def atData (rc : Rc) (c : Ctx) (pos : Nat) : Ret Rc Ctx :=
  let c := { c with length := lengthOf c }
  if c.size < 0 ∨ c.length < 0 then ⟨.error, c, pos⟩ else ⟨rc, c, pos⟩

/-- What a call begins with: a chunk of which nothing is left has been read. -/
def enter (c : Ctx) : Ctx :=
  if c.state = .chunkData ∧ c.size = 0 then { c with state := .afterData } else c

end Chunked

def parseChunked (c : Chunked.Ctx) (buf : Bytes) (pos : Nat) : Ret Rc Chunked.Ctx :=
  match scanFrom (fun _ => Chunked.step) pos (Chunked.enter c) (buf.drop pos) with
  | .again c' => Chunked.atData .again c' buf.length
  | .found .data c' p => Chunked.atData .ok c' p
  | .found .done c' p => ⟨.done, { c' with state := .chunkStart }, p + 1⟩
  | .found .invalid c' _ => ⟨.error, { c' with state := c.state }, pos⟩

/-! ## §3 The filter -/

namespace Chunked

/-- How the loop over one buffer ends. It is never `stuck`; that would be a loop
that goes on longer than the buffer is. -/
inductive Fed where
  | more (c : Ctx)
  | done (pos : Nat)
  | error
  | stuck
deriving DecidableEq, Repr

/-- `for ( ;; )` over one buffer; `out` is what the chunks have held so far. -/
def filterBuf (buf : Bytes) : Nat → Ctx → Nat → Bytes → Fed × Bytes
  | 0, _, _, out => (.stuck, out)
  | fuel + 1, c, pos, out =>
    match parseChunked c buf pos with
    | ⟨.ok, c', p⟩ =>
      let size := buf.length - p
      if (size : Int) > c'.size then
        filterBuf buf fuel { c' with size := 0 } (p + c'.size.toNat)
          (out ++ slice buf p (p + c'.size.toNat))
      else
        filterBuf buf fuel { c' with size := offT (c'.size - size) } buf.length
          (out ++ slice buf p buf.length)
    | ⟨.done, _, p⟩ => (.done p, out)
    | ⟨.again, c', _⟩ => (.more c', out)
    | _ => (.error, out)

inductive Outcome where
  | more (c : Ctx)
  | done (rest : Bytes)
  | error
  | stuck
deriving DecidableEq, Repr

end Chunked

/-- The filter on the buffers of a body, up to the call that returns `NGX_DONE` or
`NGX_ERROR`; `rest` is what has not been read then. A call that fails hands nothing
on. -/
def chunkedFilter : Chunked.Ctx → List Bytes → Chunked.Outcome × Bytes
  | c, [] => (.more c, [])
  | c, b :: bs =>
    match Chunked.filterBuf b (b.length + 1) c 0 [] with
    | (.more c', out) => ((chunkedFilter c' bs).1, out ++ (chunkedFilter c' bs).2)
    | (.done p, out) => (.done (b.drop p ++ bs.flatten), out)
    | (.error, _) => (.error, [])
    | (.stuck, _) => (.stuck, [])

end GokuStudio.Nginx

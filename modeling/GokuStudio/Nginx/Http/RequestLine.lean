import GokuStudio.Lib.Resume
import GokuStudio.Nginx.Core

/-!
# The request line (`ngx_http_parse_request_line`)

One byte at a time; what the parser finds it records in the request, as positions
in the buffer. The local variable `state` is kept in `r->state` when the buffer
ends. The two `p--` of the source, which have a byte read again in another
state, are calls of that state's case. The Win32 branches are left out.
-/

namespace GokuStudio.Nginx

open Lib

/-! ## §1 The request -/

inductive Method where
  | unknown
  | get
  | head
  | post
  | put
  | delete
  | mkcol
  | copy
  | move
  | options
  | propfind
  | proppatch
  | lock
  | unlock
  | patch
  | trace
deriving DecidableEq, Repr

namespace RequestLine

inductive State where
  | start
  | method
  | spacesBeforeUri
  | schema
  | schemaSlash
  | schemaSlashSlash
  | hostStart
  | host
  | hostEnd
  | hostIpLiteral
  | port
  | hostHttp09
  | afterSlashInUri
  | checkUri
  | checkUriHttp09
  | uri
  | http09
  | httpH
  | httpHT
  | httpHTT
  | httpHTTP
  | firstMajorDigit
  | majorDigit
  | firstMinorDigit
  | minorDigit
  | spacesAfterDigit
  | almostDone
deriving DecidableEq, Repr

end RequestLine

/-- The fields of `ngx_http_request_t` that the parser of the request line uses,
with the values `ngx_http_create_request` gives them. The version numbers are
16-bit fields. -/
structure Request where
  state : RequestLine.State := .start
  method : Method := .unknown
  httpVersion : Nat := 1000
  httpMajor : UInt16 := 0
  httpMinor : UInt16 := 0
  requestStart : Option Nat := none
  requestEnd : Option Nat := none
  methodEnd : Option Nat := none
  schemaStart : Option Nat := none
  schemaEnd : Option Nat := none
  hostStart : Option Nat := none
  hostEnd : Option Nat := none
  portEnd : Option Nat := none
  uriStart : Option Nat := none
  uriEnd : Option Nat := none
  uriExt : Option Nat := none
  argsStart : Option Nat := none
  httpProtocol : Option Nat := none
  complexUri : Bool := false
  quotedUri : Bool := false
  plusInUri : Bool := false
  spaceInUri : Bool := false
deriving DecidableEq, Repr

namespace RequestLine

/-- `goto done`, or one of the two `return`s. -/
inductive Exit where
  | done
  | invalidMethod
  | invalidRequest
deriving DecidableEq, Repr

abbrev Move := Turn Request Exit

/-! ## §2 The cases of the switch -/

def usualTable : List UInt32 :=
  [0xffffdbfe, 0x7fff37d6, 0xffffffff, 0xffffffff, 0xffffffff, 0xffffffff, 0xffffffff, 0xffffffff]

def usual (ch : UInt8) : Bool := usualTable.getD (ch >>> 5).toNat 0 &&& (1 <<< (ch &&& 0x1f).toUInt32) ≠ 0
def methodByte (ch : UInt8) : Bool := isUpper ch ∨ ch = '_'

/-- The comparisons under `switch (p - m)`. A name that none of them knows leaves
`r->method` alone. -/
def methodOf (name : Bytes) (r : Request) : Method :=
  if name = text ['G', 'E', 'T'] then .get
  else if name = text ['P', 'U', 'T'] then .put
  else if name = text ['P', 'O', 'S', 'T'] then .post
  else if name = text ['C', 'O', 'P', 'Y'] then .copy
  else if name = text ['M', 'O', 'V', 'E'] then .move
  else if name = text ['L', 'O', 'C', 'K'] then .lock
  else if name = text ['H', 'E', 'A', 'D'] then .head
  else if name = text ['M', 'K', 'C', 'O', 'L'] then .mkcol
  else if name = text ['P', 'A', 'T', 'C', 'H'] then .patch
  else if name = text ['T', 'R', 'A', 'C', 'E'] then .trace
  else if name = text ['D', 'E', 'L', 'E', 'T', 'E'] then .delete
  else if name = text ['U', 'N', 'L', 'O', 'C', 'K'] then .unlock
  else if name = text ['O', 'P', 'T', 'I', 'O', 'N', 'S'] then .options
  else if name = text ['P', 'R', 'O', 'P', 'F', 'I', 'N', 'D'] then .propfind
  else if name = text ['P', 'R', 'O', 'P', 'P', 'A', 'T', 'C', 'H'] then .proppatch
  else r.method

section
variable (buf : Bytes) (p : Nat) (ch : UInt8) (r : Request)

def swStart : Move :=
  if ch = CR ∨ ch = LF then .next { r with requestStart := some p }
  else if methodByte ch then .next { r with requestStart := some p, state := .method }
  else .exit .invalidMethod { r with requestStart := some p }

def swMethod : Move :=
  if ch = ' ' then
    .next { r with
      methodEnd := some (p - 1)
      method := methodOf (slice buf (r.requestStart.getD 0) p) r
      state := .spacesBeforeUri }
  else if methodByte ch then .next r
  else .exit .invalidMethod r

def swSpacesBeforeUri : Move :=
  if ch = '/' then .next { r with uriStart := some p, state := .afterSlashInUri }
  else if isLetter ch then .next { r with schemaStart := some p, state := .schema }
  else if ch = ' ' then .next r
  else .exit .invalidRequest r

def swSchema : Move :=
  if isLetter ch then .next r
  else if ch = ':' then .next { r with schemaEnd := some p, state := .schemaSlash }
  else .exit .invalidRequest r

/-- The states that wait for one byte. -/
def expect (want : UInt8) (state : State) (ch : UInt8) (r : Request) : Move :=
  if ch = want then .next { r with state := state } else .exit .invalidRequest r

/-- "use single "/" from request line to preserve pointers" -/
def noPath : Request :=
  { r with
    uriStart := r.schemaEnd.map (· + 1)
    uriEnd := r.schemaEnd.map (· + 2)
    state := .hostHttp09 }

def swHostEnd : Move :=
  if ch = ':' then .next { r with hostEnd := some p, state := .port }
  else if ch = '/' then
    .next { r with hostEnd := some p, uriStart := some p, state := .afterSlashInUri }
  else if ch = ' ' then .next (noPath { r with hostEnd := some p })
  else .exit .invalidRequest { r with hostEnd := some p }

def hostByte : Bool := isLetter ch ∨ isDigit ch ∨ ch = '.' ∨ ch = '-'

/-- Falls through to `sw_host_end`. -/
def swHost : Move :=
  if hostByte ch then .next r else swHostEnd p ch r

/-- Falls through to `sw_host`. -/
def swHostStart : Move :=
  if ch = '[' then .next { r with hostStart := some p, state := .hostIpLiteral }
  else swHost p ch { r with hostStart := some p, state := .host }

/-- What an IP literal may hold besides `]`: letters, digits, `:`, the unreserved
bytes and the sub-delims. -/
def literalByte : Bool := isDigit ch ∨ isLetter ch ∨ ch ∈ text [':', '-', '.', '_', '~',
    '!', '$', '&', '\x27', '(', ')', '*', '+', ',', ';', '=']

def swHostIpLiteral : Move :=
  if literalByte ch then .next r
  else if ch = ']' then .next { r with state := .hostEnd }
  else .exit .invalidRequest r

def swPort : Move :=
  if isDigit ch then .next r
  else if ch = '/' then
    .next { r with portEnd := some p, uriStart := some p, state := .afterSlashInUri }
  else if ch = ' ' then .next (noPath { r with portEnd := some p })
  else .exit .invalidRequest r

/-- The three states behind the URI, "space+ after URI"; they differ in what they
do with any other byte. -/
def spacesAfterUri (other : Move) (p : Nat) (ch : UInt8) (r : Request) : Move :=
  if ch = ' ' then .next r
  else if ch = CR then .next { r with httpMinor := 9, state := .almostDone }
  else if ch = LF then .exit .done { r with httpMinor := 9 }
  else if ch = 'H' then .next { r with httpProtocol := some p, state := .httpH }
  else other

def swHostHttp09 : Move := spacesAfterUri (.exit .invalidRequest r) p ch r

/-- The bytes that end the URI in all three states that read it; after a space the
parser goes on in `spaces`. Other bytes are `other`. -/
def uriEnd (spaces : State) (other : Move) (p : Nat) (ch : UInt8) (r : Request) : Move :=
  if ch = ' ' then .next { r with uriEnd := some p, state := spaces }
  else if ch = CR then .next { r with uriEnd := some p, httpMinor := 9, state := .almostDone }
  else if ch = LF then .exit .done { r with uriEnd := some p, httpMinor := 9 }
  else if ch = NUL then .exit .invalidRequest r
  else other

def afterSlashByte : Move :=
  if ch = '.' then .next { r with complexUri := true, state := .uri }
  else if ch = '%' then .next { r with quotedUri := true, state := .uri }
  else if ch = '/' then .next { r with complexUri := true, state := .uri }
  else if ch = '?' then .next { r with argsStart := some (p + 1), state := .uri }
  else if ch = '#' then .next { r with complexUri := true, state := .uri }
  else if ch = '+' then .next { r with plusInUri := true }
  else .next { r with state := .checkUri }

def swAfterSlashInUri : Move :=
  if usual ch then .next { r with state := .checkUri }
  else uriEnd .checkUriHttp09 (afterSlashByte p ch r) p ch r

def checkUriByte : Move :=
  if ch = '/' then .next { r with uriExt := none, state := .afterSlashInUri }
  else if ch = '.' then .next { r with uriExt := some (p + 1) }
  else if ch = '%' then .next { r with quotedUri := true, state := .uri }
  else if ch = '?' then .next { r with argsStart := some (p + 1), state := .uri }
  else if ch = '#' then .next { r with complexUri := true, state := .uri }
  else if ch = '+' then .next { r with plusInUri := true }
  else .next r

def swCheckUri : Move :=
  if usual ch then .next r
  else uriEnd .checkUriHttp09 (checkUriByte p ch r) p ch r

def swCheckUriHttp09 : Move :=
  spacesAfterUri (swCheckUri p ch { r with spaceInUri := true, state := .checkUri }) p ch r

def swUri : Move :=
  if usual ch then .next r
  else uriEnd .http09 (.next (if ch = '#' then { r with complexUri := true } else r)) p ch r

def swHttp09 : Move := spacesAfterUri (swUri p ch { r with spaceInUri := true, state := .uri }) p ch r
def digit : UInt16 := (ch - '0').toUInt16

def swFirstMajorDigit : Move :=
  if ch < '1' ∨ '9' < ch then .exit .invalidRequest r
  else .next { r with httpMajor := digit ch, state := .majorDigit }

def swMajorDigit : Move :=
  if ch = '.' then .next { r with state := .firstMinorDigit }
  else if isDigit ch then .next { r with httpMajor := r.httpMajor * 10 + digit ch }
  else .exit .invalidRequest r

def swFirstMinorDigit : Move :=
  if isDigit ch then .next { r with httpMinor := digit ch, state := .minorDigit }
  else .exit .invalidRequest r

def swMinorDigit : Move :=
  if ch = CR then .next { r with state := .almostDone }
  else if ch = LF then .exit .done r
  else if ch = ' ' then .next { r with state := .spacesAfterDigit }
  else if isDigit ch then .next { r with httpMinor := r.httpMinor * 10 + digit ch }
  else .exit .invalidRequest r

def swSpacesAfterDigit : Move :=
  if ch = ' ' then .next r
  else if ch = CR then .next { r with state := .almostDone }
  else if ch = LF then .exit .done r
  else .exit .invalidRequest r

def swAlmostDone : Move := .exit (if ch = LF then .done else .invalidRequest) { r with requestEnd := some (p - 1) }

def step : Move :=
  match r.state with
  | .start => swStart p ch r
  | .method => swMethod buf p ch r
  | .spacesBeforeUri => swSpacesBeforeUri p ch r
  | .schema => swSchema p ch r
  | .schemaSlash => expect '/' .schemaSlashSlash ch r
  | .schemaSlashSlash => expect '/' .hostStart ch r
  | .hostStart => swHostStart p ch r
  | .host => swHost p ch r
  | .hostEnd => swHostEnd p ch r
  | .hostIpLiteral => swHostIpLiteral ch r
  | .port => swPort p ch r
  | .hostHttp09 => swHostHttp09 p ch r
  | .afterSlashInUri => swAfterSlashInUri p ch r
  | .checkUri => swCheckUri p ch r
  | .checkUriHttp09 => swCheckUriHttp09 p ch r
  | .uri => swUri p ch r
  | .http09 => swHttp09 p ch r
  | .httpH => expect 'T' .httpHT ch r
  | .httpHT => expect 'T' .httpHTT ch r
  | .httpHTT => expect 'P' .httpHTTP ch r
  | .httpHTTP => expect '/' .firstMajorDigit ch r
  | .firstMajorDigit => swFirstMajorDigit ch r
  | .majorDigit => swMajorDigit ch r
  | .firstMinorDigit => swFirstMinorDigit ch r
  | .minorDigit => swMinorDigit ch r
  | .spacesAfterDigit => swSpacesAfterDigit ch r
  | .almostDone => swAlmostDone p ch r

end

/-- Only the method is looked up behind the byte that is read. -/
theorem step_append {buf : Bytes} {p : Nat} (more : Bytes) (ch : UInt8) (r : Request)
    (h : p < buf.length) : step (buf ++ more) p ch r = step buf p ch r := by
  rw [step, step, swMethod, swMethod, slice_append more (Nat.le_of_lt h)]

/-! ## §3 The call -/

/-- `done:` -/
def finish (r : Request) (p : Nat) : Ret Rc Request :=
  let r := { r with
    requestEnd := r.requestEnd.or (some p)
    httpVersion := r.httpMajor.toNat * 1000 + r.httpMinor.toNat
    state := .start }
  ⟨if r.httpVersion = 9 ∧ r.method ≠ .get then .invalid09Method else .ok, r, p + 1⟩

/-- A `return` from the loop leaves `b->pos` and `r->state` as they were at the
beginning of the call. -/
def leave (k : Request) (pos : Nat) (e : Exit) (r : Request) (p : Nat) : Ret Rc Request :=
  match e with
  | .done => finish r p
  | .invalidMethod => ⟨.invalidMethod, { r with state := k.state }, pos⟩
  | .invalidRequest => ⟨.invalidRequest, { r with state := k.state }, pos⟩

theorem leave_rc (k : Request) (pos : Nat) (e : Exit) (r : Request) (p : Nat) : (leave k pos e r p).rc ≠ .again := by
  cases e with
  | done =>
    rw [leave, finish]
    split <;> simp
  | invalidMethod | invalidRequest => simp [leave]

def parser : Resumable UInt8 Request Exit Rc where
  again := .again
  step := step
  leave := leave
  step_append := step_append
  leave_rc := leave_rc

end RequestLine

def parseRequestLine (r : Request) (buf : Bytes) (pos : Nat) : Ret Rc Request := RequestLine.parser.call r buf pos

end GokuStudio.Nginx

import GokuStudio.Nginx.Http.RequestLine

/-!
# The URI of a request (`ngx_http_parse_complex_uri`, `ngx_http_process_request_uri`)

A URI that the parser of the request line has found complex or quoted is read
once more: escapes are decoded, slashes merged, dot segments removed. The rest is
taken as it stands.

The variables `quoted_state` and `decoded`, which matter only in the two quoted
states, are arguments of these states. Where the second digit of an escape makes
the loop run again with the decoded byte and no byte of the URI, the case of
`quoted_state` is called. The Win32 branches are left out.
-/

namespace GokuStudio.Nginx

open Lib

namespace ComplexUri

inductive Plain where
  | usual
  | slash
  | dot
  | dotDot
deriving DecidableEq, Repr

inductive State where
  | plain (s : Plain)
  | quoted (s : Plain)
  | quotedSecond (s : Plain) (decoded : UInt8)
deriving DecidableEq, Repr

/-- `out` is what has been written to `r->uri.data`, so that `u` is its length;
`uriExt` is a position in it. -/
structure Scratch where
  state : State := .plain .usual
  out : Bytes := []
  uriExt : Option Nat := none
  plusInUri : Bool
  quotedUri : Bool
deriving DecidableEq, Repr

/-- `goto args`, `goto done`, or the `return`. -/
inductive Exit where
  | args
  | done
  | invalidRequest
deriving DecidableEq, Repr

abbrev Move := Turn Scratch Exit

/-! ## §1 The cases of the switch -/

/-- `*u++ = ch` -/
def Scratch.push (u : Scratch) (ch : UInt8) (s : Plain) : Scratch :=
  { u with out := u.out ++ [ch], state := .plain s }

section
variable (mergeSlashes : Bool) (s : Plain) (ch : UInt8) (u : Scratch)

/-- What the four plain states have in common, `s` being the present one. -/
def common : Move :=
  if ch = '%' then .next { u with state := .quoted s }
  else if ch = '?' then .exit .args u
  else if ch = '#' then .exit .done u
  else .next ({ u with plusInUri := u.plusInUri || ch = '+' }.push ch .usual)

def swUsual : Move :=
  if ch = '/' then .next ({ u with uriExt := none }.push ch .slash)
  else if ch = '.' then .next ({ u with uriExt := some (u.out.length + 1) }.push ch .usual)
  else common .usual ch u

def swSlash : Move :=
  if ch = '/' then .next (if mergeSlashes then { u with state := .plain .slash } else u.push ch .slash)
  else if ch = '.' then .next (u.push ch .dot)
  else common .slash ch u

def swDot : Move :=
  if ch = '/' then .next { u with out := u.out.dropLast, state := .plain .slash }
  else if ch = '.' then .next (u.push ch .dotDot)
  else common .dot ch u

/-- The loop that steps back to a slash. With argument `n` the pointer `u` is at
position `n - 1`, so 0 is the test `u < r->uri.data`. -/
def stepBack (out : Bytes) : Nat → Option Bytes
  | 0 => none
  | u + 1 => if out.getD u 0 = '/' then some (out.take (u + 1)) else stepBack out u

/-- `u -= 5` comes before the loop. -/
def swDotDot : Move :=
  if ch = '/' then
    match stepBack u.out (u.out.length - 4) with
    | none => .exit .invalidRequest u
    | some out => .next { u with out := out, state := .plain .slash }
  else common .dotDot ch u

def swPlain : Move :=
  if RequestLine.usual ch then .next (u.push ch .usual)
  else match s with
    | .usual => swUsual ch u
    | .slash => swSlash mergeSlashes ch u
    | .dot => swDot ch u
    | .dotDot => swDotDot ch u

def swQuoted : Move :=
  if isDigit ch then .next { u with quotedUri := true, state := .quotedSecond s (ch - '0') }
  else if isHexLetter ch then
    .next { u with quotedUri := true, state := .quotedSecond s (letterValue ch) }
  else .exit .invalidRequest { u with quotedUri := true }

def secondDigit : Move :=
  if ch = '%' ∨ ch = '#' then .next (u.push ch .usual)
  else if ch = NUL then .exit .invalidRequest u
  else swPlain mergeSlashes s ch u

def secondLetter : Move :=
  if ch = '?' then .next (u.push ch .usual)
  else swPlain mergeSlashes s ch { u with plusInUri := u.plusInUri || ch = '+' }

def swQuotedSecond (decoded ch : UInt8) (u : Scratch) : Move :=
  if isDigit ch then secondDigit mergeSlashes s ((decoded <<< 4) + (ch - '0')) u
  else if isHexLetter ch then secondLetter mergeSlashes s ((decoded <<< 4) + letterValue ch) u
  else .exit .invalidRequest u

def step : Move :=
  match u.state with
  | .plain s => swPlain mergeSlashes s ch u
  | .quoted s => swQuoted s ch u
  | .quotedSecond s decoded => swQuotedSecond mergeSlashes s decoded ch u

end

/-- The loop over the bytes of the URI. -/
def run (mergeSlashes : Bool) : Nat → Scratch → Bytes → Scan Scratch Exit := scanFrom fun _ => step mergeSlashes

end ComplexUri

/-! ## §2 The functions -/

/-- The strings of the request. One that is not set is empty. -/
structure UriStrings where
  uri : Bytes := []
  exten : Bytes := []
  args : Bytes := []
  unparsedUri : Bytes := []
  validUnparsedUri : Bool := false
deriving DecidableEq, Repr

/-- A request and the buffer that its pointers point to. -/
structure UriRequest extends Request where
  buf : Bytes
  strings : UriStrings := {}
deriving DecidableEq, Repr

namespace UriRequest

def start (r : UriRequest) : Nat := r.uriStart.getD 0
def finish (r : UriRequest) : Nat := r.uriEnd.getD 0

/-- The end of the path as far as the parser of the request line knows. -/
def pathEnd (r : UriRequest) : Nat :=
  match r.argsStart with
  | some a => a - 1
  | none => r.finish

end UriRequest

namespace ComplexUri

/-- What `done:` and `args:` both do. -/
def close (r : UriRequest) (u : Scratch) : UriRequest :=
  { r with
    uriExt := none
    argsStart := none
    plusInUri := u.plusInUri
    quotedUri := u.quotedUri
    strings := { r.strings with
      uri := u.out
      exten := match u.uriExt with
        | some e => u.out.drop e
        | none => r.strings.exten } }

/-- `args:` with `r->args_start` at `a`. Arguments in front of a `#` are stored at
once, others are left to the caller. -/
def closeArgs (r : UriRequest) (u : Scratch) (a : Nat) : UriRequest :=
  let args := slice r.buf a r.finish
  if ('#' : UInt8) ∈ args then
    { close r u with
      strings := { (close r u).strings with args := args.takeWhile (· ≠ ('#' : UInt8)) } }
  else { close r u with argsStart := some a }

end ComplexUri

section
variable (mergeSlashes : Bool) (r : UriRequest)

/-- `none` is `NGX_HTTP_PARSE_INVALID_REQUEST`. -/
def parseComplexUri : Option UriRequest :=
  let u : ComplexUri.Scratch := { plusInUri := r.plusInUri, quotedUri := r.quotedUri }
  match ComplexUri.run mergeSlashes r.start u (slice r.buf r.start r.finish) with
  | .again u => some (ComplexUri.close r u)
  | .found .done u _ => some (ComplexUri.close r u)
  | .found .args u p => some (ComplexUri.closeArgs r u (p + 1))
  | .found .invalidRequest _ _ => none

/-- What `ngx_http_process_request_uri` does after the path is known. -/
def processRequestUriTail : UriRequest :=
  { r with
    strings :=
      { uri := r.strings.uri
        exten := match r.uriExt with
          | some e => slice r.buf e r.pathEnd
          | none => r.strings.exten
        args := match r.argsStart with
          | some a => if a < r.finish then slice r.buf a r.finish else r.strings.args
          | none => r.strings.args
        unparsedUri := slice r.buf r.start r.finish
        validUnparsedUri := !r.spaceInUri } }

/-- The path stands in the request line as it is. -/
def takePath : UriRequest :=
  { r with strings := { r.strings with uri := slice r.buf r.start r.pathEnd } }

def processRequestUri : Option UriRequest :=
  (if r.complexUri || r.quotedUri then parseComplexUri mergeSlashes r else some (takePath r)).map
    processRequestUriTail

end
end GokuStudio.Nginx

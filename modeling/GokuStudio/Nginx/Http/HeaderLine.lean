import GokuStudio.Lib.Resume
import GokuStudio.Nginx.Core

/-!
# Header lines (`ngx_http_parse_header_line`)

Besides `state` the parser keeps two more local variables in the request when the
buffer ends: the hash of the name, and where in `lowcase_header` the next byte of
the name goes. In the record they stand in the place of the fields they are kept
in; `leave` puts the old values back where the source does not store them.
-/

namespace GokuStudio.Nginx

open Lib

namespace HeaderLine

inductive State where
  | start
  | name
  | spaceBeforeValue
  | value
  | spaceAfterValue
  | ignoreLine
  | almostDone
  | headerAlmostDone
deriving DecidableEq, Repr

def lcHeaderLen : Nat := 32

/-- The fields of `ngx_http_request_t` that the parser uses. `upstream` says that
the pointer of that name is not `NULL`. -/
structure Header where
  state : State := .start
  headerHash : UInt64 := 0
  lowcaseIndex : Nat := 0
  lowcaseHeader : Bytes := List.replicate lcHeaderLen 0
  invalidHeader : Bool := false
  upstream : Bool := false
  headerNameStart : Option Nat := none
  headerNameEnd : Option Nat := none
  headerStart : Option Nat := none
  headerEnd : Option Nat := none
deriving DecidableEq, Repr

/-- `goto done`, `goto header_done`, or the `return`. -/
inductive Exit where
  | done
  | headerDone
  | invalidHeader
deriving DecidableEq, Repr

abbrev Move := Turn Header Exit

/-! ## §1 The cases of the switch -/

/-- The table of this name: 0 for a byte that is not expected in a name. -/
def lowcase (ch : UInt8) : UInt8 :=
  if ch = '-' ∨ isDigit ch ∨ isLower ch then ch
  else if isUpper ch then ch ||| 0x20
  else 0

def ngxHash (key : UInt64) (c : UInt8) : UInt64 := key * 31 + c.toUInt64

/-- The first byte of a name. -/
def firstNameByte (c : UInt8) (r : Header) : Header :=
  { r with
    headerHash := ngxHash 0 c
    lowcaseHeader := r.lowcaseHeader.set 0 c
    lowcaseIndex := 1 }

def nameByte (c : UInt8) (r : Header) : Header :=
  { r with
    headerHash := ngxHash r.headerHash c
    lowcaseHeader := r.lowcaseHeader.set r.lowcaseIndex c
    lowcaseIndex := (r.lowcaseIndex + 1) % lcHeaderLen }

section
variable (allowUnderscores : Bool) (buf : Bytes) (p : Nat) (ch : UInt8) (r : Header)

def startName : Move :=
  if lowcase ch ≠ 0 then .next (firstNameByte (lowcase ch) r)
  else if ch = '_' then
    .next (if allowUnderscores then firstNameByte ch r else { r with invalidHeader := true })
  else if ch = NUL then .exit .invalidHeader r
  else .next { r with invalidHeader := true }

def swStart : Move :=
  let r := { r with headerNameStart := some p, invalidHeader := false }
  if ch = CR then .next { r with headerEnd := some p, state := .headerAlmostDone }
  else if ch = LF then .exit .headerDone { r with headerEnd := some p }
  else startName allowUnderscores ch { r with state := .name }

/-- A line without a value. -/
def noValue : Header :=
  { r with headerNameEnd := some p, headerStart := some p, headerEnd := some p }

def swName : Move :=
  if lowcase ch ≠ 0 then .next (nameByte (lowcase ch) r)
  else if ch = '_' then
    .next (if allowUnderscores then nameByte ch r else { r with invalidHeader := true })
  else if ch = ':' then .next { r with headerNameEnd := some p, state := .spaceBeforeValue }
  else if ch = CR then .next { noValue p r with state := .almostDone }
  else if ch = LF then .exit .done (noValue p r)
  -- IIS may send the duplicate "HTTP/1.1 ..." lines
  else if ch = '/' ∧ r.upstream ∧ slice buf (r.headerNameStart.getD 0) p = text ['H', 'T', 'T', 'P'] then
    .next { r with state := .ignoreLine }
  else if ch = NUL then .exit .invalidHeader r
  else .next { r with invalidHeader := true }

def swSpaceBeforeValue : Move :=
  if ch = ' ' then .next r
  else if ch = CR then
    .next { r with headerStart := some p, headerEnd := some p, state := .almostDone }
  else if ch = LF then .exit .done { r with headerStart := some p, headerEnd := some p }
  else if ch = NUL then .exit .invalidHeader r
  else .next { r with headerStart := some p, state := .value }

def swValue : Move :=
  if ch = ' ' then .next { r with headerEnd := some p, state := .spaceAfterValue }
  else if ch = CR then .next { r with headerEnd := some p, state := .almostDone }
  else if ch = LF then .exit .done { r with headerEnd := some p }
  else if ch = NUL then .exit .invalidHeader r
  else .next r

def swSpaceAfterValue : Move :=
  if ch = ' ' then .next r
  else if ch = CR then .next { r with state := .almostDone }
  else if ch = LF then .exit .done r
  else if ch = NUL then .exit .invalidHeader r
  else .next { r with state := .value }

def swIgnoreLine : Move := .next (if ch = LF then { r with state := .start } else r)

def swAlmostDone : Move :=
  if ch = LF then .exit .done r
  else if ch = CR then .next r
  else .exit .invalidHeader r

def swHeaderAlmostDone : Move := .exit (if ch = LF then .headerDone else .invalidHeader) r

def step : Move :=
  match r.state with
  | .start => swStart allowUnderscores p ch r
  | .name => swName allowUnderscores buf p ch r
  | .spaceBeforeValue => swSpaceBeforeValue p ch r
  | .value => swValue p ch r
  | .spaceAfterValue => swSpaceAfterValue ch r
  | .ignoreLine => swIgnoreLine ch r
  | .almostDone => swAlmostDone ch r
  | .headerAlmostDone => swHeaderAlmostDone ch r

end

/-- Only "HTTP" is looked for behind the byte that is read. -/
theorem step_append {allowUnderscores : Bool} {buf : Bytes} {p : Nat} (more : Bytes) (ch : UInt8)
    (r : Header) (h : p < buf.length) :
    step allowUnderscores (buf ++ more) p ch r = step allowUnderscores buf p ch r := by
  rw [step, step, swName, swName, slice_append more (Nat.le_of_lt h)]

/-! ## §2 The call -/

/-- `header_done:` does not store the hash and the index. -/
def leave (k : Header) (pos : Nat) (e : Exit) (r : Header) (p : Nat) : Ret Rc Header :=
  match e with
  | .done => ⟨.ok, { r with state := .start }, p + 1⟩
  | .headerDone =>
    ⟨.headerDone,
      { r with state := .start, headerHash := k.headerHash, lowcaseIndex := k.lowcaseIndex },
      p + 1⟩
  | .invalidHeader =>
    ⟨.invalidHeader,
      { r with state := k.state, headerHash := k.headerHash, lowcaseIndex := k.lowcaseIndex },
      pos⟩

theorem leave_rc (k : Header) (pos : Nat) (e : Exit) (r : Header) (p : Nat) : (leave k pos e r p).rc ≠ .again := by
  cases e <;> simp [leave]

def parser (allowUnderscores : Bool) : Resumable UInt8 Header Exit Rc where
  again := .again
  step := step allowUnderscores
  leave := leave
  step_append := step_append
  leave_rc := leave_rc

end HeaderLine

def parseHeaderLine (r : HeaderLine.Header) (buf : Bytes) (pos : Nat) (allowUnderscores : Bool) :
    Ret Rc HeaderLine.Header :=
  (HeaderLine.parser allowUnderscores).call r buf pos

end GokuStudio.Nginx

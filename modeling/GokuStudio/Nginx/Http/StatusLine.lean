import GokuStudio.Lib.Resume
import GokuStudio.Nginx.Core

/-!
# The status line of an upstream (`ngx_http_parse_status_line`)

The record holds the fields of the request that the parser uses and the
`ngx_http_status_t` it fills.
-/

namespace GokuStudio.Nginx

open Lib

namespace StatusLine

inductive State where
  | start
  | h
  | ht
  | htt
  | http
  | firstMajorDigit
  | majorDigit
  | firstMinorDigit
  | minorDigit
  | status
  | spaceAfterStatus
  | statusText
  | almostDone
deriving DecidableEq, Repr

structure Status where
  state : State := .start
  httpMajor : UInt16 := 0
  httpMinor : UInt16 := 0
  httpVersion : Nat := 0
  code : UInt64 := 0
  count : UInt64 := 0
  start : Option Nat := none
  «end» : Option Nat := none
deriving DecidableEq, Repr

inductive Exit where
  | done
  | error
deriving DecidableEq, Repr

abbrev Move := Turn Status Exit

/-! ## §1 The cases of the switch -/

/-- The states that wait for one byte of `HTTP/`. -/
def expect (want : UInt8) (state : State) (ch : UInt8) (r : Status) : Move :=
  if ch = want then .next { r with state := state } else .exit .error r

section
variable (p : Nat) (ch : UInt8) (r : Status)

def digit : UInt16 := (ch - '0').toUInt16

def swFirstMajorDigit : Move :=
  if ch < '1' ∨ '9' < ch then .exit .error r
  else .next { r with httpMajor := digit ch, state := .majorDigit }

def swMajorDigit : Move :=
  if ch = '.' then .next { r with state := .firstMinorDigit }
  else if isDigit ch then .next { r with httpMajor := r.httpMajor * 10 + digit ch }
  else .exit .error r

def swFirstMinorDigit : Move :=
  if isDigit ch then .next { r with httpMinor := digit ch, state := .minorDigit }
  else .exit .error r

def swMinorDigit : Move :=
  if ch = ' ' then .next { r with state := .status }
  else if isDigit ch then .next { r with httpMinor := r.httpMinor * 10 + digit ch }
  else .exit .error r

/-- The third digit is the last. -/
def statusDigit : Status :=
  let r := { r with code := r.code * 10 + (ch - '0').toUInt64, count := r.count + 1 }
  if r.count = 3 then { r with state := .spaceAfterStatus, start := some (p - 2) } else r

def swStatus : Move :=
  if ch = ' ' then .next r
  else if isDigit ch then .next (statusDigit p ch r)
  else .exit .error r

/-- IIS may send 403.1, 403.2, etc. -/
def swSpaceAfterStatus : Move :=
  if ch = ' ' ∨ ch = '.' then .next { r with state := .statusText }
  else if ch = CR then .next { r with state := .almostDone }
  else if ch = LF then .exit .done r
  else .exit .error r

def swStatusText : Move :=
  if ch = CR then .next { r with state := .almostDone }
  else if ch = LF then .exit .done r
  else .next r

def swAlmostDone : Move := .exit (if ch = LF then .done else .error) { r with «end» := some (p - 1) }

def step : Move :=
  match r.state with
  | .start => expect 'H' .h ch r
  | .h => expect 'T' .ht ch r
  | .ht => expect 'T' .htt ch r
  | .htt => expect 'P' .http ch r
  | .http => expect '/' .firstMajorDigit ch r
  | .firstMajorDigit => swFirstMajorDigit ch r
  | .majorDigit => swMajorDigit ch r
  | .firstMinorDigit => swFirstMinorDigit ch r
  | .minorDigit => swMinorDigit ch r
  | .status => swStatus p ch r
  | .spaceAfterStatus => swSpaceAfterStatus ch r
  | .statusText => swStatusText ch r
  | .almostDone => swAlmostDone p ch r

end

/-! ## §2 The call -/

def leave (k : Status) (pos : Nat) (e : Exit) (r : Status) (p : Nat) : Ret Rc Status :=
  match e with
  | .done =>
    ⟨.ok,
      { r with
        «end» := r.end.or (some p)
        httpVersion := r.httpMajor.toNat * 1000 + r.httpMinor.toNat
        state := .start },
      p + 1⟩
  | .error => ⟨.error, { r with state := k.state }, pos⟩

theorem leave_rc (k : Status) (pos : Nat) (e : Exit) (r : Status) (p : Nat) : (leave k pos e r p).rc ≠ .again := by
  cases e <;> simp [leave]

def parser : Resumable UInt8 Status Exit Rc where
  again := .again
  step _ := step
  leave := leave
  step_append _ _ _ _ := rfl
  leave_rc := leave_rc

end StatusLine

def parseStatusLine (r : StatusLine.Status) (buf : Bytes) (pos : Nat) : Ret Rc StatusLine.Status :=
  StatusLine.parser.call r buf pos

end GokuStudio.Nginx

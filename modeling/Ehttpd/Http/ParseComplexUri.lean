import Ehttpd.Http.ParseRequestLine

namespace Ehd.Http

inductive UriSw
  | usual | slash | dot | dotDot | quoted | quotedSecond
  deriving DecidableEq, Repr

structure UriScan where
  state : UriSw
  quotedState : UriSw
  decoded : UInt8
  u : Nat
  data : List UInt8
  uriExt : Option Nat
  deriving DecidableEq, Repr

def UriScan.init (data : List UInt8) : UriScan :=
  { state := .usual, quotedState := .usual, decoded := 0, u := 0, data := data, uriExt := none }

def UriScan.put (s : UriScan) (ch : UInt8) : UriScan :=
  { s with data := s.data.set s.u ch, u := s.u + 1 }

/-- `while (*(u - 1) != '/') u--`; at the start of the area there is nothing to read. -/
def scanBack (data : List UInt8) : Nat → Nat
  | 0 => 0
  | u + 1 => if data.getD u 0 = 47 then u + 1 else scanBack data u

/-- The states `sw_usual`, `sw_slash`, `sw_dot` and `sw_dot_dot` of the `switch`;
`none` is `EHD_HTTP_PARSE_INVALID_REQUEST`. -/
def uriSwitch (s : UriScan) (ch : UInt8) : Option UriScan :=
  match s.state with
  | .usual =>
    if ch = 47 then some { s.put ch with uriExt := none, state := .slash }
    else if ch = 37 then some { s with quotedState := .usual, state := .quoted }
    else if ch = 46 then some { s.put ch with uriExt := some (s.u + 1) }
    else some (s.put ch)
  | .slash =>
    if ch = 47 then some s
    else if ch = 46 then some { s.put ch with state := .dot }
    else if ch = 37 then some { s with quotedState := .slash, state := .quoted }
    else some { s.put ch with state := .usual }
  | .dot =>
    if ch = 47 then some { s with state := .slash, u := s.u - 1 }
    else if ch = 46 then some { s.put ch with state := .dotDot }
    else if ch = 37 then some { s with quotedState := .dot, state := .quoted }
    else some { s.put ch with state := .usual }
  | .dotDot =>
    if ch = 47 then
      -- `u -= 4; if (u < r->uri.data) return EHD_HTTP_PARSE_INVALID_REQUEST`
      if s.u < 4 then none
      else some { s with state := .slash, u := scanBack s.data (s.u - 4) }
    else if ch = 37 then some { s with quotedState := .dotDot, state := .quoted }
    else some { s.put ch with state := .usual }
  | .quoted | .quotedSecond => none

/-- The value of a hexadecimal digit, as both `sw_quoted` states compute it. -/
def hexDigit (ch : UInt8) : Option UInt8 :=
  if isDigit ch then some (ch - 48)
  else if 97 ≤ (ch ||| 0x20) ∧ (ch ||| 0x20) ≤ 102 then some ((ch ||| 0x20) - 97 + 10)
  else none

/-- What the loop does with one byte of the path.  At the second digit of an
escape the source does not read on: the next iteration meets the decoded byte
in the state remembered before the escape, unless it is a `%`. -/
def uriStep (s : UriScan) (ch : UInt8) : Option UriScan :=
  match s.state with
  | .quoted =>
    match hexDigit ch with
    | some d => some { s with decoded := d, state := .quotedSecond }
    | none => none
  | .quotedSecond =>
    match hexDigit ch with
    | some d =>
      if (s.decoded <<< 4) + d = 37 then
        some { s.put ((s.decoded <<< 4) + d) with state := .usual }
      else uriSwitch { s with state := s.quotedState } ((s.decoded <<< 4) + d)
    | none => none
  | _ => uriSwitch s ch

/-- `while (p < r->uri_start + r->uri.len + 1)`, over the bytes of the path. -/
def uriLoop : UriScan → List UInt8 → Option UriScan
  | s, [] => some s
  | s, ch :: rest => (uriStep s ch).bind fun s' => uriLoop s' rest

end Ehd.Http

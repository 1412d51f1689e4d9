import Ehttpd.Http.Request
import Ehttpd.Lib.Scanner

namespace Ehd.Http

inductive RequestLineSw
  | start | method | spaceAfterMethod | spacesBeforeUri
  | schema | schemaSlash | schemaSlashSlash | host | port
  | afterSlashInUri | checkUri | uri
  | http09 | httpH | httpHT | httpHTT | httpHTTP
  | firstMajorDigit | majorDigit | firstMinorDigit | minorDigit
  | almostDone | done
  deriving DecidableEq, Repr

namespace RequestLineSw

def toUint : RequestLineSw → Nat
  | start => 0 | method => 1 | spaceAfterMethod => 2 | spacesBeforeUri => 3
  | schema => 4 | schemaSlash => 5 | schemaSlashSlash => 6 | host => 7 | port => 8
  | afterSlashInUri => 9 | checkUri => 10 | uri => 11
  | http09 => 12 | httpH => 13 | httpHT => 14 | httpHTT => 15 | httpHTTP => 16
  | firstMajorDigit => 17 | majorDigit => 18 | firstMinorDigit => 19 | minorDigit => 20
  | almostDone => 21 | done => 22

def ofUint : Nat → RequestLineSw
  | 0 => start | 1 => method | 2 => spaceAfterMethod | 3 => spacesBeforeUri
  | 4 => schema | 5 => schemaSlash | 6 => schemaSlashSlash | 7 => host | 8 => port
  | 9 => afterSlashInUri | 10 => checkUri | 11 => uri
  | 12 => http09 | 13 => httpH | 14 => httpHT | 15 => httpHTT | 16 => httpHTTP
  | 17 => firstMajorDigit | 18 => majorDigit | 19 => firstMinorDigit | 20 => minorDigit
  | 21 => almostDone | _ => done

@[simp] theorem ofUint_toUint (s : RequestLineSw) : ofUint s.toUint = s := by cases s <;> rfl

end RequestLineSw

abbrev Step (σ : Type) := Scanner.Step σ ParseState Rc

def isUpper (ch : UInt8) : Bool := 65 ≤ ch && ch ≤ 90

def isLower (ch : UInt8) : Bool := 97 ≤ ch && ch ≤ 122

def isDigit (ch : UInt8) : Bool := 48 ≤ ch && ch ≤ 57

/-- The method recognised at the space that ends it, from the bytes `m[0]`, `m[1]`, …
The source compares `m[2]` with `T` where `POST` has an `S`. -/
def methodOf (r : ParseState) (m : Nat → UInt8) (len : Nat) : Method :=
  if len = 3 then
    if m 0 = 71 ∧ m 1 = 69 ∧ m 2 = 84 then .get else r.method
  else if len = 4 then
    if m 0 = 80 ∧ m 1 = 79 ∧ m 2 = 84 ∧ m 3 = 84 then .post
    else if m 0 = 72 ∧ m 1 = 69 ∧ m 2 = 65 ∧ m 3 = 68 then .head
    else r.method
  else r.method

/-- One pass through the `switch (state)` of the loop; `p` is the pointer after
`ch = *p++`, and `buf` the buffer from `b->start`. -/
def requestLineStep (buf : List UInt8) (st : RequestLineSw) (r : ParseState) (p : Nat)
    (ch : UInt8) : Step RequestLineSw :=
  match st with
  | .start =>
    let r := { r with requestStart := p - 1 }
    if ch = CR ∨ ch = LF then .next .start r
    else if ¬ isUpper ch then .stop .invalidMethod r
    else .next .method r
  | .method =>
    if ch = 32 then
      .next .spacesBeforeUri { r with
        methodEnd := p - 1
        method := methodOf r (fun i => buf.getD (r.requestStart + i) 0) (p - 1 - r.requestStart) }
    else if ¬ isUpper ch then .stop .invalidMethod r
    else .next .method r
  | .spaceAfterMethod =>
    if ch = 32 then .next .spacesBeforeUri r else .stop .invalidMethod r
  | .spacesBeforeUri =>
    if ch = 47 then .next .afterSlashInUri { r with uriStart := p - 1 }
    else if ch = 32 then .next .spacesBeforeUri r
    else if isUpper ch ∨ isLower ch then .next .schema { r with schemaStart := p - 1 }
    else .stop .invalidRequest r
  | .schema =>
    if ch = 58 then .next .schemaSlash { r with schemaEnd := p - 1 }
    else if isUpper ch ∨ isLower ch then .next .schema r
    else .stop .invalidRequest r
  | .schemaSlash =>
    if ch = 47 then .next .schemaSlashSlash r else .stop .invalidRequest r
  | .schemaSlashSlash =>
    if ch = 47 then .next .host { r with hostStart := p - 1 } else .stop .invalidRequest r
  | .host =>
    if ch = 58 then .next .port { r with hostEnd := p - 1 }
    else if ch = 47 then .next .afterSlashInUri { r with hostEnd := p - 1, uriStart := p - 1 }
    else if isUpper ch ∨ isLower ch ∨ isDigit ch ∨ ch = 46 ∨ ch = 45 then .next .host r
    else .stop .invalidRequest r
  | .port =>
    if ch = 47 then .next .afterSlashInUri { r with portEnd := p - 1, uriStart := p - 1 }
    else if ch < 48 ∧ ch > 57 then .stop .invalidRequest r
    else .next .port r
  | .afterSlashInUri =>
    if ch = CR then .next .almostDone { r with uriEnd := p - 1, httpMinor := 9 }
    else if ch = LF then .next .done { r with uriEnd := p - 1, httpMinor := 9 }
    else if ch = 32 then .next .http09 { r with uriEnd := p - 1 }
    else if ch = 46 ∨ ch = 37 then .next .uri { r with complexUri := true }
    else if ch = 47 then .next .afterSlashInUri { r with complexUri := true }
    else if ch = 63 then .next .uri { r with argsStart := some p }
    else .next .checkUri r
  | .checkUri =>
    if ch = CR then .next .almostDone { r with uriEnd := p - 1, httpMinor := 9 }
    else if ch = LF then .next .done { r with uriEnd := p - 1, httpMinor := 9 }
    else if ch = 32 then .next .http09 { r with uriEnd := p - 1 }
    else if ch = 46 then .next .checkUri { r with uriExt := some p }
    else if ch = 47 then .next .afterSlashInUri { r with uriExt := none }
    else if ch = 37 then .next .uri { r with complexUri := true }
    else if ch = 63 then .next .uri { r with argsStart := some p }
    else .next .checkUri r
  | .uri =>
    if ch = CR then .next .almostDone { r with uriEnd := p - 1, httpMinor := 9 }
    else if ch = LF then .next .done { r with uriEnd := p - 1, httpMinor := 9 }
    else if ch = 32 then .next .http09 { r with uriEnd := p - 1 }
    else .next .uri r
  | .http09 =>
    if ch = 32 then .next .http09 r
    else if ch = CR then .next .almostDone { r with httpMinor := 9 }
    else if ch = LF then .next .done { r with httpMinor := 9 }
    else if ch = 72 then .next .httpH r
    else .stop .invalidRequest r
  | .httpH => if ch = 84 then .next .httpHT r else .stop .invalidRequest r
  | .httpHT => if ch = 84 then .next .httpHTT r else .stop .invalidRequest r
  | .httpHTT => if ch = 80 then .next .httpHTTP r else .stop .invalidRequest r
  | .httpHTTP => if ch = 47 then .next .firstMajorDigit r else .stop .invalidRequest r
  | .firstMajorDigit =>
    if ch < 49 ∨ ch > 57 then .stop .invalidRequest r
    else .next .majorDigit { r with httpMajor := (ch - 48).toUInt32 }
  | .majorDigit =>
    if ch = 46 then .next .firstMinorDigit r
    else if ¬ isDigit ch then .stop .invalidRequest r
    else .next .majorDigit { r with httpMajor := r.httpMajor * 10 + ch.toUInt32 - 48 }
  | .firstMinorDigit =>
    if ¬ isDigit ch then .stop .invalidRequest r
    else .next .minorDigit { r with httpMinor := (ch - 48).toUInt32 }
  | .minorDigit =>
    if ch = CR then .next .almostDone r
    else if ch = LF then .next .done r
    else if ¬ isDigit ch then .stop .invalidRequest r
    else .next .minorDigit { r with httpMinor := r.httpMinor * 10 + ch.toUInt32 - 48 }
  | .almostDone =>
    let r := { r with requestEnd := some (p - 2) }
    if ch = LF then .next .done r else .stop .invalidRequest r
  | .done => .next .done r

/-- `while (p < b->last && state < sw_done)`; the last argument is `[p, b->last)`. -/
def requestLineLoop (buf : List UInt8) :
    RequestLineSw → ParseState → Nat → List UInt8 → Scanner.Scan RequestLineSw ParseState Rc :=
  Scanner.scan (· == .done) (requestLineStep buf)

def requestLineDone (r : ParseState) (p : Nat) : Rc × ParseState :=
  let r := { r with
    requestEnd := if r.requestEnd = none then some (p - 1) else r.requestEnd
    httpVersion := r.httpMajor * 1000 + r.httpMajor
    state := 0 }
  if r.httpVersion = 9 ∧ r.method ≠ .get then (.invalid09Method, r) else (.ok, r)

def parseRequestLine (r : ParseState) (b : Buf) : Rc × ParseState × Buf :=
  match requestLineLoop b.bytes (.ofUint r.state) r b.pos b.unread with
  | .stop rc r' => (rc, r', b)
  | .exit .done r' p =>
    ((requestLineDone r' p).1, (requestLineDone r' p).2, { b with pos := p })
  | .exit st r' p => (.again, { r' with state := st.toUint }, { b with pos := p })

end Ehd.Http

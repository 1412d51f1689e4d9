import Ehttpd.Http.ParseRequestLine

namespace Ehd.Http

inductive HeaderLineSw
  | start | name | spaceBeforeValue | value | spaceAfterValue
  | almostDone | headerAlmostDone | ignoreLine | done | headerDone
  deriving DecidableEq, Repr

namespace HeaderLineSw

def toUint : HeaderLineSw → Nat
  | start => 0 | name => 1 | spaceBeforeValue => 2 | value => 3 | spaceAfterValue => 4
  | almostDone => 5 | headerAlmostDone => 6 | ignoreLine => 7 | done => 8 | headerDone => 9

def ofUint : Nat → HeaderLineSw
  | 0 => start | 1 => name | 2 => spaceBeforeValue | 3 => value | 4 => spaceAfterValue
  | 5 => almostDone | 6 => headerAlmostDone | 7 => ignoreLine | 8 => done | _ => headerDone

@[simp] theorem ofUint_toUint (s : HeaderLineSw) : ofUint s.toUint = s := by cases s <;> rfl

end HeaderLineSw

/-- The bytes accepted in a header name, tested in the order of the source. -/
def isHeaderNameChar (ch : UInt8) : Bool :=
  isLower (ch ||| 0x20) || ch == 45 || ch == 95 || ch == 126 || ch == 46 || isDigit ch

/-- One pass through the `switch (state)` of the loop; `p` is the pointer after
`ch = *p++`. -/
def headerLineStep (buf : List UInt8) (st : HeaderLineSw) (r : ParseState) (p : Nat)
    (ch : UInt8) : Step HeaderLineSw :=
  match st with
  | .start =>
    if ch = CR then .next .headerAlmostDone { r with headerEnd := p - 1 }
    else if ch = LF then .next .headerDone { r with headerEnd := p - 1 }
    else if isHeaderNameChar ch then .next .name { r with headerNameStart := p - 1 }
    else .stop .invalidHeader { r with headerNameStart := p - 1 }
  | .name =>
    if isLower (ch ||| 0x20) then .next .name r
    else if ch = 58 then .next .spaceBeforeValue { r with headerNameEnd := p - 1 }
    else if isHeaderNameChar ch then .next .name r
    -- IIS can send duplicate "HTTP/1.1 ..." lines
    else if ch = 47 ∧ r.proxy ∧ p - r.headerStart = 5
        ∧ (buf.drop r.headerStart).take 4 = ascii "HTTP" then .next .ignoreLine r
    else .stop .invalidHeader r
  | .spaceBeforeValue =>
    if ch = 32 then .next .spaceBeforeValue r
    else if ch = CR then .next .almostDone { r with headerStart := p - 1, headerEnd := p - 1 }
    else if ch = LF then .next .done { r with headerStart := p - 1, headerEnd := p - 1 }
    else .next .value { r with headerStart := p - 1 }
  | .value =>
    if ch = 32 then .next .spaceAfterValue { r with headerEnd := p - 1 }
    else if ch = CR then .next .almostDone { r with headerEnd := p - 1 }
    else if ch = LF then .next .done { r with headerEnd := p - 1 }
    else .next .value r
  | .spaceAfterValue =>
    if ch = 32 then .next .spaceAfterValue r
    else if ch = CR then .next .almostDone r
    else if ch = LF then .next .done r
    else .next .value r
  | .ignoreLine => if ch = LF then .next .start r else .next .ignoreLine r
  | .almostDone => if ch = LF then .next .done r else .stop .invalidHeader r
  | .headerAlmostDone => if ch = LF then .next .headerDone r else .stop .invalidHeader r
  | .done => .next .done r
  | .headerDone => .next .headerDone r

def HeaderLineSw.final (st : HeaderLineSw) : Bool := st == .done || st == .headerDone

def headerLineLoop (buf : List UInt8) :
    HeaderLineSw → ParseState → Nat → List UInt8 → Scanner.Scan HeaderLineSw ParseState Rc :=
  Scanner.scan HeaderLineSw.final (headerLineStep buf)

def parseHeaderLine (r : ParseState) (b : Buf) : Rc × ParseState × Buf :=
  match headerLineLoop b.bytes (.ofUint r.state) r b.pos b.unread with
  | .stop rc r' => (rc, r', b)
  | .exit .done r' p => (.ok, { r' with state := 0 }, { b with pos := p })
  | .exit .headerDone r' p => (.headerDone, { r' with state := 0 }, { b with pos := p })
  | .exit st r' p => (.again, { r' with state := st.toUint }, { b with pos := p })

end Ehd.Http

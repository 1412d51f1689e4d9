import Ehttpd.Http.Writing
import Ehttpd.Http.Handlers
import Ehttpd.Http.Parsing
import Ehttpd.Lib.Runs

namespace Ehd

namespace Http

open Program

/-- Where control is: in the event loop, at the top of a round of one of the two
reading loops or before its parser, between two parts of a request, at a round
of the writer, or stopped. -/
inductive Pc
  | loop
  | line | parseLine | copyUri
  | headers (rc : Rc) | parseHeader
  | hand | build
  | write (last : Nat)
  | stopped (e : Stop)
  deriving DecidableEq, Repr

/-- The result of `recv` after which `ehd_http_process_request_headers` closes the
connection a second time. -/
def HangupInHeaders (t : Trace) : Prop :=
  ∃ n, (n = 0 ∨ n = EHD_ERROR) ∧ (ReadHandler.processRequestHeaders, n) ∈ t.recvs

structure Clean (w : World) : Prop where
  nodup : w.t.destroyed.Nodup
  sound : w.t.badAccess = false
  hangup : ¬ HangupInHeaders w.t

structure Open (w : World) : Prop extends Clean w where
  fd : w.c.fd ≠ -1
  closed : w.c.ev.closed = false
  pool : ∃ p, w.c.pool = some p ∧ p < w.k.pools ∧ p ∉ w.t.destroyed
  fresh : ∀ p ∈ w.t.destroyed, p < w.k.pools

/-- An input buffer of the size that `ehd_http_init_request` gives it. -/
structure InBuf (b : Buf) : Prop where
  pos : b.pos ≤ b.last
  last : b.last ≤ b.size
  size : b.size = EHD_DEFAULT_BUF_SIZE

structure Serving (w : World) : Prop extends Open w where
  data : w.c.data = .request
  home : w.c.pool = some w.r.home
  requestPool : ∃ p, w.r.pool = some p ∧ p < w.k.pools ∧ p ∉ w.t.destroyed ∧ p ≠ w.r.home
  buf : ∃ b, w.c.buf = some b ∧ InBuf b

def freshHeadersOut : HeadersOut := { headers := .init 20, contentLengthN := -1 }

structure Reading (w : World) : Prop extends Serving w where
  mask : w.c.ev.events = readMask
  writeHandler : w.c.writeHandler = some .empty
  headersOut : w.r.headersOut = freshHeadersOut
  response : w.r.response = {}

structure Responding (w : World) : Prop extends Serving w where
  mask : w.c.ev.events = writeMask
  writeHandler : w.c.writeHandler = some .writer
  two : w.r.response.data.length = 2
  sendable : ∀ b ∈ w.r.response.data, b.Sendable
  last : w.r.response.last = 0
  begin : w.r.response.begin = true

structure Connected (w : World) : Prop extends Open w where
  data : w.c.data = .null
  readHandler : w.c.readHandler = .initConnection
  mask : w.c.ev.events = readMask
  buf : w.c.buf = none

structure Idle (w : World) : Prop extends Open w where
  data : w.c.data = .httpConnection
  readHandler : w.c.readHandler = .initRequest
  writeHandler : w.c.writeHandler = some .empty
  request : w.hc.request = false
  mask : w.c.ev.events = readMask
  buf : ∃ b, w.c.buf = some b ∧ InBuf b ∧ b.pos = 0 ∧ b.unread ∈ w.t.keepAlives

structure Waiting (w : World) : Prop extends Reading w where
  readHandler : w.c.readHandler = .processRequestLine ∨
    w.c.readHandler = .processRequestHeaders ∧ w.r.parse.InHeaders
  unread : ∃ b, w.c.buf = some b ∧ b.unread = [] ∧
    (w.c.readHandler = .processRequestLine → b.pos < b.size)

/-- A closed connection: either everything was released once, or a hangup in the
header block has released it twice. -/
structure Closed (w : World) : Prop where
  fd : w.c.fd = -1
  released : Clean w ∨ ¬ w.t.destroyed.Nodup ∧ HangupInHeaders w.t

inductive InLoop (w : World) : Prop
  | closed (h : Closed w)
  | connected (h : Connected w)
  | idle (h : Idle w)
  | waiting (h : Waiting w)
  | responding (h : Responding w)

def Ctl : Pc → World → Prop
  | .loop, w => InLoop w
  | .line, w => Reading w ∧ w.c.readHandler = .processRequestLine ∧
      ∃ b, w.c.buf = some b ∧ (b.unread = [] → b.pos < b.size)
  | .parseLine, w => Reading w ∧ w.c.readHandler = .processRequestLine ∧
      ∃ b, w.c.buf = some b ∧ b.unread ≠ []
  | .copyUri, w => Reading w ∧ w.r.parse.state = 0
  | .headers _, w => Reading w ∧ w.c.readHandler = .processRequestHeaders ∧ w.r.parse.InHeaders
  | .parseHeader, w => Reading w ∧ w.c.readHandler = .processRequestHeaders ∧ w.r.parse.InHeaders
  | .hand, w => Reading w
  | .build, w => Reading w
  | .write last, w => Responding w ∧ last < 2
  | .stopped e, w => Clean w ∧ (w.k.Reliable → e = .blocked)

/-- A step of the same connection that may have changed everything about the request. -/
structure SameConnection (w w' : World) : Prop where
  conf : w'.conf = w.conf
  slot : w'.c.slot = w.c.slot
  id : w'.c.id = w.c.id
  fd : w'.c.fd = w.c.fd
  pool : w'.c.pool = w.c.pool
  k : w.k.Steady w'.k
  t : w'.t = w.t

end Http

namespace World

/-- `w` with a new request, which lives in the connection pool and has the next
pool for its own. -/
@[simps] def opened (w : World) (b : Buf) (n : List Allocation) : World :=
  { w with
    c := { w.c with
      data := .request, readHandler := .processRequestLine, writeHandler := some .empty
      buf := some b }
    hc := { request := true }
    r := { home := w.c.pool.getD 0, pool := some w.k.pools, headersOut := Http.freshHeadersOut }
    k := { w.k with allocs := n, pools := w.k.pools + 1 } }

@[simps!] def parsed (w : World) (p : Http.ParseState) (b : Buf) : World :=
  (w.onR fun r => { r with parse := p }).setBuf b

/-- The event of a connection that epoll reports as readable or writable. -/
structure Reported (w w' : World) : Prop where
  conf : w'.conf = w.conf
  c : w'.c = { w.c with ev := w'.c.ev }
  events : w'.c.ev.events = w.c.ev.events
  closed : w'.c.ev.closed = w.c.ev.closed
  hc : w'.hc = w.hc
  r : w'.r = w.r
  k : w'.k = w.k
  t : w'.t = w.t

end World

namespace Http

/-- `r->uri` after a request line with the marks `p` in the buffer `b`: the
normalised path, or a copy of the path up to its first NUL. -/
inductive CopiedUri (p : ParseState) (b : Buf) : Str → Prop
  | complex {area : List UInt8} {s : UriScan} : p.complexUri = true →
      area.length = p.uriLen + 1 →
      uriLoop (.init area) (b.span p.uriStart p.uriLen) = some s →
      CopiedUri p b ⟨s.u, s.data.set s.u 0⟩
  | plain {area : List UInt8} : p.complexUri = false → area.length = p.uriLen + 1 →
      CopiedUri p b ⟨p.uriLen, cpystrn area (b.bytes.drop p.uriStart) (p.uriLen + 1)⟩

/-- `ehd_http_process_request_line` has stored the URI and goes on with the headers. -/
structure Stored (w w' : World) : Prop where
  conf : w'.conf = w.conf
  c : ∃ b, w.c.buf = some b ∧ w'.c = { w.c with
      readHandler := .processRequestHeaders, buf := some (b.putNul (w.r.parse.requestStart +
        (w.r.parse.requestEnd.getD 0 - w.r.parse.requestStart))) } ∧
    CopiedUri w.r.parse b w'.r.uri
  hc : w'.hc = w.hc
  home : w'.r.home = w.r.home
  pool : w'.r.pool = w.r.pool
  parse : w'.r.parse = { w.r.parse with uriExt := w'.r.parse.uriExt }
  headersOut : w'.r.headersOut = w.r.headersOut
  response : w'.r.response = w.r.response
  headers : w'.r.headersIn.headers.entries = []
  headersN : w'.r.headersN = w.r.headersN
  cookies : w'.r.headersIn.cookies.data = []
  fields : w'.r.headersIn.fields = w.r.headersIn.fields
  k : w.k.Steady w'.k
  recvs : w'.k.recvs = w.k.recvs
  t : w'.t = w.t

/-- A header has been pushed onto `headers_in.headers` and terminated in the buffer. -/
structure HeaderPushed (w w' : World) : Prop where
  conf : w'.conf = w.conf
  c : ∃ b, w.c.buf = some b ∧
    w'.c = { w.c with buf := some (terminateHeader b w.r.parse.header) }
  hc : w'.hc = w.hc
  r : w'.r = { w.r with headersIn := w'.r.headersIn, headersN := w'.r.headersN }
  headers : w'.r.headersIn.headers.entries =
    w.r.headersIn.headers.entries ++ [w.r.parse.header]
  headersN : w'.r.headersN = w.r.headersN + 1
  k : w.k.Steady w'.k
  recvs : w'.k.recvs = w.k.recvs
  t : w'.t = w.t

/-- The cookies and the known headers after the header at `place`, with the name `key`. -/
def HeadersIn.noted (hs : HeadersIn) (key : List UInt8) (len place : Nat) :
    List Nat × (HeaderField → Option Nat) :=
  if len = 6 ∧ strcaseeq key (ascii "Cookie") then (hs.cookies.data ++ [place], hs.fields)
  else
    match findHeaderField key len with
    | some f => (hs.cookies.data, Function.update hs.fields f (some place))
    | none => (hs.cookies.data, hs.fields)

structure HeaderStored (w w' : World) : Prop extends HeaderPushed w w' where
  noted : ∀ b, w.c.buf = some b →
    (w'.r.headersIn.cookies.data, w'.r.headersIn.fields) = w.r.headersIn.noted
      (cString ((terminateHeader b w.r.parse.header).bytes.drop w.r.parse.header.key.start))
      w.r.parse.header.key.len w.r.headersIn.headers.entries.length

inductive Reads : Pc → Pc → Prop
  | line : Reads .line .parseLine
  | headers : Reads (.headers .again) .parseHeader

def Pc.Serves : Pc → Prop
  | .line | .parseLine | .copyUri | .headers _ | .parseHeader | .hand | .write _ => True
  | _ => False

/-- The points at which the buffer is found to be full: after the parser of the request line, and
before more of the header block is read. -/
inductive Full : Pc → World → Prop
  | line {w : World} {b b' : Buf} {p : ParseState} : w.c.buf = some b →
      parseRequestLine w.r.parse b = (.again, p, b') → b'.pos = b'.size → Full .parseLine w
  | headers {w : World} {b : Buf} : w.c.buf = some b → b.pos = b.size → Full (.headers .again) w

theorem Full.serves {p : Pc} {w : World} (h : Full p w) : p.Serves := by
  cases h <;> exact trivial

inductive Move : Pc × World → Pc × World → Prop
  /-- `ehd_http_init_connection` or `ehd_http_init_request` starts a request -/
  | start {w w₁ : World} {n : List Allocation} : w.Reported w₁ → Connected w ∨ Idle w →
      Move (.loop, w) (.line, w₁.opened (w.c.buf.getD (.temp EHD_DEFAULT_BUF_SIZE)) n)
  /-- an allocation fails before the request has a pool -/
  | startFails {w w₁ : World} : Connected w ∨ Idle w → SameConnection w w₁ →
      Move (.loop, w) (.loop, w₁.closeConnection)
  /-- an allocation fails after the request has got its pool -/
  | startCloses {w w₁ w₂ : World} {b : Buf} {n : List Allocation} :
      w.Reported w₁ → Connected w ∨ Idle w →
      InBuf b → (w₁.opened b n).Scratch w₂ → Move (.loop, w) (.loop, w₂.closeBoth)
  /-- more of the request line is reported -/
  | resumeLine {w w₁ : World} : w.Reported w₁ → Waiting w →
      w.c.readHandler = .processRequestLine → Move (.loop, w) (.line, w₁)
  | resumeHeaders {w w₁ : World} : w.Reported w₁ → Waiting w →
      w.c.readHandler = .processRequestHeaders → Move (.loop, w) (.headers .again, w₁)
  | resumeWrite {w w₁ : World} : w.Reported w₁ → Responding w → Move (.loop, w) (.write 0, w₁)
  /-- there are unread bytes -/
  | have {p q : Pc} {w : World} {b : Buf} : Reads p q → w.c.buf = some b → b.unread ≠ [] →
      Move (p, w) (q, w)
  /-- `recv` gives bytes -/
  | recv {p q : Pc} {w w₁ : World} {b : Buf} {bs : List UInt8} : Reads p q → w.c.buf = some b →
      b.unread = [] → 0 < b.room → w.Took w₁ bs → bs ≠ [] → bs.length ≤ b.room →
      Move (p, w) (q, (w₁.noteRecv b bs.length).setBuf (b.append bs))
  /-- there is nothing to read now -/
  | idle {p q : Pc} {w : World} {b : Buf} : Reads p q → w.c.buf = some b → b.unread = [] →
      Move (p, w) (.loop, w)
  | wait {p q : Pc} {w w₁ : World} {b : Buf} : Reads p q → w.c.buf = some b → b.unread = [] →
      0 < b.room → w.Took w₁ [] → Move (p, w) (.loop, w₁.noteRecv b EHD_AGAIN)
  /-- `recv` gives 0 or an error in the request line -/
  | hangup {w w₁ : World} {b : Buf} {n : Int} : w.c.buf = some b → 0 < b.room → w.Took w₁ [] →
      n = 0 ∨ n = EHD_ERROR → Move (.line, w) (.loop, (w₁.noteRecv b n).closeBoth)
  /-- `recv` gives 0 or an error in the header block -/
  | hangupTwice {w w₁ : World} {b : Buf} {n : Int} : w.c.buf = some b → 0 < b.room →
      w.Took w₁ [] → n = 0 ∨ n = EHD_ERROR →
      Move (.headers .again, w) (.loop, (w₁.noteRecv b n).closeBoth.closeBoth)
  /-- everything is closed after a failure -/
  | fail {p : Pc} {w w₁ : World} : p.Serves → w.Scratch w₁ → Move (p, w) (.loop, w₁.closeBoth)
  /-- the buffer is full, and the head not complete -/
  | noRoom {p : Pc} {w w₁ : World} : Full p w → w.noteNoRoom.Scratch w₁ →
      Move (p, w) (.loop, w₁.closeBoth)
  /-- the request line is not complete, and the buffer not full -/
  | lineMore {w : World} {b b' : Buf} {p : ParseState} : w.c.buf = some b →
      parseRequestLine w.r.parse b = (.again, p, b') → b'.pos ≠ b'.size →
      Move (.parseLine, w) (.line, w.parsed p b')
  | lineDone {w : World} {b b' : Buf} {p : ParseState} : w.c.buf = some b →
      parseRequestLine w.r.parse b = (.ok, p, b') → Move (.parseLine, w) (.copyUri, w.parsed p b')
  | stored {w w₁ : World} : Stored w w₁ → Move (.copyUri, w) (.headers .again, w₁)
  | headerNext {w : World} : Move (.headers .ok, w) (.parseHeader, w)
  | headerMore {w : World} {b b' : Buf} {p : ParseState} : w.c.buf = some b →
      parseHeaderLine w.r.parse b = (.again, p, b') →
      Move (.parseHeader, w) (.headers .again, w.parsed p b')
  | headerDone {w w₁ : World} {b b' : Buf} {p : ParseState} : w.c.buf = some b →
      parseHeaderLine w.r.parse b = (.ok, p, b') → HeaderStored (w.parsed p b') w₁ →
      Move (.parseHeader, w) (.headers .ok, w₁)
  | headersDone {w : World} {b b' : Buf} {p : ParseState} : w.c.buf = some b →
      parseHeaderLine w.r.parse b = (.headerDone, p, b') →
      Move (.parseHeader, w) (.hand, (w.parsed p b').onC fun c => { c with
        readHandler := .blockRead })
  /-- `ehd_http_handler` is given the request -/
  | hand {w : World} {b : Buf} : w.c.buf = some b → Move (.hand, w) (.build, w.handing b)
  | build {w w₁ : World} {f : File} :
      Answered (names w.conf w.r.uri) w w₁ (answer w.conf w.r w.k) f →
      Move (.build, w) (.write 0, w₁.writing)
  /-- `epoll_ctl` fails when an answer has been built -/
  | buildStops {w w₁ : World} {f : File} :
      Answered (names w.conf w.r.uri) w w₁ (answer w.conf w.r w.k) f → w.k.EpollFails →
      Move (.build, w) (.stopped .nullDeref, (w₁.responding.registered writeMask false).closeBoth)
  /-- some bytes of the answer are sent -/
  | sent {last last' n m : Nat} {w w₁ : World} {b : Buf} : w.r.response.data[last]? = some b →
      w.Wrote w₁ last b n (.sent m) →
      n < b.left ∧ last' = last ∨ n = b.left ∧ last' = last + 1 → last' < 2 →
      Move (.write last, w) (.write last', w₁)
  /-- the socket is full -/
  | full {last : Nat} {w w₁ : World} {b : Buf} : w.r.response.data[last]? = some b →
      w.Wrote w₁ last b 0 .again → 0 < b.left → Move (.write last, w) (.loop, w₁)
  /-- the answer is complete -/
  | keepAlive {m pool : Nat} {w w₁ : World} {b inBuf : Buf} :
      w.r.response.data[1]? = some b → w.Wrote w₁ 1 b b.left (.sent m) → 0 < b.left →
      w₁.c.buf = some inBuf → w₁.r.pool = some pool →
      Move (.write 1, w) (.loop, (w₁.idle inBuf pool).registered readMask true)
  /-- and the connection cannot be registered for reading -/
  | keepAliveFails {m pool : Nat} {w w₁ : World} {b inBuf : Buf} :
      w.r.response.data[1]? = some b → w.Wrote w₁ 1 b b.left (.sent m) → 0 < b.left →
      w₁.c.buf = some inBuf → w₁.r.pool = some pool → w.k.EpollFails →
      Move (.write 1, w)
        (.loop, ((w₁.idle inBuf pool).registered readMask false).closeConnection)
  /-- there is no result of a system call yet -/
  | stop {p : Pc} {w w₁ : World} : p.Serves → w.Scratch w₁ → Move (p, w) (.stopped .blocked, w₁)
  /-- an allocation fails while an answer is built -/
  | buildFails {w w₁ : World} : w.Scratch w₁ → w₁.k.Refused w.c.readHandler →
      Move (.build, w) (.stopped .nullAlloc, w₁)

end Http

end Ehd

import Ehttpd.Http.Core
import Ehttpd.Http.ParseComplexUri
import Ehttpd.Http.ParseHeaderLine

namespace Ehd.Http

/-- `ehd_http_read_request_header`.  It closes the connection itself when it
returns `EHD_ERROR`. -/
def readRequestHeader : Handler Int := do
  let b ← getHeaderInBuf
  if b.unread.length > 0 then return (b.unread.length : Int)
  else if !(← get).c.ev.rready then return EHD_AGAIN
  else
    let (n, bs) ← recvAt b.last b.room
    if n = EHD_AGAIN then return EHD_AGAIN
    else if n = 0 ∨ n = EHD_ERROR then
      closeBoth
      return EHD_ERROR
    else
      setHeaderInBuf (b.append bs)
      return n

def runParseHeaderLine : Handler Rc := do
  let b ← getHeaderInBuf
  let r ← getRequest
  let (rc, p, b') := parseHeaderLine r.parse b
  modifyRequest fun r => { r with parse := p }
  setHeaderInBuf b'
  return rc

/-- `ehd_array_push(&r->headers_in.cookies)` and the store `*cookie = h`: a full
array grows in place, by one, or moves to twice its size. -/
def pushCookie (h : Nat) : Handler Bool := do
  let a := (← getRequest).headersIn.cookies
  let w ← get
  if a.data.length = a.nblock then
    if w.k.growsInPlace w.k.allocs.length then
      growInPlace SIZEOF_POINTER
      store (a.nblock + 1)
    else if ← allocate fun w => .palloc false (rpool w) (2 * SIZEOF_POINTER * a.nblock) then
      store (2 * a.nblock)
    else return false
  else store a.nblock
where
  store (nblock : Nat) : Handler Bool := do
    modifyRequest fun r => { r with headersIn := { r.headersIn with
      cookies := ⟨r.headersIn.cookies.data ++ [h], nblock⟩ } }
    return true

/-- The entry of `ehd_http_headers_in` for a name, compared with `strcasecmp`. -/
def findHeaderField (key : List UInt8) (len : Nat) : Option HeaderField :=
  (headersInTable.find? fun e => e.1.length == len && strcaseeq e.1 key).map Prod.snd

def ParseState.header (p : ParseState) : HeaderIn :=
  ⟨⟨p.headerNameStart, p.headerNameEnd - p.headerNameStart⟩,
    ⟨p.headerStart, p.headerEnd - p.headerStart⟩⟩

/-- `h->key.data[h->key.len] = '\0'; h->value.data[h->value.len] = '\0';` -/
def terminateHeader (b : Buf) (h : HeaderIn) : Buf :=
  (b.putNul (h.key.start + h.key.len)).putNul (h.value.start + h.value.len)

/-- Note the header at `place` as a cookie, or in the table of known headers;
`false` is a failed push. -/
def noteHeader (key : List UInt8) (len place : Nat) : Handler Bool := do
  if len = 6 ∧ strcaseeq key (ascii "Cookie") then pushCookie place
  else
    match findHeaderField key len with
    | some f =>
      modifyRequest fun r => { r with headersIn := { r.headersIn with
        fields := Function.update r.headersIn.fields f (some place) } }
      return true
    | none => return true

def headerLineParsed : Handler Bool := do
  modifyRequest fun r => { r with headersN := r.headersN + 1 }
  let r ← getRequest
  if ← listRoom r.headersIn.headers then
    let h := r.parse.header
    modifyRequest fun r => { r with headersIn := { r.headersIn with
      headers := r.headersIn.headers.push h } }
    let b ← getHeaderInBuf
    setHeaderInBuf (terminateHeader b h)
    noteHeader (cString ((terminateHeader b h).bytes.drop h.key.start)) h.key.len
      r.headersIn.headers.entries.length
  else return false

def processRequestHeader : Handler Rc := return .ok

def headersDone : Handler Unit := do
  modifyRequest id
  if (← processRequestHeader) ≠ .ok then closeBoth
  else
    modify (·.onC fun c => { c with readHandler := .blockRead })
    handler

/-- `if (rc == EHD_AGAIN)` at the top of the loop; `false` is a `return`.  When
`ehd_http_read_request_header` has closed the connection it is closed again. -/
def requestHeadersRead (rc : Rc) : Handler Bool := do
  if rc = .again then
    let b ← getHeaderInBuf
    if b.pos = b.size then
      modify World.noteNoRoom
      closeBoth
      return false
    else
      let n ← readRequestHeader
      if n = EHD_AGAIN then return false
      else if n = EHD_ERROR then
        closeBoth
        return false
      else return true
  else return true

/-- `for(;;)` of `ehd_http_process_request_headers`, with the `rc` of the round before. -/
def processRequestHeadersLoop : Nat → Rc → Handler Unit
  | 0, _ => throw .outOfFuel
  | fuel + 1, rc => do
    if ← requestHeadersRead rc then
      match ← runParseHeaderLine with
      | .ok => if ← headerLineParsed then processRequestHeadersLoop fuel .ok else closeBoth
      | .headerDone => headersDone
      | .again => processRequestHeadersLoop fuel .again
      | _ => closeBoth
    else return ()

/-- `ehd_http_process_request_headers`.  A round either takes a byte, or follows
one that has and precedes one that will. -/
def processRequestHeaders : Handler Unit := do
  match (← get).c.data with
  | .null => throw .nullDeref
  | .httpConnection => throw .badCast
  | .request =>
    let b ← getHeaderInBuf
    processRequestHeadersLoop (2 * ((← get).k.recvBudget + b.unread.length) + 3) .again

def runParseRequestLine : Handler Rc := do
  let b ← getHeaderInBuf
  let r ← getRequest
  let (rc, p, b') := parseRequestLine r.parse b
  modifyRequest fun r => { r with parse := p }
  setHeaderInBuf b'
  return rc

def parseComplexUri : Handler Rc := do
  let r ← getRequest
  let b ← getHeaderInBuf
  match uriLoop (.init r.uri.data) (b.span r.parse.uriStart r.uri.len) with
  | none => return .invalidRequest
  | some s =>
    let data := s.data.set s.u 0
    modifyRequest fun r => { r with
      uri := ⟨s.u, data⟩, parse := { r.parse with uriExt := s.uriExt } }
    match s.uriExt with
    | none => return .ok
    | some e =>
      match ← palloc rpool (s.u - e + 1) with
      | none => return .internalServerError
      | some area =>
        modifyRequest fun r => { r with
          exten := ⟨s.u - e, cpystrn area (data.drop e) (s.u - e + 1)⟩
          parse := { r.parse with uriExt := none } }
        return .ok

/-- Set `request_line`, terminate it in the buffer, and set `method_name`.  The
source does this, and `copyExten`, twice. -/
def setRequestLine : Handler Unit := do
  let p := (← getRequest).parse
  let line : Span := ⟨p.requestStart, p.requestEnd.getD 0 - p.requestStart⟩
  modifyRequest fun r => { r with requestLine := line }
  setHeaderInBuf ((← getHeaderInBuf).putNul (line.start + line.len))
  if p.method = .unknown then
    modifyRequest fun r => { r with
      methodName := ⟨p.requestStart, p.methodEnd - p.requestStart + 1⟩ }

/-- Copy the extension that the request-line parser marked; `false` is a failed
allocation. -/
def copyExten : Handler Bool := do
  let p := (← getRequest).parse
  match p.uriExt with
  | none => return true
  | some e =>
    let len := match p.argsStart with
      | some a => a - 1 - e
      | none => p.uriEnd - e
    match ← palloc rpool (len + 1) with
    | none => return false
    | some area =>
      let b ← getHeaderInBuf
      modifyRequest fun r => { r with
        exten := ⟨len, cpystrn area (b.bytes.drop e) (len + 1)⟩ }
      return true

/-- `ehd_array_init`: without a failed allocation it ends without `return`. -/
def arrayInit : Handler Int := do
  if ← allocate fun w => .palloc false (rpool w) (5 * SIZEOF_POINTER) then
    modifyRequest fun r => { r with headersIn := { r.headersIn with cookies := ⟨[], 5⟩ } }
    return (← get).k.arrayInitReturn
  else return EHD_ERROR

def requestLineParsed : Handler Unit := do
  setRequestLine
  if ← copyExten then
    setRequestLine
    if ← copyExten then
      if ← allocate fun w => .palloc false (rpool w) (20 * SIZEOF_TABLE_DATA) then
        modifyRequest fun r => { r with headersIn := { r.headersIn with headers := .init 20 } }
        if (← arrayInit) = EHD_ERROR then closeBoth
        else
          modify (·.onC fun c => { c with readHandler := .processRequestHeaders })
          processRequestHeaders
      else closeBoth
    else closeBoth
  else closeBoth

/-- The branch for a parsed request line: copy the URI as it stands, then the
path, normalised when it is complex. -/
def copyUri : Handler Unit := do
  let p := (← getRequest).parse
  let b ← getHeaderInBuf
  let unparsedLen := p.uriEnd - p.uriStart
  match ← palloc rpool (unparsedLen + 1) with
  | none => closeBoth
  | some area =>
    modifyRequest fun r => { r with
      unparsedUri := ⟨unparsedLen, cpystrn area (b.bytes.drop p.uriStart) (unparsedLen + 1)⟩ }
    match ← palloc rpool (p.uriLen + 1) with
    | none => closeBoth
    | some area =>
      if p.complexUri then
        modifyRequest fun r => { r with uri := ⟨p.uriLen, area⟩ }
        if (← parseComplexUri) = .ok then requestLineParsed else closeBoth
      else
        modifyRequest fun r => { r with
          uri := ⟨p.uriLen, cpystrn area (b.bytes.drop p.uriStart) (p.uriLen + 1)⟩ }
        requestLineParsed

/-- `for( ;; )` of `ehd_http_process_request_line`; every round starts with
`i == EHD_AGAIN`. -/
def processRequestLineLoop : Nat → Handler Unit
  | 0 => throw .outOfFuel
  | fuel + 1 => do
    let n ← readRequestHeader
    if n = EHD_AGAIN then return ()
    else if n = EHD_ERROR then return ()
    else
      match ← runParseRequestLine with
      | .ok => copyUri
      | .again =>
        let b ← getHeaderInBuf
        if b.pos = b.size then
          modify World.noteNoRoom
          closeBoth
        else processRequestLineLoop fuel
      | _ => closeBoth

def processRequestLine : Handler Unit := do
  match (← get).c.data with
  | .null => throw .nullDeref
  | .httpConnection => throw .badCast
  | .request =>
    let b ← getHeaderInBuf
    processRequestLineLoop ((← get).k.recvBudget + b.unread.length + 1)

def newRequest : Handler Bool := do
  let w ← get
  if w.hc.request then
    modifyRequest fun r => { home := r.home }
    return true
  else
    if ← allocate fun w => .palloc true (cpool w) SIZEOF_HTTP_REQUEST then
      modify fun w => { w with
        r := { home := w.c.pool.getD 0 }, hc := { request := true } }
      return true
    else return false

/-- The part of `ehd_http_init_request` from `r->conf = ehd_cycle->conf` on. -/
def startRequest : Handler Unit := do
  if (← get).c.buf.isNone then
    match ← createTempBuf cpool EHD_DEFAULT_BUF_SIZE with
    | none => closeConnection
    | some b =>
      modify (·.setBuf b)
      startPool
  else startPool
where
  startPool : Handler Unit := do
    match ← createPool Palloc.EHD_DEFAULT_POOL_SIZE with
    | none => closeConnection
    | some pool =>
      modifyRequest fun r => { r with pool := some pool }
      if ← allocate fun w => .palloc false (rpool w) (20 * SIZEOF_TABLE_DATA) then
        modifyRequest fun r => { r with headersOut := { r.headersOut with
          headers := .init 20, contentLengthN := -1 } }
        modify (·.onC fun c => { c with readHandler := .processRequestLine })
        processRequestLine
      else closeBoth

def initRequest : Handler Unit := do
  match (← get).c.data with
  | .request => throw .badCast
  | .httpConnection => initWith
  | .null =>
    if ← allocate fun w => .palloc true (cpool w) SIZEOF_HTTP_CONNECTION then
      modify fun w => { w with hc := { request := false } }
      initWith
    else closeConnection
where
  initWith : Handler Unit := do
    if ← newRequest then
      modify (·.onC fun c => { c with data := .request })
      startRequest
    else closeConnection

def initConnection : Handler Unit := do
  modify (·.onC fun c => { c with readHandler := .initRequest, writeHandler := some .empty })
  if !(← get).c.ev.closed then initRequest

def blockRead : Handler Unit := do
  if (← Event.epollDel EHD_READ_EVENT 0) = .error then
    match (← get).c.data with
    | .null => throw .nullDeref
    | .httpConnection => throw .badCast
    | .request => closeBoth

end Ehd.Http

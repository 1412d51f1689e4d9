import Ehttpd.Http.KeepAlive

namespace Ehd.Http

def EHD_VERSION : List UInt8 := ascii "ehttpd/0.0.1"

def CRLF : List UInt8 := [CR, LF]

def mime : List (List UInt8 × List UInt8) :=
  [(ascii "html", ascii "text/html"), (ascii "png", ascii "image/png"),
    (ascii "jpg", ascii "image/jpeg"), (ascii "js", ascii "application/javascript"),
    (ascii "ttf", ascii "font/ttf"), (ascii "otf", ascii "font/otf"),
    (ascii "svg", ascii "image/svg+xml"), (ascii "woff", ascii "font/woff"),
    (ascii "woff2", ascii "font/woff2"), (ascii "css", ascii "text/css")]

def errorTail : List UInt8 :=
  ascii "<hr><center>" ++ EHD_VERSION ++ ascii "</center>" ++ CRLF ++
    ascii "</body>" ++ CRLF ++ ascii "</html>" ++ CRLF

def errorPage (title heading : String) : List UInt8 :=
  ascii "<html>" ++ CRLF ++
    ascii "<head><title>" ++ ascii title ++ ascii "</title></head>" ++ CRLF ++
    ascii "<body bgcolor=\"white\">" ++ CRLF ++
    ascii "<center><h1>" ++ ascii heading ++ ascii "</h1></center>" ++ CRLF

def error301Page := errorPage "301 Moved Permanently" "301 Moved Permanently"
def error302Page := errorPage "302 Found" "302 Found"
def error400Page := errorPage "400 Bad Request" "400 Bad Request"
def error403Page := errorPage "403 Forbidden" "403 Forbidden"
def error404Page := errorPage "404 Not Found" "404 Not Found"
def error405Page := errorPage "405 Not Allowed" "405 Not Allowed"
def error408Page := errorPage "408 Request Time-out" "408 Request Time-out"
def error413Page := errorPage "413 Request Entity Too Large" "413 Request Entity Too Large"
def error414Page := errorPage "414 Request-URI Too Large" "414 Request-URI Too Large"
def error416Page :=
  errorPage "416 Requested Range Not Satisfiable" "416 Requested Range Not Satisfiable"
def error497Page :=
  errorPage "400 The plain HTTP request was sent to HTTPS port" "400 Bad Request" ++
    ascii "<center>The plain HTTP request was sent to HTTPS port</center>" ++ CRLF
def error500Page := errorPage "500 Internal Server Error" "500 Internal Server Error"
-- the heading of the source says 500
def error501Page := errorPage "501 Method Not Implemented" "500 Method Not Implemented"
def error502Page := errorPage "502 Bad Gateway" "502 Bad Gateway"
def error503Page := errorPage "503 Service Temporarily Unavailable" "503 Service Temporarily Unavailable"
def error504Page := errorPage "504 Gateway Time-out" "504 Gateway Time-out"

/-- The table `error_pages`; the entries that are `ehd_null_string` are empty. -/
def errorPages : List (List UInt8) :=
  [error301Page, error302Page, [],
    error400Page, [], [], error403Page, error404Page, error405Page, [], [], error408Page,
    [], [], [], [], error413Page, error414Page, [], error416Page,
    error497Page, error404Page, [],
    error500Page, error501Page, error502Page, error503Page, error504Page]

def EHD_HTTP_MOVED_PERMANENTLY : Nat := 301
def EHD_HTTP_MOVED_TEMPORARILY : Nat := 302
def EHD_HTTP_BAD_REQUEST : Nat := 400
def EHD_HTTP_FORBIDDEN : Nat := 403
def EHD_HTTP_NOT_FOUND : Nat := 404
def EHD_HTTP_TO_HTTPS : Nat := 497
def EHD_HTTP_INVALID_HOST : Nat := 498
def EHD_HTTP_EHD_CODES : Nat := EHD_HTTP_TO_HTTPS
def EHD_HTTP_NOT_IMPLEMENTED : Nat := 501

def errorIndex (error : Nat) : Nat :=
  if error < EHD_HTTP_BAD_REQUEST then error - EHD_HTTP_MOVED_PERMANENTLY
  else if error < EHD_HTTP_EHD_CODES then error - EHD_HTTP_BAD_REQUEST + 3
  else error - EHD_HTTP_EHD_CODES + 3 + 17

def errorStatus (error : Nat) : Nat :=
  if error = EHD_HTTP_TO_HTTPS then EHD_HTTP_BAD_REQUEST
  else if error = EHD_HTTP_INVALID_HOST then EHD_HTTP_NOT_FOUND
  else error

/-- Store into the buffer at place `last` of the chain, which lies in the request pool. -/
def setChainBuf (last : Nat) (b : Buf) : Handler Unit :=
  modify (·.onR fun r => { r with response := { r.response with
    data := r.response.data.set last b } })

/-- One call of `ehd_send` or `sendfile` for the buffer at place `last`: its result,
and whether the buffer has then been sent to its end.  Without a positive result
nothing is added to `pos` or `sys_offset`. -/
def transfer (last : Nat) (b : Buf) : Handler (Int × Bool) := do
  if b.type = 0 then
    let n ← send b.unread
    let b' := { b with pos := b.pos + n.toNat }
    setChainBuf last b'
    return (n, b'.pos == b'.last)
  else
    match b.file with
    | none => throw .nullDeref
    | some f =>
      let n ← sendfile f.fd f.sysOffset (f.size - f.sysOffset)
      let f' := { f with sysOffset := f.sysOffset + n.toNat }
      setChainBuf last { b with file := some f' }
      return (n, f'.sysOffset == f'.size)

/-- `for(;;)` of `ehd_http_writer`: `last` is a local copy of `r->response.last`,
which is not written back. -/
def writerLoop : Nat → Nat → Handler Unit
  | 0, _ => throw .outOfFuel
  | fuel + 1, last => do
    let chain := (← get).r.response.data
    match chain[last]? with
    | none => throw .nullDeref
    | some b =>
      let (n, whole) ← transfer last b
      if n > 0 then
        if whole then
          if last + 1 = chain.length then keepAlive else writerLoop fuel (last + 1)
        else writerLoop fuel last
      else if n = 0 then closeBoth
      else if (← get).k.errno = .again then return ()
      else closeBoth

def beginResponse : Handler Unit := do
  let r ← getRequest
  if !r.response.begin then
    modifyRequest fun r => { r with response := { r.response with last := 0, begin := true } }
  else return ()

/-- `ehd_http_writer`.  Each round takes a result of `send` or `sendfile`, except
the last. -/
def writer : Handler Unit := do
  if (← get).c.data = .null then throw .nullDeref
  else if (← get).c.data = .httpConnection then throw .badCast
  else
    beginResponse
    let r ← getRequest
    writerLoop ((← get).k.sends.length + 1) r.response.last

/-- Push onto `headers_out.headers` and fill the slot, which is dereferenced unchecked. -/
def pushHeaderOut (t : TableData) : Handler Unit := do
  let r ← getRequest
  if ← listRoom r.headersOut.headers then
    modifyRequest fun r => { r with headersOut := { r.headersOut with
      headers := r.headersOut.headers.push t } }
  else throw .nullAlloc

def statusLine (h : HeadersOut) : List UInt8 :=
  match h.statusLine with
  | some line => ascii "HTTP/1.1 " ++ decimal h.status ++ [32] ++ cString line.data ++ CRLF
  | none => ascii "HTTP/1.1 " ++ decimal h.status ++ CRLF

/-- The area of `size` zero bytes after `snprintf(area, size, …)` of `text`. -/
def snprintf (size : Nat) (text : List UInt8) : List UInt8 :=
  (text ++ List.replicate size 0).take (size - 1) ++ [0]

/-- One round of the loop over the header entries: the parts that do not fit are
left out. -/
def writeHeader (b : Buf) (t : TableData) : Buf :=
  if b.room > t.key.len + 2 then
    let b := b.append (t.key.bytes ++ [58, 32])
    if b.room > t.value.len + 2 then b.append (t.value.bytes ++ CRLF) else b
  else b

def writeHeadEnd (b : Buf) : Buf := if b.room ≥ 2 then b.append CRLF else b

def pushServer : Handler Unit := do
  let r ← getRequest
  if r.headersOut.server = none then
    pushHeaderOut ⟨ehdString "Server", ⟨EHD_VERSION.length, EHD_VERSION⟩⟩
  else return ()

/-- `if (r->headers_out.content_length == NULL && r->headers_out.content_length_n > 0)`. -/
def pushContentLength : Handler Unit := do
  let r ← getRequest
  if r.headersOut.contentLength = none ∧ r.headersOut.contentLengthN > 0 then
    if ← listRoom r.headersOut.headers then
      match ← pcalloc rpool 20 with
      | none => throw .nullAlloc
      | some _ =>
        let text := decimal r.headersOut.contentLengthN.toNat
        modifyRequest fun r => { r with headersOut := { r.headersOut with
          headers := r.headersOut.headers.push
            ⟨ehdString "Content-Length", ⟨text.length, snprintf 20 text⟩⟩ } }
    else throw .nullAlloc
  else return ()

def responseGenHeader : Handler Unit := do
  if !(← allocate fun w => .palloc true (rpool w) SIZEOF_CHAIN) then throw .nullAlloc
  else
    match ← createTempBuf rpool 8192 with
    | none => throw .nullAlloc
    | some b =>
      let r ← getRequest
      let line := statusLine r.headersOut
      if line.length ≥ b.room then throw .overrun
      else
        pushServer
        pushContentLength
        let r ← getRequest
        let head := writeHeadEnd (r.headersOut.headers.entries.foldl writeHeader (b.append line))
        modifyRequest fun r => { r with response := { r.response with data := [head], last := 0 } }

def chainBody (b : Buf) : Handler Unit :=
  modifyRequest fun r => { r with response := { r.response with
    data := r.response.data ++ [b], last := r.response.last + 1 } }

/-- `if (ehd_add_event(c->event, EHD_WRITE_EVENT, EPOLLET) == EHD_ERROR)`. -/
def armForWriting : Handler Unit := do
  if (← Event.epollAdd EHD_WRITE_EVENT EPOLLET) = .error then closeBoth else return ()

/-- `c->write_handler = ehd_http_writer`, the registration for writing and the
first call of the writer, with which both handlers end.  When the registration
fails they close everything and still call the writer. -/
def startWriting : Handler Unit := do
  modify (·.onC fun c => { c with writeHandler := some .writer })
  armForWriting
  writer

def specialResponseHandler (error : Nat) : Handler Unit := do
  pushHeaderOut ⟨ehdString "Content-Type", ehdString "text/html"⟩
  let page := errorPages.getD (errorIndex error) []
  match ← createTempBuf rpool (page.length + errorTail.length) with
  | none => throw .nullAlloc
  | some b =>
    let b := (b.append page).append errorTail
    modifyRequest fun r => { r with headersOut := { r.headersOut with
      contentLengthN := (b.last - b.pos : Nat), status := errorStatus error } }
    responseGenHeader
    if ← allocate fun w => .palloc true (rpool w) SIZEOF_CHAIN then
      chainBody b
      startWriting
    else throw .nullAlloc

/-- The comparison loop over `j`, from the last byte of the extension down:
`mime[i][0].data[j - 1] != uri->data[uri->len - mime[i][0].len + j - 1]`, the index
in `size_t`. -/
def extMatches (ext : List UInt8) (uri : Str) : Nat → Bool
  | 0 => true
  | j + 1 =>
    if ext.getD j 0 ≠ uri.data.getD ((uri.len + 2 ^ 64 - ext.length + j) % 2 ^ 64) 0 then false
    else extMatches ext uri j

def contentType (uri : Str) : Option (List UInt8) :=
  (mime.find? fun e => extMatches e.1 uri e.1.length).map Prod.snd

def pushContentType : Handler Unit := do
  let r ← getRequest
  match contentType r.uri with
  | none => return ()
  | some ty => pushHeaderOut ⟨ehdString "Content-Type", ⟨ty.length, ty⟩⟩

/-- The part of `ehd_http_file_writer_handler` after the checks on the path:
the regular file `filename` is served. -/
def serveFile (filename : Str) : Handler Unit := do
  pushContentType
  if !(← allocate fun w => .palloc true (rpool w) SIZEOF_FILE) then throw .nullAlloc
  else
    -- the result of `ehd_file_open_rs` is not looked at
    let f := (← fileOpenRs filename).getD ⟨0, ehdNullString, 0, 0⟩
    modifyRequest fun r => { r with headersOut := { r.headersOut with
      status := 200, contentLengthN := f.size } }
    responseGenHeader
    if !(← allocate fun w => .palloc true (rpool w) SIZEOF_CHAIN) then throw .nullAlloc
    else if !(← allocate fun w => .palloc true (rpool w) SIZEOF_BUF) then throw .nullAlloc
    else
      chainBody { bytes := [], pos := 0, size := 0, type := 1, file := some f }
      startWriting

/-- The branch for a directory: without a final slash the client is sent to the
path with one, in the area of the file name; else the index is served. -/
def serveDirectory (conf : Conf) (uri : Str) (area : List UInt8) : Handler Unit := do
  if uri.data.getD (uri.len - 1) 0 ≠ 47 then
    let area := (memcpy area 0 uri.data uri.len).set uri.len 47
    pushHeaderOut ⟨ehdString "Location", ⟨uri.len + 1, area⟩⟩
    specialResponseHandler EHD_HTTP_MOVED_TEMPORARILY
  else
    let area := memcpy area (conf.root.len + uri.len) conf.index.data conf.index.len
    match ← sysStat (cString area) with
    | none => specialResponseHandler EHD_HTTP_FORBIDDEN
    | some _ => serveFile ⟨conf.root.len + uri.len + conf.index.len, area⟩

def fileWriterHandler : Handler Unit := do
  let conf := (← get).conf
  let r ← getRequest
  let uri := r.uri
  match ← pcalloc rpool (conf.root.len + uri.len + conf.index.len + 2) with
  | none => throw .nullAlloc
  | some area =>
    let area := memcpy area 0 conf.root.data conf.root.len
    let area := memcpy area conf.root.len uri.data uri.len
    match ← sysStat (cString area) with
    | none => specialResponseHandler EHD_HTTP_NOT_FOUND
    | some s =>
      if s.mode = .dir then serveDirectory conf uri area
      else if s.mode ≠ .reg then specialResponseHandler EHD_HTTP_NOT_FOUND
      else serveFile ⟨conf.root.len + uri.len, area⟩

def handedOver (r : Request) (b : Buf) : Handed :=
  { method := r.parse.method
    uri := b.span r.parse.uriStart (r.parse.uriEnd - r.parse.uriStart)
    headers := r.headersIn.headers.entries.map fun h =>
      (b.span h.key.start h.key.len, b.span h.value.start h.value.len)
    headersN := r.headersN
    cookies := r.headersIn.cookies.data
    fields := r.headersIn.fields }

def handler : Handler Unit := do
  let b ← getHeaderInBuf
  modify fun w => w.onT fun t => { t with handed := t.handed ++ [handedOver w.r b] }
  modifyRequest fun r => { r with parse := { r.parse with state := 0 } }
  let r ← getRequest
  if r.parse.method = .get then fileWriterHandler
  else specialResponseHandler EHD_HTTP_NOT_IMPLEMENTED

end Ehd.Http

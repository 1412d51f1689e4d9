import Ehttpd.Core.Buf

namespace Ehd.Http

/-- The return codes of the parsers: `EHD_OK`, `EHD_AGAIN`, `EHD_ERROR`, the
`EHD_HTTP_PARSE_*` constants and `EHD_HTTP_INTERNAL_SERVER_ERROR`. -/
inductive Rc
  | ok | again | error
  | invalidMethod | invalidRequest | tooLongUri | invalid09Method
  | invalidHeader | headerDone
  | internalServerError
  deriving DecidableEq, Repr

inductive Method
  | unknown | get | head | post
  deriving DecidableEq, Repr, Inhabited

structure ParseState where
  method : Method := .unknown
  httpVersion : UInt32 := 0
  httpMajor : UInt32 := 0
  httpMinor : UInt32 := 0
  state : Nat := 0
  requestStart : Nat := 0
  methodEnd : Nat := 0
  uriStart : Nat := 0
  schemaStart : Nat := 0
  schemaEnd : Nat := 0
  hostStart : Nat := 0
  hostEnd : Nat := 0
  portEnd : Nat := 0
  uriEnd : Nat := 0
  argsStart : Option Nat := none
  uriExt : Option Nat := none
  requestEnd : Option Nat := none
  headerEnd : Nat := 0
  headerNameStart : Nat := 0
  headerNameEnd : Nat := 0
  proxy : Bool := false
  complexUri : Bool := false
  headerStart : Nat := 0
  deriving DecidableEq, Repr, Inhabited

/-- The length of the path: up to the `?` that starts the arguments, or to the
end of the URI (`r->uri.len` before normalisation). -/
def ParseState.uriLen (r : ParseState) : Nat :=
  match r.argsStart with
  | some a => a - 1 - r.uriStart
  | none => r.uriEnd - r.uriStart

/-- A piece of `r->header_in_buf`: an `ehd_str_t` whose `data` points into the buffer. -/
structure Span where
  start : Nat := 0
  len : Nat := 0
  deriving DecidableEq, Repr, Inhabited

/-- `ehd_table_data_t` of `headers_in`: both strings point into the buffer. -/
structure HeaderIn where
  key : Span
  value : Span
  deriving DecidableEq, Repr, Inhabited

structure TableData where
  key : Str
  value : Str
  deriving DecidableEq, Repr, Inhabited

/-- The members of `ehd_http_headers_in_t` that the table `ehd_http_headers_in` names. -/
inductive HeaderField
  | host | connection | ifModifiedSince | userAgent | referer
  | contentLength | range | authorization | keepAlive
  deriving DecidableEq, Repr

def headersInTable : List (List UInt8 × HeaderField) :=
  [(ascii "Host", .host), (ascii "Connection", .connection),
    (ascii "If-Modified-Since", .ifModifiedSince), (ascii "User-Agent", .userAgent),
    (ascii "Referer", .referer), (ascii "Content-Length", .contentLength),
    (ascii "Range", .range), (ascii "Authorization", .authorization),
    (ascii "Keep-Alive", .keepAlive)]

/-- `ehd_array_t` of the cookies: the pushed pointers and `nblock`.  A pointer to
a header is the index of its push, which no later push moves. -/
structure Cookies where
  data : List Nat
  nblock : Nat
  deriving DecidableEq, Repr, Inhabited

structure HeadersIn where
  headers : EList HeaderIn := .init 0
  fields : HeaderField → Option Nat := fun _ => none
  cookies : Cookies := ⟨[], 0⟩

/-- `ehd_http_headers_out_t`: the members that are read.  `server` and
`content_length` are never set. -/
structure HeadersOut where
  headers : EList TableData := .init 0
  status : Nat := 0
  statusLine : Option Str := none
  server : Option TableData := none
  contentLength : Option TableData := none
  contentLengthN : Int := 0

/-- `ehd_http_response_t`: the chain from `data`, and the place of `last` in it. -/
structure Response where
  data : List Buf := []
  last : Nat := 0
  begin : Bool := false
  deriving DecidableEq, Repr, Inhabited

/-- `ehd_http_request_t`.  `header_in_buf` is `c->buf`, `connection` and
`http_connection` are the only ones there are. -/
structure Request where
  /-- the pool the structure itself was allocated from -/
  home : Nat := 0
  pool : Option Nat := none
  parse : ParseState := {}
  requestLine : Span := {}
  uri : Str := ehdNullString
  unparsedUri : Str := ehdNullString
  exten : Str := ehdNullString
  methodName : Span := {}
  headersIn : HeadersIn := {}
  headersN : Nat := 0
  headersOut : HeadersOut := {}
  response : Response := {}

end Ehd.Http

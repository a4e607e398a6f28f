import Sparc.Model.Buffer

/-! # The text of a response: `kore/http.c`

A status is not negative.
-/

namespace Sparc

/-- `http_status_text`. -/
def httpStatusText (status : ℕ) : CString :=
  match status with
  | 100 => "Continue".toList
  | 101 => "Switching Protocols".toList
  | 200 => "OK".toList
  | 201 => "Created".toList
  | 202 => "Accepted".toList
  | 203 => "Non-Authoritative Information".toList
  | 204 => "No Content".toList
  | 205 => "Reset Content".toList
  | 206 => "Partial Content".toList
  | 300 => "Multiple Choices".toList
  | 301 => "Moved Permanently".toList
  | 302 => "Found".toList
  | 303 => "See Other".toList
  | 304 => "Not Modified".toList
  | 305 => "Use Proxy".toList
  | 307 => "Temporary Redirect".toList
  | 400 => "Bad Request".toList
  | 401 => "Unauthorized".toList
  | 402 => "Payment Required".toList
  | 403 => "Forbidden".toList
  | 404 => "Not Found".toList
  | 405 => "Method Not Allowed".toList
  | 406 => "Not Acceptable".toList
  | 407 => "Proxy Authentication Required".toList
  | 408 => "Request Time-out".toList
  | 409 => "Conflict".toList
  | 410 => "Gone".toList
  | 411 => "Length Required".toList
  | 412 => "Precondition Failed".toList
  | 413 => "Request Entity Too Large".toList
  | 414 => "Request-URI Too Large".toList
  | 415 => "Unsupported Media Type".toList
  | 416 => "Requested range not satisfiable".toList
  | 417 => "Expectation Failed".toList
  | 500 => "Internal Server Error".toList
  | 501 => "Not Implemented".toList
  | 502 => "Bad Gateway".toList
  | 503 => "Service Unavailable".toList
  | 504 => "Gateway Time-out".toList
  | 505 => "HTTP Version not supported".toList
  | _ => []

/-- `http_keepalive_time` and `http_hsts_enable`. -/
structure ReplySettings where
  keepaliveTime : UInt16
  hsts : UInt64
  deriving DecidableEq, Repr

/-- The members of a request that its response depends on: whether the connection is one of a
WebSocket, the method HEAD, `HTTP_REQUEST_NO_CONTENT_LENGTH`, its header `connection`, and the
headers that were set. -/
structure ReplyTo where
  webSocket : Bool
  head : Bool
  noContentLength : Bool
  connection : Option CString
  respHeaders : List (CString × CString)
  deriving DecidableEq, Repr

/-- A line of the headers. -/
def headerLine (h : CString × CString) : CString := h.1 ++ ':' :: ' ' :: h.2

/-- The value of `connection_close`, for a connection with or without `CONN_CLOSE_EMPTY`. -/
def connectionClose (req : Option ReplyTo) (closeEmpty : Bool) : Bool :=
  closeEmpty ||
    (req.bind ReplyTo.connection).any (fun conn =>
      (conn.head? == some 'c' || conn.head? == some 'C') && sameNoCase conn "close".toList)

/-- The headers that `http_response_normal` writes in front of those of the request. -/
def connectionHeaders (s : ReplySettings) (req : Option ReplyTo) (close : Bool) :
    List (CString × CString) :=
  if req.elim true ReplyTo.webSocket then []
  else if s.keepaliveTime ≠ 0 ∧ close = false then
    [("connection".toList, "keep-alive".toList),
      ("keep-alive".toList, "timeout=".toList ++ Nat.toDigits 10 s.keepaliveTime.toNat)]
  else [("connection".toList, "close".toList)]

/-- All headers of a response with `len` bytes. -/
def replyHeaders (s : ReplySettings) (req : Option ReplyTo) (close : Bool) (status len : ℕ) :
    List (CString × CString) :=
  connectionHeaders s req close ++
    (if s.hsts ≠ 0 then
      [("strict-transport-security".toList,
        "max-age=".toList ++ Nat.toDigits 10 s.hsts.toNat ++ "; includeSubDomains".toList)]
    else []) ++
    req.elim [] ReplyTo.respHeaders ++
    (if status ≠ 204 ∧ 200 ≤ status ∧ req.elim false ReplyTo.noContentLength = false then
      [("content-length".toList, Nat.toDigits 10 len)]
    else [])

/-- The first line. -/
def statusLine (status : ℕ) : CString :=
  "HTTP/1.1 ".toList ++ Nat.toDigits 10 status ++ ' ' :: httpStatusText status

/-- `kore_buf_appendf` for one line after the other. Every line is printed from arguments, or short
without them. -/
def printLines (buf : CString) (lines : List CString) : Option CString :=
  lines.foldlM (fun buf l => koreBufAppendv buf (l ++ ['\r', '\n']) true) buf

/-- `CONN_CLOSE_EMPTY` behind `http_response_normal`. -/
def closesBehind (s : ReplySettings) (req : Option ReplyTo) (closeEmpty : Bool) : Bool :=
  closeEmpty || (req.elim false (fun req => !req.webSocket) &&
    !(decide (s.keepaliveTime ≠ 0) && !connectionClose req closeEmpty))

/-- `http_response_normal`: what is queued, where `d` are `len` bytes or NULL. -/
def httpResponseNormal (s : ReplySettings) (req : Option ReplyTo) (closeEmpty : Bool) (status : ℕ)
    (d : Option CString) (len : ℕ) : Option CString :=
  let headers := replyHeaders s req (connectionClose req closeEmpty) status len
  let body := if req.elim false (fun req => !req.head) then d.getD [] else []
  (printLines [] (statusLine status :: headers.map headerLine)).map (fun headerBuf =>
    headerBuf ++ ['\r', '\n'] ++ body)

/-- A response to a request of a connection: what `http_response` is called with. -/
structure Outgoing where
  req : ReplyTo
  status : ℕ
  d : CString
  deriving DecidableEq, Repr

/-- `http_response` for one request after the other: what the connection queues. -/
def httpResponses (s : ReplySettings) : Bool → List Outgoing → Option CString
  | _, [] => some []
  | closeEmpty, a :: as =>
      (httpResponseNormal s (some a.req) closeEmpty a.status (some a.d) a.d.length).bind (fun out =>
        (httpResponses s (closesBehind s (some a.req) closeEmpty) as).map (out ++ ·))

end Sparc

import Sparc.Model.Accessors
import Sparc.Model.Net

/-! # Receiving the body of a request: `kore/http.c`

A request that expects a body, from where `http_header_recv` has put it into the list on: what
`http_header_recv` does with its body, and `http_body_recv`, which the netbuf calls for every
`read` (`NETBUF_CALL_CB_ALWAYS`).
-/

namespace Sparc

/-- Whether there is a minus, and what is behind the sign, as `strtoll` reads a number. -/
def numberSign (str : CString) : Bool × CString :=
  match str.dropWhile isSpace with
  | '-' :: s => (true, s)
  | '+' :: s => (false, s)
  | s => (false, s)

/-- `kore_strtonum` with base 10 and the minimum 0. -/
def koreStrtonum (str : CString) (max : ℕ) : Option ℕ :=
  let (negative, digits) := numberSign str
  let value := digits.foldl (fun n c => 10 * n + (c.toNat - '0'.toNat)) 0
  if digits ≠ [] ∧ digits.all Char.isDigit ∧ value ≤ max ∧ ¬ (negative ∧ value ≠ 0) then
    some value
  else none

/-- The callback of `rnb`. -/
inductive HttpCb where
  | header
  | body
  deriving DecidableEq, Repr

/-- The settings that a body depends on: `http_header_max`, `http_body_max` and
`http_body_disk_offload`. -/
structure HttpLimits where
  headerMax : ℕ
  bodyMax : ℕ
  diskOffload : ℕ

/-- The members of `http_request` for the body, the flags `HTTP_REQUEST_*`, what the netbuf waits
for, and the statuses of the error responses. The bytes are in `http_body` or in the file. -/
structure Incoming where
  contentLength : ℕ
  httpBodyLength : ℕ
  onDisk : Bool
  body : List UInt8
  complete : Bool
  expectBody : Bool
  delete : Bool
  sleeping : Bool
  cb : HttpCb
  bLen : ℕ
  errors : List ℕ
  deriving DecidableEq, Repr

namespace Incoming

/-- A request of which the headers have been read. -/
def new (limits : HttpLimits) : Incoming where
  contentLength := 0
  httpBodyLength := 0
  onDisk := false
  body := []
  complete := false
  expectBody := true
  delete := false
  sleeping := false
  cb := .header
  bLen := limits.headerMax
  errors := []

/-- `HTTP_REQUEST_DELETE` and `http_error_response`. -/
def fail (req : Incoming) (status : ℕ) : Incoming :=
  { req with delete := true, errors := req.errors ++ [status] }

/-- `HTTP_REQUEST_COMPLETE` in place of `HTTP_REQUEST_EXPECT_BODY`. -/
def finish (req : Incoming) : Incoming := { req with complete := true, expectBody := false }

/-- `net_recv_reset` for as much as is missing of the body. -/
def await (req : Incoming) (bytesLeft : ℕ) : Incoming :=
  { req with cb := .body, bLen := min bytesLeft netbufSendPayloadMax }

/-- The end of `http_header_recv`, with the value of `content-length` and the bytes that have come
in behind the headers. `stored` is whether the file for the body can be made and written. What is
left is a number of 64 bits. -/
def httpHeaderRecv (limits : HttpLimits) (contentLength : Option CString) (extra : List UInt8)
    (stored : Bool) : Incoming :=
  let req := new limits
  if limits.bodyMax = 0 then req.fail 405
  else
    match contentLength with
    | none => req.fail 411
    | some p =>
        match koreStrtonum p (2 ^ 63 - 1) with
        | none => { req with contentLength := 0 }.fail 411
        | some n =>
            if n = 0 then { req with contentLength := n }.finish
            else if limits.bodyMax < n then { req with contentLength := n }.fail 413
            else
              let onDisk := decide (0 < limits.diskOffload ∧ limits.diskOffload < n)
              let req := { req with contentLength := n, httpBodyLength := n, onDisk }
              if onDisk ∧ ¬ stored then req.fail 500
              else
                let req := { req with body := extra }
                let bytesLeft := (n + (2 ^ 64 - extra.length)) % 2 ^ 64
                if 0 < bytesLeft then
                  { req.await bytesLeft with sleeping := true, contentLength := bytesLeft }
                else req.finish

/-- `http_body_recv` for the bytes in the netbuf, with what it returns. -/
def httpBodyRecv (limits : HttpLimits) (req : Incoming) (buf : List UInt8) (stored : Bool) :
    Bool × Incoming :=
  if req.onDisk ∧ ¬ stored then (false, req.fail 500)
  else
    let bytesLeft := (req.contentLength + (2 ^ 64 - buf.length)) % 2 ^ 64
    let req := { req with body := req.body ++ buf, contentLength := bytesLeft }
    if bytesLeft = 0 then
      (true,
        { req.finish with
          sleeping := false
          contentLength := req.httpBodyLength
          cb := .header
          bLen := limits.headerMax })
    else (true, req.await bytesLeft)

/-- The reads of the body one after the other: `read` gets what is asked for at most, and the next
one is not for the body when it is complete. -/
def receiveBody (limits : HttpLimits) : Incoming → List (List UInt8) → Option Incoming
  | req, [] => some req
  | req, buf :: reads =>
      if req.cb = .body ∧ buf.length ≤ req.bLen then
        match req.httpBodyRecv limits buf true with
        | (true, req) => receiveBody limits req reads
        | (false, _) => none
      else none

end Incoming

end Sparc

import Sparc.Model.Kore
import Mathlib.Data.Int.Notation

/-! # The response object: `sparc/detail/response.cpp`

The response headers are those of the kore request that the object points to. A call of
`http_response` is returned as a value.
-/

namespace Sparc

/-! ## Status and return codes -/

namespace Status

/-- The codes of `sparc/common.h` and `kore/http.h` that the framework itself uses. -/
def ok : ℤ := 200
def notModified : ℤ := 304
def notFound : ℤ := 404
def internalError : ℤ := 500

end Status

namespace Ret

/-- `$ABORT`, `$CONTINUE`, `$SKIP_FLUSH` and `$ASYNC` of `sparc/sparc.h`. -/
def abort : ℤ := 0
def continue_ : ℤ := 1
def skipFlush : ℤ := 2
def async : ℤ := 3

end Ret

/-! ## Cookies -/

/-- `http_cookie`. -/
structure Cookie where
  name : CString
  value : CString
  path : Option CString
  domain : Option CString
  expiryTime : ℤ
  secure : Bool
  deriving DecidableEq, Repr

/-- `%d` given a 64 bit integer prints its low 32 bits. -/
def formatInt (n : ℤ) : CString := (toString (n.bmod 4294967296)).toList

/-- The text `HttpResponse::flushCookies` appends for one cookie. The path is written
under the name of the domain attribute. -/
def Cookie.text (c : Cookie) : CString :=
  c.name ++ '=' :: c.value ++ "; ".toList ++
  (match c.domain with
    | some domain => "Domain=".toList ++ domain ++ "; ".toList
    | none => []) ++
  (match c.path with
    | some path => "Domain=".toList ++ path ++ "; ".toList
    | none => []) ++
  (if c.secure then "Secure; ".toList else []) ++
  (if c.expiryTime ≠ 0 then "Max-Age=".toList ++ formatInt c.expiryTime else [])

/-- `kore_buf_stringify`: the buffer gets a NUL unless it ends in one. -/
def koreBufStringify (buf : CString) : CString :=
  if buf.getLast? = some '\x00' then buf else buf ++ ['\x00']

/-- The C string at the start of a buffer. -/
def cString (buf : CString) : CString := buf.takeWhile (· ≠ '\x00')

/-- The calls on the cookies of a response, one constructor for each overload of `cookie`. -/
inductive CookieUse where
  | value (name value : CString)
  | expiring (name value : CString) (expire : ℤ)
  | secured (name value : CString) (expire : ℤ) (secure : Bool)
  | located (name value : CString) (path : Option CString) (expire : ℤ) (secure : Bool)
  | full (name value : CString) (path domain : Option CString) (expire : ℤ) (secure : Bool)
  | remove (name : CString)
  deriving DecidableEq, Repr

/-! ## The object -/

abbrev Header := CString × CString

/-- `HttpResponse`. -/
structure HttpResponse where
  status_ : ℤ
  body_ : CString
  ended_ : Bool
  cookies_ : List Cookie
  respHeaders : List Header
  deriving DecidableEq, Repr

/-- The arguments of a call of kore's `http_response`, with the headers it sends. -/
structure Sent where
  status : ℤ
  data : CString
  headers : List Header
  deriving DecidableEq, Repr

namespace HttpResponse

/-- `HttpResponse::HttpResponse`. -/
def new : HttpResponse := ⟨Status.ok, [], false, [], []⟩

/-- `HttpResponse::body(cc_string)`. -/
def body (r : HttpResponse) (str : CString) : HttpResponse := { r with body_ := str }

/-- `HttpResponse::operator<<` for text and numbers. -/
def append (r : HttpResponse) (str : CString) : HttpResponse := { r with body_ := r.body_ ++ str }

/-- `HttpResponse::cookie`. Path and domain of an existing cookie are kept. -/
def cookie (r : HttpResponse) (name value : CString) (path domain : Option CString)
    (expire : ℤ) (secure : Bool) : HttpResponse :=
  match r.cookies_.findIdx? (fun c => c.name == name) with
  | some i =>
      { r with
        cookies_ := r.cookies_.modify i
          (fun c => { c with value := value, expiryTime := expire, secure := secure }) }
  | none => { r with cookies_ := r.cookies_ ++ [⟨name, value, path, domain, expire, secure⟩] }

/-- `HttpResponse::removeCookie`. -/
def removeCookie (r : HttpResponse) (name : CString) : HttpResponse :=
  { r with cookies_ := r.cookies_.eraseP (fun c => c.name == name) }

/-- `HttpResponse::cookie` and `HttpResponse::removeCookie`, by their overloads in
`response.h`. -/
def manage (r : HttpResponse) : CookieUse → HttpResponse
  | .value name value => r.cookie name value none none (-1) false
  | .expiring name value expire => r.cookie name value none none expire false
  | .secured name value expire secure => r.cookie name value none none expire secure
  | .located name value path expire secure => r.cookie name value path none expire secure
  | .full name value path domain expire secure => r.cookie name value path domain expire secure
  | .remove name => r.removeCookie name

/-- `HttpResponse::header(cc_string, cc_string)`. -/
def header (r : HttpResponse) (name value : CString) : HttpResponse :=
  { r with respHeaders := r.respHeaders ++ [(name, value)] }

/-- `HttpResponse::type(cc_string)`. -/
def type (r : HttpResponse) (t : CString) : HttpResponse :=
  match r.respHeaders.findIdx? (fun hh => sameNoCase hh.1 "Content-Type".toList) with
  | some i => { r with respHeaders := r.respHeaders.modify i (fun hh => (hh.1, t)) }
  | none => r.header "Content-Type".toList t

/-- `HttpResponse::redirect(cc_string, const int)`. -/
def redirect (r : HttpResponse) (location : CString) (status : ℤ) : HttpResponse :=
  { (({ r with status_ := status }).header "Location".toList location).header
      "Connection".toList "close".toList with body_ := [] }

/-- `HttpResponse::status(int)`. -/
def status (r : HttpResponse) (s : ℤ) : HttpResponse :=
  if s ≠ 0 ∧ Status.ok < s then { r with status_ := s } else r

/-- `HttpResponse::swapBody`. -/
def swapBody (r : HttpResponse) (b : CString) : HttpResponse := { r with body_ := b }

/-- The loop of `HttpResponse::flushCookies`. The buffer is not reset between cookies. -/
def flushFrom : CString → List Cookie → List Header
  | _, [] => []
  | cbuf, c :: cookies =>
      let cbuf := koreBufStringify (cbuf ++ c.text)
      ("Set-Cookie".toList, cString cbuf) :: flushFrom cbuf cookies

/-- `HttpResponse::flushCookies`. -/
def flushCookies (r : HttpResponse) : HttpResponse :=
  { r with cookies_ := [], respHeaders := r.respHeaders ++ flushFrom [] r.cookies_ }

/-- `HttpResponse::end`, with the call of `http_response` it makes. -/
def end_ (r : HttpResponse) (status : ℤ) (data : Option CString) :
    HttpResponse × Option Sent :=
  if r.ended_ then (r, none)
  else
    let r := ({ r with status_ := status }).flushCookies
    ({ r with ended_ := true, body_ := [] },
      some ⟨status, data.getD r.body_, r.respHeaders⟩)

/-- `HttpResponse::flush`. -/
def flush (r : HttpResponse) : HttpResponse × Option Sent := r.end_ r.status_ none

end HttpResponse

end Sparc

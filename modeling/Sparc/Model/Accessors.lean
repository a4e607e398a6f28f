import Sparc.Model.Buffer
import Sparc.Model.Request

/-! # The accessors of a request: `sparc/detail/request.cpp`

The arguments, the cookies and the body of an `HttpRequest` are read when they are first asked
for. A function that reads or writes an element outside of an array, or that reads one that was
not written, has no result.
-/

namespace Sparc

/-- `KVIterator`: it has been called with the pairs, in this order, and says whether to go on. -/
abbrev KVIterator := List (CString × Option CString) → Bool

/-! ## Parameters -/

/-- The loop of `HttpRequest::eachParam` over the indices that are left, with the pairs the
iterator was called with. -/
def visitParams (names values : List CString) (it : KVIterator) :
    List (CString × Option CString) → List ℕ → Option (List (CString × Option CString))
  | seen, [] => some seen
  | seen, i :: indices =>
      (names[i]?).bind (fun name => (values[i]?).bind (fun value =>
        let seen := seen ++ [(name, some value)]
        if it seen then visitParams names values it seen indices else some seen))

/-- `HttpRequest::eachParam`. -/
def HttpRequest.eachParam {η : Type*} (req : HttpRequest η) (it : Option KVIterator) :
    Option (List (CString × Option CString)) :=
  it.elim (some []) (fun it => req.hanadler_.bind (fun rh =>
    visitParams rh.params req.params_ it [] (List.range rh.nparams)))

/-! ## Arguments -/

/-- The function that put an argument into the list. The code cannot tell. -/
inductive ArgSource where
  | query
  | multipart
  deriving DecidableEq

/-- `struct http_arg`. -/
structure HttpArg where
  name : CString
  sValue : CString
  source : ArgSource
  deriving DecidableEq

/-- What `http_populate_get` and `http_populate_multipart_form` find in a request. -/
structure ArgTexts where
  query : List (CString × CString)
  multipart : List (CString × CString)

/-- The arguments as `http_argument_add` puts them into the list. -/
def ArgTexts.added (texts : ArgTexts) : ArgSource → List HttpArg
  | .query => texts.query.map (fun kv => ⟨kv.1, kv.2, .query⟩)
  | .multipart => texts.multipart.map (fun kv => ⟨kv.1, kv.2, .multipart⟩)

/-- The members of `HttpRequest` and `http_request` for the arguments. -/
structure Arguments where
  arguments : List HttpArg := []
  argsLoaded_ : Bool := false
  formParsed_ : Bool := false

namespace Arguments

/-- `http_populate_get` or `http_populate_multipart_form`. -/
def populate (args : Arguments) (texts : ArgTexts) (source : ArgSource) : Arguments :=
  { args with arguments := args.arguments ++ texts.added source }

/-- The loop that looks for a name. -/
def lookup (args : Arguments) (name : CString) : Option CString :=
  (args.arguments.find? (fun arg => arg.name == name)).map HttpArg.sValue

/-- `HttpRequest::queryParam`. -/
def queryParam (args : Arguments) (texts : ArgTexts) (name : CString) :
    Arguments × Option CString :=
  let args :=
    if args.argsLoaded_ then args else { args.populate texts .query with argsLoaded_ := true }
  (args, args.lookup name)

/-- `HttpRequest::form`. -/
def form (args : Arguments) (texts : ArgTexts) (field : CString) : Arguments × Option CString :=
  let args :=
    if args.formParsed_ then { args.populate texts .multipart with formParsed_ := true } else args
  (args, args.lookup field)

/-- The loop of `HttpRequest::eachQueryParam`, with the pairs the iterator was called with. -/
def visit (name : Option CString) (it : KVIterator) :
    List (CString × Option CString) → List HttpArg → List (CString × Option CString)
  | seen, [] => seen
  | seen, qp :: arguments =>
      if name = some qp.name then
        let seen := seen ++ [(qp.name, some qp.sValue)]
        if it seen then visit name it seen arguments else seen
      else visit name it seen arguments

/-- `HttpRequest::eachQueryParam`, with the pairs the iterator was called with. -/
def eachQueryParam (args : Arguments) (name : Option CString) (it : Option KVIterator) :
    List (CString × Option CString) :=
  it.elim [] (fun it => visit name it [] args.arguments)

end Arguments

/-- The calls that read arguments. -/
inductive ArgCall where
  | queryParam (name : CString)
  | eachQueryParam (name : Option CString) (it : Option KVIterator)
  | form (field : CString)

/-- What a call returns, or the pairs its iterator was called with. -/
inductive ArgAnswer where
  | value (value : Option CString)
  | visited (pairs : List (CString × Option CString))
  deriving DecidableEq

def Arguments.step (args : Arguments) (texts : ArgTexts) : ArgCall → Arguments × ArgAnswer
  | .queryParam name => (args.queryParam texts name).map id .value
  | .eachQueryParam name it => (args, .visited (args.eachQueryParam name it))
  | .form field => (args.form texts field).map id .value

/-- Calls on a new request. -/
def Arguments.run (texts : ArgTexts) (calls : List ArgCall) : Arguments :=
  calls.foldl (fun args c => (args.step texts c).1) {}

/-! ## Cookies -/

/-- `isspace`. -/
def isSpace (c : Char) : Bool :=
  c = ' ' || c = '\t' || c = '\n' || c = '\x0b' || c = '\x0c' || c = '\r'

/-- The elements of an array of strings: an element that was not written, or what was written,
where NULL is possible. -/
abbrev CookieTable := List (Option (Option CString))

/-- `table[j] = value`. -/
def writeCookie (table : CookieTable) (j : ℤ) (value : Option CString) : Option CookieTable :=
  if 0 ≤ j ∧ j < table.length then some (table.set j.toNat (some value)) else none

/-- The name of a part of the header, where the `=` behind it has been overwritten. -/
def cookieName (part : CString) : CString := (part.dropWhile isSpace).takeWhile (· ≠ '=')

/-- The text behind the first `=` of a part. -/
def cookieValue (part : CString) : Option CString :=
  if '=' ∈ part then some ((part.dropWhile (· ≠ '=')).drop 1) else none

/-- The loop of `HttpRequest::parseCookies` from the index `j` on. -/
def parseParts : List CString → ℤ → CookieTable → Option CookieTable
  | [], j, table => writeCookie table j none
  | part :: parts, j, table =>
      (writeCookie table j (some (cookieName part))).bind (fun table =>
        (writeCookie table (j + 1) (cookieValue part)).bind (parseParts parts (j + 2)))

/-- The members of `HttpRequest` for the cookies. Of `cookieStr_` only its presence matters. -/
structure RequestCookies where
  cookieStr_ : Bool := false
  cookies_ : Option CookieTable := none
  deriving DecidableEq

/-- The number of elements of `tokens` in `HttpRequest::parseCookies`. -/
def cookieSlots : ℕ := 32

namespace RequestCookies

/-- `HttpRequest::parseCookies`. The variable `j` is not initialised: its first value is what the
stack holds. -/
def parseCookies (jar : RequestCookies) (header : Option CString) (stack : ℤ) :
    Option RequestCookies :=
  if jar.cookieStr_ then some jar
  else
    match header with
    | none => some jar
    | some cookieHeader =>
        let tokens := koreSplitString ';' cookieSlots cookieHeader
        if tokens = [] then some { jar with cookieStr_ := true }
        else
          (parseParts tokens stack (List.replicate (tokens.length * 2 + 1) none)).map
            (fun table => { jar with cookieStr_ := true, cookies_ := some table })

/-- The table that a lookup goes through, where `cookies_` is not NULL. -/
def load (jar : RequestCookies) (header : Option CString) (stack : ℤ) :
    Option (RequestCookies × CookieTable) :=
  (if jar.cookies_.isNone then jar.parseCookies header stack else some jar).bind
    (fun jar => jar.cookies_.map (fun table => (jar, table)))

/-- The loop of `HttpRequest::cookie` over the rest of the table. -/
def lookup (name : CString) : CookieTable → Option (Option CString)
  | [] => none
  | none :: _ => none
  | some none :: _ => some none
  | [some (some _)] => none
  | some (some k) :: value :: table => if name = k then value else lookup name table

/-- `HttpRequest::cookie`. -/
def cookie (jar : RequestCookies) (header : Option CString) (stack : ℤ) (name : CString) :
    Option (RequestCookies × Option CString) :=
  (jar.load header stack).bind (fun r => (lookup name r.2).map (fun value => (r.1, value)))

/-- The loop of `HttpRequest::eachCookie` over the rest of the table. -/
def visit (name : Option CString) (it : KVIterator) :
    List (CString × Option CString) → CookieTable → Option (List (CString × Option CString))
  | _, [] => none
  | _, none :: _ => none
  | seen, some none :: _ => some seen
  | _, [some (some _)] => none
  | seen, some (some k) :: value :: table =>
      if name = some k then
        value.bind (fun value =>
          let seen := seen ++ [(k, value)]
          if it seen then visit name it seen table else some seen)
      else visit name it seen table

/-- `HttpRequest::eachCookie`, with the pairs the iterator was called with. -/
def eachCookie (jar : RequestCookies) (header : Option CString) (stack : ℤ)
    (name : Option CString) (it : Option KVIterator) :
    Option (RequestCookies × List (CString × Option CString)) :=
  it.elim (some (jar, [])) (fun it =>
    (jar.load header stack).bind (fun r =>
      (visit name it [] r.2).map (fun pairs => (r.1, pairs))))

end RequestCookies

/-- The calls that read cookies, with what the stack holds then. -/
inductive CookieLookup where
  | cookie (stack : ℤ) (name : CString)
  | eachCookie (stack : ℤ) (name : Option CString) (it : Option KVIterator)

/-- A call on a request with the header. -/
def RequestCookies.step (header : Option CString) (jar : RequestCookies) :
    CookieLookup → Option (RequestCookies × ArgAnswer)
  | .cookie stack name => (jar.cookie header stack name).map (Prod.map id .value)
  | .eachCookie stack name it =>
      (jar.eachCookie header stack name it).map (Prod.map id .visited)

/-! ## The body -/

/-- `struct kore_buf`: the elements of `data`, those that were not written among them, and
`offset`. -/
structure KoreBuf where
  data : List (Option UInt8)
  offset : ℕ
  deriving DecidableEq

/-- `kore_buf_alloc`. -/
def koreBufAlloc (initial : ℕ) : KoreBuf := ⟨List.replicate initial none, 0⟩

/-- `kore_buf_append`. -/
def koreBufAppend (buf : KoreBuf) (d : List UInt8) : KoreBuf :=
  let data :=
    if buf.data.length < buf.offset + d.length then buf.data ++ List.replicate d.length none
    else buf.data
  ⟨data.take buf.offset ++ d.map some ++ data.drop (buf.offset + d.length),
    buf.offset + d.length⟩

/-- `kore_buf_stringify` of a buffer with its elements: it reads the one in front of `offset`. -/
def koreBufTerminate (buf : KoreBuf) : Option KoreBuf :=
  match buf.offset with
  | 0 => none
  | last + 1 => (buf.data[last]?).join.map (fun c => if c = 0 then buf else koreBufAppend buf [0])

/-- The members of `HttpRequest` for the body. -/
structure RequestBody where
  bodyLoaded_ : Bool := false
  body_ : Option KoreBuf := none

/-- The loop of `HttpRequest::body` over the results of `http_body_read`, where the missing one
is -1. It returns 0 when there is nothing left. -/
def readBody (buf : KoreBuf) : List (Option (List UInt8)) → Option KoreBuf
  | [] => some buf
  | none :: _ => none
  | some [] :: _ => some buf
  | some (b :: data) :: reads => readBody (koreBufAppend buf (b :: data)) reads

/-- `HttpRequest::body`: the text returned is the array of the buffer, or NULL. -/
def RequestBody.body (req : RequestBody) (contentLength : ℕ) (reads : List (Option (List UInt8))) :
    Option (RequestBody × Option (List (Option UInt8))) :=
  let req : RequestBody :=
    if req.bodyLoaded_ = false ∧ req.body_ = none then
      ⟨true, readBody (koreBufAlloc (min contentLength bufsiz)) reads⟩
    else req
  match req.body_ with
  | none => some (req, none)
  | some buf =>
      (koreBufTerminate buf).map (fun buf => ({ req with body_ := some buf }, some buf.data))

end Sparc

import Sparc.Model.Session

/-! # Text buffers: `sparc/util.cpp` on `kore/buf.c`

A buffer is the bytes in front of its offset; what is behind them is not read, and there is
memory for them. The text that a format string and its arguments print is given with the call.
The array itself is in `ByteBuffer`.
-/

namespace Sparc

/-- `BUFSIZ`. -/
def bufsiz : ℕ := 8192

/-- Whether `kore_buf_appendv` prints a text of this length. A text whose length is no `int` is an
error of `vsnprintf`, and fatal. One that does not fit into the array on the stack is formatted a
second time, with the argument list that the first time has used up: unless the format takes no
arguments this is not defined. -/
def appendvPrints (length : ℕ) (args : Bool) : Prop :=
  length < 2 ^ 31 ∧ ¬ (bufsiz ≤ length ∧ args = true)

instance (length : ℕ) (args : Bool) : Decidable (appendvPrints length args) :=
  inferInstanceAs (Decidable (_ ∧ _))

/-- `kore_buf_appendv`. -/
def koreBufAppendv (buf text : CString) (args : Bool) : Option CString :=
  if appendvPrints text.length args then some (buf ++ text) else none

/-- `buffer::bytes`. It counts the characters in an `int`. -/
def bufferBytes (buf : CString) (data : List UInt8) : Option CString :=
  if data.length < 2 ^ 30 then some (buf ++ data.flatMap hexByte) else none

/-- The calls on a `sparc::buffer`. -/
inductive BufferCall where
  | append (data : CString)
  | appendf (text : CString) (args : Bool)
  | bytes (data : List UInt8)
  | reset
  | toString
  deriving DecidableEq

/-- The text a call adds to the buffer. -/
def BufferCall.appended : BufferCall → CString
  | .append data => data
  | .appendf text _ => text
  | .bytes data => data.flatMap hexByte
  | .reset => []
  | .toString => []

namespace Buffer

/-- `buffer::toString` of a buffer that is not null: the buffer behind the call and the text
returned. `kore_buf_stringify` reads the byte in front of the offset, so there is no result
for an empty buffer. -/
def toString (buf : CString) : Option (CString × CString) :=
  if buf = [] then none else some (koreBufStringify buf, cString (koreBufStringify buf))

/-- A call, with the text it returns. -/
def step (buf : CString) : BufferCall → Option (CString × Option CString)
  | .append data => some (buf ++ data, none)
  | .appendf text args => (koreBufAppendv buf text args).map (fun buf => (buf, none))
  | .bytes data => (bufferBytes buf data).map (fun buf => (buf, none))
  | .reset => some ([], none)
  | .toString => (toString buf).map (fun r => (r.1, some r.2))

/-- A sequence of calls on a new buffer. -/
def run (buf : CString) (calls : List BufferCall) : Option CString :=
  calls.foldlM (fun buf c => (step buf c).map Prod.fst) buf

end Buffer

/-! ## The text of a query -/

/-- The calls on a `Sql` object that reach its buffer. `debug` stringifies it in builds where
`kore_debug` is not empty. -/
inductive SqlCall where
  | fragment (text : CString) (args : Bool)
  | sql
  | debug (enabled : Bool)
  deriving DecidableEq

/-- `Sql::operator()`, `Sql::sql` and `Sql::debug`. -/
def SqlCall.calls : SqlCall → List BufferCall
  | .fragment text args => [.append [' '], .appendf text args]
  | .sql => [.toString]
  | .debug enabled => if enabled then [.toString] else []

/-- The text handed to `kore_pgsql_query` behind the calls. -/
def sqlText (calls : List SqlCall) : Option CString :=
  ((Buffer.run [] (calls.flatMap SqlCall.calls)).bind Buffer.toString).map Prod.snd

/-! ## Cookies -/

/-- What `HttpResponse::flushCookies` writes for a cookie, up to the text of its header. -/
def Cookie.calls (c : Cookie) : List BufferCall :=
  .appendf (c.name ++ '=' :: c.value ++ "; ".toList) true ::
  ((match c.domain with
    | some domain => [.appendf ("Domain=".toList ++ domain ++ "; ".toList) true]
    | none => []) ++
  (match c.path with
    | some path => [.appendf ("Domain=".toList ++ path ++ "; ".toList) true]
    | none => []) ++
  (if c.secure then [.append "Secure; ".toList] else []) ++
  (if c.expiryTime ≠ 0 then [.appendf ("Max-Age=".toList ++ formatInt c.expiryTime) true]
    else []))

/-- The loop of `HttpResponse::flushCookies` on the buffer itself: the values of the headers. -/
def flushTexts : CString → List Cookie → Option (List CString)
  | _, [] => some []
  | cbuf, c :: cookies =>
      (Buffer.run cbuf c.calls).bind (fun cbuf =>
        (Buffer.toString cbuf).bind (fun r =>
          (flushTexts r.1 cookies).map (fun texts => r.2 :: texts)))

end Sparc

import Sparc.Model.Request
import Sparc.Model.Response

/-! # Sessions: `sparc/detail/session.cpp`

MD5 is a parameter of the model. A pointer to a session is represented by the number of
the object, which no other object ever gets; what a freed pointer leads to is undefined.
-/

namespace Sparc

/-! ## MD5 and its text -/

/-- A result of MD5: `MD5_DIGEST_LENGTH` bytes. -/
structure Digest where
  bytes : List UInt8
  length_bytes : bytes.length = 16
  deriving DecidableEq

/-- One digit of `%02x`. -/
def hexDigit (n : ℕ) : Char := if n < 10 then Char.ofNat (48 + n) else Char.ofNat (87 + n)

/-- `sprintf` with `%02x`. -/
def hexByte (b : UInt8) : CString := [hexDigit (b.toNat / 16), hexDigit (b.toNat % 16)]

/-- The loop of `buffer::bytes` and `md5Hash`. -/
def Digest.text (d : Digest) : CString := d.bytes.flatMap hexByte

/-- `md5Hash`. -/
def md5Hash (md5 : CString → Digest) (data : CString) : CString := (md5 data).text

/-! ## One session -/

/-- `HttpSession` with the `http_session` it points to. -/
structure HttpSession where
  object : ℕ
  id : CString
  expiryTime : ℤ
  attributes : List (CString × Option CString)
  new_ : Bool
  deriving DecidableEq

namespace HttpSession

/-- `HttpSession::attribute(cc_string)`. -/
def attribute_ (s : HttpSession) (name : CString) : Option CString :=
  (s.attributes.find? (fun attr => attr.1 == name)).bind Prod.snd

/-- `HttpSession::addAttribute`. The value can be NULL. -/
def addAttribute (s : HttpSession) (name : CString) (value : Option CString) : HttpSession :=
  match s.attributes.findIdx? (fun attr => attr.1 == name) with
  | some i => { s with attributes := s.attributes.modify i (fun attr => (attr.1, value)) }
  | none => { s with attributes := s.attributes ++ [(name, value)] }

/-- `HttpSession::removeAttribute`. -/
def removeAttribute (s : HttpSession) (name : CString) : HttpSession × Option CString :=
  ({ s with attributes := s.attributes.eraseP (fun attr => attr.1 == name) }, s.attribute_ name)

/-- The calls the loop of `HttpSession::eachAttribute` makes. -/
def visit (it : CString → Option CString → Bool) :
    List (CString × Option CString) → List (CString × Option CString)
  | [] => []
  | attr :: attrs => if it attr.1 attr.2 then attr :: visit it attrs else [attr]

/-- `HttpSession::eachAttribute`, given an empty function or one to call. -/
def eachAttribute (s : HttpSession) (it : Option (CString → Option CString → Bool)) :
    List (CString × Option CString) :=
  match it with
  | some it => visit it s.attributes
  | none => []

/-- What a caller sees of a session it was given. -/
structure View where
  object : ℕ
  isNew : Bool
  attributes : List (CString × Option CString)
  deriving DecidableEq

def view (s : HttpSession) : View := ⟨s.object, s.new_, s.attributes⟩

end HttpSession

/-! ## The manager -/

/-- `HttpSessionManager`, with the number of sessions allocated so far. -/
structure HttpSessionManager where
  key : CString
  timeout_ : ℤ
  sessions_ : List HttpSession
  allocated : ℕ
  deriving DecidableEq

/-- The bytes `ipToSessionId` gives to MD5: those of the buffer less the last one. -/
def sessionData (key ip : CString) : CString := (koreBufStringify (key ++ ip)).dropLast

namespace HttpSessionManager

/-- `HttpSessionManager::HttpSessionManager`, given the random key and the timeout. -/
def new (key : CString) (timeout : ℤ) : HttpSessionManager := ⟨key, timeout, [], 0⟩

/-- `HttpSessionManager::ipToSessionId`. -/
def ipToSessionId (md5 : CString → Digest) (m : HttpSessionManager) (ip : CString) : CString :=
  md5Hash md5 (sessionData m.key ip)

/-- The new expiry time of `find` and `create`. The sum is taken modulo `2^64` and
converted to `int64_t`. -/
def expiry (m : HttpSessionManager) (now : ℕ) : ℤ :=
  if m.timeout_ < 0 then m.timeout_ else (m.timeout_ + now).bmod 18446744073709551616

/-- Write through the pointer to a session. -/
def put (m : HttpSessionManager) (s : HttpSession) : HttpSessionManager :=
  { m with sessions_ := m.sessions_.map (fun r => if r.object = s.object then s else r) }

/-- `HttpSessionManager::discard`. -/
def discard (m : HttpSessionManager) (raw : HttpSession) : HttpSessionManager :=
  { m with sessions_ := m.sessions_.filter (fun r => r.object ≠ raw.object) }

/-- `HASH_FIND_STR`. -/
def stored (m : HttpSessionManager) (sessionId : CString) : Option HttpSession :=
  m.sessions_.find? (fun r => r.id == sessionId)

/-- The test of `HttpSessionManager::find`. -/
def expired (raw : HttpSession) (now : ℕ) : Bool :=
  decide (0 < raw.expiryTime ∧ raw.expiryTime.toNat < now)

/-- `HttpSessionManager::find`. -/
def find (m : HttpSessionManager) (now : ℕ) (sessionId : CString) :
    HttpSessionManager × Option HttpSession :=
  match m.stored sessionId with
  | some raw =>
      if expired raw now then (m.discard raw, none)
      else
        let session := { raw with expiryTime := m.expiry now }
        (m.put session, some session)
  | none => (m, none)

/-- `HttpSessionManager::create`. -/
def create (md5 : CString → Digest) (m : HttpSessionManager) (now : ℕ) (ip : CString)
    (create : Bool) : HttpSessionManager × Option HttpSession :=
  let sessionId := ipToSessionId md5 m ip
  match m.find now sessionId with
  | (m, some session) =>
      let session := { session with new_ := false }
      (m.put session, some session)
  | (m, none) =>
      if create then
        let session := ⟨m.allocated, sessionId, m.expiry now, [], true⟩
        ({ m with sessions_ := m.sessions_ ++ [session], allocated := m.allocated + 1 },
          some session)
      else (m, none)

/-- The session a pointer leads to, unless it has been freed. -/
def deref (m : HttpSessionManager) (object : ℕ) : Option HttpSession :=
  m.sessions_.find? (fun r => r.object == object)

/-! ## The calls an application makes -/

/-- The calls of the session interface, and the change of the timeout. -/
inductive Operation where
  | create (ip : CString) (create : Bool)
  | attribute_ (object : ℕ) (name : CString)
  | setAttribute (object : ℕ) (name value : CString)
  | attributeSet (object : ℕ) (name : CString) (value : Option CString)
  | removeAttribute (object : ℕ) (name : CString)
  | eachAttribute (object : ℕ) (it : Option (CString → Option CString → Bool))
  | timeout (timeout : ℤ)

/-- What a call returns. -/
inductive Answer where
  | session (found : Option HttpSession.View)
  | text (value : Option CString)
  | visited (calls : List (CString × Option CString))
  | done
  deriving DecidableEq

/-- One call at a time. A call on a freed session is undefined. -/
def perform (md5 : CString → Digest) (m : HttpSessionManager) :
    ℕ × Operation → Option (HttpSessionManager × Answer)
  | (now, .create ip flag) =>
      let r := create md5 m now ip flag
      some (r.1, .session (r.2.map HttpSession.view))
  | (_, .attribute_ object name) =>
      (m.deref object).map (fun s => (m, .text (s.attribute_ name)))
  | (_, .setAttribute object name value) =>
      (m.deref object).map (fun s => (m.put (s.addAttribute name (some value)), .done))
  | (_, .attributeSet object name value) =>
      (m.deref object).map (fun s => (m.put (s.addAttribute name value), .done))
  | (_, .removeAttribute object name) =>
      (m.deref object).map (fun s =>
        (m.put (s.removeAttribute name).1, .text (s.removeAttribute name).2))
  | (_, .eachAttribute object it) =>
      (m.deref object).map (fun s => (m, .visited (s.eachAttribute it)))
  | (_, .timeout timeout) => some ({ m with timeout_ := timeout }, .done)

end HttpSessionManager

/-! ## The session of a request -/

/-- `HttpRequest` with its client's address and the session it keeps. -/
structure SessionRequest (η : Type*) extends HttpRequest η where
  ip : CString
  session_ : Option ℕ := none

/-- `HttpRequest::session(bool)`. -/
def SessionRequest.session {η : Type*} (md5 : CString → Digest) (m : HttpSessionManager)
    (now : ℕ) (req : SessionRequest η) (create : Bool) :
    HttpSessionManager × SessionRequest η :=
  match req.session_ with
  | some _ => (m, req)
  | none =>
      let r := HttpSessionManager.create md5 m now req.ip create
      (r.1, { req with session_ := r.2.map HttpSession.object })

end Sparc

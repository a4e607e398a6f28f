import Sparc.Library.Text
import Sparc.Model.Buffer
import Mathlib.Algebra.Group.Nat.Defs
import Mathlib.Logic.Function.Basic

/-! # Authentication: `sparc/detail/auth.cpp`

What the code does with a header that makes it use a null pointer or leave its buffer is
undefined, and is `none` in the model.
-/

namespace Sparc

/-! ## Searching C strings -/

/-- `strchr`: the rest of the string from the first occurrence on. -/
def strchr (s : CString) (c : Char) : Option CString :=
  if c ∈ s then some (s.dropWhile (· ≠ c)) else none

/-- `strstr`, compared with NULL. -/
def strstr : CString → CString → Bool
  | [], needle => needle.isEmpty
  | c :: s, needle => needle.isPrefixOf (c :: s) || strstr s needle

/-! ## `kore_base64_decode` -/

/-- `b64table`. -/
def b64table : CString :=
  "ABCDEFGHIJKLMNOPQRSTUVWXYZabcdefghijklmnopqrstuvwxyz0123456789+/".toList

/-- The bytes of the 24 bit group `b`, from the byte number 2 down to the byte number `o`. -/
def groupBytes (b o : ℕ) : CString :=
  ([2, 1, 0].filter (fun i => o ≤ i)).map (fun i => Char.ofNat (b / 256 ^ i % 256))

/-- The loop of `kore_base64_decode`: the text still to read, the place of the next digit
in its group, the group and the bytes so far. -/
def b64Loop : CString → ℕ → ℕ → CString → Option CString
  | [], _, _, res => some res
  | c :: input, i, b, res =>
      if c = '=' then
        if 2 < i then none else some (res ++ groupBytes b i)
      else
        match b64table.findIdx? (· = c) with
        | none => none
        | some d =>
            let b := b + d * 64 ^ (i - 1)
            if i = 1 then b64Loop input 4 0 (res ++ groupBytes b 0)
            else b64Loop input (i - 1) b res

/-- `kore_base64_decode`. -/
def koreBase64Decode (input : CString) : Option CString := b64Loop input 4 0 []

/-! ## `kore_base64_encode` -/

/-- The digits of the 24 bit group `b`, from the digit number 3 down to the digit number
`padding`. -/
def groupDigits (b padding : ℕ) : CString :=
  ([3, 2, 1, 0].filter (fun i => padding ≤ i)).map (fun i => b64table.getD (b / 64 ^ i % 64) '=')

/-- The 24 bit group of three bytes. -/
def byteGroup (x y z : Char) : ℕ := x.toNat * 256 ^ 2 + y.toNat * 256 + z.toNat

/-- `kore_base64_encode`, which fills the last group with zero bytes. -/
def koreBase64Encode : CString → CString
  | x :: y :: z :: data => groupDigits (byteGroup x y z) 0 ++ koreBase64Encode data
  | [x, y] => groupDigits (byteGroup x y '\x00') 1 ++ "=".toList
  | [x] => groupDigits (byteGroup x '\x00' '\x00') 2 ++ "==".toList
  | [] => []

/-! ## What the application provides -/

/-- `auth_type`. -/
inductive AuthType where
  | any | basic | digest | token
  deriving DecidableEq

/-- `auth_info_t`. -/
structure AuthInfo where
  type : AuthType
  username : CString
  password : Option CString
  salt : Option CString
  deriving DecidableEq

/-- `AuthInfoCb`: the returned value and what the callback left in its argument. -/
abbrev AuthInfoCb := AuthInfo → Bool × AuthInfo

/-- What a verification path reports: its verdict, and the name it stored in `usr`. -/
structure Verdict where
  ok : Bool
  usr : Option CString
  deriving DecidableEq

/-! ## Basic -/

/-- `basic`. The decoded bytes are not terminated; `behind` is what follows them in
memory. -/
def basic (behind header : CString) (getInfo : AuthInfoCb) : Verdict :=
  match strchr header ' ' with
  | none => ⟨false, none⟩
  | some base64Auth =>
      match koreBase64Decode (base64Auth.drop 1) with
      | none => ⟨false, none⟩
      | some out =>
          match koreSplitString ':' 3 (cString (out ++ behind)) with
          | user :: pwd :: _ =>
              match getInfo ⟨.basic, user, none, none⟩ with
              | (true, ⟨_, _, some password, some _⟩) => ⟨decide (pwd = password), some user⟩
              | _ => ⟨false, some user⟩
          | _ => ⟨false, none⟩

/-! ## The memory of the decoded bytes -/

/-- The two bytes of `KORE_MEM_MAGIC`. -/
def koreMemMagic : CString := ['\xd0', '\xd0']

/-- What the memory from `kore_malloc` holds. A block of a pool still has what was there, a
larger one comes from `calloc`. -/
def koreMalloc (prior : ℕ → Char) (len : ℕ) : CString :=
  if len ≤ koreMemBlockSizeMax then (List.range len).map prior else List.replicate len '\x00'

/-- What follows the decoded bytes of `text`: the unused rest of a buffer that has the length of
the text, the magic number of its block, and what stands `beyond`. -/
def behindDecoded (prior : ℕ → Char) (beyond text out : CString) : CString :=
  if text = [] then []
  else (koreMalloc prior text.length).drop out.length ++ koreMemMagic ++ beyond

/-- `basic` in the memory it finds: what the buffer for the decoded bytes held, and what stands
`beyond` its block. -/
def basicIn (prior : ℕ → Char) (beyond header : CString) (getInfo : AuthInfoCb) : Verdict :=
  match strchr header ' ' with
  | none => basic [] header getInfo
  | some base64Auth =>
      match koreBase64Decode (base64Auth.drop 1) with
      | none => basic [] header getInfo
      | some out => basic (behindDecoded prior beyond (base64Auth.drop 1) out) header getInfo

/-! ## Digest -/

/-- The fields of a Digest header, in the order of the tests in `digest`. -/
inductive Field where
  | username | realm | nonce | opaque_ | uri | response | cnonce | qop | algorithm | nc
  deriving DecidableEq

namespace Field

/-- The order of the tests. -/
def chain : List Field :=
  [username, realm, nonce, opaque_, uri, response, cnonce, qop, algorithm, nc]

/-- The text `digest` looks for. -/
def text : Field → CString
  | username => "username".toList
  | realm => "realm".toList
  | nonce => "nonce".toList
  | opaque_ => "opaque".toList
  | uri => "uri".toList
  | response => "response".toList
  | cnonce => "cnonce".toList
  | qop => "qop".toList
  | algorithm => "algorithm".toList
  | nc => "nc".toList

/-- Whether the value is taken from between quotes. -/
def quoted : Field → Bool
  | qop | algorithm | nc => false
  | _ => true

/-- Fields that must be there. -/
def required : List Field := [username, realm, nonce, opaque_, uri, response]

end Field

/-- `kore_split_string` on a buffer: with the number of free slots, the offset of the next
field and the fields that `strsep` is to find, the buffer with its separators overwritten
and the offsets of the tokens. -/
def splitBuffer : ℕ → ℕ → List CString → CString × List ℕ
  | _, _, [] => ([], [])
  | 0, _, fields => (List.intercalate [','] fields ++ ['\x00'], [])
  | n + 1, off, field :: fields =>
      if field = [] then
        let r := splitBuffer (n + 1) (off + 1) fields
        ('\x00' :: r.1, r.2)
      else
        let r := splitBuffer n (off + field.length + 1) fields
        (field ++ '\x00' :: r.1, off :: r.2)

/-- A pointer of `digest` that is not NULL: one into its copy of the header, or `NULL + 1`, which
an unquoted field is left with where its token has no equals sign. -/
inductive FieldPtr where
  | inside (offset : ℕ)
  | wild
  deriving DecidableEq

/-- What a pointer of `digest` leads to: `none` for NULL, `some none` for a wild pointer. A wild
pointer is not NULL for the tests of `digest`, and reading it is not defined. -/
abbrev Reading := Option (Option CString)

/-- The text at a pointer. -/
def FieldPtr.read (buf : CString) : FieldPtr → Option CString
  | inside offset => some (Text.read '\x00' buf offset)
  | wild => none

/-- The pointers of `digest`, and its copy of the header. -/
structure DigestState where
  buf : CString
  ptrs : Field → Option FieldPtr

namespace DigestState

/-- What a field points to. -/
def value (st : DigestState) (f : Field) : Reading := (st.ptrs f).map (FieldPtr.read st.buf)

/-- The first test of the chain that a token passes. -/
def accepts (ptrs : Field → Option FieldPtr) (token : CString) : Option Field :=
  Field.chain.find? (fun f => (ptrs f).isNone && strstr token f.text)

/-- One iteration of the loop over the tokens. -/
def token (st : DigestState) (tok : ℕ) : Option DigestState :=
  match accepts st.ptrs (Text.read '\x00' st.buf tok) with
  | none => some st
  | some f =>
      if f.quoted then
        (Text.find '\x00' st.buf tok '=').bind (fun eq =>
          if eq + 2 < st.buf.length then
            (Text.find '\x00' st.buf (eq + 2) '"').map (fun quote =>
              { buf := st.buf.set quote '\x00'
                ptrs := Function.update st.ptrs f (some (.inside (eq + 2))) })
          else none)
      else
        some { st with ptrs := Function.update st.ptrs f (some
          ((Text.find '\x00' st.buf tok '=').elim .wild (fun eq => .inside (eq + 1)))) }

end DigestState

/-- The part of `digest` that takes the header apart. The number is `ntoks`. -/
def digestParse (header : CString) : Option (ℕ × DigestState) :=
  let split := splitBuffer 9 0 (header.splitOn ',')
  if split.2.length < 7 then some (split.2.length, ⟨split.1, fun _ => none⟩)
  else
    (split.2.foldlM DigestState.token ⟨split.1, fun _ => none⟩).map
      (fun st => (split.2.length, st))

/-- `http_method_text`. -/
def httpMethodText : Method → CString
  | .GET => "GET".toList
  | .POST => "POST".toList
  | .PUT => "PUT".toList
  | .DELETE => "DELETE".toList
  | .HEAD => "HEAD".toList
  | .UPDATE => []

/-- The strings `digest` gives to MD5, joined as its format strings join them. -/
def joinColon (parts : List CString) : CString := List.intercalate [':'] parts

/-- What `%s` prints for `_dbgstr` of a pointer. -/
def dbgstr (reading : Reading) : Option CString := reading.getD (some [])

/-- What is printed between the two digests. A wild `qop` is read by `strcmp`, and a wild `nc`
by the format, if `qop` is `auth`. -/
def challengeText (nonce : CString) : (qop nc cnonce : Reading) → Option CString
  | some none, _, _ => none
  | some (some qop), nc, cnonce =>
      if qop = "auth".toList then
        (dbgstr nc).bind (fun nc => (dbgstr cnonce).map (fun cnonce =>
          ':' :: joinColon [nonce, nc, cnonce, qop] ++ [':']))
      else some (':' :: nonce ++ [':'])
  | none, _, _ => some (':' :: nonce ++ [':'])

/-- The response `digest` computes from the fields and the password, in the buffer `dbuf`. -/
def computedResponse (md5 : CString → Digest) (method : Method) (password : CString)
    (username realm nonce uri : CString) (qop nc cnonce : Reading) : Option CString :=
  (koreBufAppendv [] (joinColon [username, realm, password]) true).bind (fun a1 =>
    (koreBufAppendv [] (joinColon [httpMethodText method, uri]) true).bind (fun a2 =>
      (challengeText nonce qop nc cnonce).bind (fun text =>
        (koreBufAppendv (md5 a1).text text true).map (fun dbuf =>
          (md5 (dbuf ++ (md5 a2).text)).text))))

/-- The part of `digest` behind the loop. The value returned by the callback is not used,
and `strncmp` compares as many characters as a digest has. -/
def digestCheck (md5 : CString → Digest) (method : Method) (getInfo : AuthInfoCb)
    (value : Field → Reading) : Option Verdict :=
  match value .username, value .realm, value .nonce, value .opaque_, value .uri,
    value .response with
  | some username, some realm, some nonce, some _, some uri, some response =>
      username.bind (fun username =>
        match (getInfo ⟨.digest, username, none, none⟩).2.password with
        | none => some ⟨false, some username⟩
        | some password => do
            let computed ← computedResponse md5 method password username (← realm) (← nonce)
              (← uri) (value .qop) (value .nc) (value .cnonce)
            let response ← response
            some ⟨decide (response.take computed.length = computed), some username⟩)
  | _, _, _, _, _, _ => some ⟨false, none⟩

/-- `digest`. -/
def digest (md5 : CString → Digest) (header : CString) (method : Method)
    (getInfo : AuthInfoCb) : Option Verdict :=
  match strchr header ' ' with
  | none => some ⟨false, none⟩
  | some digestStart =>
      (digestParse (digestStart.drop 1)).bind (fun r =>
        if r.1 < 7 then some ⟨false, none⟩ else digestCheck md5 method getInfo r.2.value)

/-! ## The two calls -/

/-- `_check_auth_type`. -/
def checkAuthType (t a : AuthType) : Bool := decide (t = a ∨ t = .any)

/-- The branch `authenticate` takes for a header. -/
def scheme (t : AuthType) (header : CString) : Option AuthType :=
  if checkAuthType t .basic && strstr header "Basic ".toList then some .basic
  else if checkAuthType t .digest && strstr header "Digest ".toList then some .digest
  else none

variable {η : Type*}

/-- `authenticate`. An empty callback is `none`. -/
def authenticate (md5 : CString → Digest) (behind : CString) (m : HttpSessionManager) (now : ℕ)
    (req : SessionRequest η) (getInfo : Option AuthInfoCb) (t : AuthType) :
    Option (HttpSessionManager × SessionRequest η × Verdict) :=
  match getInfo, req.header "Authorization".toList with
  | some getInfo, some header =>
      match scheme t header with
      | some .basic => some (m, req, basic behind header getInfo)
      | some .digest =>
          let r := req.session md5 m now false
          match r.2.session_ with
          | none => some (r.1, r.2, ⟨false, none⟩)
          | some object =>
              (r.1.deref object).bind (fun s =>
                if s.new_ then some (r.1, r.2, ⟨false, none⟩)
                else (digest md5 header req.method getInfo).map (fun v => (r.1, r.2, v)))
      | _ => some (m, req, ⟨false, none⟩)
  | _, _ => some (m, req, ⟨false, none⟩)

/-- `authorize`, given the bytes of `RAND_bytes` unless that fails. -/
def authorize (md5 : CString → Digest) (m : HttpSessionManager) (now : ℕ)
    (req : SessionRequest η) (resp : HttpResponse) (realm : CString) (type : AuthType)
    (random : Option CString) :
    Option (HttpSessionManager × SessionRequest η × HttpResponse × Bool) :=
  if type = .basic ∨ type = .any then
    (koreBufAppendv [] ("Basic realm=\"".toList ++ realm ++ "\"".toList) true).map (fun sbuf =>
      (m, req, resp.header "WWW-Authenticate".toList sbuf, true))
  else
    match random with
    | none => some (m, req, resp.status Status.internalError, false)
    | some key =>
        (koreBufAppendv [] ("Digest realm=\"".toList ++ realm ++ "\", ".toList) true).bind
          (fun sbuf =>
            let r := req.session md5 m now true
            (r.2.session_.bind r.1.deref).map (fun s =>
              (r.1, r.2, resp.header "WWW-Authenticate".toList
                (sbuf ++ "nonce=\"".toList ++ (md5 key).text ++
                  "\", algorithm=MD5, opaque=\"".toList ++ s.id.take 32 ++ "\"".toList), true)))

end Sparc

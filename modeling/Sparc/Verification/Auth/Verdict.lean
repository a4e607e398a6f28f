import Sparc.Verification.Auth.Calls
import Sparc.Verification.Auth.Parsing

/-! # The callback's answer and the verdict -/

namespace Sparc

/-! ## The check and the name it finds -/

/-- The check of a scheme. -/
def check (md5 : CString → Digest) (behind header : CString) (method : Method)
    (getInfo : AuthInfoCb) : AuthType → Option Verdict
  | .basic => some (basic behind header getInfo)
  | .digest => digest md5 header method getInfo
  | .any | .token => none

/-- A callback that gives nothing and refuses. -/
def silent : AuthInfoCb := fun info => (false, info)

/-- The name that a check finds in a header and asks the callback about. It is stored first, so it
is what a callback that gives nothing leaves. -/
def foundName (md5 : CString → Digest) (behind header : CString) (method : Method)
    (branch : AuthType) : Option CString :=
  (check md5 behind header method silent branch).bind Verdict.usr

/-! ## What either scheme does with a refusal -/

/-- The name is stored before the callback is asked. -/
theorem usr_basic (behind header : CString) (getInfo getInfo' : AuthInfoCb) :
    (basic behind header getInfo).usr = (basic behind header getInfo').usr := by
  unfold basic
  cases strchr header ' ' with
  | none => rfl
  | some base64Auth =>
      cases hout : koreBase64Decode (base64Auth.drop 1) with
      | none => simp only [hout]
      | some out =>
          simp only [hout]
          rcases koreSplitString ':' 3 (cString (out ++ behind)) with _ | ⟨user, _ | ⟨pwd, rest⟩⟩
          · rfl
          · rfl
          · dsimp only
            split <;> split <;> rfl

theorem basic_refused {behind header u : CString} {getInfo : AuthInfoCb}
    (husr : (basic behind header getInfo).usr = some u)
    (hrefused : (getInfo ⟨.basic, u, none, none⟩).1 = false) :
    (basic behind header getInfo).ok = false := by
  unfold basic at husr ⊢
  split
  · rfl
  · rename_i base64Auth hchr
    rw [hchr] at husr
    simp only at husr
    split
    · rfl
    · rename_i out hout
      rw [hout] at husr
      simp only at husr
      split
      · rename_i user pwd rest htoks
        rw [htoks] at husr
        simp only at husr
        split
        · rename_i info hinfo
          rw [hinfo] at husr
          simp only [Option.some.injEq] at husr
          simp [husr ▸ hinfo] at hrefused
        · rfl
      · rfl

/-- Where a name is found, the check is made, on the same fields for every callback. -/
theorem digest_found {md5 : CString → Digest} {header u : CString} {method : Method}
    (hfound : (digest md5 header method silent).bind Verdict.usr = some u) :
    Unquoted u ∧ ∃ (st : DigestState) (realm nonce opaqueValue uri response : CString),
      Required st.value u realm nonce opaqueValue uri response ∧
      ∀ getInfo, digest md5 header method getInfo = digestCheck md5 method getInfo st.value := by
  obtain ⟨v, hdigest, husr⟩ := Option.bind_eq_some_iff.1 hfound
  have hv : v ≠ ⟨false, none⟩ := by
    rintro rfl
    cases husr
  obtain ⟨start, n, st, username, realm, nonce, opaqueValue, uri, response, hstart, hparse, hn,
    hrequired, hcheck⟩ := digest_checked hdigest hv
  obtain rfl : username = u := by
    simpa [(digestCheck_ok_iff hrequired hcheck).1] using husr
  obtain ⟨text, htext, hunquoted⟩ := digestParse_unquoted hparse rfl hrequired.username
  obtain rfl := Option.some.inj htext
  exact ⟨hunquoted, st, realm, nonce, opaqueValue, uri, response, hrequired,
    fun getInfo => digest_eq_digestCheck hstart hparse hn⟩

/-! ## A header that gives any name -/

/-- A hash that makes every response known. -/
def zeroMd5 : CString → Digest := fun _ => Digest.ofNat 0

/-- Everything but the name. -/
def zeroEntries : List Entry :=
  [⟨0, .realm, "home".toList⟩, ⟨0, .nonce, "0".toList⟩, ⟨0, .opaque_, "0".toList⟩,
    ⟨0, .uri, "/".toList⟩, ⟨0, .response, (Digest.ofNat 0).text⟩, ⟨0, .cnonce, "0".toList⟩,
    ⟨0, .algorithm, "MD5".toList⟩, ⟨0, .nc, "1".toList⟩]

/-- The name follows an empty field for it. There are no slots left by then, so `digest` goes
on reading behind the end of the token, and commas do not end the name. -/
def zeroHeader (u : CString) : CString :=
  Fields.closed ',' (zeroEntries.map Entry.text ++ ["username=".toList]) ++ (u ++ ['"'])

theorem zeroEntries_plain : ∀ e ∈ zeroEntries, Entry.Plain e.value := by
  decide +kernel

theorem zeroEntries_clean : Clean [] zeroEntries := by
  decide +kernel

/-- The parts of the header in the buffer of `digest`. -/
theorem zeroHeader_laid {u : CString} (hu : '\x00' ∉ u) :
    ∃ buf ps mid, splitBuffer 9 0 ((zeroHeader u).splitOn ',') = (buf, ps ++ [mid]) ∧
      Text.Laid '\x00' buf 0 ps (zeroEntries.map Entry.text) mid ∧
      Text.Holds '\x00' buf mid "username=".toList ∧
      Text.Holds '\x00' buf (mid + 10) (u ++ '"' :: []) := by
  have hsplit : (zeroHeader u).splitOn ',' =
      (zeroEntries.map Entry.text ++ ["username=".toList]) ++ (u ++ ['"']).splitOn ',' := by
    apply Fields.splitOn_closed_append
    decide +kernel
  have htake : ((zeroEntries.map Entry.text ++ ["username=".toList]) ++
      (u ++ ['"']).splitOn ',').take 9 = zeroEntries.map Entry.text ++ ["username=".toList] :=
    List.take_left' rfl
  have hdrop : ((zeroEntries.map Entry.text ++ ["username=".toList]) ++
      (u ++ ['"']).splitOn ',').drop 9 = (u ++ ['"']).splitOn ',' :=
    List.drop_left' rfl
  have hnul : ∀ field ∈ (zeroEntries.map Entry.text ++ ["username=".toList]) ++
      (u ++ ['"']).splitOn ',', '\x00' ∉ field := by
    have hfirst : ∀ field ∈ zeroEntries.map Entry.text ++ ["username=".toList],
        '\x00' ∉ field := by decide +kernel
    intro field hfield
    rcases List.mem_append.mp hfield with hfield | hfield
    · exact hfirst field hfield
    · intro hmem
      have hwhole := mem_intercalate ',' hfield hmem
      rw [List.intercalate_splitOn] at hwhole
      simp [hu] at hwhole
  obtain ⟨hi, hlaid, hrest⟩ := splitBuffer_laid 9
    ((zeroEntries.map Entry.text ++ ["username=".toList]) ++ (u ++ ['"']).splitOn ',') []
    (by rw [htake]; decide +kernel) hnul
  rw [htake] at hlaid
  rw [hdrop, List.intercalate_splitOn] at hrest
  obtain ⟨ps₁, ps₂, mid, hps, hfirst, hlast⟩ := Text.laid_append hlaid
  cases ps₂ with
  | nil => exact hlast.elim
  | cons p ps₂ =>
      obtain ⟨rfl, hname, hend⟩ := hlast
      cases ps₂ with
      | cons q ps₂ => exact hend.elim
      | nil =>
          obtain rfl : mid + 10 = hi := hend
          refine ⟨_, ps₁, mid, ?_, hfirst, hname, hrest ?_⟩
          · rw [hsplit, ← hps]
            rfl
          · have hlength := List.length_pos_of_ne_nil (List.splitOn_ne_nil ',' (u ++ ['"']))
            rw [List.length_append]
            exact Nat.lt_add_of_pos_right hlength

/-- `digest` reads the name from the header, and the other fields as they are listed. -/
theorem zeroHeader_parse {u : CString} (hu : Unquoted u) :
    ∃ st, digestParse (zeroHeader u) = some (9, st) ∧
      st.value = Function.update (record (fun _ => none) zeroEntries) .username
        (some (some u)) := by
  obtain ⟨buf, ps, mid, hsplit, hlaid, hname, hrest⟩ := zeroHeader_laid hu.2
  have hknown : Known buf 0 (fun _ => none) (fun _ => none) := fun f => Or.inl ⟨rfl, rfl⟩
  obtain ⟨st, hfold, hvalues, hkeep⟩ := tokens_entries hknown hlaid zeroEntries_plain []
    (by simp) zeroEntries_clean
  have hname' := hkeep mid _ (Nat.le_refl mid) hname
  have hrest' := hkeep (mid + 10) _ (Nat.le_add_right mid 10) hrest
  have hnone : st.ptrs .username = none := by
    have hiff := hvalues.isSome_iff .username
    have hrecord : record (fun _ => none) zeroEntries .username = none := rfl
    simpa [hrecord] using hiff
  have haccepts : DigestState.accepts st.ptrs "username=".toList = some .username := by
    refine find?_of_takeWhile (by decide) ?_ ?_
    · simp only [hnone]
      decide
    · intro g hg
      simp [Field.chain] at hg
  have heq : Text.find '\x00' st.buf mid '=' = some (mid + 8) :=
    Text.Holds.find_eq (s := "username".toList) hname' (by decide)
  have hquote := hrest'.find_eq hu.1
  have hinside : mid + 8 + 2 < st.buf.length := by
    have := hrest'.lt_length
    omega
  have htoken : DigestState.token st mid = some
      ⟨st.buf.set (mid + 10 + u.length) '\x00',
        Function.update st.ptrs .username (some (.inside (mid + 10)))⟩ := by
    simp only [DigestState.token, hname'.read_eq, haccepts, heq, Option.bind_some]
    simp [Field.quoted, hinside, hquote]
  have hknown' : Known (st.buf.set (mid + 10 + u.length) '\x00') (mid + 10 + u.length + 1)
      (Function.update st.ptrs .username (some (.inside (mid + 10))))
      (Function.update (record (fun _ => none) zeroEntries) .username (some (some u))) := by
    refine Known.insert (hvalues.mono (by omega) ?_) hrest'.cut (by omega)
    intro q x hx hlt
    exact hx.set_behind (by omega) _
  refine ⟨_, ?_, hknown'.value⟩
  have hcount : (ps ++ [mid]).length = 9 := by
    have := hlaid.length_eq
    simp only [List.length_append, this]
    rfl
  simp only [digestParse, hsplit, hcount, Nat.reduceLT, if_false, List.foldlM_append, hfold,
    Option.bind_eq_bind, Option.bind_some, List.foldlM_cons, List.foldlM_nil, htoken,
    Option.pure_def, Option.map_some]

/-- The fields of the header. -/
theorem zeroHeader_check {u : CString} (hu : Unquoted u) :
    ∃ st : DigestState, Required st.value u "home".toList "0".toList "0".toList "/".toList
        (Digest.ofNat 0).text ∧
      ∀ getInfo, digest zeroMd5 ("Digest ".toList ++ zeroHeader u) .GET getInfo =
        digestCheck zeroMd5 .GET getInfo st.value := by
  obtain ⟨st, hparse, hvalue⟩ := zeroHeader_parse hu
  refine ⟨st, ⟨?_, ?_, ?_, ?_, ?_, ?_⟩, fun getInfo => digest_of_parse hparse (by decide)⟩ <;>
    rw [hvalue] <;> rfl

/-- The name is found. -/
theorem zeroHeader_found {u : CString} (hu : Unquoted u) :
    foundName zeroMd5 [] ("Digest ".toList ++ zeroHeader u) .GET .digest = some u := by
  obtain ⟨st, hrequired, hdigest⟩ := zeroHeader_check hu
  rw [foundName, check, hdigest silent, digestCheck_of_none hrequired rfl]
  rfl

/-- Whatever the callback returns, the header is accepted if it leaves a password and the check
comes to a verdict. -/
theorem zeroHeader_accepted {u password : CString} (hu : Unquoted u) {getInfo : AuthInfoCb}
    (hpassword : (getInfo ⟨.digest, u, none, none⟩).2.password = some password) {v : Verdict}
    (hv : digest zeroMd5 ("Digest ".toList ++ zeroHeader u) .GET getInfo = some v) :
    v.ok = true := by
  obtain ⟨st, hrequired, hdigest⟩ := zeroHeader_check hu
  rw [hdigest getInfo] at hv
  refine (digestCheck_ok_iff hrequired hv).2.2 ⟨password, hpassword, ?_⟩
  rw [digestCheck_of_some hrequired hpassword] at hv
  obtain ⟨computed, hcomputed, _⟩ := Option.map_eq_some_iff.1 hv
  obtain ⟨_, _, _, _, _, hzero⟩ := computedResponse_eq_some_iff.1 hcomputed
  have hsame : (Digest.ofNat 0).text = computed := hzero
  have hlength : (Digest.ofNat 0).text.length = 32 := Digest.length_text (Digest.ofNat 0)
  rw [hcomputed, ← hsame, List.take_of_length_le (Nat.le_of_eq hlength)]

/-! ## The two schemes and the callback -/

variable {η : Type*}

/-- Whenever the callback refuses the name found in a header, the check comes to a verdict, and
the user is not authenticated. -/
def Obeys (η : Type*) (getInfo : AuthInfoCb) : Prop :=
  ∀ (md5 : CString → Digest) (behind : CString) (m : HttpSessionManager) (now : ℕ)
    (req : SessionRequest η) (t branch : AuthType) (header u : CString),
    req.header "Authorization".toList = some header → scheme t header = some branch →
    foundName md5 behind header req.method branch = some u →
    (getInfo ⟨branch, u, none, none⟩).1 = false →
    (check md5 behind header req.method getInfo branch).isSome = true ∧
      ∀ (m' : HttpSessionManager) (req' : SessionRequest η) (v : Verdict),
        authenticate md5 behind m now req (some getInfo) t = some (m', req', v) → v.ok = false

/-- A manager with one session, which does not expire. -/
def knownAddress : HttpSessionManager := ⟨[], -1, [⟨0, (Digest.ofNat 0).text, -1, [], true⟩], 1⟩

/-- A request with an authorization header. -/
def clientRequest (η : Type*) (header : CString) : SessionRequest η :=
  { HttpRequest.new .GET "/".toList [("Authorization".toList, header)] with
    ip := "10.0.0.1".toList }

theorem authenticate_knownAddress {header : CString} {getInfo : AuthInfoCb} {v : Verdict}
    (hscheme : scheme .digest header = some .digest)
    (hdigest : digest zeroMd5 header .GET getInfo = some v) :
    ∃ m' req', authenticate zeroMd5 [] knownAddress 0 (clientRequest η header) (some getInfo)
      .digest = some (m', req', v) := by
  have hheader : (clientRequest η header).header "Authorization".toList = some header := rfl
  have hsession :
      ((clientRequest η header).session zeroMd5 knownAddress 0 false).2.session_ = some 0 := rfl
  have hderef : ((clientRequest η header).session zeroMd5 knownAddress 0 false).1.deref 0 =
      some ⟨0, (Digest.ofNat 0).text, -1, [], false⟩ := rfl
  simp only [authenticate, hheader, hscheme, hsession, hderef, Option.bind_some,
    Bool.false_eq_true, if_false]
  exact ⟨_, _, Option.map_eq_some_iff.mpr ⟨v, hdigest, rfl⟩⟩

section refused

variable {md5 : CString → Digest} {behind header u : CString} {m m' : HttpSessionManager} {now : ℕ}
  {req req' : SessionRequest η} {t : AuthType} {getInfo : AuthInfoCb} {v : Verdict}

/-- `basic` does not authenticate a user whom the callback refuses. -/
theorem not_ok_of_basic (hheader : req.header "Authorization".toList = some header)
    (hscheme : scheme t header = some .basic)
    (hfound : foundName md5 behind header req.method .basic = some u)
    (hrefused : (getInfo ⟨.basic, u, none, none⟩).1 = false)
    (hauth : authenticate md5 behind m now req (some getInfo) t = some (m', req', v)) :
    v.ok = false := by
  have husr : (basic behind header getInfo).usr = some u :=
    (usr_basic behind header getInfo silent).trans hfound
  rcases authenticate_cases hauth with ⟨_, _, rfl⟩ |
    ⟨cb, header', hcb, hheader', _, _, _, rfl⟩ | ⟨cb, header', _, hheader', hscheme', _⟩
  · rfl
  · obtain rfl := Option.some.inj hcb
    obtain rfl := Option.some.inj (hheader.symm.trans hheader')
    exact basic_refused husr hrefused
  · obtain rfl := Option.some.inj (hheader.symm.trans hheader')
    cases hscheme.symm.trans hscheme'

/-- Where `digest` does not authenticate the user, `authenticate` does not. -/
theorem not_ok_of_digest (hheader : req.header "Authorization".toList = some header)
    (hscheme : scheme t header = some .digest)
    (hverdict : digest md5 header req.method getInfo = some ⟨false, some u⟩)
    (hauth : authenticate md5 behind m now req (some getInfo) t = some (m', req', v)) :
    v.ok = false := by
  rcases authenticate_cases hauth with ⟨_, _, rfl⟩ |
    ⟨cb, header', _, hheader', hscheme', _⟩ |
    ⟨cb, header', hcb, hheader', _, _, _, rfl | ⟨_, _, _, _, _, hcheck⟩⟩
  · rfl
  · obtain rfl := Option.some.inj (hheader.symm.trans hheader')
    cases hscheme.symm.trans hscheme'
  · rfl
  · obtain rfl := Option.some.inj hcb
    obtain rfl := Option.some.inj (hheader.symm.trans hheader')
    rw [Option.some.inj (hcheck.symm.trans hverdict)]

/-- Only two schemes are checked. -/
theorem scheme_eq_some {branch : AuthType} (hscheme : scheme t header = some branch) :
    branch = .basic ∨ branch = .digest := by
  unfold scheme at hscheme
  split at hscheme
  · exact Or.inl (Option.some.inj hscheme).symm
  · split at hscheme
    · exact Or.inr (Option.some.inj hscheme).symm
    · cases hscheme

end refused

/-- Basic always obeys the callback; Digest obeys it exactly if the callback leaves no
password with the names it refuses. -/
theorem obeys_iff_no_password (η : Type*) (getInfo : AuthInfoCb) :
    Obeys η getInfo ↔
      ∀ u, Unquoted u → (getInfo ⟨.digest, u, none, none⟩).1 = false →
        (getInfo ⟨.digest, u, none, none⟩).2.password = none := by
  constructor
  · intro hobeys u hu hrefused
    cases hpassword : (getInfo ⟨.digest, u, none, none⟩).2.password with
    | none => rfl
    | some password =>
        have hscheme : scheme .digest ("Digest ".toList ++ zeroHeader u) = some .digest := by
          have hstr : strstr ("Digest ".toList ++ zeroHeader u) "Digest ".toList = true := by
            rw [strstr_iff]
            exact List.infix_append' [] _ _
          simp only [scheme, hstr]
          rfl
        have hfound := zeroHeader_found hu
        have haccepted := @zeroHeader_accepted u password hu getInfo hpassword
        generalize "Digest ".toList ++ zeroHeader u = header at hscheme hfound haccepted
        obtain ⟨hcheck, hfalse⟩ := hobeys zeroMd5 [] knownAddress 0 (clientRequest η header)
          .digest .digest header u rfl hscheme hfound hrefused
        obtain ⟨v, hdigest⟩ := Option.isSome_iff_exists.1 hcheck
        obtain ⟨m', req', hauth⟩ := @authenticate_knownAddress η _ _ _ hscheme hdigest
        have hok := haccepted hdigest
        simp [hfalse _ _ _ hauth] at hok
  · intro hnone md5 behind m now req t branch header u hheader hscheme hfound hrefused
    rcases scheme_eq_some hscheme with rfl | rfl
    · exact ⟨rfl, fun m' req' v => not_ok_of_basic hheader hscheme hfound hrefused⟩
    · obtain ⟨hu, st, _, _, _, _, _, hrequired, hdigest⟩ := digest_found hfound
      have hverdict : digest md5 header req.method getInfo = some ⟨false, some u⟩ := by
        rw [hdigest getInfo, digestCheck_of_none hrequired (hnone u hu hrefused)]
      exact ⟨Option.isSome_iff_exists.2 ⟨_, hverdict⟩,
        fun m' req' v => not_ok_of_digest hheader hscheme hverdict⟩

/-- A callback that fills in the password and refuses. -/
def refusing : AuthInfoCb := fun info => (false, { info with password := some "secret".toList })

/-- MD5 at the strings that come up. -/
def refusedMd5 : CString → Digest :=
  md5At [(List.replicate 32 'k' ++ "10.0.0.1".toList, 0x6fb31b677b6359b2905eb68cfb09fc59),
    ("ann:home:secret".toList, 0xadd5c2813193fa59611f953980ce49c4),
    ("GET:/".toList, 0x71998c64aea37ae77020c49c00f73fa8),
    ("add5c2813193fa59611f953980ce49c4:8f3a:71998c64aea37ae77020c49c00f73fa8".toList,
      0x0bf145bb79688b86e4fcfc95fad9c865)]

/-- The header of a client that knows the password. -/
def refusedHeader : CString :=
  ("Digest username=\"ann\", realm=\"home\", nonce=\"8f3a\", opaque=\"5cc0\", uri=\"/\", " ++
    "response=\"0bf145bb79688b86e4fcfc95fad9c865\", algorithm=MD5").toList

/-- The user is authenticated although the callback refuses the name. -/
theorem refusing_authenticated :
    (refusing ⟨.digest, "ann".toList, none, none⟩).1 = false ∧
    (authenticate refusedMd5 []
        (HttpSessionManager.create refusedMd5 (.new (List.replicate 32 'k') 10) 1
          "10.0.0.1".toList true).1
        2 (clientRequest Unit refusedHeader) (some refusing) .any).map (fun r => r.2.2) =
      some ⟨true, some "ann".toList⟩ := by
  refine ⟨rfl, ?_⟩
  decide +kernel

end Sparc

import Sparc.Verification.Auth.Parsing

/-! # The order of the fields in a Digest header -/

namespace Sparc

/-! ## The response of RFC 2617 -/

/-- The secret part of the response, under the algorithm that is named. -/
def rfcA1 (md5 : CString → Digest) (username realm password nonce : CString)
    (algorithm cnonce : Option CString) : Option CString :=
  let secret := (md5 (joinColon [username, realm, password])).text
  if algorithm.getD "MD5".toList = "MD5".toList then some secret
  else if algorithm = some "MD5-sess".toList then
    cnonce.map (fun cnonce => (md5 (joinColon [secret, nonce, cnonce])).text)
  else none

/-- The response computed from the named fields, the method and the password, where they
determine one. -/
def rfc2617 (md5 : CString → Digest) (method : Method) (password : CString)
    (value : Field → Option CString) : Option CString :=
  match value .username, value .realm, value .nonce, value .uri with
  | some username, some realm, some nonce, some uri =>
      let a2 := (md5 (joinColon [httpMethodText method, uri])).text
      (rfcA1 md5 username realm password nonce (value .algorithm) (value .cnonce)).bind (fun a1 =>
        match value .qop, value .nc, value .cnonce with
        | none, _, _ => some (md5 (joinColon [a1, nonce, a2])).text
        | some qop, some nc, some cnonce =>
            if qop = "auth".toList then
              some (md5 (joinColon [a1, nonce, nc, cnonce, qop, a2])).text
            else none
        | _, _, _ => none)
  | _, _, _, _ => none

/-- The callback has a password for the user, and with it the response is right. -/
def RfcAccepts (md5 : CString → Digest) (method : Method) (getInfo : AuthInfoCb)
    (es : List Entry) : Prop :=
  ∃ username password response, listed es .username = some username ∧
    (getInfo ⟨.digest, username, none, none⟩).2.password = some password ∧
    listed es .response = some response ∧
    rfc2617 md5 method password (listed es) = some response

/-! ## Headers that are read as they are written -/

/-- The header `digest` reads as it is written: every entry is recognised as what it is, an
entry beyond the ninth is one that does not count, the options are the ones `digest` knows
and the response is not longer than a digest. -/
structure Straight (es : List Entry) : Prop where
  clean : Clean [] (es.take 9)
  rest : ∀ e ∈ es.drop 9, e.field = .algorithm
  qop : ∀ q, listed es .qop = some q →
    q = "auth".toList ∧ (listed es .nc).isSome ∧ (listed es .cnonce).isSome
  algorithm : ∀ a, listed es .algorithm = some a → a = "MD5".toList
  response : ∀ r, listed es .response = some r → r.length ≤ 32

theorem listed_isSome {es : List Entry} {f : Field} (h : f ∈ es.map Entry.field) :
    ∃ x, listed es f = some x := by
  obtain ⟨e, he, rfl⟩ := List.mem_map.mp h
  have hfind : (es.find? (fun e' => e'.field == e.field)).isSome := by
    rw [List.find?_isSome]
    exact ⟨e, he, by simp⟩
  obtain ⟨e', he'⟩ := Option.isSome_iff_exists.mp hfind
  exact ⟨e'.value, by simp [listed, he']⟩

/-- A field among those that are looked at. -/
theorem Straight.listed_take {es : List Entry} (h : Straight es) {f : Field}
    (hf : f ≠ .algorithm) : listed (es.take 9) f = listed es f := by
  have hdrop : (es.drop 9).find? (fun e => e.field == f) = none := by
    simp only [List.find?_eq_none, beq_iff_eq]
    intro e he heq
    exact hf (heq ▸ h.rest e he)
  have hfind : es.find? (fun e => e.field == f) = (es.take 9).find? (fun e => e.field == f) := by
    conv_lhs => rw [← List.take_append_drop 9 es, List.find?_append, hdrop, Option.or_none]
  rw [listed, listed, hfind]

/-- What `digest` reads in the header. -/
def listedReading (es : List Entry) (f : Field) : Reading := (listed es f).map some

theorem text_challenge (a1 nonce nc cnonce qop a2 : CString) :
    a1 ++ (':' :: joinColon [nonce, nc, cnonce, qop] ++ [':']) ++ a2 =
      joinColon [a1, nonce, nc, cnonce, qop, a2] := by
  simp [joinColon, List.intercalate_cons_cons]

theorem text_challenge_plain (a1 nonce a2 : CString) :
    a1 ++ (':' :: nonce ++ [':']) ++ a2 = joinColon [a1, nonce, a2] := by
  simp [joinColon, List.intercalate_cons_cons]

/-- Under the known options a response that is computed is the one of RFC 2617. -/
theorem Straight.computedResponse_eq {es : List Entry} (h : Straight es)
    {md5 : CString → Digest} {method : Method}
    {password username realm nonce uri computed : CString}
    (husername : listed es .username = some username) (hrealm : listed es .realm = some realm)
    (hnonce : listed es .nonce = some nonce) (huri : listed es .uri = some uri)
    (hcomputed : computedResponse md5 method password username realm nonce uri
      (listedReading es .qop) (listedReading es .nc) (listedReading es .cnonce) = some computed) :
    rfc2617 md5 method password (listed es) = some computed := by
  have halgorithm : (listed es .algorithm).getD "MD5".toList = "MD5".toList := by
    cases ha : listed es .algorithm with
    | none => rfl
    | some a => exact h.algorithm a ha
  obtain ⟨_, _, text, htext, _, rfl⟩ := computedResponse_eq_some_iff.1 hcomputed
  simp only [rfc2617, husername, hrealm, hnonce, huri, rfcA1, halgorithm, if_true,
    Option.bind_some]
  cases hqop : listed es .qop with
  | none =>
      simp only [listedReading, hqop, Option.map_none] at htext
      obtain rfl := Option.some.inj htext
      rw [text_challenge_plain]
  | some q =>
      obtain ⟨rfl, hnc, hcnonce⟩ := h.qop q hqop
      obtain ⟨nc, hnc⟩ := Option.isSome_iff_exists.mp hnc
      obtain ⟨cnonce, hcnonce⟩ := Option.isSome_iff_exists.mp hcnonce
      simp only [listedReading, hqop, hnc, hcnonce, Option.map_some] at htext
      rw [challengeText_auth nonce (by simp) (by simp)] at htext
      obtain rfl := Option.some.inj htext
      simp only [hnc, hcnonce, if_true, Option.join_some, Option.getD_some, text_challenge]

/-- On a header that is read as it is written, with the required fields and seven at least,
`digest` accepts exactly the response of RFC 2617, if the texts it prints fit. -/
theorem digest_iff_rfc2617 (md5 : CString → Digest) (method : Method) (getInfo : AuthInfoCb)
    (es : List Entry) (hplain : ∀ e ∈ es, Entry.Plain e.value)
    (hnodup : (es.map Entry.field).Nodup)
    (hrequired : ∀ f ∈ Field.required, f ∈ es.map Entry.field) (hseven : 7 ≤ es.length)
    (h : Straight es) (hprintable : Printable method getInfo (listedReading es)) :
    ∃ v, digest md5 ("Digest ".toList ++ headerText es) method getInfo = some v ∧
      (v.ok = true ↔ RfcAccepts md5 method getInfo es) := by
  obtain ⟨n, st, hparse, hn, hvalue⟩ := digestParse_entries hplain hseven h.clean
  have hnodup' : ((es.take 9).map Entry.field).Nodup :=
    hnodup.sublist ((List.take_sublist 9 es).map _)
  have hlisted : ∀ f, f ≠ .algorithm → st.value f = listedReading es f := by
    intro f hf
    rw [hvalue, record_eq hnodup', h.listed_take hf, Option.or_none]
    rfl
  obtain ⟨username, husername⟩ := listed_isSome (hrequired .username (by decide))
  obtain ⟨realm, hrealm⟩ := listed_isSome (hrequired .realm (by decide))
  obtain ⟨nonce, hnonce⟩ := listed_isSome (hrequired .nonce (by decide))
  obtain ⟨opaqueValue, hopq⟩ := listed_isSome (hrequired .opaque_ (by decide))
  obtain ⟨uri, huri⟩ := listed_isSome (hrequired .uri (by decide))
  obtain ⟨response, hresponse⟩ := listed_isSome (hrequired .response (by decide))
  have hread : ∀ {f text}, f ≠ .algorithm → listed es f = some text →
      st.value f = some (some text) := by
    intro f text hf htext
    rw [hlisted f hf, listedReading, htext]
    rfl
  have hfields : Required st.value username realm nonce opaqueValue uri response :=
    ⟨hread (by decide) husername, hread (by decide) hrealm, hread (by decide) hnonce,
      hread (by decide) hopq, hread (by decide) huri, hread (by decide) hresponse⟩
  have hsome : (digestCheck md5 method getInfo st.value).isSome = true := by
    rw [isSome_digestCheck_iff (fun f x hf hx => digestParse_unquoted hparse hf hx)]
    exact hprintable.congr (fun f hf => (hlisted f hf).symm)
  obtain ⟨v, hcheck⟩ := Option.isSome_iff_exists.1 hsome
  refine ⟨v, (digest_of_parse hparse hn).trans hcheck, ?_⟩
  rw [(digestCheck_ok_iff hfields hcheck).2, hlisted .qop (by decide), hlisted .nc (by decide),
    hlisted .cnonce (by decide), List.take_of_length_le (h.response response hresponse)]
  constructor
  · rintro ⟨password, hpassword, hcomputed⟩
    exact ⟨username, password, response, husername, hpassword, hresponse,
      h.computedResponse_eq husername hrealm hnonce huri hcomputed⟩
  · rintro ⟨username', password, response', husername', hpassword, hresponse', heq⟩
    obtain rfl := Option.some.inj (husername.symm.trans husername')
    obtain rfl := Option.some.inj (hresponse.symm.trans hresponse')
    refine ⟨password, hpassword, ?_⟩
    rw [digestCheck_of_some hfields hpassword] at hcheck
    obtain ⟨computed, hcomputed, _⟩ := Option.map_eq_some_iff.1 hcheck
    rw [hlisted .qop (by decide), hlisted .nc (by decide), hlisted .cnonce (by decide)]
      at hcomputed
    rw [hcomputed, ← heq]
    exact (h.computedResponse_eq husername hrealm hnonce huri hcomputed).symm

/-! ## One header in two orders -/

/-- The values of the header. -/
def sampleEntry (field : Field) : Entry :=
  ⟨1, field, match field with
    | .username => "ann".toList
    | .realm => "home".toList
    | .nonce => "8f3a".toList
    | .opaque_ => "5cc0".toList
    | .uri => "/".toList
    | .response => "f574559e394201a4f6c123eb370ffb37".toList
    | .cnonce => "17".toList
    | .qop => "auth".toList
    | .algorithm => "MD5".toList
    | .nc => "1".toList⟩

/-- MD5 at the strings that come up. -/
def digestMd5 : CString → Digest :=
  md5At [("ann:home:secret".toList, 0xadd5c2813193fa59611f953980ce49c4),
    ("GET:/".toList, 0x71998c64aea37ae77020c49c00f73fa8),
    ("add5c2813193fa59611f953980ce49c4:8f3a:1:17:auth:71998c64aea37ae77020c49c00f73fa8".toList,
      0xf574559e394201a4f6c123eb370ffb37),
    ("add5c2813193fa59611f953980ce49c4:17:1::auth:71998c64aea37ae77020c49c00f73fa8".toList,
      0x4c73a70c47c54789b9c73623dd0f3744)]

/-- An application that knows the user. -/
def sampleInfo : AuthInfoCb := fun info => (true, { info with password := some "secret".toList })

/-- The entries with the client's nonce behind the server's. -/
def sampleEntries : List Entry :=
  [.username, .realm, .nonce, .uri, .qop, .nc, .cnonce, .response, .opaque_].map sampleEntry

theorem digest_iff_rfc2617_sample :
    ∃ v, digest digestMd5 ("Digest ".toList ++ headerText sampleEntries) .GET sampleInfo =
        some v ∧
      (v.ok = true ↔ RfcAccepts digestMd5 .GET sampleInfo sampleEntries) := by
  refine digest_iff_rfc2617 digestMd5 .GET sampleInfo sampleEntries (by decide +kernel)
    (by decide) (by decide) (by decide) ⟨by decide +kernel, by decide, ?_, ?_, ?_⟩ ?_
  · intro q hq
    obtain rfl := Option.some.inj hq
    decide
  · intro a ha
    cases ha
  · intro r hr
    obtain rfl := Option.some.inj hr
    decide
  · rintro username realm nonce opaqueValue uri response password
      ⟨husername, hrealm, hnonce, _, huri, _⟩ hpassword
    obtain rfl := Option.some.inj (Option.some.inj husername)
    obtain rfl := Option.some.inj (Option.some.inj hrealm)
    obtain rfl := Option.some.inj (Option.some.inj hnonce)
    obtain rfl := Option.some.inj (Option.some.inj huri)
    obtain rfl := Option.some.inj hpassword
    decide +kernel

/-- The same entries, the client's nonce in front. -/
def cnonceFirst : List Entry :=
  [.username, .realm, .cnonce, .nonce, .uri, .response, .opaque_, .qop, .nc].map sampleEntry

/-- `digest` then takes the client's nonce for the server's and refuses the right response. -/
theorem digest_refuses_cnonceFirst :
    (∀ e ∈ cnonceFirst, Entry.Plain e.value) ∧ (cnonceFirst.map Entry.field).Nodup ∧
    (∀ f ∈ Field.required, f ∈ cnonceFirst.map Entry.field) ∧ 7 ≤ cnonceFirst.length ∧
    RfcAccepts digestMd5 .GET sampleInfo cnonceFirst ∧
    digest digestMd5 ("Digest ".toList ++ headerText cnonceFirst) .GET sampleInfo =
      some ⟨false, some "ann".toList⟩ := by
  refine ⟨by decide +kernel, by decide, by decide, by decide, ⟨_, _, _, rfl, rfl, rfl, ?_⟩, ?_⟩
  · decide +kernel
  · decide +kernel

end Sparc

import Sparc.Library.Machine
import Sparc.Model.Worker
import Sparc.Verification.Auth.Calls
import Sparc.Verification.Auth.Parsing
import Sparc.Verification.Session.Lifetime

/-! # What an accepted Digest header is bound to -/

namespace Sparc

open HttpSessionManager

variable {η : Type*} {md5 : CString → Digest}

/-! ## Where the sessions of the table come from -/

section table

variable {m : HttpSessionManager} {now : ℕ} {ip : CString} {flag : Bool} {s : HttpSession}

theorem create_origin (h : m.WellFormed) (hs : s ∈ (create md5 m now ip flag).1.sessions_) :
    (∃ raw ∈ m.sessions_, raw.object = s.object ∧ raw.id = s.id) ∨
    (flag = true ∧ s.object = m.allocated ∧ s.id = ipToSessionId md5 m ip ∧
      (create md5 m now ip flag).2 = some s) := by
  rcases create_cases h md5 now ip flag with
    ⟨raw, hraw, _, _, _, hm⟩ | ⟨_, _, hpurged⟩ | ⟨hflag, hfound, m₁, hpurged, hm⟩
  · rw [hm] at hs
    rcases (mem_put (s := { raw with expiryTime := m.expiry now, new_ := false }) hraw rfl).mp hs
      with rfl | ⟨hs, _⟩
    · exact Or.inl ⟨raw, hraw, rfl, rfl⟩
    · exact Or.inl ⟨s, hs, rfl, rfl⟩
  · exact Or.inl ⟨s, ((hpurged.mem_iff s).mp hs).1, rfl, rfl⟩
  · rw [hm] at hs
    simp only [List.mem_append, List.mem_singleton] at hs
    rcases hs with hs | rfl
    · exact Or.inl ⟨s, ((hpurged.mem_iff s).mp hs).1, rfl, rfl⟩
    · exact Or.inr ⟨hflag, rfl, rfl, hfound⟩

theorem create_id (h : m.WellFormed) (hs : (create md5 m now ip flag).2 = some s) :
    s.id = ipToSessionId md5 m ip ∧ s ∈ (create md5 m now ip flag).1.sessions_ := by
  rcases create_cases h md5 now ip flag with
    ⟨raw, hraw, hid, _, hfound, hm⟩ | ⟨_, hnone, _⟩ | ⟨_, hfound, m₁, _, hm⟩
  · obtain rfl := Option.some.inj (hs.symm.trans hfound)
    rw [hm]
    exact ⟨hid, (mem_put (s := { raw with expiryTime := m.expiry now, new_ := false }) hraw
      rfl).mpr (Or.inl rfl)⟩
  · simp [hnone] at hs
  · obtain rfl := Option.some.inj (hs.symm.trans hfound)
    rw [hm]
    simp

theorem create_settings (h : m.WellFormed) (md5 : CString → Digest) (now : ℕ) (ip : CString)
    (flag : Bool) :
    (create md5 m now ip flag).1.key = m.key ∧
      m.allocated ≤ (create md5 m now ip flag).1.allocated := by
  rcases create_cases h md5 now ip flag with
    ⟨raw, _, _, _, _, hm⟩ | ⟨_, _, hpurged⟩ | ⟨_, _, m₁, hpurged, hm⟩
  · rw [hm]
    exact ⟨rfl, Nat.le_refl _⟩
  · exact ⟨hpurged.key_eq, Nat.le_of_eq hpurged.allocated_eq.symm⟩
  · rw [hm]
    exact ⟨hpurged.key_eq, Nat.le_succ _⟩

end table

/-! ## Sessions and the challenges before them -/

namespace Worker

/-- In the run so far, an `authorize` call sent a Digest challenge with this identifier, and
the request that made the call was given this session object. -/
def Challenged (md5 : CString → Digest) (start : Worker η) (before : List (WorkerEvent η))
    (object : ℕ) (id : CString) : Prop :=
  ∃ pre post resp realm type random w₀ outs w₁ resp' r req,
    before = pre ++ .authorize resp realm type random :: post ∧
    ¬(type = .basic ∨ type = .any) ∧
    Machine.exec (step md5) start pre = some (w₀, outs) ∧
    step md5 w₀ (.authorize resp realm type random) = some (w₁, .authorized resp' true) ∧
    w₀.running = some r ∧ w₁.requests r = some req ∧ req.session_ = some object ∧
    ipToSessionId md5 w₁.manager req.ip = id

/-- Every session was made by an `authorize` call, and the sessions requests keep have the
identifiers of their addresses. -/
structure Traced (md5 : CString → Digest) (start : Worker η) (before : List (WorkerEvent η))
    (w : Worker η) : Prop where
  wellFormed : w.manager.WellFormed
  kept_lt : ∀ r req object, w.requests r = some req → req.session_ = some object →
    object < w.manager.allocated
  kept_id : ∀ r req s, w.requests r = some req → s ∈ w.manager.sessions_ →
    req.session_ = some s.object → s.id = ipToSessionId md5 w.manager req.ip
  challenged : ∀ s ∈ w.manager.sessions_, Challenged md5 start before s.object s.id

variable {start w w' : Worker η} {before : List (WorkerEvent η)} {r : ℕ}
  {req : SessionRequest η}

theorem Challenged.concat {object : ℕ} {id : CString}
    (h : Challenged md5 start before object id) (e : WorkerEvent η) :
    Challenged md5 start (before ++ [e]) object id := by
  obtain ⟨pre, post, resp, realm, type, random, w₀, outs, w₁, resp', r, req, rfl, hrest⟩ := h
  exact ⟨pre, post ++ [e], resp, realm, type, random, w₀, outs, w₁, resp', r, req, by simp, hrest⟩

theorem new_traced (key : CString) (timeout : ℤ) (now : ℕ) :
    Traced md5 (new key timeout now : Worker η) [] (new key timeout now) := by
  refine ⟨new_wellFormed key timeout, ?_, ?_, ?_⟩ <;>
    simp [new, HttpSessionManager.new]

/-- A step that changes neither the sessions nor what requests keep. -/
theorem Traced.mono (h : Traced md5 start before w) (e : WorkerEvent η)
    (hsessions : w'.manager.sessions_ = w.manager.sessions_)
    (hallocated : w'.manager.allocated = w.manager.allocated)
    (hkey : w'.manager.key = w.manager.key)
    (hkept : ∀ r req object, w'.requests r = some req → req.session_ = some object →
      ∃ r' req', w.requests r' = some req' ∧ req'.session_ = some object ∧ req'.ip = req.ip) :
    Traced md5 start (before ++ [e]) w' := by
  refine ⟨h.wellFormed.congr hsessions hallocated, ?_, ?_, ?_⟩
  · intro r req object hr hobject
    obtain ⟨r', req', hr', hobject', _⟩ := hkept r req object hr hobject
    rw [hallocated]
    exact h.kept_lt r' req' object hr' hobject'
  · intro r req s hr hs hobject
    obtain ⟨r', req', hr', hobject', hip⟩ := hkept r req s.object hr hobject
    rw [ipToSessionId_congr md5 hkey, ← hip]
    exact h.kept_id r' req' s hr' (hsessions ▸ hs) hobject'
  · intro s hs
    exact (h.challenged s (hsessions ▸ hs)).concat e

/-- A step that leaves the sessions and the requests as they are. -/
theorem Traced.keep (h : Traced md5 start before w) (e : WorkerEvent η)
    (hsessions : w'.manager.sessions_ = w.manager.sessions_)
    (hallocated : w'.manager.allocated = w.manager.allocated)
    (hkey : w'.manager.key = w.manager.key) (hrequests : w'.requests = w.requests) :
    Traced md5 start (before ++ [e]) w' := by
  refine h.mono e hsessions hallocated hkey ?_
  intro r req object hr hobject
  exact ⟨r, req, hrequests ▸ hr, hobject, rfl⟩

/-- A request gets the pointer to a session that is found or made, in a step that sends a
challenge if one is made. -/
theorem Traced.assign (h : Traced md5 start before w) (r : ℕ) (req : SessionRequest η)
    (flag : Bool) (e : WorkerEvent η)
    (hnew : flag = true → ∀ object,
      (create md5 w.manager w.now req.ip flag).2.map HttpSession.object = some object →
      Challenged md5 start (before ++ [e]) object (ipToSessionId md5 w.manager req.ip)) :
    Traced md5 start (before ++ [e]) (w.update (create md5 w.manager w.now req.ip flag).1 r
      { req with session_ :=
        (create md5 w.manager w.now req.ip flag).2.map HttpSession.object }) := by
  obtain ⟨hkey, hle⟩ := create_settings h.wellFormed md5 w.now req.ip flag
  have hwf := create_wellFormed h.wellFormed md5 w.now req.ip flag
  refine ⟨hwf, ?_, ?_, ?_⟩
  · intro r' req' object hr' hobject
    rcases requests_update hr' with ⟨rfl, rfl⟩ | ⟨hold, -⟩
    · obtain ⟨s, hs, rfl⟩ := Option.map_eq_some_iff.1 hobject
      exact hwf.object_lt s (create_id h.wellFormed hs).2
    · exact Nat.lt_of_lt_of_le (h.kept_lt r' req' object hold hobject) hle
  · intro r' req' s hr' hs hobject
    rw [show ipToSessionId md5 (w.update _ r _).manager req'.ip =
      ipToSessionId md5 w.manager req'.ip from ipToSessionId_congr md5 hkey _]
    rcases requests_update hr' with ⟨rfl, rfl⟩ | ⟨hold, -⟩
    · obtain ⟨s', hs', hobject⟩ := Option.map_eq_some_iff.1 hobject
      obtain ⟨hid, hmem⟩ := create_id h.wellFormed hs'
      rw [hwf.eq_of_object hs hmem hobject.symm, hid]
    · rcases create_origin h.wellFormed hs with ⟨raw, hraw, hrawobject, hrawid⟩ | ⟨_, hmade, _⟩
      · rw [← hrawid]
        exact h.kept_id r' req' raw hold hraw (hrawobject ▸ hobject)
      · -- The pointers of the other requests are older than a session made here.
        have hlt := h.kept_lt r' req' s.object hold hobject
        omega
  · intro s hs
    rcases create_origin h.wellFormed hs with
      ⟨raw, hraw, hrawobject, hrawid⟩ | ⟨hflag, _, hid, hfound⟩
    · rw [← hrawobject, ← hrawid]
      exact (h.challenged raw hraw).concat e
    · rw [hid]
      exact hnew hflag s.object (by simp [hfound])

/-- `HttpRequest::session` in a step that sends a challenge, if it makes a session. -/
theorem Traced.session (h : Traced md5 start before w) (hcur : w.current = some (r, req))
    (flag : Bool) (e : WorkerEvent η)
    (hnew : flag = true → ∀ object,
      (req.session md5 w.manager w.now flag).2.session_ = some object →
      Challenged md5 start (before ++ [e]) object (ipToSessionId md5 w.manager req.ip)) :
    Traced md5 start (before ++ [e]) (w.update (req.session md5 w.manager w.now flag).1 r
      (req.session md5 w.manager w.now flag).2) := by
  obtain ⟨_, hreq⟩ := current_eq hcur
  cases hsession : req.session_ with
  | some kept =>
      simp only [SessionRequest.session, hsession]
      refine h.mono e rfl rfl rfl ?_
      intro r' req' object hr' hobject
      rcases requests_update hr' with ⟨rfl, rfl⟩ | ⟨hold, -⟩
      · exact ⟨r', _, hreq, hobject, rfl⟩
      · exact ⟨r', req', hold, hobject, rfl⟩
  | none =>
      simp only [SessionRequest.session, hsession] at hnew ⊢
      exact h.assign r req flag e hnew

theorem session_ipToSessionId {m : HttpSessionManager} (h : m.WellFormed) {now : ℕ} {flag : Bool} :
    ipToSessionId md5 (req.session md5 m now flag).1 (req.session md5 m now flag).2.ip =
      ipToSessionId md5 m req.ip := by
  unfold SessionRequest.session
  split
  · rfl
  · exact ipToSessionId_congr md5 (create_settings h md5 now req.ip flag).1 req.ip

theorem Traced.release (h : Traced md5 start before w) (e : WorkerEvent η) (r : ℕ)
    (running : Option ℕ) :
    Traced md5 start (before ++ [e]) { w.release r with running := running } := by
  refine h.mono e rfl rfl rfl ?_
  intro r' req' object hr' hobject
  exact ⟨r', req', requests_release hr', hobject, rfl⟩

theorem Traced.rewrite (h : Traced md5 start before w) (hcur : w.current = some (r, req))
    (e : WorkerEvent η) : Traced md5 start (before ++ [e]) (w.update w.manager r req) := by
  refine h.mono e rfl rfl rfl ?_
  intro r' req' object hr' hobject
  rcases requests_update hr' with ⟨rfl, rfl⟩ | ⟨hold, -⟩
  · exact ⟨r', req', (current_eq hcur).2, hobject, rfl⟩
  · exact ⟨r', req', hold, hobject, rfl⟩

/-- Without calls of `HttpRequest::session` by the application, sessions are made by
challenges only. -/
theorem step_traced {outs : List WorkerAnswer} {e : WorkerEvent η} {answer : WorkerAnswer}
    (h : Traced md5 start before w) (hexec : Machine.exec (step md5) start before = some (w, outs))
    (he : ∀ flag, e ≠ .session flag) (hstep : step md5 w e = some (w', answer)) :
    Traced md5 start (before ++ [e]) w' := by
  have hmoves := step_moves hstep
  cases hmoves with
  | keep hsessions hallocated hkey hrequests => exact h.keep e hsessions hallocated hkey hrequests
  | handle req ip running count =>
      refine h.mono _ rfl rfl rfl ?_
      intro r' req' object hr' hobject
      rcases requests_update (m := w.manager) hr' with ⟨-, rfl⟩ | ⟨hold, -⟩
      · cases hobject
      · exact ⟨r', req', hold, hobject, rfl⟩
  | release r running => exact h.release e r running
  | write hcur => exact h.rewrite hcur e
  | @session _ _ r req flag hcur hlooks hmakes =>
      refine h.session hcur flag e ?_
      intro hflag object hobject
      rcases hmakes hflag with heq | ⟨resp, realm, type, random, resp', rfl, htype, rfl⟩
      · exact absurd heq (he true)
      · refine ⟨before, [], resp, realm, type, random, w, outs, _, resp', r, _, rfl, htype, hexec,
          hstep, (current_eq hcur).1, ?_, hobject, ?_⟩
        · simp [update]
        · exact session_ipToSessionId h.wellFormed

theorem session_origin {m : HttpSessionManager} (h : m.WellFormed) {now : ℕ} {s : HttpSession}
    (hs : s ∈ (req.session md5 m now false).1.sessions_) :
    ∃ raw ∈ m.sessions_, raw.object = s.object ∧ raw.id = s.id := by
  unfold SessionRequest.session at hs
  split at hs
  · exact ⟨s, hs, rfl, rfl⟩
  · rcases create_origin h hs with horigin | ⟨hflag, _⟩
    · exact horigin
    · simp at hflag

/-- In every run of arrivals, resumptions, departures, clock changes and authentication calls,
an accepted Digest header comes from a request whose session is not new and was made by an
earlier `authorize` call for the same identifier. The header has the required fields, and its
response is the digest over the header's own nonce and uri, the method of the request and
the password of the callback. -/
theorem accepted_digest_bound (md5 : CString → Digest) (key : CString) (timeout : ℤ) (now : ℕ)
    (events : List (WorkerEvent η)) (w w' : Worker η) (outs : List WorkerAnswer) (r : ℕ)
    (req : SessionRequest η) (behind header : CString) (getInfo : AuthInfoCb) (type : AuthType)
    (v : Verdict) (honly : ∀ flag, .session flag ∉ events)
    (hrun : Machine.exec (step md5) (new key timeout now) events = some (w, outs))
    (hcur : w.current = some (r, req)) (hheader : req.header "Authorization".toList = some header)
    (hscheme : scheme type header = some .digest)
    (hstep : step md5 w (.authenticate behind (some getInfo) type) = some (w', .user v))
    (hok : v.ok = true) :
    (∃ s req', w'.requests r = some req' ∧ req'.session_ = some s.object ∧
      s ∈ w'.manager.sessions_ ∧ s.new_ = false ∧
      s.id = ipToSessionId md5 w'.manager req'.ip ∧
      Challenged md5 (new key timeout now) events s.object s.id) ∧
    ∃ start n st username realm nonce opaqueValue uri response password,
      strchr header ' ' = some start ∧ digestParse (start.drop 1) = some (n, st) ∧
      Required st.value username realm nonce opaqueValue uri response ∧
      (getInfo ⟨.digest, username, none, none⟩).2.password = some password ∧
      computedResponse md5 req.method password username realm nonce uri (st.value .qop)
        (st.value .nc) (st.value .cnonce) = some (response.take 32) := by
  have htraced : Traced md5 (new key timeout now) events w := by
    refine Machine.exec_history (P := fun before w => (∀ flag, .session flag ∉ before) →
      Traced md5 (new key timeout now) before w) ?_ ?_ hrun honly
    · exact fun _ => new_traced key timeout now
    · intro before w₁ outs₁ e w₂ answer hbefore ih hstep hnot
      refine step_traced (ih ?_) hbefore ?_ hstep
      · exact fun flag hmem => hnot flag (List.mem_append_left _ hmem)
      · rintro flag rfl
        exact hnot flag (by simp)
  have hafter := step_traced htraced hrun (by simp) hstep
  simp only [step, hcur, Option.bind_some, Option.map_eq_some_iff, Prod.mk.injEq, Prod.exists,
    WorkerAnswer.user.injEq] at hstep
  obtain ⟨m', q, v', hauth, rfl, rfl⟩ := hstep
  have hv : v' ≠ ⟨false, none⟩ := by
    rintro rfl
    simp at hok
  rcases authenticate_cases hauth with ⟨_, _, hfalse⟩ | ⟨_, header', _, hheader', hbasic, _⟩ |
    ⟨cb, header', hcb, hheader', _, rfl, rfl, hdigest⟩
  · exact absurd hfalse hv
  · obtain rfl := Option.some.inj (hheader.symm.trans hheader')
    simp [hscheme] at hbasic
  · obtain rfl := Option.some.inj hcb
    obtain rfl := Option.some.inj (hheader.symm.trans hheader')
    obtain ⟨object, s, hobject, hderef, hnew, hdigest⟩ := hdigest.resolve_left hv
    obtain ⟨hs, rfl⟩ := deref_some hderef
    constructor
    · obtain ⟨raw, hraw, hrawobject, hrawid⟩ := session_origin htraced.wellFormed hs
      have hrequest : (w.update (req.session md5 w.manager w.now false).1 r
          (req.session md5 w.manager w.now false).2).requests r =
            some (req.session md5 w.manager w.now false).2 := by simp [update]
      refine ⟨s, _, hrequest, hobject, hs, hnew, hafter.kept_id r _ s hrequest hs hobject, ?_⟩
      rw [← hrawobject, ← hrawid]
      exact htraced.challenged raw hraw
    · obtain ⟨start, n, st, username, realm, nonce, opaqueValue, uri, response, hstart, hparse, _,
        hrequired, hcheck⟩ := digest_checked hdigest hv
      obtain ⟨password, hpassword, hcomputed⟩ := (digestCheck_ok_iff hrequired hcheck).2.mp hok
      exact ⟨start, n, st, username, realm, nonce, opaqueValue, uri, response, password, hstart,
        hparse, hrequired, hpassword, hcomputed⟩

/-! ## A header with a nonce of its own -/

/-- MD5 at the strings that come up. -/
def unboundMd5 : CString → Digest :=
  md5At [(List.replicate 32 'k' ++ "10.0.0.1".toList, 0x6fb31b677b6359b2905eb68cfb09fc59),
    (List.replicate 16 'r', 0x068d6954b6b37902f27bacf79a0e2eac),
    ("ann:home:secret".toList, 0xadd5c2813193fa59611f953980ce49c4),
    ("GET:/".toList, 0x71998c64aea37ae77020c49c00f73fa8),
    ("add5c2813193fa59611f953980ce49c4:8f3a:71998c64aea37ae77020c49c00f73fa8".toList,
      0x0bf145bb79688b86e4fcfc95fad9c865)]

/-- The fields of a header whose nonce, opaque value and uri the client has made up. -/
def unboundFields : CString :=
  ("username=\"ann\", realm=\"home\", nonce=\"8f3a\", opaque=\"5cc0\", uri=\"/\", " ++
    "response=\"0bf145bb79688b86e4fcfc95fad9c865\", algorithm=MD5").toList

/-- A first request is challenged, a second one brings the header. -/
def unboundEvents : List (WorkerEvent Unit) :=
  [.handle (.new .GET "/admin".toList) "10.0.0.1".toList,
    .authorize .new "home".toList .digest (some (List.replicate 16 'r')),
    .finish,
    .handle (.new .GET "/admin".toList
      [("Authorization".toList, "Digest ".toList ++ unboundFields)]) "10.0.0.1".toList]

/-- An application that knows the user. -/
def unboundInfo : AuthInfoCb := fun info => (true, { info with password := some "secret".toList })

/-- The worker when the second request is handled. -/
def unboundWorker : Worker Unit :=
  ((Machine.exec (step unboundMd5) (new (List.replicate 32 'k') 10 1) unboundEvents).map
    Prod.fst).getD (new [] 0 0)

theorem unboundWorker_answer :
    (step unboundMd5 unboundWorker (.authenticate [] (some unboundInfo) .any)).map Prod.snd =
      some (.user ⟨true, some "ann".toList⟩) := by
  decide +kernel

theorem accepted_digest_bound_sample :
    ∃ w' v s, step unboundMd5 unboundWorker (.authenticate [] (some unboundInfo) .any) =
        some (w', .user v) ∧
      v.ok = true ∧ s ∈ w'.manager.sessions_ ∧
      Challenged unboundMd5 (new (List.replicate 32 'k') 10 1) unboundEvents s.object s.id := by
  obtain ⟨⟨w', answer⟩, hstep, rfl⟩ := Option.map_eq_some_iff.mp unboundWorker_answer
  have hbound := accepted_digest_bound unboundMd5 (List.replicate 32 'k') 10 1 unboundEvents
    unboundWorker w' _ 1 _ [] _ unboundInfo .any _ (by simp [unboundEvents]) rfl rfl rfl
    (by decide +kernel) hstep rfl
  obtain ⟨⟨s, _, _, _, hs, _, _, hchallenged⟩, _⟩ := hbound
  exact ⟨w', _, s, hstep, rfl, hs, hchallenged⟩

/-- The header is accepted although its nonce was never issued, its opaque value is not the
identifier of the session and its uri is not the path of the request. -/
theorem accepted_digest_unbound :
    (step unboundMd5 unboundWorker (.authenticate [] (some unboundInfo) .any)).map Prod.snd =
      some (.user ⟨true, some "ann".toList⟩) ∧
    (digestParse unboundFields).map (fun r =>
        (r.2.value .nonce, r.2.value .opaque_, r.2.value .uri)) =
      some (some (some "8f3a".toList), some (some "5cc0".toList), some (some "/".toList)) ∧
    (unboundMd5 (List.replicate 16 'r')).text ≠ "8f3a".toList ∧
    unboundWorker.manager.sessions_.map HttpSession.id ≠ ["5cc0".toList] ∧
    unboundWorker.current.map (fun c => c.2.path) = some "/admin".toList := by
  refine ⟨unboundWorker_answer, ?_⟩
  decide +kernel

end Worker

end Sparc

import Sparc.Model.Auth
import Sparc.Verification.Buffer.Text

/-! # What `authenticate` and `authorize` do -/

namespace Sparc

variable {η : Type*} {md5 : CString → Digest} {m m' : HttpSessionManager} {now : ℕ}
  {req q : SessionRequest η}

/-- Everything `authenticate` can do: give up, ask `basic`, or look for the session of the
request and, with a session that is not new, ask `digest`. -/
theorem authenticate_cases {behind : CString} {getInfo : Option AuthInfoCb} {t : AuthType}
    {v : Verdict} (h : authenticate md5 behind m now req getInfo t = some (m', q, v)) :
    (m' = m ∧ q = req ∧ v = ⟨false, none⟩) ∨
    (∃ cb header, getInfo = some cb ∧ req.header "Authorization".toList = some header ∧
      scheme t header = some .basic ∧ m' = m ∧ q = req ∧ v = basic behind header cb) ∨
    (∃ cb header, getInfo = some cb ∧ req.header "Authorization".toList = some header ∧
      scheme t header = some .digest ∧ m' = (req.session md5 m now false).1 ∧
      q = (req.session md5 m now false).2 ∧
      (v = ⟨false, none⟩ ∨ ∃ object s, q.session_ = some object ∧ m'.deref object = some s ∧
        s.new_ = false ∧ digest md5 header req.method cb = some v)) := by
  unfold authenticate at h
  cases getInfo with
  | none =>
      simp only [Option.some.injEq, Prod.mk.injEq] at h
      obtain ⟨rfl, rfl, rfl⟩ := h
      exact Or.inl ⟨rfl, rfl, rfl⟩
  | some cb =>
      cases hheader : req.header "Authorization".toList with
      | none =>
          simp only [hheader, Option.some.injEq, Prod.mk.injEq] at h
          obtain ⟨rfl, rfl, rfl⟩ := h
          exact Or.inl ⟨rfl, rfl, rfl⟩
      | some header =>
          simp only [hheader] at h
          split at h
          · rename_i hscheme
            simp only [Option.some.injEq, Prod.mk.injEq] at h
            obtain ⟨rfl, rfl, rfl⟩ := h
            exact Or.inr (Or.inl ⟨cb, header, rfl, rfl, hscheme, rfl, rfl, rfl⟩)
          · rename_i hscheme
            refine Or.inr (Or.inr ⟨cb, header, rfl, rfl, hscheme, ?_⟩)
            cases hsession : (req.session md5 m now false).2.session_ with
            | none =>
                simp only [hsession, Option.some.injEq, Prod.mk.injEq] at h
                obtain ⟨rfl, rfl, rfl⟩ := h
                exact ⟨rfl, rfl, Or.inl rfl⟩
            | some object =>
                simp only [hsession, Option.bind_eq_some_iff] at h
                obtain ⟨s, hs, h⟩ := h
                cases hnew : s.new_ with
                | true =>
                    simp only [hnew, if_true, Option.some.injEq, Prod.mk.injEq] at h
                    obtain ⟨rfl, rfl, rfl⟩ := h
                    exact ⟨rfl, rfl, Or.inl rfl⟩
                | false =>
                    simp only [hnew, Bool.false_eq_true, if_false, Option.map_eq_some_iff,
                      Prod.mk.injEq] at h
                    obtain ⟨_, hdigest, rfl, rfl, rfl⟩ := h
                    exact ⟨rfl, rfl, Or.inr ⟨object, s, hsession, hs, hnew, hdigest⟩⟩
          · simp only [Option.some.injEq, Prod.mk.injEq] at h
            obtain ⟨rfl, rfl, rfl⟩ := h
            exact Or.inl ⟨rfl, rfl, rfl⟩

/-- Everything `authorize` can do: leave the session alone, or hand out a challenge with the
identifier of the session it finds or makes. -/
theorem authorize_cases {resp resp' : HttpResponse} {realm : CString} {type : AuthType}
    {random : Option CString} {ok : Bool}
    (h : authorize md5 m now req resp realm type random = some (m', q, resp', ok)) :
    (m' = m ∧ q = req) ∨
    (¬(type = .basic ∨ type = .any) ∧ ok = true ∧ m' = (req.session md5 m now true).1 ∧
      q = (req.session md5 m now true).2 ∧
      ∃ key object s, random = some key ∧ q.session_ = some object ∧ m'.deref object = some s ∧
        resp' = resp.header "WWW-Authenticate".toList
          ("Digest realm=\"".toList ++ realm ++ "\", ".toList ++ "nonce=\"".toList ++
            (md5 key).text ++ "\", algorithm=MD5, opaque=\"".toList ++ s.id.take 32 ++
            "\"".toList)) := by
  unfold authorize at h
  by_cases htype : type = .basic ∨ type = .any
  · simp only [htype, if_true, Option.map_eq_some_iff, Prod.mk.injEq] at h
    obtain ⟨_, _, rfl, rfl, _, _⟩ := h
    exact Or.inl ⟨rfl, rfl⟩
  · cases random with
    | none =>
        simp only [htype, if_false, Option.some.injEq, Prod.mk.injEq] at h
        obtain ⟨rfl, rfl, _, _⟩ := h
        exact Or.inl ⟨rfl, rfl⟩
    | some key =>
        simp only [htype, if_false, Option.map_eq_some_iff, Option.bind_eq_some_iff,
          Prod.mk.injEq] at h
        obtain ⟨sbuf, hsbuf, s, ⟨object, hobject, hs⟩, rfl, rfl, rfl, rfl⟩ := h
        obtain ⟨_, rfl⟩ := koreBufAppendv_args_iff.1 hsbuf
        exact Or.inr ⟨htype, rfl, rfl, rfl, key, object, s, rfl, hobject, hs, rfl⟩

end Sparc

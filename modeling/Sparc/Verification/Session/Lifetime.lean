import Sparc.Library.Machine
import Sparc.Model.Worker
import Sparc.Verification.Auth.Calls
import Sparc.Verification.Session.Refinement

/-! # The session pointers that requests keep -/

namespace Sparc

open HttpSessionManager

variable {η : Type*} {md5 : CString → Digest}

/-! ## What a lookup leaves in the table -/

section table

variable {m : HttpSessionManager} {now object : ℕ} {ip : CString} {flag : Bool}

theorem create_keeps_object (h : m.WellFormed)
    (hspare : ∀ s, m.stored (ipToSessionId md5 m ip) = some s → expired s now = true →
      object ≠ s.object)
    (hobject : object ∈ m.sessions_.map HttpSession.object) :
    object ∈ (create md5 m now ip flag).1.sessions_.map HttpSession.object := by
  have hpurged : ∀ m₁, m.Purged now (ipToSessionId md5 m ip) m₁ →
      object ∈ m₁.sessions_.map HttpSession.object := by
    intro m₁ hpurged
    obtain ⟨s, hs, rfl⟩ := List.mem_map.mp hobject
    refine List.mem_map_of_mem ((hpurged.mem_iff s).mpr ⟨hs, ?_⟩)
    intro hid
    exact hspare s (hid ▸ h.stored_of_mem hs) (hpurged.expired_of_id s hs hid) rfl
  rcases create_cases h md5 now ip flag with
    ⟨raw, _, _, _, _, hm⟩ | ⟨_, _, hp⟩ | ⟨_, _, m₁, hp, hm⟩
  · rw [hm, put_objects]
    exact hobject
  · exact hpurged _ hp
  · rw [hm, List.map_append]
    exact List.mem_append_left _ (hpurged m₁ hp)

theorem create_gives_object (h : m.WellFormed) {s : HttpSession}
    (hs : (create md5 m now ip flag).2 = some s) :
    s.object ∈ (create md5 m now ip flag).1.sessions_.map HttpSession.object := by
  rcases create_cases h md5 now ip flag with
    ⟨raw, hraw, _, _, hfound, hm⟩ | ⟨_, hnone, _⟩ | ⟨_, hfound, m₁, _, hm⟩
  · obtain rfl := Option.some.inj (hs.symm.trans hfound)
    rw [hm, put_objects]
    exact List.mem_map.mpr ⟨raw, hraw, rfl⟩
  · simp [hnone] at hs
  · obtain rfl := Option.some.inj (hs.symm.trans hfound)
    rw [hm]
    simp

end table

/-! ## Workers -/

namespace Worker

/-- The kept session of every live request is in the table. -/
def Valid (w : Worker η) : Prop :=
  ∀ r req object, w.requests r = some req → req.session_ = some object →
    object ∈ w.manager.sessions_.map HttpSession.object

/-- The event makes `HttpRequest::session` look for the session of the request. -/
def LooksUp (e : WorkerEvent η) (req : SessionRequest η) : Prop :=
  req.session_ = none ∧
  match e with
  | .session _ => True
  | .authorize _ _ type random => ¬(type = .basic ∨ type = .any) ∧ random.isSome
  | .authenticate _ getInfo type =>
      getInfo.isSome ∧ ∃ header, req.header "Authorization".toList = some header ∧
        scheme type header = some .digest
  | _ => False

/-- No lookup finds a session that has expired while a live request keeps it. -/
def Spares (md5 : CString → Digest) (w : Worker η) (e : WorkerEvent η) : Prop :=
  ∀ r req s, w.current = some (r, req) → LooksUp e req →
    w.manager.stored (ipToSessionId md5 w.manager req.ip) = some s → expired s w.now = true →
    ∀ r' req', w.requests r' = some req' → req'.session_ ≠ some s.object

/-- The invariant of a worker. -/
structure Good (w : Worker η) : Prop where
  wellFormed : w.manager.WellFormed
  valid : w.Valid

theorem new_good (key : CString) (timeout : ℤ) (now : ℕ) :
    (new key timeout now : Worker η).Good := by
  refine ⟨new_wellFormed key timeout, ?_⟩
  intro r req object hr
  simp [new] at hr

variable {w w' : Worker η} {r : ℕ} {req : SessionRequest η}

theorem current_eq (h : w.current = some (r, req)) :
    w.running = some r ∧ w.requests r = some req := by
  simp only [current, Option.bind_eq_some_iff, Option.map_eq_some_iff, Prod.mk.injEq] at h
  obtain ⟨r', hrun, req', hreq, rfl, rfl⟩ := h
  exact ⟨hrun, hreq⟩

theorem requests_update {m : HttpSessionManager} {q : SessionRequest η} {r' : ℕ}
    {req' : SessionRequest η} (h : (w.update m r q).requests r' = some req') :
    (r' = r ∧ req' = q) ∨ w.requests r' = some req' ∧ r' ≠ r := by
  by_cases hne : r' = r
  · subst hne
    simp only [update, Function.update_self, Option.some.injEq] at h
    exact Or.inl ⟨rfl, h.symm⟩
  · simp only [update, Function.update_of_ne hne] at h
    exact Or.inr ⟨h, hne⟩

theorem requests_release {r' : ℕ} {req' : SessionRequest η}
    (h : (w.release r).requests r' = some req') : w.requests r' = some req' := by
  by_cases hne : r' = r
  · simp [Worker.release, hne] at h
  · simpa only [Worker.release, Function.update_of_ne hne] using h

/-! ## What an event does to the sessions and the requests -/

/-- The steps of a worker. A lookup that makes a session is one of `HttpRequest::session`, or
belongs to a challenge that is sent. -/
inductive Moves (md5 : CString → Digest) (w : Worker η) :
    WorkerEvent η → Worker η → WorkerAnswer → Prop where
  | keep {e : WorkerEvent η} {w' : Worker η} {answer : WorkerAnswer}
      (hsessions : w'.manager.sessions_ = w.manager.sessions_)
      (hallocated : w'.manager.allocated = w.manager.allocated)
      (hkey : w'.manager.key = w.manager.key) (hrequests : w'.requests = w.requests) :
      Moves md5 w e w' answer
  | handle (req : HttpRequest η) (ip : CString) (running : Option ℕ) (count : ℕ) :
      Moves md5 w (.handle req ip)
        { w.update w.manager w.count { req with ip, session_ := none } with running, count } .none
  | release {e : WorkerEvent η} (r : ℕ) (running : Option ℕ) :
      Moves md5 w e { w.release r with running := running } .none
  | write {e : WorkerEvent η} {answer : WorkerAnswer} {r : ℕ} {req : SessionRequest η}
      (hcur : w.current = some (r, req)) : Moves md5 w e (w.update w.manager r req) answer
  | session {e : WorkerEvent η} {answer : WorkerAnswer} {r : ℕ} {req : SessionRequest η}
      {flag : Bool} (hcur : w.current = some (r, req))
      (hlooks : req.session_ = none → LooksUp e req)
      (hmakes : flag = true → e = .session true ∨ ∃ resp realm type random resp',
        e = .authorize resp realm type random ∧ ¬(type = .basic ∨ type = .any) ∧
        answer = .authorized resp' true) :
      Moves md5 w e (w.update (req.session md5 w.manager w.now flag).1 r
        (req.session md5 w.manager w.now flag).2) answer

theorem step_moves {e : WorkerEvent η} {answer : WorkerAnswer}
    (hstep : step md5 w e = some (w', answer)) : Moves md5 w e w' answer := by
  cases e with
  | tick d =>
      cases hstep
      exact .keep rfl rfl rfl rfl
  | timeout timeout =>
      cases hstep
      exact .keep rfl rfl rfl rfl
  | handle req ip =>
      simp only [step, Option.ite_none_right_eq_some, Option.some.injEq, Prod.mk.injEq] at hstep
      obtain ⟨-, rfl, rfl⟩ := hstep
      exact .handle req ip (some w.count) (w.count + 1)
  | resume r =>
      simp only [step, Option.ite_none_right_eq_some, Option.some.injEq, Prod.mk.injEq] at hstep
      obtain ⟨-, rfl, -⟩ := hstep
      exact .keep rfl rfl rfl rfl
  | drop r =>
      simp only [step, Option.ite_none_right_eq_some, Option.some.injEq, Prod.mk.injEq] at hstep
      obtain ⟨-, rfl, rfl⟩ := hstep
      exact .release r w.running
  | session flag =>
      simp only [step, Option.map_eq_some_iff, Prod.mk.injEq, Prod.exists] at hstep
      obtain ⟨r, req, hcur, rfl, -⟩ := hstep
      exact .session hcur (fun hnone => ⟨hnone, trivial⟩) (fun hflag => Or.inl (by rw [hflag]))
  | authorize resp realm type random =>
      simp only [step, Option.bind_eq_some_iff, Option.map_eq_some_iff, Prod.mk.injEq,
        Prod.exists] at hstep
      obtain ⟨r, req, hcur, m', q, resp', ok, hauth, rfl, rfl⟩ := hstep
      rcases authorize_cases hauth with ⟨rfl, rfl⟩ | ⟨htype, rfl, rfl, rfl, _, _, _, rfl, -⟩
      · exact .write hcur
      · exact .session hcur (fun hnone => ⟨hnone, htype, rfl⟩)
          (fun _ => Or.inr ⟨resp, realm, type, _, resp', rfl, htype, rfl⟩)
  | authenticate behind getInfo type =>
      simp only [step, Option.bind_eq_some_iff, Option.map_eq_some_iff, Prod.mk.injEq,
        Prod.exists] at hstep
      obtain ⟨r, req, hcur, m', q, v, hauth, rfl, -⟩ := hstep
      rcases authenticate_cases hauth with
        ⟨rfl, rfl, -⟩ | ⟨_, _, _, _, _, rfl, rfl, -⟩ |
        ⟨_, header, rfl, hheader, hscheme, rfl, rfl, -⟩
      · exact .write hcur
      · exact .write hcur
      · exact .session hcur (fun hnone => ⟨hnone, rfl, header, hheader, hscheme⟩) nofun
  | suspend =>
      simp only [step, Option.map_eq_some_iff, Prod.mk.injEq] at hstep
      obtain ⟨_, -, rfl, -⟩ := hstep
      exact .keep rfl rfl rfl rfl
  | finish =>
      simp only [step, Option.map_eq_some_iff, Prod.mk.injEq] at hstep
      obtain ⟨c, -, rfl, rfl⟩ := hstep
      exact .release c.1 none

/-! ## Kept sessions are in the table -/

/-- A request that keeps nothing, or what it kept before, can be written. -/
theorem Good.write (h : w.Good) {q : SessionRequest η}
    (hq : ∀ object, q.session_ = some object →
      object ∈ w.manager.sessions_.map HttpSession.object) :
    (w.update w.manager r q).Good := by
  refine ⟨h.wellFormed, ?_⟩
  intro r' req' object hr' hobject
  rcases requests_update hr' with ⟨rfl, rfl⟩ | ⟨hold, -⟩
  · exact hq object hobject
  · exact h.valid r' req' object hold hobject

theorem Good.release (h : w.Good) (r : ℕ) : (w.release r).Good := by
  refine ⟨h.wellFormed, ?_⟩
  intro r' req' object hr' hobject
  exact h.valid r' req' object (requests_release hr') hobject

/-- `HttpRequest::session` keeps every pointer valid, unless it discards a session that a
live request keeps. -/
theorem Good.session (h : w.Good) (hcur : w.current = some (r, req)) (flag : Bool)
    (hspare : req.session_ = none → ∀ s,
      w.manager.stored (ipToSessionId md5 w.manager req.ip) = some s →
      expired s w.now = true → ∀ r' req', w.requests r' = some req' →
      req'.session_ ≠ some s.object) :
    (w.update (req.session md5 w.manager w.now flag).1 r
      (req.session md5 w.manager w.now flag).2).Good := by
  obtain ⟨_, hreq⟩ := current_eq hcur
  cases hsession : req.session_ with
  | some kept =>
      simp only [SessionRequest.session, hsession]
      exact h.write (fun object hobject => h.valid r req object hreq hobject)
  | none =>
      simp only [SessionRequest.session, hsession]
      refine ⟨create_wellFormed h.wellFormed md5 w.now req.ip flag, ?_⟩
      intro r' req' object hr' hobject
      rcases requests_update hr' with ⟨rfl, rfl⟩ | ⟨hold, -⟩
      · obtain ⟨s, hs, rfl⟩ := Option.map_eq_some_iff.1 hobject
        exact create_gives_object h.wellFormed hs
      · refine create_keeps_object h.wellFormed ?_ (h.valid r' req' object hold hobject)
        intro s hs hexp heq
        exact hspare hsession s hs hexp r' req' hold (heq ▸ hobject)

/-- Every event that spares the kept sessions keeps the invariant. -/
theorem step_good (h : w.Good) {e : WorkerEvent η} {answer : WorkerAnswer}
    (hspare : w.Spares md5 e) (hstep : step md5 w e = some (w', answer)) : w'.Good := by
  cases step_moves hstep with
  | keep hsessions hallocated hkey hrequests =>
      refine ⟨h.wellFormed.congr hsessions hallocated, ?_⟩
      rw [Valid, hsessions, hrequests]
      exact h.valid
  | handle req ip running count =>
      have hnew := h.write (r := w.count) (q := { req with ip, session_ := none }) nofun
      exact ⟨hnew.wellFormed, hnew.valid⟩
  | release r running =>
      have hrelease := h.release r
      exact ⟨hrelease.wellFormed, hrelease.valid⟩
  | @write _ _ r req hcur =>
      exact h.write (fun object => h.valid r req object (current_eq hcur).2)
  | @session _ _ r req flag hcur hlooks hmakes =>
      exact h.session hcur flag (fun hnone s => hspare r req s hcur (hlooks hnone))

/-- In every run in which no lookup meets an expired session that a live request keeps, no
live request ever keeps a discarded session. -/
theorem kept_session_in_table (md5 : CString → Digest) (key : CString) (timeout : ℤ) (now : ℕ)
    (events : List (WorkerEvent η)) (w : Worker η) (answers : List WorkerAnswer)
    (hspare : Machine.Always (step md5) (Spares md5) (new key timeout now) events)
    (hrun : Machine.exec (step md5) (new key timeout now) events = some (w, answers)) :
    w.Valid := by
  have hstep : ∀ (w : Worker η) e w' answer, Good w → Spares md5 w e →
      step md5 w e = some (w', answer) → Good w' :=
    fun w e w' answer h hspare hstep => step_good h hspare hstep
  exact (Machine.exec_invariant hstep (new_good key timeout now) hspare hrun).valid

/-- A request is suspended with its session, and after the given time a second one from
the same address asks for its session. -/
def sampleEvents (d : ℕ) : List (WorkerEvent Unit) :=
  [.handle (.new .GET "/a".toList) "10.0.0.1".toList, .session true, .suspend, .tick d,
    .handle (.new .GET "/b".toList) "10.0.0.1".toList, .session true]

/-- Within the timeout, both requests keep the one session. -/
theorem kept_session_in_table_shared :
    ∃ w answers, Machine.exec (step sampleMd5) (new (List.replicate 32 'k') 10 1)
      (sampleEvents 5) = some (w, answers) ∧ w.Valid := by
  refine ⟨_, _, rfl, kept_session_in_table sampleMd5 (List.replicate 32 'k') 10 1
    (sampleEvents 5) _ _ ?_ rfl⟩
  refine ⟨fun _ _ _ _ hlook => hlook.2.elim, ?_⟩
  intro w₁ h₁
  obtain rfl := Option.some.inj h₁
  refine ⟨?_, ?_⟩
  · intro r req s hcur _ hstored
    simp [new, stored, HttpSessionManager.new] at hstored
  · intro w₂ h₂
    obtain rfl := Option.some.inj h₂
    refine ⟨fun _ _ _ _ hlook => hlook.2.elim, ?_⟩
    intro w₃ h₃
    obtain rfl := Option.some.inj h₃
    refine ⟨fun _ _ _ _ hlook => hlook.2.elim, ?_⟩
    intro w₄ h₄
    obtain rfl := Option.some.inj h₄
    refine ⟨fun _ _ _ _ hlook => hlook.2.elim, ?_⟩
    intro w₅ h₅
    obtain rfl := Option.some.inj h₅
    refine ⟨?_, fun _ _ => trivial⟩
    intro r req s hcur _ hstored hexp
    obtain rfl := (Prod.mk.inj (Option.some.inj hcur)).2
    obtain rfl := Option.some.inj hstored
    exact absurd hexp (by decide)

/-- Once the session has expired, the second request makes the manager discard it. -/
theorem kept_session_discarded :
    ∃ w answers, Machine.exec (step sampleMd5) (new (List.replicate 32 'k') 10 1)
      (sampleEvents 11) = some (w, answers) ∧ ¬w.Valid := by
  refine ⟨_, _, rfl, ?_⟩
  intro hvalid
  have hmem := hvalid 0 _ 0 rfl rfl
  revert hmem
  decide

end Worker

end Sparc

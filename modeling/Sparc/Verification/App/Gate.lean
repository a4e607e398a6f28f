import Sparc.Verification.App.Dispatch

/-! # Before filters as a gate

A filter that returns `$ABORT` stops the filter loop and the request. A filter that halts
ends the response, but the loop goes on: the next filter that covers the route is invoked,
and its return code decides about the route handler.
-/

namespace Sparc

/-- The outcomes by which a filter refuses a request. -/
def Outcome.Refuses (o : Outcome) : Prop :=
  o = .ret Ret.abort ∨ ∃ status what, o = .halt status what

/-- The outcomes by which a filter stops the filters behind it without aborting. -/
def Outcome.Stops (o : Outcome) : Prop :=
  o = .exception ∨ ∃ status what, o = .halt status what

/-- Behind a before filter that refuses, neither another filter nor the route handler is
invoked. -/
def Gated (trace : List Event) : Prop :=
  ∀ i o, .fidec .before i o ∈ trace → o.Refuses →
    (∀ j o', i < j → .fidec .before j o' ∉ trace) ∧ ∀ e ∈ trace, e.isHandler = false

namespace App

variable {σ : Type*} {app : App σ} {method : Method} {path : CString} {headers : List Header}
  {world : σ} {x : Exchange σ} {rh : RouteHandler (Target σ)}

/-- The before filters recorded for a request are those its loop has visited. -/
theorem Routed.mem_before_iff (h : Routed app method path headers world x rh) (i : ℕ)
    (o : Outcome) :
    .fidec .before i o ∈ (app.handle method path headers world).exchange.trace ↔
      .fidec .before i o ∈ (fidecsFrom .before rh.prefix_ (fidecStart x) app.before_).2.trace := by
  rw [h.handle_eq, ← mem_callFidecs_iff]
  rcases handleRoute_cases app x rh with ⟨-, heq⟩ | ⟨-, heq⟩ | ⟨status, -, -, heq⟩
  · rw [heq]
    rfl
  · rw [heq]
    have hgrows := Exchange.grows_end (callFidecs .before app.before_ rh.prefix_ x).2
      (callFidecs .before app.before_ rh.prefix_ x).2.resp.status_ none
    exact ⟨fun hmem => hgrows.mem_of_not hmem rfl, hgrows.mem⟩
  · rw [heq]
    have hgrows := grows_runHandler app (callFidecs .before app.before_ rh.prefix_ x).2 rh
    exact ⟨fun hmem => hgrows.mem_of_not hmem rfl, hgrows.mem⟩

theorem Routed.not_handler_before (h : Routed app method path headers world x rh) :
    ∀ e ∈ (callFidecs .before app.before_ rh.prefix_ x).2.trace, e.isHandler = false := by
  intro e he
  have hgrows : Exchange.Grows (Event.ofFidecs .before) x
    (callFidecs .before app.before_ rh.prefix_ x).2 := grows_callFidecs _ _
  by_contra hhandler
  have hold := hgrows.mem_of_not he
    (by cases e <;> simp_all [Event.isHandler, Event.ofFidecs])
  rw [h.trace_nil] at hold
  simp at hold

/-- The route handler is invoked only when the before filters did not abort. -/
theorem Routed.not_abort_of_handler (h : Routed app method path headers world x rh) {e : Event}
    (he : e ∈ (app.handle method path headers world).exchange.trace)
    (hhandler : e.isHandler = true) :
    ∃ status, (fidecsFrom .before rh.prefix_ (fidecStart x) app.before_).1 = some status ∧
      status ≠ Ret.abort ∧ app.handle method path headers world =
        app.runHandler (callFidecs .before app.before_ rh.prefix_ x).2 rh := by
  have hbefore : e ∉ (callFidecs .before app.before_ rh.prefix_ x).2.trace := by
    intro hmem
    rw [h.not_handler_before e hmem] at hhandler
    cases hhandler
  rcases handleRoute_cases app x rh with ⟨-, heq⟩ | ⟨-, heq⟩ | ⟨status, hstatus, hne, heq⟩
  · rw [h.handle_eq, heq] at he
    exact absurd he hbefore
  · rw [h.handle_eq, heq] at he
    refine absurd ((Exchange.grows_end _ _ _).mem_of_not he ?_) hbefore
    cases e <;> simp_all [Event.isHandler, Event.isResponse]
  · exact ⟨status, hstatus, hne, h.handle_eq.trans heq⟩

/-- At a filter that refuses, with no filter behind a halt, the loop ends with `$ABORT`. -/
theorem Visit.refused {fidecs post : List (Fidec σ)} {pfx : CString} {s : FidecState σ}
    {fc : Fidec σ} (h : Visit .before pfx x fidecs s fc post)
    (hrefuses : (s.x.reaction fc.h).outcome.Refuses)
    (hfree : ∀ status what, (s.x.reaction fc.h).outcome = .halt status what →
      ∀ fc' ∈ post, fc'.covers pfx = false) :
    (fidecsFrom .before pfx (fidecStart x) fidecs).1 = some Ret.abort ∧
      ∀ s₂ fc₂ post₂, Visit .before pfx x fidecs s₂ fc₂ post₂ → ¬ s.index < s₂.index := by
  rcases hrefuses with ho | ⟨status, what, ho⟩
  · have hstep := @fidecStep_ret σ .before pfx s fc h.covers _ ho
    rw [if_pos (Or.inl rfl)] at hstep
    refine ⟨by rw [h.run_stop hstep], ?_⟩
    intro s₂ fc₂ post₂ h₂ hlt
    obtain ⟨s', hs'⟩ := (h.of_later h₂ hlt).1
    rw [hstep] at hs'
    cases hs'
  · constructor
    · rw [h.run_next (fidecStep_halt s h.covers ho), fidecsFrom_skip _ (hfree status what ho)]
    · intro s₂ fc₂ post₂ h₂ hlt
      have hcovers := hfree status what ho fc₂ (h.of_later h₂ hlt).2
      rw [h₂.covers] at hcovers
      cases hcovers

/-- The gate holds exactly when no filter that is reached and halts has another filter
behind it that covers the route. -/
theorem gated_iff (app : App σ) (method : Method) (path : CString) (headers : List Header)
    (world : σ) :
    Gated (app.handle method path headers world).exchange.trace ↔
      ∀ x rh, Routed app method path headers world x rh →
        ∀ s fc post, Visit .before rh.prefix_ x app.before_ s fc post →
          ∀ status what, (s.x.reaction fc.h).outcome = .halt status what →
            ∀ fc' ∈ post, fc'.covers rh.prefix_ = false := by
  constructor
  · intro hgated x rh hrouted s fc post hvisit status what ho fc' hfc'
    by_contra hcovers
    obtain ⟨s₂, fc₂, post₂, hvisit₂, hlt⟩ := hvisit.exists_later
      (fidecStep_halt s hvisit.covers ho) ⟨fc', hfc', by simpa using hcovers⟩
    have hmem := (hrouted.mem_before_iff _ _).mpr hvisit.mem_trace
    have hmem₂ := (hrouted.mem_before_iff _ _).mpr hvisit₂.mem_trace
    rw [ho] at hmem
    exact (hgated _ _ hmem (Or.inr ⟨status, what, rfl⟩)).1 _ _ hlt hmem₂
  · intro hfree i o hmem hrefuses
    obtain ⟨x, rh, hrouted⟩ := routed_of_mem hmem rfl
    obtain ⟨s, fc, post, hvisit, rfl, rfl⟩ := visit_of_mem hrouted.trace_nil
      ((hrouted.mem_before_iff i o).mp hmem)
    obtain ⟨habort, hlast⟩ := hvisit.refused hrefuses (hfree x rh hrouted s fc post hvisit)
    constructor
    · intro j o' hlt hmem'
      obtain ⟨s₂, fc₂, post₂, hvisit₂, rfl, -⟩ := visit_of_mem hrouted.trace_nil
        ((hrouted.mem_before_iff j o').mp hmem')
      exact hlast s₂ fc₂ post₂ hvisit₂ hlt
    · intro e he
      by_contra hhandler
      obtain ⟨status, hstatus, hne, -⟩ :=
        hrouted.not_abort_of_handler he (by simpa using hhandler)
      rw [habort] at hstatus
      exact hne (Option.some.inj hstatus).symm

/-- `GET /private`, with a handler that returns `OK`. -/
def privateRoute : Registration (Target Unit) :=
  ⟨.GET, "/private".toList, ⟨some (always (.ret Status.ok)), none⟩, none⟩

theorem private_configured (filters : List Outcome) :
    Configured (single privateRoute filters) := by
  have hroute : (App.new noFiles []).route .GET (some "/private".toList) none
      (some (always (.ret Status.ok))) none = some (single privateRoute [], true) := rfl
  exact single_configured (.route (.new noFiles []) hroute) filters

/-- A filter that halts lets the next one decide, and the handler is invoked behind it. -/
theorem not_gated_halt_continue :
    ∃ app : App Unit, Configured app ∧
      ¬ Gated (app.handle .GET "/private".toList [] ()).exchange.trace := by
  refine ⟨single privateRoute haltContinue, private_configured _, ?_⟩
  intro hgated
  have hhalt := hgated 0 (.halt 401 (some "no".toList)) (by decide) (Or.inr ⟨_, _, rfl⟩)
  exact hhalt.1 1 (.ret Ret.continue_) (by decide) (by decide)

/-! ## Filters that fail -/

/-- The handler is not invoked and one response is sent, with status 500. -/
def FailsClosed (trace : List Event) : Prop :=
  (∀ e ∈ trace, e.isHandler = false) ∧
    ∃ sent, trace.filter Event.isResponse = [.response sent] ∧
      sent.status = Status.internalError

/-- A before filter that throws lets the request through to the route handler. -/
theorem not_failsClosed (hconf : Configured app) {i : ℕ}
    (h : .fidec .before i .exception ∈ (app.handle method path headers world).exchange.trace) :
    ¬ FailsClosed (app.handle method path headers world).exchange.trace := by
  obtain ⟨x, rh, hrouted⟩ := routed_of_mem h rfl
  obtain ⟨s, fc, post, hvisit, -, ho⟩ := visit_of_mem hrouted.trace_nil
    ((hrouted.mem_before_iff i .exception).mp h)
  have hrun := hvisit.run_stop (fidecStep_exception s hvisit.covers ho)
  have hpass : (callFidecs .before app.before_ rh.prefix_ x).1 = some Status.internalError := by
    rw [callFidecs_fst, hrun]
  obtain ⟨hd, hh⟩ := hrouted.handler_isSome hconf
  have hmem := hrouted.mem_handler hh hpass (by decide)
  intro hclosed
  cases hclosed.1 _ hmem

theorem not_failsClosed_private :
    ¬ FailsClosed ((single privateRoute [.ret Ret.continue_, .exception]).handle .GET
      "/private".toList [] ()).exchange.trace :=
  @not_failsClosed Unit _ .GET "/private".toList [] () (private_configured _) 1 (by decide)

/-- The guard throws, and the handler is invoked all the same. -/
theorem exception_reaches_handler :
    ∃ app : App Unit, Configured app ∧
      .fidec .before 0 .exception ∈ (app.handle .GET "/private".toList [] ()).exchange.trace ∧
      .handler .GET "/private".toList 0 ∈
        (app.handle .GET "/private".toList [] ()).exchange.trace ∧
      ¬ FailsClosed (app.handle .GET "/private".toList [] ()).exchange.trace := by
  refine ⟨single privateRoute [.exception], private_configured _, by decide, by decide, ?_⟩
  intro hclosed
  exact absurd (hclosed.1 (.handler .GET "/private".toList 0) (by decide)) (by decide)

/-! ## Requests under the path of a filter -/

/-- Where the loop finds the response ended, a filter has halted before. -/
theorem halt_of_ended {pre : List (Fidec σ)} {s : FidecState σ} (hx : x.resp.ended_ = false)
    (h : Loop.Passes (fidecStep .before rh.prefix_) (fidecStart x) pre s)
    (hended : s.x.resp.ended_ = true) :
    ∃ j status what, j < s.index ∧ .fidec .before j (.halt status what) ∈ s.x.trace := by
  revert hended
  refine h.invariant (P := fun s : FidecState σ => s.x.resp.ended_ = true →
    ∃ j status what, j < s.index ∧ .fidec .before j (.halt status what) ∈ s.x.trace) ?_ ?_
  · intro s fc s' ih hstep hended
    have hgrows := fidecStep_next_grows hstep
    cases fidecStep_next hstep with
    | skip hc =>
        obtain ⟨j, status, what, hj, hmem⟩ := ih hended
        exact ⟨j, status, what, Nat.lt_succ_of_lt hj, hmem⟩
    | ret hc ho hne hopen => simp [visited, hopen] at hended
    | @halt hc status what ho =>
        refine ⟨s.index, status, what, Nat.lt_succ_self _, ?_⟩
        have hmem := Exchange.mem_invoke s.x fc.h (.fidec .before s.index (.halt status what))
        apply (Exchange.grows_end _ _ _).mem
        rw [visited, ho]
        exact hmem
  · intro hended
    simp [fidecStart, hx] at hended

/-- The loop arrives at a filter that covers the route, unless an earlier one stops it. -/
theorem visit_or_stop {pre post : List (Fidec σ)} {fc : Fidec σ} (hx : x.resp.ended_ = false)
    (hc : fc.covers rh.prefix_ = true) {status : ℤ}
    (hstatus : (fidecsFrom .before rh.prefix_ (fidecStart x) (pre ++ fc :: post)).1 = some status)
    (hne : status ≠ Ret.abort) :
    ∃ o, .fidec .before pre.length o ∈
        (fidecsFrom .before rh.prefix_ (fidecStart x) (pre ++ fc :: post)).2.trace ∨
      ∃ j < pre.length, o.Stops ∧ .fidec .before j o ∈
        (fidecsFrom .before rh.prefix_ (fidecStart x) (pre ++ fc :: post)).2.trace := by
  rcases Loop.passes_or_stops (fidecStep .before rh.prefix_) (fidecStart x) pre with
    ⟨s, hpasses⟩ | ⟨pre', fc', post', s, r, rfl, hpasses, hstop⟩
  · have hvisit : Visit .before rh.prefix_ x (pre ++ fc :: post) s fc post :=
      ⟨⟨pre, rfl, hpasses⟩, hc⟩
    have hindex : s.index = pre.length := by simpa [fidecStart] using passes_index hpasses
    exact ⟨_, Or.inl (hindex ▸ hvisit.mem_trace)⟩
  · have hvisit : Visit .before rh.prefix_ x (pre' ++ fc' :: post' ++ fc :: post) s fc'
        (post' ++ fc :: post) :=
      ⟨⟨pre', by simp, hpasses⟩, (fidecStep_stop hstop).covers⟩
    have hindex : s.index = pre'.length := by simpa [fidecStart] using passes_index hpasses
    have hrun := hvisit.run_stop hstop
    have hmem := hvisit.mem_trace
    rw [hrun] at hstatus
    have hlen : pre'.length < (pre' ++ fc' :: post').length := by simp
    cases fidecStep_stop hstop with
    | @ret _ status' ho hwhy =>
        have hended : s.x.resp.ended_ = true := by
          rcases hwhy with rfl | hended
          · exact absurd (Option.some.inj hstatus).symm hne
          · exact hended
        obtain ⟨j, code, what, hj, hhalt⟩ := halt_of_ended hx hpasses hended
        refine ⟨.halt code what, Or.inr ⟨j, by omega, Or.inr ⟨code, what, rfl⟩, ?_⟩⟩
        rw [hrun]
        exact (grows_visited s fc').mem hhalt
    | exception _ ho =>
        rw [ho, hindex] at hmem
        exact ⟨.exception, Or.inr ⟨pre'.length, hlen, Or.inl rfl, hmem⟩⟩
    | foreign _ ho => cases hstatus

theorem covers_of_prefix {fc : Fidec σ} {p pfx : CString} (hm : fc.match_ = some p)
    (hp : p <+: path) (hpfx : pfx <+: path) (hle : p.length ≤ pfx.length) :
    fc.covers pfx = true := by
  obtain ⟨rest, rfl⟩ := List.prefix_of_prefix_length_le hp hpfx hle
  simp [Fidec.covers, hm, equalsNoCase]

/-- A filter whose path is a prefix of the request path, and not longer than the literal
prefix of the route, is invoked before the route handler. -/
theorem filter_before_handler (hconf : Configured app) (hslash : path.head? = some '/') {i : ℕ}
    {fc : Fidec σ} (hfc : app.before_[i]? = some fc) {p : CString} (hm : fc.match_ = some p)
    (hp : p <+: path) {m : Method} {pfx : CString} {n : ℕ}
    (hhandler : .handler m pfx n ∈ (app.handle method path headers world).exchange.trace)
    (hle : p.length ≤ pfx.length) :
    (∃ t₁ t₂ o, (app.handle method path headers world).exchange.trace = t₁ ++ t₂ ∧
      .fidec .before i o ∈ t₁ ∧ ∀ e ∈ t₁, e.isHandler = false) ∨
    ∃ j < i, ∃ o : Outcome, o.Stops ∧
      .fidec .before j o ∈ (app.handle method path headers world).exchange.trace := by
  obtain ⟨x, rh, hrouted⟩ := routed_of_mem hhandler rfl
  obtain ⟨status, hstatus, hne, hrun⟩ := hrouted.not_abort_of_handler hhandler rfl
  have hpfx : pfx = rh.prefix_ := by
    rw [hrun] at hhandler
    rcases of_mem_runHandler hhandler rfl with hmem | heq
    · cases hrouted.not_handler_before _ hmem
    · simp only [Event.handler.injEq] at heq
      exact heq.2.1
  obtain ⟨table, hrep, -⟩ := hconf.represents
  have hcovers : fc.covers rh.prefix_ = true :=
    covers_of_prefix hm hp (hrouted.prefix_isPrefix hrep hslash) (hpfx ▸ hle)
  obtain ⟨pre, post, hbefore, hi⟩ : ∃ pre post, app.before_ = pre ++ fc :: post ∧
      pre.length = i := by
    obtain ⟨hlt, hget⟩ := List.getElem?_eq_some_iff.mp hfc
    refine ⟨app.before_.take i, app.before_.drop (i + 1), ?_, by simp; omega⟩
    rw [← hget, ← List.drop_eq_getElem_cons hlt, List.take_append_drop]
  rw [hbefore] at hstatus
  obtain ⟨o, hmem | ⟨j, hj, hstops, hmem⟩⟩ :=
    visit_or_stop hrouted.ended_eq_false hcovers hstatus hne
  · left
    rw [← hbefore, hi, ← mem_callFidecs_iff] at hmem
    obtain ⟨es, hes, -⟩ := grows_runHandler app
      (callFidecs .before app.before_ rh.prefix_ x).2 rh
    exact ⟨_, es, o, by rw [hrun, hes], hmem, hrouted.not_handler_before⟩
  · right
    rw [← hbefore, ← hrouted.mem_before_iff] at hmem
    exact ⟨j, hi ▸ hj, o, hstops, hmem⟩

/-- `GET /users/:name` behind a filter for the given path. -/
def usersApp (p : CString) : App Unit where
  router_ := (Router.new.addAll [serveUser.toRegistration]).getD Router.new
  before_ := [⟨always (.ret Ret.continue_), some p⟩]
  after_ := []
  sfRouter_ := noFiles
  serverVersion := []

theorem usersApp_configured (p : CString) : Configured (usersApp p) := by
  have hroute : (App.new noFiles []).route .GET (some serveUser.toRegistration.route) none
      (some (always (.ret Status.ok))) none =
        some (⟨(usersApp p).router_, [], [], noFiles, []⟩, true) := rfl
  exact .fidec (.route (.new noFiles []) hroute) true (some p)
    (some (always (.ret Ret.continue_)))

theorem filter_before_joe :
    (∃ t₁ t₂ o, ((usersApp "/users".toList).handle .GET "/users/joe".toList [] ()).exchange.trace =
        t₁ ++ t₂ ∧
      .fidec .before 0 o ∈ t₁ ∧ ∀ e ∈ t₁, e.isHandler = false) ∨
    ∃ j < 0, ∃ o : Outcome, o.Stops ∧ .fidec .before j o ∈
      ((usersApp "/users".toList).handle .GET "/users/joe".toList [] ()).exchange.trace :=
  @filter_before_handler Unit (usersApp "/users".toList) .GET "/users/joe".toList [] ()
    (usersApp_configured _) rfl 0 _ rfl _ rfl (by decide) .GET "/users/".toList 1 (by decide)
    (by decide)

/-- The filter for `/users/admin` does not cover `/users/:name`. -/
theorem admin_not_filtered :
    ∃ app : App Unit, Configured app ∧
      app.before_.map (·.match_) = [some "/users/admin".toList] ∧
      .handler .GET "/users/".toList 1 ∈
        (app.handle .GET "/users/admin".toList [] ()).exchange.trace ∧
      ∀ i o, .fidec .before i o ∉
        (app.handle .GET "/users/admin".toList [] ()).exchange.trace := by
  refine ⟨usersApp "/users/admin".toList, usersApp_configured _, rfl, by decide, ?_⟩
  intro i o hmem
  have hnone : ∀ e ∈ ((usersApp "/users/admin".toList).handle .GET "/users/admin".toList []
      ()).exchange.trace, e.ofFidecs .before = true → e.isResponse = true ∨
        e = .fidecs .before Ret.continue_ := by
    decide
  rcases hnone _ hmem rfl with h | h <;> cases h

end App

end Sparc

import Sparc.Verification.App.Completion
import Sparc.Verification.App.Dispatch

/-! # The responses of a request

Every way in which `App::handle` and `App::completeRequest` release a request sends its
response, except that of a stranded request. The return code of the route handler does not
reach the decision to flush: after `$SKIP_FLUSH` the response is sent all the same.
-/

namespace Sparc

variable {σ : Type*}

/-- When its objects are released, the request has been answered once, or not at all if
the after filters result in `$SKIP_FLUSH`. -/
def AnsweredOnce (p : Progress σ) : Prop :=
  ∀ x, p = .released x →
    x.sentCount = if .fidecs .after Ret.skipFlush ∈ x.trace then 0 else 1

namespace App

/-! ## The result of the after filters -/

section Result

variable {stage : Stage} {pfx : CString} {fidecs : List (Fidec σ)} {x w : Exchange σ} {ret : ℤ}

theorem callFidecs_eq_some (h : callFidecs stage fidecs pfx x = (some ret, w)) :
    (fidecsFrom stage pfx (fidecStart x) fidecs).1 = some ret ∧
      w = (fidecsFrom stage pfx (fidecStart x) fidecs).2.log (.fidecs stage ret) := by
  have hret : (fidecsFrom stage pfx (fidecStart x) fidecs).1 = some ret := congrArg Prod.fst h
  have hw : (fidecsFrom stage pfx (fidecStart x) fidecs).1.elim _ _ = w := congrArg Prod.snd h
  rw [hret] at hw
  exact ⟨hret, hw.symm⟩

/-- The filters result in `$SKIP_FLUSH` with the response ended exactly when one of them
returns it with the response already ended. -/
theorem skipFlush_ended_iff :
    ((fidecsFrom stage pfx (fidecStart x) fidecs).1 = some Ret.skipFlush ∧
      (fidecsFrom stage pfx (fidecStart x) fidecs).2.resp.ended_ = true) ↔
    ∃ s fc post, Visit stage pfx x fidecs s fc post ∧
      (s.x.reaction fc.h).outcome = .ret Ret.skipFlush ∧ s.x.resp.ended_ = true := by
  constructor
  · rintro ⟨hskip, hended⟩
    rcases Loop.passes_or_stops (fidecStep stage pfx) (fidecStart x) fidecs with
      ⟨s, hpasses⟩ | ⟨pre, fc, post, s, r, hl, hpasses, hstop⟩
    · -- a filter that lets the loop go on with this status leaves the response open
      have hopen : s.status = Ret.skipFlush → s.x.resp.ended_ = false := by
        refine hpasses.invariant (P := fun s : FidecState σ =>
          s.status = Ret.skipFlush → s.x.resp.ended_ = false) ?_ (fun h => by cases h)
        intro s fc s' ih hstep hstatus
        cases fidecStep_next hstep with
        | skip hc => exact ih hstatus
        | ret hc ho hne hopen => simpa [visited] using hopen
        | halt hc ho => cases hstatus
      rw [fidecsFrom, Loop.run_of_passes hpasses] at hskip hended
      rw [hopen (Option.some.inj hskip)] at hended
      cases hended
    · have hvisit : Visit stage pfx x fidecs s fc post :=
        ⟨⟨pre, hl, hpasses⟩, (fidecStep_stop hstop).covers⟩
      rw [hvisit.run_stop hstop] at hskip hended
      refine ⟨s, fc, post, hvisit, ?_⟩
      cases fidecStep_stop hstop with
      | ret hc ho hwhy =>
          obtain rfl := Option.some.inj hskip
          exact ⟨ho, by simpa [visited] using hended⟩
      | exception hc ho => cases hskip
      | foreign hc ho => cases hskip
  · rintro ⟨s, fc, post, hvisit, ho, hended⟩
    have hstep := @fidecStep_ret σ stage pfx s fc hvisit.covers _ ho
    rw [if_pos (Or.inr hended)] at hstep
    rw [hvisit.run_stop hstep]
    exact ⟨rfl, by simpa [visited] using hended⟩

end Result

/-! ## One response -/

section Answered

variable {app : App σ} {method : Method} {path : CString} {headers : List Header} {world : σ}
  {resume : Resumption σ} {x y z : Exchange σ} {rh : RouteHandler (Target σ)}

/-- Before the after filters are called, a released request has been answered exactly when
the latch is set. -/
theorem answeredOnce_of_pending (h : x.Pending) :
    AnsweredOnce (.released x) ↔ x.resp.ended_ = true := by
  have hcount : x.sentCount = if x.resp.ended_ then 1 else 0 := h.latched
  constructor
  · intro hanswered
    have hone := hanswered x rfl
    rw [if_neg (h.unfiltered _), hcount] at hone
    simpa using hone
  · intro hended x' heq
    obtain rfl := Progress.released.inj heq
    rw [if_neg (h.unfiltered _), hcount, if_pos hended]

/-- The after filters record their result, and their status does not touch the latch. -/
theorem closing_state {ret : ℤ} {w : Exchange σ} (h : z.Pending)
    (hcall : callFidecs .after app.after_ rh.prefix_ z = (some ret, w)) :
    Exchange.Latched { w with resp := afterStatus ret w.resp } ∧
      (.fidecs .after Ret.skipFlush ∈ w.trace ↔ ret = Ret.skipFlush) := by
  have hlatched := @latched_callFidecs σ .after rh.prefix_ z h.latched app.after_
  rw [hcall] at hlatched
  refine ⟨hlatched.of_eq rfl (afterStatus_ended ret w.resp), ?_⟩
  have hfresh : .fidecs .after Ret.skipFlush ∉
      (fidecsFrom .after rh.prefix_ (fidecStart z) app.after_).2.trace := by
    intro hmem
    exact h.unfiltered _ ((grows_fidecsFrom (fidecStart z) app.after_).mem_of_not hmem rfl)
  rw [(callFidecs_eq_some hcall).2]
  simp [Exchange.log, hfresh, eq_comm]

/-- `App::completeRequest` flushes the response unless the after filters result in
`$SKIP_FLUSH`. -/
theorem answeredOnce_closing (h : z.Pending) :
    AnsweredOnce (app.closing z rh) ↔
      ¬ ((fidecsFrom .after rh.prefix_ (fidecStart z) app.after_).1 = some Ret.skipFlush ∧
        (fidecsFrom .after rh.prefix_ (fidecStart z) app.after_).2.resp.ended_ = true) := by
  cases hcall : callFidecs .after app.after_ rh.prefix_ z with
  | mk ret w =>
      cases ret with
      | none =>
          have hnone : (fidecsFrom .after rh.prefix_ (fidecStart z) app.after_).1 = none :=
            congrArg Prod.fst hcall
          simp [AnsweredOnce, closing, hcall, hnone]
      | some ret =>
          obtain ⟨hlatched, hmem⟩ := closing_state h hcall
          obtain ⟨hret, hw⟩ := callFidecs_eq_some hcall
          set v : Exchange σ := { w with resp := afterStatus ret w.resp } with hv
          rw [hret, Option.some.injEq]
          by_cases hskip : ret = Ret.skipFlush
          · have hclosing : app.closing z rh = .released v := by
              simp [closing, hcall, hskip, hv]
            have hended : v.resp.ended_ =
                (fidecsFrom .after rh.prefix_ (fidecStart z) app.after_).2.resp.ended_ := by
              rw [hv, afterStatus_ended, hw]
              rfl
            have hcount : v.sentCount = if v.resp.ended_ then 1 else 0 := hlatched
            simp only [AnsweredOnce, hclosing, Progress.released.injEq, forall_eq']
            rw [if_pos (hmem.mpr hskip), hcount, hended]
            simp [hskip]
          · have hclosing : app.closing z rh = .released v.flush := by
              simp [closing, hcall, hskip, hv]
            have hcount : v.flush.sentCount = 1 := by
              have hflushed : v.flush.Latched := hlatched.flush
              simpa [Exchange.Latched] using hflushed
            have hnotMem : .fidecs .after Ret.skipFlush ∉ v.flush.trace := by
              intro hin
              have hv : .fidecs .after Ret.skipFlush ∈ v.trace :=
                (Exchange.grows_end v _ _).mem_of_not hin rfl
              exact hskip (hmem.mp hv)
            simp only [AnsweredOnce, hclosing, Progress.released.injEq, forall_eq']
            simp [hnotMem, hcount, hskip]

/-- A request is answered once exactly when it is not stranded with its response open, and
no after filter returns `$SKIP_FLUSH` behind a halt that has ended the response. -/
theorem answeredOnce_iff (app : App σ) (method : Method) (path : CString)
    (headers : List Header) (world : σ) (resume : Resumption σ) :
    AnsweredOnce (app.serve method path headers world resume) ↔
      (∀ x rh, Stranded app method path headers world x rh → x.resp.ended_ = true) ∧
      ∀ z rh, Closes app method path headers world resume z rh →
        ∀ s fc post, Visit .after rh.prefix_ z app.after_ s fc post →
          (s.x.reaction fc.h).outcome = .ret Ret.skipFlush → s.x.resp.ended_ = false := by
  constructor
  · intro hanswered
    constructor
    · intro x rh hstranded
      obtain ⟨y, hserve, hpending, hended⟩ := hstranded.serve_released resume
      rw [hserve, answeredOnce_of_pending hpending, hended] at hanswered
      exact hanswered
    · intro z rh hcloses s fc post hvisit ho
      rw [hcloses.serve_eq, answeredOnce_closing hcloses.pending, skipFlush_ended_iff] at hanswered
      by_contra hended
      exact hanswered ⟨s, fc, post, hvisit, ho, by simpa using hended⟩
  · rintro ⟨hstranded, hcloses⟩
    have hexit := serve_exit app method path headers world resume
    generalize app.serve method path headers world resume = p at hexit ⊢
    cases hexit with
    | @unrouted y sent htrace =>
        intro x heq
        obtain rfl := Progress.released.inj heq
        simp [Exchange.sentCount, htrace, Event.isResponse]
    | @flushed y hy => exact (answeredOnce_of_pending hy.flush).mpr (Exchange.flush_ended y)
    | stranded h hy hended =>
        exact (answeredOnce_of_pending hy).mpr (hended.trans (hstranded _ _ h))
    | closed h =>
        rw [answeredOnce_closing h.pending, skipFlush_ended_iff]
        rintro ⟨s, fc, post, hvisit, ho, hended⟩
        rw [hcloses _ _ h s fc post hvisit ho] at hended
        cases hended
    | escaped y =>
        intro x heq
        cases heq

end Answered

/-- `GET /async`, with a handler that returns `$ASYNC` and sets no states. -/
def asyncRoute : Registration (Target Unit) :=
  ⟨.GET, "/async".toList, ⟨some (always (.ret Ret.async)), none⟩, none⟩

/-- The client of a stranded request gets no response. -/
theorem async_not_answered :
    ∃ app : App Unit, Configured app ∧
      ¬ AnsweredOnce (app.serve .GET "/async".toList [] () (fun _ => ([], Status.ok, ()))) := by
  have hroute : (App.new noFiles []).route .GET (some "/async".toList) none
      (some (always (.ret Ret.async))) none = some (single asyncRoute [], true) := rfl
  refine ⟨single asyncRoute [], .route (.new noFiles []) hroute, ?_⟩
  intro hanswered
  exact absurd (hanswered _ rfl) (by decide)

/-! ## Handlers that skip the flush -/

/-- From `x` to `y` the framework sends no response. -/
def NoFurtherResponse (x y : Exchange σ) : Prop :=
  Exchange.Grows (fun e => !e.isResponse) x y

section Skip

variable {app : App σ} {method : Method} {path : CString} {headers : List Header} {world : σ}
  {x y z : Exchange σ} {rh : RouteHandler (Target σ)}

theorem noFurtherResponse_iff {K : Event → Bool} (h : Exchange.Grows K x y) :
    NoFurtherResponse x y ↔ y.sentCount = x.sentCount := by
  constructor
  · exact fun hno => hno.sentCount_eq (by simp)
  · intro hcount
    obtain ⟨es, hes, -⟩ := h
    have hzero : es.countP Event.isResponse = 0 := by
      simpa [Exchange.sentCount, hes, List.countP_append] using hcount
    refine ⟨es, hes, ?_⟩
    intro e he
    simpa using List.countP_eq_zero.mp hzero e he

theorem latched_closing (app : App σ) (rh : RouteHandler (Target σ)) (h : z.Pending) :
    (app.closing z rh).exchange.Latched := by
  have hlatched := @latched_callFidecs σ .after rh.prefix_ z h.latched app.after_
  cases hcall : callFidecs .after app.after_ rh.prefix_ z with
  | mk ret w =>
      rw [hcall] at hlatched
      simp only [closing, hcall]
      cases ret with
      | none => exact hlatched
      | some ret =>
          have hset := (closing_state h hcall).1
          by_cases hskip : ret = Ret.skipFlush
          · simpa [Progress.exchange, hskip] using hset
          · simpa [Progress.exchange, hskip] using hset.flush

theorem latched_completeRequest (app : App σ) (rh : RouteHandler (Target σ)) (status : ℤ)
    (h : y.Pending) : (app.completeRequest y rh status).exchange.Latched := by
  cases ht : rh.h.transformer with
  | none =>
      rw [completeRequest_of_none ht]
      exact latched_closing app rh (prepared_pending h rh status)
  | some rt =>
      have htransformed := transformed_pending h rt
      rw [completeRequest_of_some ht]
      cases (rt y.resp y.world).1.status with
      | none => exact htransformed.latched
      | some code =>
          by_cases hne : code = Ret.abort
          · simpa [hne, Progress.exchange] using htransformed.latched.flush
          · have hswap := swapBody_pending htransformed (rt y.resp y.world).1.buffer
            simpa [hne] using latched_closing app rh (prepared_pending hswap rh code)

/-- After filters that all return `$CONTINUE` result in it. -/
theorem fidecsFrom_continue {stage : Stage} {pfx : CString} {fidecs : List (Fidec σ)}
    (h : ∀ fc ∈ fidecs, ∀ req resp world, (fc.h req resp world).1.outcome = .ret Ret.continue_)
    {s : FidecState σ} (hs : s.status = Ret.continue_) :
    (fidecsFrom stage pfx s fidecs).1 = some Ret.continue_ := by
  induction fidecs generalizing s with
  | nil => exact congrArg some hs
  | cons fc fidecs ih =>
      have hrest := fun fc' (hfc' : fc' ∈ fidecs) => h fc' (List.mem_cons_of_mem _ hfc')
      have ho : (s.x.reaction fc.h).outcome = .ret Ret.continue_ := h fc (by simp) _ _ _
      cases hstep : fidecStep stage pfx s fc with
      | next s' =>
          simp only [fidecsFrom, Loop.run, hstep]
          apply ih hrest
          cases fidecStep_next hstep with
          | skip hc => exact hs
          | ret hc ho' hne hopen => exact Outcome.ret.inj (ho'.symm.trans ho)
          | halt hc ho' => cases ho.symm.trans ho'
      | stop r =>
          simp only [fidecsFrom, Loop.run, hstep]
          cases fidecStep_stop hstep with
          | ret hc ho' hwhy => exact congrArg some (Outcome.ret.inj (ho'.symm.trans ho))
          | exception hc ho' => cases ho.symm.trans ho'
          | foreign hc ho' => cases ho.symm.trans ho'

theorem closing_ended (rh : RouteHandler (Target σ)) (z : Exchange σ)
    (h : ∀ fc ∈ app.after_, ∀ req resp world,
      (fc.h req resp world).1.outcome = .ret Ret.continue_) :
    (app.closing z rh).exchange.resp.ended_ = true := by
  cases hcall : callFidecs .after app.after_ rh.prefix_ z with
  | mk ret w =>
      have hret : ret = some Ret.continue_ := by
        have hfst : (callFidecs .after app.after_ rh.prefix_ z).1 = some Ret.continue_ :=
          fidecsFrom_continue h rfl
        rwa [hcall] at hfst
      have hne : Ret.continue_ ≠ Ret.skipFlush := by decide
      simp [closing, hcall, hret, Progress.exchange, hne]

/-- With such after filters the response is sent, unless the transformer throws. -/
theorem completeRequest_ended (rh : RouteHandler (Target σ)) (y : Exchange σ) (status : ℤ)
    (h : ∀ fc ∈ app.after_, ∀ req resp world,
      (fc.h req resp world).1.outcome = .ret Ret.continue_)
    (hrt : ∀ rt, rh.h.transformer = some rt → (rt y.resp y.world).1.status ≠ none) :
    (app.completeRequest y rh status).exchange.resp.ended_ = true := by
  cases ht : rh.h.transformer with
  | none =>
      rw [completeRequest_of_none ht]
      exact closing_ended rh _ h
  | some rt =>
      rw [completeRequest_of_some ht]
      cases hcode : (rt y.resp y.world).1.status with
      | none => exact absurd hcode (hrt rt ht)
      | some code =>
          by_cases hne : code = Ret.abort
          · simp [hne, Progress.exchange]
          · simpa [hne] using closing_ended rh _ h

/-- Behind a route handler that returns `$SKIP_FLUSH` the response is kept back only when a
halt has sent it before, or the transformer throws. -/
theorem skipFlush_noFurtherResponse_iff (h : Entered app method path headers world x rh)
    {hd : Handler σ} (hh : rh.h.h = some hd)
    (ho : (x.reaction hd).outcome = .ret Ret.skipFlush)
    (hafter : ∀ fc ∈ app.after_, ∀ req resp world,
      (fc.h req resp world).1.outcome = .ret Ret.continue_) :
    NoFurtherResponse (handled rh hd x) (app.handle method path headers world).exchange ↔
      x.resp.ended_ = true ∨
      ∃ rt, rh.h.transformer = some rt ∧
        (rt (handled rh hd x).resp (handled rh hd x).world).1.status = none := by
  have hended : (handled rh hd x).resp.ended_ = x.resp.ended_ := Exchange.invoke_ended x hd _
  have hcall := callRequestHandler_ret hh ho
  generalize handled rh hd x = y at hended hcall ⊢
  have hhandle : app.handle method path headers world =
      app.completeRequest y rh Ret.skipFlush := by
    rw [h.handle_eq]
    simp only [runHandler, hcall, afterHandler]
    rfl
  have hpending : y.Pending := by
    have hpending := pending_callRequestHandler rh h.pending
    rwa [hcall] at hpending
  have hgrows := grows_completeRequest app y rh Ret.skipFlush
  have hfirst : y.sentCount = if x.resp.ended_ then 1 else 0 := hended ▸ hpending.latched
  have hlast := latched_completeRequest app rh Ret.skipFlush hpending
  rw [hhandle, noFurtherResponse_iff hgrows]
  constructor
  · intro hcount
    by_contra hnot
    simp only [not_or, not_exists, not_and, Bool.not_eq_true] at hnot
    unfold Exchange.Latched at hlast
    rw [completeRequest_ended rh y Ret.skipFlush hafter hnot.2, hcount, hfirst, hnot.1] at hlast
    cases hlast
  · intro hkept
    cases hkept with
    | inl hx =>
        rw [if_pos hx] at hfirst
        have hle := hgrows.sentCount_le
        have hone := hlast.sentCount_le_one
        omega
    | inr hthrows =>
        obtain ⟨rt, ht, hnone⟩ := hthrows
        rw [completeRequest_of_some ht, hnone]
        have htransformed : (transformed rt y).sentCount =
            if (transformed rt y).resp.ended_ then 1 else 0 :=
          (transformed_pending hpending rt).latched
        rw [Progress.exchange, htransformed, hfirst, ← hended]
        simp [transformed, Exchange.log]

end Skip

/-- The accept key of the sample nonce that the request below sends. -/
def sampleAccept (_ : CString) : Option CString := some "s3pPLMBiTxaQ9kYGzzhZRbK+xOo=".toList

/-- The route that `webSocket` installs for `/chat`. -/
def chatRoute : Registration (Target Unit) :=
  ⟨.GET, "/chat".toList, ⟨some (webSocketHandler sampleAccept), none⟩, none⟩

def upgrade : List Header :=
  [("sec-websocket-key".toList, "dGhlIHNhbXBsZSBub25jZQ==".toList),
    ("sec-websocket-version".toList, "13".toList)]

/-- The handler that the router finds for `/chat`. -/
def chatHandler : RouteHandler (Target Unit) :=
  ⟨"/chat".toList, none, chatRoute.h, .GET, [], "/chat".toList, 0⟩

/-- The exchange of an upgrade of `/chat` behind the before filters. -/
def chatExchange (filters : List Outcome) : Exchange Unit :=
  (callFidecs .before (single chatRoute filters).before_ "/chat".toList
    { (single chatRoute filters).start .GET "/chat".toList upgrade () with
      req := (HttpRequest.new .GET "/chat".toList upgrade).resolveRoute
        (single chatRoute filters).router_ }).2

theorem skipFlush_noFurtherResponse_halted :
    NoFurtherResponse
      (handled chatHandler (webSocketHandler sampleAccept) (chatExchange haltContinue))
      ((single chatRoute haltContinue).handle .GET "/chat".toList upgrade ()).exchange := by
  have hentered : Entered (single chatRoute haltContinue) .GET "/chat".toList upgrade ()
      (chatExchange haltContinue) chatHandler :=
    ⟨_, Ret.continue_, ⟨by decide, rfl, rfl⟩, rfl, by decide⟩
  exact (skipFlush_noFurtherResponse_iff hentered rfl rfl nofun).mpr (Or.inl rfl)

/-- An upgrade is answered with `101`, and then by the framework with `200`. -/
theorem upgrade_answered_twice :
    ∃ (app : App Unit) (x : Exchange Unit) (rh : RouteHandler (Target Unit)) (hd : Handler Unit),
      Configured app ∧ app.after_ = [] ∧ Entered app .GET "/chat".toList upgrade () x rh ∧
      rh.h.h = some hd ∧ (x.reaction hd).outcome = .ret Ret.skipFlush ∧
      .httpResponse 101 ∈ (handled rh hd x).trace ∧
      ¬ NoFurtherResponse (handled rh hd x)
        (app.handle .GET "/chat".toList upgrade ()).exchange := by
  have hroute : (App.new noFiles []).webSocket sampleAccept (some "/chat".toList) true =
      some (single chatRoute [], true) := rfl
  refine ⟨single chatRoute [], chatExchange [], chatHandler, webSocketHandler sampleAccept,
    .webSocket (.new noFiles []) hroute, rfl,
    ⟨_, Ret.continue_, ⟨by decide, rfl, rfl⟩, rfl, by decide⟩, rfl, rfl, by decide, ?_⟩
  intro hno
  exact absurd (hno.sentCount_eq (by simp)) (by decide)

end App

end Sparc
